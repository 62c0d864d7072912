import CloudWeb.Lock.IDistributedLock

/-! `RedisLock` over Redisson's `RLock`. -/
namespace CloudWeb.Lock

/-- What Redisson throws when it is asked for a lock. -/
inductive RedissonException
  | unavailable
  deriving DecidableEq, Repr

namespace RedisLock

/-- The private `lock(timeout)`, given how `RLock.lock(timeout, unit)` ended. -/
def lockFor (locked : Except RedissonException Unit) : Except RedissonException Unit := locked

def lock (locked : Except RedissonException Unit) : Except RedissonException Unit := lockFor locked

def tryLock (locked : Except RedissonException Unit) : Bool :=
  match lockFor locked with
  | .ok () => true
  | .error _ => false

def tryLockFor (locked : Except RedissonException Unit) : Bool :=
  match lockFor locked with
  | .ok () => true
  | .error _ => false

/-- The lease `RLock.lock` is given. -/
def leaseTime : Entry → Int
  | .lock => DEFAULT_TIMEOUT
  | .tryLock => DEFAULT_TIMEOUT
  | .tryLockFor timeout => timeout

def succeeds (e : Entry) (locked : Except RedissonException Unit) : Bool :=
  match e with
  | .lock => (lock locked).isOk
  | .tryLock => tryLock locked
  | .tryLockFor _ => tryLockFor locked

end RedisLock
end CloudWeb.Lock
