import Mathlib.Init

/-! `IDistributedLock`: the entry points both locks implement. -/
namespace CloudWeb.Lock

/-- Milliseconds after which, the interface says, a lock nobody released is released. -/
def DEFAULT_TIMEOUT : Int := 3000

structure DistributedLockException (ε : Type) where
  cause : ε
  deriving DecidableEq, Repr

inductive Entry
  | lock
  | tryLock
  | tryLockFor (timeout : Int)
  deriving DecidableEq, Repr

/-- The timeout the interface documents for an entry point. -/
def Entry.timeout : Entry → Int
  | .lock => DEFAULT_TIMEOUT
  | .tryLock => DEFAULT_TIMEOUT
  | .tryLockFor timeout => timeout

end CloudWeb.Lock
