import CloudWeb.Java.Long

/-! The Redis counter behind `RAtomicLong`, and the class that returns it as it is.
A command either answers and leaves a new counter, or is refused on overflow. -/
namespace CloudWeb.Sequence
open Java

inductive RedisException
  | overflow
  | unavailable
  deriving DecidableEq, Repr

namespace RAtomicLong

/-- The answer and the new counter. Redis counters are signed 64-bit and do not wrap. -/
def incrementAndGet (counter : Int) : Option (Int × Int) :=
  if Long.InRange (counter+1) then some (counter+1,counter+1) else none

def getAndAdd (delta counter : Int) : Option (Int × Int) :=
  if Long.InRange (counter+delta) then some (counter,counter+delta) else none

theorem incrementAndGet_some {c v c' : Int} (h : incrementAndGet c = some (v,c')) :
    v = c+1 ∧ c' = c+1 ∧ Long.InRange c' := by
  unfold incrementAndGet at h
  split at h
  · next hr =>
    cases h
    exact ⟨rfl,rfl,hr⟩
  · cases h

theorem getAndAdd_some {d c v c' : Int} (h : getAndAdd d c = some (v,c')) :
    v = c ∧ c' = c+d ∧ Long.InRange c' := by
  unfold getAndAdd at h
  split at h
  · next hr =>
    cases h
    exact ⟨rfl,rfl,hr⟩
  · cases h

end RAtomicLong

namespace RedisSequence

def sequenceKey (name : String) : String := "concurrent:sequence:" ++ name

def next (reply : Except RedisException Int) : Except RedisException Int := reply

end RedisSequence
end CloudWeb.Sequence
