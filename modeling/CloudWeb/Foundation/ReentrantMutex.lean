import Mathlib.Logic.Function.Basic

/-! A reentrant mutex: nobody's, or one owner's with the acquisitions beyond the first. -/
namespace CloudWeb.Foundation

inductive ReentrantMutex (ι : Type*)
  | free
  | held (owner : ι) (again : Nat)
  deriving DecidableEq, Repr

namespace ReentrantMutex
variable {ι : Type*} [DecidableEq ι]

def acquire (i : ι) : ReentrantMutex ι → Option (ReentrantMutex ι)
  | .free => some (.held i 0)
  | .held j n => if j = i then some (.held j (n+1)) else none

/-- Only the owner can release. -/
def release (i : ι) : ReentrantMutex ι → Option (ReentrantMutex ι)
  | .free => none
  | .held j 0 => if j = i then some .free else none
  | .held j (n+1) => if j = i then some (.held j n) else none

/-- How many releases `i` owes. -/
def count (i : ι) : ReentrantMutex ι → Nat
  | .free => 0
  | .held j n => if j = i then n+1 else 0

theorem acquire_count {m m' : ReentrantMutex ι} {i : ι} (h : m.acquire i = some m') :
    m'.count i = m.count i + 1 ∧ ∀ j, j ≠ i → m'.count j = m.count j := by
  cases m with
  | free =>
    cases h
    refine ⟨?_,fun j hj => ?_⟩
    · simp only [count,if_true]
    · simp only [count,if_neg hj.symm]
  | held k n =>
    simp only [acquire] at h
    split at h
    · next hk =>
      cases h
      subst hk
      refine ⟨?_,fun j hj => ?_⟩
      · simp only [count,if_true]
      · simp only [count,if_neg hj.symm]
    · cases h

theorem release_count {m m' : ReentrantMutex ι} {i : ι} (h : m.release i = some m') :
    m.count i = m'.count i + 1 ∧ ∀ j, j ≠ i → m'.count j = m.count j := by
  rcases m with _ | ⟨k,_ | n⟩
  · cases h
  all_goals
    simp only [release] at h
    split at h
    · next hk =>
      cases h
      subst hk
      refine ⟨?_,fun j hj => ?_⟩
      · simp only [count,if_true]
      · simp only [count,if_neg hj.symm]
    · cases h

theorem release_of_owner {m : ReentrantMutex ι} {i : ι} (h : 0 < m.count i) :
    ∃ m', m.release i = some m' := by
  rcases m with _ | ⟨k,_ | n⟩
  · cases h
  all_goals
    by_cases hk : k = i
    · exact ⟨_,if_pos hk⟩
    · rw [count,if_neg hk] at h
      cases h

theorem owner_unique {m : ReentrantMutex ι} {i j : ι} (hi : 0 < m.count i) (hj : 0 < m.count j) :
    i = j := by
  cases m with
  | free => cases hi
  | held k n =>
    have hk {l : ι} (hl : 0 < (held k n).count l) : k = l := by
      by_contra hne
      rw [count,if_neg hne] at hl
      cases hl
    exact (hk hi).symm.trans (hk hj)

end ReentrantMutex
end CloudWeb.Foundation
