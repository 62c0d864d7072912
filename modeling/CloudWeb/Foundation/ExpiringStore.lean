import Mathlib.Logic.Function.Basic

/-! Keys with a time to live, at explicit time. A key vanishes when its time ends. -/
namespace CloudWeb.Foundation

structure ExpiringStore (κ : Type*) where
  now : Nat := 0
  expiry : κ → Option Nat := fun _ => none

namespace ExpiringStore
variable {κ : Type*} [DecidableEq κ]

def Present (s : ExpiringStore κ) (k : κ) : Prop := ∃ e ∈ s.expiry k, s.now < e

instance (s : ExpiringStore κ) (k : κ) : Decidable (s.Present k) :=
  inferInstanceAs (Decidable (∃ e ∈ s.expiry k, s.now < e))

def set (s : ExpiringStore κ) (k : κ) (ttl : Nat) : ExpiringStore κ :=
  { s with expiry := Function.update s.expiry k (some (s.now+ttl)) }

/-- Whether the key was set, which is whether it was absent. -/
def setIfAbsent (s : ExpiringStore κ) (k : κ) (ttl : Nat) : Bool × ExpiringStore κ :=
  if s.Present k then (false,s) else (true,s.set k ttl)

def elapse (s : ExpiringStore κ) (d : Nat) : ExpiringStore κ := { s with now := s.now+d }

omit [DecidableEq κ] in
@[simp] theorem not_present_empty (k : κ) : ¬ ({} : ExpiringStore κ).Present k := by
  rintro ⟨e,he,_⟩
  cases he

@[simp] theorem present_elapse_set {s : ExpiringStore κ} {k : κ} {ttl d : Nat} :
    ((s.set k ttl).elapse d).Present k ↔ d < ttl := by
  simp [Present,set,elapse]

@[simp] theorem expiry_set_self (s : ExpiringStore κ) (k : κ) (ttl : Nat) :
    (s.set k ttl).expiry k = some (s.now+ttl) := Function.update_self ..

theorem expiry_set_ne (s : ExpiringStore κ) {j k : κ} (h : j ≠ k) (ttl : Nat) :
    (s.set k ttl).expiry j = s.expiry j := Function.update_of_ne h ..

@[simp] theorem now_set (s : ExpiringStore κ) (k : κ) (ttl : Nat) : (s.set k ttl).now = s.now := rfl

theorem setIfAbsent_present {s : ExpiringStore κ} {j : κ} (h : s.Present j) (k : κ) (ttl : Nat) :
    (s.setIfAbsent k ttl).2.expiry j = s.expiry j := by
  unfold setIfAbsent
  split
  · rfl
  · next hk =>
    apply expiry_set_ne
    rintro rfl
    exact hk h

@[simp] theorem now_setIfAbsent (s : ExpiringStore κ) (k : κ) (ttl : Nat) :
    (s.setIfAbsent k ttl).2.now = s.now := by
  unfold setIfAbsent
  split <;> rfl

/-- A key that was set has a whole time to live before it. -/
theorem setIfAbsent_absent {s : ExpiringStore κ} {k : κ} (h : ¬ s.Present k) (ttl : Nat) :
    (s.setIfAbsent k ttl).2 = s.set k ttl := by
  rw [setIfAbsent,if_neg h]

theorem setIfAbsent_fst {s : ExpiringStore κ} {k : κ} {ttl : Nat} :
    (s.setIfAbsent k ttl).1 = true ↔ ¬ s.Present k := by
  unfold setIfAbsent
  split
  · next h => exact ⟨fun hf => absurd hf Bool.false_ne_true,fun hn => absurd h hn⟩
  · next h => exact ⟨fun _ => h,fun _ => rfl⟩

end ExpiringStore
end CloudWeb.Foundation
