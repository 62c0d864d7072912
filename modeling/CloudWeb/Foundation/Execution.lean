import Mathlib.Logic.Relation
import Mathlib.Data.List.Basic

/-! Executions of a partial labelled step function. A label carries every choice
of the scheduler, so a schedule is a list of labels and a refused label is `none`. -/
namespace CloudWeb.Foundation
variable {σ α τ : Type*}

/-- Run a whole schedule, stopping at the first label that is not enabled. -/
def exec (step : σ → α → Option σ) : σ → List α → Option σ
  | s, [] => some s
  | s, a :: as => (step s a).bind (exec step · as)

/-- Every step of the schedule is taken in a state that meets `ok`. -/
def StepsMeet (step : σ → α → Option σ) (ok : σ → α → Prop) : σ → List α → Prop
  | _, [] => True
  | s, a :: as => ok s a ∧ ∀ t, step s a = some t → StepsMeet step ok t as

/-- Every state visited by the schedule, the first and the last included, has `p`. -/
def Always (step : σ → α → Option σ) (p : σ → Prop) : σ → List α → Prop
  | s, [] => p s
  | s, a :: as => p s ∧ ∀ t, step s a = some t → Always step p t as

/-- The states some schedule leads to. -/
def Reachable (step : σ → α → Option σ) (s t : σ) : Prop := ∃ as, exec step s as = some t

section Runs
variable {step : σ → α → Option σ} {ok : σ → α → Prop} {p q : σ → Prop}

@[simp] theorem exec_nil (s : σ) : exec step s [] = some s := rfl

theorem exec_cons (s : σ) (a : α) (as : List α) :
    exec step s (a :: as) = (step s a).bind (exec step · as) := rfl

theorem exec_cons_some {s u : σ} {a : α} {as : List α} (h : exec step s (a :: as) = some u) :
    ∃ t, step s a = some t ∧ exec step t as = some u := Option.bind_eq_some_iff.mp h

theorem exec_append (s : σ) (as bs : List α) :
    exec step s (as ++ bs) = (exec step s as).bind (exec step · bs) := by
  induction as generalizing s with
  | nil => rfl
  | cons a as ih =>
    rw [List.cons_append,exec_cons,exec_cons,Option.bind_assoc]
    exact congrArg (Option.bind (step s a)) (funext ih)

theorem exec_concat_iff {s u : σ} {a : α} {as : List α} :
    exec step s (as ++ [a]) = some u ↔ ∃ t, exec step s as = some t ∧ step t a = some u := by
  have hone (t : σ) : exec step t [a] = step t a := Option.bind_fun_some (step t a)
  rw [exec_append,Option.bind_eq_some_iff]
  simp only [hone]

/-- The invariant rule under a condition on the steps: what one admissible step
preserves, an admissible schedule preserves. -/
theorem exec_invariant {inv : σ → Prop}
    (hstep : ∀ s a t, inv s → ok s a → step s a = some t → inv t)
    {s t : σ} {as : List α} (hs : inv s) (hok : StepsMeet step ok s as)
    (h : exec step s as = some t) : inv t := by
  induction as generalizing s with
  | nil => exact Option.some.inj h ▸ hs
  | cons a as ih =>
    obtain ⟨u,hu,hr⟩ := exec_cons_some h
    exact ih (hstep s a u hs hok.1 hu) (hok.2 u hu) hr

/-- A condition on labels alone is checked on the schedule. -/
theorem stepsMeet_of_forall {ok : α → Prop} {as : List α} (h : ∀ a ∈ as, ok a) (s : σ) :
    StepsMeet step (fun _ a => ok a) s as := by
  induction as generalizing s with
  | nil => trivial
  | cons a as ih =>
    exact ⟨h a List.mem_cons_self,fun u _ => ih (fun b hb => h b (List.mem_cons_of_mem a hb)) u⟩

theorem StepsMeet.forall {ok : α → Prop} {s u : σ} {as : List α}
    (hok : StepsMeet step (fun _ a => ok a) s as) (h : exec step s as = some u) : ∀ a ∈ as, ok a := by
  induction as generalizing s with
  | nil => exact fun _ ha => absurd ha List.not_mem_nil
  | cons b as ih =>
    obtain ⟨t,ht,hr⟩ := exec_cons_some h
    intro a ha
    rcases List.mem_cons.mp ha with rfl | ha
    · exact hok.1
    · exact ih (hok.2 t ht) hr a ha

theorem StepsMeet.and {s : σ} {as : List α} {ok' : σ → α → Prop} (h : StepsMeet step ok s as)
    (h' : StepsMeet step ok' s as) : StepsMeet step (fun s a => ok s a ∧ ok' s a) s as := by
  induction as generalizing s with
  | nil => trivial
  | cons a as ih => exact ⟨⟨h.1,h'.1⟩,fun t ht => ih (h.2 t ht) (h'.2 t ht)⟩

theorem stepsMeet_true (s : σ) (as : List α) : StepsMeet step (fun _ _ => True) s as :=
  stepsMeet_of_forall (fun _ _ => trivial) s

/-- A condition that can be checked on a state can be checked along a schedule. -/
instance StepsMeet.decidable [∀ s a, Decidable (ok s a)] (s : σ) (as : List α) :
    Decidable (StepsMeet step ok s as) :=
  match as with
  | [] => isTrue trivial
  | a :: as =>
    have _ : Decidable (∀ t, step s a = some t → StepsMeet step ok t as) :=
      match step s a with
      | none => isTrue fun _ ht => nomatch ht
      | some u =>
        @decidable_of_iff _ (StepsMeet step ok u as)
          ⟨fun hu _ ht => Option.some.inj ht ▸ hu,fun hall => hall u rfl⟩ (StepsMeet.decidable u as)
    inferInstanceAs (Decidable (ok s a ∧ _))

instance Always.decidable [∀ s, Decidable (p s)] (s : σ) (as : List α) : Decidable (Always step p s as) :=
  match as with
  | [] => inferInstanceAs (Decidable (p s))
  | a :: as =>
    have _ : Decidable (∀ t, step s a = some t → Always step p t as) :=
      match step s a with
      | none => isTrue fun _ ht => nomatch ht
      | some u =>
        @decidable_of_iff _ (Always step p u as)
          ⟨fun hu _ ht => Option.some.inj ht ▸ hu,fun hall => hall u rfl⟩ (Always.decidable u as)
    inferInstanceAs (Decidable (p s ∧ _))

/-- A weaker condition, which may be drawn from the invariant too. -/
theorem StepsMeet.imp {inv : σ → Prop} {ok' : σ → α → Prop}
    (hstep : ∀ s a t, inv s → ok s a → step s a = some t → inv t)
    (himp : ∀ s a, inv s → ok s a → ok' s a) {s : σ} {as : List α} (hs : inv s)
    (hok : StepsMeet step ok s as) : StepsMeet step ok' s as := by
  induction as generalizing s with
  | nil => trivial
  | cons a as ih => exact ⟨himp s a hs hok.1,fun t ht => ih (hstep s a t hs hok.1 ht) (hok.2 t ht)⟩

/-- An admissible schedule keeps the invariant in every state it visits. -/
theorem StepsMeet.always {inv : σ → Prop}
    (hstep : ∀ s a t, inv s → ok s a → step s a = some t → inv t)
    {s : σ} {as : List α} (hs : inv s) (hok : StepsMeet step ok s as) :
    Always step inv s as := by
  induction as generalizing s with
  | nil => exact hs
  | cons a as ih => exact ⟨hs,fun t ht => ih (hstep s a t hs hok.1 ht) (hok.2 t ht)⟩

theorem Always.head {s : σ} {as : List α} (h : Always step p s as) : p s := by
  cases as with
  | nil => exact h
  | cons a as => exact h.1

theorem Always.after {s : σ} {as : List α} (h : Always step p s as) :
    StepsMeet step (fun s a => ∀ t, step s a = some t → p t) s as := by
  induction as generalizing s with
  | nil => trivial
  | cons a as ih => exact ⟨fun t ht => (h.2 t ht).head,fun t ht => ih (h.2 t ht)⟩

theorem Always.mono {s : σ} {as : List α} (hpq : ∀ t, p t → q t) (h : Always step p s as) :
    Always step q s as := by
  induction as generalizing s with
  | nil => exact hpq s h
  | cons a as ih => exact ⟨hpq s h.1,fun t ht => ih (h.2 t ht)⟩

theorem Always.last {s u : σ} {as : List α} (h : Always step p s as)
    (he : exec step s as = some u) : p u := by
  induction as generalizing s with
  | nil => exact Option.some.inj he ▸ h
  | cons a as ih =>
    obtain ⟨t,ht,hr⟩ := exec_cons_some he
    exact ih (h.2 t ht) hr

theorem Always.and {s : σ} {as : List α} (hp : Always step p s as) (hq : Always step q s as) :
    Always step (fun t => p t ∧ q t) s as := by
  induction as generalizing s with
  | nil => exact ⟨hp,hq⟩
  | cons a as ih => exact ⟨⟨hp.1,hq.1⟩,fun t ht => ih (hp.2 t ht) (hq.2 t ht)⟩

/-- A property that steps cannot repair held all along if it holds at the end. The
steps may be known to start from states with `q`. -/
theorem Always.of_last (hback : ∀ s a t, q s → step s a = some t → p t → p s)
    {s u : σ} {as : List α} (hq : Always step q s as) (he : exec step s as = some u) (hu : p u) :
    Always step p s as := by
  induction as generalizing s with
  | nil => exact Option.some.inj he ▸ hu
  | cons a as ih =>
    obtain ⟨t,ht,hr⟩ := exec_cons_some he
    have hat := ih (hq.2 t ht) hr
    refine ⟨hback s a t hq.1 ht hat.head,fun t' ht' => ?_⟩
    obtain rfl : t = t' := Option.some.inj (ht.symm.trans ht')
    exact hat

theorem always_of_last (hback : ∀ s a t, step s a = some t → p t → p s)
    {s u : σ} {as : List α} (he : exec step s as = some u) (hu : p u) : Always step p s as :=
  have htrue : Always step (fun _ => True) s as :=
    (stepsMeet_true s as).always (fun _ _ _ _ _ _ => trivial) trivial
  htrue.of_last (fun s a t _ => hback s a t) he hu

/-- Where every inadmissible step leads to a state without `p`, a run that stays
in `p` took admissible steps only. The invariant may use admissibility. -/
theorem Always.stepsMeet {inv : σ → Prop}
    (hstep : ∀ s a t, inv s → ok s a → step s a = some t → inv t)
    (hbad : ∀ s a t, inv s → step s a = some t → p t → ok s a)
    {s u : σ} {as : List α} (hs : inv s) (he : exec step s as = some u)
    (h : Always step p s as) : StepsMeet step ok s as := by
  induction as generalizing s with
  | nil => trivial
  | cons a as ih =>
    obtain ⟨t,ht,hr⟩ := exec_cons_some he
    have hok := hbad s a t hs ht (h.2 t ht).head
    refine ⟨hok,fun t' ht' => ?_⟩
    obtain rfl : t = t' := Option.some.inj (ht.symm.trans ht')
    exact ih (hstep s a t hs hok ht) hr (h.2 t ht)

/-- The variant rule: a number that every admissible step lowers bounds the length of an
admissible schedule. -/
theorem StepsMeet.length_le {μ : σ → Nat} (hstep : ∀ s a t, ok s a → step s a = some t → μ t < μ s)
    {s t : σ} {as : List α} (hok : StepsMeet step ok s as) (h : exec step s as = some t) :
    as.length+μ t ≤ μ s := by
  induction as generalizing s with
  | nil =>
    obtain rfl : s = t := Option.some.inj h
    exact Nat.le_of_eq (Nat.zero_add _)
  | cons a as ih =>
    obtain ⟨u,hu,hr⟩ := exec_cons_some h
    have hlt := hstep s a u hok.1 hu
    have hle := ih (hok.2 u hu) hr
    rw [List.length_cons]
    omega

/-- Where an admissible step is left until `done`, some admissible schedule gets there. -/
theorem exists_schedule {μ : σ → Nat} {done : σ → Prop}
    (hstep : ∀ s a t, ok s a → step s a = some t → μ t < μ s)
    (hprogress : ∀ s, ¬ done s → ∃ a t, ok s a ∧ step s a = some t) (s : σ) :
    ∃ as t, StepsMeet step ok s as ∧ exec step s as = some t ∧ done t := by
  induction hn : μ s using Nat.strongRecOn generalizing s with
  | ind n ih =>
    by_cases hd : done s
    · exact ⟨[],s,trivial,rfl,hd⟩
    · obtain ⟨a,u,ha,hu⟩ := hprogress s hd
      obtain ⟨as,t,hok,ht,hdone⟩ := ih (μ u) (hn ▸ hstep s a u ha hu) u rfl
      refine ⟨a :: as,t,⟨ha,fun u' hu' => ?_⟩,?_,hdone⟩
      · obtain rfl : u = u' := Option.some.inj (hu.symm.trans hu')
        exact hok
      · rw [exec_cons,hu]
        exact ht

end Runs

/-- Forward simulation: each admissible concrete step is answered by zero or more
abstract steps that restore `rel`, hence so is each admissible schedule. -/
theorem exec_simulates {step : σ → α → Option σ} {ok : σ → α → Prop} {next : τ → τ → Prop}
    {rel : σ → τ → Prop}
    (hstep : ∀ s a t d, rel s d → ok s a → step s a = some t →
      ∃ e, Relation.ReflTransGen next d e ∧ rel t e)
    {s t : σ} {d : τ} {as : List α} (hs : rel s d) (hok : StepsMeet step ok s as)
    (h : exec step s as = some t) : ∃ e, Relation.ReflTransGen next d e ∧ rel t e := by
  induction as generalizing s d with
  | nil => exact ⟨d,.refl,Option.some.inj h ▸ hs⟩
  | cons a as ih =>
    obtain ⟨u,hu,hr⟩ := exec_cons_some h
    obtain ⟨e,he,hrel⟩ := hstep s a u d hs hok.1 hu
    obtain ⟨f,hf,hrel'⟩ := ih hrel (hok.2 u hu) hr
    exact ⟨f,he.trans hf,hrel'⟩

/-- One party changes: a symmetric condition on any two parties is checked against it. -/
theorem pairwise_update {ι β : Type*} [DecidableEq ι] {f : ι → β} {R : ι → ι → β → β → Prop}
    (hsymm : ∀ j k b c, R j k b c → R k j c b) (h : ∀ j k, j ≠ k → R j k (f j) (f k)) {i : ι} {b : β}
    (hb : ∀ j, j ≠ i → R i j b (f j)) (j k : ι) (hjk : j ≠ k) :
    R j k (Function.update f i b j) (Function.update f i b k) := by
  by_cases hj : j = i
  · subst hj
    rw [Function.update_self,Function.update_of_ne hjk.symm]
    exact hb k hjk.symm
  by_cases hk : k = i
  · subst hk
    rw [Function.update_self,Function.update_of_ne hj]
    exact hsymm k j b (f j) (hb j hj)
  rw [Function.update_of_ne hj,Function.update_of_ne hk]
  exact h j k hjk

end CloudWeb.Foundation
