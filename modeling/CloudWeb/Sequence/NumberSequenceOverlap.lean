import CloudWeb.Sequence.NumberSequence

/-! Calls of `next()` that overlap on one `NumberSequence`. The method is not synchronized,
and Redis's reply reaches the caller through the shared field `curValue`. -/
namespace CloudWeb.Sequence.NumberSequence.Overlap
open Java Foundation

/-- How far a call has got. The reply it has stored is remembered for the proofs only:
from then on the code has nothing but the field. -/
inductive Phase
  | start
  | checked
  | sent (reply : Int)
  | stored (reply : Int)
  | compared (reply : Int)
  | returned (value : Int)
  | failed (e : RedisException)
  deriving DecidableEq, Repr

/-- The number a call stands for: Redis's reply on its way, then the returned value. -/
def Phase.number : Phase → Option Int
  | .sent v | .stored v | .compared v | .returned v => some v
  | .start | .checked | .failed _ => none

/-- The reply of a call that has stored it and not returned yet. -/
def Phase.pending : Phase → Option Int
  | .stored v | .compared v => some v
  | _ => none

structure State (κ : Type*) where
  counter : Int
  fields : NumberSequence
  call : κ → Phase

variable {κ : Type*} [DecidableEq κ]

def boot (start maxValue : Int) : State κ := ⟨start,{ maxValue := maxValue },fun _ => .start⟩

def State.move (s : State κ) (k : κ) (p : Phase) : State κ :=
  { s with call := Function.update s.call k p }

/-- The next step of call `k`: check, send, store, compare, return. -/
def step (s : State κ) (k : κ) : Option (State κ) :=
  match s.call k with
  | .start =>
    if s.fields.curValue < s.fields.maxValue then some (s.move k .checked)
    else some (s.move k (.returned s.fields.maxValue))
  | .checked =>
    match RAtomicLong.incrementAndGet s.counter with
    | some (v,c) => some (State.move { s with counter := c } k (.sent v))
    | none => some (s.move k (.failed .overflow))
  | .sent v => some (State.move { s with fields := { s.fields with curValue := v } } k (.stored v))
  | .stored v =>
    if s.fields.curValue < s.fields.maxValue then some (s.move k (.compared v))
    else some (s.move k (.returned s.fields.maxValue))
  | .compared _ => some (s.move k (.returned s.fields.curValue))
  | .returned _ | .failed _ => none

def Phase.ended : Except RedisException Int → Phase
  | .ok n => .returned n
  | .error e => .failed e

@[simp] theorem State.move_counter (s : State κ) (k : κ) (p : Phase) : (s.move k p).counter = s.counter := rfl

@[simp] theorem State.move_fields (s : State κ) (k : κ) (p : Phase) : (s.move k p).fields = s.fields := rfl

@[simp] theorem State.move_self (s : State κ) (k : κ) (p : Phase) : (s.move k p).call k = p :=
  Function.update_self ..

private theorem State.move_ne (s : State κ) {j k : κ} (h : j ≠ k) (p : Phase) :
    (s.move k p).call j = s.call j :=
  Function.update_of_ne h ..

@[simp] theorem State.move_move (s : State κ) (k : κ) (p p' : Phase) : (s.move k p).move k p' = s.move k p' := by
  simp only [State.move,Function.update_idem]

private theorem step_cases {s t : State κ} {k : κ} (h : step s k = some t) :
    (s.call k = .start ∧ (t = s.move k .checked ∨ t = s.move k (.returned s.fields.maxValue))) ∨
    (s.call k = .checked ∧ (t = State.move { s with counter := s.counter+1 } k (.sent (s.counter+1)) ∨
      t = s.move k (.failed .overflow))) ∨
    (∃ v, s.call k = .sent v ∧
      t = State.move { s with fields := { s.fields with curValue := v } } k (.stored v)) ∨
    (∃ v, s.call k = .stored v ∧ ((s.fields.curValue < s.fields.maxValue ∧ t = s.move k (.compared v)) ∨
      (s.fields.maxValue ≤ s.fields.curValue ∧ t = s.move k (.returned s.fields.maxValue)))) ∨
    (∃ v, s.call k = .compared v ∧ t = s.move k (.returned s.fields.curValue)) := by
  unfold step at h
  split at h
  · next hp =>
    split at h
    · exact .inl ⟨hp,.inl (Option.some.inj h).symm⟩
    · exact .inl ⟨hp,.inr (Option.some.inj h).symm⟩
  · next hp =>
    split at h
    · next v c hi =>
      obtain ⟨rfl,rfl,_⟩ := RAtomicLong.incrementAndGet_some hi
      exact .inr (.inl ⟨hp,.inl (Option.some.inj h).symm⟩)
    · exact .inr (.inl ⟨hp,.inr (Option.some.inj h).symm⟩)
  · next v hp => exact .inr (.inr (.inl ⟨v,hp,(Option.some.inj h).symm⟩))
  · next v hp =>
    split at h
    · next hlt => exact .inr (.inr (.inr (.inl ⟨v,hp,.inl ⟨hlt,(Option.some.inj h).symm⟩⟩)))
    · next hge => exact .inr (.inr (.inr (.inl ⟨v,hp,.inr ⟨not_lt.mp hge,(Option.some.inj h).symm⟩⟩)))
  · next v hp => exact .inr (.inr (.inr (.inr ⟨v,hp,(Option.some.inj h).symm⟩)))
  · cases h
  · cases h

/-- The steps of a call that nobody overlaps are one whole call. -/
theorem exec_alone {s : State κ} {k : κ} (h : s.call k = .start) {out : Except RedisException Int}
    {q : NumberSequence} {c : Int} (hn : s.fields.nextOn s.counter = ((out,q),c)) :
    ∃ n, exec step s (List.replicate n k) = some (State.move ⟨c,q,s.call⟩ k (.ended out)) := by
  unfold nextOn at hn
  split at hn
  · next hlt =>
    have hcheck : step s k = some (s.move k .checked) := by simp only [step,h,hlt,if_true]
    split at hn
    · next v c' hi =>
      let q' : NumberSequence := { s.fields with curValue := v }
      have hsend : step (s.move k .checked) k = some (State.move ⟨c',s.fields,s.call⟩ k (.sent v)) := by
        simp only [step,State.move_self,State.move_counter,hi]
        exact congrArg some (State.move_move ⟨c',s.fields,s.call⟩ k .checked (.sent v))
      have hstore : step (State.move ⟨c',s.fields,s.call⟩ k (.sent v)) k =
          some (State.move ⟨c',q',s.call⟩ k (.stored v)) := by
        simp only [step,State.move_self]
        exact congrArg some (State.move_move ⟨c',q',s.call⟩ k (.sent v) (.stored v))
      simp only [next,hlt,if_true] at hn
      split at hn
      · next hv =>
        have hcompare : step (State.move ⟨c',q',s.call⟩ k (.stored v)) k =
            some (State.move ⟨c',q',s.call⟩ k (.compared v)) := by
          simp only [step,State.move_self,State.move_fields,q',hv,if_true,State.move_move]
        have hreturn : step (State.move ⟨c',q',s.call⟩ k (.compared v)) k =
            some (State.move ⟨c',q',s.call⟩ k (.returned v)) := by
          simp only [step,State.move_self,State.move_fields,q',State.move_move]
        cases hn
        refine ⟨5,?_⟩
        simp only [List.replicate,exec,hcheck,hsend,hstore,hcompare,hreturn,Option.bind_some]
        rfl
      · next hv =>
        have hcompare : step (State.move ⟨c',q',s.call⟩ k (.stored v)) k =
            some (State.move ⟨c',q',s.call⟩ k (.returned s.fields.maxValue)) := by
          simp only [step,State.move_self,State.move_fields,q',hv,if_false,State.move_move]
        cases hn
        refine ⟨4,?_⟩
        simp only [List.replicate,exec,hcheck,hsend,hstore,hcompare,Option.bind_some]
        rfl
    · next hi =>
      have hsend : step (s.move k .checked) k = some (s.move k (.failed .overflow)) := by
        simp only [step,State.move_self,State.move_counter,hi,State.move_move]
      simp only [next,hlt,if_true] at hn
      cases hn
      refine ⟨2,?_⟩
      simp only [List.replicate,exec,hcheck,hsend,Option.bind_some]
      rfl
  · next hge =>
    simp only [next,hge,if_false] at hn
    cases hn
    refine ⟨1,?_⟩
    simp only [List.replicate,exec,step,h,hge,if_false,Option.bind_some]
    rfl

/-! ## What a schedule keeps -/

/-- Every number below the limit that Redis has handed out belongs to exactly one call:
it is on its way to it, or that call has returned it. -/
def Once (start : Int) (s : State κ) : Prop :=
  ∀ v, start < v → v ≤ s.counter → v < s.fields.maxValue → ∃! k, (s.call k).number = some v

/-- A store takes the field away from nobody who still has to return a number below the
limit; a call whose own number reached the limit returns no smaller one from the field. -/
def State.Harmless (s : State κ) : Phase → Prop
  | .sent _ => ∀ j, ∀ v ∈ (s.call j).pending, s.fields.maxValue ≤ v
  | .compared v => v < s.fields.maxValue ∨ s.fields.maxValue ≤ s.fields.curValue
  | .start | .checked | .stored _ | .returned _ | .failed _ => True

/-- The next step of call `k` does not disturb the others, nor is it disturbed by them. -/
def Undisturbed (s : State κ) (k : κ) : Prop := s.Harmless (s.call k)

instance State.harmlessDecidable [Fintype κ] (s : State κ) (p : Phase) : Decidable (s.Harmless p) :=
  match p with
  | .sent _ => inferInstanceAs (Decidable (∀ j, ∀ v ∈ (s.call j).pending, s.fields.maxValue ≤ v))
  | .compared v => inferInstanceAs (Decidable (v < s.fields.maxValue ∨ s.fields.maxValue ≤ s.fields.curValue))
  | .start | .checked | .stored _ | .returned _ | .failed _ => isTrue trivial

instance undisturbedDecidable [Fintype κ] (s : State κ) (k : κ) : Decidable (Undisturbed s k) :=
  inferInstanceAs (Decidable (s.Harmless (s.call k)))

/-- No call is between its store and its return. -/
def Idle (s : State κ) : Prop := ∀ k, (s.call k).pending = none

/-- No number is on its way to a call. -/
def Settled (s : State κ) : Prop := ∀ k v, (s.call k).number = some v → s.call k = .returned v

/-- A call that still has to return a number below the limit finds it in the field. -/
def Own (s : State κ) : Prop :=
  ∀ k v, (s.call k).pending = some v → v < s.fields.maxValue → s.fields.curValue = v

/-- Numbers below the limit come from Redis, also the one a pending call would read. -/
structure Issued (start : Int) (s : State κ) : Prop where
  le : start ≤ s.counter
  number : ∀ k v, (s.call k).number = some v → v < s.fields.maxValue → start < v ∧ v ≤ s.counter
  field : ∀ k v, (s.call k).pending = some v → s.fields.curValue < s.fields.maxValue →
    start < s.fields.curValue ∧ s.fields.curValue ≤ s.counter

section Steps
variable {start : Int} {s t : State κ} {k : κ} {p : Phase}

private theorem Issued.move (h : Issued start s)
    (hn : ∀ v, p.number = some v → v < s.fields.maxValue → start < v ∧ v ≤ s.counter)
    (hf : ∀ v, p.pending = some v → s.fields.curValue < s.fields.maxValue →
      start < s.fields.curValue ∧ s.fields.curValue ≤ s.counter) : Issued start (s.move k p) := by
  refine ⟨h.le,?_,?_⟩
  · apply (Function.forall_update_iff s.call fun _ q => ∀ v, q.number = some v → v < s.fields.maxValue →
      start < v ∧ v ≤ s.counter).mpr
    exact ⟨hn,fun j _ => h.number j⟩
  · apply (Function.forall_update_iff s.call fun _ q => ∀ v, q.pending = some v →
      s.fields.curValue < s.fields.maxValue → start < s.fields.curValue ∧ s.fields.curValue ≤ s.counter).mpr
    exact ⟨hf,fun j _ => h.field j⟩

private theorem Own.move (h : Own s)
    (hp : ∀ v, p.pending = some v → v < s.fields.maxValue → s.fields.curValue = v) : Own (s.move k p) := by
  apply (Function.forall_update_iff s.call fun _ q => ∀ v, q.pending = some v → v < s.fields.maxValue →
    s.fields.curValue = v).mpr
  exact ⟨hp,fun j _ => h j⟩

private theorem Once.move (h : Once start s)
    (hp : ∀ v < s.fields.maxValue, p.number = some v ↔ (s.call k).number = some v) :
    Once start (s.move k p) := by
  intro v hv hc hm
  have hsame (j : κ) : ((s.move k p).call j).number = some v ↔ (s.call j).number = some v := by
    by_cases hjk : j = k
    · subst hjk
      rw [State.move_self]
      exact hp v hm
    · rw [State.move_ne s hjk]
  exact (existsUnique_congr hsame).mpr (h v hv hc hm)

private theorem step_issued (h : Issued start s) (hs : step s k = some t) : Issued start t := by
  have hmax (v : Int) (hv : some s.fields.maxValue = some v) (hm : v < s.fields.maxValue) :
      start < v ∧ v ≤ s.counter := absurd (Option.some.inj hv) hm.ne'
  rcases step_cases hs with ⟨_,rfl | rfl⟩ | ⟨_,rfl | rfl⟩ | ⟨v,hp,rfl⟩ | ⟨v,hp,⟨_,rfl⟩ | ⟨_,rfl⟩⟩ | ⟨v,hp,rfl⟩
  · exact h.move nofun nofun
  · exact h.move hmax nofun
  · have hle := h.le
    have hc : Issued start { s with counter := s.counter+1 } :=
      ⟨by dsimp only; omega,fun j v hj hm => by have := h.number j v hj hm; dsimp only; omega,
        fun j v hj hm => by have := h.field j v hj hm; dsimp only; omega⟩
    refine hc.move (fun v hv _ => ?_) nofun
    cases hv
    exact ⟨by omega,le_refl _⟩
  · exact h.move nofun nofun
  · have hv : v < s.fields.maxValue → start < v ∧ v ≤ s.counter := h.number k v (by rw [hp]; rfl)
    have hf : Issued start { s with fields := { s.fields with curValue := v } } :=
      ⟨h.le,h.number,fun _ _ _ => hv⟩
    exact hf.move (fun w hw => by cases hw; exact hv) fun _ _ => hv
  · have hv := h.number k v (by rw [hp]; rfl)
    have hf := h.field k v (by rw [hp]; rfl)
    exact h.move (fun w hw => by cases hw; exact hv) fun _ _ => hf
  · exact h.move hmax nofun
  · have hf := h.field k v (by rw [hp]; rfl)
    exact h.move (fun w hw => by cases hw; exact hf) nofun

private theorem Once.hand (h : Once start s) (hi : Issued start s) (hp : (s.call k).number = none) :
    Once start (State.move { s with counter := s.counter+1 } k (.sent (s.counter+1))) := by
  intro v hv hc hm
  have hother (j : κ) (hj : j ≠ k) :
      (State.move { s with counter := s.counter+1 } k (.sent (s.counter+1))).call j = s.call j :=
    State.move_ne _ hj _
  -- the new number is on its way to `k`, every other one where it was
  by_cases hnew : v = s.counter+1
  · subst hnew
    refine ⟨k,congrArg Phase.number (State.move_self ..),fun j hj => ?_⟩
    by_contra hjk
    dsimp only at hj
    rw [hother j hjk] at hj
    have := (hi.number j _ hj hm).2
    omega
  · have hle : v ≤ s.counter := by
      simp only [State.move_counter] at hc
      omega
    obtain ⟨j,hj,huniq⟩ := h v hv hle hm
    have hjk : j ≠ k := by
      rintro rfl
      exact absurd (hp.symm.trans hj) (Option.some_ne_none v).symm
    refine ⟨j,?_,fun i hik => ?_⟩
    · dsimp only
      rw [hother j hjk]
      exact hj
    · by_cases hi : i = k
      · subst hi
        rw [State.move_self] at hik
        exact absurd (Option.some.inj hik).symm hnew
      · dsimp only at hik
        rw [hother i hi] at hik
        exact huniq i hik

private theorem step_once (hi : Issued start s) (hown : Own s) (ho : Once start s) (hu : Undisturbed s k)
    (hs : step s k = some t) : Own t ∧ Once start t := by
  have hmax (v : Int) (hv : v < s.fields.maxValue) : ¬ some s.fields.maxValue = some v :=
    fun h => hv.ne' (Option.some.inj h)
  rcases step_cases hs with ⟨hp,rfl | rfl⟩ | ⟨hp,rfl | rfl⟩ | ⟨v,hp,rfl⟩ | ⟨v,hp,⟨_,rfl⟩ | ⟨hge,rfl⟩⟩ | ⟨v,hp,rfl⟩
  · exact ⟨hown.move nofun,ho.move fun w _ => by rw [hp]; rfl⟩
  · refine ⟨hown.move nofun,ho.move fun w hw => ?_⟩
    rw [hp]
    exact iff_of_false (hmax w hw) nofun
  · exact ⟨Own.move (s := { s with counter := s.counter+1 }) hown nofun,ho.hand hi (by rw [hp]; rfl)⟩
  · exact ⟨hown.move nofun,ho.move fun w _ => by rw [hp]; rfl⟩
  · -- every other pending call has reached the limit, so the field may be overwritten
    have hfree : ∀ j, ∀ w ∈ (s.call j).pending, s.fields.maxValue ≤ w := by
      simpa only [Undisturbed,State.Harmless,hp] using hu
    refine ⟨Own.move (s := { s with fields := { s.fields with curValue := v } }) ?_ ?_,
      Once.move (s := { s with fields := { s.fields with curValue := v } }) ho fun w _ => by rw [hp]; rfl⟩
    · intro j w hj hw
      exact absurd hw (not_lt.mpr (hfree j w hj))
    · intro w hw _
      exact Option.some.inj hw
  · exact ⟨hown.move fun w hw hm => hown k w (by rw [hp]; exact hw) hm,ho.move fun w _ => by rw [hp]; rfl⟩
  · refine ⟨hown.move nofun,ho.move fun w hw => ?_⟩
    rw [hp]
    refine iff_of_false (hmax w hw) fun he => ?_
    have hcur := hown k v (by rw [hp]; rfl)
    cases he
    exact absurd (hcur hw) (by omega)
  · have hcase : v < s.fields.maxValue ∨ s.fields.maxValue ≤ s.fields.curValue := by
      simpa only [Undisturbed,State.Harmless,hp] using hu
    refine ⟨hown.move nofun,ho.move fun w hw => ?_⟩
    rw [hp]
    by_cases hv : v < s.fields.maxValue
    · have hcur := hown k v (by rw [hp]; rfl) hv
      rw [hcur]
      rfl
    · have hge := hcase.resolve_left hv
      refine iff_of_false (fun he => ?_) fun he => ?_ <;>
        · cases he
          omega

omit [DecidableEq κ] in
private theorem Once.eq (h : Once start s) (hi : Issued start s) {j : κ} {v : Int}
    (hv : v < s.fields.maxValue)
    (hj : (s.call j).number = some v) (hk : (s.call k).number = some v) : j = k := by
  obtain ⟨hlo,hhi⟩ := hi.number j v hj hv
  exact (h v hlo hhi hv).unique hj hk

private theorem Once.kept (h : Once start s) (hi : Issued start s) (ht : Once start (s.move k p))
    {v : Int}
    (hv : v < s.fields.maxValue) (hk : (s.call k).number = some v) : p.number = some v := by
  obtain ⟨hlo,hhi⟩ := hi.number k v hk hv
  obtain ⟨j,hj,_⟩ := ht v hlo hhi hv
  -- otherwise it has got two calls
  by_cases hjk : j = k
  · subst hjk
    rwa [State.move_self] at hj
  · rw [State.move_ne s hjk] at hj
    exact absurd (h.eq hi hv hj hk) hjk

private theorem Phase.number_of_pending {v : Int} (h : p.pending = some v) : p.number = some v := by
  cases p with
  | stored | compared => exact h
  | start | checked | sent | returned | failed => cases h

/-- Once a pending call has lost the field to another, it stays lost: in a run that keeps
every number with one call, the field can only be right afterwards if it was before. -/
theorem own_back (hi : Issued start s) (ho : Once start s) (hs : step s k = some t) (hot : Once start t)
    (hown : Own t) : Own s := by
  intro j v hj hv
  have hjv := Phase.number_of_pending hj
  by_cases hjk : j = k
  · subst hjk
    rcases step_cases hs with ⟨hp,_⟩ | ⟨hp,_⟩ | ⟨w,hp,_⟩ | ⟨w,hp,⟨_,rfl⟩ | ⟨_,rfl⟩⟩ | ⟨w,hp,rfl⟩
    · rw [hp] at hj
      cases hj
    · rw [hp] at hj
      cases hj
    · rw [hp] at hj
      cases hj
    · rw [hp] at hj
      exact hown j v (by rw [State.move_self]; exact hj) hv
    · have hkept := ho.kept hi hot hv hjv
      exact absurd (Option.some.inj hkept) hv.ne'
    · exact Option.some.inj (ho.kept hi hot hv hjv)
  · rcases step_cases hs with ⟨hp,rfl | rfl⟩ | ⟨hp,rfl | rfl⟩ | ⟨w,hp,rfl⟩ | ⟨w,hp,⟨_,rfl⟩ | ⟨_,rfl⟩⟩ | ⟨w,hp,rfl⟩
    case inr.inr.inl =>
      -- the stored reply is another number, so the field is wrong for `j` afterwards
      have hw : w = v := hown j v (by rw [State.move_ne _ hjk]; exact hj) hv
      exact absurd (ho.eq hi hv hjv (by rw [hp,← hw]; rfl)) hjk
    all_goals exact hown j v (by rw [State.move_ne _ hjk]; exact hj) hv

private theorem undisturbed_of_once (hi : Issued start s) (ho : Once start s) (hs : step s k = some t)
    (hot : Once start t) (hown : Own t) : Undisturbed s k := by
  cases hp : s.call k with
  | start | checked | stored | returned | failed => simp only [Undisturbed,State.Harmless,hp]
  | sent w =>
    obtain rfl : State.move { s with fields := { s.fields with curValue := w } } k (.stored w) = t := by
      simpa only [step,hp,Option.some.injEq] using hs
    simp only [Undisturbed,State.Harmless,hp]
    intro j v hj
    by_contra hv
    rw [not_le] at hv
    have hjk : j ≠ k := by
      rintro rfl
      rw [hp] at hj
      cases hj
    have hw : w = v := hown j v (by rw [State.move_ne _ hjk]; exact hj) hv
    exact hjk (ho.eq hi hv (Phase.number_of_pending hj) (by rw [hp,hw]; rfl))
  | compared w =>
    obtain rfl : s.move k (.returned s.fields.curValue) = t := by
      simpa only [step,hp,Option.some.injEq] using hs
    simp only [Undisturbed,State.Harmless,hp]
    by_contra hn
    obtain ⟨hw,hcur⟩ := not_or.mp hn
    rw [not_le] at hcur
    -- what `k` returns now belongs to another call
    obtain ⟨hlo,hhi⟩ := hi.field k w (by rw [hp]; rfl) hcur
    obtain ⟨j,hj,_⟩ := ho _ hlo hhi hcur
    have hjk : j ≠ k := by
      rintro rfl
      rw [hp] at hj
      cases hj
      exact hw hcur
    have hjt : ((s.move k (.returned s.fields.curValue)).call j).number = some s.fields.curValue := by
      rw [State.move_ne s hjk]
      exact hj
    have hkt : ((s.move k (.returned s.fields.curValue)).call k).number = some s.fields.curValue := by
      rw [State.move_self]
      rfl
    exact hjk ((hot _ hlo hhi hcur).unique hjt hkt)

private theorem step_maxValue (hs : step s k = some t) : t.fields.maxValue = s.fields.maxValue := by
  rcases step_cases hs with ⟨_,rfl | rfl⟩ | ⟨_,rfl | rfl⟩ | ⟨_,_,rfl⟩ | ⟨_,_,⟨_,rfl⟩ | ⟨_,rfl⟩⟩ | ⟨_,_,rfl⟩ <;> rfl

end Steps

omit [DecidableEq κ] in
private theorem boot_issued (start maxValue : Int) : Issued start (boot start maxValue : State κ) :=
  ⟨le_refl _,nofun,nofun⟩

omit [DecidableEq κ] in
private theorem boot_once (start maxValue : Int) : Once start (boot start maxValue : State κ) :=
  fun _ hv hc => absurd hv (not_lt.mpr hc)

/-- Over every order of the steps of any number of calls on a new instance. If no step
disturbs a call, each number below the limit stays with one call, which returns it. And
in a run that leaves nobody between store and return, only disturbing steps break this. -/
theorem each_number_once (start maxValue : Int) (calls : List κ) :
    (StepsMeet step Undisturbed (boot start maxValue) calls →
      Always step (Once start) (boot start maxValue) calls) ∧
    ∀ s, exec step (boot start maxValue) calls = some s →
      (StepsMeet step Undisturbed (boot start maxValue) calls → Settled s →
        ∀ v, start < v → v ≤ s.counter → v < maxValue → ∃! k, s.call k = .returned v) ∧
      (Always step (Once start) (boot start maxValue) calls → Idle s →
        StepsMeet step Undisturbed (boot start maxValue) calls) := by
  have hstep (s : State κ) (k : κ) (t : State κ) (h : Issued start s ∧ Own s ∧ Once start s)
      (hu : Undisturbed s k) (hs : step s k = some t) : Issued start t ∧ Own t ∧ Once start t :=
    ⟨step_issued h.1 hs,step_once h.1 h.2.1 h.2.2 hu hs⟩
  have hboot : Issued start (boot start maxValue : State κ) ∧ Own (boot start maxValue : State κ) ∧
      Once start (boot start maxValue : State κ) := ⟨boot_issued _ _,nofun,boot_once _ _⟩
  have hforward (hok : StepsMeet step Undisturbed (boot start maxValue : State κ) calls) :
      Always step (Once start) (boot start maxValue) calls :=
    (hok.always hstep hboot).mono fun s h => h.2.2
  refine ⟨hforward,fun s he => ⟨fun hok hsettled v hv hc hm => ?_,fun hall hidle => ?_⟩⟩
  · have hkeep (s : State κ) (k : κ) (t : State κ) (h : s.fields.maxValue = maxValue) (_ : True)
        (hs : step s k = some t) : t.fields.maxValue = maxValue := (step_maxValue hs).trans h
    have hlimit : s.fields.maxValue = maxValue := exec_invariant hkeep rfl (stepsMeet_true _ _) he
    have honce := (hforward hok).last he v hv hc (hlimit.symm ▸ hm)
    have hsame (k : κ) : s.call k = .returned v ↔ (s.call k).number = some v :=
      ⟨fun h => by rw [h]; rfl,hsettled k v⟩
    exact (existsUnique_congr hsame).mpr honce
  · have hissued : Always step (Issued start) (boot start maxValue : State κ) calls :=
      (stepsMeet_true _ _).always (fun _ _ _ hi _ hs => step_issued hi hs) hboot.1
    have hlast : Once start s ∧ Own s :=
      ⟨hall.last he,fun k v hk => absurd ((hidle k).symm.trans hk) (Option.some_ne_none v).symm⟩
    have hown : Always step (fun s => Once start s ∧ Own s) (boot start maxValue : State κ) calls :=
      (hissued.and hall).of_last
        (fun s k t ⟨hi,ho⟩ hs ⟨hot,hown⟩ => ⟨ho,own_back hi ho hs hot hown⟩) he hlast
    exact hown.stepsMeet hstep
      (fun s k t ⟨hi,_,ho⟩ hs ⟨hot,hown⟩ => undisturbed_of_once hi ho hs hot hown) hboot he

omit [DecidableEq κ] in
private theorem settled_of_returned {s : State κ} (h : ∀ k, ∃ n, s.call k = .returned n) : Settled s := by
  intro k v hk
  obtain ⟨n,hn⟩ := h k
  rw [hn] at hk ⊢
  cases hk
  rfl

theorem each_number_once_two_calls :
    let calls : List Bool := [false,true,false,true,true,true,true,false,false,false]
    ∃ s, exec step (boot 0 10) calls = some s ∧ s.call false = .returned 1 ∧ s.call true = .returned 2 ∧
      ∀ v, 0 < v → v ≤ s.counter → v < 10 → ∃! k, s.call k = .returned v := by
  intro calls
  have hok : StepsMeet step Undisturbed (boot 0 10) calls := by decide
  have hrun : ∃ s ∈ exec step (boot 0 10) calls, s.call false = .returned 1 ∧ s.call true = .returned 2 := by
    decide
  obtain ⟨s,hs,hf,ht⟩ := hrun
  have hsettled : Settled s := settled_of_returned (Bool.forall_bool.mpr ⟨⟨1,hf⟩,⟨2,ht⟩⟩)
  exact ⟨s,hs,hf,ht,((each_number_once 0 10 calls).2 s hs).1 hok hsettled⟩

/-- The second call stores 2 before the first has compared: both return 2, and 1 is lost. -/
theorem second_store_overwrites_first :
    let calls : List Bool := [false,false,true,true,false,true,false,false,true,true]
    ∃ s, exec step (boot 0 10) calls = some s ∧ Settled s ∧ s.counter = 2 ∧
      s.call false = .returned 2 ∧ s.call true = .returned 2 ∧
      ¬ ∀ v, 0 < v → v ≤ s.counter → v < 10 → ∃! k, s.call k = .returned v := by
  intro calls
  have hrun : ∃ s ∈ exec step (boot 0 10) calls,
      s.counter = 2 ∧ s.call false = .returned 2 ∧ s.call true = .returned 2 := by decide
  obtain ⟨s,hs,hc,hf,ht⟩ := hrun
  have hsettled : Settled s := settled_of_returned (Bool.forall_bool.mpr ⟨⟨2,hf⟩,⟨2,ht⟩⟩)
  refine ⟨s,hs,hsettled,hc,hf,ht,fun hall => ?_⟩
  have htwo := hall 2 (by decide) hc.ge (by decide)
  exact Bool.false_ne_true (htwo.unique hf ht)

end CloudWeb.Sequence.NumberSequence.Overlap
