import CloudWeb.Foundation.Execution
import CloudWeb.Sequence.RedisCounter
import Mathlib.Data.Fintype.Card
import Mathlib.Order.Lattice

/-! `NumberSequence`: a Redis counter that is handed out up to a limit and then stands
still at it. Each instance notices the limit by itself. -/
namespace CloudWeb.Sequence
open Java Foundation

structure NumberSequence where
  maxValue : Int
  curValue : Int := 0
  deriving DecidableEq, Repr

namespace NumberSequence

/-- The result of one call and the fields after it. `reply` is what `incrementAndGet`
answered; only an instance below its limit asks. -/
def next (reply : Except RedisException Int) (q : NumberSequence) :
    Except RedisException Int × NumberSequence :=
  if q.curValue < q.maxValue then
    match reply with
    | .error e => (.error e,q)
    | .ok v =>
      let q := { q with curValue := v }
      if q.curValue < q.maxValue then (.ok q.curValue,q) else (.ok q.maxValue,q)
  else (.ok q.maxValue,q)

def nextOn (counter : Int) (q : NumberSequence) :
    (Except RedisException Int × NumberSequence) × Int :=
  if q.curValue < q.maxValue then
    match RAtomicLong.incrementAndGet counter with
    | some (v,c) => (q.next (.ok v),c)
    | none => (q.next (.error .overflow),counter)
  else (q.next (.error .unavailable),counter)

/-- A call is local at the limit, is refused by Redis, or takes the next number and
cuts it off at the limit. -/
theorem nextOn_cases {counter c : Int} {q q' : NumberSequence} {out : Except RedisException Int}
    (h : q.nextOn counter = ((out,q'),c)) :
    (q.maxValue ≤ q.curValue ∧ out = .ok q.maxValue ∧ q' = q ∧ c = counter) ∨
    (q.curValue < q.maxValue ∧ out = .error .overflow ∧ q' = q ∧ c = counter) ∨
    (q.curValue < q.maxValue ∧ out = .ok (min (counter+1) q.maxValue) ∧
      q' = { q with curValue := counter+1 } ∧ c = counter+1) := by
  unfold nextOn at h
  split at h
  · next hlt =>
    split at h
    · next v c' hi =>
      obtain ⟨rfl,rfl,_⟩ := RAtomicLong.incrementAndGet_some hi
      refine .inr (.inr ?_)
      simp only [next,hlt,if_true] at h
      split at h
      · next hv =>
        cases h
        exact ⟨hlt,by rw [min_eq_left hv.le],rfl,rfl⟩
      · next hv =>
        cases h
        exact ⟨hlt,by rw [min_eq_right (not_lt.mp hv)],rfl,rfl⟩
    · simp only [next,hlt,if_true] at h
      cases h
      exact .inr (.inl ⟨hlt,rfl,rfl,rfl⟩)
  · next hge =>
    simp only [next,hge,if_false] at h
    cases h
    exact .inl ⟨not_lt.mp hge,rfl,rfl,rfl⟩

/-! ## Instances on one counter -/

structure Cluster (ι : Type*) where
  counter : Int
  inst : ι → NumberSequence
  returned : List (ι × Int)

variable {ι : Type*} [DecidableEq ι]

def boot (start maxValue : Int) : Cluster ι := ⟨start,fun _ => { maxValue := maxValue },[]⟩

def step (s : Cluster ι) (i : ι) : Option (Cluster ι) :=
  let ((out,q),c) := (s.inst i).nextOn s.counter
  some {
    counter := c
    inst := Function.update s.inst i q
    returned := match out with
      | .ok n => (i,n) :: s.returned
      | .error _ => s.returned }

/-- The instances that have seen the limit. -/
def Cluster.saturated [Fintype ι] (s : Cluster ι) (maxValue : Int) : Finset ι :=
  Finset.univ.filter fun i => maxValue ≤ (s.inst i).curValue

/-- Bounded counting, over all that was returned (newest first) and the counter. -/
structure Bounded [Fintype ι] (start maxValue : Int) (s : Cluster ι) : Prop where
  range : ∀ e ∈ s.returned, 1 ≤ e.2 ∧ e.2 ≤ maxValue
  once : ((s.returned.map Prod.snd).filter (· < maxValue)).Nodup
  rising : s.returned.Pairwise fun newer older => newer.1 = older.1 →
    (older.2 < maxValue → older.2 < newer.2) ∧ (older.2 = maxValue → newer.2 = maxValue)
  counter : s.counter ≤ max start (maxValue-1) + Fintype.card ι

/-- What a run keeps: every instance that has pushed the counter past the limit knows it. -/
structure Inv [Fintype ι] (start maxValue : Int) (s : Cluster ι) : Prop where
  limit : ∀ i, (s.inst i).maxValue = maxValue
  nonneg : 0 ≤ s.counter
  seen : ∀ i, (s.inst i).curValue ≤ s.counter
  pushed : s.counter ≤ max start (maxValue-1) + (s.saturated maxValue).card
  made : ∀ e ∈ s.returned, 1 ≤ e.2 ∧ e.2 ≤ maxValue ∧ e.2 ≤ (s.inst e.1).curValue
  distinct : s.returned.Pairwise fun newer older => older.2 < maxValue → newer.2 ≠ older.2
  rising : s.returned.Pairwise fun newer older => newer.1 = older.1 →
    (older.2 < maxValue → older.2 < newer.2) ∧ (older.2 = maxValue → newer.2 = maxValue)

section Runs
variable [Fintype ι] {start maxValue : Int} {s t : Cluster ι}

private theorem saturated_take (i : ι) {v : Int} (hi : (s.inst i).curValue < maxValue)
    (r : List (ι × Int)) : v ≤ maxValue-1 ∨
      (Cluster.saturated ⟨v,Function.update s.inst i { s.inst i with curValue := v },r⟩ maxValue).card =
        (s.saturated maxValue).card + 1 := by
  by_cases hv : v ≤ maxValue-1
  · exact .inl hv
  right
  have hset : Cluster.saturated ⟨v,Function.update s.inst i { s.inst i with curValue := v },r⟩ maxValue =
      insert i (s.saturated maxValue) := by
    ext j
    simp only [Cluster.saturated,Finset.mem_filter,Finset.mem_univ,true_and,Finset.mem_insert]
    by_cases hj : j = i
    · subst hj
      simp only [Function.update_self,true_or,iff_true]
      omega
    · simp only [Function.update_of_ne hj,hj,false_or]
  have hnot : i ∉ s.saturated maxValue := by
    simp only [Cluster.saturated,Finset.mem_filter,Finset.mem_univ,true_and,not_le]
    exact hi
  rw [hset,Finset.card_insert_of_notMem hnot]

omit [Fintype ι] in
theorem step_cases (hl : ∀ i, (s.inst i).maxValue = maxValue) {i : ι} (h : step s i = some t) :
    (maxValue ≤ (s.inst i).curValue ∧ t = { s with returned := (i,maxValue) :: s.returned }) ∨
    t = s ∨
    ((s.inst i).curValue < maxValue ∧
      t = ⟨s.counter+1,Function.update s.inst i { s.inst i with curValue := s.counter+1 },
        (i,min (s.counter+1) maxValue) :: s.returned⟩) := by
  rcases hn : (s.inst i).nextOn s.counter with ⟨⟨out,q⟩,c⟩
  simp only [step,hn] at h
  rcases nextOn_cases hn with ⟨hle,rfl,rfl,rfl⟩ | ⟨_,rfl,rfl,rfl⟩ | ⟨hlt,rfl,rfl,rfl⟩
  · cases h
    refine .inl ⟨hl i ▸ hle,?_⟩
    simp only [Function.update_eq_self,hl]
  · cases h
    refine .inr (.inl ?_)
    simp only [Function.update_eq_self]
  · cases h
    refine .inr (.inr ⟨hl i ▸ hlt,?_⟩)
    simp only [hl]

omit [DecidableEq ι] in
private theorem Inv.limited (h : Inv start maxValue s) (h1 : 1 ≤ maxValue) {i : ι}
    (hle : maxValue ≤ (s.inst i).curValue) :
    Inv start maxValue { s with returned := (i,maxValue) :: s.returned } := by
  refine ⟨h.limit,h.nonneg,h.seen,h.pushed,?_,?_,?_⟩
  · intro e he
    rcases List.mem_cons.mp he with rfl | he
    · exact ⟨h1,le_refl _,hle⟩
    · exact h.made e he
  · exact List.pairwise_cons.mpr ⟨fun e _ hlt => hlt.ne',h.distinct⟩
  · exact List.pairwise_cons.mpr ⟨fun e _ _ => ⟨fun hlt => hlt,fun _ => rfl⟩,h.rising⟩

private theorem Inv.taken (h : Inv start maxValue s) (h1 : 1 ≤ maxValue) {i : ι}
    (hlt : (s.inst i).curValue < maxValue) :
    Inv start maxValue ⟨s.counter+1,Function.update s.inst i { s.inst i with curValue := s.counter+1 },
      (i,min (s.counter+1) maxValue) :: s.returned⟩ := by
  have h0 := h.nonneg
  have hseen := h.seen
  have hpushed := h.pushed
  have hgrown (j : ι) : (s.inst j).curValue ≤
      (Function.update s.inst i { s.inst i with curValue := s.counter+1 } j).curValue := by
    revert j
    apply (Function.forall_update_iff s.inst fun j q => (s.inst j).curValue ≤ q.curValue).mpr
    refine ⟨?_,fun j _ => le_refl _⟩
    have := hseen i
    dsimp only
    omega
  refine ⟨?_,by dsimp only; omega,?_,?_,?_,?_,?_⟩
  · apply (Function.forall_update_iff s.inst fun _ q => q.maxValue = maxValue).mpr
    exact ⟨h.limit i,fun j _ => h.limit j⟩
  · apply (Function.forall_update_iff s.inst fun _ q => q.curValue ≤ s.counter+1).mpr
    refine ⟨le_refl _,fun j _ => ?_⟩
    have := hseen j
    omega
  · rcases saturated_take i (v := s.counter+1) hlt ((i,min (s.counter+1) maxValue) :: s.returned)
      with hv | hc
    · have : maxValue-1 ≤ max start (maxValue-1) := le_max_right ..
      dsimp only
      omega
    · rw [hc]
      push_cast
      omega
  · intro e he
    rcases List.mem_cons.mp he with rfl | he
    · simp only [Function.update_self]
      omega
    · obtain ⟨hpos,hmax,hcur⟩ := h.made e he
      exact ⟨hpos,hmax,hcur.trans (hgrown e.1)⟩
  · refine List.pairwise_cons.mpr ⟨fun e he hmax => ?_,h.distinct⟩
    have := (h.made e he).2.2
    have := hseen e.1
    dsimp only
    omega
  · refine List.pairwise_cons.mpr ⟨fun e he hie => ?_,h.rising⟩
    obtain rfl : i = e.1 := hie
    have := (h.made e he).2.2
    have := hseen e.1
    dsimp only
    omega

theorem step_inv (h1 : 1 ≤ maxValue) (s : Cluster ι) (i : ι) (t : Cluster ι)
    (h : Inv start maxValue s) (hs : step s i = some t) : Inv start maxValue t := by
  rcases step_cases h.limit hs with ⟨hle,rfl⟩ | rfl | ⟨hlt,rfl⟩
  · exact h.limited h1 hle
  · exact h
  · exact h.taken h1 hlt

omit [DecidableEq ι] in
private theorem boot_inv (h0 : 0 ≤ start) : Inv start maxValue (boot start maxValue : Cluster ι) where
  limit _ := rfl
  nonneg := h0
  seen _ := h0
  pushed := by
    have := le_max_left start (maxValue-1)
    have := Int.natCast_nonneg ((boot start maxValue : Cluster ι).saturated maxValue).card
    simp only [boot] at *
    omega
  made _ he := absurd he List.not_mem_nil
  distinct := .nil
  rising := .nil

omit [DecidableEq ι] in
private theorem Inv.bounded (h : Inv start maxValue s) : Bounded start maxValue s where
  range e he := ⟨(h.made e he).1,(h.made e he).2.1⟩
  once := by
    apply List.pairwise_filter.mpr
    apply List.pairwise_map.mpr
    exact h.distinct.imp fun hne _ hold => hne (of_decide_eq_true hold)
  rising := h.rising
  counter := by
    have hle : (s.saturated maxValue).card ≤ Fintype.card ι := Finset.card_le_univ _
    have := h.pushed
    omega

end Runs

/-- Over every order of whole calls by any number of instances of one limit. -/
theorem bounded_counter [Fintype ι] (start maxValue : Int) (h0 : 0 ≤ start) (h1 : 1 ≤ maxValue)
    (calls : List ι) : Always step (Bounded start maxValue) (boot start maxValue) calls := by
  have hok : StepsMeet step (fun _ _ => True) (boot start maxValue : Cluster ι) calls :=
    stepsMeet_true _ _
  have hinv := hok.always (fun s i t h _ => step_inv h1 s i t h) (boot_inv h0)
  exact hinv.mono fun s h => h.bounded

theorem bounded_counter_at_limit :
    let calls : List Bool := [false,true,false,true,false]
    (∃ s, exec step (boot 1 3) calls = some s ∧ s.counter = 4 ∧
      s.returned = [(false,3),(true,3),(false,3),(true,3),(false,2)]) ∧
      Always step (Bounded 1 3) (boot 1 3) calls := by
  intro calls
  exact ⟨⟨_,rfl,rfl,rfl⟩,bounded_counter 1 3 (by decide) (by decide) calls⟩

end NumberSequence
end CloudWeb.Sequence
