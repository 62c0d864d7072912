import CloudWeb.Foundation.Execution
import CloudWeb.Sequence.RedisCounter
import Mathlib.Algebra.BigOperators.Group.Finset.Basic
import Mathlib.Data.Fintype.Basic

/-! `RedisSequence` for any number of callers on one key, each call in flight between its
request, Redis and its answer. -/
namespace CloudWeb.Sequence.RedisSequence
open Java Foundation

/-- A call asked for or already answered by Redis. `known` is what all callers had been
returned when it began. -/
inductive Call
  | sent (known : List Int)
  | replied (known : List Int) (v : Int)
  deriving DecidableEq, Repr

structure Issue (ι : Type*) where
  caller : ι
  known : List Int
  number : Int
  deriving DecidableEq, Repr

/-- `returned` and `lost` are newest first. A number is lost when Redis counted and nobody
heard of it; `orphans` counts the requests whose caller has given up. -/
structure Cluster (ι : Type*) where
  counter : Int
  call : ι → Option Call := fun _ => none
  orphans : Nat := 0
  returned : List (Issue ι) := []
  lost : List Int := []

inductive Event (ι : Type*)
  | call (i : ι)
  | serve (i : ι)
  | receive (i : ι)
  | fail (i : ι)
  | stray
  deriving DecidableEq, Repr

variable {ι : Type*} [DecidableEq ι]

def boot (start : Int) : Cluster ι := { counter := start }

def Cluster.finish (s : Cluster ι) (i : ι) (known : List Int) (reply : Except RedisException Int) :
    Cluster ι :=
  { s with
    call := Function.update s.call i none
    returned := match next reply with
      | .ok n => ⟨i,known,n⟩ :: s.returned
      | .error _ => s.returned }

def step (s : Cluster ι) : Event ι → Option (Cluster ι)
  | .call i =>
    match s.call i with
    | none => some { s with call := Function.update s.call i (some (.sent (s.returned.map Issue.number))) }
    | some _ => none
  | .serve i =>
    match s.call i with
    | some (.sent known) =>
      match RAtomicLong.incrementAndGet s.counter with
      | some (v,c) => some { s with
          counter := c
          call := Function.update s.call i (some (.replied known v)) }
      | none => some (s.finish i known (.error .overflow))
    | _ => none
  | .receive i =>
    match s.call i with
    | some (.replied known v) => some (s.finish i known (.ok v))
    | _ => none
  | .fail i =>
    match s.call i with
    | some (.sent known) => some { s.finish i known (.error .unavailable) with orphans := s.orphans+1 }
    | some (.replied known v) => some { s.finish i known (.error .unavailable) with lost := v :: s.lost }
    | none => none
  | .stray =>
    if 0 < s.orphans then
      match RAtomicLong.incrementAndGet s.counter with
      | some (v,c) => some { s with counter := c, orphans := s.orphans-1, lost := v :: s.lost }
      | none => some { s with orphans := s.orphans-1 }
    else none

def carries (n : Int) : Option Call → Nat
  | some (.replied _ v) => if v = n then 1 else 0
  | _ => 0

/-- How often `n` was returned, was lost and is on its way. -/
def Cluster.places [Fintype ι] (s : Cluster ι) (n : Int) : Nat :=
  (s.returned.map Issue.number).count n+s.lost.count n+∑ i, carries n (s.call i)

/-- `known` is behind an answer, and at most the counter before there is one. -/
def CallOk (counter : Int) : Option Call → Prop
  | none => True
  | some (.sent known) => ∀ m ∈ known, m ≤ counter
  | some (.replied known v) => (∀ m ∈ known, m < v) ∧ v ≤ counter

structure Inv [Fintype ι] (start : Int) (s : Cluster ι) : Prop where
  risen : start ≤ s.counter
  places : ∀ n, s.places n = if start < n ∧ n ≤ s.counter then 1 else 0
  calls : ∀ i, CallOk s.counter (s.call i)
  returned : ∀ e ∈ s.returned, e.number ≤ s.counter ∧ ∀ m ∈ e.known, m < e.number

section Steps
variable {start : Int} {s t : Cluster ι} {i : ι} {known : List Int} {v : Int}

private theorem sum_update [Fintype ι] {β : Type*} (g : β → Nat) (f : ι → β) (i : ι) (b : β) :
    (∑ j, g (Function.update f i b j))+g (f i) = (∑ j, g (f j))+g b := by
  have hrest : ∑ j ∈ Finset.univ.erase i, g (Function.update f i b j) =
      ∑ j ∈ Finset.univ.erase i, g (f j) :=
    Finset.sum_congr rfl fun j hj => by rw [Function.update_of_ne (Finset.ne_of_mem_erase hj)]
  rw [← Finset.add_sum_erase Finset.univ (fun j => g (f j)) (Finset.mem_univ i),
    ← Finset.add_sum_erase Finset.univ (fun j => g (Function.update f i b j)) (Finset.mem_univ i),
    hrest,Function.update_self]
  omega

omit [DecidableEq ι] in
private theorem CallOk.mono {c c' : Int} {p : Option Call} (h : CallOk c p) (hc : c ≤ c') :
    CallOk c' p := by
  rcases p with _ | known | ⟨known,v⟩
  · trivial
  · exact fun m hm => (h m hm).trans hc
  · exact ⟨h.1,h.2.trans hc⟩

private theorem calls_update {c : Int} {call : ι → Option Call} (h : ∀ j, CallOk c (call j))
    {p : Option Call} (hp : CallOk c p) (j : ι) : CallOk c (Function.update call i p j) := by
  revert j
  exact (Function.forall_update_iff call fun _ p => CallOk c p).mpr ⟨hp,fun j _ => h j⟩

private theorem Inv.quiet [Fintype ι] (h : Inv start s) {p : Option Call}
    (hold : ∀ n, carries n (s.call i) = 0)
    (hnew : ∀ n, carries n p = 0) (hp : CallOk s.counter p) (orphans : Nat) :
    Inv start { s with call := Function.update s.call i p, orphans := orphans } := by
  refine ⟨h.risen,fun n => ?_,calls_update h.calls hp,h.returned⟩
  have hsum := sum_update (carries n) s.call i p
  rw [hold n,hnew n,add_zero,add_zero] at hsum
  rw [← h.places n]
  simp only [Cluster.places,hsum]

private theorem Inv.serve [Fintype ι] (h : Inv start s) (hi : s.call i = some (.sent known)) :
    Inv start { s with
      counter := s.counter+1
      call := Function.update s.call i (some (.replied known (s.counter+1))) } := by
  have hrisen := h.risen
  refine ⟨by dsimp only; omega,fun n => ?_,?_,fun e he => ?_⟩
  · have hsum := sum_update (carries n) s.call i (some (.replied known (s.counter+1)))
    have hplaces := h.places n
    rw [hi] at hsum
    simp only [Cluster.places,carries,add_zero] at hsum hplaces ⊢
    rw [hsum]
    split_ifs at hplaces ⊢ <;> omega
  · refine calls_update (fun j => (h.calls j).mono (by dsimp only; omega)) ⟨fun m hm => ?_,le_refl _⟩
    have hc := h.calls i
    rw [hi] at hc
    have := hc m hm
    omega
  · obtain ⟨hle,hk⟩ := h.returned e he
    exact ⟨by dsimp only; omega,hk⟩

private theorem Inv.receive [Fintype ι] (h : Inv start s) (hi : s.call i = some (.replied known v)) :
    Inv start { s with call := Function.update s.call i none, returned := ⟨i,known,v⟩ :: s.returned } := by
  have hc := h.calls i
  rw [hi] at hc
  refine ⟨h.risen,fun n => ?_,calls_update h.calls trivial,fun e he => ?_⟩
  · have hsum := sum_update (carries n) s.call i none
    rw [hi] at hsum
    rw [← h.places n]
    simp only [Cluster.places,carries,List.map_cons,List.count_cons,beq_iff_eq] at hsum ⊢
    omega
  · rcases List.mem_cons.mp he with rfl | he
    · exact ⟨hc.2,hc.1⟩
    · exact h.returned e he

private theorem Inv.lose [Fintype ι] (h : Inv start s) (hi : s.call i = some (.replied known v)) :
    Inv start { s with call := Function.update s.call i none, lost := v :: s.lost } := by
  refine ⟨h.risen,fun n => ?_,calls_update h.calls trivial,h.returned⟩
  have hsum := sum_update (carries n) s.call i none
  rw [hi] at hsum
  rw [← h.places n]
  simp only [Cluster.places,carries,List.count_cons,beq_iff_eq] at hsum ⊢
  omega

omit [DecidableEq ι] in
private theorem Inv.stray [Fintype ι] (h : Inv start s) (orphans : Nat) :
    Inv start { s with counter := s.counter+1, orphans := orphans, lost := (s.counter+1) :: s.lost } := by
  have hrisen := h.risen
  refine ⟨by dsimp only; omega,fun n => ?_,fun j => (h.calls j).mono (by dsimp only; omega),fun e he => ?_⟩
  · have hplaces := h.places n
    simp only [Cluster.places,List.count_cons,beq_iff_eq] at hplaces ⊢
    split_ifs at hplaces ⊢ <;> omega
  · obtain ⟨hle,hk⟩ := h.returned e he
    exact ⟨by dsimp only; omega,hk⟩

private theorem step_inv [Fintype ι] (s : Cluster ι) (a : Event ι) (t : Cluster ι) (h : Inv start s)
    (hs : step s a = some t) : Inv start t := by
  cases a with
  | call i =>
    simp only [step] at hs
    split at hs
    · next hi =>
      cases hs
      refine h.quiet (p := some (.sent _)) (fun n => by rw [hi]; rfl) (fun _ => rfl) (fun m hm => ?_) s.orphans
      obtain ⟨e,he,rfl⟩ := List.mem_map.mp hm
      exact (h.returned e he).1
    · cases hs
  | serve i =>
    simp only [step] at hs
    split at hs
    · next known hi =>
      split at hs
      · next v c hc =>
        obtain ⟨rfl,rfl,_⟩ := RAtomicLong.incrementAndGet_some hc
        cases hs
        exact h.serve hi
      · cases hs
        exact h.quiet (p := none) (fun n => by rw [hi]; rfl) (fun _ => rfl) trivial s.orphans
    · cases hs
  | receive i =>
    simp only [step] at hs
    split at hs
    · next known v hi =>
      cases hs
      exact h.receive hi
    · cases hs
  | fail i =>
    simp only [step] at hs
    split at hs
    · next known hi =>
      cases hs
      exact h.quiet (p := none) (fun n => by rw [hi]; rfl) (fun _ => rfl) trivial _
    · next known v hi =>
      cases hs
      exact h.lose hi
    · cases hs
  | stray =>
    simp only [step] at hs
    split at hs
    · split at hs
      · next v c hc =>
        obtain ⟨rfl,rfl,_⟩ := RAtomicLong.incrementAndGet_some hc
        cases hs
        exact h.stray _
      · cases hs
        exact ⟨h.risen,h.places,h.calls,h.returned⟩
    · cases hs

omit [DecidableEq ι] in
private theorem inv_boot [Fintype ι] (start : Int) : Inv start (boot start : Cluster ι) where
  risen := le_refl _
  places n := by
    rw [if_neg fun h => absurd (h.1.trans_le h.2) (lt_irrefl _)]
    simp [Cluster.places,boot,carries]
  calls _ := trivial
  returned := nofun

end Steps

/-- Over every interleaving of requests, answers, lost answers and late requests: a number
that the counter has passed was returned once or lost once or is on its way to one
caller, no other number is anywhere, and a call returns more than every call that was
over when it began. -/
theorem each_number_at_one_place [Fintype ι] (start : Int) (as : List (Event ι)) (s : Cluster ι)
    (h : exec step (boot start) as = some s) :
    (∀ n, s.places n = if start < n ∧ n ≤ s.counter then 1 else 0) ∧
      ∀ e ∈ s.returned, ∀ m ∈ e.known, m < e.number := by
  have hinv := exec_invariant (fun s a t hs _ => step_inv s a t hs) (inv_boot start)
    (stepsMeet_true _ as) h
  exact ⟨hinv.places,fun e he => (hinv.returned e he).2⟩

theorem places_after_overtaking :
    let as : List (Event Bool) := [.call false,.call true,.serve false,.serve true,.receive true,
      .call true,.receive false,.fail true,.call true,.stray,.serve true,.receive true]
    ∃ s, exec step (boot 6) as = some s ∧
      s.returned.map Issue.number = [10,7,8] ∧ s.lost = [9] ∧ s.places 9 = 1 ∧
      ∀ e ∈ s.returned, ∀ m ∈ e.known, m < e.number := by
  intro as
  have hrun : ∃ s, exec step (boot 6) as = some s ∧ s.returned.map Issue.number = [10,7,8] ∧
      s.lost = [9] ∧ s.counter = 10 := ⟨_,rfl,rfl,rfl,rfl⟩
  obtain ⟨s,hs,hreturned,hlost,hcounter⟩ := hrun
  obtain ⟨hplaces,hordered⟩ := each_number_at_one_place 6 as s hs
  refine ⟨s,hs,hreturned,hlost,?_,hordered⟩
  rw [hplaces,hcounter]
  decide

end CloudWeb.Sequence.RedisSequence
