import CloudWeb.Sequence.NumberCacheSequence
import Mathlib.Algebra.Order.BigOperators.Group.Finset
import Mathlib.Data.Int.Interval

/-! What `NumberCacheSequence` leaves unused. The head of `next()` asks for a new segment
while nine numbers are left, and the new segment overwrites them. -/
namespace CloudWeb.Sequence.NumberCacheSequence
open Java Foundation
variable {ι : Type*} [DecidableEq ι]

/-- A call takes from a segment while ten numbers are left, 91 of them in all. -/
def reach : Nat := 91

/-- The cache of `i` is what is left of a segment of its own, and so is an answer. -/
structure Tailed (reserved : List (Reservation (ι × Nat) Int)) (i : ι) (p : Party) : Prop where
  cached : p.node.curValue < p.node.maxCacheValue →
    ∃ r ∈ reserved, r.owner = (i,p.epoch) ∧ r.hi = p.node.maxCacheValue ∧ r.lo ≤ p.node.curValue
  reply : ∀ v, p.call = some (.replied v) → ⟨(i,p.epoch),v,v+PERIOD⟩ ∈ reserved

/-- A number among the first 91 of a segment of its owner. -/
def Fore (reserved : List (Reservation (ι × Nat) Int)) (e : (ι × Nat) × Int) : Prop :=
  ∃ r ∈ reserved, r.owner = e.1 ∧ r.lo ≤ e.2 ∧ e.2 < r.lo+reach

structure Thrifty (start : Int) (s : Cluster ι) : Prop where
  count : start+PERIOD*s.reserved.length ≤ s.counter
  parties : ∀ i, Tailed s.reserved i (s.party i)
  returned : ∀ e ∈ s.returned, Fore s.reserved e

section Steps
variable {start : Int} {s t : Cluster ι} {i : ι} {reserved : List (Reservation (ι × Nat) Int)}
  {p : Party}

omit [DecidableEq ι] in
private theorem Tailed.mono (h : Tailed reserved i p) (r : Reservation (ι × Nat) Int) :
    Tailed (r :: reserved) i p := by
  refine ⟨fun hlt => ?_,fun v hv => List.mem_cons_of_mem r (h.reply v hv)⟩
  obtain ⟨q,hq,hall⟩ := h.cached hlt
  exact ⟨q,List.mem_cons_of_mem r hq,hall⟩

omit [DecidableEq ι] in
private theorem Fore.mono {e : (ι × Nat) × Int} (h : Fore reserved e) (r : Reservation (ι × Nat) Int) :
    Fore (r :: reserved) e := by
  obtain ⟨q,hq,hall⟩ := h
  exact ⟨q,List.mem_cons_of_mem r hq,hall⟩

omit [DecidableEq ι] in
private theorem Tailed.without (h : Tailed reserved i p) {c : Option Call}
    (hc : ∀ v, c ≠ some (.replied v)) :
    Tailed reserved i { p with call := c } := ⟨h.cached,fun v hv => absurd hv (hc v)⟩

omit [DecidableEq ι] in
private theorem tailed_empty (epoch : Nat) : Tailed reserved i { epoch := epoch } := by
  refine ⟨fun hlt => absurd hlt (lt_irrefl _),fun v hv => ?_⟩
  cases hv

omit [DecidableEq ι] in
private theorem tailed_of_mem {r : Reservation (ι × Nat) Int} (hr : r ∈ reserved) {epoch : Nat}
    (ho : r.owner = (i,epoch)) {c m : Int} (hm : r.hi = m) (hc : r.lo ≤ c) :
    Tailed reserved i ⟨{ curValue := c, maxCacheValue := m },none,epoch⟩ :=
  ⟨fun _ => ⟨r,hr,ho,hm,hc⟩,nofun⟩

private theorem Thrifty.update (h : Thrifty start s) (hp : Tailed s.reserved i p) (orphans : Nat) :
    Thrifty start { s with party := Function.update s.party i p, orphans := orphans } := by
  refine ⟨h.count,?_,h.returned⟩
  apply (Function.forall_update_iff s.party fun j p => Tailed s.reserved j p).mpr
  exact ⟨hp,fun j _ => h.parties j⟩

private theorem Thrifty.issue (h : Thrifty start s) {r : Reservation (ι × Nat) Int} (hr : r ∈ s.reserved)
    (ho : r.owner = (i,(s.party i).epoch)) {n m : Int} (hm : r.hi = m) (hlo : r.lo ≤ n)
    (hhi : n < r.lo+reach) :
    Thrifty start (s.returns i n m) := by
  have htailed := h.update (tailed_of_mem hr ho hm (by omega : r.lo ≤ n+1)) s.orphans
  refine ⟨h.count,htailed.parties,fun e he => ?_⟩
  rcases List.mem_cons.mp he with rfl | he
  · exact ⟨r,hr,ho,hlo,hhi⟩
  · exact h.returned e he

private theorem Thrifty.reserve (h : Thrifty start s) (i : ι) : Thrifty start (s.reserve i) := by
  refine ⟨?_,?_,fun e he => (h.returned e he).mono _⟩
  · have hcount := h.count
    rw [Cluster.reserve,List.length_cons,Nat.cast_succ,mul_add,mul_one,← add_assoc]
    exact Int.add_le_add_right hcount PERIOD
  · apply (Function.forall_update_iff s.party fun j p =>
      Tailed (⟨(i,(s.party i).epoch),s.counter,s.counter+PERIOD⟩ :: s.reserved) j p).mpr
    refine ⟨⟨((h.parties i).mono _).cached,fun v hv => ?_⟩,fun j _ => (h.parties j).mono _⟩
    cases hv
    exact List.mem_cons_self

private theorem step_thrifty {d : Dispenser (ι × Nat) ι Int} (hm : Matches s d) (h : Thrifty start s)
    {a : Event ι} (hs : step s a = some t) : Thrifty start t := by
  have hP : PERIOD = 100 := rfl
  have hU : reach = 91 := rfl
  cases step_moves hm hs with
  | @sent i _ =>
    refine h.update ((h.parties i).without (c := some .sent) fun v hv => ?_) s.orphans
    cases hv
  | @cached i hstock =>
    obtain ⟨r,hr,ho,hend,hlo⟩ := (h.parties i).cached (by omega)
    have hwidth := (hm.top r hr).2
    exact h.issue hr ho hend hlo (by omega)
  | @granted i _ _ => exact h.reserve i
  | @failed _ i orphans =>
    refine h.update ((h.parties i).without (c := none) fun v hv => ?_) orphans
    cases hv
  | @received i v hc => exact h.issue ((h.parties i).reply v hc) rfl rfl (le_refl _) (by dsimp only; omega)
  | restarted orphans => exact h.update (tailed_empty _) orphans
  | stray orphans _ =>
    have hcount := h.count
    exact ⟨by dsimp only; omega,h.parties,h.returned⟩
  | refused _ => exact ⟨h.count,h.parties,h.returned⟩

omit [DecidableEq ι] in
private theorem boot_thrifty (start : Int) : Thrifty start (boot start : Cluster ι) where
  count := by simp [boot]
  parties _ := tailed_empty 0
  returned := nofun

/-- Distinct numbers, each among the first `k` from some point of a list. -/
theorem length_le_of_cover {starts numbers : List Int} {k : Nat} (hn : numbers.Nodup)
    (h : ∀ n ∈ numbers, ∃ lo ∈ starts, lo ≤ n ∧ n < lo+k) : numbers.length ≤ k*starts.length := by
  have hsub : numbers.toFinset ⊆ starts.toFinset.biUnion fun lo => Finset.Ico lo (lo+k) := by
    intro n hmem
    obtain ⟨lo,hlo,hle⟩ := h n (List.mem_toFinset.mp hmem)
    exact Finset.mem_biUnion.mpr ⟨lo,List.mem_toFinset.mpr hlo,Finset.mem_Ico.mpr hle⟩
  have hcard : (starts.toFinset.biUnion fun lo => Finset.Ico lo (lo+k)).card ≤ starts.toFinset.card*k :=
    Finset.card_biUnion_le_card_mul _ _ k fun lo _ => by
      rw [Int.card_Ico]
      omega
  calc
    numbers.length = numbers.toFinset.card := (List.toFinset_card_of_nodup hn).symm
    _ ≤ starts.toFinset.card*k := (Finset.card_le_card hsub).trans hcard
    _ ≤ starts.length*k := Nat.mul_le_mul_right k starts.toFinset_card_le
    _ = k*starts.length := Nat.mul_comm ..

end Steps

/-- In every run nine of every hundred numbers are given up: what is returned is among the
first 91 of a segment of its instance, and while the counter moves by at least 100 for
each segment, no more than 91 numbers are returned for each. -/
theorem ninety_one_of_a_hundred (start : Int) (h0 : 0 ≤ start) (hmax : start ≤ Long.MAX_VALUE)
    (as : List (Event ι)) (s : Cluster ι) (h : exec step (boot start) as = some s) :
    (∀ e ∈ s.returned, Fore s.reserved e) ∧ s.returned.length ≤ reach*s.reserved.length ∧
      PERIOD*s.reserved.length ≤ s.counter-start := by
  have hstep (s : Cluster ι) (a : Event ι) (t : Cluster ι)
      (hs : Reachable step (boot start) s ∧ Thrifty start s) (_ : True) (hst : step s a = some t) :
      Reachable step (boot start) t ∧ Thrifty start t := by
    obtain ⟨⟨as,has⟩,hthrifty⟩ := hs
    obtain ⟨d,_,hm⟩ := refines_dispenser h0 hmax ⟨as,has⟩
    exact ⟨⟨as ++ [a],exec_concat_iff.mpr ⟨s,has,hst⟩⟩,step_thrifty hm hthrifty hst⟩
  obtain ⟨hreach,hthrifty⟩ := exec_invariant hstep ⟨⟨[],rfl⟩,boot_thrifty start⟩ (stepsMeet_true _ as) h
  obtain ⟨d,hd,hm⟩ := refines_dispenser h0 hmax hreach
  have hnodup := (Dispenser.sound_run hd (Dispenser.sound_empty _)).nodup
  rw [hm.issued] at hnodup
  refine ⟨hthrifty.returned,?_,by have := hthrifty.count; omega⟩
  have hcover : ∀ n ∈ s.returned.map Prod.snd, ∃ lo ∈ s.reserved.map Reservation.lo,
      lo ≤ n ∧ n < lo+reach := by
    intro n hn
    obtain ⟨e,he,rfl⟩ := List.mem_map.mp hn
    obtain ⟨r,hr,_,hlo,hhi⟩ := hthrifty.returned e he
    exact ⟨r.lo,List.mem_map_of_mem hr,hlo,hhi⟩
  have hlen := length_le_of_cover hnodup hcover
  rwa [List.length_map,List.length_map] at hlen

theorem ninety_one_then_the_next_segment :
    let fetch : List (Event Unit) := [.call (),.serve (),.receive ()]
    let as := fetch ++ List.replicate 90 (.call ()) ++ fetch
    ∃ s, exec step (boot 5) as = some s ∧ (s.returned.map Prod.snd).take 2 = [105,95] ∧
      s.returned.length = 92 ∧ s.returned.length ≤ reach*s.reserved.length := by
  intro fetch as
  have hrun : ∃ s ∈ exec step (boot 5) as, (s.returned.map Prod.snd).take 2 = [105,95] ∧
      s.returned.length = 92 := by decide +kernel
  obtain ⟨s,hs,htail,hlen⟩ := hrun
  exact ⟨s,hs,htail,hlen,(ninety_one_of_a_hundred 5 (by decide) (by decide) as s hs).2.1⟩

end CloudWeb.Sequence.NumberCacheSequence
