import CloudWeb.Sequence.ZookeeperCleanup
import Mathlib.Algebra.Order.BigOperators.Group.Finset
import Mathlib.Data.Finset.Dedup

/-! Where the cleanups of `ZookeeperSequence` come to an end, and what they never delete,
whatever order they run in and whichever of them loses a race. -/
namespace CloudWeb.Sequence.ZookeeperSequence
open Java Foundation
variable {ι : Type*} [DecidableEq ι]

/-- The steps of cleanup threads. -/
def Cleanup : Label ι → Prop
  | .getChildren _ _ => True
  | .visit _ => True
  | _ => False

/-- The steps a process owes when `children` nodes are there: every queued cleanup lists
them, turns to each and ends. -/
def owed (children : Nat) (p : Process) : Nat :=
  p.queue.length*(children+2)+(p.running.elim 0 fun e => e.2.length+1)

def work [Fintype ι] (s : Cluster ι) : Nat := ∑ i, owed s.children.card (s.process i)

section Settling
variable {s t : Cluster ι}

private theorem owed_mono {m n : Nat} (h : m ≤ n) (p : Process) : owed m p ≤ owed n p :=
  Nat.add_le_add_right (Nat.mul_le_mul_left _ (Nat.add_le_add_right h 2)) _

private theorem work_lt [Fintype ι] {i : ι} {p : Process} {rest : Finset String} (hr : rest ⊆ s.children)
    (hp : owed s.children.card p < owed s.children.card (s.process i)) :
    work ({ s with children := rest }.enter i p) < work s := by
  have hcard := Finset.card_le_card hr
  apply Finset.sum_lt_sum
  · intro j _
    by_cases hj : j = i
    · subst hj
      rw [Cluster.process_enter_self]
      exact (owed_mono hcard p).trans hp.le
    · rw [Cluster.process_enter_ne _ hj]
      exact owed_mono hcard _
  · refine ⟨i,Finset.mem_univ i,?_⟩
    rw [Cluster.process_enter_self]
    exact (owed_mono hcard p).trans_lt hp

private theorem step_work [Fintype ι] (s : Cluster ι) (a : Label ι) (t : Cluster ι) (ha : Cleanup a)
    (hs : step s a = some t) : work t < work s := by
  cases step_moves hs with
  | constructed _ => exact ha.elim
  | created _ => exact ha.elim
  | other _ => exact ha.elim
  | @listed i num queue paths hrun hq hnodup hall =>
    refine work_lt (Finset.Subset.refl _) ?_
    have hlen : paths.length = s.children.card := by
      rw [← hall,List.toFinset_card_of_nodup hnodup]
    simp only [owed,hrun,hq,hlen,List.length_cons,Option.elim,Nat.succ_mul]
    omega
  | finished hrun =>
    refine work_lt (Finset.Subset.refl _) ?_
    simp only [owed,hrun,Option.elim,List.length_nil]
    omega
  | passed hrun _ =>
    refine work_lt (Finset.Subset.refl _) ?_
    simp only [owed,hrun,Option.elim,List.length_cons]
    omega
  | deleted hrun _ =>
    refine work_lt (Finset.erase_subset _ _) ?_
    simp only [owed,hrun,Option.elim,List.length_cons]
    omega
  | ended hrun _ =>
    refine work_lt (Finset.Subset.refl _) ?_
    simp only [owed,hrun,Option.elim,List.length_cons]
    omega

private theorem cleanup_enabled (h : ¬ Quiescent s) : ∃ a t, Cleanup a ∧ step s a = some t := by
  obtain ⟨i,hi⟩ := not_forall.mp h
  rcases hrun : (s.process i).running with _ | ⟨num,_ | ⟨q,paths⟩⟩
  · cases hq : (s.process i).queue with
    | nil => exact absurd ⟨hq,hrun⟩ hi
    | cons num queue =>
      refine ⟨.getChildren i s.children.toList,
        s.enter i { s.process i with queue := queue, running := some (num,s.children.toList) },trivial,?_⟩
      simp only [step,hrun,hq]
      exact if_pos ⟨Finset.nodup_toList _,Finset.toList_toFinset _⟩
  · refine ⟨.visit i,s.enter i { s.process i with running := none },trivial,?_⟩
    simp only [step,hrun]
  · let out := visit s.children num q paths
    refine ⟨.visit i,{ s with children := out.1 }.enter i { s.process i with running := out.2 },trivial,?_⟩
    simp only [step,hrun,out]

end Settling

/-- Left alone, the cleanup threads come to rest from any state: no schedule of theirs is
longer than the work left, none stops before nothing is left, and one gets there. -/
theorem cleanups_settle [Fintype ι] (s : Cluster ι) :
    (∀ as t, (∀ a ∈ as, Cleanup a) → exec step s as = some t → as.length ≤ work s ∧
      (Quiescent t ∨ ∃ a u, Cleanup a ∧ step t a = some u)) ∧
    ∃ as t, (∀ a ∈ as, Cleanup a) ∧ exec step s as = some t ∧ Quiescent t := by
  constructor
  · intro as t has ht
    have hlen := (stepsMeet_of_forall has s).length_le step_work ht
    refine ⟨by omega,?_⟩
    by_cases hq : Quiescent t
    · exact .inl hq
    · exact .inr (cleanup_enabled hq)
  · obtain ⟨as,t,hok,ht,hq⟩ := exists_schedule step_work (fun s hs => cleanup_enabled hs) s
    exact ⟨as,t,hok.forall ht,ht,hq⟩

/-! ## What stays -/

/-- A number whose node is gone was left behind by a number of `next()`. -/
def Spared (s : Cluster ι) : Prop :=
  ∀ e ∈ s.created, child e.1 ∈ s.children ∨ ∃ num, (num,true) ∈ s.created ∧ e.1 < num

section Spared
variable {s t : Cluster ι}

omit [DecidableEq ι] in
private theorem Spared.create (h : Spared s) (byNext : Bool) : Spared (s.create byNext) := by
  intro e he
  rcases List.mem_cons.mp he with rfl | he
  · exact .inl (Finset.mem_insert_self _ _)
  · rcases h e he with hc | ⟨num,hnum,hlt⟩
    · exact .inl (Finset.mem_insert_of_mem hc)
    · exact .inr ⟨num,List.mem_cons_of_mem _ hnum,hlt⟩

omit [DecidableEq ι] in
private theorem inv_boot : Inv (boot : Cluster ι) where
  nonneg := le_refl _
  numbers := nofun
  ordered := .nil
  children p hp := absurd hp (Finset.notMem_empty p)
  newest := nofun
  processes _ := ⟨nofun,nofun⟩

private theorem step_spared (s : Cluster ι) (a : Label ι) (t : Cluster ι) (h : Inv s ∧ Spared s)
    (hs : step s a = some t) : Inv t ∧ Spared t := by
  refine ⟨step_inv h.1 hs,?_⟩
  obtain ⟨hi,h⟩ := h
  cases step_moves hs with
  | constructed _ => exact h.create false
  | created _ => exact h.create true
  | other _ => exact fun e he => (h e he).imp_left Finset.mem_insert_of_mem
  | listed _ _ _ _ => exact h
  | finished _ => exact h
  | passed _ _ => exact h
  | @deleted i num p _ hrun hsel =>
    obtain ⟨hnum,hk⟩ := hi.head_known hrun
    obtain ⟨d,hd,rfl,hlt⟩ := hi.selected hk hsel
    intro e he
    by_cases hde : e.1 = d.1
    · exact .inr ⟨num,hnum,hde ▸ hlt⟩
    · refine (h e he).imp_left fun hc => Finset.mem_erase.mpr ⟨fun hsame => hde ?_,hc⟩
      exact child_inj (hi.numbers e he).2.2 (hi.numbers d hd).2.2 hsame
  | ended _ _ => exact h

private theorem other_stays {p : String} (hp : sequential p = false) (s : Cluster ι) (a : Label ι)
    (t : Cluster ι) (h : p ∈ s.children) (hs : step s a = some t) : p ∈ t.children := by
  cases step_moves hs with
  | constructed _ => exact Finset.mem_insert_of_mem h
  | created _ => exact Finset.mem_insert_of_mem h
  | other _ => exact Finset.mem_insert_of_mem h
  | listed _ _ _ _ => exact h
  | finished _ => exact h
  | passed _ _ => exact h
  | deleted _ hsel =>
    refine Finset.mem_erase.mpr ⟨?_,h⟩
    rintro rfl
    rw [selects_other hp] at hsel
    cases hsel
  | ended _ _ => exact h

private theorem exec_other_stays {p : String} (as : List (Label ι)) (s t : Cluster ι)
    (hs : exec step s as = some t) (hp : .other p ∈ as) : p ∈ t.children := by
  induction as generalizing s with
  | nil => exact absurd hp List.not_mem_nil
  | cons a as ih =>
    obtain ⟨u,hu,hr⟩ := exec_cons_some hs
    rcases List.mem_cons.mp hp with rfl | hp
    · simp only [step] at hu
      split at hu <;> cases hu
      next hc =>
      exact exec_invariant (fun s a t h _ => other_stays hc.1 s a t h) (Finset.mem_insert_self _ _)
        (stepsMeet_true _ as) hr
    · exact ih u hr hp

end Spared

/-- In every run the cleanups leave all children of other kinds, and the node of every
number that no number of `next()` is above, so the newest always. -/
theorem cleanups_spare (as : List (Label ι)) (s : Cluster ι) (h : exec step boot as = some s) :
    (∀ p, .other p ∈ as → p ∈ s.children) ∧
    ∀ e ∈ s.created, (∀ num, (num,true) ∈ s.created → num ≤ e.1) → child e.1 ∈ s.children := by
  refine ⟨fun p => exec_other_stays as boot s h,fun e he hmax => ?_⟩
  have hspared := (exec_invariant (fun s a t hs _ => step_spared s a t hs) ⟨inv_boot,nofun⟩
    (stepsMeet_true _ as) h).2
  refine (hspared e he).resolve_right fun hlt => ?_
  obtain ⟨num,hnum,hlt⟩ := hlt
  exact absurd (hmax num hnum) (not_le.mpr hlt)

theorem cleanup_spares_a_neighbour :
    let labels : List (Label Unit) := [.construct (),.other "config",.next (),
      .getChildren () [child 0,"config",child 2],.visit (),.visit (),.visit (),.visit ()]
    ∃ s, exec step boot labels = some s ∧ s.children = {"config",child 2} ∧
      "config" ∈ s.children ∧ child 2 ∈ s.children := by
  intro labels
  have h : ∃ s ∈ exec step boot labels, s.children = {"config",child 2} ∧
      s.created = [(2,true),(0,false)] := by decide +kernel
  obtain ⟨s,hs,hc,hcreated⟩ := h
  have hspare := cleanups_spare labels s (Option.mem_def.mp hs)
  refine ⟨s,Option.mem_def.mp hs,hc,hspare.1 "config" ?_,hspare.2 (2,true) ?_ ?_⟩
  · exact List.mem_cons_of_mem _ List.mem_cons_self
  · exact hcreated ▸ List.mem_cons_self
  · intro num hnum
    rw [hcreated] at hnum
    simp only [List.mem_cons,Prod.mk.injEq,and_true,Bool.true_eq_false,and_false,
      List.not_mem_nil,or_false] at hnum
    exact hnum.le

end CloudWeb.Sequence.ZookeeperSequence
