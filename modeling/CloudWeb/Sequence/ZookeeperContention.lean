import CloudWeb.Sequence.ZookeeperSegments

/-! What any number of `ZookeeperSequencePro` instances keep however their fetches
interleave, overrun each other and fail. A number may be returned by two instances, but each
of them rises, and none leaves the segments that were written to the node. -/
namespace CloudWeb.Sequence.ZookeeperSequencePro
open Java Foundation
variable {ι : Type*} [DecidableEq ι]

/-- Each instance returned rising numbers. -/
def Rises (returned : List (ι × Int)) : Prop :=
  returned.Pairwise fun newer older => newer.1 = older.1 → older.2 < newer.2

/-- `i` may return `c` next, or may go on from `c`. A node that started at 0 gives the
first batch to nobody: 0 is the initial `curNum`. -/
structure Past (start v : Int) (returned : List (ι × Int)) (i : ι) (c : Int) : Prop where
  lower : start ≤ c
  upper : c ≤ v
  batch : start = 0 → PERIOD ≤ c
  own : ∀ e ∈ returned, e.1 = i → e.2 < c

/-- The cache of `i` against a node of value `v`. While `curNum` is 0 the next fetch takes
the node's value for it. -/
structure Ahead (start v : Int) (returned : List (ι × Int)) (i : ι) (q : ZookeeperSequencePro) :
    Prop where
  above : start+PERIOD ≤ q.maxNum
  below : q.maxNum ≤ v
  fresh : q.curNum = 0 → 0 < v
  started : q.curNum ≠ 0 → Past start v returned i q.curNum

structure Contended (strings : Strings) (start v : Int) (s : Cluster ι) : Prop
    extends Counted strings start v s where
  parties : ∀ i q p, s.inst i = .alive q p → Ahead start v s.returned i q
  sound : ∀ e ∈ s.returned, start ≤ e.2 ∧ e.2 < v ∧ (start = 0 → PERIOD ≤ e.2)
  rises : Rises s.returned

section Party
variable {strings : Strings} {start v v' c : Int} {returned : List (ι × Int)} {i : ι}
  {q : ZookeeperSequencePro} {s : Cluster ι}

omit [DecidableEq ι] in
private theorem Past.mono (h : Past start v returned i c) (hv : v ≤ v') : Past start v' returned i c :=
  ⟨h.lower,h.upper.trans hv,h.batch,h.own⟩

omit [DecidableEq ι] in
private theorem Ahead.mono (h : Ahead start v returned i q) (hv : v ≤ v') : Ahead start v' returned i q :=
  ⟨h.above,h.below.trans hv,fun hc => (h.fresh hc).trans_le hv,fun hc => (h.started hc).mono hv⟩

omit [DecidableEq ι] in
private theorem Contended.past (h : Contended strings start v s) (hv : v ≠ 0) :
    Past start v s.returned i v := by
  have hP : PERIOD = 1000 := rfl
  have hc := h.count
  rw [hP] at hc
  exact ⟨h.risen,le_refl _,fun h0 => by omega,fun e he _ => (h.sound e he).2.1⟩

omit [DecidableEq ι] in
private theorem Contended.refreshed (h : Contended strings start v s)
    (hq : Ahead start v s.returned i q) :
    (q.refreshed v).curNum ≠ 0 ∧ Ahead start v s.returned i (q.refreshed v) := by
  rcases refreshed_cases q v with ⟨hc,hr⟩ | ⟨hc,hr⟩
  · have hv := hq.fresh hc
    rw [hr]
    exact ⟨hv.ne',hq.above,hq.below,fun h0 => absurd h0 hv.ne',fun hne => h.past hne⟩
  · rw [hr]
    exact ⟨hc,hq⟩

omit [DecidableEq ι] in
private theorem Contended.reserve (h : Contended strings start v s) (hroom : v+PERIOD ≤ Long.MAX_VALUE)
    (i : ι) :
    Contended strings start (v+PERIOD) (s.reserve i v) := by
  have hP : PERIOD = 1000 := rfl
  refine ⟨h.toCounted.reserve hroom i,fun j q p hj => ?_,fun e he => ?_,h.rises⟩
  · exact (h.parties j q p hj).mono (by omega)
  · obtain ⟨h1,h2,h3⟩ := h.sound e he
    exact ⟨h1,by omega,h3⟩

private theorem Contended.enter (h : Contended strings start v s) {ph : Phase}
    (hok : ∀ q p, ph = .alive q p → s.node ≠ none ∧ Ahead start v s.returned i q) :
    Contended strings start v (s.enter i ph) := by
  refine ⟨h.toCounted.enter fun q p hq => (hok q p hq).1,fun j q p hj => ?_,h.sound,h.rises⟩
  rcases alive_enter hj with ⟨rfl,hq⟩ | ⟨_,hj⟩
  · exact (hok q p hq).2
  · exact h.parties j q p hj

private theorem Contended.returns (h : Contended strings start v s) (hs : Long.InRange start)
    (hnode : s.node ≠ none) (hq : Ahead start v s.returned i q) (hc : q.curNum ≠ 0)
    (hlt : q.curNum+1 < v) (p : Nat) : Contended strings start v (s.returns i q p) := by
  obtain ⟨hlow,_,hbatch,hown⟩ := hq.started hc
  have hcur : q.take.2.curNum = q.curNum+1 :=
    toLong_eq (hs.between (stored_inRange h.node) (by omega) (by omega))
  refine ⟨h.toCounted.returns hnode i q p,fun j q' p' hj => ?_,fun e he => ?_,?_⟩
  · rcases alive_returns hj with ⟨rfl,rfl⟩ | ⟨hji,hj⟩
    · refine ⟨hq.above,hq.below,fun h0 => by omega,fun _ => ?_⟩
      rw [hcur]
      refine ⟨by omega,hlt.le,fun h0 => (hbatch h0).trans (by omega),fun e he hei => ?_⟩
      rcases List.mem_cons.mp he with rfl | he
      · exact Int.lt_succ _
      · exact (hown e he hei).trans (Int.lt_succ _)
    · obtain ⟨habove,hbelow,hfresh,hstarted⟩ := h.parties j q' p' hj
      refine ⟨habove,hbelow,hfresh,fun hc' => ?_⟩
      obtain ⟨h1,h2,h3,h4⟩ := hstarted hc'
      refine ⟨h1,h2,h3,fun e he hej => ?_⟩
      rcases List.mem_cons.mp he with rfl | he
      · exact absurd hej.symm hji
      · exact h4 e he hej
  · rcases List.mem_cons.mp he with rfl | he
    · exact ⟨hlow,by dsimp only; omega,hbatch⟩
    · exact h.sound e he
  · exact List.pairwise_cons.mpr ⟨fun e he hie => hown e he hie.symm,h.rises⟩

omit [DecidableEq ι] in
/-- Whatever a fetch of an instance comes to, its cache stays ahead. -/
theorem Contended.fetched (h : Contended strings start v s) (hnode : s.node ≠ none)
    (hq : Ahead start v s.returned i q) {fault : Option Fault}
    {out : Except DistributedSequenceException Unit} {q' : ZookeeperSequencePro} {s' : Cluster ι}
    (hf : Fetched s i v q fault out q' s') :
    ∃ v', Contended strings start v' s' ∧ s'.node ≠ none ∧ Ahead start v' s'.returned i q' ∧
      (out = .ok () → q'.curNum ≠ 0 ∧ q'.curNum+1 < v') := by
  have hP : PERIOD = 1000 := rfl
  obtain ⟨hc,hr⟩ := h.refreshed hq
  have hkept {q' : ZookeeperSequencePro} (hq' : q' = q ∨ q' = q.refreshed v) :
      Ahead start v s.returned i q' := by
    rcases hq' with rfl | rfl
    · exact hq
    · exact hr
  cases hf with
  | unwritten hq' => exact ⟨v,h,hnode,hkept hq',fun ho => nomatch ho⟩
  | overlooked _ hroom =>
    exact ⟨_,h.reserve hroom i,Option.some_ne_none _,hr.mono (by omega),fun ho => nomatch ho⟩
  | written _ hroom =>
    have habove := hr.above
    have hbelow := hr.below
    have hcur := (hr.started hc).upper
    refine ⟨_,h.reserve hroom i,Option.some_ne_none _,⟨by dsimp only; omega,le_refl _,
      fun h0 => absurd h0 hc,fun hne => (hr.started hne).mono (by omega)⟩,fun _ => ⟨hc,?_⟩⟩
    dsimp only
    omega

omit [DecidableEq ι] in
private theorem Contended.first (h : Contended strings start v s) {fault : Option Fault}
    {out : Except DistributedSequenceException Unit} {q' : ZookeeperSequencePro} {s' : Cluster ι}
    (hf : Fetched s i v {} fault out q' s') :
    ∃ v', Contended strings start v' s' ∧
      (out = .ok () → s'.node ≠ none ∧ Ahead start v' s'.returned i q') := by
  have hP : PERIOD = 1000 := rfl
  cases hf with
  | unwritten _ => exact ⟨v,h,fun ho => nomatch ho⟩
  | overlooked _ hroom => exact ⟨_,h.reserve hroom i,fun ho => nomatch ho⟩
  | written _ hroom =>
    have hrefreshed : ({} : ZookeeperSequencePro).refreshed v = { curNum := v } := rfl
    have hrisen := h.risen
    have hcount := h.count
    rw [hP] at hcount
    refine ⟨_,h.reserve hroom i,fun _ => ⟨Option.some_ne_none _,?_⟩⟩
    rw [hrefreshed]
    exact ⟨by dsimp only; omega,le_refl _,fun h0 => by dsimp only at h0; omega,
      fun hv => (h.past hv).mono (by omega)⟩

omit [DecidableEq ι] in
private theorem Ahead.of_not_low (h : Ahead start v returned i q) (hs : Long.InRange start)
    (hv : Long.InRange v) (hl : q.low = false) : q.curNum ≠ 0 ∧ q.curNum+1 < v := by
  simp only [low,Bool.or_eq_false_iff,decide_eq_false_iff_not] at hl
  obtain ⟨hc,hlt⟩ := hl
  have hP : PERIOD = 1000 := rfl
  have ha := h.above
  have hb := h.below
  rw [toLong_eq (hs.between hv (by omega) (by omega))] at hlt
  exact ⟨hc,by omega⟩

end Party

section Runs
variable {strings : Strings} {start : Int}

private theorem step_contended (hs : Long.InRange start) (s : Cluster ι) (a : Label ι) (t : Cluster ι)
    (h : ∃ v, Contended strings start v s) (hok : HasRoom strings s a) (hstep : step strings s a = some t) :
    ∃ v, Contended strings start v t := by
  obtain ⟨v,h⟩ := h
  cases step_moves h.toCounted hok hstep with
  | constructed _ hf =>
    obtain ⟨v',hw,hfirst⟩ := h.first hf
    refine ⟨v',hw.enter fun q p hq => ?_⟩
    cases hq
    exact hfirst rfl
  | stillborn _ hf =>
    obtain ⟨v',hw,_⟩ := h.first hf
    exact ⟨v',hw.enter fun q p hq => nomatch hq⟩
  | @cached i _ q p hi hl =>
    have hq := h.parties i q p hi
    obtain ⟨hc,hlt⟩ := hq.of_not_low hs (stored_inRange h.node) hl
    exact ⟨v,h.returns hs (h.exists_node i q p hi) hq hc hlt _⟩
  | @failed i _ q p _ _ _ hi _ hf =>
    obtain ⟨v',hw,hnode,hq,_⟩ := h.fetched (h.exists_node i q p hi) (h.parties i q p hi) hf
    refine ⟨v',hw.enter fun q p hp => ?_⟩
    cases hp
    exact ⟨hnode,hq⟩
  | @fetched i _ q p _ _ hi _ hf =>
    obtain ⟨v',hw,hnode,hq,hready⟩ := h.fetched (h.exists_node i q p hi) (h.parties i q p hi) hf
    obtain ⟨hc,hlt⟩ := hready rfl
    exact ⟨v',hw.returns hs hnode hq hc hlt _⟩
  | @task i _ q p _ _ _ hi hf =>
    obtain ⟨v',hw,hnode,hq,_⟩ := h.fetched (h.exists_node i q _ hi) (h.parties i q _ hi) hf
    refine ⟨v',hw.enter fun q p hp => ?_⟩
    cases hp
    exact ⟨hnode,hq⟩
  | crash _ => exact ⟨v,h.enter fun q p hq => nomatch hq⟩
  | @crashInFetch i _ q p _ _ _ hi _ hf =>
    obtain ⟨v',hw,_⟩ := h.fetched (h.exists_node i q p hi) (h.parties i q p hi) hf
    exact ⟨v',hw.enter fun q p hq => nomatch hq⟩

omit [DecidableEq ι] in
private theorem boot_contended {node : Option String} (hnode : stored strings node = some start) :
    Contended strings start start (boot node : Cluster ι) :=
  { boot_counted hnode with
    parties := fun _ _ _ h => nomatch h
    sound := fun _ he => absurd he List.not_mem_nil
    rises := .nil }

end Runs

/-- Whoever fetches, fails, crashes or prefetches in between: no instance returns a number
twice or a smaller one after a larger, every number returned lies in a segment that was
reserved, the node counts the segments, and a node that started at 0 never has a number of
its first batch returned. -/
theorem rising_under_contention (strings : Strings) (node : Option String) (start : Int)
    (hnode : stored strings node = some start) (as : List (Label ι)) (s : Cluster ι)
    (hroom : StepsMeet (step strings) (HasRoom strings) (boot node) as)
    (h : exec (step strings) (boot node) as = some s) :
    Rises s.returned ∧
      (∀ e ∈ s.returned, (∃ r ∈ s.reserved, r.Holds e.2) ∧ (start = 0 → PERIOD ≤ e.2)) ∧
      value strings s.node = start+PERIOD*s.reserved.length := by
  obtain ⟨v,hc⟩ := exec_invariant (step_contended (stored_inRange hnode)) ⟨start,boot_contended hnode⟩
    hroom h
  refine ⟨hc.rises,fun e he => ?_,(value_eq hc.node).trans hc.count⟩
  obtain ⟨hlow,hlt,hbatch⟩ := hc.sound e he
  exact ⟨hc.cover e.2 hlow hlt,hbatch⟩

/-- A prefetch leads instance 0 over the segment of instance 1, and both return 2000; a third
one fails on its first write, and instance 0 dies inside another prefetch. -/
theorem rising_over_a_foreign_segment :
    let as : List (Label (Fin 3)) := [.construct 0 none,.next 0 none,.construct 1 none,.next 1 none] ++
      List.replicate 801 (.next 0 none) ++ [.task 0 none,.construct 2 (some (.write true))] ++
      List.replicate 199 (.next 0 none) ++ [.next 1 none,.crash 0 (some (.write true))]
    ∃ s, exec (step .log4j) (boot none) as = some s ∧
      (s.returned.take 2,s.returned.getLast?) = ([(1,2001),(0,2000)],some (0,1000)) ∧
      (1,2000) ∈ s.returned ∧ Rises s.returned ∧
      value .log4j s.node = 0+PERIOD*s.reserved.length ∧ s.reserved.length = 6 := by
  intro as
  have hrun : (exec (step .log4j) (boot none) as).map (fun s =>
      ((s.returned.take 2,s.returned.getLast?),decide ((1,2000) ∈ s.returned),s.reserved.length)) =
      some (([(1,2001),(0,2000)],some (0,1000)),true,6) := by decide +kernel
  obtain ⟨s,hs,hseen⟩ := Option.map_eq_some_iff.mp hrun
  simp only [Prod.mk.injEq,decide_eq_true_eq] at hseen
  obtain ⟨hends,hforeign,hsegments⟩ := hseen
  obtain ⟨hrises,_,hcount⟩ := rising_under_contention .log4j none 0 rfl as s (by decide +kernel) hs
  exact ⟨s,hs,Prod.ext_iff.mpr hends,hforeign,hrises,hcount,hsegments⟩

end CloudWeb.Sequence.ZookeeperSequencePro
