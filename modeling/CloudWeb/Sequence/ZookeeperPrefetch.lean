import CloudWeb.Sequence.ZookeeperSoleUser

/-! How much a sole `ZookeeperSequencePro` holds back and a restart can lose. A call submits
a prefetch whenever little is left; the prefetch does not look again when it runs. -/
namespace CloudWeb.Sequence.ZookeeperSequencePro
open Java Foundation
variable {ι : Type*} [DecidableEq ι]

/-- At most one batch more than the fifth that makes `next()` ask for one, in the cache and
up to the number stored in the node. -/
def Bounded (strings : Strings) (s : Cluster ι) : Prop :=
  ∀ i, (s.inst i).WhenAlive fun q _ =>
    q.maxNum-q.curNum ≤ PERIOD+PERIOD/5 ∧ value strings s.node-q.curNum ≤ PERIOD+PERIOD/5

/-- How many reserved numbers are lost with the instance that a step ends: those from
`curNum` on, as the fetch it may be in has left `curNum`. -/
def lost (strings : Strings) (s : Cluster ι) : Label ι → Int
  | .construct i fault =>
    match s.inst i, fetchSegment strings fault s.node {} with
    | .idle, (.error _,node,_) => value strings node-value strings s.node
    | _, _ => 0
  | .next _ _ => 0
  | .task _ _ => 0
  | .crash i none =>
    match s.inst i with
    | .alive q _ => value strings s.node-q.curNum
    | _ => 0
  | .crash i (some fault) =>
    match s.inst i with
    | .alive q _ =>
      let (_,node,q) := q.fetchSegment strings (some fault) s.node
      value strings node-q.curNum
    | _ => 0

/-- The cache starts afresh with the next fetch, or at most a fifth of a batch is left. -/
def Few (q : ZookeeperSequencePro) : Prop := q.curNum = 0 ∨ q.maxNum-q.curNum ≤ PERIOD/5

instance (q : ZookeeperSequencePro) : Decidable q.Few := inferInstanceAs (Decidable (_ ∨ _))

/-- A prefetch that writes the node finds few numbers left, also when a crash ends it, and
no surviving instance misses that its write was applied. -/
def Timely (s : Cluster ι) : Label ι → Prop
  | .construct _ _ => True
  | .next _ fault => fault ≠ some (.write true)
  | .task i fault => fault ≠ some (.write true) ∧ (s.inst i).WhenAlive fun q _ => fault = none → q.Few
  | .crash i inFetch => (s.inst i).WhenAlive fun q _ => inFetch = some (.write true) → q.Few

instance (s : Cluster ι) (a : Label ι) : Decidable (Timely s a) :=
  match a with
  | .construct _ _ => isTrue trivial
  | .next _ fault => inferInstanceAs (Decidable (fault ≠ some (.write true)))
  | .task i _ => inferInstanceAs (Decidable (_ ∧ (s.inst i).WhenAlive _))
  | .crash i _ => inferInstanceAs (Decidable ((s.inst i).WhenAlive _))

/-- The cache of the only instance on a node of value `v`. -/
structure Stocked (v : Int) (q : ZookeeperSequencePro) : Prop where
  top : q.maxNum = v
  above : Long.MIN_VALUE+PERIOD ≤ v
  inRange : Long.InRange q.curNum
  ordered : q.curNum ≤ v
  bounded : v-q.curNum ≤ PERIOD+PERIOD/5

section Stock
variable {q : ZookeeperSequencePro} {v : Int}

private theorem Stocked.refreshed (h : Stocked v q) (hv : Long.InRange v) :
    Stocked v (q.refreshed v) := by
  rcases refreshed_cases q v with ⟨_,hr⟩ | ⟨_,hr⟩
  · have hP : PERIOD = 1000 := rfl
    rw [hr]
    exact ⟨h.top,h.above,hv,le_refl _,by dsimp only; omega⟩
  · rwa [hr]

private theorem Stocked.near (h : Stocked v q) (hfew : q.Few) : v-(q.refreshed v).curNum ≤ PERIOD/5 := by
  rcases refreshed_cases q v with ⟨_,hr⟩ | ⟨hne,hr⟩
  · have hP : PERIOD = 1000 := rfl
    rw [hr]
    dsimp only
    omega
  · rw [hr,← h.top]
    exact hfew.resolve_left hne

private theorem stocked_extended (hv : Long.InRange v) (hr : Long.InRange (q.refreshed v).curNum)
    (hle : (q.refreshed v).curNum ≤ v) (hnear : v-(q.refreshed v).curNum ≤ PERIOD/5) :
    Stocked (v+PERIOD) { q.refreshed v with maxNum := v+PERIOD } := by
  have hP : PERIOD = 1000 := rfl
  have hmin := hv.1
  exact ⟨rfl,by omega,hr,by dsimp only; omega,by dsimp only; omega⟩

private theorem Stocked.take (h : Stocked v q) (hlt : q.curNum < v) (hv : Long.InRange v) :
    Stocked v q.take.2 := by
  have h1 := h.inRange.1
  have h2 := hv.2
  have hb := h.bounded
  have hcur : q.take.2.curNum = q.curNum+1 := toLong_eq ⟨by omega,by omega⟩
  exact ⟨h.top,h.above,hcur ▸ ⟨by omega,by omega⟩,by omega,by omega⟩

private theorem Stocked.low_iff (h : Stocked v q) (hv : Long.InRange v) :
    q.low = true ↔ q.curNum = 0 ∨ v-1 ≤ q.curNum := by
  have hP : PERIOD = 1000 := rfl
  have ha := h.above
  have hl : toLong (v-1) = v-1 := toLong_eq ⟨by omega,by have := hv.2; omega⟩
  rw [low,h.top,hl,Bool.or_eq_true,decide_eq_true_iff,decide_eq_true_iff]

private theorem Stocked.few (h : Stocked v q) (hv : Long.InRange v) (hl : q.low = true) : q.Few := by
  have hP : PERIOD = 1000 := rfl
  have htop := h.top
  exact ((h.low_iff hv).mp hl).imp_right fun hle => by omega

end Stock

/-- At most one instance is alive, and its cache ends where the node does. -/
structure Sole (strings : Strings) (start v : Int) (s : Cluster ι) : Prop extends
    Counted strings start v s where
  stocked : ∀ i q p, s.inst i = .alive q p → Stocked v q
  alone : ∀ i q p, s.inst i = .alive q p → ∀ j q' p', s.inst j = .alive q' p' → j = i

section Steps
variable {strings : Strings} {start v w : Int} {s t : Cluster ι} {i : ι} {fault : Option Fault}
  {q q' : ZookeeperSequencePro} {p : Nat} {out : Except DistributedSequenceException Unit}

omit [DecidableEq ι] in
private theorem Sole.bounded (h : Sole strings start v s) : Bounded strings s := by
  intro i
  refine Phase.whenAlive_iff.mpr fun q p hi => ?_
  have hq := h.stocked i q p hi
  exact ⟨hq.top ▸ hq.bounded,value_eq h.node ▸ hq.bounded⟩

private theorem Counted.sole {ph : Phase} (ht : Counted strings start w t)
    (halone : ∀ j q p, s.inst j = .alive q p → j = i) (hinst : t.inst = Function.update s.inst i ph)
    (hq : ∀ q p, ph = .alive q p → Stocked w q) : Sole strings start w t := by
  have hlone {j : ι} {q : ZookeeperSequencePro} {p : Nat} (hj : t.inst j = .alive q p) :
      j = i ∧ ph = .alive q p := alive_update halone (hinst ▸ hj)
  refine ⟨ht,fun j q p hj => hq q p (hlone hj).2,fun j q p hj k q' p' hk => ?_⟩
  exact (hlone hk).1.trans (hlone hj).1.symm

private theorem Counted.sole_dead (ht : Counted strings start w t)
    (halone : ∀ j q p, s.inst j = .alive q p → j = i) (hinst : t.inst = s.inst) :
    Sole strings start w (t.enter i .dead) := by
  refine (ht.enter fun q p hp => ?_).sole halone (by rw [Cluster.enter,hinst]) fun q p hp => ?_
  · cases hp
  · cases hp

private theorem Counted.sole_alive (ht : Counted strings start w t) (hnode : t.node ≠ none)
    (halone : ∀ j q p, s.inst j = .alive q p → j = i) (hinst : t.inst = s.inst) (hq : Stocked w q) (p : Nat) :
    Sole strings start w (t.enter i (.alive q p)) := by
  refine (ht.enter fun _ _ _ => hnode).sole halone (by rw [Cluster.enter,hinst]) fun q' p' hp => ?_
  cases hp
  exact hq

private theorem Counted.sole_returns (ht : Counted strings start w t) (hnode : t.node ≠ none)
    (halone : ∀ j q p, s.inst j = .alive q p → j = i) (hinst : t.inst = s.inst) (hq : Stocked w q)
    (hlt : q.curNum < w) (p : Nat) : Sole strings start w (t.returns i q p) := by
  refine (ht.returns hnode i q p).sole halone (by rw [Cluster.returns,Cluster.enter,hinst]) fun q' p' hp => ?_
  cases hp
  exact hq.take hlt (stored_inRange ht.node)

omit [DecidableEq ι] in
/-- A fetch of the only instance alive that does not miss its own write. -/
private theorem Sole.fetched (h : Sole strings start v s) (hi : s.inst i = .alive q p)
    (hf : Fetched s i v q fault out q' t) (hmiss : fault ≠ some (.write true)) (hfew : fault = none → q.Few) :
    ∃ w, Counted strings start w t ∧ t.node ≠ none ∧ Stocked w q' ∧ (out = .ok () → q'.curNum < w) := by
  have hq := h.stocked i q p hi
  have hnode := h.exists_node i q p hi
  have hv := stored_inRange h.node
  have hr := hq.refreshed hv
  cases hf with
  | unwritten hq' =>
    refine ⟨v,h.toCounted,hnode,?_,fun ho => nomatch ho⟩
    rcases hq' with rfl | rfl
    · exact hq
    · exact hr
  | overlooked happlied _ => exact absurd happlied hmiss
  | written hsure hroom =>
    have hP : PERIOD = 1000 := rfl
    have hnear := hq.near (hfew (hsure.resolve_left hnode))
    have hle := hr.ordered
    exact ⟨_,h.toCounted.reserve hroom i,Option.some_ne_none _,stocked_extended hv hr.inRange hle hnear,
      fun _ => by dsimp only; omega⟩

omit [DecidableEq ι] in
private theorem Counted.first (h : Counted strings start v s)
    (hf : Fetched s i v {} fault (.ok ()) q' t) :
    ∃ w, Counted strings start w t ∧ t.node ≠ none ∧ Stocked w q' := by
  have hv := stored_inRange h.node
  have hr : ({} : ZookeeperSequencePro).refreshed v = { curNum := v } := rfl
  cases hf with
  | written _ hroom =>
    refine ⟨_,h.reserve hroom i,Option.some_ne_none _,stocked_extended hv (hr ▸ hv) (hr ▸ le_refl v) ?_⟩
    rw [hr,sub_self]
    decide

private theorem step_sole {a : Label ι} (h : Sole strings start v s) (hsole : SoleUser strings s a)
    (hok : Timely s a) (hs : step strings s a = some t) : ∃ w, Sole strings start w t := by
  have hv := stored_inRange h.node
  have few {i : ι} {q : ZookeeperSequencePro} {p : Nat} (hi : s.inst i = .alive q p) (hl : q.low = true) :
      q.Few := (h.stocked i q p hi).few hv hl
  cases step_moves h.toCounted hsole.hasRoom hs with
  | constructed hi hf =>
    obtain ⟨w,hw,hnode,hq⟩ := h.toCounted.first hf
    exact ⟨w,hw.sole_alive hnode (hsole.nobody hi) hf.inst.1 hq _⟩
  | stillborn hi hf =>
    obtain ⟨w,hw⟩ := h.toCounted.fetched hf
    exact ⟨w,hw.sole_dead (hsole.nobody hi) hf.inst.1⟩
  | @cached i _ q p hi hl =>
    have hq := h.stocked i q p hi
    have hlow := (hq.low_iff hv).not.mp (Bool.eq_false_iff.mp hl)
    have hnode := h.exists_node i q p hi
    exact ⟨v,h.toCounted.sole_returns hnode (h.alone i q p hi) rfl hq (by omega) _⟩
  | @failed i _ q p _ _ _ hi hl hf =>
    obtain ⟨w,hw,hnode,hq,_⟩ := h.fetched hi hf hok fun _ => few hi hl
    exact ⟨w,hw.sole_alive hnode (h.alone i q p hi) hf.inst.1 hq _⟩
  | @fetched i _ q p _ _ hi hl hf =>
    obtain ⟨w,hw,hnode,hq,hlt⟩ := h.fetched hi hf hok fun _ => few hi hl
    exact ⟨w,hw.sole_returns hnode (h.alone i q p hi) hf.inst.1 hq (hlt rfl) _⟩
  | @task i _ q p _ _ _ hi hf =>
    obtain ⟨w,hw,hnode,hq,_⟩ := h.fetched hi hf hok.1 (Phase.whenAlive_iff.mp hok.2 q _ hi)
    exact ⟨w,hw.sole_alive hnode (h.alone i q _ hi) hf.inst.1 hq _⟩
  | @crash i q p hi => exact ⟨v,h.toCounted.sole_dead (h.alone i q p hi) rfl⟩
  | @crashInFetch i _ q p _ _ _ hi _ hf =>
    obtain ⟨w,hw⟩ := h.toCounted.fetched hf
    exact ⟨w,hw.sole_dead (h.alone i q p hi) hf.inst.1⟩

omit [DecidableEq ι] in
private theorem Sole.left_by_fetch (h : Sole strings start v s) (hi : s.inst i = .alive q p)
    {fault : Fault}
    (hf : Fetched s i v q (some fault) out q' t) (hfew : fault = .write true → q.Few) :
    value strings t.node-q'.curNum ≤ PERIOD+PERIOD/5 := by
  have hq := h.stocked i q p hi
  cases hf with
  | unwritten hq' =>
    rw [value_eq h.node]
    rcases hq' with rfl | rfl
    · exact hq.bounded
    · exact (hq.refreshed (stored_inRange h.node)).bounded
  | overlooked happlied hroom =>
    have hnear := hq.near (hfew (Option.some.inj happlied))
    rw [value_eq (h.toCounted.reserve hroom i).node]
    omega
  | written hsure _ =>
    rcases hsure with hn | hn
    · exact absurd hn (h.exists_node i q p hi)
    · cases hn

omit [DecidableEq ι] in
private theorem lost_le {a : Label ι} (h : Sole strings start v s) (hsole : SoleUser strings s a)
    (hok : Timely s a) : lost strings s a ≤ PERIOD+PERIOD/5 := by
  have hnothing : (0 : Int) ≤ PERIOD+PERIOD/5 := by decide
  cases a with
  | construct i fault =>
    simp only [lost]
    split
    · next hi hf =>
      -- what a constructor has reserved before it fails is one batch
      have hgrown := (fetchSegment_fetched hf h.node (fun _ => rfl) (hsole hi).1 i).grown h.toCounted
      have hP : PERIOD = 1000 := rfl
      simp only [Cluster.write] at hgrown
      omega
    · exact hnothing
  | next i fault => exact hnothing
  | task i fault => exact hnothing
  | crash i inFetch =>
    cases inFetch with
    | none =>
      simp only [lost]
      split
      · next q p hi => exact value_eq h.node ▸ (h.stocked i q p hi).bounded
      · exact hnothing
    | some fault =>
      simp only [lost]
      split
      · next q p hi =>
        have hnone (hn : s.node = none) : q.curNum = 0 := absurd hn (h.exists_node i q p hi)
        have hfew := Phase.whenAlive_iff.mp hok q p hi
        exact h.left_by_fetch hi (fetchSegment_fetched rfl h.node hnone hsole i) fun hw => hfew (hw ▸ rfl)
      · exact hnothing

end Steps

/-- Over every schedule of calls, prefetches, failures and restarts of a sole user: where
prefetches run in time, at most 1200 numbers are held back, and none of the steps that end
an instance loses more. -/
theorem bounded_while_timely (strings : Strings) (node : Option String) (start : Int)
    (hnode : stored strings node = some start) (as : List (Label ι))
    (hok : StepsMeet (step strings) (fun s a => SoleUser strings s a ∧ Timely s a) (boot node) as) :
    Always (step strings) (Bounded strings) (boot node) as ∧
      StepsMeet (step strings) (fun s a => lost strings s a ≤ PERIOD+PERIOD/5) (boot node) as := by
  let inv (s : Cluster ι) : Prop := ∃ v, Sole strings start v s
  have hboot : inv (boot node) := by
    refine ⟨start,boot_counted hnode,fun i q p hi => ?_,fun i q p hi => ?_⟩
    · cases hi
    · cases hi
  have hstep : ∀ s a t, inv s → (SoleUser strings s a ∧ Timely s a) → step strings s a = some t → inv t := by
    intro s a t ⟨_,h⟩ hok hs
    exact step_sole h hok.1 hok.2 hs
  constructor
  · exact (hok.always hstep hboot).mono fun s ⟨_,h⟩ => h.bounded
  · exact hok.imp hstep (fun s a ⟨_,h⟩ hok => lost_le h hok.1 hok.2) hboot

/-- The first instance dies inside its second fetch, the second one inside a prefetch, with
another prefetch done and 802 numbers returned. -/
theorem bounded_over_restart :
    let as : List (Label (Fin 3)) := [.construct 0 none,.next 0 (some .getData),
      .crash 0 (some (.write true)),.construct 1 none] ++ List.replicate 802 (.next 1 none) ++
      [.task 1 none,.next 1 none,.crash 1 (some .acquire),.construct 2 none,.next 2 none]
    (exec (step .log4j) (boot none) as).map (fun s => (s.node,s.returned.take 2)) =
        some (some (valueOf 5000),[(2,4000),(1,2802)]) ∧
      Always (step .log4j) (Bounded .log4j) (boot none) as ∧
      StepsMeet (step .log4j) (fun s a => lost .log4j s a ≤ PERIOD+PERIOD/5) (boot none) as := by
  intro as
  refine ⟨by decide +kernel,?_⟩
  exact bounded_while_timely .log4j none 0 (by decide) as (by decide +kernel)

section Backlog
variable {s : Cluster ι} {i : ι} {p : Nat}

private theorem step_submits {q : ZookeeperSequencePro} {num : Int} (strings : Strings)
    (hi : s.inst i = .alive q p) (hl : q.low = false) (ht : q.take.1 = (num,true)) :
    ∃ t, step strings s (.next i none) = some t ∧ t.inst i = .alive q.take.2 (p+1) ∧ t.node = s.node := by
  have hn : q.next strings none s.node = (.ok (num,true),s.node,q.take.2) := by
    simp [next,hl,ht]
  simp only [step,hi,hn]
  exact ⟨_,rfl,Function.update_self ..,rfl⟩

private theorem step_task {q q' : ZookeeperSequencePro} {strings : Strings} {node node' : Option String}
    {out : Except DistributedSequenceException Unit} (hi : s.inst i = .alive q (p+1)) (hn : s.node = node)
    (hf : q.fetchSegment strings none node = (out,node',q')) :
    ∃ t, step strings s (.task i none) = some t ∧ t.inst i = .alive q' p ∧ t.node = node' := by
  rw [← hn] at hf
  simp only [step,hi,hf]
  exact ⟨_,rfl,Function.update_self ..,rfl⟩

private theorem exec_backlog (hi : s.inst i = .alive ⟨1800,2000⟩ p) (hn : s.node = some (valueOf 2000)) :
    ∃ t, exec (step .log4j) s [.next i none,.next i none,.task i none,.task i none] = some t ∧
      t.inst i = .alive ⟨1802,4000⟩ p := by
  obtain ⟨t₁,h₁,hi₁,hn₁⟩ := step_submits .log4j hi (by decide) rfl
  obtain ⟨t₂,h₂,hi₂,hn₂⟩ := step_submits .log4j hi₁ (by decide) rfl
  obtain ⟨t₃,h₃,hi₃,hn₃⟩ := step_task hi₂ (hn₂.trans (hn₁.trans hn))
    (show fetchSegment .log4j none (some (valueOf 2000)) ⟨1802,2000⟩ =
      (.ok (),some (valueOf 3000),⟨1802,3000⟩) by decide +kernel)
  obtain ⟨t₄,h₄,hi₄,_⟩ := step_task hi₃ hn₃
    (show fetchSegment .log4j none (some (valueOf 3000)) ⟨1802,3000⟩ =
      (.ok (),some (valueOf 4000),⟨1802,4000⟩) by decide +kernel)
  refine ⟨t₄,?_,hi₄⟩
  rw [exec_cons,h₁,Option.bind_some,exec_cons,h₂,Option.bind_some,exec_cons,h₃,Option.bind_some,exec_cons,h₄]
  rfl

end Backlog

/-- 802 calls on a new node; both prefetches that the last two submit run afterwards. -/
theorem backlog_exceeds_bound :
    ∃ s : Cluster Unit, exec (step .log4j) (boot none) ([.construct () none,.next () none] ++
        List.replicate 799 (.next () none) ++ [.next () none,.next () none,.task () none,.task () none]) =
        some s ∧ (s.inst ()).WhenAlive (fun q _ => q.maxNum-q.curNum = 2198) ∧ ¬ Bounded .log4j s := by
  have hstart : ∃ s : Cluster Unit, exec (step .log4j) (boot none) [.construct () none,.next () none] =
      some s ∧ s.inst () = .alive ⟨1001,2000⟩ 0 ∧ s.node = some (valueOf 2000) :=
    ⟨_,rfl,by decide +kernel,by decide +kernel⟩
  obtain ⟨s,hs,hi,hn⟩ := hstart
  obtain ⟨t,p,ht,htn,hti,_⟩ := exec_local .log4j 799 hi (by decide) (by decide) (by decide)
  obtain ⟨u,hu,hui⟩ := exec_backlog hti (htn.trans hn)
  refine ⟨u,?_,?_,fun hb => ?_⟩
  · rw [exec_append,exec_append,hs,Option.bind_some,ht]
    exact hu
  · rw [hui]
    rfl
  · have hb := Phase.whenAlive_iff.mp (hb ()) _ _ hui
    exact absurd hb.1 (by decide)

end CloudWeb.Sequence.ZookeeperSequencePro
