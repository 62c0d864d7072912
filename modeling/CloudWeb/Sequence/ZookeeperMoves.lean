import CloudWeb.Sequence.ZookeeperSequencePro

/-! The steps of `ZookeeperSequencePro` instances by what they do: a segment is reserved,
an instance changes its phase, a number is returned. The node counts the segments. -/
namespace CloudWeb.Sequence.ZookeeperSequencePro
open Java Foundation
variable {ι : Type*} [DecidableEq ι]

/-- What a fetch stores is a `long`. -/
def Room (strings : Strings) (s : Cluster ι) (fault : Option Fault) : Prop :=
  Applies fault → value strings s.node+PERIOD ≤ Long.MAX_VALUE

instance (strings : Strings) (s : Cluster ι) (fault : Option Fault) : Decidable (Room strings s fault) :=
  inferInstanceAs (Decidable (Applies fault → _ ≤ _))

/-- Every fetch has room. -/
def HasRoom (strings : Strings) (s : Cluster ι) : Label ι → Prop
  | .construct i fault => s.inst i = .idle → Room strings s fault
  | .next i fault => (s.inst i).WhenAlive fun q _ => q.low = true → Room strings s fault
  | .task i fault => (s.inst i).WhenAlive fun _ pending => 0 < pending → Room strings s fault
  | .crash _ none => True
  | .crash i (some fault) =>
    (s.inst i).WhenAlive fun q pending => q.low = true ∨ 0 < pending → Room strings s (some fault)

instance (strings : Strings) (s : Cluster ι) (a : Label ι) : Decidable (HasRoom strings s a) :=
  match a with
  | .construct i _ => inferInstanceAs (Decidable (s.inst i = .idle → Room strings s _))
  | .next i _ => inferInstanceAs (Decidable ((s.inst i).WhenAlive _))
  | .task i _ => inferInstanceAs (Decidable ((s.inst i).WhenAlive _))
  | .crash _ none => isTrue trivial
  | .crash i (some _) => inferInstanceAs (Decidable ((s.inst i).WhenAlive _))

def Cluster.reserve (s : Cluster ι) (i : ι) (v : Int) : Cluster ι :=
  { s with node := some (valueOf (v+PERIOD)), reserved := ⟨i,v,v+PERIOD⟩ :: s.reserved }

def Cluster.returns (s : Cluster ι) (i : ι) (q : ZookeeperSequencePro) (pending : Nat) : Cluster ι :=
  { s.enter i (.alive q.take.2 pending) with returned := (i,q.curNum) :: s.returned }

/-- What a fetch of `i` on a node of value `v` can come to. One that throws may have
refreshed `curNum`, and has done so if it has written the node. -/
inductive Fetched (s : Cluster ι) (i : ι) (v : Int) (q : ZookeeperSequencePro) (fault : Option Fault) :
    Except DistributedSequenceException Unit → ZookeeperSequencePro → Cluster ι → Prop
  | unwritten {e q'} (cache : q' = q ∨ q' = q.refreshed v) : Fetched s i v q fault (.error e) q' s
  | overlooked {e} (applied : fault = some (.write true)) (room : v+PERIOD ≤ Long.MAX_VALUE) :
      Fetched s i v q fault (.error e) (q.refreshed v) (s.reserve i v)
  | written (sure : s.node = none ∨ fault = none) (room : v+PERIOD ≤ Long.MAX_VALUE) :
      Fetched s i v q fault (.ok ()) { q.refreshed v with maxNum := v+PERIOD } (s.reserve i v)

/-- Everything a step can be while the node's value is `v`. -/
inductive Moves (s : Cluster ι) (v : Int) : Label ι → Cluster ι → Prop
  | constructed {i fault q s'} (idle : s.inst i = .idle) (fetch : Fetched s i v {} fault (.ok ()) q s') :
      Moves s v (.construct i fault) (s'.enter i (.alive q 0))
  | stillborn {i fault e q s'} (idle : s.inst i = .idle)
      (fetch : Fetched s i v {} fault (.error e) q s') :
      Moves s v (.construct i fault) (s'.enter i .dead)
  | cached {i fault q p} (alive : s.inst i = .alive q p) (stock : q.low = false) :
      Moves s v (.next i fault) (s.returns i q (if q.take.1.2 then p+1 else p))
  | failed {i fault q p e q' s'} (alive : s.inst i = .alive q p) (low : q.low = true)
      (fetch : Fetched s i v q fault (.error e) q' s') :
      Moves s v (.next i fault) (s'.enter i (.alive q' p))
  | fetched {i fault q p q' s'} (alive : s.inst i = .alive q p) (low : q.low = true)
      (fetch : Fetched s i v q fault (.ok ()) q' s') :
      Moves s v (.next i fault) (s'.returns i q' (if q'.take.1.2 then p+1 else p))
  | task {i fault q p out q' s'} (alive : s.inst i = .alive q (p+1))
      (fetch : Fetched s i v q fault out q' s') :
      Moves s v (.task i fault) (s'.enter i (.alive q' p))
  | crash {i q p} (alive : s.inst i = .alive q p) : Moves s v (.crash i none) (s.enter i .dead)
  | crashInFetch {i fault q p out q' s'} (alive : s.inst i = .alive q p) (busy : q.low = true ∨ 0 < p)
      (fetch : Fetched s i v q (some fault) out q' s') :
      Moves s v (.crash i (some fault)) (s'.enter i .dead)

/-- The node holds `v`, `PERIOD` above the start for each segment. -/
structure Counted (strings : Strings) (start v : Int) (s : Cluster ι) : Prop where
  node : stored strings s.node = some v
  count : v = start+PERIOD*s.reserved.length
  top : ∀ r ∈ s.reserved, r.hi ≤ v ∧ r.hi = r.lo+PERIOD
  floor : ∀ r ∈ s.reserved, start ≤ r.lo
  cover : ∀ n, start ≤ n → n < v → ∃ r ∈ s.reserved, r.Holds n
  exists_node : ∀ i q p, s.inst i = .alive q p → s.node ≠ none

section Alive
variable {s : Cluster ι} {i j : ι} {ph : Phase} {q q' : ZookeeperSequencePro} {p p' : Nat}

theorem alive_enter (h : (s.enter i ph).inst j = .alive q p) :
    (j = i ∧ ph = .alive q p) ∨ (j ≠ i ∧ s.inst j = .alive q p) := by
  by_cases hj : j = i
  · subst hj
    exact .inl ⟨rfl,(Function.update_self ..).symm.trans h⟩
  · exact .inr ⟨hj,(Function.update_of_ne hj ..).symm.trans h⟩

theorem alive_returns (h : (s.returns i q p).inst j = .alive q' p') :
    (j = i ∧ q' = q.take.2) ∨ (j ≠ i ∧ s.inst j = .alive q' p') := by
  rcases alive_enter h with ⟨hj,hp⟩ | hj
  · cases hp
    exact .inl ⟨hj,rfl⟩
  · exact .inr hj

omit [DecidableEq ι] in
theorem Fetched.inst {v : Int} {fault : Option Fault} {out : Except DistributedSequenceException Unit}
    {s' : Cluster ι} (h : Fetched s i v q fault out q' s') :
    s'.inst = s.inst ∧ s'.returned = s.returned := by
  cases h <;> exact ⟨rfl,rfl⟩

omit [DecidableEq ι] in
/-- A fetch keeps `curNum` or starts afresh at the node's value; one that returns starts
afresh whenever `curNum` was 0. -/
theorem Fetched.curNum {v : Int} {fault : Option Fault} {out : Except DistributedSequenceException Unit}
    {s' : Cluster ι} (h : Fetched s i v q fault out q' s') :
    (q'.curNum = q.curNum ∧ (out = .ok () → q.curNum ≠ 0)) ∨ (q.curNum = 0 ∧ q'.curNum = v) := by
  have hr : ((q.refreshed v).curNum = q.curNum ∧ q.curNum ≠ 0) ∨
      (q.curNum = 0 ∧ (q.refreshed v).curNum = v) := by
    rcases refreshed_cases q v with ⟨hc,hr⟩ | ⟨hc,hr⟩
    · exact .inr ⟨hc,by rw [hr]⟩
    · exact .inl ⟨by rw [hr],hc⟩
  have hrefreshed := hr.imp_left fun hc => And.intro hc.1 fun _ : out = .ok () => hc.2
  cases h with
  | unwritten hq =>
    rcases hq with rfl | rfl
    · exact .inl ⟨rfl,fun ho => nomatch ho⟩
    · exact hrefreshed
  | overlooked _ _ => exact hrefreshed
  | written _ _ => exact hrefreshed

omit [DecidableEq ι] in
theorem Fetched.foreign {v : Int} {fault : Option Fault} {out : Except DistributedSequenceException Unit}
    {s' : Cluster ι} (h : Fetched s i v q fault out q' s') {r : Reservation ι Int} (hr : r ∈ s'.reserved)
    (ho : r.owner ≠ i) : r ∈ s.reserved := by
  cases h with
  | unwritten _ => exact hr
  | overlooked _ _ => exact (List.mem_cons.mp hr).resolve_left fun he => ho (he ▸ rfl)
  | written _ _ => exact (List.mem_cons.mp hr).resolve_left fun he => ho (he ▸ rfl)

end Alive

section Counting
variable {strings : Strings} {start v : Int} {s t : Cluster ι} {i : ι} {fault : Option Fault}
  {out : Except DistributedSequenceException Unit} {node : Option String} {q q' : ZookeeperSequencePro}

omit [DecidableEq ι] in
theorem Counted.risen (h : Counted strings start v s) : start ≤ v := by
  have hP : PERIOD = 1000 := rfl
  have hc := h.count
  rw [hP] at hc
  omega

omit [DecidableEq ι] in
theorem Room.le (hroom : Room strings s fault) (hv : stored strings s.node = some v)
    (ha : s.node = none ∨ Applies fault) : v+PERIOD ≤ Long.MAX_VALUE := by
  rcases ha with hn | ha
  · rw [hn] at hv
    obtain rfl : 0 = v := Option.some.inj hv
    decide
  · exact value_eq hv ▸ hroom ha

omit [DecidableEq ι] in
private theorem write_self (i : ι) : s.write strings i s.node = s := by
  simp only [Cluster.write,if_true]

omit [DecidableEq ι] in
private theorem write_next (hv : stored strings s.node = some v) (hroom : v+PERIOD ≤ Long.MAX_VALUE)
    (i : ι) :
    s.write strings i (some (valueOf (toLong (v+PERIOD)))) = s.reserve i v := by
  have hP : PERIOD = 1000 := rfl
  have he : toLong (v+PERIOD) = v+PERIOD :=
    toLong_eq ⟨(stored_inRange hv).1.trans (by omega),hroom⟩
  have hst : stored strings (some (valueOf (v+PERIOD))) = some (v+PERIOD) := by
    rw [← he,stored_valueOf (toLong_inRange _)]
  have hne : some (valueOf (v+PERIOD)) ≠ s.node := by
    intro hsame
    rw [hsame,hv] at hst
    have := Option.some.inj hst
    omega
  simp only [he,Cluster.write,Cluster.reserve,if_neg hne,value,hv,hst,Option.getD_some]

omit [DecidableEq ι] in
theorem fetchSegment_fetched (hf : q.fetchSegment strings fault s.node = (out,node,q'))
    (hv : stored strings s.node = some v) (hnone : s.node = none → q.curNum = 0)
    (hroom : Room strings s fault) (i : ι) : Fetched s i v q fault out q' (s.write strings i node) := by
  rcases fetchSegment_spec hf hv hnone with ⟨e,rfl,⟨rfl,hq⟩ | ⟨ha,rfl,rfl⟩⟩ | ⟨rfl,hsure,rfl,rfl⟩
  · rw [write_self]
    exact .unwritten hq
  · have hle := hroom.le hv (.inr (.inr ha))
    rw [write_next hv hle]
    exact .overlooked ha hle
  · have hP : PERIOD = 1000 := rfl
    have hle := hroom.le hv (hsure.imp_right .inl)
    rw [write_next hv hle,toLong_eq ⟨(stored_inRange hv).1.trans (by omega),hle⟩]
    exact .written hsure hle

theorem step_moves {a : Label ι} (h : Counted strings start v s) (hok : HasRoom strings s a)
    (hs : step strings s a = some t) : Moves s v a t := by
  cases a with
  | construct i fault =>
    simp only [step] at hs
    split at hs
    · next hi =>
      split at hs <;> cases hs
      · next hf => exact .constructed hi (fetchSegment_fetched hf h.node (fun _ => rfl) (hok hi) i)
      · next hf => exact .stillborn hi (fetchSegment_fetched hf h.node (fun _ => rfl) (hok hi) i)
    · cases hs
  | next i fault =>
    simp only [step] at hs
    split at hs
    · next q pending hi =>
      have hroom := Phase.whenAlive_iff.mp hok q pending hi
      have hnone (hn : s.node = none) : q.curNum = 0 := absurd hn (h.exists_node i q pending hi)
      split at hs
      · next hn =>
        cases hs
        rcases next_cases hn with ⟨hl,ho,rfl,rfl⟩ | ⟨_,_,_,ho⟩ | ⟨hl,q₁,hf,ho,rfl⟩
        · cases ho
          rw [write_self]
          exact .cached hi hl
        · cases ho
        · cases ho
          exact .fetched hi hl (fetchSegment_fetched hf h.node hnone (hroom hl) i)
      · next hn =>
        cases hs
        rcases next_cases hn with ⟨_,ho,_⟩ | ⟨hl,_,hf,_⟩ | ⟨_,_,_,ho,_⟩
        · cases ho
        · exact .failed hi hl (fetchSegment_fetched hf h.node hnone (hroom hl) i)
        · cases ho
    · cases hs
  | task i fault =>
    simp only [step] at hs
    split at hs
    · next q pending hi =>
      cases hs
      have hroom := Phase.whenAlive_iff.mp hok q _ hi (Nat.succ_pos _)
      have hnone (hn : s.node = none) : q.curNum = 0 := absurd hn (h.exists_node i q _ hi)
      exact .task hi (fetchSegment_fetched rfl h.node hnone hroom i)
    · cases hs
  | crash i inFetch =>
    cases inFetch with
    | none =>
      simp only [step] at hs
      split at hs <;> cases hs
      next hi => exact .crash hi
    | some fault =>
      simp only [step] at hs
      split at hs
      · next q pending hi =>
        split at hs <;> cases hs
        next hbusy =>
        have hroom := Phase.whenAlive_iff.mp hok q pending hi hbusy
        have hnone (hn : s.node = none) : q.curNum = 0 := absurd hn (h.exists_node i q pending hi)
        exact .crashInFetch hi hbusy (fetchSegment_fetched rfl h.node hnone hroom i)
      · cases hs

omit [DecidableEq ι] in
theorem Counted.reserve (h : Counted strings start v s) (hroom : v+PERIOD ≤ Long.MAX_VALUE) (i : ι) :
    Counted strings start (v+PERIOD) (s.reserve i v) := by
  have hP : PERIOD = 1000 := rfl
  refine ⟨stored_valueOf ⟨(stored_inRange h.node).1.trans (by omega),hroom⟩,?_,fun r hr => ?_,fun r hr => ?_,
    fun n hl hh => ?_,fun _ _ _ _ => Option.some_ne_none _⟩
  · rw [h.count,Cluster.reserve,List.length_cons,Nat.cast_succ,mul_add,mul_one,add_assoc]
  · rcases List.mem_cons.mp hr with rfl | hr
    · exact ⟨le_refl _,rfl⟩
    · obtain ⟨ht,hw⟩ := h.top r hr
      exact ⟨by omega,hw⟩
  · rcases List.mem_cons.mp hr with rfl | hr
    · exact h.risen
    · exact h.floor r hr
  · by_cases hnv : n < v
    · obtain ⟨r,hr,hn⟩ := h.cover n hl hnv
      exact ⟨r,List.mem_cons_of_mem _ hr,hn⟩
    · exact ⟨_,List.mem_cons_self,not_lt.mp hnv,hh⟩

theorem Counted.enter (h : Counted strings start v s) {ph : Phase}
    (hnode : ∀ q p, ph = .alive q p → s.node ≠ none) : Counted strings start v (s.enter i ph) := by
  refine ⟨h.node,h.count,h.top,h.floor,h.cover,fun j q p hj => ?_⟩
  rcases alive_enter hj with ⟨_,hp⟩ | ⟨_,hj⟩
  · exact hnode q p hp
  · exact h.exists_node j q p hj

theorem Counted.returns (h : Counted strings start v s) (hnode : s.node ≠ none) (i : ι)
    (q : ZookeeperSequencePro) (p : Nat) : Counted strings start v (s.returns i q p) :=
  ⟨h.node,h.count,h.top,h.floor,h.cover,fun _ _ _ _ => hnode⟩

omit [DecidableEq ι] in
theorem Counted.fetched (h : Counted strings start v s) (hf : Fetched s i v q fault out q' t) :
    ∃ w, Counted strings start w t := by
  cases hf with
  | unwritten _ => exact ⟨v,h⟩
  | overlooked _ hroom => exact ⟨_,h.reserve hroom i⟩
  | written _ hroom => exact ⟨_,h.reserve hroom i⟩

omit [DecidableEq ι] in
theorem Fetched.grown (hf : Fetched s i v q fault out q' t) (h : Counted strings start v s) :
    value strings t.node-value strings s.node ≤ PERIOD := by
  have hP : PERIOD = 1000 := rfl
  rw [value_eq h.node]
  cases hf with
  | unwritten _ =>
    rw [value_eq h.node]
    omega
  | overlooked _ hroom =>
    rw [value_eq (h.reserve hroom i).node]
    omega
  | written _ hroom =>
    rw [value_eq (h.reserve hroom i).node]
    omega

omit [DecidableEq ι] in
theorem boot_counted (hnode : stored strings node = some start) :
    Counted strings start start (boot node : Cluster ι) where
  node := hnode
  count := by rw [boot,List.length_nil,Nat.cast_zero,mul_zero,add_zero]
  top _ hr := absurd hr List.not_mem_nil
  floor _ hr := absurd hr List.not_mem_nil
  cover _ hl hh := absurd (hl.trans_lt hh) (lt_irrefl _)
  exists_node _ _ _ h := nomatch h

end Counting
end CloudWeb.Sequence.ZookeeperSequencePro
