import CloudWeb.Sequence.ZookeeperSequencePro

/-! `ZookeeperSequencePro` after a failure. Every operation of `fetchSegment` leaves the
fields as they were when it throws, except that `curNum` is assigned before `setData`. -/
namespace CloudWeb.Sequence.ZookeeperSequencePro
open Java Foundation
variable {strings : Strings} {fault : Option Fault} {node : Option String} {q : ZookeeperSequencePro}

/-- A fetch that throws keeps the fields, and a call that throws can be made again later,
on whatever the node holds then, as if for the first time. -/
def FailsClean (strings : Strings) (fault : Option Fault) (node : Option String)
    (q : ZookeeperSequencePro) : Prop :=
  (∀ e node' q', q.fetchSegment strings fault node = (.error e,node',q') → q' = q) ∧
  ∀ e node' q', q.next strings fault node = (.error e,node',q') →
    ∀ retryFault retryNode, q'.next strings retryFault retryNode = q.next strings retryFault retryNode

/-- `setData` throws after a `curNum` of 0 has been replaced by the node's number. -/
def Replaced (strings : Strings) (fault : Option Fault) (node : Option String)
    (q : ZookeeperSequencePro) (v : Int) : Prop :=
  q.curNum = 0 ∧ (∃ applied, fault = some (.write applied)) ∧ node.bind (curVal strings) = some v ∧ v ≠ 0

private theorem fetchSegment_error {e : DistributedSequenceException} {node' : Option String}
    {q' : ZookeeperSequencePro} (h : q.fetchSegment strings fault node = (.error e,node',q')) :
    q' = q ∨ ((∃ applied, fault = some (.write applied)) ∧
      ∃ v, node.bind (curVal strings) = some v ∧ q' = q.refreshed v) := by
  unfold fetchSegment at h
  split at h
  · cases h
    exact .inl rfl
  cases node with
  | none =>
    simp only at h
    split at h
    · cases h
      exact .inl rfl
    · cases h
  | some str =>
    simp only at h
    split at h
    · cases h
      exact .inl rfl
    split at h
    · cases h
      exact .inl rfl
    · next v hv =>
      split at h
      · cases h
        exact .inr ⟨⟨_,rfl⟩,v,hv,rfl⟩
      · cases h

private theorem fetchSegment_replaced {v : Int} (h : Replaced strings fault node q v) :
    ∃ e node', q.fetchSegment strings fault node = (.error e,node',{ q with curNum := v }) := by
  obtain ⟨hc,⟨applied,rfl⟩,hv,_⟩ := h
  cases node with
  | none => cases hv
  | some str =>
    have hv : curVal strings str = some v := hv
    simp [fetchSegment,hv,hc]

private theorem Replaced.not_failsClean {v : Int} (h : Replaced strings fault node q v) :
    ¬ FailsClean strings fault node q := by
  intro hclean
  obtain ⟨e,node',hf⟩ := fetchSegment_replaced h
  have hq := congrArg curNum (hclean.1 e node' _ hf)
  exact h.2.2.2 (hq.trans h.1)

/-- Failures are clean exactly when `setData` does not throw between the two assignments. -/
theorem fails_clean_iff (strings : Strings) (fault : Option Fault) (node : Option String)
    (q : ZookeeperSequencePro) : FailsClean strings fault node q ↔ ¬ ∃ v, Replaced strings fault node q v := by
  constructor
  · rintro hclean ⟨v,hr⟩
    exact hr.not_failsClean hclean
  · intro hnot
    have hkeep : ∀ e node' q', q.fetchSegment strings fault node = (.error e,node',q') → q' = q := by
      intro e node' q' hf
      rcases fetchSegment_error hf with hq | ⟨hfault,v,hv,rfl⟩
      · exact hq
      · apply refreshed_eq_self
        by_contra hor
        obtain ⟨hc,hv0⟩ := not_or.mp hor
        exact hnot ⟨v,not_not.mp hc,hfault,hv,hv0⟩
    refine ⟨hkeep,fun e node' q' hn retryFault retryNode => ?_⟩
    rcases next_cases hn with ⟨_,ho,_⟩ | ⟨_,e',hf,_⟩ | ⟨_,_,_,ho,_⟩
    · cases ho
    · rw [hkeep e' node' q' hf]
    · cases ho

/-- Instance `false` starts a new node and fails in its first call's `setData`. Instance
`true` then reserves `[1000,2000)`, and both return 1000. -/
theorem retry_returns_foreign_number :
    ∃ s t : Cluster Bool, exec (step .log4j) (boot none) [.construct false none] = some s ∧
      s.inst false = .alive ⟨0,1000⟩ 0 ∧ ¬ FailsClean .log4j (some (.write false)) s.node ⟨0,1000⟩ ∧
      exec (step .log4j) s [.next false (some (.write false)),.construct true none,.next true none,
        .next false none] = some t ∧ t.returned = [(false,1000),(true,1000)] := by
  refine ⟨_,_,rfl,by decide +kernel,?_,rfl,by decide +kernel⟩
  apply Replaced.not_failsClean (v := 1000)
  exact ⟨rfl,⟨false,rfl⟩,by decide +kernel,by decide⟩

end CloudWeb.Sequence.ZookeeperSequencePro
