import CloudWeb.Foundation.Dispenser
import CloudWeb.Java.Long

/-! `ZookeeperSequencePro`: a ZooKeeper node advanced by whole segments under a mutex,
a local cache from `curNum` to `maxNum`, and prefetches that run whenever the pool
gets to them. The mutex makes each `fetchSegment` one step on the node. -/
namespace CloudWeb.Sequence
open Java Foundation

/-- `org.apache.logging.log4j.util.Strings`. A text with a character that is not
whitespace is not blank; all that is used of it is that digits are such characters. -/
structure Strings where
  isNotBlank : String → Bool
  decimal : ∀ n, isNotBlank (valueOf n) = true

def Strings.log4j : Strings where
  isNotBlank s := s.toList.any fun c => !c.isWhitespace
  decimal n := by
    have digit {c : Char} (h : c ∈ Nat.toDigits 10 n.natAbs) : (!c.isWhitespace) = true := by
      have hd := Nat.isDigit_of_mem_toDigits (by decide) (by decide) h
      by_contra hw
      simp only [Bool.not_eq_true,Bool.not_eq_false',Char.isWhitespace,Bool.or_eq_true,
        decide_eq_true_eq] at hw
      rcases hw with ((rfl | rfl) | rfl) | rfl <;> exact absurd hd (by decide)
    obtain ⟨c,hc⟩ := List.exists_mem_of_ne_nil _ (Nat.toDigits_ne_nil (n := n.natAbs) (b := 10))
    refine List.any_eq_true.mpr ⟨c,?_,digit hc⟩
    unfold valueOf
    split
    · rw [String.toList_ofList]
      exact List.mem_cons_of_mem _ hc
    · rwa [String.toList_ofList]

inductive Cause
  | zookeeper
  | numberFormat
  deriving DecidableEq, Repr

structure DistributedSequenceException where
  cause : Cause
  deriving DecidableEq, Repr

structure ZookeeperSequencePro where
  curNum : Int := 0
  maxNum : Int := 0
  deriving DecidableEq, Repr

namespace ZookeeperSequencePro

def PERIOD : Int := 1000

/-- Which ZooKeeper operation of `fetchSegment` throws. A write, that is `create` or
`setData`, may have been applied all the same. What `release` throws is only logged. -/
inductive Fault
  | acquire
  | checkExists
  | getData
  | write (applied : Bool)
  deriving DecidableEq, Repr

/-- The number a node's text stands for; `none` is `NumberFormatException`. -/
def curVal (strings : Strings) (str : String) : Option Int :=
  if strings.isNotBlank str then parseLong str else some 0

/-- The outcome, the node and the fields afterwards. `node` is `none` while it does not
exist. `curNum` is assigned before `setData` and stays assigned when that throws. -/
def fetchSegment (strings : Strings) (fault : Option Fault) (node : Option String)
    (q : ZookeeperSequencePro) :
    Except DistributedSequenceException Unit × Option String × ZookeeperSequencePro :=
  if fault = some .acquire ∨ fault = some .checkExists then (.error ⟨.zookeeper⟩,node,q)
  else match node with
    | none =>
      match fault with
      | some (.write applied) =>
        (.error ⟨.zookeeper⟩,if applied then some (valueOf PERIOD) else none,q)
      | _ => (.ok (),some (valueOf PERIOD),{ maxNum := PERIOD, curNum := 0 })
    | some str =>
      if fault = some .getData then (.error ⟨.zookeeper⟩,node,q)
      else match curVal strings str with
        | none => (.error ⟨.numberFormat⟩,node,q)
        | some curVal =>
          let q := if q.curNum = 0 then { q with curNum := curVal } else q
          let nextVal := toLong (curVal+PERIOD)
          match fault with
          | some (.write applied) =>
            (.error ⟨.zookeeper⟩,if applied then some (valueOf nextVal) else node,q)
          | _ => (.ok (),some (valueOf nextVal),{ q with maxNum := nextVal })

/-- The test at the head of `next()`. -/
def low (q : ZookeeperSequencePro) : Bool := q.curNum = 0 || q.curNum ≥ toLong (q.maxNum-1)

/-- The number, whether a prefetch is submitted, and the fields afterwards. -/
def take (q : ZookeeperSequencePro) : (Int × Bool) × ZookeeperSequencePro :=
  let num := q.curNum
  let q := { q with curNum := toLong (num+1) }
  ((num,toLong (q.maxNum-q.curNum) < PERIOD/5),q)

/-- One call. Only a low cache touches the node. -/
def next (strings : Strings) (fault : Option Fault) (node : Option String)
    (q : ZookeeperSequencePro) :
    Except DistributedSequenceException (Int × Bool) × Option String × ZookeeperSequencePro :=
  match if q.low then q.fetchSegment strings fault node else (.ok (),node,q) with
  | (.error e,node,q) => (.error e,node,q)
  | (.ok (),node,q) => (.ok q.take.1,node,q.take.2)

/-! ## What a fetch does -/

/-- The number the node stands for, an absent node standing for 0. -/
def stored (strings : Strings) : Option String → Option Int
  | none => some 0
  | some str => curVal strings str

/-- Whether a fetch that gets to its write applies it. -/
def Applies (fault : Option Fault) : Prop := fault = none ∨ fault = some (.write true)

instance (fault : Option Fault) : Decidable (Applies fault) := inferInstanceAs (Decidable (_ ∨ _))

/-- `curNum` leaves its initial value for the node's. -/
def refreshed (q : ZookeeperSequencePro) (v : Int) : ZookeeperSequencePro :=
  if q.curNum = 0 then { q with curNum := v } else q

theorem refreshed_cases (q : ZookeeperSequencePro) (v : Int) :
    (q.curNum = 0 ∧ q.refreshed v = { q with curNum := v }) ∨ (q.curNum ≠ 0 ∧ q.refreshed v = q) := by
  by_cases hc : q.curNum = 0
  · exact .inl ⟨hc,if_pos hc⟩
  · exact .inr ⟨hc,if_neg hc⟩

theorem refreshed_eq_self {q : ZookeeperSequencePro} {v : Int} (h : q.curNum ≠ 0 ∨ v = 0) :
    q.refreshed v = q := by
  rcases refreshed_cases q v with ⟨hc,hr⟩ | ⟨_,hr⟩
  · obtain rfl := h.resolve_left (not_not.mpr hc)
    rw [hr,← hc]
  · exact hr

section Fetch
variable {strings : Strings} {fault : Option Fault} {node : Option String}
  {q : ZookeeperSequencePro} {v : Int}

theorem stored_valueOf (h : Long.InRange v) : stored strings (some (valueOf v)) = some v := by
  rw [stored,curVal,if_pos (strings.decimal v),parseLong_valueOf h]

theorem stored_inRange (h : stored strings node = some v) : Long.InRange v := by
  cases node with
  | none =>
    obtain rfl : 0 = v := Option.some.inj h
    decide
  | some str =>
    simp only [stored,curVal] at h
    split at h
    · exact parseLong_inRange h
    · obtain rfl : 0 = v := Option.some.inj h
      decide

/-- A fetch that throws may have refreshed `curNum`, and has done so if it has written the
node. One that returns has done both, and has moved `maxNum` to the new segment's end. -/
theorem fetchSegment_spec {out : Except DistributedSequenceException Unit} {node' : Option String}
    {q' : ZookeeperSequencePro} (h : q.fetchSegment strings fault node = (out,node',q'))
    (hv : stored strings node = some v) (hq : node = none → q.curNum = 0) :
    (∃ e, out = .error e ∧ ((node' = node ∧ (q' = q ∨ q' = q.refreshed v)) ∨
      (fault = some (.write true) ∧ node' = some (valueOf (toLong (v+PERIOD))) ∧ q' = q.refreshed v))) ∨
    (out = .ok () ∧ (node = none ∨ fault = none) ∧ node' = some (valueOf (toLong (v+PERIOD))) ∧
      q' = { q.refreshed v with maxNum := toLong (v+PERIOD) }) := by
  unfold fetchSegment at h
  split at h
  · cases h
    exact .inl ⟨_,rfl,.inl ⟨rfl,.inl rfl⟩⟩
  next hacquire =>
  cases node with
  | none =>
    obtain rfl : 0 = v := Option.some.inj hv
    simp only at h
    split at h
    · cases h
      refine .inl ⟨_,rfl,?_⟩
      split
      · next ha => exact .inr ⟨ha ▸ rfl,rfl,(refreshed_eq_self (.inr rfl)).symm⟩
      · exact .inl ⟨rfl,.inl rfl⟩
    · cases h
      refine .inr ⟨rfl,.inl rfl,rfl,?_⟩
      rw [refreshed,if_pos (hq rfl)]
      rfl
  | some str =>
    have hc : curVal strings str = some v := hv
    simp only [hc] at h
    split at h
    · cases h
      exact .inl ⟨_,rfl,.inl ⟨rfl,.inl rfl⟩⟩
    next hget =>
    split at h
    · cases h
      refine .inl ⟨_,rfl,?_⟩
      split
      · next ha => exact .inr ⟨ha ▸ rfl,rfl,rfl⟩
      · exact .inl ⟨rfl,.inr rfl⟩
    · next hwrite =>
      cases h
      have ha : fault = none := by
        rcases fault with _ | _ | _ | _ | applied
        · rfl
        · exact absurd (.inl rfl) hacquire
        · exact absurd (.inr rfl) hacquire
        · exact absurd rfl hget
        · exact absurd rfl (hwrite applied)
      exact .inr ⟨rfl,.inr ha,rfl,rfl⟩

/-- A call is a local step, a failed fetch, or a fetch followed by a local step. -/
theorem next_cases {out : Except DistributedSequenceException (Int × Bool)} {node' : Option String}
    {q' : ZookeeperSequencePro} (h : q.next strings fault node = (out,node',q')) :
    (q.low = false ∧ out = .ok q.take.1 ∧ node' = node ∧ q' = q.take.2) ∨
    (q.low = true ∧ ∃ e, q.fetchSegment strings fault node = (.error e,node',q') ∧ out = .error e) ∨
    (q.low = true ∧ ∃ p, q.fetchSegment strings fault node = (.ok (),node',p) ∧
      out = .ok p.take.1 ∧ q' = p.take.2) := by
  unfold next at h
  cases hl : q.low with
  | false =>
    simp only [hl,Bool.false_eq_true,if_false] at h
    cases h
    exact .inl ⟨rfl,rfl,rfl,rfl⟩
  | true =>
    simp only [hl,if_true] at h
    split at h
    · next e n p hf =>
      cases h
      exact .inr (.inl ⟨rfl,e,hf,rfl⟩)
    · next n p hf =>
      cases h
      exact .inr (.inr ⟨rfl,p,hf,rfl,rfl⟩)

end Fetch

/-! ## Instances on one node -/

inductive Phase
  | idle
  | alive (q : ZookeeperSequencePro) (pending : Nat)
  | dead
  deriving DecidableEq, Repr

def Phase.isAlive : Phase → Bool
  | .alive _ _ => true
  | _ => false

def Phase.WhenAlive (P : ZookeeperSequencePro → Nat → Prop) : Phase → Prop
  | .alive q pending => P q pending
  | _ => True

instance (P : ZookeeperSequencePro → Nat → Prop) [∀ q n, Decidable (P q n)] (p : Phase) :
    Decidable (p.WhenAlive P) :=
  match p with
  | .idle => isTrue trivial
  | .alive q pending => inferInstanceAs (Decidable (P q pending))
  | .dead => isTrue trivial

theorem Phase.whenAlive_iff {P : ZookeeperSequencePro → Nat → Prop} {p : Phase} :
    p.WhenAlive P ↔ ∀ q n, p = .alive q n → P q n := by
  cases p with
  | idle => exact ⟨fun _ _ _ h => (nomatch h),fun _ => trivial⟩
  | alive q n =>
    refine ⟨fun h q' n' he => ?_,fun h => h q n rfl⟩
    cases he
    exact h
  | dead => exact ⟨fun _ _ _ h => (nomatch h),fun _ => trivial⟩

theorem alive_update {ι : Type*} [DecidableEq ι] {inst : ι → Phase} {i j : ι} {ph : Phase}
    {q : ZookeeperSequencePro} {p : Nat} (halone : ∀ j q p, inst j = .alive q p → j = i)
    (h : Function.update inst i ph j = .alive q p) : j = i ∧ ph = .alive q p := by
  by_cases hji : j = i
  · subst hji
    rw [Function.update_self] at h
    exact ⟨rfl,h⟩
  · rw [Function.update_of_ne hji] at h
    exact absurd (halone j q p h) hji

/-- `reserved` and `returned` record, newest first, which instance wrote which segment
to the node and has returned what. -/
structure Cluster (ι : Type*) where
  node : Option String
  inst : ι → Phase
  reserved : List (Reservation ι Int)
  returned : List (ι × Int)

/-- Every label that runs `fetchSegment` says which operation of it throws. A task is a
submitted prefetch, run at any later time. A crash hits between two operations. -/
inductive Label (ι : Type*)
  | construct (i : ι) (fault : Option Fault)
  | next (i : ι) (fault : Option Fault)
  | task (i : ι) (fault : Option Fault)
  | crash (i : ι) (inFetch : Option Fault)

variable {ι : Type*} [DecidableEq ι]

def boot (node : Option String) : Cluster ι := ⟨node,fun _ => .idle,[],[]⟩

def Cluster.enter (s : Cluster ι) (i : ι) (p : Phase) : Cluster ι :=
  { s with inst := Function.update s.inst i p }

def value (strings : Strings) (node : Option String) : Int := (stored strings node).getD 0

theorem value_eq {strings : Strings} {node : Option String} {v : Int} (h : stored strings node = some v) :
    value strings node = v := by
  rw [value,h]
  rfl

/-- The node after a fetch of `i`. A changed text is a segment reserved. -/
def Cluster.write (strings : Strings) (s : Cluster ι) (i : ι) (node : Option String) : Cluster ι :=
  { s with
    node := node
    reserved := if node = s.node then s.reserved
      else ⟨i,value strings s.node,value strings node⟩ :: s.reserved }

def step (strings : Strings) (s : Cluster ι) : Label ι → Option (Cluster ι)
  | .construct i fault =>
    match s.inst i with
    | .idle =>
      match fetchSegment strings fault s.node {} with
      | (.ok (),node,q) => some ((s.write strings i node).enter i (.alive q 0))
      | (.error _,node,_) => some ((s.write strings i node).enter i .dead)
    | _ => none
  | .next i fault =>
    match s.inst i with
    | .alive q pending =>
      match q.next strings fault s.node with
      | (.ok (num,submit),node,q) =>
        let s := (s.write strings i node).enter i (.alive q (if submit then pending+1 else pending))
        some { s with returned := (i,num) :: s.returned }
      | (.error _,node,q) => some ((s.write strings i node).enter i (.alive q pending))
    | _ => none
  | .task i fault =>
    match s.inst i with
    | .alive q (pending+1) =>
      let (_,node,q) := q.fetchSegment strings fault s.node
      some ((s.write strings i node).enter i (.alive q pending))
    | _ => none
  | .crash i none =>
    match s.inst i with
    | .alive _ _ => some (s.enter i .dead)
    | _ => none
  | .crash i (some fault) =>
    match s.inst i with
    | .alive q pending =>
      if q.low ∨ 0 < pending then
        let (_,node,_) := q.fetchSegment strings (some fault) s.node
        some ((s.write strings i node).enter i .dead)
      else none
    | _ => none

end ZookeeperSequencePro
end CloudWeb.Sequence
