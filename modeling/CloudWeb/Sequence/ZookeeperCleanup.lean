import Mathlib.Data.Finset.Basic
import Mathlib.Data.Fintype.Basic
import CloudWeb.Foundation.Execution
import CloudWeb.Sequence.ZookeeperSequence

/-! `ZookeeperSequence` in any number of processes on one node name. Every `next()` leaves
a cleanup to the one cleanup thread of its process, which lists the children and deletes
the smaller ones, one by one and unsynchronized with all others. -/
namespace CloudWeb.Sequence.ZookeeperSequence
open Java Foundation

/-- Whether `p` could be a sequential node of this class. -/
def sequential (p : String) : Bool := Z_NODE_PREFIX.toList.isPrefixOf p.toList

/-- The instances of one process share a queue and its thread. A running cleanup is its
number and the rest of its loop over `paths`. -/
structure Process where
  constructed : Bool := false
  queue : List Int := []
  running : Option (Int × List String) := none

/-- The sequential counter and the children of the node. `created` records, newest
first, which numbers were given out and whether to `next()`. -/
structure Cluster (ι : Type*) where
  counter : Int
  children : Finset String
  process : ι → Process
  created : List (Int × Bool)

/-- `visit` is one turn of the loop or its end. `other` is a child of another kind. -/
inductive Label (ι : Type*)
  | construct (i : ι)
  | next (i : ι)
  | other (p : String)
  | getChildren (i : ι) (paths : List String)
  | visit (i : ι)

variable {ι : Type*} [DecidableEq ι]

def boot : Cluster ι := ⟨0,∅,fun _ => {},[]⟩

def Cluster.enter (s : Cluster ι) (i : ι) (p : Process) : Cluster ι :=
  { s with process := Function.update s.process i p }

@[simp] theorem Cluster.process_enter_self (s : Cluster ι) (i : ι) (p : Process) :
    (s.enter i p).process i = p := by
  simp only [Cluster.enter,Function.update_self]

theorem Cluster.process_enter_ne (s : Cluster ι) {i j : ι} (h : j ≠ i) (p : Process) :
    (s.enter i p).process j = s.process j := by
  simp only [Cluster.enter,Function.update_of_ne h]

def Cluster.create (s : Cluster ι) (byNext : Bool) : Cluster ι :=
  { s with
    counter := s.counter+1
    children := insert (child s.counter) s.children
    created := (s.counter,byNext) :: s.created }

/-- One turn of the loop: the children afterwards and the rest of the loop, `none` where
an exception has ended it. Deleting an absent node throws. -/
def visit (children : Finset String) (num : Int) (p : String) (paths : List String) :
    Finset String × Option (Int × List String) :=
  match selects num p with
  | none => (children,none)
  | some false => (children,some (num,paths))
  | some true => if p ∈ children then (children.erase p,some (num,paths)) else (children,none)

/-- Creation is refused past the last non-negative counter value. -/
def step (s : Cluster ι) : Label ι → Option (Cluster ι)
  | .construct i =>
    if IntRange s.counter then
      some ((s.create false).enter i { s.process i with constructed := true })
    else none
  | .next i =>
    let p := s.process i
    if p.constructed ∧ IntRange s.counter then
      some ((s.create true).enter i { p with queue := p.queue ++ [s.counter] })
    else none
  | .other p =>
    if sequential p = false ∧ p ∉ s.children ∧ IntRange s.counter then
      some { s with counter := s.counter+1, children := insert p s.children }
    else none
  | .getChildren i paths =>
    let p := s.process i
    match p.running, p.queue with
    | none, num :: queue =>
      if paths.Nodup ∧ paths.toFinset = s.children then
        some (s.enter i { p with queue := queue, running := some (num,paths) })
      else none
    | _, _ => none
  | .visit i =>
    let p := s.process i
    match p.running with
    | none => none
    | some (_,[]) => some (s.enter i { p with running := none })
    | some (num,q :: paths) =>
      let (children,running) := visit s.children num q paths
      some ({ s with children := children }.enter i { p with running := running })

/-- Everything a step can be. A loop turns to `p`: it passes it over, deletes it, or ends. -/
inductive Moves (s : Cluster ι) : Label ι → Cluster ι → Prop
  | constructed {i} (range : IntRange s.counter) :
      Moves s (.construct i) ((s.create false).enter i { s.process i with constructed := true })
  | created {i} (range : IntRange s.counter) :
      Moves s (.next i)
        ((s.create true).enter i { s.process i with queue := (s.process i).queue ++ [s.counter] })
  | other {p} (foreign : sequential p = false) :
      Moves s (.other p) { s with counter := s.counter+1, children := insert p s.children }
  | listed {i num queue paths} (idle : (s.process i).running = none)
      (head : (s.process i).queue = num :: queue) (nodup : paths.Nodup) (all : paths.toFinset = s.children) :
      Moves s (.getChildren i paths)
        (s.enter i { s.process i with queue := queue, running := some (num,paths) })
  | finished {i num} (running : (s.process i).running = some (num,[])) :
      Moves s (.visit i) (s.enter i { s.process i with running := none })
  | passed {i num p paths} (running : (s.process i).running = some (num,p :: paths))
      (keep : selects num p = some false) :
      Moves s (.visit i) (s.enter i { s.process i with running := some (num,paths) })
  | deleted {i num p paths} (running : (s.process i).running = some (num,p :: paths))
      (select : selects num p = some true) :
      Moves s (.visit i)
        ({ s with children := s.children.erase p }.enter i { s.process i with running := some (num,paths) })
  | ended {i num p paths} (running : (s.process i).running = some (num,p :: paths))
      (thrown : selects num p = none ∨ (selects num p = some true ∧ p ∉ s.children)) :
      Moves s (.visit i) (s.enter i { s.process i with running := none })

theorem step_moves {s t : Cluster ι} {a : Label ι} (hs : step s a = some t) : Moves s a t := by
  cases a with
  | construct i =>
    simp only [step] at hs
    split at hs <;> cases hs
    next hr => exact .constructed hr
  | next i =>
    simp only [step] at hs
    split at hs <;> cases hs
    next hr => exact .created hr.2
  | other p =>
    simp only [step] at hs
    split at hs <;> cases hs
    next hp => exact .other hp.1
  | getChildren i paths =>
    simp only [step] at hs
    split at hs
    · next hrun hq =>
      split at hs <;> cases hs
      next hp => exact .listed hrun hq hp.1 hp.2
    · cases hs
  | visit i =>
    simp only [step] at hs
    split at hs
    · cases hs
    · next hrun =>
      cases hs
      exact .finished hrun
    · next num p paths hrun =>
      cases hs
      unfold visit
      split
      · next hsel => exact .ended hrun (.inl hsel)
      · next hsel => exact .passed hrun hsel
      · next hsel =>
        split
        · exact .deleted hrun hsel
        · next hp => exact .ended hrun (.inr ⟨hsel,hp⟩)

/-- No cleanup is pending or running. -/
def Quiescent (s : Cluster ι) : Prop := ∀ i, (s.process i).queue = [] ∧ (s.process i).running = none

instance [Fintype ι] (s : Cluster ι) : Decidable (Quiescent s) :=
  inferInstanceAs (Decidable (∀ i, (s.process i).queue = [] ∧ (s.process i).running = none))

/-- Once all cleanups are over, the newest number is the greatest one and its node the only
sequential one, provided it came from `next()`. -/
def Clean (s : Cluster ι) : Prop :=
  Quiescent s → ∀ n, s.created.head? = some (n,true) →
    s.children.filter (fun p => sequential p = true) = {child n} ∧ ∀ e ∈ s.created, e.1 ≤ n

/-- A delete that throws in the cleanup of the newest number gives up no child that is
still there. -/
def LosesNothing (s : Cluster ι) : Int × List String → Prop
  | (_,[]) => True
  | (num,p :: paths) => s.created.head? = some (num,true) → selects num p = some true → p ∉ s.children →
    ∀ q ∈ paths, selects num q = some true → q ∉ s.children

def Harmless (s : Cluster ι) : Label ι → Prop
  | .visit i => ∀ e ∈ (s.process i).running, LosesNothing s e
  | _ => True

instance (s : Cluster ι) (e : Int × List String) : Decidable (LosesNothing s e) :=
  match e with
  | (_,[]) => isTrue trivial
  | (num,_ :: _) => inferInstanceAs (Decidable (s.created.head? = some (num,true) → _))

instance (s : Cluster ι) (a : Label ι) : Decidable (Harmless s a) :=
  match a with
  | .visit i => inferInstanceAs (Decidable (∀ e ∈ (s.process i).running, LosesNothing s e))
  | .construct _ => isTrue trivial
  | .next _ => isTrue trivial
  | .other _ => isTrue trivial
  | .getChildren _ _ => isTrue trivial

/-! ## Numbers and nodes -/

def Known (created : List (Int × Bool)) (p : String) : Prop :=
  sequential p = true → ∃ e ∈ created, p = child e.1

structure ProcessOk (created : List (Int × Bool)) (p : Process) : Prop where
  queue : ∀ num ∈ p.queue, (num,true) ∈ created
  running : ∀ num paths, p.running = some (num,paths) →
    (num,true) ∈ created ∧ ∀ q ∈ paths, Known created q

/-- What every run keeps: numbers are given out in order, all sequential names stem from
them, and the newest node is there. -/
structure Inv (s : Cluster ι) : Prop where
  nonneg : 0 ≤ s.counter
  numbers : ∀ e ∈ s.created, 0 ≤ e.1 ∧ e.1 < s.counter ∧ IntRange e.1
  ordered : s.created.Pairwise fun newer older => older.1 < newer.1
  children : ∀ p ∈ s.children, Known s.created p
  newest : ∀ e, s.created.head? = some e → child e.1 ∈ s.children
  processes : ∀ i, ProcessOk s.created (s.process i)

private theorem sequential_child (n : Int) : sequential (child n) = true := by
  rw [sequential,toList_child]
  rfl

theorem selects_other {p : String} (hp : sequential p = false) (n : Int) : selects n p = some false := by
  rw [selects,if_neg]
  rw [← sequential,hp]
  exact Bool.false_ne_true

theorem child_inj {m n : Int} (hm : IntRange m) (hn : IntRange n) (h : child m = child n) : m = n := by
  have hp := congrArg (fun p => parseLong (String.ofList (p.toList.drop 1))) h
  simp only [toList_child,List.drop_succ_cons,List.drop_zero,String.ofList_toList] at hp
  rw [parseLong_formatPadded 10 hm.long,parseLong_formatPadded 10 hn.long] at hp
  exact Option.some.inj hp

section Nodes
variable {s : Cluster ι} {created : List (Int × Bool)}

private theorem Known.mono {e : Int × Bool} {p : String} (h : Known created p) :
    Known (e :: created) p := by
  intro hp
  obtain ⟨d,hd,rfl⟩ := h hp
  exact ⟨d,List.mem_cons_of_mem e hd,rfl⟩

private theorem ProcessOk.mono {e : Int × Bool} {p : Process} (h : ProcessOk created p) :
    ProcessOk (e :: created) p where
  queue num hn := List.mem_cons_of_mem e (h.queue num hn)
  running num paths hr := by
    obtain ⟨hn,hp⟩ := h.running num paths hr
    exact ⟨List.mem_cons_of_mem e hn,fun q hq => (hp q hq).mono⟩

omit [DecidableEq ι] in
/-- The cleanup's test never throws on these names, and it never picks another kind. -/
theorem Inv.selects_known (h : Inv s) {p : String} (hk : Known s.created p) (num : Int) :
    (sequential p = false ∧ selects num p = some false) ∨
    ∃ e ∈ s.created, p = child e.1 ∧ selects num p = some (decide (e.1 < num)) := by
  cases hp : sequential p with
  | false => exact .inl ⟨rfl,selects_other hp num⟩
  | true =>
    obtain ⟨e,he,rfl⟩ := hk hp
    obtain ⟨h0,_,hr⟩ := h.numbers e he
    refine .inr ⟨e,he,rfl,?_⟩
    rw [selects_child num hr,if_neg (not_lt.mpr h0)]

omit [DecidableEq ι] in
private theorem Inv.le_newest (h : Inv s) {n : Int} {b : Bool} (hn : s.created.head? = some (n,b))
    {e : Int × Bool} (he : e ∈ s.created) : e.1 ≤ n := by
  obtain ⟨tl,ht⟩ := List.head?_eq_some_iff.mp hn
  have hord := h.ordered
  rw [ht] at he hord
  rcases List.mem_cons.mp he with rfl | he
  · exact le_refl _
  · exact ((List.pairwise_cons.mp hord).1 e he).le

omit [DecidableEq ι] in
theorem Inv.selected (h : Inv s) {p : String} (hk : Known s.created p) {num : Int}
    (hsel : selects num p = some true) : ∃ e ∈ s.created, p = child e.1 ∧ e.1 < num := by
  rcases h.selects_known hk num with ⟨_,hf⟩ | ⟨e,he,hc,hd⟩
  · rw [hf] at hsel
    cases hsel
  · exact ⟨e,he,hc,of_decide_eq_true (Option.some.inj (hd.symm.trans hsel))⟩

omit [DecidableEq ι] in
private theorem Inv.thrown (h : Inv s) {p : String} (hk : Known s.created p) {num : Int}
    (ht : selects num p = none ∨ (selects num p = some true ∧ p ∉ s.children)) :
    selects num p = some true ∧ p ∉ s.children := by
  refine ht.resolve_left fun hnone => ?_
  rcases h.selects_known hk num with ⟨_,hf⟩ | ⟨_,_,_,hd⟩
  · rw [hnone] at hf
    cases hf
  · rw [hnone] at hd
    cases hd

theorem Inv.enter (h : Inv s) (i : ι) {p : Process} (hp : ProcessOk s.created p) :
    Inv (s.enter i p) where
  nonneg := h.nonneg
  numbers := h.numbers
  ordered := h.ordered
  children := h.children
  newest := h.newest
  processes := by
    apply (Function.forall_update_iff s.process fun _ p => ProcessOk s.created p).mpr
    exact ⟨hp,fun j _ => h.processes j⟩

omit [DecidableEq ι] in
theorem Inv.create (h : Inv s) (hr : IntRange s.counter) (byNext : Bool) : Inv (s.create byNext) where
  nonneg := by
    have h0 := h.nonneg
    dsimp only [Cluster.create]
    omega
  numbers e he := by
    have h0 := h.nonneg
    rcases List.mem_cons.mp he with rfl | he
    · exact ⟨h0,by dsimp only [Cluster.create]; omega,hr⟩
    · obtain ⟨h0,hlt,hi⟩ := h.numbers e he
      exact ⟨h0,by dsimp only [Cluster.create]; omega,hi⟩
  ordered := List.pairwise_cons.mpr ⟨fun e he => (h.numbers e he).2.1,h.ordered⟩
  children p hp := by
    rcases Finset.mem_insert.mp hp with rfl | hp
    · exact fun _ => ⟨_,List.mem_cons_self,rfl⟩
    · exact (h.children p hp).mono
  newest e he := by
    cases he
    exact Finset.mem_insert_self _ _
  processes i := (h.processes i).mono

omit [DecidableEq ι] in
private theorem Inv.other (h : Inv s) {p : String} (hp : sequential p = false) :
    Inv { s with counter := s.counter+1, children := insert p s.children } := by
  have h0 := h.nonneg
  refine ⟨by dsimp only; omega,fun e he => ?_,h.ordered,fun q hq => ?_,fun e he => ?_,h.processes⟩
  · obtain ⟨h0,hlt,hi⟩ := h.numbers e he
    exact ⟨h0,by dsimp only; omega,hi⟩
  · rcases Finset.mem_insert.mp hq with rfl | hq
    · intro hq
      rw [hp] at hq
      cases hq
    · exact h.children q hq
  · exact Finset.mem_insert_of_mem (h.newest e he)

omit [DecidableEq ι] in
private theorem Inv.erase (h : Inv s) {num : Int} (hnum : (num,true) ∈ s.created) {p : String}
    (hk : Known s.created p) (hsel : selects num p = some true) :
    Inv { s with children := s.children.erase p } := by
  obtain ⟨e,he,rfl,hlt⟩ := h.selected hk hsel
  refine ⟨h.nonneg,h.numbers,h.ordered,fun p hp => h.children p (Finset.mem_of_mem_erase hp),
    fun d hd => Finset.mem_erase.mpr ⟨fun hde => ?_,h.newest d hd⟩,h.processes⟩
  have hle := h.le_newest hd hnum
  have hdm := List.mem_of_mem_head? hd
  have := child_inj (h.numbers d hdm).2.2 (h.numbers e he).2.2 hde
  omega

private theorem ProcessOk.append {p : Process} (h : ProcessOk created p) {n : Int}
    (hn : (n,true) ∈ created) :
    ProcessOk created { p with queue := p.queue ++ [n] } := by
  refine ⟨fun num hm => ?_,h.running⟩
  rcases List.mem_append.mp hm with hm | hm
  · exact h.queue num hm
  · exact List.mem_singleton.mp hm ▸ hn

private theorem ProcessOk.loop {p : Process} (h : ProcessOk created p) {num : Int} {queue : List Int}
    {paths : List String} (hnum : (num,true) ∈ created) (hq : ∀ n ∈ queue, n ∈ p.queue)
    (hk : ∀ q ∈ paths, Known created q) :
    ProcessOk created { p with queue := queue, running := some (num,paths) } := by
  refine ⟨fun n hn => h.queue n (hq n hn),fun n ps he => ?_⟩
  cases he
  exact ⟨hnum,hk⟩

private theorem ProcessOk.rest {p : Process} (h : ProcessOk created p) {num : Int} {q : String}
    {paths : List String} (hrun : p.running = some (num,q :: paths)) :
    ProcessOk created { p with running := some (num,paths) } := by
  obtain ⟨hnum,hk⟩ := h.running num (q :: paths) hrun
  exact h.loop hnum (fun _ hn => hn) fun q' hq' => hk q' (List.mem_cons_of_mem q hq')

private theorem ProcessOk.idle {p : Process} (h : ProcessOk created p) :
    ProcessOk created { p with running := none } := ⟨h.queue,nofun⟩

omit [DecidableEq ι] in
theorem Inv.head_known (h : Inv s) {i : ι} {num : Int} {q : String} {paths : List String}
    (hrun : (s.process i).running = some (num,q :: paths)) :
    (num,true) ∈ s.created ∧ Known s.created q := by
  obtain ⟨hnum,hk⟩ := (h.processes i).running num (q :: paths) hrun
  exact ⟨hnum,hk q List.mem_cons_self⟩

/-- Every step keeps the numbers and nodes in order, and never deletes the newest. -/
theorem step_inv {a : Label ι} {t : Cluster ι} (h : Inv s) (hs : step s a = some t) : Inv t := by
  cases step_moves hs with
  | @constructed i hr =>
    have hp := (h.create hr false).processes i
    exact (h.create hr false).enter i ⟨hp.queue,hp.running⟩
  | @created i hr =>
    have hp := (h.create hr true).processes i
    exact (h.create hr true).enter i (hp.append List.mem_cons_self)
  | other hp => exact h.other hp
  | @listed i num queue paths _ hq _ hall =>
    have hi := h.processes i
    refine h.enter i (hi.loop (hi.queue num (hq ▸ List.mem_cons_self)) (fun n hn => ?_) fun q hq => ?_)
    · exact hq ▸ List.mem_cons_of_mem num hn
    · exact h.children q (hall ▸ List.mem_toFinset.mpr hq)
  | @finished i num _ => exact h.enter i (h.processes i).idle
  | @passed i num p paths hrun _ => exact h.enter i ((h.processes i).rest hrun)
  | @deleted i num p paths hrun hsel =>
    obtain ⟨hnum,hk⟩ := h.head_known hrun
    exact (h.erase hnum hk hsel).enter i ((h.processes i).rest hrun)
  | @ended i num p paths _ _ => exact h.enter i (h.processes i).idle

end Nodes

/-! ## Cleanups -/

/-- Every child a cleanup of `n` would delete is gone. -/
def Cleaned (children : Finset String) (n : Int) : Prop := ∀ p ∈ children, selects n p ≠ some true

/-- The cleanup of `n` is still to come in this process, or it is running and what it
would delete is ahead of it. -/
def Covers (children : Finset String) (n : Int) (p : Process) : Prop :=
  n ∈ p.queue ∨ ∃ paths, p.running = some (n,paths) ∧ ∀ q ∈ children, selects n q = some true → q ∈ paths

def Cleaning (s : Cluster ι) : Prop :=
  ∀ n, s.created.head? = some (n,true) → (∃ i, Covers s.children n (s.process i)) ∨ Cleaned s.children n

section Cleanup
variable {s : Cluster ι} {children rest : Finset String} {n : Int}

private theorem Covers.mono {p : Process} (h : Covers children n p) (hr : rest ⊆ children) :
    Covers rest n p := by
  rcases h with hq | ⟨paths,hp,hall⟩
  · exact .inl hq
  · exact .inr ⟨paths,hp,fun q hq => hall q (hr hq)⟩

theorem Covers.running {p : Process} {num : Int} {paths : List String} (h : Covers children n p)
    (hrun : p.running = some (num,paths)) :
    n ∈ p.queue ∨ (n = num ∧ ∀ q ∈ children, selects n q = some true → q ∈ paths) := by
  rcases h with hq | ⟨ps,hp,hall⟩
  · exact .inl hq
  · rw [hrun] at hp
    cases hp
    exact .inr ⟨rfl,hall⟩

private theorem Cleaned.mono (h : Cleaned children n) (hr : rest ⊆ children) : Cleaned rest n :=
  fun p hp => h p (hr hp)

theorem Cleaning.enter (h : Cleaning s) (i : ι) {p : Process} (hr : rest ⊆ s.children)
    (hp : ∀ n, s.created.head? = some (n,true) → Covers s.children n (s.process i) →
      Covers rest n p ∨ Cleaned rest n) :
    Cleaning ({ s with children := rest }.enter i p) := by
  intro n hn
  rcases h n hn with ⟨j,hj⟩ | hc
  · by_cases hji : j = i
    · subst hji
      rcases hp n hn hj with hj | hc
      · exact .inl ⟨j,by rwa [Cluster.process_enter_self]⟩
      · exact .inr hc
    · refine .inl ⟨j,?_⟩
      rw [Cluster.process_enter_ne _ hji]
      exact hj.mono hr
  · exact .inr (hc.mono hr)

omit [DecidableEq ι] in
private theorem Cleaning.other (h : Cleaning s) (hi : Inv s) {p : String} (hp : sequential p = false) :
    Cleaning { s with counter := s.counter+1, children := insert p s.children } := by
  have hnew (n : Int) : selects n p ≠ some true := by
    intro hsel
    have hk : Known s.created p := fun hk => by
      rw [hp] at hk
      cases hk
    obtain ⟨e,_,rfl,_⟩ := hi.selected hk hsel
    rw [sequential_child] at hp
    cases hp
  intro n hn
  rcases h n hn with ⟨j,hq | ⟨paths,hrun,hall⟩⟩ | hc
  · exact .inl ⟨j,.inl hq⟩
  · refine .inl ⟨j,.inr ⟨paths,hrun,fun q hq hsel => ?_⟩⟩
    rcases Finset.mem_insert.mp hq with rfl | hq
    · exact absurd hsel (hnew n)
    · exact hall q hq hsel
  · refine .inr fun q hq => ?_
    rcases Finset.mem_insert.mp hq with rfl | hq
    · exact hnew n
    · exact hc q hq

private theorem Covers.listed {p : Process} (h : Covers children n p) {num : Int} {queue : List Int}
    {paths : List String} (hrun : p.running = none) (hq : p.queue = num :: queue)
    (hall : paths.toFinset = children) :
    Covers children n { p with queue := queue, running := some (num,paths) } := by
  rcases h with hn | ⟨ps,hr,_⟩
  · rw [hq] at hn
    rcases List.mem_cons.mp hn with rfl | hn
    · exact .inr ⟨paths,rfl,fun q hq _ => List.mem_toFinset.mp (hall ▸ hq)⟩
    · exact .inl hn
  · rw [hrun] at hr
    cases hr

private theorem Covers.turned {p : Process} (h : Covers children n p) {num : Int} {q : String}
    {paths : List String} (hrun : p.running = some (num,q :: paths)) (hr : rest ⊆ children)
    (hq : q ∈ rest → selects num q ≠ some true) :
    Covers rest n { p with running := some (num,paths) } := by
  rcases h.running hrun with hn | ⟨rfl,hall⟩
  · exact .inl hn
  · refine .inr ⟨paths,rfl,fun q' hq' hsel => ?_⟩
    rcases List.mem_cons.mp (hall q' (hr hq') hsel) with rfl | hmem
    · exact absurd hsel (hq hq')
    · exact hmem

private theorem Covers.ended {p : Process} (h : Covers children n p) {num : Int} {paths : List String}
    (hrun : p.running = some (num,paths)) (hq : n = num → ∀ q ∈ paths, selects num q = some true → q ∉ children) :
    Covers children n { p with running := none } ∨ Cleaned children n := by
  rcases h.running hrun with hn | ⟨rfl,hall⟩
  · exact .inl (.inl hn)
  · exact .inr fun q hmem hsel => hq rfl q (hall q hmem hsel) hsel hmem

/-- Unless a failed delete gives children up, the newest number's cleanup stays to be done
or done. -/
theorem step_cleaning {a : Label ι} {t : Cluster ι} (hi : Inv s) (h : Cleaning s) (hok : Harmless s a)
    (hs : step s a = some t) : Cleaning t := by
  cases step_moves hs with
  | constructed _ =>
    intro n hn
    cases hn
  | @created i _ =>
    intro n hn
    cases hn
    refine .inl ⟨i,.inl ?_⟩
    rw [Cluster.process_enter_self]
    exact List.mem_append_right _ List.mem_cons_self
  | other hp => exact h.other hi hp
  | @listed i _ _ _ hrun hq _ hall =>
    exact h.enter i (Finset.Subset.refl _) fun n _ hc => .inl (hc.listed hrun hq hall)
  | @finished i _ hrun =>
    exact h.enter i (Finset.Subset.refl _) fun n _ hc => hc.ended hrun fun _ q hq => absurd hq List.not_mem_nil
  | @passed i _ p _ hrun hkeep =>
    refine h.enter i (Finset.Subset.refl _) fun n _ hc => .inl ?_
    refine hc.turned hrun (Finset.Subset.refl _) fun _ hsel => ?_
    rw [hkeep] at hsel
    cases hsel
  | @deleted i _ p _ hrun _ =>
    refine h.enter i (Finset.erase_subset _ _) fun n _ hc => .inl ?_
    exact hc.turned hrun (Finset.erase_subset _ _) fun hmem => absurd hmem (Finset.notMem_erase p _)
  | @ended i num p _ hrun hthrown =>
    obtain ⟨hsel,hp⟩ := hi.thrown (hi.head_known hrun).2 hthrown
    refine h.enter i (Finset.Subset.refl _) fun n hhead hc => hc.ended hrun ?_
    rintro rfl q hq hsel'
    rcases List.mem_cons.mp hq with rfl | hq
    · exact hp
    · exact hok _ hrun hhead hsel hp q hq hsel'

omit [DecidableEq ι] in
private theorem Inv.clean (hi : Inv s) (h : Cleaning s) : Clean s := by
  intro hq n hn
  have hle : ∀ e ∈ s.created, e.1 ≤ n := fun e he => hi.le_newest hn he
  refine ⟨?_,hle⟩
  have hdone : Cleaned s.children n := by
    rcases h n hn with ⟨i,hmem | ⟨paths,hrun,_⟩⟩ | hc
    · rw [(hq i).1] at hmem
      cases hmem
    · rw [(hq i).2] at hrun
      cases hrun
    · exact hc
  apply Finset.eq_singleton_iff_unique_mem.mpr
  refine ⟨Finset.mem_filter.mpr ⟨hi.newest (n,true) hn,sequential_child n⟩,fun p hp => ?_⟩
  obtain ⟨hp,hseq⟩ := Finset.mem_filter.mp hp
  obtain ⟨e,he,rfl⟩ := hi.children p hp hseq
  obtain ⟨h0,_,hr⟩ := hi.numbers e he
  have hsel := hdone _ hp
  rw [selects_child n hr,if_neg (not_lt.mpr h0)] at hsel
  have hge : ¬ e.1 < n := fun hlt => hsel (congrArg some (decide_eq_true hlt))
  rw [le_antisymm (hle e he) (not_lt.mp hge)]

end Cleanup

/-- Only the newest node stays, on every run in which no failed delete of the newest
number's cleanup gives up a child that is still there. -/
theorem clean_while_harmless (labels : List (Label ι)) (hok : StepsMeet step Harmless boot labels) :
    Always step Clean (boot : Cluster ι) labels := by
  have hboot : Inv (boot : Cluster ι) ∧ Cleaning (boot : Cluster ι) := by
    refine ⟨⟨le_refl _,nofun,.nil,fun p hp => absurd hp (Finset.notMem_empty p),nofun,fun _ => ⟨nofun,nofun⟩⟩,
      nofun⟩
  have hall : Always step (fun s => Inv s ∧ Cleaning s) (boot : Cluster ι) labels :=
    StepsMeet.always (fun s a t hi hh hs => ⟨step_inv hi.1 hs,step_cleaning hi.1 hi.2 hh hs⟩) hboot hok
  exact hall.mono fun s hs => hs.1.clean hs.2

/-- Two processes number 0 to 3 and list all four children before they delete any. -/
def crowd : List (Label Bool) :=
  [.construct false,.construct true,.next false,.next true,
    .getChildren false [child 0,child 1,child 2,child 3],
    .getChildren true [child 0,child 1,child 2,child 3]]

/-- The cleanup of 2 loses the race for node 0 and ends; the cleanup of 3 does the rest. -/
theorem clean_after_older_loses :
    let labels := crowd ++ [.visit true,.visit false,.visit true,.visit true,.visit true,.visit true]
    Always step Clean boot labels ∧ ∃ s, exec step boot labels = some s ∧ Quiescent s ∧
      s.created.head? = some (3,true) ∧ s.children = {child 3} := by
  intro labels
  have h : ∃ s ∈ exec step boot labels, Quiescent s ∧ s.created.head? = some (3,true) ∧
      s.children = {child 3} := by decide +kernel
  obtain ⟨s,hs,hfinal⟩ := h
  exact ⟨clean_while_harmless labels (by decide +kernel),s,Option.mem_def.mp hs,hfinal⟩

/-- The cleanup of 3 loses the race for node 0 and ends; node 2 stays. -/
theorem newest_loses_race :
    ∃ s, exec step boot (crowd ++ [.visit false,.visit true,.visit false,.visit false,.visit false,
        .visit false]) = some s ∧ Quiescent s ∧ s.created.head? = some (3,true) ∧
      s.children = {child 2,child 3} ∧ ¬ Clean s := by
  have h : ∃ s ∈ exec step boot (crowd ++ [.visit false,.visit true,.visit false,.visit false,
      .visit false,.visit false]), Quiescent s ∧ s.created.head? = some (3,true) ∧
      s.children = {child 2,child 3} := by decide +kernel
  obtain ⟨s,hs,hq,hn,hc⟩ := h
  refine ⟨s,Option.mem_def.mp hs,hq,hn,hc,fun hclean => ?_⟩
  have hone := (hclean hq 3 hn).1
  rw [hc] at hone
  exact absurd hone (by decide +kernel)

end CloudWeb.Sequence.ZookeeperSequence
