import CloudWeb.Sequence.MixedSequence

/-! One `MixedSequence` in any number of processes, which share the Redis counter of its
namespace and interleave component by component, for nothing locks the loop of `next()`. -/
namespace CloudWeb.Sequence
open Java Foundation

variable {T : Type} {ι : Type*}

def Component.isNum : Component T → Bool
  | .num _ => true
  | .str _ => false
  | .date _ => false

namespace MixedSequence

/-- A process between two calls, or in the loop of one: the readings of its clock, the
components behind and ahead, the buffer, and the number it took last. -/
inductive Process (T : Type)
  | idle (chains : List (Component T))
  | running (now : Nat → T) (done rest : List (Component T)) (buf : String) (taken : Option Int)

/-- A returned code, the readings of its call and the number it took last. -/
structure Ticket (ι : Type*) (T : Type) where
  issuer : ι
  code : String
  now : Nat → T
  taken : Option Int

/-- `issued` is newest first. -/
structure Cluster (ι : Type*) (T : Type) where
  counter : Int
  process : ι → Process T
  issued : List (Ticket ι T)

/-- A call begins, turns to its next component or returns; a process starts anew. -/
inductive Label (ι : Type*) (T : Type)
  | begin (i : ι) (now : Nat → T)
  | turn (i : ι)
  | ends (i : ι)
  | restart (i : ι)

variable [DecidableEq ι]

def start (m : MixedSequence T) (counter : Int) : Cluster ι T :=
  ⟨counter,fun _ => .idle m.chains,[]⟩

def Cluster.enter (s : Cluster ι T) (i : ι) (p : Process T) : Cluster ι T :=
  { s with process := Function.update s.process i p }

def interleave (m : MixedSequence T) (s : Cluster ι T) : Label ι T → Option (Cluster ι T)
  | .begin i now =>
    match s.process i with
    | .idle chains => some (s.enter i (.running now [] chains "" none))
    | .running _ _ _ _ _ => none
  | .turn i =>
    match s.process i with
    | .running now done (c :: rest) buf taken =>
      match c.next (now done.length) s.counter with
      | ((.error _,c),counter) => some ({ s with counter := counter }.enter i (.idle (done ++ c :: rest)))
      | ((.ok text,c),counter) =>
        some ({ s with counter := counter }.enter i
          (.running now (done ++ [c]) rest (buf ++ text) (if c.isNum then some counter else taken)))
    | _ => none
  | .ends i =>
    match s.process i with
    | .running now done [] buf taken =>
      some { s.enter i (.idle done) with issued := ⟨i,buf,now,taken⟩ :: s.issued }
    | _ => none
  | .restart i => some (s.enter i (.idle m.chains))

/-- Everything a step can be. A component that throws ends the call. -/
inductive Moves (m : MixedSequence T) (s : Cluster ι T) : Label ι T → Cluster ι T → Prop
  | begun {i now chains} (idle : s.process i = .idle chains) :
      Moves m s (.begin i now) (s.enter i (.running now [] chains "" none))
  | thrown {i now done c c' rest buf taken e counter}
      (running : s.process i = .running now done (c :: rest) buf taken)
      (next : c.next (now done.length) s.counter = ((.error e,c'),counter)) :
      Moves m s (.turn i) ({ s with counter := counter }.enter i (.idle (done ++ c' :: rest)))
  | turned {i now done c c' rest buf taken text counter}
      (running : s.process i = .running now done (c :: rest) buf taken)
      (next : c.next (now done.length) s.counter = ((.ok text,c'),counter)) :
      Moves m s (.turn i) ({ s with counter := counter }.enter i
        (.running now (done ++ [c']) rest (buf ++ text) (if c'.isNum then some counter else taken)))
  | ended {i now done buf taken} (running : s.process i = .running now done [] buf taken) :
      Moves m s (.ends i) { s.enter i (.idle done) with issued := ⟨i,buf,now,taken⟩ :: s.issued }
  | restarted {i} : Moves m s (.restart i) (s.enter i (.idle m.chains))

private theorem step_moves {m : MixedSequence T} {s t : Cluster ι T} {a : Label ι T}
    (hs : interleave m s a = some t) : Moves m s a t := by
  cases a with
  | begin i now =>
    simp only [interleave] at hs
    split at hs <;> cases hs
    next hi => exact .begun hi
  | turn i =>
    simp only [interleave] at hs
    split at hs
    · next hi =>
      split at hs <;> cases hs
      · next hc => exact .thrown hi hc
      · next hc => exact .turned hi hc
    · cases hs
  | ends i =>
    simp only [interleave] at hs
    split at hs <;> cases hs
    next hi => exact .ended hi
  | restart i =>
    cases hs
    exact .restarted

/-- The counter is below every limit of the chain. -/
def Under (m : MixedSequence T) (s : Cluster ι T) : Prop :=
  ∀ q, .num q ∈ m.chains → s.counter < q.maxValue

instance (m : MixedSequence T) (s : Cluster ι T) : Decidable (Under m s) :=
  @decidable_of_iff _ (∀ c ∈ m.chains, c.Limited s.counter)
    ⟨fun h q hq => h (.num q) hq,fun h c hc => by
      cases c with
      | num q => exact h q hc
      | str | date => trivial⟩ _

/-- `parts` is what the components behind made of the readings and of the number taken. -/
def Written (now : Nat → T) (taken : Option Int) (cs : List (Component T)) (parts : List String) : Prop :=
  ∀ lo hi, (∀ n ∈ taken, lo < n ∧ n ≤ hi) → Rendered now lo hi 0 cs parts

structure ChainOk (cs : List (Component T)) (counter : Int) (chains : List (Component T)) : Prop where
  shape : chains.map Component.shape = cs
  seen : ∀ q, .num q ∈ chains → q.curValue ≤ counter

/-- The buffer of a call with a number taken exactly if one is behind. -/
structure CallOk (counter : Int) (now : Nat → T) (done : List (Component T)) (buf : String)
    (taken : Option Int) : Prop where
  count : done.countP Component.isNum = taken.toList.length
  number : ∀ n ∈ taken, 0 < n ∧ n ≤ counter
  written : ∃ parts, Written now taken (done.map Component.shape) parts ∧
    buf.toList = (parts.map String.toList).flatten

def ProcessOk (cs : List (Component T)) (counter : Int) : Process T → Prop
  | .idle chains => ChainOk cs counter chains
  | .running now done rest buf taken =>
    ChainOk cs counter (done ++ rest) ∧ CallOk counter now done buf taken

def Process.taken : Process T → Option Int
  | .idle _ => none
  | .running _ _ _ _ taken => taken

/-- Two calls took different numbers. -/
def Apart (a b : Option Int) : Prop := ∀ n ∈ a, ∀ n' ∈ b, n ≠ n'

/-- A code is written from the readings of its call and a number of its own. -/
def TicketOk (cs : List (Component T)) (counter : Int) (e : Ticket ι T) : Prop :=
  ∃ n parts, e.taken = some n ∧ 0 < n ∧ n ≤ counter ∧ Rendered e.now (n-1) n 0 cs parts ∧
    e.code.toList = (parts.map String.toList).flatten

structure Sharing (cs : List (Component T)) (s : Cluster ι T) : Prop where
  nonneg : 0 ≤ s.counter
  processes : ∀ i, ProcessOk cs s.counter (s.process i)
  tickets : ∀ e ∈ s.issued, TicketOk cs s.counter e
  running : ∀ i j, i ≠ j → Apart (s.process i).taken (s.process j).taken
  behind : ∀ i, ∀ e ∈ s.issued, Apart (s.process i).taken e.taken
  apart : s.issued.Pairwise fun newer older => Apart newer.taken older.taken

section Calls
variable {now : Nat → T} {lo hi counter counter' : Int} {k : Nat} {cs chains done rest : List (Component T)}
  {parts : List String} {buf text : String} {taken : Option Int} {c c' : Component T}

private theorem Rendered.snoc (h : Rendered now lo hi k cs parts)
    (hc : Rendered now lo hi (k+cs.length) [c] [text]) :
    Rendered now lo hi k (cs ++ [c]) (parts ++ [text]) := by
  have hshift {n : Nat} : k+(n+1) = k+1+n := by omega
  induction h with
  | nil k => exact hc
  | str source _ ih =>
    rw [List.length_cons,hshift] at hc
    exact .str source (ih hc (by omega))
  | num hlo hhi _ ih =>
    rw [List.length_cons,hshift] at hc
    exact .num hlo hhi (ih hc (by omega))
  | date hf _ ih =>
    rw [List.length_cons,hshift] at hc
    exact .date hf (ih hc (by omega))

private theorem Written.snoc (h : Written now taken cs parts)
    (hc : ∀ lo hi, Rendered now lo hi cs.length [c] [text]) :
    Written now taken (cs ++ [c]) (parts ++ [text]) := by
  intro lo hi hn
  refine (h lo hi hn).snoc ?_
  rw [Nat.zero_add]
  exact hc lo hi

private theorem Written.num (h : Written now none cs parts) (q : NumberSequence) (n : Int) :
    Written now (some n) (cs ++ [.num q]) (parts ++ [valueOf n]) := by
  intro lo hi hn
  obtain ⟨hlo,hhi⟩ := hn n rfl
  exact (h lo hi nofun).snoc (.num hlo hhi (.nil _))

private theorem isNum_shape (c : Component T) : c.shape.isNum = c.isNum := by
  cases c <;> rfl

private theorem countP_shape (cs : List (Component T)) :
    (cs.map Component.shape).countP Component.isNum = cs.countP Component.isNum := by
  rw [List.countP_map]
  exact List.countP_congr fun c _ => by rw [Function.comp_apply,isNum_shape]

private theorem ChainOk.mono (h : ChainOk cs counter chains) (hc : counter ≤ counter') :
    ChainOk cs counter' chains := ⟨h.shape,fun q hq => (h.seen q hq).trans hc⟩

private theorem CallOk.mono (h : CallOk counter now done buf taken) (hc : counter ≤ counter') :
    CallOk counter' now done buf taken :=
  ⟨h.count,fun n hn => ⟨(h.number n hn).1,(h.number n hn).2.trans hc⟩,h.written⟩

private theorem ProcessOk.mono {p : Process T} (h : ProcessOk cs counter p) (hc : counter ≤ counter') :
    ProcessOk cs counter' p := by
  cases p with
  | idle chains => exact ChainOk.mono h hc
  | running now done rest buf taken => exact ⟨h.1.mono hc,h.2.mono hc⟩

omit [DecidableEq ι] in
private theorem TicketOk.mono {e : Ticket ι T} (h : TicketOk cs counter e) (hc : counter ≤ counter') :
    TicketOk cs counter' e := by
  obtain ⟨n,parts,ht,h0,hle,hr⟩ := h
  exact ⟨n,parts,ht,h0,hle.trans hc,hr⟩

private theorem ChainOk.turn {out : Except ChainException String}
    (h : ChainOk cs counter (done ++ c :: rest))
    {reading : T} (hc : c.next reading counter = ((out,c'),counter')) :
    counter ≤ counter' ∧ ChainOk cs counter' (done ++ c' :: rest) := by
  have hseen (q : NumberSequence) (hq : c = .num q) : q.curValue ≤ counter :=
    h.seen q (List.mem_append_right _ (hq ▸ List.mem_cons_self))
  obtain ⟨hshape,hle,hnew,_⟩ := component_next hc hseen
  refine ⟨hle,?_,fun q hq => ?_⟩
  · rw [← h.shape,List.map_append,List.map_append,List.map_cons,List.map_cons,hshape]
  · rcases List.mem_append.mp hq with hq | hq
    · exact (h.seen q (List.mem_append_left _ hq)).trans hle
    · rcases List.mem_cons.mp hq with hq | hq
      · exact hnew q hq.symm
      · exact (h.seen q (List.mem_append_right _ (List.mem_cons_of_mem c hq))).trans hle

private theorem CallOk.turn (h : CallOk counter now done buf taken)
    (hseen : ∀ q, c = .num q → q.curValue ≤ counter)
    (hc : c.next (now done.length) counter = ((.ok text,c'),counter')) (h0 : 0 ≤ counter)
    (hbelow : ∀ q, c = .num q → counter' < q.maxValue) (hfirst : c.isNum = true → taken = none) :
    CallOk counter' now (done ++ [c']) (buf ++ text) (if c'.isNum then some counter' else taken) ∧
      (c'.isNum = true → counter < counter') := by
  obtain ⟨hshape,hle,_,hpart⟩ := component_next hc hseen
  have hnum : c'.isNum = c.isNum := by rw [← isNum_shape,hshape,isNum_shape]
  obtain ⟨parts,hw,hbuf⟩ := h.written
  have hflat (x : String) : (buf ++ x).toList = ((parts ++ [x]).map String.toList).flatten := by
    rw [String.toList_append,hbuf,List.map_append,List.flatten_append,List.map_singleton,
      List.flatten_singleton]
  have hlen : (done.map Component.shape).length = done.length := List.length_map _
  -- a text or a date
  have hplain (hn : c.isNum = false) (hr : ∀ lo hi, Rendered now lo hi done.length [c.shape] [text]) :
      CallOk counter' now (done ++ [c']) (buf ++ text) (if c'.isNum then some counter' else taken) ∧
        (c'.isNum = true → counter < counter') := by
    rw [hnum,hn]
    refine ⟨⟨?_,(h.mono hle).number,parts ++ [text],?_,hflat text⟩,nofun⟩
    · rw [List.countP_append,List.countP_singleton,hnum,hn]
      exact h.count
    · rw [List.map_append,List.map_singleton,hshape]
      exact hw.snoc fun lo hi => hlen ▸ hr lo hi
  rcases hpart text rfl with rfl | ⟨f,rfl,hf⟩ | ⟨q,rfl,hq⟩
  · exact hplain rfl fun lo hi => .str text (.nil _)
  · exact hplain rfl fun lo hi => .date hf (.nil _)
  · obtain ⟨hlt,rfl⟩ := hq (hbelow q rfl)
    have hcount := h.count
    rw [hfirst rfl] at hw hcount
    rw [hnum]
    refine ⟨⟨?_,fun n hn => ?_,parts ++ [valueOf counter'],?_,hflat _⟩,fun _ => hlt⟩
    · rw [List.countP_append,List.countP_singleton,hnum,hcount]
      rfl
    · cases hn
      exact ⟨by omega,le_refl _⟩
    · rw [List.map_append,List.map_singleton,hshape]
      exact hw.num _ _

end Calls

section Sharing
variable {m : MixedSequence T} {cs : List (Component T)} {s t : Cluster ι T} {i : ι} {counter : Int}
  {p : Process T}

private theorem ProcessOk.taken_le (h : ProcessOk cs counter p) : ∀ n ∈ p.taken, n ≤ counter := by
  cases p with
  | idle chains => nofun
  | running now done rest buf taken => exact fun n hn => (h.2.number n hn).2

private theorem Apart.symm {a b : Option Int} (h : Apart a b) : Apart b a :=
  fun n hn n' hn' => (h n' hn' n hn).symm

/-- One process moves, and takes no number but one above the counter. -/
theorem Sharing.enter (h : Sharing cs s) (i : ι) (hc : s.counter ≤ counter) (hp : ProcessOk cs counter p)
    (hn : ∀ n ∈ p.taken, n ∈ (s.process i).taken ∨ s.counter < n) :
    Sharing cs ({ s with counter := counter }.enter i p) := by
  have hnew {b : Option Int} (hb : ∀ n ∈ b, n ≤ s.counter) (ha : Apart (s.process i).taken b) :
      Apart p.taken b := by
    intro n hmem n' hmem'
    rcases hn n hmem with hold | hlt
    · exact ha n hold n' hmem'
    · have := hb n' hmem'
      omega
  refine ⟨h.nonneg.trans hc,?_,fun e he => (h.tickets e he).mono hc,?_,?_,h.apart⟩
  · apply (Function.forall_update_iff s.process fun _ p => ProcessOk cs counter p).mpr
    exact ⟨hp,fun j _ => (h.processes j).mono hc⟩
  · intro j k hjk
    refine pairwise_update (f := s.process) (R := fun _ _ p q => Apart p.taken q.taken)
      (fun _ _ _ _ hpq => hpq.symm) h.running (fun j hj => ?_) j k hjk
    exact hnew (h.processes j).taken_le (h.running i j hj.symm)
  · apply (Function.forall_update_iff s.process fun _ p => ∀ e ∈ s.issued, Apart p.taken e.taken).mpr
    refine ⟨fun e he => hnew (fun n hmem => ?_) (h.behind i e he),fun j _ => h.behind j⟩
    obtain ⟨n',_,ht,_,hle,_⟩ := h.tickets e he
    obtain rfl : n' = n := Option.some.inj (ht.symm.trans hmem)
    exact hle

private theorem Sharing.ends (h : Sharing cs s) (hone : cs.countP Component.isNum = 1) {now : Nat → T}
    {done : List (Component T)} {buf : String} {taken : Option Int}
    (hi : s.process i = .running now done [] buf taken) :
    Sharing cs { s.enter i (.idle done) with issued := ⟨i,buf,now,taken⟩ :: s.issued } := by
  have hpi := h.processes i
  have htaken : (s.process i).taken = taken := by rw [hi]; rfl
  rw [hi] at hpi
  obtain ⟨hchain,hcall⟩ := hpi
  rw [List.append_nil] at hchain
  have henter : Sharing cs (s.enter i (.idle done)) := h.enter i (le_refl _) hchain nofun
  have hticket : TicketOk cs s.counter (⟨i,buf,now,taken⟩ : Ticket ι T) := by
    have hcount := hcall.count
    rw [← countP_shape,hchain.shape,hone] at hcount
    obtain ⟨n,rfl⟩ : ∃ n, taken = some n := by
      cases taken with
      | none => cases hcount
      | some n => exact ⟨n,rfl⟩
    obtain ⟨parts,hw,hbuf⟩ := hcall.written
    obtain ⟨h0,hle⟩ := hcall.number n rfl
    refine ⟨n,parts,rfl,h0,hle,?_,hbuf⟩
    rw [← hchain.shape]
    apply hw
    rintro _ ⟨⟩
    omega
  refine ⟨h.nonneg,henter.processes,fun e he => ?_,henter.running,fun j e he => ?_,
    List.pairwise_cons.mpr ⟨fun e he => htaken ▸ h.behind i e he,h.apart⟩⟩
  · rcases List.mem_cons.mp he with rfl | he
    · exact hticket
    · exact h.tickets e he
  · rcases List.mem_cons.mp he with rfl | he
    · dsimp only [Cluster.enter]
      by_cases hji : j = i
      · rw [hji,Function.update_self]
        exact nofun
      · rw [Function.update_of_ne hji]
        exact htaken ▸ h.running j i hji
    · exact henter.behind j e he

private theorem Sharing.turned (h : Sharing cs s) (hone : cs.countP Component.isNum = 1) {now : Nat → T}
    {done rest : List (Component T)} {c c' : Component T} {buf text : String} {taken : Option Int}
    (hi : s.process i = .running now done (c :: rest) buf taken)
    (hc : c.next (now done.length) s.counter = ((.ok text,c'),counter))
    (hunder : ∀ q, .num q ∈ cs → counter < q.maxValue) :
    Sharing cs ({ s with counter := counter }.enter i
      (.running now (done ++ [c']) rest (buf ++ text) (if c'.isNum then some counter else taken))) := by
  have hpi := h.processes i
  rw [hi] at hpi
  obtain ⟨hchain,hcall⟩ := hpi
  obtain ⟨hle,hchain'⟩ := hchain.turn hc
  have hseen (q : NumberSequence) (hq : c = .num q) : q.curValue ≤ s.counter :=
    hchain.seen q (List.mem_append_right _ (hq ▸ List.mem_cons_self))
  have hbelow (q : NumberSequence) (hq : c = .num q) : counter < q.maxValue := by
    refine hunder { maxValue := q.maxValue } ?_
    rw [← hchain.shape]
    exact List.mem_map.mpr ⟨c,List.mem_append_right _ List.mem_cons_self,hq ▸ rfl⟩
  have hfirst (hn : c.isNum = true) : taken = none := by
    have hcount := congrArg (List.countP Component.isNum) hchain.shape
    rw [countP_shape,hone,List.countP_append,List.countP_cons,hn,if_pos rfl,hcall.count] at hcount
    cases taken with
    | none => rfl
    | some n =>
      simp only [Option.toList_some,List.length_singleton] at hcount
      omega
  obtain ⟨hcall',hnew⟩ := hcall.turn hseen hc h.nonneg hbelow hfirst
  refine h.enter i hle ⟨?_,hcall'⟩ fun n hn => ?_
  · rwa [List.append_assoc]
  · rw [hi]
    simp only [Process.taken] at hn ⊢
    split at hn
    · next hnum =>
      cases hn
      exact .inr (hnew hnum)
    · exact .inl hn

private theorem step_sharing (hm : ChainOk cs 0 m.chains) (hone : cs.countP Component.isNum = 1)
    (s : Cluster ι T) (a : Label ι T) (t : Cluster ι T) (h : Sharing cs s)
    (hok : ∀ t, interleave m s a = some t → ∀ q, .num q ∈ cs → t.counter < q.maxValue)
    (hs : interleave m s a = some t) : Sharing cs t := by
  have hunder := hok t hs
  cases step_moves hs with
  | @begun i now chains hi =>
    have hchain := h.processes i
    rw [hi] at hchain
    exact h.enter i (le_refl _) ⟨hchain,rfl,nofun,[],fun lo hi _ => .nil 0,rfl⟩ nofun
  | @thrown i _ _ _ _ _ _ _ _ _ hi hc =>
    have hpi := h.processes i
    rw [hi] at hpi
    obtain ⟨hle,hchain⟩ := hpi.1.turn hc
    exact h.enter i hle hchain nofun
  | turned hi hc => exact h.turned hone hi hc hunder
  | ended hi => exact h.ends hone hi
  | @restarted i => exact h.enter i (le_refl _) (hm.mono h.nonneg) nofun

end Sharing

-- with two numbers in the chain it is not so: `1` and `112` around `11` and `12`
example :
    let m : MixedSequence Unit := ((build "order-no").num 1000).num 1000
    let whole (i : Fin 3) : List (Label (Fin 3) Unit) := [.begin i fun _ => (),.turn i,.turn i,.ends i]
    let as : List (Label (Fin 3) Unit) := [.begin 0 fun _ => (),.turn 0] ++
      (List.replicate 4 (whole 1)).flatten ++ [.begin 1 fun _ => (),.turn 1] ++ whole 2 ++ [.turn 1,.ends 1] ++
      (List.replicate 49 (whole 1)).flatten ++ [.turn 0,.ends 0]
    ∃ s ∈ exec (interleave m) (start m 0) as, ∃ a ∈ s.issued, ∃ b ∈ s.issued, a.issuer ≠ b.issuer ∧
      a.code = b.code := by
  decide +kernel

/-! ## At the limit -/

/-- What a component makes of a reading once its limit is reached. -/
def limitPart (now : T) : Component T → Option String
  | .str source => some source
  | .num q => some (valueOf q.maxValue)
  | .date f => f now

def limitCode (now : Nat → T) : Nat → List (Component T) → String → Option String
  | _, [], buf => some buf
  | k, c :: cs, buf => (limitPart (now k) c).bind fun text => limitCode now (k+1) cs (buf ++ text)

/-- Every date of the chain is written the same at both calls. -/
def SameDates (now now' : Nat → T) (k : Nat) (cs : List (Component T)) : Prop :=
  ∀ (j : Nat) (f : DateTimeFormatter T), cs[j]? = some (.date f) → f (now (k+j)) = f (now' (k+j))

/-- A chain of shape `cs`, and a buffer that shows limits. -/
def AtLimit (cs : List (Component T)) : Process T → Prop
  | .idle chains => chains.map Component.shape = cs
  | .running now done rest buf _ =>
    (done ++ rest).map Component.shape = cs ∧ limitCode now 0 (done.map Component.shape) "" = some buf

/-- All limits are reached by the next number at the latest. -/
structure Exhausted (cs : List (Component T)) (s : Cluster ι T) : Prop where
  limits : ∀ q, .num q ∈ cs → q.maxValue ≤ s.counter+1
  processes : ∀ i, AtLimit cs (s.process i)
  issued : ∀ e ∈ s.issued, limitCode e.now 0 cs "" = some e.code

section Limit
variable {m : MixedSequence T} {cs : List (Component T)} {s : Cluster ι T} {counter counter' : Int}
  {c c' : Component T}

private theorem limitCode_snoc (now : Nat → T) (k : Nat) (cs : List (Component T)) (c : Component T)
    (buf : String) :
    limitCode now k (cs ++ [c]) buf = (limitCode now k cs buf).bind fun b =>
      (limitPart (now (k+cs.length)) c).map (b ++ ·) := by
  induction cs generalizing k buf with
  | nil => cases h : limitPart (now k) c <;> simp [limitCode,h]
  | cons d cs ih =>
    have hshift : k+1+cs.length = k+(cs.length+1) := by omega
    simp only [List.cons_append,limitCode,Option.bind_assoc,ih,List.length_cons,hshift]

private theorem limitCode_congr {now now' : Nat → T} (k : Nat) (cs : List (Component T)) (buf : String)
    (h : SameDates now now' k cs) : limitCode now k cs buf = limitCode now' k cs buf := by
  induction cs generalizing k buf with
  | nil => rfl
  | cons c cs ih =>
    have htail : SameDates now now' (k+1) cs := by
      intro j f hj
      have hdate := h (j+1) f hj
      rwa [show k+(j+1) = k+1+j by omega] at hdate
    have hpart : limitPart (now k) c = limitPart (now' k) c := by
      cases c with
      | date f => exact h 0 f rfl
      | str | num => rfl
    rw [limitCode,limitCode,hpart]
    exact congrArg _ (funext fun text => ih (k+1) (buf ++ text) htail)

private theorem component_at_limit {reading : T} {out : Except ChainException String}
    (h : c.next reading counter = ((out,c'),counter'))
    (hlimit : ∀ q, c = .num q → q.maxValue ≤ counter+1) :
    c'.shape = c.shape ∧ counter ≤ counter' ∧ ∀ text, out = .ok text → limitPart reading c.shape = some text := by
  cases c with
  | str source =>
    cases h
    refine ⟨rfl,le_refl _,fun text ht => ?_⟩
    cases ht
    rfl
  | date f =>
    simp only [Component.next] at h
    split at h
    · next hf =>
      cases h
      refine ⟨rfl,le_refl _,fun text ht => ?_⟩
      cases ht
      exact hf
    · cases h
      refine ⟨rfl,le_refl _,fun text ht => ?_⟩
      cases ht
  | num q =>
    have hmax := hlimit q rfl
    rcases hn : q.nextOn counter with ⟨⟨r,q'⟩,c⟩
    simp only [Component.next,hn] at h
    rcases NumberSequence.nextOn_cases hn with ⟨_,rfl,rfl,rfl⟩ | ⟨_,rfl,rfl,rfl⟩ | ⟨_,rfl,rfl,rfl⟩
    · cases h
      refine ⟨rfl,le_refl _,fun text ht => ?_⟩
      cases ht
      rfl
    · cases h
      refine ⟨rfl,le_refl _,fun text ht => ?_⟩
      cases ht
    · cases h
      refine ⟨rfl,by omega,fun text ht => ?_⟩
      cases ht
      rw [min_eq_right hmax]
      rfl

private theorem Exhausted.enter (h : Exhausted cs s) (i : ι) {p : Process T} (hc : s.counter ≤ counter)
    (hp : AtLimit cs p) : Exhausted cs ({ s with counter := counter }.enter i p) := by
  refine ⟨fun q hq => (h.limits q hq).trans (Int.add_le_add_right hc 1),?_,h.issued⟩
  apply (Function.forall_update_iff s.process fun _ p => AtLimit cs p).mpr
  exact ⟨hp,fun j _ => h.processes j⟩

private theorem AtLimit.shape_turned {now : Nat → T} {done rest : List (Component T)} {buf : String}
    {taken : Option Int} (h : AtLimit cs (.running now done (c :: rest) buf taken)) (hc : c'.shape = c.shape) :
    (done ++ c' :: rest).map Component.shape = cs := by
  rw [← h.1,List.map_append,List.map_append,List.map_cons,List.map_cons,hc]

omit [DecidableEq ι] in
private theorem Exhausted.limit (h : Exhausted cs s) {now : Nat → T} {done rest : List (Component T)}
    {buf : String} {taken : Option Int} (hp : AtLimit cs (.running now done (c :: rest) buf taken))
    (q : NumberSequence) (hq : c = .num q) : q.maxValue ≤ s.counter+1 := by
  refine h.limits { maxValue := q.maxValue } ?_
  rw [← hp.1]
  exact List.mem_map.mpr ⟨c,List.mem_append_right _ List.mem_cons_self,hq ▸ rfl⟩

private theorem step_exhausted (hm : m.chains.map Component.shape = cs) (s : Cluster ι T) (a : Label ι T)
    (t : Cluster ι T) (h : Exhausted cs s) (hs : interleave m s a = some t) : Exhausted cs t := by
  cases step_moves hs with
  | @begun i _ _ hi =>
    have hpi := h.processes i
    rw [hi] at hpi
    exact h.enter i (le_refl _) ⟨hpi,rfl⟩
  | @thrown i _ _ _ _ _ _ _ _ _ hi hc =>
    have hpi := hi ▸ h.processes i
    obtain ⟨hshape,hle,_⟩ := component_at_limit hc (h.limit hpi)
    exact h.enter i hle (hpi.shape_turned hshape)
  | @turned i _ _ _ _ _ _ _ _ _ hi hc =>
    have hpi := hi ▸ h.processes i
    obtain ⟨hshape,hle,hpart⟩ := component_at_limit hc (h.limit hpi)
    refine h.enter i hle ⟨by rw [List.append_assoc]; exact hpi.shape_turned hshape,?_⟩
    rw [List.map_append,List.map_singleton,hshape,limitCode_snoc,hpi.2,List.length_map,Nat.zero_add,
      Option.bind_some,hpart _ rfl]
    rfl
  | @ended i _ done _ _ hi =>
    have hpi := h.processes i
    rw [hi] at hpi
    obtain ⟨hshape,hbuf⟩ := hpi
    rw [List.append_nil] at hshape
    have henter : Exhausted cs (s.enter i (.idle done)) := h.enter i (le_refl _) hshape
    refine ⟨henter.limits,henter.processes,fun e he => ?_⟩
    rcases List.mem_cons.mp he with rfl | he
    · exact hshape ▸ hbuf
    · exact h.issued e he
  | @restarted i => exact h.enter i (le_refl _) hm

end Limit

end MixedSequence
end CloudWeb.Sequence
