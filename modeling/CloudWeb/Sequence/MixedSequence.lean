import CloudWeb.Foundation.Concatenation
import CloudWeb.Sequence.NumberSequence

/-! `MixedSequence`: texts, numbers and dates written one after the other. The numbers
of one chain share a Redis counter; nothing pads or separates the parts. -/
namespace CloudWeb.Sequence
open Java Foundation

/-- A `DateTimeFormatter` by what `format` makes of an instant, `none` where it throws. -/
abbrev DateTimeFormatter (T : Type) := T → Option String

inductive ChainException
  | redis (cause : RedisException)
  | dateTime
  deriving DecidableEq, Repr

inductive Component (T : Type)
  | str (source : String)
  | num (q : NumberSequence)
  | date (dateTimeFormatter : DateTimeFormatter T)

variable {T : Type}

/-- `next()` of one component, which may read the clock and may move the counter. -/
def Component.next (now : T) (counter : Int) :
    Component T → (Except ChainException String × Component T) × Int
  | .str source => ((.ok source,.str source),counter)
  | .num q =>
    match q.nextOn counter with
    | ((.ok n,q),c) => ((.ok (valueOf n),.num q),c)
    | ((.error e,q),c) => ((.error (.redis e),.num q),c)
  | .date f =>
    match f now with
    | some text => ((.ok text,.date f),counter)
    | none => ((.error .dateTime,.date f),counter)

/-- A component without what it remembers. -/
def Component.shape : Component T → Component T
  | .num q => .num { maxValue := q.maxValue }
  | c => c

/-- A number has `counter` below its limit. -/
def Component.Limited (counter : Int) : Component T → Prop
  | .num q => counter < q.maxValue
  | _ => True

instance (counter : Int) (c : Component T) : Decidable (c.Limited counter) :=
  match c with
  | .num q => inferInstanceAs (Decidable (counter < q.maxValue))
  | .str _ => isTrue trivial
  | .date _ => isTrue trivial

structure MixedSequence (T : Type) where
  nameSpace : String
  chains : List (Component T) := []

namespace MixedSequence

def build (nameSpace : String) : MixedSequence T := { nameSpace := nameSpace }

def nextSequence (self : MixedSequence T) (chain : Component T) : MixedSequence T :=
  { self with chains := self.chains ++ [chain] }

def str (self : MixedSequence T) (source : String) : MixedSequence T := self.nextSequence (.str source)

/-- All numbers of a chain count on the key `nameSpace`. -/
def num (self : MixedSequence T) (maxLength : Int) : MixedSequence T :=
  self.nextSequence (.num { maxValue := maxLength })

/-- `ofPattern` is `DateTimeFormatter.ofPattern`, which refuses invalid patterns. -/
def date (ofPattern : String → Option (DateTimeFormatter T)) (self : MixedSequence T)
    (pattern : String) : Option (MixedSequence T) :=
  (ofPattern pattern).map fun f => self.nextSequence (.date f)

/-- The loop of `next()` from the `k`-th component on. The clock is read anew for every
date. An exception leaves the loop, and the numbers taken before it stay taken. -/
def append (now : Nat → T) (k : Nat) (counter : Int) (buf : String) :
    List (Component T) → (Except ChainException String × List (Component T)) × Int
  | [] => ((.ok buf,[]),counter)
  | c :: cs =>
    match c.next (now k) counter with
    | ((.error e,c),counter) => ((.error e,c :: cs),counter)
    | ((.ok text,c),counter) =>
      let ((out,cs),counter) := append now (k+1) counter (buf ++ text) cs
      ((out,c :: cs),counter)

def next (now : Nat → T) (counter : Int) (self : MixedSequence T) :
    (Except ChainException String × MixedSequence T) × Int :=
  let ((out,chains),counter) := append now 0 counter "" self.chains
  ((out,{ self with chains := chains }),counter)

inductive Built (ofPattern : String → Option (DateTimeFormatter T)) : MixedSequence T → Prop
  | build (nameSpace : String) : Built ofPattern (build nameSpace)
  | str {m : MixedSequence T} (h : Built ofPattern m) (source : String) : Built ofPattern (m.str source)
  | num {m : MixedSequence T} (h : Built ofPattern m) (maxLength : Int) : Built ofPattern (m.num maxLength)
  | date {m m' : MixedSequence T} (h : Built ofPattern m) {pattern : String}
      (hd : m.date ofPattern pattern = some m') : Built ofPattern m'

/-! ## Runs -/

structure Issue (T : Type) where
  code : String
  now : Nat → T
  before : Int
  after : Int

/-- A chain, the counter of its numbers and the codes returned, newest first. -/
structure World (T : Type) where
  counter : Int
  sequence : MixedSequence T
  issued : List (Issue T)

def boot (m : MixedSequence T) : World T := ⟨0,m,[]⟩

/-- One whole call; the label is what the clock shows each component. -/
def step (w : World T) (now : Nat → T) : Option (World T) :=
  let ((out,m),counter) := w.sequence.next now w.counter
  some {
    counter := counter
    sequence := m
    issued := match out with
      | .ok code => ⟨code,now,w.counter,counter⟩ :: w.issued
      | .error _ => w.issued }

/-- The counter is below every limit of the chain. -/
def Below (w : World T) : Prop := ∀ q, .num q ∈ w.sequence.chains → w.counter < q.maxValue

instance (w : World T) : Decidable (Below w) :=
  @decidable_of_iff _ (∀ c ∈ w.sequence.chains, c.Limited w.counter)
    ⟨fun h q hq => h (.num q) hq,fun h c hc => by
      cases c with
      | num q => exact h q hc
      | str | date => trivial⟩ _

/-- `parts` is what the components from the `k`-th on make of the readings and of counter
values after `lo` and up to `hi`. -/
inductive Rendered (now : Nat → T) (lo hi : Int) : Nat → List (Component T) → List String → Prop
  | nil (k : Nat) : Rendered now lo hi k [] []
  | str {k : Nat} {cs : List (Component T)} {parts : List String} (source : String)
      (h : Rendered now lo hi (k+1) cs parts) : Rendered now lo hi k (.str source :: cs) (source :: parts)
  | num {k : Nat} {cs : List (Component T)} {parts : List String} {q : NumberSequence} {n : Int}
      (hlo : lo < n) (hhi : n ≤ hi) (h : Rendered now lo hi (k+1) cs parts) :
      Rendered now lo hi k (.num q :: cs) (valueOf n :: parts)
  | date {k : Nat} {cs : List (Component T)} {parts : List String} {f : DateTimeFormatter T}
      {text : String} (hf : f (now k) = some text) (h : Rendered now lo hi (k+1) cs parts) :
      Rendered now lo hi k (.date f :: cs) (text :: parts)

/-- No date from the `k`-th component on is written shorter at `now'` than at `now`. -/
def NoDateShrinks (now now' : Nat → T) (k : Nat) (cs : List (Component T)) : Prop :=
  ∀ (j : Nat) (f : DateTimeFormatter T) (text text' : String), cs[j]? = some (.date f) →
    f (now (k+j)) = some text → f (now' (k+j)) = some text' → text.length ≤ text'.length

section Calls
variable {now now' : Nat → T} {lo lo' hi hi' counter counter' : Int} {k : Nat}
  {cs cs' : List (Component T)} {parts parts' : List String}

theorem component_next {c c' : Component T} {now : T} {out : Except ChainException String}
    (h : c.next now counter = ((out,c'),counter'))
    (hseen : ∀ q, c = .num q → q.curValue ≤ counter) :
    c'.shape = c.shape ∧ counter ≤ counter' ∧ (∀ q, c' = .num q → q.curValue ≤ counter') ∧
    ∀ text, out = .ok text → c = .str text ∨ (∃ f, c = .date f ∧ f now = some text) ∨
      ∃ q, c = .num q ∧ (counter' < q.maxValue → counter < counter' ∧ text = valueOf counter') := by
  cases c with
  | str source =>
    cases h
    refine ⟨rfl,le_refl _,fun q hq => ?_,fun text ht => .inl ?_⟩
    · cases hq
    · cases ht
      rfl
  | date f =>
    simp only [Component.next] at h
    split at h
    · next text hf =>
      cases h
      refine ⟨rfl,le_refl _,fun q hq => ?_,fun text' ht => .inr (.inl ⟨f,rfl,?_⟩)⟩
      · cases hq
      · cases ht
        exact hf
    · cases h
      refine ⟨rfl,le_refl _,fun q hq => ?_,fun text ht => ?_⟩
      · cases hq
      · cases ht
  | num q =>
    have hq := hseen q rfl
    rcases hn : q.nextOn counter with ⟨⟨r,q'⟩,c⟩
    simp only [Component.next,hn] at h
    rcases NumberSequence.nextOn_cases hn with ⟨hle,rfl,rfl,rfl⟩ | ⟨_,rfl,rfl,rfl⟩ | ⟨_,rfl,rfl,rfl⟩
    · cases h
      refine ⟨rfl,le_refl _,hseen,fun text ht => .inr (.inr ⟨q',rfl,fun hlt => ?_⟩)⟩
      omega
    · cases h
      refine ⟨rfl,le_refl _,hseen,fun text ht => ?_⟩
      cases ht
    · cases h
      refine ⟨rfl,by omega,fun q' hq' => ?_,fun text ht => .inr (.inr ⟨q,rfl,fun hlt => ?_⟩)⟩
      · cases hq'
        exact le_refl _
      · cases ht
        exact ⟨by omega,by rw [min_eq_left hlt.le]⟩

theorem Rendered.mono (h : Rendered now lo hi k cs parts) (hl : lo' ≤ lo) (hh : hi ≤ hi') :
    Rendered now lo' hi' k cs parts := by
  induction h with
  | nil k => exact .nil k
  | str source _ ih => exact .str source ih
  | num hlo hhi _ ih => exact .num (hl.trans_lt hlo) (hhi.trans hh) ih
  | date hf _ ih => exact .date hf ih

private theorem below_of_shape (hs : cs'.map Component.shape = cs.map Component.shape)
    (h : ∀ q, .num q ∈ cs' → counter < q.maxValue) (q : NumberSequence) (hq : .num q ∈ cs) :
    counter < q.maxValue := by
  have hm := List.mem_map_of_mem (f := Component.shape) hq
  rw [← hs] at hm
  obtain ⟨c,hc,he⟩ := List.mem_map.mp hm
  cases c with
  | str source => cases he
  | date f => cases he
  | num q' =>
    have hmax : q'.maxValue = q.maxValue := by
      injection he with he
      injection he
    exact hmax ▸ h q' hc

private theorem append_spec {buf : String} {out : Except ChainException String}
    (h : append now k counter buf cs = ((out,cs'),counter'))
    (hseen : ∀ q, .num q ∈ cs → q.curValue ≤ counter) :
    cs'.map Component.shape = cs.map Component.shape ∧ counter ≤ counter' ∧
    (∀ q, .num q ∈ cs' → q.curValue ≤ counter') ∧
    ((∀ q, .num q ∈ cs → counter' < q.maxValue) → ∀ code, out = .ok code →
      ∃ parts, Rendered now counter counter' k (cs.map Component.shape) parts ∧
        code.toList = buf.toList ++ (parts.map String.toList).flatten) := by
  -- on the components left, none of which has seen a number above the counter
  induction cs generalizing k counter buf out cs' counter' with
  | nil =>
    cases h
    refine ⟨rfl,le_refl _,hseen,fun _ code hcode => ⟨[],.nil k,?_⟩⟩
    cases hcode
    simp
  | cons c cs ih =>
    have hseenc (q : NumberSequence) (hq : c = .num q) : q.curValue ≤ counter :=
      hseen q (hq ▸ List.mem_cons_self)
    have hseens (q : NumberSequence) (hq : .num q ∈ cs) : q.curValue ≤ counter :=
      hseen q (List.mem_cons_of_mem c hq)
    rcases hc : c.next (now k) counter with ⟨⟨r,c'⟩,counter₁⟩
    obtain ⟨hshape,hle,hnew,hpart⟩ := component_next hc hseenc
    cases r with
    | error e =>
      simp only [append,hc] at h
      cases h
      refine ⟨by rw [List.map_cons,List.map_cons,hshape],hle,fun q hq => ?_,fun _ code hcode => ?_⟩
      · rcases List.mem_cons.mp hq with hq | hq
        · exact hnew q hq.symm
        · exact (hseens q hq).trans hle
      · cases hcode
    | ok text =>
      rcases ha : append now (k+1) counter₁ (buf ++ text) cs with ⟨⟨r,cs₁⟩,counter₂⟩
      simp only [append,hc,ha] at h
      cases h
      obtain ⟨hshapes,hle',hnews,hparts⟩ := ih ha fun q hq => (hseens q hq).trans hle
      refine ⟨by rw [List.map_cons,List.map_cons,hshape,hshapes],hle.trans hle',fun q hq => ?_,
        fun hbelow code hcode => ?_⟩
      · rcases List.mem_cons.mp hq with hq | hq
        · exact (hnew q hq.symm).trans hle'
        · exact hnews q hq
      · obtain ⟨parts,hr,htext⟩ := hparts (fun q hq => hbelow q (List.mem_cons_of_mem c hq)) code hcode
        have hrest := hr.mono hle (le_refl counter')
        refine ⟨text :: parts,?_,by rw [htext]; simp⟩
        rcases hpart text rfl with rfl | ⟨f,rfl,hf⟩ | ⟨q,rfl,hnum⟩
        · exact .str text hrest
        · exact .date hf hrest
        · obtain ⟨hlt,rfl⟩ := hnum (hle'.trans_lt (hbelow q List.mem_cons_self))
          exact .num hlt hle' hrest

private theorem NoDateShrinks.tail {c : Component T} (h : NoDateShrinks now now' k (c :: cs)) :
    NoDateShrinks now now' (k+1) cs := by
  intro j f text text' hj ht ht'
  rw [Nat.add_right_comm] at ht ht'
  exact h (j+1) f text text' hj ht ht'

/-- Numbers of a later call are larger, so where no date part shrinks, no part does. -/
theorem Rendered.grows (h : Rendered now lo hi k cs parts) (h' : Rendered now' lo' hi' k cs parts')
    (h0 : 0 ≤ lo) (hw : hi ≤ lo')
    (hdate : NoDateShrinks now now' k cs) :
    List.Forall₂ (fun x y => x.length ≤ y.length) (parts.map String.toList)
      (parts'.map String.toList) := by
  induction h generalizing parts' with
  | nil k =>
    cases h'
    exact .nil
  | str source _ ih =>
    cases h' with
    | str _ h' => exact .cons (le_refl _) (ih h' hdate.tail)
  | num hlo hhi _ ih =>
    cases h' with
    | num hlo' hhi' h' => exact .cons (length_valueOf_le (by omega) (by omega)) (ih h' hdate.tail)
  | date hf _ ih =>
    cases h' with
    | date hf' h' =>
    refine .cons ?_ (ih h' hdate.tail)
    rw [String.length_toList,String.length_toList]
    exact hdate 0 _ _ _ rfl hf hf'

theorem Rendered.ne (h : Rendered now lo hi k cs parts) (h' : Rendered now' lo' hi' k cs parts')
    (h0 : 0 ≤ lo) (hw : hi ≤ lo') (hnum : ∃ q, .num q ∈ cs) : parts ≠ parts' := by
  obtain ⟨q,hq⟩ := hnum
  induction h generalizing parts' with
  | nil k => cases hq
  | str source _ ih =>
    cases h' with
    | str _ h' =>
    rcases List.mem_cons.mp hq with hq | hq
    · cases hq
    · intro he
      injection he with _ he
      exact ih h' hq he
  | num hlo hhi _ ih =>
    cases h' with
    | num hlo' hhi' h' =>
    intro he
    injection he with he _
    -- the number of the later call is above `hi`
    have := valueOf_inj (by omega) (by omega) he
    omega
  | date hf _ ih =>
    cases h' with
    | date _ h' =>
    rcases List.mem_cons.mp hq with hq | hq
    · cases hq
    · intro he
      injection he with _ he
      exact ih h' hq he

end Calls

/-- What a run keeps of a chain of shape `cs`. The counter windows of its calls follow
one another. -/
structure Inv (cs : List (Component T)) (w : World T) : Prop where
  shape : w.sequence.chains.map Component.shape = cs
  nonneg : 0 ≤ w.counter
  seen : ∀ q, .num q ∈ w.sequence.chains → q.curValue ≤ w.counter
  rendered : ∀ e ∈ w.issued, 0 ≤ e.before ∧ e.after ≤ w.counter ∧
    ∃ parts, Rendered e.now e.before e.after 0 cs parts ∧
      e.code.toList = (parts.map String.toList).flatten
  ordered : w.issued.Pairwise fun newer older => older.after ≤ newer.before

private theorem step_inv {cs : List (Component T)} (w : World T) (now : Nat → T) (w' : World T)
    (h : Inv cs w) (hok : ∀ t, step w now = some t → Below t) (hs : step w now = some w') :
    Inv cs w' := by
  have hbelow := hok w' hs
  rcases ha : append now 0 w.counter "" w.sequence.chains with ⟨⟨out,chains⟩,counter⟩
  obtain ⟨hshape,hle,hseen,hparts⟩ := append_spec ha h.seen
  have h0 := h.nonneg
  simp only [step,next,ha] at hs
  cases hs
  have hold : ∀ e ∈ w.issued, 0 ≤ e.before ∧ e.after ≤ counter ∧
      ∃ parts, Rendered e.now e.before e.after 0 cs parts ∧
        e.code.toList = (parts.map String.toList).flatten := by
    intro e he
    obtain ⟨hb,hafter,hr⟩ := h.rendered e he
    exact ⟨hb,hafter.trans hle,hr⟩
  refine ⟨hshape.trans h.shape,h0.trans hle,hseen,?_,?_⟩
  · cases out with
    | error e => exact hold
    | ok code =>
      intro e he
      rcases List.mem_cons.mp he with rfl | he
      · obtain ⟨parts,hr,hcode⟩ := hparts (below_of_shape hshape hbelow) code rfl
        exact ⟨h0,le_refl _,parts,h.shape ▸ hr,by simpa using hcode⟩
      · exact hold e he
  · cases out with
    | error e => exact h.ordered
    | ok code => exact List.pairwise_cons.mpr ⟨fun e he => (h.rendered e he).2.1,h.ordered⟩

theorem Built.fresh {ofPattern : String → Option (DateTimeFormatter T)} {m : MixedSequence T}
    (h : Built ofPattern m) :
    m.chains.map Component.shape = m.chains ∧ ∀ q, .num q ∈ m.chains → q.curValue = 0 := by
  have hnext {m : MixedSequence T} {c : Component T} (hc : c.shape = c) (hq : ∀ q, c = .num q → q.curValue = 0)
      (ih : m.chains.map Component.shape = m.chains ∧ ∀ q, .num q ∈ m.chains → q.curValue = 0) :
      (m.nextSequence c).chains.map Component.shape = (m.nextSequence c).chains ∧
        ∀ q, .num q ∈ (m.nextSequence c).chains → q.curValue = 0 := by
    refine ⟨?_,fun q hmem => ?_⟩
    · rw [nextSequence,List.map_append,ih.1,List.map_singleton,hc]
    · rcases List.mem_append.mp hmem with hmem | hmem
      · exact ih.2 q hmem
      · exact hq q (List.mem_singleton.mp hmem).symm
  induction h with
  | build nameSpace =>
    refine ⟨rfl,fun q hq => ?_⟩
    cases hq
  | str h source ih =>
    refine hnext rfl (fun q hq => ?_) ih
    cases hq
  | num h maxLength ih =>
    refine hnext rfl (fun q hq => ?_) ih
    cases hq
    rfl
  | date h hd ih =>
    obtain ⟨f,_,rfl⟩ := Option.map_eq_some_iff.mp hd
    refine hnext rfl (fun q hq => ?_) ih
    cases hq

/-- While the counter stays below every limit of a chain with a number, two of its calls
return different codes, unless some date is written shorter at the later one. -/
theorem codes_differ_unless_a_date_shrinks (ofPattern : String → Option (DateTimeFormatter T))
    (m : MixedSequence T) (hm : Built ofPattern m) (hnum : ∃ q, .num q ∈ m.chains)
    (calls : List (Nat → T)) (hbelow : Always step Below (boot m) calls) (w : World T)
    (h : exec step (boot m) calls = some w) :
    w.issued.Pairwise fun newer older =>
      NoDateShrinks older.now newer.now 0 m.chains → newer.code ≠ older.code := by
  obtain ⟨hshape,hfresh⟩ := hm.fresh
  have hboot : Inv m.chains (boot m) :=
    ⟨hshape,le_refl _,fun q hq => (hfresh q hq).le,fun e he => absurd he List.not_mem_nil,.nil⟩
  have hinv : Inv m.chains w := exec_invariant step_inv hboot hbelow.after h
  refine hinv.ordered.imp_of_mem fun {newer older} hn ho hle hdate hcode => ?_
  obtain ⟨_,_,parts',hr',hc'⟩ := hinv.rendered newer hn
  obtain ⟨hb,_,parts,hr,hc⟩ := hinv.rendered older ho
  -- equal codes are equal part by part, and the parts of the number differ
  have hflat : (parts.map String.toList).flatten = (parts'.map String.toList).flatten := by
    rw [← hc,← hc',hcode]
  have hparts := eq_of_flatten_eq (hr.grows hr' hb hle hdate) hflat
  exact hr.ne hr' hb hle hnum ((List.map_injective_iff.mpr fun _ _ => String.toList_inj.mp) hparts)

def dayOfMonth : String → Option (DateTimeFormatter Int)
  | "d" => some fun day => some (valueOf day)
  | "dd" => some fun day => some ((if day < 10 then "0" else "") ++ valueOf day)
  | _ => none

theorem padded_codes_differ :
    ∃ d : MixedSequence Int, (build "test").date dayOfMonth "dd" = some d ∧
      let m := (d.num 1000).str "-no"
      ∃ w, exec step (boot m) [fun _ => 11,fun _ => 1] = some w ∧
        w.issued.map Issue.code = ["012-no","111-no"] ∧
        w.issued.Pairwise fun newer older =>
          NoDateShrinks older.now newer.now 0 m.chains → newer.code ≠ older.code := by
  refine ⟨_,rfl,_,rfl,by decide +kernel,?_⟩
  refine codes_differ_unless_a_date_shrinks dayOfMonth _ ?_ ⟨_,.tail _ (.head _)⟩
    [fun _ => 11,fun _ => 1] (by decide) _ rfl
  have hd : (build "test").date dayOfMonth "dd" = some _ := rfl
  exact .str (.num (.date (.build "test") hd) 1000) "-no"

/-- `num(100).date("d")`: the first code, on an 11th, and the eleventh, on a 1st, are `111`. -/
theorem first_and_eleventh_code_equal :
    ∃ m : MixedSequence Int, Built dayOfMonth m ∧ (∃ q, .num q ∈ m.chains) ∧
      let calls : List (Nat → Int) := List.replicate 10 (fun _ => 11) ++ [fun _ => 1]
      Always step Below (boot m) calls ∧ ∃ w, exec step (boot m) calls = some w ∧
        (w.issued.map Issue.code).head? = some "111" ∧ (w.issued.map Issue.code).getLast? = some "111" ∧
        ¬ (w.issued.map Issue.code).Nodup := by
  have hd : ((build "test").num 100).date dayOfMonth "d" = some _ := rfl
  refine ⟨_,.date (.num (.build "test") 100) hd,⟨_,.head _⟩,?_⟩
  intro calls
  exact ⟨by decide +kernel,_,rfl,by decide +kernel,by decide +kernel,by decide +kernel⟩

end MixedSequence
end CloudWeb.Sequence
