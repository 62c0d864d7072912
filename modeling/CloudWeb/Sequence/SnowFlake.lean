import CloudWeb.Foundation.Execution
import CloudWeb.Java.LongBits

/-! The generator that `SnowFlakeSequence` and `SnowFlakeAutoSequence` both contain,
word for word: fields, constants, `getNextMill` and `next`. A call takes the clock
readings it makes from a list; running out of readings is `none`. -/
namespace CloudWeb.Sequence
open Java Foundation

structure RuntimeException where
  message : String
  deriving DecidableEq, Repr

/-- The four fields `next()` uses. -/
structure SnowFlake where
  datacenterId : Int64
  machineId : Int64
  sequence : Int64 := 0
  lastStmp : Int64 := -1
  deriving DecidableEq, Repr

namespace SnowFlake

def START_STMP : Int64 := 1571103458728

def DATACENTER_BIT : Int64 := 5
def MACHINE_BIT : Int64 := 5
def SEQUENCE_BIT : Int64 := 12

def MAX_DATACENTER_NUM : Int64 := (-1 : Int64) ^^^ ((-1 : Int64) <<< DATACENTER_BIT)
def MAX_MACHINE_NUM : Int64 := (-1 : Int64) ^^^ ((-1 : Int64) <<< MACHINE_BIT)
def MAX_SEQUENCE : Int64 := (-1 : Int64) ^^^ ((-1 : Int64) <<< SEQUENCE_BIT)

def MACHINE_LEFT : Int64 := SEQUENCE_BIT
def DATACENTER_LEFT : Int64 := SEQUENCE_BIT + MACHINE_BIT
def TIMESTMP_LEFT : Int64 := DATACENTER_LEFT + DATACENTER_BIT

def clockMovedBackwards : RuntimeException :=
  ⟨"Clock moved backwards.  Refusing to generate id"⟩

/-- Spin until a reading exceeds `lastStmp`. -/
def getNextMill (lastStmp : Int64) : List Int64 → Option (Int64 × List Int64)
  | [] => none
  | mill :: clock => if mill ≤ lastStmp then getNextMill lastStmp clock else some (mill,clock)

/-- The returned expression for a timestamp and a sequence number. -/
def compose (g : SnowFlake) (currStmp sequence : Int64) : Int64 :=
  (currStmp - START_STMP) <<< TIMESTMP_LEFT
    ||| g.datacenterId <<< DATACENTER_LEFT
    ||| g.machineId <<< MACHINE_LEFT
    ||| sequence

/-- The end of `next()`: remember the timestamp and return. -/
def issue (g : SnowFlake) (currStmp sequence : Int64) : Except RuntimeException Int64 × SnowFlake :=
  (.ok (g.compose currStmp sequence),{ g with sequence := sequence, lastStmp := currStmp })

/-- One call: its outcome, the fields after it, the readings it left. -/
def next (g : SnowFlake) :
    List Int64 → Option ((Except RuntimeException Int64 × SnowFlake) × List Int64)
  | [] => none
  | currStmp :: clock =>
    if currStmp < g.lastStmp then some ((.error clockMovedBackwards,g),clock)
    else if currStmp = g.lastStmp then
      let sequence := (g.sequence + 1) &&& MAX_SEQUENCE
      if sequence = 0 then
        (getNextMill g.lastStmp clock).map fun (currStmp,clock) => (g.issue currStmp sequence,clock)
      else some (g.issue currStmp sequence,clock)
    else some (g.issue currStmp 0,clock)

private theorem getNextMill_some {lastStmp mill : Int64} {clock rest : List Int64}
    (h : getNextMill lastStmp clock = some (mill,rest)) : lastStmp < mill ∧ mill ∈ clock := by
  induction clock with
  | nil => cases h
  | cons r clock ih =>
    simp only [getNextMill] at h
    split at h
    · obtain ⟨hl,hm⟩ := ih h
      exact ⟨hl,List.mem_cons_of_mem _ hm⟩
    · next hr =>
      cases h
      exact ⟨Int64.not_le.mp hr,List.mem_cons_self⟩

private theorem getNextMill_ends {lastStmp : Int64} (clock : Nat → Int64) {j : Nat}
    (hj : lastStmp < clock j) :
    ∃ k mill, getNextMill lastStmp ((List.range k).map clock) = some (mill,[]) := by
  -- on the place of a reading that ends the spin
  induction j generalizing clock with
  | zero =>
    refine ⟨1,clock 0,?_⟩
    simp only [List.range_one,List.map_cons,List.map_nil,getNextMill,Int64.not_le.mpr hj,if_false]
  | succ j ih =>
    by_cases h0 : clock 0 ≤ lastStmp
    · obtain ⟨k,mill,hk⟩ := ih (fun n => clock (n+1)) hj
      refine ⟨k+1,mill,?_⟩
      rw [List.range_succ_eq_map,List.map_cons,List.map_map,getNextMill,if_pos h0]
      exact hk
    · refine ⟨1,clock 0,?_⟩
      simp only [List.range_one,List.map_cons,List.map_nil,getNextMill,h0,if_false]

/-- Everything a completed call can do. It refuses and changes nothing; or it issues
the next sequence number of `lastStmp`; or it starts a later millisecond at 0. -/
theorem next_cases {g g' : SnowFlake} {clock rest : List Int64}
    {out : Except RuntimeException Int64} (h : g.next clock = some ((out,g'),rest)) :
    (out = .error clockMovedBackwards ∧ g' = g) ∨
    ∃ t q, out = .ok (g.compose t q) ∧ g' = { g with sequence := q, lastStmp := t } ∧ t ∈ clock ∧
      ((t = g.lastStmp ∧ q = (g.sequence + 1) &&& MAX_SEQUENCE ∧ q ≠ 0) ∨ (g.lastStmp < t ∧ q = 0)) := by
  cases clock with
  | nil => cases h
  | cons c clock =>
    simp only [next] at h
    split at h
    · cases h
      exact .inl ⟨rfl,rfl⟩
    next hlt =>
    right
    split at h
    · next he =>
      split at h
      · next hq =>
        obtain ⟨⟨t,r⟩,hm,hi⟩ := Option.map_eq_some_iff.mp h
        obtain ⟨hl,ht⟩ := getNextMill_some hm
        cases hi
        exact ⟨t,_,rfl,rfl,List.mem_cons_of_mem _ ht,.inr ⟨hl,hq⟩⟩
      · next hq =>
        cases h
        exact ⟨c,_,rfl,rfl,List.mem_cons_self,.inl ⟨he,rfl,hq⟩⟩
    · next hne =>
      cases h
      have hl : g.lastStmp < c := by
        rw [Int64.lt_iff_toInt_lt] at hlt ⊢
        have hi : c.toInt ≠ g.lastStmp.toInt := fun hi => hne (Int64.toInt_inj.mp hi)
        omega
      exact ⟨c,0,rfl,rfl,List.mem_cons_self,.inr ⟨hl,rfl⟩⟩

theorem next_later {g : SnowFlake} {c : Int64} (h : g.lastStmp < c) :
    g.next [c] = some ((.ok (g.compose c 0),{ g with sequence := 0, lastStmp := c }),[]) := by
  have hne : c ≠ g.lastStmp := fun he => Int64.lt_irrefl (he ▸ h)
  rw [next,if_neg (Int64.not_lt.mpr (Int64.le_of_lt h)),if_neg hne]
  rfl

/-- A call ends on every clock that some time after its first reading exceeds `lastStmp`. -/
theorem next_ends (g : SnowFlake) (clock : Nat → Int64) (h : ∃ j, 0 < j ∧ g.lastStmp < clock j) :
    ∃ k out, g.next ((List.range k).map clock) = some (out,[]) := by
  obtain ⟨j,hj,hl⟩ := h
  obtain ⟨k,mill,hk⟩ := getNextMill_ends (fun n => clock (n+1)) (j := j-1)
    (show g.lastStmp < clock (j-1+1) by rwa [Nat.sub_add_cancel hj])
  by_cases hs : clock 0 = g.lastStmp ∧ (g.sequence + 1) &&& MAX_SEQUENCE = 0
  · refine ⟨k+1,g.issue mill ((g.sequence + 1) &&& MAX_SEQUENCE),?_⟩
    rw [List.range_succ_eq_map,List.map_cons,List.map_map,next,if_neg,if_pos hs.1,if_pos hs.2]
    · exact congrArg (Option.map _) hk
    · rw [hs.1]
      exact Int64.lt_irrefl
  · refine ⟨1,?_⟩
    simp only [List.range_one,List.map_cons,List.map_nil,next]
    split
    · exact ⟨_,rfl⟩
    · split
      · next he =>
        rw [if_neg fun hq => hs ⟨he,hq⟩]
        exact ⟨_,rfl⟩
      · exact ⟨_,rfl⟩

/-! ## The returned word -/

/-- The readings the 41-bit timestamp field is meant for. -/
def InWindow (t : Int64) : Prop :=
  START_STMP.toInt ≤ t.toInt ∧ t.toInt < START_STMP.toInt + 2^41

/-- Milliseconds since the start timestamp. -/
def elapsed (t : Int64) : Nat := (t.toInt - START_STMP.toInt).toNat

/-- The word as overlapping fields of naturals. -/
def layout (t d m q : Nat) : Nat := t <<< 22 ||| d <<< 17 ||| m <<< 12 ||| q

theorem InWindow.elapsed_lt {t : Int64} (h : InWindow t) :
    elapsed t < 2^41 ∧ (elapsed t : Int) = t.toInt - START_STMP.toInt := by
  unfold InWindow at h
  unfold elapsed
  omega

theorem InWindow.fresh_lt {t : Int64} (h : InWindow t) : -1 < t := by
  have hn : (-1 : Int64).toInt = -1 := rfl
  rw [Int64.lt_iff_toInt_lt,hn]
  exact Int.lt_of_lt_of_le (by decide) h.1

theorem InWindow.sub {t : Int64} (h : InWindow t) :
    bits (t - START_STMP) = elapsed t ∧ (t - START_STMP).toInt = elapsed t := by
  obtain ⟨he,hi⟩ := h.elapsed_lt
  have hs : (t - START_STMP).toInt = elapsed t := by
    rw [hi]
    exact toInt_sub_eq (by omega) (by omega)
  have hb := (bits_of_nonneg (a := t - START_STMP) (by omega)).2
  exact ⟨by omega,hs⟩

private theorem layout_lt {t d m q : Nat} (ht : t < 2^41) (hd : d < 2^13) (hm : m < 2^13)
    (hq : q < 2^12) :
    layout t d m q < 2^63 := by
  unfold layout
  simp only [Nat.shiftLeft_eq]
  refine Nat.or_lt_two_pow (Nat.or_lt_two_pow (Nat.or_lt_two_pow ?_ ?_) ?_) ?_ <;> omega

theorem layout_eq_sum {t d m q : Nat} (hd : d < 2^5) (hm : m < 2^5) (hq : q < 2^12) :
    layout t d m q = t * 2^22 + d * 2^17 + m * 2^12 + q := by
  have h1 : t <<< 22 ||| d <<< 17 = (t * 2^5 + d) <<< 17 := by
    rw [← Nat.shiftLeft_add_eq_or_of_lt (by rw [Nat.shiftLeft_eq]; omega)]
    simp only [Nat.shiftLeft_eq]
    omega
  have h2 : (t * 2^5 + d) <<< 17 ||| m <<< 12 = ((t * 2^5 + d) * 2^5 + m) <<< 12 := by
    rw [← Nat.shiftLeft_add_eq_or_of_lt (by rw [Nat.shiftLeft_eq]; omega)]
    simp only [Nat.shiftLeft_eq]
    omega
  rw [layout,h1,h2,← Nat.shiftLeft_add_eq_or_of_lt hq,Nat.shiftLeft_eq]
  omega

/-- Within the window and with fields of at most 13 bits, no bit is lost and the
sign bit stays clear. -/
theorem bits_compose {g : SnowFlake} {t q : Int64} (ht : InWindow t)
    (hd : bits g.datacenterId < 2^13) (hm : bits g.machineId < 2^13) (hq : bits q < 2^12) :
    bits (g.compose t q) = layout (elapsed t) (bits g.datacenterId) (bits g.machineId) (bits q) ∧
      bits (g.compose t q) < 2^63 := by
  obtain ⟨he,_⟩ := ht.elapsed_lt
  have h1 : bits ((t - START_STMP) <<< TIMESTMP_LEFT) = elapsed t <<< 22 := by
    rw [← ht.sub.1]
    exact bits_shiftLeft (k := 22) (by decide) (by rw [ht.sub.1,Nat.shiftLeft_eq]; omega)
  have h2 : bits (g.datacenterId <<< DATACENTER_LEFT) = bits g.datacenterId <<< 17 :=
    bits_shiftLeft (k := 17) (by decide) (by rw [Nat.shiftLeft_eq]; omega)
  have h3 : bits (g.machineId <<< MACHINE_LEFT) = bits g.machineId <<< 12 :=
    bits_shiftLeft (k := 12) (by decide) (by rw [Nat.shiftLeft_eq]; omega)
  have hl : bits (g.compose t q) =
      layout (elapsed t) (bits g.datacenterId) (bits g.machineId) (bits q) := by
    simp only [compose,bits_or,h1,h2,h3,layout]
  exact ⟨hl,hl ▸ layout_lt he hd hm hq⟩

private theorem max_sequence : bits MAX_SEQUENCE = 2^12-1 := rfl

/-- Whatever the reading, the lowest bits of an id are its sequence number. -/
theorem compose_sequence (g : SnowFlake) (t : Int64) {q : Int64} (hq : bits q < 2^12) :
    g.compose t q &&& MAX_SEQUENCE = q := by
  have h1 : bits ((t - START_STMP) <<< TIMESTMP_LEFT) % 2^12 = 0 :=
    bits_shiftLeft_low (j := 12) (k := 22) _ (by decide) (by decide)
  have h2 : bits (g.datacenterId <<< DATACENTER_LEFT) % 2^12 = 0 :=
    bits_shiftLeft_low (j := 12) (k := 17) _ (by decide) (by decide)
  have h3 : bits (g.machineId <<< MACHINE_LEFT) % 2^12 = 0 :=
    bits_shiftLeft_low (j := 12) (k := 12) _ (by decide) (by decide)
  apply bits_inj.mp
  rw [bits_and,max_sequence,Nat.and_two_pow_sub_one_eq_mod,compose,bits_or,bits_or,bits_or,
    Nat.or_mod_two_pow,Nat.or_mod_two_pow,Nat.or_mod_two_pow,h1,h2,h3,Nat.mod_eq_of_lt hq]
  simp only [Nat.zero_or]

/-! ## Runs -/

/-- A returned id with the timestamp and the sequence number it was made of. -/
structure Issue where
  id : Int64
  stmp : Int64
  sequence : Int64
  deriving DecidableEq, Repr

/-- Lexicographic order of what an id is made of. -/
def Issue.Before (a b : Issue) : Prop :=
  a.stmp < b.stmp ∨ (a.stmp = b.stmp ∧ bits a.sequence < bits b.sequence)

structure Trace where
  gen : SnowFlake
  issued : List Issue := []
  deriving DecidableEq, Repr

/-- One whole call; the label is the list of readings it makes. -/
def step (s : Trace) (readings : List Int64) : Option Trace :=
  match s.gen.next readings with
  | some ((.ok id,g),[]) => some ⟨g,⟨id,g.lastStmp,g.sequence⟩ :: s.issued⟩
  | some ((.error _,g),[]) => some ⟨g,s.issued⟩
  | _ => none

theorem step_cases {s t : Trace} {readings : List Int64} (h : step s readings = some t) :
    t = s ∨ ∃ c q, t = ⟨{ s.gen with sequence := q, lastStmp := c },
        ⟨s.gen.compose c q,c,q⟩ :: s.issued⟩ ∧ c ∈ readings ∧
      ((c = s.gen.lastStmp ∧ q = (s.gen.sequence + 1) &&& MAX_SEQUENCE ∧ q ≠ 0) ∨
        (s.gen.lastStmp < c ∧ q = 0)) := by
  unfold step at h
  split at h
  · next id g hn =>
    cases h
    rcases next_cases hn with ⟨ho,_⟩ | ⟨c,q,ho,hg,hc,hcase⟩
    · cases ho
    · cases ho
      subst hg
      exact .inr ⟨c,q,rfl,hc,hcase⟩
  · next e g hn =>
    cases h
    rcases next_cases hn with ⟨_,hg⟩ | ⟨c,q,ho,_⟩
    · subst hg
      exact .inl rfl
    · cases ho
  · cases h

def Trace.later (s : Trace) (c : Int64) : Trace :=
  ⟨{ s.gen with sequence := 0, lastStmp := c },⟨s.gen.compose c 0,c,0⟩ :: s.issued⟩

theorem step_later {s : Trace} {c : Int64} (h : s.gen.lastStmp < c) :
    step s [c] = some (s.later c) := by
  simp only [step,next_later h,Trace.later]

/-- What any run keeps, for readings that all satisfy `p`: ids are made of an older
or equal timestamp and a sequence number below 4096, in strictly increasing order. -/
structure Ordered (p : Int64 → Prop) (g : SnowFlake) (s : Trace) : Prop where
  datacenter : s.gen.datacenterId = g.datacenterId
  machine : s.gen.machineId = g.machineId
  sequence : bits s.gen.sequence < 2^12
  made : ∀ e ∈ s.issued, e.id = g.compose e.stmp e.sequence ∧ bits e.sequence < 2^12 ∧ p e.stmp
  latest : ∀ e ∈ s.issued, e.stmp < s.gen.lastStmp ∨
    (e.stmp = s.gen.lastStmp ∧ bits e.sequence ≤ bits s.gen.sequence)
  ordered : s.issued.Pairwise fun newer older => older.Before newer

private theorem bits_masked {q : Int64} (h : bits q < 2^12) :
    bits ((q + 1) &&& MAX_SEQUENCE) = (bits q + 1) % 2^12 := by
  rw [bits_and,max_sequence,Nat.and_two_pow_sub_one_eq_mod,bits_add,
    show bits 1 = 1 from rfl,Nat.mod_eq_of_lt (b := 2^64) (by omega)]

theorem masked_eq_zero {q : Int64} (h : bits q < 2^12) :
    (q + 1) &&& MAX_SEQUENCE = 0 ↔ bits q + 1 = 2^12 := by
  rw [← bits_inj,bits_masked h,show bits 0 = 0 from rfl]
  omega

theorem masked_succ {q : Int64} (h : bits q < 2^12) (hn : (q + 1) &&& MAX_SEQUENCE ≠ 0) :
    bits ((q + 1) &&& MAX_SEQUENCE) = bits q + 1 ∧ bits q + 1 < 2^12 := by
  have hlt : bits q + 1 < 2^12 := by
    have hne := (masked_eq_zero h).not.mp hn
    omega
  exact ⟨by rw [bits_masked h,Nat.mod_eq_of_lt hlt],hlt⟩

private theorem step_ordered {p : Int64 → Prop} {g : SnowFlake} (s : Trace) (readings : List Int64)
    (t : Trace) (h : Ordered p g s) (hp : ∀ r ∈ readings, p r) (hs : step s readings = some t) :
    Ordered p g t := by
  rcases step_cases hs with rfl | ⟨c,q,rfl,hc,hcase⟩
  · exact h
  have hq : bits q < 2^12 ∧ ∀ e ∈ s.issued, e.Before ⟨s.gen.compose c q,c,q⟩ := by
    rcases hcase with ⟨rfl,rfl,hn⟩ | ⟨hlt,rfl⟩
    · obtain ⟨hv,hlt⟩ := masked_succ h.sequence hn
      refine ⟨by omega,fun e he => ?_⟩
      rcases h.latest e he with hl | ⟨hl,hle⟩
      · exact .inl hl
      · exact .inr ⟨hl,by dsimp only; omega⟩
    · refine ⟨by decide,fun e he => .inl ?_⟩
      rcases h.latest e he with hl | ⟨hl,_⟩
      · exact Int64.lt_trans hl hlt
      · exact hl ▸ hlt
  refine ⟨h.datacenter,h.machine,hq.1,?_,?_,List.pairwise_cons.mpr ⟨hq.2,h.ordered⟩⟩
  · intro e he
    rcases List.mem_cons.mp he with rfl | he
    · refine ⟨?_,hq.1,hp c hc⟩
      simp only [compose,h.datacenter,h.machine]
    · exact h.made e he
  · intro e he
    rcases List.mem_cons.mp he with rfl | he
    · exact .inr ⟨rfl,le_refl _⟩
    · rcases hq.2 e he with hl | ⟨hl,hlt⟩
      · exact .inl hl
      · exact .inr ⟨hl,hlt.le⟩

/-- Every run of whole calls from fresh fields. -/
theorem run_ordered {p : Int64 → Prop} {g : SnowFlake} (hseq : bits g.sequence < 2^12)
    {calls : List (List Int64)} (hp : ∀ rs ∈ calls, ∀ r ∈ rs, p r) {s : Trace}
    (h : exec step ⟨g,[]⟩ calls = some s) : Ordered p g s :=
  have hok : StepsMeet step (fun _ rs => ∀ r ∈ rs, p r) ⟨g,[]⟩ calls := stepsMeet_of_forall hp _
  exec_invariant step_ordered
    ⟨rfl,rfl,hseq,fun _ he => absurd he List.not_mem_nil,fun _ he => absurd he List.not_mem_nil,.nil⟩
    hok h

end SnowFlake
end CloudWeb.Sequence
