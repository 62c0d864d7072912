import Mathlib.Data.List.Basic
import Mathlib.Tactic.IntervalCases

/-! Java's `long` where only addition and subtraction matter, and its decimal text.
A value is an integer in range; an operation's exact result is reduced by `toLong`. -/
namespace CloudWeb.Java

def Long.MIN_VALUE : Int := -9223372036854775808
def Long.MAX_VALUE : Int := 9223372036854775807

def Long.InRange (x : Int) : Prop := Long.MIN_VALUE ≤ x ∧ x ≤ Long.MAX_VALUE

instance (x : Int) : Decidable (Long.InRange x) := inferInstanceAs (Decidable (_ ∧ _))

/-- Two's complement reduction of an exact result to 64 bits. -/
def toLong (x : Int) : Int := (x + 9223372036854775808) % 18446744073709551616 - 9223372036854775808

theorem toLong_inRange (x : Int) : Long.InRange (toLong x) := by
  unfold Long.InRange Long.MIN_VALUE Long.MAX_VALUE toLong
  omega

theorem toLong_eq {x : Int} (h : Long.InRange x) : toLong x = x := by
  unfold Long.InRange Long.MIN_VALUE Long.MAX_VALUE at h
  unfold toLong
  omega

theorem toLong_of_nonneg {x : Int} (h0 : 0 ≤ x) (hm : x ≤ Long.MAX_VALUE) : toLong x = x := by
  apply toLong_eq
  exact ⟨le_trans (by decide) h0,hm⟩

theorem Long.InRange.between {a b x : Int} (ha : Long.InRange a) (hb : Long.InRange b)
    (hax : a ≤ x) (hxb : x ≤ b) : Long.InRange x := ⟨ha.1.trans hax,hxb.trans hb.2⟩

/-- Code points of the zero of every decimal digit block a Java 8 `char` can name. -/
def digitZeros : List Nat :=
  [0x0030,0x0660,0x06F0,0x07C0,0x0966,0x09E6,0x0A66,0x0AE6,0x0B66,0x0BE6,0x0C66,0x0CE6,0x0D66,
   0x0E50,0x0ED0,0x0F20,0x1040,0x1090,0x17E0,0x1810,0x1946,0x19D0,0x1A80,0x1A90,0x1B50,0x1BB0,
   0x1C40,0x1C50,0xA620,0xA8D0,0xA900,0xA9D0,0xAA50,0xABF0,0xFF10]

/-- `Character.digit(c, 10)`, with `none` for -1. -/
def Character.digit (c : Char) : Option Nat :=
  (digitZeros.find? fun z => z ≤ c.toNat && c.toNat < z+10).map fun z => c.toNat - z

/-- The digit loop of `Long.parseLong`: at least one digit and nothing else. -/
def parseDigits (cs : List Char) : Option Nat :=
  if cs = [] then none
  else (cs.mapM Character.digit).map fun ds => ds.foldl (fun n d => 10*n+d) 0

/-- The optional sign, then the digits. -/
def parseSigned : List Char → Option Int
  | '-' :: cs => (parseDigits cs).map fun n => -(Int.ofNat n)
  | '+' :: cs => (parseDigits cs).map Int.ofNat
  | cs => (parseDigits cs).map Int.ofNat

/-- `Long.parseLong`, with `none` for `NumberFormatException`. -/
def parseLong (s : String) : Option Int :=
  (parseSigned s.toList).filter fun n => decide (Long.InRange n)

def valueOf (n : Int) : String :=
  if n < 0 then String.ofList ('-' :: Nat.toDigits 10 n.natAbs)
  else String.ofList (Nat.toDigits 10 n.natAbs)

private theorem digit_digitChar {d : Nat} (h : d < 10) : Character.digit d.digitChar = some d := by
  interval_cases d <;> rfl

private theorem digit_sign (cs : List Char) :
    parseDigits ('-' :: cs) = none ∧ parseDigits ('+' :: cs) = none := by
  have hm : Character.digit '-' = none := rfl
  have hp : Character.digit '+' = none := rfl
  exact ⟨by simp [parseDigits,hm],by simp [parseDigits,hp]⟩

private theorem mapM_digit_toDigits (n : Nat) :
    ∃ ds, (Nat.toDigits 10 n).mapM Character.digit = some ds ∧
      ds.foldl (fun n d => 10*n+d) 0 = n := by
  induction n using Nat.strongRecOn with
  | ind n ih =>
    rw [Nat.toDigits_eq_if (by decide)]
    split
    · next h => exact ⟨[n],by simp [digit_digitChar h],by simp⟩
    · next h =>
      obtain ⟨ds,hd,hf⟩ := ih (n/10) (by omega)
      refine ⟨ds ++ [n%10],?_,?_⟩
      · have hr : n%10 < 10 := Nat.mod_lt _ (by decide)
        simp [List.mapM_append,hd,digit_digitChar hr]
      · rw [List.foldl_append,hf]
        simp only [List.foldl_cons,List.foldl_nil]
        omega

private theorem parseDigits_toDigits (n : Nat) : parseDigits (Nat.toDigits 10 n) = some n := by
  obtain ⟨ds,hd,hf⟩ := mapM_digit_toDigits n
  simp [parseDigits,Nat.toDigits_ne_nil,hd,hf]

private theorem parseSigned_of_parseDigits {cs : List Char} {n : Nat} (h : parseDigits cs = some n) :
    parseSigned cs = some (Int.ofNat n) := by
  unfold parseSigned
  split
  · next cs => simp [(digit_sign cs).1] at h
  · next cs => simp [(digit_sign cs).2] at h
  · rw [h]
    rfl

private theorem parseDigits_zeros (k : Nat) {cs : List Char} (h : cs ≠ []) :
    parseDigits (List.replicate k '0' ++ cs) = parseDigits cs := by
  induction k with
  | zero => rfl
  | succ k ih =>
    have hz : Character.digit '0' = some 0 := rfl
    have hne : List.replicate k '0' ++ cs ≠ [] := List.append_ne_nil_of_right_ne_nil _ h
    rw [← ih,List.replicate_succ,List.cons_append]
    generalize List.replicate k '0' ++ cs = ds at hne
    rw [parseDigits,parseDigits,if_neg (List.cons_ne_nil _ _),if_neg hne,List.mapM_cons,hz]
    cases ds.mapM Character.digit with
    | none => rfl
    | some ns => simp

/-- `String.format("%0" + width + "d", n)`. The sign is part of the width. -/
def formatPadded (width : Nat) (n : Int) : String :=
  let digits := Nat.toDigits 10 n.natAbs
  if n < 0 then String.ofList ('-' :: (List.replicate (width-1-digits.length) '0' ++ digits))
  else String.ofList (List.replicate (width-digits.length) '0' ++ digits)

private theorem parseDigits_padded (k n : Nat) :
    parseDigits (List.replicate k '0' ++ Nat.toDigits 10 n) = some n := by
  rw [parseDigits_zeros k Nat.toDigits_ne_nil,parseDigits_toDigits]

theorem parseLong_formatPadded (width : Nat) {n : Int} (h : Long.InRange n) :
    parseLong (formatPadded width n) = some n := by
  have hs : parseSigned (formatPadded width n).toList = some n := by
    unfold formatPadded
    split
    · next hn =>
      rw [String.toList_ofList,parseSigned,parseDigits_padded,Option.map_some]
      exact congrArg some (by simp only [Int.ofNat_eq_natCast]; omega)
    · next hn =>
      rw [String.toList_ofList,parseSigned_of_parseDigits (parseDigits_padded _ _)]
      exact congrArg some (by simp only [Int.ofNat_eq_natCast]; omega)
  rw [parseLong,hs]
  simp [h]

private theorem valueOf_eq_formatPadded (n : Int) : valueOf n = formatPadded 0 n := by
  simp [valueOf,formatPadded]

/-- The decimal text of a `long` reads back as the same `long`. -/
theorem parseLong_valueOf {n : Int} (h : Long.InRange n) : parseLong (valueOf n) = some n := by
  rw [valueOf_eq_formatPadded,parseLong_formatPadded 0 h]

/-- One more digit in front of a padded number, which the sign of a negative one prevents. -/
theorem parseLong_zero_formatPadded (width : Nat) {n : Int} (h : Long.InRange n) :
    parseLong (String.ofList ('0' :: (formatPadded width n).toList)) =
      if n < 0 then none else some n := by
  unfold formatPadded
  split
  · have hd : ∀ cs, parseDigits ('0' :: '-' :: cs) = none := by
      intro cs
      have hm : Character.digit '-' = none := rfl
      simp [parseDigits,hm]
    simp [parseLong,parseSigned,hd]
  · next hn =>
    have hd := parseDigits_padded (width-(Nat.toDigits 10 n.natAbs).length+1) n.natAbs
    rw [List.replicate_succ,List.cons_append] at hd
    rw [String.toList_ofList,parseLong,String.toList_ofList,parseSigned_of_parseDigits hd]
    simpa [h] using hn

private theorem toList_valueOf {n : Int} (h : 0 ≤ n) : (valueOf n).toList = Nat.toDigits 10 n.natAbs := by
  rw [valueOf,if_neg (not_lt.mpr h),String.toList_ofList]

theorem length_valueOf_le {m n : Int} (h0 : 0 ≤ m) (h : m ≤ n) :
    (valueOf m).toList.length ≤ (valueOf n).toList.length := by
  rw [toList_valueOf h0,toList_valueOf (h0.trans h)]
  apply (Nat.length_toDigits_le_iff (by decide) Nat.length_toDigits_pos).mpr
  have hn := (Nat.length_toDigits_le_iff (b := 10) (n := n.natAbs) (by decide)
    Nat.length_toDigits_pos).mp (le_refl _)
  omega

theorem valueOf_inj {m n : Int} (hm : 0 ≤ m) (hn : 0 ≤ n) (h : valueOf m = valueOf n) : m = n := by
  have hd := congrArg String.toList h
  rw [toList_valueOf hm,toList_valueOf hn] at hd
  have he := congrArg (Nat.ofDigitChars 10 · 0) hd
  simp only [Nat.ofDigitChars_ten_toDigits] at he
  omega

theorem parseLong_inRange {s : String} {n : Int} (h : parseLong s = some n) : Long.InRange n := by
  have hf := (Option.filter_eq_some_iff.mp h).2
  exact of_decide_eq_true hf

example : parseLong "+0012" = some 12 ∧ parseLong "-" = none ∧ parseLong "12a" = none := by decide

end CloudWeb.Java
