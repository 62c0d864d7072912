import Mathlib.Data.Nat.Bitwise
import Mathlib.Tactic.NormNum

/-! Java's `long` where its bits matter. `Int64` is the machine word; `bits` reads it
as an unsigned number, on which shifts and masks are those of `Nat`. -/
namespace CloudWeb.Java

/-- The word as an unsigned number. -/
def bits (a : Int64) : Nat := a.toBitVec.toNat

private theorem bits_lt (a : Int64) : bits a < 2^64 := a.toBitVec.isLt

theorem bits_inj {a b : Int64} : bits a = bits b ↔ a = b :=
  ⟨fun h => Int64.toBitVec.inj (BitVec.eq_of_toNat_eq h),congrArg bits⟩

theorem toInt_eq_bits {a : Int64} (h : bits a < 2^63) : a.toInt = bits a := by
  change a.toBitVec.toInt = _
  rw [BitVec.toInt_eq_toNat_of_lt (by unfold bits at h; omega)]
  rfl

theorem bits_of_nonneg {a : Int64} (h : 0 ≤ a.toInt) : bits a < 2^63 ∧ (bits a : Int) = a.toInt := by
  have hm : bits a < 2^63 := by
    by_contra hn
    have hd : a.toInt = (bits a : Int) - 2^64 := by
      change a.toBitVec.toInt = _
      rw [BitVec.toInt_eq_toNat_cond,if_neg (by unfold bits at hn; omega)]
      rfl
    have := bits_lt a
    omega
  exact ⟨hm,(toInt_eq_bits hm).symm⟩

theorem bits_or (a b : Int64) : bits (a ||| b) = bits a ||| bits b := by
  simp [bits]

theorem bits_and (a b : Int64) : bits (a &&& b) = bits a &&& bits b := by
  simp [bits]

theorem bits_add (a b : Int64) : bits (a + b) = (bits a + bits b) % 2^64 := by
  simp [bits]

private theorem smod_64 : ∀ k < 64, ((Int64.ofNat k).toBitVec.smod 64).toNat = k := by decide

private theorem bits_shiftLeft_mod (a : Int64) {k : Nat} (hk : k < 64) :
    bits (a <<< Int64.ofNat k) = (bits a <<< k) % 2^64 := by
  unfold bits
  rw [Int64.toBitVec_shiftLeft,BitVec.shiftLeft_eq',BitVec.toNat_shiftLeft,smod_64 k hk]

/-- A left shift that loses no bit is the shift of `Nat`. -/
theorem bits_shiftLeft {a : Int64} {k : Nat} (hk : k < 64) (h : bits a <<< k < 2^64) :
    bits (a <<< Int64.ofNat k) = bits a <<< k := by
  rw [bits_shiftLeft_mod a hk,Nat.mod_eq_of_lt h]

theorem bits_shiftLeft_low (a : Int64) {j k : Nat} (hjk : j ≤ k) (hk : k < 64) :
    bits (a <<< Int64.ofNat k) % 2^j = 0 := by
  have hdvd : 2^j ∣ 2^64 := pow_dvd_pow 2 (hjk.trans hk.le)
  rw [bits_shiftLeft_mod a hk,Nat.mod_mod_of_dvd _ hdvd,Nat.shiftLeft_eq]
  exact Nat.mod_eq_zero_of_dvd ((pow_dvd_pow 2 hjk).mul_left _)

theorem bits_shiftRight {a : Int64} {k : Nat} (hk : k < 64) (h : bits a < 2^63) :
    bits (a >>> Int64.ofNat k) = bits a >>> k := by
  have hm : a.toBitVec.msb = false := by
    rw [BitVec.msb_eq_decide]
    exact decide_eq_false (by unfold bits at h; omega)
  unfold bits
  rw [Int64.toBitVec_shiftRight,BitVec.sshiftRight_eq',smod_64 k hk,
    BitVec.sshiftRight_eq_of_msb_false hm,BitVec.toNat_ushiftRight]

theorem toInt_sub_eq {a b : Int64} (hl : -2^63 ≤ a.toInt-b.toInt) (hh : a.toInt-b.toInt < 2^63) :
    (a-b).toInt = a.toInt-b.toInt := by
  rw [Int64.toInt_sub,Int.bmod_eq_of_le (by omega) (by omega)]

end CloudWeb.Java
