import Mathlib.Data.BitVec
import Mathlib.Tactic.Ring
import Mathlib.Tactic.Linarith

/-! # The machine's arithmetic

What each instruction computes on its operand words, as the executor computes
it: wrapping 32-bit operations, widening products and the division rules.
-/

namespace Apogee.Alu

/-- A machine word. -/
abbrev Word := BitVec 32

def mul (a b : Word) : Word := a * b

/-- The high half of the signed product. -/
def mulh (a b : Word) : Word :=
  ((a.signExtend 64 * b.signExtend 64).sshiftRight 32).setWidth 32

/-- The high half of the signed by unsigned product. -/
def mulhsu (a b : Word) : Word :=
  ((a.signExtend 64 * b.setWidth 64).sshiftRight 32).setWidth 32

/-- The high half of the unsigned product. -/
def mulhu (a b : Word) : Word := ((a.setWidth 64 * b.setWidth 64) >>> 32).setWidth 32

/-- Signed division: all ones for a zero divisor, wrapping on overflow. -/
def div (a b : Word) : Word := if b = 0 then BitVec.allOnes 32 else a.sdiv b

/-- Unsigned division: all ones for a zero divisor. -/
def divu (a b : Word) : Word := if b = 0 then BitVec.allOnes 32 else a / b

/-- Signed remainder: the dividend for a zero divisor. -/
def rem (a b : Word) : Word := if b = 0 then a else a.srem b

/-- Unsigned remainder: the dividend for a zero divisor. -/
def remu (a b : Word) : Word := if b = 0 then a else a % b

/-- A condition as a word. -/
def ofCond (condition : Bool) : Word := if condition then 1 else 0

def slt (a b : Word) : Word := ofCond (a.slt b)

def sltu (a b : Word) : Word := ofCond (a.ult b)

/-- A jump target with its lowest bit cleared. -/
def clearLow (target : Word) : Word := target &&& ~~~1

/-- A register shift's amount, the operand's low five bits. -/
def shiftAmount (b : Word) : ℕ := (b &&& 31).toNat

def sll (a b : Word) : Word := a <<< shiftAmount b

def srl (a b : Word) : Word := a >>> shiftAmount b

def sra (a b : Word) : Word := a.sshiftRight (shiftAmount b)

theorem shiftAmount_eq (b : Word) : shiftAmount b = b.toNat % 32 := by
  rw [shiftAmount, BitVec.toNat_and]
  exact Nat.and_two_pow_sub_one_eq_mod b.toNat 5

theorem sll_toNat (a b : Word) : (sll a b).toNat = a.toNat * 2 ^ shiftAmount b % 2 ^ 32 := by
  rw [sll, BitVec.toNat_shiftLeft, Nat.shiftLeft_eq]

theorem srl_toNat (a b : Word) : (srl a b).toNat = a.toNat / 2 ^ shiftAmount b := by
  rw [srl, BitVec.toNat_ushiftRight, Nat.shiftRight_eq_div_pow]

theorem sra_toInt (a b : Word) : (sra a b).toInt = a.toInt / 2 ^ shiftAmount b := by
  rw [sra, BitVec.toInt_sshiftRight, Int.shiftRight_eq_div_pow, Nat.cast_pow, Nat.cast_ofNat]

/-- Clearing a word's low bits rounds it down. -/
theorem clear_toNat (k : ℕ) (target mask : Word)
    (isMask : ∀ i < 32, mask.getLsbD i = decide (i < k)) :
    (target &&& ~~~mask).toNat = target.toNat / 2 ^ k * 2 ^ k := by
  have shifted : target &&& ~~~mask = target >>> k <<< k := by
    ext i inside
    have maskBit := isMask i inside
    rw [BitVec.getLsbD_eq_getElem inside] at maskBit
    simp only [BitVec.getElem_and, BitVec.getElem_not, BitVec.getElem_shiftLeft, maskBit]
    by_cases low : i < k
    · simp [low]
    · simp [low, show k + (i - k) = i by omega, BitVec.getLsbD_eq_getElem inside]
  have small : target.toNat / 2 ^ k * 2 ^ k < 2 ^ 32 :=
    (Nat.div_mul_le_self _ _).trans_lt target.isLt
  rw [shifted, BitVec.toNat_shiftLeft, BitVec.toNat_ushiftRight, Nat.shiftRight_eq_div_pow,
    Nat.shiftLeft_eq, Nat.mod_eq_of_lt small]

theorem clearLow_toNat (target : Word) : (clearLow target).toNat = target.toNat / 2 * 2 :=
  clear_toNat 1 target 1 (by decide)

private theorem toNat_high (product : BitVec 64) :
    (((product.sshiftRight 32).setWidth 32).toNat : ℤ) = product.toInt / 2 ^ 32 % 2 ^ 32 := by
  have reduce : ((product.sshiftRight 32).setWidth 32).toNat =
      ((product.sshiftRight 32).toNat) % 2 ^ 32 := BitVec.toNat_setWidth ..
  have shifted : (product.sshiftRight 32).toInt = product.toInt / 2 ^ 32 := by
    rw [BitVec.toInt_sshiftRight, Int.shiftRight_eq_div_pow]
    norm_num
  have modular : ((product.sshiftRight 32).toNat : ℤ) % 2 ^ 32 =
      (product.sshiftRight 32).toInt % 2 ^ 32 := by
    rw [BitVec.toInt_eq_toNat_cond]
    split_ifs <;> omega
  rw [reduce]
  omega

/-- A widened product that fits 64 bits is the integer product. -/
private theorem toInt_product {a b : BitVec 64} (lower : -2 ^ 63 ≤ a.toInt * b.toInt)
    (upper : a.toInt * b.toInt < 2 ^ 63) : (a * b).toInt = a.toInt * b.toInt := by
  rw [BitVec.toInt_mul]
  exact Int.bmod_eq_of_le (by norm_num; linarith) (by norm_num; linarith)

private theorem toInt_zeroExtend (b : Word) : (b.setWidth 64).toInt = b.toNat := by
  have := b.isLt
  have widened : (b.setWidth 64).toNat = b.toNat := by
    rw [BitVec.toNat_setWidth]
    omega
  rw [BitVec.toInt_eq_toNat_cond, widened]
  split_ifs <;> omega

private theorem toInt_bounds (a : Word) : -2 ^ 31 ≤ a.toInt ∧ a.toInt < 2 ^ 31 := by
  have := a.isLt
  rw [BitVec.toInt_eq_toNat_cond]
  split_ifs <;> constructor <;> omega

/-- A residue modulo the word size names one word. -/
private theorem toNat_eq_emod (word : Word) {value : ℤ} (residue : word.toInt % 2 ^ 32 = value % 2 ^ 32) :
    (word.toNat : ℤ) = value % 2 ^ 32 := by
  have := word.isLt
  have same : (word.toNat : ℤ) % 2 ^ 32 = word.toInt % 2 ^ 32 := by
    rw [BitVec.toInt_eq_toNat_cond]
    split_ifs <;> omega
  omega

theorem mul_toNat (a b : Word) : ((mul a b).toNat : ℤ) = a.toInt * b.toInt % 2 ^ 32 := by
  have product : (mul a b).toInt = (a.toInt * b.toInt).bmod (2 ^ 32) := BitVec.toInt_mul ..
  refine toNat_eq_emod _ ?_
  rw [product]
  exact Int.bmod_emod

theorem mulh_toNat (a b : Word) : ((mulh a b).toNat : ℤ) = a.toInt * b.toInt / 2 ^ 32 % 2 ^ 32 := by
  have left := toInt_bounds a
  have right := toInt_bounds b
  have widenLeft : (a.signExtend 64).toInt = a.toInt := BitVec.toInt_signExtend_of_le (by omega)
  have widenRight : (b.signExtend 64).toInt = b.toInt := BitVec.toInt_signExtend_of_le (by omega)
  rw [mulh, toNat_high, toInt_product, widenLeft, widenRight]
  · rw [widenLeft, widenRight]; nlinarith
  · rw [widenLeft, widenRight]; nlinarith

theorem mulhsu_toNat (a b : Word) :
    ((mulhsu a b).toNat : ℤ) = a.toInt * b.toNat / 2 ^ 32 % 2 ^ 32 := by
  have left := toInt_bounds a
  have right := b.isLt
  have widenLeft : (a.signExtend 64).toInt = a.toInt := BitVec.toInt_signExtend_of_le (by omega)
  rw [mulhsu, toNat_high, toInt_product, widenLeft, toInt_zeroExtend]
  · rw [widenLeft, toInt_zeroExtend]; nlinarith
  · rw [widenLeft, toInt_zeroExtend]; nlinarith

theorem mulhu_toNat (a b : Word) :
    ((mulhu a b).toNat : ℤ) = (a.toNat : ℤ) * b.toNat / 2 ^ 32 % 2 ^ 32 := by
  have left := a.isLt
  have right := b.isLt
  have bound : a.toNat * b.toNat < 2 ^ 64 := by nlinarith
  have product : (a.setWidth 64 * b.setWidth 64).toNat = a.toNat * b.toNat := by
    rw [BitVec.toNat_mul, BitVec.toNat_setWidth, BitVec.toNat_setWidth]
    rw [Nat.mod_eq_of_lt (a := a.toNat) (by omega), Nat.mod_eq_of_lt (a := b.toNat) (by omega),
      Nat.mod_eq_of_lt bound]
  rw [mulhu, BitVec.toNat_setWidth, BitVec.toNat_ushiftRight, product, Nat.shiftRight_eq_div_pow]
  push_cast
  norm_num

/-- Truncated division is the only pair of quotient and remainder with the
remainder below the divisor in magnitude and of the dividend's sign. -/
theorem tdiv_tmod_of_sign {dividend divisor quotient remainder : ℤ} (nonzero : divisor ≠ 0)
    (identity : divisor * quotient + remainder = dividend) (small : |remainder| < |divisor|)
    (sign : remainder = 0 ∨ (0 ≤ dividend ∧ 0 ≤ remainder) ∨ (dividend < 0 ∧ remainder ≤ 0)) :
    quotient = dividend.tdiv divisor ∧ remainder = dividend.tmod divisor := by
  have bound : 0 < |divisor| := abs_pos.mpr nonzero
  rw [Int.abs_eq_natAbs, Int.abs_eq_natAbs] at small
  have low : -(divisor.natAbs : ℤ) < remainder := by omega
  have high : remainder < divisor.natAbs := by omega
  by_cases negative : dividend < 0
  · have unique := (Int.tdiv_tmod_unique' (q := quotient) (r := remainder) negative.le nonzero).mpr
      ⟨by linarith, low, by omega⟩
    exact ⟨unique.1.symm, unique.2.symm⟩
  · have unique := (Int.tdiv_tmod_unique (q := quotient) (r := remainder) (not_lt.mp negative)
      nonzero).mpr ⟨by linarith, by omega, high⟩
    exact ⟨unique.1.symm, unique.2.symm⟩

theorem div_toNat {a b : Word} (nonzero : b ≠ 0) :
    ((div a b).toNat : ℤ) = a.toInt.tdiv b.toInt % 2 ^ 32 := by
  rw [div, if_neg nonzero]
  refine toNat_eq_emod _ ?_
  rw [BitVec.toInt_sdiv]
  exact Int.bmod_emod

theorem rem_toNat {a b : Word} (nonzero : b ≠ 0) :
    ((rem a b).toNat : ℤ) = a.toInt.tmod b.toInt % 2 ^ 32 := by
  rw [rem, if_neg nonzero]
  refine toNat_eq_emod _ ?_
  rw [BitVec.toInt_srem]

theorem divu_toNat {a b : Word} (nonzero : b ≠ 0) : (divu a b).toNat = a.toNat / b.toNat := by
  rw [divu, if_neg nonzero, BitVec.toNat_udiv]

theorem remu_toNat {a b : Word} (nonzero : b ≠ 0) : (remu a b).toNat = a.toNat % b.toNat := by
  rw [remu, if_neg nonzero, BitVec.toNat_umod]

end Apogee.Alu
