import Apogee.Emulator.Alu
import Apogee.Math.PackedBytes

/-! # The machine's memory accesses

Memory is read and written a word at a time. A narrower load shifts the word down
to the accessed bytes and extends them; a narrower store merges the shifted value
into the word under the bytes' mask.
-/

namespace Apogee.Alu

/-- The word an address lies in. -/
def wordAddress (addr : Word) : Word := addr &&& ~~~3

/-- How far an address's bytes are shifted inside their word. -/
def byteShift (addr : Word) : ℕ := 8 * (addr &&& 3).toNat

/-- What a load of `width` bytes at an address makes of the word read there. -/
def loaded (signed : Bool) (width : ℕ) (addr word : Word) : Word :=
  let field := (word >>> byteShift addr).setWidth (8 * width)
  if signed then field.signExtend 32 else field.setWidth 32

/-- The bits a store of `width` bytes at an address replaces. -/
def storeMask (width : ℕ) (addr : Word) : Word :=
  BitVec.allOnes 32 >>> (32 - 8 * width) <<< byteShift addr

/-- What a store of `width` bytes at an address makes of the word there. -/
def stored (width : ℕ) (addr old value : Word) : Word :=
  old &&& ~~~storeMask width addr ||| value <<< byteShift addr &&& storeMask width addr

/-- The smaller of two words as signed numbers. -/
def amomin (a b : Word) : Word := if b.slt a then b else a

/-- The larger of two words as signed numbers. -/
def amomax (a b : Word) : Word := if b.slt a then a else b

def amominu (a b : Word) : Word := if b.ult a then b else a

def amomaxu (a b : Word) : Word := if b.ult a then a else b

theorem wordAddress_toNat (addr : Word) : (wordAddress addr).toNat = addr.toNat / 4 * 4 :=
  clear_toNat 2 addr 3 (by decide)

theorem byteShift_eq (addr : Word) : byteShift addr = 8 * (addr.toNat % 4) := by
  rw [byteShift, BitVec.toNat_and]
  congr 1
  exact Nat.and_two_pow_sub_one_eq_mod addr.toNat 2

/-- A load reads the addressed field and, where it extends a sign, fills the rest
of the word with the field's top bit. -/
theorem loaded_toNat {width : ℕ} (signed : Bool) (addr word : Word) (positive : 0 < width)
    (narrow : 8 * width ≤ 32) :
    (loaded signed width addr word).toNat =
      Math.bitField word.toNat (byteShift addr) (8 * width) + (2 ^ 32 - 2 ^ (8 * width)) *
        (signed.toNat * (Math.bitField word.toNat (byteShift addr) (8 * width) /
          2 ^ (8 * width - 1))) := by
  set field := (word >>> byteShift addr).setWidth (8 * width) with isField
  have fieldEq : field.toNat = Math.bitField word.toNat (byteShift addr) (8 * width) := by
    rw [isField, BitVec.toNat_setWidth, BitVec.toNat_ushiftRight, Nat.shiftRight_eq_div_pow,
      Math.bitField]
  have widened : (field.setWidth 32).toNat = field.toNat := BitVec.toNat_setWidth_of_le narrow
  rw [← fieldEq]
  cases signed with
  | false =>
    show (field.setWidth 32).toNat = _
    rw [widened, Bool.toNat_false, zero_mul, mul_zero, add_zero]
  | true =>
    show (field.signExtend 32).toNat = _
    rw [BitVec.toNat_signExtend, widened, Bool.toNat_true, one_mul, BitVec.msb_eq_decide]
    have whole : 2 ^ (8 * width) = 2 ^ (8 * width - 1) * 2 := by
      rw [← pow_succ]
      congr 1
      omega
    have small : field.toNat < 2 ^ (8 * width - 1) * 2 := whole ▸ field.isLt
    congr 1
    by_cases top : 2 ^ (8 * width - 1) ≤ field.toNat
    · have one : field.toNat / 2 ^ (8 * width - 1) = 1 :=
        Nat.div_eq_of_lt_le (by omega) (by omega)
      rw [if_pos (decide_eq_true top), one, mul_one]
    · rw [if_neg (by simpa using top), Nat.div_eq_of_lt (not_le.mp top), mul_zero]

/-- A store replaces the addressed field. -/
theorem stored_toNat {width : ℕ} {addr : Word} (old value : Word)
    (inside : byteShift addr + 8 * width ≤ 32) :
    (stored width addr old value).toNat =
      Math.splice old.toNat (byteShift addr) (8 * width) value.toNat :=
  Math.toNat_merge old value inside

/-- Which operand a minimum takes when they are equal does not matter. -/
theorem amomin_eq (a b : Word) : amomin a b = if a.slt b then a else b := by
  simp only [amomin, BitVec.slt, decide_eq_true_eq]
  rcases lt_trichotomy a.toInt b.toInt with less | same | greater
  · rw [if_neg (not_lt.mpr less.le), if_pos less]
  · rw [BitVec.eq_of_toInt_eq same, ite_self]
  · rw [if_pos greater, if_neg (not_lt.mpr greater.le)]

theorem amominu_eq (a b : Word) : amominu a b = if a.ult b then a else b := by
  simp only [amominu, BitVec.ult, decide_eq_true_eq]
  rcases lt_trichotomy a.toNat b.toNat with less | same | greater
  · rw [if_neg (not_lt.mpr less.le), if_pos less]
  · rw [BitVec.eq_of_toNat_eq same, ite_self]
  · rw [if_pos greater, if_neg (not_lt.mpr greater.le)]

/-- A minimum and a maximum are the two operands. -/
theorem amomin_add_amomax (a b : Word) :
    (amomin a b).toNat + (amomax a b).toNat = a.toNat + b.toNat := by
  unfold amomin amomax
  split_ifs
  · exact add_comm ..
  · rfl

theorem amominu_add_amomaxu (a b : Word) :
    (amominu a b).toNat + (amomaxu a b).toNat = a.toNat + b.toNat := by
  unfold amominu amomaxu
  split_ifs
  · exact add_comm ..
  · rfl

end Apogee.Alu
