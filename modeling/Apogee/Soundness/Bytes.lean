import Apogee.Math.PackedBytes
import Apogee.Soundness.Words

/-! # Bytes on a row

Two words decomposed into looked-up bytes: the table bounds every byte, so each
word's decomposition is its own and the AND columns spell the words' AND. OR and
XOR follow from the sum of the words.
-/

namespace Apogee

open Gadgets

/-- The number a list of byte columns spells, low first. -/
def byteSum (row : Row) : List PolyAddress → Fr
  | [] => 0
  | byte :: bytes => row byte + ((2 ^ 8 : ℕ) : Fr) * byteSum row bytes

/-- The OR of two words is their sum less their AND. -/
theorem wordFr_or (a b : BitVec 32) : wordFr (a ||| b) = wordFr a + wordFr b - wordFr (a &&& b) := by
  have total := (Math.add_eq_lor_add_land a.toNat b.toNat).1
  rw [← BitVec.toNat_or, ← BitVec.toNat_and] at total
  have cast := congrArg (Nat.cast (R := Fr)) total
  push_cast at cast
  rw [wordFr, wordFr, wordFr, wordFr]
  linear_combination -cast

/-- The XOR of two words is their sum less their AND twice. -/
theorem wordFr_xor (a b : BitVec 32) :
    wordFr (a ^^^ b) = wordFr a + wordFr b - ((2 : ℕ) : Fr) * wordFr (a &&& b) := by
  have total := (Math.add_eq_lor_add_land a.toNat b.toNat).2
  rw [← BitVec.toNat_xor, ← BitVec.toNat_and] at total
  have cast := congrArg (Nat.cast (R := Fr)) total
  push_cast at cast
  rw [wordFr, wordFr, wordFr, wordFr]
  push_cast
  linear_combination -cast

section Row

variable {challenges : ExternalChallenges} {decoded : List (List Fr)} {row : Row}
  {selector : PolyAddress}

/-- Byte columns whose every triple is a row of the AND table spell numbers whose
AND the third columns spell. -/
private theorem exists_bytes {as bs ands : List PolyAddress} (sameB : as.length = bs.length)
    (sameAnd : as.length = ands.length)
    (entries : ∀ byte ∈ as.zip (bs.zip ands), ∃ x < 2 ^ 8, ∃ y < 2 ^ 8,
      row byte.1 = ((x : ℕ) : Fr) ∧ row byte.2.1 = ((y : ℕ) : Fr) ∧
        row byte.2.2 = ((x &&& y : ℕ) : Fr)) :
    ∃ xs ys : List ℕ, xs.length = as.length ∧ ys.length = as.length ∧
      (∀ x ∈ xs, x < 2 ^ 8) ∧ (∀ y ∈ ys, y < 2 ^ 8) ∧
      byteSum row as = (Math.packBytes xs : Fr) ∧ byteSum row bs = (Math.packBytes ys : Fr) ∧
      byteSum row ands = (Math.packBytes (List.zipWith (fun x y => x &&& y) xs ys) : Fr) := by
  induction as generalizing bs ands with
  | nil =>
    obtain rfl := List.eq_nil_of_length_eq_zero sameB.symm
    obtain rfl := List.eq_nil_of_length_eq_zero sameAnd.symm
    exact ⟨[], [], rfl, rfl, by simp, by simp, by simp [byteSum, Math.packBytes],
      by simp [byteSum, Math.packBytes], by simp [byteSum, Math.packBytes]⟩
  | cons a as ih =>
    obtain ⟨b, bs, rfl⟩ := List.exists_cons_of_length_eq_add_one sameB.symm
    obtain ⟨c, ands, rfl⟩ := List.exists_cons_of_length_eq_add_one sameAnd.symm
    simp only [List.length_cons, Nat.add_right_cancel_iff] at sameB sameAnd
    simp only [List.zip_cons_cons, List.forall_mem_cons] at entries
    obtain ⟨⟨x, xSmall, y, ySmall, xEq, yEq, andEq⟩, rest⟩ := entries
    obtain ⟨xs, ys, xsLength, ysLength, xsSmall, ysSmall, xsEq, ysEq, andsEq⟩ :=
      ih sameB sameAnd rest
    refine ⟨x :: xs, y :: ys, by simp [xsLength], by simp [ysLength],
      List.forall_mem_cons.mpr ⟨xSmall, xsSmall⟩, List.forall_mem_cons.mpr ⟨ySmall, ysSmall⟩,
      ?_, ?_, ?_⟩
    · simp only [byteSum, Math.packBytes, xEq, xsEq]
      push_cast
      ring
    · simp only [byteSum, Math.packBytes, yEq, ysEq]
      push_cast
      ring
    · simp only [byteSum, Math.packBytes, andEq, andsEq, List.zipWith_cons_cons]
      push_cast
      ring

/-- The looked-up bytes of two words spell the words' AND. -/
theorem byteSum_and (as bs ands : List PolyAddress) {a b : BitVec 32} (selected : row selector = 1)
    (four : as.length = 4) (sameB : as.length = bs.length) (sameAnd : as.length = ands.length)
    (bounds : ∀ lookup ∈ byteKeyBounds as selector, lookup.Holds challenges decoded row)
    (tables : ∀ lookup ∈ andBytes as bs ands selector, lookup.Holds challenges decoded row)
    (aEq : byteSum row as = wordFr a) (bEq : byteSum row bs = wordFr b) :
    byteSum row ands = wordFr (a &&& b) := by
  have entries : ∀ byte ∈ as.zip (bs.zip ands), ∃ x < 2 ^ 8, ∃ y < 2 ^ 8,
      row byte.1 = ((x : ℕ) : Fr) ∧ row byte.2.1 = ((y : ℕ) : Fr) ∧
        row byte.2.2 = ((x &&& y : ℕ) : Fr) := by
    intro byte member
    obtain ⟨j, inside, keyIs⟩ := List.getElem_of_mem (List.of_mem_zip member).1
    obtain ⟨x, xSmall, xEq⟩ := keyBound_lt ("byte_a" ++ toString j) byte.1 8 selected
      (by norm_num) fun lookup listed => bounds lookup (List.mem_flatten.mpr
        ⟨_, List.mem_mapIdx.mpr ⟨j, inside, by rw [keyIs]⟩, listed⟩)
    obtain ⟨i, within, byteIs⟩ := List.getElem_of_mem member
    obtain ⟨y, ySmall, yEq, andEq⟩ := andByte_row selected xEq xSmall
      (tables (generic ("and_byte_" ++ toString i) selector GenericTable.andBase byte.1
        (column byte.2.1) (column byte.2.2)) (List.mem_mapIdx.mpr ⟨i, within, by rw [byteIs]⟩))
    exact ⟨x, xSmall, y, ySmall, xEq, yEq, andEq⟩
  obtain ⟨xs, ys, xsLength, ysLength, xsSmall, ysSmall, xsEq, ysEq, andsEq⟩ :=
    exists_bytes sameB sameAnd entries
  have xsPacked := Math.packBytes_lt xsSmall
  have ysPacked := Math.packBytes_lt ysSmall
  rw [xsLength, four] at xsPacked
  rw [ysLength, four] at ysPacked
  have aBound := a.isLt
  have bBound := b.isLt
  have aIs : a.toNat = Math.packBytes xs :=
    fr_natCast_inj (by omega) (by omega) (aEq.symm.trans xsEq)
  have bIs : b.toNat = Math.packBytes ys :=
    fr_natCast_inj (by omega) (by omega) (bEq.symm.trans ysEq)
  rw [andsEq, wordFr, BitVec.toNat_and, aIs, bIs,
    Math.land_packBytes (xsLength.trans ysLength.symm) xsSmall ysSmall]

end Row

end Apogee
