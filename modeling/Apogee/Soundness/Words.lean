import Apogee.Circuit.Frame

/-! # Words on a row

What the shared obligations say about the columns they read: a pair of halfword
ranges makes a column a 32-bit word, a sign lookup makes a column that word's
top bit, the zero test decides equality with zero, and the comparison decides
the signed or unsigned order of two words.
-/

namespace Apogee

open Gadgets

/-- The field element a word is committed as. -/
def wordFr (word : BitVec 32) : Fr := (word.toNat : Fr)

/-- The field element of a bit. -/
def bitFr (bit : Bool) : Fr := if bit then 1 else 0

theorem wordFr_inj {left right : BitVec 32} (same : wordFr left = wordFr right) : left = right := by
  refine BitVec.eq_of_toNat_eq (fr_natCast_inj ?_ ?_ same)
  · have := left.isLt; omega
  · have := right.isLt; omega

/-- A word's top bit. -/
def topBit (word : BitVec 32) : ℕ := word.toNat / 2 ^ 31

/-- A word's high halfword. -/
def highHalf (word : BitVec 32) : ℕ := word.toNat / 2 ^ 16

theorem topBit_le_one (word : BitVec 32) : topBit word ≤ 1 := by
  have := word.isLt
  unfold topBit
  omega

/-- A word's signed value, by its top bit. -/
theorem toInt_eq_sub (word : BitVec 32) :
    word.toInt = (word.toNat : ℤ) - 2 ^ 32 * (topBit word : ℤ) := by
  have := word.isLt
  rw [BitVec.toInt_eq_toNat_cond, topBit]
  split_ifs <;> omega

theorem bitFr_eq_toNat (bit : Bool) : bitFr bit = ((bit.toNat : ℕ) : Fr) := by
  cases bit <;> simp [bitFr]

@[simp]
theorem bitFr_true : bitFr true = 1 := rfl

@[simp]
theorem bitFr_false : bitFr false = 0 := rfl

theorem one_sub_bitFr (bit : Bool) : 1 - bitFr bit = bitFr !bit := by
  cases bit <;> simp [bitFr]

/-- A sum with its wrap taken off is the sum's residue. -/
theorem toNat_of_wrap {word : BitVec 32} {wrap : ℕ} (value : ℕ) (bit : wrap ≤ 1) (small : value < 2 ^ 249)
    (sum : wordFr word + 2 ^ 32 * (wrap : Fr) = (value : Fr)) : word.toNat = value % 2 ^ 32 := by
  have bound := word.isLt
  have equal : word.toNat + 2 ^ 32 * wrap = value := by
    refine fr_natCast_inj (by omega) (by omega) ?_
    rw [← sum, wordFr]
    push_cast
    ring
  omega

/-- The wrapped sum of two words is their machine sum. -/
theorem add_of_wrap {word left right : BitVec 32} {wrap : ℕ} (bit : wrap ≤ 1)
    (sum : wordFr word + 2 ^ 32 * (wrap : Fr) = wordFr left + wordFr right) :
    word = left + right := by
  have leftSmall := left.isLt
  have rightSmall := right.isLt
  refine BitVec.eq_of_toNat_eq ?_
  rw [BitVec.toNat_add]
  refine toNat_of_wrap _ bit (by omega) ?_
  rw [sum, wordFr, wordFr, Nat.cast_add]

/-- Every number below `2 ^ 32` is a word's. -/
theorem exists_word (value : ℕ) (small : value < 2 ^ 32) : ∃ word : BitVec 32, word.toNat = value :=
  ⟨BitVec.ofNat 32 value, by simpa using Nat.mod_eq_of_lt small⟩

section Row

variable {challenges : ExternalChallenges} {decoded : List (List Fr)} {row : Row}
  {selector value hi bit : PolyAddress} {name : String}

/-- A selected halfword obligation bounds its expression. -/
theorem range_bound {expression : GateDef} (selected : row selector = 1)
    (holds : (range name selector expression).Holds challenges decoded row) :
    ∃ half < 2 ^ 16, expression.value challenges row = ((half : ℕ) : Fr) := by
  obtain ⟨half, small, tuple⟩ := holds
  refine ⟨half, small, ?_⟩
  have equal := List.head_eq_of_cons_eq tuple
  simpa [range, gating, Gating.offset, Gating.neutral, LookupChannel.range16,
    LookupChannel.generic, LookupChannel.decoder, selected] using equal

/-- A selected pair of halfword obligations on an affine value makes a word of it. -/
theorem rangePair_word (terms : List (Coeff × PolyAddress)) {highName lowName : String}
    (selected : row selector = 1)
    (highHolds : (range highName selector (column hi)).Holds challenges decoded row)
    (lowHolds : (range lowName selector (linear (terms ++ [(neg (2 ^ 16), hi)]))).Holds
      challenges decoded row) :
    ∃ word : BitVec 32,
      (terms.map fun term => coefficient challenges term.1 * row term.2).sum = wordFr word ∧
        row hi = (highHalf word : Fr) := by
  obtain ⟨high, highSmall, highEq⟩ := range_bound selected highHolds
  obtain ⟨low, lowSmall, lowEq⟩ := range_bound selected lowHolds
  simp only [column, linear, value_linear, List.map_append, List.map_cons, List.map_nil,
    List.sum_append, List.sum_cons, List.sum_nil, coefficient_lit, coefficient_neg]
    at highEq lowEq
  obtain ⟨word, wordEq⟩ := exists_word (low + 2 ^ 16 * high) (by omega)
  have hiEq : row hi = (high : Fr) := by
    push_cast at highEq
    linear_combination highEq
  refine ⟨word, ?_, ?_⟩
  · rw [wordFr, wordEq]
    push_cast at lowEq ⊢
    linear_combination lowEq + 65536 * hiEq
  · rw [hiEq, highHalf, wordEq]
    congr 1
    omega

/-- A selected pair of halfword obligations makes a word of its value. -/
theorem range32_word (selected : row selector = 1)
    (holds : ∀ lookup ∈ range32 name selector value hi, lookup.Holds challenges decoded row) :
    ∃ word : BitVec 32, row value = wordFr word ∧ row hi = (highHalf word : Fr) := by
  simp only [range32, List.forall_mem_cons, List.not_mem_nil, IsEmpty.forall_iff, implies_true,
    and_true] at holds
  obtain ⟨word, valueEq, hiEq⟩ :=
    rangePair_word [(lit 1, value)] selected holds.1 holds.2
  exact ⟨word, by simpa using valueEq, hiEq⟩

/-- A word whose high half stays a halfword when it is quadrupled is below `2^30`. -/
theorem wordIndex_lt {scaledName : String} (selected : row selector = 1)
    (range : ∀ lookup ∈ range32 name selector value hi, lookup.Holds challenges decoded row)
    (scaled : (Gadgets.range scaledName selector (linear [(lit 4, hi)])).Holds
      challenges decoded row) :
    ∃ index < 2 ^ 30, row value = ((index : ℕ) : Fr) := by
  obtain ⟨word, wordEq, hiEq⟩ := range32_word selected range
  obtain ⟨half, halfSmall, halfEq⟩ := range_bound selected scaled
  have small := word.isLt
  have quadruple : 4 * highHalf word = half := by
    refine fr_natCast_inj (by unfold highHalf; omega) (by omega) ?_
    rw [← halfEq]
    simp [linear, hiEq]
  refine ⟨word.toNat, ?_, wordEq⟩
  unfold highHalf at quadruple
  omega

/-- A halfword that stays one when scaled to the table's width is below the power. -/
theorem lt_of_scaled {key scaled bits : ℕ} (narrow : bits ≤ 16) (keySmall : key < 2 ^ 16)
    (scaledSmall : scaled < 2 ^ 16)
    (equal : ((2 ^ (16 - bits) * key : ℕ) : Fr) = (scaled : Fr)) : key < 2 ^ bits := by
  have powerLe : 2 ^ (16 - bits) ≤ 2 ^ 16 := Nat.pow_le_pow_right (by norm_num) (by omega)
  have product : 2 ^ (16 - bits) * key = scaled := by
    refine fr_natCast_inj ?_ (by omega) equal
    calc 2 ^ (16 - bits) * key ≤ 2 ^ 16 * 2 ^ 16 := Nat.mul_le_mul powerLe keySmall.le
      _ < 2 ^ 250 := by norm_num
  have whole : 2 ^ 16 = 2 ^ (16 - bits) * 2 ^ bits := by
    rw [← pow_add]
    congr 1
    omega
  rw [← product, whole] at scaledSmall
  exact lt_of_mul_lt_mul_left scaledSmall (Nat.zero_le _)

theorem value_column (x : PolyAddress) : (column x).value challenges row = row x := by
  simp [column, linear, value_linear, coefficient_lit]

/-- A selected key bound holds its column below the power. -/
theorem keyBound_lt (name : String) (x : PolyAddress) (bits : ℕ) (selected : row selector = 1)
    (narrow : bits ≤ 16)
    (holds : ∀ lookup ∈ keyBound name x bits selector, lookup.Holds challenges decoded row) :
    ∃ key < 2 ^ bits, row x = ((key : ℕ) : Fr) := by
  simp only [keyBound, List.forall_mem_cons, List.not_mem_nil, IsEmpty.forall_iff, implies_true,
    and_true] at holds
  obtain ⟨key, keySmall, keyEq⟩ := range_bound selected holds.1
  obtain ⟨scaled, scaledSmall, scaledEq⟩ := range_bound selected holds.2
  simp only [column, linear, value_linear, List.map_cons, List.map_nil, List.sum_cons,
    List.sum_nil, coefficient_lit] at keyEq scaledEq
  push_cast at keyEq scaledEq
  have columnEq : row x = (key : Fr) := by linear_combination keyEq
  refine ⟨key, lt_of_scaled narrow keySmall scaledSmall ?_, columnEq⟩
  rw [columnEq] at scaledEq
  push_cast
  linear_combination scaledEq

/-- A selected lookup of the packed table reads one of its rows, under its key. -/
theorem generic_row {base : ℕ} {key : PolyAddress} (first second : GateDef)
    (selected : row selector = 1)
    (holds : (generic name selector base key first second).Holds challenges decoded row) :
    ∃ k u v : ℕ, [k, u, v] ∈ GenericTable.rows ∧ k < 2 ^ 32 ∧
      row key + ((base + 1 : ℕ) : Fr) = (k : Fr) ∧ first.value challenges row = (u : Fr) ∧
      second.value challenges row = (v : Fr) := by
  obtain ⟨entry, member, tuple⟩ := holds
  obtain ⟨k, u, v, rfl, keySmall, -, -⟩ := GenericTable.exists_of_mem member
  simp only [LookupExpr.gatedTuple, generic, gating, Gating.offset, Gating.neutral, selected,
    List.mapIdx_cons, List.mapIdx_nil, List.map_cons, List.map_nil, value_linear,
    coefficient_lit, List.sum_cons, List.sum_nil, List.cons.injEq, and_true, ↓reduceIte,
    Nat.reduceEqDiff, one_mul, add_zero] at tuple
  obtain ⟨keyEq, firstEq, secondEq⟩ := tuple
  refine ⟨k, u, v, member, keySmall, ?_, firstEq, secondEq⟩
  rw [← keyEq]
  push_cast
  ring

/-- A selected sign lookup reads its word's top bit. -/
theorem getSign_word {word : BitVec 32} (selected : row selector = 1)
    (hiEq : row hi = (highHalf word : Fr))
    (holds : (getSign name selector hi bit).Holds challenges decoded row) :
    row bit = (topBit word : Fr) := by
  obtain ⟨key, top, last, member, keySmall, keyEq, topEq, -⟩ :=
    generic_row (column bit) (linear []) selected holds
  rw [value_column] at topEq
  have small := word.isLt
  have keyNat : key = highHalf word + 257 := by
    refine fr_natCast_inj (by omega) (by unfold highHalf; omega) ?_
    rw [← keyEq, hiEq, GenericTable.signBase]
    push_cast
    ring
  have topNat : top = topBit word := by
    unfold topBit
    unfold highHalf at keyNat
    rcases GenericTable.mem_rows.mp member with allZero | ⟨lower, upper, -⟩ |
      ⟨lower, upper, topIs, -⟩ | ⟨s, -, keyIs, -⟩ <;> omega
  rw [← topNat, topEq]

/-- A selected lookup of the shift powers reads its amount's power and copower. -/
theorem shiftPowers_row {amount : ℕ} {key pow copow : PolyAddress} (selected : row selector = 1)
    (keyEq : row key = (amount : Fr)) (small : amount < 32)
    (holds : (generic name selector GenericTable.shiftBase key (column pow) (column copow)).Holds
      challenges decoded row) :
    row pow = ((2 ^ amount : ℕ) : Fr) ∧ row copow = ((2 ^ (31 - amount) : ℕ) : Fr) := by
  obtain ⟨k, u, v, member, keySmall, entryEq, powEq, copowEq⟩ := generic_row _ _ selected holds
  rw [value_column] at powEq copowEq
  have keyNat : amount + 65793 = k := by
    refine fr_natCast_inj (by omega) (by omega) ?_
    rw [← entryEq, keyEq, GenericTable.shiftBase_eq]
    push_cast
    ring
  rcases GenericTable.mem_rows.mp member with allZero | ⟨lower, upper, -⟩ |
    ⟨lower, upper, -⟩ | ⟨s, -, keyIs, rfl, rfl⟩
  · omega
  · omega
  · omega
  · obtain rfl : s = amount := by omega
    exact ⟨powEq, copowEq⟩

/-- A selected lookup of the AND bytes reads the AND of its byte and another. -/
theorem andByte_row {a : ℕ} {key other result : PolyAddress} (selected : row selector = 1)
    (keyEq : row key = (a : Fr)) (small : a < 256)
    (holds : (generic name selector GenericTable.andBase key (column other)
      (column result)).Holds challenges decoded row) :
    ∃ b < 256, row other = ((b : ℕ) : Fr) ∧ row result = ((a &&& b : ℕ) : Fr) := by
  obtain ⟨k, u, v, member, keySmall, entryEq, otherEq, resultEq⟩ := generic_row _ _ selected holds
  rw [value_column] at otherEq resultEq
  have keyNat : a + 1 = k := by
    refine fr_natCast_inj (by omega) (by omega) ?_
    rw [← entryEq, keyEq, GenericTable.andBase]
    push_cast
    ring
  rcases GenericTable.mem_rows.mp member with allZero | ⟨lower, upper, otherSmall, rfl⟩ |
    ⟨lower, upper, -⟩ | ⟨s, -, keyIs, -⟩
  · omega
  · have keyIs : k - 1 = a := by omega
    exact ⟨u, otherSmall, otherEq, by rw [← keyIs, resultEq]⟩
  · omega
  · omega

/-- The zero test: its indicator is the enable exactly where the form vanishes. -/
theorem isZero_indicator {x : List (Coeff × PolyAddress)} {inv z enable : PolyAddress}
    (gates : ∀ gate ∈ isZero x inv z enable, gate.value challenges row = 0) :
    row z = if (x.map fun term => coefficient challenges term.1 * row term.2).sum = 0
      then row enable else 0 := by
  simp only [isZero, List.forall_mem_cons, List.not_mem_nil, IsEmpty.forall_iff, implies_true,
    and_true, value_quadratic, List.map_map, Function.comp_def, List.sum_map_mul_right,
    List.map_cons, List.map_nil, List.sum_cons, List.sum_nil, coefficient_neg, coefficient_lit] at gates
  obtain ⟨inverse, atNonzero⟩ := gates
  push_cast at inverse atNonzero
  split_ifs with vanishes
  · rw [vanishes] at inverse
    linear_combination inverse
  · refine (mul_eq_zero.mp ?_).resolve_left vanishes
    linear_combination atNonzero

/-- The signed-compare bits' contribution to the comparison equation. -/
private theorem sum_signed (signed : List PolyAddress) (lhsSign rhsSign : PolyAddress) (power : ℕ) :
    ((signed.flatMap fun bit => [(neg power, bit, lhsSign), (lit power, bit, rhsSign)]).map
        fun term => coefficient challenges term.1 * row term.2.1 * row term.2.2).sum =
      (power : Fr) * (signed.map row).sum * (row rhsSign - row lhsSign) := by
  induction signed with
  | nil => simp
  | cons bit signed ih =>
    simp only [List.flatMap_cons, List.cons_append, List.nil_append, List.map_cons,
      List.sum_cons, ih, coefficient_neg, coefficient_lit]
    ring

/-- The order a comparison decides. -/
def lessThan (signed : Bool) (left right : BitVec 32) : Bool :=
  if signed then left.slt right else left.ult right

/-- The comparison equation over the integers has one solution. -/
private theorem lt_of_comparison {left right : BitVec 32} (gap : BitVec 32) {signed lt : ℕ}
    (signedBit : signed ≤ 1)
    (ltBit : lt ≤ 1)
    (equation : (left.toNat : ℤ) - right.toNat +
      2 ^ 32 * (signed * (topBit right : ℤ) - signed * (topBit left : ℤ)) + 2 ^ 32 * lt -
      gap.toNat = 0) :
    lt = (lessThan (decide (signed = 1)) left right).toNat := by
  have leftSmall := left.isLt
  have rightSmall := right.isLt
  have gapSmall := gap.isLt
  have leftInt := toInt_eq_sub left
  have rightInt := toInt_eq_sub right
  unfold lessThan
  have cases : signed = 0 ∨ signed = 1 := by omega
  rcases cases with rfl | rfl
  · simp only [Nat.cast_zero, zero_mul, sub_zero, mul_zero, add_zero] at equation
    simp only [zero_ne_one, decide_false, Bool.false_eq_true, ↓reduceIte, BitVec.ult]
    by_cases less : left.toNat < right.toNat <;> simp only [less, decide_true, decide_false,
      Bool.toNat_true, Bool.toNat_false] <;> omega
  · simp only [Nat.cast_one, one_mul] at equation
    simp only [decide_true, ↓reduceIte, BitVec.slt]
    by_cases less : left.toInt < right.toInt <;> simp only [less, decide_true, decide_false,
      Bool.toNat_true, Bool.toNat_false] <;> omega

/-- A booleanity gate says its column is a bit. -/
theorem booleanity_iff {x : PolyAddress} :
    (booleanity x).value challenges row = 0 ↔ row x = 0 ∨ row x = 1 := by
  have value : (booleanity x).value challenges row = row x * (1 - row x) := by
    simp only [booleanity, quadratic, value_quadratic, List.map_cons, List.map_nil,
      List.sum_cons, List.sum_nil, coefficient_lit, coefficient_neg]
    push_cast
    ring
  rw [value, mul_eq_zero, sub_eq_zero, eq_comm (a := (1 : Fr))]

/-- A boolean column is a bit. -/
theorem bit_of_booleanity {x : PolyAddress}
    (gate : (booleanity x).value challenges row = 0) : ∃ n ≤ 1, row x = ((n : ℕ) : Fr) := by
  rcases booleanity_iff.mp gate with isZero | isOne
  · exact ⟨0, by omega, by simpa using isZero⟩
  · exact ⟨1, by omega, by simpa using isOne⟩

/-- A selected comparison makes words of its operands and decides their order. -/
theorem comparison_sound {c : Comparison} {signed : ℕ} (selected : row c.selector = 1)
    (gates : ∀ gate ∈ (comparison c).1, gate.2.value challenges row = 0)
    (lookups : ∀ lookup ∈ (comparison c).2, lookup.Holds challenges decoded row)
    (signedBit : signed ≤ 1) (signedSum : (c.signed.map row).sum = (signed : Fr)) :
    ∃ left right : BitVec 32, row c.lhs = wordFr left ∧ row c.rhs = wordFr right ∧
      row c.lhsHi = (highHalf left : Fr) ∧
      row c.rhsHi = (highHalf right : Fr) ∧
      row c.lt = ((lessThan (decide (signed = 1)) left right).toNat : Fr) := by
  simp only [comparison, List.forall_mem_append, List.forall_mem_cons, List.not_mem_nil,
    IsEmpty.forall_iff, implies_true, and_true] at gates lookups
  obtain ⟨order, ltBoolean⟩ := gates
  obtain ⟨⟨⟨lhsRange, rhsRange⟩, gapRange⟩, lhsSign, rhsSign⟩ := lookups
  obtain ⟨left, lhsEq, lhsHi⟩ := range32_word selected lhsRange
  obtain ⟨right, rhsEq, rhsHi⟩ := range32_word selected rhsRange
  obtain ⟨gap, gapEq, -⟩ := range32_word selected gapRange
  obtain ⟨lt, ltBit, ltEq⟩ := bit_of_booleanity ltBoolean
  have lhsSignEq := getSign_word selected lhsHi lhsSign
  have rhsSignEq := getSign_word selected rhsHi rhsSign
  refine ⟨left, right, lhsEq, rhsEq, lhsHi, rhsHi, ?_⟩
  rw [ltEq]
  congr 1
  refine lt_of_comparison gap signedBit ltBit (fr_eq_zero ?_ ?_ ?_)
  · simp only [comparisonEquation, value_quadratic, sum_signed, List.map_cons, List.map_nil,
      List.sum_cons, List.sum_nil, coefficient_neg, coefficient_lit, lhsEq, rhsEq, gapEq,
      ltEq, lhsSignEq, rhsSignEq, signedSum, wordFr] at order
    push_cast at order ⊢
    linear_combination order
  all_goals
    have leftSmall := left.isLt
    have rightSmall := right.isLt
    have gapSmall := gap.isLt
    have leftTop := topBit_le_one left
    have rightTop := topBit_le_one right
    have cases : signed = 0 ∨ signed = 1 := by omega
    rcases cases with rfl | rfl <;> push_cast <;> omega

end Row

end Apogee
