import Apogee.Circuit.MulDiv
import Apogee.Emulator.Alu
import Apogee.Soundness.Family

/-! # The multiply and divide circuit is sound

A live row of the family writes the machine's result. The gates are read off as
relations between columns (`Relations`), the ranges turn the columns into words,
and the one product identity is lifted to the integers: on a multiply row it
splits the product into its halves, on a division row it is the Euclidean
identity whose remainder the gap bounds below the divisor.
-/

namespace Apogee.MulDiv

open Frame Family Gadgets

/-- The family's instructions. -/
inductive Kind
  | mul
  | mulh
  | mulhsu
  | mulhu
  | div
  | divu
  | rem
  | remu
deriving DecidableEq

namespace Kind

/-- The instruction's bit of the packed mask. -/
def index : Kind → ℕ
  | mul => 0
  | mulh => 1
  | mulhsu => 2
  | mulhu => 3
  | div => 4
  | divu => 5
  | rem => 6
  | remu => 7

/-- What the instruction writes to `rd`. -/
def result : Kind → Alu.Word → Alu.Word → Alu.Word
  | mul => Alu.mul
  | mulh => Alu.mulh
  | mulhsu => Alu.mulhsu
  | mulhu => Alu.mulhu
  | div => Alu.div
  | divu => Alu.divu
  | rem => Alu.rem
  | remu => Alu.remu

/-- Whether the instruction divides. -/
def isDiv : Kind → Bool
  | mul | mulh | mulhsu | mulhu => false
  | div | divu | rem | remu => true

/-- Whether the instruction reads `rs1` signed. -/
def readsLhsSigned : Kind → Bool
  | mul | mulh | mulhsu | div | rem => true
  | mulhu | divu | remu => false

/-- Whether the instruction reads `rs2` signed. -/
def readsRhsSigned : Kind → Bool
  | mul | mulh | div | rem => true
  | mulhsu | mulhu | divu | remu => false

/-- The column the instruction's result is read from. -/
def source : Kind → PolyAddress
  | mul => pLow
  | mulh | mulhsu | mulhu => pHigh
  | div | divu => q
  | rem | remu => r

end Kind

theorem legalMasks_eq {mask : ℕ} (legal : mask ∈ legalMasks) : ∃ kind : Kind, mask = 2 ^ kind.index := by
  simp only [legalMasks, List.mem_cons, List.not_mem_nil, or_false] at legal
  rcases legal with rfl | rfl | rfl | rfl | rfl | rfl | rfl | rfl
  exacts [⟨.mul, rfl⟩, ⟨.mulh, rfl⟩, ⟨.mulhsu, rfl⟩, ⟨.mulhu, rfl⟩, ⟨.div, rfl⟩, ⟨.divu, rfl⟩,
    ⟨.rem, rfl⟩, ⟨.remu, rfl⟩]

/-- The relations the arithmetic gates impose on a row's columns. -/
structure Relations (row : Row) : Prop where
  fDivRule : row fDiv = row div + row divu + row rem + row remu
  s1Rule : row s1 = (row mul + row mulh + row mulhsu + row div + row rem) * row rs1Top
  s2Rule : row s2 = (row mul + row mulh + row div + row rem) * row rs2Top
  mxRule : row mx = (row mul + row mulh + row mulhsu + row mulhu) * (row vRs1 - 2 ^ 32 * row s1) +
    row fDiv * (row vRs2 - 2 ^ 32 * row s2)
  myRule : row my = (row mul + row mulh + row mulhsu + row mulhu) * (row vRs2 - 2 ^ 32 * row s2) +
    row fDiv * (row q - 2 ^ 32 * row qSign)
  productRule : row mx * row my = row pLow + 2 ^ 32 * row pHigh - 2 ^ 64 * row pSign
  divisionRule : row fDiv * (row pLow + 2 ^ 32 * row pHigh - 2 ^ 64 * row pSign +
    (row r - 2 ^ 32 * row rSign) - (row vRs1 - 2 ^ 32 * row s1)) = 0
  rzRule : row rz = if row r = 0 then row fDiv else 0
  dzRule : row dz = if row vRs2 = 0 then row fDiv else 0
  rSignRule : row rSign = row fDiv * row s1 * (1 - row rz)
  gapRule : row gap + row fDiv - 2 ^ 32 * row dz = row fDiv *
    ((row vRs2 + 2 ^ 32 * row s2 - 2 * row vRs2 * row s2) -
      (row r + 2 ^ 32 * row rSign - 2 * row r * row rSign))
  zeroDivisorQuotient : row dz * (row q - (2 ^ 32 - 1)) = 0
  rdValueRule : row sel = row mul * row pLow + (row mulh + row mulhsu + row mulhu) * row pHigh +
    (row div + row divu) * row q + (row rem + row remu) * row r

variable {challenges : ExternalChallenges} {decoded : List (List Fr)} {row : Row}

/-- The arithmetic gates impose the relations. -/
theorem relations_of_gates
    (gates : ∀ gate ∈ arithmeticGates wordBits, gate.2.value challenges row = 0) : Relations row := by
  have rzTest : ∀ gate ∈ isZero [(lit 1, r)] rInv rz fDiv, gate.value challenges row = 0 := by
    intro gate member
    simp only [isZero, List.mem_cons, List.not_mem_nil, or_false] at member
    rcases member with rfl | rfl
    · exact gates ("rz_inverse", _) (by simp [arithmeticGates, isZero])
    · exact gates ("rz_at_nonzero", _) (by simp [arithmeticGates, isZero])
  have dzTest : ∀ gate ∈ isZero [(lit 1, vRs2)] dInv dz fDiv, gate.value challenges row = 0 := by
    intro gate member
    simp only [isZero, List.mem_cons, List.not_mem_nil, or_false] at member
    rcases member with rfl | rfl
    · exact gates ("dz_inverse", _) (by simp [arithmeticGates, isZero])
    · exact gates ("dz_at_nonzero", _) (by simp [arithmeticGates, isZero])
  have rzValue := isZero_indicator rzTest
  have dzValue := isZero_indicator dzTest
  simp only [arithmeticGates, wordBits, List.forall_mem_cons, List.not_mem_nil,
    IsEmpty.forall_iff, implies_true, and_true, isZero, List.zip_cons_cons, List.zip_nil_right,
    linear, quadratic, booleanity, divs, muls, lhsSigned, rhsSigned, takesHigh, takesQuotient,
    takesRemainder, value_linear, value_quadratic, List.map_cons, List.map_nil,
    List.flatMap_cons, List.flatMap_nil, List.cons_append, List.nil_append, List.sum_cons,
    List.sum_nil, coefficient_lit, coefficient_neg, coefficient_literal, Nat.cast_one, one_mul,
    add_zero] at gates rzValue dzValue
  push_cast at gates
  obtain ⟨fDivRule, -, s1Rule, s2Rule, -, -, -, -, -, -, -, mxRule, myRule, productRule,
    divisionRule, -, -, -, -, d1Rule, rSignRule, absRRule, absDRule, gapRule, zeroRule,
    selRule⟩ := gates
  exact
    { fDivRule := by linear_combination fDivRule
      s1Rule := by linear_combination s1Rule
      s2Rule := by linear_combination s2Rule
      mxRule := by linear_combination mxRule
      myRule := by linear_combination myRule
      productRule := by linear_combination productRule
      divisionRule := by linear_combination divisionRule
      rzRule := rzValue
      dzRule := dzValue
      rSignRule := by linear_combination rSignRule + (1 - row rz) * d1Rule
      gapRule := by linear_combination gapRule + row fDiv * (absDRule - absRRule)
      zeroDivisorQuotient := by linear_combination zeroRule
      rdValueRule := by linear_combination selRule }

/-- What the one-hot kind bits select on a row. -/
structure Selected (kind : Kind) (row : Row) : Prop where
  muls : row mul + row mulh + row mulhsu + row mulhu = bitFr !kind.isDiv
  divs : row div + row divu + row rem + row remu = bitFr kind.isDiv
  lhs : row mul + row mulh + row mulhsu + row div + row rem = bitFr kind.readsLhsSigned
  rhs : row mul + row mulh + row div + row rem = bitFr kind.readsRhsSigned
  source : row mul * row pLow + (row mulh + row mulhsu + row mulhu) * row pHigh +
    (row div + row divu) * row q + (row rem + row remu) * row r = row kind.source

/-- One-hot kind bits select their kind. -/
theorem selected_of_oneHot {kind : Kind}
    (oneHot : ∀ k, (kinds.map row).getD k 0 = if k = kind.index then 1 else 0) :
    Selected kind row := by
  have mulBit : row mul = _ := oneHot 0
  have mulhBit : row mulh = _ := oneHot 1
  have mulhsuBit : row mulhsu = _ := oneHot 2
  have mulhuBit : row mulhu = _ := oneHot 3
  have divBit : row div = _ := oneHot 4
  have divuBit : row divu = _ := oneHot 5
  have remBit : row rem = _ := oneHot 6
  have remuBit : row remu = _ := oneHot 7
  cases kind <;> constructor <;>
    simp [mulBit, mulhBit, mulhsuBit, mulhuBit, divBit, divuBit, remBit, remuBit, Kind.index,
      Kind.isDiv, Kind.readsLhsSigned, Kind.readsRhsSigned, Kind.source, bitFr]

/-- The columns of a live row that the ranges and sign lookups bound. -/
structure Words (row : Row) (a b low high quotient remainder gapWord : Alu.Word)
    (productSign quotientSign : ℕ) : Prop where
  rs1 : row vRs1 = wordFr a
  rs2 : row vRs2 = wordFr b
  rs1Top : row MulDiv.rs1Top = (topBit a : Fr)
  rs2Top : row MulDiv.rs2Top = (topBit b : Fr)
  pLow : row MulDiv.pLow = wordFr low
  pHigh : row MulDiv.pHigh = wordFr high
  q : row MulDiv.q = wordFr quotient
  r : row MulDiv.r = wordFr remainder
  gap : row MulDiv.gap = wordFr gapWord
  pSign : row MulDiv.pSign = (productSign : Fr)
  pSignBit : productSign ≤ 1
  qSign : row MulDiv.qSign = (quotientSign : Fr)
  qSignBit : quotientSign ≤ 1

/-- A word read signed or unsigned. -/
def adjusted (signed : Bool) (word : Alu.Word) : ℤ :=
  (word.toNat : ℤ) - 2 ^ 32 * (signed.toNat * topBit word : ℕ)

theorem adjusted_eq (signed : Bool) (word : Alu.Word) :
    adjusted signed word = if signed then word.toInt else word.toNat := by
  cases signed with
  | false => simp [adjusted]
  | true => simp [adjusted, toInt_eq_sub]

private theorem adjusted_bounds (signed : Bool) (word : Alu.Word) :
    -2 ^ 31 ≤ adjusted signed word ∧ adjusted signed word < 2 ^ 32 := by
  have small := word.isLt
  have top : topBit word = word.toNat / 2 ^ 31 := rfl
  cases signed <;> simp only [adjusted, Bool.toNat_false, Bool.toNat_true, zero_mul, one_mul] <;>
    omega

section Row

variable {kind : Kind} {a b low high quotient remainder gapWord : Alu.Word}
  {productSign quotientSign : ℕ}

/-- The sign adjustments of the two operands. -/
private theorem adjustments (relations : Relations row) (selected : Selected kind row)
    (words : Words row a b low high quotient remainder gapWord productSign quotientSign) :
    row s1 = ((kind.readsLhsSigned.toNat * topBit a : ℕ) : Fr) ∧
      row s2 = ((kind.readsRhsSigned.toNat * topBit b : ℕ) : Fr) := by
  constructor
  · rw [relations.s1Rule, selected.lhs, words.rs1Top, bitFr_eq_toNat, Nat.cast_mul]
  · rw [relations.s2Rule, selected.rhs, words.rs2Top, bitFr_eq_toNat, Nat.cast_mul]

/-- A word pair and a sign are the two halves of the integer they stand for. -/
private theorem halves {value : ℤ}
    (identity : value = low.toNat + 2 ^ 32 * high.toNat - 2 ^ 64 * productSign) :
    (low.toNat : ℤ) = value % 2 ^ 32 ∧ (high.toNat : ℤ) = value / 2 ^ 32 % 2 ^ 32 := by
  have lowSmall := low.isLt
  have highSmall := high.isLt
  constructor <;> omega

/-- On a multiply row the product identity holds over the integers. -/
private theorem product_identity (relations : Relations row) (selected : Selected kind row)
    (words : Words row a b low high quotient remainder gapWord productSign quotientSign)
    (multiplies : kind.isDiv = false) :
    adjusted kind.readsLhsSigned a * adjusted kind.readsRhsSigned b =
      low.toNat + 2 ^ 32 * high.toNat - 2 ^ 64 * productSign := by
  obtain ⟨s1Eq, s2Eq⟩ := adjustments relations selected words
  have fDivZero : row fDiv = 0 := by
    rw [relations.fDivRule, selected.divs, multiplies, bitFr, if_neg Bool.false_ne_true]
  have mxEq := relations.mxRule
  have myEq := relations.myRule
  rw [selected.muls, multiplies, fDivZero, s1Eq, words.rs1] at mxEq
  rw [selected.muls, multiplies, fDivZero, s2Eq, words.rs2] at myEq
  simp only [Bool.not_false, bitFr, ↓reduceIte, one_mul, zero_mul, add_zero] at mxEq myEq
  have product := relations.productRule
  rw [mxEq, myEq, words.pLow, words.pHigh, words.pSign] at product
  have lhs := adjusted_bounds kind.readsLhsSigned a
  have rhs := adjusted_bounds kind.readsRhsSigned b
  have lowSmall := low.isLt
  have highSmall := high.isLt
  have sign := words.pSignBit
  have lifted : adjusted kind.readsLhsSigned a * adjusted kind.readsRhsSigned b -
      (low.toNat + 2 ^ 32 * high.toNat - 2 ^ 64 * productSign) = 0 := by
    refine fr_eq_zero ?_ (by nlinarith) (by nlinarith)
    simp only [adjusted, wordFr] at product ⊢
    push_cast at product ⊢
    linear_combination product
  linarith

/-- The remainder's sign adjustment on a division row: the dividend's sign where
the remainder is not zero. -/
private def remainderSign (kind : Kind) (a remainder : Alu.Word) : ℕ :=
  if remainder.toNat = 0 then 0 else kind.readsLhsSigned.toNat * topBit a

private theorem remainderSign_le_one (kind : Kind) (a remainder : Alu.Word) :
    remainderSign kind a remainder ≤ 1 := by
  have top := topBit_le_one a
  unfold remainderSign
  cases kind.readsLhsSigned <;> split_ifs <;> simp [top]

private theorem wordFr_eq_zero {word : Alu.Word} : wordFr word = 0 ↔ word.toNat = 0 := by
  constructor
  · intro zero
    have := word.isLt
    exact fr_natCast_inj (by omega) (by norm_num) (by rw [Nat.cast_zero]; exact zero)
  · intro zero
    rw [wordFr, zero, Nat.cast_zero]

/-- The flags of a division row. -/
private theorem division_flags (relations : Relations row) (selected : Selected kind row)
    (words : Words row a b low high quotient remainder gapWord productSign quotientSign)
    (divides : kind.isDiv = true) :
    row fDiv = 1 ∧ row dz = (if b.toNat = 0 then 1 else 0 : ℕ) ∧
      row rSign = (remainderSign kind a remainder : ℕ) := by
  have fDivOne : row fDiv = 1 := by
    rw [relations.fDivRule, selected.divs, divides, bitFr, if_pos rfl]
  obtain ⟨s1Eq, -⟩ := adjustments relations selected words
  have dzEq := relations.dzRule
  have rzEq := relations.rzRule
  simp only [words.rs2, fDivOne, wordFr_eq_zero] at dzEq
  simp only [words.r, fDivOne, wordFr_eq_zero] at rzEq
  refine ⟨fDivOne, ?_, ?_⟩
  · rw [dzEq]
    split_ifs <;> simp
  · rw [relations.rSignRule, fDivOne, s1Eq, rzEq, remainderSign]
    split_ifs <;> simp

/-- On a division row the Euclidean identity holds over the integers. -/
private theorem euclidean_identity (relations : Relations row) (selected : Selected kind row)
    (words : Words row a b low high quotient remainder gapWord productSign quotientSign)
    (divides : kind.isDiv = true) :
    adjusted kind.readsRhsSigned b * ((quotient.toNat : ℤ) - 2 ^ 32 * quotientSign) +
      ((remainder.toNat : ℤ) - 2 ^ 32 * remainderSign kind a remainder) =
      adjusted kind.readsLhsSigned a := by
  obtain ⟨s1Eq, s2Eq⟩ := adjustments relations selected words
  obtain ⟨fDivOne, -, rSignEq⟩ := division_flags relations selected words divides
  have mxEq := relations.mxRule
  have myEq := relations.myRule
  rw [selected.muls, divides, fDivOne, s1Eq, s2Eq, words.rs1, words.rs2] at mxEq
  rw [selected.muls, divides, fDivOne, s2Eq, words.rs2, words.q, words.qSign] at myEq
  simp only [Bool.not_true, bitFr, Bool.false_eq_true, ↓reduceIte, one_mul, zero_mul,
    zero_add] at mxEq myEq
  have product := relations.productRule
  have division := relations.divisionRule
  rw [mxEq, myEq] at product
  rw [fDivOne, ← product, words.r, rSignEq, words.rs1, s1Eq] at division
  have lhs := adjusted_bounds kind.readsLhsSigned a
  have rhs := adjusted_bounds kind.readsRhsSigned b
  have quotientSmall := quotient.isLt
  have remainderSmall := remainder.isLt
  have quotientBit := words.qSignBit
  have signBit := remainderSign_le_one kind a remainder
  have lifted : adjusted kind.readsRhsSigned b * ((quotient.toNat : ℤ) - 2 ^ 32 * quotientSign) +
      ((remainder.toNat : ℤ) - 2 ^ 32 * remainderSign kind a remainder) -
      adjusted kind.readsLhsSigned a = 0 := by
    refine fr_eq_zero ?_ (by nlinarith) (by nlinarith)
    simp only [adjusted, wordFr] at division ⊢
    push_cast at division ⊢
    linear_combination division
  linarith

/-- A word adjusted by a sign bit has the magnitude the gates compute. -/
private theorem abs_adjusted {value : ℕ} (small : value < 2 ^ 32) {sign : ℕ} (bit : sign ≤ 1) :
    |(value : ℤ) - 2 ^ 32 * (sign : ℤ)| =
      (value : ℤ) + 2 ^ 32 * (sign : ℤ) - 2 * ((value : ℤ) * (sign : ℤ)) := by
  have cases : sign = 0 ∨ sign = 1 := by omega
  rcases cases with rfl | rfl
  · simp
  · rw [abs_of_nonpos (by push_cast; omega)]
    push_cast
    ring

/-- On a division row with a nonzero divisor the gap bounds the remainder. -/
private theorem remainder_bound (relations : Relations row) (selected : Selected kind row)
    (words : Words row a b low high quotient remainder gapWord productSign quotientSign)
    (divides : kind.isDiv = true) (nonzero : b.toNat ≠ 0) :
    |(remainder.toNat : ℤ) - 2 ^ 32 * remainderSign kind a remainder| <
      |adjusted kind.readsRhsSigned b| := by
  obtain ⟨-, s2Eq⟩ := adjustments relations selected words
  obtain ⟨fDivOne, dzEq, rSignEq⟩ := division_flags relations selected words divides
  have signBit := remainderSign_le_one kind a remainder
  have divisorBit : kind.readsRhsSigned.toNat * topBit b ≤ 1 := by
    have top := topBit_le_one b
    cases kind.readsRhsSigned <;> simp [top]
  have gap := relations.gapRule
  rw [fDivOne, dzEq, if_neg nonzero, words.gap, words.rs2, words.r, s2Eq, rSignEq] at gap
  unfold adjusted
  rw [abs_adjusted remainder.isLt signBit, abs_adjusted b.isLt divisorBit]
  generalize remainderSign kind a remainder = sign at gap signBit ⊢
  generalize kind.readsRhsSigned.toNat * topBit b = divisorSign at gap divisorBit ⊢
  have gapSmall := gapWord.isLt
  have remainderSmall := remainder.isLt
  have divisorSmall := b.isLt
  have remainderProduct : remainder.toNat * sign < 2 ^ 32 := by nlinarith
  have divisorProduct : b.toNat * divisorSign < 2 ^ 32 := by nlinarith
  have lifted : (gapWord.toNat : ℤ) + 1 -
      ((b.toNat + 2 ^ 32 * divisorSign - 2 * (b.toNat * divisorSign : ℕ)) -
        (remainder.toNat + 2 ^ 32 * sign - 2 * (remainder.toNat * sign : ℕ))) = 0 := by
    refine fr_eq_zero ?_ (by omega) (by omega)
    simp only [wordFr] at gap
    push_cast at gap ⊢
    linear_combination gap
  push_cast at lifted
  linarith

/-- On a division row with a nonzero divisor the witness is truncated division. -/
private theorem quotient_remainder (relations : Relations row) (selected : Selected kind row)
    (words : Words row a b low high quotient remainder gapWord productSign quotientSign)
    (divides : kind.isDiv = true) (nonzero : b.toNat ≠ 0) :
    (quotient.toNat : ℤ) - 2 ^ 32 * quotientSign =
        (adjusted kind.readsLhsSigned a).tdiv (adjusted kind.readsRhsSigned b) ∧
      (remainder.toNat : ℤ) - 2 ^ 32 * remainderSign kind a remainder =
        (adjusted kind.readsLhsSigned a).tmod (adjusted kind.readsRhsSigned b) := by
  have bound := remainder_bound relations selected words divides nonzero
  refine Alu.tdiv_tmod_of_sign ?_ (euclidean_identity relations selected words divides) bound ?_
  · exact abs_pos.mp (lt_of_le_of_lt (abs_nonneg _) bound)
  · have dividendSmall := a.isLt
    have remainderSmall := remainder.isLt
    have top := topBit_le_one a
    have sign : kind.readsLhsSigned.toNat * topBit a = 0 ∨
        kind.readsLhsSigned.toNat * topBit a = 1 := by
      cases kind.readsLhsSigned <;> simp; omega
    unfold remainderSign adjusted
    by_cases isZero : remainder.toNat = 0
    · exact Or.inl (by simp [isZero])
    · rcases sign with positive | negative
      · exact Or.inr (Or.inl (by rw [if_neg isZero, positive]; constructor <;> push_cast <;> omega))
      · exact Or.inr (Or.inr (by rw [if_neg isZero, negative]; constructor <;> push_cast <;> omega))

/-- On a division row with a zero divisor the quotient is all ones and the
remainder the dividend. -/
private theorem zero_divisor (relations : Relations row) (selected : Selected kind row)
    (words : Words row a b low high quotient remainder gapWord productSign quotientSign)
    (divides : kind.isDiv = true) (isZero : b.toNat = 0) :
    quotient = BitVec.allOnes 32 ∧ remainder = a := by
  obtain ⟨-, dzEq, -⟩ := division_flags relations selected words divides
  have identity := euclidean_identity relations selected words divides
  have quotientSmall := quotient.isLt
  have remainderSmall := remainder.isLt
  have dividendSmall := a.isLt
  have signBit := remainderSign_le_one kind a remainder
  have top := topBit_le_one a
  have dividendBit : kind.readsLhsSigned.toNat * topBit a ≤ 1 := by
    cases kind.readsLhsSigned <;> simp [top]
  have divisorZero : adjusted kind.readsRhsSigned b = 0 := by
    simp [adjusted, topBit, isZero]
  constructor
  · have pinned := relations.zeroDivisorQuotient
    rw [dzEq, if_pos isZero, words.q, Nat.cast_one, one_mul, wordFr] at pinned
    refine BitVec.eq_of_toNat_eq (fr_natCast_inj (by omega) ?_ ?_)
    · rw [BitVec.toNat_allOnes]; norm_num
    · rw [BitVec.toNat_allOnes]
      push_cast
      linear_combination pinned
  · rw [divisorZero, zero_mul, zero_add, adjusted] at identity
    refine BitVec.eq_of_toNat_eq ?_
    omega

/-- The selected column holds the machine's result. -/
theorem source_eq_result (relations : Relations row) (selected : Selected kind row)
    (words : Words row a b low high quotient remainder gapWord productSign quotientSign) :
    row kind.source = wordFr (kind.result a b) := by
  have toWord {word result : Alu.Word} (same : (word.toNat : ℤ) = result.toNat) :
      wordFr word = wordFr result := by
    rw [BitVec.eq_of_toNat_eq (x := word) (y := result) (by exact_mod_cast same)]
  cases kind with
  | mul =>
    have identity := product_identity relations selected words rfl
    have parts := halves identity
    simp only [Kind.readsLhsSigned, Kind.readsRhsSigned, adjusted_eq, ↓reduceIte] at parts
    exact words.pLow.trans (toWord (parts.1.trans (Alu.mul_toNat a b).symm))
  | mulh =>
    have identity := product_identity relations selected words rfl
    have parts := halves identity
    simp only [Kind.readsLhsSigned, Kind.readsRhsSigned, adjusted_eq, ↓reduceIte] at parts
    exact words.pHigh.trans (toWord (parts.2.trans (Alu.mulh_toNat a b).symm))
  | mulhsu =>
    have identity := product_identity relations selected words rfl
    have parts := halves identity
    simp only [Kind.readsLhsSigned, Kind.readsRhsSigned, adjusted_eq, ↓reduceIte,
      Bool.false_eq_true] at parts
    exact words.pHigh.trans (toWord (parts.2.trans (Alu.mulhsu_toNat a b).symm))
  | mulhu =>
    have identity := product_identity relations selected words rfl
    have parts := halves identity
    simp only [Kind.readsLhsSigned, Kind.readsRhsSigned, adjusted_eq, ↓reduceIte,
      Bool.false_eq_true] at parts
    exact words.pHigh.trans (toWord (parts.2.trans (Alu.mulhu_toNat a b).symm))
  | div =>
    refine words.q.trans (toWord ?_)
    by_cases isZero : b.toNat = 0
    · rw [(zero_divisor relations selected words rfl isZero).1]
      simp [Kind.result, Alu.div, BitVec.eq_of_toNat_eq (y := 0#32) isZero]
    · have witness := quotient_remainder relations selected words rfl isZero
      simp only [Kind.readsLhsSigned, Kind.readsRhsSigned, adjusted_eq, ↓reduceIte] at witness
      have value := Alu.div_toNat (a := a) (b := b) (by rintro rfl; exact isZero rfl)
      simp only [Kind.result]
      omega
  | divu =>
    refine words.q.trans (toWord ?_)
    by_cases isZero : b.toNat = 0
    · rw [(zero_divisor relations selected words rfl isZero).1]
      simp [Kind.result, Alu.divu, BitVec.eq_of_toNat_eq (y := 0#32) isZero]
    · have witness := quotient_remainder relations selected words rfl isZero
      simp only [Kind.readsLhsSigned, Kind.readsRhsSigned, adjusted_eq, ↓reduceIte,
        Bool.false_eq_true, ← Int.ofNat_tdiv] at witness
      have value := Alu.divu_toNat (a := a) (b := b) (by rintro rfl; exact isZero rfl)
      have result := (Alu.divu a b).isLt
      simp only [Kind.result]
      omega
  | rem =>
    refine words.r.trans (toWord ?_)
    by_cases isZero : b.toNat = 0
    · rw [(zero_divisor relations selected words rfl isZero).2]
      simp [Kind.result, Alu.rem, BitVec.eq_of_toNat_eq (y := 0#32) isZero]
    · have witness := quotient_remainder relations selected words rfl isZero
      simp only [Kind.readsLhsSigned, Kind.readsRhsSigned, adjusted_eq, ↓reduceIte] at witness
      have value := Alu.rem_toNat (a := a) (b := b) (by rintro rfl; exact isZero rfl)
      simp only [Kind.result]
      omega
  | remu =>
    refine words.r.trans (toWord ?_)
    by_cases isZero : b.toNat = 0
    · rw [(zero_divisor relations selected words rfl isZero).2]
      simp [Kind.result, Alu.remu, BitVec.eq_of_toNat_eq (y := 0#32) isZero]
    · have witness := quotient_remainder relations selected words rfl isZero
      simp only [Kind.readsLhsSigned, Kind.readsRhsSigned, adjusted_eq, ↓reduceIte,
        Bool.false_eq_true, ← Int.ofNat_tmod] at witness
      have value := Alu.remu_toNat (a := a) (b := b) (by rintro rfl; exact isZero rfl)
      have result := (Alu.remu a b).isLt
      simp only [Kind.result]
      omega

end Row

/-- The obligations and booleanity gates of a live row make words of its columns. -/
theorem exists_words (gates : ∀ gate ∈ arithmeticGates wordBits, gate.2.value challenges row = 0)
    (lookups : ∀ lookup ∈ familySpec.lookups,
      lookup.channel ∈ [LookupChannel.range16, LookupChannel.generic] →
        lookup.Holds challenges decoded row)
    (live : row pcMask = 1) :
    ∃ a b low high quotient remainder gapWord : Alu.Word, ∃ productSign quotientSign : ℕ,
      Words row a b low high quotient remainder gapWord productSign quotientSign := by
  have range (name : String) (value hi : PolyAddress)
      (included : ∀ lookup ∈ range32 name pcMask value hi, lookup ∈ familySpec.lookups) :
      ∃ word : Alu.Word, row value = wordFr word ∧ row hi = (highHalf word : Fr) := by
    refine range32_word live fun lookup (member : lookup ∈ range32 name pcMask value hi) =>
      lookups lookup (included lookup member) ?_
    simp only [range32, List.mem_cons, List.not_mem_nil, or_false] at member
    rcases member with rfl | rfl <;> exact List.mem_cons_self
  have sign (name : String) (hi bit : PolyAddress)
      (included : getSign name pcMask hi bit ∈ familySpec.lookups) :
      (getSign name pcMask hi bit).Holds challenges decoded row :=
    lookups _ included (List.mem_cons_of_mem _ List.mem_cons_self)
  obtain ⟨a, rs1Eq, rs1HiEq⟩ := range "rs1" vRs1 rs1Hi (by simp +contextual [familySpec])
  obtain ⟨b, rs2Eq, rs2HiEq⟩ := range "rs2" vRs2 rs2Hi (by simp +contextual [familySpec])
  obtain ⟨low, lowEq, -⟩ := range "p_low" pLow pLowHi (by simp +contextual [familySpec])
  obtain ⟨high, highEq, -⟩ := range "p_high" pHigh pHighHi (by simp +contextual [familySpec])
  obtain ⟨quotient, quotientEq, -⟩ := range "q" q qHi (by simp +contextual [familySpec])
  obtain ⟨remainder, remainderEq, -⟩ := range "r" r rHi (by simp +contextual [familySpec])
  obtain ⟨gapWord, gapEq, -⟩ := range "gap" gap gapHiCol (by simp +contextual [familySpec])
  obtain ⟨productSign, productBit, productEq⟩ :=
    bit_of_booleanity (gates ("p_sign_boolean", booleanity pSign) (by simp [arithmeticGates]))
  obtain ⟨quotientSign, quotientBit, quotientSignEq⟩ :=
    bit_of_booleanity (gates ("q_sign_boolean", booleanity qSign) (by simp [arithmeticGates]))
  exact ⟨a, b, low, high, quotient, remainder, gapWord, productSign, quotientSign,
    { rs1 := rs1Eq
      rs2 := rs2Eq
      rs1Top := getSign_word live rs1HiEq (sign "rs1_get_sign" rs1Hi rs1Top (by simp [familySpec]))
      rs2Top := getSign_word live rs2HiEq (sign "rs2_get_sign" rs2Hi rs2Top (by simp [familySpec]))
      pLow := lowEq
      pHigh := highEq
      q := quotientEq
      r := remainderEq
      gap := gapEq
      pSign := productEq
      pSignBit := productBit
      qSign := quotientSignEq
      qSignBit := quotientBit }⟩

/-- **Soundness.** A live row that satisfies the family's gates, halfword ranges
and sign lookups writes the result its decoded kind has on the words it reads,
and falls through. -/
theorem row_computes_mulDiv {mask : ℕ}
    (satisfied : RowSatisfies challenges decoded row body
      [LookupChannel.range16, LookupChannel.generic])
    (live : row pcMask = 1) (legal : mask ∈ legalMasks) (maskEq : row decodedMask = (mask : Fr)) :
    ∃ (kind : Kind) (a b : Alu.Word), mask = 2 ^ kind.index ∧ row vRs1 = wordFr a ∧
      row vRs2 = wordFr b ∧ row sel = wordFr (kind.result a b) ∧ row nextPc = row seq := by
  obtain ⟨familyGates, lookups⟩ := satisfied.family
  have gates : ∀ gate ∈ arithmeticGates wordBits, gate.2.value challenges row = 0 :=
    fun gate member => familyGates gate (List.mem_append_right _ member)
  obtain ⟨kind, maskIs⟩ := legalMasks_eq legal
  have oneHot : ∀ k, (kinds.map row).getD k 0 = if k = kind.index then 1 else 0 := kinds_oneHot rfl
    (fun gate (member : gate ∈ kindBooleans kindNames kinds) =>
      familyGates gate (by simp [familySpec, member]))
    (familyGates ("decoded_mask_bits", decodedMaskBits kinds decodedMask) (by simp [familySpec])) (by decide)
    (by cases kind <;> decide) (by rw [maskEq, maskIs])
  have selected := selected_of_oneHot oneHot
  have relations := relations_of_gates gates
  obtain ⟨a, b, low, high, quotient, remainder, gapWord, productSign, quotientSign, words⟩ :=
    exists_words gates lookups live
  refine ⟨kind, a, b, maskIs, words.rs1, words.rs2, ?_, ?_⟩
  · rw [relations.rdValueRule, selected.source]
    exact source_eq_result relations selected words
  · have rule := familyGates ("next_pc_rule", linear [(lit 1, nextPc), (neg 1, seq)])
      (by simp [familySpec])
    simp only [linear, value_linear, List.map_cons, List.map_nil, List.sum_cons, List.sum_nil,
      coefficient_lit, coefficient_neg, Nat.cast_one] at rule
    push_cast at rule
    linear_combination rule

/-- `div` of `−7` by `2` is `−3` with remainder `−1`. -/
private def signedDivision : Row :=
  Row.ofColumns
    [1, 1, 0, 0, 64, 68, 1, 5, 0, 2 ^ 32 - 7, 2 ^ 32 - 7, 1, 6, 0, 2, 2, 1, 7, 0, 0, 2 ^ 32 - 3]
    [0, 0, 0, 0, 0, 0, 2 ^ 32 - 3, 68, 5, 6, 7, 16, 0, 0, 0, 0, 1, 0, 0, 0, 1, 65535, 1, 0, 0, 1,
      0, 2, -3, 2 ^ 32 - 6, 65535, 2 ^ 32 - 1, 65535, 1, 2 ^ 32 - 3, 65535, 1, 2 ^ 32 - 1, 65535,
      1, 0, 0, 1, 0, 0, 1, 2, 0, 0, 65535]
    [(4, 7), (40, 2 ^ 32 - 1), (43, 2)]

theorem row_computes_mulDiv_signedDivision :
    ∃ (kind : Kind) (a b : Alu.Word), 16 = 2 ^ kind.index ∧ signedDivision vRs1 = wordFr a ∧
      signedDivision vRs2 = wordFr b ∧ signedDivision sel = wordFr (kind.result a b) ∧
      signedDivision nextPc = signedDivision seq :=
  row_computes_mulDiv
    (show RowSatisfies ExternalChallenges.empty [] _ body _ from
      RowSatisfies.of_check (by decide +kernel) (by decide +kernel)) (by decide +kernel)
    (by decide) (by decide +kernel)

end Apogee.MulDiv
