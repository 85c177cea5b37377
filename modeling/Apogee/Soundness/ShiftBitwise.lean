import Apogee.Circuit.ShiftBitwise
import Apogee.Emulator.Alu
import Apogee.Soundness.Bytes
import Apogee.Soundness.Family

/-! # The shift and bitwise circuit is sound

A live row writes the machine's shift or bitwise result on `rs1` and the second
operand. A shift's amount is the operand's low five bits and its residue is below
the power, so the one product has one quotient; a bitwise row's bytes are the
operands' own, and OR and XOR are their sum less the AND once or twice.
-/

namespace Apogee.ShiftBitwise

open Frame Family

/-- The family's instructions. -/
inductive Kind
  | slli
  | xori
  | srli
  | srai
  | ori
  | andi
  | sll
  | xor
  | srl
  | sra
  | or
  | and
deriving DecidableEq

namespace Kind

/-- The instruction's bit of the packed mask. -/
def index : Kind → ℕ
  | slli => 0
  | xori => 1
  | srli => 2
  | srai => 3
  | ori => 4
  | andi => 5
  | sll => 6
  | xor => 7
  | srl => 8
  | sra => 9
  | or => 10
  | and => 11

/-- What the instruction writes to `rd`. -/
def result : Kind → Alu.Word → Alu.Word → Alu.Word
  | slli, a, b | sll, a, b => Alu.sll a b
  | srli, a, b | srl, a, b => Alu.srl a b
  | srai, a, b | sra, a, b => Alu.sra a b
  | xori, a, b | xor, a, b => a ^^^ b
  | ori, a, b | or, a, b => a ||| b
  | andi, a, b | and, a, b => a &&& b

/-- Whether the instruction shifts. -/
def isShift : Kind → Bool
  | slli | srli | srai | sll | srl | sra => true
  | _ => false

/-- Whether the instruction extends its operand's sign. -/
def isArithmetic : Kind → Bool
  | srai | sra => true
  | _ => false

/-- Whether the instruction reads `rs2`. -/
def readsRs2 : Kind → Bool
  | sll | srl | sra | and | or | xor => true
  | _ => false

end Kind

theorem legalMasks_eq {mask : ℕ} (legal : mask ∈ legalMasks) :
    ∃ kind : Kind, mask = 2 ^ kind.index := by
  simp only [legalMasks, List.mem_cons, List.not_mem_nil, or_false] at legal
  rcases legal with rfl | rfl | rfl | rfl | rfl | rfl | rfl | rfl | rfl | rfl | rfl | rfl
  exacts [⟨.slli, rfl⟩, ⟨.xori, rfl⟩, ⟨.srli, rfl⟩, ⟨.srai, rfl⟩, ⟨.ori, rfl⟩, ⟨.andi, rfl⟩,
    ⟨.sll, rfl⟩, ⟨.xor, rfl⟩, ⟨.srl, rfl⟩, ⟨.sra, rfl⟩, ⟨.or, rfl⟩, ⟨.and, rfl⟩]

/-- The relations the family's gates impose on a row's columns. -/
structure Relations (row : Row) : Prop where
  rs2Mask : row (frame slotRs2 fieldMask) = row pcMask * (row sll + row srl + row sra + row and +
    row or + row xor)
  rdMask : row (frame slotRd fieldMask) = row pcMask * (row slli + row xori + row srli + row srai +
    row ori + row andi + row sll + row xor + row srl + row sra + row or + row and)
  fShiftRule : row fShift = row slli + row srli + row srai + row sll + row srl + row sra
  fBitwiseRule : row fBitwise = row xori + row ori + row andi + row xor + row or + row and
  nextPcRule : row nextPc = row seq
  amountSplit : row vRs2 + row imm = 32 * row high + row amount
  seRule : row se = (row srai + row sra) * row rs1Sign
  shiftInRule : row shiftIn = (row slli + row sll) * row vRs1 +
    (row srli + row srai + row srl + row sra) * (row sel - ((2 ^ 32 : ℕ) : Fr) * row se)
  shiftProdRule : row shiftProd = row shiftIn * row pow
  shiftOutRule : (row slli + row sll) * (row shiftProd - row sel - ((2 ^ 32 : ℕ) : Fr) * row ovf) +
    (row srli + row srai + row srl + row sra) *
      (row shiftProd + row residue - row vRs1 + ((2 ^ 32 : ℕ) : Fr) * row se) = 0
  scaledRule : row scaled = 2 * row residue * row copow
  rs1Bytes : row vRs1 = byteSum row bytesA
  src2Bytes : row vRs2 + row imm = byteSum row bytesB
  bitwiseOutRule : row fBitwise * row sel =
    (row or + row ori + row xor + row xori) * (row vRs2 + row imm + row vRs1) +
      (row and + row andi - row or - row ori - ((2 : ℕ) : Fr) * (row xor + row xori)) * byteSum row bytesAnd

variable {challenges : ExternalChallenges} {decoded : List (List Fr)} {row : Row}

/-- The family's gates impose the relations. -/
theorem relations_of_gates
    (enforced : ∀ gate ∈ familySpec.enforcing, gate.2.value challenges row = 0) :
    Relations row := by
  have rules : ∀ gate ∈ operandGates, gate.2.value challenges row = 0 := fun gate member =>
    enforced gate (List.mem_append_left _ (List.mem_append_left _ (List.mem_append_right _ member)))
  have shifts : ∀ gate ∈ shiftGates, gate.2.value challenges row = 0 := fun gate member =>
    enforced gate (List.mem_append_left _ (List.mem_append_right _ member))
  have bits : ∀ gate ∈ bitwiseGates, gate.2.value challenges row = 0 := fun gate member =>
    enforced gate (List.mem_append_right _ member)
  simp only [operandGates, flagRule, maskRule, valueMasked, kinds, readsRs2, ShiftBitwise.shifts,
    bitwise, linear, List.forall_mem_cons, List.not_mem_nil, IsEmpty.forall_iff, implies_true,
    and_true, quadratic, value_quadratic, value_linear, List.map_cons, List.map_nil,
    List.sum_cons, List.sum_nil, coefficient_lit, coefficient_neg] at rules
  simp only [shiftGates, src2, arithmetic, left, right, List.flatMap_cons, List.flatMap_nil,
    linear, List.forall_mem_cons, List.not_mem_nil, IsEmpty.forall_iff, implies_true,
    and_true, quadratic, value_quadratic, value_linear, List.map_cons, List.map_nil,
    List.cons_append, List.nil_append, List.append_nil, List.sum_cons, List.sum_nil,
    coefficient_lit, coefficient_neg] at shifts
  simp only [bitwiseGates, Gadgets.byteWeights, bytesA, bytesB, bytesAnd, src2, List.zip_cons_cons,
    List.zip_nil_right, List.flatMap_cons, List.flatMap_nil, linear, List.forall_mem_cons,
    List.not_mem_nil, IsEmpty.forall_iff, implies_true, and_true, quadratic, value_quadratic,
    value_linear, List.map_cons, List.map_nil, List.cons_append, List.nil_append,
    List.append_nil, List.sum_cons, List.sum_nil, coefficient_lit, coefficient_neg] at bits
  push_cast at rules shifts bits
  obtain ⟨-, fShiftRule, -, fBitwiseRule, -, -, rs2Mask, rdMask, -, -, -, -, -, nextPcRule⟩ := rules
  obtain ⟨amountSplit, -, seRule, -, -, shiftInRule, shiftProdRule, shiftOutRule, scaledRule⟩ :=
    shifts
  obtain ⟨rs1Bytes, src2Bytes, bitwiseOutRule⟩ := bits
  exact
    { rs2Mask := by linear_combination rs2Mask
      rdMask := by
        simp only [slli, xori, srli, srai, ori, andi, sll, xor, srl, sra, or, and]
        linear_combination rdMask
      fShiftRule := by linear_combination fShiftRule
      fBitwiseRule := by linear_combination fBitwiseRule
      nextPcRule := by linear_combination nextPcRule
      amountSplit := by linear_combination amountSplit
      seRule := by linear_combination seRule
      shiftInRule := by linear_combination shiftInRule
      shiftProdRule := by linear_combination shiftProdRule
      shiftOutRule := by linear_combination shiftOutRule
      scaledRule := by linear_combination scaledRule
      rs1Bytes := by simp only [byteSum, bytesA]; linear_combination rs1Bytes
      src2Bytes := by simp only [byteSum, bytesB]; linear_combination src2Bytes
      bitwiseOutRule := by simp only [byteSum, bytesAnd]; linear_combination bitwiseOutRule }

/-- What the shared product is taken of. -/
def Kind.shiftInColumn (kind : Kind) (row : Row) : Fr :=
  match kind with
  | .slli | .sll => row vRs1
  | .srli | .srai | .srl | .sra => row sel - ((2 ^ 32 : ℕ) : Fr) * row se
  | _ => 0

/-- What vanishes on a shift row: the product against its two parts. -/
def Kind.shiftOutColumn (kind : Kind) (row : Row) : Fr :=
  match kind with
  | .slli | .sll => row shiftProd - row sel - ((2 ^ 32 : ℕ) : Fr) * row ovf
  | .srli | .srai | .srl | .sra => row shiftProd + row residue - row vRs1 + ((2 ^ 32 : ℕ) : Fr) * row se
  | _ => 0

/-- What a bitwise row writes, zero on a shift. -/
def Kind.bitwiseColumn (kind : Kind) (row : Row) : Fr :=
  match kind with
  | .andi | .and => byteSum row bytesAnd
  | .ori | .or => row vRs1 + (row vRs2 + row imm) - byteSum row bytesAnd
  | .xori | .xor => row vRs1 + (row vRs2 + row imm) - ((2 : ℕ) : Fr) * byteSum row bytesAnd
  | _ => 0

/-- What the one-hot kind bits select on a live row. -/
structure Selected (kind : Kind) (row : Row) : Prop where
  rs2 : row (frame slotRs2 fieldMask) = bitFr kind.readsRs2
  rd : row (frame slotRd fieldMask) = 1
  shift : row fShift = bitFr kind.isShift
  bitwise : row fBitwise = bitFr !kind.isShift
  se : row ShiftBitwise.se = bitFr kind.isArithmetic * row rs1Sign
  shiftIn : row ShiftBitwise.shiftIn = kind.shiftInColumn row
  shiftOut : kind.shiftOutColumn row = 0
  bitwiseOut : bitFr (!kind.isShift) * row sel = kind.bitwiseColumn row

/-- One-hot kind bits select their kind. -/
theorem selected_of_oneHot {kind : Kind} (relations : Relations row) (live : row pcMask = 1)
    (oneHot : ∀ k, (kinds.map row).getD k 0 = if k = kind.index then 1 else 0) :
    Selected kind row := by
  have slliBit : row slli = _ := oneHot 0
  have xoriBit : row xori = _ := oneHot 1
  have srliBit : row srli = _ := oneHot 2
  have sraiBit : row srai = _ := oneHot 3
  have oriBit : row ori = _ := oneHot 4
  have andiBit : row andi = _ := oneHot 5
  have sllBit : row sll = _ := oneHot 6
  have xorBit : row xor = _ := oneHot 7
  have srlBit : row srl = _ := oneHot 8
  have sraBit : row sra = _ := oneHot 9
  have orBit : row or = _ := oneHot 10
  have andBit : row and = _ := oneHot 11
  have rs2Mask := relations.rs2Mask
  have rdMask := relations.rdMask
  have fShiftRule := relations.fShiftRule
  have fBitwiseRule := relations.fBitwiseRule
  have seRule := relations.seRule
  have shiftInRule := relations.shiftInRule
  have shiftOutRule := relations.shiftOutRule
  have bitwiseOutRule := relations.bitwiseOutRule
  rw [fBitwiseRule] at bitwiseOutRule
  simp only [live, slliBit, xoriBit, srliBit, sraiBit, oriBit, andiBit, sllBit, xorBit, srlBit,
    sraBit, orBit, andBit]
    at rs2Mask rdMask fShiftRule fBitwiseRule seRule shiftInRule shiftOutRule bitwiseOutRule
  cases kind <;>
    simp only [Kind.index, Nat.reduceEqDiff, OfNat.ofNat_ne_zero, OfNat.zero_ne_ofNat,
      OfNat.ofNat_ne_one, OfNat.one_ne_ofNat, one_ne_zero, zero_ne_one, ↓reduceIte, add_zero,
      zero_add, zero_mul, one_mul, mul_zero, mul_one, sub_zero, zero_sub, sub_self]
      at rs2Mask rdMask fShiftRule fBitwiseRule seRule shiftInRule shiftOutRule bitwiseOutRule <;>
    refine ⟨rs2Mask, rdMask, fShiftRule, fBitwiseRule, by
      simp only [Kind.isArithmetic, bitFr_true, bitFr_false, zero_mul, one_mul, seRule],
      shiftInRule, by simp only [Kind.shiftOutColumn, shiftOutRule], ?_⟩ <;>
    simp only [Kind.isShift, Kind.bitwiseColumn, Bool.not_true, Bool.not_false, bitFr_true,
      bitFr_false, zero_mul, one_mul, bitwiseOutRule] <;>
    ring

/-- The words of a live row: its operands, its result and the shift's parts. -/
structure Words (row : Row) (a b out high ovf residue scaled : Alu.Word) : Prop where
  rs1 : row vRs1 = wordFr a
  src2 : row vRs2 + row imm = wordFr b
  sel : row ShiftBitwise.sel = wordFr out
  sign : row rs1Sign = (topBit a : Fr)
  high : row ShiftBitwise.high = wordFr high
  ovf : row ShiftBitwise.ovf = wordFr ovf
  residue : row ShiftBitwise.residue = wordFr residue
  scaled : row ShiftBitwise.scaled = wordFr scaled

/-- The word ranges and the sign lookup make words of a live row's columns. -/
theorem exists_words (live : row pcMask = 1)
    (ranges : ∀ lookup ∈ wordRanges, lookup.Holds challenges decoded row)
    (sign : (Gadgets.generic "rs1_get_sign" pcMask GenericTable.signBase rs1Hi (column rs1Sign)
      (linear [])).Holds challenges decoded row) :
    ∃ a b out high ovf residue scaled : Alu.Word, Words row a b out high ovf residue scaled := by
  have bound {name : String} {terms : List (Coeff × PolyAddress)} {hi : PolyAddress}
      (holds : ∀ lookup ∈ range32 name terms hi, lookup.Holds challenges decoded row) :=
    rangePair_word terms live (holds _ List.mem_cons_self)
      (holds _ (List.mem_cons_of_mem _ List.mem_cons_self))
  simp only [wordRanges, List.forall_mem_append] at ranges
  obtain ⟨⟨⟨⟨⟨⟨rs1Range, src2Range⟩, highRange⟩, ovfRange⟩, residueRange⟩, scaledRange⟩, rdRange⟩ :=
    ranges
  obtain ⟨a, rs1Eq, rs1HiEq⟩ := bound rs1Range
  obtain ⟨b, src2Eq, -⟩ := bound src2Range
  obtain ⟨high, highEq, -⟩ := bound highRange
  obtain ⟨ovf, ovfEq, -⟩ := bound ovfRange
  obtain ⟨residue, residueEq, -⟩ := bound residueRange
  obtain ⟨scaled, scaledEq, -⟩ := bound scaledRange
  obtain ⟨out, selEq, -⟩ := bound rdRange
  simp only [src2, List.map_cons, List.map_nil, List.sum_cons, List.sum_nil, coefficient_lit,
    Nat.cast_one, one_mul, add_zero] at rs1Eq src2Eq highEq ovfEq residueEq scaledEq selEq
  exact ⟨a, b, out, high, ovf, residue, scaled,
    { rs1 := rs1Eq
      src2 := src2Eq
      sel := selEq
      sign := getSign_word live rs1HiEq sign
      high := highEq
      ovf := ovfEq
      residue := residueEq
      scaled := scaledEq }⟩

section Result

variable {a b out high ovf residue scaled : Alu.Word}

/-- On a shift row the amount is the second operand's low five bits, and the table
gives its power and copower. -/
theorem amount_eq (words : Words row a b out high ovf residue scaled)
    (relations : Relations row) (shift : row fShift = 1)
    (bounds : ∀ lookup ∈ Gadgets.keyBound "amount" amount 5 fShift,
      lookup.Holds challenges decoded row)
    (powers : (Gadgets.generic "shift_powers" fShift GenericTable.shiftBase amount (column pow)
      (column copow)).Holds challenges decoded row) :
    row pow = ((2 ^ Alu.shiftAmount b : ℕ) : Fr) ∧
      row copow = ((2 ^ (31 - Alu.shiftAmount b) : ℕ) : Fr) := by
  obtain ⟨key, keySmall, keyEq⟩ := keyBound_lt _ _ _ shift (by norm_num) bounds
  have highBound := high.isLt
  have bBound := b.isLt
  have split : b.toNat = 32 * high.toNat + key := by
    refine fr_natCast_inj (by omega) (by omega) ?_
    have rule := relations.amountSplit
    rw [words.src2, words.high, keyEq, wordFr, wordFr] at rule
    push_cast
    exact rule
  have isAmount : key = Alu.shiftAmount b := by
    rw [Alu.shiftAmount_eq]
    omega
  rw [← isAmount]
  exact shiftPowers_row shift keyEq keySmall powers

/-- The left arm of the shared product has one solution. -/
theorem sll_of_product {a out : Alu.Word} (ovf : Alu.Word) {power : ℕ} (small : power ≤ 2 ^ 31)
    (product : wordFr a * (power : Fr) = wordFr out + 2 ^ 32 * wordFr ovf) :
    out.toNat = a.toNat * power % 2 ^ 32 := by
  have aBound := a.isLt
  have outBound := out.isLt
  have ovfBound := ovf.isLt
  have productBound : a.toNat * power ≤ 2 ^ 32 * 2 ^ 31 := Nat.mul_le_mul aBound.le small
  have equal : a.toNat * power = out.toNat + 2 ^ 32 * ovf.toNat := by
    refine fr_natCast_inj (by omega) (by omega) ?_
    rw [wordFr, wordFr, wordFr] at product
    push_cast
    linear_combination product
  omega

/-- The right arm of the shared product has one solution: the result, its sign
extension off, is the operand's quotient by the power. -/
theorem shr_of_product {a out : Alu.Word} (residue scaled : Alu.Word) {amount sign : ℕ}
    (small : amount < 32) (bit : sign ≤ 1)
    (product : (wordFr out - 2 ^ 32 * (sign : Fr)) * ((2 ^ amount : ℕ) : Fr) + wordFr residue =
      wordFr a - 2 ^ 32 * (sign : Fr))
    (scaling : wordFr scaled = 2 * wordFr residue * ((2 ^ (31 - amount) : ℕ) : Fr)) :
    (out.toNat : ℤ) - 2 ^ 32 * sign = ((a.toNat : ℤ) - 2 ^ 32 * sign) / 2 ^ amount := by
  have aBound := a.isLt
  have outBound := out.isLt
  have residueBound := residue.isLt
  have scaledBound := scaled.isLt
  have powerBound : 2 ^ amount ≤ 2 ^ 31 := Nat.pow_le_pow_right (by norm_num) (by omega)
  have copowerBound : 2 ^ (31 - amount) ≤ 2 ^ 31 := Nat.pow_le_pow_right (by norm_num) (by omega)
  have positive : 0 < 2 ^ amount := Nat.two_pow_pos amount
  have below : residue.toNat < 2 ^ amount := by
    have copowerPositive : 0 < 2 ^ (31 - amount) := Nat.two_pow_pos _
    have whole : 2 ^ (31 - amount) * 2 ^ amount = 2 ^ 31 := by
      rw [← pow_add]
      congr 1
      omega
    have bound : residue.toNat * 2 ^ (31 - amount) ≤ 2 ^ 32 * 2 ^ 31 :=
      Nat.mul_le_mul residueBound.le copowerBound
    have equal : scaled.toNat = 2 * (residue.toNat * 2 ^ (31 - amount)) := by
      refine fr_natCast_inj (by omega) (by omega) ?_
      rw [wordFr, wordFr] at scaling
      rw [scaling]
      push_cast
      ring
    refine lt_of_mul_lt_mul_left (a := 2 ^ (31 - amount)) ?_ (Nat.zero_le _)
    rw [whole, mul_comm]
    omega
  have power : (0 : ℤ) < 2 ^ amount ∧ (2 : ℤ) ^ amount ≤ 2 ^ 31 :=
    ⟨by positivity, by exact_mod_cast powerBound⟩
  have bounded : |((out.toNat : ℤ) - 2 ^ 32 * sign) * 2 ^ amount| ≤ 2 ^ 32 * 2 ^ 31 := by
    rw [abs_mul]
    exact mul_le_mul (abs_le.mpr ⟨by omega, by omega⟩) (abs_le.mpr ⟨by linarith, power.2⟩)
      (abs_nonneg _) (by norm_num)
  obtain ⟨lower, upper⟩ := abs_le.mp bounded
  have equal : ((out.toNat : ℤ) - 2 ^ 32 * sign) * 2 ^ amount + residue.toNat -
      ((a.toNat : ℤ) - 2 ^ 32 * sign) = 0 := by
    refine fr_eq_zero ?_ (by omega) (by omega)
    rw [wordFr, wordFr, wordFr] at product
    push_cast at product ⊢
    linear_combination product
  have remainder : (residue.toNat : ℤ) < 2 ^ amount := by exact_mod_cast below
  rw [eq_comm, Int.ediv_eq_iff_of_pos power.1]
  omega

/-- A left shift's row writes the shifted word. -/
theorem eq_sll (words : Words row a b out high ovf residue scaled) (relations : Relations row)
    (powEq : row pow = ((2 ^ Alu.shiftAmount b : ℕ) : Fr))
    (shiftInEq : row shiftIn = row vRs1)
    (shiftOut : row shiftProd - row sel - ((2 ^ 32 : ℕ) : Fr) * row ShiftBitwise.ovf = 0) :
    out = Alu.sll a b := by
  have amountSmall : Alu.shiftAmount b < 32 := by
    rw [Alu.shiftAmount_eq]
    omega
  have powerSmall : 2 ^ Alu.shiftAmount b ≤ 2 ^ 31 :=
    Nat.pow_le_pow_right (by norm_num) (by omega)
  refine BitVec.eq_of_toNat_eq ?_
  rw [Alu.sll_toNat]
  refine sll_of_product ovf powerSmall ?_
  rw [← words.rs1, ← words.sel, ← words.ovf, ← powEq]
  linear_combination shiftOut - relations.shiftProdRule - row pow * shiftInEq

/-- A right shift's row writes the quotient its sign extension selects. -/
theorem shr_of_row {sign : ℕ} (words : Words row a b out high ovf residue scaled)
    (relations : Relations row) (powEq : row pow = ((2 ^ Alu.shiftAmount b : ℕ) : Fr))
    (copowEq : row copow = ((2 ^ (31 - Alu.shiftAmount b) : ℕ) : Fr)) (bit : sign ≤ 1)
    (seEq : row se = (sign : Fr)) (shiftInEq : row shiftIn = row sel - ((2 ^ 32 : ℕ) : Fr) * row se)
    (shiftOut : row shiftProd + row ShiftBitwise.residue - row vRs1 + ((2 ^ 32 : ℕ) : Fr) * row se = 0) :
    (out.toNat : ℤ) - 2 ^ 32 * sign = ((a.toNat : ℤ) - 2 ^ 32 * sign) / 2 ^ Alu.shiftAmount b := by
  have amountSmall : Alu.shiftAmount b < 32 := by
    rw [Alu.shiftAmount_eq]
    omega
  refine shr_of_product residue scaled amountSmall bit ?_ ?_
  · rw [← words.rs1, ← words.sel, ← words.residue, ← powEq, ← seEq]
    linear_combination shiftOut - relations.shiftProdRule - row pow * shiftInEq
  · rw [← words.scaled, ← words.residue, ← copowEq]
    exact relations.scaledRule

/-- A shift row writes the machine's shift. -/
theorem shift_result {kind : Kind} (words : Words row a b out high ovf residue scaled)
    (relations : Relations row) (selected : Selected kind row) (shifts : kind.isShift = true)
    (powEq : row pow = ((2 ^ Alu.shiftAmount b : ℕ) : Fr))
    (copowEq : row copow = ((2 ^ (31 - Alu.shiftAmount b) : ℕ) : Fr)) :
    out = kind.result a b := by
  have left := eq_sll words relations powEq
  have logical (seEq : row se = bitFr false * row rs1Sign)
      (shiftInEq : row shiftIn = row sel - ((2 ^ 32 : ℕ) : Fr) * row se)
      (shiftOut : row shiftProd + row ShiftBitwise.residue - row vRs1 + ((2 ^ 32 : ℕ) : Fr) * row se = 0) :
      out = Alu.srl a b := by
    have quotient := shr_of_row words relations powEq copowEq zero_le_one
      (by rw [seEq]; simp) shiftInEq shiftOut
    simp only [Nat.cast_zero, mul_zero, sub_zero] at quotient
    refine BitVec.eq_of_toNat_eq ?_
    rw [Alu.srl_toNat]
    exact_mod_cast quotient
  have arithmetic (seEq : row se = bitFr true * row rs1Sign)
      (shiftInEq : row shiftIn = row sel - ((2 ^ 32 : ℕ) : Fr) * row se)
      (shiftOut : row shiftProd + row ShiftBitwise.residue - row vRs1 + ((2 ^ 32 : ℕ) : Fr) * row se = 0) :
      out = Alu.sra a b := by
    have quotient := shr_of_row words relations powEq copowEq (topBit_le_one a)
      (by rw [seEq, words.sign]; simp) shiftInEq shiftOut
    rw [← toInt_eq_sub, ← Alu.sra_toInt, toInt_eq_sub (Alu.sra a b)] at quotient
    have outBound := out.isLt
    have resultBound := (Alu.sra a b).isLt
    exact BitVec.eq_of_toNat_eq (by omega)
  cases kind with
  | slli | sll => exact left selected.shiftIn selected.shiftOut
  | srli | srl => exact logical selected.se selected.shiftIn selected.shiftOut
  | srai | sra => exact arithmetic selected.se selected.shiftIn selected.shiftOut
  | xori | ori | andi | xor | or | and => exact absurd shifts Bool.false_ne_true

/-- A bitwise row writes the machine's operation. -/
theorem bitwise_result {kind : Kind} (words : Words row a b out high ovf residue scaled)
    (selected : Selected kind row) (bitwise : kind.isShift = false)
    (andEq : byteSum row bytesAnd = wordFr (a &&& b)) : out = kind.result a b := by
  have value := selected.bitwiseOut
  rw [bitwise, Bool.not_false, bitFr_true, one_mul, words.sel] at value
  have sum (columns : wordFr out = row vRs1 + (row vRs2 + row imm) - byteSum row bytesAnd) :
      out = a ||| b :=
    wordFr_inj (by rw [columns, words.rs1, words.src2, andEq, wordFr_or])
  have twice (columns : wordFr out =
      row vRs1 + (row vRs2 + row imm) - ((2 : ℕ) : Fr) * byteSum row bytesAnd) : out = a ^^^ b :=
    wordFr_inj (by rw [columns, words.rs1, words.src2, andEq, wordFr_xor])
  cases kind with
  | andi | and => exact wordFr_inj (value.trans andEq)
  | ori | or => exact sum value
  | xori | xor => exact twice value
  | slli | srli | srai | sll | srl | sra => exact absurd bitwise (by decide)

end Result

/-- **Soundness.** A live row whose `rs2` value and immediate are words, one of
them zero, writes exactly the machine's result on `rs1` and the other. -/
theorem row_computes_shiftBitwise {mask : ℕ} {rs2Word immWord : Alu.Word}
    (satisfied : RowSatisfies challenges decoded row body
      [LookupChannel.range16, LookupChannel.generic])
    (live : row pcMask = 1) (legal : mask ∈ legalMasks) (maskEq : row decodedMask = (mask : Fr))
    (rs2Eq : row vRs2 = wordFr rs2Word) (immEq : row imm = wordFr immWord)
    (oneZero : rs2Word = 0 ∨ immWord = 0) :
    ∃ (kind : Kind) (a : Alu.Word), mask = 2 ^ kind.index ∧ row vRs1 = wordFr a ∧
      row (frame slotRd fieldMask) = 1 ∧ row nextPc = row seq ∧
      row sel = wordFr (kind.result a (if rs2Word = 0 then immWord else rs2Word)) := by
  obtain ⟨enforced, lookups⟩ := satisfied.family
  have ranges : ∀ lookup ∈ wordRanges, lookup.Holds challenges decoded row := fun lookup member =>
    lookups lookup (by simp [familySpec, member])
      ((by decide : ∀ lookup ∈ wordRanges, lookup.channel ∈ _) lookup member)
  have bounds : ∀ lookup ∈ keyBounds, lookup.Holds challenges decoded row := fun lookup member =>
    lookups lookup (by simp [familySpec, member])
      ((by decide : ∀ lookup ∈ keyBounds, lookup.channel ∈ _) lookup member)
  have tables : ∀ lookup ∈ tableLookups, lookup.Holds challenges decoded row := fun lookup member =>
    lookups lookup (by simp [familySpec, member])
      ((by decide : ∀ lookup ∈ tableLookups, lookup.channel ∈ _) lookup member)
  simp only [keyBounds, tableLookups, List.forall_mem_append, List.forall_mem_cons] at bounds tables
  obtain ⟨kind, maskIs⟩ := legalMasks_eq legal
  have oneHot : ∀ k, (kinds.map row).getD k 0 = if k = kind.index then 1 else 0 := kinds_oneHot rfl
    (fun gate (member : gate ∈ kindBooleans kindNames kinds) =>
      enforced gate (by simp [familySpec, member]))
    (enforced ("decoded_mask_bits", decodedMaskBits kinds decodedMask)
      (by simp [familySpec, operandGates])) (by decide)
    (by cases kind <;> decide) (by rw [maskEq, maskIs])
  have relations := relations_of_gates enforced
  have selected := selected_of_oneHot relations live oneHot
  obtain ⟨a, b, out, high, ovf, residue, scaled, words⟩ := exists_words live ranges tables.1.1
  have secondOperand : b = if rs2Word = 0 then immWord else rs2Word := by
    refine wordFr_inj ?_
    rw [← words.src2, rs2Eq, immEq]
    split_ifs with rs2Zero
    · rw [rs2Zero]
      simp [wordFr]
    · rw [oneZero.resolve_left rs2Zero]
      simp [wordFr]
  have computed : out = kind.result a b := by
    cases shifts : kind.isShift with
    | true =>
      have shift : row fShift = 1 := by rw [selected.shift, shifts, bitFr_true]
      obtain ⟨powEq, copowEq⟩ := amount_eq words relations shift bounds.1 tables.1.2.1
      exact shift_result words relations selected shifts powEq copowEq
    | false =>
      have bitwise : row fBitwise = 1 := by
        rw [selected.bitwise, shifts, Bool.not_false, bitFr_true]
      exact bitwise_result words selected shifts
        (byteSum_and bytesA bytesB bytesAnd bitwise rfl rfl rfl bounds.2 tables.2
          (relations.rs1Bytes.symm.trans words.rs1)
          (relations.src2Bytes.symm.trans words.src2))
  refine ⟨kind, a, maskIs, words.rs1, selected.rd, relations.nextPcRule, ?_⟩
  rw [words.sel, computed, secondOperand]

/-- `sra` of `−100` by a register holding 35, an amount of 3. -/
private def arithmeticShift : Row :=
  Row.ofColumns
    [1, 1, 0, 0, 64, 68, 1, 5, 0, 2 ^ 32 - 100, 2 ^ 32 - 100, 1, 6, 0, 35, 35, 1, 7, 0, 0,
      2 ^ 32 - 13]
    [0, 0, 0, 0, 0, 0, 2 ^ 32 - 13, 68, 5, 6, 7, 0, 512, 0, 0, 0, 0, 0, 0, 0, 0, 0, 1, 0, 0, 1, 0,
      65535, 1, 0, 3, 8, 2 ^ 28, 1, 0, 1, -13, -104, 0, 0, 4, 0, 2 ^ 31, 32768, 156, 255, 255, 255,
      35, 0, 0, 0, 0, 0, 0, 0, 65535]
    [(4, 7)]

theorem row_computes_shiftBitwise_arithmeticShift :
    ∃ (kind : Kind) (a : Alu.Word), 512 = 2 ^ kind.index ∧ arithmeticShift vRs1 = wordFr a ∧
      arithmeticShift (frame slotRd fieldMask) = 1 ∧
      arithmeticShift nextPc = arithmeticShift seq ∧
      arithmeticShift sel = wordFr (kind.result a (if (35 : Alu.Word) = 0 then 0 else 35)) :=
  row_computes_shiftBitwise
    (show RowSatisfies ExternalChallenges.empty [] _ body _ from
      RowSatisfies.of_check (by decide +kernel) (by decide +kernel)) (by decide +kernel)
    (by decide) (by decide +kernel) (by decide +kernel) (by decide +kernel) (by decide)

end Apogee.ShiftBitwise
