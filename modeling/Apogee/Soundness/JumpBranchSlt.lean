import Apogee.Circuit.JumpBranchSlt
import Apogee.Emulator.Alu
import Apogee.Soundness.Family

/-! # The jump, branch and set-less-than circuit is sound

A live row writes the machine's next pc and link or comparison bit, and never an
odd next pc. The comparison decides one order bit, the zero test one equality
bit, and the next pc is the one word that the selected sum reduces to.
-/

namespace Apogee.JumpBranchSlt

open Frame Family Gadgets

/-- The family's instructions. -/
inductive Kind
  | slti
  | sltiu
  | slt
  | sltu
  | beq
  | bne
  | blt
  | bge
  | bltu
  | bgeu
  | jalr
  | jal
deriving DecidableEq

namespace Kind

/-- The instruction's bit of the packed mask. -/
def index : Kind → ℕ
  | slti => 0
  | sltiu => 1
  | slt => 2
  | sltu => 3
  | beq => 4
  | bne => 5
  | blt => 6
  | bge => 7
  | bltu => 8
  | bgeu => 9
  | jalr => 10
  | jal => 11

/-- Whether a branch is taken. -/
def taken : Kind → Alu.Word → Alu.Word → Bool
  | beq, a, b => a == b
  | bne, a, b => a != b
  | blt, a, b => a.slt b
  | bge, a, b => b.sle a
  | bltu, a, b => a.ult b
  | bgeu, a, b => b.ule a
  | _, _, _ => false

/-- The pc after the instruction. -/
def nextPc (kind : Kind) (pc seq imm a b : Alu.Word) : Alu.Word :=
  match kind with
  | jal => pc + imm
  | jalr => Alu.clearLow (a + imm)
  | _ => if kind.taken a b then pc + imm else seq

/-- What the instruction writes to `rd`, zero for a branch. -/
def rdValue (kind : Kind) (seq imm a b : Alu.Word) : Alu.Word :=
  match kind with
  | slti => Alu.slt a imm
  | sltiu => Alu.sltu a imm
  | slt => Alu.slt a b
  | sltu => Alu.sltu a b
  | jalr | jal => seq
  | _ => 0

/-- Whether the instruction writes `rd`. -/
def writesRd : Kind → Bool
  | slti | sltiu | slt | sltu | jalr | jal => true
  | _ => false

/-- Whether the instruction compares with its immediate. -/
def comparesImm : Kind → Bool
  | slti | sltiu => true
  | _ => false

/-- Whether the instruction reads `rs2`. -/
def readsRs2 : Kind → Bool
  | slt | sltu | beq | bne | blt | bge | bltu | bgeu => true
  | _ => false

/-- Whether the instruction reads `rs1`. -/
def readsRs1 : Kind → Bool
  | jal => false
  | _ => true

/-- Whether the instruction's comparison is signed. -/
def comparesSigned : Kind → Bool
  | slti | slt | blt | bge => true
  | _ => false

end Kind

theorem legalMasks_eq {mask : ℕ} (legal : mask ∈ legalMasks) : ∃ kind : Kind, mask = 2 ^ kind.index := by
  simp only [legalMasks, List.mem_cons, List.not_mem_nil, or_false] at legal
  rcases legal with rfl | rfl | rfl | rfl | rfl | rfl | rfl | rfl | rfl | rfl | rfl | rfl
  exacts [⟨.slti, rfl⟩, ⟨.sltiu, rfl⟩, ⟨.slt, rfl⟩, ⟨.sltu, rfl⟩, ⟨.beq, rfl⟩, ⟨.bne, rfl⟩,
    ⟨.blt, rfl⟩, ⟨.bge, rfl⟩, ⟨.bltu, rfl⟩, ⟨.bgeu, rfl⟩, ⟨.jalr, rfl⟩, ⟨.jal, rfl⟩]

/-- The relations the family's gates impose on a row's columns. -/
structure Relations (row : Row) : Prop where
  rs1Masked : row vRs1 = row (frame slotRs1 fieldMask) * row vRs1
  rs2Masked : row vRs2 = row (frame slotRs2 fieldMask) * row vRs2
  rs1Mask : row (frame slotRs1 fieldMask) = row pcMask * (row slti + row sltiu + row slt +
    row sltu + row beq + row bne + row blt + row bge + row bltu + row bgeu + row jalr)
  rs2Mask : row (frame slotRs2 fieldMask) = row pcMask * (row slt + row sltu + row beq +
    row bne + row blt + row bge + row bltu + row bgeu)
  rdMask : row (frame slotRd fieldMask) = row pcMask * (row slti + row sltiu + row slt +
    row sltu + row jalr + row jal)
  cmpRhsRule : row cmpRhs = row vRs2 + (row slti + row sltiu) * row imm
  eqRule : row eq = if row vRs1 - row cmpRhs = 0 then row pcMask else 0
  takenRule : row taken = (row bne + row bge + row bgeu) + (row beq - row bne) * row eq +
    (row blt + row bltu - row bge - row bgeu) * row lt
  nextPcRule : row nextPc + 2 ^ 32 * row pcWrap =
    (1 - row taken - row jal - row jalr) * row seq +
      (row taken + row jal) * (row pc + row imm) + row jalr * (row vRs1 + row imm - row jalrDrop)
  rdValueRule : row sel = (row jal + row jalr) * row seq +
    (row slti + row sltiu + row slt + row sltu) * row lt

variable {challenges : ExternalChallenges} {decoded : List (List Fr)} {row : Row}

/-- The family's gates impose the relations. -/
theorem relations_of_gates
    (enforced : ∀ gate ∈ familySpec.enforcing, gate.2.value challenges row = 0) :
    Relations row := by
  have eqTest : ∀ gate ∈ isZero [(lit 1, vRs1), (neg 1, cmpRhs)] eqInv eq pcMask,
      gate.value challenges row = 0 := by
    intro gate member
    simp only [isZero, List.mem_cons, List.not_mem_nil, or_false] at member
    rcases member with rfl | rfl
    · exact enforced ("eq_inverse", _) (by simp [familySpec, arithmeticGates, isZero])
    · exact enforced ("eq_at_nonzero", _) (by simp [familySpec, arithmeticGates, isZero])
  have eqValue := isZero_indicator eqTest
  have gates : ∀ gate ∈ arithmeticGates, gate.2.value challenges row = 0 :=
    fun gate member => enforced gate (List.mem_append_right _ member)
  have rules : ∀ gate ∈ operandGates, gate.2.value challenges row = 0 :=
    fun gate member => enforced gate (List.mem_append_left _ (List.mem_append_right _ member))
  simp only [arithmeticGates, comparison, isZero, slts, List.forall_mem_cons, List.not_mem_nil, IsEmpty.forall_iff, implies_true, and_true,
    List.zip_cons_cons, List.zip_nil_right, quadratic, value_quadratic, List.map_cons,
    List.map_nil, List.cons_append, List.nil_append, List.sum_cons, List.sum_nil,
    coefficient_lit, coefficient_neg] at gates eqValue
  simp only [operandGates, maskRule, valueMasked, rs1Uses, rs2Uses, rdUses, slts, branches,
    List.forall_mem_cons, List.not_mem_nil, IsEmpty.forall_iff, implies_true, and_true,
    quadratic, value_quadratic, List.map_cons, List.map_nil, List.cons_append, List.nil_append,
    List.sum_cons, List.sum_nil, coefficient_lit, coefficient_neg] at rules
  push_cast at gates rules eqValue
  have difference : 1 * row vRs1 + (-1 * row cmpRhs + 0) = row vRs1 - row cmpRhs := by ring
  rw [difference] at eqValue
  obtain ⟨cmpRhsRule, -, -, -, -, takenRule, -, -, -, nextPcRule, rdValueRule⟩ := gates
  obtain ⟨-, rs1Mask, rs2Mask, rdMask, -, -, -, rs1Masked, rs2Masked⟩ := rules
  exact
    { rs1Masked := by rw [vRs1]; linear_combination rs1Masked
      rs2Masked := by rw [vRs2]; linear_combination rs2Masked
      rs1Mask := by linear_combination rs1Mask
      rs2Mask := by linear_combination rs2Mask
      rdMask := by linear_combination rdMask
      cmpRhsRule := by linear_combination cmpRhsRule
      eqRule := eqValue
      takenRule := by linear_combination takenRule
      nextPcRule := by linear_combination nextPcRule
      rdValueRule := by linear_combination rdValueRule }

/-- The branch condition, read off the order and equality columns. -/
def Kind.takenColumn (kind : Kind) (row : Row) : Fr :=
  match kind with
  | .beq => row JumpBranchSlt.eq
  | .bne => 1 - row JumpBranchSlt.eq
  | .blt | .bltu => row lt
  | .bge | .bgeu => 1 - row lt
  | _ => 0

/-- The sum the next pc is reduced from. -/
def Kind.nextPcSum (kind : Kind) (row : Row) : Fr :=
  match kind with
  | .jal => row pc + row imm
  | .jalr => row vRs1 + row imm - row jalrDrop
  | _ => (1 - row JumpBranchSlt.taken) * row seq +
      row JumpBranchSlt.taken * (row pc + row imm)

/-- The column `rd`'s value is read from. -/
def Kind.rdColumn (kind : Kind) (row : Row) : Fr :=
  match kind with
  | .jal | .jalr => row seq
  | .slti | .sltiu | .slt | .sltu => row lt
  | _ => 0

/-- What the one-hot kind bits select on a live row, given its order and equality
bits. -/
structure Selected (kind : Kind) (row : Row) : Prop where
  rs1 : row (frame slotRs1 fieldMask) = bitFr kind.readsRs1
  rs2 : row (frame slotRs2 fieldMask) = bitFr kind.readsRs2
  rd : row (frame slotRd fieldMask) = bitFr kind.writesRd
  cmpRhs : row JumpBranchSlt.cmpRhs = row vRs2 + bitFr kind.comparesImm * row imm
  signed : (JumpBranchSlt.signed.map row).sum = (kind.comparesSigned.toNat : Fr)
  taken : row JumpBranchSlt.taken = kind.takenColumn row
  nextPc : row JumpBranchSlt.nextPc + 2 ^ 32 * row pcWrap = kind.nextPcSum row
  sel : row JumpBranchSlt.sel = kind.rdColumn row

/-- One-hot kind bits select their kind. -/
theorem selected_of_oneHot {kind : Kind} (relations : Relations row) (live : row pcMask = 1)
    (oneHot : ∀ k, (kinds.map row).getD k 0 = if k = kind.index then 1 else 0) :
    Selected kind row := by
  have sltiBit : row slti = _ := oneHot 0
  have sltiuBit : row sltiu = _ := oneHot 1
  have sltBit : row slt = _ := oneHot 2
  have sltuBit : row sltu = _ := oneHot 3
  have beqBit : row beq = _ := oneHot 4
  have bneBit : row bne = _ := oneHot 5
  have bltBit : row blt = _ := oneHot 6
  have bgeBit : row bge = _ := oneHot 7
  have bltuBit : row bltu = _ := oneHot 8
  have bgeuBit : row bgeu = _ := oneHot 9
  have jalrBit : row jalr = _ := oneHot 10
  have jalBit : row jal = _ := oneHot 11
  have rs1Mask := relations.rs1Mask
  have rs2Mask := relations.rs2Mask
  have rdMask := relations.rdMask
  have cmpRhsRule := relations.cmpRhsRule
  have takenRule := relations.takenRule
  have nextPcRule := relations.nextPcRule
  have rdValueRule := relations.rdValueRule
  have signedSum : (signed.map row).sum = row slti + row slt + row blt + row bge := by
    simp [signed, add_assoc]
  simp only [live, sltiBit, sltiuBit, sltBit, sltuBit, beqBit, bneBit, bltBit, bgeBit, bltuBit,
    bgeuBit, jalrBit, jalBit]
    at rs1Mask rs2Mask rdMask cmpRhsRule takenRule nextPcRule rdValueRule signedSum
  cases kind <;>
    simp only [Kind.index, Nat.reduceEqDiff, OfNat.ofNat_ne_zero, OfNat.zero_ne_ofNat,
      OfNat.ofNat_ne_one, OfNat.one_ne_ofNat, one_ne_zero, zero_ne_one, ↓reduceIte, add_zero,
      zero_add, zero_mul, one_mul, mul_zero, mul_one, sub_zero, zero_sub, sub_self]
      at rs1Mask rs2Mask rdMask cmpRhsRule takenRule nextPcRule rdValueRule signedSum <;>
    constructor <;>
    simp only [Kind.readsRs1, Kind.readsRs2, Kind.writesRd, Kind.comparesImm, Kind.comparesSigned,
      Kind.takenColumn, Kind.nextPcSum, Kind.rdColumn, bitFr_true, bitFr_false, Bool.toNat_true, Bool.toNat_false, Nat.cast_one,
      Nat.cast_zero, zero_mul, one_mul, add_zero, rs1Mask, rs2Mask, rdMask, cmpRhsRule, takenRule,
      nextPcRule, rdValueRule, signedSum] <;>
    ring

/-- The comparison's bits on a live row: its operands are words, `rs2` is one, and
the order and equality bits compare them. -/
structure Compared (kind : Kind) (row : Row) (immWord a b : Alu.Word) : Prop where
  rs1 : row vRs1 = wordFr a
  rs2 : row vRs2 = wordFr b
  lt : row JumpBranchSlt.lt = bitFr (lessThan kind.comparesSigned a
    (if kind.comparesImm then immWord else b))
  eq : row JumpBranchSlt.eq = bitFr (a == if kind.comparesImm then immWord else b)

/-- The comparison's gates and obligations on a live row. -/
theorem exists_compared {kind : Kind} {immWord : Alu.Word} (relations : Relations row)
    (selected : Selected kind row) (live : row pcMask = 1) (immEq : row imm = wordFr immWord)
    (gates : ∀ gate ∈ (comparison theComparison).1, gate.2.value challenges row = 0)
    (lookups : ∀ lookup ∈ (comparison theComparison).2, lookup.Holds challenges decoded row) :
    ∃ a b : Alu.Word, Compared kind row immWord a b := by
  obtain ⟨a, c, rs1Eq, cmpRhsEq, -, -, ltEq⟩ := comparison_sound (c := theComparison) live gates
    lookups (Bool.toNat_le kind.comparesSigned) selected.signed
  simp only [theComparison] at rs1Eq cmpRhsEq ltEq
  have signedIs : decide (kind.comparesSigned.toNat = 1) = kind.comparesSigned := by
    cases kind.comparesSigned <;> rfl
  rw [signedIs, ← bitFr_eq_toNat] at ltEq
  have eqEq : row eq = bitFr (a == c) := by
    rw [relations.eqRule, live, rs1Eq, cmpRhsEq]
    by_cases same : a = c
    · simp [same, bitFr]
    · have differ : ¬wordFr a - wordFr c = 0 := fun zero => same (wordFr_inj (sub_eq_zero.mp zero))
      simp [same, differ, bitFr]
  by_cases usesImm : kind.comparesImm = true
  · have absent : row vRs2 = 0 := by
      have rs2 := selected.rs2
      have masked := relations.rs2Masked
      have unused : kind.readsRs2 = false := by cases kind <;> simp_all [Kind.comparesImm, Kind.readsRs2]
      rw [rs2, unused] at masked
      simpa [bitFr] using masked
    have isImm : c = immWord := by
      refine wordFr_inj ?_
      rw [← cmpRhsEq, selected.cmpRhs, absent, usesImm, immEq]
      simp [bitFr]
    exact ⟨a, 0, rs1Eq, by rw [absent]; simp [wordFr], by rw [if_pos usesImm, ltEq, isImm],
      by rw [if_pos usesImm, eqEq, isImm]⟩
  · have isRs2 : row vRs2 = wordFr c := by
      rw [← cmpRhsEq, selected.cmpRhs]
      simp [bitFr, usesImm]
    exact ⟨a, c, rs1Eq, isRs2, by rw [if_neg usesImm, ltEq], by rw [if_neg usesImm, eqEq]⟩

/-- The taken column of a live row is the branch's condition. -/
theorem taken_eq {kind : Kind} {immWord a b : Alu.Word} (selected : Selected kind row)
    (compared : Compared kind row immWord a b) : row taken = bitFr (kind.taken a b) := by
  have lt := compared.lt
  have eq := compared.eq
  rw [selected.taken]
  cases kind <;>
    simp only [Kind.comparesImm, Kind.comparesSigned, lessThan, Bool.false_eq_true,
      ↓reduceIte] at lt eq <;>
    simp only [Kind.takenColumn, lt, eq, Kind.taken, one_sub_bitFr, bitFr_false,
      BitVec.sle_eq_not_slt, BitVec.ule_eq_not_ult]
  case bne => rfl

/-- The written column of a live row is what the instruction writes. -/
theorem sel_eq {kind : Kind} {seqWord immWord a b : Alu.Word} (selected : Selected kind row)
    (compared : Compared kind row immWord a b) (seqEq : row seq = wordFr seqWord) :
    row sel = wordFr (kind.rdValue seqWord immWord a b) := by
  have cond (condition : Bool) : bitFr condition = wordFr (Alu.ofCond condition) := by
    cases condition <;> simp [bitFr, Alu.ofCond, wordFr]
  have zeroWord : (0 : Fr) = wordFr 0 := by simp [wordFr]
  have lt := compared.lt
  rw [selected.sel]
  cases kind <;>
    simp only [Kind.comparesImm, Kind.comparesSigned, lessThan, Bool.false_eq_true,
      ↓reduceIte] at lt <;>
    simp only [Kind.rdColumn, lt, seqEq, Kind.rdValue, Alu.slt, Alu.sltu, cond, zeroWord]

/-- The range and halved obligations make the next pc an even word. -/
theorem exists_nextPc (live : row pcMask = 1)
    (range : ∀ lookup ∈ range32 "next_pc" pcMask nextPc nextPcHi,
      lookup.Holds challenges decoded row)
    (even : (range16 "next_pc_even" (lowHalfHalved nextPc nextPcHi)).Holds challenges decoded row) :
    ∃ next : Alu.Word, row nextPc = wordFr next ∧ next.toNat % 2 = 0 := by
  obtain ⟨next, nextEq, highEq⟩ := range32_word live range
  obtain ⟨half, small, halfEq⟩ := range_bound live even
  refine ⟨next, nextEq, ?_⟩
  have bound := next.isLt
  have high : highHalf next < 2 ^ 16 := by unfold highHalf; omega
  simp only [lowHalfHalved, linear, value_linear, List.map_cons, List.map_nil, List.sum_cons,
    List.sum_nil, coefficient_literal, coefficient_neg, coefficient_lit, nextEq, highEq] at halfEq
  push_cast at halfEq
  have two : (2 : Fr) ≠ 0 := by decide +kernel
  have doubled : next.toNat = 2 * half + 2 ^ 16 * highHalf next := by
    refine fr_natCast_inj (by omega) (by omega) ?_
    have cleared := congrArg (fun value => 2 * value) halfEq
    simp only [mul_add, ← mul_assoc, mul_inv_cancel₀ two] at cleared
    rw [wordFr] at cleared
    push_cast
    linear_combination cleared
  omega

/-- The next pc column of a live row is the machine's next pc. -/
theorem nextPc_eq {kind : Kind} {pcWord seqWord immWord a b next : Alu.Word} {wrap drop : ℕ}
    (selected : Selected kind row) (compared : Compared kind row immWord a b)
    (pcEq : row pc = wordFr pcWord) (seqEq : row seq = wordFr seqWord)
    (immEq : row imm = wordFr immWord) (nextEq : row nextPc = wordFr next)
    (even : next.toNat % 2 = 0) (wrapEq : row pcWrap = (wrap : Fr)) (wrapBit : wrap ≤ 1)
    (dropEq : row jalrDrop = (drop : Fr)) (dropBit : drop ≤ 1) :
    next = kind.nextPc pcWord seqWord immWord a b := by
  have rule := selected.nextPc
  have takenEq := taken_eq selected compared
  have baseEq := compared.rs1
  have branch (selects : wordFr next + 2 ^ 32 * (wrap : Fr) =
      (1 - bitFr (kind.taken a b)) * wordFr seqWord +
        bitFr (kind.taken a b) * (wordFr pcWord + wordFr immWord)) :
      next = if kind.taken a b then pcWord + immWord else seqWord := by
    cases condition : kind.taken a b with
    | true =>
      refine add_of_wrap wrapBit ?_
      rw [selects, condition]
      simp [bitFr]
    | false =>
      have small := seqWord.isLt
      refine BitVec.eq_of_toNat_eq ((toNat_of_wrap seqWord.toNat wrapBit
        (by omega) ?_).trans (Nat.mod_eq_of_lt small))
      rw [selects, condition]
      simp [bitFr, wordFr]
  cases kind <;> simp only [Kind.nextPcSum, takenEq, nextEq, wrapEq, pcEq, seqEq, immEq, dropEq,
    baseEq] at rule
  case jal => exact add_of_wrap wrapBit rule
  case jalr =>
      have baseSmall := a.isLt
      have immSmall := immWord.isLt
      have nextSmall := next.isLt
      refine BitVec.eq_of_toNat_eq ?_
      rw [Kind.nextPc, Alu.clearLow_toNat, BitVec.toNat_add]
      -- Moving the dropped bit to the left keeps both sides natural.
      have total : next.toNat + drop + 2 ^ 32 * wrap = a.toNat + immWord.toNat := by
        refine fr_natCast_inj (by omega) (by omega) ?_
        rw [wordFr, wordFr, wordFr] at rule
        push_cast
        linear_combination rule
      omega
  all_goals exact branch rule

/-- **Soundness.** A live row whose decoded pc, fall-through and immediate are
words writes exactly the machine's next pc and `rd` value, and its next pc is
even, so it is not the halting sentinel. -/
theorem row_computes_jumpBranchSlt {mask : ℕ} {pcWord seqWord immWord : Alu.Word}
    (satisfied : RowSatisfies challenges decoded row body
      [LookupChannel.range16, LookupChannel.generic])
    (live : row pcMask = 1) (legal : mask ∈ legalMasks) (maskEq : row decodedMask = (mask : Fr))
    (pcEq : row pc = wordFr pcWord) (seqEq : row seq = wordFr seqWord)
    (immEq : row imm = wordFr immWord) :
    ∃ (kind : Kind) (a b next : Alu.Word), mask = 2 ^ kind.index ∧ row vRs1 = wordFr a ∧
      row vRs2 = wordFr b ∧ next = kind.nextPc pcWord seqWord immWord a b ∧
      row nextPc = wordFr next ∧ next.toNat % 2 = 0 ∧ row nextPc ≠ (Clock.haltPc : Fr) ∧
      row (frame slotRd fieldMask) = bitFr kind.writesRd ∧
      row sel = wordFr (kind.rdValue seqWord immWord a b) := by
  obtain ⟨enforced, lookups⟩ := satisfied.family
  obtain ⟨kind, maskIs⟩ := legalMasks_eq legal
  have oneHot : ∀ k, (kinds.map row).getD k 0 = if k = kind.index then 1 else 0 := kinds_oneHot rfl
    (fun gate (member : gate ∈ kindBooleans kindNames kinds) =>
      enforced gate (by simp [familySpec, member]))
    (enforced ("decoded_mask_bits", decodedMaskBits kinds decodedMask)
      (by simp [familySpec, operandGates])) (by decide)
    (by cases kind <;> decide) (by rw [maskEq, maskIs])
  have relations := relations_of_gates enforced
  have selected := selected_of_oneHot relations live oneHot
  obtain ⟨a, b, compared⟩ := exists_compared relations selected live immEq
    (fun gate member => enforced gate (by simp [familySpec, arithmeticGates, member]))
    (fun lookup member => lookups lookup (by simp [familySpec, member]) (by
      simp only [comparison, range32, List.mem_append, List.mem_cons, List.not_mem_nil,
        or_false] at member
      rcases member with ((((rfl | rfl) | rfl | rfl) | rfl | rfl) | rfl | rfl) <;> decide))
  obtain ⟨next, nextEq, even⟩ := exists_nextPc live
    (fun lookup member => lookups lookup (by simp [familySpec, member]) (by
      simp only [range32, List.mem_cons, List.not_mem_nil, or_false] at member
      rcases member with rfl | rfl <;> decide))
    (lookups _ (by simp [familySpec]) (by decide))
  obtain ⟨wrap, wrapBit, wrapEq⟩ :=
    bit_of_booleanity (enforced ("pc_wrap_boolean", booleanity pcWrap)
      (by simp [familySpec, arithmeticGates]))
  obtain ⟨drop, dropBit, dropEq⟩ :=
    bit_of_booleanity (enforced ("jalr_drop_boolean", booleanity jalrDrop)
      (by simp [familySpec, arithmeticGates]))
  refine ⟨kind, a, b, next, maskIs, compared.rs1, compared.rs2,
    nextPc_eq selected compared pcEq seqEq immEq nextEq even wrapEq wrapBit dropEq dropBit,
    nextEq, even, ?_, selected.rd, sel_eq selected compared seqEq⟩
  intro halts
  have bound := next.isLt
  have sentinel : next.toNat = Clock.haltPc :=
    fr_natCast_inj (by omega) (by norm_num [Clock.haltPc]) (nextEq.symm.trans halts)
  rw [Clock.haltPc] at sentinel
  omega

/-- `blt` of `−1` and `1` branches back by 16. -/
private def signedBranch : Row :=
  Row.ofColumns
    [1, 1, 0, 0, 64, 48, 1, 5, 0, 2 ^ 32 - 1, 2 ^ 32 - 1, 1, 6, 0, 1, 1, 0, 0, 0, 0, 0]
    [0, 0, 0, 0, 0, 0, 0, 68, 5, 6, 0, 2 ^ 32 - 16, 64, 0, 0, 0, 0, 0, 0, 1, 0, 0, 0, 0, 0, 1,
      65535, 1, 0, 0, 1, 2 ^ 32 - 2, 65535, 0, 0, 1, 0, 1, 0, 0]
    [(34, 2 ^ 32 - 2)]

theorem row_computes_jumpBranchSlt_signedBranch :
    ∃ (kind : Kind) (a b next : Alu.Word), 64 = 2 ^ kind.index ∧ signedBranch vRs1 = wordFr a ∧
      signedBranch vRs2 = wordFr b ∧ next = kind.nextPc 64 68 (2 ^ 32 - 16) a b ∧
      signedBranch nextPc = wordFr next ∧ next.toNat % 2 = 0 ∧
      signedBranch nextPc ≠ (Clock.haltPc : Fr) ∧
      signedBranch (frame slotRd fieldMask) = bitFr kind.writesRd ∧
      signedBranch sel = wordFr (kind.rdValue 68 (2 ^ 32 - 16) a b) :=
  row_computes_jumpBranchSlt
    (show RowSatisfies ExternalChallenges.empty [] _ body _ from
      RowSatisfies.of_check (by decide +kernel) (by decide +kernel)) (by decide +kernel)
    (by decide) (by decide +kernel) (by decide +kernel) (by decide +kernel) (by decide +kernel)

end Apogee.JumpBranchSlt
