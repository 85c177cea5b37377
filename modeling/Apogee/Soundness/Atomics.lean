import Apogee.Circuit.Atomics
import Apogee.Emulator.Memory
import Apogee.Soundness.Bytes
import Apogee.Soundness.Family

/-! # The atomics circuit is sound

A live row rewrites the word at `rs1`, a multiple of four below `2^32`, to the
atomic's result on the word read and `rs2`. The comparison bounds both operands
on every row, so the sum, the minimum and the bytes are all taken of words.
-/

namespace Apogee.Atomics

open Frame Gadgets Family

/-- The family's instructions. -/
inductive Kind
  | amoadd
  | amoswap
  | lr
  | sc
  | amoxor
  | amoor
  | amoand
  | amomin
  | amomax
  | amominu
  | amomaxu
deriving DecidableEq

namespace Kind

/-- The instruction's bit of the packed mask. -/
def index : Kind → ℕ
  | amoadd => 0
  | amoswap => 1
  | lr => 2
  | sc => 3
  | amoxor => 4
  | amoor => 5
  | amoand => 6
  | amomin => 7
  | amomax => 8
  | amominu => 9
  | amomaxu => 10

/-- What the instruction leaves in the word. -/
def written : Kind → Alu.Word → Alu.Word → Alu.Word
  | amoadd, old, src => old + src
  | amoswap, _, src | sc, _, src => src
  | lr, old, _ => old
  | amoxor, old, src => old ^^^ src
  | amoor, old, src => old ||| src
  | amoand, old, src => old &&& src
  | amomin, old, src => Alu.amomin old src
  | amomax, old, src => Alu.amomax old src
  | amominu, old, src => Alu.amominu old src
  | amomaxu, old, src => Alu.amomaxu old src

/-- What the instruction writes to `rd`. -/
def result : Kind → Alu.Word → Alu.Word
  | sc, _ => 0
  | _, old => old

def isBitwise : Kind → Bool
  | amoxor | amoor | amoand => true
  | _ => false

/-- Whether the instruction compares signed. -/
def comparesSigned : Kind → Bool
  | amomin | amomax => true
  | _ => false

def readsRs2 : Kind → Bool
  | lr => false
  | _ => true

end Kind

theorem legalMasks_eq {mask : ℕ} (legal : mask ∈ legalMasks) :
    ∃ kind : Kind, mask = 2 ^ kind.index := by
  simp only [legalMasks, List.mem_cons, List.not_mem_nil, or_false] at legal
  rcases legal with rfl | rfl | rfl | rfl | rfl | rfl | rfl | rfl | rfl | rfl | rfl
  exacts [⟨.amoadd, rfl⟩, ⟨.amoswap, rfl⟩, ⟨.lr, rfl⟩, ⟨.sc, rfl⟩, ⟨.amoxor, rfl⟩, ⟨.amoor, rfl⟩,
    ⟨.amoand, rfl⟩, ⟨.amomin, rfl⟩, ⟨.amomax, rfl⟩, ⟨.amominu, rfl⟩, ⟨.amomaxu, rfl⟩]

/-- The relations the family's gates impose on a row's columns. -/
structure Relations (row : Row) : Prop where
  rs1Mask : row (frame slotRs1 fieldMask) = row pcMask * (row amoadd + row amoswap + row lr +
    row sc + row amoxor + row amoor + row amoand + row amomin + row amomax + row amominu +
      row amomaxu)
  rs2Mask : row (frame slotRs2 fieldMask) = row pcMask * (row amoadd + row amoswap +
    row sc + row amoxor + row amoor + row amoand + row amomin + row amomax + row amominu +
      row amomaxu)
  ramMask : row mRam = row pcMask * (row amoadd + row amoswap + row lr +
    row sc + row amoxor + row amoor + row amoand + row amomin + row amomax + row amominu +
      row amomaxu)
  rdMask : row (frame slotRd fieldMask) = row pcMask * (row amoadd + row amoswap + row lr +
    row sc + row amoxor + row amoor + row amoand + row amomin + row amomax + row amominu +
      row amomaxu)
  ramAddr : row mRam * (row (frame slotRam fieldAddr) - ((4 : ℕ) : Fr) * row wordIndex) = 0
  addrWord : row vRs1 = ((4 : ℕ) : Fr) * row wordIndex
  addRule : row sum + 2 ^ 32 * row addWrap = row old + row src
  fBitwiseRule : row fBitwise = row amoand + row amoor + row amoxor
  oldBytes : row old = byteSum row bytesA
  srcBytes : row src = byteSum row bytesB
  loRule : row lo = row src + row lt * (row old - row src)
  ramValueRule : row new = row lr * row old + (row sc + row amoswap) * row src +
    row amoadd * row sum + row amoand * byteSum row bytesAnd +
    row amoor * (row old + row src - byteSum row bytesAnd) +
    row amoxor * (row old + row src - ((2 : ℕ) : Fr) * byteSum row bytesAnd) +
    (row amomin + row amominu) * row lo +
    (row amomax + row amomaxu) * (row old + row src - row lo)
  rdValueRule : row sel = (row amoadd + row amoswap + row lr + row amoxor + row amoor +
    row amoand + row amomin + row amomax + row amominu + row amomaxu) * row old
  nextPcRule : row nextPc = row seq

variable {challenges : ExternalChallenges} {decoded : List (List Fr)} {row : Row}

private theorem kinds_eq : kinds =
    [amoadd, amoswap, lr, sc, amoxor, amoor, amoand, amomin, amomax, amominu, amomaxu] := rfl

private theorem kinds_filter_lr : kinds.filter (· ≠ lr) =
    [amoadd, amoswap, sc, amoxor, amoor, amoand, amomin, amomax, amominu, amomaxu] := by decide

private theorem kinds_filter_sc : kinds.filter (· ≠ sc) =
    [amoadd, amoswap, lr, amoxor, amoor, amoand, amomin, amomax, amominu, amomaxu] := by decide

/-- The family's gates impose the relations. -/
theorem relations_of_gates
    (enforced : ∀ gate ∈ familySpec.enforcing, gate.2.value challenges row = 0) :
    Relations row := by
  simp only [familySpec, List.forall_mem_append] at enforced
  obtain ⟨⟨⟨⟨-, operands⟩, shared⟩, -⟩, results⟩ := enforced
  simp only [operandGates, maskRule, wordAddrRule, kinds_filter_lr, linear, quadratic,
    List.forall_mem_cons, List.not_mem_nil, IsEmpty.forall_iff, implies_true, and_true] at operands
  simp only [kinds_eq, value_quadratic, value_linear, List.map_cons, List.map_nil, List.sum_cons,
    List.sum_nil, coefficient_lit, coefficient_neg] at operands
  simp only [sharedGates, byteTerms, byteWeights, bytesA, bytesB, List.zip_cons_cons,
    List.zip_nil_right, linear, List.forall_mem_cons, List.not_mem_nil, IsEmpty.forall_iff,
    implies_true, and_true, value_linear, List.map_cons, List.map_nil, List.sum_cons,
    List.sum_nil, coefficient_lit, coefficient_neg] at shared
  simp only [resultGates, byteWeights, bytesAnd, kinds_filter_sc, List.zip_cons_cons,
    List.zip_nil_right, List.flatMap_cons, List.flatMap_nil, linear, quadratic,
    List.forall_mem_cons, List.not_mem_nil, IsEmpty.forall_iff, implies_true, and_true,
    value_linear, value_quadratic, List.cons_append, List.nil_append, List.map_cons,
    List.map_nil, List.sum_cons, List.sum_nil, coefficient_lit, coefficient_neg] at results
  push_cast at operands shared results
  obtain ⟨-, rs1Mask, rs2Mask, ramMask, rdMask, -, -, -, ramAddr, -, -, addrWord⟩ := operands
  obtain ⟨-, addRule, -, fBitwiseRule, oldBytes, srcBytes⟩ := shared
  obtain ⟨loRule, ramValueRule, rdValueRule, nextPcRule⟩ := results
  exact
    { rs1Mask := by linear_combination rs1Mask
      rs2Mask := by linear_combination rs2Mask
      ramMask := by linear_combination ramMask
      rdMask := by linear_combination rdMask
      ramAddr := by rw [mRam]; linear_combination ramAddr
      addrWord := by linear_combination addrWord
      addRule := by linear_combination -addRule
      fBitwiseRule := by linear_combination fBitwiseRule
      oldBytes := by simp only [byteSum, bytesA]; linear_combination oldBytes
      srcBytes := by simp only [byteSum, bytesB]; linear_combination srcBytes
      loRule := by linear_combination loRule
      ramValueRule := by simp only [byteSum, bytesAnd]; linear_combination ramValueRule
      rdValueRule := by linear_combination rdValueRule
      nextPcRule := by linear_combination nextPcRule }

/-- What a kind writes to the word, as a column expression. -/
def Kind.newColumn (kind : Kind) (row : Row) : Fr :=
  match kind with
  | .amoadd => row sum
  | .amoswap | .sc => row src
  | .lr => row old
  | .amoand => byteSum row bytesAnd
  | .amoor => row old + row src - byteSum row bytesAnd
  | .amoxor => row old + row src - ((2 : ℕ) : Fr) * byteSum row bytesAnd
  | .amomin | .amominu => row lo
  | .amomax | .amomaxu => row old + row src - row lo

/-- What a kind writes to `rd`, as a column expression. -/
def Kind.resultColumn (kind : Kind) (row : Row) : Fr :=
  match kind with
  | .sc => 0
  | _ => row old

/-- What the one-hot kind bits select on a live row. -/
structure Selected (kind : Kind) (row : Row) : Prop where
  rs1 : row (frame slotRs1 fieldMask) = 1
  rs2 : row (frame slotRs2 fieldMask) = bitFr kind.readsRs2
  ram : row mRam = 1
  rd : row (frame slotRd fieldMask) = 1
  bitwise : row fBitwise = bitFr kind.isBitwise
  signed : (Atomics.signed.map row).sum = ((kind.comparesSigned.toNat : ℕ) : Fr)
  new : row Atomics.new = kind.newColumn row
  sel : row Atomics.sel = kind.resultColumn row

/-- One-hot kind bits select their kind. -/
theorem selected_of_oneHot {kind : Kind} (relations : Relations row) (live : row pcMask = 1)
    (oneHot : ∀ k, (kinds.map row).getD k 0 = if k = kind.index then 1 else 0) :
    Selected kind row := by
  have amoaddBit : row amoadd = _ := oneHot 0
  have amoswapBit : row amoswap = _ := oneHot 1
  have lrBit : row lr = _ := oneHot 2
  have scBit : row sc = _ := oneHot 3
  have amoxorBit : row amoxor = _ := oneHot 4
  have amoorBit : row amoor = _ := oneHot 5
  have amoandBit : row amoand = _ := oneHot 6
  have amominBit : row amomin = _ := oneHot 7
  have amomaxBit : row amomax = _ := oneHot 8
  have amominuBit : row amominu = _ := oneHot 9
  have amomaxuBit : row amomaxu = _ := oneHot 10
  obtain ⟨rs1Mask, rs2Mask, ramMask, rdMask, -, -, -, fBitwiseRule, -, -, -, ramValueRule,
    rdValueRule, -⟩ := relations
  have signedSum : (signed.map row).sum = row amomin + (row amomax + 0) := rfl
  simp only [live, amoaddBit, amoswapBit, lrBit, scBit, amoxorBit, amoorBit, amoandBit,
    amominBit, amomaxBit, amominuBit, amomaxuBit]
    at rs1Mask rs2Mask ramMask rdMask fBitwiseRule ramValueRule rdValueRule signedSum
  cases kind <;>
    simp only [Kind.index, Nat.reduceEqDiff, OfNat.ofNat_ne_zero, OfNat.zero_ne_ofNat,
      OfNat.ofNat_ne_one, OfNat.one_ne_ofNat, one_ne_zero, zero_ne_one, ↓reduceIte, add_zero,
      zero_add, zero_mul, one_mul, mul_one]
      at rs1Mask rs2Mask ramMask rdMask fBitwiseRule ramValueRule rdValueRule signedSum <;>
    exact
      { rs1 := rs1Mask
        rs2 := rs2Mask
        ram := ramMask
        rd := rdMask
        bitwise := fBitwiseRule
        signed := signedSum.trans (by simp [Kind.comparesSigned])
        new := ramValueRule
        sel := rdValueRule }

/-- The words and bits of a live row. -/
structure Compared (signed : Bool) (row : Row) (oldWord srcWord : Alu.Word) : Prop where
  old : row Atomics.old = wordFr oldWord
  src : row Atomics.src = wordFr srcWord
  lo : row Atomics.lo = wordFr (if lessThan signed oldWord srcWord then oldWord else srcWord)

/-- The comparison makes words of both operands and picks the smaller. -/
theorem exists_compared {kind : Kind} (relations : Relations row) (selected : Selected kind row)
    (live : row pcMask = 1)
    (gates : ∀ gate ∈ (comparison theComparison).1, gate.2.value challenges row = 0)
    (lookups : ∀ lookup ∈ (comparison theComparison).2, lookup.Holds challenges decoded row) :
    ∃ oldWord srcWord : Alu.Word, Compared kind.comparesSigned row oldWord srcWord := by
  obtain ⟨oldWord, srcWord, oldEq, srcEq, -, -, ltEq⟩ := comparison_sound (c := theComparison)
    live gates lookups (Bool.toNat_le kind.comparesSigned) selected.signed
  simp only [theComparison] at oldEq srcEq ltEq
  have signedIs : decide (kind.comparesSigned.toNat = 1) = kind.comparesSigned := by
    cases kind.comparesSigned <;> rfl
  rw [signedIs, ← bitFr_eq_toNat] at ltEq
  refine ⟨oldWord, srcWord, oldEq, srcEq, ?_⟩
  rw [relations.loRule, ltEq, oldEq, srcEq]
  cases lessThan kind.comparesSigned oldWord srcWord with
  | true =>
    rw [bitFr_true, if_pos rfl]
    ring
  | false =>
    rw [bitFr_false, if_neg Bool.false_ne_true]
    ring

section Written

variable {oldWord srcWord : Alu.Word}

/-- The larger operand is the sum less the smaller. -/
private theorem max_column {smaller larger : Alu.Word} (oldEq : row old = wordFr oldWord)
    (srcEq : row src = wordFr srcWord) (loEq : row lo = wordFr smaller)
    (total : smaller.toNat + larger.toNat = oldWord.toNat + srcWord.toNat) :
    row old + row src - row lo = wordFr larger := by
  have cast := congrArg (Nat.cast (R := Fr)) total
  push_cast at cast
  rw [oldEq, srcEq, loEq, wordFr, wordFr, wordFr, wordFr]
  linear_combination -cast

/-- A live row writes the atomic's result to the word. -/
theorem new_eq {kind : Kind} {sumWord : Alu.Word} {wrap : ℕ} (relations : Relations row)
    (selected : Selected kind row) (compared : Compared kind.comparesSigned row oldWord srcWord)
    (sumEq : row sum = wordFr sumWord) (wrapBit : wrap ≤ 1) (wrapEq : row addWrap = (wrap : Fr))
    (andEq : kind.isBitwise = true → byteSum row bytesAnd = wordFr (oldWord &&& srcWord)) :
    row new = wordFr (kind.written oldWord srcWord) := by
  have column := selected.new
  cases kind with
  | amoadd =>
    have rule := relations.addRule
    rw [sumEq, wrapEq, compared.old, compared.src] at rule
    rw [column, Kind.newColumn, sumEq, add_of_wrap wrapBit rule, Kind.written]
  | amoswap | sc => exact column.trans compared.src
  | lr => exact column.trans compared.old
  | amoand => exact column.trans (andEq rfl)
  | amoor => rw [column, Kind.newColumn, compared.old, compared.src, andEq rfl, Kind.written, wordFr_or]
  | amoxor =>
    rw [column, Kind.newColumn, compared.old, compared.src, andEq rfl, Kind.written, wordFr_xor]
  | amomin => exact column.trans (compared.lo.trans (by rw [Kind.written, Alu.amomin_eq]; rfl))
  | amominu => exact column.trans (compared.lo.trans (by rw [Kind.written, Alu.amominu_eq]; rfl))
  | amomax =>
    have smaller : row lo = wordFr (Alu.amomin oldWord srcWord) := by
      rw [compared.lo, Alu.amomin_eq]
      rfl
    exact column.trans (max_column compared.old compared.src smaller
      (Alu.amomin_add_amomax oldWord srcWord))
  | amomaxu =>
    have smaller : row lo = wordFr (Alu.amominu oldWord srcWord) := by
      rw [compared.lo, Alu.amominu_eq]
      rfl
    exact column.trans (max_column compared.old compared.src smaller
      (Alu.amominu_add_amomaxu oldWord srcWord))

/-- A live row writes the word read to `rd`, or 0 for `sc.w`. -/
theorem sel_eq {kind : Kind} (selected : Selected kind row) (oldEq : row old = wordFr oldWord) :
    row sel = wordFr (kind.result oldWord) := by
  rw [selected.sel]
  cases kind with
  | sc => simp [Kind.resultColumn, Kind.result, wordFr]
  | amoadd | amoswap | lr | amoxor | amoor | amoand | amomin | amomax | amominu | amomaxu =>
    exact oldEq

end Written

/-- **Soundness.** A live row accesses the word at `rs1`, which is a multiple of four
below `2^32`, and leaves the atomic's result on the word read and `rs2` there; `rd`
gets the word read, or 0 for `sc.w`. -/
theorem row_computes_atomics {mask : ℕ} {rs2Word : Alu.Word}
    (satisfied : RowSatisfies challenges decoded row body
      [LookupChannel.range16, LookupChannel.generic])
    (live : row pcMask = 1) (legal : mask ∈ legalMasks) (maskEq : row decodedMask = (mask : Fr))
    (rs2Eq : row src = wordFr rs2Word) :
    ∃ (kind : Kind) (addr oldWord : Alu.Word), mask = 2 ^ kind.index ∧ row vRs1 = wordFr addr ∧
      addr.toNat % 4 = 0 ∧ row mRam = 1 ∧ row (frame slotRam fieldAddr) = wordFr addr ∧
      row old = wordFr oldWord ∧ row new = wordFr (kind.written oldWord rs2Word) ∧
      row (frame slotRd fieldMask) = 1 ∧ row sel = wordFr (kind.result oldWord) ∧
      row nextPc = row seq := by
  obtain ⟨enforced, lookups⟩ := satisfied.family
  have compares : ∀ lookup ∈ (comparison theComparison).2, lookup.Holds challenges decoded row :=
    fun lookup member => lookups lookup (by simp [familySpec, member])
      ((by decide : ∀ lookup ∈ (comparison theComparison).2, lookup.channel ∈ _) lookup member)
  have ranges : ∀ lookup ∈ wordRanges, lookup.Holds challenges decoded row := fun lookup member =>
    lookups lookup (by simp [familySpec, member])
      ((by decide : ∀ lookup ∈ wordRanges, lookup.channel ∈ _) lookup member)
  have bounds : ∀ lookup ∈ byteKeyBounds bytesA fBitwise, lookup.Holds challenges decoded row :=
    fun lookup member => lookups lookup (by simp [familySpec, member])
      ((by decide : ∀ lookup ∈ byteKeyBounds bytesA fBitwise, lookup.channel ∈ _) lookup member)
  have tables : ∀ lookup ∈ andBytes bytesA bytesB bytesAnd fBitwise,
      lookup.Holds challenges decoded row :=
    fun lookup member => lookups lookup (by simp [familySpec, member])
      ((by decide : ∀ lookup ∈ andBytes bytesA bytesB bytesAnd fBitwise, lookup.channel ∈ _)
        lookup member)
  obtain ⟨kind, maskIs⟩ := legalMasks_eq legal
  have oneHot : ∀ k, (kinds.map row).getD k 0 = if k = kind.index then 1 else 0 := kinds_oneHot rfl
    (fun gate (member : gate ∈ kindBooleans kindNames kinds) =>
      enforced gate (by simp [familySpec, member]))
    (enforced ("decoded_mask_bits", decodedMaskBits kinds decodedMask)
      (by simp [familySpec, operandGates])) (by decide)
    (by cases kind <;> decide) (by rw [maskEq, maskIs])
  have relations := relations_of_gates enforced
  have selected := selected_of_oneHot relations live oneHot
  obtain ⟨oldWord, srcWord, compared⟩ := exists_compared relations selected live
    (fun gate member => enforced gate (by simp [familySpec, member])) compares
  obtain rfl : srcWord = rs2Word := wordFr_inj (compared.src.symm.trans rs2Eq)
  simp only [wordRanges, List.forall_mem_append, List.forall_mem_cons, List.not_mem_nil,
    IsEmpty.forall_iff, implies_true, and_true] at ranges
  obtain ⟨index, indexSmall, indexEq⟩ := wordIndex_lt live ranges.1.1 ranges.1.2
  obtain ⟨sumWord, sumEq, -⟩ := range32_word live ranges.2
  obtain ⟨wrap, wrapBit, wrapEq⟩ := bit_of_booleanity
    (enforced ("add_wrap_boolean", booleanity addWrap) (by simp [familySpec, sharedGates]))
  obtain ⟨addr, addrEq⟩ := exists_word (4 * index) (by omega)
  have quadruple : wordFr addr = ((4 : ℕ) : Fr) * row wordIndex := by
    rw [wordFr, addrEq, indexEq, Nat.cast_mul]
  have andEq (bitwise : kind.isBitwise = true) :
      byteSum row bytesAnd = wordFr (oldWord &&& srcWord) :=
    byteSum_and bytesA bytesB bytesAnd (selected.bitwise.trans (by rw [bitwise, bitFr_true]))
      rfl rfl rfl bounds tables (relations.oldBytes.symm.trans compared.old)
      (relations.srcBytes.symm.trans compared.src)
  have address := relations.ramAddr
  rw [selected.ram, one_mul, ← quadruple] at address
  exact ⟨kind, addr, oldWord, maskIs, relations.addrWord.trans quadruple.symm, by omega,
    selected.ram, sub_eq_zero.mp address, compared.old,
    new_eq relations selected compared sumEq wrapBit wrapEq andEq, selected.rd,
    sel_eq selected compared.old, relations.nextPcRule⟩

/-- `amomax.w` of `−5` in the word at 64 and 3. -/
private def signedMaximum : Row :=
  Row.ofColumns
    [1, 1, 0, 0, 32, 36, 1, 5, 0, 64, 64, 1, 6, 0, 3, 3, 1, 64, 0, 2 ^ 32 - 5, 3, 1, 7, 0, 0,
      2 ^ 32 - 5]
    [0, 0, 0, 0, 0, 0, 0, 2 ^ 32 - 5, 36, 5, 6, 7, 256, 0, 0, 0, 0, 0, 0, 0, 0, 1, 0, 0, 16, 0,
      2 ^ 32 - 2, 65535, 0, 0, 251, 255, 255, 255, 3, 0, 0, 0, 0, 0, 0, 0, 65535, 1, 0, 0, 1,
      2 ^ 32 - 8, 65535, 2 ^ 32 - 5]
    [(5, 7)]

theorem row_computes_atomics_signedMaximum :
    ∃ (kind : Kind) (addr oldWord : Alu.Word), 256 = 2 ^ kind.index ∧
      signedMaximum vRs1 = wordFr addr ∧ addr.toNat % 4 = 0 ∧ signedMaximum mRam = 1 ∧
      signedMaximum (frame slotRam fieldAddr) = wordFr addr ∧
      signedMaximum old = wordFr oldWord ∧
      signedMaximum new = wordFr (kind.written oldWord 3) ∧
      signedMaximum (frame slotRd fieldMask) = 1 ∧
      signedMaximum sel = wordFr (kind.result oldWord) ∧
      signedMaximum nextPc = signedMaximum seq :=
  row_computes_atomics
    (show RowSatisfies ExternalChallenges.empty [] _ body _ from
      RowSatisfies.of_check (by decide +kernel) (by decide +kernel)) (by decide +kernel)
    (by decide) (by decide +kernel) (by decide +kernel)

end Apogee.Atomics
