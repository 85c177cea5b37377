import Apogee.Circuit.MemSubword
import Apogee.Emulator.Memory
import Apogee.Soundness.Family

/-! # The subword load and store circuit is sound

A live row's word splits as `high·2^(s+k) + sub·2^s + low` with each part inside its
own bits, so the split is the word's own: `sub` is the addressed field. A load
extends it; a store replaces it by the low bits of `rs2`.
-/

namespace Apogee.MemSubword

open Frame Family

/-- The family's instructions. -/
inductive Kind
  | lb
  | lh
  | lbu
  | lhu
  | sb
  | sh
deriving DecidableEq

namespace Kind

/-- The instruction's bit of the packed mask. -/
def index : Kind → ℕ
  | lb => 0
  | lh => 1
  | lbu => 2
  | lhu => 3
  | sb => 4
  | sh => 5

/-- How many bytes the instruction accesses. -/
def width : Kind → ℕ
  | lb | lbu | sb => 1
  | lh | lhu | sh => 2

def isLoad : Kind → Bool
  | lb | lh | lbu | lhu => true
  | sb | sh => false

/-- Whether the instruction extends its field's sign. -/
def isSigned : Kind → Bool
  | lb | lh => true
  | _ => false

theorem width_cases (kind : Kind) : kind.width = 1 ∨ kind.width = 2 := by
  cases kind <;> decide

theorem width_le (kind : Kind) : 8 * kind.width ≤ 32 := by
  rcases kind.width_cases with byte | half <;> omega

end Kind

theorem legalMasks_eq {mask : ℕ} (legal : mask ∈ legalMasks) :
    ∃ kind : Kind, mask = 2 ^ kind.index := by
  simp only [legalMasks, List.mem_cons, List.not_mem_nil, or_false] at legal
  rcases legal with rfl | rfl | rfl | rfl | rfl | rfl
  exacts [⟨.lb, rfl⟩, ⟨.lh, rfl⟩, ⟨.lbu, rfl⟩, ⟨.lhu, rfl⟩, ⟨.sb, rfl⟩, ⟨.sh, rfl⟩]

/-- The relations the family's gates impose on a row's columns. -/
structure Relations (row : Row) : Prop where
  rs1Mask : row (frame slotRs1 fieldMask) =
    row pcMask * (row lb + row lh + row lbu + row lhu + row sb + row sh)
  rs2Mask : row (frame slotRs2 fieldMask) = row pcMask * (row sb + row sh)
  loadMask : row (frame slotLoad fieldMask) =
    row pcMask * (row lb + row lh + row lbu + row lhu)
  ramMask : row mRam = row pcMask * (row sb + row sh)
  rdMask : row (frame slotRd fieldMask) = row pcMask * (row lb + row lh + row lbu + row lhu)
  loadAddr : row (frame slotLoad fieldMask) *
    (row (frame slotLoad fieldAddr) - ((4 : ℕ) : Fr) * row wordIndex) = 0
  ramAddr : row mRam * (row (frame slotRam fieldAddr) - ((4 : ℕ) : Fr) * row wordIndex) = 0
  addrSplit : row vRs1 + row imm = ((2 ^ 32 : ℕ) : Fr) * row wrap +
    ((4 : ℕ) : Fr) * row wordIndex + ((2 : ℕ) : Fr) * row bit1 + row bit0
  halfAligned : (row lh + row lhu + row sh) * row bit0 = 0
  wordRule : row word = (row lb + row lh + row lbu + row lhu) * row vLoad +
    (row sb + row sh) * row vRam
  pRamRule : row pRam = row mRam * row p
  seRule : row se = (row lb + row lh) * row sign
  pRule : row p = row pcMask + 255 * row bit0 + 65535 * row bit1 +
    16711425 * (row bit0 * row bit1)
  pcopowRule : row p * row pcopow = 2 ^ 31 * row pcMask
  wphRule : row wph = 2 ^ 15 * row p - (2 ^ 15 - 2 ^ 7) * ((row lb + row lbu + row sb) * row p)
  spliceRule : row word = row highScaled + row low + row sub * row p
  highScaledRule : row highScaled = 2 * (row high * row wph)
  subScaledRule : row subScaled =
    2 ^ 16 * row sub + (2 ^ 24 - 2 ^ 16) * ((row lb + row lbu + row sb) * row sub)
  lowScaledRule : row lowScaled = 2 * (row low * row pcopow)
  srcSubRule : row vRs2 = row srcSub + 2 ^ 16 * row srcHigh -
    (2 ^ 16 - 2 ^ 8) * ((row lb + row lbu + row sb) * row srcHigh)
  srcSubScaledRule : row srcSubScaled =
    2 ^ 16 * row srcSub + (2 ^ 24 - 2 ^ 16) * ((row lb + row lbu + row sb) * row srcSub)
  signInRule : row signIn = row sub + 255 * ((row lb + row lbu + row sb) * row sub)
  rdValueRule : row sel = (2 ^ 32 - 2 ^ 16) * row se +
    (row lb + row lh + row lbu + row lhu) * row sub +
      (2 ^ 16 - 2 ^ 8) * ((row lb + row lbu + row sb) * row se)
  storeRule : row newRam = row mRam * row word + (row srcSub - row sub) * row pRam
  nextPcRule : row nextPc = row seq

variable {challenges : ExternalChallenges} {decoded : List (List Fr)} {row : Row}

/-- The family's gates impose the relations. -/
theorem relations_of_gates
    (enforced : ∀ gate ∈ familySpec.enforcing, gate.2.value challenges row = 0) :
    Relations row := by
  simp only [familySpec, List.forall_mem_append, List.forall_mem_cons, List.not_mem_nil,
    IsEmpty.forall_iff, implies_true, and_true] at enforced
  obtain ⟨⟨⟨⟨-, operands⟩, accesses⟩, splices⟩, nextPcRule⟩ := enforced
  simp only [operandGates, maskRule, wordAddrRule, loads, stores, quadratic, List.forall_mem_cons,
    List.not_mem_nil, IsEmpty.forall_iff, implies_true, and_true, value_quadratic,
    List.cons_append, List.nil_append, List.map_cons, List.map_nil, List.sum_cons, List.sum_nil,
    coefficient_lit, coefficient_neg] at operands
  simp only [accessGates, formTimes, loads, stores, halves, signed, linear, quadratic,
    List.forall_mem_cons, List.not_mem_nil, IsEmpty.forall_iff, implies_true, and_true,
    value_quadratic, value_linear, List.cons_append, List.nil_append, List.map_cons, List.map_nil,
    List.sum_cons, List.sum_nil, coefficient_lit, coefficient_neg] at accesses
  simp only [spliceGates, byteBits, formTimes, loads, bytes, quadratic, List.forall_mem_cons,
    List.not_mem_nil, IsEmpty.forall_iff, implies_true, and_true, value_quadratic,
    List.cons_append, List.nil_append, List.map_cons, List.map_nil, List.sum_cons, List.sum_nil,
    coefficient_lit, coefficient_neg] at splices
  norm_num only [linear, value_linear, List.map_cons, List.map_nil, List.sum_cons, List.sum_nil,
    coefficient_lit, coefficient_neg] at operands accesses splices nextPcRule
  obtain ⟨-, -, -, -, rs1Mask, rs2Mask, loadMask, ramMask, rdMask, -, -, -, loadAddr, ramAddr, -⟩ :=
    operands
  obtain ⟨addrSplit, halfAligned, wordRule, pRamRule, seRule⟩ := accesses
  obtain ⟨pRule, pcopowRule, wphRule, spliceRule, highScaledRule, subScaledRule, lowScaledRule,
    srcSubRule, srcSubScaledRule, signInRule, rdValueRule, storeRule⟩ := splices
  exact
    { rs1Mask := by linear_combination rs1Mask
      rs2Mask := by linear_combination rs2Mask
      loadMask := by linear_combination loadMask
      ramMask := by rw [mRam]; linear_combination ramMask
      rdMask := by linear_combination rdMask
      loadAddr := by linear_combination loadAddr
      ramAddr := by rw [mRam]; linear_combination ramAddr
      addrSplit := by linear_combination addrSplit
      halfAligned := by linear_combination halfAligned
      wordRule := by linear_combination wordRule
      pRamRule := by linear_combination pRamRule
      seRule := by linear_combination seRule
      pRule := by linear_combination pRule
      pcopowRule := by linear_combination pcopowRule
      wphRule := by linear_combination wphRule
      spliceRule := by linear_combination spliceRule
      highScaledRule := by linear_combination highScaledRule
      subScaledRule := by linear_combination subScaledRule
      lowScaledRule := by linear_combination lowScaledRule
      srcSubRule := by linear_combination srcSubRule
      srcSubScaledRule := by linear_combination srcSubScaledRule
      signInRule := by linear_combination signInRule
      rdValueRule := by linear_combination rdValueRule
      storeRule := by linear_combination storeRule
      nextPcRule := by linear_combination nextPcRule }

/-- The read word's column. -/
def Kind.wordColumn (kind : Kind) (row : Row) : Fr := if kind.isLoad then row vLoad else row vRam

/-- What the one-hot kind bits select on a live row. -/
structure Selected (kind : Kind) (row : Row) : Prop where
  rs1 : row (frame slotRs1 fieldMask) = 1
  rs2 : row (frame slotRs2 fieldMask) = bitFr !kind.isLoad
  load : row (frame slotLoad fieldMask) = bitFr kind.isLoad
  ram : row mRam = bitFr !kind.isLoad
  rd : row (frame slotRd fieldMask) = bitFr kind.isLoad
  aligned : kind.width = 2 → row bit0 = 0
  word : row MemSubword.word = kind.wordColumn row
  se : row MemSubword.se = bitFr kind.isSigned * row sign
  wph : row MemSubword.wph = ((2 ^ (8 * kind.width - 1) : ℕ) : Fr) * row p
  subScaled : row MemSubword.subScaled = ((2 ^ (32 - 8 * kind.width) : ℕ) : Fr) * row sub
  srcSub : row vRs2 = row MemSubword.srcSub + ((2 ^ (8 * kind.width) : ℕ) : Fr) * row srcHigh
  srcSubScaled : row MemSubword.srcSubScaled =
    ((2 ^ (32 - 8 * kind.width) : ℕ) : Fr) * row MemSubword.srcSub
  signIn : row MemSubword.signIn = ((2 ^ (16 - 8 * kind.width) : ℕ) : Fr) * row sub
  sel : row MemSubword.sel = bitFr kind.isLoad * row sub +
    ((2 ^ 32 - 2 ^ (8 * kind.width) : ℕ) : Fr) * row MemSubword.se
  newRam : row MemSubword.newRam =
    bitFr (!kind.isLoad) * (row MemSubword.word + (row MemSubword.srcSub - row sub) * row p)

/-- One-hot kind bits select their kind. -/
theorem selected_of_oneHot {kind : Kind} (relations : Relations row) (live : row pcMask = 1)
    (oneHot : ∀ k, (kinds.map row).getD k 0 = if k = kind.index then 1 else 0) :
    Selected kind row := by
  have lbBit : row lb = _ := oneHot 0
  have lhBit : row lh = _ := oneHot 1
  have lbuBit : row lbu = _ := oneHot 2
  have lhuBit : row lhu = _ := oneHot 3
  have sbBit : row sb = _ := oneHot 4
  have shBit : row sh = _ := oneHot 5
  obtain ⟨rs1Mask, rs2Mask, loadMask, ramMask, rdMask, -, -, -, halfAligned, wordRule, pRamRule,
    seRule, -, -, wphRule, -, -, subScaledRule, -, srcSubRule, srcSubScaledRule, signInRule,
    rdValueRule, storeRule, -⟩ := relations
  rw [pRamRule, ramMask] at storeRule
  simp only [live, lbBit, lhBit, lbuBit, lhuBit, sbBit, shBit]
    at rs1Mask rs2Mask loadMask ramMask rdMask halfAligned wordRule seRule wphRule subScaledRule
      srcSubRule srcSubScaledRule signInRule rdValueRule storeRule
  cases kind <;>
    simp only [Kind.index, Nat.reduceEqDiff, OfNat.ofNat_ne_zero, OfNat.zero_ne_ofNat,
      OfNat.ofNat_ne_one, OfNat.one_ne_ofNat, one_ne_zero, zero_ne_one, ↓reduceIte, add_zero,
      zero_add, zero_mul, one_mul, mul_zero, mul_one, sub_zero]
      at rs1Mask rs2Mask loadMask ramMask rdMask halfAligned wordRule seRule wphRule
        subScaledRule srcSubRule srcSubScaledRule signInRule rdValueRule storeRule <;>
    refine
      { rs1 := rs1Mask
        rs2 := rs2Mask
        load := loadMask
        ram := ramMask
        rd := rdMask
        aligned := fun _ => by first | exact halfAligned | contradiction
        word := wordRule
        se := by
          simp only [Kind.isSigned, bitFr_true, bitFr_false]
          linear_combination seRule
        wph := by
          norm_num only [Kind.width]
          linear_combination wphRule
        subScaled := by
          norm_num only [Kind.width]
          linear_combination subScaledRule
        srcSub := by
          norm_num only [Kind.width]
          linear_combination srcSubRule
        srcSubScaled := by
          norm_num only [Kind.width]
          linear_combination srcSubScaledRule
        signIn := by
          norm_num only [Kind.width]
          linear_combination signInRule
        sel := by
          norm_num only [Kind.width, Kind.isLoad, bitFr_true, bitFr_false]
          linear_combination rdValueRule
        newRam := by
          simp only [Kind.isLoad, bitFr_true, bitFr_false, Bool.not_true, Bool.not_false]
          linear_combination storeRule }

/-- The numbers the obligations make of a live row's columns. -/
structure Parts (row : Row) where
  wordIndex : ℕ
  wrap : ℕ
  bit0 : ℕ
  bit1 : ℕ
  high : ℕ
  sub : ℕ
  low : ℕ
  srcSub : ℕ
  srcHigh : ℕ
  signIn : ℕ
  /-- Each scaled column is a word. -/
  highScaled : Alu.Word
  subScaled : Alu.Word
  lowScaled : Alu.Word
  srcSubScaled : Alu.Word
  wordIndexSmall : wordIndex < 2 ^ 30
  wrapSmall : wrap ≤ 1
  bit0Small : bit0 ≤ 1
  bit1Small : bit1 ≤ 1
  highSmall : high < 2 ^ 32
  subSmall : sub < 2 ^ 16
  lowSmall : low < 2 ^ 32
  srcSubSmall : srcSub < 2 ^ 16
  srcHighSmall : srcHigh < 2 ^ 32
  signInSmall : signIn < 2 ^ 16
  wordIndexEq : row MemSubword.wordIndex = (wordIndex : Fr)
  wrapEq : row MemSubword.wrap = (wrap : Fr)
  bit0Eq : row MemSubword.bit0 = (bit0 : Fr)
  bit1Eq : row MemSubword.bit1 = (bit1 : Fr)
  highEq : row MemSubword.high = (high : Fr)
  subEq : row MemSubword.sub = (sub : Fr)
  lowEq : row MemSubword.low = (low : Fr)
  srcSubEq : row MemSubword.srcSub = (srcSub : Fr)
  srcHighEq : row MemSubword.srcHigh = (srcHigh : Fr)
  signInEq : row MemSubword.signIn = (signIn : Fr)
  highScaledEq : row MemSubword.highScaled = wordFr highScaled
  subScaledEq : row MemSubword.subScaled = wordFr subScaled
  lowScaledEq : row MemSubword.lowScaled = wordFr lowScaled
  srcSubScaledEq : row MemSubword.srcSubScaled = wordFr srcSubScaled

/-- A halfword obligation bounds its column. -/
private theorem half_of_range {name : String} {x : PolyAddress} (live : row pcMask = 1)
    (holds : (range16 name (column x)).Holds challenges decoded row) :
    ∃ half < 2 ^ 16, row x = ((half : ℕ) : Fr) := by
  obtain ⟨half, small, equal⟩ := range_bound live holds
  exact ⟨half, small, by simpa [column, linear] using equal⟩

/-- The obligations and the booleans make numbers of a live row's columns. -/
theorem exists_parts (live : row pcMask = 1)
    (ranges : ∀ lookup ∈ wordRanges, lookup.Holds challenges decoded row)
    (booleans : ∀ gate ∈ operandGates, gate.2.value challenges row = 0) : Nonempty (Parts row) := by
  have word {name : String} {value hi : PolyAddress}
      (holds : ∀ lookup ∈ Gadgets.range32 name pcMask value hi,
        lookup.Holds challenges decoded row) : ∃ word : Alu.Word, row value = wordFr word :=
    (range32_word live holds).imp fun _ columns => columns.1
  simp only [wordRanges, List.forall_mem_append, List.forall_mem_cons, List.not_mem_nil,
    IsEmpty.forall_iff, implies_true, and_true] at ranges
  obtain ⟨⟨⟨⟨⟨⟨⟨⟨⟨⟨⟨⟨indexRange, indexScaled⟩, highRange⟩, highScaledRange⟩, subRange⟩,
    subScaledRange⟩, lowRange⟩, lowScaledRange⟩, srcSubRange⟩, srcSubScaledRange⟩, srcHighRange⟩,
    signInRange⟩, -⟩ := ranges
  obtain ⟨wordIndex, wordIndexSmall, wordIndexEq⟩ := wordIndex_lt live indexRange indexScaled
  obtain ⟨high, highEq⟩ := word highRange
  obtain ⟨highScaled, highScaledEq⟩ := word highScaledRange
  obtain ⟨sub, subSmall, subEq⟩ := half_of_range live subRange
  obtain ⟨subScaled, subScaledEq⟩ := word subScaledRange
  obtain ⟨low, lowEq⟩ := word lowRange
  obtain ⟨lowScaled, lowScaledEq⟩ := word lowScaledRange
  obtain ⟨srcSub, srcSubSmall, srcSubEq⟩ := half_of_range live srcSubRange
  obtain ⟨srcSubScaled, srcSubScaledEq⟩ := word srcSubScaledRange
  obtain ⟨srcHigh, srcHighEq⟩ := word srcHighRange
  obtain ⟨signIn, signInSmall, signInEq⟩ := half_of_range live signInRange
  obtain ⟨wrap, wrapSmall, wrapEq⟩ :=
    bit_of_booleanity (booleans ("wrap_boolean", booleanity MemSubword.wrap) (by simp [operandGates]))
  obtain ⟨bit0, bit0Small, bit0Eq⟩ :=
    bit_of_booleanity (booleans ("bit0_boolean", booleanity MemSubword.bit0) (by simp [operandGates]))
  obtain ⟨bit1, bit1Small, bit1Eq⟩ :=
    bit_of_booleanity (booleans ("bit1_boolean", booleanity MemSubword.bit1) (by simp [operandGates]))
  exact ⟨{
    wordIndex, wrap, bit0, bit1, sub, srcSub, signIn, highScaled, subScaled, lowScaled, srcSubScaled
    high := high.toNat
    low := low.toNat
    srcHigh := srcHigh.toNat
    wordIndexSmall, wrapSmall, bit0Small, bit1Small, subSmall, srcSubSmall, signInSmall
    highSmall := high.isLt
    lowSmall := low.isLt
    srcHighSmall := srcHigh.isLt
    wordIndexEq, wrapEq, bit0Eq, bit1Eq, highEq, subEq, lowEq, srcSubEq, srcHighEq, signInEq,
    highScaledEq, subScaledEq, lowScaledEq, srcSubScaledEq }⟩

/-- A number that fits a word once scaled up fits the bits it was scaled from. -/
private theorem lt_of_scaled {x k : ℕ} (scaled : Alu.Word) (narrow : k ≤ 32) (small : x < 2 ^ 32)
    (scaling : wordFr scaled = ((2 ^ (32 - k) : ℕ) : Fr) * (x : Fr)) : x < 2 ^ k := by
  have scaledSmall := scaled.isLt
  have powerLe : 2 ^ (32 - k) ≤ 2 ^ 32 := Nat.pow_le_pow_right two_pos (by omega)
  have equal : scaled.toNat = 2 ^ (32 - k) * x := by
    refine fr_natCast_inj (by omega) ?_ (by rw [Nat.cast_mul]; exact scaling)
    calc 2 ^ (32 - k) * x ≤ 2 ^ 32 * 2 ^ 32 := Nat.mul_le_mul powerLe small.le
      _ < 2 ^ 250 := by norm_num
  have whole : 2 ^ 32 = 2 ^ (32 - k) * 2 ^ k := by
    rw [← pow_add]
    congr 1
    omega
  rw [equal, whole] at scaledSmall
  exact lt_of_mul_lt_mul_left scaledSmall (Nat.zero_le _)

namespace Parts

variable (parts : Parts row) {kind : Kind}

/-- The bit the addressed field starts at. -/
def shift : ℕ := 8 * (2 * parts.bit1 + parts.bit0)

theorem shift_le : parts.shift ≤ 24 := by
  have := parts.bit0Small
  have := parts.bit1Small
  unfold shift
  omega

/-- The degree-2 form takes the offset's bits to its power. -/
theorem p_eq (relations : Relations row) (live : row pcMask = 1) :
    row p = ((2 ^ parts.shift : ℕ) : Fr) := by
  have rule := relations.pRule
  rw [live, parts.bit0Eq, parts.bit1Eq] at rule
  have cases0 := Nat.le_one_iff_eq_zero_or_eq_one.mp parts.bit0Small
  have cases1 := Nat.le_one_iff_eq_zero_or_eq_one.mp parts.bit1Small
  unfold shift
  rcases cases0 with zero0 | one0 <;> rcases cases1 with zero1 | one1 <;> rw [rule] <;>
    simp only [*] <;> norm_num

theorem pcopow_eq (relations : Relations row) (live : row pcMask = 1) :
    row pcopow = ((2 ^ (31 - parts.shift) : ℕ) : Fr) := by
  have rule := relations.pcopowRule
  have small := parts.shift_le
  rw [live, parts.p_eq relations live] at rule
  have product : 2 ^ parts.shift * 2 ^ (31 - parts.shift) = 2 ^ 31 := by
    rw [← pow_add]
    congr 1
    omega
  have nonzero : ((2 ^ parts.shift : ℕ) : Fr) ≠ 0 := by
    intro vanishes
    have bound : 2 ^ parts.shift ≤ 2 ^ 24 := Nat.pow_le_pow_right two_pos small
    have zero : 2 ^ parts.shift = 0 :=
      fr_natCast_inj (by omega) (by norm_num) (by rw [vanishes, Nat.cast_zero])
    exact absurd zero (Nat.two_pow_pos _).ne'
  refine mul_left_cancel₀ nonzero ?_
  rw [rule, ← Nat.cast_mul, product]
  norm_num

/-- The split address is the sum's: four times the word's index, and the offset. -/
theorem address_eq {rs1Word immWord : Alu.Word} (relations : Relations row)
    (rs1Eq : row vRs1 = wordFr rs1Word) (immEq : row imm = wordFr immWord) :
    (rs1Word + immWord).toNat = 4 * parts.wordIndex + (2 * parts.bit1 + parts.bit0) := by
  have rule := relations.addrSplit
  have rs1Small := rs1Word.isLt
  have immSmall := immWord.isLt
  have indexSmall := parts.wordIndexSmall
  have wrapSmall := parts.wrapSmall
  have bit0Small := parts.bit0Small
  have bit1Small := parts.bit1Small
  have split : rs1Word.toNat + immWord.toNat = 2 ^ 32 * parts.wrap + 4 * parts.wordIndex +
      2 * parts.bit1 + parts.bit0 := by
    refine fr_natCast_inj (by omega) (by omega) ?_
    rw [rs1Eq, immEq, parts.wrapEq, parts.wordIndexEq, parts.bit0Eq, parts.bit1Eq, wordFr,
      wordFr] at rule
    push_cast at rule ⊢
    exact rule
  rw [BitVec.toNat_add]
  omega

/-- A halfword is aligned. -/
theorem bit0_eq (selected : Selected kind row) (half : kind.width = 2) : parts.bit0 = 0 := by
  have small := parts.bit0Small
  refine fr_natCast_inj (by omega) (by norm_num) ?_
  rw [← parts.bit0Eq, selected.aligned half, Nat.cast_zero]

/-- An aligned field lies inside the word. -/
theorem shift_add_le (selected : Selected kind row) : parts.shift + 8 * kind.width ≤ 32 := by
  have shiftLe := parts.shift_le
  rcases kind.width_cases with byte | half
  · omega
  · have bit0Zero := parts.bit0_eq selected half
    have bit1Small := parts.bit1Small
    unfold shift
    omega

theorem low_lt (relations : Relations row) (live : row pcMask = 1) :
    parts.low < 2 ^ parts.shift := by
  have small := parts.shift_le
  refine lt_of_scaled parts.lowScaled (by omega) parts.lowSmall ?_
  have rule := relations.lowScaledRule
  rw [parts.lowScaledEq, parts.lowEq, parts.pcopow_eq relations live] at rule
  rw [rule, show 32 - parts.shift = 31 - parts.shift + 1 by omega, pow_succ]
  push_cast
  ring

theorem sub_lt (selected : Selected kind row) : parts.sub < 2 ^ (8 * kind.width) := by
  have small := parts.subSmall
  refine lt_of_scaled parts.subScaled kind.width_le (by omega) ?_
  rw [← parts.subScaledEq, ← parts.subEq, selected.subScaled]

theorem srcSub_lt (selected : Selected kind row) : parts.srcSub < 2 ^ (8 * kind.width) := by
  have small := parts.srcSubSmall
  refine lt_of_scaled parts.srcSubScaled kind.width_le (by omega) ?_
  rw [← parts.srcSubScaledEq, ← parts.srcSubEq, selected.srcSubScaled]

/-- The high part's multiplier puts it above the field. -/
theorem highScaled_eq (relations : Relations row) (selected : Selected kind row)
    (live : row pcMask = 1) :
    row MemSubword.highScaled = ((2 ^ (parts.shift + 8 * kind.width) * parts.high : ℕ) : Fr) := by
  have positive := kind.width_cases
  rw [relations.highScaledRule, selected.wph, parts.highEq, parts.p_eq relations live, pow_add,
    show 8 * kind.width = 8 * kind.width - 1 + 1 by omega, pow_succ]
  push_cast
  ring

theorem high_lt (relations : Relations row) (selected : Selected kind row)
    (live : row pcMask = 1) : 2 ^ (parts.shift + 8 * kind.width) * parts.high < 2 ^ 32 := by
  have fits := parts.shift_add_le selected
  have powerLe : 2 ^ (parts.shift + 8 * kind.width) ≤ 2 ^ 32 :=
    Nat.pow_le_pow_right two_pos fits
  have scaledSmall := parts.highScaled.isLt
  have equal : 2 ^ (parts.shift + 8 * kind.width) * parts.high = parts.highScaled.toNat := by
    refine fr_natCast_inj ?_ (by omega) ?_
    · calc 2 ^ (parts.shift + 8 * kind.width) * parts.high ≤ 2 ^ 32 * 2 ^ 32 :=
          Nat.mul_le_mul powerLe parts.highSmall.le
        _ < 2 ^ 250 := by norm_num
    · rw [← parts.highScaled_eq relations selected live, parts.highScaledEq, wordFr]
  omega

/-- The three parts are the word's own. -/
theorem exists_word (relations : Relations row) (selected : Selected kind row)
    (live : row pcMask = 1) :
    ∃ old : Alu.Word, row word = wordFr old ∧ old.toNat =
      parts.low + 2 ^ parts.shift * (parts.sub + 2 ^ (8 * kind.width) * parts.high) := by
  obtain ⟨old, oldEq⟩ := Apogee.exists_word _ (Math.parts_lt (parts.shift_add_le selected)
    (parts.low_lt relations live) (parts.sub_lt selected) (parts.high_lt relations selected live))
  refine ⟨old, ?_, oldEq⟩
  rw [relations.spliceRule, parts.highScaled_eq relations selected live, parts.lowEq, parts.subEq,
    parts.p_eq relations live, wordFr, oldEq, pow_add]
  push_cast
  ring

/-- What a store puts in the field is `rs2`'s low bits. -/
theorem srcSub_eq {rs2Word : Alu.Word} (selected : Selected kind row)
    (rs2Eq : row vRs2 = wordFr rs2Word) :
    parts.srcSub = rs2Word.toNat % 2 ^ (8 * kind.width) := by
  have small := parts.srcSub_lt selected
  have rs2Small := rs2Word.isLt
  have powerLe : 2 ^ (8 * kind.width) ≤ 2 ^ 32 := Nat.pow_le_pow_right two_pos kind.width_le
  have product : 2 ^ (8 * kind.width) * parts.srcHigh ≤ 2 ^ 32 * 2 ^ 32 :=
    Nat.mul_le_mul powerLe parts.srcHighSmall.le
  have split : rs2Word.toNat = parts.srcSub + 2 ^ (8 * kind.width) * parts.srcHigh := by
    refine fr_natCast_inj (by omega) (by omega) ?_
    have rule := selected.srcSub
    rw [rs2Eq, parts.srcSubEq, parts.srcHighEq, wordFr] at rule
    push_cast at rule ⊢
    exact rule
  rw [split, Nat.add_mul_mod_self_left, Nat.mod_eq_of_lt small]

/-- The sign column is the field's top bit. -/
theorem sign_eq (selected : Selected kind row) (live : row pcMask = 1)
    (signLookup : (Gadgets.getSign "sub_get_sign" pcMask MemSubword.signIn sign).Holds
      challenges decoded row) :
    row sign = ((parts.sub / 2 ^ (8 * kind.width - 1) : ℕ) : Fr) := by
  have signInSmall := parts.signInSmall
  have subSmall := parts.subSmall
  have signInIs : parts.signIn = 2 ^ (16 - 8 * kind.width) * parts.sub := by
    refine fr_natCast_inj (by omega) ?_ ?_
    · rcases kind.width_cases with byte | half <;> simp only [*] <;> omega
    · rw [← parts.signInEq, selected.signIn, parts.subEq, Nat.cast_mul]
  obtain ⟨shifted, shiftedEq⟩ := Apogee.exists_word (2 ^ 16 * parts.signIn) (by omega)
  have hiEq : row MemSubword.signIn = (highHalf shifted : Fr) := by
    rw [parts.signInEq]
    congr 1
    unfold highHalf
    omega
  rw [getSign_word live hiEq signLookup]
  congr 1
  unfold topBit
  rcases kind.width_cases with byte | half
  · simp only [byte] at signInIs ⊢
    omega
  · simp only [half] at signInIs ⊢
    omega

end Parts

/-- What a live row of the family does at an address. -/
inductive Access (kind : Kind) (row : Row) (addr value : Alu.Word) : Prop
  | load (word : Alu.Word) (isLoad : kind.isLoad = true)
      (present : row (frame slotLoad fieldMask) = 1) (noStore : row mRam = 0)
      (address : row (frame slotLoad fieldAddr) = wordFr (Alu.wordAddress addr))
      (read : row vLoad = wordFr word) (writes : row (frame slotRd fieldMask) = 1)
      (written : row sel = wordFr (Alu.loaded kind.isSigned kind.width addr word))
  | store (word : Alu.Word) (isStore : kind.isLoad = false) (present : row mRam = 1)
      (noLoad : row (frame slotLoad fieldMask) = 0) (noRd : row (frame slotRd fieldMask) = 0)
      (address : row (frame slotRam fieldAddr) = wordFr (Alu.wordAddress addr))
      (read : row vRam = wordFr word)
      (written : row newRam = wordFr (Alu.stored kind.width addr word value))

section Access

variable {kind : Kind} {addr old : Alu.Word}

/-- An address rule puts a present query at the split address's word. -/
private theorem word_address (parts : Parts row)
    (addrEq : addr.toNat = 4 * parts.wordIndex + (2 * parts.bit1 + parts.bit0)) {slot : ℕ}
    (present : row (frame slot fieldMask) = 1)
    (rule : row (frame slot fieldMask) *
      (row (frame slot fieldAddr) - ((4 : ℕ) : Fr) * row wordIndex) = 0) :
    row (frame slot fieldAddr) = wordFr (Alu.wordAddress addr) := by
  have bit0Small := parts.bit0Small
  have bit1Small := parts.bit1Small
  rw [present, one_mul, parts.wordIndexEq] at rule
  rw [wordFr, Alu.wordAddress_toNat, show addr.toNat / 4 * 4 = 4 * parts.wordIndex by omega,
    Nat.cast_mul]
  exact sub_eq_zero.mp rule

/-- The split address shifts by the parts' shift. -/
private theorem byteShift_address (parts : Parts row)
    (addrEq : addr.toNat = 4 * parts.wordIndex + (2 * parts.bit1 + parts.bit0)) :
    Alu.byteShift addr = parts.shift := by
  have bit0Small := parts.bit0Small
  have bit1Small := parts.bit1Small
  rw [Alu.byteShift_eq, Parts.shift]
  omega

/-- A load row writes the extended field. -/
theorem sel_of_load (parts : Parts row) (selected : Selected kind row)
    (relations : Relations row) (live : row pcMask = 1) (isLoad : kind.isLoad = true)
    (shiftEq : Alu.byteShift addr = parts.shift)
    (oldEq : old.toNat =
      parts.low + 2 ^ parts.shift * (parts.sub + 2 ^ (8 * kind.width) * parts.high))
    (signEq : row sign = ((parts.sub / 2 ^ (8 * kind.width - 1) : ℕ) : Fr)) :
    row sel = wordFr (Alu.loaded kind.isSigned kind.width addr old) := by
  have positive : 0 < kind.width := by rcases kind.width_cases with byte | half <;> omega
  rw [wordFr, Alu.loaded_toNat _ _ _ positive kind.width_le, shiftEq, oldEq,
    Math.bitField_of_parts (parts.low_lt relations live) (parts.sub_lt selected), selected.sel,
    isLoad, selected.se, signEq, parts.subEq, bitFr_true, one_mul, bitFr_eq_toNat]
  push_cast
  ring

/-- A store row writes the word with its field replaced. -/
theorem newRam_of_store {rs2Word : Alu.Word} (parts : Parts row) (selected : Selected kind row)
    (relations : Relations row) (live : row pcMask = 1) (isStore : kind.isLoad = false)
    (rs2Eq : row vRs2 = wordFr rs2Word) (shiftEq : Alu.byteShift addr = parts.shift)
    (wordEq : row word = wordFr old)
    (oldEq : old.toNat =
      parts.low + 2 ^ parts.shift * (parts.sub + 2 ^ (8 * kind.width) * parts.high)) :
    row newRam = wordFr (Alu.stored kind.width addr old rs2Word) := by
  rw [wordFr, Alu.stored_toNat _ _ (by rw [shiftEq]; exact parts.shift_add_le selected), shiftEq,
    oldEq, Math.splice_of_parts _ (parts.low_lt relations live) (parts.sub_lt selected),
    ← parts.srcSub_eq selected rs2Eq, selected.newRam, isStore, wordEq, wordFr, oldEq,
    parts.srcSubEq, parts.subEq, parts.p_eq relations live, Bool.not_false, bitFr_true, one_mul]
  push_cast
  ring

end Access

/-- **Soundness.** A live row on word operands accesses the word of `rs1 + imm`, at
an address its width divides: a load writes the extended field of the word read,
a store the word read with the field replaced. -/
theorem row_computes_memSubword {mask : ℕ} {rs1Word rs2Word immWord : Alu.Word}
    (satisfied : RowSatisfies challenges decoded row body
      [LookupChannel.range16, LookupChannel.generic])
    (live : row pcMask = 1) (legal : mask ∈ legalMasks) (maskEq : row decodedMask = (mask : Fr))
    (rs1Eq : row vRs1 = wordFr rs1Word) (rs2Eq : row vRs2 = wordFr rs2Word)
    (immEq : row imm = wordFr immWord) :
    ∃ kind : Kind, mask = 2 ^ kind.index ∧ (rs1Word + immWord).toNat % kind.width = 0 ∧
      row nextPc = row seq ∧ Access kind row (rs1Word + immWord) rs2Word := by
  obtain ⟨enforced, lookups⟩ := satisfied.family
  have ranges : ∀ lookup ∈ wordRanges, lookup.Holds challenges decoded row := fun lookup member =>
    lookups lookup (by simp [familySpec, member])
      ((by decide : ∀ lookup ∈ wordRanges, lookup.channel ∈ _) lookup member)
  have signLookup := lookups (Gadgets.getSign "sub_get_sign" pcMask signIn sign)
    (by simp [familySpec]) (by decide)
  obtain ⟨kind, maskIs⟩ := legalMasks_eq legal
  have oneHot : ∀ k, (kinds.map row).getD k 0 = if k = kind.index then 1 else 0 := kinds_oneHot rfl
    (fun gate (member : gate ∈ kindBooleans kindNames kinds) =>
      enforced gate (by simp [familySpec, member]))
    (enforced ("decoded_mask_bits", decodedMaskBits kinds decodedMask)
      (by simp [familySpec, operandGates])) (by decide)
    (by cases kind <;> decide) (by rw [maskEq, maskIs])
  have relations := relations_of_gates enforced
  have selected := selected_of_oneHot relations live oneHot
  obtain ⟨parts⟩ := exists_parts live ranges fun gate (member : gate ∈ operandGates) =>
    enforced gate (by simp [familySpec, member])
  have addrEq := parts.address_eq relations rs1Eq immEq
  have shiftEq := byteShift_address parts addrEq
  obtain ⟨old, wordEq, oldEq⟩ := parts.exists_word relations selected live
  have readEq := selected.word.symm.trans wordEq
  refine ⟨kind, maskIs, ?_, relations.nextPcRule, ?_⟩
  · rcases kind.width_cases with byte | half
    · rw [byte, Nat.mod_one]
    · have bit0Zero := parts.bit0_eq selected half
      rw [half]
      omega
  cases isLoad : kind.isLoad with
  | true =>
    have present : row (frame slotLoad fieldMask) = 1 := by rw [selected.load, isLoad, bitFr_true]
    exact .load old isLoad present
      (by rw [selected.ram, isLoad, Bool.not_true, bitFr_false])
      (word_address parts addrEq present relations.loadAddr)
      (by rwa [Kind.wordColumn, if_pos isLoad] at readEq)
      (by rw [selected.rd, isLoad, bitFr_true])
      (sel_of_load parts selected relations live isLoad shiftEq oldEq
        (parts.sign_eq selected live signLookup))
  | false =>
    have present : row mRam = 1 := by rw [selected.ram, isLoad, Bool.not_false, bitFr_true]
    exact .store old isLoad present
      (by rw [selected.load, isLoad, bitFr_false]) (by rw [selected.rd, isLoad, bitFr_false])
      (word_address parts addrEq present relations.ramAddr)
      (by rwa [Kind.wordColumn, isLoad, if_neg Bool.false_ne_true] at readEq)
      (newRam_of_store parts selected relations live isLoad rs2Eq shiftEq wordEq oldEq)

/-- `lb` at 101 of the word `0x12348056` at 100: the byte `0x80`, sign-extended. -/
private def negativeByte : Row :=
  Row.ofColumns
    [1, 1, 0, 0, 64, 68, 1, 5, 0, 100, 100, 0, 0, 0, 0, 0, 1, 100, 0, 0x12348056, 0x12348056,
      0, 0, 0, 0, 0, 1, 7, 0, 0, 0xFFFFFF80]
    [0, 0, 0, 0, 0, 0, 0, 0, 0xFFFFFF80, 68, 5, 0, 7, 1, 1, 1, 0, 0, 0, 0, 0, 0, 25, 0, 1, 0, 256,
      2 ^ 23, 2 ^ 15, 0, 0x12348056, 0x1234, 0, 0x12340000, 0x1234, 0x80, 2 ^ 31, 2 ^ 15, 0x56, 0,
      0x56000000, 0x5600, 0, 0, 0, 0, 0, 0x8000, 1, 1, 0xFFFF]
    [(6, 7)]

theorem row_computes_memSubword_negativeByte :
    ∃ kind : Kind, 1 = 2 ^ kind.index ∧ ((100 : Alu.Word) + 1).toNat % kind.width = 0 ∧
      negativeByte nextPc = negativeByte seq ∧ Access kind negativeByte (100 + 1) 0 :=
  row_computes_memSubword
    (show RowSatisfies ExternalChallenges.empty [] _ body _ from
      RowSatisfies.of_check (by decide +kernel) (by decide +kernel)) (by decide +kernel)
    (by decide) (by decide +kernel) (by decide +kernel) (by decide +kernel) (by decide +kernel)

end Apogee.MemSubword
