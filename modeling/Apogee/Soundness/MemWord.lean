import Apogee.Circuit.MemWord
import Apogee.Emulator.Memory
import Apogee.Soundness.Family

/-! # The word load and store circuit is sound

The word index is below `2^30`, so four times it is a 32-bit address and the split
of `rs1 + imm` is the integer one: a live row accesses the sum's own word, and a
misaligned sum has no witness.
-/

namespace Apogee.MemWord

open Frame Family

/-- The family's instructions. -/
inductive Kind
  | lw
  | sw
deriving DecidableEq

namespace Kind

/-- The instruction's bit of the packed mask. -/
def index : Kind → ℕ
  | lw => 0
  | sw => 1

end Kind

theorem legalMasks_eq {mask : ℕ} (legal : mask ∈ legalMasks) :
    ∃ kind : Kind, mask = 2 ^ kind.index := by
  simp only [legalMasks, List.mem_cons, List.not_mem_nil, or_false] at legal
  rcases legal with rfl | rfl
  · exact ⟨.lw, rfl⟩
  · exact ⟨.sw, rfl⟩

/-- The relations the circuit's gates impose on a row's columns. -/
structure Relations (row : Row) : Prop where
  loadMask : row (frame slotLoad fieldMask) = row pcMask * row lw
  ramMask : row mRam = row pcMask * row sw
  rdMask : row (frame slotRd fieldMask) = row pcMask * row lw
  loadAddr : row (frame slotLoad fieldMask) *
    (row (frame slotLoad fieldAddr) - ((4 : ℕ) : Fr) * row wordIndex) = 0
  ramAddr : row mRam * (row (frame slotRam fieldAddr) - ((4 : ℕ) : Fr) * row wordIndex) = 0
  addrSplit : row vRs1 + row imm = ((2 ^ 32 : ℕ) : Fr) * row wrap + ((4 : ℕ) : Fr) * row wordIndex
  rdValueRule : row sel = row lw * row loaded
  storeValueRule : row stored = row mRam * row vRs2
  nextPcRule : row nextPc = row seq
  loadWritesBack : row (frame slotLoad fieldWriteValue) = row loaded

variable {challenges : ExternalChallenges} {decoded : List (List Fr)} {row : Row}

/-- The circuit's gates impose the relations. -/
theorem relations_of_gates (enforced : ∀ gate ∈ body.enforcing, gate.2.value challenges row = 0) :
    Relations row := by
  have writesBack := enforced ("load_writes_back", writeBack slotLoad) (by decide +kernel)
  have family : ∀ gate ∈ familySpec.enforcing, gate.2.value challenges row = 0 :=
    fun gate member => enforced gate (List.mem_append_right _ member)
  simp only [familySpec, List.forall_mem_append] at family
  obtain ⟨⟨-, operands⟩, accesses⟩ := family
  simp only [operandGates, maskRule, wordAddrRule, quadratic, List.forall_mem_cons,
    List.not_mem_nil, IsEmpty.forall_iff, implies_true, and_true, value_quadratic, List.map_cons,
    List.map_nil, List.sum_cons, List.sum_nil, coefficient_lit, coefficient_neg] at operands
  simp only [accessGates, linear, quadratic, List.forall_mem_cons, List.not_mem_nil,
    IsEmpty.forall_iff, implies_true, and_true, value_quadratic, value_linear, List.map_cons,
    List.map_nil, List.sum_cons, List.sum_nil, coefficient_lit, coefficient_neg] at accesses
  simp only [writeBack, linear, value_linear, List.map_cons, List.map_nil, List.sum_cons,
    List.sum_nil, coefficient_lit, coefficient_neg] at writesBack
  norm_num only at operands accesses writesBack
  obtain ⟨-, -, -, -, loadMask, ramMask, rdMask, -, -, -, loadAddr, ramAddr, -⟩ := operands
  obtain ⟨addrSplit, rdValueRule, storeValueRule, nextPcRule⟩ := accesses
  exact
    { loadMask := by linear_combination loadMask
      ramMask := by rw [mRam]; linear_combination ramMask
      rdMask := by linear_combination rdMask
      loadAddr := by linear_combination loadAddr
      ramAddr := by rw [mRam]; linear_combination ramAddr
      addrSplit := by linear_combination addrSplit
      rdValueRule := by linear_combination rdValueRule
      storeValueRule := by linear_combination storeValueRule
      nextPcRule := by linear_combination nextPcRule
      loadWritesBack := by rw [loaded]; linear_combination writesBack }

/-- The split address is the sum's own, and four times the word's index. -/
theorem address_eq {rs1Word immWord : Alu.Word} {index carry : ℕ} (relations : Relations row)
    (rs1Eq : row vRs1 = wordFr rs1Word) (immEq : row imm = wordFr immWord)
    (indexSmall : index < 2 ^ 30) (indexEq : row wordIndex = (index : Fr))
    (carrySmall : carry ≤ 1) (carryEq : row wrap = (carry : Fr)) :
    (rs1Word + immWord).toNat = 4 * index := by
  have rule := relations.addrSplit
  have rs1Small := rs1Word.isLt
  have immSmall := immWord.isLt
  have split : rs1Word.toNat + immWord.toNat = 2 ^ 32 * carry + 4 * index := by
    apply fr_natCast_inj
    · omega
    · omega
    · rw [rs1Eq, immEq, carryEq, indexEq, wordFr, wordFr] at rule
      push_cast at rule ⊢
      exact rule
  rw [BitVec.toNat_add]
  omega

/-- What a live row of the family does at an address. -/
inductive Access (row : Row) (addr value : Alu.Word) : Kind → Prop
  | load (word : Alu.Word) (present : row (frame slotLoad fieldMask) = 1) (noStore : row mRam = 0)
      (address : row (frame slotLoad fieldAddr) = wordFr addr) (read : row loaded = wordFr word)
      (writtenBack : row (frame slotLoad fieldWriteValue) = wordFr word)
      (writes : row (frame slotRd fieldMask) = 1) (selected : row sel = wordFr word) :
      Access row addr value .lw
  | store (present : row mRam = 1) (noLoad : row (frame slotLoad fieldMask) = 0)
      (noRd : row (frame slotRd fieldMask) = 0)
      (address : row (frame slotRam fieldAddr) = wordFr addr)
      (written : row stored = wordFr value) : Access row addr value .sw

/-- An address rule puts a present query at the split address. -/
theorem query_address {addr : Alu.Word} {index slot : ℕ} (addrEq : addr.toNat = 4 * index)
    (indexEq : row wordIndex = (index : Fr)) (present : row (frame slot fieldMask) = 1)
    (rule : row (frame slot fieldMask) *
      (row (frame slot fieldAddr) - ((4 : ℕ) : Fr) * row wordIndex) = 0) :
    row (frame slot fieldAddr) = wordFr addr := by
  rw [present, one_mul, indexEq] at rule
  rw [wordFr, addrEq, Nat.cast_mul]
  exact sub_eq_zero.mp rule

/-- **Soundness.** A live row on word operands accesses the word at `rs1 + imm`,
which is aligned: a load writes the word back and selects it for `rd`, a store
writes `rs2` and no register. -/
theorem row_computes_memWord {mask : ℕ} {rs1Word rs2Word immWord : Alu.Word}
    (satisfied : RowSatisfies challenges decoded row body [LookupChannel.range16])
    (live : row pcMask = 1) (legal : mask ∈ legalMasks) (maskEq : row decodedMask = (mask : Fr))
    (rs1Eq : row vRs1 = wordFr rs1Word) (rs2Eq : row vRs2 = wordFr rs2Word)
    (immEq : row imm = wordFr immWord) :
    ∃ kind : Kind, mask = 2 ^ kind.index ∧ (rs1Word + immWord).toNat % 4 = 0 ∧
      row nextPc = row seq ∧ Access row (rs1Word + immWord) rs2Word kind := by
  have enforced : ∀ gate ∈ familySpec.enforcing, gate.2.value challenges row = 0 :=
    fun gate member => satisfied.enforcing gate (List.mem_append_right _ member)
  have ranges : ∀ lookup ∈ wordRanges, lookup.Holds challenges decoded row := by
    intro lookup member
    apply satisfied.lookups lookup
    · exact List.mem_append_right _ (List.mem_append_left _ member)
    · exact (by decide : ∀ lookup ∈ wordRanges, lookup.channel ∈ _) lookup member
  have relations := relations_of_gates satisfied.enforcing
  obtain ⟨kind, maskIs⟩ := legalMasks_eq legal
  have oneHot : ∀ k, (kinds.map row).getD k 0 = if k = kind.index then 1 else 0 := by
    apply kinds_oneHot (rfl : kindNames.length = kinds.length)
    · exact fun gate member => enforced gate
        (List.mem_append_left _ (List.mem_append_left _ member))
    · exact enforced ("decoded_mask_bits", decodedMaskBits kinds decodedMask) (by
        simp [familySpec, operandGates])
    · decide
    · cases kind <;> decide
    · rw [maskEq, maskIs]
  have lwBit : row lw = _ := oneHot 0
  have swBit : row sw = _ := oneHot 1
  simp only [wordRanges, List.forall_mem_append, List.forall_mem_singleton] at ranges
  obtain ⟨⟨indexRange, indexScaled⟩, rdRange⟩ := ranges
  obtain ⟨index, indexSmall, indexEq⟩ := wordIndex_lt live indexRange indexScaled
  obtain ⟨selected, selectedEq, -⟩ := range32_word live rdRange
  obtain ⟨carry, carrySmall, carryEq⟩ :=
    bit_of_booleanity (enforced ("wrap_boolean", booleanity wrap) (by
      simp [familySpec, operandGates]))
  have addrEq := address_eq relations rs1Eq immEq indexSmall indexEq carrySmall carryEq
  refine ⟨kind, maskIs, by omega, relations.nextPcRule, ?_⟩
  cases kind with
  | lw =>
    simp only [Kind.index, ↓reduceIte, one_ne_zero] at lwBit swBit
    have present : row (frame slotLoad fieldMask) = 1 := by
      rw [relations.loadMask, live, lwBit, one_mul]
    have read : row loaded = wordFr selected := by
      rw [← selectedEq, relations.rdValueRule, lwBit, one_mul]
    apply Access.load selected present
    · rw [relations.ramMask, swBit, mul_zero]
    · exact query_address addrEq indexEq present relations.loadAddr
    · exact read
    · rw [relations.loadWritesBack, read]
    · rw [relations.rdMask, live, lwBit, one_mul]
    · exact selectedEq
  | sw =>
    simp only [Kind.index, ↓reduceIte, zero_ne_one] at lwBit swBit
    have present : row mRam = 1 := by rw [relations.ramMask, live, swBit, one_mul]
    apply Access.store present
    · rw [relations.loadMask, lwBit, mul_zero]
    · rw [relations.rdMask, lwBit, mul_zero]
    · exact query_address addrEq indexEq present relations.ramAddr
    · rw [relations.storeValueRule, present, one_mul, rs2Eq]

/-- `sw` of `0xDEADBEEF` at `0xFFFFFFFC + 8`, which wraps to 4. -/
private def wrappedStore : Row :=
  Row.ofColumns
    [1, 1, 0, 0, 64, 68, 1, 5, 0, 0xFFFFFFFC, 0xFFFFFFFC, 1, 6, 0, 0xDEADBEEF, 0xDEADBEEF,
      0, 0, 0, 0, 0, 1, 4, 0, 7, 0xDEADBEEF, 0, 0, 0, 0, 0]
    [0, 0, 0, 0, 0, 0, 0, 0, 0, 68, 5, 6, 0, 8, 2, 0, 1, 1, 1, 0, 0] []

theorem row_computes_memWord_wrappedStore :
    ∃ kind : Kind, 2 = 2 ^ kind.index ∧ ((0xFFFFFFFC : Alu.Word) + 8).toNat % 4 = 0 ∧
      wrappedStore nextPc = wrappedStore seq ∧
        Access wrappedStore (0xFFFFFFFC + 8) 0xDEADBEEF kind :=
  row_computes_memWord
    (show RowSatisfies ExternalChallenges.empty [] _ body _ from
      RowSatisfies.of_check (by decide +kernel) (by decide +kernel)) (by decide +kernel)
    (by decide) (by decide +kernel) (by decide +kernel) (by decide +kernel) (by decide +kernel)

end Apogee.MemWord
