import Apogee.Circuit.AddSub
import Apogee.Program.Row
import Apogee.Soundness.Family

/-! # The add, sub and system circuit is sound

A live row is an arithmetic row, a fence, an exit or a request of one delegation
type. The request selectors are free booleans: their number gates pin `a7`, and
distinct numbers leave at most one of them set.
-/

namespace Apogee.AddSub

open Frame Family

variable {challenges : ExternalChallenges} {decoded : List (List Fr)} {row : Row} {types : ℕ}

/-- How many request selectors a row sets. -/
def requests (row : Row) (types : ℕ) : Fr := ∑ i ∈ Finset.range types, row (isDelegation i)

/-- What a row owes type `i`'s request in `a0`. -/
def owed (row : Row) (i : ℕ) : Fr :=
  if Delegation.baseTypes ≤ i then row vRs2 + ((4 * delegationWords i : ℕ) : Fr) else 0

/-- The relations the family's gates impose on a row's columns. -/
structure Relations (types : ℕ) (row : Row) : Prop where
  split : row isEcall + row isFence = row kindSystem
  ecallCode : row isEcall * row decodedImm = 0
  fenceCode : row isFence * row decodedImm = ((SystemCode.fence : ℕ) : Fr) * row isFence
  isExit : (row isEcall - requests row types) * (row vRs1 - ((Ecall.exit : ℕ) : Fr)) = 0
  rs1Mask : row (frame slotRs1 fieldMask) =
    row pcMask * (row kindAdd + row kindSub + row kindAddi + row isEcall)
  rs2Mask : row (frame slotRs2 fieldMask) =
    row pcMask * (row kindAdd + row kindSub + row isEcall)
  rdMask : row (frame slotRd fieldMask) = row pcMask * (row kindAdd + row kindSub + row kindAddi +
    row kindAuipc + row kindLui + row isEcall)
  delegMask : row mDeleg = row pcMask * requests row types
  rs1Addr : row (frame slotRs1 fieldMask) *
    (row (frame slotRs1 fieldAddr) - row decodedRs1 - ((a7 : ℕ) : Fr) * row isEcall) = 0
  rs2Addr : row (frame slotRs2 fieldMask) *
    (row (frame slotRs2 fieldAddr) - row decodedRs2 - ((a0 : ℕ) : Fr) * row isEcall) = 0
  rdAddr : row (frame slotRd fieldMask) *
    (row (frame slotRd fieldAddr) - row decodedRd - ((a0 : ℕ) : Fr) * row isEcall) = 0
  rs1Masked : row vRs1 = row (frame slotRs1 fieldMask) * row vRs1
  rs2Masked : row vRs2 = row (frame slotRs2 fieldMask) * row vRs2
  sumRule : (row kindAdd + row kindAddi + row kindAuipc) *
      (row vRs1 + row vRs2 + row decodedImm - row sel - ((2 ^ 32 : ℕ) : Fr) * row (wrap types)) +
    row kindAuipc * row pc = 0
  subRule : row kindSub *
    (row vRs1 - row vRs2 - row sel + ((2 ^ 32 : ℕ) : Fr) * row (wrap types)) = 0
  luiRule : row kindLui * (row decodedImm - row sel) = 0
  exitStatus : (row isEcall - requests row types) * (row vRd - row sel) = 0
  a0Rule : row pcMask * ∑ i ∈ Finset.range types, row (isDelegation i) * (row sel - owed row i) = 0
  mirrorTs : row mDeleg * row (frame slotDeleg fieldReadTs) = 0
  mirrorValue : row mDeleg * row (frame slotDeleg fieldReadValue) = 0
  mirrorAddr : row mDeleg * (row (frame slotDeleg fieldAddr) - row vRs2) = 0
  space : row (delegSpace queries.length) =
    ∑ i ∈ Finset.range types, ((delegationTag i : ℕ) : Fr) * row (isDelegation i)
  nextPcRule : row nextPc + ((2 ^ 32 : ℕ) : Fr) * row (pcWrap types) =
    (1 - (row isEcall - requests row types)) * row decodedNextPc +
      (row isEcall - requests row types) * ((Clock.haltPc : ℕ) : Fr)

/-- A sum over the request selectors, as the gates write it. -/
private theorem sum_isDeleg (term : PolyAddress → Fr) :
    ((isDeleg types).map term).sum = ∑ i ∈ Finset.range types, term (isDelegation i) := by
  rw [isDeleg, List.map_map]
  rfl

private theorem sum_range (term : ℕ → Fr) :
    ((List.range types).map term).sum = ∑ i ∈ Finset.range types, term i := rfl

/-- The request gates' part of the relations: what a request writes to `a0`. -/
private theorem a0Rule_of_gate (delegMask : row mDeleg = row pcMask * requests row types)
    (gate : (a0Rule types).2.value challenges row = 0) :
    row pcMask * ∑ i ∈ Finset.range types, row (isDelegation i) * (row sel - owed row i) = 0 := by
  by_cases base : types = Delegation.baseTypes
  · have free : ∀ i ∈ Finset.range types, row (isDelegation i) * (row sel - owed row i) =
        row (isDelegation i) * row sel := by
      intro i member
      rw [owed, if_neg (by rw [← base]; exact not_le.mpr (Finset.mem_range.mp member)), sub_zero]
    rw [Finset.sum_congr rfl free, ← Finset.sum_mul]
    simp only [a0Rule, if_pos base, quadratic, value_quadratic, List.map_cons, List.map_nil,
      List.sum_cons, List.sum_nil, coefficient_lit, delegMask, requests] at gate
    push_cast at gate
    linear_combination gate
  · simp only [a0Rule, if_neg base, quadratic, value_quadratic, sum_map_flatMap, sum_range,
      coefficient_lit, Nat.cast_zero, zero_add] at gate
    rw [← Finset.sum_add_distrib] at gate
    rw [← mul_zero (row pcMask), ← gate]
    congr 1
    refine Finset.sum_congr rfl fun i _ => ?_
    rw [owed]
    split_ifs
    · simp
      ring
    · simp

/-- The family's gates impose the relations. -/
theorem relations_of_gates
    (enforced : ∀ gate ∈ (build types).enforcing, gate.2.value challenges row = 0) :
    Relations types row := by
  simp only [build, List.forall_mem_append, List.forall_mem_cons, List.not_mem_nil,
    IsEmpty.forall_iff, implies_true, and_true] at enforced
  obtain ⟨⟨⟨⟨⟨⟨-, system⟩, -⟩, isExit⟩, operands⟩, arithmetic⟩, request⟩ := enforced
  simp only [systemGates, linear, quadratic, List.forall_mem_cons, List.not_mem_nil,
    IsEmpty.forall_iff, implies_true, and_true, value_linear, value_quadratic, List.map_cons,
    List.map_nil, List.sum_cons, List.sum_nil, coefficient_lit, coefficient_neg] at system
  simp only [ecallIsExit, quadratic, value_quadratic, List.map_cons, List.sum_cons, List.map_map,
    sum_isDeleg, Function.comp_apply, coefficient_lit, coefficient_neg, ← Finset.mul_sum,
    ← Finset.sum_mul] at isExit
  simp only [operandGates, maskRule, addrRule, valueMasked, quadratic, List.forall_mem_cons,
    List.not_mem_nil, IsEmpty.forall_iff, implies_true, and_true, value_quadratic,
    List.map_cons, List.map_nil, List.sum_cons, List.sum_nil, List.map_map, sum_isDeleg,
    Function.comp_apply, coefficient_lit, coefficient_neg, ← Finset.mul_sum] at operands
  simp only [arithmeticGates, quadratic, List.forall_mem_cons, List.not_mem_nil,
    IsEmpty.forall_iff, implies_true, and_true, value_quadratic, List.flatMap_cons,
    List.flatMap_nil, List.cons_append, List.nil_append, List.map_cons, List.map_nil,
    List.sum_cons, List.sum_nil, coefficient_lit, coefficient_neg] at arithmetic
  simp only [requestGates, quadratic, linear, List.forall_mem_cons, List.not_mem_nil,
    IsEmpty.forall_iff, implies_true, and_true, value_quadratic, value_linear, List.cons_append,
    List.nil_append, sum_map_flatMap, List.map_cons,
    List.map_nil, List.sum_cons, List.sum_nil, List.map_map, sum_isDeleg, sum_range,
    Function.comp_apply, coefficient_lit, coefficient_neg, add_zero, neg_mul,
    Finset.sum_neg_distrib, Finset.sum_add_distrib, ← Finset.mul_sum, ← Finset.sum_mul] at request
  push_cast at system isExit operands arithmetic request
  obtain ⟨-, -, split, ecallCode, fenceCode⟩ := system
  obtain ⟨rs1Mask, rs2Mask, rdMask, delegMask, rs1Addr, rs2Addr, rdAddr, rs1Masked, rs2Masked⟩ :=
    operands
  obtain ⟨sumRule, subRule, luiRule⟩ := arithmetic
  obtain ⟨exitStatus, a0Gate, mirrorTs, mirrorValue, mirrorAddr, space, -, -, nextPcRule⟩ := request
  have mirrorMask : row mDeleg = row pcMask * requests row types := by
    rw [requests, mDeleg]
    linear_combination delegMask
  exact
    { split := by linear_combination split
      ecallCode := by linear_combination ecallCode
      fenceCode := by linear_combination fenceCode
      isExit := by rw [requests]; linear_combination isExit
      rs1Mask := by linear_combination rs1Mask
      rs2Mask := by linear_combination rs2Mask
      rdMask := by linear_combination rdMask
      delegMask := mirrorMask
      rs1Addr := by linear_combination rs1Addr
      rs2Addr := by linear_combination rs2Addr
      rdAddr := by linear_combination rdAddr
      rs1Masked := by rw [vRs1]; linear_combination rs1Masked
      rs2Masked := by rw [vRs2]; linear_combination rs2Masked
      sumRule := by linear_combination sumRule
      subRule := by linear_combination subRule
      luiRule := by linear_combination luiRule
      exitStatus := by rw [requests]; linear_combination exitStatus
      a0Rule := a0Rule_of_gate mirrorMask a0Gate
      mirrorTs := by linear_combination mirrorTs
      mirrorValue := by linear_combination mirrorValue
      mirrorAddr := by linear_combination mirrorAddr
      space := by linear_combination space
      nextPcRule := by rw [requests]; linear_combination nextPcRule }

/-- The row requests type `i` and no other. -/
def Requests (row : Row) (types i : ℕ) : Prop :=
  ∀ j < types, row (isDelegation j) = if j = i then 1 else 0

theorem sum_of_requests {i : ℕ} (inside : i < types) (requested : Requests row types i)
    (term : ℕ → Fr) : ∑ j ∈ Finset.range types, term j * row (isDelegation j) = term i := by
  have only : ∀ j ∈ Finset.range types, term j * row (isDelegation j) =
      if j = i then term j else 0 := by
    intro j member
    rw [requested j (Finset.mem_range.mp member)]
    split_ifs <;> simp
  rw [Finset.sum_congr rfl only, Finset.sum_ite_eq', if_pos (Finset.mem_range.mpr inside)]

theorem requests_eq_one {i : ℕ} (inside : i < types) (requested : Requests row types i) :
    requests row types = 1 := by
  simpa [requests] using sum_of_requests inside requested fun _ => 1

theorem requests_eq_zero (unset : ∀ j < types, row (isDelegation j) = 0) : requests row types = 0 :=
  Finset.sum_eq_zero fun j member => unset j (Finset.mem_range.mp member)

/-- What type `i`'s three gates pin. -/
structure Pinned (row : Row) (i : ℕ) : Prop where
  bit : row (isDelegation i) = 0 ∨ row (isDelegation i) = 1
  ecall : row (isDelegation i) = row (isDelegation i) * row isEcall
  number : row (isDelegation i) * row vRs1 =
    ((delegationNumber i : ℕ) : Fr) * row (isDelegation i)

theorem pinned_of_gates {i : ℕ} (gates : ∀ gate ∈ numberGates i, gate.2.value challenges row = 0) :
    Pinned row i := by
  simp only [numberGates, List.forall_mem_cons, List.not_mem_nil, IsEmpty.forall_iff,
    implies_true, and_true] at gates
  obtain ⟨boolean, ecall, number⟩ := gates
  simp only [quadratic, value_quadratic, List.map_cons, List.map_nil, List.sum_cons,
    List.sum_nil, coefficient_lit, coefficient_neg] at ecall number
  push_cast at ecall number
  obtain ⟨n, small, bitEq⟩ := bit_of_booleanity boolean
  exact
    { bit := by
        rcases Nat.le_one_iff_eq_zero_or_eq_one.mp small with rfl | rfl
        · exact Or.inl (by simpa using bitEq)
        · exact Or.inr (by simpa using bitEq)
      ecall := by linear_combination ecall
      number := by linear_combination number }

theorem delegationNumber_lt {i : ℕ} (inside : i < Delegation.types.length) :
    delegationNumber i < 2 ^ 16 :=
  (by decide : ∀ i < Delegation.types.length, delegationNumber i < 2 ^ 16) i inside

theorem delegationWords_le {i : ℕ} (inside : i < Delegation.types.length) :
    delegationWords i ≤ 97 :=
  (by decide : ∀ i < Delegation.types.length, delegationWords i ≤ 97) i inside

/-- No two types share a number. -/
theorem delegationNumber_inj {i j : ℕ} (left : i < Delegation.types.length)
    (right : j < Delegation.types.length) (same : delegationNumber i = delegationNumber j) :
    i = j :=
  (by decide : ∀ i < Delegation.types.length, ∀ j < Delegation.types.length,
    delegationNumber i = delegationNumber j → i = j) i left j right same

/-- The pinned selectors request nothing or one type, whose number `a7` is. -/
theorem unset_or_requests (known : types ≤ Delegation.types.length)
    (pinned : ∀ i < types, Pinned row i) :
    (∀ j < types, row (isDelegation j) = 0) ∨
      ∃ i < types, Requests row types i ∧ row vRs1 = ((delegationNumber i : ℕ) : Fr) := by
  by_cases set : ∃ i < types, row (isDelegation i) ≠ 0
  · obtain ⟨i, inside, nonzero⟩ := set
    have one : row (isDelegation i) = 1 := (pinned i inside).bit.resolve_left nonzero
    have numberIs : row vRs1 = ((delegationNumber i : ℕ) : Fr) := by
      have number := (pinned i inside).number
      rwa [one, one_mul, mul_one] at number
    refine Or.inr ⟨i, inside, fun j within => ?_, numberIs⟩
    split_ifs with same
    · rw [same, one]
    · refine (pinned j within).bit.resolve_right fun other => same ?_
      have number := (pinned j within).number
      rw [other, one_mul, mul_one, numberIs] at number
      have left := delegationNumber_lt (inside.trans_le known)
      have right := delegationNumber_lt (within.trans_le known)
      exact delegationNumber_inj (within.trans_le known) (inside.trans_le known)
        (fr_natCast_inj (by omega) (by omega) number.symm)
  · simp only [not_exists, not_and, not_not] at set
    exact Or.inl set

/-- A row that is no ecall requests nothing. -/
theorem unset_of_not_ecall (pinned : ∀ i < types, Pinned row i) (ecall : row isEcall = 0) :
    ∀ j < types, row (isDelegation j) = 0 := by
  intro j inside
  rw [(pinned j inside).ecall, ecall, mul_zero]

/-- The value an arithmetic instruction writes, on its pc and operands. -/
def arithmeticValue (instr : Instr) (pcWord a b : BitVec 32) : Option (BitVec 32) :=
  match instr with
  | .lui _ imm => some imm
  | .auipc _ imm => some (pcWord + imm)
  | .addi _ _ imm => some (a + imm)
  | .add .. => some (a + b)
  | .sub .. => some (a - b)
  | _ => none

/-- The row reads `rs1` and `rs2` and writes `rd`. -/
def QueriesAll (row : Row) : Prop :=
  row (frame slotRs1 fieldMask) = 1 ∧ row (frame slotRs2 fieldMask) = 1 ∧
    row (frame slotRd fieldMask) = 1

/-- What a live row of the family is. -/
inductive Outcome (types : ℕ) (row : Row) (instr : Instr)
    (pcWord seqWord a b : BitVec 32) : Prop
  | arithmetic (value : BitVec 32) (computes : arithmeticValue instr pcWord a b = some value)
      (written : row sel = wordFr value) (present : row (frame slotRd fieldMask) = 1)
      (falls : row nextPc = wordFr seqWord)
  | fence (fm pred succ : BitVec 8) (isFence : instr = .fence fm pred succ)
      (noRs1 : row (frame slotRs1 fieldMask) = 0) (noRs2 : row (frame slotRs2 fieldMask) = 0)
      (noRd : row (frame slotRd fieldMask) = 0) (noMirror : row mDeleg = 0)
      (falls : row nextPc = wordFr seqWord)
  | exit (isEcall : instr = .ecall) (queried : QueriesAll row)
      (readsA7 : row (frame slotRs1 fieldAddr) = ((a7 : ℕ) : Fr))
      (number : a.toNat = Ecall.exit) (halts : row nextPc = ((Clock.haltPc : ℕ) : Fr))
      (writesA0 : row (frame slotRd fieldAddr) = ((a0 : ℕ) : Fr))
      (kept : row (frame slotRd fieldWriteValue) = row vRd) (noMirror : row mDeleg = 0)
  | request (i : ℕ) (known : i < types) (isEcall : instr = .ecall) (queried : QueriesAll row)
      (readsA7 : row (frame slotRs1 fieldAddr) = ((a7 : ℕ) : Fr))
      (readsA0 : row (frame slotRs2 fieldAddr) = ((a0 : ℕ) : Fr))
      (requested : Requests row types i) (number : a.toNat = delegationNumber i)
      (mirror : row mDeleg = 1)
      (space : row (delegSpace queries.length) = ((delegationTag i : ℕ) : Fr))
      (address : row (frame slotDeleg fieldAddr) = wordFr b)
      (fresh : row (frame slotDeleg fieldReadTs) = 0)
      (unwritten : row (frame slotDeleg fieldReadValue) = 0)
      (writesA0 : row (frame slotRd fieldAddr) = ((a0 : ℕ) : Fr))
      (after : ∃ value : BitVec 32, value.toNat = Delegation.a0After i b.toNat ∧
        row (frame slotRd fieldWriteValue) = wordFr value)
      (falls : row nextPc = wordFr seqWord)

/-- The family's instructions. -/
theorem owned_cases {instr : Instr} (owned : (rowKind instr).1 = Family.addSubLuiAuipc) :
    instr = .ecall ∨ instr = .ebreak ∨ (∃ fm pred succ, instr = .fence fm pred succ) ∨
      (∃ rd rs1 imm, instr = .addi rd rs1 imm) ∨ (∃ rd imm, instr = .auipc rd imm) ∨
      (∃ rd rs1 rs2, instr = .add rd rs1 rs2) ∨ (∃ rd rs1 rs2, instr = .sub rd rs1 rs2) ∨
      (∃ rd imm, instr = .lui rd imm) := by
  cases instr <;> simp [rowKind, Family.addSubLuiAuipc, Family.jumpBranchSlt,
    Family.shiftBitwise, Family.mulDiv, Family.memWord, Family.memSubword,
    Family.atomics] at owned ⊢

/-- A row's decoded columns, read off the table. -/
structure Decoded (row : Row) (instr : Instr) (pcWord seqWord : BitVec 32) : Prop where
  pc : row AddSub.pc = wordFr pcWord
  nextPc : row decodedNextPc = wordFr seqWord
  rs1 : row decodedRs1 = wordFr ((instr.fields.rs1.getD 0).setWidth 32)
  rs2 : row decodedRs2 = wordFr ((instr.fields.rs2.getD 0).setWidth 32)
  rd : row decodedRd = wordFr ((instr.fields.rd.getD 0).setWidth 32)
  imm : row decodedImm = wordFr (rowImm instr)
  mask : row decodedMask = ((2 ^ (rowKind instr).2 : ℕ) : Fr)

theorem rowKind_lt {instr : Instr} (owned : (rowKind instr).1 = Family.addSubLuiAuipc) :
    (rowKind instr).2 < 32 := by
  rcases owned_cases owned with rfl | rfl | ⟨_, _, _, rfl⟩ | ⟨_, _, _, rfl⟩ | ⟨_, _, rfl⟩ |
    ⟨_, _, _, rfl⟩ | ⟨_, _, _, rfl⟩ | ⟨_, _, rfl⟩ <;> simp [rowKind]

theorem decoded_of_tuple {instr : Instr} {pcWord : BitVec 32} {compressed : Bool}
    (owned : (rowKind instr).1 = Family.addSubLuiAuipc)
    (tuple : (pc :: decodedColumns).map row = (decodedTuple instr pcWord compressed).map wordFr) :
    Decoded row instr pcWord (pcWord + if compressed then 2 else 4) := by
  have small := rowKind_lt owned
  have maskWord : (BitVec.ofNat 32 (1 <<< (rowKind instr).2)).toNat = 2 ^ (rowKind instr).2 := by
    rw [BitVec.toNat_ofNat, Nat.one_shiftLeft]
    exact Nat.mod_eq_of_lt (Nat.pow_lt_pow_right (by norm_num) small)
  simp only [decodedColumns, decodedTuple, owned, lookupTuple, rowValues, true_or, ↓reduceIte,
    List.map_cons, List.map_nil, List.getD_cons_zero, List.getD_cons_succ, List.cons.injEq,
    and_true] at tuple
  obtain ⟨pcEq, seqEq, rs1Eq, rs2Eq, rdEq, immEq, maskEq⟩ := tuple
  exact
    { pc := pcEq
      nextPc := seqEq
      rs1 := rs1Eq
      rs2 := rs2Eq
      rd := rdEq
      imm := immEq
      mask := by rw [← maskWord]; exact maskEq }

/-- The words and bits of a live row. -/
structure Columns (types : ℕ) (row : Row) (out next : BitVec 32) (carry pcCarry : ℕ) : Prop where
  sel : row AddSub.sel = wordFr out
  nextPc : row AddSub.nextPc = wordFr next
  wrap : row (AddSub.wrap types) = (carry : Fr)
  wrapBit : carry ≤ 1
  pcWrap : row (AddSub.pcWrap types) = (pcCarry : Fr)
  pcWrapBit : pcCarry ≤ 1

section Rows

variable {instr : Instr} {pcWord seqWord a b out next : BitVec 32} {carry pcCarry : ℕ}

/-- A row that is no exit falls through. -/
theorem falls_through (relations : Relations types row) (columns : Columns types row out next carry pcCarry)
    (decodedAs : Decoded row instr pcWord seqWord)
    (noExit : row isEcall - requests row types = 0) : row nextPc = wordFr seqWord := by
  have rule := relations.nextPcRule
  rw [noExit, columns.nextPc, columns.pcWrap, decodedAs.nextPc] at rule
  have seqBound := seqWord.isLt
  have residue : next.toNat = seqWord.toNat % 2 ^ 32 := by
    refine toNat_of_wrap seqWord.toNat columns.pcWrapBit (by omega) ?_
    push_cast at rule
    rw [show wordFr seqWord = (seqWord.toNat : Fr) from rfl] at rule
    linear_combination rule
  rw [columns.nextPc]
  congr 1
  exact BitVec.eq_of_toNat_eq (residue.trans (Nat.mod_eq_of_lt seqBound))

/-- An exit's next pc is the sentinel. -/
theorem halts_at_exit (relations : Relations types row)
    (columns : Columns types row out next carry pcCarry)
    (exits : row isEcall - requests row types = 1) :
    row nextPc = ((Clock.haltPc : ℕ) : Fr) := by
  have rule := relations.nextPcRule
  rw [exits, columns.nextPc, columns.pcWrap] at rule
  have residue := toNat_of_wrap Clock.haltPc columns.pcWrapBit (by norm_num [Clock.haltPc]) (by
    push_cast at rule ⊢
    linear_combination rule)
  rw [columns.nextPc, wordFr, residue]
  rfl

/-- The lookups and booleanity gates of a live row make words and bits of its columns. -/
theorem exists_columns (live : row pcMask = 1)
    (lookups : ∀ lookup ∈ (build types).lookups, lookup.channel ∈ [LookupChannel.range16] →
      lookup.Holds challenges decoded row)
    (wrapBoolean : (booleanity (wrap types)).value challenges row = 0)
    (pcWrapBoolean : (booleanity (pcWrap types)).value challenges row = 0) :
    ∃ (out next : BitVec 32) (carry pcCarry : ℕ), Columns types row out next carry pcCarry := by
  simp only [build, List.forall_mem_cons] at lookups
  obtain ⟨rdHigh, rdLow, nextHigh, nextLow, -⟩ := lookups
  obtain ⟨out, selEq, -⟩ := rangePair_word [(lit 1, sel)] live (rdHigh List.mem_cons_self)
    (rdLow List.mem_cons_self)
  obtain ⟨next, nextEq, -⟩ := rangePair_word [(lit 1, nextPc)] live (nextHigh List.mem_cons_self)
    (nextLow List.mem_cons_self)
  obtain ⟨carry, carryBit, carryEq⟩ := bit_of_booleanity wrapBoolean
  obtain ⟨pcCarry, pcCarryBit, pcCarryEq⟩ := bit_of_booleanity pcWrapBoolean
  exact ⟨out, next, carry, pcCarry,
    { sel := by simpa using selEq
      nextPc := by simpa using nextEq
      wrap := carryEq
      wrapBit := carryBit
      pcWrap := pcCarryEq
      pcWrapBit := pcCarryBit }⟩

/-- The sum of an arithmetic row, reduced by its wrap. -/
theorem out_of_sum {left right : BitVec 32} (columns : Columns types row out next carry pcCarry)
    (sum : row sel + ((2 ^ 32 : ℕ) : Fr) * row (wrap types) = wordFr left + wordFr right) :
    out = left + right := by
  refine add_of_wrap columns.wrapBit ?_
  rw [← sum, columns.sel, columns.wrap]
  push_cast
  ring

/-- The difference of a `sub` row, with its borrow. -/
theorem out_of_difference {left right : BitVec 32}
    (columns : Columns types row out next carry pcCarry)
    (difference : row sel = wordFr left - wordFr right + ((2 ^ 32 : ℕ) : Fr) * row (wrap types)) :
    out = left - right := by
  have bit := columns.wrapBit
  have leftBound := left.isLt
  have rightBound := right.isLt
  have outBound := out.isLt
  rw [columns.sel, columns.wrap, wordFr, wordFr, wordFr] at difference
  have total : out.toNat + right.toNat = left.toNat + 2 ^ 32 * carry := by
    refine fr_natCast_inj (by omega) (by omega) ?_
    push_cast at difference ⊢
    linear_combination difference
  refine BitVec.eq_of_toNat_eq ?_
  rw [BitVec.toNat_sub]
  omega

/-- A row that is neither an ecall nor a fence requests nothing and falls through. -/
theorem falls_through_of_not_ecall (relations : Relations types row)
    (columns : Columns types row out next carry pcCarry)
    (decodedAs : Decoded row instr pcWord seqWord) (pinned : ∀ i < types, Pinned row i)
    (ecall : row isEcall = 0) : row mDeleg = 0 ∧ row nextPc = wordFr seqWord := by
  have none := requests_eq_zero (unset_of_not_ecall pinned ecall)
  refine ⟨by rw [relations.delegMask, none, mul_zero], ?_⟩
  exact falls_through relations columns decodedAs (by rw [ecall, none, sub_zero])

/-- An ecall row is an exit or one request. -/
theorem outcome_of_ecall (known : types ≤ Delegation.types.length)
    (relations : Relations types row) (columns : Columns types row out next carry pcCarry)
    (decodedAs : Decoded row .ecall pcWord seqWord) (pinned : ∀ i < types, Pinned row i)
    (write : row (frame slotRd fieldAddr) ≠ 0 → row (frame slotRd fieldWriteValue) = row sel)
    (live : row pcMask = 1) (ecall : row isEcall = 1) (rs1 : row (frame slotRs1 fieldMask) = 1)
    (rs2 : row (frame slotRs2 fieldMask) = 1) (rd : row (frame slotRd fieldMask) = 1)
    (rs1Eq : row vRs1 = wordFr a) (rs2Eq : row vRs2 = wordFr b) :
    Outcome types row .ecall pcWord seqWord a b := by
  have absent : wordFr ((none : Option Reg).getD 0 |>.setWidth 32) = 0 := by simp [wordFr]
  have readsA7 : row (frame slotRs1 fieldAddr) = ((a7 : ℕ) : Fr) := by
    have rule := relations.rs1Addr
    rw [rs1, ecall, decodedAs.rs1, show Instr.ecall.fields.rs1 = none from rfl, absent] at rule
    linear_combination rule
  have readsA0 : row (frame slotRs2 fieldAddr) = ((a0 : ℕ) : Fr) := by
    have rule := relations.rs2Addr
    rw [rs2, ecall, decodedAs.rs2, show Instr.ecall.fields.rs2 = none from rfl, absent] at rule
    linear_combination rule
  have writesA0 : row (frame slotRd fieldAddr) = ((a0 : ℕ) : Fr) := by
    have rule := relations.rdAddr
    rw [rd, ecall, decodedAs.rd, show Instr.ecall.fields.rd = none from rfl, absent] at rule
    linear_combination rule
  have written : row (frame slotRd fieldWriteValue) = row sel := by
    refine write ?_
    rw [writesA0]
    decide +kernel
  have aBound := a.isLt
  rcases unset_or_requests known pinned with unset | ⟨i, inside, requested, numberIs⟩
  · have exits : row isEcall - requests row types = 1 := by
      rw [ecall, requests_eq_zero unset, sub_zero]
    have number := relations.isExit
    have kept := relations.exitStatus
    rw [exits, one_mul, rs1Eq] at number
    rw [exits, one_mul] at kept
    exact Outcome.exit rfl ⟨rs1, rs2, rd⟩ readsA7
      (fr_natCast_inj (by omega) (by norm_num [Ecall.exit]) (sub_eq_zero.mp number))
      (halts_at_exit relations columns exits) writesA0 (written.trans (sub_eq_zero.mp kept).symm)
      (by rw [relations.delegMask, requests_eq_zero unset, mul_zero])
  · have one := requests_eq_one inside requested
    have mirror : row mDeleg = 1 := by rw [relations.delegMask, live, one, mul_one]
    have fresh := relations.mirrorTs
    have unwritten := relations.mirrorValue
    have address := relations.mirrorAddr
    rw [mirror, one_mul] at fresh unwritten address
    have pays : row sel = owed row i := by
      have rule := relations.a0Rule
      simp only [live, one_mul, mul_comm (row (isDelegation _))] at rule
      rw [sum_of_requests inside requested] at rule
      exact sub_eq_zero.mp rule
    have small := delegationNumber_lt (inside.trans_le known)
    refine Outcome.request i inside rfl ⟨rs1, rs2, rd⟩ readsA7 readsA0 requested
      (fr_natCast_inj (by omega) (by omega) (rs1Eq.symm.trans numberIs)) mirror ?_
      ((sub_eq_zero.mp address).trans rs2Eq) fresh unwritten writesA0 ⟨out, ?_, ?_⟩ ?_
    · rw [relations.space, sum_of_requests inside requested]
    · have outBound := out.isLt
      have bBound := b.isLt
      have words := delegationWords_le (inside.trans_le known)
      rw [columns.sel, owed, rs2Eq] at pays
      rw [Delegation.a0After]
      by_cases base : i < Delegation.baseTypes
      · rw [if_neg (not_le.mpr base)] at pays
        rw [if_pos base]
        exact fr_natCast_inj (by omega) (by norm_num) (by simpa [wordFr] using pays)
      · rw [if_pos (not_lt.mp base)] at pays
        rw [if_neg base]
        have advanced : out.toNat = b.toNat + 4 * delegationWords i := by
          refine fr_natCast_inj (by omega) (by omega) ?_
          rw [Nat.cast_add]
          exact pays
        exact advanced
    · rw [written, columns.sel]
    · exact falls_through relations columns decodedAs (by rw [ecall, one, sub_self])

/-- An arithmetic row writes the machine's value and falls through. -/
theorem outcome_of_arithmetic {value : BitVec 32} (relations : Relations types row)
    (columns : Columns types row out next carry pcCarry)
    (decodedAs : Decoded row instr pcWord seqWord) (pinned : ∀ i < types, Pinned row i)
    (oneHot : ∀ k, (kinds.map row).getD k 0 = if k = (rowKind instr).2 then 1 else 0)
    (live : row pcMask = 1) (ecall : row isEcall = 0) (rs1Eq : row vRs1 = wordFr a)
    (rs2Eq : row vRs2 = wordFr b)
    (computes : arithmeticValue instr pcWord a b = some value) :
    Outcome types row instr pcWord seqWord a b := by
  have addiBit : row kindAddi = _ := oneHot 1
  have auipcBit : row kindAuipc = _ := oneHot 2
  have addBit : row kindAdd = _ := oneHot 3
  have subBit : row kindSub = _ := oneHot 4
  have luiBit : row kindLui = _ := oneHot 5
  have rs1Masked := relations.rs1Masked
  have rs2Masked := relations.rs2Masked
  have rdMask := relations.rdMask
  have sumRule := relations.sumRule
  have subRule := relations.subRule
  have luiRule := relations.luiRule
  have immEq := decodedAs.imm
  have pcEq := decodedAs.pc
  rw [relations.rs1Mask] at rs1Masked
  rw [relations.rs2Mask] at rs2Masked
  simp only [live, ecall, addiBit, auipcBit, addBit, subBit, luiBit]
    at rs1Masked rs2Masked rdMask sumRule subRule luiRule
  have computed : out = value ∧ row (frame slotRd fieldMask) = 1 := by
    cases instr with
    | addi rd rs1 imm =>
      obtain rfl := Option.some.inj computes
      simp only [rowKind, Nat.reduceEqDiff, ↓reduceIte] at rs1Masked rs2Masked rdMask sumRule
      have immIs : row decodedImm = wordFr imm := immEq
      refine ⟨out_of_sum columns ?_, by linear_combination rdMask⟩
      rw [← rs1Eq, ← immIs]
      linear_combination rs2Masked - sumRule
    | auipc rd imm =>
      obtain rfl := Option.some.inj computes
      simp only [rowKind, Nat.reduceEqDiff, ↓reduceIte] at rs1Masked rs2Masked rdMask sumRule
      have immIs : row decodedImm = wordFr imm := immEq
      refine ⟨out_of_sum columns ?_, by linear_combination rdMask⟩
      rw [← pcEq, ← immIs]
      linear_combination rs1Masked + rs2Masked - sumRule
    | add rd rs1 rs2 =>
      obtain rfl := Option.some.inj computes
      simp only [rowKind, Nat.reduceEqDiff, ↓reduceIte] at rdMask sumRule
      have noImm : row decodedImm = 0 := by
        rw [immEq]
        simp [rowImm, Instr.fields, Fields.r, wordFr]
      refine ⟨out_of_sum columns ?_, by linear_combination rdMask⟩
      rw [← rs1Eq, ← rs2Eq]
      linear_combination noImm - sumRule
    | sub rd rs1 rs2 =>
      obtain rfl := Option.some.inj computes
      simp only [rowKind, Nat.reduceEqDiff, ↓reduceIte] at rdMask subRule
      refine ⟨out_of_difference columns ?_, by linear_combination rdMask⟩
      rw [← rs1Eq, ← rs2Eq]
      linear_combination -subRule
    | lui rd imm =>
      obtain rfl := Option.some.inj computes
      simp only [rowKind, Nat.reduceEqDiff, ↓reduceIte] at rdMask luiRule
      refine ⟨wordFr_inj ?_, by linear_combination rdMask⟩
      rw [← columns.sel]
      refine Eq.trans ?_ immEq
      linear_combination -luiRule
    | _ => exact absurd computes (by simp [arithmeticValue])
  exact Outcome.arithmetic value computes (by rw [columns.sel, computed.1]) computed.2
    (falls_through_of_not_ecall relations columns decodedAs pinned ecall).2

end Rows

/-- **Soundness.** A live row whose decoded columns are a row of the family's
decoded table and whose operands are words is an arithmetic row, a fence, an exit
or a request of one delegation type, and never an `ebreak`. -/
theorem row_computes_addSub {instr : Instr} {pcWord a b : BitVec 32} {compressed : Bool}
    (known : types ≤ Delegation.types.length)
    (satisfied : RowSatisfies challenges decoded row (body types) [LookupChannel.range16])
    (live : row pcMask = 1) (owned : (rowKind instr).1 = Family.addSubLuiAuipc)
    (tuple : (pc :: decodedColumns).map row = (decodedTuple instr pcWord compressed).map wordFr)
    (rs1Eq : row vRs1 = wordFr a) (rs2Eq : row vRs2 = wordFr b) :
    Outcome types row instr pcWord (pcWord + if compressed then 2 else 4) a b ∧
      instr ≠ .ebreak := by
  obtain ⟨enforced, lookups⟩ := satisfied.family
  have relations := relations_of_gates enforced
  have decodedAs := decoded_of_tuple owned tuple
  have pinned : ∀ i < types, Pinned row i := fun i inside =>
    pinned_of_gates fun gate member => enforced gate (by
      simp only [build, List.mem_append, List.mem_flatMap, List.mem_range]
      exact Or.inl (Or.inl (Or.inl (Or.inl (Or.inr ⟨i, inside, member⟩)))))
  have write : row (frame slotRd fieldAddr) ≠ 0 → row (frame slotRd fieldWriteValue) = row sel :=
    write_of_x0Gates fun gate member => satisfied.enforcing gate
      (List.mem_append_left _ (List.mem_append_right _ member))
  have oneHot : ∀ k, (kinds.map row).getD k 0 = if k = (rowKind instr).2 then 1 else 0 :=
    kinds_oneHot rfl
      (fun gate (member : gate ∈ kindBooleans kindNames kinds) =>
        enforced gate (by simp [build, member]))
      (enforced ("decoded_mask_bits", decodedMaskBits kinds decodedMask) (by simp [build]))
      (by decide) (rowKind_lt owned) decodedAs.mask
  have columns := exists_columns live (fun lookup member => lookups lookup member)
    (enforced ("wrap_boolean", booleanity (wrap types)) (by simp [build, requestGates]))
    (enforced ("pc_wrap_boolean", booleanity (pcWrap types)) (by simp [build, requestGates]))
  obtain ⟨out, next, carry, pcCarry, columns⟩ := columns
  obtain ⟨e, eBit, ecallEq⟩ := bit_of_booleanity
    (enforced ("is_ecall_boolean", booleanity isEcall) (by simp [build, systemGates]))
  obtain ⟨f, fBit, fenceEq⟩ := bit_of_booleanity
    (enforced ("is_fence_boolean", booleanity isFence) (by simp [build, systemGates]))
  have system : row kindSystem = _ := oneHot 0
  have split := relations.split
  have ecallCode := relations.ecallCode
  have fenceCode := relations.fenceCode
  rw [system, ecallEq, fenceEq] at split
  rw [ecallEq, decodedAs.imm] at ecallCode
  rw [fenceEq, decodedAs.imm] at fenceCode
  have arithmetic (value : BitVec 32) (computes : arithmeticValue instr pcWord a b = some value)
      (noSystem : (rowKind instr).2 ≠ 0) :
      Outcome types row instr pcWord (pcWord + if compressed then 2 else 4) a b := by
    rw [if_neg noSystem.symm] at split
    have none : e + f = 0 := fr_natCast_inj (by omega) (by norm_num) (by exact_mod_cast split)
    have noEcall : row isEcall = 0 := by rw [ecallEq, show e = 0 by omega, Nat.cast_zero]
    exact outcome_of_arithmetic relations columns decodedAs pinned oneHot live noEcall rs1Eq rs2Eq
      computes
  have immBound := (rowImm instr).isLt
  have ecallNat : e * (rowImm instr).toNat = 0 := by
    have bound := Nat.mul_le_mul_right (rowImm instr).toNat eBit
    exact fr_natCast_inj (by omega) (by norm_num) (by rw [Nat.cast_mul, Nat.cast_zero]; exact ecallCode)
  have fenceNat : f * (rowImm instr).toNat = SystemCode.fence * f := by
    have bound := Nat.mul_le_mul_right (rowImm instr).toNat fBit
    refine fr_natCast_inj (by omega) (by rw [SystemCode.fence]; omega) ?_
    rw [Nat.cast_mul, Nat.cast_mul]
    exact fenceCode
  have addBit : row kindAdd = _ := oneHot 3
  have addiBit : row kindAddi = _ := oneHot 1
  have auipcBit : row kindAuipc = _ := oneHot 2
  have subBit : row kindSub = _ := oneHot 4
  have luiBit : row kindLui = _ := oneHot 5
  have rs1Mask := relations.rs1Mask
  have rs2Mask := relations.rs2Mask
  have rdMask := relations.rdMask
  simp only [live, ecallEq, addBit, addiBit, auipcBit, subBit, luiBit] at rs1Mask rs2Mask rdMask
  rcases owned_cases owned with rfl | rfl | ⟨fm, pred, succ, rfl⟩ | ⟨_, _, _, rfl⟩ |
    ⟨_, _, rfl⟩ | ⟨_, _, _, rfl⟩ | ⟨_, _, _, rfl⟩ | ⟨_, _, rfl⟩
  · have one : e + f = 1 :=
      fr_natCast_inj (by omega) (by norm_num) (by simpa [rowKind] using split)
    have ecall : row isEcall = 1 := by
      simp only [rowImm, SystemCode.ecall, SystemCode.fence, BitVec.toNat_ofNat, Nat.zero_mod,
        mul_zero] at fenceNat
      rw [ecallEq, show e = 1 by omega, Nat.cast_one]
    rw [ecallEq] at ecall
    simp only [rowKind, ecall, OfNat.ofNat_ne_zero, one_ne_zero, ↓reduceIte,
      zero_add, mul_one] at rs1Mask rs2Mask rdMask
    exact ⟨outcome_of_ecall known relations columns decodedAs pinned write live
      (ecallEq.trans ecall) rs1Mask rs2Mask rdMask rs1Eq rs2Eq, by simp⟩
  · simp only [rowImm, SystemCode.ebreak, SystemCode.fence, BitVec.toNat_ofNat, Nat.reducePow,
      Nat.reduceMod, mul_one] at ecallNat fenceNat
    have one : e + f = 1 :=
      fr_natCast_inj (by omega) (by norm_num) (by simpa [rowKind] using split)
    omega
  · simp only [rowImm, SystemCode.fence, BitVec.toNat_ofNat, Nat.reducePow, Nat.reduceMod]
      at ecallNat
    have noEcall : (e : Fr) = 0 := by rw [show e = 0 by omega, Nat.cast_zero]
    simp only [rowKind, noEcall, OfNat.ofNat_ne_zero, one_ne_zero, ↓reduceIte,
      add_zero, mul_zero] at rs1Mask rs2Mask rdMask
    obtain ⟨noMirror, falls⟩ := falls_through_of_not_ecall relations columns decodedAs pinned
      (ecallEq.trans noEcall)
    exact ⟨Outcome.fence fm pred succ rfl rs1Mask rs2Mask rdMask noMirror falls, by simp⟩
  all_goals exact ⟨arithmetic _ rfl (by simp [rowKind]), by simp⟩

/-- A request of the seventh type, whose frame is at `2^16`. -/
private def fieldOpRequest : Row :=
  Row.ofColumns
    [1, 1, 0, 0, 64, 68, 1, 17, 0, 1289, 1289, 1, 10, 0, 65536, 65536, 1, 10, 0, 65536, 65552, 1,
      65536, 0, 0, 0, 11]
    [0, 0, 0, 0, 0, 0, 0, 65552, 68, 0, 0, 0, 0, 1, 1, 0, 0, 0, 0, 0, 1, 0, 0, 0, 0, 0, 0, 0, 1, 0,
      0, 0, 0, 1, 0, 0]
    [(5, 10)]

theorem row_computes_addSub_fieldOpRequest :
    Outcome Delegation.types.length fieldOpRequest .ecall 64 (64 + if false then 2 else 4) 1289 65536 ∧
      Instr.ecall ≠ .ebreak :=
  row_computes_addSub le_rfl
    (show RowSatisfies ExternalChallenges.empty [] _ (body Delegation.types.length) _ from
      RowSatisfies.of_check (by decide +kernel) (by decide +kernel))
    (by decide +kernel) rfl (by decide +kernel) (by decide +kernel) (by decide +kernel)

end Apogee.AddSub
