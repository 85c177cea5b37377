import Apogee.Circuit.FrOp
import Apogee.Soundness.Delegation

/-! # The field-operation row

A live row's gates and obligations have a witness exactly when the frame is one,
every access the row makes reads the past, the operation's word is a code, the
accesses are the ones that code makes, and the values are related as it says.
-/

namespace Apogee.FrOp

open Delegation Gadgets

/-- One operation. -/
inductive Op
  | mul | add | sub | mac | inv | eq | imm | shl | digit
deriving DecidableEq

namespace Op

/-- The operation's code. -/
def code : Op → ℕ
  | mul => FrOp.mul
  | add => FrOp.add
  | sub => FrOp.sub
  | mac => FrOp.mac
  | inv => FrOp.inv
  | eq => FrOp.eq
  | imm => FrOp.imm
  | shl => FrOp.shl
  | digit => FrOp.digit

/-- Whether the operation reads `a`. -/
def readsA : Op → Bool
  | imm => false
  | _ => true

/-- Whether the operation reads `b`. -/
def readsB : Op → Bool
  | inv | imm | shl => false
  | _ => true

/-- Whether the operation writes `d`. -/
def writesD : Op → Bool
  | eq => false
  | _ => true

/-- What the operation relates: the frame's last word, the operands before the
row and the cells after it. -/
def Relates (word a b bNew d dNew : Fr) : Op → Prop
  | mul => dNew = a * b
  | add => dNew = a + b
  | sub => dNew = a - b
  | mac => dNew = d + a * b
  | inv => dNew = if a = 0 then 0 else a⁻¹
  | eq => a = b
  | imm => dNew = word
  | shl => dNew = a * ((2 ^ 32 : ℕ) : Fr) + word
  | digit => ∃ low < 2 ^ digitBits, dNew = ((low : ℕ) : Fr) ∧ a = dNew + ((2 ^ digitBits : ℕ) : Fr) * bNew

end Op

/-- What a row's columns say: one operation, exactly its accesses, its relation,
and `b` written back unless the operation splits into it. -/
def Computes (row : Row) : Prop :=
  ∃ op : Op, row (frame opWord) = ((op.code : ℕ) : Fr) ∧ row aLive = bitFr op.readsA ∧
    row bLive = bitFr op.readsB ∧ row dLive = bitFr op.writesD ∧
    op.Relates (row (frame bWord)) (row a) (row b) (row bNew) (row d) (row dNew) ∧
    (op ≠ .digit → row bNew = row b)

/-- What a live row's memory columns say. -/
structure RowOk (row : Row) : Prop where
  frame : FrameOk row frameWords frameBytes
  kept : ∀ j < frameWords, row (word j wordWriteValue) = row (word j wordReadValue)
  follows : ∀ access ∈ accesses, row access.mask = 1 → Follows row access.readTs access.delta
  computes : Computes row

/-- What is said of every access is said of the three. -/
theorem forall_accesses {property : Access → Prop} : (∀ access ∈ accesses, property access) ↔
      property aAccess ∧ property bAccess ∧ property dAccess := by
  simp [accesses]

section Sound

variable {challenges : ExternalChallenges} {decoded : List (List Fr)} {row : Row}

/-- The operation of a selector. -/
def opOf (i : ℕ) : Op :=
  [Op.mul, .add, .sub, .mac, .inv, .eq, .imm, .shl, .digit].getD i .mul

/-- A live row selects one operation, the one its frame names. -/
private theorem op_of_selectorGates (selected : row live = 1)
    (holds : ∀ gate ∈ selectorGates, gate.2.value challenges row = 0) :
    ∃ hot < 9, row (frame opWord) = (((opOf hot).code : ℕ) : Fr) ∧
      ∀ i < 9, row (selector i) = if i = hot then 1 else 0 := by
  simp only [selectorGates, List.forall_mem_append, List.forall_mem_map, List.forall_mem_cons,
    List.not_mem_nil, IsEmpty.forall_iff, implies_true, and_true] at holds
  obtain ⟨boolean, one, named⟩ := holds
  have bits : ∀ bit ∈ ops.map fun code => row (sel code), bit = 0 ∨ bit = 1 := by
    intro bit member
    obtain ⟨code, inside, rfl⟩ := List.mem_map.mp member
    obtain ⟨n, small, equal⟩ := bit_of_booleanity (boolean code inside)
    have cases : n = 0 ∨ n = 1 := by omega
    rcases cases with rfl | rfl
    · exact Or.inl (by simpa using equal)
    · exact Or.inr (by simpa using equal)
  have sum : (ops.map fun code => row (sel code)).sum = 1 := by
    simp only [linear, value_linear, List.map_cons, List.map_map, Function.comp_def,
      List.sum_cons, coefficient_neg, coefficient_lit, selected, Nat.cast_one, one_mul, mul_one]
      at one
    push_cast at one
    linear_combination one
  obtain ⟨hot, inside, each⟩ := oneHot_of_sum bits (by norm_num [ops]) sum
  rw [List.length_map] at inside
  have few : hot < 9 := inside
  have hots : ∀ i < 9, row (selector i) = if i = hot then 1 else 0 := by
    intro i small
    rw [← each i]
    interval_cases i <;> rfl
  refine ⟨hot, few, ?_, hots⟩
  simp only [linear, value_linear, ops, sel, mul, add, sub, mac, inv, eq, imm, shl, digit,
    List.map_cons, List.map_nil, List.sum_cons, List.sum_nil, coefficient_neg, coefficient_lit,
    Nat.reduceSub, hots 0 (by norm_num), hots 1 (by norm_num), hots 2 (by norm_num),
    hots 3 (by norm_num), hots 4 (by norm_num), hots 5 (by norm_num), hots 6 (by norm_num),
    hots 7 (by norm_num), hots 8 (by norm_num)] at named
  interval_cases hot
  all_goals
    simp only [opOf, Op.code, mul, add, sub, mac, inv, eq, imm, shl, digit, List.getD_cons_zero,
      List.getD_cons_succ]
    norm_num at named ⊢
    linear_combination -named

/-- A masked access follows its rule. -/
private theorem mask_of_maskGates {name : String} {mask : PolyAddress} {codes : List ℕ}
    (holds : ∀ gate ∈ maskGates name mask codes, gate.2.value challenges row = 0) :
    row mask = (codes.map fun code => row (sel code)).sum := by
  simp only [maskGates, List.forall_mem_cons, List.not_mem_nil, IsEmpty.forall_iff, implies_true,
    and_true] at holds
  have equal := holds.2
  simp only [linear, value_linear, List.map_cons, List.map_map, Function.comp_def, List.sum_cons,
    coefficient_neg, coefficient_lit, List.sum_map_mul_left] at equal
  push_cast at equal
  linear_combination equal

/-- What a live row's gates say of its operation. -/
theorem computes_of_gates (selected : row live = 1)
    (holds : ∀ gate ∈ gates, gate.2.value challenges row = 0)
    (digits : ∀ lookup ∈ digitLookups, lookup.Holds challenges decoded row) : Computes row := by
  simp only [gates, List.forall_mem_append] at holds
  obtain ⟨⟨⟨⟨selectors, aMask⟩, bMask⟩, dMask⟩, operations⟩ := holds
  obtain ⟨hot, few, named, hots⟩ := op_of_selectorGates selected selectors
  have aEq := mask_of_maskGates aMask
  have bEq := mask_of_maskGates bMask
  have dEq := mask_of_maskGates dMask
  simp only [operationGates, rule, quadratic, List.forall_mem_cons, List.not_mem_nil,
    IsEmpty.forall_iff, implies_true, and_true, value_quadratic, List.map_cons, List.map_nil,
    List.sum_cons, List.sum_nil, coefficient_neg, coefficient_lit, sel, mul, add, sub, mac, inv,
    eq, imm, shl, digit, Nat.reduceSub, hots 0 (by norm_num), hots 1 (by norm_num),
    hots 2 (by norm_num), hots 3 (by norm_num), hots 4 (by norm_num), hots 5 (by norm_num),
    hots 6 (by norm_num), hots 7 (by norm_num), hots 8 (by norm_num)] at operations
  obtain ⟨xRule, prodRule, mulRule, addRule, subRule, macRule, eqRule, immRule, shlRule, invRule,
    digitRule, bKept, zBoolean, zKillsA, zKillsD, zOnlyInv⟩ := operations
  refine ⟨opOf hot, named, ?_⟩
  simp only [aOps, bOps, dOps, List.map_cons, List.map_nil, List.sum_cons, List.sum_nil, sel, mul,
    add, sub, mac, inv, eq, imm, shl, digit, Nat.reduceSub, hots 0 (by norm_num),
    hots 1 (by norm_num), hots 2 (by norm_num), hots 3 (by norm_num), hots 4 (by norm_num),
    hots 5 (by norm_num), hots 6 (by norm_num), hots 7 (by norm_num), hots 8 (by norm_num)]
    at aEq bEq dEq
  interval_cases hot
  all_goals
    norm_num at xRule prodRule mulRule addRule subRule macRule eqRule immRule shlRule invRule
    norm_num at digitRule bKept zKillsA zKillsD zOnlyInv aEq bEq dEq
    refine ⟨by simp [aEq, opOf, Op.readsA], by simp [bEq, opOf, Op.readsB],
      by simp [dEq, opOf, Op.writesD], ?_⟩
    simp only [opOf, List.getD_cons_zero, List.getD_cons_succ, Op.Relates]
  · exact ⟨by linear_combination mulRule + prodRule + row a * xRule,
      fun _ => by linear_combination bKept⟩
  · exact ⟨by linear_combination addRule, fun _ => by linear_combination bKept⟩
  · exact ⟨by linear_combination subRule, fun _ => by linear_combination bKept⟩
  · exact ⟨by linear_combination macRule + prodRule + row a * xRule,
      fun _ => by linear_combination bKept⟩
  · refine ⟨?_, fun _ => by linear_combination bKept⟩
    -- the flag settles which of the two products the equation leaves
    split_ifs with vanishes
    · refine zKillsD.resolve_left ?_
      intro unflagged
      rw [vanishes, zero_mul, neg_zero, add_zero] at prodRule
      rw [prodRule, unflagged] at invRule
      norm_num at invRule
    · have unflagged : row z = 0 := zKillsA.resolve_right vanishes
      refine eq_inv_of_mul_eq_one_right ?_
      linear_combination invRule - prodRule - row a * xRule - unflagged
  · exact ⟨by linear_combination eqRule, fun _ => by linear_combination bKept⟩
  · exact ⟨by linear_combination immRule, fun _ => by linear_combination bKept⟩
  · exact ⟨by linear_combination shlRule, fun _ => by linear_combination bKept⟩
  · have on : row (sel digit) = 1 := by simpa [sel, digit] using hots 8 (by norm_num)
    obtain ⟨low, small, lowEq⟩ := (keyBound_holds_iff on (by norm_num [digitBits])).mp digits
    refine ⟨⟨low, small, lowEq, ?_⟩, fun other => absurd rfl other⟩
    push_cast
    linear_combination digitRule

/-- The accesses' masks are bits. -/
theorem mask_boolean (computes : Computes row) :
    ∀ access ∈ accesses, row access.mask = 0 ∨ row access.mask = 1 := by
  obtain ⟨op, -, aEq, bEq, dEq, -⟩ := computes
  have bit (flag : Bool) : bitFr flag = 0 ∨ bitFr flag = 1 := by cases flag <;> simp
  exact forall_accesses.mpr ⟨aEq ▸ bit _, bEq ▸ bit _, dEq ▸ bit _⟩

/-- The accesses' committed chunks. -/
theorem exists_chunks : ∀ access ∈ accesses, ∃ high higher, access.gap = [high, higher] :=
  forall_accesses.mpr ⟨⟨_, _, rfl⟩, ⟨_, _, rfl⟩, ⟨_, _, rfl⟩⟩

/-- A live row's gates and obligations, the frame's among them, say what its
memory columns are. -/
theorem rowOk_of_satisfies (selected : row live = 1)
    (holds : Satisfies challenges decoded row body) : RowOk row := by
  obtain ⟨gates, lookups⟩ := holds
  simp only [body, readOnlyGates, List.forall_mem_append, List.mem_flatMap, forall_exists_index,
    and_imp] at gates lookups
  obtain ⟨⟨frameGates, written⟩, own⟩ := gates
  obtain ⟨⟨frameLookups, gaps⟩, digits⟩ := lookups
  have computes := computes_of_gates selected own digits
  refine ⟨((frameHolds_iff selected).mp ⟨frameGates, frameLookups⟩).1, ?_, ?_, computes⟩
  · exact writesBack_iff.mp written
  · intro access member on
    obtain ⟨high, higher, chunks⟩ := exists_chunks access member
    exact ((access_holds_iff chunks (mask_boolean computes access member)).mp
      (fun lookup inside => gaps lookup access member inside) on).1

end Sound

section Complete

variable {challenges : ExternalChallenges} {decoded : List (List Fr)} {row : Row}

/-- The witness columns of an operation, after the frame's. -/
def columns (row : Row) (op : Op) : List Fr :=
  let x := match op with
    | .mul | .mac => row b
    | .inv => row dNew
    | _ => 0
  [chunkOf (gapOf row aReadTs deltaA) 0, chunkOf (gapOf row aReadTs deltaA) 1,
    chunkOf (gapOf row bReadTs deltaB) 0, chunkOf (gapOf row bReadTs deltaB) 1,
    chunkOf (gapOf row dReadTs deltaD) 0, chunkOf (gapOf row dReadTs deltaD) 1] ++
  ((List.range 9).map fun i => bitFr (opOf i = op)) ++
  [x, row a * x, bitFr (op = .inv ∧ row a = 0)]

/-- The row of an operation. -/
def rowOf (row : Row) (op : Op) : Row :=
  withFrame frameWords frameBytes row fun i => (columns row op).getD i 0

theorem gates_of_computes {op : Op} (selected : row live = 1)
    (named : row (frame opWord) = ((op.code : ℕ) : Fr)) (aEq : row aLive = bitFr op.readsA)
    (bEq : row bLive = bitFr op.readsB) (dEq : row dLive = bitFr op.writesD)
    (relates : op.Relates (row (frame bWord)) (row a) (row b) (row bNew) (row d) (row dNew))
    (kept : op ≠ .digit → row bNew = row b) :
    ∀ gate ∈ gates, gate.2.value challenges (rowOf row op) = 0 := by
  have witness (i : ℕ) : rowOf row op (w i) = (columns row op).getD i 0 := withFrame_witness _ _ _ _
  have memory (address : PolyAddress) (inMemory : ∃ i, address = .memory i) :
      rowOf row op address = row address := by
    obtain ⟨i, rfl⟩ := inMemory
    rfl
  simp only [gates, selectorGates, maskGates, operationGates, rule, quadratic, linear, booleanity,
    ops, aOps, bOps, dOps, sel, selector, List.map_cons, List.map_nil, List.cons_append,
    List.nil_append, List.forall_mem_cons, List.not_mem_nil, IsEmpty.forall_iff, implies_true,
    and_true, value_quadratic, value_linear, List.sum_cons, List.sum_nil, coefficient_neg,
    coefficient_lit, mul, add, sub, mac, inv, eq, imm, shl, digit, Nat.reduceSub, Nat.reduceAdd,
    x, prod, z, witness, columns, List.range, List.range.loop,
    memory live ⟨_, rfl⟩, memory (frame opWord) ⟨_, rfl⟩, memory (frame bWord) ⟨_, rfl⟩,
    memory aLive ⟨_, rfl⟩, memory bLive ⟨_, rfl⟩, memory dLive ⟨_, rfl⟩, memory a ⟨_, rfl⟩,
    memory b ⟨_, rfl⟩, memory bNew ⟨_, rfl⟩, memory d ⟨_, rfl⟩, memory dNew ⟨_, rfl⟩,
    selected, named, aEq, bEq, dEq]
  cases op with
  | digit =>
    obtain ⟨low, -, -, split⟩ := relates
    rw [digitBits] at split
    push_cast at split
    simp [opOf, Op.code, Op.readsA, Op.readsB, Op.writesD, digitBits, digit]
    exact ⟨by linear_combination split, by ring⟩
  | inv =>
    have same := kept (by decide)
    simp only [Op.Relates] at relates
    simp [opOf, Op.code, Op.readsA, Op.readsB, Op.writesD, inv, same]
    split_ifs at relates with vanishes
    · simp [relates, vanishes]
    · simp [relates, vanishes]
  | _ =>
    have same := kept (by decide)
    simp only [Op.Relates] at relates
    simp [opOf, Op.code, Op.readsA, Op.readsB, Op.writesD, relates, same, mul, add, sub, mac,
      eq, imm, shl]
    try ring

/-- A row whose memory columns are an operation's has witness columns. -/
theorem satisfies_of_rowOk (selected : row live = 1) (ok : RowOk row) :
    ∃ columns, Satisfies challenges decoded (row.withWitness columns) body := by
  obtain ⟨op, named, aEq, bEq, dEq, relates, kept⟩ := ok.computes
  have framed := @frameHolds_withFrame challenges decoded row frameWords frameBytes
    (fun i => (columns row op).getD i 0) selected ok.frame
  have witness (i : ℕ) : rowOf row op (w i) = (columns row op).getD i 0 := withFrame_witness _ _ _ _
  have own := @gates_of_computes challenges row op selected named aEq bEq dEq relates kept
  refine ⟨fun i => rowOf row op (.witness i), ?_⟩
  have same : row.withWitness (fun i => rowOf row op (.witness i)) = rowOf row op := by
    funext address
    cases address <;> rfl
  rw [same]
  refine ⟨?_, ?_⟩
  · simp only [body, readOnlyGates, List.forall_mem_append]
    exact ⟨⟨framed.gates, writesBack_iff.mpr ok.kept⟩, own⟩
  · simp only [body, List.forall_mem_append, List.mem_flatMap, forall_exists_index, and_imp]
    refine ⟨⟨framed.lookups, ?_⟩, ?_⟩
    · have gaps : ∀ access ∈ accesses, ∀ lookup ∈ access.gapLookups,
          lookup.Holds challenges decoded (rowOf row op) := by
        have follows := forall_accesses.mp ok.follows
        have masks := forall_accesses.mp
          (mask_boolean (show Computes (rowOf row op) from ok.computes))
        refine forall_accesses.mpr ⟨?_, ?_, ?_⟩
        · refine (access_holds_iff rfl masks.1).mpr fun on => ⟨follows.1 on, ?_, ?_⟩
          · exact witness 0
          · exact witness 1
        · refine (access_holds_iff rfl masks.2.1).mpr fun on => ⟨follows.2.1 on, ?_, ?_⟩
          · exact witness 2
          · exact witness 3
        · refine (access_holds_iff rfl masks.2.2).mpr fun on => ⟨follows.2.2 on, ?_, ?_⟩
          · exact witness 4
          · exact witness 5
      exact fun lookup access member inside => gaps access member lookup inside
    · have flag : rowOf row op (sel digit) = bitFr (op = .digit) := by
        rw [show sel digit = w 14 from rfl, witness]
        cases op <;> rfl
      by_cases splits : op = .digit
      · subst splits
        obtain ⟨low, small, lowEq, -⟩ := relates
        exact (keyBound_holds_iff flag (by norm_num [digitBits])).mpr ⟨low, small, lowEq⟩
      · have off : rowOf row op (sel digit) = 0 := by rw [flag]; simp [splits]
        refine List.forall_mem_cons.mpr ⟨range_holds_of_off off, ?_⟩
        exact List.forall_mem_singleton.mpr (range_holds_of_off off)

/-- **The field-operation circuit.** A live row's gates and obligations hold for
some witness columns exactly when its memory columns are an operation's. -/
theorem satisfies_iff (selected : row live = 1) :
    (∃ columns, Satisfies challenges decoded (row.withWitness columns) body) ↔ RowOk row := by
  constructor
  · intro given
    obtain ⟨columns, holds⟩ := given
    have ok := @rowOk_of_satisfies challenges decoded (row.withWitness columns) selected holds
    exact ⟨⟨ok.frame.addr, ok.frame.follows, ok.frame.aligned, ok.frame.inWindow⟩, ok.kept,
      forall_accesses.mpr (forall_accesses.mp ok.follows), ok.computes⟩
  · exact satisfies_of_rowOk selected

end Complete

end Apogee.FrOp
