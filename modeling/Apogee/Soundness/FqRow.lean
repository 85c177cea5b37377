import Apogee.Soundness.FqOp

/-! # What a base-field operation row asserts, and who fills it

The chunks of a row bound its limbs, its quotient and its carries. The gates and
obligations together hold of exactly the rows whose identity closes, and the
prover's columns close it where the witness has any.
-/

namespace Apogee.FqOp

open Delegation Gadgets Math

section Obligations

variable {challenges : ExternalChallenges} {decoded : List (List Fr)} {row : Row}

/-- A selected 19-bit obligation bounds its expression. -/
theorem ts19_holds_iff {name : String} {terms : List (Coeff × PolyAddress)} {constant : Coeff}
    (selected : row live = 1) :
    (ts19 name terms constant).Holds challenges decoded row ↔
      ∃ n < 2 ^ 19, (GateDef.linear terms constant).value challenges row = ((n : ℕ) : Fr) := by
  constructor
  · intro holds
    obtain ⟨n, small, tuple⟩ := holds
    refine ⟨n, small, ?_⟩
    have equal := List.head_eq_of_cons_eq tuple
    simpa [ts19, gating, Gating.offset, Gating.neutral, LookupChannel.timestamp,
      LookupChannel.generic, LookupChannel.decoder, selected] using equal
  · intro given
    obtain ⟨n, small, equal⟩ := given
    refine ⟨n, small, ?_⟩
    simp [ts19, LookupExpr.gatedTuple, gating, Gating.offset, Gating.neutral,
      LookupChannel.timestamp, LookupChannel.generic, LookupChannel.decoder, selected, equal]

/-- A selected 19-bit obligation on a column bounds it. -/
theorem ts19_column_iff {name : String} {x : PolyAddress} (selected : row live = 1) :
    (ts19 name [(lit 1, x)] (lit 0)).Holds challenges decoded row ↔
      ∃ n < 2 ^ 19, row x = ((n : ℕ) : Fr) := by
  rw [ts19_holds_iff selected]
  simp [value_linear]

/-- A selected 16-bit obligation on a column bounds it. -/
theorem r16_column_iff {name : String} {x : PolyAddress} (selected : row live = 1) :
    (r16 name [(lit 1, x)]).Holds challenges decoded row ↔ ∃ n < 2 ^ 16, row x = ((n : ℕ) : Fr) := by
  rw [r16, range_holds_iff selected]
  simp [linear, value_linear]

/-- The gaps' obligations say that each read precedes its slot, and that the
committed chunk is the gap's high one. -/
theorem gapLookups_iff (selected : row live = 1) :
    (∀ lookup ∈ gapLookups, lookup.Holds challenges decoded row) ↔
      ∀ k < gaps, Follows row (gap k).2.1 (gap k).2.2 ∧
        row (gapHi k) = ((gapOf row (gap k).2.1 (gap k).2.2 / 2 ^ 19 : ℕ) : Fr) := by
  simp only [gapLookups, List.forall_mem_flatMap, List.mem_range, List.forall_mem_cons,
    List.not_mem_nil, IsEmpty.forall_iff, implies_true, and_true]
  refine forall₂_congr fun k _ => ?_
  rw [ts19_column_iff selected, ts19_holds_iff selected]
  simp only [value_linear, List.map_cons, List.map_nil, List.sum_cons, List.sum_nil,
    coefficient_lit, coefficient_neg, coefficient_literal]
  constructor
  · intro given
    obtain ⟨⟨high, highSmall, highEq⟩, low, lowSmall, lowEq⟩ := given
    have follows : Follows row (gap k).2.1 (gap k).2.2 := by
      refine ⟨low + 2 ^ 19 * high, by rw [Clock.tsBits]; omega, ?_⟩
      rw [highEq] at lowEq
      push_cast at lowEq ⊢
      linear_combination lowEq
    obtain ⟨small, equal⟩ := gapOf_of_follows follows
    have same : gapOf row (gap k).2.1 (gap k).2.2 = low + 2 ^ 19 * high := by
      refine fr_natCast_inj (lt_trans small (by norm_num [Clock.tsBits])) (by omega) ?_
      rw [highEq] at lowEq
      push_cast at lowEq equal ⊢
      linear_combination lowEq - equal
    refine ⟨follows, ?_⟩
    rw [highEq, same]
    congr 1
    omega
  · intro given
    obtain ⟨follows, highEq⟩ := given
    obtain ⟨small, equal⟩ := gapOf_of_follows follows
    rw [Clock.tsBits] at small
    refine ⟨⟨_, by omega, highEq⟩, gapOf row (gap k).2.1 (gap k).2.2 % 2 ^ 19, by omega, ?_⟩
    have parts : ((gapOf row (gap k).2.1 (gap k).2.2 : ℕ) : Fr) =
        ((gapOf row (gap k).2.1 (gap k).2.2 % 2 ^ 19 +
          2 ^ 19 * (gapOf row (gap k).2.1 (gap k).2.2 / 2 ^ 19) : ℕ) : Fr) := by
      rw [Nat.mod_add_div]
    rw [parts] at equal
    rw [highEq]
    push_cast at equal ⊢
    linear_combination equal

/-- Columns in range are the chunks of a number. -/
theorem exists_chunked {x : ℕ → PolyAddress} {bits count : ℕ}
    (each : ∀ c < count, ∃ n < 2 ^ bits, row (x c) = ((n : ℕ) : Fr)) :
    ∃ n < (2 ^ bits) ^ count,
      ((List.range count).map fun c => pow2 (bits * c) * row (x c)).sum = ((n : ℕ) : Fr) := by
  choose! chunk small equal using each
  refine ⟨limbSum (2 ^ bits) chunk count, limbSum_lt small, ?_⟩
  rw [cast_limbSum, list_sum_range, limbSum]
  refine Finset.sum_congr rfl fun c member => ?_
  rw [equal c (Finset.mem_range.mp member), pow2, pow_mul]
  push_cast
  rfl

/-- A number's chunks sum to it. -/
theorem sum_chunksOf {x : ℕ → PolyAddress} {bits count n : ℕ} (small : n < (2 ^ bits) ^ count)
    (each : ∀ c < count, row (x c) = (((chunksOf bits count n).getD c 0 : ℕ) : Fr)) :
    ((List.range count).map fun c => pow2 (bits * c) * row (x c)).sum = ((n : ℕ) : Fr) := by
  have whole := limbSum_limbAt_of_lt small
  rw [← whole, cast_limbSum, list_sum_range, limbSum]
  refine Finset.sum_congr rfl fun c member => ?_
  have inside := Finset.mem_range.mp member
  rw [each c inside, chunksOf, pow2, limbAt]
  simp [inside, pow_mul]

/-- A number's chunks are in range. -/
theorem getD_chunksOf_lt (bits count n c : ℕ) : (chunksOf bits count n).getD c 0 < 2 ^ bits := by
  rw [chunksOf, List.getD_eq_getElem?_getD, List.getElem?_map]
  by_cases inside : c < count
  · rw [List.getElem?_range inside]
    exact Nat.mod_lt _ (Nat.two_pow_pos bits)
  · rw [List.getElem?_eq_none (by simpa using inside)]
    exact Nat.two_pow_pos bits

/-- The new limbs' obligations say that each limb fits, with its upper chunks
committed. -/
theorem limbLookups_iff (selected : row live = 1) :
    (∀ lookup ∈ limbLookups, lookup.Holds challenges decoded row) ↔
      ∀ i < 4, (row (dNew i)).val < 2 ^ 64 ∧ ∀ c ∈ [1, 2, 3],
        row (dChunk i c) = (((row (dNew i)).val / 2 ^ (16 * c) % 2 ^ 16 : ℕ) : Fr) := by
  simp only [limbLookups, elementCells, List.forall_mem_flatMap, List.mem_range,
    List.forall_mem_append, List.map_cons, List.map_nil, List.forall_mem_cons, List.not_mem_nil,
    IsEmpty.forall_iff, implies_true, and_true]
  refine forall₂_congr fun i _ => ?_
  rw [r16_column_iff selected, r16_column_iff selected, r16_column_iff selected, r16,
    range_holds_iff selected]
  simp only [linear, value_linear, List.map_cons, List.map_nil, List.sum_cons, List.sum_nil,
    coefficient_lit, coefficient_neg]
  constructor
  · intro given
    obtain ⟨⟨⟨first, firstSmall, firstEq⟩, ⟨second, secondSmall, secondEq⟩,
      ⟨third, thirdSmall, thirdEq⟩⟩, low, lowSmall, lowEq⟩ := given
    have whole : row (dNew i) =
        ((low + 2 ^ 16 * first + 2 ^ 32 * second + 2 ^ 48 * third : ℕ) : Fr) := by
      rw [firstEq, secondEq, thirdEq] at lowEq
      push_cast at lowEq ⊢
      linear_combination lowEq
    rw [firstEq, secondEq, thirdEq, whole, fr_val_natCast (by omega)]
    refine ⟨by omega, ?_, ?_, ?_⟩
    · congr 1
      omega
    · congr 1
      omega
    · congr 1
      omega
  · intro given
    obtain ⟨small, firstEq, secondEq, thirdEq⟩ := given
    refine ⟨⟨⟨_, Nat.mod_lt _ (Nat.two_pow_pos 16), firstEq⟩,
      ⟨_, Nat.mod_lt _ (Nat.two_pow_pos 16), secondEq⟩,
      ⟨_, Nat.mod_lt _ (Nat.two_pow_pos 16), thirdEq⟩⟩,
      (row (dNew i)).val % 2 ^ 16, Nat.mod_lt _ (Nat.two_pow_pos 16), ?_⟩
    rw [firstEq, secondEq, thirdEq]
    generalize limbEq : (row (dNew i)).val = limb at small ⊢
    have same : row (dNew i) = ((limb : ℕ) : Fr) := by
      rw [← limbEq, ZMod.natCast_zmod_val]
    have parts : limb = limb % 2 ^ 16 + 2 ^ 16 * (limb / 2 ^ (16 * 1) % 2 ^ 16) +
        2 ^ 32 * (limb / 2 ^ (16 * 2) % 2 ^ 16) + 2 ^ 48 * (limb / 2 ^ (16 * 3) % 2 ^ 16) := by
      omega
    have cast := congrArg (Nat.cast (R := Fr)) parts
    rw [same]
    push_cast at cast ⊢
    linear_combination cast

/-- The quotient's obligations bound its chunks. -/
theorem quotientLookups_iff (selected : row live = 1) :
    (∀ lookup ∈ quotientLookups, lookup.Holds challenges decoded row) ↔
      ∀ j < 4, ∀ c < 4, ∃ n < 2 ^ kBits j, row (kChunk j c) = ((n : ℕ) : Fr) := by
  simp only [quotientLookups, List.forall_mem_flatMap, List.forall_mem_map, List.mem_range]
  refine forall₂_congr fun j inside => forall₂_congr fun c _ => ?_
  by_cases top : j = 3
  · rw [if_pos top, ts19_column_iff selected, kBits, if_neg (by omega)]
  · rw [if_neg top, r16_column_iff selected, kBits, if_pos (by omega)]

/-- The carries' obligations bound their chunks. -/
theorem carryLookups_iff (selected : row live = 1) :
    (∀ lookup ∈ carryLookups, lookup.Holds challenges decoded row) ↔
      ∀ g < 3, ∀ c < 4, ∃ n < 2 ^ 19, row (carryChunk g c) = ((n : ℕ) : Fr) := by
  simp only [carryLookups, List.forall_mem_flatMap, List.forall_mem_map, List.mem_range,
    ts19_column_iff selected]

end Obligations

/-- An operand's limbs on a row. -/
def limbsOf (row : Row) (x : ℕ → PolyAddress) : List ℕ :=
  (List.range elementCells).map fun i => (row (x i)).val

/-- The number an operand's limbs make. -/
def number (row : Row) (x : ℕ → PolyAddress) : ℕ := value (limbsOf row x)

section Limbs

variable {row : Row} {x : ℕ → PolyAddress}

theorem getD_limbsOf {i : ℕ} (inside : i < 4) : (limbsOf row x).getD i 0 = (row (x i)).val := by
  simp [limbsOf, elementCells, inside]

/-- A column holds its limb. -/
theorem row_eq_limb (row : Row) (x : ℕ → PolyAddress) {i : ℕ} (inside : i < 4) :
    row (x i) = (((limbsOf row x).getD i 0 : ℕ) : Fr) := by
  rw [getD_limbsOf inside, ZMod.natCast_zmod_val]

theorem isElement_limbsOf (small : ∀ i < 4, (row (x i)).val < 2 ^ 64) : IsElement (limbsOf row x) := by
  refine ⟨by simp [limbsOf, elementCells], ?_⟩
  simpa [InRange, limbsOf, elementCells] using small

/-- Equal columns hold one number. -/
theorem limbsOf_congr {y : ℕ → PolyAddress} (same : ∀ i < 4, row (x i) = row (y i)) :
    limbsOf row x = limbsOf row y :=
  List.map_congr_left fun i member => congrArg ZMod.val (same i (List.mem_range.mp member))

theorem number_eq (row : Row) (x : ℕ → PolyAddress) : number row x =
    (row (x 0)).val + 2 ^ 64 * (row (x 1)).val +
      2 ^ 128 * ((row (x 2)).val + 2 ^ 64 * (row (x 3)).val) := by
  simp only [number, value, limbsOf, elementCells, List.range_succ, List.range_zero, List.nil_append,
    List.cons_append, List.map_cons, List.map_nil, Nat.ofDigits_cons, Nat.ofDigits_nil]
  ring

end Limbs

/-- The left operand an operation's witness is over: none on a packing, whose
cells are no limbs. -/
def Op.left (x : List ℕ) : Op → List ℕ
  | from128 => [0, 0, 0, 0]
  | _ => x

/-- What an operation says of its operands and the new element. -/
def Op.Relates (row : Row) : Op → Prop
  | mul => number row dNew ≡ number row a * number row b [MOD value q]
  | add => number row dNew ≡ number row a + number row b [MOD value q]
  | sub => (number row dNew : ℤ) ≡ number row a - number row b [ZMOD value q]
  | muleq => (∀ i < 4, row (dNew i) = row (dOld i)) ∧
      number row a * number row b ≡ number row dOld [MOD value q]
  | from128 => (row (a 0)).val < 2 ^ 128 ∧ (row (a 1)).val < 2 ^ 128 ∧
      number row dNew = (row (a 0)).val + 2 ^ 128 * (row (a 1)).val

/-- What a row says of the call its frame names. -/
structure Asserts (row : Row) (call : Call) : Prop where
  word : row (frame opWord) = ((call.word (row gAddr).val : ℕ) : Fr)
  dAddr : row dAddr = row (frame dWord) + ((bucketCells : ℕ) : Fr) * bitFr call.indD * row digit
  aAddr : row aAddr = row (frame aWord) + ((bucketCells : ℕ) : Fr) * bitFr call.indA * row digit
  bAddr : row bAddr = row (frame bWord) + ((bucketCells : ℕ) : Fr) * bitFr call.indB * row digit
  element : ∀ i < 4, (row (dNew i)).val < 2 ^ 64
  relates : call.op.Relates row

/-- The identity's left side is not short of the new element. -/
def Op.Fits (op : Op) (row : Row) : Prop :=
  number row dNew ≤ op.total (number row a) (number row b) (number row dNew)

/-- What the row's frame and accesses say of its memory columns. -/
structure InOrder (row : Row) : Prop where
  frame : FrameOk row frameWords frameBytes
  kept : ∀ j < frameWords, row (word j wordWriteValue) = row (word j wordReadValue)
  follows : ∀ k < gaps, Follows row (gap k).2.1 (gap k).2.2

section Relation

variable {row : Row} {op : Op}

/-- A product, sum or difference is congruent to the identity's left side. -/
private theorem sub_modEq_iff {a b d : ℕ} (small : b < 2 ^ 256) :
    (d : ℤ) ≡ a - b [ZMOD value q] ↔ d ≡ Op.sub.total a b d [MOD value q] := by
  have room := value_q_bounds
  have shift : ((Op.sub.total a b d : ℕ) : ℤ) = (a - b : ℤ) + value q * subMultiple := by
    rw [Op.total, Nat.cast_add, Nat.cast_sub (by omega)]
    push_cast
    ring
  rw [← Int.natCast_modEq_iff, shift]
  exact ⟨fun given => given.trans (Int.modEq_add_fac_self).symm,
    fun given => given.trans Int.modEq_add_fac_self⟩

/-- What an operation says, by the identity's left side. -/
theorem Op.relates_iff (bSmall : number row b < 2 ^ 256)
    (dSmall : ∀ i < 4, (row (dNew i)).val < 2 ^ 64) :
    op.Relates row ↔
      number row dNew ≡ op.total (number row a) (number row b) (number row dNew) [MOD value q] ∧
        (op = .muleq → ∀ i < 4, row (dNew i) = row (dOld i)) ∧
        (op = .from128 → row (a 0) = row (dNew 0) + pow2 64 * row (dNew 1) ∧
          row (a 1) = row (dNew 2) + pow2 64 * row (dNew 3)) := by
  cases op
  · simp [Relates, total]
  · simp [Relates, total]
  · simp [Relates, sub_modEq_iff bSmall]
  · simp only [Relates, total, forall_const, reduceCtorEq, IsEmpty.forall_iff, and_true]
    constructor
    · intro given
      obtain ⟨same, product⟩ := given
      rw [number, limbsOf_congr same]
      exact ⟨product.symm, same⟩
    · intro given
      obtain ⟨product, same⟩ := given
      rw [number, limbsOf_congr same] at product
      exact ⟨same, product.symm⟩
  · simp only [Relates, total, forall_const, reduceCtorEq, IsEmpty.forall_iff, true_and,
      Nat.ModEq.refl]
    have half {x low high : PolyAddress} (lowSmall : (row low).val < 2 ^ 64)
        (highSmall : (row high).val < 2 ^ 64) :
        (row x).val = (row low).val + 2 ^ 64 * (row high).val ↔
          row x = row low + pow2 64 * row high := by
      have packed : row low + pow2 64 * row high =
          (((row low).val + 2 ^ 64 * (row high).val : ℕ) : Fr) := by
        rw [pow2, Nat.cast_add, Nat.cast_mul, ZMod.natCast_zmod_val, ZMod.natCast_zmod_val]
      rw [packed]
      constructor
      · intro same
        rw [← same, ZMod.natCast_zmod_val]
      · intro same
        rw [same, fr_val_natCast (by omega)]
    have zero := dSmall 0 (by norm_num)
    have one := dSmall 1 (by norm_num)
    have two := dSmall 2 (by norm_num)
    have three := dSmall 3 (by norm_num)
    rw [← half zero one, ← half two three, number_eq]
    omega

/-- The identity has a quotient where its left side is congruent to the new
element and not short of it. -/
theorem exists_quotient_iff {total d : ℕ} :
    (∃ quotient, total = value q * quotient + d) ↔ d ≡ total [MOD value q] ∧ d ≤ total := by
  constructor
  · intro given
    obtain ⟨quotient, rfl⟩ := given
    refine ⟨?_, Nat.le_add_left _ _⟩
    rw [Nat.ModEq, Nat.mul_add_mod]
  · intro given
    obtain ⟨congruent, fits⟩ := given
    obtain ⟨quotient, equal⟩ := (Nat.modEq_iff_dvd' fits).mp congruent
    exact ⟨quotient, by omega⟩

end Relation

/-- A row's own witness columns hold a call and its arithmetic witness. -/
structure Filled (row : Row) (call : Call) (witness : Witness) : Prop where
  gapHi : ∀ k < gaps,
    row (gapHi k) = ((gapOf row (gap k).2.1 (gap k).2.2 / 2 ^ 19 : ℕ) : Fr)
  selects : Selects row call.op
  indD : row indD = bitFr call.indD
  indA : row indA = bitFr call.indA
  indB : row indB = bitFr call.indB
  y : ∀ j < 4, row (y j) = ((witness.y.getD j 0 : ℕ) : Fr)
  dChunk : ∀ i < 4, ∀ c ∈ [1, 2, 3],
    row (dChunk i c) = (((witness.dChunks.getD i []).getD (c - 1) 0 : ℕ) : Fr)
  kChunk : ∀ j < 4, ∀ c < 4, row (kChunk j c) = (((witness.kChunks.getD j []).getD c 0 : ℕ) : Fr)
  carryChunk : ∀ g < 3, ∀ c < 4,
    row (carryChunk g c) = (((witness.carryChunks.getD g []).getD c 0 : ℕ) : Fr)

/-- The family's own witness columns, by their places. -/
def familyColumns (row : Row) (call : Call) (witness : Witness) (i : ℕ) : Fr :=
  let chunk (chunks : List (List ℕ)) (width place : ℕ) : Fr :=
    (((chunks.getD (place / width) []).getD (place % width) 0 : ℕ) : Fr)
  if i < 7 then ((gapOf row (gap i).2.1 (gap i).2.2 / 2 ^ 19 : ℕ) : Fr)
  else if i < 12 then if i - 7 + 1 = call.op.code then 1 else 0
  else if i < 15 then bitFr ([call.indD, call.indA, call.indB].getD (i - 12) false)
  else if i < 19 then ((witness.y.getD (i - 15) 0 : ℕ) : Fr)
  else if i < 31 then chunk witness.dChunks 3 (i - 19)
  else if i < 47 then chunk witness.kChunks 4 (i - 31)
  else if i < 59 then chunk witness.carryChunks 4 (i - 47)
  else 0

/-- A row under the prover's columns: its frame's, then a call's and a witness's. -/
def fill (row : Row) (call : Call) (witness : Witness) : Row :=
  withFrame frameWords frameBytes row (familyColumns row call witness)

/-- The prover's columns leave the accesses' timestamps alone. -/
private theorem fill_readTs (row : Row) (call : Call) (witness : Witness) (k : ℕ) :
    fill row call witness (gap k).2.1 = row (gap k).2.1 := by
  rw [gap]
  split_ifs
  · rfl
  · rfl
  · rfl
  · rfl

/-- The prover's columns leave the gaps alone. -/
theorem fill_gapOf (row : Row) (call : Call) (witness : Witness) (k : ℕ) :
    gapOf (fill row call witness) (gap k).2.1 (gap k).2.2 = gapOf row (gap k).2.1 (gap k).2.2 := by
  rw [gapOf, gapOf, fill_readTs]
  rfl

/-- The prover's columns hold what they are filled with. -/
theorem filled_fill (row : Row) (call : Call) (witness : Witness) :
    Filled (fill row call witness) call witness := by
  have at' (i : ℕ) : fill row call witness (w i) = familyColumns row call witness i :=
    withFrame_witness frameWords frameBytes _ i
  have chunk {chunks : List (List ℕ)} {width i c : ℕ} (few : c < width) :
      (((chunks.getD ((width * i + c) / width) []).getD ((width * i + c) % width) 0 : ℕ) : Fr) =
        (((chunks.getD i []).getD c 0 : ℕ) : Fr) := by
    rw [Nat.mul_add_div (by omega), Nat.div_eq_of_lt few, add_zero, Nat.mul_add_mod,
      Nat.mod_eq_of_lt few]
  refine ⟨fun k inside => ?_, fun op => ?_, at' 12, at' 13, at' 14, fun j inside => ?_,
    fun i inside c member => ?_, fun j inside c few => ?_, fun g inside c few => ?_⟩
  · refine (at' k).trans ?_
    rw [familyColumns, fill_gapOf]
    exact if_pos inside
  · have codes : 1 ≤ op.code ∧ op.code ≤ 5 := by cases op <;> decide
    have same : op.code = call.op.code ↔ op = call.op := by
      refine ⟨fun equal => ?_, fun equal => by rw [equal]⟩
      generalize call.op = other at equal
      cases op <;> cases other <;> first | rfl | cases equal
    refine (at' (7 + (op.code - 1))).trans ?_
    rw [familyColumns]
    simp only [show ¬(7 + (op.code - 1) < 7) by omega, show 7 + (op.code - 1) < 12 by omega,
      show 7 + (op.code - 1) - 7 + 1 = op.code by omega, if_true, if_false, same]
  · refine (at' (15 + j)).trans ?_
    rw [familyColumns, if_neg (by omega), if_neg (by omega), if_neg (by omega), if_pos (by omega),
      Nat.add_sub_cancel_left]
  · have few : 1 ≤ c ∧ c ≤ 3 := by
      simp only [List.mem_cons, List.not_mem_nil, or_false] at member
      omega
    refine (at' (19 + 3 * i + c - 1)).trans ?_
    rw [familyColumns, if_neg (by omega), if_neg (by omega), if_neg (by omega), if_neg (by omega),
      if_pos (by omega), show 19 + 3 * i + c - 1 - 19 = 3 * i + (c - 1) by omega]
    exact chunk (by omega)
  · refine (at' (31 + 4 * j + c)).trans ?_
    rw [familyColumns, if_neg (by omega), if_neg (by omega), if_neg (by omega), if_neg (by omega),
      if_neg (by omega), if_pos (by omega), show 31 + 4 * j + c - 31 = 4 * j + c by omega]
    exact chunk few
  · refine (at' (47 + 4 * g + c)).trans ?_
    rw [familyColumns, if_neg (by omega), if_neg (by omega), if_neg (by omega), if_neg (by omega),
      if_neg (by omega), if_neg (by omega), if_pos (by omega),
      show 47 + 4 * g + c - 47 = 4 * g + c by omega]
    exact chunk few

section Row

variable {challenges : ExternalChallenges} {decoded : List (List Fr)} {row : Row}

/-- What the circuit asks of a row, part by part. -/
private theorem satisfies_parts : Satisfies challenges decoded row body ↔
      FrameHolds challenges decoded row frameWords frameBytes ∧
        (∀ j < frameWords, row (word j wordWriteValue) = row (word j wordReadValue)) ∧
        ((∀ gate ∈ selectorGates, gate.2.value challenges row = 0) ∧
          (∀ gate ∈ addressGates, gate.2.value challenges row = 0) ∧
          (∀ gate ∈ yGates, gate.2.value challenges row = 0) ∧
          (∀ gate ∈ operationGates, gate.2.value challenges row = 0) ∧
          ∀ g < 4, (group g).value challenges row = 0) ∧
        (∀ lookup ∈ gapLookups, lookup.Holds challenges decoded row) ∧
        (∀ lookup ∈ limbLookups, lookup.Holds challenges decoded row) ∧
        (∀ lookup ∈ quotientLookups, lookup.Holds challenges decoded row) ∧
        ∀ lookup ∈ carryLookups, lookup.Holds challenges decoded row := by
  rw [satisfies_iff_gates, frameHolds_iff_gates, ← @writesBack_iff challenges row frameWords]
  simp only [body, gates, lookups, readOnlyGates, List.forall_mem_append, List.forall_mem_map,
    List.mem_range]
  tauto

/-- The operations' own gates: a check keeps `d`, and a packing's halves are its
cells. -/
theorem operationGates_iff {op : Op} (selects : Selects row op) :
    (∀ gate ∈ operationGates, gate.2.value challenges row = 0) ↔
      (op = .muleq → ∀ i < 4, row (dNew i) = row (dOld i)) ∧
        (op = .from128 → row (a 0) = row (dNew 0) + pow2 64 * row (dNew 1) ∧
          row (a 1) = row (dNew 2) + pow2 64 * row (dNew 3)) := by
  have keeps (i : ℕ) : (quadratic [] [(lit 1, sel muleq, dNew i), (neg 1, sel muleq, dOld i)]).value
      challenges row = row (sel muleq) * (row (dNew i) - row (dOld i)) := by
    simp only [quadratic, value_quadratic, List.map_cons, List.map_nil, List.sum_cons, List.sum_nil,
      coefficient_lit, coefficient_neg]
    push_cast
    ring
  have packs (cell low high : PolyAddress) : (quadratic [] [(lit 1, sel from128, low),
      (lit (2 ^ 64), sel from128, high), (neg 1, sel from128, cell)]).value challenges row =
        row (sel from128) * (row low + pow2 64 * row high - row cell) := by
    simp only [quadratic, value_quadratic, List.map_cons, List.map_nil, List.sum_cons, List.sum_nil,
      coefficient_lit, coefficient_neg, pow2]
    push_cast
    ring
  have on {code : Op} {x : Fr} : row (sel code.code) * x = 0 ↔ op = code → x = 0 := by
    rw [selects code, ite_mul, one_mul, zero_mul]
    by_cases same : code = op
    · simp [same]
    · simp [same, Ne.symm same]
  have check (x : Fr) : row (sel muleq) * x = 0 ↔ op = .muleq → x = 0 := @on .muleq x
  have pack (x : Fr) : row (sel from128) * x = 0 ↔ op = .from128 → x = 0 := @on .from128 x
  simp only [operationGates, elementCells, List.forall_mem_append, List.forall_mem_map,
    List.mem_range, List.map_cons, List.map_nil, List.forall_mem_cons, List.not_mem_nil,
    IsEmpty.forall_iff, implies_true, and_true, keeps, packs, check, pack, sub_eq_zero]
  constructor
  · intro given
    exact ⟨fun same i inside => given.1 i inside same,
      fun same => ⟨(given.2.1 same).symm, (given.2.2 same).symm⟩⟩
  · intro given
    exact ⟨fun i inside same => given.1 same i inside,
      fun same => (given.2 same).1.symm, fun same => (given.2 same).2.symm⟩

/-- A row whose columns hold an operation's operands, with any chunks in range. -/
private theorem holdsNumbers {op : Op} {k carry : ℕ → ℕ} (selects : Selects row op)
    (multiplier : ∀ j < 4, row (y j) = (((op.y (limbsOf row b)).getD j 0 : ℕ) : Fr))
    (quotient : ∀ j < 4,
      ((List.range 4).map fun c => pow2 (kBits j * c) * row (kChunk j c)).sum = ((k j : ℕ) : Fr))
    (carries : ∀ g < 3,
      ((List.range 4).map fun c => pow2 (19 * c) * row (carryChunk g c)).sum =
        ((carry g : ℕ) : Fr)) :
    HoldsNumbers row (op.left (limbsOf row a)) (op.y (limbsOf row b)) (limbsOf row dNew)
      (fun i => op.z (limbsOf row b) (limbsOf row dNew) i) k carry where
  products i inside j few := by
    rw [multiplier j few, Nat.cast_mul]
    cases op
    · rw [row_eq_limb row a inside]
      rfl
    · rw [row_eq_limb row a inside]
      rfl
    · rw [row_eq_limb row a inside]
      rfl
    · rw [row_eq_limb row a inside]
      rfl
    · have zero : ([0, 0, 0, 0] : List ℕ).getD j 0 = 0 := by
        interval_cases j <;> rfl
      rw [Op.y, zero, Nat.cast_zero, mul_zero, mul_zero]
  quotient := quotient
  addend i inside := by
    have plus := selects .add
    have minus := selects .sub
    have packs := selects .from128
    simp only [Op.code] at plus minus packs
    rw [plus, minus, packs, row_eq_limb row b inside, row_eq_limb row dNew inside]
    cases op
    · simp [Op.z]
    · simp [Op.z]
    · simp [Op.z, neg_add_eq_sub]
    · simp [Op.z]
    · simp [Op.z]
  element i inside := row_eq_limb row dNew inside
  carries := carries

/-- The left operand of a row is an element. -/
private theorem isElement_left {op : Op}
    (small : op = .from128 ∨ ∀ i < 4, (row (a i)).val < 2 ^ 64) :
    IsElement (op.left (limbsOf row a)) := by
  rcases small with rfl | small
  · exact ⟨rfl, inRange_replicate 4⟩
  · cases op
    · exact isElement_limbsOf small
    · exact isElement_limbsOf small
    · exact isElement_limbsOf small
    · exact isElement_limbsOf small
    · exact ⟨rfl, inRange_replicate 4⟩

/-- A packing's identity does not read the left operand. -/
private theorem total_left (op : Op) (x : List ℕ) (y z : ℕ) :
    op.total (value (op.left x)) y z = op.total (value x) y z := by
  cases op <;> rfl

/-- A word over a cell, with the cell apart. -/
private theorem Call.cast_word (call : Call) (cell : Fr) : ((call.word cell.val : ℕ) : Fr) =
      ((call.word 0 : ℕ) : Fr) + ((2 ^ digitShift : ℕ) : Fr) * cell := by
  rw [Call.word, Call.word]
  push_cast
  rw [ZMod.natCast_zmod_val]
  ring

/-- The carries of a balance that vanishes close its groups. -/
private theorem closes {balance : ℕ → ℤ}
    (vanishes : limbSum (2 ^ 128 : ℤ) (groupBalance balance) 4 = 0)
    (small : ∀ g < 4, |groupBalance balance g| ≤ ((2 ^ 199 - 2 ^ 71 : ℕ) : ℤ)) {g : ℕ}
    (inside : g < 4) :
    groupBalance balance g + signedCarry (carried balance) g =
      2 ^ 128 * signedCarry (carried balance) (g + 1) := by
  have signed (g : ℕ) (inside : g ≤ 4) :
      signedCarry (carried balance) g = carryAt (2 ^ 128) (groupBalance balance) g := by
    cases g with
    | zero => rw [signedCarry, carryAt_zero]
    | succ g =>
      rw [signedCarry]
      by_cases few : g < 3
      · rw [if_pos few, (carried_eq vanishes small (show g < 4 by omega)).1, carryOffsetBits]
        ring
      · rw [if_neg few, show g + 1 = 4 by omega, carryAt_of_vanishes vanishes]
  rw [signed g inside.le, signed (g + 1) inside]
  exact carry_step (by norm_num) vanishes inside

section Live

variable (selected : row live = 1) (bSmall : ∀ i < 4, (row (b i)).val < 2 ^ 64)
  (aSmall : row (sel from128) = 1 ∨ ∀ i < 4, (row (a i)).val < 2 ^ 64)

include selected bSmall aSmall

/-- A row that satisfies the circuit names a call and asserts it. -/
theorem asserts_of_satisfies (holds : Satisfies challenges decoded row body) :
    ∃ call : Call, Selects row call.op ∧ Asserts row call := by
  obtain ⟨_, _, ⟨selectors, addresses, multipliers, operations, groups⟩, _, limbs, quotients,
    carries⟩ := satisfies_parts.mp holds
  obtain ⟨call, selects, dEq, aEq, bEq, wordEq⟩ := (selectorGates_iff selected).mp selectors
  obtain ⟨dAddr, aAddr, bAddr⟩ := addressGates_iff.mp addresses
  have element := fun i inside => ((limbLookups_iff selected).mp limbs i inside).1
  have left := @isElement_left row call.op (aSmall.imp_left fun on => by
    have off := (selects .from128).symm.trans on
    by_contra other
    rw [if_neg (Ne.symm other)] at off
    exact zero_ne_one off)
  have bElement := isElement_limbsOf bSmall
  have dElement := isElement_limbsOf element
  have multiplier := (yGates_iff selects fun i inside => row_eq_limb row b inside).mp multipliers
  obtain ⟨keeps, packs⟩ := (operationGates_iff selects).mp operations
  -- the chunks are a quotient's and the carries'
  have quotientEach (j : ℕ) (inside : j < 4) :=
    exists_chunked ((quotientLookups_iff selected).mp quotients j inside)
  have carryEach (g : ℕ) (inside : g < 3) :=
    exists_chunked ((carryLookups_iff selected).mp carries g inside)
  choose! k kSmall kEq using quotientEach
  choose! carry carrySmall carryEq using carryEach
  have numbers := holdsNumbers selects multiplier kEq carryEq
  have narrow (j : ℕ) (inside : j < 4) : k j < 2 ^ 76 := by
    refine lt_of_lt_of_le (kSmall j inside) ?_
    rw [kBits]
    split_ifs
    · norm_num
    · norm_num
  have closed := (groups_iff selected numbers left.2 (Op.isElement_y bElement).2 dElement.2
    (fun i _ => Op.abs_z_le bElement dElement i) narrow
    fun g inside => lt_of_lt_of_le (carrySmall g inside) (by norm_num)).mp groups
  have vanishes := @limbSum_of_carries (2 ^ 128) _ (signedCarry carry) 4 rfl closed
  rw [limbSum_groupBalance left.1 (Op.isElement_y bElement).1 dElement.1,
    show signedCarry carry 4 = 0 from rfl, mul_zero] at vanishes
  have total := @Op.total_eq call.op (call.op.left (limbsOf row a)) _ _ bElement dElement
  generalize limbSum (2 ^ 64) k 4 = quotient at vanishes
  have identity : call.op.total (number row a) (number row b) (number row dNew) =
      value q * quotient + number row dNew := by
    rw [total_left] at total
    have whole : (call.op.total (number row a) (number row b) (number row dNew) : ℤ) =
        (value q * quotient + number row dNew : ℕ) := by
      refine total.trans ?_
      rw [number]
      push_cast at vanishes ⊢
      linear_combination vanishes
    exact_mod_cast whole
  refine ⟨call, selects, ?_, ?_, ?_, ?_, element, ?_⟩
  · rw [wordEq, Call.cast_word]
  · rw [dAddr, dEq]
  · rw [aAddr, aEq]
  · rw [bAddr, bEq]
  · exact (Op.relates_iff bElement.value_lt element).mpr
      ⟨(exists_quotient_iff.mp ⟨_, identity⟩).1, keeps, packs⟩

end Live

/-- A row in order that asserts a call satisfies the circuit, under the witness of
its identity's quotient. -/
theorem satisfies_of_filled {call : Call} {quotient : ℕ} (selected : row live = 1)
    (frame : FrameHolds challenges decoded row frameWords frameBytes) (inOrder : InOrder row)
    (asserts : Asserts row call) (aElement : IsElement (call.op.left (limbsOf row a)))
    (bElement : IsElement (limbsOf row b))
    (identity : call.op.total (value (call.op.left (limbsOf row a))) (number row b)
      (number row dNew) = value q * quotient + number row dNew)
    (filled : Filled row call
      (call.op.answer (call.op.left (limbsOf row a)) (limbsOf row b) (limbsOf row dNew) quotient)) :
    Satisfies challenges decoded row body := by
  have dElement := isElement_limbsOf asserts.element
  have vanishes := Op.places_vanish aElement bElement dElement identity
  have small (g : ℕ) (_ : g < 4) := Op.abs_places_le aElement bElement dElement identity g
  have kFits (j : ℕ) : kLimb quotient j < (2 ^ kBits j) ^ 4 := by
    rw [kBits]
    by_cases low : j < 3
    · rw [if_pos low, kLimb, if_pos low]
      exact limbAt_lt (by norm_num) _ _
    · rw [if_neg low]
      exact lt_trans (Op.kLimb_lt aElement bElement dElement identity j) (by norm_num)
  have quotientChunk (j : ℕ) (inside : j < 4) (c : ℕ) (few : c < 4) : row (kChunk j c) =
      (((chunksOf (kBits j) 4 (kLimb quotient j)).getD c 0 : ℕ) : Fr) := by
    rw [filled.kChunk j inside c few]
    simp [Op.answer, inside]
  have carryChunkEq (g : ℕ) (inside : g < 3) (c : ℕ) (few : c < 4) : row (carryChunk g c) =
      (((chunksOf 19 4 (carried (call.op.places (call.op.left (limbsOf row a)) (limbsOf row b)
        (limbsOf row dNew) quotient) g)).getD c 0 : ℕ) : Fr) := by
    rw [filled.carryChunk g inside c few]
    simp [Op.answer, inside]
  have numbers := holdsNumbers filled.selects filled.y
    (fun j inside => sum_chunksOf (kFits j) (quotientChunk j inside))
    fun g inside => sum_chunksOf (carried_eq vanishes small (show g < 4 by omega)).2
      (carryChunkEq g inside)
  obtain ⟨_, keeps, packs⟩ :=
    (Op.relates_iff bElement.value_lt asserts.element).mp asserts.relates
  refine satisfies_parts.mpr ⟨frame, inOrder.kept, ⟨?_, ?_, ?_, ?_, ?_⟩, ?_, ?_, ?_, ?_⟩
  · exact (selectorGates_iff selected).mpr ⟨call, filled.selects, filled.indD, filled.indA,
      filled.indB, by rw [asserts.word, Call.cast_word]⟩
  · refine addressGates_iff.mpr ?_
    rw [filled.indD, filled.indA, filled.indB]
    exact ⟨asserts.dAddr, asserts.aAddr, asserts.bAddr⟩
  · exact (yGates_iff filled.selects fun i inside => row_eq_limb row b inside).mpr filled.y
  · exact (operationGates_iff filled.selects).mpr ⟨keeps, packs⟩
  · refine (groups_iff selected numbers aElement.2 (Op.isElement_y bElement).2 dElement.2
      (fun i _ => Op.abs_z_le bElement dElement i) (fun j _ => ?_) fun g inside => ?_).mpr
      fun g inside => closes vanishes small inside
    · exact lt_trans (Op.kLimb_lt aElement bElement dElement identity j) (by norm_num)
    · exact (carried_eq vanishes small (show g < 4 by omega)).2
  · exact (gapLookups_iff selected).mpr fun k inside => ⟨inOrder.follows k inside, filled.gapHi k inside⟩
  · refine (limbLookups_iff selected).mpr fun i inside => ⟨asserts.element i inside, fun c member => ?_⟩
    rw [filled.dChunk i inside c member]
    simp only [List.mem_cons, List.not_mem_nil, or_false] at member
    rcases member with rfl | rfl | rfl
    · simp [Op.answer, limbsOf, elementCells, inside]
    · simp [Op.answer, limbsOf, elementCells, inside]
    · simp [Op.answer, limbsOf, elementCells, inside]
  · refine (quotientLookups_iff selected).mpr fun j inside c few => ⟨_, ?_, quotientChunk j inside c few⟩
    exact getD_chunksOf_lt _ _ _ _
  · refine (carryLookups_iff selected).mpr fun g inside c few => ⟨_, ?_, carryChunkEq g inside c few⟩
    exact getD_chunksOf_lt _ _ _ _

/-- The prover's columns leave a row in order. -/
private theorem inOrder_fill {call : Call} {witness : Witness} (inOrder : InOrder row) :
    InOrder (fill row call witness) := by
  obtain ⟨⟨addr, follows, aligned, inWindow⟩, kept, gapFollows⟩ := inOrder
  refine ⟨⟨addr, follows, aligned, inWindow⟩, kept, fun k inside => ?_⟩
  rw [Follows, fill_readTs]
  exact gapFollows k inside

/-- The witness the prover computes for a row. -/
def Call.witness (call : Call) (row : Row) : Except String Witness :=
  FqOp.witness call.op.code (call.op.left (limbsOf row a)) (limbsOf row b) (limbsOf row dNew)

/-- A row in order that asserts a call is filled exactly where the identity's left
side is not short of the new element. -/
theorem exists_witness_iff {call : Call} (selected : row live = 1)
    (bSmall : ∀ i < 4, (row (b i)).val < 2 ^ 64)
    (aSmall : call.op = .from128 ∨ ∀ i < 4, (row (a i)).val < 2 ^ 64) (inOrder : InOrder row)
    (asserts : Asserts row call) :
    (∃ witness, call.witness row = .ok witness ∧
      Satisfies challenges decoded (fill row call witness) body) ↔ call.op.Fits row := by
  have aElement := isElement_left aSmall
  have bElement := isElement_limbsOf bSmall
  have dElement := isElement_limbsOf asserts.element
  have congruent := ((Op.relates_iff bElement.value_lt asserts.element).mp asserts.relates).1
  constructor
  · intro given
    obtain ⟨witness, computed, _⟩ := given
    by_contra short
    have stops := Op.witness_of_short aElement bElement dElement
      (show call.op.total (value (call.op.left (limbsOf row a))) _ _ < _ by
        rw [total_left]
        exact Nat.not_le.mp short)
    rw [Call.witness, stops] at computed
    exact absurd computed (by simp)
  · intro fits
    obtain ⟨quotient, identity⟩ := exists_quotient_iff.mpr ⟨congruent, fits⟩
    rw [number, ← total_left] at identity
    refine ⟨_, Op.witness_eq aElement bElement dElement identity, ?_⟩
    exact @satisfies_of_filled challenges decoded (fill row call _) call quotient selected
      (frameHolds_withFrame _ selected inOrder.frame) (inOrder_fill inOrder)
      ⟨asserts.word, asserts.dAddr, asserts.aAddr, asserts.bAddr, asserts.element, asserts.relates⟩
      aElement bElement identity (filled_fill row call _)

/-- A live row's gates and obligations say that its frame names one call, and what
the call says; and a row that says so is filled exactly where the identity's left
side is not short of the new element. -/
theorem fq_op_exact (selected : row live = 1) (bSmall : ∀ i < 4, (row (b i)).val < 2 ^ 64)
    (cell : (row gAddr).val < 2 ^ 38) :
    ((row (sel from128) = 1 ∨ ∀ i < 4, (row (a i)).val < 2 ^ 64) →
      Satisfies challenges decoded row body → InOrder row ∧ ∃! call : Call, Asserts row call) ∧
    ∀ call : Call, (call.op = .from128 ∨ ∀ i < 4, (row (a i)).val < 2 ^ 64) → InOrder row →
      Asserts row call →
        ((∃ witness, call.witness row = .ok witness ∧
          Satisfies challenges decoded (fill row call witness) body) ↔ call.op.Fits row) := by
  refine ⟨fun aSmall holds => ⟨?_, ?_⟩, fun call aSmall inOrder asserts =>
    exists_witness_iff selected bSmall aSmall inOrder asserts⟩
  · obtain ⟨frame, kept, _, follows, _⟩ := satisfies_parts.mp holds
    exact ⟨((frameHolds_iff selected).mp frame).1, kept,
      fun k inside => ((gapLookups_iff selected).mp follows k inside).1⟩
  · obtain ⟨call, _, asserts⟩ := asserts_of_satisfies selected bSmall aSmall holds
    refine ⟨call, asserts, fun other same => ?_⟩
    have narrow (call : Call) : call.word (row gAddr).val < 2 ^ 250 := by
      obtain ⟨op, indD, indA, indB⟩ := call
      have code : op.code ≤ 5 := by cases op <;> decide
      have dBit := Bool.toNat_le indD
      have aBit := Bool.toNat_le indA
      have bBit := Bool.toNat_le indB
      simp only [Call.word, flagD, flagA, flagB, digitShift, codeBits]
      omega
    exact (Call.word_injective (fr_natCast_inj (narrow other) (narrow call)
      (same.word.symm.trans asserts.word))).1

/-- The row of `3·5 = 15`, over a frame at the start of guest memory. -/
def multiplied : Row := Row.ofColumns [10, 1, 65536, 0, 65536, 5, 1, 1, 65540, 5, 100, 100, 65544, 5,
  200, 200, 65548, 5, 300, 300, 0, 5, 0, 200, 5, 5, 5, 5, 3, 0, 0, 0, 300, 5, 5, 0, 0, 0,
  100, 5, 0, 0, 0, 0, 15, 0, 0, 0] [] []

/-- The row that checks `0·0` against the modulus, over a frame there. -/
def checked : Row := Row.ofColumns ([10, 1, 65536, 0, 65536, 5, 4, 4, 65540, 5, 100, 100, 65544, 5,
  200, 200, 65548, 5, 300, 300, 0, 5, 0, 200, 5, 5, 5, 5, 0, 0, 0, 0, 300, 5, 0, 0, 0, 0,
  100, 5] ++ (q ++ q).map fun limb => (limb : ℤ)) [] []

/-- A row over the start of guest memory, its accesses last made at timestamp 5 of
cycle 10, is in order. -/
private theorem inOrder_of_ten
    (addr : ∀ j < frameWords, row (word j wordAddr) = row base + ((4 * j : ℕ) : Fr))
    (kept : ∀ j < frameWords, row (word j wordWriteValue) = row (word j wordReadValue))
    (start : row base = ((GuestMemory.ramOrigin : ℕ) : Fr)) (now : row cycle = ((10 : ℕ) : Fr))
    (words : ∀ j < frameWords, row (word j wordReadTs) = ((5 : ℕ) : Fr))
    (cells : ∀ k < gaps, row (gap k).2.1 = ((5 : ℕ) : Fr)) : InOrder row := by
  have follows {readTs : PolyAddress} {delta : ℕ} (read : row readTs = ((5 : ℕ) : Fr))
      (slot : delta < 4) : Follows row readTs delta := by
    refine ⟨34 + delta, by rw [Clock.tsBits]; omega, ?_⟩
    rw [now, read, Clock.tsStep]
    push_cast
    ring
  refine ⟨⟨addr, fun j inside => follows (words j inside) (by norm_num [frameDelta]),
    ⟨0, by norm_num, start⟩, ⟨2 ^ 31 - 16 - GuestMemory.ramOrigin, by
      norm_num [GuestMemory.ramOrigin, baseRoomBits], ?_⟩⟩, kept, fun k inside => ?_⟩
  · rw [start, ← Nat.cast_add]
    rfl
  · refine follows (cells k inside) ?_
    rw [gap]
    split_ifs
    · norm_num [deltaG]
    · norm_num [deltaA]
    · norm_num [deltaB]
    · norm_num [deltaD]

/-- The product's row is filled. -/
theorem fq_op_exact_multiplied : ∃ witness,
    (Call.mk .mul false false false).witness multiplied = .ok witness ∧
      Satisfies ExternalChallenges.empty [] (fill multiplied ⟨.mul, false, false, false⟩ witness)
        body := by
  have exact' := @fq_op_exact ExternalChallenges.empty [] multiplied (by decide +kernel)
    (by decide +kernel) (by decide +kernel)
  refine (exact'.2 ⟨.mul, false, false, false⟩ (Or.inr (by decide +kernel)) ?_ ?_).mpr ?_
  · exact inOrder_of_ten (by decide +kernel) (by decide +kernel) (by decide +kernel)
      (by decide +kernel) (by decide +kernel) (by decide +kernel)
  · exact ⟨by decide +kernel, by decide +kernel, by decide +kernel, by decide +kernel,
      by decide +kernel, show _ % _ = _ % _ by decide +kernel⟩
  · exact show _ ≤ _ by decide +kernel

/-- The product `0·0` is the modulus's own representative of zero, and the witness
of the check that it is stops: the identity has no quotient. -/
theorem checked_stops : checked live = 1 ∧ (∀ i < 4, (checked (a i)).val < 2 ^ 64) ∧
    (∀ i < 4, (checked (b i)).val < 2 ^ 64) ∧ (checked gAddr).val < 2 ^ 38 ∧ InOrder checked ∧
    Asserts checked ⟨.muleq, false, false, false⟩ ∧
    (Call.mk .muleq false false false).witness checked =
      .error "fq_op: a difference goes negative" := by
  refine ⟨by decide +kernel, by decide +kernel, by decide +kernel, by decide +kernel, ?_, ?_,
    by decide +kernel⟩
  · exact inOrder_of_ten (by decide +kernel) (by decide +kernel) (by decide +kernel)
      (by decide +kernel) (by decide +kernel) (by decide +kernel)
  · exact ⟨by decide +kernel, by decide +kernel, by decide +kernel, by decide +kernel,
      by decide +kernel, by decide +kernel, show _ % _ = _ % _ by decide +kernel⟩

end Row

end Apogee.FqOp
