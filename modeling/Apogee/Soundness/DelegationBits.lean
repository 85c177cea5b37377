import Apogee.Circuit.FrArith
import Apogee.Math.Passes
import Apogee.Soundness.Delegation

/-! # What sums of bits say

A column that is a sum of boolean columns is a number below the power of two, and
every such number has its bits. A frame value shown canonical by bits is a number
below the modulus, and every such number has the chain.
-/

namespace Apogee

namespace Delegation

open Gadgets Math

/-- Columns that hold a number's bits. -/
def HoldsBits (row : Row) (bit : ℕ → PolyAddress) (count n : ℕ) : Prop :=
  ∀ t < count, row (bit t) = ((limbAt 2 n t : ℕ) : Fr)

section Bits

variable {challenges : ExternalChallenges} {row : Row} {bit : ℕ → PolyAddress} {count n : ℕ}

/-- A number's bits are boolean. -/
theorem HoldsBits.boolean (holds : HoldsBits row bit count n) {t : ℕ} (inside : t < count) :
    row (bit t) = 0 ∨ row (bit t) = 1 := by
  rw [holds t inside]
  have small := limbAt_lt (show 0 < 2 by norm_num) n t
  have cases : limbAt 2 n t = 0 ∨ limbAt 2 n t = 1 := by omega
  rcases cases with zero | one
  · exact Or.inl (by rw [zero, Nat.cast_zero])
  · exact Or.inr (by rw [one, Nat.cast_one])

/-- Boolean columns hold the bits of a number. -/
theorem exists_bits (boolean : ∀ t < count, row (bit t) = 0 ∨ row (bit t) = 1) :
    ∃ n < 2 ^ count, HoldsBits row bit count n := by
  have small (t : ℕ) (inside : t < count) : (row (bit t)).val < 2 := by
    rcases boolean t inside with zero | one
    · rw [zero, ZMod.val_zero]
      norm_num
    · rw [one, ZMod.val_one]
      norm_num
  refine ⟨limbSum 2 (fun t => (row (bit t)).val) count, limbSum_lt small, fun t inside => ?_⟩
  rw [limbAt_limbSum small inside, ZMod.natCast_zmod_val]

/-- The bits sum to the number. -/
theorem sum_minusBits (challenges : ExternalChallenges) (holds : HoldsBits row bit count n)
    (small : n < 2 ^ count) :
    ((minusBits count bit).map fun term => coefficient challenges term.1 * row term.2).sum =
      -((n : ℕ) : Fr) := by
  have number : ((n : ℕ) : Fr) = ∑ t ∈ Finset.range count, (2 : Fr) ^ t * ((limbAt 2 n t : ℕ) : Fr) := by
    conv_lhs => rw [← limbSum_limbAt_of_lt small, cast_limbSum]
    rfl
  rw [minusBits, List.map_map, list_sum_range, number, ← Finset.sum_neg_distrib]
  refine Finset.sum_congr rfl fun t member => ?_
  simp only [Function.comp_apply, coefficient_neg, holds t (Finset.mem_range.mp member)]
  push_cast
  ring

end Bits

/-- A limb of the modulus. -/
def modulusLimb (k : ℕ) : ℕ := modulusLimbs.getD k 0

theorem modulusLimb_lt {k : ℕ} (inside : k < 8) : modulusLimb k < 2 ^ 32 := by
  interval_cases k <;> norm_num [modulusLimb, modulusLimbs, Montgomery.modulus]

theorem limbSum_modulusLimb : limbSum (2 ^ 32) modulusLimb 8 = frModulus := by
  norm_num [limbSum, Finset.sum_range_succ, modulusLimb, modulusLimbs, Montgomery.modulus,
    frModulus]

/-- A number's bits, its differences' and its borrows, in their columns. -/
structure HoldsCanonical (row : Row) (bits canon x : ℕ) : Prop where
  word : ∀ k < 8, HoldsBits row (fun t => .witness (bits + 32 * k + t)) 32 (limbAt (2 ^ 32) x k)
  difference : ∀ k < 8, HoldsBits row (fun t => .witness (canon + 32 * k + t)) 32
    (differenceAt (2 ^ 32) (limbAt (2 ^ 32) x) modulusLimb k)
  borrow : ∀ k < 8, row (.witness (canon + 32 * wordsPerValue + k)) =
    ((borrowAt (2 ^ 32) (limbAt (2 ^ 32) x) modulusLimb (k + 1) : ℕ) : Fr)

/-- The columns that hold them, the canonicity columns after the word bits. -/
def canonicalColumns (x i : ℕ) : Fr :=
  if i < valueBits then ((limbAt 2 (limbAt (2 ^ 32) x (i / 32)) (i % 32) : ℕ) : Fr)
  else if i < 2 * valueBits then
    ((limbAt 2 (differenceAt (2 ^ 32) (limbAt (2 ^ 32) x) modulusLimb ((i - valueBits) / 32))
      (i % 32) : ℕ) : Fr)
  else ((borrowAt (2 ^ 32) (limbAt (2 ^ 32) x) modulusLimb (i - 2 * valueBits + 1) : ℕ) : Fr)

/-- Columns laid out so hold the number. -/
theorem holdsCanonical_of_columns {row : Row} {bits x : ℕ}
    (columns : ∀ i < valueBits + canonicityBits, row (.witness (bits + i)) = canonicalColumns x i) :
    HoldsCanonical row bits (bits + valueBits) x := by
  have width : valueBits = 256 := rfl
  have total : valueBits + canonicityBits = 520 := rfl
  refine ⟨fun k inside t few => ?_, fun k inside t few => ?_, fun k inside => ?_⟩
  · have column := columns (32 * k + t) (by omega)
    rwa [← add_assoc, canonicalColumns, if_pos (by omega), show (32 * k + t) / 32 = k by omega,
      show (32 * k + t) % 32 = t by omega] at column
  · have column := columns (valueBits + (32 * k + t)) (by omega)
    rwa [← add_assoc, ← add_assoc, canonicalColumns, if_neg (by omega), if_pos (by omega),
      Nat.add_sub_cancel_left, show (32 * k + t) / 32 = k by omega,
      show (valueBits + (32 * k + t)) % 32 = t by omega] at column
  · have column := columns (valueBits + (256 + k)) (by omega)
    rwa [← add_assoc, ← add_assoc, canonicalColumns, if_neg (by omega), if_neg (by omega),
      show valueBits + (256 + k) - 2 * valueBits = k by omega] at column

section Canonical

variable {challenges : ExternalChallenges} {row : Row} {name : String} {first field bits canon : ℕ}

/-- A value's gates, part by part. -/
private theorem canonicalGates_parts :
    (∀ gate ∈ canonicalGates name first field bits canon, gate.2.value challenges row = 0) ↔
      (∀ k < 8, ∀ t < 32, row (.witness (bits + 32 * k + t)) = 0 ∨
        row (.witness (bits + 32 * k + t)) = 1) ∧
      (∀ i < 264, row (.witness (canon + i)) = 0 ∨ row (.witness (canon + i)) = 1) ∧
      (∀ k < 8, row (word (first + k) field) +
        ((minusBits 32 fun t => .witness (bits + 32 * k + t)).map fun term =>
          coefficient challenges term.1 * row term.2).sum = 0) ∧
      (∀ i < 8, row live * row (word (first + i) field) - ((modulusLimb i : ℕ) : Fr) * row live +
        ((2 ^ 32 : ℕ) : Fr) * row (.witness (canon + 32 * wordsPerValue + i)) -
        (if 0 < i then row (.witness (canon + 32 * wordsPerValue + (i - 1))) else 0) +
        ((minusBits 32 fun t => .witness (canon + 32 * i + t)).map fun term =>
          coefficient challenges term.1 * row term.2).sum = 0) ∧
      row live = row (.witness (canon + 32 * wordsPerValue + 7)) := by
  have limb {i : ℕ} (inside : i < modulusLimbs.length) : modulusLimbs[i] = modulusLimb i := by
    rw [modulusLimb, List.getD_eq_getElem?_getD, List.getElem?_eq_getElem inside, Option.getD_some]
  have words (k : ℕ) : (linear ((lit 1, word (first + k) field) ::
      minusBits 32 fun t => .witness (bits + 32 * k + t))).value challenges row =
        row (word (first + k) field) +
          ((minusBits 32 fun t => .witness (bits + 32 * k + t)).map fun term =>
            coefficient challenges term.1 * row term.2).sum := by
    simp [linear]
  have chain (i m : ℕ) : (quadratic
      ([(neg m, live), (lit (2 ^ 32), .witness (canon + 32 * wordsPerValue + i))] ++
        (if 0 < i then [(neg 1, .witness (canon + 32 * wordsPerValue + (i - 1)))] else []) ++
        minusBits 32 fun t => .witness (canon + 32 * i + t))
      [(lit 1, live, word (first + i) field)]).value challenges row =
        row live * row (word (first + i) field) - ((m : ℕ) : Fr) * row live +
        ((2 ^ 32 : ℕ) : Fr) * row (.witness (canon + 32 * wordsPerValue + i)) -
        (if 0 < i then row (.witness (canon + 32 * wordsPerValue + (i - 1))) else 0) +
        ((minusBits 32 fun t => .witness (canon + 32 * i + t)).map fun term =>
          coefficient challenges term.1 * row term.2).sum := by
    simp only [quadratic, value_quadratic, List.map_append, List.sum_append, List.map_cons,
      List.map_nil, List.sum_cons, List.sum_nil, coefficient_lit, coefficient_neg]
    by_cases before : 0 < i
    · simp only [if_pos before, List.map_cons, List.map_nil, List.sum_cons, List.sum_nil,
        coefficient_neg]
      push_cast
      ring
    · simp only [if_neg before, List.map_nil, List.sum_nil]
      push_cast
      ring
  have last : (linear [(lit 1, live), (neg 1, .witness (canon + 32 * wordsPerValue +
      (wordsPerValue - 1)))]).value challenges row =
        row live - row (.witness (canon + 32 * wordsPerValue + 7)) := by
    simp [linear, wordsPerValue, sub_eq_add_neg]
  have chains : (∀ gate ∈ modulusLimbs.mapIdx fun i limb => (name ++ "_canonical" ++ toString i,
      quadratic ([(neg limb, live), (lit (2 ^ 32), .witness (canon + 32 * wordsPerValue + i))] ++
          (if 0 < i then [(neg 1, .witness (canon + 32 * wordsPerValue + (i - 1)))] else []) ++
          minusBits 32 fun t => .witness (canon + 32 * i + t))
        [(lit 1, live, word (first + i) field)]), gate.2.value challenges row = 0) ↔
      ∀ i < 8, row live * row (word (first + i) field) - ((modulusLimb i : ℕ) : Fr) * row live +
        ((2 ^ 32 : ℕ) : Fr) * row (.witness (canon + 32 * wordsPerValue + i)) -
        (if 0 < i then row (.witness (canon + 32 * wordsPerValue + (i - 1))) else 0) +
        ((minusBits 32 fun t => .witness (canon + 32 * i + t)).map fun term =>
          coefficient challenges term.1 * row term.2).sum = 0 := by
    rw [forall_mem_mapIdx]
    refine forall₂_congr fun i inside => ?_
    rw [chain, limb inside]
  rw [canonicalGates, List.forall_mem_append, List.forall_mem_append, List.forall_mem_append,
    List.forall_mem_append, chains]
  simp only [List.forall_mem_flatMap, List.forall_mem_map, List.mem_range, List.forall_mem_singleton,
    booleanity_iff, words, last, sub_eq_zero, and_assoc]
  rfl

/-- A live row's value is a number below the modulus, by its limbs. -/
theorem exists_canonical (selected : row live = 1)
    (holds : ∀ gate ∈ canonicalGates name first field bits canon, gate.2.value challenges row = 0) :
    ∃ x < frModulus, ∀ k < 8, row (word (first + k) field) = ((limbAt (2 ^ 32) x k : ℕ) : Fr) := by
  obtain ⟨wordBits, canonBits, words, chain, last⟩ := canonicalGates_parts.mp holds
  have limb (k : ℕ) (inside : k < 8) : ∃ n < 2 ^ 32, row (word (first + k) field) = ((n : ℕ) : Fr) := by
    obtain ⟨n, small, bitsEq⟩ := exists_bits (wordBits k inside)
    have equal := words k inside
    rw [sum_minusBits challenges bitsEq small] at equal
    exact ⟨n, small, by linear_combination equal⟩
  choose! x xSmall xEq using limb
  have difference (k : ℕ) (inside : k < 8) : ∃ n < 2 ^ 32,
      ((minusBits 32 fun t => .witness (canon + 32 * k + t)).map fun term =>
        coefficient challenges term.1 * row term.2).sum = -((n : ℕ) : Fr) := by
    have boolean (t : ℕ) (few : t < 32) : row (.witness (canon + 32 * k + t)) = 0 ∨
        row (.witness (canon + 32 * k + t)) = 1 := by
      rw [add_assoc]
      exact canonBits (32 * k + t) (by omega)
    obtain ⟨n, small, bitsEq⟩ := exists_bits boolean
    exact ⟨n, small, sum_minusBits challenges bitsEq small⟩
  choose! d dSmall dEq using difference
  have borrow (k : ℕ) (inside : k < 8) : ∃ n ≤ 1,
      row (.witness (canon + 32 * wordsPerValue + k)) = ((n : ℕ) : Fr) := by
    have boolean := canonBits (32 * wordsPerValue + k) (by rw [wordsPerValue]; omega)
    rw [← add_assoc] at boolean
    rcases boolean with zero | one
    · exact ⟨0, by norm_num, by rw [zero, Nat.cast_zero]⟩
    · exact ⟨1, le_rfl, by rw [one, Nat.cast_one]⟩
  choose! b bSmall bEq using borrow
  -- the chain's equations hold of the integers
  have each (i : ℕ) (inside : i < 8) : x i + 2 ^ 32 * (if i + 1 = 0 then 0 else b (i + 1 - 1)) =
      modulusLimb i + (if i = 0 then 0 else b (i - 1)) + d i := by
    have equal := chain i inside
    rw [dEq i inside, xEq i inside, bEq i inside, selected] at equal
    have xHere := xSmall i inside
    have dHere := dSmall i inside
    have mHere := modulusLimb_lt inside
    have bHere := bSmall i inside
    rw [if_neg (Nat.succ_ne_zero i), Nat.add_sub_cancel]
    by_cases start : i = 0
    · subst start
      rw [if_neg (lt_irrefl 0)] at equal
      rw [if_pos rfl]
      have integer : (((x 0 : ℤ) - modulusLimb 0 + 2 ^ 32 * b 0 - d 0 : ℤ) : Fr) = 0 := by
        rw [← equal]
        push_cast
        ring
      have zero := fr_eq_zero integer (by omega) (by omega)
      omega
    · rw [if_pos (Nat.pos_of_ne_zero start), bEq (i - 1) (by omega)] at equal
      rw [if_neg start]
      have before := bSmall (i - 1) (by omega)
      have integer : (((x i : ℤ) - modulusLimb i + 2 ^ 32 * b i - b (i - 1) - d i : ℤ) : Fr) = 0 := by
        rw [← equal]
        push_cast
        ring
      have zero := fr_eq_zero integer (by omega) (by omega)
      omega
  have out : b 7 = 1 := by
    refine fr_natCast_inj (lt_of_le_of_lt (bSmall 7 (by norm_num)) (by norm_num)) (by norm_num) ?_
    rw [← bEq 7 (by norm_num), ← last, selected, Nat.cast_one]
  have below := @lt_of_borrows (2 ^ 32) x modulusLimb (fun i => if i = 0 then 0 else b (i - 1)) d 8 rfl
    each dSmall out
  rw [limbSum_modulusLimb] at below
  refine ⟨limbSum (2 ^ 32) x 8, below, fun k inside => ?_⟩
  rw [limbAt_limbSum xSmall inside]
  exact xEq k inside

/-- A number below the modulus satisfies the gates under its columns. -/
theorem canonicalGates_of_columns {x : ℕ} (selected : row live = 1) (below : x < frModulus)
    (words : ∀ k < 8, row (word (first + k) field) = ((limbAt (2 ^ 32) x k : ℕ) : Fr))
    (columns : HoldsCanonical row bits canon x) :
    ∀ gate ∈ canonicalGates name first field bits canon, gate.2.value challenges row = 0 := by
  have limb (k : ℕ) : limbAt (2 ^ 32) x k < 2 ^ 32 := limbAt_lt (by norm_num) x k
  have total : limbSum (2 ^ 32) (limbAt (2 ^ 32) x) 8 = x :=
    limbSum_limbAt_of_lt (lt_trans below (by norm_num [frModulus]))
  have step (k : ℕ) (inside : k < 8) := @borrow_step (2 ^ 32) (limbAt (2 ^ 32) x) modulusLimb k
    (fun j _ => limb j) fun j few => modulusLimb_lt (by omega)
  have borrowBit (k : ℕ) (inside : k < 8) : row (.witness (canon + 32 * wordsPerValue + k)) = 0 ∨
        row (.witness (canon + 32 * wordsPerValue + k)) = 1 := by
    rw [columns.borrow k inside, borrowAt]
    split_ifs
    · exact Or.inr Nat.cast_one
    · exact Or.inl Nat.cast_zero
  refine canonicalGates_parts.mpr ⟨fun k inside t few => (columns.word k inside).boolean few,
    fun i inside => ?_, fun k inside => ?_, fun i inside => ?_, ?_⟩
  · by_cases isDifference : i < 256
    · have bit := (columns.difference (i / 32) (by omega)).boolean (Nat.mod_lt i (by norm_num))
      rwa [show canon + 32 * (i / 32) + i % 32 = canon + i by omega] at bit
    · have bit := borrowBit (i - 256) (by omega)
      rwa [show canon + 32 * wordsPerValue + (i - 256) = canon + i by
        rw [wordsPerValue]; omega] at bit
  · rw [sum_minusBits challenges (columns.word k inside) (limb k), words k inside, add_neg_cancel]
  · obtain ⟨equal, small⟩ := step i inside
    rw [sum_minusBits challenges (columns.difference i inside) small, words i inside,
      columns.borrow i inside, selected]
    have cast := congrArg (fun n : ℕ => (n : Fr)) equal
    simp only [Nat.cast_add, Nat.cast_mul] at cast
    by_cases start : i = 0
    · subst start
      rw [if_neg (lt_irrefl 0)]
      have none : borrowAt (2 ^ 32) (limbAt (2 ^ 32) x) modulusLimb 0 = 0 := by simp [borrowAt]
      rw [none, Nat.cast_zero] at cast
      linear_combination cast
    · rw [if_pos (Nat.pos_of_ne_zero start), columns.borrow (i - 1) (by omega),
        Nat.sub_add_cancel (Nat.pos_of_ne_zero start)]
      linear_combination cast
  · rw [columns.borrow 7 (by norm_num), selected, borrowAt, total, limbSum_modulusLimb,
      if_pos below, Nat.cast_one]

end Canonical

section Frame

theorem mem_booleanity {x address : PolyAddress} :
    address ∈ (booleanity x).operands ↔ address = x := by
  simp [booleanity, quadratic, GateDef.operands]

/-- The frame's gates read memory columns and the frame's own witness columns. -/
theorem frameGates_operands {words frameBytes : ℕ} {gate : String × GateDef}
    (member : gate ∈ frameGates words frameBytes) {address : PolyAddress}
    (read : address ∈ gate.2.operands) :
    (∃ i, address = .memory i) ∨ ∃ i < frameWitness words, address = .witness i := by
  have column {j bit : ℕ} (word : j < words) (inside : bit < gapBits) :
      gapBits * j + bit < frameWitness words := by
    have room : gapBits * (j + 1) ≤ gapBits * words := Nat.mul_le_mul_left _ word
    rw [Nat.mul_succ] at room
    rw [frameWitness]
    omega
  have bits {mask : PolyAddress} {count scale : ℕ} {bit : ℕ → PolyAddress}
      (isMemory : ∃ i, mask = .memory i)
      (isWitness : ∀ t < count, ∃ i < frameWitness words, bit t = .witness i)
      (inMask : address ∈ (maskedBits mask count scale bit).flatMap
        fun term => [term.2.1, term.2.2]) :
      (∃ i, address = .memory i) ∨ ∃ i < frameWitness words, address = .witness i := by
    simp only [maskedBits, List.flatMap_map, List.mem_flatMap, List.mem_range, List.mem_cons,
      List.not_mem_nil, or_false] at inMask
    obtain ⟨t, few, rfl | rfl⟩ := inMask
    · exact Or.inl isMemory
    · exact Or.inr (isWitness t few)
  have isLive : ∃ i, live = .memory i := ⟨_, rfl⟩
  have low (t : ℕ) (few : t < baseLowBits) :
      ∃ i < frameWitness words, baseLowBit words t = .witness i :=
    ⟨_, by rw [frameWitness]; omega, rfl⟩
  have room (t : ℕ) (few : t < baseRoomBits) :
      ∃ i < frameWitness words, baseRoomBit words t = .witness i :=
    ⟨_, by rw [frameWitness]; omega, rfl⟩
  simp only [frameGates, List.mem_append, List.mem_cons, List.mem_flatMap, List.mem_map,
    List.mem_range, List.not_mem_nil, or_false] at member
  rcases member with (((((rfl | gap) | low') | room') | addr) | word) | base
  · exact Or.inl ⟨_, mem_booleanity.mp read⟩
  · obtain ⟨j, inside, i, few, rfl⟩ := gap
    exact Or.inr ⟨_, column inside few, mem_booleanity.mp read⟩
  · obtain ⟨i, few, rfl⟩ := low'
    rw [mem_booleanity.mp read]
    exact Or.inr (low i few)
  · obtain ⟨i, few, rfl⟩ := room'
    rw [mem_booleanity.mp read]
    exact Or.inr (room i few)
  · obtain ⟨j, inside, rfl⟩ := addr
    simp only [quadratic, GateDef.operands, List.map_cons, List.map_nil, List.flatMap_cons,
      List.flatMap_nil, List.cons_append, List.nil_append, List.append_nil, List.mem_cons,
      List.not_mem_nil, or_false] at read
    rcases read with rfl | rfl | rfl | rfl | rfl <;> exact Or.inl ⟨_, rfl⟩
  · obtain ⟨j, inside, rfl⟩ := word
    simp only [GateDef.operands, List.map_cons, List.map_nil, List.flatMap_cons,
      List.cons_append, List.nil_append, List.mem_cons] at read
    rcases read with rfl | rfl | rfl | rfl | rfl | masked
    · exact Or.inl ⟨_, rfl⟩
    · exact Or.inl ⟨_, rfl⟩
    · exact Or.inl ⟨_, rfl⟩
    · exact Or.inl ⟨_, rfl⟩
    · exact Or.inl ⟨_, rfl⟩
    · exact bits isLive (fun t few => ⟨_, column inside few, rfl⟩) masked
  · rcases base with rfl | rfl <;>
      simp only [quadratic, GateDef.operands, List.map_cons, List.map_nil, List.flatMap_cons,
        List.cons_append, List.nil_append, List.mem_cons] at read
    · rcases read with rfl | rfl | rfl | masked
      · exact Or.inl ⟨_, rfl⟩
      · exact Or.inl ⟨_, rfl⟩
      · exact Or.inl ⟨_, rfl⟩
      · exact bits isLive low masked
    · rcases read with rfl | rfl | rfl | masked
      · exact Or.inl ⟨_, rfl⟩
      · exact Or.inl ⟨_, rfl⟩
      · exact Or.inl ⟨_, rfl⟩
      · exact bits isLive room masked

/-- The frame's gates do not read a family's columns. -/
theorem frameGates_withColumns {challenges : ExternalChallenges} {row : Row}
    {words frameBytes start stop : ℕ} {columns : ℕ → Fr} (after : frameWitness words ≤ start) :
    (∀ gate ∈ frameGates words frameBytes,
        gate.2.value challenges (row.withColumns start stop columns) = 0) ↔
      ∀ gate ∈ frameGates words frameBytes, gate.2.value challenges row = 0 := by
  refine forall₂_congr fun gate member => ?_
  rw [GateDef.value_congr fun address read => ?_]
  rcases frameGates_operands member read with memory | witness
  · obtain ⟨i, rfl⟩ := memory
    rfl
  · obtain ⟨i, inside, rfl⟩ := witness
    exact Row.withColumns_of_lt row columns (lt_of_lt_of_le inside after)

end Frame

end Delegation

end Apogee
