import Apogee.Emulator.Cells
import Apogee.Math.Passes
import Apogee.Soundness.Delegation

/-! # The modular multiplication row

Every column of a live row holds a number. The chains of borrows say which
values are below the modulus, the carries say that the product is a multiple of
the modulus and the result, and such numbers exist for every pair of operands
below the modulus.
-/

namespace Apogee.ModMul

open Delegation Gadgets Math

/-- A modulus. -/
def modulusValue (i : ℕ) : ℕ := limbSum (2 ^ 32) (modulusLimb i) limbs

theorem modulusLimb_lt {i k : ℕ} (selected : i < 4) (inside : k < 8) :
    modulusLimb i k < 2 ^ 32 := by
  simp only [modulusLimb, moduli]
  interval_cases i <;> interval_cases k <;> norm_num

/-- A number's signed carries: none into the first place, none out of the last. -/
def signedCarry (carry : ℕ → ℕ) : ℕ → ℤ
  | 0 => 0
  | k + 1 => if k < carries then (carry k : ℤ) - 2 ^ (carryBits - 1) else 0

/-- The limb identity's balance at a place. -/
def balance (a b q m out : ℕ → ℕ) (k : ℕ) : ℤ :=
  (convolve a b limbs limbs k : ℕ) - (convolve q m limbs limbs k : ℕ) -
    if k < limbs then (out k : ℤ) else 0

/-- Limbs in range keep the balance small. -/
theorem abs_balance_le {a b q m out : ℕ → ℕ} (aSmall : ∀ i < 8, a i < 2 ^ 32)
    (bSmall : ∀ i < 8, b i < 2 ^ 32) (qSmall : ∀ i < 8, q i < 2 ^ 32)
    (mSmall : ∀ i < 8, m i < 2 ^ 32) (outSmall : ∀ i < 8, out i < 2 ^ 32) (k : ℕ) :
    |balance a b q m out k| ≤ ((8 * ((2 ^ 32 - 1) * (2 ^ 32 - 1)) + 2 ^ 32 : ℕ) : ℤ) := by
  have products {f g : ℕ → ℕ} (fSmall : ∀ i < 8, f i < 2 ^ 32) (gSmall : ∀ i < 8, g i < 2 ^ 32) :
      convolve f g limbs limbs k ≤ 8 * ((2 ^ 32 - 1) * (2 ^ 32 - 1)) :=
    convolve_le (fun i few => Nat.le_sub_one_of_lt (fSmall i few))
      (fun i few => Nat.le_sub_one_of_lt (gSmall i few)) k
  have product := products aSmall bSmall
  have multiple := products qSmall mSmall
  have result : 0 ≤ (if k < limbs then (out k : ℤ) else 0) ∧
      (if k < limbs then (out k : ℤ) else 0) < 2 ^ 32 := by
    by_cases few : k < limbs
    · have small := outSmall k few
      rw [if_pos few]
      omega
    · simp [few]
  rw [balance, abs_le]
  omega

section Gates

variable {challenges : ExternalChallenges} {decoded : List (List Fr)} {row : Row}

/-- The selectors' gates say that the frame names one modulus, and its limbs are
committed. -/
theorem selectorGates_iff (selected : row live = 1) :
    (∀ gate ∈ selectorGates, gate.2.value challenges row = 0) ↔
      ∃ i < 4, row (word selectorWord wordReadValue) = ((codes.getD i 0 : ℕ) : Fr) ∧
        (∀ j < 4, row (selector j) = if j = i then 1 else 0) ∧
        ∀ k < 8, row (mLimb k) = ((modulusLimb i k : ℕ) : Fr) := by
  have bits : (∀ gate ∈ codes.mapIdx fun i code =>
        ("selector" ++ toString code ++ "_boolean", booleanity (selector i)),
      gate.2.value challenges row = 0) ↔ ∀ i < 4, row (selector i) = 0 ∨ row (selector i) = 1 := by
    simp only [forall_mem_mapIdx, booleanity_iff]
    rfl
  have named : (linear ((lit 1, word selectorWord wordReadValue) ::
      codes.mapIdx fun i code => (neg code, selector i))).value challenges row =
        row (word selectorWord wordReadValue) -
          ((List.range 4).map fun i => ((codes.getD i 0 : ℕ) : Fr) * row (selector i)).sum := by
    rw [linear, value_linear, List.map_cons, List.sum_cons, sum_map_mapIdx _ _ _ 0]
    simp only [coefficient_lit, coefficient_neg, neg_mul, Nat.cast_one, one_mul, Nat.cast_zero,
      zero_add, list_sum_range, Finset.sum_neg_distrib, ← sub_eq_add_neg]
    rfl
  have one : (linear ((codes.mapIdx fun i _ => (lit 1, selector i)) ++ [(neg 1, live)])).value
      challenges row = ((List.range 4).map fun i => row (selector i)).sum - 1 := by
    rw [linear, value_linear, List.map_append, List.sum_append, sum_map_mapIdx _ _ _ 0]
    simp only [coefficient_lit, coefficient_neg, List.map_cons, List.map_nil, List.sum_cons,
      List.sum_nil, selected, Nat.cast_one, one_mul, mul_one, Nat.cast_zero, add_zero, zero_add,
      ← sub_eq_add_neg]
    rfl
  have limb (k : ℕ) : (linear ((lit 1, mLimb k) ::
      moduli.mapIdx fun i modulus => (neg (modulus.getD k 0), selector i))).value challenges row =
        row (mLimb k) -
          ((List.range 4).map fun i => ((modulusLimb i k : ℕ) : Fr) * row (selector i)).sum := by
    rw [linear, value_linear, List.map_cons, List.sum_cons, sum_map_mapIdx _ _ _ []]
    simp only [coefficient_lit, coefficient_neg, neg_mul, Nat.cast_one, one_mul, Nat.cast_zero,
      zero_add, list_sum_range, Finset.sum_neg_distrib, ← sub_eq_add_neg]
    rfl
  simp only [selectorGates, List.forall_mem_append, List.forall_mem_cons, List.forall_mem_map,
    List.mem_range, List.not_mem_nil, IsEmpty.forall_iff, implies_true, and_true, bits, named, one,
    limb, sub_eq_zero]
  have hot := @oneHot_iff row selector 4 (by norm_num)
  constructor
  · intro given
    obtain ⟨⟨boolean, code, total⟩, modulus⟩ := given
    obtain ⟨i, few, each⟩ := hot.mp ⟨boolean, total⟩
    rw [sum_oneHot few each fun i => ((codes.getD i 0 : ℕ) : Fr)] at code
    refine ⟨i, few, code, each, fun k inside => ?_⟩
    rw [modulus k inside, sum_oneHot few each fun i => ((modulusLimb i k : ℕ) : Fr)]
  · intro given
    obtain ⟨i, few, code, each, modulus⟩ := given
    obtain ⟨boolean, total⟩ := hot.mpr ⟨i, few, each⟩
    rw [sum_oneHot few each fun i => ((codes.getD i 0 : ℕ) : Fr)]
    refine ⟨⟨boolean, code, total⟩, fun k inside => ?_⟩
    rw [modulus k inside, sum_oneHot few each fun i => ((modulusLimb i k : ℕ) : Fr)]

/-- A value's chain against the modulus: its borrows are bits, each place's
equation holds of the numbers, and the last place borrows. -/
theorem belowModulusGates_iff {name : String} {first field v : ℕ} {x m difference borrow : ℕ → ℕ}
    (selected : row live = 1)
    (xEq : ∀ i < 8, row (word (first + i) field) = ((x i : ℕ) : Fr))
    (mEq : ∀ i < 8, row (mLimb i) = ((m i : ℕ) : Fr))
    (differenceEq : ∀ i < 8, row (diff v i) = ((difference i : ℕ) : Fr))
    (borrowEq : ∀ i < 8, row (borrowBit v i) = ((borrow (i + 1) : ℕ) : Fr))
    (start : borrow 0 = 0) (xSmall : ∀ i < 8, x i < 2 ^ 32) (mSmall : ∀ i < 8, m i < 2 ^ 32)
    (differenceSmall : ∀ i < 8, difference i < 2 ^ 32)
    (borrowSmall : ∀ i < 8, borrow (i + 1) < frModulus) :
    (∀ gate ∈ belowModulusGates name first field v, gate.2.value challenges row = 0) ↔
      (∀ i < 8, borrow (i + 1) ≤ 1) ∧
        (∀ i < 8, x i + 2 ^ 32 * borrow (i + 1) = m i + borrow i + difference i) ∧
        borrow 8 = 1 := by
  have bits : (∀ i < 8, (booleanity (borrowBit v i)).value challenges row = 0) ↔
      ∀ i < 8, borrow (i + 1) ≤ 1 :=
    forall₂_congr fun i inside => booleanity_number_iff (borrowEq i inside) (borrowSmall i inside)
  have place (i : ℕ) (inside : i < 8) : (linear
      ([(lit 1, word (first + i) field), (neg 1, mLimb i), (lit (2 ^ 32), borrowBit v i)] ++
        (if 0 < i then [(neg 1, borrowBit v (i - 1))] else []) ++ [(neg 1, diff v i)])).value
      challenges row = (((x i : ℤ) + 2 ^ 32 * borrow (i + 1) - m i - borrow i - difference i : ℤ) : Fr) := by
    cases i with
    | zero =>
      simp only [linear, lt_irrefl, ↓reduceIte, List.append_nil, List.cons_append,
        List.nil_append, value_linear, List.map_cons, List.map_nil, List.sum_cons, List.sum_nil,
        coefficient_lit, coefficient_neg, xEq 0 inside, mEq 0 inside, differenceEq 0 inside,
        borrowEq 0 inside, start]
      push_cast
      ring
    | succ i =>
      simp only [linear, Nat.succ_pos, ↓reduceIte, Nat.add_sub_cancel, List.cons_append,
        List.nil_append, value_linear, List.map_cons, List.map_nil, List.sum_cons, List.sum_nil,
        coefficient_lit, coefficient_neg, xEq _ inside, mEq _ inside, differenceEq _ inside,
        borrowEq _ inside, borrowEq i (by omega)]
      push_cast
      ring
  have last : (linear [(lit 1, live), (neg 1, borrowBit v (8 - 1))]).value challenges row =
      1 - ((borrow 8 : ℕ) : Fr) := by
    simp only [linear, value_linear, List.map_cons, List.map_nil, List.sum_cons, List.sum_nil,
      coefficient_lit, coefficient_neg, Nat.reduceSub, selected, borrowEq 7 (by norm_num)]
    push_cast
    ring
  simp only [belowModulusGates, List.forall_mem_append, List.forall_mem_map, List.mem_range,
    List.forall_mem_singleton, bits, last, limbs]
  rw [and_assoc]
  refine and_congr_right fun boolean => and_congr (forall₂_congr fun i inside => ?_) ?_
  · rw [place i inside]
    have xHere := xSmall i inside
    have mHere := mSmall i inside
    have differenceHere := differenceSmall i inside
    have borrowHere := boolean i inside
    have before : borrow i ≤ 1 := by
      cases i with
      | zero => rw [start]; norm_num
      | succ i => exact boolean i (by omega)
    constructor
    · intro vanishes
      have zero := fr_eq_zero vanishes (by omega) (by omega)
      omega
    · intro equal
      rw [show (x i : ℤ) + 2 ^ 32 * borrow (i + 1) - m i - borrow i - difference i = 0 by omega,
        Int.cast_zero]
  · have bit : borrow 8 ≤ 1 := boolean 7 (by norm_num)
    rw [sub_eq_zero]
    constructor
    · intro same
      exact (@fr_natCast_inj 1 (borrow 8) (by norm_num) (by omega) (by simpa using same)).symm
    · intro same
      rw [same, Nat.cast_one]

/-- The limb identity's gates say that the numbers balance, place by place. -/
theorem productGates_iff {a b q m out carried : ℕ → ℕ} (selected : row live = 1)
    (aEq : ∀ i < 8, row (word (aWord + i) wordReadValue) = ((a i : ℕ) : Fr))
    (bEq : ∀ i < 8, row (word (bWord + i) wordReadValue) = ((b i : ℕ) : Fr))
    (qEq : ∀ i < 8, row (qLimb i) = ((q i : ℕ) : Fr))
    (mEq : ∀ i < 8, row (mLimb i) = ((m i : ℕ) : Fr))
    (outEq : ∀ i < 8, row (word (outWord + i) wordWriteValue) = ((out i : ℕ) : Fr))
    (carriedEq : ∀ k < 14, row (carry k) = ((carried k : ℕ) : Fr))
    (aSmall : ∀ i < 8, a i < 2 ^ 32) (bSmall : ∀ i < 8, b i < 2 ^ 32) (qSmall : ∀ i < 8, q i < 2 ^ 32)
    (mSmall : ∀ i < 8, m i < 2 ^ 32) (outSmall : ∀ i < 8, out i < 2 ^ 32)
    (carriedSmall : ∀ k < 14, carried k < 2 ^ 37) :
    (∀ gate ∈ productGates, gate.2.value challenges row = 0) ↔
      ∀ k < 15, balance a b q m out k + signedCarry carried k =
        2 ^ 32 * signedCarry carried (k + 1) := by
  have into (k : ℕ) (inside : k < 15) :
      (((if 0 < k then carryTerms (k - 1) else []) : List (Coeff × PolyAddress)).map
        fun term => coefficient challenges term.1 * row term.2).sum =
          ((signedCarry carried k : ℤ) : Fr) := by
    cases k with
    | zero => simp [signedCarry]
    | succ k =>
      have few : k < 14 := by omega
      simp only [Nat.succ_pos, ↓reduceIte, Nat.add_sub_cancel, carryTerms, carries, positions,
        limbs, Nat.reduceMul, Nat.reduceSub, few, signedCarry, carryBits, List.map_cons,
        List.map_nil, List.sum_cons, List.sum_nil, coefficient_lit, coefficient_neg, selected,
        carriedEq k few]
      push_cast
      ring
  have outOf (k : ℕ) (inside : k < 15) :
      ((carriedTerms k).map fun term => coefficient challenges term.1 * row term.2).sum =
        -(((2 ^ 32 : ℤ) * signedCarry carried (k + 1) : ℤ) : Fr) := by
    by_cases few : k < 14
    · simp only [carriedTerms, carries, positions, limbs, Nat.reduceMul, Nat.reduceSub, few,
        ↓reduceIte, signedCarry, carryBits, List.map_cons, List.map_nil, List.sum_cons,
        List.sum_nil, coefficient_lit, coefficient_neg, selected, carriedEq k few]
      push_cast
      ring
    · simp [carriedTerms, carries, positions, limbs, few, signedCarry]
  have written (k : ℕ) : (((if k < limbs then [(neg 1, word (outWord + k) wordWriteValue)] else []) :
      List (Coeff × PolyAddress)).map fun term => coefficient challenges term.1 * row term.2).sum =
        -(((if k < limbs then (out k : ℤ) else 0 : ℤ)) : Fr) := by
    by_cases few : k < limbs
    · simp [few, outEq k few]
    · simp [few]
  have products (k : ℕ) : (((List.range limbs).flatMap fun i =>
        if i ≤ k ∧ k - i < limbs then
          [(lit 1, word (aWord + i) wordReadValue, word (bWord + (k - i)) wordReadValue),
            (neg 1, qLimb i, mLimb (k - i))]
        else []).map
      fun term => coefficient challenges term.1 * row term.2.1 * row term.2.2).sum =
        (((convolve a b limbs limbs k : ℕ) - (convolve q m limbs limbs k : ℕ) : ℤ) : Fr) := by
    rw [sum_map_flatMap, list_sum_range]
    push_cast
    rw [cast_convolve, cast_convolve, convolve, convolve, ← Finset.sum_sub_distrib]
    refine Finset.sum_congr rfl fun i member => ?_
    have left : i < 8 := Finset.mem_range.mp member
    by_cases inside : i ≤ k ∧ k - i < limbs
    · have right : k - i < 8 := inside.2
      simp only [inside, and_self, ↓reduceIte, List.map_cons, List.map_nil, List.sum_cons,
        List.sum_nil, coefficient_lit, coefficient_neg, aEq i left, bEq _ right, qEq i left,
        mEq _ right]
      push_cast
      ring
    · simp only [if_neg inside, List.map_nil, List.sum_nil, sub_zero]
  simp only [productGates, List.forall_mem_map, List.mem_range, show positions = 15 from rfl]
  refine forall₂_congr fun k inside => ?_
  have value : (quadratic
      ((if k < limbs then [(neg 1, word (outWord + k) wordWriteValue)] else []) ++
        (if 0 < k then carryTerms (k - 1) else []) ++ carriedTerms k)
      ((List.range limbs).flatMap fun i =>
        if i ≤ k ∧ k - i < limbs then
          [(lit 1, word (aWord + i) wordReadValue, word (bWord + (k - i)) wordReadValue),
            (neg 1, qLimb i, mLimb (k - i))]
        else [])).value challenges row =
      ((balance a b q m out k + signedCarry carried k -
        2 ^ 32 * signedCarry carried (k + 1) : ℤ) : Fr) := by
    rw [quadratic, value_quadratic, List.map_append, List.map_append, List.sum_append,
      List.sum_append, written, into k inside, outOf k inside, products, balance, coefficient_lit]
    push_cast
    ring
  rw [value]
  have small := abs_le.mp (abs_balance_le aSmall bSmall qSmall mSmall outSmall k)
  have carry (k : ℕ) : |signedCarry carried k| ≤ 2 ^ 37 := by
    cases k with
    | zero => simp [signedCarry]
    | succ k =>
      rw [signedCarry]
      by_cases few : k < carries
      · have small := carriedSmall k few
        rw [if_pos few, abs_le, carryBits]
        omega
      · simp [few]
  have before := abs_le.mp (carry k)
  have after := abs_le.mp (carry (k + 1))
  constructor
  · intro vanishes
    have zero := fr_eq_zero vanishes (by omega) (by omega)
    omega
  · intro equal
    rw [equal, sub_self, Int.cast_zero]

end Gates

/-- A value's limb column. -/
def valueColumn (v k : ℕ) : PolyAddress :=
  let value := values.getD v ("", 0, 0)
  word (value.2.1 + k) value.2.2

/-- The numbers a live row holds: the selected modulus, the three values' limbs
with their differences and borrows, the quotient's limbs and the carries. -/
structure Numbers where
  modulus : ℕ
  value : ℕ → ℕ → ℕ
  difference : ℕ → ℕ → ℕ
  borrow : ℕ → ℕ → ℕ
  quotient : ℕ → ℕ
  carried : ℕ → ℕ

namespace Numbers

/-- The modulus's limbs. -/
def m (numbers : Numbers) : ℕ → ℕ := modulusLimb numbers.modulus

/-- The numbers are in range, the chains of borrows show the values below the
modulus, and the limb identity balances. -/
structure Ok (numbers : Numbers) : Prop where
  selected : numbers.modulus < 4
  valueSmall : ∀ v < 3, ∀ k < 8, numbers.value v k < 2 ^ 32
  differenceSmall : ∀ v < 3, ∀ k < 8, numbers.difference v k < 2 ^ 32
  quotientSmall : ∀ k < 8, numbers.quotient k < 2 ^ 32
  carriedSmall : ∀ k < 14, numbers.carried k < 2 ^ 37
  start : ∀ v < 3, numbers.borrow v 0 = 0
  boolean : ∀ v < 3, ∀ i < 8, numbers.borrow v (i + 1) ≤ 1
  chain : ∀ v < 3, ∀ i < 8, numbers.value v i + 2 ^ 32 * numbers.borrow v (i + 1) =
    numbers.m i + numbers.borrow v i + numbers.difference v i
  below : ∀ v < 3, numbers.borrow v 8 = 1
  balanced : ∀ k < 15,
    balance (numbers.value 0) (numbers.value 1) numbers.quotient numbers.m (numbers.value 2) k +
        signedCarry numbers.carried k = 2 ^ 32 * signedCarry numbers.carried (k + 1)

/-- A row's memory columns hold the modulus's code and the values. -/
structure InFrame (numbers : Numbers) (row : Row) : Prop where
  code : row (word selectorWord wordReadValue) = ((codes.getD numbers.modulus 0 : ℕ) : Fr)
  value : ∀ v < 3, ∀ k < 8, row (valueColumn v k) = ((numbers.value v k : ℕ) : Fr)

/-- A row's family columns hold the numbers, their high halves and their chunks. -/
structure InWitness (numbers : Numbers) (row : Row) : Prop where
  selector : ∀ j < 4, row (selector j) = if j = numbers.modulus then 1 else 0
  m : ∀ k < 8, row (mLimb k) = ((numbers.m k : ℕ) : Fr)
  valueHi : ∀ v < 3, ∀ k < 8, row (valueHi v k) = ((numbers.value v k / 2 ^ 16 : ℕ) : Fr)
  difference : ∀ v < 3, ∀ k < 8, row (diff v k) = ((numbers.difference v k : ℕ) : Fr)
  differenceHi : ∀ v < 3, ∀ k < 8,
    row (diffHi v k) = ((numbers.difference v k / 2 ^ 16 : ℕ) : Fr)
  borrow : ∀ v < 3, ∀ k < 8, row (borrowBit v k) = ((numbers.borrow v (k + 1) : ℕ) : Fr)
  quotient : ∀ k < 8, row (qLimb k) = ((numbers.quotient k : ℕ) : Fr)
  quotientHi : ∀ k < 8, row (qHi k) = ((numbers.quotient k / 2 ^ 16 : ℕ) : Fr)
  carried : ∀ k < 14, row (carry k) = ((numbers.carried k : ℕ) : Fr)
  chunk : ∀ k < 14, ∀ c < gapChunks, row (carryChunk k c) = chunkOf (numbers.carried k) c

/-- The family's columns, by their places. -/
def columns (numbers : Numbers) (i : ℕ) : Fr :=
  if i < moduliAt then if i - selectorsAt = numbers.modulus then 1 else 0
  else if i < valueBlock 0 then ((numbers.m (i - moduliAt) : ℕ) : Fr)
  else if i < quotientAt then
    let v := (i - valueBlock 0) / valueColumns
    let place := (i - valueBlock 0) % valueColumns
    let k := place % limbs
    (([numbers.value v k / 2 ^ 16, numbers.difference v k, numbers.difference v k / 2 ^ 16,
      numbers.borrow v (k + 1)].getD (place / limbs) 0 : ℕ) : Fr)
  else if i < quotientAt + limbs then ((numbers.quotient (i - quotientAt) : ℕ) : Fr)
  else if i < carriesAt then ((numbers.quotient (i - (quotientAt + limbs)) / 2 ^ 16 : ℕ) : Fr)
  else
    let k := (i - carriesAt) / carryColumns
    let place := (i - carriesAt) % carryColumns
    if place = 0 then ((numbers.carried k : ℕ) : Fr) else chunkOf (numbers.carried k) (place - 1)

/-- The places, counted out. -/
private theorem columns_eq (numbers : Numbers) (i : ℕ) : numbers.columns i =
      if i < 58 then if i - 54 = numbers.modulus then 1 else 0
      else if i < 66 then ((numbers.m (i - 58) : ℕ) : Fr)
      else if i < 162 then
        (([numbers.value ((i - 66) / 32) ((i - 66) % 32 % 8) / 2 ^ 16,
          numbers.difference ((i - 66) / 32) ((i - 66) % 32 % 8),
          numbers.difference ((i - 66) / 32) ((i - 66) % 32 % 8) / 2 ^ 16,
          numbers.borrow ((i - 66) / 32) ((i - 66) % 32 % 8 + 1)].getD ((i - 66) % 32 / 8) 0 : ℕ) :
            Fr)
      else if i < 170 then ((numbers.quotient (i - 162) : ℕ) : Fr)
      else if i < 178 then ((numbers.quotient (i - 170) / 2 ^ 16 : ℕ) : Fr)
      else if (i - 178) % 3 = 0 then ((numbers.carried ((i - 178) / 3) : ℕ) : Fr)
      else chunkOf (numbers.carried ((i - 178) / 3)) ((i - 178) % 3 - 1) := rfl

/-- A row under the numbers' columns holds them. -/
theorem inWitness_columns (numbers : Numbers) (row : Row) :
    numbers.InWitness (row.withColumns selectorsAt multiplicityAt numbers.columns) := by
  have at' (i : ℕ) (lower : 54 ≤ i) (upper : i < 220) :
      row.withColumns selectorsAt multiplicityAt numbers.columns (w i) = numbers.columns i :=
    Row.withColumns_of_mem row _ lower upper
  have value (v part k : ℕ) (inside : v < 3) (few : part < 4) (small : k < 8) :
      row.withColumns selectorsAt multiplicityAt numbers.columns (w (66 + v * 32 + part * 8 + k)) =
        (([numbers.value v k / 2 ^ 16, numbers.difference v k, numbers.difference v k / 2 ^ 16,
          numbers.borrow v (k + 1)].getD part 0 : ℕ) : Fr) := by
    rw [at' _ (by omega) (by omega), columns_eq, if_neg (by omega), if_neg (by omega),
      if_pos (by omega), show (66 + v * 32 + part * 8 + k - 66) / 32 = v by omega,
      show (66 + v * 32 + part * 8 + k - 66) % 32 = part * 8 + k by omega,
      show (part * 8 + k) / 8 = part by omega, show (part * 8 + k) % 8 = k by omega]
  have chunk (k place : ℕ) (inside : k < 14) (few : place < 3) :
      row.withColumns selectorsAt multiplicityAt numbers.columns (w (178 + 3 * k + place)) =
        if place = 0 then ((numbers.carried k : ℕ) : Fr)
        else chunkOf (numbers.carried k) (place - 1) := by
    rw [at' _ (by omega) (by omega), columns_eq, if_neg (by omega), if_neg (by omega),
      if_neg (by omega), if_neg (by omega), if_neg (by omega),
      show (178 + 3 * k + place - 178) / 3 = k by omega,
      show (178 + 3 * k + place - 178) % 3 = place by omega]
  refine ⟨fun j inside => ?_, fun k inside => ?_, fun v inside k few => ?_,
    fun v inside k few => ?_, fun v inside k few => ?_, fun v inside k few => ?_,
    fun k inside => ?_, fun k inside => ?_, fun k inside => ?_, fun k inside c few => ?_⟩
  · refine (at' (54 + j) (by omega) (by omega)).trans ?_
    rw [columns_eq, if_pos (by omega), Nat.add_sub_cancel_left]
  · refine (at' (58 + k) (by omega) (by omega)).trans ?_
    rw [columns_eq, if_neg (by omega), if_pos (by omega), Nat.add_sub_cancel_left]
  · exact value v 0 k inside (by norm_num) few
  · exact value v 1 k inside (by norm_num) few
  · exact value v 2 k inside (by norm_num) few
  · exact value v 3 k inside (by norm_num) few
  · refine (at' (162 + k) (by omega) (by omega)).trans ?_
    rw [columns_eq, if_neg (by omega), if_neg (by omega), if_neg (by omega), if_pos (by omega),
      Nat.add_sub_cancel_left]
  · refine (at' (170 + k) (by omega) (by omega)).trans ?_
    rw [columns_eq, if_neg (by omega), if_neg (by omega), if_neg (by omega), if_neg (by omega),
      if_pos (by omega), Nat.add_sub_cancel_left]
  · exact chunk k 0 inside (by norm_num)
  · rw [show carryChunk k c = w (178 + 3 * k + (c + 1)) from
      congrArg w (show 178 + 3 * k + 1 + c = 178 + 3 * k + (c + 1) by omega),
      chunk k (c + 1) inside (show c + 1 < 3 from Nat.succ_lt_succ few), if_neg (Nat.succ_ne_zero c),
      Nat.add_sub_cancel]

end Numbers

/-- A value's name, first word and field. -/
def valueAt (v : ℕ) : String × ℕ × ℕ := values.getD v ("", 0, 0)

section Row

variable {challenges : ExternalChallenges} {decoded : List (List Fr)} {row : Row}

/-- What the circuit asks of a row, part by part. -/
private theorem satisfies_parts : Satisfies challenges decoded row body ↔
      FrameHolds challenges decoded row frameWords frameBytes ∧
        (∀ j < outWord, row (word j wordWriteValue) = row (word j wordReadValue)) ∧
        (∀ gate ∈ selectorGates, gate.2.value challenges row = 0) ∧
        (∀ v < 3, ∀ gate ∈ belowModulusGates (valueAt v).1 (valueAt v).2.1 (valueAt v).2.2 v,
          gate.2.value challenges row = 0) ∧
        (∀ gate ∈ productGates, gate.2.value challenges row = 0) ∧
        (∀ v < 3, ∀ k < 8,
          (∀ lookup ∈ range32 ((valueAt v).1 ++ toString k) live (valueColumn v k) (valueHi v k),
            lookup.Holds challenges decoded row) ∧
          ∀ lookup ∈ range32 ((valueAt v).1 ++ "_diff" ++ toString k) live (diff v k) (diffHi v k),
            lookup.Holds challenges decoded row) ∧
        (∀ k < 8, ∀ lookup ∈ range32 ("q" ++ toString k) live (qLimb k) (qHi k),
          lookup.Holds challenges decoded row) ∧
        ∀ k < 14, ∀ lookup ∈ boundChunked ("carry" ++ toString k) [(lit 1, carry k)]
          ((List.range gapChunks).map (carryChunk k)) carryBits live (lit 0),
            lookup.Holds challenges decoded row := by
  have item {v : ℕ} (inside : v < values.length) : values[v] = valueAt v := by
    rw [valueAt, List.getD_eq_getElem _ _ inside]
  have chains : (∀ gate ∈ (values.mapIdx fun v value =>
        belowModulusGates value.1 value.2.1 value.2.2 v).flatten, gate.2.value challenges row = 0) ↔
      ∀ v < 3, ∀ gate ∈ belowModulusGates (valueAt v).1 (valueAt v).2.1 (valueAt v).2.2 v,
        gate.2.value challenges row = 0 := by
    rw [List.forall_mem_flatten, forall_mem_mapIdx]
    refine forall₂_congr fun v inside => ?_
    rw [item inside]
  have bounds : (∀ lookup ∈ valueLookups, lookup.Holds challenges decoded row) ↔ ∀ v < 3, ∀ k < 8,
        (∀ lookup ∈ range32 ((valueAt v).1 ++ toString k) live (valueColumn v k) (valueHi v k),
          lookup.Holds challenges decoded row) ∧
        ∀ lookup ∈ range32 ((valueAt v).1 ++ "_diff" ++ toString k) live (diff v k) (diffHi v k),
          lookup.Holds challenges decoded row := by
    rw [valueLookups, List.forall_mem_flatten, forall_mem_mapIdx]
    refine forall₂_congr fun v inside => ?_
    simp only [List.forall_mem_flatMap, List.mem_range, List.forall_mem_append, limbs, valueColumn,
      item inside]
    rfl
  have frame : FrameHolds challenges decoded row frameWords frameBytes ↔
      (∀ gate ∈ frameGatesRange16 frameWords frameBytes baseLow baseRoom,
        gate.2.value challenges row = 0) ∧
      ∀ lookup ∈ frameLookupsRange16 frameWords, lookup.Holds challenges decoded row :=
    frameHolds_iff_gates ..
  rw [satisfies_iff_gates, frame, ← @writesBack_iff challenges row outWord, ← chains, ← bounds]
  simp only [body, gates, quotientLookups, carryLookups, List.forall_mem_append,
    List.forall_mem_flatMap, List.mem_range, limbs, show carries = 14 from rfl]
  tauto

/-- The numbers a row's columns hold, under a selected modulus. -/
def numbersOf (row : Row) (modulus : ℕ) : Numbers where
  modulus := modulus
  value v k := (row (valueColumn v k)).val
  difference v k := (row (diff v k)).val
  borrow v i := if i = 0 then 0 else (row (borrowBit v (i - 1))).val
  quotient k := (row (qLimb k)).val
  carried k := (row (carry k)).val

/-- A live row that satisfies the circuit holds numbers that are all right. -/
theorem exists_numbers (selected : row live = 1) (holds : Satisfies challenges decoded row body) :
    ∃ numbers : Numbers, numbers.Ok ∧ numbers.InFrame row := by
  obtain ⟨_, _, selectors, chains, products, bounds, quotients, carries⟩ := satisfies_parts.mp holds
  obtain ⟨i, few, code, _, mEq⟩ := (selectorGates_iff selected).mp selectors
  have number (address : PolyAddress) : row address = (((row address).val : ℕ) : Fr) :=
    (ZMod.natCast_zmod_val _).symm
  have canonical (address : PolyAddress) : (row address).val < frModulus := ZMod.val_lt _
  have valueSmall (v : ℕ) (inside : v < 3) (k : ℕ) (small : k < 8) :
      (row (valueColumn v k)).val < 2 ^ 32 :=
    ((range32_number_iff selected (number _) (canonical _)).mp (bounds v inside k small).1).1
  have differenceSmall (v : ℕ) (inside : v < 3) (k : ℕ) (small : k < 8) :
      (row (diff v k)).val < 2 ^ 32 :=
    ((range32_number_iff selected (number _) (canonical _)).mp (bounds v inside k small).2).1
  have quotientSmall (k : ℕ) (small : k < 8) : (row (qLimb k)).val < 2 ^ 32 :=
    ((range32_number_iff selected (number _) (canonical _)).mp (quotients k small)).1
  have carriedSmall (k : ℕ) (small : k < 14) : (row (carry k)).val < 2 ^ 37 :=
    ((chunks_number_iff selected (number _) (canonical _) (by norm_num [gapChunks])
      (by norm_num [gapChunks, carryBits]) (by norm_num [gapChunks, carryBits])
      (by norm_num [carryBits])).mp (carries k small)).1
  have mSmall (k : ℕ) (inside : k < 8) : modulusLimb i k < 2 ^ 32 := modulusLimb_lt few inside
  have chain (v : ℕ) (inside : v < 3) := (@belowModulusGates_iff challenges row (valueAt v).1
    (valueAt v).2.1 (valueAt v).2.2 v ((numbersOf row i).value v) (modulusLimb i)
    ((numbersOf row i).difference v) ((numbersOf row i).borrow v) selected
    (fun k _ => number (valueColumn v k)) mEq (fun k _ => number (diff v k))
    (fun k _ => number (borrowBit v k)) rfl (valueSmall v inside) mSmall (differenceSmall v inside)
    fun k _ => canonical (borrowBit v k)).mp (chains v inside)
  have balanced := (@productGates_iff challenges row ((numbersOf row i).value 0)
    ((numbersOf row i).value 1) (numbersOf row i).quotient (modulusLimb i)
    ((numbersOf row i).value 2) (numbersOf row i).carried selected
    (fun k _ => number (valueColumn 0 k)) (fun k _ => number (valueColumn 1 k))
    (fun k _ => number (qLimb k)) mEq (fun k _ => number (valueColumn 2 k))
    (fun k _ => number (carry k)) (valueSmall 0 (by norm_num)) (valueSmall 1 (by norm_num))
    quotientSmall mSmall (valueSmall 2 (by norm_num)) carriedSmall).mp products
  exact ⟨numbersOf row i,
    { selected := few, valueSmall, differenceSmall, quotientSmall, carriedSmall,
      start := fun v _ => rfl
      boolean := fun v inside => (chain v inside).1
      chain := fun v inside => (chain v inside).2.1
      below := fun v inside => (chain v inside).2.2
      balanced },
    { code, value := fun v _ k _ => number (valueColumn v k) }⟩

/-- A live row whose frame holds and whose columns hold numbers that are all
right satisfies the circuit. -/
theorem satisfies_of_numbers {numbers : Numbers} (selected : row live = 1)
    (frame : FrameHolds challenges decoded row frameWords frameBytes)
    (kept : ∀ j < outWord, row (word j wordWriteValue) = row (word j wordReadValue))
    (ok : numbers.Ok) (inFrame : numbers.InFrame row) (inWitness : numbers.InWitness row) :
    Satisfies challenges decoded row body := by
  have room {n : ℕ} (small : n < 2 ^ 37) : n < frModulus :=
    lt_trans small (by norm_num [frModulus])
  have mSmall (k : ℕ) (inside : k < 8) : numbers.m k < 2 ^ 32 := modulusLimb_lt ok.selected inside
  have valueSmall := ok.valueSmall
  have differenceSmall := ok.differenceSmall
  have quotientSmall := ok.quotientSmall
  have carriedSmall := ok.carriedSmall
  refine satisfies_parts.mpr ⟨frame, kept, ?_, ?_, ?_, ?_, ?_, ?_⟩
  · exact (selectorGates_iff selected).mpr
      ⟨numbers.modulus, ok.selected, inFrame.code, inWitness.selector, inWitness.m⟩
  · intro v inside
    refine (belowModulusGates_iff selected (inFrame.value v inside) inWitness.m
      (inWitness.difference v inside) (inWitness.borrow v inside) (ok.start v inside)
      (valueSmall v inside) mSmall (differenceSmall v inside) fun k small => ?_).mpr
      ⟨ok.boolean v inside, ok.chain v inside, ok.below v inside⟩
    exact room (lt_of_le_of_lt (ok.boolean v inside k small) (by norm_num))
  · exact (productGates_iff selected (inFrame.value 0 (by norm_num))
      (inFrame.value 1 (by norm_num)) inWitness.quotient inWitness.m
      (inFrame.value 2 (by norm_num)) inWitness.carried (valueSmall 0 (by norm_num))
      (valueSmall 1 (by norm_num)) quotientSmall mSmall (valueSmall 2 (by norm_num))
      carriedSmall).mpr ok.balanced
  · intro v inside k small
    have value := valueSmall v inside k small
    have difference := differenceSmall v inside k small
    exact ⟨(range32_number_iff selected (inFrame.value v inside k small) (room (by omega))).mpr
        ⟨value, inWitness.valueHi v inside k small⟩,
      (range32_number_iff selected (inWitness.difference v inside k small) (room (by omega))).mpr
        ⟨difference, inWitness.differenceHi v inside k small⟩⟩
  · intro k small
    have quotient := quotientSmall k small
    exact (range32_number_iff selected (inWitness.quotient k small) (room (by omega))).mpr
      ⟨quotient, inWitness.quotientHi k small⟩
  · intro k small
    exact (chunks_number_iff selected (inWitness.carried k small) (room (carriedSmall k small))
      (by norm_num [gapChunks]) (by norm_num [gapChunks, carryBits])
      (by norm_num [gapChunks, carryBits]) (by norm_num [carryBits])).mpr
      ⟨carriedSmall k small, inWitness.chunk k small⟩

end Row

namespace Numbers

/-- A value. -/
def total (numbers : Numbers) (v : ℕ) : ℕ := limbSum (2 ^ 32) (numbers.value v) 8

/-- The balance over every place is the identity's. -/
theorem limbSum_balance (a b q m out : ℕ → ℕ) : limbSum (2 ^ 32 : ℤ) (balance a b q m out) 15 =
      (limbSum (2 ^ 32) a 8 * limbSum (2 ^ 32) b 8 : ℕ) -
        (limbSum (2 ^ 32) q 8 * limbSum (2 ^ 32) m 8 : ℕ) - (limbSum (2 ^ 32) out 8 : ℕ) := by
  have product (f g : ℕ → ℕ) :
      limbSum (2 ^ 32 : ℤ) (fun k => ((convolve f g limbs limbs k : ℕ) : ℤ)) 15 =
        (limbSum (2 ^ 32) f 8 * limbSum (2 ^ 32) g 8 : ℕ) := by
    rw [← limbSum_convolve (2 ^ 32) f g (by norm_num) (by norm_num), cast_limbSum]
    rfl
  have result : limbSum (2 ^ 32 : ℤ) (fun k => if k < limbs then (out k : ℤ) else 0) 15 =
      (limbSum (2 ^ 32) out 8 : ℕ) := by
    rw [cast_limbSum]
    simp [limbSum, Finset.sum_range_succ, limbs]
  have split : limbSum (2 ^ 32 : ℤ) (balance a b q m out) 15 =
      limbSum (2 ^ 32 : ℤ) (fun k => ((convolve a b limbs limbs k : ℕ) : ℤ)) 15 -
        limbSum (2 ^ 32 : ℤ) (fun k => ((convolve q m limbs limbs k : ℕ) : ℤ)) 15 -
        limbSum (2 ^ 32 : ℤ) (fun k => if k < limbs then (out k : ℤ) else 0) 15 := by
    simp only [limbSum, balance, mul_sub, Finset.sum_sub_distrib]
  rw [split, product, product, result]

/-- Right numbers hold a product modulo their modulus. -/
theorem Ok.product {numbers : Numbers} (ok : numbers.Ok) :
    numbers.total 0 < modulusValue numbers.modulus ∧
      numbers.total 1 < modulusValue numbers.modulus ∧
      ∀ k < 8, numbers.value 2 k = limbAt (2 ^ 32)
        (numbers.total 0 * numbers.total 1 % modulusValue numbers.modulus) k := by
  have below (v : ℕ) (inside : v < 3) : numbers.total v < modulusValue numbers.modulus :=
    lt_of_borrows (ok.start v inside) (ok.chain v inside) (ok.differenceSmall v inside)
      (ok.below v inside)
  have out := @limbSum_of_carries (2 ^ 32) _ (signedCarry numbers.carried) 15 rfl ok.balanced
  rw [limbSum_balance, show signedCarry numbers.carried 15 = 0 from rfl, mul_zero] at out
  have identity : numbers.total 0 * numbers.total 1 = numbers.total 2 +
      modulusValue numbers.modulus * limbSum (2 ^ 32) numbers.quotient 8 := by
    simp only [total, modulusValue, limbs, m] at out ⊢
    rw [mul_comm (limbSum (2 ^ 32) (modulusLimb numbers.modulus) 8)]
    omega
  refine ⟨below 0 (by norm_num), below 1 (by norm_num), fun k inside => ?_⟩
  rw [identity, Nat.add_mul_mod_self_left, Nat.mod_eq_of_lt (below 2 (by norm_num)), total,
    limbAt_limbSum (ok.valueSmall 2 (by norm_num)) inside]

/-- The numbers of a product: its quotient's limbs, and the carries and borrows
the limbs have. -/
def ofProduct (modulus : ℕ) (a b : ℕ → ℕ) : Numbers :=
  let m := modulusLimb modulus
  let total := limbSum (2 ^ 32) a 8 * limbSum (2 ^ 32) b 8
  let quotient := limbAt (2 ^ 32) (total / modulusValue modulus)
  let out := limbAt (2 ^ 32) (total % modulusValue modulus)
  let value := fun v => if v = 0 then a else if v = 1 then b else out
  { modulus, quotient, value
    difference := fun v => differenceAt (2 ^ 32) (value v) m
    borrow := fun v => borrowAt (2 ^ 32) (value v) m
    carried := fun k => (carryAt (2 ^ 32) (balance a b quotient m out) (k + 1) +
      2 ^ (carryBits - 1)).toNat }

theorem modulusValue_lt {i : ℕ} (few : i < 4) : modulusValue i < (2 ^ 32) ^ 8 :=
  limbSum_lt fun _ inside => modulusLimb_lt few inside

/-- The numbers of a product of two values below the modulus are all right. -/
theorem ok_ofProduct {modulus : ℕ} {a b : ℕ → ℕ} (few : modulus < 4)
    (aSmall : ∀ k < 8, a k < 2 ^ 32) (bSmall : ∀ k < 8, b k < 2 ^ 32)
    (aBelow : limbSum (2 ^ 32) a 8 < modulusValue modulus)
    (bBelow : limbSum (2 ^ 32) b 8 < modulusValue modulus) : (ofProduct modulus a b).Ok := by
  have mSmall (k : ℕ) (inside : k < 8) : modulusLimb modulus k < 2 ^ 32 :=
    modulusLimb_lt few inside
  have mBelow := modulusValue_lt few
  have positive : 0 < modulusValue modulus := by omega
  have limb (n k : ℕ) : limbAt (2 ^ 32) n k < 2 ^ 32 := limbAt_lt (by norm_num) n k
  -- the three values are limbs, and below the modulus
  have valueSmall (v : ℕ) (k : ℕ) (inside : k < 8) : (ofProduct modulus a b).value v k < 2 ^ 32 := by
    simp only [ofProduct]
    by_cases first : v = 0
    · rw [if_pos first]
      exact aSmall k inside
    · rw [if_neg first]
      by_cases second : v = 1
      · rw [if_pos second]
        exact bSmall k inside
      · rw [if_neg second]
        exact limb _ k
  have remainder := Nat.mod_lt (limbSum (2 ^ 32) a 8 * limbSum (2 ^ 32) b 8) positive
  have outTotal : limbSum (2 ^ 32) (limbAt (2 ^ 32)
      (limbSum (2 ^ 32) a 8 * limbSum (2 ^ 32) b 8 % modulusValue modulus)) 8 =
        limbSum (2 ^ 32) a 8 * limbSum (2 ^ 32) b 8 % modulusValue modulus :=
    limbSum_limbAt_of_lt (lt_trans remainder mBelow)
  have below (v : ℕ) : limbSum (2 ^ 32) ((ofProduct modulus a b).value v) 8 <
      limbSum (2 ^ 32) (modulusLimb modulus) 8 := by
    simp only [ofProduct]
    by_cases first : v = 0
    · rw [if_pos first]
      exact aBelow
    · rw [if_neg first]
      by_cases second : v = 1
      · rw [if_pos second]
        exact bBelow
      · rw [if_neg second, outTotal]
        exact remainder
  have step (v i : ℕ) (inside : i < 8) :=
    @borrow_step (2 ^ 32) ((ofProduct modulus a b).value v) (modulusLimb modulus) i
      (fun j before => valueSmall v j (by omega)) (fun j before => mSmall j (by omega))
  -- the quotient is below the modulus as both operands are
  have quotientBelow : limbSum (2 ^ 32) a 8 * limbSum (2 ^ 32) b 8 / modulusValue modulus <
      (2 ^ 32) ^ 8 := by
    refine lt_trans ((Nat.div_lt_iff_lt_mul positive).mpr ?_) mBelow
    exact Nat.mul_lt_mul'' aBelow bBelow
  have vanishes : limbSum ((2 ^ 32 : ℕ) : ℤ) (balance a b (ofProduct modulus a b).quotient
      (modulusLimb modulus) ((ofProduct modulus a b).value 2)) 15 = 0 := by
    have parts := Nat.div_add_mod (limbSum (2 ^ 32) a 8 * limbSum (2 ^ 32) b 8)
      (modulusValue modulus)
    rw [Nat.cast_pow, Nat.cast_ofNat, limbSum_balance]
    simp only [ofProduct, OfNat.ofNat_ne_zero, OfNat.ofNat_ne_one, ↓reduceIte, outTotal,
      limbSum_limbAt_of_lt quotientBelow]
    rw [mul_comm] at parts
    rw [show limbSum (2 ^ 32) (modulusLimb modulus) 8 = modulusValue modulus from rfl]
    omega
  have quotientSmall (k : ℕ) (_ : k < 8) : (ofProduct modulus a b).quotient k < 2 ^ 32 := limb _ k
  have bound (k : ℕ) (_ : k < 15) :=
    abs_balance_le aSmall bSmall quotientSmall mSmall (valueSmall 2) k
  have carriedSmall (k : ℕ) (inside : k ≤ 15) :=
    abs_le.mp (@abs_carryAt_le 15 _ (2 ^ 35) (2 ^ 32) _ (by norm_num) vanishes bound
      (by norm_num) k inside)
  have carried (k : ℕ) (inside : k ≤ 15) : signedCarry (ofProduct modulus a b).carried k =
      carryAt ((2 ^ 32 : ℕ) : ℤ) (balance a b (ofProduct modulus a b).quotient
        (modulusLimb modulus) ((ofProduct modulus a b).value 2)) k := by
    cases k with
    | zero => exact (carryAt_zero _ _).symm
    | succ k =>
      rw [signedCarry]
      by_cases few : k < carries
      · have small := carriedSmall (k + 1) inside
        rw [if_pos few]
        simp only [ofProduct] at small ⊢
        rw [carryBits]
        push_cast at small ⊢
        omega
      · have last : k = 14 := by
          rw [show carries = 14 from rfl] at few
          omega
        rw [if_neg few, last, carryAt_of_vanishes vanishes]
  exact {
    selected := few
    valueSmall := fun v _ => valueSmall v
    differenceSmall := fun v _ k inside => (step v k inside).2
    quotientSmall
    carriedSmall := fun k inside => by
      have small := carriedSmall (k + 1) (by omega)
      simp only [ofProduct, carryBits] at small ⊢
      push_cast at small ⊢
      omega
    start := fun v _ => by simp [ofProduct, borrowAt]
    boolean := fun v _ i _ => borrowAt_le_one _ _ _ _
    chain := fun v _ i inside => (step v i inside).1
    below := fun v _ => if_pos (below v)
    balanced := fun k inside => by
      rw [carried k inside.le, carried (k + 1) inside]
      exact_mod_cast carry_step (by norm_num) vanishes inside }

end Numbers

section Call

open Emulator Emulator.Wide Alu

/-- What a call computes, over the words it reads and the elements its row
writes: the operands are below the modulus the first word selects, the words
before the result are kept, and the result's are the product's limbs. -/
def Computes (old : List Word) (written : ℕ → Fr) : Prop :=
  ∃ i < 4, (old.getD selectorWord 0).toNat = codes.getD i 0 ∧
    value (limbsAt old aWord) < modulusValue i ∧ value (limbsAt old bWord) < modulusValue i ∧
    (∀ j < outWord, written j = wordFr (old.getD j 0)) ∧
    ∀ k < limbs, written (outWord + k) = ((limbAt (2 ^ 32)
      (value (limbsAt old aWord) * value (limbsAt old bWord) % modulusValue i) k : ℕ) : Fr)

/-- A frame value by its words. -/
theorem value_eq_limbSum (old : List Word) (first : ℕ) :
    value (limbsAt old first) = limbSum (2 ^ 32) (fun k => (old.getD (first + k) 0).toNat) 8 :=
  value_limbsAt old first

/-- The limbs of a modulus have its value. -/
theorem value_moduli {i : ℕ} (few : i < 4) :
    (moduli.getD i []).length = 8 ∧ InRange (moduli.getD i []) ∧
      value (moduli.getD i []) = modulusValue i := by
  have length : (moduli.getD i []).length = 8 := by interval_cases i <;> rfl
  refine ⟨length, ?_, ?_⟩
  · intro limb member
    obtain ⟨k, inside, rfl⟩ := List.getElem_of_mem member
    have small := modulusLimb_lt few (length ▸ inside)
    rw [modulusLimb, List.getD_eq_getElem _ _ inside] at small
    exact small
  · rw [value, ← Nat.cast_id (Nat.ofDigits Wide.base _), ← Nat.cast_id Wide.base,
      Math.ofDigits_eq_sum, length]
    rfl

/-- A code selects its modulus. -/
theorem modulus_eq_some_iff {code : ℕ} {m : List ℕ} :
    modulus code = some m ↔ ∃ i < 4, code = codes.getD i 0 ∧ m = moduli.getD i [] := by
  have selected (i : ℕ) (few : i < 4) : modulus (codes.getD i 0) = some (moduli.getD i []) := by
    interval_cases i <;> rfl
  constructor
  · intro found
    have named : code ∈ codes := by
      by_contra unnamed
      have absent : modulus code = none := by
        refine List.lookup_eq_none_iff.mpr fun entry member => ?_
        rw [bne_iff_ne]
        exact fun same => unnamed (same ▸ (List.of_mem_zip member).1)
      rw [absent] at found
      cases found
    obtain ⟨i, few, rfl⟩ := List.getElem_of_mem named
    have item : codes[i] = codes.getD i 0 := by
      rw [List.getD_eq_getElem _ _ few]
    rw [item, selected i few, Option.some.injEq] at found
    exact ⟨i, few, item, found.symm⟩
  · intro given
    obtain ⟨i, few, rfl, rfl⟩ := given
    exact selected i few

/-- The frame a call leaves, word by word. -/
private theorem getD_result {old : List Word} {i : ℕ} (few : i < 4)
    (length : old.length = frameWords) (j : ℕ) (inside : j < frameWords) :
    wordFr ((withLimbs old outWord (reduce (Wide.product (limbsAt old aWord) (limbsAt old bWord))
        (moduli.getD i []))).getD j 0) =
      if j < outWord then wordFr (old.getD j 0)
      else ((limbAt (2 ^ 32) (value (limbsAt old aWord) * value (limbsAt old bWord) %
        modulusValue i) (j - outWord) : ℕ) : Fr) := by
  obtain ⟨_, lanes, total⟩ := Wide.value_product (inRange_limbsAt old aWord) (inRange_limbsAt old bWord)
  obtain ⟨mLength, mSmall, mValue⟩ := value_moduli few
  have positive : 0 < modulusValue i := by
    interval_cases i <;> norm_num [modulusValue, limbSum, modulusLimb, moduli, limbs,
      Finset.sum_range_succ]
  obtain ⟨outLength, outSmall, outValue⟩ := value_reduce lanes mSmall (mValue ▸ positive)
  rw [total, mValue] at outValue
  rw [getD_withLimbs old _ (by rw [length]; rfl)]
  rw [show frameWords = 25 from rfl] at inside
  rw [show outWord = 17 from rfl]
  by_cases before : j < 17
  · rw [if_neg (by omega), if_pos before]
  · rw [if_pos ⟨by omega, by omega⟩, if_neg before, wordFr,
      getD_eq_limb outSmall (by rw [outLength, mLength]; omega), outValue, BitVec.toNat_ofNat,
      Wide.base, Nat.mod_mod]
    rfl

/-- The call computes what the executor does. -/
theorem computes_iff_modMulFrame {old : List Word} {written : ℕ → Fr} (pc : Word)
    (length : old.length = frameWords) :
    Computes old written ↔ ∃ out, modMulFrame pc old = .ok out ∧ out.length = frameWords ∧
      ∀ j < frameWords, written j = wordFr (out.getD j 0) := by
  have compare (first i : ℕ) (few : i < 4) :
      Wide.lessThan (limbsAt old first) (moduli.getD i []) = true ↔
        value (limbsAt old first) < modulusValue i := by
    obtain ⟨mLength, mSmall, mValue⟩ := value_moduli few
    rw [lessThan_iff ((length_limbsAt old first).trans mLength.symm) (inRange_limbsAt old first)
      mSmall, mValue]
  constructor
  · intro given
    obtain ⟨i, few, code, aBelow, bBelow, kept, result⟩ := given
    refine ⟨withLimbs old outWord (reduce (Wide.product (limbsAt old aWord) (limbsAt old bWord))
      (moduli.getD i [])), ?_, ?_, fun j inside => ?_⟩
    · rw [modMulFrame, modulus_eq_some_iff.mpr ⟨i, few, code, rfl⟩]
      dsimp only
      rw [if_neg (not_not.mpr ((compare aWord i few).mpr aBelow)),
        if_neg (not_not.mpr ((compare bWord i few).mpr bBelow))]
    · rw [length_withLimbs, length]
    · rw [getD_result few length j inside]
      by_cases before : j < outWord
      · rw [if_pos before, kept j before]
      · obtain ⟨k, rfl⟩ : ∃ k, j = outWord + k := ⟨j - outWord, by omega⟩
        have small : k < limbs := Nat.lt_of_add_lt_add_left inside
        rw [if_neg before, result k small, Nat.add_sub_cancel_left]
  · intro given
    obtain ⟨out, accepted, _, each⟩ := given
    rw [modMulFrame] at accepted
    cases found : modulus (old.getD selectorWord 0).toNat with
    | none =>
      simp only [found] at accepted
      cases accepted
    | some m =>
      obtain ⟨i, few, code, rfl⟩ := modulus_eq_some_iff.mp found
      simp only [found] at accepted
      by_cases aBelow : Wide.lessThan (limbsAt old aWord) (moduli.getD i []) = true
      · rw [if_neg (not_not.mpr aBelow)] at accepted
        by_cases bBelow : Wide.lessThan (limbsAt old bWord) (moduli.getD i []) = true
        · rw [if_neg (not_not.mpr bBelow)] at accepted
          cases accepted
          refine ⟨i, few, code, (compare aWord i few).mp aBelow, (compare bWord i few).mp bBelow,
            fun j inside => ?_, fun k inside => ?_⟩
          · rw [each j (lt_trans inside (by norm_num [outWord, frameWords, limbs])),
              getD_result few length j (lt_trans inside (by norm_num [outWord, frameWords, limbs])),
              if_pos inside]
          · rw [each (outWord + k) (Nat.add_lt_add_left inside outWord),
              getD_result few length _ (Nat.add_lt_add_left inside outWord), if_neg (by omega),
              Nat.add_sub_cancel_left]
        · rw [if_pos bBelow] at accepted
          cases accepted
      · rw [if_pos aBelow] at accepted
        cases accepted

end Call

section Exact

open Emulator Emulator.Wide Alu

variable {challenges : ExternalChallenges} {decoded : List (List Fr)} {row : Row}

/-- A live row's family columns can be filled exactly when its frame holds and
the words it writes are the call's, which is what the executor returns. -/
theorem mod_mul_exact {old : List Word} (pc : Word) (length : old.length = frameWords)
    (selected : row live = 1)
    (reads : ∀ j < frameWords, row (word j wordReadValue) = wordFr (old.getD j 0)) :
    ((∃ columns, Satisfies challenges decoded
        (row.withColumns selectorsAt multiplicityAt columns) body) ↔
      FrameHolds challenges decoded row frameWords frameBytes ∧
        Computes old fun j => row (word j wordWriteValue)) ∧
    ((Computes old fun j => row (word j wordWriteValue)) ↔
      ∃ out, modMulFrame pc old = .ok out ∧ out.length = frameWords ∧
        ∀ j < frameWords, row (word j wordWriteValue) = wordFr (out.getD j 0)) := by
  refine ⟨⟨?_, ?_⟩, computes_iff_modMulFrame pc length⟩
  · intro given
    obtain ⟨columns, holds⟩ := given
    have live' : row.withColumns selectorsAt multiplicityAt columns live = 1 := selected
    obtain ⟨frame, kept, _⟩ := satisfies_parts.mp holds
    obtain ⟨numbers, ok, inFrame⟩ := exists_numbers live' holds
    obtain ⟨aBelow, bBelow, result⟩ := ok.product
    have few := ok.selected
    -- the numbers of the words read are the words'
    have operand (v first : ℕ) (inside : v < 3)
        (column : ∀ k < 8, valueColumn v k = word (first + k) wordReadValue)
        (fits : first + 8 ≤ frameWords) : numbers.total v = value (limbsAt old first) := by
      rw [value_eq_limbSum]
      refine limbSum_congr fun k small => ?_
      have equal := inFrame.value v inside k small
      rw [column k small] at equal
      have below := ok.valueSmall v inside k small
      have wordSmall := (old.getD (first + k) 0).isLt
      refine fr_natCast_inj (by omega) (by omega) (equal.symm.trans ?_)
      exact reads (first + k) (by omega)
    have aTotal := operand 0 aWord (by norm_num) (fun _ _ => rfl) (by norm_num [aWord, frameWords,
      outWord, bWord, selectorWord, limbs])
    have bTotal := operand 1 bWord (by norm_num) (fun _ _ => rfl) (by norm_num [aWord, frameWords,
      outWord, bWord, selectorWord, limbs])
    rw [aTotal, bTotal] at result
    refine ⟨(frameHolds_withColumns selected le_rfl).mp frame, numbers.modulus, few, ?_,
      aTotal ▸ aBelow, bTotal ▸ bBelow, fun j inside => ?_, fun k inside => ?_⟩
    · have codeSmall : codes.getD numbers.modulus 0 < 2 ^ 250 := by
        generalize numbers.modulus = i at few
        interval_cases i <;> norm_num [codes, secp256k1P, secp256k1N, bn254P, bn254R]
      have wordSmall := (old.getD selectorWord 0).isLt
      refine fr_natCast_inj (by omega) codeSmall ?_
      exact (reads selectorWord (by norm_num [selectorWord, frameWords, outWord, bWord, aWord,
        limbs])).symm.trans inFrame.code
    · rw [← reads j (lt_trans inside (by norm_num [outWord, frameWords, limbs]))]
      exact kept j inside
    · rw [← result k inside]
      exact inFrame.value 2 (by norm_num) k inside
  · intro given
    obtain ⟨frame, i, few, code, aBelow, bBelow, kept, result⟩ := given
    have wordSmall (first k : ℕ) : (old.getD (first + k) 0).toNat < 2 ^ 32 := BitVec.isLt _
    rw [value_eq_limbSum] at aBelow bBelow
    have ok := Numbers.ok_ofProduct few (fun k _ => wordSmall aWord k)
      (fun k _ => wordSmall bWord k) aBelow bBelow
    have inWitness := (Numbers.ofProduct i (fun k => (old.getD (aWord + k) 0).toNat)
      (fun k => (old.getD (bWord + k) 0).toNat)).inWitness_columns row
    refine ⟨_, @satisfies_of_numbers challenges decoded (row.withColumns selectorsAt multiplicityAt _)
      _ selected ((frameHolds_withColumns selected le_rfl).mpr frame) (fun j inside => ?_) ok
      ⟨?_, ?_⟩ inWitness⟩
    · exact (kept j inside).trans
        (reads j (lt_trans inside (by norm_num [outWord, frameWords, limbs]))).symm
    · refine (reads selectorWord (by norm_num [selectorWord, frameWords, outWord, bWord, aWord,
        limbs])).trans ?_
      rw [wordFr, code]
      rfl
    · intro v inside k small
      interval_cases v
      · exact reads (aWord + k) (show 1 + k < 25 by omega)
      · exact reads (bWord + k) (show 9 + k < 25 by omega)
      · refine (result k small).trans ?_
        rw [value_eq_limbSum, value_eq_limbSum]
        rfl

/-- A live row of ones multiplies modulo the first modulus. -/
theorem mod_mul_exact_ones :
    ((∃ columns, Satisfies ExternalChallenges.empty []
        (Row.withColumns selectorsAt multiplicityAt (fun _ => 1) columns) body) ↔
      FrameHolds ExternalChallenges.empty [] (fun _ => 1) frameWords frameBytes ∧
        Computes (List.replicate frameWords 1) fun _ => 1) ∧
    ((Computes (List.replicate frameWords 1) fun _ => 1) ↔
      ∃ out, modMulFrame 0 (List.replicate frameWords 1) = .ok out ∧ out.length = frameWords ∧
        ∀ j < frameWords, 1 = wordFr (out.getD j 0)) := by
  refine @mod_mul_exact ExternalChallenges.empty [] (fun _ => 1) (List.replicate frameWords 1) 0
    List.length_replicate rfl fun j inside => ?_
  rw [List.getD_eq_getElem?_getD, List.getElem?_replicate, if_pos inside]
  simp [wordFr]

end Exact

end Apogee.ModMul
