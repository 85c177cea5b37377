import Apogee.Emulator.Cells
import Apogee.Recursion.ScheduleRuns

/-! # The executor computes what the native reading does

Where a tape's native run succeeds, the machine executes the same calls one by one
and leaves the same cells. The two reduce with different limbs, so a result is
compared by its value below the modulus.
-/

namespace Apogee.Recursion.Native

open Alu Math FqOp

section Reduction

/-- A wrapping difference of two limbs, and what it wrapped by. -/
theorem overflowingSub_spec {x y : ℕ} (xSmall : x < 2 ^ 64) (ySmall : y < 2 ^ 64) :
    ((overflowingSub x y).1 : ℤ) = x - y + 2 ^ 64 * (overflowingSub x y).2 ∧
      (overflowingSub x y).1 < 2 ^ 64 ∧
        ((overflowingSub x y).2 = 0 ∨ (overflowingSub x y).2 = 1 ∧ x < y) := by
  rw [overflowingSub]
  dsimp only
  by_cases wraps : x < y
  · rw [if_pos wraps]
    omega
  · rw [if_neg wraps]
    omega

/-- A limb's difference under a borrow, and the borrow it makes. -/
theorem borrowed_spec {x y borrow : ℕ} (xSmall : x < 2 ^ 64) (ySmall : y < 2 ^ 64)
    (bit : borrow < 2) :
    let first := overflowingSub x y
    let second := overflowingSub first.1 borrow
    first.2 ||| second.2 < 2 ∧ second.1 < 2 ^ 64 ∧
      (second.1 : ℤ) = x - y - borrow + 2 ^ 64 * (first.2 ||| second.2 : ℕ) := by
  intro first second
  obtain ⟨firstEq, firstSmall, firstOut⟩ := overflowingSub_spec xSmall ySmall
  obtain ⟨secondEq, secondSmall, secondOut⟩ :=
    overflowingSub_spec firstSmall (show borrow < 2 ^ 64 by omega)
  refine ⟨?_, secondSmall, ?_⟩
  · rcases firstOut with none | ⟨one, less⟩
    · rw [none, Nat.zero_or]
      rcases secondOut with none' | ⟨one', -⟩
      · rw [none']
        norm_num
      · rw [one']
        norm_num
    · rcases secondOut with none' | ⟨one', -⟩
      · rw [one, none']
        norm_num
      · rw [one, one']
        norm_num
  · rcases firstOut with none | ⟨one, less⟩
    · rw [none, Nat.zero_or, secondEq, firstEq, none]
      ring
    · have still : second.2 = 0 := by
        rcases secondOut with none' | ⟨-, less'⟩
        · exact none'
        · rw [one] at firstEq
          omega
      rw [still, Nat.or_zero, secondEq, firstEq, still, one]
      ring

/-- A wrapping difference's limbs hold the difference modulo the limbs' power. -/
theorem subWrapping_spec {x y : List ℕ} (length : x.length = y.length) (xSmall : InRange x)
    (ySmall : InRange y) {borrow : ℕ} (bit : borrow < 2) :
    (subWrapping x y borrow).length = x.length ∧ InRange (subWrapping x y borrow) ∧
      ∃ out : ℤ, (value (subWrapping x y borrow) : ℤ) =
        value x - value y - borrow + (2 ^ 64) ^ x.length * out := by
  induction x generalizing y borrow with
  | nil =>
    rw [List.eq_nil_of_length_eq_zero length.symm]
    exact ⟨rfl, nofun, borrow, by simp [subWrapping]⟩
  | cons u x ih =>
    cases y with
    | nil => simp at length
    | cons v y =>
      have uSmall : u < 2 ^ 64 := xSmall u List.mem_cons_self
      have vSmall : v < 2 ^ 64 := ySmall v List.mem_cons_self
      obtain ⟨lane, taken, shape, takenBit, laneSmall, laneEq⟩ :
          ∃ lane taken, subWrapping (u :: x) (v :: y) borrow = lane :: subWrapping x y taken ∧
            taken < 2 ∧ lane < 2 ^ 64 ∧ (lane : ℤ) = u - v - borrow + 2 ^ 64 * taken :=
        ⟨_, _, rfl, borrowed_spec uSmall vSmall bit⟩
      obtain ⟨same, small, out, difference⟩ := ih (by simpa using length)
        (fun limb member => xSmall limb (List.mem_cons_of_mem _ member))
        (fun limb member => ySmall limb (List.mem_cons_of_mem _ member)) takenBit
      rw [shape]
      refine ⟨by rw [List.length_cons, List.length_cons, same],
        List.forall_mem_cons.mpr ⟨laneSmall, small⟩, out, ?_⟩
      simp only [value, Nat.ofDigits_cons, List.length_cons, pow_succ'] at difference ⊢
      push_cast at difference laneEq ⊢
      linear_combination laneEq + 2 ^ 64 * difference

/-- Doubled limbs hold twice the value and the bit, modulo the limbs' power. -/
theorem doubleIn_spec {x : List ℕ} (xSmall : InRange x) {carry : ℕ} (bit : carry < 2) :
    (doubleIn x carry).length = x.length ∧ InRange (doubleIn x carry) ∧
      value (doubleIn x carry) = (2 * value x + carry) % (2 ^ 64) ^ x.length := by
  induction x generalizing carry with
  | nil => exact ⟨rfl, nofun, by simp [doubleIn, Nat.mod_one]⟩
  | cons limb x ih =>
    have small : limb < 2 ^ 64 := xSmall limb List.mem_cons_self
    have out : limb / 2 ^ 63 < 2 := by omega
    obtain ⟨same, range, rest⟩ :=
      ih (fun other member => xSmall other (List.mem_cons_of_mem _ member)) out
    have total : 2 * value (limb :: x) + carry =
        (limb * 2 % 2 ^ 64 + carry) + 2 ^ 64 * (2 * value x + limb / 2 ^ 63) := by
      simp only [value, Nat.ofDigits_cons]
      omega
    have lane : limb * 2 % 2 ^ 64 + carry < 2 ^ 64 := by omega
    simp only [doubleIn]
    refine ⟨by rw [List.length_cons, List.length_cons, same],
      List.forall_mem_cons.mpr ⟨lane, range⟩, ?_⟩
    rw [total, List.length_cons, pow_succ' _ x.length, Nat.mod_mul, Nat.add_mul_mod_self_left,
      Nat.mod_eq_of_lt lane, Nat.add_mul_div_left _ _ (by norm_num), Nat.div_eq_of_lt lane,
      zero_add, ← rest]
    simp only [value, Nat.ofDigits_cons]

/-- The comparison with the modulus, from the top limb. -/
theorem belowQ_iff {x : List ℕ} (element : IsElement x) : belowQ x = true ↔ value x < value q := by
  obtain ⟨a, b, c, d, rfl⟩ := List.length_eq_four.mp element.1
  have inside := element.2
  simp only [InRange, List.forall_mem_cons] at inside
  obtain ⟨aSmall, bSmall, cSmall, dSmall, -⟩ := inside
  have order : (List.range 4).reverse = [3, 2, 1, 0] := rfl
  have limbs : qLimb 0 = 0x3c208c16d87cfd47 ∧ qLimb 1 = 0x97816a916871ca8d ∧
      qLimb 2 = 0xb85045b68181585d ∧ qLimb 3 = 0x30644e72e131a029 := ⟨rfl, rfl, rfl, rfl⟩
  obtain ⟨zeroth, first, second, third⟩ := limbs
  simp only [belowQ, order, value, q, Nat.ofDigits_cons, Nat.ofDigits_nil]
  by_cases top : d = qLimb 3
  · by_cases high : c = qLimb 2
    · by_cases low : b = qLimb 1
      · by_cases last : a = qLimb 0
        · simp only [List.find?_cons, List.find?_nil, List.getD_cons_zero, List.getD_cons_succ, top,
            high, low, last, bne_self_eq_false, Bool.false_eq_true, false_iff]
          omega
        · simp only [List.find?_cons, List.getD_cons_zero, List.getD_cons_succ, top,
            high, low, bne_self_eq_false, bne_iff_ne.mpr last, decide_eq_true_eq]
          omega
      · simp only [List.find?_cons, List.getD_cons_zero, List.getD_cons_succ, top,
          high, bne_self_eq_false, bne_iff_ne.mpr low, decide_eq_true_eq]
        omega
    · simp only [List.find?_cons, List.getD_cons_zero, List.getD_cons_succ, top,
        bne_self_eq_false, bne_iff_ne.mpr high, decide_eq_true_eq]
      omega
  · simp only [List.find?_cons, List.getD_cons_zero, List.getD_cons_succ, bne_iff_ne.mpr top,
      decide_eq_true_eq]
    omega

/-- The modulus taken off once. -/
theorem minusQ_spec {x : List ℕ} (element : IsElement x) (covers : value q ≤ value x) :
    IsElement (minusQ x) ∧ value (minusQ x) = value x - value q := by
  obtain ⟨length, small, out, difference⟩ := subWrapping_spec
    (element.1.trans isElement_q.1.symm) element.2 isElement_q.2 (show 0 < 2 by norm_num)
  rw [element.1] at length difference
  have below := FqOp.value_lt small
  rw [length] at below
  have bounded := element.value_lt
  refine ⟨⟨length, small⟩, ?_⟩
  rw [minusQ]
  omega

/-- A limb's bit is the value's. -/
theorem bit_of_limbs {x : List ℕ} (small : InRange x) {bit : ℕ} (inside : bit < 64 * x.length) :
    x.getD (bit / 64) 0 / 2 ^ (bit % 64) % 2 = value x / 2 ^ bit % 2 := by
  have place : bit / 64 < x.length := Nat.div_lt_of_lt_mul inside
  have limb : x.getD (bit / 64) 0 = value x / (2 ^ 64) ^ (bit / 64) % 2 ^ 64 := by
    rw [← @Math.getD_limbs (2 ^ 64) x.length (value x) _ place, Math.limbs_ofDigits small]
  have power : 2 ^ bit = (2 ^ 64) ^ (bit / 64) * 2 ^ (bit % 64) := by
    rw [← pow_mul, ← pow_add, Nat.div_add_mod]
  have low : bit % 64 + 1 ≤ 64 := Nat.mod_lt _ (by norm_num)
  have whole : (2 : ℕ) ^ 64 = 2 ^ (bit % 64) * (2 * 2 ^ (64 - (bit % 64 + 1))) := by
    rw [← mul_assoc, ← pow_succ, ← pow_add, Nat.add_sub_cancel' low]
  rw [limb, power, ← Nat.div_div_eq_div_mul]
  generalize value x / (2 ^ 64) ^ (bit / 64) = high
  rw [whole, Nat.mod_mul_right_div_self, Nat.mod_mul_right_mod]

/-- A bit takes the remainder of what stands above it to that of what stands at it. -/
theorem reduceBit_spec {x rem : List ℕ} (xSmall : InRange x) {bit : ℕ}
    (inside : bit < 64 * x.length) (element : IsElement rem)
    (above : value rem = value x / 2 ^ (bit + 1) % value q) :
    IsElement (reduceBit x rem bit) ∧
      value (reduceBit x rem bit) = value x / 2 ^ bit % value q := by
  have bounds := value_q_bounds
  have positive : 0 < value q := by omega
  have qElement := isElement_q.value_lt
  have small : value q < 2 ^ 254 := by norm_num [value, q, Nat.ofDigits_cons]
  have remBelow : value rem < value q := above ▸ Nat.mod_lt _ positive
  rw [reduceBit, bit_of_limbs xSmall inside]
  -- the remainder at the bit, before the subtraction
  have twice : value x / 2 ^ bit % value q = (2 * value rem + value x / 2 ^ bit % 2) % value q := by
    have parts := Nat.div_add_mod (value x / 2 ^ bit) 2
    conv_lhs => rw [← parts]
    rw [Nat.div_div_eq_div_mul, ← pow_succ, above]
    simp [Nat.add_mod, Nat.mul_mod]
  have bitSmall := Nat.mod_lt (value x / 2 ^ bit) (show 0 < 2 by norm_num)
  rw [twice]
  generalize value x / 2 ^ bit % 2 = low at bitSmall ⊢
  obtain ⟨length, range, doubled⟩ := doubleIn_spec element.2 bitSmall
  rw [element.1, Nat.mod_eq_of_lt (by omega)] at doubled
  have doubledElement : IsElement (doubleIn rem low) := ⟨length.trans element.1, range⟩
  by_cases below : belowQ (doubleIn rem low) = true
  · rw [if_pos below]
    have order := (belowQ_iff doubledElement).mp below
    exact ⟨doubledElement, by rw [← doubled, Nat.mod_eq_of_lt order]⟩
  · rw [if_neg below]
    have order := not_lt.mp fun order => below ((belowQ_iff doubledElement).mpr order)
    obtain ⟨minusElement, minus⟩ := minusQ_spec doubledElement order
    refine ⟨minusElement, ?_⟩
    rw [minus, doubled, Nat.mod_eq_sub_mod (doubled ▸ order), Nat.mod_eq_of_lt (by omega)]

/-- The reduction's remainder is the value modulo the modulus. -/
theorem reduceQ_spec {x : List ℕ} (length : x.length = 9) (small : InRange x)
    (below : value x < 2 ^ 512) :
    IsElement (reduceQ x) ∧ value (reduceQ x) = value x % value q := by
  have steps (count : ℕ) (few : count ≤ 512) (rem : List ℕ) (element : IsElement rem)
      (above : value rem = value x / 2 ^ count % value q) :
      let final := (List.range count).reverse.foldl (reduceBit x) rem
      IsElement final ∧ value final = value x % value q := by
    induction count generalizing rem with
    | zero => exact ⟨element, by simpa using above⟩
    | succ count ih =>
      obtain ⟨stepElement, stepValue⟩ :=
        reduceBit_spec small (by rw [length]; omega) element above
      rw [List.range_succ, List.reverse_append, List.reverse_singleton, List.singleton_append,
        List.foldl_cons]
      exact ih (by omega) _ stepElement stepValue
  refine steps 512 le_rfl _ ⟨rfl, inRange_replicate 4⟩ ?_
  rw [Nat.div_eq_of_lt below, Nat.zero_mod]
  exact Nat.ofDigits_replicate_zero

/-- Nine limbs hold more than the reduction takes, and it takes more than elements hold. -/
theorem reduction_room : 16 * 2 ^ 256 < 2 ^ 512 ∧ 2 ^ 512 < (2 ^ 64) ^ 9 := by
  constructor
  · rw [show (16 : ℕ) = 2 ^ 4 by norm_num, ← pow_add, Nat.pow_lt_pow_iff_right (by norm_num)]
    norm_num
  · rw [← pow_mul, Nat.pow_lt_pow_iff_right (by norm_num)]
    norm_num

variable {x y : List ℕ}

theorem canonical_spec (element : IsElement x) :
    IsElement (canonical x) ∧ value (canonical x) = value x % value q := by
  obtain ⟨length, small, same⟩ := element.wide_spec
  have below := element.value_lt
  have room := reduction_room.1
  rw [← same]
  exact reduceQ_spec length small (by rw [same]; omega)

theorem mulModQ_spec (xElement : IsElement x) (yElement : IsElement y) :
    IsElement (mulModQ x y) ∧ value (mulModQ x y) = value x * value y % value q := by
  obtain ⟨xLength, -, xSame⟩ := xElement.wide_spec
  obtain ⟨yLength, -, ySame⟩ := yElement.wide_spec
  obtain ⟨length, small, product⟩ := mulWide_spec xLength yLength
  have below : value x * value y < 2 ^ 512 := by
    rw [show 512 = 256 + 256 from rfl, pow_add]
    exact Nat.mul_lt_mul'' xElement.value_lt yElement.value_lt
  rw [xSame, ySame, Nat.mod_eq_of_lt (below.trans reduction_room.2)] at product
  rw [← product]
  exact reduceQ_spec length small (by rw [product]; exact below)

theorem addModQ_spec (xElement : IsElement x) (yElement : IsElement y) :
    ∃ sum, addModQ x y = .ok sum ∧ IsElement sum ∧ value sum = (value x + value y) % value q := by
  obtain ⟨xLength, -, xSame⟩ := xElement.wide_spec
  obtain ⟨yLength, -, ySame⟩ := yElement.wide_spec
  have xBelow := xElement.value_lt
  have yBelow := yElement.value_lt
  obtain ⟨takes, holds⟩ := reduction_room
  obtain ⟨sum, added, length, small, total⟩ :=
    addWide_spec xLength yLength (by rw [xSame, ySame]; omega)
  obtain ⟨element, reduced⟩ := reduceQ_spec length small (by rw [total, xSame, ySame]; omega)
  refine ⟨_, by rw [addModQ, added]; rfl, element, ?_⟩
  rw [reduced, total, xSame, ySame]

theorem subModQ_spec (xElement : IsElement x) (yElement : IsElement y) :
    ∃ difference, subModQ x y = .ok difference ∧ IsElement difference ∧
      value difference = (value x + 6 * value q - value y) % value q := by
  obtain ⟨xLength, -, xSame⟩ := xElement.wide_spec
  obtain ⟨yLength, ySmall, ySame⟩ := yElement.wide_spec
  obtain ⟨qLength, -, qSame⟩ := isElement_q.wide_spec
  obtain ⟨sixLength, -, sixSame⟩ := wide_spec (show [subMultiple].length ≤ 9 by norm_num)
    (show InRange [subMultiple] by simp [InRange, subMultiple])
  obtain ⟨multipleLength, -, multiple⟩ := mulWide_spec qLength sixLength
  have xBelow := xElement.value_lt
  have yBelow := yElement.value_lt
  have bounds := value_q_bounds
  obtain ⟨takes, holds⟩ := reduction_room
  have six : value [subMultiple] = subMultiple := Nat.ofDigits_singleton
  rw [qSame, sixSame, six, mul_comm, Nat.mod_eq_of_lt (by omega)] at multiple
  obtain ⟨sum, added, sumLength, sumSmall, total⟩ :=
    addWide_spec xLength multipleLength (by rw [xSame, multiple]; omega)
  rw [xSame, multiple] at total
  obtain ⟨difference, subtracted, length, small, left⟩ :=
    (subWide_spec sumLength yLength sumSmall ySmall).1 (by rw [total, ySame]; omega)
  rw [total, ySame] at left
  obtain ⟨element, reduced⟩ := reduceQ_spec length small (by omega)
  refine ⟨_, ?_, element, by rw [reduced, left]; rfl⟩
  simp only [subModQ, added, subtracted, bind, Except.bind, pure, Except.pure]

end Reduction

section Elements

/-- The executor's limbs of a list of values, when each is a limb. -/
theorem limb_eq (v : Fr) : limb v = if v.val < 2 ^ 64 then some v.val else none := by
  have bytes := @Curve.Fr.any_drop_toBytes 8 (by norm_num) v
  rw [limb]
  by_cases below : v.val < 2 ^ 64
  · have fits : v.val < 256 ^ 8 := by rwa [show (256 : ℕ) ^ 8 = 2 ^ 64 by norm_num]
    rw [bytes.mpr fits, if_neg Bool.false_ne_true, if_pos below,
      Curve.Fr.take_toBytes (by norm_num), leValue_leBytes fits]
  · have high : ((Curve.Fr.toBytes v).drop 8).any (· != 0) = true := by
      rw [← Bool.not_eq_false, bytes, show (256 : ℕ) ^ 8 = 2 ^ 64 by norm_num]
      exact below
    rw [if_pos high, if_neg below]

/-- A value's integer below `2^128`, when it is below `2^64`, is its limb. -/
theorem small_filter_eq_limb (v : Fr) :
    ((Emulator.small v).filter fun l => l / 2 ^ 64 == 0) = limb v := by
  rw [Emulator.small_eq, limb_eq]
  by_cases low : v.val < 2 ^ 64
  · rw [if_pos low, if_pos (by omega), Option.filter_some, Nat.div_eq_of_lt low]
    rfl
  · rw [if_neg low]
    by_cases high : v.val < 2 ^ 128
    · rw [if_pos high, Option.filter_some, if_neg]
      rw [beq_iff_eq, Nat.div_eq_zero_iff]
      omega
    · rw [if_neg high]
      rfl

variable {x y : List ℕ}

/-- An element read is four limbs. -/
theorem isElement_of_element {m : Memory} {c : Word} (read : m.element c = some x) :
    IsElement x := by
  have four : List.range 4 = [0, 1, 2, 3] := rfl
  rw [Memory.element, four] at read
  simp only [List.mapM_cons, List.mapM_nil, Option.bind_eq_bind, Option.pure_def,
    Option.bind_eq_some_iff, Option.some.injEq, limb_eq, Option.ite_none_right_eq_some] at read
  obtain ⟨_, ⟨first, rfl⟩, _, ⟨_, ⟨second, rfl⟩, _, ⟨_, ⟨third, rfl⟩, _, ⟨_, ⟨fourth, rfl⟩, _, rfl,
    rfl⟩, rfl⟩, rfl⟩, rfl⟩ := read
  refine ⟨rfl, ?_⟩
  simp only [InRange, List.forall_mem_cons]
  exact ⟨first, second, third, fourth, nofun⟩

/-- The executor reads the same element. -/
theorem elementLimbs_eq {m : Memory} {c : Word} (pc : Word) (read : m.element c = some x) :
    Emulator.elementLimbs pc ((List.range 4).map fun k => m.values (c + BitVec.ofNat 32 k)) =
      .ok x := by
  have four : List.range 4 = [0, 1, 2, 3] := rfl
  rw [Memory.element, four] at read
  rw [Emulator.elementLimbs, four]
  simp only [List.mapM_cons, List.mapM_nil, Option.bind_eq_bind, Option.pure_def,
    Option.bind_eq_some_iff, Option.some.injEq] at read
  obtain ⟨_, first, _, ⟨_, second, _, ⟨_, third, _, ⟨_, fourth, _, rfl, rfl⟩, rfl⟩, rfl⟩, rfl⟩ :=
    read
  simp only [List.map_cons, List.map_nil, List.mapM_cons, List.mapM_nil, small_filter_eq_limb,
    first, second, third, fourth, Emulator.require, bind, Except.bind, pure, Except.pure]

theorem wideQ_spec : Emulator.wideQ.length = 8 ∧ Emulator.Wide.InRange Emulator.wideQ ∧
    Emulator.Wide.value Emulator.wideQ = value q :=
  Emulator.wideOf_spec isElement_q.1 isElement_q.2

theorem reduced_spec (element : IsElement x) : (Emulator.reduced x).length = 8 ∧
    Emulator.Wide.InRange (Emulator.reduced x) ∧
      Emulator.Wide.value (Emulator.reduced x) = value x % value q := by
  obtain ⟨-, wideSmall, wideValue⟩ := Emulator.wideOf_spec element.1 element.2
  obtain ⟨qLength, qSmall, qValue⟩ := wideQ_spec
  have zeros : Emulator.Wide.InRange (List.replicate 8 0) := fun limb member => by
    rw [List.eq_of_mem_replicate member]
    norm_num [Emulator.Wide.base]
  have bounds := value_q_bounds
  obtain ⟨length, small, total⟩ := Emulator.Wide.value_reduce
    (List.forall_mem_append.mpr ⟨wideSmall, zeros⟩) qSmall (by rw [qValue]; omega)
  refine ⟨length.trans qLength, small, ?_⟩
  rw [Emulator.reduced, total, qValue, Emulator.Wide.value, Nat.ofDigits_append,
    Nat.ofDigits_replicate_zero, mul_zero, add_zero]
  exact congrArg (· % value q) wideValue

/-- The executor's result has eight limbs, and its value is the operation's below the modulus. -/
theorem fqResult_spec (code : ℕ) (xElement : IsElement x) (yElement : IsElement y) :
    (Emulator.fqResult code x y).length = 8 ∧ Emulator.Wide.InRange (Emulator.fqResult code x y) ∧
      Emulator.Wide.value (Emulator.fqResult code x y) = (if code = add then value x + value y
          else if code = sub then value x + 6 * value q - value y
          else value x * value y) % value q := by
  obtain ⟨qLength, qSmall, qValue⟩ := wideQ_spec
  obtain ⟨xLength, xSmall, xValue⟩ := reduced_spec xElement
  obtain ⟨yLength, ySmall, yValue⟩ := reduced_spec yElement
  have bounds := value_q_bounds
  have positive : 0 < value q := by omega
  have xBelow := Nat.mod_lt (value x) positive
  have yBelow := Nat.mod_lt (value y) positive
  have yTop := yElement.value_lt
  rw [← xValue, ← qValue] at xBelow
  rw [← yValue, ← qValue] at yBelow
  rw [Emulator.fqResult]
  split_ifs with isAdd isSub
  · obtain ⟨length, small, total⟩ := Emulator.Wide.addMod_value (xLength.trans qLength.symm)
      (yLength.trans qLength.symm) qSmall xBelow yBelow
    refine ⟨length.trans qLength, small, ?_⟩
    rw [total, xValue, yValue, qValue, ← Nat.add_mod]
  · obtain ⟨length, small, total⟩ := Emulator.Wide.subMod_value (xLength.trans qLength.symm)
      (yLength.trans qLength.symm) xSmall ySmall qSmall xBelow yBelow
    refine ⟨length.trans qLength, small, ?_⟩
    rw [total, xValue, yValue, qValue]
    rw [yValue, qValue] at yBelow
    -- both are `x − y` modulo the modulus
    have left : value x % value q + value q - value y % value q + value y ≡ value x
        [MOD value q] := by
      have whole : value x % value q + value q - value y % value q + value y =
          value x % value q + value q * (1 + value y / value q) := by
        have parts := Nat.mod_add_div (value y) (value q)
        rw [Nat.mul_add, mul_one]
        omega
      rw [whole, Nat.ModEq, Nat.add_mul_mod_self_left, Nat.mod_mod]
    have right : value x + 6 * value q - value y + value y ≡ value x [MOD value q] := by
      rw [show subMultiple = 6 from rfl] at bounds
      rw [Nat.sub_add_cancel (by omega), Nat.ModEq, Nat.add_mul_mod_self_right]
    exact Nat.ModEq.add_right_cancel' (value y) (left.trans right.symm)
  · obtain ⟨-, xWideSmall, xWide⟩ := Emulator.wideOf_spec xElement.1 xElement.2
    obtain ⟨-, yWideSmall, yWide⟩ := Emulator.wideOf_spec yElement.1 yElement.2
    obtain ⟨length, small, total⟩ :=
      Emulator.Wide.mulMod_value xWideSmall yWideSmall qSmall (by rw [qValue]; exact positive)
    refine ⟨length.trans qLength, small, ?_⟩
    rw [total, xWide, yWide, qValue]

/-- Eight limbs and an element of one value are the same limbs. -/
theorem limbsOf_eq {wide : List ℕ} (length : wide.length = 8)
    (inside : Emulator.Wide.InRange wide) (element : IsElement x)
    (same : Emulator.Wide.value wide = value x) : Emulator.limbsOf wide = x := by
  obtain ⟨limbsLength, limbsSmall, limbsValue⟩ := Emulator.limbsOf_spec length inside
  exact eq_of_value (limbsLength.trans element.1.symm) limbsSmall element.2 (limbsValue.trans same)

/-- An element is congruent to a product for the executor as it is for the native reading. -/
theorem reduced_eq_iff {held : List ℕ} (heldElement : IsElement held) (xElement : IsElement x)
    (yElement : IsElement y) :
    Emulator.reduced held = Emulator.fqResult muleq x y ↔ mulModQ x y = canonical held := by
  obtain ⟨leftLength, leftSmall, left⟩ := reduced_spec heldElement
  obtain ⟨rightLength, rightSmall, right⟩ := fqResult_spec muleq xElement yElement
  obtain ⟨productElement, product⟩ := mulModQ_spec xElement yElement
  obtain ⟨canonicalElement, reduced⟩ := canonical_spec heldElement
  rw [if_neg (by decide), if_neg (by decide)] at right
  constructor
  · intro same
    rw [same, right] at left
    refine eq_of_value (productElement.1.trans canonicalElement.1.symm) productElement.2
      canonicalElement.2 ?_
    rw [product, reduced, left]
  · intro same
    rw [same, reduced] at product
    rw [← Math.limbs_ofDigits leftSmall, ← Math.limbs_ofDigits rightSmall, leftLength, rightLength]
    refine congrArg _ ?_
    exact left.trans (product.trans right.symm)

end Elements

section Execution

open Emulator (Machine EmuError)

/-- A call's frame; an import points at its bytes of the blob. -/
def callFrame (place : Word) : Op → List Word
  | .fr code d a b => [code, d, a, b]
  | .duplex n s x y d => [n, s, x, y, d]
  | .fq word d a b => [word, d, a, b]
  | .importCell cell offset => [BitVec.ofNat 32 FieldIo.importCode, cell, place + offset]

/-- One call through the executor. -/
def execute (permute : Lanes → Lanes) (place pc : Word) (machine : Machine) (op : Op) :
    Except EmuError Machine :=
  match op with
  | .fr code d a b => (machine.frOp pc (callFrame place (.fr code d a b))).map Prod.fst
  | .duplex n s x y d =>
    (machine.p2Field permute pc (callFrame place (.duplex n s x y d))).map Prod.fst
  | .fq word d a b => (machine.fqOp pc (callFrame place (.fq word d a b))).map Prod.fst
  | .importCell cell offset =>
    (machine.fieldIo pc (callFrame place (.importCell cell offset))).map Prod.fst

/-- Calls through the executor one by one, each at its own pc. -/
def executeAll (permute : Lanes → Lanes) (place : Word) :
    List (Word × Op) → Machine → Except EmuError Machine
  | [], machine => .ok machine
  | (pc, op) :: ops, machine => do
      let machine ← execute permute place pc machine op
      executeAll permute place ops machine

/-- A pointer's data words are 32 bytes of the blob. -/
def PointsAt (machine : Machine) (ptr : Word) (bytes : List UInt8) : Prop :=
  ∃ addrs, (∀ pc, machine.dataAddrs pc ptr = .ok addrs) ∧
    addrs.map (fun addr => (machine.ram addr).toNat) =
      (List.range 8).map fun k => leValue ((bytes.drop (4 * k)).take 4)

/-- The machine's memory has the blob where a call imports from. -/
def Placed (machine : Machine) (place : Word) (blob : List UInt8) (op : Op) : Prop :=
  ∀ cell offset, op = .importCell cell offset → offset.toNat + 32 ≤ blob.length →
    PointsAt machine (place + offset) ((blob.drop offset.toNat).take 32)

/-- The cell an operand's element starts at, its digit's bucket included. -/
def namedCell (v : Word → Fr) (word : Word) (flag : ℕ) (base : Word) : ℕ :=
  base.toNat + if word &&& BitVec.ofNat 32 flag = 0 then 0
    else FqOp.bucketCells * (v (word >>> FqOp.digitShift)).val

/-- A call whose duplex absorbs no more than the rate, whose digit cell is below `2^24`, and
whose states and elements start below `2^32 − 4`. -/
def Inside (v : Word → Fr) : Op → Prop
  | .fr _ _ _ _ => True
  | .duplex n s _ _ d => n.toNat ≤ 2 ∧ s.toNat < 2 ^ 32 - 4 ∧ d.toNat < 2 ^ 32 - 4
  | .fq word d a b => (v (word >>> FqOp.digitShift)).val < 2 ^ 24 ∧
      namedCell v word FqOp.flagD d < 2 ^ 32 - 4 ∧ namedCell v word FqOp.flagA a < 2 ^ 32 - 4 ∧
        namedCell v word FqOp.flagB b < 2 ^ 32 - 4
  | .importCell _ _ => True

variable {permute : Lanes → Lanes} {blob : List UInt8}

/-- A field operation writes what the native reading writes. -/
theorem frOp_eq (machine : Machine) (place pc code d a b : Word) {written : List (Word × Fr)}
    (wrote : outputs permute blob machine.field (.fr code d a b) = some written) :
    execute permute place pc machine (.fr code d a b) =
      .ok { machine with field := writeCells machine.field written } := by
  have inverse (x : Fr) : Machine.inverseOrZero x = x⁻¹ := by
    rw [Machine.inverseOrZero]
    split
    · rename_i zero
      rw [zero, inv_zero]
    · rfl
  rw [outputs] at wrote
  rw [execute, callFrame, Machine.frOp]
  simp only [FrOp.opWord, FrOp.aWord, FrOp.bWord, FrOp.dWord, List.getD_cons_zero,
    List.getD_cons_succ]
  split_ifs at wrote ⊢ with mul add sub mac inv eq equal differ equal imm shl
  · cases wrote
    rfl
  · cases wrote
    rfl
  · cases wrote
    rfl
  · cases wrote
    rfl
  · cases wrote
    rw [inverse]
    rfl
  · cases wrote
    rfl
  · cases wrote
    rfl
  · cases wrote
    rfl
  · cases wrote
    rfl

/-- A duplex step writes what the native reading writes. -/
theorem p2Field_eq (machine : Machine) (place pc n s x y d : Word) {written : List (Word × Fr)}
    (inside : Inside machine.field (.duplex n s x y d))
    (wrote : outputs permute blob machine.field (.duplex n s x y d) = some written) :
    execute permute place pc machine (.duplex n s x y d) =
      .ok { machine with field := writeCells machine.field written } := by
  obtain ⟨few, stateInside, nextInside⟩ := inside
  have zeroth : d + BitVec.ofNat 32 0 = d := BitVec.add_zero d
  cases wrote
  rw [execute, callFrame, Machine.p2Field]
  simp only [P2Field.nWord, P2Field.sWord, P2Field.xWord, P2Field.yWord, P2Field.dWord,
    P2Field.stateCells, List.getD_cons_zero, List.getD_cons_succ]
  rw [if_neg (by omega)]
  simp only [List.zipIdx_cons, List.zipIdx_nil, List.foldl_cons, List.foldl_nil, zeroth]
  rfl

/-- The words an import keeps. -/
theorem setWord_kept (machine : Machine) (addrs : List Word) :
    (addrs.zip (addrs.map machine.ram)).foldl (fun m entry => m.setWord entry.1 entry.2) machine =
      machine := by
  have kept (addr : Word) : machine.setWord addr (machine.ram addr) = machine := by
    rw [Machine.setWord, Function.update_eq_self]
  induction addrs with
  | nil => rfl
  | cons addr addrs ih =>
    rw [List.map_cons, List.zip_cons_cons, List.foldl_cons, kept]
    exact ih

/-- An import writes what the native reading writes. -/
theorem fieldIo_eq (machine : Machine) (place pc cell offset : Word)
    (placed : Placed machine place blob (.importCell cell offset)) {written : List (Word × Fr)}
    (wrote : outputs permute blob machine.field (.importCell cell offset) = some written) :
    execute permute place pc machine (.importCell cell offset) =
      .ok { machine with field := writeCells machine.field written } := by
  rw [outputs] at wrote
  split at wrote
  · rename_i fits
    cases wrote
    obtain ⟨addrs, located, words⟩ := placed cell offset rfl fits
    have packed : Machine.packWords (addrs.map machine.ram) =
        imported ((blob.drop offset.toNat).take 32) := by
      rw [Machine.packWords, imported, ← List.map_reverse, List.foldl_map]
      have values := congrArg List.reverse words
      rw [← List.map_reverse, ← List.map_reverse] at values
      have folded := congrArg (List.foldl (fun v limb =>
        v * ((2 ^ 32 : ℕ) : Fr) + ((limb : ℕ) : Fr)) 0) values
      rw [List.foldl_map, List.foldl_map] at folded
      exact folded
    rw [execute, callFrame, Machine.fieldIo]
    simp only [FieldIo.opWord, FieldIo.cellWord, FieldIo.ptrWord, List.getD_cons_zero,
      List.getD_cons_succ, located pc, bind, Except.bind]
    rw [if_pos (by rfl), packed, setWord_kept]
    rfl
  · cases wrote

theorem orRefuse_ok {α : Type} {x : Option α} {y : α} (ran : orRefuse x = .ok y) : x = some y := by
  cases x with
  | none => cases ran
  | some x =>
    cases ran
    rfl

theorem small_eq_small (v : Fr) : small v = Emulator.small v := rfl

/-- An operand whose element stays inside is found where the native reading finds it. -/
theorem elementAt_eq (v : Word → Fr) (pc word base : Word) (flag digit : ℕ)
    (held : (v (word >>> FqOp.digitShift)).val = digit)
    (inside : namedCell v word flag base < 2 ^ 32 - 4) :
    Emulator.elementAt pc word digit flag base =
      .ok (operandCell word (BitVec.ofNat 32 flag) base digit) := by
  rw [namedCell, held] at inside
  rw [Emulator.elementAt, operandCell]
  have four : FqOp.elementCells = 4 := rfl
  by_cases direct : word &&& BitVec.ofNat 32 flag = 0
  · rw [if_pos direct] at inside
    rw [if_neg (not_not.mpr direct), if_pos direct, if_pos (by omega), Nat.add_zero,
      BitVec.ofNat_toNat, BitVec.setWidth_eq]
    rfl
  · rw [if_neg direct] at inside
    rw [if_pos direct, if_neg direct, if_pos (by omega), BitVec.ofNat_add, BitVec.ofNat_toNat,
      BitVec.setWidth_eq]
    rfl

@[simp]
theorem touchAll_element (m : Memory) (c at_ : Word) (count time : ℕ) :
    (m.touchAll at_ count time).element c = m.element c := by
  rw [Memory.element, Memory.element, touchAll_values]

/-- Limbs written from a cell on, in the native memory and in the machine. -/
theorem writeAll_eq (m : Memory) (machine : Machine) (c : Word) (limbs : List ℕ) (time : ℕ)
    (same : machine.field = m.values) :
    limbs.zipIdx.foldl (fun (after : Machine) entry =>
      after.insert (c + BitVec.ofNat 32 entry.2) ((entry.1 : ℕ) : Fr)) machine =
        { machine with field := (m.writeAll c (limbs.map fun limb => ((limb : ℕ) :
          Fr)) time).values } := by
  rw [Memory.writeAll, List.zipIdx_map, List.foldl_map]
  generalize limbs.zipIdx = entries
  induction entries generalizing m machine with
  | nil => rw [List.foldl_nil, List.foldl_nil, ← same]
  | cons entry entries ih =>
    rw [List.foldl_cons, List.foldl_cons]
    refine ih (m.write _ _ time) (machine.insert _ _) ?_
    rw [write_values, ← same]
    rfl

/-- The result is the same where the native reading has one. -/
theorem fqNew_eq {m read : Memory} (pc : Word) {code : ℕ} {ac bc dc : Word}
    {operands : Option (List ℕ × List ℕ)} {out : List ℕ}
      (reads : fqOperands m code ac bc = .ok operands)
    (left : fqOut read code (m.values ac) (m.values (ac + 1)) dc operands = .ok out)
    (same : read.element dc = m.element dc) :
    Emulator.fqNew pc code ((List.range 4).map fun k => m.values (ac + BitVec.ofNat 32 k))
      ((List.range 4).map fun k => m.values (bc + BitVec.ofNat 32 k))
      ((List.range 4).map fun k => m.values (dc + BitVec.ofNat 32 k)) = .ok out := by
  rw [fqOperands] at reads
  rw [Emulator.fqNew]
  by_cases halves : code = from128
  · rw [if_pos halves] at reads ⊢
    cases reads
    obtain ⟨lo, readLo, left⟩ := bind_ok.mp left
    obtain ⟨hi, readHi, left⟩ := bind_ok.mp left
    cases left
    have zeroth : ac + BitVec.ofNat 32 0 = ac := BitVec.add_zero ac
    have four : List.range 4 = [0, 1, 2, 3] := rfl
    have low : Emulator.small (m.values ac) = some lo := orRefuse_ok readLo
    have high : Emulator.small (m.values (ac + BitVec.ofNat 32 1)) = some hi := orRefuse_ok readHi
    simp only [four, List.map_cons, List.getD_cons_zero, List.getD_cons_succ, zeroth, low, high,
      Emulator.require, bind, Except.bind]
  · rw [if_neg halves] at reads ⊢
    obtain ⟨x, readX, reads⟩ := bind_ok.mp reads
    obtain ⟨y, readY, reads⟩ := bind_ok.mp reads
    cases reads
    have readX := orRefuse_ok readX
    have readY := orRefuse_ok readY
    have xElement := isElement_of_element readX
    have yElement := isElement_of_element readY
    rw [elementLimbs_eq pc readX, elementLimbs_eq pc readY]
    obtain ⟨length, small, total⟩ := fqResult_spec code xElement yElement
    simp only [bind, Except.bind]
    rw [fqOut] at left
    by_cases isMul : code = FqOp.mul
    · subst isMul
      rw [if_pos rfl] at left
      obtain rfl := Except.ok.inj left
      obtain ⟨element, product⟩ := mulModQ_spec xElement yElement
      rw [if_pos (.inl rfl), if_neg (by decide), limbsOf_eq length small element]
      rw [total, product, if_neg (by decide), if_neg (by decide)]
    · rw [if_neg isMul] at left
      by_cases isAdd : code = add
      · subst isAdd
        obtain ⟨sum, added, element, value⟩ := addModQ_spec xElement yElement
        rw [if_pos rfl, added] at left
        cases left
        rw [if_pos (.inr (.inl rfl)), if_neg (by decide), limbsOf_eq length small element]
        rw [total, value, if_pos rfl]
      · rw [if_neg isAdd] at left
        by_cases isSub : code = sub
        · subst isSub
          obtain ⟨difference, subtracted, element, value⟩ := subModQ_spec xElement yElement
          rw [if_pos rfl, subtracted] at left
          cases left
          rw [if_pos (.inr (.inr (.inl rfl))), if_neg (by decide), limbsOf_eq length small element]
          rw [total, value, if_neg (by decide), if_pos rfl]
        · rw [if_neg isSub] at left
          by_cases isMuleq : code = muleq
          · subst isMuleq
            rw [if_pos rfl] at left
            obtain ⟨held, readHeld, left⟩ := bind_ok.mp left
            have readHeld := orRefuse_ok readHeld
            rw [same] at readHeld
            have agrees := reduced_eq_iff (isElement_of_element readHeld) xElement yElement
            rw [if_pos (.inr (.inr (.inr rfl))), if_pos rfl, elementLimbs_eq pc readHeld]
            dsimp only
            by_cases congruent : mulModQ x y = canonical held
            · rw [if_neg (not_not.mpr congruent)] at left
              rw [if_neg (not_not.mpr (agrees.mpr congruent))]
              cases left
              rfl
            · rw [if_pos congruent] at left
              cases left
          · rw [if_neg isMuleq] at left
            cases left

/-- A base-field operation computes what the native reading computes. -/
theorem fqOp_eq (m : Memory) (machine : Machine) (place pc word d a b : Word) {m' : Memory}
    (same : machine.field = m.values) (inside : Inside m.values (.fq word d a b))
    (ran : fqStep m word d a b = .ok m') :
    execute permute place pc machine (.fq word d a b) = .ok { machine with field :=
      m'.values } := by
  obtain ⟨digitSmall, dInside, aInside, bInside⟩ := inside
  have held : Emulator.small (m.values (word >>> FqOp.digitShift)) =
      some (m.values (word >>> FqOp.digitShift)).val := by
    rw [Emulator.small_eq, if_pos (by omega)]
  rw [fqStep, small_eq_small, held] at ran
  obtain ⟨_, digitEq, ran⟩ := bind_ok.mp ran
  cases digitEq
  have wrapped : (m.values (word >>> FqOp.digitShift)).val % 2 ^ 32 =
      (m.values (word >>> FqOp.digitShift)).val := Nat.mod_eq_of_lt (by omega)
  rw [wrapped] at ran
  obtain ⟨operands, reads, ran⟩ := bind_ok.mp ran
  dsimp only at ran
  split at ran
  · cases ran
  split at ran
  · cases ran
  obtain ⟨out, left, ran⟩ := bind_ok.mp ran
  cases ran
  have result := fqNew_eq pc reads left (by simp only [touchAll_element])
  rw [touch_values] at result
  have digit : Emulator.require pc "the digit cell holds no digit"
      ((Emulator.small (m.values (word >>> FqOp.digitShift))).filter fun v => v < 2 ^ 24) =
        .ok (m.values (word >>> FqOp.digitShift)).val := by
    rw [held, Option.filter_some, if_pos (decide_eq_true digitSmall)]
    rfl
  rw [execute, callFrame, Machine.fqOp]
  simp only [FqOp.opWord, FqOp.aWord, FqOp.bWord, FqOp.dWord, List.getD_cons_zero,
    List.getD_cons_succ, same, digit, bind, Except.bind,
      elementAt_eq m.values pc word _ _ _ rfl dInside,
    elementAt_eq m.values pc word _ _ _ rfl aInside,
      elementAt_eq m.values pc word _ _ _ rfl bInside,
    result]
  exact congrArg Except.ok (writeAll_eq _ machine _ out _ (by simp only [same, touchAll_values,
    touch_values]))

/-- A call the native reading computes, the executor computes: the same cells, and nothing else
of the machine is changed. -/
theorem execute_step {m m' : Memory} {machine : Machine} {place : Word} {op : Op} (pc : Word)
    (same : machine.field = m.values) (placed : Placed machine place blob op)
    (inside : Inside m.values op) (ran : step permute blob m op = .ok m') :
    execute permute place pc machine op = .ok { machine with field := m'.values } := by
  have leaves (plain : op.isFq = false) : ∃ written,
      outputs permute blob machine.field op = some written ∧
        m'.values = writeCells machine.field written := by
    have both := @step_leaves permute blob m op plain
    rw [ran, Leaves, Except.toOption, Option.map_some, ← same] at both
    obtain ⟨written, wrote, values⟩ := Option.map_eq_some_iff.mp both.symm
    exact ⟨written, wrote, values.symm⟩
  cases op with
  | fr code d a b =>
    obtain ⟨written, wrote, values⟩ := leaves rfl
    rw [values]
    exact frOp_eq machine place pc code d a b wrote
  | duplex n s x y d =>
    obtain ⟨written, wrote, values⟩ := leaves rfl
    rw [values]
    rw [← same] at inside
    exact p2Field_eq machine place pc n s x y d inside wrote
  | fq word d a b =>
    exact fqOp_eq { m with clock := m.clock + 4 } machine place pc word d a b same inside ran
  | importCell cell offset =>
    obtain ⟨written, wrote, values⟩ := leaves rfl
    rw [values]
    exact fieldIo_eq machine place pc cell offset placed wrote

theorem execute_runFrom {calls : List (Word × Op)} {m m' : Memory} {machine : Machine}
    {place : Word} {i : ℕ} (ran : runFrom permute blob i (calls.map Prod.snd) m = .ok m')
    (same : machine.field = m.values) (placed : ∀ call ∈ calls, Placed machine place blob call.2)
    (inside : ∀ before op after reached, calls.map Prod.snd = before ++ op :: after →
      runFrom permute blob i before m = .ok reached → Inside reached.values op) :
    ∃ machine', executeAll permute place calls machine = .ok machine' ∧
      machine'.field = m'.values := by
  induction calls generalizing i m machine with
  | nil =>
    cases ran
    exact ⟨machine, rfl, same⟩
  | cons call calls ih =>
    obtain ⟨here, later⟩ := List.forall_mem_cons.mp placed
    rw [List.map_cons, runFrom] at ran
    cases first : step permute blob m call.2 with
    | error stop =>
      rw [first] at ran
      cases ran
    | ok m₁ =>
      rw [first] at ran
      have stepped := execute_step call.1 same here (inside [] call.2 _ m rfl rfl) first
      have kept : ({ machine with field := m₁.values } : Machine).field = m₁.values := rfl
      obtain ⟨machine', rest, left⟩ :=
        ih ran kept later (fun before op after reached split run =>
        inside (call.2 :: before) op after reached (by rw [List.map_cons, split, List.cons_append])
          (by rw [runFrom, first]; exact run))
      refine ⟨machine', ?_, left⟩
      rw [executeAll, stepped]
      exact rest

/-- Where a tape's native run succeeds, executing its calls one by one succeeds and leaves the
same value in every cell, whatever cells the calls share: each duplex step absorbs no more than
the rate, each digit is below `2^24` when it is read, each state and element starts below
`2^32 − 4`, and the machine's memory has the blob where the imports point. -/
theorem execute_run {calls : List (Word × Op)} {m m' : Memory} {machine : Machine} {place : Word}
    (ran : run permute blob (calls.map Prod.snd) m = .ok m') (same : machine.field = m.values)
    (placed : ∀ call ∈ calls, Placed machine place blob call.2)
    (inside : ∀ before op after reached, calls.map Prod.snd = before ++ op :: after →
      run permute blob before m = .ok reached → Inside reached.values op) :
    ∃ machine', executeAll permute place calls machine = .ok machine' ∧
      machine'.field = m'.values :=
  execute_runFrom ran same placed inside

theorem execute_run_aliased :
    ∃ m', run id [] [.fr 7 5 0 7, .fr 4 5 5 5, .fr 9 5 5 5] ⟨fun _ => 0, fun _ => 0, 0⟩ = .ok m' ∧
      ∃ machine', executeAll id 0 [(4, .fr 7 5 0 7), (8, .fr 4 5 5 5), (12, .fr 9 5 5 5)]
        ⟨fun _ => 0, 0, fun _ => 0⟩ = .ok machine' ∧ machine'.field = m'.values := by
  refine ⟨_, rfl, @execute_run id [] _ _ _ _ 0 rfl rfl (fun call member cell offset isImport => ?_)
    fun before op after reached split _ => ?_⟩
  · have calls : ∀ call ∈ [((4 : Word), Op.fr 7 5 0 7), (8, .fr 4 5 5 5), (12, .fr 9 5 5 5)],
        call.2.isCall = true := by decide
    have plain := calls call member
    rw [isImport] at plain
    exact absurd plain Bool.false_ne_true
  · have member : op ∈ [Op.fr 7 5 0 7, .fr 4 5 5 5, .fr 9 5 5 5] := by
      change [Op.fr 7 5 0 7, .fr 4 5 5 5, .fr 9 5 5 5] = _ at split
      rw [split]
      exact List.mem_append_right _ List.mem_cons_self
    simp only [List.mem_cons, List.not_mem_nil, or_false] at member
    rcases member with rfl | rfl | rfl
    · trivial
    · trivial
    · trivial

/-- From cells that hold `m`'s values and a memory with the blob where the imports point, calls
one by one, each at any pc, leave `m'`'s values. -/
def Executes (permute : Lanes → Lanes) (blob : List UInt8) (ops : List Op) (m m' : Memory) :
    Prop :=
  ∀ machine place, machine.field = m.values → (∀ op ∈ ops, Placed machine place blob op) →
    ∀ calls : List (Word × Op), calls.map Prod.snd = ops →
      ∃ machine', executeAll permute place calls machine = .ok machine' ∧
        machine'.field = m'.values

/-- A tape without base-field calls, scheduled, encoded, decoded and executed call by call with
its imports up front, leaves the values that its native run leaves in its own order. -/
theorem execute_scheduled {ops : List Op} {m m' : Memory} (plain : ∀ op ∈ ops, op.isFq = false)
    (fresh : ImportsFresh ops) (ordered : InBlobOrder 0 ops) (few : ops.length < 2 ^ 32)
    (inside : ∀ op ∈ ops, ∀ v, Inside v op) (ran : run permute blob ops m = .ok m') :
    ∃ scheduled e decoded, schedule ops = some scheduled ∧ encode scheduled = some e ∧
      decode e.body = some decoded ∧ (e.hoisted ++ decoded).Perm ops ∧
        Executes permute blob (e.hoisted ++ decoded) m m' := by
  obtain ⟨order, scheduled, perm, turned, first⟩ := schedule_spec plain fresh
  have ordered' : InBlobOrder 0 (order.map (callAt ops)) := by
    rwa [InBlobOrder, ← importsOf_importCalls, importCalls_of_order perm first,
      importsOf_importCalls]
  obtain ⟨e, encoded, imported, decoded⟩ := encode_spec ordered' (by
    rwa [List.length_map, perm.length_eq, List.length_range])
  have hoisted : e.hoisted ++ (order.map (callAt ops)).filter Op.isCall =
      (hoistedOrder ops order).map (callAt ops) := by
    rw [map_hoistedOrder, hoisted_eq imported ordered']
  have permutes := ((hoistedOrder_perm ops order).trans perm).map (callAt ops)
  rw [map_callAt, ← hoisted] at permutes
  refine ⟨_, e, _, scheduled, encoded, decoded, permutes, fun machine place same placed calls
    shape => ?_⟩
  rw [← shape] at permutes placed
  have kept : SameValues (run permute blob (calls.map Prod.snd) m) (.ok m') := by
    rw [← ran, SameValues, run, run, runFrom_values fun op member =>
      plain op (permutes.subset member), runFrom_values plain, shape, hoisted]
    exact values_of_hoisted fresh perm turned m.values
  obtain ⟨left, ends, values⟩ := Option.map_eq_some_iff.mp kept
  cases result : run permute blob (calls.map Prod.snd) m with
  | error stop =>
    rw [result] at ends
    cases ends
  | ok reached =>
    rw [result] at ends
    cases ends
    rw [← values]
    refine execute_runFrom result same (fun call member => placed call.2
      (List.mem_map_of_mem member)) fun before op after _ split _ => inside op ?_ _
    exact permutes.subset (split ▸ List.mem_append_right _ List.mem_cons_self)

theorem execute_scheduled_imported :
    ∃ m', run id (List.replicate 32 7) [.importCell 9 0, .fr 3 9 9 9] ⟨fun _ => 3, fun _ => 0, 0⟩ =
        .ok m' ∧
      ∃ scheduled e decoded, schedule [.importCell 9 0, .fr 3 9 9 9] = some scheduled ∧
        encode scheduled = some e ∧ decode e.body = some decoded ∧
          (e.hoisted ++ decoded).Perm [.importCell 9 0, .fr 3 9 9 9] ∧
            Executes id (List.replicate 32 7) (e.hoisted ++ decoded)
              ⟨fun _ => 3, fun _ => 0, 0⟩ m' := by
  refine ⟨_, rfl, execute_scheduled (by simp [Op.isFq]) ?_ ?_ (by decide) (by simp [Inside]) rfl⟩
  · rintro (_ | _ | i) cell offset found j before
    · exact absurd before j.not_lt_zero
    · cases found
    · cases found
  · rintro (_ | k) entry found
    · cases found
      rfl
    · cases found

end Execution

end Apogee.Recursion.Native
