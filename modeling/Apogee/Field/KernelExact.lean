import Apogee.Field.Kernel

/-! # The limb kernels are exact

A reduced array spells one field element, and each operation of the kernel,
on arrays that spell elements, returns without overflow the array that spells the
operation's value. The product's value is divided by the radix, so what an array
represents is its value over the radix.
-/

namespace Apogee.Kernel

open Math FqOp

section Words

theorem checked_eq {bits t : ℕ} (small : t < 2 ^ bits) : checked bits t = some t := if_pos small

/-- Three words, two of them multiplied, fit in twice the width. -/
theorem mac_spec {acc a b carry : ℕ} (accSmall : acc < 2 ^ 64) (aSmall : a < 2 ^ 64)
    (bSmall : b < 2 ^ 64) (carrySmall : carry < 2 ^ 64) :
    ∃ s c, mac acc a b carry = some (s, c) ∧ s < 2 ^ 64 ∧ c < 2 ^ 64 ∧
      s + 2 ^ 64 * c = acc + a * b + carry := by
  have product : a * b ≤ (2 ^ 64 - 1) * (2 ^ 64 - 1) :=
    Nat.mul_le_mul (Nat.le_sub_one_of_lt aSmall) (Nat.le_sub_one_of_lt bSmall)
  have fits : acc + a * b + carry < 2 ^ 128 := by omega
  have high : (acc + a * b + carry) / 2 ^ 64 < 2 ^ 64 := by omega
  refine ⟨_, _, by rw [mac, checked_eq fits]; rfl, Nat.mod_lt _ (by norm_num),
    Nat.mod_lt _ (by norm_num), ?_⟩
  rw [Nat.mod_eq_of_lt high, Nat.mod_add_div]

theorem adc_spec {a b carry : ℕ} (aSmall : a < 2 ^ 64) (bSmall : b < 2 ^ 64)
    (carrySmall : carry < 2 ^ 64) :
    ∃ s c, adc a b carry = some (s, c) ∧ s < 2 ^ 64 ∧ c < 2 ^ 64 ∧
      s + 2 ^ 64 * c = a + b + carry := by
  have fits : a + b + carry < 2 ^ 128 := by omega
  have high : (a + b + carry) / 2 ^ 64 < 2 ^ 64 := by omega
  refine ⟨_, _, by rw [adc, checked_eq fits]; rfl, Nat.mod_lt _ (by norm_num),
    Nat.mod_lt _ (by norm_num), ?_⟩
  rw [Nat.mod_eq_of_lt high, Nat.mod_add_div]

theorem sbb_spec {a b borrow : ℕ} (aSmall : a < 2 ^ 64) (bSmall : b < 2 ^ 64) (bit : borrow ≤ 1) :
    (sbb a b borrow).1 < 2 ^ 64 ∧ (sbb a b borrow).2 ≤ 1 ∧
      (sbb a b borrow).1 + b + borrow = a + 2 ^ 64 * (sbb a b borrow).2 := by
  simp only [sbb, wrappingSub]
  refine ⟨Nat.mod_lt _ (by norm_num), by omega, ?_⟩
  by_cases covers : b + borrow ≤ a
  · have low : ((a + (2 ^ 128 - b)) % 2 ^ 128 + (2 ^ 128 - borrow)) % 2 ^ 128 =
        a - b - borrow := by omega
    rw [low]
    omega
  · have low : ((a + (2 ^ 128 - b)) % 2 ^ 128 + (2 ^ 128 - borrow)) % 2 ^ 128 =
        2 ^ 128 + a - b - borrow := by omega
    rw [low]
    omega

end Words

section Loops

theorem adcLoop_spec {a b : List ℕ} (length : a.length = b.length) (aSmall : InRange a)
    (bSmall : InRange b) {carry : ℕ} (carrySmall : carry < 2 ^ 64) :
    ∃ s c, adcLoop a b carry = some (s, c) ∧ s.length = a.length ∧ InRange s ∧
      value s + (2 ^ 64) ^ a.length * c = value a + value b + carry := by
  induction a generalizing b carry with
  | nil =>
    rw [List.eq_nil_of_length_eq_zero length.symm]
    exact ⟨[], carry, rfl, rfl, inRange_replicate 0, by simp⟩
  | cons x a ih =>
    cases b with
    | nil => simp at length
    | cons y b =>
      obtain ⟨xSmall, aSmall⟩ := List.forall_mem_cons.mp aSmall
      obtain ⟨ySmall, bSmall⟩ := List.forall_mem_cons.mp bSmall
      obtain ⟨s, c, summed, sSmall, cSmall, parts⟩ := adc_spec xSmall ySmall carrySmall
      obtain ⟨rest, out, later, same, small, sum⟩ :=
        ih (by simpa using length) aSmall bSmall cSmall
      refine ⟨s :: rest, out, by simp [adcLoop, summed, later], by simp [same],
        List.forall_mem_cons.mpr ⟨sSmall, small⟩, ?_⟩
      simp only [value, Nat.ofDigits_cons, List.length_cons, pow_succ'] at sum ⊢
      linear_combination parts + 2 ^ 64 * sum

theorem sbbLoop_spec {a b : List ℕ} (length : a.length = b.length) (aSmall : InRange a)
    (bSmall : InRange b) {borrow : ℕ} (bit : borrow ≤ 1) :
    ∃ d bw, sbbLoop a b borrow = (d, bw) ∧ d.length = a.length ∧ InRange d ∧ bw ≤ 1 ∧
      value d + value b + borrow = value a + (2 ^ 64) ^ a.length * bw := by
  induction a generalizing b borrow with
  | nil =>
    rw [List.eq_nil_of_length_eq_zero length.symm]
    exact ⟨[], borrow, rfl, rfl, inRange_replicate 0, bit, by simp⟩
  | cons x a ih =>
    cases b with
    | nil => simp at length
    | cons y b =>
      obtain ⟨xSmall, aSmall⟩ := List.forall_mem_cons.mp aSmall
      obtain ⟨ySmall, bSmall⟩ := List.forall_mem_cons.mp bSmall
      obtain ⟨dSmall, oneBit, parts⟩ := sbb_spec xSmall ySmall bit
      obtain ⟨rest, out, later, same, small, outBit, difference⟩ :=
        ih (by simpa using length) aSmall bSmall oneBit
      refine ⟨(sbb x y borrow).1 :: rest, out, by simp [sbbLoop, later], by simp [same],
        List.forall_mem_cons.mpr ⟨dSmall, small⟩, outBit, ?_⟩
      simp only [value, Nat.ofDigits_cons, List.length_cons, pow_succ'] at difference ⊢
      linear_combination parts + 2 ^ 64 * difference

theorem macLoop_spec {scale : ℕ} (scaleSmall : scale < 2 ^ 64) {lanes limbs : List ℕ}
    (length : lanes.length = limbs.length) (lanesSmall : InRange lanes)
    (limbsSmall : InRange limbs) {carry : ℕ} (carrySmall : carry < 2 ^ 64) :
    ∃ row out, macLoop scale lanes limbs carry = some (row, out) ∧
      row.length = lanes.length ∧ InRange row ∧ out < 2 ^ 64 ∧
      value row + (2 ^ 64) ^ lanes.length * out = value lanes + scale * value limbs + carry := by
  induction lanes generalizing limbs carry with
  | nil =>
    rw [List.eq_nil_of_length_eq_zero length.symm]
    exact ⟨[], carry, rfl, rfl, inRange_replicate 0, carrySmall, by simp⟩
  | cons lane lanes ih =>
    cases limbs with
    | nil => simp at length
    | cons limb limbs =>
      obtain ⟨laneSmall, lanesSmall⟩ := List.forall_mem_cons.mp lanesSmall
      obtain ⟨limbSmall, limbsSmall⟩ := List.forall_mem_cons.mp limbsSmall
      obtain ⟨s, c, summed, sSmall, cSmall, parts⟩ :=
        mac_spec laneSmall limbSmall scaleSmall carrySmall
      obtain ⟨row, out, later, same, small, outSmall, sum⟩ :=
        ih (by simpa using length) lanesSmall limbsSmall cSmall
      refine ⟨s :: row, out, by simp [macLoop, summed, later], by simp [same],
        List.forall_mem_cons.mpr ⟨sSmall, small⟩, outSmall, ?_⟩
      simp only [value, Nat.ofDigits_cons, List.length_cons, pow_succ'] at sum ⊢
      linear_combination parts + 2 ^ 64 * sum

end Loops

/-- The constants of a kernel are those of a prime with two bits to spare. -/
structure Lawful (k : Kernel) (p : ℕ) : Prop where
  prime : p.Prime
  below : 2 * p < 2 ^ 255
  odd : p % 2 = 1
  length_modulus : k.modulus.length = 4
  inRange_modulus : InRange k.modulus
  value_modulus : value k.modulus = p
  inRange_minusTwo : InRange k.modulusMinusTwo
  minusTwo : value k.modulusMinusTwo + 2 = p
  length_r : k.r.length = 4
  inRange_r : InRange k.r
  value_r : value k.r = 2 ^ 256 % p
  length_r2 : k.r2.length = 4
  inRange_r2 : InRange k.r2
  value_r2 : value k.r2 = 2 ^ 256 * 2 ^ 256 % p
  cancels : (1 + k.inv * p) % 2 ^ 64 = 0

/-- A reduced array of four limbs. -/
structure Reduced (p : ℕ) (a : List ℕ) : Prop where
  length_eq : a.length = 4
  inRange : InRange a
  below : value a < p

section Sums

variable {k : Kernel} {p : ℕ}

theorem Lawful.isGeModulus_iff (lawful : k.Lawful p) {a : List ℕ} (length : a.length = 4)
    (small : InRange a) : k.isGeModulus a = true ↔ p ≤ value a := by
  rw [isGeModulus, Montgomery.geFrom_iff (length.trans lawful.length_modulus.symm) small
    lawful.inRange_modulus, lawful.value_modulus]

/-- One subtraction reduces what is below twice the modulus. -/
theorem Lawful.reduceOnce_spec (lawful : k.Lawful p) {a : List ℕ} (length : a.length = 4)
    (small : InRange a) (bound : value a < 2 * p) :
    ∃ c, k.reduceOnce a = some c ∧ Reduced p c ∧ value c = value a % p := by
  rw [reduceOnce]
  by_cases covers : p ≤ value a
  · rw [if_pos ((lawful.isGeModulus_iff length small).mpr covers)]
    obtain ⟨d, bw, looped, same, inRange, bit, total⟩ :=
      sbbLoop_spec (length.trans lawful.length_modulus.symm) small lawful.inRange_modulus
        (Nat.zero_le 1)
    have dBelow := value_lt inRange
    rw [same, length] at dBelow
    rw [length, lawful.value_modulus] at total
    have none : bw = 0 := by
      rcases Nat.le_one_iff_eq_zero_or_eq_one.mp bit with zero | one
      · exact zero
      · rw [one] at total
        omega
    rw [none] at total
    have equal : value a = value d + p := by omega
    refine ⟨d, by simp [looped, none], ⟨same.trans length, inRange, by omega⟩, ?_⟩
    rw [equal, Nat.add_mod_right, Nat.mod_eq_of_lt (by omega)]
  · rw [if_neg (fun ge => covers ((lawful.isGeModulus_iff length small).mp ge))]
    have below : value a < p := by omega
    exact ⟨a, rfl, ⟨length, small, below⟩, (Nat.mod_eq_of_lt below).symm⟩

/-- The sum's carry is empty, since twice the modulus fits four limbs. -/
theorem Lawful.addLimbs_spec (lawful : k.Lawful p) {a b : List ℕ} (aReduced : Reduced p a)
    (bReduced : Reduced p b) :
    ∃ c, k.addLimbs a b = some c ∧ Reduced p c ∧ value c = (value a + value b) % p := by
  have room := lawful.below
  have aBelow := aReduced.below
  have bBelow := bReduced.below
  obtain ⟨s, carry, looped, length, small, total⟩ :=
    adcLoop_spec (aReduced.length_eq.trans bReduced.length_eq.symm) aReduced.inRange
      bReduced.inRange (show 0 < 2 ^ 64 by norm_num)
  rw [aReduced.length_eq] at length total
  have none : carry = 0 := by
    by_contra some
    have atLeast := Nat.mul_le_mul_left ((2 ^ 64) ^ 4) (Nat.one_le_iff_ne_zero.mpr some)
    omega
  rw [none, mul_zero, add_zero, add_zero] at total
  obtain ⟨c, reduced, cReduced, cValue⟩ := lawful.reduceOnce_spec length small (by omega)
  exact ⟨c, by simp [addLimbs, looped, none, reduced], cReduced, by rw [cValue, total]⟩

/-- A difference that borrows carries the borrow out of the modulus it adds back,
and that carry alone is dropped. -/
theorem Lawful.subLimbs_eq (lawful : k.Lawful p) {a b : List ℕ} (aLength : a.length = 4)
    (aSmall : InRange a) (bReduced : Reduced p b) :
    ∃ c d borrow, sbbLoop a b 0 = (d, borrow) ∧ k.addBack d borrow = some (c, borrow) ∧
      k.subLimbs a b = some c ∧ c.length = 4 ∧ InRange c ∧
      value c + value b = if value b ≤ value a then value a else value a + p := by
  have room := lawful.below
  have bBelow := bReduced.below
  obtain ⟨d, borrow, looped, length, small, bit, total⟩ :=
    sbbLoop_spec (aLength.trans bReduced.length_eq.symm) aSmall bReduced.inRange (Nat.zero_le 1)
  rw [aLength] at length total
  have dBelow := value_lt small
  rw [length] at dBelow
  rcases Nat.le_one_iff_eq_zero_or_eq_one.mp bit with zero | one
  · subst zero
    have back : k.addBack d 0 = some (d, 0) := rfl
    refine ⟨d, d, 0, looped, back, by simp [subLimbs, looped, back], length, small, ?_⟩
    rw [if_pos (by omega)]
    omega
  · subst one
    obtain ⟨c, carry, added, cLength, cSmall, sum⟩ :=
      adcLoop_spec (length.trans lawful.length_modulus.symm) small lawful.inRange_modulus
        (show 0 < 2 ^ 64 by norm_num)
    rw [length] at cLength sum
    rw [lawful.value_modulus] at sum
    have cBelow := value_lt cSmall
    rw [cLength] at cBelow
    have carryOne : carry = 1 := by
      have positive : carry ≠ 0 := by
        intro zero
        rw [zero] at sum
        omega
      by_contra other
      have atLeast := Nat.mul_le_mul_left ((2 ^ 64) ^ 4) (show 2 ≤ carry by omega)
      omega
    subst carryOne
    have back : k.addBack d 1 = some (c, 1) := added
    refine ⟨c, d, 1, looped, back, by simp [subLimbs, looped, back], cLength, cSmall, ?_⟩
    rw [if_neg (by omega)]
    omega

theorem Lawful.subLimbs_spec (lawful : k.Lawful p) {a b : List ℕ} (aReduced : Reduced p a)
    (bReduced : Reduced p b) :
    ∃ c d borrow, sbbLoop a b 0 = (d, borrow) ∧ k.addBack d borrow = some (c, borrow) ∧
      k.subLimbs a b = some c ∧ Reduced p c ∧
      (value c : ZMod p) = value a - value b := by
  have aBelow := aReduced.below
  have bBelow := bReduced.below
  obtain ⟨c, d, borrow, looped, back, subtracted, length, small, total⟩ :=
    lawful.subLimbs_eq aReduced.length_eq aReduced.inRange bReduced
  refine ⟨c, d, borrow, looped, back, subtracted, ⟨length, small, ?_⟩, ?_⟩
  · split at total
    · omega
    · omega
  · rw [eq_sub_iff_add_eq, ← Nat.cast_add, total]
    split
    · rfl
    · rw [Nat.cast_add, ZMod.natCast_self, add_zero]

/-- Four limbs of value zero are the zero array. -/
theorem eq_zero_iff {a : List ℕ} (length : a.length = 4) (small : InRange a) :
    a = [0, 0, 0, 0] ↔ value a = 0 := by
  constructor
  · intro zero
    rw [zero]
    rfl
  · intro zero
    exact eq_of_value length small (inRange_replicate 4) zero

/-- The modulus less a nonzero array does not borrow. -/
theorem Lawful.negLimbs_spec (lawful : k.Lawful p) {a : List ℕ} (aReduced : Reduced p a) :
    ∃ c, k.negLimbs a = some c ∧ Reduced p c ∧ (value c : ZMod p) = -value a := by
  have positive := lawful.prime.pos
  have aBelow := aReduced.below
  by_cases zero : a = [0, 0, 0, 0]
  · have aZero := (eq_zero_iff aReduced.length_eq aReduced.inRange).mp zero
    refine ⟨a, by rw [negLimbs, if_pos zero, zero], aReduced, ?_⟩
    rw [aZero, Nat.cast_zero, neg_zero]
  · have nonzero : value a ≠ 0 := fun same =>
    zero ((eq_zero_iff aReduced.length_eq aReduced.inRange).mpr same)
    obtain ⟨c, d, borrow, looped, back, subtracted, length, small, total⟩ :=
      lawful.subLimbs_eq lawful.length_modulus lawful.inRange_modulus aReduced
    rw [lawful.value_modulus, if_pos aBelow.le] at total
    refine ⟨c, by rw [negLimbs, if_neg zero, subtracted], ⟨length, small, by omega⟩, ?_⟩
    rw [eq_neg_iff_add_eq_zero, ← Nat.cast_add, total, ZMod.natCast_self]

end Sums

section Product

variable {k : Kernel} {p : ℕ}

/-- Six lanes of the accumulator, below twice the modulus, with what the lower
five have gathered. -/
structure Lanes (t : List ℕ) (gathered : ℕ) : Prop where
  length_eq : t.length = 6
  inRange : InRange t
  value_eq : value (t.take 5) = gathered

/-- The lower four lanes and the fifth. -/
theorem Lanes.parts {t : List ℕ} {gathered : ℕ} (lanes : Lanes t gathered) :
    ∃ t4, t.getD 4 0 = t4 ∧ t4 < 2 ^ 64 ∧ (t.take 4).length = 4 ∧ InRange (t.take 4) ∧
      gathered = value (t.take 4) + (2 ^ 64) ^ 4 * t4 := by
  have inside : 4 < t.length := by rw [lanes.length_eq]; norm_num
  refine ⟨t[4], by simp [inside], lanes.inRange _ (List.getElem_mem inside),
    List.length_take_of_le inside.le, fun limb member =>
      lanes.inRange limb (List.mem_of_mem_take member), ?_⟩
  rw [← lanes.value_eq, value, ofDigits_take_succ inside]

/-- The low lane of the second row cancels. -/
theorem Lawful.cancelled (lawful : k.Lawful p) {row reduced : List ℕ} {out : ℕ}
    (rowSmall : InRange row) (reducedSmall : InRange reduced)
    (sum : value reduced + (2 ^ 64) ^ 4 * out =
      value row + row.getD 0 0 * k.inv % 2 ^ 64 * p) : reduced.getD 0 0 = 0 := by
  have low := Montgomery.getD_zero_eq_mod rowSmall
  rw [low] at sum
  rw [Montgomery.getD_zero_eq_mod reducedSmall]
  have multiplier : value row % 2 ^ 64 * k.inv % 2 ^ 64 ≡ value row * k.inv [MOD 2 ^ 64] :=
    (Nat.mod_modEq _ _).trans ((Nat.mod_modEq (value row) _).mul_right k.inv)
  have cancels : (value row + value row % 2 ^ 64 * k.inv % 2 ^ 64 * p) % 2 ^ 64 = 0 := by
    rw [(multiplier.mul_right p).add_left (value row), mul_assoc,
      show value row + value row * (k.inv * p) = value row * (1 + k.inv * p) by ring, Nat.mul_mod,
      lawful.cancels, mul_zero, Nat.zero_mod]
  have same : (value reduced + (2 ^ 64) ^ 4 * out) % 2 ^ 64 = 0 := by rw [sum, cancels]
  omega

/-- A round adds a limb's multiple and a multiple of the modulus, and divides by
the limb; no lane overflows. -/
theorem Lawful.montRound_spec (lawful : k.Lawful p) {a t : List ℕ} {b gathered : ℕ}
    (aReduced : Reduced p a) (bSmall : b < 2 ^ 64) (lanes : Lanes t gathered)
    (bound : gathered < 2 * p) :
    ∃ t' gathered' m, k.montRound a t b = some t' ∧ Lanes t' gathered' ∧ gathered' < 2 * p ∧
      2 ^ 64 * gathered' = gathered + b * value a + m * p := by
  obtain ⟨t4, headEq, t4Small, takeLength, takeSmall, split⟩ := lanes.parts
  have room := lawful.below
  have aBelow := aReduced.below
  obtain ⟨row, carry, rowEq, rowLength, rowSmall, carrySmall, rowSum⟩ :=
    macLoop_spec bSmall (takeLength.trans aReduced.length_eq.symm) takeSmall aReduced.inRange
      (show 0 < 2 ^ 64 by norm_num)
  rw [takeLength] at rowLength rowSum
  obtain ⟨top, t5, topEq, topSmall, t5Small, topSum⟩ :=
    adc_spec t4Small carrySmall (show 0 < 2 ^ 64 by norm_num)
  generalize mEq : row.getD 0 0 * k.inv % 2 ^ 64 = m
  have mSmall : m < 2 ^ 64 := mEq ▸ Nat.mod_lt _ (by norm_num)
  obtain ⟨reduced, second, reducedEq, reducedLength, reducedSmall, secondSmall, reducedSum⟩ :=
    macLoop_spec mSmall (rowLength.trans lawful.length_modulus.symm) rowSmall
      lawful.inRange_modulus (show 0 < 2 ^ 64 by norm_num)
  rw [rowLength] at reducedLength reducedSum
  rw [lawful.value_modulus, add_zero] at reducedSum
  have zero : reduced.getD 0 0 = 0 :=
    lawful.cancelled rowSmall reducedSmall (by rw [mEq]; exact reducedSum)
  obtain ⟨t3, c, t3Eq, t3Small, cSmall, t3Sum⟩ :=
    adc_spec topSmall secondSmall (show 0 < 2 ^ 64 by norm_num)
  obtain ⟨head, rest, shape⟩ : ∃ head rest, reduced = head :: rest := by
    cases reduced with
    | nil => simp at reducedLength
    | cons head rest => exact ⟨head, rest, rfl⟩
  subst shape
  have headZero : head = 0 := zero
  subst headZero
  have restSmall : InRange rest := (List.forall_mem_cons.mp reducedSmall).2
  have restLength : rest.length = 3 := by simpa using reducedLength
  rw [value, Nat.ofDigits_cons] at reducedSum
  -- what the lanes gather
  have valueEq : value (rest ++ [t3, t5 + c]) =
      value rest + (2 ^ 64) ^ 3 * (t3 + 2 ^ 64 * (t5 + c)) := by
    rw [value, Nat.ofDigits_append, restLength, Nat.ofDigits_cons, Nat.ofDigits_singleton]
  have total : 2 ^ 64 * value (rest ++ [t3, t5 + c]) = gathered + b * value a + m * p := by
    rw [valueEq, split]
    simp only [value] at reducedSum rowSum ⊢
    push_cast at reducedSum
    linear_combination reducedSum + rowSum + (2 ^ 64) ^ 4 * (topSum + t3Sum)
  have small : value (rest ++ [t3, t5 + c]) < 2 * p := by
    have product : b * value a ≤ (2 ^ 64 - 1) * value a := Nat.mul_le_mul_right _ (by omega)
    have multiple : m * p ≤ (2 ^ 64 - 1) * p := Nat.mul_le_mul_right _ (by omega)
    omega
  have fits : t5 + c < 2 ^ 64 := by
    rw [valueEq] at small
    omega
  have lower : (rest ++ [t3, t5 + c, t5]).take 5 = rest ++ [t3, t5 + c] := by
    rw [List.take_append, restLength, List.take_of_length_le (by omega)]
    rfl
  refine ⟨rest ++ [t3, t5 + c, t5], _, m, ?_, ⟨by simp [restLength], ?_, lower ▸ rfl⟩, small, total⟩
  · rw [montRound]
    simp only [rowEq, headEq, topEq, mEq, reducedEq, t3Eq, checked_eq fits, Option.bind_eq_bind,
      Option.bind_some]
    rfl
  · refine List.forall_mem_append.mpr ⟨restSmall, ?_⟩
    simp only [List.forall_mem_cons, List.not_mem_nil, IsEmpty.forall_iff, implies_true, and_true]
    exact ⟨t3Small, fits, t5Small⟩

/-- The rounds divide by the limbs' power. -/
theorem Lawful.rounds_spec (lawful : k.Lawful p) {a b t : List ℕ} {gathered : ℕ}
    (aReduced : Reduced p a) (bSmall : InRange b) (lanes : Lanes t gathered)
    (bound : gathered < 2 * p) :
    ∃ t' gathered' m, b.foldlM (k.montRound a) t = some t' ∧ Lanes t' gathered' ∧
      gathered' < 2 * p ∧
      (2 ^ 64) ^ b.length * gathered' = gathered + value b * value a + m * p := by
  induction b generalizing t gathered with
  | nil => exact ⟨t, gathered, 0, rfl, lanes, bound, by simp⟩
  | cons limb b ih =>
    obtain ⟨limbSmall, bSmall⟩ := List.forall_mem_cons.mp bSmall
    obtain ⟨first, gathered', m, stepped, firstLanes, firstBound, step⟩ :=
      lawful.montRound_spec aReduced limbSmall lanes bound
    obtain ⟨last, gathered'', n, ran, lastLanes, lastBound, rest⟩ :=
      ih bSmall firstLanes firstBound
    refine ⟨last, gathered'', m + 2 ^ 64 * n, ?_, lastLanes, lastBound, ?_⟩
    · rw [List.foldlM_cons, stepped]
      exact ran
    · simp only [value, Nat.ofDigits_cons, List.length_cons, pow_succ'] at rest step ⊢
      linear_combination step + 2 ^ 64 * rest

/-- The product of two arrays is their values' product over the radix. -/
theorem Lawful.montMul_spec (lawful : k.Lawful p) {a b : List ℕ} (aReduced : Reduced p a)
    (bLength : b.length = 4) (bSmall : InRange b) :
    ∃ c, k.montMul a b = some c ∧ Reduced p c ∧
      (value c : ZMod p) * ((2 ^ 256 : ℕ) : ZMod p) = value a * value b := by
  have room := lawful.below
  have start : Lanes (List.replicate 6 0) 0 :=
    ⟨List.length_replicate, inRange_replicate 6, @Nat.ofDigits_replicate_zero (2 ^ 64) 5⟩
  obtain ⟨t, gathered, m, ran, lanes, bound, total⟩ :=
    lawful.rounds_spec aReduced bSmall start (by have := lawful.prime.pos; omega)
  rw [bLength, zero_add] at total
  obtain ⟨t4, headEq, -, takeLength, takeSmall, split⟩ := lanes.parts
  -- the fifth lane is empty
  have empty : t4 = 0 := by omega
  rw [empty, mul_zero, add_zero] at split
  obtain ⟨c, reduced, cReduced, cValue⟩ :=
    lawful.reduceOnce_spec takeLength takeSmall (split ▸ bound)
  refine ⟨c, ?_, cReduced, ?_⟩
  · rw [montMul, ran]
    simp only [Option.bind_eq_bind, Option.bind_some, headEq, empty]
    exact reduced
  · have cast := congrArg (fun n : ℕ => (n : ZMod p)) total
    simp only [Nat.cast_add, Nat.cast_mul, ZMod.natCast_self, mul_zero, add_zero,
      ← pow_mul] at cast
    rw [cValue, ZMod.natCast_mod, ← split, mul_comm, mul_comm (value a : ZMod p)]
    exact cast

end Product

section Spelling

variable {k : Kernel} {p : ℕ}

/-- What a reduced array represents: its value over the radix. -/
def represented (p : ℕ) (a : List ℕ) : ZMod p :=
  (value a : ZMod p) * ((2 ^ 256 : ℕ) : ZMod p)⁻¹

/-- The reduced array that represents an element. -/
def spell {p : ℕ} (v : ZMod p) : List ℕ := limbs (2 ^ 64) 4 (v * ((2 ^ 256 : ℕ) : ZMod p)).val

theorem Lawful.radix_ne_zero (lawful : k.Lawful p) : ((2 ^ 256 : ℕ) : ZMod p) ≠ 0 := by
  intro zero
  have divides := (ZMod.natCast_eq_zero_iff (2 ^ 256) p).mp zero
  have two := (Nat.prime_dvd_prime_iff_eq lawful.prime Nat.prime_two).mp
    (lawful.prime.dvd_of_dvd_pow divides)
  have odd := lawful.odd
  omega

theorem Lawful.value_spell (lawful : k.Lawful p) (v : ZMod p) :
    value (spell v) = (v * ((2 ^ 256 : ℕ) : ZMod p)).val := by
  have := lawful.prime.ne_zero
  have : NeZero p := ⟨this⟩
  have room := lawful.below
  have below := ZMod.val_lt (v * ((2 ^ 256 : ℕ) : ZMod p))
  exact ofDigits_limbs_of_lt (by omega)

theorem Lawful.spell_reduced (lawful : k.Lawful p) (v : ZMod p) : Reduced p (spell v) := by
  have : NeZero p := ⟨lawful.prime.ne_zero⟩
  refine ⟨length_limbs 4 _, limbs_lt (by norm_num) 4 _, ?_⟩
  rw [lawful.value_spell]
  exact ZMod.val_lt _

theorem Lawful.cast_spell (lawful : k.Lawful p) (v : ZMod p) :
    (value (spell v) : ZMod p) = v * ((2 ^ 256 : ℕ) : ZMod p) := by
  have : NeZero p := ⟨lawful.prime.ne_zero⟩
  rw [lawful.value_spell, ZMod.natCast_zmod_val]

theorem Lawful.inv_mul_radix (lawful : k.Lawful p) :
    ((2 ^ 256 : ℕ) : ZMod p)⁻¹ * ((2 ^ 256 : ℕ) : ZMod p) = 1 := by
  have := Fact.mk lawful.prime
  exact inv_mul_cancel₀ lawful.radix_ne_zero

theorem Lawful.represented_spell (lawful : k.Lawful p) (v : ZMod p) :
    represented p (spell v) = v := by
  rw [represented, lawful.cast_spell, mul_assoc, mul_comm ((2 ^ 256 : ℕ) : ZMod p),
    lawful.inv_mul_radix, mul_one]

/-- An array with an element's value is the one that spells it. -/
theorem Lawful.eq_spell (lawful : k.Lawful p) {a : List ℕ} (reduced : Reduced p a) {v : ZMod p}
    (spells : (value a : ZMod p) = v * ((2 ^ 256 : ℕ) : ZMod p)) : a = spell v := by
  refine eq_of_value (reduced.length_eq.trans (length_limbs 4 _).symm) reduced.inRange
    (lawful.spell_reduced v).inRange ?_
  rw [lawful.value_spell, ← spells, ZMod.val_natCast_of_lt reduced.below]

theorem Lawful.spell_represented (lawful : k.Lawful p) {a : List ℕ} (reduced : Reduced p a) :
    spell (represented p a) = a := by
  refine (lawful.eq_spell reduced ?_).symm
  rw [represented, mul_assoc, lawful.inv_mul_radix, mul_one]

theorem Lawful.spell_injective (lawful : k.Lawful p) {u v : ZMod p}
    (same : (spell u : List ℕ) = spell v) : u = v := by
  rw [← lawful.represented_spell u, same, lawful.represented_spell]

theorem spell_zero : spell (0 : ZMod p) = [0, 0, 0, 0] := by
  rw [spell, zero_mul, ZMod.val_zero]
  rfl

theorem Lawful.spell_eq_zero (lawful : k.Lawful p) (v : ZMod p) :
    (spell v : List ℕ) = [0, 0, 0, 0] ↔ v = 0 := by
  constructor
  · intro zero
    exact lawful.spell_injective (zero.trans spell_zero.symm)
  · intro zero
    rw [zero, spell_zero]

theorem Lawful.reduced_r (lawful : k.Lawful p) : Reduced p k.r :=
  ⟨lawful.length_r, lawful.inRange_r, by
    rw [lawful.value_r]
    exact Nat.mod_lt _ lawful.prime.pos⟩

theorem Lawful.r_eq (lawful : k.Lawful p) : k.r = spell (1 : ZMod p) := by
  refine lawful.eq_spell lawful.reduced_r ?_
  rw [lawful.value_r, ZMod.natCast_mod, one_mul]

theorem Lawful.r2_eq (lawful : k.Lawful p) : k.r2 = spell (((2 ^ 256 : ℕ) : ZMod p)) := by
  refine lawful.eq_spell ⟨lawful.length_r2, lawful.inRange_r2, ?_⟩ ?_
  · rw [lawful.value_r2]
    exact Nat.mod_lt _ lawful.prime.pos
  · rw [lawful.value_r2, ZMod.natCast_mod, Nat.cast_mul]

/-- The product spells the product. -/
theorem Lawful.montMul_spell (lawful : k.Lawful p) (u v : ZMod p) :
    k.montMul (spell u) (spell v) = some (spell (u * v)) := by
  have reduced := lawful.spell_reduced v
  obtain ⟨c, multiplied, cReduced, product⟩ :=
    lawful.montMul_spec (lawful.spell_reduced u) reduced.length_eq reduced.inRange
  rw [multiplied, lawful.eq_spell cReduced]
  rw [lawful.cast_spell, lawful.cast_spell] at product
  have := Fact.mk lawful.prime
  have cancelled := mul_right_cancel₀ lawful.radix_ne_zero (product.trans (by ring :
    _ = u * v * ((2 ^ 256 : ℕ) : ZMod p) * ((2 ^ 256 : ℕ) : ZMod p)))
  exact cancelled

end Spelling

section Powers

variable {k : Kernel} {p : ℕ}

theorem Lawful.powBit_spell (lawful : k.Lawful p) (u acc : ZMod p) (limb bit : ℕ) :
    k.powBit (spell u) limb (spell acc) bit =
      some (spell (acc ^ 2 * u ^ (limb / 2 ^ bit % 2))) := by
  rw [powBit, square, lawful.montMul_spell]
  rcases Nat.mod_two_eq_zero_or_one (limb / 2 ^ bit) with even | odd
  · simp [even, sq]
  · simp [odd, sq, lawful.montMul_spell]

/-- The low bits of an exponent's limb, taken from the top down. -/
theorem Lawful.powBits_spell (lawful : k.Lawful p) (u acc : ZMod p) (limb count : ℕ) :
    (List.range count).reverse.foldlM (k.powBit (spell u) limb) (spell acc) =
      some (spell (acc ^ 2 ^ count * u ^ (limb % 2 ^ count))) := by
  induction count generalizing acc with
  | zero => simp [Nat.mod_one]
  | succ count ih =>
    rw [List.range_succ, List.reverse_append, List.reverse_singleton, List.singleton_append,
      List.foldlM_cons, lawful.powBit_spell, Option.bind_eq_bind, Option.bind_some, ih,
      pow_succ 2 count, Nat.mod_mul]
    congr 2
    ring

theorem Lawful.pow_spell (lawful : k.Lawful p) (u : ZMod p) {exp : List ℕ} (small : InRange exp) :
    k.pow (spell u) exp = some (spell (u ^ value exp)) := by
  rw [pow, lawful.r_eq]
  induction exp with
  | nil => simp [value]
  | cons limb exp ih =>
    obtain ⟨limbSmall, expSmall⟩ := List.forall_mem_cons.mp small
    rw [List.reverse_cons, List.foldlM_append, ih expSmall, Option.bind_eq_bind,
      Option.bind_some, List.foldlM_cons, lawful.powBits_spell, Nat.mod_eq_of_lt limbSmall]
    have limbs : value (limb :: exp) = value exp * 2 ^ 64 + limb := by
      rw [value, Nat.ofDigits_cons, add_comm, mul_comm]
    rw [limbs, pow_add, pow_mul]
    rfl

/-- Fermat's power is the inverse. -/
theorem Lawful.inverse_spell (lawful : k.Lawful p) (u : ZMod p) :
    k.inverse (spell u) = some (if u = 0 then none else some (spell u⁻¹)) := by
  have := Fact.mk lawful.prime
  rw [inverse]
  by_cases zero : u = 0
  · rw [if_pos ((lawful.spell_eq_zero u).mpr zero), if_pos zero]
  · rw [if_neg (fun same => zero ((lawful.spell_eq_zero u).mp same)), if_neg zero,
      lawful.pow_spell u lawful.inRange_minusTwo, Option.map_some]
    have fermat := ZMod.pow_card_sub_one_eq_one zero
    have exponent := lawful.minusTwo
    have power : u ^ value k.modulusMinusTwo = u⁻¹ := by
      refine eq_inv_of_mul_eq_one_left ?_
      rw [← pow_succ, ← fermat]
      congr 1
      omega
    rw [power]

end Powers

section Bytes

variable {k : Kernel} {p : ℕ}

/-- The bytes of limbs are worth the limbs' value. -/
theorem leValue_flatMap {a : List ℕ} (small : InRange a) :
    (a.flatMap (leBytes 8)).length = 8 * a.length ∧ leValue (a.flatMap (leBytes 8)) = value a := by
  induction a with
  | nil => exact ⟨rfl, rfl⟩
  | cons limb a ih =>
    obtain ⟨limbSmall, aSmall⟩ := List.forall_mem_cons.mp small
    obtain ⟨length, same⟩ := ih aSmall
    constructor
    · rw [List.flatMap_cons, List.length_append, length, leBytes_length, List.length_cons]
      ring
    · rw [List.flatMap_cons, leValue_append, same, leBytes_length,
        leValue_leBytes (by norm_num; omega), value, value, Nat.ofDigits_cons]
      norm_num

/-- The limbs of bytes, and their value. -/
theorem byteLimbs_spec {b : List UInt8} (length : b.length = 32) :
    (byteLimbs b).length = 4 ∧ InRange (byteLimbs b) ∧ value (byteLimbs b) = leValue b := by
  have each (i : ℕ) (inside : i < 4) : ((b.drop (8 * i)).take 8).length = 8 := by
    rw [List.length_take, List.length_drop, length]
    omega
  refine ⟨by simp [byteLimbs], ?_, ?_⟩
  · intro limb member
    obtain ⟨i, inside, rfl⟩ := List.mem_map.mp member
    have below := leValue_lt ((b.drop (8 * i)).take 8)
    rw [each i (List.mem_range.mp inside)] at below
    exact lt_of_lt_of_eq below (by norm_num)
  · have split (i : ℕ) (inside : i < 4) : leValue (b.drop (8 * i)) =
        leValue ((b.drop (8 * i)).take 8) + 2 ^ 64 * leValue (b.drop (8 * (i + 1))) := by
      conv_lhs => rw [← List.take_append_drop 8 (b.drop (8 * i))]
      rw [leValue_append, each i inside, List.drop_drop, Nat.mul_succ]
      norm_num
    have whole := split 0 (by norm_num)
    rw [split 1 (by norm_num), split 2 (by norm_num), split 3 (by norm_num),
      List.drop_eq_nil_of_le (show b.length ≤ 8 * (3 + 1) by omega)] at whole
    rw [Nat.mul_zero, List.drop_zero] at whole
    rw [whole]
    simp [byteLimbs, value, List.range_succ, Nat.ofDigits_cons, leValue]

/-- The bytes of an element are those of its canonical representative. -/
theorem Lawful.toBytes_spell (lawful : k.Lawful p) (u : ZMod p) :
    k.toBytes (spell u) = some (leBytes 32 u.val) := by
  have : NeZero p := ⟨lawful.prime.ne_zero⟩
  have room := lawful.below
  obtain ⟨c, multiplied, cReduced, product⟩ :=
    lawful.montMul_spec (lawful.spell_reduced u) (b := [1, 0, 0, 0]) rfl (by simp [InRange])
  have := Fact.mk lawful.prime
  rw [lawful.cast_spell, show value [1, 0, 0, 0] = 1 from rfl, Nat.cast_one, mul_one] at product
  have same := mul_right_cancel₀ lawful.radix_ne_zero product
  have cValue : value c = u.val := by
    rw [← same, ZMod.val_natCast_of_lt cReduced.below]
  obtain ⟨length, worth⟩ := leValue_flatMap cReduced.inRange
  rw [toBytes, fromMontgomery, multiplied, Option.bind_eq_bind, Option.bind_some]
  refine congrArg some ((leBytes_inj ?_).mpr ⟨?_, ?_⟩).symm
  · have below := ZMod.val_lt u
    exact lt_trans below (by norm_num; omega)
  · rw [length, cReduced.length_eq]
  · rw [worth, cValue]

/-- Bytes are accepted exactly below the modulus, and spell what they are worth. -/
theorem Lawful.fromBytes_eq (lawful : k.Lawful p) {b : List UInt8} (length : b.length = 32) :
    k.fromBytes b = some (if leValue b < p then some (spell (leValue b : ZMod p)) else none) := by
  obtain ⟨limbsLength, limbsSmall, worth⟩ := byteLimbs_spec length
  rw [fromBytes]
  by_cases below : leValue b < p
  · have refused : ¬k.isGeModulus (byteLimbs b) = true := by
      rw [lawful.isGeModulus_iff limbsLength limbsSmall, worth]
      omega
    have reduced : Reduced p (byteLimbs b) := ⟨limbsLength, limbsSmall, worth ▸ below⟩
    have spelled := lawful.spell_represented reduced
    rw [if_neg refused, if_pos below, ← spelled, lawful.r2_eq, lawful.montMul_spell,
      Option.map_some, represented, mul_assoc, lawful.inv_mul_radix, mul_one, worth]
  · rw [if_pos ((lawful.isGeModulus_iff limbsLength limbsSmall).mpr (by omega)), if_neg below]

end Bytes

/-- The kernel's arrays spell the field. -/
theorem Lawful.spellsField {k : Kernel} {p : ℕ} [prime : Fact p.Prime] (lawful : k.Lawful p) :
    SpellsField (spell : ZMod p → List ℕ) k.montMul k.inverse [0, 0, 0, 0] k.r where
  mul_eq := lawful.montMul_spell
  eq_zero := lawful.spell_eq_zero
  one_eq := lawful.r_eq
  inverse_eq := by
    intro u nonzero
    rw [lawful.inverse_spell, if_neg nonzero]

/-- Every operation returns, with no sum out of its machine word, what the field
computes. Of the carries only the add-back's is dropped, and it repays the borrow. -/
structure Exact (k : Kernel) (p : ℕ) : Prop where
  add : ∀ {a b}, Reduced p a → Reduced p b →
    ∃ c, k.addLimbs a b = some c ∧ Reduced p c ∧ (value c : ZMod p) = value a + value b
  sub : ∀ {a b}, Reduced p a → Reduced p b →
    ∃ c d borrow, sbbLoop a b 0 = (d, borrow) ∧ k.addBack d borrow = some (c, borrow) ∧
      k.subLimbs a b = some c ∧ Reduced p c ∧ (value c : ZMod p) = value a - value b
  neg : ∀ {a}, Reduced p a →
    ∃ c, k.negLimbs a = some c ∧ Reduced p c ∧ (value c : ZMod p) = -value a
  mul : ∀ {a b}, Reduced p a → Reduced p b →
    ∃ c, k.montMul a b = some c ∧ Reduced p c ∧
      (value c : ZMod p) = value a * value b * ((2 ^ 256 : ℕ) : ZMod p)⁻¹
  fromBytes : ∀ b : List UInt8, b.length = 32 →
    ∃ read, k.fromBytes b = some read ∧ (read.isSome ↔ leValue b < p) ∧
      ∀ a, read = some a → Reduced p a ∧ represented p a = leValue b ∧ k.toBytes a = some b
  toBytes : ∀ {a}, Reduced p a →
    ∃ b, k.toBytes a = some b ∧ b.length = 32 ∧ k.fromBytes b = some (some a)
  pow : ∀ {a exp}, Reduced p a → InRange exp →
    ∃ c, k.pow a exp = some c ∧ Reduced p c ∧ represented p c = represented p a ^ value exp
  inverse : ∀ {a}, Reduced p a →
    ∃ found, k.inverse a = some found ∧ (found = none ↔ a = [0, 0, 0, 0]) ∧
      ∀ c, found = some c → Reduced p c ∧ represented p a * represented p c = 1
  batchInverse : ∀ {xs : List (List ℕ)}, (∀ x ∈ xs, Reduced p x) →
    ∃ ys : List (List ℕ), k.batchInverse xs = some ys ∧ ys.length = xs.length ∧
      ∀ (i : ℕ) (x y : List ℕ), xs[i]? = some x → ys[i]? = some y → Reduced p y ∧
        (x = [0, 0, 0, 0] → y = x) ∧ (x ≠ [0, 0, 0, 0] → represented p x * represented p y = 1)

section Exact

variable {k : Kernel} {p : ℕ}

/-- Any reduced array is spelled by what it represents. -/
theorem Lawful.exists_spell (lawful : k.Lawful p) {a : List ℕ} (reduced : Reduced p a) :
    ∃ v : ZMod p, a = spell v :=
  ⟨represented p a, (lawful.spell_represented reduced).symm⟩

theorem Lawful.exact (lawful : k.Lawful p) : k.Exact p where
  add := by
    intro a b aReduced bReduced
    obtain ⟨c, added, reduced, total⟩ := lawful.addLimbs_spec aReduced bReduced
    exact ⟨c, added, reduced, by rw [total, ZMod.natCast_mod, Nat.cast_add]⟩
  sub := lawful.subLimbs_spec
  neg := lawful.negLimbs_spec
  mul := by
    intro a b aReduced bReduced
    have := Fact.mk lawful.prime
    obtain ⟨c, multiplied, reduced, product⟩ :=
      lawful.montMul_spec aReduced bReduced.length_eq bReduced.inRange
    exact ⟨c, multiplied, reduced, (eq_mul_inv_iff_mul_eq₀ lawful.radix_ne_zero).mpr product⟩
  fromBytes := by
    intro b length
    refine ⟨_, lawful.fromBytes_eq length, ?_, ?_⟩
    · by_cases below : leValue b < p
      · simp [below]
      · simp [below]
    · intro a read
      by_cases below : leValue b < p
      · rw [if_pos below, Option.some.injEq] at read
        subst read
        refine ⟨lawful.spell_reduced _, lawful.represented_spell _, ?_⟩
        rw [lawful.toBytes_spell, ZMod.val_natCast_of_lt below, ← length, leBytes_leValue]
      · rw [if_neg below] at read
        cases read
  toBytes := by
    intro a reduced
    have : NeZero p := ⟨lawful.prime.ne_zero⟩
    have room := lawful.below
    obtain ⟨v, rfl⟩ := lawful.exists_spell reduced
    have below := ZMod.val_lt v
    have worth : leValue (leBytes 32 v.val) = v.val :=
      leValue_leBytes (lt_trans below (by norm_num; omega))
    refine ⟨_, lawful.toBytes_spell v, leBytes_length 32 _, ?_⟩
    rw [lawful.fromBytes_eq (leBytes_length 32 _), worth, if_pos below, ZMod.natCast_zmod_val]
  pow := by
    intro a exp reduced small
    obtain ⟨v, rfl⟩ := lawful.exists_spell reduced
    refine ⟨_, lawful.pow_spell v small, lawful.spell_reduced _, ?_⟩
    rw [lawful.represented_spell, lawful.represented_spell]
  inverse := by
    intro a reduced
    have := Fact.mk lawful.prime
    obtain ⟨v, rfl⟩ := lawful.exists_spell reduced
    refine ⟨_, lawful.inverse_spell v, ?_, ?_⟩
    · rw [lawful.spell_eq_zero]
      by_cases zero : v = 0
      · simp [zero]
      · simp [zero]
    · intro c found
      by_cases zero : v = 0
      · rw [if_pos zero] at found
        cases found
      · rw [if_neg zero, Option.some.injEq] at found
        subst found
        refine ⟨lawful.spell_reduced _, ?_⟩
        rw [lawful.represented_spell, lawful.represented_spell, mul_inv_cancel₀ zero]
  batchInverse := by
    intro xs reduced
    have := Fact.mk lawful.prime
    have spelled : xs = (xs.map (represented p)).map spell := by
      rw [List.map_map]
      conv_lhs => rw [← List.map_id xs]
      exact List.map_congr_left fun x member => (lawful.spell_represented (reduced x member)).symm
    have inverted := lawful.spellsField.batchInverse_eq (xs.map (represented p))
    rw [← spelled] at inverted
    refine ⟨_, inverted, by simp, ?_⟩
    intro i x y there found
    simp only [List.getElem?_map, there, Option.map_some, Option.some.injEq] at found
    subst found
    have inside := reduced x (List.mem_of_getElem? there)
    obtain ⟨v, rfl⟩ := lawful.exists_spell inside
    rw [lawful.represented_spell, lawful.represented_spell]
    refine ⟨lawful.spell_reduced _, ?_, ?_⟩
    · intro zero
      rw [(lawful.spell_eq_zero v).mp zero, inv_zero]
    · intro nonzero
      exact mul_inv_cancel₀ fun zero => nonzero ((lawful.spell_eq_zero v).mpr zero)

end Exact

theorem fr_lawful : fr.Lawful frModulus where
  prime := frModulus_prime
  below := by norm_num [frModulus]
  odd := by norm_num [frModulus]
  length_modulus := rfl
  inRange_modulus := Montgomery.inRange_modulus
  value_modulus := Montgomery.value_modulus
  inRange_minusTwo := by simp [InRange, fr, Montgomery.modulusMinusTwo]
  minusTwo := by norm_num [value, fr, Montgomery.modulusMinusTwo, Nat.ofDigits, frModulus]
  length_r := rfl
  inRange_r := by simp [InRange, fr, Montgomery.radix]
  value_r := by norm_num [value, fr, Montgomery.radix, Nat.ofDigits, frModulus]
  length_r2 := rfl
  inRange_r2 := by simp [InRange, fr]
  value_r2 := by norm_num [value, fr, Nat.ofDigits, frModulus]
  cancels := by norm_num [fr, Montgomery.inv, frModulus]

theorem fq_lawful : fq.Lawful fqModulus where
  prime := fqModulus_prime
  below := by norm_num [fqModulus]
  odd := by norm_num [fqModulus]
  length_modulus := rfl
  inRange_modulus := by simp [InRange, fq]
  value_modulus := by norm_num [value, fq, Nat.ofDigits, fqModulus]
  inRange_minusTwo := by simp [InRange, fq]
  minusTwo := by norm_num [value, fq, Nat.ofDigits, fqModulus]
  length_r := rfl
  inRange_r := by simp [InRange, fq]
  value_r := by norm_num [value, fq, Nat.ofDigits, fqModulus]
  length_r2 := rfl
  inRange_r2 := by simp [InRange, fq]
  value_r2 := by norm_num [value, fq, Nat.ofDigits, fqModulus]
  cancels := by norm_num [fq, fqModulus]

/-- Both copies of the kernel are exact on all reduced arrays. -/
theorem kernels_exact : fr.Exact frModulus ∧ fq.Exact fqModulus :=
  ⟨fr_lawful.exact, fq_lawful.exact⟩

/-- A subtraction that borrows drops a carry of one. -/
theorem addBack_drops_carry : Reduced frModulus [0, 0, 0, 0] ∧ Reduced frModulus [1, 0, 0, 0] ∧
    ∃ c, fr.addBack (sbbLoop [0, 0, 0, 0] [1, 0, 0, 0] 0).1
      (sbbLoop [0, 0, 0, 0] [1, 0, 0, 0] 0).2 = some (c, 1) := by
  refine ⟨⟨rfl, by simp [InRange], ?_⟩, ⟨rfl, by simp [InRange], ?_⟩, ?_⟩
  · norm_num [value, Nat.ofDigits, frModulus]
  · norm_num [value, Nat.ofDigits, frModulus]
  · exact ⟨_, rfl⟩

end Apogee.Kernel
