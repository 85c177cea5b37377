import Apogee.Soundness.FqWitness
import Mathlib.FieldTheory.Finite.Basic

/-! # The scalar field's own arithmetic

A field element in memory is four 64-bit limbs below the modulus, and they spell
its value times `2^256`. The limb functions are the machine's, and each theorem
says what field element the limbs it returns spell.
-/

namespace Apogee.Montgomery

open FqOp Math

/-- The modulus, by its limbs. -/
def modulus : List ℕ :=
  [0x43e1f593f0000001, 0x2833e84879b97091, 0xb85045b68181585d, 0x30644e72e131a029]

/-- The modulus less 2: Fermat's exponent. -/
def modulusMinusTwo : List ℕ :=
  [0x43e1f593efffffff, 0x2833e84879b97091, 0xb85045b68181585d, 0x30644e72e131a029]

/-- The radix, reduced: the limbs of 1. -/
def radix : List ℕ :=
  [0xac96341c4ffffffb, 0x36fc76959f60cd29, 0x666ea36f7879462e, 0x0e0a77c19a07df2f]

/-- The negated inverse of the modulus at one limb. -/
def inv : ℕ := 0xc2e1f593efffffff

/-- A limbwise comparison, from the top limb down. -/
def geFrom : List ℕ → List ℕ → Bool
  | x :: xs, m :: ms => if x ≠ m then m < x else geFrom xs ms
  | _, _ => true

def isGeModulus (a : List ℕ) : Bool := geFrom a.reverse modulus.reverse

/-- The modulus subtracted once, where it can be. -/
def reduceOnce (a : List ℕ) : List ℕ := if isGeModulus a then (subFrom a modulus 0).1 else a

def addLimbs (a b : List ℕ) : List ℕ := reduceOnce (addFrom a b 0).1

/-- `scale` times the limbs added to the lanes, and the carry out of them. -/
def macRow (scale : ℕ) : List ℕ → List ℕ → ℕ → List ℕ × ℕ
  | lane :: lanes, limb :: limbs, carry =>
    let t := lane + scale * limb + carry
    let (rest, out) := macRow scale lanes limbs (t / 2 ^ 64)
    (t % 2 ^ 64 :: rest, out)
  | _, _, carry => ([], carry)

/-- One round of a product over five lanes: a limb's multiple of `a` added, the
multiple of the modulus that cancels the low lane, and the low lane dropped. -/
def montStep (a t : List ℕ) (b : ℕ) : List ℕ :=
  let (row, carry) := macRow b (t.take 4) a 0
  let top := t.getD 4 0 + carry
  let m := row.getD 0 0 * inv % 2 ^ 64
  let (reduced, out) := macRow m row modulus 0
  let last := top % 2 ^ 64 + out
  reduced.drop 1 ++ [last % 2 ^ 64, top / 2 ^ 64 + last / 2 ^ 64]

def montMul (a b : List ℕ) : List ℕ :=
  reduceOnce ((b.foldl (montStep a) (List.replicate 5 0)).take 4)

section Limbs

theorem value_modulus : value modulus = frModulus := by
  norm_num [value, modulus, Nat.ofDigits, frModulus]

theorem inRange_modulus : InRange modulus := by
  simp [InRange, modulus]

theorem geFrom_iff {a m : List ℕ} (length : a.length = m.length) (aSmall : InRange a)
    (mSmall : InRange m) : geFrom a.reverse m.reverse = true ↔ value m ≤ value a := by
  induction a using List.reverseRecOn generalizing m with
  | nil =>
    rw [List.eq_nil_of_length_eq_zero length.symm]
    simp [geFrom]
  | append_singleton a x ih =>
    rcases List.eq_nil_or_concat m with rfl | h
    · simp at length
    · obtain ⟨m, y, rfl⟩ := h
      rw [List.concat_eq_append] at length mSmall ⊢
      have same : a.length = m.length := by simpa using length
      have aRest : InRange a := fun limb member => aSmall limb (List.mem_append_left _ member)
      have mRest : InRange m := fun limb member => mSmall limb (List.mem_append_left _ member)
      have aBelow := value_lt aRest
      have mBelow := value_lt mRest
      rw [same] at aBelow
      simp only [List.reverse_append, List.reverse_cons, List.reverse_nil, List.nil_append,
        List.cons_append, geFrom]
      rw [value, value, Nat.ofDigits_append, Nat.ofDigits_append, Nat.ofDigits_singleton,
        Nat.ofDigits_singleton, same]
      generalize (2 ^ 64) ^ m.length = power at aBelow mBelow ⊢
      simp only [value] at aBelow mBelow ih
      by_cases equal : x = y
      · rw [if_neg (not_not.mpr equal), ih same aRest mRest, equal]
        omega
      · rw [if_pos equal, decide_eq_true_iff]
        constructor
        · intro less
          have step : power * (y + 1) ≤ power * x := Nat.mul_le_mul_left _ less
          rw [Nat.mul_succ] at step
          omega
        · intro covers
          by_contra notLess
          have step : power * (x + 1) ≤ power * y := Nat.mul_le_mul_left _ (by omega)
          rw [Nat.mul_succ] at step
          omega

theorem isGeModulus_iff {a : List ℕ} (length : a.length = 4) (small : InRange a) :
    isGeModulus a = true ↔ frModulus ≤ value a := by
  rw [isGeModulus, geFrom_iff (length.trans rfl) small inRange_modulus, value_modulus]

/-- One subtraction reduces what is below twice the modulus. -/
theorem reduceOnce_spec {a : List ℕ} (length : a.length = 4) (small : InRange a)
    (bound : value a < 2 * frModulus) :
    (reduceOnce a).length = 4 ∧ InRange (reduceOnce a) ∧ value (reduceOnce a) < frModulus ∧
      ((value (reduceOnce a) : ℕ) : Fr) = ((value a : ℕ) : Fr) := by
  rw [reduceOnce]
  by_cases covers : frModulus ≤ value a
  · rw [if_pos ((isGeModulus_iff length small).mpr covers)]
    obtain ⟨same, inRange, bit, total⟩ :=
      @subFrom_spec a modulus (length.trans rfl) small inRange_modulus 0 (Or.inl rfl)
    have below := value_lt inRange
    rw [same, length] at below
    rw [length, value_modulus] at total
    have modulusBelow : frModulus < (2 ^ 64) ^ 4 := by norm_num [frModulus]
    have none : (subFrom a modulus 0).2 = 0 := by
      rcases bit with zero | one
      · exact zero
      · rw [one] at total
        omega
    rw [none] at total
    have equal : value a = value (subFrom a modulus 0).1 + frModulus := by omega
    refine ⟨same.trans length, inRange, by omega, ?_⟩
    rw [equal, Nat.cast_add, ZMod.natCast_self, add_zero]
  · rw [if_neg (fun ge => covers ((isGeModulus_iff length small).mp ge))]
    exact ⟨length, small, by omega, rfl⟩

theorem macRow_spec (scale : ℕ) {lanes limbs : List ℕ} (length : lanes.length = limbs.length)
    (carry : ℕ) :
    (macRow scale lanes limbs carry).1.length = lanes.length ∧
      InRange (macRow scale lanes limbs carry).1 ∧
      value (macRow scale lanes limbs carry).1 +
          (2 ^ 64) ^ lanes.length * (macRow scale lanes limbs carry).2 =
        value lanes + scale * value limbs + carry := by
  induction lanes generalizing limbs carry with
  | nil =>
    rw [List.eq_nil_of_length_eq_zero length.symm]
    exact ⟨rfl, inRange_replicate 0, by simp [macRow]⟩
  | cons lane lanes ih =>
    cases limbs with
    | nil => simp at length
    | cons limb limbs =>
      obtain ⟨same, small, row⟩ := @ih limbs (by simpa using length)
        ((lane + scale * limb + carry) / 2 ^ 64)
      simp only [macRow]
      refine ⟨by rw [List.length_cons, List.length_cons, same],
        List.forall_mem_cons.mpr ⟨Nat.mod_lt _ (by norm_num), small⟩, ?_⟩
      have parts := Nat.mod_add_div (lane + scale * limb + carry) (2 ^ 64)
      simp only [value, Nat.ofDigits_cons, List.length_cons, pow_succ'] at row ⊢
      linear_combination parts + 2 ^ 64 * row

/-- The low limb is the value's residue. -/
theorem getD_zero_eq_mod {a : List ℕ} (small : InRange a) : a.getD 0 0 = value a % 2 ^ 64 := by
  cases a with
  | nil => rfl
  | cons limb rest =>
    rw [value, Nat.ofDigits_cons, Nat.add_mul_mod_self_left]
    exact (Nat.mod_eq_of_lt (small limb List.mem_cons_self)).symm

/-- Five lanes in range, below twice the modulus, with what they have gathered. -/
structure Lanes (t : List ℕ) (gathered : ℕ) : Prop where
  length_eq : t.length = 5
  inRange : InRange t
  value_eq : value t = gathered

/-- A round adds a limb's multiple and a multiple of the modulus, and divides by
the limb. -/
theorem montStep_spec {a t : List ℕ} {b gathered : ℕ} (aLength : a.length = 4)
    (aBelow : value a < frModulus) (bSmall : b < 2 ^ 64) (lanes : Lanes t gathered)
    (bound : gathered < 2 * frModulus) :
    ∃ gathered' m, Lanes (montStep a t b) gathered' ∧ gathered' < 2 * frModulus ∧
      2 ^ 64 * gathered' = gathered + b * value a + m * frModulus := by
  obtain ⟨tLength, tSmall, tValue⟩ := lanes
  have takeLength : (t.take 4).length = 4 := by rw [List.length_take, tLength]; rfl
  obtain ⟨rowLength, rowSmall, row⟩ := @macRow_spec b (t.take 4) a (takeLength.trans aLength.symm) 0
  obtain ⟨outLength, outSmall, out⟩ := @macRow_spec ((macRow b (t.take 4) a 0).1.getD 0 0 * inv % 2 ^ 64)
    (macRow b (t.take 4) a 0).1 modulus (rowLength.trans takeLength) 0
  have split : value t = value (t.take 4) + (2 ^ 64) ^ 4 * t.getD 4 0 := by
    have last : t.drop 4 = [t.getD 4 0] := by
      rw [List.getD_eq_getElem?_getD, List.getElem?_eq_getElem (by omega), Option.getD_some,
        List.drop_eq_getElem_cons (by omega), List.drop_eq_nil_of_le (by omega)]
    conv_lhs => rw [← List.take_append_drop 4 t]
    rw [value, Nat.ofDigits_append, last, Nat.ofDigits_singleton, takeLength]
  have low := getD_zero_eq_mod rowSmall
  simp only [montStep]
  rw [takeLength] at row rowLength
  rw [rowLength] at out outLength
  generalize macRow b (t.take 4) a 0 = first at row rowSmall rowLength low out outLength outSmall ⊢
  generalize mEq : first.1.getD 0 0 * inv % 2 ^ 64 = m at out outLength outSmall ⊢
  generalize macRow m first.1 modulus 0 = second at out outLength outSmall ⊢
  have mSmall : m < 2 ^ 64 := mEq ▸ Nat.mod_lt _ (by norm_num)
  rw [value_modulus] at out
  -- the low lane cancels
  have cancels : (value first.1 + m * frModulus) % 2 ^ 64 = 0 := by
    rw [← mEq, low, Nat.add_mod, Nat.mul_mod, Nat.mod_mod, ← Nat.mul_mod, mul_assoc,
      Nat.mul_mod, Nat.mod_mod, ← Nat.mul_mod, ← Nat.add_mod,
      show value first.1 + value first.1 * (inv * frModulus) =
        value first.1 * (1 + inv * frModulus) by ring, Nat.mul_mod,
      show (1 + inv * frModulus) % 2 ^ 64 = 0 by norm_num [inv, frModulus], mul_zero,
      Nat.zero_mod]
  obtain ⟨head, rest, secondEq⟩ : ∃ head rest, second.1 = head :: rest := by
    cases shape : second.1 with
    | nil => rw [shape] at outLength; simp at outLength
    | cons head rest => exact ⟨head, rest, rfl⟩
  have headZero : head = 0 := by
    have headEq := getD_zero_eq_mod outSmall
    rw [secondEq, List.getD_cons_zero] at headEq
    rw [headEq, ← secondEq]
    have same : (value second.1 + (2 ^ 64) ^ 4 * second.2) % 2 ^ 64 = 0 := by
      rw [out, add_zero, cancels]
    omega
  rw [secondEq, headZero] at outSmall outLength out
  rw [secondEq, List.drop_one, List.tail_cons]
  have restSmall : InRange rest := fun limb member => outSmall limb (List.mem_cons_of_mem _ member)
  have restLength : rest.length = 3 := by simpa using outLength
  rw [value, Nat.ofDigits_cons] at out
  -- the lanes of the round's end
  have topParts := Nat.mod_add_div (t.getD 4 0 + first.2) (2 ^ 64)
  generalize (t.getD 4 0 + first.2) % 2 ^ 64 = topLow at topParts ⊢
  generalize (t.getD 4 0 + first.2) / 2 ^ 64 = topHigh at topParts ⊢
  have lastParts := Nat.mod_add_div (topLow + second.2) (2 ^ 64)
  have lastSmall : (topLow + second.2) % 2 ^ 64 < 2 ^ 64 := Nat.mod_lt _ (by norm_num)
  generalize (topLow + second.2) % 2 ^ 64 = lastLow at lastParts lastSmall ⊢
  generalize (topLow + second.2) / 2 ^ 64 = lastHigh at lastParts ⊢
  have gatheredEq : value (rest ++ [lastLow, topHigh + lastHigh]) =
      value rest + (2 ^ 64) ^ 3 * (lastLow + 2 ^ 64 * (topHigh + lastHigh)) := by
    rw [value, Nat.ofDigits_append, restLength]
    rw [Nat.ofDigits_cons, Nat.ofDigits_singleton]
  have total : 2 ^ 64 * value (rest ++ [lastLow, topHigh + lastHigh]) =
      gathered + b * value a + m * frModulus := by
    rw [gatheredEq, ← tValue, split]
    simp only [value] at out row ⊢
    push_cast at out
    linear_combination out + row + (2 ^ 64) ^ 4 * (topParts + lastParts)
  have small : value (rest ++ [lastLow, topHigh + lastHigh]) < 2 * frModulus := by
    have product : b * value a ≤ (2 ^ 64 - 1) * value a := Nat.mul_le_mul_right _ (by omega)
    have multiple : m * frModulus ≤ (2 ^ 64 - 1) * frModulus := Nat.mul_le_mul_right _ (by omega)
    omega
  refine ⟨_, m, ⟨by simp [restLength], ?_, rfl⟩, small, total⟩
  refine List.forall_mem_append.mpr ⟨restSmall, ?_⟩
  simp only [List.forall_mem_cons, List.not_mem_nil, IsEmpty.forall_iff, implies_true, and_true]
  refine ⟨lastSmall, ?_⟩
  have modulusBelow : 2 * frModulus < (2 ^ 64) ^ 4 := by norm_num [frModulus]
  rw [gatheredEq] at small
  have restBelow := value_lt restSmall
  omega

/-- The rounds divide by the limbs' power. -/
theorem rounds_spec {a t b : List ℕ} {gathered : ℕ} (aLength : a.length = 4)
    (aBelow : value a < frModulus) (bSmall : InRange b) (lanes : Lanes t gathered)
    (bound : gathered < 2 * frModulus) :
    ∃ gathered' m, Lanes (b.foldl (montStep a) t) gathered' ∧ gathered' < 2 * frModulus ∧
      (2 ^ 64) ^ b.length * gathered' = gathered + value b * value a + m * frModulus := by
  induction b generalizing t gathered with
  | nil => exact ⟨gathered, 0, lanes, bound, by simp⟩
  | cons limb b ih =>
    obtain ⟨first, m, firstLanes, firstBound, step⟩ :=
      montStep_spec aLength aBelow (bSmall limb List.mem_cons_self) lanes bound
    obtain ⟨last, n, lastLanes, lastBound, rest⟩ :=
      ih (fun other member => bSmall other (List.mem_cons_of_mem _ member)) firstLanes firstBound
    refine ⟨last, m + 2 ^ 64 * n, lastLanes, lastBound, ?_⟩
    simp only [value, Nat.ofDigits_cons, List.length_cons, pow_succ'] at rest step ⊢
    linear_combination step + 2 ^ 64 * rest

theorem radix_ne_zero : ((2 ^ 256 : ℕ) : Fr) ≠ 0 := by
  intro zero
  have divides := (ZMod.natCast_eq_zero_iff (2 ^ 256) frModulus).mp zero
  exact absurd (Nat.Prime.dvd_of_dvd_pow frModulus_prime divides) (by norm_num [frModulus])

theorem montMul_spec {a b : List ℕ} (aLength : a.length = 4) (aBelow : value a < frModulus)
    (bLength : b.length = 4) (bSmall : InRange b) :
    (montMul a b).length = 4 ∧ InRange (montMul a b) ∧ value (montMul a b) < frModulus ∧
      ((value (montMul a b) : ℕ) : Fr) =
        ((value a : ℕ) : Fr) * ((value b : ℕ) : Fr) * (((2 ^ 256 : ℕ) : Fr))⁻¹ := by
  have start : Lanes (List.replicate 5 0) 0 :=
    ⟨List.length_replicate, inRange_replicate 5, by rw [value, Nat.ofDigits_replicate_zero]⟩
  obtain ⟨gathered, m, lanes, bound, total⟩ :=
    rounds_spec aLength aBelow bSmall start (by norm_num [frModulus])
  rw [bLength] at total
  rw [montMul]
  generalize b.foldl (montStep a) (List.replicate 5 0) = t at lanes ⊢
  obtain ⟨tLength, tSmall, tValue⟩ := lanes
  -- the fifth lane is empty
  have takeSmall : InRange (t.take 4) := fun limb member => tSmall limb (List.mem_of_mem_take member)
  have takeLength : (t.take 4).length = 4 := by rw [List.length_take, tLength]; rfl
  have same : value (t.take 4) = gathered := by
    have taken := Nat.ofDigits_mod_pow_eq_ofDigits_take 4 (show 0 < 2 ^ 64 by norm_num) t tSmall
    rw [value, ← taken, ← value, tValue]
    exact Nat.mod_eq_of_lt (lt_trans bound (by norm_num [frModulus]))
  obtain ⟨length, small, below, spelled⟩ := reduceOnce_spec takeLength takeSmall (same ▸ bound)
  refine ⟨length, small, below, ?_⟩
  rw [spelled, same, eq_mul_inv_iff_mul_eq₀ radix_ne_zero]
  have cast := congrArg (fun n : ℕ => (n : Fr)) total
  simp only [Nat.cast_add, Nat.cast_mul, ZMod.natCast_self, mul_zero, add_zero, zero_add,
    ← pow_mul] at cast
  rw [mul_comm, mul_comm ((value a : ℕ) : Fr)]
  exact cast

end Limbs

/-- A field element as it lies in memory. -/
structure Element where
  limbs : List ℕ
  length_eq : limbs.length = 4
  inRange : InRange limbs
  reduced : value limbs < frModulus

namespace Element

/-- The field element the limbs spell: the represented value times `2^256`. -/
def stored (x : Element) : Fr := ((value x.limbs : ℕ) : Fr)

@[ext]
theorem ext {x y : Element} (same : x.limbs = y.limbs) : x = y := by
  cases x
  cases y
  congr

instance : DecidableEq Element := fun x y => decidable_of_iff (x.limbs = y.limbs)
  ⟨ext, congrArg limbs⟩

/-- Limbs are told apart by the element they spell. -/
theorem stored_injective {x y : Element} (same : x.stored = y.stored) : x = y := by
  refine ext (eq_of_value (x.length_eq.trans y.length_eq.symm) x.inRange y.inRange ?_)
  rw [← ZMod.val_natCast_of_lt x.reduced, ← ZMod.val_natCast_of_lt y.reduced]
  exact congrArg ZMod.val same

theorem addLimbs_spec (x y : Element) :
    (addLimbs x.limbs y.limbs).length = 4 ∧ InRange (addLimbs x.limbs y.limbs) ∧
      value (addLimbs x.limbs y.limbs) < frModulus ∧
      ((value (addLimbs x.limbs y.limbs) : ℕ) : Fr) = x.stored + y.stored := by
  obtain ⟨length, small, total⟩ := addFrom_spec (x.length_eq.trans y.length_eq.symm) 0
  rw [x.length_eq] at length total
  have xBelow := x.reduced
  have yBelow := y.reduced
  have fits : 2 * frModulus < (2 ^ 64) ^ 4 := by norm_num [frModulus]
  have none : (addFrom x.limbs y.limbs 0).2 = 0 := by
    by_contra some
    have atLeast := Nat.mul_le_mul_left ((2 ^ 64) ^ 4) (Nat.one_le_iff_ne_zero.mpr some)
    omega
  rw [none, mul_zero, add_zero, add_zero] at total
  obtain ⟨sumLength, sumSmall, below, spelled⟩ := reduceOnce_spec length small (by omega)
  refine ⟨sumLength, sumSmall, below, ?_⟩
  rw [addLimbs, spelled, total, Nat.cast_add]
  rfl

/-- The additive identity. -/
def zero : Element where
  limbs := [0, 0, 0, 0]
  length_eq := rfl
  inRange := by simp [InRange]
  reduced := by norm_num [value, Nat.ofDigits, frModulus]

/-- The multiplicative identity. -/
def one : Element where
  limbs := radix
  length_eq := rfl
  inRange := by simp [InRange, radix]
  reduced := by norm_num [value, Nat.ofDigits, radix, frModulus]

def add (x y : Element) : Element :=
  have spec := addLimbs_spec x y
  ⟨addLimbs x.limbs y.limbs, spec.1, spec.2.1, spec.2.2.1⟩

def mul (x y : Element) : Element :=
  have spec := montMul_spec x.length_eq x.reduced y.length_eq y.inRange
  ⟨montMul x.limbs y.limbs, spec.1, spec.2.1, spec.2.2.1⟩

def square (x : Element) : Element := x.mul x

/-- A power, the exponent by its limbs: a square a bit, from the top bit down. -/
def pow (x : Element) (exp : List ℕ) : Element :=
  exp.reverse.foldl (fun acc limb =>
    (List.range 64).reverse.foldl (fun acc bit =>
      if limb / 2 ^ bit % 2 = 1 then acc.square.mul x else acc.square) acc) one

/-- The inverse, by Fermat; zero has none. -/
def inverse (x : Element) : Option Element :=
  if x = zero then none else some (x.pow modulusMinusTwo)

@[simp]
theorem stored_zero : zero.stored = 0 := by
  simp [stored, zero, value, Nat.ofDigits]

@[simp]
theorem stored_one : one.stored = ((2 ^ 256 : ℕ) : Fr) := by
  have split : 2 ^ 256 = value radix + 5 * frModulus := by
    norm_num [value, radix, Nat.ofDigits, frModulus]
  rw [split, Nat.cast_add, Nat.cast_mul, ZMod.natCast_self, mul_zero, add_zero]
  rfl

theorem stored_add (x y : Element) : (x.add y).stored = x.stored + y.stored :=
  (addLimbs_spec x y).2.2.2

theorem stored_mul (x y : Element) :
    (x.mul y).stored = x.stored * y.stored * (((2 ^ 256 : ℕ) : Fr))⁻¹ :=
  (montMul_spec x.length_eq x.reduced y.length_eq y.inRange).2.2.2

/-- The represented value. -/
def represented (x : Element) : Fr := x.stored * (((2 ^ 256 : ℕ) : Fr))⁻¹

theorem stored_eq (x : Element) : x.stored = x.represented * ((2 ^ 256 : ℕ) : Fr) := by
  rw [represented, inv_mul_cancel_right₀ radix_ne_zero]

theorem represented_one : one.represented = 1 := by
  rw [represented, stored_one, mul_inv_cancel₀ radix_ne_zero]

theorem represented_mul (x y : Element) :
    (x.mul y).represented = x.represented * y.represented := by
  rw [represented, stored_mul, represented, represented]
  ring

/-- The low bits of an exponent's limb, taken from the top down. -/
theorem represented_bits (x acc : Element) (limb count : ℕ) :
    ((List.range count).reverse.foldl (fun acc bit =>
      if limb / 2 ^ bit % 2 = 1 then acc.square.mul x else acc.square) acc).represented =
        acc.represented ^ 2 ^ count * x.represented ^ (limb % 2 ^ count) := by
  induction count generalizing acc with
  | zero => simp [Nat.mod_one]
  | succ count ih =>
    rw [List.range_succ, List.reverse_append, List.reverse_singleton, List.singleton_append,
      List.foldl_cons, ih, pow_succ 2 count, Nat.mod_mul]
    by_cases bit : limb / 2 ^ count % 2 = 1
    · rw [if_pos bit, bit, represented_mul, square, represented_mul]
      ring
    · rw [if_neg bit, show limb / 2 ^ count % 2 = 0 by omega, square, represented_mul]
      ring

theorem represented_pow (x : Element) {exp : List ℕ} (small : InRange exp) :
    (x.pow exp).represented = x.represented ^ value exp := by
  induction exp with
  | nil => simp [pow, represented_one, value]
  | cons limb exp ih =>
    have rest := ih fun other member => small other (List.mem_cons_of_mem _ member)
    have limbs : value (limb :: exp) = value exp * 2 ^ 64 + limb := by
      rw [value, Nat.ofDigits_cons, add_comm, mul_comm]
    rw [pow] at rest ⊢
    rw [List.reverse_cons, List.foldl_append, List.foldl_cons, List.foldl_nil, represented_bits,
      rest, Nat.mod_eq_of_lt (small limb List.mem_cons_self), limbs, ← pow_mul, ← pow_add]

/-- The inverse spells the square of the radix times the inverse. -/
theorem stored_inverse (x : Element) :
    (x.stored = 0 → x.inverse = none) ∧ (x.stored ≠ 0 → ∃ y, x.inverse = some y ∧
      y.stored = ((2 ^ 256 : ℕ) : Fr) ^ 2 * x.stored⁻¹) := by
  refine ⟨fun isZero => if_pos (stored_injective (isZero.trans stored_zero.symm)), ?_⟩
  intro nonzero
  refine ⟨x.pow modulusMinusTwo, if_neg fun same => nonzero (by rw [same, stored_zero]), ?_⟩
  have exponent : value modulusMinusTwo = frModulus - 2 := by
    norm_num [value, modulusMinusTwo, Nat.ofDigits, frModulus]
  have unit : x.represented ≠ 0 := by
    rw [represented]
    exact mul_ne_zero nonzero (inv_ne_zero radix_ne_zero)
  have fermat := ZMod.pow_card_sub_one_eq_one unit
  have inverse : x.represented ^ (frModulus - 2) = x.represented⁻¹ := by
    refine eq_inv_of_mul_eq_one_left ?_
    rw [← pow_succ, ← fermat]
    congr 1
    norm_num [frModulus]
  rw [stored_eq, represented_pow x (by simp [InRange, modulusMinusTwo]), exponent, inverse,
    represented, mul_inv, inv_inv]
  ring

/-- A 32-bit word of the element in memory, low first. -/
def memoryWord (x : Element) (k : ℕ) : ℕ := x.limbs.getD (k / 2) 0 / 2 ^ (32 * (k % 2)) % 2 ^ 32

/-- The words in memory are the limbs of the value. -/
theorem memoryWord_eq (x : Element) {k : ℕ} (inside : k < 8) :
    x.memoryWord k = limbAt (2 ^ 32) (value x.limbs) k := by
  have limb : x.limbs.getD (k / 2) 0 = value x.limbs / (2 ^ 64) ^ (k / 2) % 2 ^ 64 := by
    have limbs := limbs_ofDigits x.inRange
    rw [x.length_eq] at limbs
    conv_lhs => rw [← limbs]
    exact getD_limbs 4 _ _ (by omega)
  rw [memoryWord, limb, limbAt]
  generalize value x.limbs = n
  have halves : (2 ^ 32) ^ k = (2 ^ 64) ^ (k / 2) * 2 ^ (32 * (k % 2)) := by
    rw [← pow_mul, ← pow_mul, ← pow_add]
    congr 1
    omega
  rw [halves, ← Nat.div_div_eq_div_mul]
  generalize n / (2 ^ 64) ^ (k / 2) = m
  have parity : k % 2 = 0 ∨ k % 2 = 1 := by omega
  rcases parity with even | odd
  · rw [even]
    omega
  · rw [odd]
    omega

/-- The element with a value. -/
def ofValue (n : ℕ) (below : n < frModulus) : Element where
  limbs := Math.limbs (2 ^ 64) 4 n
  length_eq := length_limbs 4 n
  inRange := limbs_lt (by norm_num) 4 n
  reduced := by
    rw [value, ofDigits_limbs_of_lt (lt_trans below (by norm_num [frModulus]))]
    exact below

theorem value_ofValue (n : ℕ) (below : n < frModulus) : value (ofValue n below).limbs = n :=
  ofDigits_limbs_of_lt (lt_trans below (by norm_num [frModulus]))

end Element

end Apogee.Montgomery
