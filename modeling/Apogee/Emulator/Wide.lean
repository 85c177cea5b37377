import Apogee.Math.LimbChains

/-! # The executor's wide arithmetic

Values of several 32-bit limbs in wider lanes, low first: comparison from the
top limb, a schoolbook product carried lane by lane, and long division by shift
and subtract. Each agrees with the arithmetic of the values.
-/

namespace Apogee.Emulator.Wide

/-- The lanes' base. -/
def base : ℕ := 2 ^ 32

/-- Whether one value is below another, by limbs from the top. -/
def lessThanFrom : List ℕ → List ℕ → Bool
  | a :: as, b :: bs => if a ≠ b then a < b else lessThanFrom as bs
  | _, _ => false

/-- Whether `a < b` over little-endian limbs of one length. -/
def lessThan (a b : List ℕ) : Bool := lessThanFrom a.reverse b.reverse

/-- A carry taken up the lanes as far as it goes. -/
def propagate : List ℕ → ℕ → List ℕ
  | lane :: lanes, carry =>
    if carry ≠ 0 then (lane + carry) % base :: propagate lanes ((lane + carry) / base)
    else lane :: lanes
  | [], _ => []

/-- One row of the product: `scale` times the limbs, added to the lanes. -/
def addScaled (scale : ℕ) : List ℕ → List ℕ → ℕ → List ℕ
  | lane :: lanes, limb :: limbs, carry =>
    let total := lane + scale * limb + carry
    total % base :: addScaled scale lanes limbs (total / base)
  | lanes, _, carry => propagate lanes carry

/-- The product's lanes, one row for each limb of `a`. -/
def product (a b : List ℕ) : List ℕ :=
  (List.range a.length).foldl
    (fun lanes i => lanes.take i ++ addScaled (a.getD i 0) (lanes.drop i) b 0)
    (List.replicate (a.length + b.length) 0)

/-- The lanes doubled with a bit shifted in, and the bit shifted out. -/
def shiftIn : List ℕ → ℕ → List ℕ × ℕ
  | [], carry => ([], carry)
  | word :: words, carry =>
    let total := word <<< 1 ||| carry
    let (rest, out) := shiftIn words (total / base)
    (total % base :: rest, out)

/-- The lanes less the modulus's, under a borrow. -/
def subtract : List ℕ → List ℕ → ℤ → List ℕ
  | word :: words, m :: ms, borrow =>
    let diff : ℤ := word - m - borrow
    (diff + if diff < 0 then 2 ^ 32 else 0).toNat ::
      subtract words ms (if diff < 0 then 1 else 0)
  | _, _, _ => []

/-- One step of the division: the remainder doubles, takes the bit, and the
modulus is subtracted once if it fits. -/
def reduceStep (lanes m rem : List ℕ) (bit : ℕ) : List ℕ :=
  let (shifted, carry) := shiftIn rem (lanes.getD (bit / 32) 0 >>> (bit % 32) &&& 1)
  if carry = 1 ∨ ¬lessThan shifted m then subtract shifted m 0 else shifted

/-- The lanes modulo `m`, bit by bit from the top. -/
def reduce (lanes m : List ℕ) : List ℕ :=
  (List.range (32 * lanes.length)).reverse.foldl (reduceStep lanes m)
    (List.replicate m.length 0)

/-- The value of a list of limbs. -/
abbrev value (limbs : List ℕ) : ℕ := Nat.ofDigits base limbs

/-- Every lane holds a limb. -/
def InRange (limbs : List ℕ) : Prop := ∀ limb ∈ limbs, limb < base

theorem value_lt {limbs : List ℕ} (small : InRange limbs) : value limbs < base ^ limbs.length :=
  Nat.ofDigits_lt_base_pow_length (by norm_num [base]) small

/-- A lane is the value's limb there. -/
theorem getD_eq_limb {limbs : List ℕ} (small : InRange limbs) {k : ℕ} (inside : k < limbs.length) :
    limbs.getD k 0 = value limbs / base ^ k % base := by
  rw [← @Math.getD_limbs base limbs.length (value limbs) k inside, Math.limbs_ofDigits small]

section Compare

theorem lessThanFrom_iff {a b : List ℕ} (length : a.length = b.length) (aSmall : InRange a)
    (bSmall : InRange b) :
    lessThanFrom a b = true ↔ value a.reverse < value b.reverse := by
  induction a generalizing b with
  | nil =>
    rw [List.eq_nil_of_length_eq_zero length.symm]
    simp [lessThanFrom]
  | cons x a ih =>
    cases b with
    | nil => simp at length
    | cons y b =>
      have same : a.length = b.length := by simpa using length
      have aRest : InRange a := fun limb member => aSmall limb (List.mem_cons_of_mem x member)
      have bRest : InRange b := fun limb member => bSmall limb (List.mem_cons_of_mem y member)
      have aBelow : value a.reverse < base ^ b.length := by
        rw [← same, ← a.length_reverse]
        exact value_lt fun limb member => aRest limb (List.mem_reverse.mp member)
      have bBelow : value b.reverse < base ^ b.length := by
        rw [← b.length_reverse]
        exact value_lt fun limb member => bRest limb (List.mem_reverse.mp member)
      simp only [value, List.reverse_cons, Nat.ofDigits_append, Nat.ofDigits_singleton,
        List.length_reverse, same] at aBelow bBelow ⊢
      rw [lessThanFrom]
      by_cases equal : x = y
      · rw [if_neg (by simpa using equal), ih same aRest bRest, equal]
        exact (Nat.add_lt_add_iff_right).symm
      · rw [if_pos equal, decide_eq_true_iff]
        -- the top limb decides: a step there outweighs everything below
        have outweighs {s t : ℕ} (below : s < t) :
            base ^ b.length * s + base ^ b.length ≤ base ^ b.length * t := by
          rw [← Nat.mul_succ]
          exact Nat.mul_le_mul_left _ below
        constructor
        · intro below
          have gap := outweighs below
          omega
        · intro below
          by_contra above
          have gap := outweighs (show y < x by omega)
          omega

/-- The comparison is the values' order. -/
theorem lessThan_iff {a b : List ℕ} (length : a.length = b.length) (aSmall : InRange a)
    (bSmall : InRange b) : lessThan a b = true ↔ value a < value b := by
  rw [lessThan, lessThanFrom_iff (by simpa using length)
    (fun limb member => aSmall limb (List.mem_reverse.mp member))
    (fun limb member => bSmall limb (List.mem_reverse.mp member)),
    List.reverse_reverse, List.reverse_reverse]

end Compare

section Product

@[simp]
theorem length_propagate (lanes : List ℕ) (carry : ℕ) :
    (propagate lanes carry).length = lanes.length := by
  induction lanes generalizing carry with
  | nil => rfl
  | cons lane lanes ih =>
    rw [propagate]
    split_ifs
    · simp [ih]
    · rfl

@[simp]
theorem length_addScaled (scale : ℕ) (lanes limbs : List ℕ) (carry : ℕ) :
    (addScaled scale lanes limbs carry).length = lanes.length := by
  induction lanes generalizing limbs carry with
  | nil => cases limbs <;> rfl
  | cons lane lanes ih =>
    cases limbs with
    | nil => exact length_propagate (lane :: lanes) carry
    | cons limb limbs => simp [addScaled, ih]

theorem inRange_propagate {lanes : List ℕ} (small : InRange lanes) (carry : ℕ) :
    InRange (propagate lanes carry) := by
  induction lanes generalizing carry with
  | nil => exact small
  | cons lane lanes ih =>
    rw [propagate]
    split_ifs
    · exact List.forall_mem_cons.mpr ⟨Nat.mod_lt _ (by norm_num [base]),
        ih (fun limb member => small limb (List.mem_cons_of_mem _ member)) _⟩
    · exact small

theorem inRange_addScaled {lanes : List ℕ} (small : InRange lanes) (scale : ℕ) (limbs : List ℕ)
    (carry : ℕ) : InRange (addScaled scale lanes limbs carry) := by
  induction lanes generalizing limbs carry with
  | nil => cases limbs <;> exact small
  | cons lane lanes ih =>
    cases limbs with
    | nil => exact inRange_propagate small carry
    | cons limb limbs =>
      exact List.forall_mem_cons.mpr ⟨Nat.mod_lt _ (by norm_num [base]),
        ih (fun limb member => small limb (List.mem_cons_of_mem _ member)) _ _⟩

/-- A carry that stays inside the lanes adds to their value. -/
theorem value_propagate {lanes : List ℕ} {carry : ℕ}
    (fits : value lanes + carry < base ^ lanes.length) :
    value (propagate lanes carry) = value lanes + carry := by
  induction lanes generalizing carry with
  | nil => simp_all [propagate]
  | cons lane lanes ih =>
    rw [propagate]
    by_cases none : carry = 0
    · simp [none]
    · rw [if_pos none]
      simp only [value, Nat.ofDigits_cons, List.length_cons, pow_succ'] at fits ⊢
      have parts := Nat.mod_add_div (lane + carry) base
      have rest := @ih ((lane + carry) / base) (by
        refine lt_of_mul_lt_mul_left ?_ (Nat.zero_le base)
        simp only [value, Nat.mul_add]
        omega)
      simp only [value] at rest
      rw [rest, Nat.mul_add]
      omega

/-- A row that stays inside the lanes adds the scaled limbs to their value. -/
theorem value_addScaled {scale : ℕ} {lanes limbs : List ℕ} {carry : ℕ}
    (short : limbs.length ≤ lanes.length)
    (fits : value lanes + scale * value limbs + carry < base ^ lanes.length) :
    value (addScaled scale lanes limbs carry) = value lanes + scale * value limbs + carry := by
  induction lanes generalizing limbs carry with
  | nil =>
    rw [List.eq_nil_of_length_eq_zero (Nat.le_zero.mp short)] at fits ⊢
    simp_all [addScaled, propagate]
  | cons lane lanes ih =>
    cases limbs with
    | nil => simpa [addScaled] using value_propagate (by simpa using fits)
    | cons limb limbs =>
      simp only [addScaled, value, Nat.ofDigits_cons, List.length_cons, pow_succ'] at fits ⊢
      have parts := Nat.mod_add_div (lane + scale * limb + carry) base
      have scaled : scale * (limb + base * Nat.ofDigits base limbs) =
          scale * limb + base * (scale * Nat.ofDigits base limbs) := by ring
      rw [scaled] at fits ⊢
      have rest := @ih limbs ((lane + scale * limb + carry) / base) (by simpa using short) (by
        refine lt_of_mul_lt_mul_left ?_ (Nat.zero_le base)
        simp only [value, Nat.mul_add]
        omega)
      simp only [value] at rest
      rw [rest, Nat.mul_add, Nat.mul_add]
      omega

/-- The lanes after some rows hold the product by that many limbs. -/
theorem product_rows {a b : List ℕ} (aSmall : InRange a) (bSmall : InRange b) {count : ℕ}
    (few : count ≤ a.length) :
    let lanes := (List.range count).foldl
      (fun lanes i => lanes.take i ++ addScaled (a.getD i 0) (lanes.drop i) b 0)
      (List.replicate (a.length + b.length) 0)
    lanes.length = a.length + b.length ∧ InRange lanes ∧
      value lanes = value (a.take count) * value b := by
  induction count with
  | zero =>
    refine ⟨by simp, ?_, ?_⟩
    · intro limb member
      rw [List.eq_of_mem_replicate member]
      norm_num [base]
    · simp [value, Nat.ofDigits_replicate_zero]
  | succ count ih =>
    obtain ⟨length, small, total⟩ := ih (by omega)
    rw [List.range_succ, List.foldl_append, List.foldl_cons, List.foldl_nil]
    generalize (List.range count).foldl _ _ = lanes at length small total ⊢
    have inside : count < a.length := few
    have limbEq : a.getD count 0 = a[count] := by simp [inside]
    have grown : value (a.take (count + 1)) = value (a.take count) + base ^ count * a[count] :=
      Math.ofDigits_take_succ inside
    have split : value lanes = value (lanes.take count) + base ^ count * value (lanes.drop count) :=
      Math.ofDigits_split (by omega)
    have target : value (a.take (count + 1)) * value b =
        value lanes + base ^ count * (a[count] * value b) := by
      rw [grown, total]
      ring
    have room : value (a.take (count + 1)) * value b < base ^ (a.length + b.length) := by
      have short : InRange (a.take (count + 1)) := fun limb member =>
        aSmall limb (List.mem_of_mem_take member)
      rw [pow_add]
      refine Nat.mul_lt_mul'' (lt_of_lt_of_le (value_lt short) ?_) (value_lt bSmall)
      exact Nat.pow_le_pow_right (by norm_num [base]) (by simp)
    have row : value (addScaled (a.getD count 0) (lanes.drop count) b 0) =
        value (lanes.drop count) + a[count] * value b := by
      rw [value_addScaled (by rw [List.length_drop]; omega), limbEq, add_zero]
      rw [limbEq, add_zero, List.length_drop, length]
      refine lt_of_mul_lt_mul_left ?_ (Nat.zero_le (base ^ count))
      rw [← pow_add, Nat.add_sub_cancel' (by omega)]
      refine lt_of_le_of_lt ?_ room
      rw [target, split]
      have nonneg := Nat.zero_le (value (lanes.take count))
      rw [Nat.mul_add]
      omega
    refine ⟨?_, ?_, ?_⟩
    · rw [List.length_append, length_addScaled, ← List.length_append, List.take_append_drop,
        length]
    · exact List.forall_mem_append.mpr ⟨fun limb member => small limb (List.mem_of_mem_take member),
          inRange_addScaled (fun limb member => small limb (List.mem_of_mem_drop member)) _ _ _⟩
    · rw [value, Nat.ofDigits_append, List.length_take, min_eq_left (by omega), target, split]
      simp only [value] at row ⊢
      rw [row]
      ring

/-- The product's lanes hold the product. -/
theorem value_product {a b : List ℕ} (aSmall : InRange a) (bSmall : InRange b) :
    (product a b).length = a.length + b.length ∧ InRange (product a b) ∧
      value (product a b) = value a * value b := by
  have rows := product_rows aSmall bSmall (le_refl a.length)
  rw [List.take_length] at rows
  exact rows

end Product

section Reduce

/-- A shift doubles the value and takes the bit; what leaves is a bit. -/
theorem shiftIn_value {rem : List ℕ} (small : InRange rem) {carry : ℕ} (bit : carry < 2) :
    (shiftIn rem carry).1.length = rem.length ∧ InRange (shiftIn rem carry).1 ∧
      (shiftIn rem carry).2 < 2 ∧
      value (shiftIn rem carry).1 + base ^ rem.length * (shiftIn rem carry).2 =
        2 * value rem + carry := by
  induction rem generalizing carry with
  | nil => exact ⟨rfl, small, bit, by simp [shiftIn]⟩
  | cons word rem ih =>
    have first : word < base := small word List.mem_cons_self
    have total : word <<< 1 ||| carry = 2 * word + carry := by
      rw [← Nat.shiftLeft_add_eq_or_of_lt (i := 1) bit]
      rw [Nat.shiftLeft_eq]
      ring
    have out : (2 * word + carry) / base < 2 :=
      (Nat.div_lt_iff_lt_mul (by norm_num [base])).mpr (by omega)
    obtain ⟨length, range, outBit, rest⟩ :=
      ih (fun limb member => small limb (List.mem_cons_of_mem _ member)) out
    simp only [shiftIn, total]
    refine ⟨by simp [length], List.forall_mem_cons.mpr
      ⟨Nat.mod_lt _ (by norm_num [base]), range⟩, outBit, ?_⟩
    have parts := Nat.mod_add_div (2 * word + carry) base
    simp only [value, Nat.ofDigits_cons, List.length_cons, pow_succ'] at rest ⊢
    linear_combination parts + base * rest

/-- A subtraction's value, modulo the borrow out. -/
theorem subtract_value {rem m : List ℕ} (length : rem.length = m.length) (remSmall : InRange rem)
    (mSmall : InRange m) {borrow : ℤ} (bit : borrow = 0 ∨ borrow = 1) :
    (subtract rem m borrow).length = m.length ∧ InRange (subtract rem m borrow) ∧
      ∃ out : ℤ, (value (subtract rem m borrow) : ℤ) =
        value rem - value m - borrow + base ^ m.length * out := by
  induction rem generalizing m borrow with
  | nil =>
    rw [List.eq_nil_of_length_eq_zero length.symm]
    exact ⟨rfl, by simp [subtract, InRange], borrow, by simp [subtract]⟩
  | cons word rem ih =>
    cases m with
    | nil => simp at length
    | cons limb m =>
      have wordSmall : word < base := remSmall word List.mem_cons_self
      have limbSmall : limb < base := mSmall limb List.mem_cons_self
      have remRest : InRange rem := fun other member =>
        remSmall other (List.mem_cons_of_mem _ member)
      have mRest : InRange m := fun other member => mSmall other (List.mem_cons_of_mem _ member)
      have width : (base : ℤ) = 2 ^ 32 := rfl
      have wide : base = 2 ^ 32 := rfl
      -- A lane borrows what makes it a digit, and the lanes above make up for it.
      have lanes : ∀ lent above : ℤ, (above = 0 ∨ above = 1) → lent = 2 ^ 32 * above →
          0 ≤ (word : ℤ) - limb - borrow + lent → (word : ℤ) - limb - borrow + lent < 2 ^ 32 →
          let digits := ((word : ℤ) - limb - borrow + lent).toNat :: subtract rem m above
          digits.length = (limb :: m).length ∧ InRange digits ∧
            ∃ out : ℤ, (value digits : ℤ) = value (word :: rem) - value (limb :: m) - borrow +
              base ^ (limb :: m).length * out := by
        intro lent above carried lentIs nonneg small
        obtain ⟨same, range, out, rest⟩ := ih (by simpa using length) remRest mRest carried
        have lane := Int.toNat_of_nonneg nonneg
        generalize ((word : ℤ) - limb - borrow + lent).toNat = digit at lane ⊢
        refine ⟨by simp [same], List.forall_mem_cons.mpr ⟨by omega, range⟩, out, ?_⟩
        simp only [value, Nat.ofDigits_cons, List.length_cons] at rest ⊢
        push_cast at rest ⊢
        rw [lane, rest, pow_succ', lentIs, width]
        ring
      rw [subtract]
      by_cases negative : (word : ℤ) - limb - borrow < 0
      · simp only [if_pos negative]
        exact lanes _ _ (Or.inr rfl) (by norm_num) (by omega) (by omega)
      · simp only [if_neg negative]
        exact lanes _ _ (Or.inl rfl) (by norm_num) (by omega) (by omega)

/-- A lane's bit is the value's. -/
theorem bit_of_lanes {lanes : List ℕ} (small : InRange lanes) {bit : ℕ}
    (inside : bit < 32 * lanes.length) :
    lanes.getD (bit / 32) 0 >>> (bit % 32) &&& 1 = value lanes / 2 ^ bit % 2 := by
  have place : bit / 32 < lanes.length := Nat.div_lt_of_lt_mul inside
  have lane := getD_eq_limb small place
  have power : 2 ^ bit = base ^ (bit / 32) * 2 ^ (bit % 32) := by
    rw [base, ← pow_mul, ← pow_add, Nat.div_add_mod]
  have low : bit % 32 + 1 ≤ 32 := Nat.mod_lt _ (by norm_num)
  have whole : base = 2 ^ (bit % 32) * (2 * 2 ^ (32 - (bit % 32 + 1))) := by
    rw [← mul_assoc, ← pow_succ, ← pow_add, Nat.add_sub_cancel' low, base]
  rw [lane, Nat.shiftRight_eq_div_pow, Nat.and_one_is_mod, power, ← Nat.div_div_eq_div_mul]
  generalize value lanes / base ^ (bit / 32) = high
  rw [whole, Nat.mod_mul_right_div_self, Nat.mod_mul_right_mod]

/-- A step takes the remainder of what stands above a bit to that of what stands
at it. -/
theorem reduceStep_value {lanes m rem : List ℕ} {bit : ℕ} (lanesSmall : InRange lanes)
    (mSmall : InRange m) (positive : 0 < value m) (inside : bit < 32 * lanes.length)
    (length : rem.length = m.length) (small : InRange rem)
    (above : value rem = value lanes / 2 ^ (bit + 1) % value m) :
    (reduceStep lanes m rem bit).length = m.length ∧ InRange (reduceStep lanes m rem bit) ∧
      value (reduceStep lanes m rem bit) = value lanes / 2 ^ bit % value m := by
  rw [reduceStep, bit_of_lanes lanesSmall inside]
  obtain ⟨shiftLength, shiftSmall, outBit, shifted⟩ :=
    shiftIn_value small (Nat.mod_lt (value lanes / 2 ^ bit) (show 0 < 2 by norm_num))
  have mBelow := value_lt mSmall
  have remBelow : value rem < value m := above ▸ Nat.mod_lt _ positive
  -- the remainder at the bit, before the subtraction
  have twice : value lanes / 2 ^ bit % value m =
      (2 * value rem + value lanes / 2 ^ bit % 2) % value m := by
    have parts := Nat.div_add_mod (value lanes / 2 ^ bit) 2
    conv_lhs => rw [← parts]
    rw [Nat.div_div_eq_div_mul, ← pow_succ, above]
    simp [Nat.add_mod, Nat.mul_mod]
  have bitSmall := Nat.mod_lt (value lanes / 2 ^ bit) (show 0 < 2 by norm_num)
  rw [twice]
  generalize value lanes / 2 ^ bit % 2 = low at shiftLength shiftSmall outBit shifted bitSmall ⊢
  generalize shiftIn rem low = shift at shiftLength shiftSmall outBit shifted ⊢
  have compare := lessThan_iff (shiftLength.trans length) shiftSmall mSmall
  rw [length] at shifted
  dsimp only
  by_cases fits : shift.2 = 1 ∨ ¬lessThan shift.1 m
  · rw [if_pos fits]
    obtain ⟨subLength, subSmall, out, difference⟩ :=
      subtract_value (shiftLength.trans length) shiftSmall mSmall (Or.inl rfl)
    refine ⟨subLength, subSmall, ?_⟩
    have atLeast : value m ≤ 2 * value rem + low := by
      rcases fits with carried | above
      · rw [carried] at shifted
        omega
      · rw [compare, not_lt] at above
        have nonneg := Nat.zero_le (base ^ m.length * shift.2)
        omega
    rw [Nat.mod_eq_sub_mod atLeast, Nat.mod_eq_of_lt (by omega)]
    -- both sides are below the lanes' power and differ by a multiple of it
    have subBelow := value_lt subSmall
    rw [subLength] at subBelow
    have congruent : (base ^ m.length : ℤ) ∣
        (value (subtract shift.1 m 0) : ℤ) - (2 * value rem + low - value m : ℕ) := by
      refine ⟨out - shift.2, ?_⟩
      have total : (value shift.1 : ℤ) + base ^ m.length * shift.2 = 2 * value rem + low := by
        exact_mod_cast shifted
      rw [difference, Nat.cast_sub atLeast, Nat.cast_add, Nat.cast_mul]
      linear_combination total
    have close := Int.eq_zero_of_abs_lt_dvd congruent (by
      have power : ((base ^ m.length : ℕ) : ℤ) = (base : ℤ) ^ m.length := by push_cast; rfl
      rw [abs_lt, ← power]
      omega)
    omega
  · rw [if_neg fits]
    refine ⟨shiftLength.trans length, shiftSmall, ?_⟩
    have none : shift.2 = 0 := by
      have := fun one => fits (Or.inl one)
      omega
    have below : value shift.1 < value m := compare.mp (by
      by_contra above
      exact fits (Or.inr above))
    rw [none, mul_zero, add_zero] at shifted
    rw [← shifted, Nat.mod_eq_of_lt below]

/-- The division's remainder is the value modulo the modulus. -/
theorem value_reduce {lanes m : List ℕ} (lanesSmall : InRange lanes) (mSmall : InRange m)
    (positive : 0 < value m) :
    (reduce lanes m).length = m.length ∧ InRange (reduce lanes m) ∧
      value (reduce lanes m) = value lanes % value m := by
  have steps (count : ℕ) (few : count ≤ 32 * lanes.length) (rem : List ℕ)
      (length : rem.length = m.length) (small : InRange rem)
      (above : value rem = value lanes / 2 ^ count % value m) :
      let final := (List.range count).reverse.foldl (reduceStep lanes m) rem
      final.length = m.length ∧ InRange final ∧ value final = value lanes % value m := by
    induction count generalizing rem with
    | zero => exact ⟨length, small, by simpa using above⟩
    | succ count ih =>
      obtain ⟨stepLength, stepSmall, stepValue⟩ :=
        reduceStep_value lanesSmall mSmall positive few length small above
      rw [List.range_succ, List.reverse_append, List.reverse_singleton, List.singleton_append,
        List.foldl_cons]
      exact ih (by omega) _ stepLength stepSmall stepValue
  refine steps _ le_rfl _ (by simp) ?_ ?_
  · intro limb member
    rw [List.eq_of_mem_replicate member]
    norm_num [base]
  · have below := value_lt lanesSmall
    rw [base, ← pow_mul] at below
    simp [value, Nat.ofDigits_replicate_zero, Nat.div_eq_of_lt below]

end Reduce

/-! ## Sums, differences and products modulo a number -/

/-- A sum's lanes and the carry out of them. -/
def addLanes : List ℕ → List ℕ → ℕ → List ℕ × ℕ
  | x :: xs, y :: ys, carry =>
    let total := x + y + carry
    let (rest, out) := addLanes xs ys (total / base)
    (total % base :: rest, out)
  | _, _, carry => ([], carry)

/-- `a + b`, the carry out dropped. -/
def addWide (a b : List ℕ) : List ℕ := (addLanes a b 0).1

/-- `a + b mod m`, both operands below `m`. -/
def addMod (a b m : List ℕ) : List ℕ :=
  let (out, carry) := addLanes a b 0
  if carry ≠ 0 ∨ ¬lessThan out m then subtract out m 0 else out

/-- `a − b mod m`, both operands below `m`. -/
def subMod (a b m : List ℕ) : List ℕ :=
  if lessThan a b then subtract (addWide a m) b 0 else subtract a b 0

/-- `a·b mod m`. -/
def mulMod (a b m : List ℕ) : List ℕ := reduce (product a b) m

section Modular

theorem addLanes_value {a b : List ℕ} (length : a.length = b.length) (carry : ℕ) :
    (addLanes a b carry).1.length = a.length ∧ InRange (addLanes a b carry).1 ∧
      value (addLanes a b carry).1 + base ^ a.length * (addLanes a b carry).2 =
        value a + value b + carry := by
  induction a generalizing b carry with
  | nil =>
    rw [List.eq_nil_of_length_eq_zero length.symm]
    exact ⟨rfl, nofun, by simp [addLanes]⟩
  | cons x a ih =>
    cases b with
    | nil => simp at length
    | cons y b =>
      obtain ⟨same, small, sum⟩ := ih (by simpa using length) ((x + y + carry) / base)
      simp only [addLanes]
      refine ⟨by rw [List.length_cons, List.length_cons, same],
        List.forall_mem_cons.mpr ⟨Nat.mod_lt _ (by norm_num [base]), small⟩, ?_⟩
      have parts := Nat.mod_add_div (x + y + carry) base
      simp only [value, Nat.ofDigits_cons, List.length_cons, pow_succ'] at sum ⊢
      linear_combination parts + base * sum

/-- A subtraction's value is the number below the lanes' power that is congruent to the
difference. -/
theorem value_subtract {rem m : List ℕ} (length : rem.length = m.length) (remSmall : InRange rem)
    (mSmall : InRange m) {v : ℕ} (below : v < base ^ m.length)
    (congruent : (base ^ m.length : ℤ) ∣ v - (value rem - value m : ℤ)) :
    (subtract rem m 0).length = m.length ∧ InRange (subtract rem m 0) ∧
      value (subtract rem m 0) = v := by
  obtain ⟨same, small, out, difference⟩ := subtract_value length remSmall mSmall (Or.inl rfl)
  refine ⟨same, small, ?_⟩
  have subBelow := value_lt small
  rw [same] at subBelow
  obtain ⟨k, multiple⟩ := congruent
  have close : (base ^ m.length : ℤ) ∣ (value (subtract rem m 0) : ℤ) - v := by
    refine ⟨out - k, ?_⟩
    rw [difference]
    linear_combination -multiple
  have equal := Int.eq_zero_of_abs_lt_dvd close (by
    have power : ((base ^ m.length : ℕ) : ℤ) = (base : ℤ) ^ m.length := by push_cast; rfl
    rw [abs_lt, ← power]
    omega)
  omega

variable {a b m : List ℕ}

theorem addMod_value (aLength : a.length = m.length) (bLength : b.length = m.length)
    (mSmall : InRange m) (aBelow : value a < value m) (bBelow : value b < value m) :
    (addMod a b m).length = m.length ∧ InRange (addMod a b m) ∧
      value (addMod a b m) = (value a + value b) % value m := by
  obtain ⟨length, small, total⟩ := addLanes_value (aLength.trans bLength.symm) 0
  rw [aLength] at length total
  have compare := lessThan_iff length small mSmall
  have mBelow := value_lt mSmall
  have outBelow := value_lt small
  rw [length] at outBelow
  rw [addMod]
  dsimp only
  by_cases fits : (addLanes a b 0).2 ≠ 0 ∨ ¬lessThan (addLanes a b 0).1 m
  · rw [if_pos fits]
    have atLeast : value m ≤ value a + value b := by
      rcases fits with carried | above
      · have one := Nat.mul_le_mul_left (base ^ m.length) (Nat.one_le_iff_ne_zero.mpr carried)
        omega
      · rw [compare, not_lt] at above
        have nonneg := Nat.zero_le (base ^ m.length * (addLanes a b 0).2)
        omega
    rw [Nat.mod_eq_sub_mod atLeast, Nat.mod_eq_of_lt (by omega)]
    refine value_subtract length small mSmall (by omega) ⟨(addLanes a b 0).2, ?_⟩
    rw [Nat.cast_sub atLeast, Nat.cast_add]
    have sum : (value (addLanes a b 0).1 : ℤ) + base ^ m.length * (addLanes a b 0).2 =
        value a + value b := by exact_mod_cast total
    linear_combination -sum
  · rw [if_neg fits]
    rw [not_or, not_not, not_not, compare] at fits
    obtain ⟨none, below⟩ := fits
    rw [none, mul_zero, add_zero, add_zero] at total
    exact ⟨length, small, by rw [← total, Nat.mod_eq_of_lt below]⟩

theorem subMod_value (aLength : a.length = m.length) (bLength : b.length = m.length)
    (aSmall : InRange a) (bSmall : InRange b) (mSmall : InRange m) (aBelow : value a < value m)
    (bBelow : value b < value m) :
    (subMod a b m).length = m.length ∧ InRange (subMod a b m) ∧
      value (subMod a b m) = (value a + value m - value b) % value m := by
  have compare := lessThan_iff (aLength.trans bLength.symm) aSmall bSmall
  have mBelow := value_lt mSmall
  rw [subMod]
  by_cases less : lessThan a b = true
  · rw [if_pos less, addWide]
    have order := compare.mp less
    obtain ⟨length, small, total⟩ := addLanes_value aLength 0
    rw [Nat.mod_eq_of_lt (by omega), ← bLength]
    refine value_subtract (length.trans (aLength.trans bLength.symm)) small bSmall
      (by rw [bLength]; omega) ⟨(addLanes a m 0).2, ?_⟩
    rw [Nat.cast_sub (by omega), Nat.cast_add, bLength]
    have sum : (value (addLanes a m 0).1 : ℤ) + base ^ m.length * (addLanes a m 0).2 =
        value a + value m := by
      rw [← aLength]
      exact_mod_cast total
    linear_combination -sum
  · rw [if_neg less]
    have order := not_lt.mp fun order => less (compare.mpr order)
    have wraps : value a + value m - value b = value a - value b + value m := by omega
    rw [wraps, Nat.add_mod_right, Nat.mod_eq_of_lt (by omega), ← bLength]
    refine value_subtract (aLength.trans bLength.symm) aSmall bSmall (by rw [bLength]; omega) ⟨0, ?_⟩
    rw [Nat.cast_sub order]
    ring

theorem mulMod_value (aSmall : InRange a) (bSmall : InRange b) (mSmall : InRange m)
    (positive : 0 < value m) :
    (mulMod a b m).length = m.length ∧ InRange (mulMod a b m) ∧
      value (mulMod a b m) = value a * value b % value m := by
  obtain ⟨-, small, total⟩ := value_product aSmall bSmall
  rw [← total]
  exact value_reduce small mSmall positive

end Modular

end Apogee.Emulator.Wide
