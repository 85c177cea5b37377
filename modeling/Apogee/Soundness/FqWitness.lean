import Apogee.Circuit.FqWitness

/-! # What the base-field witness computes

The nine-limb arithmetic is the integers' wherever a result fits, so the witness
exists exactly where the identity has a quotient, and it is the quotient's limbs
and the carries of the limb equations.
-/

namespace Apogee.FqOp

open Math

section Lanes

theorem value_lt {limbs : List ℕ} (small : InRange limbs) : value limbs < (2 ^ 64) ^ limbs.length :=
  Nat.ofDigits_lt_base_pow_length (by norm_num) small

/-- Limbs of one count and one value are equal. -/
theorem eq_of_value {x y : List ℕ} (length : x.length = y.length) (xSmall : InRange x)
    (ySmall : InRange y) (same : value x = value y) : x = y := by
  rw [← limbs_ofDigits xSmall, ← limbs_ofDigits ySmall, length]
  exact congrArg _ same

theorem inRange_replicate (count : ℕ) : InRange (List.replicate count 0) := by
  intro limb member
  rw [List.eq_of_mem_replicate member]
  norm_num

/-- A list of at most nine limbs, widened. -/
theorem wide_spec {x : List ℕ} (short : x.length ≤ 9) (small : InRange x) :
    (wide x).length = 9 ∧ InRange (wide x) ∧ value (wide x) = value x := by
  refine ⟨by simp [wide]; omega, ?_, ?_⟩
  · exact List.forall_mem_append.mpr ⟨small, inRange_replicate _⟩
  · simp [wide, value, Nat.ofDigits_append, Nat.ofDigits_replicate_zero]

theorem addFrom_spec {x y : List ℕ} (length : x.length = y.length) (carry : ℕ) :
    (addFrom x y carry).1.length = x.length ∧ InRange (addFrom x y carry).1 ∧
      value (addFrom x y carry).1 + (2 ^ 64) ^ x.length * (addFrom x y carry).2 =
        value x + value y + carry := by
  induction x generalizing y carry with
  | nil =>
    rw [List.eq_nil_of_length_eq_zero length.symm]
    exact ⟨rfl, inRange_replicate 0, by simp [addFrom]⟩
  | cons u x ih =>
    cases y with
    | nil => simp at length
    | cons v y =>
      obtain ⟨same, small, sum⟩ := ih (by simpa using length) ((u + v + carry) / 2 ^ 64)
      simp only [addFrom]
      refine ⟨by rw [List.length_cons, List.length_cons, same],
        List.forall_mem_cons.mpr ⟨Nat.mod_lt _ (by norm_num), small⟩, ?_⟩
      have parts := Nat.mod_add_div (u + v + carry) (2 ^ 64)
      simp only [value, Nat.ofDigits_cons, List.length_cons, pow_succ'] at sum ⊢
      linear_combination parts + 2 ^ 64 * sum

/-- A sum that fits nine limbs. -/
theorem addWide_spec {x y : List ℕ} (xLength : x.length = 9) (yLength : y.length = 9)
    (fits : value x + value y < (2 ^ 64) ^ 9) :
    ∃ sum, addWide x y = .ok sum ∧ sum.length = 9 ∧ InRange sum ∧
      value sum = value x + value y := by
  obtain ⟨length, small, total⟩ := addFrom_spec (xLength.trans yLength.symm) 0
  rw [xLength] at total length
  have none : (addFrom x y 0).2 = 0 := by
    by_contra some
    have atLeast := Nat.mul_le_mul_left ((2 ^ 64) ^ 9) (Nat.one_le_iff_ne_zero.mpr some)
    omega
  rw [none, mul_zero, add_zero, add_zero] at total
  exact ⟨_, if_pos none, length, small, total⟩

theorem subFrom_spec {x y : List ℕ} (length : x.length = y.length) (xSmall : InRange x)
    (ySmall : InRange y) {borrow : ℤ} (bit : borrow = 0 ∨ borrow = 1) :
    (subFrom x y borrow).1.length = x.length ∧ InRange (subFrom x y borrow).1 ∧
      ((subFrom x y borrow).2 = 0 ∨ (subFrom x y borrow).2 = 1) ∧
      (value (subFrom x y borrow).1 : ℤ) =
        value x - value y - borrow + (2 ^ 64) ^ x.length * (subFrom x y borrow).2 := by
  induction x generalizing y borrow with
  | nil =>
    rw [List.eq_nil_of_length_eq_zero length.symm]
    exact ⟨rfl, inRange_replicate 0, bit, by simp [subFrom]⟩
  | cons u x ih =>
    cases y with
    | nil => simp at length
    | cons v y =>
      have uSmall : u < 2 ^ 64 := xSmall u List.mem_cons_self
      have vSmall : v < 2 ^ 64 := ySmall v List.mem_cons_self
      simp only [subFrom]
      -- the lane, with the borrow it takes given back
      obtain ⟨taken, takenEq, takenBit, lane⟩ : ∃ taken : ℤ,
          (if (u : ℤ) - v - borrow < 0 then (1 : ℤ) else 0) = taken ∧ (taken = 0 ∨ taken = 1) ∧
            ((u : ℤ) - v - borrow) % 2 ^ 64 = u - v - borrow + 2 ^ 64 * taken := by
        by_cases negative : (u : ℤ) - v - borrow < 0
        · exact ⟨1, if_pos negative, Or.inr rfl, by omega⟩
        · exact ⟨0, if_neg negative, Or.inl rfl, by omega⟩
      rw [takenEq]
      obtain ⟨same, small, outBit, difference⟩ := @ih y (by simpa using length)
        (fun limb member => xSmall limb (List.mem_cons_of_mem _ member))
        (fun limb member => ySmall limb (List.mem_cons_of_mem _ member)) taken takenBit
      have nonneg : ((((u : ℤ) - v - borrow) % 2 ^ 64).toNat : ℤ) =
          u - v - borrow + 2 ^ 64 * taken := by
        rw [Int.toNat_of_nonneg (Int.emod_nonneg _ (by norm_num)), lane]
      generalize (((u : ℤ) - v - borrow) % 2 ^ 64).toNat = digit at nonneg ⊢
      refine ⟨by rw [List.length_cons, List.length_cons, same],
        List.forall_mem_cons.mpr ⟨by omega, small⟩, outBit, ?_⟩
      simp only [value, Nat.ofDigits_cons, List.length_cons, pow_succ'] at difference ⊢
      push_cast at difference nonneg ⊢
      linear_combination nonneg + 2 ^ 64 * difference

/-- A difference that does not go negative, and one that does. -/
theorem subWide_spec {x y : List ℕ} (xLength : x.length = 9) (yLength : y.length = 9)
    (xSmall : InRange x) (ySmall : InRange y) :
    (value y ≤ value x → ∃ difference, subWide x y = .ok difference ∧ difference.length = 9 ∧
      InRange difference ∧ value difference = value x - value y) ∧
    (value x < value y → subWide x y = .error "fq_op: a difference goes negative") := by
  obtain ⟨length, small, bit, total⟩ :=
    subFrom_spec (xLength.trans yLength.symm) xSmall ySmall (Or.inl rfl)
  have below := value_lt small
  rw [length, xLength] at below
  rw [xLength] at total length
  constructor
  · intro covers
    have none : (subFrom x y 0).2 = 0 := by
      rcases bit with zero | one
      · exact zero
      · rw [one, mul_one] at total
        omega
    refine ⟨_, if_pos none, length, small, ?_⟩
    rw [none] at total
    omega
  · intro short
    have some : (subFrom x y 0).2 = 1 := by
      rcases bit with zero | one
      · rw [zero] at total
        omega
      · exact one
    rw [subWide, some]
    rfl

theorem mulRow_spec (scale : ℕ) {lanes limbs : List ℕ} (long : lanes.length ≤ limbs.length)
    (carry : ℕ) :
    (mulRow scale lanes limbs carry).length = lanes.length ∧
      InRange (mulRow scale lanes limbs carry) ∧
      value (mulRow scale lanes limbs carry) =
        (value lanes + scale * value limbs + carry) % (2 ^ 64) ^ lanes.length := by
  induction lanes generalizing limbs carry with
  | nil => exact ⟨by cases limbs <;> rfl, by cases limbs <;> exact inRange_replicate 0,
      by cases limbs <;> simp [mulRow, Nat.mod_one]⟩
  | cons lane lanes ih =>
    cases limbs with
    | nil => simp at long
    | cons limb limbs =>
      obtain ⟨same, small, row⟩ := @ih limbs (by simpa using long)
        ((lane + scale * limb + carry) / 2 ^ 64)
      simp only [mulRow]
      refine ⟨by rw [List.length_cons, List.length_cons, same],
        List.forall_mem_cons.mpr ⟨Nat.mod_lt _ (by norm_num), small⟩, ?_⟩
      have parts := Nat.mod_add_div (lane + scale * limb + carry) (2 ^ 64)
      have total : value (lane :: lanes) + scale * value (limb :: limbs) + carry =
          (lane + scale * limb + carry) % 2 ^ 64 + 2 ^ 64 * (value lanes + scale * value limbs +
            (lane + scale * limb + carry) / 2 ^ 64) := by
        simp only [value, Nat.ofDigits_cons]
        linear_combination -parts
      rw [total, List.length_cons,
        show (2 ^ 64) ^ (lanes.length + 1) = 2 ^ 64 * (2 ^ 64) ^ lanes.length from pow_succ' _ _,
        Nat.mod_mul, Nat.add_mul_mod_self_left, Nat.mod_mod, Nat.add_mul_div_left _ _ (by norm_num),
        Nat.div_eq_of_lt (Nat.mod_lt _ (by norm_num)), zero_add, ← row]
      simp only [value, Nat.ofDigits_cons]

/-- A truncated product. -/
theorem mulWide_spec {x y : List ℕ} (xLength : x.length = 9) (yLength : y.length = 9) :
    (mulWide x y).length = 9 ∧ InRange (mulWide x y) ∧
      value (mulWide x y) = value x * value y % (2 ^ 64) ^ 9 := by
  have rows (count : ℕ) (few : count ≤ 9) :
      let out := (List.range count).foldl
        (fun out i => out.take i ++ mulRow (x.getD i 0) (out.drop i) y 0) (List.replicate 9 0)
      out.length = 9 ∧ InRange out ∧
        value out % (2 ^ 64) ^ 9 = value (x.take count) * value y % (2 ^ 64) ^ 9 := by
    induction count with
    | zero =>
      refine ⟨List.length_replicate, inRange_replicate 9, ?_⟩
      simp only [List.take_zero, value, Nat.ofDigits_replicate_zero, Nat.ofDigits_nil, zero_mul,
        List.range_zero, List.foldl_nil]
    | succ count ih =>
      obtain ⟨length, small, total⟩ := ih (by omega)
      rw [List.range_succ, List.foldl_append, List.foldl_cons, List.foldl_nil]
      generalize (List.range count).foldl _ _ = out at length small total ⊢
      have inside : count < x.length := by omega
      have limbEq : x.getD count 0 = x[count] := by simp [inside]
      have grown : value (x.take (count + 1)) =
          value (x.take count) + (2 ^ 64) ^ count * x[count] := ofDigits_take_succ inside
      have split : value out = value (out.take count) + (2 ^ 64) ^ count * value (out.drop count) :=
        ofDigits_split (by omega)
      obtain ⟨rowLength, rowSmall, row⟩ := @mulRow_spec (x.getD count 0) (out.drop count) y
        (by rw [List.length_drop]; omega) 0
      refine ⟨?_, List.forall_mem_append.mpr
        ⟨fun limb member => small limb (List.mem_of_mem_take member), rowSmall⟩, ?_⟩
      · rw [List.length_append, rowLength, ← List.length_append, List.take_append_drop, length]
      · have powers : (2 ^ 64) ^ 9 = (2 ^ 64) ^ count * (2 ^ 64) ^ (out.drop count).length := by
          rw [List.length_drop, length, ← pow_add, Nat.add_sub_cancel' (by omega)]
        have expand : (value (x.take count) + (2 ^ 64) ^ count * x[count]) * value y =
            value (x.take count) * value y + (2 ^ 64) ^ count * (x[count] * value y) := by ring
        rw [value, Nat.ofDigits_append, List.length_take, min_eq_left (by omega)]
        simp only [value] at row grown split total expand ⊢
        rw [row, limbEq, add_zero, grown, expand, Nat.add_mod (Nat.ofDigits (2 ^ 64) (x.take count) *
          Nat.ofDigits (2 ^ 64) y), ← total, ← Nat.add_mod, split, add_assoc, ← Nat.mul_add,
          Nat.add_mod, Nat.add_mod (Nat.ofDigits (2 ^ 64) (out.take count))]
        congr 2
        rw [powers, Nat.mul_mod_mul_left, Nat.mul_mod_mul_left, Nat.mod_mod]
  obtain ⟨length, small, total⟩ := rows 9 le_rfl
  refine ⟨length, small, ?_⟩
  rw [List.take_of_length_le xLength.le] at total
  rw [← total, mulWide, Nat.mod_eq_of_lt]
  have below := value_lt small
  rw [length] at below
  exact below

end Lanes

/-- The modulus's inverse inverts. -/
theorem qInverse_spec : qInverse.length = 9 ∧ value q * value qInverse % (2 ^ 64) ^ 9 = 1 := by
  have length : qInverse.length = 9 := by decide +kernel
  have inverts : mulWide (wide q) qInverse = wide [1] := by decide +kernel
  obtain ⟨qLength, _, qSame⟩ := wide_spec (show q.length ≤ 9 by norm_num [q])
    (show InRange q by simp [InRange, q])
  obtain ⟨_, _, product⟩ := mulWide_spec qLength length
  rw [qSame, inverts] at product
  exact ⟨length, product.symm⟩

/-- One operation. -/
inductive Op
  | mul | add | sub | muleq | from128
deriving DecidableEq

namespace Op

/-- The operation's code. -/
def code : Op → ℕ
  | mul => FqOp.mul
  | add => FqOp.add
  | sub => FqOp.sub
  | muleq => FqOp.muleq
  | from128 => FqOp.from128

/-- The multiplier's limbs. -/
def y (b : List ℕ) : Op → List ℕ
  | mul => b
  | add => [1, 0, 0, 0]
  | sub => [1, 0, 0, 0]
  | muleq => b
  | from128 => [0, 0, 0, 0]

/-- The addend's limbs. -/
def z (b d : List ℕ) (k : ℕ) : Op → ℤ
  | mul => 0
  | add => b.getD k 0
  | sub => subMultiple * qLimb k - b.getD k 0
  | muleq => 0
  | from128 => d.getD k 0

/-- What `a·y + z` is worth. -/
def total (a b d : ℕ) : Op → ℕ
  | mul => a * b
  | add => a + b
  | sub => a + (subMultiple * value q - b)
  | muleq => a * b
  | from128 => d

end Op

/-- A quotient's limbs: three of 64 bits, and the rest. -/
def kLimb (quotient j : ℕ) : ℕ := if j < 3 then limbAt (2 ^ 64) quotient j else quotient / (2 ^ 64) ^ 3

/-- The identity's balance at a limb's place. -/
def balance (a y : List ℕ) (z : ℕ → ℤ) (d : List ℕ) (k : ℕ → ℕ) (place : ℕ) : ℤ :=
  (convolve (fun i => a.getD i 0) (fun j => y.getD j 0) 4 4 place : ℕ) -
    (convolve qLimb k 4 4 place : ℕ) + if place < 4 then z place - (d.getD place 0 : ℕ) else 0

/-- A group's balance: its two places'. -/
def groupBalance (balance : ℕ → ℤ) (g : ℕ) : ℤ :=
  balance (2 * g) + 2 ^ 64 * balance (2 * g + 1)

section Arithmetic

/-- Four limbs' value, by their places. -/
theorem value_eq_limbSum {x : List ℕ} (length : x.length = 4) :
    value x = limbSum (2 ^ 64) (fun i => x.getD i 0) 4 := by
  rw [value, ← Nat.cast_id (Nat.ofDigits (2 ^ 64) x), ← Nat.cast_id (2 ^ 64), ofDigits_eq_sum,
    length]
  rfl

theorem getD_lt {x : List ℕ} (small : InRange x) (i : ℕ) : x.getD i 0 < 2 ^ 64 := by
  rw [List.getD_eq_getElem?_getD]
  by_cases inside : i < x.length
  · rw [List.getElem?_eq_getElem inside, Option.getD_some]
    exact small _ (List.getElem_mem inside)
  · rw [List.getElem?_eq_none (Nat.not_lt.mp inside), Option.getD_none]
    norm_num

theorem limbSum_kLimb (quotient : ℕ) : limbSum (2 ^ 64) (kLimb quotient) 4 = quotient := by
  have low : limbSum (2 ^ 64) (kLimb quotient) 3 = quotient % (2 ^ 64) ^ 3 := by
    rw [← limbSum_limbAt]
    exact limbSum_congr fun i inside => if_pos inside
  rw [limbSum_succ, low, kLimb, if_neg (lt_irrefl 3), Nat.mod_add_div]

/-- The groups' balances sum to the identity's. -/
theorem limbSum_groupBalance {a y d : List ℕ} {z : ℕ → ℤ} {k : ℕ → ℕ} (aLength : a.length = 4)
    (yLength : y.length = 4) (dLength : d.length = 4) :
    limbSum (2 ^ 128 : ℤ) (groupBalance (balance a y z d k)) 4 =
      (value a * value y : ℕ) - (value q * limbSum (2 ^ 64) k 4 : ℕ) + limbSum (2 ^ 64) z 4 -
        (value d : ℕ) := by
  have product (f g : ℕ → ℕ) : limbSum (2 ^ 64 : ℤ) (fun place => ((convolve f g 4 4 place : ℕ) : ℤ)) 8 =
      (limbSum (2 ^ 64) f 4 * limbSum (2 ^ 64) g 4 : ℕ) := by
    rw [← limbSum_convolve (2 ^ 64) f g (by norm_num) (by norm_num), cast_limbSum, limbSum_succ]
    have top : convolve f g 4 4 7 = 0 := by
      refine Finset.sum_eq_zero fun i member => if_neg ?_
      have few := Finset.mem_range.mp member
      omega
    rw [top]
    simp
  have ends : limbSum (2 ^ 64 : ℤ) (fun place => if place < 4 then z place - (d.getD place 0 : ℕ) else 0) 8 =
      limbSum (2 ^ 64) z 4 - (value d : ℕ) := by
    rw [value_eq_limbSum dLength, cast_limbSum]
    simp only [limbSum, Finset.sum_range_succ, Finset.sum_range_zero]
    norm_num
    ring
  have qValue : value q = limbSum (2 ^ 64) qLimb 4 := value_eq_limbSum rfl
  have split : limbSum (2 ^ 64 : ℤ) (balance a y z d k) 8 =
      limbSum (2 ^ 64 : ℤ) (fun place => ((convolve (fun i => a.getD i 0) (fun j => y.getD j 0) 4 4
          place : ℕ) : ℤ)) 8 -
        limbSum (2 ^ 64 : ℤ) (fun place => ((convolve qLimb k 4 4 place : ℕ) : ℤ)) 8 +
        limbSum (2 ^ 64 : ℤ)
          (fun place => if place < 4 then z place - (d.getD place 0 : ℕ) else 0) 8 := by
    simp only [limbSum, balance, mul_sub, mul_add, Finset.sum_add_distrib, Finset.sum_sub_distrib]
  have pairs := limbSum_pairs (2 ^ 64 : ℤ) (balance a y z d k) 4
  rw [← pow_mul] at pairs
  refine pairs.trans ?_
  rw [split, product, product, ends, value_eq_limbSum aLength, value_eq_limbSum yLength, qValue]
  ring

/-- Limbs in range keep the balance small. -/
theorem abs_balance_le {a y d : List ℕ} {z : ℕ → ℤ} {k : ℕ → ℕ} {top : ℕ} (aSmall : InRange a)
    (ySmall : InRange y) (dSmall : InRange d) (zSmall : ∀ place < 4, |z place| ≤ 7 * 2 ^ 64)
    (kSmall : ∀ j < 4, k j < top) (wide : 2 ^ 64 ≤ top) (place : ℕ) :
    |balance a y z d k place| ≤ ((4 * (2 ^ 64 * top) + 2 ^ 67 : ℕ) : ℤ) := by
  have qSmall (i : ℕ) (_ : i < 4) : qLimb i ≤ 2 ^ 64 - 1 :=
    Nat.le_sub_one_of_lt (getD_lt (show InRange q by simp [InRange, q]) i)
  have product : convolve (fun i => a.getD i 0) (fun j => y.getD j 0) 4 4 place ≤
      4 * ((2 ^ 64 - 1) * (2 ^ 64 - 1)) :=
    convolve_le (fun i _ => Nat.le_sub_one_of_lt (getD_lt aSmall i))
      (fun j _ => Nat.le_sub_one_of_lt (getD_lt ySmall j)) place
  have multiple : convolve qLimb k 4 4 place ≤ 4 * ((2 ^ 64 - 1) * (top - 1)) :=
    convolve_le qSmall (fun j inside => Nat.le_sub_one_of_lt (kSmall j inside)) place
  have rest : |if place < 4 then z place - (d.getD place 0 : ℕ) else 0| ≤ 2 ^ 67 := by
    by_cases inside : place < 4
    · have addend := abs_le.mp (zSmall place inside)
      have limb := getD_lt dSmall place
      rw [if_pos inside, abs_le]
      omega
    · simp [inside]
  rw [abs_le] at rest
  rw [balance, abs_le]
  omega

theorem abs_groupBalance_le {balance : ℕ → ℤ} {bound : ℕ}
    (small : ∀ place, |balance place| ≤ (bound : ℤ)) (g : ℕ) :
    |groupBalance balance g| ≤ (((1 + 2 ^ 64) * bound : ℕ) : ℤ) := by
  have low := abs_le.mp (small (2 * g))
  have high := abs_le.mp (small (2 * g + 1))
  rw [groupBalance, abs_le]
  omega

/-- A group's committed carry. -/
def carried (balance : ℕ → ℤ) (g : ℕ) : ℕ :=
  (carryAt (2 ^ 128) (groupBalance balance) (g + 1) + 2 ^ carryOffsetBits).toNat

section Carries

variable {balance : ℕ → ℤ} (vanishes : limbSum (2 ^ 128 : ℤ) (groupBalance balance) 4 = 0)
  (small : ∀ g < 4, |groupBalance balance g| ≤ ((2 ^ 199 - 2 ^ 71 : ℕ) : ℤ))

include vanishes small

/-- The carries stay inside their offset. -/
theorem abs_carry_le {g : ℕ} (inside : g ≤ 4) :
    |carryAt (2 ^ 128) (groupBalance balance) g| ≤ 2 ^ 71 := by
  have bound := @abs_carryAt_le 4 (2 ^ 199 - 2 ^ 71) (2 ^ 71) (2 ^ 128) (groupBalance balance)
    (by norm_num) (by exact_mod_cast vanishes) small (by norm_num) g inside
  exact_mod_cast bound

theorem carried_eq {g : ℕ} (inside : g < 4) :
    (carried balance g : ℤ) = carryAt (2 ^ 128) (groupBalance balance) (g + 1) + 2 ^ 75 ∧
      carried balance g < 2 ^ 76 := by
  have bound := abs_le.mp (abs_carry_le vanishes small (show g + 1 ≤ 4 from inside))
  rw [carried, carryOffsetBits]
  omega

/-- One group's carry is computed as the integers'. -/
private theorem carriesFrom_cons {terms : ℕ → Fr} (same : ∀ k < 8, terms k = ((balance k : ℤ) : Fr))
    {g : ℕ} (inside : g < 3) {gs : List ℕ} {chunks : List (List ℕ)} {last : Fr}
    (rest : carriesFrom terms gs ((carryAt (2 ^ 128) (groupBalance balance) (g + 1) : ℤ) : Fr) =
      .ok (chunks, last)) :
    carriesFrom terms (g :: gs) ((carryAt (2 ^ 128) (groupBalance balance) g : ℤ) : Fr) =
      .ok (chunksOf 19 4 (carried balance g) :: chunks, last) := by
  obtain ⟨carriedEq, carriedSmall⟩ := carried_eq vanishes small (show g < 4 by omega)
  have unit : pow2 128 ≠ 0 := fr_natCast_ne_zero (by norm_num) (by norm_num)
  have step := carry_step (by norm_num) vanishes (show g < 4 by omega)
  have next : (terms (2 * g) + pow2 64 * terms (2 * g + 1) +
      ((carryAt (2 ^ 128) (groupBalance balance) g : ℤ) : Fr)) * (pow2 128)⁻¹ =
        ((carryAt (2 ^ 128) (groupBalance balance) (g + 1) : ℤ) : Fr) := by
    rw [mul_inv_eq_iff_eq_mul₀ unit, same _ (by omega), same _ (by omega)]
    have cast := congrArg (Int.cast (R := Fr)) step
    rw [groupBalance] at cast
    simp only [pow2]
    push_cast at cast ⊢
    linear_combination cast
  have offset : (((carryAt (2 ^ 128) (groupBalance balance) (g + 1) : ℤ) : Fr) +
      pow2 carryOffsetBits).val = carried balance g := by
    rw [← fr_val_natCast (lt_trans carriedSmall (by norm_num))]
    congr 1
    have cast := congrArg (Int.cast (R := Fr)) carriedEq
    simp only [pow2, carryOffsetBits]
    push_cast at cast ⊢
    exact cast.symm
  rw [carriesFrom, next, offset]
  generalize carried balance g = n at carriedSmall
  have fits : (limbs (2 ^ 64) 4 n).getD 1 0 / 2 ^ 12 = 0 ∧
      ∀ v ∈ (limbs (2 ^ 64) 4 n).drop 2, v = 0 := by
    simp only [limbs, List.getD_cons_succ, List.getD_cons_zero, List.drop_succ_cons, List.drop_zero,
      List.forall_mem_cons, List.not_mem_nil, IsEmpty.forall_iff, implies_true, and_true]
    omega
  have whole : (limbs (2 ^ 64) 4 n).getD 0 0 + 2 ^ 64 * (limbs (2 ^ 64) 4 n).getD 1 0 = n := by
    simp only [limbs, List.getD_cons_succ, List.getD_cons_zero]
    omega
  rw [if_pos fits, whole, rest]

/-- The carries are computed as the integers'. -/
theorem carriesFrom_eq {terms : ℕ → Fr} (same : ∀ k < 8, terms k = ((balance k : ℤ) : Fr)) :
    carriesFrom terms [0, 1, 2] 0 =
      .ok ((List.range 3).map fun g => chunksOf 19 4 (carried balance g),
        ((carryAt (2 ^ 128) (groupBalance balance) 3 : ℤ) : Fr)) := by
  have start : (0 : Fr) = ((carryAt (2 ^ 128) (groupBalance balance) 0 : ℤ) : Fr) := by
    rw [carryAt_zero, Int.cast_zero]
  rw [start]
  exact carriesFrom_cons vanishes small same (by norm_num)
    (carriesFrom_cons vanishes small same (by norm_num)
      (carriesFrom_cons vanishes small same (by norm_num) rfl))

end Carries

end Arithmetic

/-- Four limbs that fit their width. -/
def IsElement (x : List ℕ) : Prop := x.length = 4 ∧ InRange x

theorem IsElement.value_lt {x : List ℕ} (element : IsElement x) : value x < 2 ^ 256 := by
  have below := FqOp.value_lt element.2
  rw [element.1, ← pow_mul] at below
  exact below

theorem IsElement.wide_spec {x : List ℕ} (element : IsElement x) :
    (wide x).length = 9 ∧ InRange (wide x) ∧ value (wide x) = value x :=
  FqOp.wide_spec (by rw [element.1]; norm_num) element.2

theorem isElement_q : IsElement q := ⟨rfl, by simp [InRange, q]⟩

/-- The modulus is between two powers. -/
theorem value_q_bounds : 2 ^ 253 < value q ∧ 2 ^ 256 < subMultiple * value q ∧
    subMultiple * value q < 2 * 2 ^ 256 := by
  norm_num [value, q, Nat.ofDigits_cons, subMultiple]

/-- The quotient, computed. -/
theorem exists_quotient {quotient : ℕ} {rem : List ℕ} (length : rem.length = 9) (small : InRange rem)
    (multiple : value rem = value q * quotient) :
    (mulWide rem qInverse).length = 9 ∧ InRange (mulWide rem qInverse) ∧
      value (mulWide rem qInverse) = quotient ∧ mulWide (mulWide rem qInverse) (wide q) = rem := by
  obtain ⟨inverseLength, inverts⟩ := qInverse_spec
  obtain ⟨kLength, kSmall, kEq⟩ := mulWide_spec length inverseLength
  obtain ⟨qLength, _, qSame⟩ := isElement_q.wide_spec
  obtain ⟨pLength, pSmall, pEq⟩ := mulWide_spec kLength qLength
  have room := value_q_bounds
  have below := FqOp.value_lt small
  rw [length, multiple] at below
  have fits : quotient < (2 ^ 64) ^ 9 := by
    refine lt_of_le_of_lt ?_ below
    exact Nat.le_mul_of_pos_left quotient (by omega)
  have kValue : value (mulWide rem qInverse) = quotient := by
    rw [kEq, multiple, mul_right_comm, Nat.mul_mod, inverts, one_mul, Nat.mod_mod,
      Nat.mod_eq_of_lt fits]
  refine ⟨kLength, kSmall, kValue, eq_of_value (pLength.trans length.symm) pSmall small ?_⟩
  rw [pEq, kValue, qSame, multiple, mul_comm, Nat.mod_eq_of_lt below]

namespace Op

variable {op : Op} {a b d : List ℕ}

theorem isElement_y (bElement : IsElement b) : IsElement (op.y b) := by
  cases op
  · exact bElement
  · exact ⟨rfl, by simp [y, InRange]⟩
  · exact ⟨rfl, by simp [y, InRange]⟩
  · exact bElement
  · exact ⟨rfl, by simp [y, InRange]⟩

theorem abs_z_le (bElement : IsElement b) (dElement : IsElement d) (k : ℕ) :
    |op.z b d k| ≤ 7 * 2 ^ 64 := by
  have bSmall := getD_lt bElement.2 k
  have dSmall := getD_lt dElement.2 k
  have qSmall := getD_lt isElement_q.2 k
  cases op
  · simp [z]
  · rw [z, abs_le]
    omega
  · rw [z, abs_le, subMultiple, qLimb]
    omega
  · simp [z]
  · rw [z, abs_le]
    omega

/-- What the identity's left side is worth, by its limbs. -/
theorem total_eq (bElement : IsElement b) (dElement : IsElement d) :
    (op.total (value a) (value b) (value d) : ℤ) =
      (value a * value (op.y b) : ℕ) + limbSum (2 ^ 64) (fun k => op.z b d k) 4 := by
  have bBelow := bElement.value_lt
  have room := value_q_bounds
  have limbs {x : List ℕ} (length : x.length = 4) : ((value x : ℕ) : ℤ) =
      limbSum (2 ^ 64) (fun k => ((x.getD k 0 : ℕ) : ℤ)) 4 := by
    rw [value_eq_limbSum length, cast_limbSum]
    rfl
  have one : value [1, 0, 0, 0] = 1 := rfl
  have zero : value [0, 0, 0, 0] = 0 := rfl
  cases op
  · simp [total, y, z, limbSum]
  · simp only [total, y, z, one, mul_one, Nat.cast_add, limbs bElement.1]
  · have multiple : limbSum (2 ^ 64 : ℤ)
        (fun k => (subMultiple : ℤ) * qLimb k - (b.getD k 0 : ℕ)) 4 =
          subMultiple * value q - value b := by
      rw [limbs isElement_q.1, limbs bElement.1]
      simp only [limbSum, mul_sub, Finset.sum_sub_distrib, Finset.mul_sum, qLimb]
      refine congrArg₂ _ (Finset.sum_congr rfl fun k _ => ?_) rfl
      ring
    simp only [total, y, z, one, mul_one, multiple]
    omega
  · simp [total, y, z, limbSum]
  · simp only [total, y, z, zero, mul_zero, Nat.cast_zero, zero_add, limbs dElement.1]

/-- The identity's left side fits nine limbs with room for the quotient. -/
theorem total_lt (aElement : IsElement a) (bElement : IsElement b) (dElement : IsElement d) :
    op.total (value a) (value b) (value d) < 2 * (2 ^ 64) ^ 8 := by
  have aBelow := aElement.value_lt
  have bBelow := bElement.value_lt
  have dBelow := dElement.value_lt
  have room := value_q_bounds
  have product : value a * value b < 2 ^ 256 * 2 ^ 256 := Nat.mul_lt_mul'' aBelow bBelow
  cases op
  all_goals
    simp only [total]
    omega

/-- The operands the witness computes with. -/
theorem operands_spec (bElement : IsElement b) (dElement : IsElement d) :
    ∃ addend, operands op.code b d = .ok (op.y b, addend) ∧ addend.length = 9 ∧ InRange addend ∧
      op.total (value a) (value b) (value d) = value a * value (op.y b) + value addend := by
  have one : value [1, 0, 0, 0] = 1 := rfl
  have zero : value [0, 0, 0, 0] = 0 := rfl
  have empty : value (wide []) = 0 := rfl
  have emptySmall : InRange (wide []) := inRange_replicate 9
  cases op
  · exact ⟨wide [], rfl, rfl, emptySmall, by rw [empty]; rfl⟩
  · obtain ⟨length, small, same⟩ := bElement.wide_spec
    exact ⟨wide b, rfl, length, small, by rw [same, y, one, mul_one]; rfl⟩
  · obtain ⟨length, small, same⟩ := bElement.wide_spec
    obtain ⟨qLength, _, qSame⟩ := isElement_q.wide_spec
    obtain ⟨cLength, _, cSame⟩ := FqOp.wide_spec (show [subMultiple].length ≤ 9 by norm_num)
      (show InRange [subMultiple] by simp [InRange, subMultiple])
    obtain ⟨sixLength, sixSmall, sixEq⟩ := mulWide_spec qLength cLength
    have room := value_q_bounds
    have bBelow := bElement.value_lt
    have six : value (mulWide (wide q) (wide [subMultiple])) = subMultiple * value q := by
      rw [sixEq, qSame, cSame, mul_comm (value q), show value [subMultiple] = subMultiple from rfl,
        Nat.mod_eq_of_lt (by omega)]
    obtain ⟨difference, computed, dLength, dSmall, dEq⟩ :=
      (subWide_spec sixLength length sixSmall small).1 (by rw [six, same]; omega)
    refine ⟨difference, ?_, dLength, dSmall, ?_⟩
    · rw [operands, if_neg (by decide), if_neg (by decide), if_pos (show sub.code = FqOp.sub from rfl),
        computed]
      rfl
    · rw [dEq, six, same, y, one, mul_one]
      rfl
  · exact ⟨wide [], rfl, rfl, emptySmall, by rw [empty]; rfl⟩
  · obtain ⟨length, small, same⟩ := dElement.wide_spec
    exact ⟨wide d, rfl, length, small, by rw [same, y, zero, mul_zero, zero_add]; rfl⟩

/-- The balance of an operation's limbs and a quotient's. -/
def places (op : Op) (a b d : List ℕ) (quotient : ℕ) : ℕ → ℤ :=
  balance a (op.y b) (fun k => op.z b d k) d (kLimb quotient)

/-- The witness of an operation whose identity has a quotient. -/
def answer (op : Op) (a b d : List ℕ) (quotient : ℕ) : Witness where
  y := op.y b
  dChunks := d.map fun limb => [1, 2, 3].map fun c => limb / 2 ^ (16 * c) % 2 ^ 16
  kChunks := (List.range 4).map fun j => chunksOf (kBits j) 4 (kLimb quotient j)
  carryChunks := (List.range 3).map fun g => chunksOf 19 4 (carried (op.places a b d quotient) g)

section Quotient

variable {quotient : ℕ} (aElement : IsElement a) (bElement : IsElement b) (dElement : IsElement d)
  (identity : op.total (value a) (value b) (value d) = value q * quotient + value d)

include aElement bElement dElement identity

/-- The quotient's limbs are in range. -/
theorem kLimb_lt (j : ℕ) : kLimb quotient j < 2 ^ 68 := by
  have room := value_q_bounds
  have below := @total_lt op a b d aElement bElement dElement
  have small : quotient < 2 ^ 260 := by
    by_contra large
    have product : 2 ^ 253 * 2 ^ 260 ≤ value q * quotient :=
      Nat.mul_le_mul room.1.le (Nat.not_lt.mp large)
    rw [identity] at below
    omega
  rw [kLimb]
  by_cases low : j < 3
  · rw [if_pos low]
    exact lt_trans (limbAt_lt (by norm_num) _ _) (by norm_num)
  · rw [if_neg low, ← pow_mul]
    refine (Nat.div_lt_iff_lt_mul (by positivity)).mpr (lt_of_lt_of_le small ?_)
    rw [← pow_add]

/-- The groups' balances sum to nothing. -/
theorem places_vanish : limbSum (2 ^ 128 : ℤ) (groupBalance (op.places a b d quotient)) 4 = 0 := by
  have total := @total_eq op a b d bElement dElement
  rw [places, limbSum_groupBalance aElement.1 (isElement_y bElement).1 dElement.1,
    limbSum_kLimb]
  rw [identity] at total
  push_cast at total ⊢
  linear_combination -total

theorem abs_places_le (g : ℕ) :
    |groupBalance (op.places a b d quotient) g| ≤ ((2 ^ 199 - 2 ^ 71 : ℕ) : ℤ) := by
  refine le_trans (abs_groupBalance_le (fun place => abs_balance_le aElement.2
    (isElement_y bElement).2 dElement.2 (fun k _ => abs_z_le bElement dElement k)
    (fun j _ => kLimb_lt aElement bElement dElement identity j) (by norm_num) place) g) ?_
  norm_num

/-- The quotient's limbs, of nine, are its own. -/
theorem quotient_limbs {k : List ℕ} (kLength : k.length = 9) (kSmall : InRange k)
    (kValue : value k = quotient) :
    (∀ j < 3, k.getD j 0 = kLimb quotient j) ∧
      k.getD 3 0 + 2 ^ 64 * k.getD 4 0 = kLimb quotient 3 ∧ k.getD 4 0 < 2 ^ 12 ∧
      ∀ j, 5 ≤ j → k.getD j 0 = 0 := by
  have limb (j : ℕ) (inside : j < 9) : k.getD j 0 = quotient / (2 ^ 64) ^ j % 2 ^ 64 := by
    rw [← @getD_limbs (2 ^ 64) 9 quotient j inside, ← kValue, ← kLength, limbs_ofDigits kSmall]
  have high := kLimb_lt aElement bElement dElement identity 3
  rw [kLimb, if_neg (lt_irrefl 3)] at high
  have four : quotient / (2 ^ 64) ^ 4 = quotient / (2 ^ 64) ^ 3 / 2 ^ 64 := by
    rw [pow_succ _ 3, Nat.div_div_eq_div_mul]
  refine ⟨fun j inside => ?_, ?_, ?_, fun j above => ?_⟩
  · rw [limb j (by omega), kLimb, if_pos inside, limbAt]
  · rw [limb 3 (by norm_num), limb 4 (by norm_num), four, kLimb, if_neg (lt_irrefl 3)]
    omega
  · rw [limb 4 (by norm_num), four]
    omega
  · by_cases inside : j < 9
    · have below : quotient / (2 ^ 64) ^ j ≤ quotient / (2 ^ 64) ^ 5 :=
        Nat.div_le_div_left (Nat.pow_le_pow_right (by norm_num) above) (by norm_num)
      have five : quotient / (2 ^ 64) ^ 5 = quotient / (2 ^ 64) ^ 3 / 2 ^ 64 / 2 ^ 64 := by
        rw [← four, Nat.div_div_eq_div_mul, ← pow_succ]
      have nothing : quotient / (2 ^ 64) ^ 5 = 0 := by
        rw [five]
        generalize quotient / (2 ^ 64) ^ 3 = rest at high
        omega
      rw [limb j inside, Nat.le_zero.mp (below.trans_eq nothing), Nat.zero_mod]
    · rw [List.getD_eq_getElem?_getD, List.getElem?_eq_none (by omega), Option.getD_none]

omit aElement bElement dElement identity in
/-- The circuit's addend is the operation's. -/
theorem zLimb_eq (place : ℕ) : zLimb op.code b d place = ((op.z b d place : ℤ) : Fr) := by
  cases op
  all_goals
    simp only [zLimb, code, FqOp.mul, FqOp.add, FqOp.sub, FqOp.muleq, FqOp.from128, z]
    norm_num

/-- The field's terms are the integers'. -/
private theorem limbTerms_eq {k : List ℕ} (kLength : k.length = 9) (kSmall : InRange k)
    (kValue : value k = quotient) (place : ℕ) :
    limbTerms op.code a b d (op.y b) (fun j => if j < 3 then ((k.getD j 0 : ℕ) : Fr)
          else ((k.getD 3 0 : ℕ) : Fr) + pow2 64 * ((k.getD 4 0 : ℕ) : Fr)) place =
      ((op.places a b d quotient place : ℤ) : Fr) := by
  obtain ⟨low, top, _, _⟩ := quotient_limbs aElement bElement dElement identity kLength kSmall kValue
  have quotientEq (j : ℕ) (inside : j < 4) : (if j < 3 then ((k.getD j 0 : ℕ) : Fr)
        else ((k.getD 3 0 : ℕ) : Fr) + pow2 64 * ((k.getD 4 0 : ℕ) : Fr)) =
          ((kLimb quotient j : ℕ) : Fr) := by
    by_cases few : j < 3
    · rw [if_pos few, low j few]
    · rw [if_neg few, show j = 3 by omega, ← top, pow2]
      push_cast
      ring
  have products : ((List.range 4).map fun i =>
      if i ≤ place ∧ place - i < 4 then
        ((a.getD i 0 : ℕ) : Fr) * (((op.y b).getD (place - i) 0 : ℕ) : Fr) - ((qLimb i : ℕ) : Fr) *
          (if place - i < 3 then ((k.getD (place - i) 0 : ℕ) : Fr)
            else ((k.getD 3 0 : ℕ) : Fr) + pow2 64 * ((k.getD 4 0 : ℕ) : Fr))
      else 0).sum = (((convolve (fun i => a.getD i 0) (fun j => (op.y b).getD j 0) 4 4 place : ℕ) -
          (convolve qLimb (kLimb quotient) 4 4 place : ℕ) : ℤ) : Fr) := by
    rw [list_sum_range]
    push_cast
    rw [cast_convolve, cast_convolve, convolve, convolve, ← Finset.sum_sub_distrib]
    refine Finset.sum_congr rfl fun i _ => ?_
    by_cases inside : i ≤ place ∧ place - i < 4
    · rw [if_pos inside, if_pos inside, if_pos inside, quotientEq _ inside.2]
    · rw [if_neg inside, if_neg inside, if_neg inside, sub_zero]
  rw [limbTerms, products, places, balance, zLimb_eq]
  push_cast
  by_cases inside : place < 4
  · rw [if_pos inside]
  · rw [if_neg inside]

omit identity in
/-- The identity's left side, computed. -/
private theorem exists_left : ∃ addend left, operands op.code b d = .ok (op.y b, addend) ∧
      addWide (mulWide (wide a) (wide (op.y b))) addend = .ok left ∧ left.length = 9 ∧
      InRange left ∧ value left = op.total (value a) (value b) (value d) := by
  obtain ⟨addend, computed, length, small, total⟩ := @operands_spec op a b d bElement dElement
  obtain ⟨aLength, _, aSame⟩ := aElement.wide_spec
  obtain ⟨yLength, _, ySame⟩ := (@isElement_y op b bElement).wide_spec
  obtain ⟨pLength, _, product⟩ := mulWide_spec aLength yLength
  have below := @total_lt op a b d aElement bElement dElement
  have room : 2 * (2 ^ 64) ^ 8 ≤ (2 ^ 64) ^ 9 := by norm_num
  have fits : value a * value (op.y b) < (2 ^ 64) ^ 9 :=
    lt_of_le_of_lt (total ▸ Nat.le_add_right _ _) (lt_of_lt_of_le below room)
  rw [aSame, ySame, Nat.mod_eq_of_lt fits] at product
  obtain ⟨left, sum, sumLength, sumSmall, sumEq⟩ :=
    addWide_spec pLength length (by rw [product, ← total]; exact lt_of_lt_of_le below room)
  exact ⟨addend, left, computed, sum, sumLength, sumSmall, by rw [sumEq, product, total]⟩

/-- Where the identity has a quotient, the witness is its limbs' and its carries'. -/
theorem witness_eq : witness op.code a b d = .ok (op.answer a b d quotient) := by
  obtain ⟨addend, left, computed, sum, length, small, total⟩ :=
    @exists_left op a b d aElement bElement dElement
  obtain ⟨dLength, dSmall, dSame⟩ := dElement.wide_spec
  obtain ⟨rem, difference, remLength, remSmall, remEq⟩ :=
    (subWide_spec length dLength small dSmall).1 (by rw [total, dSame, identity]; omega)
  rw [total, dSame, identity, Nat.add_sub_cancel] at remEq
  obtain ⟨kLength, kSmall, kValue, divides⟩ := exists_quotient remLength remSmall remEq
  obtain ⟨low, top, high, above⟩ :=
    quotient_limbs aElement bElement dElement identity kLength kSmall kValue
  have terms := limbTerms_eq aElement bElement dElement identity kLength kSmall kValue
  have vanishes := places_vanish aElement bElement dElement identity
  have bounded (g : ℕ) (_ : g < 4) := abs_places_le aElement bElement dElement identity g
  have carries := carriesFrom_eq vanishes bounded fun k _ => terms k
  rw [witness, computed]
  dsimp only
  rw [sum]
  dsimp only
  rw [difference]
  dsimp only
  generalize mulWide rem qInverse = k
    at kLength kSmall kValue divides low top high above terms carries ⊢
  -- the top place is the last: its balance and the carry cancel
  have closes : ((op.places a b d quotient 6 : ℤ) : Fr) +
      ((carryAt (2 ^ 128) (groupBalance (op.places a b d quotient)) 3 : ℤ) : Fr) = 0 := by
    have last : op.places a b d quotient 7 = 0 := by
      simp [places, balance, convolve, Finset.sum_range_succ]
    have step := carry_step (by norm_num) vanishes (show 3 < 4 by norm_num)
    rw [carryAt_of_vanishes vanishes, mul_zero, groupBalance, last, mul_zero, add_zero] at step
    rw [← Int.cast_add, step, Int.cast_zero]
  have fits : ¬((∃ v ∈ k.drop 5, v ≠ 0) ∨ k.getD 4 0 / 2 ^ 12 ≠ 0) := by
    intro either
    rcases either with inside | wide
    · obtain ⟨v, member, nonzero⟩ := inside
      obtain ⟨j, below, rfl⟩ := List.getElem_of_mem member
      rw [List.length_drop] at below
      refine nonzero ?_
      rw [List.getElem_drop, ← above (5 + j) (Nat.le_add_right 5 j), List.getD_eq_getElem?_getD, List.getElem?_eq_getElem (by omega), Option.getD_some]
    · omega
  have chunks : ((List.range 4).map fun j =>
      chunksOf (kBits j) 4 (if j < 3 then k.getD j 0 else k.getD 3 0 + 2 ^ 64 * k.getD 4 0)) =
        (List.range 4).map fun j => chunksOf (kBits j) 4 (kLimb quotient j) := by
    refine List.map_congr_left fun j member => ?_
    by_cases few : j < 3
    · rw [if_pos few, low j few]
    · have inside := List.mem_range.mp member
      rw [if_neg few, top, show j = 3 by omega]
  rw [if_neg (not_not.mpr divides), if_neg fits, witnessFor, carries, Except.bind, terms 6,
    if_pos closes, chunks, answer]

end Quotient

/-- Where the identity's left side is short of the new element, there is none. -/
theorem witness_of_short (aElement : IsElement a) (bElement : IsElement b) (dElement : IsElement d)
    (short : op.total (value a) (value b) (value d) < value d) :
    witness op.code a b d = .error "fq_op: a difference goes negative" := by
  obtain ⟨addend, left, computed, sum, length, small, total⟩ :=
    @exists_left op a b d aElement bElement dElement
  obtain ⟨dLength, dSmall, dSame⟩ := dElement.wide_spec
  rw [witness, computed]
  dsimp only
  rw [sum]
  dsimp only
  rw [(subWide_spec length dLength small dSmall).2 (by rw [total, dSame]; exact short)]

end Op

end Apogee.FqOp
