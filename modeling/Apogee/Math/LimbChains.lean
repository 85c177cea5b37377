import Mathlib.Algebra.Order.BigOperators.Ring.Finset
import Mathlib.Data.Nat.Digits.Defs
import Mathlib.Tactic.LinearCombination

/-! # Limbs

A number as a fixed count of limbs in some base, low first. `Nat.ofDigits` reads
the limbs back; a list of limbs in range is the one that its value has.
-/

namespace Apogee.Math

/-- The low `count` limbs of a number. -/
def limbs (base : ℕ) : ℕ → ℕ → List ℕ
  | 0, _ => []
  | count + 1, n => n % base :: limbs base count (n / base)

variable {base : ℕ}

theorem ofDigits_split {list : List ℕ} {count : ℕ} (inside : count ≤ list.length) :
    Nat.ofDigits base list = Nat.ofDigits base (list.take count) +
      base ^ count * Nat.ofDigits base (list.drop count) := by
  conv_lhs => rw [← List.take_append_drop count list]
  rw [Nat.ofDigits_append, List.length_take_of_le inside]

theorem ofDigits_take_succ {list : List ℕ} {count : ℕ} (inside : count < list.length) :
    Nat.ofDigits base (list.take (count + 1)) =
      Nat.ofDigits base (list.take count) + base ^ count * list[count] := by
  rw [List.take_add_one, List.getElem?_eq_getElem inside, Option.toList_some, Nat.ofDigits_append,
    Nat.ofDigits_singleton, List.length_take_of_le inside.le]

@[simp]
theorem length_limbs (count n : ℕ) : (limbs base count n).length = count := by
  induction count generalizing n with
  | zero => rfl
  | succ count ih => rw [limbs, List.length_cons, ih]

theorem limbs_lt (positive : 0 < base) (count n : ℕ) : ∀ limb ∈ limbs base count n, limb < base := by
  induction count generalizing n with
  | zero => simp [limbs]
  | succ count ih =>
    rw [limbs]
    exact List.forall_mem_cons.mpr ⟨Nat.mod_lt n positive, ih (n / base)⟩

/-- The limbs read back the number modulo the base's power. -/
theorem ofDigits_limbs (count n : ℕ) :
    Nat.ofDigits base (limbs base count n) = n % base ^ count := by
  induction count generalizing n with
  | zero => simp [limbs, Nat.mod_one]
  | succ count ih => rw [limbs, Nat.ofDigits_cons, ih, Nat.pow_succ', Nat.mod_mul]

/-- A number below the base's power is its limbs. -/
theorem ofDigits_limbs_of_lt {count n : ℕ} (small : n < base ^ count) :
    Nat.ofDigits base (limbs base count n) = n := by
  rw [ofDigits_limbs, Nat.mod_eq_of_lt small]

/-- Limbs in range are the limbs of their value. -/
theorem limbs_ofDigits {list : List ℕ} (small : ∀ limb ∈ list, limb < base) :
    limbs base list.length (Nat.ofDigits base list) = list := by
  induction list with
  | nil => rfl
  | cons limb list ih =>
    have first : limb < base := small limb List.mem_cons_self
    have rest : ∀ other ∈ list, other < base := fun other member =>
      small other (List.mem_cons_of_mem limb member)
    have positive : 0 < base := by omega
    rw [List.length_cons, limbs, Nat.ofDigits_cons, Nat.add_mul_mod_self_left,
      Nat.mod_eq_of_lt first, Nat.add_mul_div_left _ _ positive, Nat.div_eq_of_lt first, zero_add,
      ih rest]

theorem getD_limbs (count n i : ℕ) (inside : i < count) :
    (limbs base count n).getD i 0 = n / base ^ i % base := by
  induction count generalizing n i with
  | zero => exact absurd inside (Nat.not_lt_zero i)
  | succ count ih =>
    cases i with
    | zero => simp [limbs]
    | succ i =>
      rw [limbs, List.getD_cons_succ, ih _ _ (by omega), Nat.div_div_eq_div_mul, pow_succ']

/-- The top limb's bound bounds the whole. -/
theorem ofDigits_concat_lt {list : List ℕ} {top bound : ℕ}
    (small : ∀ limb ∈ list, limb < base) (topSmall : top < bound) :
    Nat.ofDigits base (list ++ [top]) < base ^ list.length * bound := by
  have low : Nat.ofDigits base list < base ^ list.length := by
    induction list with
    | nil => simp
    | cons limb list ih =>
      have first : limb < base := small limb List.mem_cons_self
      have rest := ih fun other member => small other (List.mem_cons_of_mem limb member)
      rw [Nat.ofDigits_cons, List.length_cons, pow_succ']
      calc (limb : ℕ) + base * Nat.ofDigits base list
          < base + base * Nat.ofDigits base list := by simpa using first
        _ = base * (Nat.ofDigits base list + 1) := by ring
        _ ≤ base * base ^ list.length := Nat.mul_le_mul_left base rest
  rw [Nat.ofDigits_append, Nat.ofDigits_singleton]
  calc Nat.ofDigits base list + base ^ list.length * top
      < base ^ list.length + base ^ list.length * top := by omega
    _ = base ^ list.length * (top + 1) := by ring
    _ ≤ base ^ list.length * bound := Nat.mul_le_mul_left _ topSmall

/-- The limbs of a number below the bound end in a top limb below it. -/
theorem limbs_succ_concat (count n : ℕ) :
    limbs base (count + 1) n = limbs base count n ++ [n / base ^ count % base] := by
  induction count generalizing n with
  | zero => simp [limbs]
  | succ count ih =>
    rw [limbs, ih, limbs, List.cons_append, Nat.div_div_eq_div_mul, ← pow_succ']

/-- The value of limbs as a sum over their places. -/
theorem ofDigits_eq_sum {R : Type*} [CommSemiring R] (base : R) (list : List ℕ) :
    Nat.ofDigits base list =
      ((List.range list.length).map fun k => base ^ k * ((list.getD k 0 : ℕ) : R)).sum := by
  induction list with
  | nil => rfl
  | cons limb list ih =>
    rw [show Nat.ofDigits base (limb :: list) = (limb : R) + base * Nat.ofDigits base list from rfl, ih, List.length_cons, List.range_succ_eq_map, List.map_cons,
      List.sum_cons, List.map_map, ← List.sum_map_mul_left]
    congr 1
    · simp
    · refine congrArg List.sum (List.map_congr_left fun k _ => ?_)
      simp only [Function.comp_apply, List.getD_cons_succ, Nat.succ_eq_add_one, pow_succ']
      ring

end Apogee.Math

/-! ## Chains of limb equations

A comparison of two numbers as a chain of borrows, an identity of two numbers as
a chain of carries, and a product as a convolution of limbs: each as equations
between limbs, in both directions.
-/

namespace Apogee.Math

open Finset

/-- The number whose first limbs are given by place. -/
def limbSum {R : Type*} [CommSemiring R] (base : R) (limb : ℕ → R) (count : ℕ) : R :=
  ∑ i ∈ range count, base ^ i * limb i

/-- A number's limb at a place. -/
def limbAt (base n i : ℕ) : ℕ := n / base ^ i % base

section Sum

variable {R : Type*} [CommSemiring R]

@[simp]
theorem limbSum_zero (base : R) (limb : ℕ → R) : limbSum base limb 0 = 0 := by simp [limbSum]

theorem limbSum_succ (base : R) (limb : ℕ → R) (count : ℕ) :
    limbSum base limb (count + 1) = limbSum base limb count + base ^ count * limb count := by
  rw [limbSum, limbSum, sum_range_succ]

theorem limbSum_congr {base : R} {left right : ℕ → R} {count : ℕ}
    (same : ∀ i < count, left i = right i) :
    limbSum base left count = limbSum base right count :=
  sum_congr rfl fun i inside => by rw [same i (mem_range.mp inside)]

/-- A sum over a list of places is the sum over the places. -/
theorem list_sum_range {M : Type*} [AddCommMonoid M] (f : ℕ → M) (count : ℕ) :
    ((List.range count).map f).sum = ∑ i ∈ range count, f i := rfl

end Sum

/-- Limbs taken in pairs. -/
theorem limbSum_pairs {R : Type*} [CommSemiring R] (base : R) (limb : ℕ → R) (count : ℕ) :
    limbSum (base ^ 2) (fun g => limb (2 * g) + base * limb (2 * g + 1)) count =
      limbSum base limb (2 * count) := by
  induction count with
  | zero => simp
  | succ count ih =>
    rw [limbSum_succ, ih, Nat.mul_succ, limbSum_succ, limbSum_succ, ← pow_mul, pow_succ]
    ring

section Limbs

variable {base : ℕ}

theorem limbAt_lt (positive : 0 < base) (n i : ℕ) : limbAt base n i < base :=
  Nat.mod_lt _ positive

theorem limbSum_limbAt (n count : ℕ) : limbSum base (limbAt base n) count = n % base ^ count := by
  induction count with
  | zero => simp [Nat.mod_one]
  | succ count ih => rw [limbSum_succ, ih, limbAt, pow_succ, Nat.mod_mul]

theorem limbSum_limbAt_of_lt {n count : ℕ} (small : n < base ^ count) :
    limbSum base (limbAt base n) count = n := by
  rw [limbSum_limbAt, Nat.mod_eq_of_lt small]

/-- Limbs in range sum below the base's power. -/
theorem limbSum_lt {limb : ℕ → ℕ} {count : ℕ} (small : ∀ i < count, limb i < base) :
    limbSum base limb count < base ^ count := by
  induction count with
  | zero => simp
  | succ count ih =>
    have rest := ih fun i inside => small i (by omega)
    have top : limb count + 1 ≤ base := small count (by omega)
    calc limbSum base limb (count + 1)
        = limbSum base limb count + base ^ count * limb count := limbSum_succ base limb count
      _ < base ^ count + base ^ count * limb count := by omega
      _ = base ^ count * (limb count + 1) := by ring
      _ ≤ base ^ count * base := Nat.mul_le_mul_left _ top
      _ = base ^ (count + 1) := (pow_succ base count).symm

/-- Limbs in range are the limbs of their sum. -/
theorem limbAt_limbSum {limb : ℕ → ℕ} {count : ℕ} (small : ∀ i < count, limb i < base)
    {i : ℕ} (inside : i < count) : limbAt base (limbSum base limb count) i = limb i := by
  induction count with
  | zero => exact absurd inside (Nat.not_lt_zero i)
  | succ count ih =>
    have rest := limbSum_lt fun i inside => small i (Nat.lt_succ_of_lt inside)
    have positive : 0 < base := Nat.zero_lt_of_lt (small count (by omega))
    rw [limbSum_succ]
    by_cases last : i = count
    · subst last
      rw [limbAt, Nat.add_mul_div_left _ _ (by positivity), Nat.div_eq_of_lt rest, zero_add,
        Nat.mod_eq_of_lt (small i inside)]
    · have before : i < count := by omega
      rw [← ih (fun i inside => small i (by omega)) before]
      obtain ⟨gap, rfl⟩ : ∃ gap, count = i + 1 + gap := ⟨count - i - 1, by omega⟩
      rw [limbAt, limbAt, pow_add, pow_succ, mul_assoc, mul_assoc,
        Nat.add_mul_div_left _ _ (by positivity), Nat.add_mul_mod_self_left]

theorem cast_limbSum {R : Type*} [CommSemiring R] (limb : ℕ → ℕ) (count : ℕ) :
    ((limbSum base limb count : ℕ) : R) = limbSum (base : R) (fun i => (limb i : R)) count := by
  simp only [limbSum]
  push_cast
  rfl

end Limbs

section Borrow

variable {base : ℕ} {x m : ℕ → ℕ}

/-- Borrow equations sum to the difference of the numbers. -/
theorem limbSum_of_borrows {borrow difference : ℕ → ℕ} {count : ℕ} (start : borrow 0 = 0)
    (each : ∀ i < count, x i + base * borrow (i + 1) = m i + borrow i + difference i) :
    limbSum base x count + base ^ count * borrow count =
      limbSum base m count + limbSum base difference count := by
  induction count with
  | zero => simp [start]
  | succ count ih =>
    have before := ih fun i inside => each i (by omega)
    have here := each count (by omega)
    rw [limbSum_succ, limbSum_succ, limbSum_succ, pow_succ]
    linear_combination before + base ^ count * here

/-- A chain that borrows out compares below. -/
theorem lt_of_borrows {borrow difference : ℕ → ℕ} {count : ℕ} (start : borrow 0 = 0)
    (each : ∀ i < count, x i + base * borrow (i + 1) = m i + borrow i + difference i)
    (small : ∀ i < count, difference i < base) (out : borrow count = 1) :
    limbSum base x count < limbSum base m count := by
  have total := limbSum_of_borrows start each
  have bound := limbSum_lt small
  rw [out, mul_one] at total
  omega

/-- The borrow into a place. -/
def borrowAt (base : ℕ) (x m : ℕ → ℕ) (i : ℕ) : ℕ :=
  if limbSum base x i < limbSum base m i then 1 else 0

/-- The difference at a place. -/
def differenceAt (base : ℕ) (x m : ℕ → ℕ) (i : ℕ) : ℕ :=
  x i + base * borrowAt base x m (i + 1) - m i - borrowAt base x m i

theorem borrowAt_le_one (base : ℕ) (x m : ℕ → ℕ) (i : ℕ) : borrowAt base x m i ≤ 1 := by
  unfold borrowAt
  split_ifs <;> omega

/-- Numbers with limbs in range have a chain of borrows. -/
theorem borrow_step {i : ℕ} (xSmall : ∀ j ≤ i, x j < base) (mSmall : ∀ j ≤ i, m j < base) :
    x i + base * borrowAt base x m (i + 1) =
        m i + borrowAt base x m i + differenceAt base x m i ∧ differenceAt base x m i < base := by
  have xBelow : limbSum base x i < base ^ i := limbSum_lt fun j inside => xSmall j inside.le
  have mBelow : limbSum base m i < base ^ i := limbSum_lt fun j inside => mSmall j inside.le
  have xHere := xSmall i le_rfl
  have mHere := mSmall i le_rfl
  have positive : 0 < base ^ i := by
    have : 0 < base := by omega
    positivity
  -- what the comparison one place further says of this place
  have compare (k : ℕ) : base ^ i * k < base ^ i * (k + 1) := by
    rw [Nat.mul_succ]
    omega
  unfold differenceAt borrowAt
  rw [limbSum_succ, limbSum_succ]
  split_ifs with next here here
  · have order : x i < m i + 1 := by
      refine lt_of_mul_lt_mul_left ?_ (Nat.zero_le (base ^ i))
      rw [Nat.mul_succ]
      omega
    omega
  · have order : x i < m i := by
      refine lt_of_mul_lt_mul_left ?_ (Nat.zero_le (base ^ i))
      omega
    omega
  · have order : m i < x i := by
      refine lt_of_mul_lt_mul_left ?_ (Nat.zero_le (base ^ i))
      omega
    omega
  · have order : m i < x i + 1 := by
      refine lt_of_mul_lt_mul_left ?_ (Nat.zero_le (base ^ i))
      rw [Nat.mul_succ]
      omega
    omega

end Borrow

section Carry

variable {base : ℤ} {c : ℕ → ℤ}

/-- Carry equations sum to the carry out. -/
theorem limbSum_of_carries {carry : ℕ → ℤ} {count : ℕ} (start : carry 0 = 0)
    (each : ∀ k < count, c k + carry k = base * carry (k + 1)) :
    limbSum base c count = base ^ count * carry count := by
  induction count with
  | zero => simp [start]
  | succ count ih =>
    have before := ih fun i inside => each i (by omega)
    have here := each count (by omega)
    rw [limbSum_succ, before, pow_succ]
    linear_combination base ^ count * here

/-- The carry into a place. -/
def carryAt (base : ℤ) (c : ℕ → ℤ) (k : ℕ) : ℤ := limbSum base c k / base ^ k

/-- What stands above a place is a multiple of the base's power there. -/
theorem dvd_limbSum {count k : ℕ} (vanishes : limbSum base c count = 0) (inside : k ≤ count) :
    base ^ k ∣ limbSum base c k := by
  obtain ⟨gap, rfl⟩ : ∃ gap, count = k + gap := ⟨count - k, by omega⟩
  have split (gap : ℕ) : base ^ k ∣ limbSum base c (k + gap) - limbSum base c k := by
    induction gap with
    | zero => simp
    | succ gap ih =>
      rw [← add_assoc, limbSum_succ, add_sub_right_comm, pow_add, mul_assoc]
      exact dvd_add ih (Dvd.intro _ rfl)
  have rest := split gap
  rw [vanishes, zero_sub] at rest
  exact (dvd_neg).mp rest

/-- A sum that vanishes has a chain of carries. -/
theorem carry_step {count k : ℕ} (nonzero : base ≠ 0) (vanishes : limbSum base c count = 0)
    (inside : k < count) : c k + carryAt base c k = base * carryAt base c (k + 1) := by
  have power : base ^ k ≠ 0 := pow_ne_zero k nonzero
  have here := Int.ediv_mul_cancel (dvd_limbSum vanishes inside.le)
  have following := Int.ediv_mul_cancel (dvd_limbSum vanishes (show k + 1 ≤ count from inside))
  rw [← carryAt] at here following
  refine mul_left_cancel₀ power ?_
  rw [limbSum_succ, pow_succ] at following
  linear_combination here - following

@[simp]
theorem carryAt_zero (base : ℤ) (c : ℕ → ℤ) : carryAt base c 0 = 0 := by simp [carryAt]

theorem carryAt_of_vanishes {count : ℕ} (vanishes : limbSum base c count = 0) :
    carryAt base c count = 0 := by simp [carryAt, vanishes]

/-- Carries stay inside a bound the recurrence keeps. -/
theorem abs_carryAt_le {count bound room : ℕ} {base : ℕ} {c : ℕ → ℤ} (positive : 0 < base)
    (vanishes : limbSum (base : ℤ) c count = 0) (small : ∀ k < count, |c k| ≤ bound)
    (keeps : bound + room ≤ base * room) {k : ℕ} (inside : k ≤ count) :
    |carryAt (base : ℤ) c k| ≤ room := by
  induction k with
  | zero => simp
  | succ k ih =>
    have before := ih (by omega)
    have step := carry_step (by exact_mod_cast positive.ne') vanishes (show k < count by omega)
    have here := small k (by omega)
    have total : |(base : ℤ) * carryAt (base : ℤ) c (k + 1)| ≤ base * room := by
      rw [← step]
      calc |c k + carryAt (base : ℤ) c k| ≤ |c k| + |carryAt (base : ℤ) c k| := abs_add_le _ _
        _ ≤ bound + room := add_le_add here before
        _ ≤ base * room := by exact_mod_cast keeps
    rw [abs_mul, abs_of_pos (by exact_mod_cast positive : (0 : ℤ) < base)] at total
    exact le_of_mul_le_mul_left total (by exact_mod_cast positive)

end Carry

section Convolution

variable {R : Type*} [CommSemiring R]

/-- The limb products of one place. -/
def convolve (a b : ℕ → R) (n m k : ℕ) : R :=
  ∑ i ∈ range n, if i ≤ k ∧ k - i < m then a i * b (k - i) else 0

/-- The limb products of every place sum to the product. -/
theorem limbSum_convolve (base : R) (a b : ℕ → R) {n m : ℕ} (left : 0 < n) (right : 0 < m) :
    limbSum base (convolve a b n m) (n + m - 1) = limbSum base a n * limbSum base b m := by
  have place (i : ℕ) (inside : i < n) :
      ∑ k ∈ range (n + m - 1), base ^ k * (if i ≤ k ∧ k - i < m then a i * b (k - i) else 0) =
        base ^ i * a i * limbSum base b m := by
    have places : (range (n + m - 1)).filter (fun k => i ≤ k ∧ k - i < m) =
        (range m).image (i + ·) := by
      ext k
      simp only [mem_filter, mem_range, mem_image]
      constructor
      · intro member
        exact ⟨k - i, member.2.2, by omega⟩
      · intro member
        obtain ⟨j, few, rfl⟩ := member
        omega
    simp only [mul_ite, mul_zero]
    rw [← Finset.sum_filter, places, Finset.sum_image fun j _ l _ same => Nat.add_left_cancel same,
      limbSum, Finset.mul_sum]
    refine sum_congr rfl fun j _ => ?_
    rw [Nat.add_sub_cancel_left, pow_add]
    ring
  calc limbSum base (convolve a b n m) (n + m - 1)
      = ∑ k ∈ range (n + m - 1), ∑ i ∈ range n,
          base ^ k * (if i ≤ k ∧ k - i < m then a i * b (k - i) else 0) := by
        simp only [limbSum, convolve, Finset.mul_sum]
    _ = ∑ i ∈ range n, base ^ i * a i * limbSum base b m := by
        rw [Finset.sum_comm]
        exact sum_congr rfl fun i member => place i (mem_range.mp member)
    _ = limbSum base a n * limbSum base b m := (Finset.sum_mul (range n) _ _).symm

/-- The limb products of one place are bounded by their count. -/
theorem convolve_le {a b : ℕ → ℕ} {n m left right : ℕ} (aSmall : ∀ i < n, a i ≤ left)
    (bSmall : ∀ j < m, b j ≤ right) (k : ℕ) : convolve a b n m k ≤ n * (left * right) := by
  refine le_trans (Finset.sum_le_card_nsmul (range n) _ (left * right) fun i member => ?_) ?_
  · split_ifs with inside
    · exact Nat.mul_le_mul (aSmall i (mem_range.mp member)) (bSmall _ inside.2)
    · exact Nat.zero_le _
  · rw [card_range, smul_eq_mul]

theorem cast_convolve {R : Type*} [CommSemiring R] (a b : ℕ → ℕ) (n m k : ℕ) :
    ((convolve a b n m k : ℕ) : R) = convolve (fun i => (a i : R)) (fun j => (b j : R)) n m k := by
  simp only [convolve]
  push_cast
  rfl

end Convolution

end Apogee.Math
