import Mathlib.Algebra.Order.BigOperators.Group.Finset
import Mathlib.Algebra.Order.Ring.Nat

/-! # The integer exponential

The Taylor series of `factor * e ^ (numerator / denominator)`, every term rounded down
and summed until one vanishes.
-/

namespace Apogee.Math

open Finset

section

variable (factor numerator denominator : ℕ)

/-- The `k`th term of the series, scaled by the denominator. -/
def taylorTerm : ℕ → ℕ
  | 0 => factor * denominator
  | k + 1 => taylorTerm k * numerator / (denominator * (k + 1))

/-- The sum of the first `k` terms. -/
def taylorSum (k : ℕ) : ℕ := ∑ j ∈ range k, taylorTerm factor numerator denominator j

/-- The loop that sums the series: the `i`th round, with what is summed and the next term. -/
def taylorLoop (i output accumulator : ℕ) : ℕ :=
  if accumulator = 0 then output / denominator
  else taylorLoop (i + 1) (output + accumulator) (accumulator * numerator / (denominator * i))
termination_by (numerator / denominator + 1 - i, accumulator)
decreasing_by
  rename_i positive
  by_cases early : i ≤ numerator / denominator
  · exact Prod.Lex.left _ _ (by omega)
  · -- past the quotient the terms fall
    have same : numerator / denominator + 1 - (i + 1) = numerator / denominator + 1 - i := by omega
    rw [same]
    refine Prod.Lex.right _ ?_
    rcases Nat.eq_zero_or_pos denominator with zero | above
    · rw [zero, Nat.zero_mul, Nat.div_zero]
      exact Nat.pos_of_ne_zero positive
    · have late : numerator < denominator * i := by
        rw [Nat.mul_comm]
        exact (Nat.div_lt_iff_lt_mul above).mp (Nat.not_le.mp early)
      refine (Nat.div_lt_iff_lt_mul ((Nat.zero_le _).trans_lt late)).mpr ?_
      exact Nat.mul_lt_mul_of_pos_left late (Nat.pos_of_ne_zero positive)

end

variable {factor numerator denominator : ℕ}

theorem taylorTerm_succ (k : ℕ) : taylorTerm factor numerator denominator (k + 1) =
    taylorTerm factor numerator denominator k * numerator / (denominator * (k + 1)) := rfl

theorem taylorSum_succ (k : ℕ) : taylorSum factor numerator denominator (k + 1) =
    taylorSum factor numerator denominator k + taylorTerm factor numerator denominator k :=
  sum_range_succ _ k

/-- Once a term vanishes, all that follow do. -/
theorem taylorTerm_eq_zero_of_le {j k : ℕ} (ends : taylorTerm factor numerator denominator j = 0)
    (later : j ≤ k) : taylorTerm factor numerator denominator k = 0 := by
  induction k, later using Nat.le_induction with
  | base => exact ends
  | succ k _ ih => rw [taylorTerm_succ, ih, Nat.zero_mul, Nat.zero_div]

theorem taylorTerm_pos_of_le {j k : ℕ} (positive : 0 < taylorTerm factor numerator denominator k)
    (earlier : j ≤ k) : 0 < taylorTerm factor numerator denominator j := by
  by_contra ends
  have vanishes := taylorTerm_eq_zero_of_le (Nat.eq_zero_of_not_pos ends) earlier
  omega

/-- The sum of nonzero terms counts them. -/
theorem le_taylorSum {k : ℕ} (positive : 0 < taylorTerm factor numerator denominator k) :
    k + 1 ≤ taylorSum factor numerator denominator (k + 1) := by
  have each : ∀ j ∈ range (k + 1), 1 ≤ taylorTerm factor numerator denominator j := fun j member =>
    taylorTerm_pos_of_le positive (Nat.lt_succ_iff.mp (mem_range.mp member))
  calc k + 1 = ∑ _j ∈ range (k + 1), 1 := by rw [sum_const, card_range, nsmul_one, Nat.cast_id]
    _ ≤ taylorSum factor numerator denominator (k + 1) := sum_le_sum each

/-- No three terms in a row are one, so a long sum is more than their number. -/
theorem lt_taylorSum {k : ℕ} (positive : 0 < taylorTerm factor numerator denominator k)
    (long : 2 ≤ k) : k + 1 < taylorSum factor numerator denominator (k + 1) := by
  refine lt_of_le_of_ne (le_taylorSum positive) fun same => ?_
  have each : ∀ j ∈ range (k + 1), 1 ≤ taylorTerm factor numerator denominator j := fun j member =>
    taylorTerm_pos_of_le positive (Nat.lt_succ_iff.mp (mem_range.mp member))
  have ones : ∀ j ∈ range (k + 1), 1 = taylorTerm factor numerator denominator j := by
    refine (sum_eq_sum_iff_of_le each).mp ?_
    rw [sum_const, card_range, nsmul_one, Nat.cast_id]
    exact same
  have first : factor * denominator = 1 := (ones 0 (mem_range.mpr (by omega))).symm
  have second := ones 1 (mem_range.mpr (by omega))
  have third := ones 2 (mem_range.mpr (by omega))
  have unit := Nat.eq_one_of_mul_eq_one_left first
  rw [taylorTerm, ← second, Nat.one_mul, unit, Nat.one_mul] at third
  rw [taylorTerm, taylorTerm, first, unit, Nat.one_mul, Nat.one_mul, Nat.div_one] at second
  rw [← second] at third
  exact absurd third (by decide)

theorem taylorSum_mono {j k : ℕ} (earlier : j ≤ k) :
    taylorSum factor numerator denominator j ≤ taylorSum factor numerator denominator k :=
  sum_le_sum_of_subset (range_subset_range.mpr earlier)

theorem taylorTerm_le_sum {j k : ℕ} (earlier : j < k) :
    taylorTerm factor numerator denominator j ≤ taylorSum factor numerator denominator k :=
  single_le_sum (fun _ _ => Nat.zero_le _) (mem_range.mpr earlier)

/-- A round of the loop, in the terms of the series. -/
theorem taylorLoop_term (k : ℕ) :
    taylorLoop numerator denominator (k + 1) (taylorSum factor numerator denominator k)
        (taylorTerm factor numerator denominator k) =
      if taylorTerm factor numerator denominator k = 0 then
        taylorSum factor numerator denominator k / denominator
      else taylorLoop numerator denominator (k + 2) (taylorSum factor numerator denominator (k + 1))
        (taylorTerm factor numerator denominator (k + 1)) := by
  rw [taylorLoop, taylorSum_succ, taylorTerm_succ]

/-- Some term vanishes. -/
theorem exists_taylorTerm_eq_zero (positive : 0 < denominator) :
    ∃ k, taylorTerm factor numerator denominator k = 0 := by
  -- from the quotient on, the terms fall
  have falls : ∀ bound k, numerator / denominator ≤ k →
      taylorTerm factor numerator denominator k ≤ bound →
      ∃ k, taylorTerm factor numerator denominator k = 0 := by
    intro bound
    induction bound with
    | zero => exact fun k _ small => ⟨k, Nat.le_zero.mp small⟩
    | succ bound ih =>
      intro k late small
      by_cases ends : taylorTerm factor numerator denominator k = 0
      · exact ⟨k, ends⟩
      refine ih (k + 1) (late.trans (Nat.le_succ k)) (Nat.lt_succ_iff.mp (lt_of_lt_of_le ?_ small))
      have past : numerator < denominator * (k + 1) := by
        rw [Nat.mul_comm]
        exact (Nat.div_lt_iff_lt_mul positive).mp (Nat.lt_succ_of_le late)
      rw [taylorTerm_succ]
      refine (Nat.div_lt_iff_lt_mul ((Nat.zero_le _).trans_lt past)).mpr ?_
      exact Nat.mul_lt_mul_of_pos_left past (Nat.pos_of_ne_zero ends)
  exact falls _ _ le_rfl le_rfl

/-- What the loop returns is the sum of all the terms. -/
theorem taylorLoop_eq {k last : ℕ} (before : k ≤ last)
    (ends : taylorTerm factor numerator denominator last = 0) :
    taylorLoop numerator denominator (k + 1) (taylorSum factor numerator denominator k)
        (taylorTerm factor numerator denominator k) =
      taylorSum factor numerator denominator last / denominator := by
  induction before using Nat.decreasingInduction with
  | self => rw [taylorLoop_term, if_pos ends]
  | of_succ k below ih =>
    rw [taylorLoop_term]
    by_cases vanishes : taylorTerm factor numerator denominator k = 0
    · rw [if_pos vanishes]
      congr 1
      refine sum_subset (range_subset_range.mpr below.le) fun j _ outside => ?_
      exact taylorTerm_eq_zero_of_le vanishes (Nat.not_lt.mp fun inside => outside (mem_range.mpr inside))
    · rw [if_neg vanishes, ih]

end Apogee.Math
