import Apogee.Stateless.HeaderRules

/-! # The checked exponential

It returns the loop's result over unbounded integers exactly when every product and sum of
the loop fits 128 bits, and nothing otherwise; it always ends.
-/

namespace Apogee.Stateless

open Math Machine

/-- The products and sums of one round fit. -/
def RoundFits (factor numerator denominator k : ℕ) : Prop :=
  taylorSum factor numerator denominator (k + 1) < 2 ^ 128 ∧
    taylorTerm factor numerator denominator k * numerator < 2 ^ 128 ∧
      denominator * (k + 1) < 2 ^ 128

/-- The products and sums of the whole loop fit. -/
def Fits (factor numerator denominator : ℕ) : Prop :=
  factor * denominator < 2 ^ 128 ∧ ∀ k, taylorTerm factor numerator denominator k ≠ 0 →
    RoundFits factor numerator denominator k

/-- The loop over unbounded integers. -/
def Spec.fakeExponential (factor numerator denominator : ℕ) : ℕ :=
  taylorLoop numerator denominator 1 0 (factor * denominator)

variable {factor numerator denominator : ℕ}

theorem fakeLoop_zero (positive : denominator ≠ 0) (i output : ℕ) :
    fakeLoop numerator denominator i output 0 = .ok (some (output / denominator)) := by
  rw [fakeLoop, if_pos rfl, div_ok positive]
  rfl

theorem fakeLoop_full {i output accumulator : ℕ} (more : accumulator ≠ 0)
    (full : ¬ output + accumulator < 2 ^ 128) :
    fakeLoop numerator denominator i output accumulator = .ok none := by
  have absent : checkedAdd 128 output accumulator = none := if_neg full
  rw [fakeLoop, if_neg more]
  split
  · rfl
  · rename_i sum summed
    rw [absent] at summed
    cases summed

theorem fakeLoop_wide {i output accumulator : ℕ} (more : accumulator ≠ 0)
    (wide : ¬ (accumulator * numerator < 2 ^ 128 ∧ denominator * i < 2 ^ 128)) :
    fakeLoop numerator denominator i output accumulator = .ok none := by
  rw [fakeLoop, if_neg more]
  split
  · rfl
  · rename_i sum summed
    by_cases scaled : accumulator * numerator < 2 ^ 128
    · have product : checkedMul 128 accumulator numerator = some (accumulator * numerator) :=
        if_pos scaled
      have absent : checkedMul 128 denominator i = none := if_neg fun divisor => wide ⟨scaled, divisor⟩
      rw [product, absent]
      rfl
    · have absent : checkedMul 128 accumulator numerator = none := if_neg scaled
      rw [absent]
      rfl

/-- A round whose products and sum fit. -/
theorem fakeLoop_next {i output accumulator : ℕ} (more : accumulator ≠ 0)
    (summed : output + accumulator < 2 ^ 128) (scaled : accumulator * numerator < 2 ^ 128)
    (divisor : denominator * i < 2 ^ 128) (positive : denominator * i ≠ 0)
    (round : i + 1 < 2 ^ 128) :
    fakeLoop numerator denominator i output accumulator =
      fakeLoop numerator denominator (i + 1) (output + accumulator)
        (accumulator * numerator / (denominator * i)) := by
  have sum : checkedAdd 128 output accumulator = some (output + accumulator) := if_pos summed
  have product : checkedMul 128 accumulator numerator = some (accumulator * numerator) := if_pos scaled
  have below : checkedMul 128 denominator i = some (denominator * i) := if_pos divisor
  rw [fakeLoop, if_neg more]
  split
  · rename_i none
    rw [sum] at none
    cases none
  · rename_i total same
    rw [sum] at same
    cases same
    rw [product, below]
    dsimp only
    rw [div_ok positive, add_ok round]
    rfl

/-- From any round on, by induction from the last: the result is there exactly when the
rounds left fit. -/
theorem fakeLoop_spec (positive : denominator ≠ 0) {k last : ℕ} (before : k ≤ last)
    (ends : taylorTerm factor numerator denominator last = 0) :
    ∃ result, fakeLoop numerator denominator (k + 1) (taylorSum factor numerator denominator k)
        (taylorTerm factor numerator denominator k) = .ok result ∧
      ∀ v, result = some v ↔ (∀ j, k ≤ j → taylorTerm factor numerator denominator j ≠ 0 →
          RoundFits factor numerator denominator j) ∧
        v = taylorLoop numerator denominator (k + 1) (taylorSum factor numerator denominator k)
          (taylorTerm factor numerator denominator k) := by
  induction before using Nat.decreasingInduction with
  | self =>
    rw [ends, fakeLoop_zero positive, taylorLoop, if_pos rfl]
    refine ⟨_, rfl, fun v => ⟨fun same => ⟨fun j later more => ?_, (Option.some.inj same).symm⟩,
      fun same => congrArg some same.2.symm⟩⟩
    exact absurd (taylorTerm_eq_zero_of_le ends later) more
  | of_succ k below ih =>
    by_cases more : taylorTerm factor numerator denominator k = 0
    · rw [more, fakeLoop_zero positive, taylorLoop, if_pos rfl]
      refine ⟨_, rfl, fun v => ⟨fun same => ⟨fun j later nonzero => ?_, (Option.some.inj same).symm⟩,
        fun same => congrArg some same.2.symm⟩⟩
      exact absurd (taylorTerm_eq_zero_of_le more later) nonzero
    by_cases fits : RoundFits factor numerator denominator k
    · obtain ⟨summed, scaled, divisor⟩ := fits
      have round : k + 1 + 1 < 2 ^ 128 := by
        by_cases early : k < 2
        · omega
        · have longer := lt_taylorSum (Nat.pos_of_ne_zero more) (Nat.not_lt.mp early)
          omega
      obtain ⟨result, ran, exact⟩ := ih
      rw [taylorSum_succ] at summed
      have nonzero : denominator * (k + 1) ≠ 0 := Nat.mul_ne_zero positive (Nat.succ_ne_zero k)
      refine ⟨result, ?_, fun v => ?_⟩
      · rw [fakeLoop_next more summed scaled divisor nonzero round, ← taylorSum_succ, ← taylorTerm_succ, ran]
      · rw [exact v, taylorLoop_term k, if_neg more]
        refine and_congr_left fun _ => ⟨fun rest j later nonzero => ?_, fun all j later => all j (by omega)⟩
        rcases Nat.eq_or_lt_of_le later with rfl | past
        · exact ⟨@taylorSum_succ factor numerator denominator k ▸ summed, scaled, divisor⟩
        · exact rest j past nonzero
    · -- a product or a sum of this round does not fit
      have refused : fakeLoop numerator denominator (k + 1)
          (taylorSum factor numerator denominator k)
          (taylorTerm factor numerator denominator k) = .ok none := by
        by_cases summed : taylorSum factor numerator denominator (k + 1) < 2 ^ 128
        · exact fakeLoop_wide more fun inside => fits ⟨summed, inside⟩
        · exact fakeLoop_full more (@taylorSum_succ factor numerator denominator k ▸ summed)
      refine ⟨_, refused, fun v => ⟨fun same => absurd same.symm (Option.some_ne_none v),
        fun same => ?_⟩⟩
      exact absurd (same.1 k le_rfl more) fits

/-- The checked exponential ends, without a panic, and returns the unbounded loop's result
exactly when every product and sum of it fits. -/
theorem fakeExponential_spec (positive : 0 < denominator) :
    ∃ result, fakeExponential factor numerator denominator = .ok result ∧
      ∀ v, result = some v ↔ Fits factor numerator denominator ∧
        v = Spec.fakeExponential factor numerator denominator := by
  obtain ⟨last, ends⟩ := @exists_taylorTerm_eq_zero factor numerator denominator positive
  by_cases scaled : factor * denominator < 2 ^ 128
  · obtain ⟨result, ran, exact⟩ := fakeLoop_spec positive.ne' (Nat.zero_le last) ends
    have product : checkedMul 128 factor denominator = some (factor * denominator) := if_pos scaled
    refine ⟨result, ?_, fun v => ?_⟩
    · rw [fakeExponential, product]
      exact ran
    · rw [exact v]
      refine and_congr_left fun _ => ⟨fun rounds => ⟨scaled, fun k => rounds k (Nat.zero_le k)⟩,
        fun fits k _ => fits.2 k⟩
  · have absent : checkedMul 128 factor denominator = none := if_neg scaled
    refine ⟨none, ?_, fun v => ⟨fun same => absurd same.symm (Option.some_ne_none v), fun same => ?_⟩⟩
    · rw [fakeExponential, absent]
      rfl
    · exact absurd same.1.1 scaled

/-- The unbounded result is the sum of all the terms. -/
theorem Spec.fakeExponential_eq {last : ℕ}
    (ends : taylorTerm factor numerator denominator last = 0) :
    Spec.fakeExponential factor numerator denominator =
      taylorSum factor numerator denominator last / denominator :=
  taylorLoop_eq (Nat.zero_le last) ends

end Apogee.Stateless
