import Apogee.Math.Multilinear

/-! # Sums over a cube, one variable at a time

A summand reads one value of each table and is quadratic along every line. Its
sum over the cube, weighted by a table of its own, is in each variable the
value of a cubic, and the cubic at the two bits is the whole sum.
-/

namespace Apogee.Math

open Finset Polynomial

variable {F : Type*} [Field F]

/-- The function is a polynomial of bounded degree. -/
def LowDegree (degree : ℕ) (function : F → F) : Prop :=
  ∃ poly : F[X], poly.natDegree ≤ degree ∧ ∀ x, function x = poly.eval x

namespace LowDegree

variable {left right : F → F} {d e : ℕ}

theorem const (value : F) : LowDegree 0 fun _ => value :=
  ⟨C value, by rw [natDegree_C], fun x => by rw [eval_C]⟩

theorem line (value step : F) : LowDegree 1 fun x => value + x * step := by
  refine ⟨C step * X + C value, natDegree_linear_le, fun x => ?_⟩
  rw [eval_add, eval_mul, eval_C, eval_C, eval_X]
  ring

theorem mono (low : LowDegree d left) (le : d ≤ e) : LowDegree e left := by
  obtain ⟨poly, degree, agrees⟩ := low
  exact ⟨poly, degree.trans le, agrees⟩

theorem add (low : LowDegree d left) (other : LowDegree d right) :
    LowDegree d fun x => left x + right x := by
  obtain ⟨first, firstDegree, firstAgrees⟩ := low
  obtain ⟨second, secondDegree, secondAgrees⟩ := other
  refine ⟨first + second, natDegree_add_le_of_degree_le firstDegree secondDegree, fun x => ?_⟩
  simp only [eval_add, firstAgrees, secondAgrees]

theorem mul (low : LowDegree d left) (other : LowDegree e right) :
    LowDegree (d + e) fun x => left x * right x := by
  obtain ⟨first, firstDegree, firstAgrees⟩ := low
  obtain ⟨second, secondDegree, secondAgrees⟩ := other
  refine ⟨first * second, natDegree_mul_le_of_le firstDegree secondDegree, fun x => ?_⟩
  simp only [eval_mul, firstAgrees, secondAgrees]

theorem smul (scale : F) (low : LowDegree d left) : LowDegree d fun x => scale * left x := by
  simpa only [zero_add] using (const scale).mul low

theorem sub (low : LowDegree d left) (other : LowDegree d right) :
    LowDegree d fun x => left x - right x := by
  have negated := low.add (other.smul (-1))
  simpa only [neg_one_mul, ← sub_eq_add_neg] using negated

theorem sum {ι : Type*} (indices : Finset ι) (functions : ι → F → F)
    (low : ∀ index ∈ indices, LowDegree d (functions index)) :
    LowDegree d fun x => ∑ index ∈ indices, functions index x := by
  classical
  induction indices using Finset.induction_on with
  | empty =>
    simp only [sum_empty]
    exact (const 0).mono (Nat.zero_le d)
  | insert index indices fresh ih =>
    simp only [sum_insert fresh]
    apply add
    · exact low index (mem_insert_self index indices)
    · exact ih fun other member => low other (mem_insert_of_mem member)

theorem list_sum {α : Type*} (list : List α) (functions : α → F → F)
    (low : ∀ entry ∈ list, LowDegree d (functions entry)) :
    LowDegree d fun x => (list.map fun entry => functions entry x).sum := by
  induction list with
  | nil => exact (const 0).mono (Nat.zero_le d)
  | cons entry list ih =>
    simp only [List.map_cons, List.sum_cons]
    apply add
    · exact low entry List.mem_cons_self
    · exact ih fun other member => low other (List.mem_cons_of_mem entry member)

/-- A cubic is its four coefficients. -/
theorem exists_cubic (low : LowDegree 3 left) :
    ∃ c0 c1 c2 c3 : F, ∀ x, left x = ((c3 * x + c2) * x + c1) * x + c0 := by
  obtain ⟨poly, degree, agrees⟩ := low
  refine ⟨poly.coeff 0, poly.coeff 1, poly.coeff 2, poly.coeff 3, fun x => ?_⟩
  rw [agrees, eval_eq_sum_range' (Nat.lt_succ_of_le degree), sum_range_succ, sum_range_succ,
    sum_range_succ, sum_range_one]
  ring

end LowDegree

section Round

variable {ι : Type*} (summand : (ι → F) → F) (bits : ℕ) (weight : ℕ → F) (tables : ι → ℕ → F)

/-- The summand read along a line of its tables' values has degree two. -/
def Quadratic (summand : (ι → F) → F) : Prop :=
  ∀ value step : ι → F, LowDegree 2 fun x => summand fun table => value table + x * step table

/-- The weighted sum over a cube. -/
def cubeSum (bits : ℕ) (weight : ℕ → F) (tables : ι → ℕ → F) : F :=
  ∑ row ∈ range (2 ^ bits), weight row * summand fun table => tables table row

/-- The weighted sum once its lowest variable is bound. -/
def roundSum (x : F) : F :=
  cubeSum summand bits (bindLow x weight) fun table => bindLow x (tables table)

/-- A round's two bits sum to the claim it inherits. -/
theorem roundSum_zero_add_one :
    roundSum summand bits weight tables 0 + roundSum summand bits weight tables 1 =
      cubeSum summand (bits + 1) weight tables := by
  unfold roundSum cubeSum
  rw [pow_succ', sum_range_double, ← sum_add_distrib]
  simp only [bindLow_zero, bindLow_one]

/-- A round of a quadratic summand is a cubic. -/
theorem roundSum_lowDegree (quadratic : Quadratic summand) :
    LowDegree 3 (roundSum summand bits weight tables) := by
  unfold roundSum cubeSum
  apply LowDegree.sum
  intro row _
  have line := LowDegree.line (weight (2 * row)) (weight (2 * row + 1) - weight (2 * row))
  exact line.mul (quadratic (fun table => tables table (2 * row))
    fun table => tables table (2 * row + 1) - tables table (2 * row))

/-- Weighted by equality with a point, the sum is an extension. -/
theorem cubeSum_eqWeight (point : List F) : cubeSum summand point.length (eqWeight point) tables =
      extension point fun row => summand fun table => tables table row := rfl

/-- With every variable bound, one row is left. -/
theorem cubeSum_zero : cubeSum summand 0 weight tables =
    weight 0 * summand fun table => tables table 0 := by
  rw [cubeSum, pow_zero, sum_range_one]

end Round

end Apogee.Math
