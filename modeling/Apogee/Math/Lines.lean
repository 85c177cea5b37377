import Apogee.Math.Multilinear

/-! # Lines that keep a table nonzero

Binding one variable of a nonzero table leaves a nonzero table, unless the
challenge is the root of a line fixed by the table: the line through its first
pair of rows that is not zero.
-/

namespace Apogee.Math

open Polynomial Finset

variable {F : Type*} [CommRing F]

/-- The polynomial of a list of coefficients, lowest first. -/
noncomputable def ofCoeffs : List F → F[X]
  | [] => 0
  | c :: rest => C c + X * ofCoeffs rest

theorem ofCoeffs_coeff (coeffs : List F) (n : ℕ) : (ofCoeffs coeffs).coeff n = coeffs.getD n 0 := by
  induction coeffs generalizing n with
  | nil => simp [ofCoeffs]
  | cons c rest ih =>
    rw [ofCoeffs, coeff_add]
    cases n with
    | zero => rw [coeff_C_zero, coeff_X_mul_zero, add_zero, List.getD_cons_zero]
    | succ n => rw [coeff_C_succ, coeff_X_mul, zero_add, ih, List.getD_cons_succ]

theorem ofCoeffs_ne_zero {coeffs : List F} {n : ℕ} (nonzero : coeffs.getD n 0 ≠ 0) :
    ofCoeffs coeffs ≠ 0 := by
  intro zero
  apply nonzero
  rw [← ofCoeffs_coeff, zero, coeff_zero]

theorem ofCoeffs_natDegree {coeffs : List F} {bound : ℕ} (short : coeffs.length ≤ bound + 1) :
    (ofCoeffs coeffs).natDegree ≤ bound := by
  rw [natDegree_le_iff_coeff_eq_zero]
  intro n past
  rw [ofCoeffs_coeff, List.getD_eq_getElem?_getD, List.getElem?_eq_none (by omega),
    Option.getD_none]

theorem ofCoeffs_eval (coeffs : List F) (x : F) :
    (ofCoeffs coeffs).eval x = ∑ j ∈ range coeffs.length, x ^ j * coeffs.getD j 0 := by
  induction coeffs with
  | nil => simp [ofCoeffs]
  | cons c rest ih =>
    rw [ofCoeffs, eval_add, eval_C, eval_mul, eval_X, ih, List.length_cons, sum_range_succ',
      pow_zero, one_mul, List.getD_cons_zero, mul_sum, add_comm]
    congr 1
    apply sum_congr rfl
    intro j _
    rw [List.getD_cons_succ, pow_succ', mul_assoc]

variable [DecidableEq F]

/-- The line through the first pair that is not zero. -/
def firstLine (pairs : List (F × F)) : List F :=
  match pairs.find? fun pair => pair ≠ 0 with
  | some pair => [pair.1, pair.2 - pair.1]
  | none => []

theorem firstLine_length (pairs : List (F × F)) : (firstLine pairs).length ≤ 2 := by
  unfold firstLine
  split
  · exact le_rfl
  · exact Nat.zero_le _

/-- Where some pair is not zero, a challenge that is no root leaves a line that
is not zero. -/
theorem firstLine_spec {pairs : List (F × F)} (nonzero : ∃ pair ∈ pairs, pair ≠ 0) :
    ofCoeffs (firstLine pairs) ≠ 0 ∧ ∀ r, ¬ (ofCoeffs (firstLine pairs)).IsRoot r →
      ∃ pair ∈ pairs, pair.1 + r * (pair.2 - pair.1) ≠ 0 := by
  cases found : pairs.find? fun pair => pair ≠ 0 with
  | none =>
    obtain ⟨pair, member, nonzero⟩ := nonzero
    have zero := List.find?_eq_none.mp found pair member
    exact absurd nonzero (by simpa using zero)
  | some pair =>
    have line : firstLine pairs = [pair.1, pair.2 - pair.1] := by rw [firstLine, found]
    have notZero : pair ≠ 0 := by simpa using List.find?_some found
    rw [line]
    constructor
    · by_cases low : pair.1 = 0
      · apply @ofCoeffs_ne_zero _ _ _ 1
        intro slope
        have high : pair.2 - pair.1 = 0 := slope
        rw [low, sub_zero] at high
        exact notZero (Prod.ext low high)
      · exact @ofCoeffs_ne_zero _ _ _ 0 low
    · intro r notRoot
      refine ⟨pair, List.mem_of_find?_eq_some found, ?_⟩
      intro zero
      apply notRoot
      rw [IsRoot, ofCoeffs, ofCoeffs, ofCoeffs, eval_add, eval_mul, eval_add, eval_mul, eval_C,
        eval_C, eval_X, eval_zero, mul_zero, add_zero]
      exact zero

/-- Some table is not zero on some row. -/
def NonzeroBelow (tables : List (ℕ → F)) (bits : ℕ) : Prop :=
  ∃ table ∈ tables, ∃ row < 2 ^ bits, table row ≠ 0

/-- The pairs of rows that the lowest variable joins. -/
def linePairs (tables : List (ℕ → F)) (bits : ℕ) : List (F × F) :=
  tables.flatMap fun table =>
    (List.range (2 ^ bits)).map fun row => (table (2 * row), table (2 * row + 1))

/-- Bound to a challenge that is no root of their first line, nonzero tables stay
nonzero. -/
theorem nonzeroBelow_bind {tables : List (ℕ → F)} {point : List F} {bits : ℕ}
    (nonzero : NonzeroBelow (tables.map (bindAll point)) (bits + 1)) :
    let line := ofCoeffs (firstLine (linePairs (tables.map (bindAll point)) bits))
    line ≠ 0 ∧ ∀ r, ¬ line.IsRoot r → NonzeroBelow (tables.map (bindAll (point ++ [r]))) bits := by
  have pairs : ∃ pair ∈ linePairs (tables.map (bindAll point)) bits, pair ≠ 0 := by
    obtain ⟨table, member, row, inside, value⟩ := nonzero
    have half : row / 2 < 2 ^ bits := by
      rw [pow_succ] at inside
      omega
    refine ⟨(table (2 * (row / 2)), table (2 * (row / 2) + 1)), ?_, ?_⟩
    · exact List.mem_flatMap.mpr ⟨table, member, List.mem_map.mpr
        ⟨row / 2, List.mem_range.mpr half, rfl⟩⟩
    · intro zero
      apply value
      rcases Nat.mod_two_eq_zero_or_one row with even | odd
      · have first := congrArg Prod.fst zero
        rwa [show 2 * (row / 2) = row by omega] at first
      · have second := congrArg Prod.snd zero
        rwa [show 2 * (row / 2) + 1 = row by omega] at second
  obtain ⟨notZero, stays⟩ := firstLine_spec pairs
  refine ⟨notZero, ?_⟩
  intro r notRoot
  obtain ⟨pair, member, value⟩ := stays r notRoot
  obtain ⟨table, tableMember, inRows⟩ := List.mem_flatMap.mp member
  obtain ⟨row, inside, rfl⟩ := List.mem_map.mp inRows
  obtain ⟨source, sourceMember, rfl⟩ := List.mem_map.mp tableMember
  refine ⟨bindAll (point ++ [r]) source, List.mem_map.mpr ⟨source, sourceMember, rfl⟩, row,
    List.mem_range.mp inside, ?_⟩
  rw [bindAll_concat]
  exact value

end Apogee.Math
