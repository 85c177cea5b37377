import Apogee.Math.Multilinear

/-! # Tables of row-index bits

Bit `j` of the row index is a table whose extension is coordinate `j`. A table
spelled out in bits extends term by term, a bit past the point's variables to
zero.
-/

namespace Apogee.Math

open Finset

variable {F : Type*} [CommRing F]

/-- Bit `j` of the row index, as a table. -/
def bitTable (F : Type*) [CommRing F] (j row : ℕ) : F := ((row / 2 ^ j % 2 : ℕ) : F)

theorem bindLow_bitTable_zero (r : F) : bindLow r (bitTable F 0) = fun _ => r := by
  funext row
  have even : 2 * row / 2 ^ 0 % 2 = 0 := by omega
  have odd : (2 * row + 1) / 2 ^ 0 % 2 = 1 := by omega
  rw [bindLow, bitTable, bitTable, even, odd, Nat.cast_zero, Nat.cast_one]
  ring

theorem bitTable_double (j row : ℕ) : bitTable F (j + 1) (2 * row) = bitTable F j row ∧
      bitTable F (j + 1) (2 * row + 1) = bitTable F j row := by
  have even : 2 * row / 2 ^ (j + 1) = row / 2 ^ j := by
    rw [pow_succ', ← Nat.div_div_eq_div_mul, Nat.mul_div_cancel_left row two_pos]
  have odd : (2 * row + 1) / 2 ^ (j + 1) = row / 2 ^ j := by
    rw [pow_succ', ← Nat.div_div_eq_div_mul, show (2 * row + 1) / 2 = row by omega]
  constructor
  · rw [bitTable, even, bitTable]
  · rw [bitTable, odd, bitTable]

theorem bindLow_bitTable_succ (r : F) (j : ℕ) : bindLow r (bitTable F (j + 1)) = bitTable F j := by
  funext row
  rw [bindLow, (bitTable_double j row).1, (bitTable_double j row).2, sub_self, mul_zero, add_zero]

/-- A bit's table extends to its coordinate, a missing one to zero. -/
theorem extension_bitTable (point : List F) (j : ℕ) :
    extension point (bitTable F j) = point.getD j 0 := by
  induction point generalizing j with
  | nil => simp [extension, eqWeight, bitTable]
  | cons r rest ih =>
    rw [extension_cons]
    cases j with
    | zero => rw [bindLow_bitTable_zero, extension_const, List.getD_cons_zero]
    | succ j => rw [bindLow_bitTable_succ, ih, List.getD_cons_succ]

/-- Two bits' product extends to the product of their coordinates. -/
theorem extension_bitTable_mul (point : List F) {j k : ℕ} (before : j < k) :
    extension point (fun row => bitTable F j row * bitTable F k row) =
      point.getD j 0 * point.getD k 0 := by
  induction point generalizing j k with
  | nil => simp [extension, eqWeight, bitTable]
  | cons r rest ih =>
    rw [extension_cons]
    cases k with
    | zero => exact absurd before (Nat.not_lt_zero j)
    | succ k =>
      cases j with
      | zero =>
        have bound : bindLow r (fun row => bitTable F 0 row * bitTable F (k + 1) row) =
            fun row => r * bitTable F k row := by
          funext row
          have first := congrFun (bindLow_bitTable_zero r) row
          rw [bindLow] at first
          rw [bindLow, (bitTable_double k row).1, (bitTable_double k row).2]
          linear_combination bitTable F k row * first
        rw [bound, extension_smul, extension_bitTable, List.getD_cons_zero,
          List.getD_cons_succ]
      | succ j =>
        have bound : bindLow r (fun row => bitTable F (j + 1) row * bitTable F (k + 1) row) =
            fun row => bitTable F j row * bitTable F k row := by
          funext row
          rw [bindLow, (bitTable_double k row).1, (bitTable_double k row).2,
            (bitTable_double j row).1, (bitTable_double j row).2]
          ring
        rw [bound, ih (Nat.lt_of_succ_lt_succ before), List.getD_cons_succ,
          List.getD_cons_succ]

/-- A number below a power of two is its bits. -/
theorem natCast_mod_eq_sum (value bits : ℕ) :
    ((value % 2 ^ bits : ℕ) : F) = ∑ j ∈ range bits, 2 ^ j * bitTable F j value := by
  induction bits with
  | zero => simp [Nat.mod_one]
  | succ bits ih =>
    rw [sum_range_succ, ← ih, Nat.mod_pow_succ, Nat.cast_add, Nat.cast_mul, Nat.cast_pow,
      Nat.cast_ofNat, bitTable]

theorem extension_bits (point : List F) (bits : ℕ) (bit : ℕ → ℕ → F) :
    extension point (fun row => ∑ j ∈ range bits, 2 ^ j * bit j row) =
      ∑ j ∈ range bits, 2 ^ j * extension point (bit j) :=
  extension_sum (range bits) (fun j => 2 ^ j) bit point

/-- A Horner loop from the highest digit. -/
theorem foldl_double (digits : ℕ → F) (count : ℕ) :
    (List.range count).reverse.foldl (fun acc j => acc + acc + digits j) 0 =
      ∑ j ∈ range count, 2 ^ j * digits j := by
  rw [List.foldl_reverse]
  have shifted : ∀ (start : F) (count : ℕ),
      (List.range count).foldr (fun j acc => acc + acc + digits j) start =
        ∑ j ∈ range count, 2 ^ j * digits j + 2 ^ count * start := by
    intro start count
    induction count generalizing start with
    | zero => simp
    | succ count ih =>
      rw [List.range_succ, List.foldr_append, List.foldr_cons, List.foldr_nil, ih,
        sum_range_succ, pow_succ]
      ring
  rw [shifted, mul_zero, add_zero]

theorem foldl_double_point (point : List F) : point.reverse.foldl (fun acc y => acc + acc + y) 0 =
      ∑ j ∈ range point.length, 2 ^ j * point.getD j 0 := by
  rw [List.foldl_reverse]
  induction point with
  | nil => rfl
  | cons r rest ih =>
    rw [List.foldr_cons, ih, List.length_cons, sum_range_succ', List.getD_cons_zero, pow_zero,
      one_mul, ← two_mul, mul_sum]
    congr 1
    apply sum_congr rfl
    intro j _
    rw [List.getD_cons_succ, pow_succ]
    ring

/-- Bits past a point's variables weigh nothing. -/
theorem sum_take (point : List F) (bits : ℕ) :
    ∑ j ∈ range (point.take bits).length, 2 ^ j * (point.take bits).getD j 0 =
      ∑ j ∈ range bits, 2 ^ j * point.getD j 0 := by
  rw [List.length_take]
  have inside : ∀ j ∈ range (min bits point.length),
      2 ^ j * (point.take bits).getD j 0 = 2 ^ j * point.getD j 0 := by
    intro j member
    have small : j < bits := lt_of_lt_of_le (mem_range.mp member) (min_le_left _ _)
    rw [List.getD_eq_getElem?_getD, List.getD_eq_getElem?_getD, List.getElem?_take_of_lt small]
  rw [sum_congr rfl inside]
  apply sum_subset (range_mono (min_le_left _ _))
  intro j member outside
  have past : point.length ≤ j := by
    simp only [mem_range, lt_min_iff, not_and, not_lt] at member outside
    exact outside member
  rw [List.getD_eq_getElem?_getD, List.getElem?_eq_none past, Option.getD_none, mul_zero]

end Apogee.Math
