import Apogee.Circuit.Gate
import Apogee.Gkr.Poly
import Apogee.Math.BitTable

/-! # Virtual tables

A virtual table is never materialized: it is a function of the row index on the
cube and a closed form off it. The closed form is the table's multilinear
extension, at any number of variables.
-/

namespace Apogee

open Apogee.Math Finset

/-- Window 0's rows below `2 ^ RAM_LIVE_BIT` are masked. -/
def RAM_LIVE_BIT : ℕ := 14

/-- The bits of the row index a range table keeps. The source panics on a kind
that is no range table. -/
def rangeBits : VirtualKind → ℕ
  | .range19 => 19
  | .range16 => 16
  | _ => 0

/-- A virtual table's value at a row. -/
def virtualAtRow (kind : VirtualKind) (row : ℕ) : Fr :=
  match kind with
  | .rowIndex => (row : Fr)
  | .ramLive => if 2 ^ RAM_LIVE_BIT ≤ row then 1 else 0
  | .range19 | .range16 => ((row % 2 ^ rangeBits kind : ℕ) : Fr)
  | .xor8A => ((row % 2 ^ 8 : ℕ) : Fr)
  | .xor8B => ((row / 2 ^ 8 % 2 ^ 8 : ℕ) : Fr)
  | .xor8Out => (((row % 2 ^ 8) ^^^ (row / 2 ^ 8 % 2 ^ 8) : ℕ) : Fr)

/-- One byte of the row index, over the variables the point has. -/
def byteAtPoint (point : List Fr) (first : ℕ) : Fr :=
  (List.range 8).reverse.foldl (fun acc j => acc + acc + point.getD (first + j) 0) 0

/-- A virtual table's closed form at a point. -/
def virtualAtPoint (kind : VirtualKind) (point : List Fr) : Fr :=
  match kind with
  | .rowIndex => point.reverse.foldl (fun acc y => acc + acc + y) 0
  | .ramLive => 1 - (point.drop RAM_LIVE_BIT).foldl (fun acc y => acc * (1 - y)) 1
  | .range19 | .range16 =>
    (point.take (rangeBits kind)).reverse.foldl (fun acc y => acc + acc + y) 0
  | .xor8A => byteAtPoint point 0
  | .xor8B => byteAtPoint point 8
  | .xor8Out => (List.range 8).reverse.foldl (fun acc j =>
    let y := point.getD j 0
    let z := point.getD (j + 8) 0
    acc + acc + y + z - (y * z + y * z)) 0

theorem extension_mod (point : List Fr) (bits : ℕ) :
    extension point (fun row => ((row % 2 ^ bits : ℕ) : Fr)) =
      ∑ j ∈ range bits, 2 ^ j * point.getD j 0 := by
  simp only [natCast_mod_eq_sum, extension_bits]
  exact sum_congr rfl fun j _ => by rw [← extension_bitTable]

theorem extension_rowIndex (point : List Fr) : extension point (fun row => (row : Fr)) =
      ∑ j ∈ range point.length, 2 ^ j * point.getD j 0 := by
  rw [← extension_mod]
  apply extension_congr
  intro row inside
  rw [Nat.mod_eq_of_lt inside]

theorem extension_byte (point : List Fr) (first : ℕ) :
    extension point (fun row => ((row / 2 ^ first % 2 ^ 8 : ℕ) : Fr)) = byteAtPoint point first := by
  rw [byteAtPoint, foldl_double (fun j => point.getD (first + j) 0)]
  have shifted : (fun row : ℕ => ((row / 2 ^ first % 2 ^ 8 : ℕ) : Fr)) =
      fun row => ∑ j ∈ range 8, 2 ^ j * bitTable Fr (first + j) row := by
    funext row
    rw [natCast_mod_eq_sum]
    apply sum_congr rfl
    intro j _
    rw [bitTable, bitTable, Nat.div_div_eq_div_mul, ← pow_add]
  rw [shifted, extension_bits]
  exact sum_congr rfl fun j _ => by rw [← extension_bitTable]

theorem bitTable_xor (left right j : ℕ) :
    bitTable Fr j (left ^^^ right) = bitTable Fr j left + bitTable Fr j right -
      (bitTable Fr j left * bitTable Fr j right + bitTable Fr j left * bitTable Fr j right) := by
  have bits : (left ^^^ right) / 2 ^ j % 2 = (left / 2 ^ j % 2 + right / 2 ^ j % 2) % 2 := by
    have xor := Nat.testBit_xor left right j
    simp only [Nat.testBit_eq_decide_div_mod_eq] at xor
    by_cases leftBit : left / 2 ^ j % 2 = 1
    · by_cases rightBit : right / 2 ^ j % 2 = 1
      · simp [leftBit, rightBit] at xor ⊢
        omega
      · simp [leftBit, rightBit] at xor ⊢
        omega
    · by_cases rightBit : right / 2 ^ j % 2 = 1
      · simp [leftBit, rightBit] at xor ⊢
        omega
      · simp [leftBit, rightBit] at xor ⊢
        omega
  unfold bitTable
  rw [bits]
  rcases Nat.mod_two_eq_zero_or_one (left / 2 ^ j) with leftBit | leftBit <;>
    rcases Nat.mod_two_eq_zero_or_one (right / 2 ^ j) with rightBit | rightBit <;>
    rw [leftBit, rightBit] <;> norm_num

theorem xor_lt_byte (row : ℕ) : (row % 2 ^ 8) ^^^ (row / 2 ^ 8 % 2 ^ 8) < 2 ^ 8 :=
  Nat.xor_lt_two_pow (Nat.mod_lt _ (by decide)) (Nat.mod_lt _ (by decide))

theorem bitTable_mod {j bits : ℕ} (inside : j < bits) (value : ℕ) :
    bitTable Fr j (value % 2 ^ bits) = bitTable Fr j value := by
  have bit : value % 2 ^ bits / 2 ^ j % 2 = value / 2 ^ j % 2 := by
    have masked := Nat.testBit_mod_two_pow value bits j
    rw [decide_eq_true inside, Bool.true_and] at masked
    simp only [Nat.testBit_eq_decide_div_mod_eq] at masked
    have same := decide_eq_decide.mp masked
    omega
  rw [bitTable, bit, bitTable]

theorem extension_xor (point : List Fr) :
    extension point (fun row => (((row % 2 ^ 8) ^^^ (row / 2 ^ 8 % 2 ^ 8) : ℕ) : Fr)) =
      ∑ j ∈ range 8, 2 ^ j * (point.getD j 0 + point.getD (j + 8) 0 -
        (point.getD j 0 * point.getD (j + 8) 0 + point.getD j 0 * point.getD (j + 8) 0)) := by
  have spread : (fun row : ℕ => (((row % 2 ^ 8) ^^^ (row / 2 ^ 8 % 2 ^ 8) : ℕ) : Fr)) =
      fun row => ∑ j ∈ range 8, 2 ^ j * (bitTable Fr j row + bitTable Fr (j + 8) row -
        (bitTable Fr j row * bitTable Fr (j + 8) row +
          bitTable Fr j row * bitTable Fr (j + 8) row)) := by
    funext row
    rw [← Nat.mod_eq_of_lt (xor_lt_byte row), natCast_mod_eq_sum]
    apply sum_congr rfl
    intro j member
    have high : bitTable Fr j (row / 2 ^ 8) = bitTable Fr (j + 8) row := by
      rw [bitTable, Nat.div_div_eq_div_mul, ← pow_add, add_comm 8, bitTable]
    rw [bitTable_xor, bitTable_mod (mem_range.mp member), bitTable_mod (mem_range.mp member), high]
  rw [spread, extension_bits]
  apply sum_congr rfl
  intro j _
  have joined := extension_sum (range 3) (fun i => if i = 2 then (-1 - 1 : Fr) else 1)
    (fun i row => if i = 0 then bitTable Fr j row else if i = 1 then bitTable Fr (j + 8) row
      else bitTable Fr j row * bitTable Fr (j + 8) row) point
  simp only [sum_range_succ, sum_range_zero, zero_add, one_mul, ↓reduceIte, OfNat.ofNat_ne_zero,
    OfNat.zero_ne_ofNat, one_ne_zero, OfNat.one_ne_ofNat, OfNat.ofNat_ne_one] at joined
  have table : (fun row => bitTable Fr j row + bitTable Fr (j + 8) row -
      (bitTable Fr j row * bitTable Fr (j + 8) row + bitTable Fr j row * bitTable Fr (j + 8) row)) =
      fun row => bitTable Fr j row + bitTable Fr (j + 8) row +
        (-1 - 1) * (bitTable Fr j row * bitTable Fr (j + 8) row) := by
    funext row
    ring
  rw [table, joined, extension_bitTable, extension_bitTable,
    extension_bitTable_mul point (Nat.lt_add_of_pos_right (by decide))]
  ring

/-- A threshold at a power of two, whatever the variables below it. -/
theorem extension_threshold (point : List Fr) (bit : ℕ) :
    extension point (fun row => if 2 ^ bit ≤ row then (1 : Fr) else 0) =
      1 - (point.drop bit).foldl (fun acc y => acc * (1 - y)) 1 := by
  induction point generalizing bit with
  | nil =>
    have none_ : ¬ 2 ^ bit ≤ 0 := Nat.not_le.mpr (Nat.two_pow_pos bit)
    rw [extension, List.length_nil, pow_zero, sum_range_one, if_neg none_, mul_zero,
      List.drop_nil, List.foldl_nil, sub_self]
  | cons r rest ih =>
    rw [extension_cons]
    cases bit with
    | zero =>
      have bound : bindLow r (fun row => if 2 ^ 0 ≤ row then (1 : Fr) else 0) = fun row =>
          r + (1 - r) * if 2 ^ 0 ≤ row then (1 : Fr) else 0 := by
        funext row
        by_cases live : 2 ^ 0 ≤ row
        · rw [bindLow, if_pos (by omega), if_pos (by omega), if_pos live]
          ring
        · rw [bindLow, if_neg (by omega), if_pos (by omega), if_neg live]
          ring
      have split := extension_sum (range 2) (fun i => if i = 0 then r else 1 - r)
        (fun i row => if i = 0 then 1 else if 2 ^ 0 ≤ row then (1 : Fr) else 0) rest
      simp only [sum_range_succ, sum_range_zero, zero_add, ↓reduceIte, mul_one, one_ne_zero]
        at split
      have scaled : ∀ (list : List Fr) (start : Fr),
          list.foldl (fun acc y => acc * (1 - y)) start =
            start * list.foldl (fun acc y => acc * (1 - y)) 1 := by
        intro list
        induction list with
        | nil => simp
        | cons y list ihList =>
          intro start
          rw [List.foldl_cons, List.foldl_cons, ihList, ihList (1 * (1 - y))]
          ring
      rw [bound, split, extension_const, ih, List.drop_zero, List.drop_zero, List.foldl_cons,
        scaled rest (1 * (1 - r))]
      ring
    | succ bit =>
      have bound : bindLow r (fun row => if 2 ^ (bit + 1) ≤ row then (1 : Fr) else 0) =
          fun row => if 2 ^ bit ≤ row then (1 : Fr) else 0 := by
        funext row
        rw [pow_succ']
        by_cases live : 2 ^ bit ≤ row
        · rw [bindLow, if_pos (by omega), if_pos (by omega), if_pos live]
          ring
        · rw [bindLow, if_neg (by omega), if_neg (by omega), if_neg live]
          ring
      rw [bound, ih, List.drop_succ_cons]

/-- A closed form is its table's multilinear extension. -/
theorem virtualAtPoint_eq_extension (kind : VirtualKind) (point : List Fr) :
    virtualAtPoint kind point = extension point (virtualAtRow kind) := by
  cases kind with
  | rowIndex =>
    have table : virtualAtRow .rowIndex = fun row : ℕ => (row : Fr) := rfl
    rw [table, extension_rowIndex]
    exact foldl_double_point point
  | ramLive => exact (extension_threshold point RAM_LIVE_BIT).symm
  | range19 =>
    have table : virtualAtRow .range19 = fun row => ((row % 2 ^ 19 : ℕ) : Fr) := rfl
    rw [table, extension_mod, ← sum_take]
    exact foldl_double_point (point.take 19)
  | range16 =>
    have table : virtualAtRow .range16 = fun row => ((row % 2 ^ 16 : ℕ) : Fr) := rfl
    rw [table, extension_mod, ← sum_take]
    exact foldl_double_point (point.take 16)
  | xor8A =>
    have table : virtualAtRow .xor8A = fun row => ((row / 2 ^ 0 % 2 ^ 8 : ℕ) : Fr) := by
      funext row
      rw [pow_zero, Nat.div_one]
      rfl
    rw [table, extension_byte]
    rfl
  | xor8B => exact (extension_byte point 8).symm
  | xor8Out =>
    have table : virtualAtRow .xor8Out =
        fun row => (((row % 2 ^ 8) ^^^ (row / 2 ^ 8 % 2 ^ 8) : ℕ) : Fr) := rfl
    rw [table, extension_xor, ← foldl_double]
    have step : (fun (acc : Fr) j => acc + acc + point.getD j 0 + point.getD (j + 8) 0 -
        (point.getD j 0 * point.getD (j + 8) 0 + point.getD j 0 * point.getD (j + 8) 0)) =
        fun acc j => acc + acc + (point.getD j 0 + point.getD (j + 8) 0 -
          (point.getD j 0 * point.getD (j + 8) 0 + point.getD j 0 * point.getD (j + 8) 0)) := by
      funext acc j
      ring
    rw [← step]
    rfl

/-- At any number of variables, a closed form sums the table's rows by their equality
weights. -/
theorem virtualAtPoint_eq_sum (kind : VirtualKind) (point : List Fr) :
    virtualAtPoint kind point = ∑ y ∈ range (2 ^ point.length),
      (∏ j ∈ range point.length,
        if y / 2 ^ j % 2 = 1 then point.getD j 0 else 1 - point.getD j 0) *
          virtualAtRow kind y := by
  rw [virtualAtPoint_eq_extension, extension]
  exact sum_congr rfl fun y _ => by rw [eqWeight_eq_prod]

end Apogee
