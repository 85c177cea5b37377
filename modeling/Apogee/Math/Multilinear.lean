import Mathlib.Combinatorics.Nullstellensatz
import Mathlib.Data.List.GetD
import Mathlib.Tactic.LinearCombination

/-! # Multilinear extensions of tables

A table over a cube is a function of row numbers in which variable `j` is bit
`j`. Binding variables one by one from the lowest evaluates the table's
multilinear extension, the sum of its rows weighted by their equality with the
point.
-/

namespace Apogee.Math

open Finset

variable {F : Type*} [CommRing F]

/-- The table left when the lowest variable is bound. -/
def bindLow (r : F) (table : ℕ → F) (row : ℕ) : F :=
  table (2 * row) + r * (table (2 * row + 1) - table (2 * row))

/-- The table left when the lowest variables are bound to a point, in order. -/
def bindAll (point : List F) (table : ℕ → F) : ℕ → F :=
  point.foldl (fun bound r => bindLow r bound) table

/-- How far a row is from a point: the product of the coordinates a set bit
takes and the complements a clear bit takes. -/
def eqWeight : List F → ℕ → F
  | [], _ => 1
  | r :: rest, row => (if row % 2 = 1 then r else 1 - r) * eqWeight rest (row / 2)

/-- The multilinear extension of a table at a point. -/
def extension (point : List F) (table : ℕ → F) : F :=
  ∑ row ∈ range (2 ^ point.length), eqWeight point row * table row

theorem sum_range_double {M : Type*} [AddCommMonoid M] (count : ℕ) (term : ℕ → M) :
    ∑ row ∈ range (2 * count), term row =
      ∑ row ∈ range count, (term (2 * row) + term (2 * row + 1)) := by
  induction count with
  | zero => rfl
  | succ count ih =>
    rw [sum_range_succ, ← ih, show 2 * (count + 1) = 2 * count + 1 + 1 from rfl,
      sum_range_succ, sum_range_succ, add_assoc]

@[simp]
theorem bindAll_nil (table : ℕ → F) : bindAll [] table = table := rfl

@[simp]
theorem bindAll_cons (r : F) (rest : List F) (table : ℕ → F) :
    bindAll (r :: rest) table = bindAll rest (bindLow r table) := rfl

theorem bindAll_append (point rest : List F) (table : ℕ → F) :
    bindAll (point ++ rest) table = bindAll rest (bindAll point table) := by
  unfold bindAll
  exact List.foldl_append

theorem bindAll_concat (point : List F) (r : F) (table : ℕ → F) :
    bindAll (point ++ [r]) table = bindLow r (bindAll point table) :=
  bindAll_append point [r] table

theorem bindLow_zero (table : ℕ → F) (row : ℕ) : bindLow 0 table row = table (2 * row) := by
  simp only [bindLow, zero_mul, add_zero]

theorem bindLow_one (table : ℕ → F) (row : ℕ) : bindLow 1 table row = table (2 * row + 1) := by
  simp only [bindLow, one_mul, add_sub_cancel]

/-- A bound row is the extension of the block of rows above it. -/
theorem bindAll_eq_sum (point : List F) (table : ℕ → F) (row : ℕ) :
    bindAll point table row = ∑ low ∈ range (2 ^ point.length),
      eqWeight point low * table (2 ^ point.length * row + low) := by
  induction point generalizing table with
  | nil => simp [eqWeight]
  | cons r rest ih =>
    rw [bindAll_cons, ih, List.length_cons, pow_succ', sum_range_double]
    apply sum_congr rfl
    intro low _
    have even : eqWeight (r :: rest) (2 * low) = (1 - r) * eqWeight rest low := by
      rw [eqWeight, if_neg (by omega), Nat.mul_div_cancel_left low two_pos]
    have odd : eqWeight (r :: rest) (2 * low + 1) = r * eqWeight rest low := by
      rw [eqWeight, if_pos (by omega), show (2 * low + 1) / 2 = low by omega]
    have block : 2 * 2 ^ rest.length * row + 2 * low = 2 * (2 ^ rest.length * row + low) := by
      ring
    rw [even, odd, bindLow, ← add_assoc, block]
    ring

/-- Binding every variable leaves the extension. -/
theorem bindAll_zero (point : List F) (table : ℕ → F) :
    bindAll point table 0 = extension point table := by
  rw [bindAll_eq_sum, extension]
  simp only [mul_zero, zero_add]

theorem extension_congr {left right : ℕ → F} (point : List F)
    (same : ∀ row < 2 ^ point.length, left row = right row) :
    extension point left = extension point right := by
  unfold extension
  exact sum_congr rfl fun row member => by rw [same row (mem_range.mp member)]

/-- Binding is linear in the table. -/
theorem bindAll_sub (point : List F) (left right : ℕ → F) (row : ℕ) :
    bindAll point (fun row => left row - right row) row =
      bindAll point left row - bindAll point right row := by
  rw [bindAll_eq_sum, bindAll_eq_sum, bindAll_eq_sum, ← sum_sub_distrib]
  exact sum_congr rfl fun low _ => mul_sub _ _ _

theorem bindAll_shift (point : List F) (table : ℕ → F) (blocks row : ℕ) :
    bindAll point (fun row => table (row + 2 ^ point.length * blocks)) row =
      bindAll point table (row + blocks) := by
  rw [bindAll_eq_sum, bindAll_eq_sum]
  apply sum_congr rfl
  intro low _
  rw [mul_add, add_right_comm]

/-- The highest variable joins the two halves of a table by a line. -/
theorem extension_concat (point : List F) (r : F) (table : ℕ → F) :
    extension (point ++ [r]) table = extension point table +
      r * (extension point (fun row => table (row + 2 ^ point.length)) -
        extension point table) := by
  have upper : bindAll point (fun row => table (row + 2 ^ point.length)) 0 =
      bindAll point table 1 := by
    simpa only [mul_one, zero_add] using bindAll_shift point table 1 0
  rw [← bindAll_zero, ← bindAll_zero, ← bindAll_zero, upper, bindAll_concat]
  rfl

/-- A sum of tables extends to the sum of their extensions. -/
theorem extension_sum {ι : Type*} (indices : Finset ι) (weight : ι → F) (tables : ι → ℕ → F)
    (point : List F) :
    extension point (fun row => ∑ index ∈ indices, weight index * tables index row) =
      ∑ index ∈ indices, weight index * extension point (tables index) := by
  unfold extension
  simp only [mul_sum]
  rw [sum_comm]
  apply sum_congr rfl
  intro index _
  apply sum_congr rfl
  intro row _
  ring

theorem extension_zero (point : List F) : extension point (fun _ => 0) = 0 := by
  simp [extension]

theorem bindAll_smul (point : List F) (scale : F) (table : ℕ → F) (row : ℕ) :
    bindAll point (fun row => scale * table row) row = scale * bindAll point table row := by
  rw [bindAll_eq_sum, bindAll_eq_sum, mul_sum]
  exact sum_congr rfl fun low _ => by ring

theorem bindAll_const (point : List F) (value : F) (row : ℕ) :
    bindAll point (fun _ => value) row = value := by
  induction point generalizing row with
  | nil => rfl
  | cons r rest ih =>
    have bound : bindLow r (fun _ => value) = fun _ => value := by
      funext row
      rw [bindLow, sub_self, mul_zero, add_zero]
    rw [bindAll_cons, bound, ih]

theorem extension_const (point : List F) (value : F) :
    extension point (fun _ => value) = value := by
  rw [← bindAll_zero, bindAll_const]

theorem extension_cons (r : F) (rest : List F) (table : ℕ → F) :
    extension (r :: rest) table = extension rest (bindLow r table) := by
  rw [← bindAll_zero, ← bindAll_zero, bindAll_cons]

theorem extension_smul (point : List F) (scale : F) (table : ℕ → F) :
    extension point (fun row => scale * table row) = scale * extension point table := by
  rw [← bindAll_zero, bindAll_smul, bindAll_zero]

/-- The product form of equality, off the cube in both arguments. -/
def eqProduct : List F → List F → F
  | r :: point, y :: other => (r * y + (1 - r) * (1 - y)) * eqProduct point other
  | _, _ => 1

theorem bindLow_eqWeight (r y : F) (rest : List F) : bindLow y (eqWeight (r :: rest)) =
      fun row => (r * y + (1 - r) * (1 - y)) * eqWeight rest row := by
  funext row
  rw [bindLow, eqWeight, eqWeight, if_neg (by omega), if_pos (by omega),
    Nat.mul_div_cancel_left row two_pos, show (2 * row + 1) / 2 = row by omega]
  ring

/-- The extension of the equality weights is the product form. -/
theorem bindAll_eqWeight (point other : List F) (same : point.length = other.length) :
    bindAll other (eqWeight point) 0 = eqProduct point other := by
  induction point generalizing other with
  | nil =>
    cases other with
    | nil => rfl
    | cons y other => exact absurd same (by simp)
  | cons r point ih =>
    cases other with
    | nil => exact absurd same (by simp)
    | cons y other =>
      rw [bindAll_cons, bindLow_eqWeight, bindAll_smul, ih other (by simpa using same)]
      rfl

/-- A last coordinate weighs the bit above the others. -/
theorem eqWeight_concat (point : List F) (r : F) (row : ℕ) : eqWeight (point ++ [r]) row =
      eqWeight point row * (if row / 2 ^ point.length % 2 = 1 then r else 1 - r) := by
  induction point generalizing row with
  | nil => simp [eqWeight]
  | cons s point ih =>
    rw [List.cons_append, eqWeight, ih, eqWeight, List.length_cons, pow_succ', mul_assoc,
      Nat.div_div_eq_div_mul]

/-- The weights read the bits their point has, and no others. -/
theorem eqWeight_add (point : List F) (row blocks : ℕ) :
    eqWeight point (row + 2 ^ point.length * blocks) = eqWeight point row := by
  induction point generalizing row with
  | nil => rfl
  | cons s point ih =>
    have parity : (row + 2 ^ (s :: point).length * blocks) % 2 = row % 2 := by
      rw [List.length_cons, pow_succ', mul_assoc]
      omega
    have half : (row + 2 ^ (s :: point).length * blocks) / 2 =
        row / 2 + 2 ^ point.length * blocks := by
      rw [List.length_cons, pow_succ', mul_assoc]
      omega
    rw [eqWeight, parity, half, ih, eqWeight]

/-- A weight is a product over the coordinates. -/
theorem eqWeight_eq_prod (point : List F) (row : ℕ) : eqWeight point row = ∏ j ∈ range point.length,
      if row / 2 ^ j % 2 = 1 then point.getD j 0 else 1 - point.getD j 0 := by
  induction point generalizing row with
  | nil => rfl
  | cons r rest ih =>
    rw [eqWeight, ih, List.length_cons, prod_range_succ', pow_zero, Nat.div_one,
      List.getD_cons_zero, mul_comm]
    congr 1
    apply prod_congr rfl
    intro j _
    rw [List.getD_cons_succ, pow_succ', ← Nat.div_div_eq_div_mul]

end Apogee.Math

/-! ## Multilinear polynomials

A table over a cube has one multilinear polynomial: of degree one at most in each
variable, with the table's values at the vertices. Its value at a point is the
extension of the table.
-/

namespace Apogee.Math

open Finset MvPolynomial

variable {F : Type*} [CommRing F]

/-- The vertex of a row: bit `j` is coordinate `j`. -/
def vertex (F : Type*) [CommRing F] (n row : ℕ) : List F :=
  (List.range n).map fun j => ((row / 2 ^ j % 2 : ℕ) : F)

theorem length_vertex (n row : ℕ) : (vertex F n row).length = n := by
  rw [vertex, List.length_map, List.length_range]

theorem vertex_succ (n row : ℕ) :
    vertex F (n + 1) row = ((row % 2 : ℕ) : F) :: vertex F n (row / 2) := by
  rw [vertex, vertex, List.range_succ_eq_map, List.map_cons, List.map_map]
  congr 1
  · rw [pow_zero, Nat.div_one]
  · apply List.map_congr_left
    intro j _
    rw [Function.comp_apply, pow_succ', ← Nat.div_div_eq_div_mul]

/-- Binding a vertex reads its row. -/
theorem bindAll_vertex {n row : ℕ} (table : ℕ → F) (inside : row < 2 ^ n) :
    bindAll (vertex F n row) table 0 = table row := by
  induction n generalizing row table with
  | zero =>
    rw [pow_zero, Nat.lt_one_iff] at inside
    rw [inside]
    rfl
  | succ n ih =>
    rw [vertex_succ, bindAll_cons, ih _ (by rw [pow_succ] at inside; omega)]
    rcases Nat.mod_two_eq_zero_or_one row with even | odd
    · rw [even, Nat.cast_zero, bindLow_zero, show 2 * (row / 2) = row by omega]
    · rw [odd, Nat.cast_one, bindLow_one, show 2 * (row / 2) + 1 = row by omega]

theorem extension_vertex {n row : ℕ} (table : ℕ → F) (inside : row < 2 ^ n) :
    extension (vertex F n row) table = table row := by
  rw [← bindAll_zero, bindAll_vertex table inside]

/-- Equality with a vertex, in its product form, is the row's weight. -/
theorem eqProduct_vertex {row : ℕ} (point : List F) (inside : row < 2 ^ point.length) :
    eqProduct point (vertex F point.length row) = eqWeight point row := by
  rw [← bindAll_eqWeight point _ (length_vertex _ _).symm, bindAll_vertex _ inside]

/-- A polynomial's value at a list of coordinates. -/
noncomputable def valueAt {n : ℕ} (poly : MvPolynomial (Fin n) F) (point : List F) : F :=
  eval (fun j : Fin n => point.getD j 0) poly

/-- Of degree one at most in each variable. -/
def IsMultilinear {n : ℕ} (poly : MvPolynomial (Fin n) F) : Prop := ∀ j, poly.degreeOf j ≤ 1

/-- The factor of a row's weight at one variable. -/
private noncomputable def eqFactor {n : ℕ} (row : ℕ) (j : Fin n) : MvPolynomial (Fin n) F :=
  if row / 2 ^ (j : ℕ) % 2 = 1 then X j else 1 - X j

/-- The multilinear polynomial of a table. -/
noncomputable def multilinearOf (n : ℕ) (table : ℕ → F) : MvPolynomial (Fin n) F :=
  ∑ row ∈ range (2 ^ n), C (table row) * ∏ j : Fin n, eqFactor row j

/-- The polynomial's values are the table's extension. -/
theorem valueAt_multilinearOf {n : ℕ} (table : ℕ → F) {point : List F} (length : point.length = n) :
    valueAt (multilinearOf n table) point = extension point table := by
  subst length
  rw [valueAt, multilinearOf, map_sum, extension]
  apply sum_congr rfl
  intro row _
  have weight : eval (fun j : Fin point.length => point.getD j 0)
      (∏ j : Fin point.length, eqFactor row j) = eqWeight point row := by
    rw [map_prod, eqWeight_eq_prod, prod_range]
    apply prod_congr rfl
    intro j _
    rw [eqFactor]
    by_cases bit : row / 2 ^ (j : ℕ) % 2 = 1
    · rw [if_pos bit, if_pos bit, eval_X]
    · rw [if_neg bit, if_neg bit, map_sub, map_one, eval_X]
  rw [map_mul, eval_C, weight, mul_comm]

private theorem degreeOf_eqFactor [Nontrivial F] {n : ℕ} (row : ℕ) (i j : Fin n) :
    (eqFactor row j : MvPolynomial (Fin n) F).degreeOf i ≤ if i = j then 1 else 0 := by
  have monomial := degreeOf_X (R := F) i j
  rw [eqFactor]
  split
  · exact monomial.le
  · have bound := degreeOf_sub_le i (1 : MvPolynomial (Fin n) F) (X j)
    rw [degreeOf_one, monomial, Nat.zero_max] at bound
    exact bound

theorem multilinearOf_isMultilinear [Nontrivial F] (n : ℕ) (table : ℕ → F) :
    IsMultilinear (multilinearOf n table) := by
  intro i
  refine (degreeOf_sum_le i _ _).trans (Finset.sup_le fun row _ => ?_)
  refine (degreeOf_C_mul_le _ _ _).trans ((degreeOf_prod_le _ _ _).trans ?_)
  refine (sum_le_sum fun j _ => degreeOf_eqFactor row i j).trans ?_
  rw [sum_ite_eq, if_pos (mem_univ i)]

variable [IsDomain F]

/-- Zero at every vertex, a multilinear polynomial is zero. -/
theorem IsMultilinear.eq_zero {n : ℕ} {poly : MvPolynomial (Fin n) F}
    (multilinear : IsMultilinear poly)
    (vanishes : ∀ row < 2 ^ n, valueAt poly (vertex F n row) = 0) : poly = 0 := by
  classical
  refine eq_zero_of_eval_zero_at_prod_finset poly (fun _ => {0, 1}) (fun j => ?_) fun x bits => ?_
  · rw [card_pair zero_ne_one]
    exact Nat.lt_succ_of_le (multilinear j)
  · -- The row whose bits are the coordinates.
    have row := vanishes (Nat.ofBits fun j => decide (x j = 1)) (Nat.ofBits_lt_two_pow _)
    rw [valueAt] at row
    rw [← row]
    congr 1
    refine congrArg eval (funext fun j => ?_)
    have bit : Nat.ofBits (fun j => decide (x j = 1)) / 2 ^ (j : ℕ) % 2 =
        (decide (x j = 1)).toNat := by
      rw [← Nat.toNat_testBit, Nat.testBit_ofBits_lt _ _ j.isLt]
    have inside : (j : ℕ) < (vertex F n (Nat.ofBits fun j => decide (x j = 1))).length := by
      rw [length_vertex]
      exact j.isLt
    rw [List.getD_eq_getElem _ _ inside]
    simp only [vertex, List.getElem_map, List.getElem_range, bit]
    rcases Finset.mem_insert.mp (bits j) with zero | one
    · rw [zero, decide_eq_false zero_ne_one, Bool.toNat_false, Nat.cast_zero]
    · rw [mem_singleton.mp one, decide_eq_true rfl, Bool.toNat_true, Nat.cast_one]

/-- A table has one multilinear polynomial. -/
theorem eq_multilinearOf {n : ℕ} {poly : MvPolynomial (Fin n) F} {table : ℕ → F}
    (multilinear : IsMultilinear poly)
    (agrees : ∀ row < 2 ^ n, valueAt poly (vertex F n row) = table row) :
    poly = multilinearOf n table := by
  have difference : IsMultilinear (poly - multilinearOf n table) := by
    intro j
    exact (degreeOf_sub_le j _ _).trans
      (max_le (multilinear j) (multilinearOf_isMultilinear n table j))
  refine sub_eq_zero.mp (difference.eq_zero fun row inside => ?_)
  have other := valueAt_multilinearOf table (length_vertex (F := F) n row)
  rw [extension_vertex table inside] at other
  rw [valueAt] at other
  have same := agrees row inside
  rw [valueAt] at same
  rw [valueAt, map_sub, same, other, sub_self]

theorem multilinearOf_eq_zero_iff {n : ℕ} {table : ℕ → F} :
    multilinearOf n table = 0 ↔ ∀ row < 2 ^ n, table row = 0 := by
  constructor
  · intro zero row inside
    rw [← extension_vertex table inside, ← valueAt_multilinearOf table (length_vertex n row), zero,
      valueAt, map_zero]
  · intro vanishes
    refine (multilinearOf_isMultilinear n table).eq_zero fun row inside => ?_
    rw [valueAt_multilinearOf table (length_vertex n row), extension_vertex table inside,
      vanishes row inside]

end Apogee.Math
