import Apogee.Field
import Apogee.Math.Multilinear

/-! # Multilinear polynomials over the scalar field

A polynomial is its evaluations over the cube, variable `j` being bit `j` of the
index. A column's narrow backing is read through one lift, so its lifted values
are all there is to it.
-/

namespace Apogee

open Apogee.Math

/-- A multilinear polynomial, stored as its evaluations over the cube. -/
structure MultilinearPoly where
  numVars : ℕ
  values : List Fr
  full : values.length = 2 ^ numVars
deriving DecidableEq

namespace MultilinearPoly

/-- The evaluation at a cube vertex; the source panics past the table. -/
def get (poly : MultilinearPoly) (index : ℕ) : Fr := poly.values.getD index 0

/-- The polynomial whose evaluation at each vertex a function gives. -/
def tabulate (numVars : ℕ) (entry : ℕ → Fr) : MultilinearPoly where
  numVars := numVars
  values := (List.range (2 ^ numVars)).map entry
  full := by rw [List.length_map, List.length_range]

/-- Fix variable 0, halving the table. The source panics on a constant. -/
def bind (r : Fr) (poly : MultilinearPoly) : MultilinearPoly :=
  tabulate (poly.numVars - 1) fun i =>
    let lo := poly.get (2 * i)
    let hi := poly.get (2 * i + 1)
    lo + r * (hi - lo)

/-- The value off the cube: the table folded one coordinate at a time. -/
def evaluate (poly : MultilinearPoly) (point : List Fr) : Fr :=
  (point.foldl (fun bound r => bound.bind r) poly).get 0

@[simp]
theorem bind_numVars (r : Fr) (poly : MultilinearPoly) :
    (poly.bind r).numVars = poly.numVars - 1 := rfl

theorem tabulate_get {numVars index : ℕ} (entry : ℕ → Fr) (inside : index < 2 ^ numVars) :
    (tabulate numVars entry).get index = entry index := by
  simp [get, tabulate, List.getD_eq_getElem?_getD, inside]

theorem get_eq_getElem {poly : MultilinearPoly} {index : ℕ} (inside : index < poly.values.length) :
    poly.get index = poly.values[index] := by
  simp [get, List.getD_eq_getElem?_getD, inside]

/-- A polynomial is its variable count and its evaluations. -/
theorem ext_get {left right : MultilinearPoly} (vars : left.numVars = right.numVars)
    (same : ∀ index < 2 ^ left.numVars, left.get index = right.get index) : left = right := by
  have values : left.values = right.values := by
    apply List.ext_getElem
    · rw [left.full, right.full, vars]
    · intro index inLeft inRight
      rw [← get_eq_getElem inLeft, ← get_eq_getElem inRight]
      apply same
      rwa [← left.full]
  cases left
  cases right
  cases vars
  cases values
  rfl

theorem bind_get {poly : MultilinearPoly} {bits index : ℕ} (r : Fr) (vars : poly.numVars = bits + 1)
    (inside : index < 2 ^ bits) : (poly.bind r).get index = bindLow r poly.get index := by
  rw [bind, tabulate_get _ (by rwa [vars])]
  rfl

/-- Bind several variables, in order. -/
def bindAll (poly : MultilinearPoly) (point : List Fr) : MultilinearPoly :=
  point.foldl (fun bound r => bound.bind r) poly

theorem bindAll_concat (poly : MultilinearPoly) (point : List Fr) (r : Fr) :
    poly.bindAll (point ++ [r]) = (poly.bindAll point).bind r := by
  unfold bindAll
  rw [List.foldl_append]
  rfl

@[simp]
theorem bindAll_numVars (poly : MultilinearPoly) (point : List Fr) :
    (poly.bindAll point).numVars = poly.numVars - point.length := by
  induction point using List.reverseRecOn with
  | nil => rfl
  | append_singleton point r ih =>
    rw [bindAll_concat, bind_numVars, ih, List.length_append, List.length_singleton,
      Nat.sub_sub]

/-- Binding polynomials binds their tables. -/
theorem bindAll_get {poly : MultilinearPoly} {bits : ℕ} (point : List Fr)
    (vars : poly.numVars = point.length + bits) :
    ∀ index < 2 ^ bits, (poly.bindAll point).get index = Math.bindAll point poly.get index := by
  induction point using List.reverseRecOn generalizing bits with
  | nil =>
    intro index _
    rfl
  | append_singleton point r ih =>
    intro index inside
    rw [List.length_append, List.length_singleton, add_assoc, add_comm 1] at vars
    have remaining : (poly.bindAll point).numVars = bits + 1 := by
      rw [bindAll_numVars, vars, Nat.add_sub_cancel_left]
    rw [bindAll_concat, bind_get r remaining inside, Math.bindAll_concat, bindLow, bindLow,
      ih vars _ (by rw [pow_succ]; omega), ih vars _ (by rw [pow_succ]; omega)]

/-- Evaluation is the multilinear extension. -/
theorem evaluate_eq_extension (poly : MultilinearPoly) (point : List Fr)
    (vars : point.length = poly.numVars) : poly.evaluate point = extension point poly.get := by
  rw [← bindAll_zero]
  exact bindAll_get point (by rw [vars, add_zero]) 0 (by simp)

end MultilinearPoly

/-- Equality with a point over the cube, built by iterative doubling. -/
def eqTable (point : List Fr) : List Fr :=
  point.foldl (fun table r => table.map (fun v => v - v * r) ++ table.map (fun v => v * r)) [1]

/-- Equality off the cube in both arguments. -/
def eqEval (point other : List Fr) : Fr :=
  (point.zip other).foldl (fun acc pair => acc * (pair.1 * pair.2 + (1 - pair.1) * (1 - pair.2))) 1

theorem eqTable_concat (point : List Fr) (r : Fr) : eqTable (point ++ [r]) =
      (eqTable point).map (fun v => v - v * r) ++ (eqTable point).map fun v => v * r := by
  unfold eqTable
  rw [List.foldl_append]
  rfl

theorem eqTable_length (point : List Fr) : (eqTable point).length = 2 ^ point.length := by
  induction point using List.reverseRecOn with
  | nil => rfl
  | append_singleton point r ih =>
    rw [eqTable_concat, List.length_append, List.length_map, List.length_map, ih,
      List.length_append, List.length_singleton, pow_succ]
    ring

/-- The doubled table holds the equality weights. -/
theorem eqTable_eq (point : List Fr) :
    eqTable point = (List.range (2 ^ point.length)).map (eqWeight point) := by
  induction point using List.reverseRecOn with
  | nil => rfl
  | append_singleton point r ih =>
    have doubled : 2 ^ (point ++ [r]).length = 2 ^ point.length + 2 ^ point.length := by
      rw [List.length_append, List.length_singleton, pow_succ]
      ring
    rw [eqTable_concat, ih, doubled, List.range_add, List.map_append, List.map_map, List.map_map,
      List.map_map]
    congr 1
    · apply List.map_congr_left
      intro row member
      have low : row / 2 ^ point.length = 0 := Nat.div_eq_of_lt (List.mem_range.mp member)
      rw [Function.comp_apply, eqWeight_concat, low, if_neg (by decide)]
      ring
    · apply List.map_congr_left
      intro row member
      have high : (2 ^ point.length + row) / 2 ^ point.length = 1 := by
        rw [Nat.add_div_left _ (Nat.two_pow_pos _),
          Nat.div_eq_of_lt (List.mem_range.mp member)]
      rw [Function.comp_apply, Function.comp_apply, eqWeight_concat, high, if_pos (by decide),
        show 2 ^ point.length + row = row + 2 ^ point.length * 1 by ring, eqWeight_add]

theorem eqEval_eq_eqProduct (point other : List Fr) : eqEval point other = eqProduct point other := by
  have scaled (start : Fr) : (point.zip other).foldl
      (fun acc pair => acc * (pair.1 * pair.2 + (1 - pair.1) * (1 - pair.2))) start =
      start * eqProduct point other := by
    induction point generalizing other start with
    | nil => simp [eqProduct]
    | cons r point ih =>
      cases other with
      | nil => simp [eqProduct]
      | cons y other =>
        rw [List.zip_cons_cons, List.foldl_cons, ih, eqProduct, mul_assoc]
  rw [eqEval, scaled, one_mul]

/-- The equality table as a polynomial. -/
def eqPoly (point : List Fr) : MultilinearPoly := ⟨point.length, eqTable point, eqTable_length point⟩

theorem eqPoly_get (point : List Fr) :
    ∀ row < 2 ^ point.length, (eqPoly point).get row = eqWeight point row := by
  intro row inside
  simp [eqPoly, MultilinearPoly.get, eqTable_eq, List.getD_eq_getElem?_getD, inside]

end Apogee
