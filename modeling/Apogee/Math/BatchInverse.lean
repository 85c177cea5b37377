import Mathlib.Algebra.BigOperators.Ring.List
import Mathlib.Tactic.FieldSimp
import Mathlib.Tactic.Ring

/-! # Inverting many elements with one inversion

The running products of the nonzero entries are kept, the last is inverted, and
each entry's inverse is split off the inverse of the product up to it. The loop
runs on whatever spells the field's elements, and its multiplication may fail.
-/

namespace Apogee.Math

section Loop

variable {α : Type*} [DecidableEq α] (mul : α → α → Option α)
  (inverse : α → Option (Option α)) (zero one : α)

/-- One entry of the forward pass, which multiplies the nonzero entries. -/
def batchPush (state : List α × α) (x : α) : Option (List α × α) :=
  (if x ≠ zero then mul state.2 x else some state.2).map fun next => (state.1 ++ [state.2], next)

/-- The products of the nonzero entries before each entry, and of them all. -/
def batchProducts (xs : List α) : Option (List α × α) :=
  xs.foldlM (batchPush mul zero) ([], one)

/-- One entry of the backward pass, with the inverse of what comes up to it. -/
def batchStep (before : List α) (state : List α × α) (i : ℕ) : Option (List α × α) := do
  let (xs, inv) := state
  let x ← xs[i]?
  if x = zero then some (xs, inv) else do
    let nextInv ← mul inv x
    let first ← before[i]?
    let y ← mul inv first
    some (xs.set i y, nextInv)

/-- Every entry inverted in place; the product of the nonzero ones must have an
inverse. -/
def batchInverse (xs : List α) : Option (List α) := do
  let (before, running) ← batchProducts mul zero one xs
  let inverted ← inverse running
  let inv ← inverted
  let (out, _) ← (List.range xs.length).reverse.foldlM (batchStep mul zero before) (xs, inv)
  some out

end Loop

variable {F α : Type*} [Field F] [DecidableEq F] [DecidableEq α]

/-- The nonzero factor of an entry. -/
def factor (v : F) : F := if v = 0 then 1 else v

/-- The running products before each entry. -/
def runs (w : F) : List F → List F
  | [] => []
  | v :: vs => w :: runs (w * factor v) vs

theorem getElem?_runs (w : F) {vs : List F} {i : ℕ} (inside : i < vs.length) :
    (runs w vs)[i]? = some (w * ((vs.take i).map factor).prod) := by
  induction vs generalizing w i with
  | nil => exact absurd inside (Nat.not_lt_zero i)
  | cons v vs ih =>
    cases i with
    | zero => simp [runs]
    | succ i =>
      rw [runs, List.getElem?_cons_succ, ih _ (by simpa using inside), List.take_succ_cons,
        List.map_cons, List.prod_cons, mul_assoc]

theorem factor_prod_ne_zero (vs : List F) : (vs.map factor).prod ≠ 0 := by
  intro zero
  obtain ⟨v, -, isZero⟩ := List.mem_map.mp (List.prod_eq_zero_iff.mp zero)
  by_cases none : v = 0
  · rw [factor, if_pos none] at isZero
    exact one_ne_zero isZero
  · rw [factor, if_neg none] at isZero
    exact none isZero

/-- The loop's operations are the field's on what spells its elements. -/
structure SpellsField (spell : F → α) (mul : α → α → Option α)
    (inverse : α → Option (Option α)) (zero one : α) : Prop where
  mul_eq : ∀ u v, mul (spell u) (spell v) = some (spell (u * v))
  eq_zero : ∀ v, spell v = zero ↔ v = 0
  one_eq : one = spell 1
  inverse_eq : ∀ v, v ≠ 0 → inverse (spell v) = some (some (spell v⁻¹))

namespace SpellsField

variable {spell : F → α} {mul : α → α → Option α} {inverse : α → Option (Option α)} {zero one : α}
  (spells : SpellsField spell mul inverse zero one)

include spells

theorem batchProducts_eq (vs : List F) : batchProducts mul zero one (vs.map spell) =
      some ((runs 1 vs).map spell, spell (vs.map factor).prod) := by
  have folded (before : List α) (w : F) :
      (vs.map spell).foldlM (batchPush mul zero) (before, spell w) =
        some (before ++ (runs w vs).map spell, spell (w * (vs.map factor).prod)) := by
    induction vs generalizing before w with
    | nil => simp [runs]
    | cons v vs ih =>
      have next : batchPush mul zero (before, spell w) (spell v) =
          some (before ++ [spell w], spell (w * factor v)) := by
        by_cases isZero : v = 0
        · rw [batchPush, if_neg (not_not.mpr ((spells.eq_zero v).mpr isZero)), factor,
            if_pos isZero, mul_one]
          rfl
        · rw [batchPush, if_pos (fun same => isZero ((spells.eq_zero v).mp same)), factor,
            if_neg isZero, spells.mul_eq]
          rfl
      rw [List.map_cons, List.foldlM_cons, next, Option.bind_eq_bind, Option.bind_some, ih,
        runs, List.map_cons, List.map_cons, List.prod_cons, List.append_assoc, mul_assoc]
      rfl
  rw [batchProducts, spells.one_eq]
  exact (folded [] 1).trans (by rw [one_mul, List.nil_append])

/-- The backward pass leaves the entries it has passed inverted, with the inverse
of the product of the nonzero entries before them. -/
theorem batchSteps_eq (vs : List F) {m : ℕ} (inside : m ≤ vs.length) :
    (List.range m).reverse.foldlM (batchStep mul zero ((runs 1 vs).map spell))
        ((vs.take m).map spell ++ (vs.drop m).map (fun v => spell v⁻¹),
          spell ((vs.take m).map factor).prod⁻¹) =
      some (vs.map (fun v => spell v⁻¹), spell 1) := by
  induction m with
  | zero => simp
  | succ m ih =>
    have here : vs.take (m + 1) = vs.take m ++ [vs[m]] := List.take_succ_eq_append_getElem inside
    have there : vs.drop m = vs[m] :: vs.drop (m + 1) := List.drop_eq_getElem_cons inside
    have length : ((vs.take m).map spell).length = m := by
      rw [List.length_map, List.length_take]
      omega
    have entry : ((vs.take (m + 1)).map spell ++
        (vs.drop (m + 1)).map (fun v => spell v⁻¹))[m]? = some (spell vs[m]) := by
      rw [here, List.map_append, List.append_assoc,
        List.getElem?_append_right (by rw [length]), length, Nat.sub_self]
      rfl
    have before : ((runs 1 vs).map spell)[m]? = some (spell ((vs.take m).map factor).prod) := by
      rw [List.getElem?_map, getElem?_runs 1 inside, one_mul]
      rfl
    rw [List.range_succ, List.reverse_append, List.reverse_singleton, List.singleton_append,
      List.foldlM_cons, ← ih (by omega), batchStep]
    simp only [entry, Option.bind_eq_bind, Option.bind_some, spells.eq_zero]
    by_cases isZero : vs[m] = 0
    · rw [if_pos isZero, Option.bind_some, here, there, isZero]
      simp [factor]
    · rw [if_neg isZero]
      simp only [spells.mul_eq, before, Option.bind_some]
      rw [here, List.map_append, List.map_append, List.prod_append, List.append_assoc,
        List.set_append_right _ _ (by rw [length]), length, Nat.sub_self, there]
      have product := factor_prod_ne_zero (vs.take m)
      have own : ([vs[m]].map factor).prod = vs[m] := by simp [factor, isZero]
      rw [own]
      congr 3
      · simp only [List.map_cons, List.map_nil, List.singleton_append, List.set_cons_zero]
        congr 2
        field_simp
      · field_simp

/-- Every nonzero entry is inverted, and a zero is its own inverse. -/
theorem batchInverse_eq (vs : List F) :
    batchInverse mul inverse zero one (vs.map spell) = some (vs.map fun v => spell v⁻¹) := by
  have passed := spells.batchSteps_eq vs (Nat.le_refl vs.length)
  rw [List.take_length, List.drop_length, List.map_nil, List.append_nil] at passed
  rw [batchInverse, spells.batchProducts_eq]
  simp only [Option.bind_eq_bind, Option.bind_some,
    spells.inverse_eq _ (factor_prod_ne_zero vs), List.length_map, passed]

end SpellsField

end Apogee.Math
