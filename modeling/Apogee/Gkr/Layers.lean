import Apogee.Gkr.Rounds

/-! # The layers the columns determine

The forward pass fixes every layer from the committed columns, and with it the
truth of every claim a transition makes: the values of a layer's columns at a
point, the sum a batch of them is, and the claims honest rounds leave.
-/

namespace Apogee

open Apogee.Math Finset

/-- The base holds every committed column at the trace's height. -/
def BaseLayer.Fits (base : BaseLayer) (a : CircuitArtifact) : Prop :=
  ∀ address ∈ a.committed, ∃ column, base.get address = some column ∧
    column.numVars = a.traceVars

section Forward

variable {a : CircuitArtifact} (base : BaseLayer) (challenges : ExternalChallenges)

/-- Layer `k`'s columns in the forward pass. -/
def columnsAt (a : CircuitArtifact) (k : ℕ) : List MultilinearPoly :=
  layerColumns a base (forward a base challenges).layers k

/-- Layer values after the first lists. -/
def forwardTo (a : CircuitArtifact) (count : ℕ) : List (List MultilinearPoly) :=
  (List.range count).foldl (fun layers k => layers ++ [produce a base challenges layers k]) []

theorem forwardTo_succ (count : ℕ) : forwardTo base challenges a (count + 1) =
    forwardTo base challenges a count ++
      [produce a base challenges (forwardTo base challenges a count) count] := by
  rw [forwardTo, List.range_succ, List.foldl_append]
  rfl

theorem forwardTo_length (count : ℕ) : (forwardTo base challenges a count).length = count := by
  induction count with
  | zero => rfl
  | succ count ih => rw [forwardTo_succ, List.length_append, ih, List.length_singleton]

/-- A layer once written stays. -/
theorem forwardTo_getD {count : ℕ} (k : ℕ) (inside : k < count) :
    (forwardTo base challenges a count).getD k [] =
      produce a base challenges (forwardTo base challenges a k) k := by
  induction count with
  | zero => exact absurd inside (Nat.not_lt_zero k)
  | succ count ih =>
    rw [forwardTo_succ, List.getD_eq_getElem?_getD]
    rcases Nat.lt_succ_iff_lt_or_eq.mp inside with before | rfl
    · rw [List.getElem?_append_left (by rwa [forwardTo_length]), ← List.getD_eq_getElem?_getD,
        ih before]
    · rw [List.getElem?_append_right (by rw [forwardTo_length]), forwardTo_length, Nat.sub_self]
      rfl

theorem layerColumns_forwardTo {count k : ℕ} (inside : k ≤ count) :
    layerColumns a base (forwardTo base challenges a count) k =
      layerColumns a base (forwardTo base challenges a k) k := by
  cases k with
  | zero => rfl
  | succ k =>
    simp only [layerColumns, Nat.succ_ne_zero, ↓reduceIte, Nat.add_sub_cancel]
    rw [forwardTo_getD base challenges k inside, forwardTo_getD base challenges k k.lt_succ_self]

theorem columnsAt_zero : columnsAt base challenges a 0 =
    a.committed.map fun address => (base.get address).getD (.tabulate 0 fun _ => 0) := rfl

/-- A layer's columns are its list's producing gates on the layer below. -/
theorem columnsAt_succ {k : ℕ} (inside : k < a.depth) :
    columnsAt base challenges a (k + 1) = (List.range (a.layerWidth (k + 1))).map fun j =>
      .tabulate (rowVars a k) fun y => gateOnRow a challenges (forward a base challenges) k j y := by
  have produced : columnsAt base challenges a (k + 1) =
      produce a base challenges (forwardTo base challenges a k) k :=
    forwardTo_getD base challenges k inside
  have columns : layerColumns a base (forwardTo base challenges a k) k =
      layerColumns a base (forward a base challenges).layers k :=
    (layerColumns_forwardTo base challenges inside.le).symm
  rw [produced, produce, columns]
  rfl

theorem rowVars_eq (valid : a.Valid) {k : ℕ} (inside : k < a.depth) :
    rowVars a k = a.layerVars (k + 1) := by
  rw [rowVars, (valid.shape k inside).numVars]

theorem columnsAt_length {k : ℕ} (inside : k ≤ a.depth) :
    (columnsAt base challenges a k).length = a.layerWidth k := by
  cases k with
  | zero => rw [columnsAt_zero, List.length_map]; rfl
  | succ k => rw [columnsAt_succ base challenges inside, List.length_map, List.length_range]

theorem columnsAt_numVars (valid : a.Valid) (fits : base.Fits a) {k : ℕ} (inside : k ≤ a.depth) :
    ∀ column ∈ columnsAt base challenges a k, column.numVars = a.layerVars k := by
  intro column member
  cases k with
  | zero =>
    rw [columnsAt_zero] at member
    obtain ⟨address, listed, rfl⟩ := List.mem_map.mp member
    obtain ⟨column, found, vars⟩ := fits address listed
    rw [found, Option.getD_some, vars]
    rfl
  | succ k =>
    rw [columnsAt_succ base challenges inside] at member
    obtain ⟨j, -, rfl⟩ := List.mem_map.mp member
    exact rowVars_eq valid inside

/-- The values of a layer's columns at a point. -/
def trueValues (a : CircuitArtifact) (k : ℕ) (point : List Fr) : List Fr :=
  (columnsAt base challenges a k).map fun column => column.evaluate point

/-- A column's value above the base is its gate's table at the point. -/
theorem trueValues_getD {k j : ℕ} (inside : k < a.depth) (column : j < a.layerWidth (k + 1))
    {point : List Fr} (length : point.length = rowVars a k) :
    (trueValues base challenges a (k + 1) point).getD j 0 =
      extension point (gateOnRow a challenges (forward a base challenges) k j) := by
  rw [trueValues, columnsAt_succ base challenges inside, List.map_map, getD_map,
    List.getElem?_range column, Option.map_some, Option.getD_some, Function.comp_apply,
    MultilinearPoly.evaluate_eq_extension _ _ length]
  apply extension_congr
  intro row below
  rw [length] at below
  exact MultilinearPoly.tabulate_get _ below

/-- The sum a transition proves is the batch of its gates' tables at the point. -/
theorem boundSum_start {k : ℕ} (weights point : List Fr) (length : point.length = rowVars a k) :
    boundSum (ResolvedList.new a k challenges) weights a k (columnsAt base challenges a k) point []
        (rowVars a k) =
      ∑ j ∈ range weights.length, weights.getD j 0 *
        extension point (gateOnRow a challenges (forward a base challenges) k j) := by
  rw [boundSum, ← length]
  simp only [bindAll_nil]
  rw [cubeSum_eqWeight]
  simp only [ResolvedList.summand_eq_sum]
  exact extension_sum (range weights.length) (fun j => weights.getD j 0)
    (fun j row => gateOnRow a challenges (forward a base challenges) k j row) point

end Forward

section Evals

variable {a : CircuitArtifact} {k : ℕ} {columns : List MultilinearPoly}

/-- The claims honest rounds leave at a bound point. -/
def trueEvals (a : CircuitArtifact) (k : ℕ) (columns : List MultilinearPoly) (rho : List Fr) :
    List Fr :=
  if (a.layer k).halving then
    columns.flatMap fun column =>
      [(children column).1.evaluate rho, (children column).2.evaluate rho]
  else columns.map fun column => column.evaluate rho

theorem chunkPairs_flatMap {α : Type} (list : List α) (left right : α → Fr) :
    chunkPairs (list.flatMap fun entry => [left entry, right entry]) =
      list.map fun entry => (left entry, right entry) := by
  induction list with
  | nil => rfl
  | cons entry list ih =>
    rw [List.flatMap_cons, List.cons_append, List.singleton_append, chunkPairs, ih,
      List.map_cons]

/-- The children of a column at a point are its halves' extensions. -/
theorem children_evaluate {column : MultilinearPoly} {rho : List Fr}
    (vars : column.numVars = rho.length + 1) :
    (children column).1.evaluate rho = extension rho column.get ∧ (children column).2.evaluate rho =
        extension rho fun row => column.get (row + 2 ^ rho.length) := by
  have half : column.numVars - 1 = rho.length := by omega
  constructor
  · rw [MultilinearPoly.evaluate_eq_extension _ _ half.symm]
    apply extension_congr
    intro row inside
    rw [← half] at inside
    exact MultilinearPoly.tabulate_get _ inside
  · rw [MultilinearPoly.evaluate_eq_extension _ _ half.symm]
    apply extension_congr
    intro row inside
    rw [← half] at inside ⊢
    exact MultilinearPoly.tabulate_get _ inside

/-- True claims read the layer's rows at the bound point. -/
theorem finalRead_trueEvals (vars : ∀ column ∈ columns, column.numVars = a.layerVars k)
    (halvable : (a.layer k).halving = true → 0 < a.layerVars k) {rho : List Fr}
    (length : rho.length = rowVars a k) :
    finalRead a k (trueEvals a k columns rho) rho =
      fun source => bindAll rho (rowTables a k columns source) 0 := by
  have zero := bindAll_const rho (0 : Fr) 0
  funext source
  cases halving : (a.layer k).halving with
  | false =>
    have rows : rowVars a k = a.layerVars k := by
      rw [rowVars, halving]
      rfl
    have table : ∀ source, rowTables a k columns source = fun row =>
        Source.read (columns.map fun column => column.get row) []
          (a.kinds.map fun kind => virtualAtRow kind row) source := by
      intro source
      funext row
      rw [rowTables, loadRow, halving]
      rfl
    rw [finalRead, trueEvals, halving, table]
    simp only [Bool.false_eq_true, ↓reduceIte]
    cases source with
    | lower c =>
      simp only [Source.read, getD_map]
      cases found : columns[c]? with
      | none => exact zero.symm
      | some column =>
        have member := List.mem_iff_getElem?.mpr ⟨c, found⟩
        rw [Option.map_some, Option.getD_some, MultilinearPoly.evaluate_eq_extension _ _
          (by rw [length, rows, vars column member]), ← bindAll_zero]
        rfl
    | upper c => exact zero.symm
    | virtual c =>
      simp only [Source.read, getD_map]
      cases a.kinds[c]? with
      | none => exact zero.symm
      | some kind =>
        rw [Option.map_some, Option.getD_some, virtualAtPoint_eq_extension, ← bindAll_zero]
        rfl
    | cached c => exact zero.symm
  | true =>
    have rows : rowVars a k = a.layerVars k - 1 := by
      rw [rowVars, halving]
      rfl
    have half : ∀ column ∈ columns, column.numVars = rho.length + 1 := by
      intro column member
      have positive := halvable halving
      rw [vars column member, length, rows]
      omega
    have table : ∀ source, rowTables a k columns source = fun row =>
        Source.read (columns.map fun column => column.get row)
          (columns.map fun column => column.get (row + 2 ^ rowVars a k)) [] source := by
      intro source
      funext row
      rw [rowTables, loadRow, halving]
      rfl
    rw [finalRead, trueEvals, halving, table]
    simp only [↓reduceIte, chunkPairs_flatMap, List.map_map, Function.comp_def]
    cases source with
    | lower c =>
      simp only [Source.read, getD_map]
      cases found : columns[c]? with
      | none => exact zero.symm
      | some column =>
        have member := List.mem_iff_getElem?.mpr ⟨c, found⟩
        rw [Option.map_some, Option.getD_some, (children_evaluate (half column member)).1,
          ← bindAll_zero]
        rfl
    | upper c =>
      simp only [Source.read, getD_map]
      cases found : columns[c]? with
      | none => exact zero.symm
      | some column =>
        have member := List.mem_iff_getElem?.mpr ⟨c, found⟩
        rw [Option.map_some, Option.getD_some, (children_evaluate (half column member)).2,
          ← bindAll_zero, length]
        rfl
    | virtual c => exact zero.symm
    | cached c => exact zero.symm

/-- The sum with nothing left is the final check's right side at true claims. -/
theorem boundSum_zero (vars : ∀ column ∈ columns, column.numVars = a.layerVars k)
    (halvable : (a.layer k).halving = true → 0 < a.layerVars k) {point rho : List Fr}
    (pointLength : point.length = rowVars a k) (length : rho.length = rowVars a k)
    (list : ResolvedList) (weights : List Fr) :
    boundSum list weights a k columns point rho 0 = eqEval point rho *
      list.summand weights (finalRead a k (trueEvals a k columns rho) rho) := by
  rw [boundSum, cubeSum_zero, bindAll_eqWeight point rho (by rw [pointLength, length]),
    eqEval_eq_eqProduct, finalRead_trueEvals vars halvable length]

/-- The claims on the layer that a transition's final claims make: the claims
themselves, or their lines at the child challenge. -/
def layerValues (a : CircuitArtifact) (k : ℕ) (evals : List Fr) (tau : Fr) : List Fr :=
  if (a.layer k).halving then (chunkPairs evals).map fun pair => pair.1 + tau * (pair.2 - pair.1)
  else evals

/-- The point those claims are at. -/
def layerPoint (a : CircuitArtifact) (k : ℕ) (rho : List Fr) (tau : Fr) : List Fr :=
  if (a.layer k).halving then rho ++ [tau] else rho

/-- True claims leave true claims on the layer. -/
theorem layerValues_trueEvals (vars : ∀ column ∈ columns, column.numVars = a.layerVars k)
    (halvable : (a.layer k).halving = true → 0 < a.layerVars k) {rho : List Fr}
    (length : rho.length = rowVars a k) (tau : Fr) :
    layerValues a k (trueEvals a k columns rho) tau =
      columns.map fun column => column.evaluate (layerPoint a k rho tau) := by
  cases halving : (a.layer k).halving with
  | false =>
    rw [layerValues, trueEvals, layerPoint, halving]
    rfl
  | true =>
    rw [layerValues, trueEvals, layerPoint, halving]
    simp only [↓reduceIte, chunkPairs_flatMap, List.map_map]
    apply List.map_congr_left
    intro column member
    have positive := halvable halving
    have half : column.numVars = rho.length + 1 := by
      rw [vars column member, length, rowVars, halving, if_pos rfl]
      omega
    obtain ⟨low, high⟩ := children_evaluate half
    rw [Function.comp_apply, low, high, MultilinearPoly.evaluate_eq_extension column _
      (by rw [half, List.length_append, List.length_singleton]), extension_concat]

theorem layerPoint_length (halvable : (a.layer k).halving = true → 0 < a.layerVars k)
    {rho : List Fr} (length : rho.length = rowVars a k) (tau : Fr) :
    (layerPoint a k rho tau).length = a.layerVars k := by
  cases halving : (a.layer k).halving with
  | false =>
    rw [layerPoint, halving, if_neg Bool.false_ne_true, length, rowVars, halving]
    rfl
  | true =>
    have positive := halvable halving
    rw [layerPoint, halving, if_pos rfl, List.length_append, List.length_singleton, length,
      rowVars, halving, if_pos rfl]
    omega

end Evals

end Apogee
