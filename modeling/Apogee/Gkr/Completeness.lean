import Apogee.Gkr.Layers

/-! # Honest proofs are accepted

Over the forward pass's values, and with every enforcing gate zero on every row,
the prover's transitions pass the verifier's one by one: true claims on a layer
leave true claims on the layer below, down to the committed columns.
-/

namespace Apogee

open Apogee.Math Finset

theorem eq_of_getD {left right : List Fr} (length : left.length = right.length)
    (same : ∀ c, left.getD c 0 = right.getD c 0) : left = right := by
  apply List.ext_getElem length
  intro c inLeft inRight
  have entry := same c
  rw [List.getD_eq_getElem?_getD, List.getD_eq_getElem?_getD, List.getElem?_eq_getElem inLeft,
    List.getElem?_eq_getElem inRight] at entry
  exact entry

/-- A batch is the sum of its claims, weighted. -/
theorem batchClaim_eq_sum (values weights : List Fr) (enough : values.length ≤ weights.length) :
    batchClaim values weights = ∑ j ∈ range values.length, weights.getD j 0 * values.getD j 0 := by
  have loop : ∀ (values weights : List Fr) (start : Fr), values.length ≤ weights.length →
      (values.zip weights).foldl (fun acc pair => acc + pair.1 * pair.2) start =
        start + ∑ j ∈ range values.length, weights.getD j 0 * values.getD j 0 := by
    intro values
    induction values with
    | nil => intro weights start _; simp
    | cons v values ih =>
      intro weights start enough
      cases weights with
      | nil => exact absurd enough (by simp)
      | cons w weights =>
        rw [List.zip_cons_cons, List.foldl_cons, ih _ _ (by simpa using enough),
          List.length_cons, sum_range_succ']
        simp only [List.getD_cons_succ, List.getD_cons_zero]
        ring
  rw [batchClaim, loop _ _ _ enough, zero_add]

theorem powersFrom_length (lambda acc : Fr) (n : ℕ) : (powersFrom lambda acc n).length = n := by
  induction n generalizing acc with
  | zero => rfl
  | succ n ih => rw [powersFrom, List.length_cons, ih]

theorem powers_length (lambda : Fr) (n : ℕ) : (powers lambda n).length = n :=
  powersFrom_length lambda 1 n

section Evals

variable {a : CircuitArtifact} {k : ℕ} {columns : List MultilinearPoly}

/-- Tables that track a layer to the end hold the true claims. -/
theorem Tracks.finalEvals_eq {s : SumcheckState} {eqPoint rho : List Fr}
    (tracks : Tracks a k columns eqPoint s rho 0)
    (vars : ∀ column ∈ columns, column.numVars = a.layerVars k)
    (halvable : (a.layer k).halving = true → 0 < a.layerVars k)
    (length : rho.length = rowVars a k) :
    finalEvals a k s.tables = trueEvals a k columns rho := by
  have read := finalRead_trueEvals vars halvable length
  have lowerLength := tracks.lowerLength
  have upperLength := tracks.upperLength
  have lower := tracks.lower 0 one_pos
  have upper := tracks.upper 0 one_pos
  cases halving : (a.layer k).halving with
  | false =>
    simp only [finalRead, trueEvals, layerTables, finalEvals, halving, Bool.false_eq_true,
      ↓reduceIte] at read lowerLength ⊢
    apply eq_of_getD (by rw [List.length_map, List.length_map, lowerLength])
    intro c
    rw [lower c, ← congrFun read (.lower c)]
    rfl
  | true =>
    simp only [finalRead, trueEvals, layerTables, finalEvals, halving, ↓reduceIte,
      chunkPairs_flatMap, List.map_map, List.length_map] at read lowerLength upperLength ⊢
    have lows : s.tables.lower.map (fun table => table.get 0) =
        columns.map fun column => (children column).1.evaluate rho := by
      apply eq_of_getD (by rw [List.length_map, List.length_map, lowerLength])
      intro c
      rw [lower c, ← congrFun read (.lower c)]
      rfl
    have highs : s.tables.upper.map (fun table => table.get 0) =
        columns.map fun column => (children column).2.evaluate rho := by
      apply eq_of_getD (by rw [List.length_map, List.length_map, upperLength])
      intro c
      rw [upper c, ← congrFun read (.upper c)]
      rfl
    have zipped := congrArg₂ List.zip lows highs
    rw [List.zip_map, List.zip_map'] at zipped
    have flattened := congrArg (fun pairs => pairs.flatMap fun pair : Fr × Fr =>
      [pair.1, pair.2]) zipped
    simpa only [List.flatMap_map, Prod.map_fst, Prod.map_snd] using flattened

theorem trueEvals_length (rho : List Fr) : (trueEvals a k columns rho).length =
      if (a.layer k).halving then 2 * columns.length else columns.length := by
  unfold trueEvals
  cases (a.layer k).halving with
  | false => exact List.length_map _
  | true =>
    simp only [↓reduceIte, List.length_flatMap, List.length_cons, List.length_nil]
    rw [List.map_const', List.sum_replicate, smul_eq_mul, mul_comm]

end Evals

section Completeness

variable {a : CircuitArtifact} (base : BaseLayer) (challenges : ExternalChallenges)

/-- Every enforcing gate is zero on every row of the forward pass. -/
def EnforcingHolds (a : CircuitArtifact) (base : BaseLayer) (challenges : ExternalChallenges) :
    Prop :=
  ∀ k < a.depth, ∀ e < (a.layer k).enforcing.length, ∀ y < 2 ^ rowVars a k,
    gateOnRow a challenges (forward a base challenges) k ((a.layer k).producing.length + e) y = 0

/-- True claims batch to the sum that the transition proves. -/
theorem batchClaim_trueValues (valid : a.Valid) (holds : EnforcingHolds a base challenges) {k : ℕ}
    (inside : k < a.depth) {point : List Fr} (length : point.length = rowVars a k)
    (weights : List Fr)
    (count : weights.length = (a.layer k).producing.length + (a.layer k).enforcing.length) :
    batchClaim (trueValues base challenges a (k + 1) point) weights =
      boundSum (ResolvedList.new a k challenges) weights a k (columnsAt base challenges a k) point
        [] (rowVars a k) := by
  have width := (valid.shape k inside).width
  have valuesLength : (trueValues base challenges a (k + 1) point).length =
      (a.layer k).producing.length := by
    rw [trueValues, List.length_map, columnsAt_length base challenges inside, width]
  rw [batchClaim_eq_sum _ _ (by omega), boundSum_start base challenges weights point length,
    valuesLength, count]
  have producing : ∀ j ∈ range (a.layer k).producing.length,
      weights.getD j 0 * (trueValues base challenges a (k + 1) point).getD j 0 = weights.getD j 0 *
          extension point (gateOnRow a challenges (forward a base challenges) k j) := by
    intro j member
    rw [trueValues_getD base challenges inside (by rw [width]; exact mem_range.mp member) length]
  rw [sum_congr rfl producing]
  apply sum_subset (range_mono (Nat.le_add_right _ _))
  intro j member past
  rw [mem_range] at member past
  have zero : extension point (gateOnRow a challenges (forward a base challenges) k j) = 0 := by
    rw [← extension_zero point]
    apply extension_congr
    intro row below
    rw [length] at below
    have enforced := holds k inside (j - (a.layer k).producing.length) (by omega) row below
    rwa [Nat.add_sub_cancel' (Nat.le_of_not_lt past)] at enforced
  rw [zero, mul_zero]

/-- One honest transition passes, from true claims to true claims. -/
theorem verifyLayer_proveLayer (valid : a.Valid) (fits : base.Fits a)
    (holds : EnforcingHolds a base challenges) {k : ℕ} (inside : k < a.depth) {point : List Fr}
    (length : point.length = a.layerVars (k + 1)) (t : Transcript) :
    ∃ proof next t', proveLayer a (forward a base challenges) challenges k point t =
        (proof, next, t') ∧
      verifyLayer a challenges k proof ⟨trueValues base challenges a (k + 1) point, point⟩ t =
        .ok (⟨trueValues base challenges a k next, next⟩, t') ∧
      next.length = a.layerVars k ∧ proof.rounds.length = a.layerVars (k + 1) ∧
      proof.finalEvals.length = claimCount a k := by
  have rows := rowVars_eq valid inside
  rw [← rows] at length
  have vars := columnsAt_numVars base challenges valid fits inside.le
  have halvable := (valid.shape k inside).halvable
  set weights := powers (t.draw TranscriptTag.gkrBatch)
    ((a.layer k).producing.length + (a.layer k).enforcing.length) with weightsEq
  set list := ResolvedList.new a k challenges with listEq
  have quadratic : Quadratic (list.summand weights) :=
    summand_quadratic challenges valid inside weights
  obtain ⟨rho, rhoLength, roundCount, tracks, accepted⟩ := verifySumcheck_proveSumcheck quadratic
    (tracks_start vars length) (t.drawn TranscriptTag.gkrBatch)
  rw [List.nil_append] at tracks accepted
  rw [← batchClaim_trueValues base challenges valid holds inside length weights
    (powers_length _ _)] at accepted
  set proved := proveSumcheck list (listKinds a k) weights (rowVars a k)
    ⟨eqPoly point, layerTables a k (columnsAt base challenges a k), []⟩
    (t.drawn TranscriptTag.gkrBatch) with provedEq
  have evals := tracks.finalEvals_eq vars halvable rhoLength
  have check := boundSum_zero vars halvable length rhoLength list weights
  have values := layerValues_trueEvals vars halvable rhoLength
  set absorbed := proved.2.2.appendScalars TranscriptTag.gkrLayerClaims
    (trueEvals a k (columnsAt base challenges a k) rho) with absorbedEq
  set tau := absorbed.draw TranscriptTag.gkrChild with tauEq
  have evalsLength : (trueEvals a k (columnsAt base challenges a k) rho).length = claimCount a k := by
    rw [trueEvals_length, columnsAt_length base challenges inside.le, claimCount]
  have forwardEq : proveLayer a (forward a base challenges) challenges k point t =
      if (a.layer k).halving then
        (⟨proved.1, finalEvals a k proved.2.1.tables⟩, proved.2.1.point ++
          [(proved.2.2.appendScalars TranscriptTag.gkrLayerClaims
            (finalEvals a k proved.2.1.tables)).draw TranscriptTag.gkrChild],
          (proved.2.2.appendScalars TranscriptTag.gkrLayerClaims
            (finalEvals a k proved.2.1.tables)).drawn TranscriptTag.gkrChild)
      else (⟨proved.1, finalEvals a k proved.2.1.tables⟩, proved.2.1.point,
        proved.2.2.appendScalars TranscriptTag.gkrLayerClaims
          (finalEvals a k proved.2.1.tables)) := by
    rw [proveLayer, length]
    rfl
  rw [evals, tracks.point_eq, ← absorbedEq, ← tauEq] at forwardEq
  refine ⟨⟨proved.1, trueEvals a k (columnsAt base challenges a k) rho⟩, layerPoint a k rho tau,
    if (a.layer k).halving then absorbed.drawn TranscriptTag.gkrChild else absorbed, ?_, ?_,
    layerPoint_length halvable rhoLength tau, by rw [roundCount, rows], evalsLength⟩
  · rw [forwardEq, layerPoint]
    cases (a.layer k).halving <;> rfl
  · rw [verifyLayer]
    simp only [← weightsEq, ← listEq, accepted, check, ne_eq, not_true_eq_false, ↓reduceIte,
      ← absorbedEq, ← tauEq]
    have valuesAt := values tau
    rw [layerValues] at valuesAt
    cases halving : (a.layer k).halving with
    | false =>
      rw [halving] at valuesAt
      simp only [Bool.false_eq_true, ↓reduceIte] at valuesAt ⊢
      rw [valuesAt]
      simp only [layerPoint, halving, trueValues, Bool.false_eq_true, ↓reduceIte]
    | true =>
      rw [halving] at valuesAt
      simp only [↓reduceIte] at valuesAt ⊢
      rw [valuesAt]
      simp only [layerPoint, halving, trueValues, ↓reduceIte]

/-- The honest transitions pass, from true claims on any layer to true claims on
the base. -/
theorem verifyLayers_proveLayers (valid : a.Valid) (fits : base.Fits a)
    (holds : EnforcingHolds a base challenges) {k : ℕ} (inside : k ≤ a.depth) {point : List Fr}
    (length : point.length = a.layerVars k) (t : Transcript) (later : List SumcheckProof) :
    ∃ proofs next t', proveLayers a (forward a base challenges) challenges k point t =
        (proofs, t') ∧ proofs.length = k ∧
      verifyLayers a challenges ⟨proofs ++ later⟩ k
          ⟨trueValues base challenges a k point, point⟩ t =
        .ok (⟨trueValues base challenges a 0 next, next⟩, t') ∧
      next.length = a.layerVars 0 ∧
      ∀ j proof, proofs[j]? = some proof → proof.rounds.length = a.layerVars (j + 1) ∧
        proof.finalEvals.length = claimCount a j := by
  induction k generalizing point t later with
  | zero =>
    exact ⟨[], point, t, rfl, rfl, rfl, length, fun j proof found => absurd found (by simp)⟩
  | succ k ih =>
    obtain ⟨proof, next, t', proved, accepted, nextLength, rounds, evals⟩ :=
      verifyLayer_proveLayer base challenges valid fits holds inside length t
    obtain ⟨proofs, last, t'', provedBelow, count, acceptedBelow, lastLength, shapes⟩ :=
      ih (Nat.le_of_succ_le inside) nextLength t' (proof :: later)
    refine ⟨proofs ++ [proof], last, t'', ?_, ?_, ?_, lastLength, ?_⟩
    · simp only [proveLayers, proved, provedBelow]
    · rw [List.length_append, count, List.length_singleton]
    · have here : ((proofs ++ [proof]) ++ later).getD k ⟨[], []⟩ = proof := by
        rw [List.append_assoc, List.getD_eq_getElem?_getD,
          List.getElem?_append_right (by rw [count]), count, Nat.sub_self]
        rfl
      rw [verifyLayers, here, accepted]
      rw [List.append_assoc]
      exact acceptedBelow
    · intro j other found
      rcases lt_or_ge j k with below | above
      · rw [List.getElem?_append_left (by rwa [count])] at found
        exact shapes j other found
      · rw [List.getElem?_append_right (by rwa [count]), count] at found
        have exact_ : j - k = 0 := by
          have bound := (List.getElem?_eq_some_iff.mp found).1
          rw [List.length_singleton] at bound
          omega
        rw [exact_, List.getElem?_cons_zero, Option.some.injEq] at found
        rw [← found, show j = k by omega]
        exact ⟨rounds, evals⟩

/-- Setting values at distinct offsets sets each once. -/
theorem foldl_set (point : List Fr) (n : ℕ) (pairs : List (MultilinearPoly × PolyAddress))
    (values : List Fr) (distinct : (pairs.map Prod.snd).Nodup)
    (offsets : ∀ pair ∈ pairs, ∃ o < values.length, pair.2 = .inner n o) :
    let result := pairs.foldl (setOutput point) values
    result.length = values.length ∧
      (∀ pair ∈ pairs, ∀ o, pair.2 = .inner n o → result.getD o 0 = pair.1.evaluate point) ∧
      ∀ o, PolyAddress.inner n o ∉ pairs.map Prod.snd → result.getD o 0 = values.getD o 0 := by
  induction pairs generalizing values with
  | nil => exact ⟨rfl, fun pair member => absurd member List.not_mem_nil, fun o _ => rfl⟩
  | cons first pairs ih =>
    obtain ⟨o, below, out⟩ := offsets first List.mem_cons_self
    rw [List.map_cons, List.nodup_cons] at distinct
    obtain ⟨length, hits, misses⟩ := ih (values.set o (first.1.evaluate point)) distinct.2
      (fun pair member => by
        rw [List.length_set]
        exact offsets pair (List.mem_cons_of_mem _ member))
    simp only [List.foldl_cons, setOutput, out]
    refine ⟨by rw [length, List.length_set], ?_, ?_⟩
    · intro pair member p pairOut
      rcases List.mem_cons.mp member with rfl | later
      · rw [out, PolyAddress.inner.injEq] at pairOut
        rw [← pairOut.2, misses o (by rw [← out]; exact distinct.1), List.getD_eq_getElem?_getD,
          List.getElem?_set_self below, Option.getD_some]
      · exact hits pair later p pairOut
    · intro p fresh
      rw [List.map_cons, List.mem_cons, not_or] at fresh
      have different : o ≠ p := by
        rintro rfl
        exact fresh.1 out.symm
      rw [misses p fresh.2, List.getD_eq_getElem?_getD, List.getElem?_set_ne different,
        List.getD_eq_getElem?_getD]

/-- An output's claim stands at its column. -/
theorem outputValues_getD (valid : a.Valid) {outputs : OutputClaims}
    (count : outputs.tables.length = a.outputs.length) (point : List Fr) :
    (outputValues a outputs point).length = a.layerWidth a.depth ∧
      ∀ (i o : ℕ) (table : MultilinearPoly), outputs.tables[i]? = some table →
        a.outputs[i]? = some (.inner a.depth o) →
        (outputValues a outputs point).getD o 0 = table.evaluate point := by
  have top := valid.topLayer
  have paired : (outputs.tables.zip a.outputs).map Prod.snd = a.outputs :=
    List.map_snd_zip count.ge
  obtain ⟨length, hits, -⟩ := foldl_set point a.depth (outputs.tables.zip a.outputs)
    (List.replicate a.outputs.length 0) (by rw [paired]; exact top.distinct) (by
      intro pair member
      have listed : pair.2 ∈ a.outputs := by
        rw [← paired]
        exact List.mem_map.mpr ⟨pair, member, rfl⟩
      obtain ⟨o, below, out⟩ := top.columns pair.2 listed
      exact ⟨o, by rw [List.length_replicate, top.width]; exact below, out⟩)
  refine ⟨by rw [outputValues, length, List.length_replicate, top.width], ?_⟩
  intro i o table tableFound outFound
  apply hits (table, .inner a.depth o) _ o rfl
  apply List.mem_iff_getElem?.mpr
  exact ⟨i, by rw [List.getElem?_zip_eq_some]; exact ⟨tableFound, outFound⟩⟩

/-- Every top column is an output. -/
theorem exists_output (valid : a.Valid) {o : ℕ} (below : o < a.layerWidth a.depth) :
    ∃ i : ℕ, a.outputs[i]? = some (.inner a.depth o) := by
  have top := valid.topLayer
  have included : a.outputs ⊆ (List.range (a.layerWidth a.depth)).map (.inner a.depth) := by
    intro out member
    obtain ⟨o, below, rfl⟩ := top.columns out member
    exact List.mem_map.mpr ⟨o, List.mem_range.mpr below, rfl⟩
  have perm := (List.subperm_of_subset top.distinct included).perm_of_length_le
    (by rw [List.length_map, List.length_range, top.width])
  apply List.mem_iff_getElem?.mp
  exact perm.mem_iff.mpr (List.mem_map.mpr ⟨o, List.mem_range.mpr below, rfl⟩)

/-- The top layer's outputs. -/
def trueOutputs (a : CircuitArtifact) (base : BaseLayer) (challenges : ExternalChallenges) :
    OutputClaims := topOutputs a (forward a base challenges)

theorem trueOutputs_getElem? (valid : a.Valid) {i o : ℕ}
    (found : a.outputs[i]? = some (.inner a.depth o)) :
    ∃ column, (trueOutputs a base challenges).tables[i]? = some column ∧
      (columnsAt base challenges a a.depth)[o]? = some column := by
  have below : o < (columnsAt base challenges a a.depth).length := by
    rw [columnsAt_length base challenges le_rfl]
    obtain ⟨p, below, out⟩ := valid.topLayer.columns _ (List.mem_of_getElem? found)
    rw [PolyAddress.inner.injEq] at out
    rwa [out.2]
  refine ⟨(columnsAt base challenges a a.depth)[o], ?_, List.getElem?_eq_getElem below⟩
  rw [trueOutputs, topOutputs, List.getElem?_map, found, Option.map_some]
  congr 1
  show (columnsAt base challenges a a.depth).getD o _ = _
  rw [List.getD_eq_getElem _ _ below]

/-- The true outputs claim the true values. -/
theorem outputValues_trueOutputs (valid : a.Valid) (point : List Fr) :
    outputValues a (trueOutputs a base challenges) point =
      trueValues base challenges a a.depth point := by
  have count : (trueOutputs a base challenges).tables.length = a.outputs.length :=
    List.length_map _
  obtain ⟨length, hits⟩ := outputValues_getD valid count point
  apply eq_of_getD
  · rw [length, trueValues, List.length_map, columnsAt_length base challenges le_rfl]
  · intro o
    rcases lt_or_ge o (a.layerWidth a.depth) with below | past
    · obtain ⟨i, found⟩ := exists_output valid below
      obtain ⟨column, table, listed⟩ := trueOutputs_getElem? base challenges valid found
      rw [hits i o column table found, trueValues, getD_map, listed]
      rfl
    · rw [List.getD_eq_getElem?_getD, List.getElem?_eq_none (by rwa [length]),
        List.getD_eq_getElem?_getD, List.getElem?_eq_none (by
          rwa [trueValues, List.length_map, columnsAt_length base challenges le_rfl])]

theorem checkShapes_ok {proof : GkrProof} {outputs : OutputClaims} :
    checkShapes a proof outputs = .ok () ↔ outputs.tables.length = a.outputs.length ∧
      (∀ table ∈ outputs.tables, table.numVars = a.layerVars a.depth) ∧
      proof.layers.length = a.depth ∧
      ∀ (k : ℕ) (layer : SumcheckProof), proof.layers[k]? = some layer →
        layer.rounds.length = a.layerVars (k + 1) ∧ layer.finalEvals.length = claimCount a k := by
  unfold checkShapes
  by_cases outputShape : outputs.tables.length ≠ a.outputs.length ∨
      outputs.tables.any fun table => table.numVars != a.layerVars a.depth
  · rw [if_pos outputShape]
    constructor
    · intro wrong
      cases wrong
    · rintro ⟨count, vars, -, -⟩
      rcases outputShape with wrong | wrong
      · exact absurd count wrong
      · obtain ⟨table, member, wrong⟩ := List.any_eq_true.mp wrong
        rw [bne_iff_ne] at wrong
        exact absurd (vars table member) wrong
  · rw [if_neg outputShape]
    rw [not_or, not_not, Bool.not_eq_true, List.any_eq_false] at outputShape
    obtain ⟨count, vars⟩ := outputShape
    have vars : ∀ table ∈ outputs.tables, table.numVars = a.layerVars a.depth := by
      intro table member
      have right := vars table member
      rwa [bne_iff_ne, not_not] at right
    by_cases depth : proof.layers.length ≠ a.depth
    · rw [if_pos depth]
      constructor
      · intro wrong
        cases wrong
      · rintro ⟨-, -, right, -⟩
        exact absurd right depth
    · rw [if_neg depth]
      rw [not_not] at depth
      cases found : proof.layers.zipIdx.find? fun layer =>
          layer.1.rounds.length != a.layerVars (layer.2 + 1) ||
            layer.1.finalEvals.length != claimCount a layer.2 with
      | some layer =>
        constructor
        · intro wrong
          cases wrong
        · rintro ⟨-, -, -, shapes⟩
          have wrong := List.find?_some found
          have listed := List.mem_zipIdx_iff_getElem?.mp (List.mem_of_find?_eq_some found)
          obtain ⟨rounds, evals⟩ := shapes layer.2 layer.1 listed
          simp [rounds, evals] at wrong
      | none =>
        refine iff_of_true rfl ⟨count, vars, depth, ?_⟩
        intro k layer listed
        have right := List.find?_eq_none.mp found (layer, k)
          (List.mem_zipIdx_iff_getElem?.mpr listed)
        simpa using right

/-- Every challenge slot that a gate names is set. -/
def SlotsHeld (a : CircuitArtifact) (challenges : ExternalChallenges) : Prop :=
  ∀ list ∈ a.layers, ∀ gate ∈ list.gates, ∀ slot, Coeff.challenge slot ∈ gate.coefficients →
    (challenges.get slot).isSome = true

theorem checkChallenges_ok : checkChallenges a challenges = .ok () ↔ SlotsHeld a challenges := by
  unfold checkChallenges
  constructor
  · intro passed list listed gate member slot named
    split at passed
    · cases passed
    · next unnamed =>
      have present := List.findSome?_eq_none_iff.mp unnamed (.challenge slot)
        (List.mem_flatMap.mpr ⟨gate, List.mem_flatMap.mpr ⟨list, listed, member⟩, named⟩)
      rw [missingSlot, ite_eq_right_iff] at present
      by_contra unset
      apply Option.some_ne_none slot
      apply present
      rwa [Option.isNone_iff_eq_none, ← Option.not_isSome_iff_eq_none]
  · intro held
    split
    · next slot found =>
      obtain ⟨coefficient, member, missing⟩ := List.exists_of_findSome?_eq_some found
      obtain ⟨gate, gateMember, named⟩ := List.mem_flatMap.mp member
      obtain ⟨list, listed, inside⟩ := List.mem_flatMap.mp gateMember
      cases coefficient with
      | literal value => exact absurd missing (by rintro ⟨⟩)
      | challenge other =>
        have present := held list listed gate inside other named
        simp [missingSlot, Option.isNone_eq_false_iff.mpr present] at missing
    · rfl

/-- The columns of the base are the committed ones. -/
theorem columnsAt_base (fits : base.Fits a) {j : ℕ} {address : PolyAddress}
    (listed : a.committed[j]? = some address) :
    ∃ column, base.get address = some column ∧ column.numVars = a.traceVars ∧
      (columnsAt base challenges a 0)[j]? = some column := by
  obtain ⟨column, found, vars⟩ := fits address (List.mem_of_getElem? listed)
  refine ⟨column, found, vars, ?_⟩
  rw [columnsAt_zero, List.getElem?_map, listed, Option.map_some, found, Option.getD_some]

/-- An honest proof over the forward pass is accepted with the top layer as its
outputs, and leaves claims that are true of the committed columns. -/
theorem verify_prove (accepted : a.validate = .ok ()) (fits : base.Fits a)
    (slots : SlotsHeld a challenges) (holds : EnforcingHolds a base challenges) (t : Transcript) :
    let values := forward a base challenges
    let proved := prove a values challenges t
    ∃ claims, verify a proved.1 (topOutputs a values) challenges t = .ok (claims, proved.2) ∧
      claims.map (·.address) = a.committed ∧
      ∀ claim ∈ claims, ∃ column, base.get claim.address = some column ∧
        claim.point.length = column.numVars ∧ claim.value = extension claim.point column.get := by
  have valid := CircuitArtifact.valid_of_validate accepted
  intro values proved
  set absorbed := t.appendScalars TranscriptTag.gkrOutputs (topOutputs a values).message
    with absorbedEq
  set drawn := absorbed.challengeScalars TranscriptTag.gkrOutputPoint (a.layerVars a.depth)
    with drawnEq
  have length : drawn.1.length = a.layerVars a.depth := Transcript.challengeScalars_length _ _ _
  obtain ⟨proofs, next, t', provedLayers, count, reduced, nextLength, shapes⟩ :=
    verifyLayers_proveLayers base challenges valid fits holds le_rfl length drawn.2 []
  have proofEq : proved = (⟨proofs⟩, t') := by
    show prove a values challenges t = _
    simp only [prove, ← absorbedEq, ← drawnEq]
    rw [show proveLayers a values challenges a.depth drawn.1 drawn.2 = (proofs, t') from
      provedLayers]
  rw [proofEq]
  have shaped : checkShapes a ⟨proofs⟩ (topOutputs a values) = .ok () := by
    apply checkShapes_ok.mpr
    refine ⟨List.length_map _, ?_, count, shapes⟩
    intro table member
    obtain ⟨i, found⟩ := List.mem_iff_getElem?.mp member
    have outFound := found
    rw [topOutputs, List.getElem?_map, Option.map_eq_some_iff] at outFound
    obtain ⟨out, outFound, -⟩ := outFound
    obtain ⟨o, -, rfl⟩ := valid.topLayer.columns out (List.mem_of_getElem? outFound)
    obtain ⟨column, tableFound, listed⟩ := trueOutputs_getElem? base challenges valid outFound
    rw [show (topOutputs a values).tables[i]? = some column from tableFound] at found
    rw [← Option.some.inj found]
    exact columnsAt_numVars base challenges valid fits le_rfl column (List.mem_of_getElem? listed)
  have outputs : outputValues a (topOutputs a values) drawn.1 =
      trueValues base challenges a a.depth drawn.1 :=
    outputValues_trueOutputs base challenges valid drawn.1
  rw [List.append_nil] at reduced
  refine ⟨(a.committed.zip (trueValues base challenges a 0 next)).map fun pair =>
    ⟨pair.1, next, pair.2⟩, ?_, ?_, ?_⟩
  · simp only [verify, (checkChallenges_ok challenges).mpr slots, shaped, ← absorbedEq, ← drawnEq,
      outputs, reduced]
  · rw [List.map_map]
    apply List.map_fst_zip
    rw [trueValues, List.length_map, columnsAt_length base challenges (Nat.zero_le _)]
    rfl
  · intro claim member
    obtain ⟨pair, zipped, rfl⟩ := List.mem_map.mp member
    obtain ⟨j, found⟩ := List.mem_iff_getElem?.mp zipped
    obtain ⟨listed, value⟩ := List.getElem?_zip_eq_some.mp found
    obtain ⟨column, based, vars, column_found⟩ := columnsAt_base base challenges fits listed
    rw [trueValues, List.getElem?_map, column_found, Option.map_some] at value
    refine ⟨column, based, by rw [vars]; exact nextLength, ?_⟩
    rw [← Option.some.inj value]
    exact MultilinearPoly.evaluate_eq_extension _ _ (by rw [vars]; exact nextLength)

end Completeness

/-- Two rows of a masked value, multiplied: a row-wise list over a cached sum and
the row number, then a halving list. -/
def maskedProduct : CircuitArtifact where
  formatVersion := 1
  coefficientEncoding := 0
  traceVars := 1
  memory := ["value", "mask"]
  witness := []
  setup := []
  virtuals := [(.rowIndex, "row")]
  layers := [
    ⟨false, 1, 1, [⟨"lifted", .cached 0 0, .linear [(lit 1, .memory 0), (lit 1, .virtual .rowIndex)]
        (lit 0)⟩],
      [⟨0, .inner 1 0, .maskIntoIdentity (.cached 0 0) (.memory 1)⟩],
      [⟨1, .quadratic (lit 0) [(lit 1, .memory 1)] [(neg 1, .memory 1, .memory 1)]⟩]⟩,
    ⟨true, 0, 1, [], [⟨2, .inner 2 0, .treeProduct (.inner 1 0)⟩], []⟩]
  relations := [
    ⟨"masked", some 0, .quadratic (lit 1) [(neg 1, .memory 1)]
      [(lit 1, .memory 0, .memory 1), (lit 1, .virtual .rowIndex, .memory 1)]⟩,
    ⟨"mask_boolean", none, .quadratic (lit 0) [(lit 1, .memory 1)]
      [(neg 1, .memory 1, .memory 1)]⟩,
    ⟨"product", some 1, .treeProduct (.scratch 0)⟩]
  lookups := []
  scratch := [⟨"masked_slot", .inner 1 0⟩, ⟨"product_slot", .inner 2 0⟩]
  outputs := [.inner 2 0]
  padding := ⟨[0, 0], true⟩

theorem maskedProduct_accepted : maskedProduct.validate = .ok () := by
  decide +kernel

/-- Values 3 and 7, the second row switched off. -/
def maskedProductBase : BaseLayer :=
  ⟨[(.memory 0, .tabulate 1 fun row => ((3 + 4 * row : ℕ) : Fr)),
    (.memory 1, .tabulate 1 fun row => ((1 - row : ℕ) : Fr))]⟩

/-- A transcript that draws the number of its events. -/
def countingTranscript : Transcript := ⟨fun events _ => events.length, []⟩

theorem verify_prove_maskedProduct :
    let values := forward maskedProduct maskedProductBase .empty
    let proved := prove maskedProduct values .empty countingTranscript
    ∃ claims, verify maskedProduct proved.1 (topOutputs maskedProduct values) .empty
        countingTranscript = .ok (claims, proved.2) ∧
      claims.map (·.address) = maskedProduct.committed ∧
      ∀ claim ∈ claims, ∃ column, maskedProductBase.get claim.address = some column ∧
        claim.point.length = column.numVars ∧ claim.value = extension claim.point column.get := by
  apply verify_prove maskedProductBase .empty maskedProduct_accepted
  · intro address listed
    have all : ∀ address ∈ maskedProduct.committed,
        (maskedProductBase.get address).map (·.numVars) = some maskedProduct.traceVars := by
      decide
    exact Option.map_eq_some_iff.mp (all address listed)
  · exact (checkChallenges_ok .empty).mp (by decide)
  · unfold EnforcingHolds
    decide +kernel

end Apogee
