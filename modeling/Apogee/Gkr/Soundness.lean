import Apogee.Gkr.Escape

/-! # A false claim that is accepted escapes

From the outputs down, a run that starts from a false claim, or over an
enforcing gate that fails, keeps its claim false or the failure ahead, unless a
challenge hits the polynomial fixed before it was drawn. A run that ends at true
claims about the committed columns has therefore hit one.
-/

namespace Apogee

open Apogee.Math Finset

section Differences

/-- The difference of two rounds' cubics. -/
theorem scalars_sub_eval (g h : RoundPoly) (x : Fr) :
    (ofCoeffs (List.zipWith (· - ·) g.scalars h.scalars)).eval x = cubic g x - cubic h x := by
  simp only [RoundPoly.scalars, List.zipWith_cons_cons, List.zipWith_nil_left, ofCoeffs_eval,
    List.length_cons, List.length_nil, zero_add, sum_range_succ, range_zero, sum_empty,
    List.getD_cons_zero, List.getD_cons_succ, cubic]
  ring

/-- A list that differs from another of its even length differs at a pair. -/
theorem exists_pair_of_ne {n : ℕ} {left right : List Fr} (leftLength : left.length = 2 * n)
    (rightLength : right.length = 2 * n) (different : left ≠ right) :
    ∃ pair ∈ chunkPairs (List.zipWith (· - ·) left right), pair ≠ 0 := by
  induction n generalizing left right with
  | zero =>
    rw [List.eq_nil_of_length_eq_zero leftLength, List.eq_nil_of_length_eq_zero rightLength]
      at different
    exact absurd rfl different
  | succ n ih =>
    match left, right, leftLength, rightLength with
    | y :: z :: left, y' :: z' :: right, leftLength, rightLength =>
      rw [List.zipWith_cons_cons, List.zipWith_cons_cons, chunkPairs]
      by_cases zero : ((y - y', z - z') : Fr × Fr) = 0
      · rw [Prod.mk_eq_zero, sub_eq_zero, sub_eq_zero] at zero
        obtain ⟨rfl, rfl⟩ := zero
        obtain ⟨pair, member, nonzero⟩ := ih (by simpa [Nat.mul_succ] using leftLength)
          (by simpa [Nat.mul_succ] using rightLength) (by
            rintro rfl
            exact different rfl)
        exact ⟨pair, List.mem_cons_of_mem _ member, nonzero⟩
      · exact ⟨_, List.mem_cons_self, zero⟩

/-- Lines that agree at a child challenge differ by zero there. -/
theorem pair_zero_of_lines {n : ℕ} {left right : List Fr} (leftLength : left.length = 2 * n)
    (rightLength : right.length = 2 * n) (tau : Fr)
    (same : (chunkPairs left).map (fun pair => pair.1 + tau * (pair.2 - pair.1)) =
      (chunkPairs right).map fun pair => pair.1 + tau * (pair.2 - pair.1)) :
    ∀ pair ∈ chunkPairs (List.zipWith (· - ·) left right),
      pair.1 + tau * (pair.2 - pair.1) = 0 := by
  induction n generalizing left right with
  | zero =>
    rw [List.eq_nil_of_length_eq_zero leftLength]
    intro pair member
    exact absurd member List.not_mem_nil
  | succ n ih =>
    match left, right, leftLength, rightLength with
    | y :: z :: left, y' :: z' :: right, leftLength, rightLength =>
      rw [chunkPairs, chunkPairs, List.map_cons, List.map_cons, List.cons.injEq] at same
      rw [List.zipWith_cons_cons, List.zipWith_cons_cons, chunkPairs, List.forall_mem_cons]
      refine ⟨?_, ih (by simpa [Nat.mul_succ] using leftLength)
        (by simpa [Nat.mul_succ] using rightLength) same.2⟩
      linear_combination same.1

theorem chunkPairs_length {n : ℕ} {list : List Fr} (length : list.length = 2 * n) :
    (chunkPairs list).length = n := by
  induction n generalizing list with
  | zero =>
    rw [List.eq_nil_of_length_eq_zero length]
    rfl
  | succ n ih =>
    match list, length with
    | y :: z :: list, length =>
      rw [chunkPairs, List.length_cons, ih (by simpa [Nat.mul_succ] using length)]

theorem powersFrom_getD (lambda acc : Fr) {n j : ℕ} (inside : j < n) :
    (powersFrom lambda acc n).getD j 0 = acc * lambda ^ j := by
  induction n generalizing acc j with
  | zero => exact absurd inside (Nat.not_lt_zero j)
  | succ n ih =>
    cases j with
    | zero => rw [powersFrom, List.getD_cons_zero, pow_zero, mul_one]
    | succ j =>
      rw [powersFrom, List.getD_cons_succ, ih (acc * lambda) (Nat.lt_of_succ_lt_succ inside),
        pow_succ', mul_assoc]

theorem powers_getD (lambda : Fr) {n j : ℕ} (inside : j < n) :
    (powers lambda n).getD j 0 = lambda ^ j := by
  rw [powers, powersFrom_getD lambda 1 inside, one_mul]

end Differences

section Soundness

variable {a : CircuitArtifact} (base : BaseLayer) (challenges : ExternalChallenges)

/-- Some enforcing gate below layer `k` fails: one of the list below it at the
point bound so far, or one further down on some row. -/
def Pending (a : CircuitArtifact) : ℕ → List Fr → ℕ → Prop
  | 0, _, _ => False
  | k + 1, bound, bits =>
    NonzeroBelow ((enforcingTables a base challenges k).map (bindAll bound)) bits ∨
      ∃ j < k, NonzeroBelow (enforcingTables a base challenges j) (rowVars a j)

/-- A claim on layer `k` that is false, or stands over a failure. -/
def Bad (a : CircuitArtifact) (k : ℕ) (claim : LayerClaim) : Prop :=
  claim.values ≠ trueValues base challenges a k claim.point ∨
    Pending base challenges a k claim.point 0

theorem map_bindAll_nil (tables : List (ℕ → Fr)) : tables.map (bindAll []) = tables :=
  List.map_id tables

variable {base challenges}

theorem pending_start (valid : a.Valid) {k : ℕ} (inside : k ≤ a.depth)
    (fails : ∃ j < k, NonzeroBelow (enforcingTables a base challenges j) (rowVars a j)) :
    Pending base challenges a k [] (a.layerVars k) := by
  obtain ⟨j, below, fails⟩ := fails
  cases k with
  | zero => exact absurd below (Nat.not_lt_zero j)
  | succ k =>
    rcases Nat.lt_succ_iff_lt_or_eq.mp below with further | rfl
    · exact Or.inr ⟨j, further, fails⟩
    · left
      rw [map_bindAll_nil, ← rowVars_eq valid inside]
      exact fails

/-- A failure stays ahead when a coordinate is bound, unless it is a root of the
enforcing gates' first line. -/
theorem Pending.bind {k bits : ℕ} {bound : List Fr}
    (pending : Pending base challenges a k bound (bits + 1)) (r : Fr) :
    let line := ofCoeffs (firstLine (linePairs
      ((enforcingBelow a base challenges k).map (bindAll bound)) bits))
    line ≠ 0 ∧ line.IsRoot r ∨ Pending base challenges a k (bound ++ [r]) bits := by
  cases k with
  | zero => exact absurd pending id
  | succ k =>
    rcases pending with here | further
    · obtain ⟨nonzero, stays⟩ := nonzeroBelow_bind here
      by_cases root : (ofCoeffs (firstLine (linePairs
          ((enforcingBelow a base challenges (k + 1)).map (bindAll bound)) bits))).IsRoot r
      · exact Or.inl ⟨nonzero, root⟩
      · exact Or.inr (Or.inl (stays r root))
    · exact Or.inr (Or.inr further)

/-- The honest state tracks the layer at every bound point. -/
theorem tracks_honestState (valid : a.Valid) (fits : base.Fits a) {k : ℕ} (inside : k < a.depth)
    {point : List Fr} (length : point.length = rowVars a k) {rho : List Fr} {rest : ℕ}
    (count : rho.length + rest = rowVars a k) :
    Tracks a k (columnsAt base challenges a k) point (honestState a base challenges k point rho)
      rho rest := by
  induction rho using List.reverseRecOn generalizing rest with
  | nil =>
    have start := tracks_start (columnsAt_numVars base challenges valid fits inside.le) length
    rw [List.length_nil, zero_add] at count
    rw [count]
    exact start
  | append_singleton rho r ih =>
    rw [honestState, List.foldl_append]
    exact (ih (by rw [List.length_append, List.length_singleton] at count; omega)).bind r

variable {outputs : OutputClaims} {start : List TranscriptEvent}

section Layer

variable {k : ℕ} (valid : a.Valid) (fits : base.Fits a) (inside : k < a.depth)

include valid fits inside

/-- Rounds from a false sum, or under a pending failure, end so or escape. -/
theorem rounds_escape {claim : LayerClaim} (pointLength : claim.point.length = rowVars a k)
    {lambda value last : Fr} {rounds : List RoundPoly} {rho message rest : List Fr}
    {t t' : Transcript} (at_ : StandsAt a outputs start t (.rounds k claim lambda rho message))
    (count : rho.length + rounds.length = rowVars a k)
    (accepted : verifySumcheck value rounds t = some (rest, last, t'))
    (bad : value ≠ boundSum (ResolvedList.new a k challenges) (listWeights a k lambda) a k
        (columnsAt base challenges a k) claim.point rho rounds.length ∨
      Pending base challenges a k rho (a.layerVars k - rho.length)) :
    Escaped a base challenges outputs start t'.events ∨
      ∃ message', StandsAt a outputs start t' (.rounds k claim lambda (rho ++ rest) message') ∧
        (last ≠ boundSum (ResolvedList.new a k challenges) (listWeights a k lambda) a k
            (columnsAt base challenges a k) claim.point (rho ++ rest) 0 ∨
          Pending base challenges a k (rho ++ rest) (a.layerVars k - (rho ++ rest).length)) := by
  induction rounds generalizing value rho message rest t with
  | nil =>
    rw [verifySumcheck, Option.some.injEq, Prod.mk.injEq, Prod.mk.injEq] at accepted
    obtain ⟨rfl, rfl, rfl⟩ := accepted
    rw [List.append_nil]
    exact Or.inr ⟨message, at_, bad⟩
  | cons g rounds ih =>
    obtain ⟨sum, later, rfl, below⟩ := verifySumcheck_cons accepted
    set absorbed := t.appendScalars TranscriptTag.sumcheckRound g.scalars with absorbedEq
    set r := absorbed.draw TranscriptTag.sumcheckChallenge with rEq
    have atMessage : StandsAt a outputs start absorbed
        (.rounds k claim lambda rho g.scalars) := at_.absorb _ _
    have atNext : StandsAt a outputs start (absorbed.drawn TranscriptTag.sumcheckChallenge)
        (.rounds k claim lambda (rho ++ [r]) []) := atMessage.drawn _
    rw [List.length_cons] at count bad
    have countNext : (rho ++ [r]).length + rounds.length = rowVars a k := by
      rw [List.length_append, List.length_singleton]
      omega
    by_cases hits : Hits a base challenges outputs (.rounds k claim lambda rho g.scalars) r
    · exact Or.inl ((atMessage.escaped hits).mono (verifySumcheck_extends below))
    set list := ResolvedList.new a k challenges with listEq
    set weights := listWeights a k lambda with weightsEq
    set honest := honestMessage a base challenges k lambda claim.point rho with honestEq
    have tracks := @tracks_honestState a base challenges valid fits k inside _ pointLength _ _ count
    have quadratic : Quadratic (list.summand weights) :=
      summand_quadratic challenges valid inside weights
    have honestIs : honest = (honestState a base challenges k claim.point rho).message list
        (listKinds a k) weights rounds.length := by
      rw [honestEq, honestMessage, show rowVars a k - rho.length - 1 = rounds.length by omega]
    have honestSum := tracks.message_sum quadratic
    have honestNext := tracks.message_next quadratic r
    rw [← honestIs] at honestSum honestNext
    have badNext : cubic g r ≠ boundSum list weights a k (columnsAt base challenges a k)
          claim.point (rho ++ [r]) rounds.length ∨
        Pending base challenges a k (rho ++ [r]) (a.layerVars k - (rho ++ [r]).length) := by
      by_cases agree : cubic g 0 + cubic g 1 = cubic honest 0 + cubic honest 1
      · have line : escape a base challenges outputs (.rounds k claim lambda rho g.scalars) =
            firstLine (linePairs ((enforcingBelow a base challenges k).map (bindAll rho))
              (a.layerVars k - rho.length - 1)) := by
          rw [escape]
          exact if_neg (not_not_intro agree)
        rw [sum, honestSum] at agree
        have pending := bad.resolve_left (not_not_intro agree)
        have rows : rowVars a k ≤ a.layerVars k := by
          rw [rowVars]
          split
          · exact Nat.sub_le _ _
          · exact le_rfl
        rw [show a.layerVars k - rho.length = a.layerVars k - rho.length - 1 + 1 by omega]
          at pending
        rw [List.length_append, List.length_singleton, ← Nat.sub_sub]
        rcases pending.bind r with ⟨nonzero, root⟩ | pending
        · rw [← line] at nonzero root
          exact absurd ⟨nonzero, ofCoeffs_natDegree (by
            rw [line]
            exact (firstLine_length _).trans (show 2 ≤ 3 + 1 by decide)), root⟩ hits
        · exact Or.inr pending
      · left
        intro same
        apply hits
        have difference : escape a base challenges outputs (.rounds k claim lambda rho g.scalars) =
              List.zipWith (· - ·) g.scalars honest.scalars := by
          rw [escape]
          exact if_pos agree
        rw [Hits, difference]
        refine ⟨?_, ofCoeffs_natDegree le_rfl, ?_⟩
        · intro zero
          apply agree
          have atZero := scalars_sub_eval g honest 0
          have atOne := scalars_sub_eval g honest 1
          rw [zero, Polynomial.eval_zero] at atZero atOne
          linear_combination -atZero - atOne
        · rw [Polynomial.IsRoot, scalars_sub_eval, same, honestNext, sub_self]
    have rest := ih atNext countNext below badNext
    rwa [List.append_assoc, List.singleton_append] at rest

omit fits in
/-- The coefficients of a batch's polynomial: each gate's claim less its truth, an
enforcing gate's claim being zero. -/
theorem batch_getD {claim : LayerClaim} (pointLength : claim.point.length = rowVars a k)
    (valuesLength : claim.values.length = (a.layer k).producing.length) {j : ℕ}
    (listed : j < (a.layer k).producing.length + (a.layer k).enforcing.length) :
    (escape a base challenges outputs (.batch k claim)).getD j 0 = claim.values.getD j 0 -
      extension claim.point (gateOnRow a challenges (forward a base challenges) k j) := by
  have width := (valid.shape k inside).width
  have trueLength : (trueValues base challenges a (k + 1) claim.point).length =
      (a.layer k).producing.length := by
    rw [trueValues, List.length_map, columnsAt_length base challenges inside, width]
  have zipLength : (List.zipWith (· - ·) claim.values
      (trueValues base challenges a (k + 1) claim.point)).length =
        (a.layer k).producing.length := by
    rw [List.length_zipWith, valuesLength, trueLength, min_self]
  rw [escape]
  rcases lt_or_ge j (a.layer k).producing.length with producing | enforcing
  · have truth := trueValues_getD base challenges inside (by rwa [width]) pointLength
    rw [← truth, List.getD_append _ _ _ _ (by rwa [zipLength]),
      List.getD_eq_getElem _ _ (by rwa [zipLength]), List.getElem_zipWith,
      List.getD_eq_getElem _ _ (by rwa [valuesLength]), List.getD_eq_getElem _ _ (by rwa [trueLength])]
  · rw [List.getD_append_right _ _ _ _ (by rwa [zipLength]), zipLength, enforcingTables,
      List.map_map, getD_map, List.getElem?_range (by omega), List.getD_eq_default _ _ (by omega),
      Option.map_some, Option.getD_some, Function.comp_apply, Nat.add_sub_cancel' enforcing, zero_sub]

omit fits in
/-- A false claim, or a failing gate of the list, makes a batch false unless the
challenge is a root. -/
theorem batch_escape {claim : LayerClaim} (pointLength : claim.point.length = rowVars a k)
    (valuesLength : claim.values.length = a.layerWidth (k + 1)) {lambda : Fr}
    (safe : ¬ Hits a base challenges outputs (.batch k claim) lambda)
    (bad : Bad base challenges a (k + 1) claim) :
    batchClaim claim.values (listWeights a k lambda) ≠
        boundSum (ResolvedList.new a k challenges) (listWeights a k lambda) a k
          (columnsAt base challenges a k) claim.point [] (rowVars a k) ∨
      Pending base challenges a k [] (a.layerVars k) := by
  set count := (a.layer k).producing.length + (a.layer k).enforcing.length with countEq
  have width := (valid.shape k inside).width
  have producingLength := valuesLength.trans width
  have weightsLength : (listWeights a k lambda).length = count := powers_length _ _
  set coeffs := escape a base challenges outputs (.batch k claim) with coeffsEq
  have coeffsLength : coeffs.length = count := by
    rw [coeffsEq, escape, List.length_append, List.length_zipWith, List.length_map,
      enforcingTables, List.length_map, List.length_range, trueValues, List.length_map,
      columnsAt_length base challenges inside, valuesLength, min_self, width]
  have coefficient : ∀ j < count, coeffs.getD j 0 = claim.values.getD j 0 -
      extension claim.point (gateOnRow a challenges (forward a base challenges) k j) :=
    fun j listed => batch_getD valid inside pointLength producingLength listed
  by_cases same : batchClaim claim.values (listWeights a k lambda) =
      boundSum (ResolvedList.new a k challenges) (listWeights a k lambda) a k
        (columnsAt base challenges a k) claim.point [] (rowVars a k)
  · right
    have root : (ofCoeffs coeffs).eval lambda = 0 := by
      rw [batchClaim_eq_sum _ _ (by omega), boundSum_start base challenges _ _ pointLength,
        weightsLength] at same
      have padded : ∑ j ∈ range claim.values.length, (listWeights a k lambda).getD j 0 *
            claim.values.getD j 0 =
          ∑ j ∈ range count, (listWeights a k lambda).getD j 0 * claim.values.getD j 0 := by
        apply sum_subset (range_mono (by omega))
        intro j _ past
        rw [mem_range, not_lt] at past
        rw [List.getD_eq_default _ _ past, mul_zero]
      rw [padded, ← sub_eq_zero, ← sum_sub_distrib] at same
      rw [ofCoeffs_eval, coeffsLength]
      refine (sum_congr rfl ?_).trans same
      intro j member
      rw [mem_range] at member
      rw [coefficient j member, listWeights, powers_getD lambda member, mul_sub]
    have zero : ofCoeffs coeffs = 0 := by
      by_contra nonzero
      refine safe ⟨nonzero, ofCoeffs_natDegree ?_, root⟩
      rw [← coeffsEq, coeffsLength]
      exact Nat.le_add_of_sub_le le_rfl
    have vanishes : ∀ j < count, claim.values.getD j 0 =
        extension claim.point (gateOnRow a challenges (forward a base challenges) k j) := by
      intro j listed
      rw [← sub_eq_zero, ← coefficient j listed, ← ofCoeffs_coeff, zero, Polynomial.coeff_zero]
    have truth : claim.values = trueValues base challenges a (k + 1) claim.point := by
      have trueLength : (trueValues base challenges a (k + 1) claim.point).length =
          a.layerWidth (k + 1) := by
        rw [trueValues, List.length_map, columnsAt_length base challenges inside]
      apply eq_of_getD (valuesLength.trans trueLength.symm)
      intro j
      rcases lt_or_ge j (a.layerWidth (k + 1)) with listed | past
      · rw [vanishes j (by omega), trueValues_getD base challenges inside listed pointLength]
      · rw [List.getD_eq_default _ _ (by omega), List.getD_eq_default _ _ (by omega)]
    apply pending_start valid inside.le
    rcases bad.resolve_left (not_not_intro truth) with here | further
    · obtain ⟨table, member, row, below, nonzero⟩ := here
      obtain ⟨gate, gateMember, rfl⟩ := List.mem_map.mp member
      obtain ⟨e, listed, rfl⟩ := List.mem_map.mp gateMember
      rw [List.mem_range] at listed
      rw [pow_zero, Nat.lt_one_iff] at below
      rw [below, bindAll_zero, ← vanishes _ (by omega), List.getD_eq_default _ _ (by omega)]
        at nonzero
      exact absurd rfl nonzero
    · exact further
  · exact Or.inl same

/-- The claims a false transition leaves are false on their layer, unless the
child challenge is a root. -/
theorem child_escape {claim : LayerClaim} {lambda last : Fr} {rho message evals : List Fr}
    {t : Transcript} (pointLength : claim.point.length = rowVars a k)
    (rhoLength : rho.length = rowVars a k) (evalsLength : evals.length = claimCount a k)
    (at_ : StandsAt a outputs start t (.rounds k claim lambda rho message))
    (check : last = eqEval claim.point rho * (ResolvedList.new a k challenges).summand
      (listWeights a k lambda) (finalRead a k evals rho))
    (bad : last ≠ boundSum (ResolvedList.new a k challenges) (listWeights a k lambda) a k
        (columnsAt base challenges a k) claim.point rho 0 ∨
      Pending base challenges a k rho (a.layerVars k - rho.length)) :
    let absorbed := t.appendScalars TranscriptTag.gkrLayerClaims evals
    let tau := absorbed.draw TranscriptTag.gkrChild
    let next : LayerClaim := ⟨layerValues a k evals tau, layerPoint a k rho tau⟩
    let t' := if (a.layer k).halving then absorbed.drawn TranscriptTag.gkrChild else absorbed
    Escaped a base challenges outputs start t'.events ∨
      (StandsAt a outputs start t' (Phase.below k next) ∧ Bad base challenges a k next) := by
  intro absorbed tau next t'
  have vars := columnsAt_numVars base challenges valid fits inside.le
  have halvable := (valid.shape k inside).halvable
  set honest := trueEvals a k (columnsAt base challenges a k) rho with honestEq
  have honestLength : honest.length = claimCount a k := by
    rw [honestEq, trueEvals_length, columnsAt_length base challenges inside.le, claimCount]
  have honestValues : layerValues a k honest tau =
      trueValues base challenges a k (layerPoint a k rho tau) :=
    layerValues_trueEvals vars halvable rhoLength tau
  have pendingOf : evals = honest → Pending base challenges a k rho (a.layerVars k - rho.length) := by
    rintro rfl
    apply bad.resolve_left
    rw [check, boundSum_zero vars halvable pointLength rhoLength, not_not]
  have atChild := at_.absorb TranscriptTag.gkrLayerClaims evals
  rw [Phase.step, if_pos rfl] at atChild
  cases halving : (a.layer k).halving with
  | false =>
    right
    have nextEq : next = ⟨evals, rho⟩ := by
      simp only [next, layerValues, layerPoint, halving, Bool.false_eq_true, ↓reduceIte]
    have tEq : t' = absorbed := if_neg (by rw [halving]; exact Bool.false_ne_true)
    rw [halving, if_neg Bool.false_ne_true] at atChild
    rw [nextEq, tEq]
    refine ⟨atChild, ?_⟩
    by_cases same : evals = honest
    · right
      have pending := pendingOf same
      rwa [rhoLength, rowVars, halving, if_neg Bool.false_ne_true, Nat.sub_self] at pending
    · left
      rw [layerValues, layerPoint, halving, if_neg Bool.false_ne_true,
        if_neg Bool.false_ne_true] at honestValues
      rw [← honestValues]
      exact same
  | true =>
    have positive := halvable halving
    have nextEq : next = ⟨layerValues a k evals tau, rho ++ [tau]⟩ := by
      simp only [next, layerPoint, halving, ↓reduceIte]
    have tEq : t' = absorbed.drawn TranscriptTag.gkrChild := if_pos halving
    rw [halving, if_pos rfl] at atChild
    rw [nextEq, tEq]
    by_cases hits : Hits a base challenges outputs (.child k rho evals) tau
    · exact Or.inl (atChild.escaped hits)
    refine Or.inr ⟨atChild.drawn TranscriptTag.gkrChild, ?_⟩
    by_cases same : evals = honest
    · right
      have line : escape a base challenges outputs (.child k rho evals) =
          firstLine (linePairs ((enforcingBelow a base challenges k).map (bindAll rho)) 0) := by
        rw [escape]
        exact if_neg (not_not_intro same)
      have pending := pendingOf same
      rw [rhoLength, rowVars, halving, if_pos rfl,
        show a.layerVars k - (a.layerVars k - 1) = 0 + 1 by omega] at pending
      rcases pending.bind tau with ⟨nonzero, root⟩ | pending
      · rw [← line] at nonzero root
        exact absurd ⟨nonzero, ofCoeffs_natDegree (by
          rw [line]
          exact firstLine_length _), root⟩ hits
      · exact pending
    · left
      intro values
      have difference : escape a base challenges outputs (.child k rho evals) =
          firstLine (chunkPairs (List.zipWith (· - ·) evals honest)) := by
        rw [escape]
        exact if_pos same
      rw [claimCount, halving, if_pos rfl] at evalsLength honestLength
      obtain ⟨nonzero, stays⟩ :=
        firstLine_spec (exists_pair_of_ne evalsLength honestLength same)
      apply hits
      rw [Hits, difference]
      refine ⟨nonzero, ofCoeffs_natDegree (firstLine_length _), ?_⟩
      by_contra notRoot
      obtain ⟨pair, member, value⟩ := stays tau notRoot
      apply value
      refine pair_zero_of_lines evalsLength honestLength tau ?_ pair member
      rw [layerPoint, halving, if_pos rfl] at honestValues
      rw [← honestValues] at values
      simpa only [layerValues, halving, ↓reduceIte] using values

/-- One transition from a bad claim leaves a bad claim or an escape. -/
theorem layer_escape {claim next : LayerClaim} {proof : SumcheckProof} {t t' : Transcript}
    (pointLength : claim.point.length = a.layerVars (k + 1))
    (valuesLength : claim.values.length = a.layerWidth (k + 1))
    (roundCount : proof.rounds.length = a.layerVars (k + 1))
    (evalsLength : proof.finalEvals.length = claimCount a k)
    (at_ : StandsAt a outputs start t (.batch k claim))
    (accepted : verifyLayer a challenges k proof claim t = .ok (next, t'))
    (bad : Bad base challenges a (k + 1) claim) :
    Escaped a base challenges outputs start t'.events ∨
      (StandsAt a outputs start t' (Phase.below k next) ∧ Bad base challenges a k next) := by
  rw [← rowVars_eq valid inside] at pointLength roundCount
  obtain ⟨rho, last, t₁, rounds, check, rfl, rfl⟩ := verifyLayer_ok accepted
  have rhoLength : rho.length = rowVars a k := (verifySumcheck_length rounds).trans roundCount
  set absorbed := t₁.appendScalars TranscriptTag.gkrLayerClaims proof.finalEvals with absorbedEq
  have later : t₁.events <+:
      (if (a.layer k).halving then absorbed.drawn TranscriptTag.gkrChild else absorbed).events := by
    have first := Transcript.appendScalars_extends TranscriptTag.gkrLayerClaims proof.finalEvals t₁
    split
    · exact first.trans (Transcript.drawn_extends _ _)
    · exact first
  by_cases hits : Hits a base challenges outputs (.batch k claim) (t.draw TranscriptTag.gkrBatch)
  · exact Or.inl ((at_.escaped hits).mono ((verifySumcheck_extends rounds).trans later))
  have badSum := batch_escape valid inside pointLength valuesLength hits bad
  have atRounds : StandsAt a outputs start (t.drawn TranscriptTag.gkrBatch)
      (.rounds k claim (t.draw TranscriptTag.gkrBatch) [] []) := at_.drawn _
  have count : ([] : List Fr).length + proof.rounds.length = rowVars a k := by
    rw [List.length_nil, zero_add, roundCount]
  rw [← roundCount] at badSum
  rcases rounds_escape valid fits inside pointLength atRounds count rounds badSum with
    escaped | ⟨message, atLast, badLast⟩
  · exact Or.inl (escaped.mono later)
  · exact child_escape valid fits inside pointLength rhoLength evalsLength atLast check badLast

omit fits in
/-- What an accepted transition leaves has its layer's shape. -/
theorem verifyLayer_shape {claim next : LayerClaim} {proof : SumcheckProof} {t t' : Transcript}
    (roundCount : proof.rounds.length = a.layerVars (k + 1))
    (evalsLength : proof.finalEvals.length = claimCount a k)
    (accepted : verifyLayer a challenges k proof claim t = .ok (next, t')) :
    next.point.length = a.layerVars k ∧ next.values.length = a.layerWidth k := by
  rw [← rowVars_eq valid inside] at roundCount
  obtain ⟨rho, last, t₁, rounds, -, rfl, -⟩ := verifyLayer_ok accepted
  refine ⟨layerPoint_length (valid.shape k inside).halvable
    ((verifySumcheck_length rounds).trans roundCount) _, ?_⟩
  rw [claimCount] at evalsLength
  cases halving : (a.layer k).halving with
  | false =>
    rw [halving, if_neg Bool.false_ne_true] at evalsLength
    rw [layerValues, halving, if_neg Bool.false_ne_true, evalsLength]
  | true =>
    rw [halving, if_pos rfl] at evalsLength
    rw [layerValues, halving, if_pos rfl, List.length_map, chunkPairs_length evalsLength]

end Layer

section Run

theorem found_layer {proof : GkrProof} {k : ℕ} (inside : k < proof.layers.length) :
    proof.layers[k]? = some (proof.layers.getD k ⟨[], []⟩) := by
  rw [List.getElem?_eq_getElem inside, List.getD_eq_getElem _ _ inside]

variable (valid : a.Valid) (fits : base.Fits a)

include valid fits

/-- The transitions below a bad claim end at a bad claim on the base or escape. -/
theorem layers_escape {k : ℕ} (inside : k ≤ a.depth) {claim last : LayerClaim} {proof : GkrProof}
    {t t' : Transcript} (pointLength : claim.point.length = a.layerVars k)
    (valuesLength : claim.values.length = a.layerWidth k)
    (shapes : ∀ j layer, proof.layers[j]? = some layer →
      layer.rounds.length = a.layerVars (j + 1) ∧ layer.finalEvals.length = claimCount a j)
    (depth : proof.layers.length = a.depth)
    (at_ : StandsAt a outputs start t (Phase.below k claim))
    (accepted : verifyLayers a challenges proof k claim t = .ok (last, t'))
    (bad : Bad base challenges a k claim) :
    Escaped a base challenges outputs start t'.events ∨ Bad base challenges a 0 last := by
  induction k generalizing claim t with
  | zero =>
    rw [verifyLayers, Except.ok.injEq, Prod.mk.injEq] at accepted
    rw [← accepted.1]
    exact Or.inr bad
  | succ k ih =>
    obtain ⟨next, t₁, here, below⟩ := verifyLayers_succ accepted
    obtain ⟨roundCount, evalsLength⟩ := shapes k _ (found_layer (inside.trans_eq depth.symm))
    obtain ⟨nextPoint, nextValues⟩ := verifyLayer_shape valid inside roundCount evalsLength here
    rcases layer_escape valid fits inside pointLength valuesLength roundCount evalsLength at_ here
      bad with escaped | ⟨atNext, badNext⟩
    · exact Or.inl (escaped.mono (verifyLayers_extends below))
    · exact ih (Nat.le_of_succ_le inside) nextPoint nextValues atNext below badNext

omit fits in
theorem verifyLayers_shape {k : ℕ} (inside : k ≤ a.depth) {claim last : LayerClaim}
    {proof : GkrProof} {t t' : Transcript} (pointLength : claim.point.length = a.layerVars k)
    (valuesLength : claim.values.length = a.layerWidth k)
    (shapes : ∀ j layer, proof.layers[j]? = some layer →
      layer.rounds.length = a.layerVars (j + 1) ∧ layer.finalEvals.length = claimCount a j)
    (depth : proof.layers.length = a.depth)
    (accepted : verifyLayers a challenges proof k claim t = .ok (last, t')) :
    last.point.length = a.traceVars ∧ last.values.length = a.committed.length := by
  induction k generalizing claim t with
  | zero =>
    rw [verifyLayers, Except.ok.injEq, Prod.mk.injEq] at accepted
    rw [← accepted.1]
    exact ⟨pointLength, valuesLength⟩
  | succ k ih =>
    obtain ⟨next, t₁, here, below⟩ := verifyLayers_succ accepted
    obtain ⟨roundCount, evalsLength⟩ := shapes k _ (found_layer (inside.trans_eq depth.symm))
    obtain ⟨nextPoint, nextValues⟩ := verifyLayer_shape valid inside roundCount evalsLength here
    exact ih (Nat.le_of_succ_le inside) nextPoint nextValues below

omit valid fits in
theorem challengeScalars_extends (tag count : ℕ) (t : Transcript) :
    t.events <+: (t.challengeScalars tag count).2.events := by
  induction count generalizing t with
  | zero => exact List.prefix_rfl
  | succ count ih => exact (Transcript.drawn_extends tag t).trans (ih _)

omit valid fits in
/-- Tables that do not vanish stay so at the output point, or it escapes. -/
theorem output_escape {further : Prop} {n : ℕ} {drawn : List Fr} {t : Transcript}
    (count : drawn.length + n = a.layerVars a.depth)
    (at_ : StandsAt a outputs start t (Phase.drawing a outputs drawn))
    (bad : NonzeroBelow ((outputTables a base challenges outputs).map (bindAll drawn)) n ∨ further) :
    let rest := t.challengeScalars TranscriptTag.gkrOutputPoint n
    Escaped a base challenges outputs start rest.2.events ∨
      (StandsAt a outputs start rest.2 (Phase.below a.depth
          ⟨outputValues a outputs (drawn ++ rest.1), drawn ++ rest.1⟩) ∧
        (NonzeroBelow ((outputTables a base challenges outputs).map (bindAll (drawn ++ rest.1))) 0 ∨
          further)) := by
  induction n generalizing drawn t with
  | zero =>
    rw [add_zero] at count
    rw [Phase.drawing, if_pos count] at at_
    simp only [Transcript.challengeScalars, List.append_nil]
    exact Or.inr ⟨at_, bad⟩
  | succ n ih =>
    intro rest
    rw [Phase.drawing, if_neg (by omega)] at at_
    set r := t.draw TranscriptTag.gkrOutputPoint with rEq
    have unfolded : rest = (r :: (Transcript.challengeScalars TranscriptTag.gkrOutputPoint n
        (t.drawn TranscriptTag.gkrOutputPoint)).1,
        (Transcript.challengeScalars TranscriptTag.gkrOutputPoint n
          (t.drawn TranscriptTag.gkrOutputPoint)).2) := rfl
    by_cases hits : Hits a base challenges outputs (.output drawn) r
    · exact Or.inl ((at_.escaped hits).mono
        (challengeScalars_extends _ n (t.drawn TranscriptTag.gkrOutputPoint)))
    have atNext : StandsAt a outputs start (t.drawn TranscriptTag.gkrOutputPoint)
        (Phase.drawing a outputs (drawn ++ [r])) := at_.drawn _
    have countNext : (drawn ++ [r]).length + n = a.layerVars a.depth := by
      rw [List.length_append, List.length_singleton]
      omega
    have badNext : NonzeroBelow ((outputTables a base challenges outputs).map
        (bindAll (drawn ++ [r]))) n ∨ further := by
      rcases bad with here | further
      · left
        obtain ⟨nonzero, stays⟩ := nonzeroBelow_bind here
        apply stays
        intro root
        have line : escape a base challenges outputs (.output drawn) =
            firstLine (linePairs ((outputTables a base challenges outputs).map (bindAll drawn))
              n) := by
          rw [escape, show a.layerVars a.depth - drawn.length - 1 = n by omega]
        rw [← line] at nonzero root
        exact hits ⟨nonzero, ofCoeffs_natDegree (by
          rw [line]
          exact firstLine_length _), root⟩
      · exact Or.inr further
    have later := ih countNext atNext badNext
    rw [unfolded]
    simpa only [List.append_assoc, List.singleton_append] using later

omit fits in
/-- Outputs that differ at the point, or a failure below the top, are bad. -/
theorem bad_outputs (count : outputs.tables.length = a.outputs.length)
    (vars : ∀ table ∈ outputs.tables, table.numVars = a.layerVars a.depth) (fits : base.Fits a)
    {point : List Fr} (pointLength : point.length = a.layerVars a.depth)
    (bad : NonzeroBelow ((outputTables a base challenges outputs).map (bindAll point)) 0 ∨
      ∃ j, j + 1 < a.depth ∧ NonzeroBelow (enforcingTables a base challenges j) (rowVars a j)) :
    Bad base challenges a a.depth ⟨outputValues a outputs point, point⟩ := by
  obtain ⟨d, depth⟩ : ∃ d, a.depth = d + 1 := ⟨a.depth - 1, by have := valid.nonempty; omega⟩
  rcases bad with here | ⟨j, below, fails⟩
  · by_cases same : outputs = topOutputs a (forward a base challenges)
    · right
      rw [outputTables, if_neg (not_not_intro same), depth] at here
      rw [depth]
      exact Or.inl here
    · left
      rw [outputTables, if_pos same] at here
      obtain ⟨table, member, row, inside, nonzero⟩ := here
      rw [pow_zero, Nat.lt_one_iff] at inside
      rw [inside] at nonzero
      obtain ⟨difference, listed, rfl⟩ := List.mem_map.mp member
      obtain ⟨pair, zipped, rfl⟩ := List.mem_map.mp listed
      obtain ⟨i, found⟩ := List.mem_iff_getElem?.mp zipped
      obtain ⟨outFound, topFound⟩ := List.getElem?_zip_eq_some.mp found
      have address := topFound
      rw [topOutputs, List.getElem?_map, Option.map_eq_some_iff] at address
      obtain ⟨out, address, -⟩ := address
      obtain ⟨o, -, rfl⟩ := valid.topLayer.columns out (List.mem_of_getElem? address)
      obtain ⟨column, tableFound, columnFound⟩ :=
        trueOutputs_getElem? base challenges valid address
      have top : pair.2 = column := by
        rw [trueOutputs, topFound] at tableFound
        exact Option.some.inj tableFound
      have columnVars := columnsAt_numVars base challenges valid fits le_rfl column
        (List.mem_of_getElem? columnFound)
      intro values
      apply nonzero
      have claimed := (outputValues_getD valid count point).2 i o pair.1 outFound address
      have truth : (trueValues base challenges a a.depth point).getD o 0 = column.evaluate point := by
        rw [trueValues, getD_map, columnFound]
        rfl
      rw [bindAll_sub, bindAll_zero, bindAll_zero, top,
        ← MultilinearPoly.evaluate_eq_extension pair.1 point (by
          rw [pointLength, vars _ (List.mem_of_getElem? outFound)]),
        ← MultilinearPoly.evaluate_eq_extension column point (by rw [pointLength, columnVars]),
        ← claimed, ← truth, show outputValues a outputs point =
          trueValues base challenges a a.depth point from values, sub_self]
  · right
    rw [depth]
    exact Or.inr ⟨j, by omega, fails⟩

omit fits in
/-- What makes a run bad, on the cube. -/
theorem bad_start (count : outputs.tables.length = a.outputs.length)
    (vars : ∀ table ∈ outputs.tables, table.numVars = a.layerVars a.depth) (fits : base.Fits a)
    (bad : outputs ≠ topOutputs a (forward a base challenges) ∨
      ∃ k < a.depth, NonzeroBelow (enforcingTables a base challenges k) (rowVars a k)) :
    NonzeroBelow ((outputTables a base challenges outputs).map (bindAll [])) (a.layerVars a.depth) ∨
      ∃ j, j + 1 < a.depth ∧ NonzeroBelow (enforcingTables a base challenges j) (rowVars a j) := by
  rw [map_bindAll_nil]
  set top := topOutputs a (forward a base challenges) with topEq
  by_cases same : outputs = top
  · obtain ⟨k, below, fails⟩ := bad.resolve_left (not_not_intro same)
    rcases Nat.lt_or_ge (k + 1) a.depth with further | here
    · exact Or.inr ⟨k, further, fails⟩
    · left
      have last : a.depth = k + 1 := by omega
      rw [outputTables, if_neg (not_not_intro same), last, ← rowVars_eq valid below]
      exact fails
  · left
    rw [outputTables, if_pos same]
    by_contra vanishes
    apply same
    have topCount : top.tables.length = a.outputs.length := List.length_map _
    have tables : outputs.tables = top.tables := by
      apply List.ext_getElem (by rw [count, topCount])
      intro i inLeft inRight
      have topVars : top.tables[i].numVars = a.layerVars a.depth := by
        have address : a.outputs[i]? = some a.outputs[i] := List.getElem?_eq_getElem _
        obtain ⟨o, -, out⟩ := valid.topLayer.columns _ (List.mem_of_getElem? address)
        rw [out] at address
        obtain ⟨column, tableFound, columnFound⟩ :=
          trueOutputs_getElem? base challenges valid address
        rw [trueOutputs, ← topEq, List.getElem?_eq_getElem inRight, Option.some.injEq] at tableFound
        rw [tableFound]
        exact columnsAt_numVars base challenges valid fits le_rfl column
          (List.mem_of_getElem? columnFound)
      have leftVars := vars _ (List.getElem_mem inLeft)
      apply MultilinearPoly.ext_get (leftVars.trans topVars.symm)
      intro row inside
      by_contra different
      apply vanishes
      refine ⟨fun row => outputs.tables[i].get row - top.tables[i].get row, ?_, row, ?_, ?_⟩
      · apply List.mem_map.mpr
        refine ⟨(outputs.tables[i], top.tables[i]), ?_, rfl⟩
        apply List.mem_iff_getElem?.mpr
        exact ⟨i, List.getElem?_zip_eq_some.mpr
          ⟨List.getElem?_eq_getElem inLeft, List.getElem?_eq_getElem inRight⟩⟩
      · rwa [leftVars] at inside
      · exact sub_ne_zero.mpr different
    exact congrArg OutputClaims.mk tables

end Run

/-- What an accepted run says. -/
theorem verify_ok {proof : GkrProof} {t t' : Transcript} {claims : List BaseClaim}
    (verified : verify a proof outputs challenges t = .ok (claims, t')) :
    checkShapes a proof outputs = .ok () ∧
      let drawn := (t.appendScalars TranscriptTag.gkrOutputs outputs.message).challengeScalars
        TranscriptTag.gkrOutputPoint (a.layerVars a.depth)
      ∃ last, verifyLayers a challenges proof a.depth
          ⟨outputValues a outputs drawn.1, drawn.1⟩ drawn.2 = .ok (last, t') ∧
        claims = (a.committed.zip last.values).map fun pair => ⟨pair.1, last.point, pair.2⟩ := by
  rw [verify] at verified
  split at verified
  · cases verified
  split at verified
  · cases verified
  next shaped =>
    refine ⟨shaped, ?_⟩
    intro drawn
    cases reduced : verifyLayers a challenges proof a.depth
        ⟨outputValues a outputs drawn.1, drawn.1⟩ drawn.2 with
    | error e =>
      simp only [drawn] at reduced
      simp only [reduced] at verified
      cases verified
    | ok result =>
      obtain ⟨last, t''⟩ := result
      simp only [drawn] at reduced
      simp only [reduced, Except.ok.injEq, Prod.mk.injEq] at verified
      obtain ⟨rfl, rfl⟩ := verified
      exact ⟨last, rfl, rfl⟩

/-- Claims true of the committed columns are the base's true values. -/
theorem values_of_true (fits : base.Fits a) {last : LayerClaim}
    (pointLength : last.point.length = a.traceVars)
    (valuesLength : last.values.length = a.committed.length)
    (true_ : ∀ claim ∈ (a.committed.zip last.values).map fun pair =>
        (⟨pair.1, last.point, pair.2⟩ : BaseClaim),
      ∃ column, base.get claim.address = some column ∧
        claim.value = extension claim.point column.get) :
    last.values = trueValues base challenges a 0 last.point := by
  have count : (trueValues base challenges a 0 last.point).length = a.committed.length := by
    rw [trueValues, List.length_map, columnsAt_length base challenges (Nat.zero_le _)]
    rfl
  apply List.ext_getElem (by rw [valuesLength, count])
  intro j inLeft inRight
  have inside : j < a.committed.length := by rwa [← valuesLength]
  have listed : a.committed[j]? = some a.committed[j] := List.getElem?_eq_getElem inside
  obtain ⟨column, found, vars, columnFound⟩ := columnsAt_base base challenges fits listed
  obtain ⟨other, otherFound, value⟩ := true_ _ (List.mem_map.mpr
    ⟨(_, last.values[j]), List.mem_iff_getElem?.mpr ⟨j, List.getElem?_zip_eq_some.mpr
      ⟨listed, List.getElem?_eq_getElem inLeft⟩⟩, rfl⟩)
  rw [found, Option.some.injEq] at otherFound
  have truth : (trueValues base challenges a 0 last.point)[j]? =
      some (column.evaluate last.point) := by
    rw [trueValues, List.getElem?_map, columnFound, Option.map_some]
  rw [List.getElem?_eq_getElem inRight, Option.some.injEq] at truth
  rw [truth, MultilinearPoly.evaluate_eq_extension column _ (pointLength.trans vars.symm),
    otherFound]
  exact value

/-- A run that is accepted, and leaves claims that are true of the committed
columns, over outputs that are not the columns' or an enforcing gate that fails,
drew a challenge that is a root of the polynomial fixed before it. -/
theorem verify_sound (accepted : a.validate = .ok ()) (fits : base.Fits a) {proof : GkrProof}
    {t t' : Transcript} {claims : List BaseClaim}
    (verified : verify a proof outputs challenges t = .ok (claims, t'))
    (true_ : ∀ claim ∈ claims, ∃ column, base.get claim.address = some column ∧
      claim.value = extension claim.point column.get)
    (false_ : outputs ≠ topOutputs a (forward a base challenges) ∨
      ∃ k < a.depth, ∃ e < (a.layer k).enforcing.length, ∃ y < 2 ^ rowVars a k,
        gateOnRow a challenges (forward a base challenges) k
          ((a.layer k).producing.length + e) y ≠ 0) :
    ∃ before r later, t'.events =
        t.events ++ before ++ .challenge (Phase.after a outputs before).tag r :: later ∧
      let polynomial := ofCoeffs (escape a base challenges outputs (Phase.after a outputs before))
      polynomial ≠ 0 ∧ polynomial.natDegree ≤ (Phase.after a outputs before).degree a ∧
        polynomial.IsRoot r := by
  have valid := CircuitArtifact.valid_of_validate accepted
  have bad : outputs ≠ topOutputs a (forward a base challenges) ∨
      ∃ k < a.depth, NonzeroBelow (enforcingTables a base challenges k) (rowVars a k) := by
    rcases false_ with differ | ⟨k, inside, e, listed, y, row, nonzero⟩
    · exact Or.inl differ
    · exact Or.inr ⟨k, inside, _, List.mem_map.mpr ⟨e, List.mem_range.mpr listed, rfl⟩, y, row,
        nonzero⟩
  obtain ⟨shaped, last, reduced, rfl⟩ := verify_ok verified
  obtain ⟨count, vars, depth, shapes⟩ := checkShapes_ok.mp shaped
  set absorbed := t.appendScalars TranscriptTag.gkrOutputs outputs.message with absorbedEq
  set drawn := absorbed.challengeScalars TranscriptTag.gkrOutputPoint (a.layerVars a.depth)
    with drawnEq
  have pointLength : drawn.1.length = a.layerVars a.depth :=
    Transcript.challengeScalars_length _ _ _
  have valuesLength : (outputValues a outputs drawn.1).length = a.layerWidth a.depth :=
    (outputValues_getD valid count drawn.1).1
  have atStart : StandsAt a outputs t.events t .start := ⟨[], (List.append_nil _).symm, rfl⟩
  have atOutputs : StandsAt a outputs t.events absorbed (Phase.drawing a outputs []) :=
    atStart.absorb _ _
  have badStart := bad_start valid count vars fits bad
  have pointCount : ([] : List Fr).length + a.layerVars a.depth = a.layerVars a.depth :=
    zero_add _
  rcases output_escape pointCount atOutputs badStart with escaped | ⟨atTop, badPoint⟩
  · exact escaped.mono (verifyLayers_extends reduced)
  rw [List.nil_append] at atTop badPoint
  have badTop := bad_outputs valid count vars fits pointLength badPoint
  rcases layers_escape valid fits le_rfl pointLength valuesLength shapes depth atTop reduced badTop
    with escaped | badBase
  · exact escaped
  · obtain ⟨lastPoint, lastValues⟩ :=
      verifyLayers_shape valid le_rfl pointLength valuesLength shapes depth reduced
    rcases badBase with values | pending
    · exact absurd (values_of_true fits lastPoint lastValues true_) values
    · exact absurd pending id

end Soundness

/-- A mask of five, which is no boolean. -/
def brokenMaskBase : BaseLayer :=
  ⟨[(.memory 0, .tabulate 1 fun row => ((3 + 4 * row : ℕ) : Fr)),
    (.memory 1, .tabulate 1 fun row => ((5 * (1 - row) : ℕ) : Fr))]⟩

/-- A transcript that draws nothing but zero. -/
def zeroTranscript : Transcript := ⟨fun _ _ => 0, []⟩

/-- The run of the honest proof over the broken mask. -/
def brokenMaskRun : Except GkrError (List BaseClaim × Transcript) :=
  let values := forward maskedProduct brokenMaskBase .empty
  verify maskedProduct (prove maskedProduct values .empty zeroTranscript).1
    (topOutputs maskedProduct values) .empty zeroTranscript

/-- Drawing zero for its batch, a run over the broken mask is accepted, and that
zero is an escape. -/
theorem verify_sound_brokenMask : ∃ claims t', brokenMaskRun = .ok (claims, t') ∧
    ∃ before r later, t'.events = zeroTranscript.events ++ before ++
        .challenge (Phase.after maskedProduct
          (topOutputs maskedProduct (forward maskedProduct brokenMaskBase .empty)) before).tag r ::
            later ∧
      let phase := Phase.after maskedProduct
        (topOutputs maskedProduct (forward maskedProduct brokenMaskBase .empty)) before
      let polynomial := ofCoeffs (escape maskedProduct brokenMaskBase .empty
        (topOutputs maskedProduct (forward maskedProduct brokenMaskBase .empty)) phase)
      polynomial ≠ 0 ∧ polynomial.natDegree ≤ phase.degree maskedProduct ∧
        polynomial.IsRoot r := by
  cases run : brokenMaskRun with
  | error e =>
    have accepted : brokenMaskRun.isOk = true := by decide +kernel
    rw [run] at accepted
    cases accepted
  | ok result =>
    obtain ⟨claims, t'⟩ := result
    have verified : verify maskedProduct
        (prove maskedProduct (forward maskedProduct brokenMaskBase .empty) .empty
          zeroTranscript).1
        (topOutputs maskedProduct (forward maskedProduct brokenMaskBase .empty)) .empty
        zeroTranscript = .ok (claims, t') := run
    refine ⟨claims, t', rfl, verify_sound maskedProduct_accepted ?_ verified ?_ ?_⟩
    · intro address listed
      have all : ∀ address ∈ maskedProduct.committed,
          (brokenMaskBase.get address).map (·.numVars) = some maskedProduct.traceVars := by
        decide
      exact Option.map_eq_some_iff.mp (all address listed)
    · have all : brokenMaskRun.toOption.all (fun result => result.1.all fun claim =>
          (brokenMaskBase.get claim.address).any fun column =>
            claim.value == extension claim.point column.get) = true := by
        decide +kernel
      rw [run] at all
      intro claim member
      have true_ := List.all_eq_true.mp all claim member
      rw [Option.any_eq_true] at true_
      obtain ⟨column, found, value⟩ := true_
      exact ⟨column, found, eq_of_beq value⟩
    · right
      refine ⟨0, by decide, 0, by decide, 0, by decide, ?_⟩
      decide +kernel

end Apogee
