import Apogee.Gkr.Prove

/-! # Honest rounds

A sumcheck state tracks its layer's rows bound to the point drawn so far. Its
message is then the cubic whose value at any challenge is the weighted sum over
the rows left, which is what makes an honest round sum to the claim it inherits
and evaluate to the next one.
-/

namespace Apogee

open Apogee.Math Finset

theorem fr_two_ne_zero : ((2 : ℕ) : Fr) ≠ 0 := by
  intro zero
  exact absurd (@fr_natCast_inj 2 0 (by norm_num) (by norm_num)
    (by rw [zero, Nat.cast_zero])) (by norm_num)

theorem fr_three_ne_zero : ((3 : ℕ) : Fr) ≠ 0 := by
  intro zero
  exact absurd (@fr_natCast_inj 3 0 (by norm_num) (by norm_num)
    (by rw [zero, Nat.cast_zero])) (by norm_num)

/-- Interpolation recovers a cubic from its values at `0, 1, 2, 3`. -/
theorem cubic_interpolateCubic {function : Fr → Fr} (low : LowDegree 3 function) (x : Fr) :
    cubic (interpolateCubic (function ((0 : ℕ) : Fr)) (function ((1 : ℕ) : Fr))
      (function ((2 : ℕ) : Fr)) (function ((3 : ℕ) : Fr))) x = function x := by
  obtain ⟨c0, c1, c2, c3, agrees⟩ := low.exists_cubic
  have two := fr_two_ne_zero
  have three := fr_three_ne_zero
  have six : ((6 : ℕ) : Fr) = ((2 : ℕ) : Fr) * ((3 : ℕ) : Fr) := by norm_num
  simp only [agrees, cubic, interpolateCubic, six, mul_inv]
  field_simp
  push_cast
  ring

theorem sum_map_range {M : Type} [AddCommMonoid M] (count : ℕ) (term : ℕ → M) :
    ((List.range count).map term).sum = ∑ i ∈ range count, term i := by
  rw [Finset.sum, range_val, ← Multiset.coe_range, Multiset.map_coe, Multiset.sum_coe]

theorem getD_map {α : Type} (list : List α) (entry : α → Fr) (c : ℕ) :
    (list.map entry).getD c 0 = (list[c]?.map entry).getD 0 := by
  rw [List.getD_eq_getElem?_getD, List.getElem?_map]

section Lines

theorem line_iterate (line : Line) (node : ℕ) :
    (Line.next^[node] line) = ⟨line.value + node * line.step, line.step⟩ := by
  induction node with
  | zero => simp
  | succ node ih =>
    rw [Function.iterate_succ', Function.comp_apply, ih, Line.next]
    push_cast
    congr 1
    ring

theorem pairLines_iterate (pair : PairLines) (node : ℕ) :
    PairLines.next^[node] pair = ⟨Line.next^[node] pair.eq, pair.lower.map Line.next^[node],
      pair.upper.map Line.next^[node], pair.virtuals.map Line.next^[node]⟩ := by
  induction node with
  | zero => simp
  | succ node ih =>
    rw [Function.iterate_succ', Function.comp_apply, ih, PairLines.next]
    simp only [List.map_map, ← Function.iterate_succ', Function.iterate_succ_apply']

/-- Binding a row's bits reads the row. -/
theorem bindAll_rowBits (count row : ℕ) (table : ℕ → Fr) (inside : row < 2 ^ count) :
    bindAll (rowBits count row) table 0 = table row := by
  induction count generalizing row table with
  | zero =>
    rw [pow_zero, Nat.lt_one_iff] at inside
    rw [inside]
    rfl
  | succ count ih =>
    have bits : rowBits (count + 1) row = ((row % 2 : ℕ) : Fr) :: rowBits count (row / 2) := by
      unfold rowBits
      rw [List.range_succ_eq_map, List.map_cons, List.map_map]
      congr 1
      · rw [Nat.shiftRight_zero, Nat.and_one_is_mod]
      · apply List.map_congr_left
        intro j _
        rw [Function.comp_apply, Nat.succ_eq_add_one, add_comm j 1, Nat.shiftRight_add,
          Nat.shiftRight_one]
    rw [bits, bindAll_cons, ih (row / 2) _ (by rw [pow_succ] at inside; omega), bindLow]
    rcases Nat.mod_two_eq_zero_or_one row with even | odd
    · rw [even, Nat.cast_zero, zero_mul, add_zero, show 2 * (row / 2) = row by omega]
    · rw [odd, Nat.cast_one, one_mul, add_sub_cancel, show 2 * (row / 2) + 1 = row by omega]

/-- A virtual table's line is its bound table's pair. -/
theorem virtualLine_eq (kind : VirtualKind) (point : List Fr) {rest i : ℕ}
    (inside : i < 2 ^ rest) (x : Fr) :
    (virtualLine kind point rest i).value + x * (virtualLine kind point rest i).step =
      bindLow x (bindAll point (virtualAtRow kind)) i := by
  have at_ : ∀ y : Fr, virtualAtPoint kind (point ++ y :: rowBits rest i) =
      bindLow y (bindAll point (virtualAtRow kind)) i := by
    intro y
    rw [virtualAtPoint_eq_extension, ← bindAll_zero, bindAll_append, bindAll_cons,
      bindAll_rowBits rest i _ inside]
  rw [virtualLine]
  simp only [at_, bindLow_zero, bindLow_one]
  rfl

end Lines

section Tracks

variable (a : CircuitArtifact) (k : ℕ) (columns : List MultilinearPoly) (eqPoint : List Fr)

/-- A layer's rows as tables, one for each source. -/
def rowTables (source : Source) (row : ℕ) : Fr := loadRow a k columns row source

/-- The state holds the layer's rows, and the weights of equality with the eq
point, bound to a point that leaves some variables. -/
structure Tracks (s : SumcheckState) (point : List Fr) (rest : ℕ) : Prop where
  point_eq : s.point = point
  eqVars : s.eq.numVars = rest
  eq : ∀ row < 2 ^ rest, s.eq.get row = bindAll point (eqWeight eqPoint) row
  lowerLength : s.tables.lower.length = (layerTables a k columns).lower.length
  upperLength : s.tables.upper.length = (layerTables a k columns).upper.length
  lowerVars : ∀ table ∈ s.tables.lower, table.numVars = rest
  upperVars : ∀ table ∈ s.tables.upper, table.numVars = rest
  lower : ∀ row < 2 ^ rest, ∀ c, (s.tables.lower.map fun table => table.get row).getD c 0 =
    bindAll point (rowTables a k columns (.lower c)) row
  upper : ∀ row < 2 ^ rest, ∀ c, (s.tables.upper.map fun table => table.get row).getD c 0 =
    bindAll point (rowTables a k columns (.upper c)) row

variable {a k columns eqPoint}

theorem map_bind_getD {tables : List MultilinearPoly} {rest row : ℕ} (r : Fr)
    (vars : ∀ table ∈ tables, table.numVars = rest + 1) (inside : row < 2 ^ rest) (c : ℕ) :
    ((tables.map (·.bind r)).map fun table => table.get row).getD c 0 =
      bindLow r (fun row => (tables.map fun table => table.get row).getD c 0) row := by
  rw [List.map_map]
  simp only [bindLow, getD_map]
  cases found : tables[c]? with
  | none => simp
  | some table =>
    have member := List.mem_iff_getElem?.mpr ⟨c, found⟩
    exact MultilinearPoly.bind_get r (vars table member) inside

/-- Binding a challenge keeps track. -/
theorem Tracks.bind {s : SumcheckState} {point : List Fr} {rest : ℕ}
    (tracks : Tracks a k columns eqPoint s point (rest + 1)) (r : Fr) :
    Tracks a k columns eqPoint (s.bind r) (point ++ [r]) rest := by
  have below : ∀ row < 2 ^ rest, 2 * row < 2 ^ (rest + 1) ∧ 2 * row + 1 < 2 ^ (rest + 1) := by
    intro row inside
    rw [pow_succ]
    omega
  refine ⟨?_, ?_, ?_, ?_, ?_, ?_, ?_, ?_, ?_⟩
  · rw [SumcheckState.bind, tracks.point_eq]
  · rw [SumcheckState.bind, MultilinearPoly.bind_numVars, tracks.eqVars, Nat.add_sub_cancel]
  · intro row inside
    obtain ⟨even, odd⟩ := below row inside
    rw [SumcheckState.bind, MultilinearPoly.bind_get r tracks.eqVars inside, bindAll_concat,
      bindLow, bindLow, tracks.eq _ even, tracks.eq _ odd]
  · rw [SumcheckState.bind, List.length_map, tracks.lowerLength]
  · rw [SumcheckState.bind, List.length_map, tracks.upperLength]
  · intro table member
    obtain ⟨source, inside, rfl⟩ := List.mem_map.mp member
    rw [MultilinearPoly.bind_numVars, tracks.lowerVars source inside, Nat.add_sub_cancel]
  · intro table member
    obtain ⟨source, inside, rfl⟩ := List.mem_map.mp member
    rw [MultilinearPoly.bind_numVars, tracks.upperVars source inside, Nat.add_sub_cancel]
  · intro row inside c
    obtain ⟨even, odd⟩ := below row inside
    rw [SumcheckState.bind, map_bind_getD r tracks.lowerVars inside, bindAll_concat, bindLow,
      bindLow, tracks.lower _ even, tracks.lower _ odd]
  · intro row inside c
    obtain ⟨even, odd⟩ := below row inside
    rw [SumcheckState.bind, map_bind_getD r tracks.upperVars inside, bindAll_concat, bindLow,
      bindLow, tracks.upper _ even, tracks.upper _ odd]

theorem map_lines_getD (tables : List MultilinearPoly) (i : ℕ) (x : Fr) (c : ℕ) :
    ((tables.map fun table => tableLine table i).map fun line => line.value + x * line.step).getD
        c 0 = bindLow x (fun row => (tables.map fun table => table.get row).getD c 0) i := by
  rw [List.map_map]
  simp only [bindLow, getD_map]
  cases tables[c]? with
  | none => simp
  | some table => rfl

/-- The tables no layer row reads are zero. -/
theorem rowTables_cached (c : ℕ) : rowTables a k columns (.cached c) = fun _ => 0 := by
  funext row
  unfold rowTables loadRow
  cases (a.layer k).halving <;> rfl

theorem rowTables_virtual (c : ℕ) (row : ℕ) : rowTables a k columns (.virtual c) row =
    ((listKinds a k).map fun kind => virtualAtRow kind row).getD c 0 := by
  unfold rowTables loadRow listKinds
  cases (a.layer k).halving <;> rfl

theorem bindAll_map_getD (kinds : List VirtualKind) (point : List Fr) (c row : ℕ) :
    bindAll point (fun row => (kinds.map fun kind => virtualAtRow kind row).getD c 0) row =
      (kinds.map fun kind => bindAll point (virtualAtRow kind) row).getD c 0 := by
  simp only [getD_map]
  cases kinds[c]? with
  | none => exact bindAll_const point 0 row
  | some kind => rfl

/-- Where the lines of a row pair stand is the layer's rows with one variable
more bound. -/
theorem Tracks.read_lines {s : SumcheckState} {point : List Fr} {rest i : ℕ}
    (tracks : Tracks a k columns eqPoint s point (rest + 1)) (inside : i < 2 ^ rest) (x : Fr) :
    (fun line : Line => line.value + x * line.step) (tableLine s.eq i) =
        bindLow x (bindAll point (eqWeight eqPoint)) i ∧
      Source.read ((s.pair (listKinds a k) rest i).lower.map fun line => line.value + x * line.step)
        ((s.pair (listKinds a k) rest i).upper.map fun line => line.value + x * line.step)
        ((s.pair (listKinds a k) rest i).virtuals.map fun line => line.value + x * line.step) =
      fun source => bindLow x (bindAll point (rowTables a k columns source)) i := by
  have even : 2 * i < 2 ^ (rest + 1) := by rw [pow_succ]; omega
  have odd : 2 * i + 1 < 2 ^ (rest + 1) := by rw [pow_succ]; omega
  constructor
  · show s.eq.get (2 * i) + x * (s.eq.get (2 * i + 1) - s.eq.get (2 * i)) = _
    rw [tracks.eq _ even, tracks.eq _ odd]
    rfl
  · funext source
    cases source with
    | lower c =>
      rw [Source.read, SumcheckState.pair, map_lines_getD, bindLow, bindLow,
        tracks.lower _ even, tracks.lower _ odd]
    | upper c =>
      rw [Source.read, SumcheckState.pair, map_lines_getD, bindLow, bindLow,
        tracks.upper _ even, tracks.upper _ odd]
    | virtual c =>
      have table : rowTables a k columns (.virtual c) =
          fun row => ((listKinds a k).map fun kind => virtualAtRow kind row).getD c 0 := by
        funext row
        exact rowTables_virtual c row
      rw [Source.read, SumcheckState.pair, List.map_map, table, getD_map, tracks.point_eq]
      unfold bindLow
      rw [bindAll_map_getD, bindAll_map_getD, getD_map, getD_map]
      cases (listKinds a k)[c]? with
      | none => simp
      | some kind => exact virtualLine_eq kind point inside x
    | cached c =>
      have bound := bindAll_const point (0 : Fr)
      rw [rowTables_cached, bindLow, bound, bound, sub_self, mul_zero, add_zero]
      rfl

/-- A state's message is the cubic of the sums over the rows left. -/
theorem Tracks.message_cubic {s : SumcheckState} {point : List Fr} {rest : ℕ}
    {list : ResolvedList} {weights : List Fr} (quadratic : Quadratic (list.summand weights))
    (tracks : Tracks a k columns eqPoint s point (rest + 1)) (x : Fr) :
    cubic (s.message list (listKinds a k) weights rest) x =
      roundSum (list.summand weights) rest (bindAll point (eqWeight eqPoint))
        (fun source => bindAll point (rowTables a k columns source)) x := by
  have node : ∀ node : ℕ, s.atNode list (listKinds a k) weights rest node =
      roundSum (list.summand weights) rest (bindAll point (eqWeight eqPoint))
        (fun source => bindAll point (rowTables a k columns source)) (node : Fr) := by
    intro node
    rw [SumcheckState.atNode, sum_map_range, roundSum, cubeSum]
    apply sum_congr rfl
    intro i member
    obtain ⟨eq, read⟩ := tracks.read_lines (mem_range.mp member) (node : Fr)
    have stepped : (fun line : Line => (Line.next^[node] line).value) =
        fun line => line.value + (node : Fr) * line.step := by
      funext line
      rw [line_iterate]
    rw [pairLines_iterate, PairLines.value]
    simp only [List.map_map, Function.comp_def, stepped]
    rw [read, ← eq, line_iterate]
    rfl
  rw [SumcheckState.message, node, node, node, node]
  exact cubic_interpolateCubic (roundSum_lowDegree _ _ _ _ quadratic) x

/-- The weighted sum over the rows left once a point is bound. -/
def boundSum (list : ResolvedList) (weights : List Fr) (a : CircuitArtifact) (k : ℕ)
    (columns : List MultilinearPoly) (eqPoint point : List Fr) (rest : ℕ) : Fr :=
  cubeSum (list.summand weights) rest (bindAll point (eqWeight eqPoint))
    fun source => bindAll point (rowTables a k columns source)

/-- An honest message sums to the claim it inherits. -/
theorem Tracks.message_sum {s : SumcheckState} {point : List Fr} {rest : ℕ} {list : ResolvedList}
    {weights : List Fr} (quadratic : Quadratic (list.summand weights))
    (tracks : Tracks a k columns eqPoint s point (rest + 1)) :
    cubic (s.message list (listKinds a k) weights rest) 0 +
      cubic (s.message list (listKinds a k) weights rest) 1 =
        boundSum list weights a k columns eqPoint point (rest + 1) := by
  rw [tracks.message_cubic quadratic, tracks.message_cubic quadratic, roundSum_zero_add_one]
  rfl

/-- An honest message evaluates to the next claim. -/
theorem Tracks.message_next {s : SumcheckState} {point : List Fr} {rest : ℕ} {list : ResolvedList}
    {weights : List Fr} (quadratic : Quadratic (list.summand weights))
    (tracks : Tracks a k columns eqPoint s point (rest + 1)) (r : Fr) :
    cubic (s.message list (listKinds a k) weights rest) r =
      boundSum list weights a k columns eqPoint (point ++ [r]) rest := by
  rw [tracks.message_cubic quadratic, boundSum, bindAll_concat]
  simp only [bindAll_concat]
  rfl

/-- The honest rounds pass the verifier's, from the sum over the rows left. -/
theorem verifySumcheck_proveSumcheck {list : ResolvedList} {weights : List Fr}
    (quadratic : Quadratic (list.summand weights)) {s : SumcheckState} {point : List Fr} {rest : ℕ}
    (tracks : Tracks a k columns eqPoint s point rest) (t : Transcript) :
    ∃ drawn : List Fr, drawn.length = rest ∧
      (proveSumcheck list (listKinds a k) weights rest s t).1.length = rest ∧
      Tracks a k columns eqPoint (proveSumcheck list (listKinds a k) weights rest s t).2.1
        (point ++ drawn) 0 ∧
      verifySumcheck (boundSum list weights a k columns eqPoint point rest)
          (proveSumcheck list (listKinds a k) weights rest s t).1 t =
        some (drawn, boundSum list weights a k columns eqPoint (point ++ drawn) 0,
          (proveSumcheck list (listKinds a k) weights rest s t).2.2) := by
  induction rest generalizing s point t with
  | zero => exact ⟨[], rfl, rfl, by rwa [List.append_nil], by rw [List.append_nil]; rfl⟩
  | succ rest ih =>
    set g := s.message list (listKinds a k) weights rest with message
    set absorbed := t.appendScalars TranscriptTag.sumcheckRound g.scalars with absorbedEq
    set r := absorbed.draw TranscriptTag.sumcheckChallenge with draw
    obtain ⟨drawn, length, rounds, later, accepted⟩ :=
      ih (tracks.bind r) (absorbed.drawn TranscriptTag.sumcheckChallenge)
    have unfolded : proveSumcheck list (listKinds a k) weights (rest + 1) s t =
        (g :: (proveSumcheck list (listKinds a k) weights rest (s.bind r)
            (absorbed.drawn TranscriptTag.sumcheckChallenge)).1,
          (proveSumcheck list (listKinds a k) weights rest (s.bind r)
            (absorbed.drawn TranscriptTag.sumcheckChallenge)).2) := rfl
    rw [List.append_assoc, List.singleton_append] at later accepted
    refine ⟨r :: drawn, by rw [List.length_cons, length], ?_, ?_, ?_⟩
    · rw [unfolded, List.length_cons, rounds]
    · rw [unfolded]
      exact later
    · have sum := tracks.message_sum quadratic
      have next := tracks.message_next quadratic r
      rw [← message] at sum next
      rw [unfolded, verifySumcheck, if_neg (not_not_intro sum), ← absorbedEq]
      simp only [← draw, next, accepted]

end Tracks

section Start

variable {a : CircuitArtifact} {k : ℕ} {columns : List MultilinearPoly}

/-- Nothing bound, the state holds the layer's rows. -/
theorem tracks_start (vars : ∀ column ∈ columns, column.numVars = a.layerVars k)
    {point : List Fr} (length : point.length = rowVars a k) :
    Tracks a k columns point ⟨eqPoly point, layerTables a k columns, []⟩ [] (rowVars a k) := by
  have weights : ∀ row < 2 ^ rowVars a k,
      (eqPoly point).get row = bindAll [] (eqWeight point) row := by
    intro row inside
    rw [← length] at inside
    exact eqPoly_get point row inside
  cases halving : (a.layer k).halving with
  | false =>
    have rows : rowVars a k = a.layerVars k := by
      rw [rowVars, halving]
      rfl
    have tables : layerTables a k columns = ⟨columns, []⟩ := by
      rw [layerTables, halving]
      rfl
    rw [tables]
    refine ⟨rfl, length, weights, by rw [tables], by rw [tables], ?_,
      fun table member => absurd member List.not_mem_nil, ?_, ?_⟩
    · intro table member
      rw [vars table member, rows]
    · intro row _ c
      rw [bindAll_nil, rowTables, loadRow, halving]
      rfl
    · intro row _ c
      rw [bindAll_nil, rowTables, loadRow, halving]
      rfl
  | true =>
    have rows : rowVars a k = a.layerVars k - 1 := by
      rw [rowVars, halving]
      rfl
    have tables : layerTables a k columns = ⟨columns.map fun column => (children column).1,
        columns.map fun column => (children column).2⟩ := by
      rw [layerTables, halving]
      rfl
    have below : ∀ column ∈ columns, column.numVars - 1 = rowVars a k := by
      intro column member
      rw [vars column member, rows]
    rw [tables]
    refine ⟨rfl, length, weights, by rw [tables], by rw [tables], ?_, ?_, ?_, ?_⟩
    · intro table member
      obtain ⟨column, inside, rfl⟩ := List.mem_map.mp member
      exact below column inside
    · intro table member
      obtain ⟨column, inside, rfl⟩ := List.mem_map.mp member
      exact below column inside
    · intro row inside c
      rw [bindAll_nil, rowTables, loadRow, halving, if_pos rfl, Source.read, List.map_map,
        getD_map, getD_map]
      cases found : columns[c]? with
      | none => rfl
      | some column =>
        have member := List.mem_iff_getElem?.mpr ⟨c, found⟩
        exact MultilinearPoly.tabulate_get _ (by rwa [below column member])
    · intro row inside c
      rw [bindAll_nil, rowTables, loadRow, halving, if_pos rfl, Source.read, List.map_map,
        getD_map, getD_map]
      cases found : columns[c]? with
      | none => rfl
      | some column =>
        have member := List.mem_iff_getElem?.mpr ⟨c, found⟩
        rw [← below column member] at inside ⊢
        exact MultilinearPoly.tabulate_get _ inside

end Start

end Apogee
