import Apogee.Circuit.MemoryRules
import Apogee.Gkr.Flat

/-! # The roots and the witness columns

Two assignments that agree on the memory and setup columns give a memory artifact the
same roots, and the same values to every gate that a memory challenge weights: whatever
the witness columns hold, which are committed once those challenges are known.
-/

namespace Apogee

open Math (bind_ok then_ok forM_ok)

namespace CircuitArtifact

variable {a : CircuitArtifact}

/-- The flags of layer `k`. -/
def flags (a : CircuitArtifact) : ℕ → List Provenance
  | 0 => []
  | k + 1 => (a.layer k).producing.map fun entry =>
    provenance entry.gate (a.flags k) (cachedProvenance (a.flags k) (a.layer k).cached)

/-- The flags of list `k`'s cached entries. -/
def cachedFlags (a : CircuitArtifact) (k : ℕ) : List Provenance :=
  cachedProvenance (a.flags k) (a.layer k).cached

theorem namedGates_map (list : LayerSpec) : (a.namedGates list).map Prod.snd = list.gates := by
  rw [namedGates, List.map_append, List.map_append, List.map_map, List.map_map, List.map_map]
  rfl

/-- The lists from `k` up pass their rules with the flags of the layers they read. -/
theorem gateRules_ok {lists : List LayerSpec} {k : ℕ} {top : List Provenance}
    (rest : a.layers.drop k = lists) (below : k ≤ a.depth)
    (passed : a.gateRules k (a.flags k) lists = .ok top) :
    top = a.flags a.depth ∧ ∀ j, k ≤ j → j < a.depth → ∀ gate ∈ a.namedGates (a.layer j),
      gateRule j (a.flags j) (a.cachedFlags j) gate = .ok () := by
  induction lists generalizing k with
  | nil =>
    have last : k = a.depth := le_antisymm below (List.drop_eq_nil_iff.mp rest)
    cases passed
    refine ⟨by rw [last], fun j least most => ?_⟩
    exact absurd (least.trans_lt most) (by rw [last]; exact lt_irrefl _)
  | cons list rest' ih =>
    have found : a.layers[k]? = some list := by
      rw [← List.head?_drop, rest, List.head?_cons]
    have inside : k < a.depth := (List.getElem?_eq_some_iff.mp found).1
    have later : a.layers.drop (k + 1) = rest' := by
      rw [← List.tail_drop, rest, List.tail_cons]
    rw [gateRules, then_ok, ← layer_eq found] at passed
    obtain ⟨here, others⟩ := passed
    obtain ⟨same, each⟩ := ih later inside others
    refine ⟨same, fun j least most => ?_⟩
    rcases least.eq_or_lt with rfl | above
    · exact forM_ok.mp here
    · exact each j above most

/-- What an artifact that passes the memory rules satisfies. -/
structure MemoryRules (a : CircuitArtifact) : Prop where
  roots : ∀ root ∈ [Memory.readRoot, Memory.writeRoot], ∀ layer offset,
    a.outputs[root]? = some (.inner layer offset) →
      ((a.flags a.depth)[offset]?).any Provenance.witness = false
  slots : ∀ k < a.depth, ∀ gate ∈ (a.layer k).gates, gate.coefficients.any Coeff.global = true →
    ∀ op ∈ gate.operands, op.early = true

theorem memoryRules_of_checkMemory (passed : a.checkMemory = .ok ()) : a.MemoryRules := by
  rw [checkMemory, bind_ok] at passed
  obtain ⟨top, lists, passed⟩ := passed
  obtain ⟨roots, -⟩ := then_ok.mp passed
  obtain ⟨rfl, rules⟩ := gateRules_ok (k := 0) rfl (Nat.zero_le _) lists
  refine ⟨fun root listed layer offset output => ?_, fun k inside gate member weighted => ?_⟩
  · have rule := forM_ok.mp roots root listed
    rw [rootRule, output] at rule
    dsimp only at rule
    by_cases reads : ((a.flags a.depth)[offset]?).any Provenance.witness = true
    · rw [if_pos reads] at rule
      cases rule
    · exact Bool.not_eq_true _ ▸ reads
  · rw [← namedGates_map (a := a)] at member
    obtain ⟨named, listed, rfl⟩ := List.mem_map.mp member
    have rule := rules k (Nat.zero_le k) inside named listed
    unfold gateRule at rule
    by_cases both : provenance named.2 (a.flags k) (a.cachedFlags k) = ⟨true, true⟩
    · rw [if_pos both] at rule
      cases rule
    · rw [if_neg both, if_pos weighted] at rule
      cases late : named.2.operands.find? fun op => !op.early with
      | some op =>
        rw [late] at rule
        cases rule
      | none =>
        intro op operand
        have early := List.find?_eq_none.mp late op operand
        rwa [Bool.not_eq_true', Bool.not_eq_false] at early

end CircuitArtifact

section Runs

variable {a : CircuitArtifact} {base other : BaseLayer} {challenges : ExternalChallenges}

/-- Two assignments that differ in witness columns alone. -/
def DifferInWitness (a : CircuitArtifact) (base other : BaseLayer) : Prop :=
  ∀ address ∈ a.committed, (∀ i, address ≠ .witness i) → base.get address = other.get address

/-- An operand has one column in both runs. -/
def Shared (a : CircuitArtifact) (base other : BaseLayer) (challenges : ExternalChallenges) (k : ℕ)
    (op : PolyAddress) : Prop :=
  (columnsAt base challenges a k).getD (a.columnIndex op) (.tabulate 0 fun _ => 0) =
    (columnsAt other challenges a k).getD (a.columnIndex op) (.tabulate 0 fun _ => 0)

/-- Operands whose flags name no witness column have one column in both runs. -/
def Agree (a : CircuitArtifact) (base other : BaseLayer) (challenges : ExternalChallenges) (k : ℕ) :
    Prop :=
  ∀ op, a.readable k (a.layer k) (a.layerWidth k) false op = true →
    (operandProvenance (a.flags k) [] op).witness = false →
      (∃ kind, op = .virtual kind) ∨ Shared a base other challenges k op

/-- The committed columns that are not witness columns are in both. -/
theorem agree_zero (same : DifferInWitness a base other) : Agree a base other challenges 0 := by
  intro op reads free
  have committed : a.isCommitted op = true → (∀ i, op ≠ .witness i) →
      Shared a base other challenges 0 op := by
    intro listed early
    have place := committed_columnIndex listed
    rw [Shared, columnsAt_zero, columnsAt_zero, List.getD_eq_getElem?_getD, List.getElem?_map,
      List.getD_eq_getElem?_getD, List.getElem?_map, place, Option.map_some, Option.map_some,
      same op (List.mem_of_getElem? place) early]
  cases op with
  | memory i =>
    rw [CircuitArtifact.readable, Bool.and_eq_true] at reads
    exact Or.inr (committed reads.2 fun i => PolyAddress.noConfusion)
  | setup i =>
    rw [CircuitArtifact.readable, Bool.and_eq_true] at reads
    exact Or.inr (committed reads.2 fun i => PolyAddress.noConfusion)
  | virtual kind => exact Or.inl ⟨kind, rfl⟩
  | witness i => exact absurd free.symm Bool.false_ne_true
  | inner layer offset => exact absurd reads Bool.false_ne_true
  | scratch i => exact absurd reads Bool.false_ne_true
  | cached layer offset => exact absurd reads Bool.false_ne_true

variable {k y : ℕ}

/-- Such an operand has one value on a row of a row-wise list. -/
theorem columnRow_agree (agree : Agree a base other challenges k)
    (rowWise : (a.layer k).halving = false) {op : PolyAddress}
    (reads : a.readable k (a.layer k) (a.layerWidth k) false op = true)
    (free : (operandProvenance (a.flags k) [] op).witness = false) :
    columnRow a (loadRow a k (columnsAt base challenges a k) y) op =
      columnRow a (loadRow a k (columnsAt other challenges a k) y) op := by
  have load : ∀ columns, loadRow a k columns y = Source.read (columns.map fun column => column.get y)
      [] (a.kinds.map fun kind => virtualAtRow kind y) := fun columns => by
    rw [loadRow, rowWise]
    exact if_neg Bool.false_ne_true
  rw [columnRow, columnRow, load, load]
  have shared : Shared a base other challenges k op →
      Source.read ((columnsAt base challenges a k).map fun column => column.get y) []
          (a.kinds.map fun kind => virtualAtRow kind y) (.lower (a.columnIndex op)) =
        Source.read ((columnsAt other challenges a k).map fun column => column.get y) []
          (a.kinds.map fun kind => virtualAtRow kind y) (.lower (a.columnIndex op)) := by
    intro same
    rw [Source.read, Source.read, getD_map_get, getD_map_get, same]
  rcases agree op reads free with ⟨kind, rfl⟩ | same
  · rw [CircuitArtifact.resolve, Source.read, Source.read]
  · cases op with
    | virtual kind => rw [CircuitArtifact.resolve, Source.read, Source.read]
    | cached layer offset => exact absurd reads Bool.false_ne_true
    | memory i => exact shared same
    | setup i => exact shared same
    | witness i => exact shared same
    | inner layer offset => exact shared same
    | scratch i => exact shared same

/-- A column operand's flags do not depend on the cached entries. -/
theorem operandProvenance_column {below cached : List Provenance} {width : ℕ} {list : LayerSpec}
    {op : PolyAddress} (reads : a.readable k list width false op = true) :
    operandProvenance below cached op = operandProvenance below [] op := by
  cases op with
  | cached layer offset => exact absurd reads Bool.false_ne_true
  | _ => rfl

theorem operand_free {gate : GateDef} {below cached : List Provenance}
    (free : (provenance gate below cached).witness = false) {op : PolyAddress}
    (operand : op ∈ gate.operands) : (operandProvenance below cached op).witness = false := by
  rw [provenance_witness, List.any_eq_false] at free
  exact Bool.not_eq_true _ ▸ free op operand

section RowWise

variable (valid : a.Valid) (inside : k < a.depth) (rowWise : (a.layer k).halving = false)
  (agree : Agree a base other challenges k)
include valid inside rowWise agree

/-- A cached entry whose cone has no witness column has one value on a row. -/
theorem cachedValue_agree {i : ℕ} {entry : CachedEntry} (found : (a.layer k).cached[i]? = some entry)
    {cached : List Provenance} (free : (provenance entry.gate (a.flags k) cached).witness = false) :
    entry.gate.value challenges (columnRow a (loadRow a k (columnsAt base challenges a k) y)) =
      entry.gate.value challenges
        (columnRow a (loadRow a k (columnsAt other challenges a k) y)) := by
  have laws := valid.rowWiseList k inside rowWise
  apply GateDef.value_congr
  intro op operand
  have reads := laws.cachedReads entry (List.mem_of_getElem? found) op operand
  have own := operand_free free operand
  rw [operandProvenance_column reads] at own
  exact columnRow_agree agree rowWise reads own

/-- So has an operand, cached entries among them. -/
theorem cachedRow_agree {op : PolyAddress}
    (reads : a.readable k (a.layer k) (a.layerWidth k) true op = true)
    (free : (operandProvenance (a.flags k) (a.cachedFlags k) op).witness = false) :
    cachedRow a k challenges (loadRow a k (columnsAt base challenges a k) y) op =
      cachedRow a k challenges (loadRow a k (columnsAt other challenges a k) y) op := by
  cases op with
  | cached layer offset =>
    cases found : (a.layer k).cached[offset]? with
    | none =>
      rw [cachedRow, cachedRow, found]
    | some entry =>
      have flags := cachedProvenance_getElem? (a.flags k) _ found
      rw [operandProvenance, CircuitArtifact.cachedFlags, List.getD_eq_getElem?_getD, flags,
        Option.getD_some] at free
      rw [cachedRow, cachedRow, found]
      exact cachedValue_agree valid inside rowWise agree found free
  | memory i => exact columnRow_agree agree rowWise reads free
  | setup i => exact columnRow_agree agree rowWise reads free
  | witness i => exact columnRow_agree agree rowWise reads free
  | virtual kind => exact columnRow_agree agree rowWise reads free
  | inner layer offset => exact columnRow_agree agree rowWise reads free
  | scratch i => exact columnRow_agree agree rowWise reads free

end RowWise

theorem gateOnRow_columnsAt (j : ℕ) : gateOnRow a challenges (forward a base challenges) k j y =
    (ResolvedList.new a k challenges).gate (loadRow a k (columnsAt base challenges a k) y) j := rfl

/-- A gate whose cone has no witness column has one value on a row. -/
theorem gateOnRow_agree (valid : a.Valid) (inside : k < a.depth)
    (agree : Agree a base other challenges k) {j : ℕ} {gate : GateDef}
    (found : ((a.layer k).producing.map (·.gate) ++ (a.layer k).enforcing.map (·.gate))[j]? =
      some gate) (free : (provenance gate (a.flags k) (a.cachedFlags k)).witness = false) :
    gateOnRow a challenges (forward a base challenges) k j y =
      gateOnRow a challenges (forward a other challenges) k j y := by
  rw [gateOnRow_columnsAt, gateOnRow_columnsAt]
  cases halving : (a.layer k).halving with
  | false =>
    have laws := valid.rowWiseList k inside halving
    have member : gate ∈ (a.layer k).gates := by
      rw [LayerSpec.gates, List.append_assoc]
      exact List.mem_append_right _ (List.mem_of_getElem? found)
    rw [gate_rowWise valid inside halving found, gate_rowWise valid inside halving found]
    apply GateDef.value_congr
    intro op operand
    exact cachedRow_agree valid inside halving agree (laws.reads gate member op operand)
      (operand_free free operand)
  | true =>
    have laws := valid.halvingList k inside halving
    rw [laws.enforcing, List.map_nil, List.append_nil, List.getElem?_map] at found
    obtain ⟨entry, listed, rfl⟩ := Option.map_eq_some_iff.mp found
    rw [gate_halving halving listed, gate_halving halving listed]
    congr 1
    apply List.flatMap_congr
    intro op operand
    have reads := laws.reads entry (List.mem_of_getElem? listed) op operand
    have own := operand_free free operand
    rw [operandProvenance_column reads] at own
    have load : ∀ columns, loadRow a k columns y =
        Source.read (columns.map fun column => column.get y)
          (columns.map fun column => column.get (y + 2 ^ rowVars a k)) [] := fun columns => by
      rw [loadRow, if_pos halving]
    rw [load, load]
    rcases agree op reads own with ⟨kind, rfl⟩ | same
    · -- a virtual table is read by list 0 alone, which does not halve
      rw [CircuitArtifact.readable, Bool.and_eq_true, beq_iff_eq] at reads
      exact absurd reads.1 laws.aboveBase
    · rw [Shared] at same
      rw [Source.read, Source.read, Source.read, Source.read, getD_map_get, getD_map_get,
        getD_map_get, getD_map_get, same]

/-- One list up. -/
theorem Agree.succ (valid : a.Valid) (inside : k < a.depth)
    (agree : Agree a base other challenges k) : Agree a base other challenges (k + 1) := by
  intro op reads free
  cases op with
  | inner layer o =>
    rw [CircuitArtifact.readable, Bool.and_eq_true, decide_eq_true_eq] at reads
    have column := reads.2
    have width := (valid.shape k inside).width
    rw [width] at column
    have found := List.getElem?_eq_getElem column
    rw [operandProvenance, CircuitArtifact.flags, List.getD_eq_getElem?_getD, List.getElem?_map,
      found, Option.map_some, Option.getD_some] at free
    have listed : ((a.layer k).producing.map (·.gate) ++ (a.layer k).enforcing.map (·.gate))[o]? =
        some ((a.layer k).producing[o]).gate := by
      rw [List.getElem?_append_left (by rwa [List.length_map]), List.getElem?_map, found,
        Option.map_some]
    refine Or.inr ?_
    rw [Shared, columnsAt_succ base challenges inside, columnsAt_succ other challenges inside]
    rw [CircuitArtifact.columnIndex, List.getD_eq_getElem?_getD, List.getD_eq_getElem?_getD,
      List.getElem?_map, List.getElem?_map, List.getElem?_range (by rwa [width]), Option.map_some,
      Option.map_some, Option.getD_some, Option.getD_some]
    refine congrArg (MultilinearPoly.tabulate _) (funext fun y => ?_)
    exact gateOnRow_agree valid inside agree listed free
  | virtual kind => exact Or.inl ⟨kind, rfl⟩
  | _ => exact absurd reads Bool.false_ne_true

theorem agree_of_validate (valid : a.Valid) (same : DifferInWitness a base other) {k : ℕ}
    (inside : k ≤ a.depth) : Agree a base other challenges k := by
  induction k with
  | zero => exact agree_zero same
  | succ k ih => exact (ih (Nat.le_of_succ_le inside)).succ valid inside

/-- A memory slot weights columns whose flags name no witness column. -/
theorem weighted_free {gate : GateDef} {below cached : List Provenance}
    (early : ∀ op ∈ gate.operands, op.early = true) :
    (provenance gate below cached).witness = false := by
  rw [provenance_witness, List.any_eq_false]
  intro op operand
  have column := early op operand
  cases op with
  | memory i => exact Bool.false_ne_true
  | setup i => exact Bool.false_ne_true
  | virtual kind => exact Bool.false_ne_true
  | witness i => exact absurd column Bool.false_ne_true
  | inner layer offset => exact absurd column Bool.false_ne_true
  | scratch i => exact absurd column Bool.false_ne_true
  | cached layer offset => exact absurd column Bool.false_ne_true

theorem topOutputs_inner {root offset : ℕ} (output : a.outputs[root]? = some (.inner a.depth offset)) :
    (topOutputs a (forward a base challenges)).tables[root]? =
      some ((columnsAt base challenges a a.depth).getD offset (.tabulate 0 fun _ => 0)) := by
  rw [topOutputs, List.getElem?_map, output]
  rfl

/-- An accepted memory artifact's roots, and its gates that a memory slot weights, do not
depend on the witness columns. -/
theorem roots_agree (accepted : a.validate = .ok ()) (checked : a.checkMemory = .ok ())
    (challenges : ExternalChallenges) (same : DifferInWitness a base other) :
    (∀ root ∈ [Memory.readRoot, Memory.writeRoot],
      (topOutputs a (forward a base challenges)).tables[root]? =
        (topOutputs a (forward a other challenges)).tables[root]?) ∧
    ∀ k < a.depth, ∀ y,
      (∀ (i : ℕ) (entry : CachedEntry), (a.layer k).cached[i]? = some entry →
        entry.gate.coefficients.any Coeff.global = true →
          ((ResolvedList.new a k challenges).cache
              (loadRow a k (columnsAt base challenges a k) y))[i]? =
            ((ResolvedList.new a k challenges).cache
              (loadRow a k (columnsAt other challenges a k) y))[i]?) ∧
      ∀ (j : ℕ) (gate : GateDef),
        ((a.layer k).producing.map (·.gate) ++ (a.layer k).enforcing.map (·.gate))[j]? = some gate →
          gate.coefficients.any Coeff.global = true →
            gateOnRow a challenges (forward a base challenges) k j y =
              gateOnRow a challenges (forward a other challenges) k j y := by
  have valid := CircuitArtifact.valid_of_validate accepted
  have rules := CircuitArtifact.memoryRules_of_checkMemory checked
  refine ⟨fun root listed => ?_, fun k inside y => ⟨fun i entry found weighted => ?_,
    fun j gate found weighted => ?_⟩⟩
  · cases output : a.outputs[root]? with
    | none =>
      rw [topOutputs, topOutputs, List.getElem?_map, List.getElem?_map, output, Option.map_none,
        Option.map_none]
    | some out =>
      obtain ⟨offset, column, rfl⟩ := valid.topLayer.columns out (List.mem_of_getElem? output)
      have free := rules.roots root listed _ _ output
      have reads : a.readable a.depth (a.layer a.depth) (a.layerWidth a.depth) false
          (.inner a.depth offset) = true := by
        rw [CircuitArtifact.readable, Bool.and_eq_true, Bool.and_eq_true, beq_iff_eq]
        exact ⟨⟨decide_eq_true valid.nonempty, rfl⟩, decide_eq_true column⟩
      have own : (operandProvenance (a.flags a.depth) [] (.inner a.depth offset)).witness =
          false := by
        rw [operandProvenance, List.getD_eq_getElem?_getD]
        cases flag : (a.flags a.depth)[offset]? with
        | none => rfl
        | some flags =>
          rw [flag, Option.any_some] at free
          exact free
      rcases @agree_of_validate _ _ _ challenges valid same _ le_rfl _ reads own with
        ⟨kind, same⟩ | shared
      · cases same
      · rw [Shared, CircuitArtifact.columnIndex] at shared
        rw [topOutputs_inner output, topOutputs_inner output, shared]
  · cases halving : (a.layer k).halving with
    | true =>
      rw [(valid.halvingList k inside halving).cached] at found
      cases found
    | false =>
      have early := rules.slots k inside entry.gate (List.mem_append_left _ (List.mem_append_left _
        (List.mem_map.mpr ⟨entry, List.mem_of_getElem? found, rfl⟩))) weighted
      rw [cache_rowWise valid inside halving, cache_rowWise valid inside halving,
        List.getElem?_map, List.getElem?_map, found, Option.map_some, Option.map_some]
      have free : (provenance entry.gate (a.flags k) []).witness = false := weighted_free early
      exact congrArg some (cachedValue_agree valid inside halving
        (agree_of_validate valid same inside.le) found free)
  · have member : gate ∈ (a.layer k).gates := by
      rw [LayerSpec.gates, List.append_assoc]
      exact List.mem_append_right _ (List.mem_of_getElem? found)
    exact gateOnRow_agree valid inside (agree_of_validate valid same inside.le) found
      (weighted_free (rules.slots k inside gate member weighted))

end Runs

/-- One masked tuple on each side, and a witness column held to the value. -/
def maskedTuples : CircuitArtifact where
  formatVersion := 1
  coefficientEncoding := 0
  traceVars := 0
  memory := ["value", "mask"]
  witness := ["copy"]
  setup := []
  virtuals := []
  layers := [⟨false, 0, 2, [],
    [⟨0, .inner 1 0, .quadratic (lit 1) [(.challenge 1, .memory 1), (neg 1, .memory 1)]
        [(.challenge 4, .memory 0, .memory 1)]⟩,
      ⟨1, .inner 1 1, .quadratic (lit 1) [(.challenge 1, .memory 1), (neg 1, .memory 1)] []⟩],
    [⟨2, booleanity (.memory 1)⟩,
      ⟨3, linear [(lit 1, .witness 0), (neg 1, .memory 0)]⟩]⟩]
  relations := [
    ⟨"read", some 0, .quadratic (lit 1) [(.challenge 1, .memory 1), (neg 1, .memory 1)]
      [(.challenge 4, .memory 0, .memory 1)]⟩,
    ⟨"write", some 1, .quadratic (lit 1) [(.challenge 1, .memory 1), (neg 1, .memory 1)] []⟩,
    ⟨"mask_boolean", none, booleanity (.memory 1)⟩,
    ⟨"copy_rule", none, linear [(lit 1, .witness 0), (neg 1, .memory 0)]⟩]
  lookups := []
  scratch := [⟨"read_slot", .inner 1 0⟩, ⟨"write_slot", .inner 1 1⟩]
  outputs := [.inner 1 0, .inner 1 1]
  padding := ⟨[0, 0, 0], true⟩

/-- A value 3 that is present, and a copy of it. -/
def maskedTuplesBase (copy : ℕ) : BaseLayer :=
  ⟨[(.memory 0, .tabulate 0 fun _ => ((3 : ℕ) : Fr)), (.memory 1, .tabulate 0 fun _ => 1),
    (.witness 0, .tabulate 0 fun _ => (copy : Fr))]⟩

/-- The memory slots that the tuples name. -/
def maskedTuplesChallenges : ExternalChallenges :=
  ⟨[(1, ((5 : ℕ) : Fr)), (4, ((7 : ℕ) : Fr))], by decide⟩

theorem roots_agree_maskedTuples :
    (topOutputs maskedTuples
        (forward maskedTuples (maskedTuplesBase 3) maskedTuplesChallenges)).tables[Memory.readRoot]? =
      (topOutputs maskedTuples
        (forward maskedTuples (maskedTuplesBase 4) maskedTuplesChallenges)).tables[Memory.readRoot]? ∧
    (topOutputs maskedTuples
        (forward maskedTuples (maskedTuplesBase 3) maskedTuplesChallenges)).tables[Memory.writeRoot]? =
      (topOutputs maskedTuples
        (forward maskedTuples (maskedTuplesBase 4) maskedTuplesChallenges)).tables[Memory.writeRoot]? := by
  have same : DifferInWitness maskedTuples (maskedTuplesBase 3) (maskedTuplesBase 4) := by
    intro address listed early
    have all : ∀ address ∈ maskedTuples.committed, address = .memory 0 ∨ address = .memory 1 ∨
        address = .witness 0 := by
      decide
    rcases all address listed with rfl | rfl | rfl
    · rfl
    · rfl
    · exact absurd rfl (early 0)
  have roots := (roots_agree (by decide +kernel) (by decide +kernel) maskedTuplesChallenges same).1
  exact ⟨roots _ List.mem_cons_self, roots _ (List.mem_cons_of_mem _ List.mem_cons_self)⟩

end Apogee
