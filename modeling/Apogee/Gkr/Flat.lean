import Apogee.Circuit.SingleSource
import Apogee.Gkr.Completeness
import Apogee.Gkr.Inline

/-! # The flat list's values are the layers'

The flat list defines a scratch column per producing relation. It has one
solution over the committed columns, the layers of the forward pass under the
scratch bijection, and its enforcing relations vanish where the gates that
encode them do.
-/

namespace Apogee

/-- A value for every scratch slot on every row. -/
abbrev ScratchTables := ℕ → ℕ → Fr

/-- The scratch slot a column symbol is. -/
def Symbol.slot : Symbol → Option ℕ
  | .column (.scratch s) => some s
  | _ => none

/-- The variables of a slot's rows: its inner column's. -/
def CircuitArtifact.slotVars (a : CircuitArtifact) (s : ℕ) : ℕ :=
  match a.slotAddress s with
  | some (.inner layer _) => a.layerVars layer
  | _ => 0

/-- The variables of the rows an enforcing relation speaks of: those of a slot
its polynomial reads, and the trace's where it reads none. -/
def CircuitArtifact.flatVars (a : CircuitArtifact) (r : Relation) : ℕ :=
  match ((normalForm r.gate).flatMap Prod.fst).findSome? Symbol.slot with
  | some s => a.slotVars s
  | none => a.traceVars

section Flat

variable (a : CircuitArtifact) (base : BaseLayer) (challenges : ExternalChallenges)

/-- What the flat list reads on a row. -/
def flatRow (scratch : ScratchTables) (y : ℕ) : Row
  | .virtual kind => virtualAtRow kind y
  | .scratch s => scratch s y
  | address => ((base.get address).getD (.tabulate 0 fun _ => 0)).get y

/-- A relation's gate on a row, a halving shape over the rows of both children. -/
def flatGate (scratch : ScratchTables) (vars : ℕ) (gate : GateDef) (y : ℕ) : Fr :=
  if gate.halving then
    evalGate challenges gate (gate.operands.flatMap fun op =>
      [flatRow base scratch y op, flatRow base scratch (y + 2 ^ vars) op])
  else gate.value challenges (flatRow base scratch y)

/-- Every slot from the relation that defines it, read on given tables. -/
def flatStep (scratch : ScratchTables) : ScratchTables := fun s y =>
  match a.relations.find? fun r => r.output == some s with
  | some r => flatGate base challenges scratch (a.slotVars s) r.gate y
  | none => 0

/-- The flat list evaluated, a pass for each layer of slots. -/
def flatTables : ScratchTables := (flatStep a base challenges)^[a.depth] fun _ _ => 0

/-- Every producing relation defines its slot on the slot's rows. -/
def FlatSolution (scratch : ScratchTables) : Prop :=
  ∀ r ∈ a.relations, ∀ s, r.output = some s → ∀ y < 2 ^ a.slotVars s,
    scratch s y = flatGate base challenges scratch (a.slotVars s) r.gate y

/-- Every enforcing relation is zero on every row it speaks of. -/
def FlatHolds (scratch : ScratchTables) : Prop :=
  ∀ r ∈ a.relations, r.output = none → ∀ y < 2 ^ a.flatVars r,
    flatGate base challenges scratch (a.flatVars r) r.gate y = 0

/-- Layer `k`'s slots hold its columns. -/
def HoldsLayer (scratch : ScratchTables) (k : ℕ) : Prop :=
  ∀ s o, a.slotAddress s = some (.inner k o) → ∀ y < 2 ^ a.layerVars k,
    scratch s y = ((columnsAt base challenges a k).getD o (.tabulate 0 fun _ => 0)).get y

/-- A row's assignment of symbols. -/
def flatAssign (scratch : ScratchTables) (vars y : ℕ) : Symbol → Fr
  | .column address => flatRow base scratch y address
  | .child address bit => flatRow base scratch (y + bit * 2 ^ vars) address
  | .challenge slot => coefficient challenges (.challenge slot)

end Flat

section Values

variable {a : CircuitArtifact} {base : BaseLayer} {challenges : ExternalChallenges}
  {scratch : ScratchTables} {vars y : ℕ}

/-- A relation's value is its polynomial's. -/
theorem flatGate_eq_value (gate : GateDef) : flatGate base challenges scratch vars gate y =
      Expansion.value (flatAssign base challenges scratch vars y) (normalForm gate) := by
  rw [normalForm, value_normalize, Namespace.expand, flatGate]
  cases halving : gate.halving with
  | false =>
    rw [if_neg Bool.false_ne_true]
    symm
    apply value_expandWith (fun slot => rfl) halving
    intro op _
    cases op <;> simp [Namespace.operand, Namespace.columnOperand, Namespace.column,
      Namespace.flat, flatAssign]
  | true =>
    rw [if_pos rfl, value_expandWith_halving _ halving]
    congr 1
    apply List.flatMap_congr
    intro op _
    cases op <;> simp [Namespace.column, Namespace.flat, flatAssign]

/-- A committed column's place in the layout. -/
theorem committed_columnIndex {op : PolyAddress} (committed : a.isCommitted op = true) :
    a.committed[a.columnIndex op]? = some op := by
  unfold CircuitArtifact.committed
  cases op with
  | memory i =>
    have below : i < a.memory.length := of_decide_eq_true committed
    rw [CircuitArtifact.columnIndex, List.append_assoc, List.getElem?_append_left (by simpa)]
    simp [below]
  | witness i =>
    have below : i < a.witness.length := of_decide_eq_true committed
    rw [CircuitArtifact.columnIndex, List.append_assoc, List.getElem?_append_right (by simp),
      List.getElem?_append_left (by simpa)]
    simp [below]
  | setup i =>
    have below : i < a.setup.length := of_decide_eq_true committed
    rw [CircuitArtifact.columnIndex, List.append_assoc, List.getElem?_append_right (by simp; omega),
      List.getElem?_append_right (by simp; omega)]
    simp only [List.length_map, List.length_range, List.getElem?_map]
    rw [show a.memory.length + a.witness.length + i - a.memory.length - a.witness.length = i by
      omega, List.getElem?_range below]
    rfl
  | _ => exact absurd committed Bool.false_ne_true

/-- A listed virtual table's place. -/
theorem kinds_findIdx {kind : VirtualKind} (listed : kind ∈ a.kinds) :
    a.kinds[a.kinds.findIdx fun other => other == kind]? = some kind := by
  have found : (a.kinds.findIdx fun other => other == kind) < a.kinds.length :=
    List.findIdx_lt_length_of_exists ⟨kind, listed, beq_self_eq_true _⟩
  rw [List.getElem?_eq_getElem found, Option.some.injEq]
  exact eq_of_beq (List.findIdx_getElem (w := found))

end Values

section Layered

variable {a : CircuitArtifact} {base : BaseLayer} {challenges : ExternalChallenges}
  {scratch : ScratchTables} {k y : ℕ}

/-- A slot read as an inner column's symbol holds the column. -/
theorem flatRow_slot (rules : a.RelationRules) (held : HoldsLayer a base challenges scratch k)
    {s o : ℕ} (slot : a.slotAddress s = some (.inner k o)) {row : ℕ} (inside : row < 2 ^ a.layerVars k) :
    flatRow base scratch row ((a.layered (a.layer k)).column (.inner k o)) =
      ((columnsAt base challenges a k).getD o (.tabulate 0 fun _ => 0)).get row := by
  have column : (a.layered (a.layer k)).column (.inner k o) = .scratch s := by
    show PolyAddress.scratch ((a.inverse (.inner k o)).getD 0) = .scratch s
    rw [rules.inverse slot, Option.getD_some]
  rw [column]
  exact held s o slot row inside

theorem getD_map_get (columns : List MultilinearPoly) (index row : ℕ) :
    (columns.map fun column => column.get row).getD index 0 =
      (columns.getD index (.tabulate 0 fun _ => 0)).get row := by
  rw [List.getD_eq_getElem?_getD, List.getD_eq_getElem?_getD, List.getElem?_map]
  cases columns[index]? with
  | some column => rfl
  | none =>
    rw [Option.map_none, Option.getD_none, Option.getD_none, MultilinearPoly.get,
      MultilinearPoly.tabulate]
    cases row <;> simp

section RowWise

variable (valid : a.Valid) (rules : a.RelationRules) (source : a.SingleSource)
  (held : HoldsLayer a base challenges scratch k) (inside : k < a.depth)
  (rowWise : (a.layer k).halving = false) (row : y < 2 ^ a.layerVars k)
include valid rules source held inside rowWise row

/-- A column operand's symbol has the value its list reads on the row. -/
theorem value_columnOperand (vars : ℕ) {op : PolyAddress}
    (reads : a.readable k (a.layer k) (a.layerWidth k) false op = true) :
    Expansion.value (flatAssign base challenges scratch vars y)
        ((a.layered (a.layer k)).columnOperand op) =
      columnRow a (loadRow a k (columnsAt base challenges a k) y) op := by
  have value : Expansion.value (flatAssign base challenges scratch vars y)
      ((a.layered (a.layer k)).columnOperand op) =
        flatRow base scratch y ((a.layered (a.layer k)).column op) := by
    simp [Namespace.columnOperand, flatAssign]
  have load : loadRow a k (columnsAt base challenges a k) y =
      Source.read ((columnsAt base challenges a k).map fun column => column.get y) []
        (a.kinds.map fun kind => virtualAtRow kind y) := by
    rw [loadRow, rowWise]
    exact if_neg Bool.false_ne_true
  have committed : a.isCommitted op = true → k = 0 → flatRow base scratch y op =
      ((columnsAt base challenges a k).map fun column => column.get y).getD (a.columnIndex op) 0 := by
    intro listed base_
    rw [base_, getD_map_get, columnsAt_zero, List.getD_eq_getElem?_getD, List.getElem?_map,
      committed_columnIndex listed]
    cases op with
    | memory i => rfl
    | witness i => rfl
    | setup i => rfl
    | _ => exact absurd listed Bool.false_ne_true
  rw [value, columnRow, load]
  cases op with
  | memory i =>
    rw [CircuitArtifact.readable, Bool.and_eq_true, beq_iff_eq] at reads
    exact committed reads.2 reads.1
  | witness i =>
    rw [CircuitArtifact.readable, Bool.and_eq_true, beq_iff_eq] at reads
    exact committed reads.2 reads.1
  | setup i =>
    rw [CircuitArtifact.readable, Bool.and_eq_true, beq_iff_eq] at reads
    exact committed reads.2 reads.1
  | virtual kind =>
    rw [CircuitArtifact.readable, Bool.and_eq_true, List.contains_iff_mem] at reads
    show virtualAtRow kind y = (a.kinds.map fun kind => virtualAtRow kind y).getD _ 0
    rw [List.getD_eq_getElem?_getD, List.getElem?_map, kinds_findIdx reads.2]
    rfl
  | inner layer o =>
    simp only [CircuitArtifact.readable, Bool.and_eq_true, beq_iff_eq, decide_eq_true_eq] at reads
    obtain ⟨⟨positive, rfl⟩, column⟩ := reads
    obtain ⟨k, rfl⟩ := Nat.exists_eq_add_one_of_ne_zero (Nat.one_le_iff_ne_zero.mp positive)
    obtain ⟨s, slot⟩ := CircuitArtifact.exists_slot valid source (Nat.lt_of_succ_lt inside) column
    rw [flatRow_slot rules held slot row, ← getD_map_get]
    rfl
  | scratch i => exact absurd reads Bool.false_ne_true
  | cached layer o => exact absurd reads Bool.false_ne_true

/-- An operand's expansion has the value its list reads, cached entries
substituted. -/
theorem value_operand (vars : ℕ) {op : PolyAddress}
    (reads : a.readable k (a.layer k) (a.layerWidth k) true op = true) :
    Expansion.value (flatAssign base challenges scratch vars y)
        ((a.layered (a.layer k)).operand op) =
      cachedRow a k challenges (loadRow a k (columnsAt base challenges a k) y) op := by
  have column := @value_columnOperand a base challenges scratch k y valid rules source held inside
    rowWise row vars
  cases op with
  | cached layer offset =>
    have laws := valid.rowWiseList k inside rowWise
    cases found : (a.layer k).cached[offset]? with
    | none => simp [Namespace.operand, CircuitArtifact.layered, cachedRow, found]
    | some entry =>
      have member := List.mem_of_getElem? found
      have expansion : (a.layered (a.layer k)).operand (.cached layer offset) =
          (a.layered (a.layer k)).expandWith (a.layered (a.layer k)).columnOperand
            entry.gate := by
        simp [Namespace.operand, CircuitArtifact.layered, found]
      rw [expansion]
      simp only [cachedRow, found]
      apply value_expandWith (fun slot => rfl)
      · apply laws.shapes
        unfold LayerSpec.gates
        exact List.mem_append_left _ (List.mem_append_left _
          (List.mem_map.mpr ⟨entry, member, rfl⟩))
      · intro op operand
        exact column (laws.cachedReads entry member op operand)
  | memory i => exact column reads
  | witness i => exact column reads
  | setup i => exact column reads
  | virtual kind => exact column reads
  | inner layer o => exact column reads
  | scratch i => exact column reads

theorem gateOnRow_rowWise (vars : ℕ) {j : ℕ} {gate : GateDef}
    (found : ((a.layer k).producing.map (·.gate) ++ (a.layer k).enforcing.map (·.gate))[j]? =
      some gate) :
    gateOnRow a challenges (forward a base challenges) k j y =
      Expansion.value (flatAssign base challenges scratch vars y)
        ((a.layered (a.layer k)).expand gate) := by
  have laws := valid.rowWiseList k inside rowWise
  have member : gate ∈ (a.layer k).gates := by
    rw [LayerSpec.gates, List.append_assoc]
    exact List.mem_append_right _ (List.mem_of_getElem? found)
  have value : gateOnRow a challenges (forward a base challenges) k j y = gate.value challenges
        (cachedRow a k challenges (loadRow a k (columnsAt base challenges a k) y)) :=
    gate_rowWise valid inside rowWise found _
  rw [value]
  symm
  apply value_expandWith (fun slot => rfl) (laws.shapes gate member)
  intro op operand
  exact value_operand valid rules source held inside rowWise row vars
    (laws.reads gate member op operand)

end RowWise

theorem gateOnRow_halving (valid : a.Valid) (rules : a.RelationRules) (source : a.SingleSource)
    (held : HoldsLayer a base challenges scratch k) (inside : k < a.depth)
    (halving : (a.layer k).halving = true) (row : y < 2 ^ rowVars a k) {j : ℕ}
    {entry : ProducingEntry} (found : (a.layer k).producing[j]? = some entry) :
    gateOnRow a challenges (forward a base challenges) k j y =
      Expansion.value (flatAssign base challenges scratch (rowVars a k) y)
        ((a.layered (a.layer k)).expand entry.gate) := by
  have laws := valid.halvingList k inside halving
  have member := List.mem_of_getElem? found
  have positive := (valid.shape k inside).halvable halving
  have rows : a.layerVars k = rowVars a k + 1 := by
    rw [rowVars, halving, if_pos rfl]
    omega
  have load : loadRow a k (columnsAt base challenges a k) y =
      Source.read ((columnsAt base challenges a k).map fun column => column.get y)
        ((columnsAt base challenges a k).map fun column => column.get (y + 2 ^ rowVars a k)) [] := by
    rw [loadRow, halving]
    exact if_pos rfl
  have value : gateOnRow a challenges (forward a base challenges) k j y =
      evalGate challenges entry.gate (entry.gate.operands.flatMap fun op =>
        [loadRow a k (columnsAt base challenges a k) y (.lower (a.columnIndex op)),
          loadRow a k (columnsAt base challenges a k) y (.upper (a.columnIndex op))]) :=
    gate_halving halving found _
  rw [value, Namespace.expand, value_expandWith_halving _ (laws.shapes entry member), load]
  congr 1
  apply List.flatMap_congr
  intro op operand
  have reads := laws.reads entry member op operand
  cases op with
  | inner layer o =>
    simp only [CircuitArtifact.readable, Bool.and_eq_true, beq_iff_eq, decide_eq_true_eq] at reads
    obtain ⟨⟨-, rfl⟩, column⟩ := reads
    obtain ⟨k, rfl⟩ := Nat.exists_eq_add_one_of_ne_zero laws.aboveBase
    obtain ⟨s, slot⟩ := CircuitArtifact.exists_slot valid source (Nat.lt_of_succ_lt inside) column
    have lowInside : y < 2 ^ a.layerVars (k + 1) := by
      rw [rows, pow_succ]
      omega
    have highInside : y + 2 ^ rowVars a (k + 1) < 2 ^ a.layerVars (k + 1) := by
      rw [rows, pow_succ]
      omega
    have low := flatRow_slot rules held slot lowInside
    have high := flatRow_slot rules held slot highInside
    simp only [flatAssign, Nat.zero_mul, Nat.add_zero, Nat.one_mul, Source.read,
      CircuitArtifact.columnIndex, getD_map_get]
    rw [low, high]
  | _ => exact absurd reads (by simp [CircuitArtifact.readable, laws.aboveBase])

end Layered

section Solution

variable {a : CircuitArtifact} {base : BaseLayer} {challenges : ExternalChallenges}

theorem slotVars_eq {s k o : ℕ} (slot : a.slotAddress s = some (.inner k o)) :
    a.slotVars s = a.layerVars k := by
  rw [CircuitArtifact.slotVars, slot]

/-- A producing relation's value on a row is its gate's, the layer below held. -/
theorem flatGate_producing (valid : a.Valid) (rules : a.RelationRules) (source : a.SingleSource)
    {scratch : ScratchTables} {k o y : ℕ} (held : HoldsLayer a base challenges scratch k)
    (inside : k < a.depth) (row : y < 2 ^ rowVars a k) {entry : ProducingEntry}
    (found : (a.layer k).producing[o]? = some entry) {gate : GateDef}
    (same : normalForm gate = normalize ((a.layered (a.layer k)).expand entry.gate)) :
    flatGate base challenges scratch (rowVars a k) gate y =
      gateOnRow a challenges (forward a base challenges) k o y := by
  rw [flatGate_eq_value, same, value_normalize]
  symm
  cases halving : (a.layer k).halving with
  | true => exact gateOnRow_halving valid rules source held inside halving row found
  | false =>
    have rows : y < 2 ^ a.layerVars k := by
      rw [rowVars, halving, if_neg Bool.false_ne_true] at row
      exact row
    apply gateOnRow_rowWise valid rules source held inside halving rows
    obtain ⟨below, -⟩ := List.getElem?_eq_some_iff.mp found
    rw [List.getElem?_append_left (by rwa [List.length_map]), List.getElem?_map, found,
      Option.map_some]

/-- Slots defined from tables that hold a layer hold the next. -/
theorem HoldsLayer.succ (valid : a.Valid) (rules : a.RelationRules) (source : a.SingleSource)
    {scratch other : ScratchTables} {k : ℕ} (held : HoldsLayer a base challenges scratch k)
    (defines : ∀ r ∈ a.relations, ∀ s, r.output = some s → ∀ y < 2 ^ a.slotVars s,
      other s y = flatGate base challenges scratch (a.slotVars s) r.gate y) :
    HoldsLayer a base challenges other (k + 1) := by
  intro s o slot y row
  obtain ⟨j, inside, column, below, address⟩ := rules.inner s _ slot
  cases address
  have shape := valid.shape k inside
  have rows := rowVars_eq valid inside
  have vars := slotVars_eq slot
  have width := below
  rw [shape.width] at width
  have found := List.getElem?_eq_getElem width
  obtain ⟨r, listed, output, same⟩ :=
    CircuitArtifact.exists_relation valid rules source inside found slot
  rw [defines r listed s output y (by rwa [vars]), vars, ← rows]
  rw [← rows] at row
  rw [flatGate_producing valid rules source held inside row found same,
    columnsAt_succ base challenges inside, List.getD_eq_getElem?_getD, List.getElem?_map,
    List.getElem?_range below, Option.map_some, Option.getD_some,
    MultilinearPoly.tabulate_get _ row]

/-- No slot is a column of the base. -/
theorem holdsLayer_zero (rules : a.RelationRules) (scratch : ScratchTables) :
    HoldsLayer a base challenges scratch 0 := by
  intro s o slot
  obtain ⟨k, -, column, -, address⟩ := rules.inner s _ slot
  cases address

/-- A solution of the flat list holds every layer. -/
theorem FlatSolution.holdsLayer (valid : a.Valid) (rules : a.RelationRules)
    (source : a.SingleSource) {scratch : ScratchTables}
    (solution : FlatSolution a base challenges scratch) (k : ℕ) :
    HoldsLayer a base challenges scratch k := by
  induction k with
  | zero => exact holdsLayer_zero rules scratch
  | succ k ih => exact ih.succ valid rules source solution

theorem flatStep_defines (rules : a.RelationRules) (scratch : ScratchTables) :
    ∀ r ∈ a.relations, ∀ s, r.output = some s → ∀ y < 2 ^ a.slotVars s,
      flatStep a base challenges scratch s y =
        flatGate base challenges scratch (a.slotVars s) r.gate y := by
  intro r listed s output y _
  rw [flatStep, rules.relation_unique listed output]

/-- As many passes as layers hold every layer. -/
theorem flatTables_holdsLayer (valid : a.Valid) (rules : a.RelationRules)
    (source : a.SingleSource) {k : ℕ} (inside : k ≤ a.depth) :
    HoldsLayer a base challenges (flatTables a base challenges) k := by
  have passes : ∀ count, ∀ k ≤ count, HoldsLayer a base challenges
      ((flatStep a base challenges)^[count] fun _ _ => 0) k := by
    intro count
    induction count with
    | zero =>
      intro k none_
      rw [Nat.le_zero.mp none_]
      exact holdsLayer_zero rules _
    | succ count ih =>
      intro k below
      rw [Function.iterate_succ_apply']
      cases k with
      | zero => exact holdsLayer_zero rules _
      | succ k =>
        exact (ih k (Nat.le_of_succ_le_succ below)).succ valid rules source
          (flatStep_defines rules _)
  exact passes a.depth k inside

/-- The evaluated flat list solves it. -/
theorem flatTables_solution (valid : a.Valid) (rules : a.RelationRules) (source : a.SingleSource) :
    FlatSolution a base challenges (flatTables a base challenges) := by
  intro r listed s output y row
  have below := rules.outputs r listed s output
  have slot : a.slotAddress s = some (a.scratch[s]).address := by
    rw [CircuitArtifact.slotAddress, List.getElem?_eq_getElem below, Option.map_some]
  obtain ⟨k, inside, o, column, address⟩ := rules.inner s _ slot
  rw [address] at slot
  have held := fun k inside =>
    @flatTables_holdsLayer a base challenges valid rules source k inside
  have again : HoldsLayer a base challenges
      (flatStep a base challenges (flatTables a base challenges)) (k + 1) :=
    (held k inside.le).succ valid rules source (flatStep_defines rules _)
  have vars := slotVars_eq slot
  rw [← flatStep_defines rules _ r listed s output y row, held (k + 1) inside s o slot y (by rwa [← vars]),
    again s o slot y (by rwa [← vars])]

end Solution

section Enforcing

variable {a : CircuitArtifact} {base : BaseLayer} {challenges : ExternalChallenges}

/-- The symbols a row-wise list's gates may name: a slot of the layer it reads,
another column in list 0 only, a challenge, no child. -/
def ListSymbol (a : CircuitArtifact) (k : ℕ) : Symbol → Prop
  | .column (.scratch s) => k ≠ 0 ∧ a.slotVars s = a.layerVars k
  | .column _ => k = 0
  | .child _ _ => False
  | .challenge _ => True

section List

variable {k : ℕ} (valid : a.Valid) (rules : a.RelationRules) (source : a.SingleSource)
  (inside : k < a.depth) (rowWise : (a.layer k).halving = false)
include valid rules source inside

theorem over_columnOperand {op : PolyAddress}
    (reads : a.readable k (a.layer k) (a.layerWidth k) false op = true) :
    ((a.layered (a.layer k)).columnOperand op).Over (ListSymbol a k) := by
  have one : ListSymbol a k (.column ((a.layered (a.layer k)).column op)) := by
    cases op with
    | inner layer o =>
      simp only [CircuitArtifact.readable, Bool.and_eq_true, beq_iff_eq, decide_eq_true_eq]
        at reads
      obtain ⟨⟨positive, rfl⟩, column⟩ := reads
      obtain ⟨k, rfl⟩ := Nat.exists_eq_add_one_of_ne_zero (Nat.one_le_iff_ne_zero.mp positive)
      obtain ⟨s, slot⟩ := CircuitArtifact.exists_slot valid source (Nat.lt_of_succ_lt inside) column
      have found : (a.layered (a.layer (k + 1))).column (.inner (k + 1) o) = .scratch s := by
        show PolyAddress.scratch ((a.inverse (.inner (k + 1) o)).getD 0) = .scratch s
        rw [rules.inverse slot, Option.getD_some]
      rw [found]
      exact ⟨Nat.succ_ne_zero k, slotVars_eq slot⟩
    | memory i => exact beq_iff_eq.mp (Bool.and_eq_true_iff.mp reads).1
    | witness i => exact beq_iff_eq.mp (Bool.and_eq_true_iff.mp reads).1
    | setup i => exact beq_iff_eq.mp (Bool.and_eq_true_iff.mp reads).1
    | virtual kind => exact beq_iff_eq.mp (Bool.and_eq_true_iff.mp reads).1
    | scratch i => exact absurd reads Bool.false_ne_true
    | cached layer o => exact absurd reads Bool.false_ne_true
  intro term member symbol factor
  rw [Namespace.columnOperand, List.mem_singleton] at member
  rw [member, List.mem_singleton] at factor
  rw [factor]
  exact one

include rowWise in
theorem over_expand {gate : GateDef} (listed : gate ∈ (a.layer k).gates) :
    ((a.layered (a.layer k)).expand gate).Over (ListSymbol a k) := by
  have laws := valid.rowWiseList k inside rowWise
  have column := fun op reads => @over_columnOperand a k valid rules source inside op reads
  have slots : ∀ slot, ListSymbol a k (.challenge slot) := fun _ => trivial
  apply Expansion.over_expandWith slots (laws.shapes gate listed)
  intro op operand
  have reads := laws.reads gate listed op operand
  cases op with
  | cached layer offset =>
    cases found : (a.layer k).cached[offset]? with
    | none =>
      simp only [Namespace.operand, CircuitArtifact.layered, found, ↓reduceIte]
      exact fun term member => absurd member List.not_mem_nil
    | some entry =>
      have member := List.mem_of_getElem? found
      have expansion : (a.layered (a.layer k)).operand (.cached layer offset) =
          (a.layered (a.layer k)).expandWith (a.layered (a.layer k)).columnOperand
            entry.gate := by
        simp [Namespace.operand, CircuitArtifact.layered, found]
      rw [expansion]
      apply Expansion.over_expandWith slots
      · apply laws.shapes
        unfold LayerSpec.gates
        exact List.mem_append_left _ (List.mem_append_left _
          (List.mem_map.mpr ⟨entry, member, rfl⟩))
      · intro op operand
        exact column op (laws.cachedReads entry member op operand)
  | memory i => exact column _ reads
  | witness i => exact column _ reads
  | setup i => exact column _ reads
  | virtual kind => exact column _ reads
  | inner layer o => exact column _ reads
  | scratch i => exact column _ reads

end List

/-- A relation over one list's symbols speaks of the list's rows, or takes one
value on every row. -/
theorem flatVars_eq_or_constant {r : Relation} {k : ℕ}
    (symbols : (normalForm r.gate).Over (ListSymbol a k)) :
    a.flatVars r = a.layerVars k ∨ ∀ (scratch : ScratchTables) (vars other y z : ℕ),
      flatGate base challenges scratch vars r.gate y =
        flatGate base challenges scratch other r.gate z := by
  cases found : ((normalForm r.gate).flatMap Prod.fst).findSome? Symbol.slot with
  | some s =>
    left
    rw [CircuitArtifact.flatVars, found]
    obtain ⟨symbol, listed, slot⟩ := List.exists_of_findSome?_eq_some found
    obtain ⟨term, member, factor⟩ := List.mem_flatMap.mp listed
    have holds := symbols term member symbol factor
    cases symbol with
    | column address =>
      cases address with
      | scratch t =>
        cases slot
        exact holds.2
      | _ => cases slot
    | _ => cases slot
  | none =>
    have noSlot := List.findSome?_eq_none_iff.mp found
    by_cases zero : k = 0
    · left
      rw [CircuitArtifact.flatVars, found, zero]
      rfl
    · right
      intro scratch vars other y z
      rw [flatGate_eq_value, flatGate_eq_value]
      apply Expansion.Over.value_congr
      intro term member symbol factor
      have holds := symbols term member symbol factor
      cases symbol with
      | column address =>
        have free := noSlot _ (List.mem_flatMap.mpr ⟨term, member, factor⟩)
        cases address with
        | scratch t => cases free
        | _ => exact absurd holds zero
      | child address bit => exact absurd holds not_false
      | challenge slot => rfl

/-- An enforcing relation vanishes on its rows exactly when its gate vanishes on
its list's. -/
theorem vanishes_iff (valid : a.Valid) (rules : a.RelationRules) (source : a.SingleSource)
    {scratch : ScratchTables} {k j : ℕ} (held : HoldsLayer a base challenges scratch k)
    (inside : k < a.depth) {entry : EnforcingEntry} (found : (a.layer k).enforcing[j]? = some entry)
    {r : Relation}
    (same : normalForm r.gate = normalize ((a.layered (a.layer k)).expand entry.gate)) :
    (∀ y < 2 ^ a.flatVars r, flatGate base challenges scratch (a.flatVars r) r.gate y = 0) ↔
      ∀ y < 2 ^ rowVars a k, gateOnRow a challenges (forward a base challenges) k
        ((a.layer k).producing.length + j) y = 0 := by
  have rowWise : (a.layer k).halving = false := by
    cases halving : (a.layer k).halving with
    | false => rfl
    | true =>
      rw [(valid.halvingList k inside halving).enforcing] at found
      cases found
  have rows : rowVars a k = a.layerVars k := by
    rw [rowVars, rowWise]
    exact if_neg Bool.false_ne_true
  obtain ⟨below, -⟩ := List.getElem?_eq_some_iff.mp found
  have gateFound : ((a.layer k).producing.map (·.gate) ++
      (a.layer k).enforcing.map (·.gate))[(a.layer k).producing.length + j]? = some entry.gate := by
    rw [List.getElem?_append_right (by simp), List.length_map, Nat.add_sub_cancel_left,
      List.getElem?_map, found, Option.map_some]
  have value : ∀ vars, ∀ y < 2 ^ a.layerVars k,
      flatGate base challenges scratch vars r.gate y =
        gateOnRow a challenges (forward a base challenges) k
          ((a.layer k).producing.length + j) y := by
    intro vars y row
    rw [flatGate_eq_value, same, value_normalize]
    exact (gateOnRow_rowWise valid rules source held inside rowWise row vars gateFound).symm
  have listed : entry.gate ∈ (a.layer k).gates := by
    rw [LayerSpec.gates, List.append_assoc]
    exact List.mem_append_right _ (List.mem_of_getElem? gateFound)
  have symbols : (normalForm r.gate).Over (ListSymbol a k) := by
    rw [same]
    exact (over_expand valid rules source inside rowWise listed).normalize
  rw [rows]
  rcases @flatVars_eq_or_constant a base challenges r k symbols with vars | constant
  · rw [vars]
    constructor
    · intro flat y row
      rw [← value (a.layerVars k) y row]
      exact flat y row
    · intro layered y row
      rw [value (a.layerVars k) y row]
      exact layered y row
  · constructor
    · intro flat y row
      rw [← value (a.flatVars r) y row, constant scratch _ (a.flatVars r) y 0]
      exact flat 0 (Nat.two_pow_pos _)
    · intro layered y row
      rw [constant scratch _ (a.flatVars r) y 0, value _ 0 (Nat.two_pow_pos _)]
      exact layered 0 (Nat.two_pow_pos _)

/-- The flat list's enforcing relations vanish exactly when the enforcing gates
do. -/
theorem flatHolds_iff (valid : a.Valid) (rules : a.RelationRules) (source : a.SingleSource)
    {scratch : ScratchTables} (held : ∀ k, HoldsLayer a base challenges scratch k) :
    FlatHolds a base challenges scratch ↔ EnforcingHolds a base challenges := by
  constructor
  · intro flat k inside j below
    have found := List.getElem?_eq_getElem below
    obtain ⟨r, encodes⟩ := source.encodes _ (CircuitArtifact.enforcing_mem_encodings inside found)
    apply (vanishes_iff valid rules source (held k) inside found encodes.same).mp
    exact flat r (List.mem_of_getElem? encodes.listed) (encodes.enforcing rfl)
  · intro layered r member enforcing
    obtain ⟨e, listed, encodes⟩ := source.encoded r member
    have output : e.output = none := by
      cases output : e.output with
      | none => rfl
      | some address =>
        obtain ⟨s, slot, -⟩ := encodes.producing address output
        rw [enforcing] at slot
        cases slot
    obtain ⟨inside, list, j, found⟩ :=
      CircuitArtifact.enforcing_of_mem_encodings listed output
    obtain ⟨below, -⟩ := List.getElem?_eq_some_iff.mp found
    have same := encodes.same
    rw [list] at same
    exact (vanishes_iff valid rules source (held e.k) inside found same).mpr
      (layered e.k inside j below)


/-- An accepted artifact is one circuit in two encodings. Its scratch slots are
its inner columns; the flat list has a solution, and every solution holds the
forward pass's columns; its enforcing relations vanish exactly when the
enforcing gates do. The cache-free compilation keeps the columns and every
gate's value at every point. -/
theorem flat_layers_agree {a : CircuitArtifact} (accepted : a.validate = .ok ()) (base : BaseLayer)
    (challenges : ExternalChallenges) :
    (∀ s < a.scratch.length, ∃ k < a.depth, ∃ o < a.layerWidth (k + 1),
      a.slotAddress s = some (.inner (k + 1) o)) ∧
    (∀ k < a.depth, ∀ o < a.layerWidth (k + 1), ∃! s,
      a.slotAddress s = some (.inner (k + 1) o)) ∧
    FlatSolution a base challenges (flatTables a base challenges) ∧
    (∀ scratch, FlatSolution a base challenges scratch →
      (∀ s k o, a.slotAddress s = some (.inner k o) → ∀ y < 2 ^ a.layerVars k,
        scratch s y = ((columnsAt base challenges a k).getD o (.tabulate 0 fun _ => 0)).get y) ∧
      (FlatHolds a base challenges scratch ↔ EnforcingHolds a base challenges)) ∧
    ∀ b, a.inlineCached = .ok b → SameColumns a b ∧ ∀ k < a.depth,
      (b.layer k).producing.length = (a.layer k).producing.length ∧
      (b.layer k).enforcing.length = (a.layer k).enforcing.length ∧
      ∀ j < (a.layer k).producing.length + (a.layer k).enforcing.length, ∀ read,
        (ResolvedList.new b k challenges).gate read j =
          (ResolvedList.new a k challenges).gate read j := by
  have valid := CircuitArtifact.valid_of_validate accepted
  obtain ⟨rules, source⟩ := CircuitArtifact.laws_of_validate accepted
  refine ⟨?_, ?_, flatTables_solution valid rules source, ?_, ?_⟩
  · intro s below
    have slot : a.slotAddress s = some (a.scratch[s]).address := by
      rw [CircuitArtifact.slotAddress, List.getElem?_eq_getElem below, Option.map_some]
    obtain ⟨k, inside, o, column, address⟩ := rules.inner s _ slot
    exact ⟨k, inside, o, column, by rw [slot, address]⟩
  · intro k inside o column
    obtain ⟨s, slot⟩ := CircuitArtifact.exists_slot valid source inside column
    refine ⟨s, slot, ?_⟩
    intro other otherSlot
    have same := rules.inverse slot
    rw [rules.inverse otherSlot] at same
    exact Option.some.inj same
  · intro scratch solution
    have held := fun k => solution.holdsLayer valid rules source k
    exact ⟨fun s k o slot => held k s o slot, flatHolds_iff valid rules source held⟩
  · intro b passed
    refine ⟨inlineCached_columns passed, ?_⟩
    intro k inside
    have inlined := (inlineCached_layer passed inside).2
    exact ⟨inlined.producing.length_eq.symm, inlined.enforcing.length_eq.symm,
      fun j listed read => inlineCached_gate passed challenges inside listed read⟩

end Enforcing

/-- A value lifted by the row number and weighted by a mask, multiplied over two
rows: a product over a cached sum, then a halving list. -/
def weightedProduct : CircuitArtifact where
  formatVersion := 1
  coefficientEncoding := 0
  traceVars := 1
  memory := ["value", "mask"]
  witness := []
  setup := []
  virtuals := [(.rowIndex, "row")]
  layers := [
    ⟨false, 1, 1, [⟨"lifted", .cached 0 0, .linear [(lit 1, .memory 0), (lit 1, .virtual .rowIndex)]
        (lit 0)⟩],
      [⟨0, .inner 1 0, .product (lit 1) (.cached 0 0) (.memory 1)⟩],
      [⟨1, .quadratic (lit 0) [(lit 1, .memory 1)] [(neg 1, .memory 1, .memory 1)]⟩]⟩,
    ⟨true, 0, 1, [], [⟨2, .inner 2 0, .treeProduct (.inner 1 0)⟩], []⟩]
  relations := [
    ⟨"weighted", some 0, .quadratic (lit 0) []
      [(lit 1, .virtual .rowIndex, .memory 1), (lit 1, .memory 1, .memory 0)]⟩,
    ⟨"mask_boolean", none, .affineProduct [(lit 1, .memory 1)] (lit 0)
      [(neg 1, .memory 1)] (lit 1)⟩,
    ⟨"product", some 1, .treeProduct (.scratch 0)⟩]
  lookups := []
  scratch := [⟨"weighted_slot", .inner 1 0⟩, ⟨"product_slot", .inner 2 0⟩]
  outputs := [.inner 2 0]
  padding := ⟨[0, 0], true⟩

/-- The compiled list has the product as an affine product. -/
def weightedProductInlined : CircuitArtifact :=
  { weightedProduct with
    layers := [
      ⟨false, 1, 1, [],
        [⟨0, .inner 1 0, .affineProduct [(lit 1, .memory 0), (lit 1, .virtual .rowIndex)] (lit 0)
          [(lit 1, .memory 1)] (lit 0)⟩],
        [⟨1, .quadratic (lit 0) [(lit 1, .memory 1)] [(neg 1, .memory 1, .memory 1)]⟩]⟩,
      ⟨true, 0, 1, [], [⟨2, .inner 2 0, .treeProduct (.inner 1 0)⟩], []⟩] }

theorem weightedProduct_inlineCached :
    weightedProduct.inlineCached = .ok weightedProductInlined := by
  decide +kernel

theorem flat_layers_agree_weightedProduct :
    flatTables weightedProduct maskedProductBase .empty 1 0 =
      ((columnsAt maskedProductBase .empty weightedProduct 2).getD 0 (.tabulate 0 fun _ => 0)).get 0 ∧
    (FlatHolds weightedProduct maskedProductBase .empty
        (flatTables weightedProduct maskedProductBase .empty) ↔
      EnforcingHolds weightedProduct maskedProductBase .empty) ∧
    SameColumns weightedProduct weightedProductInlined ∧
    ∀ read, (ResolvedList.new weightedProductInlined 0 .empty).gate read 0 =
      (ResolvedList.new weightedProduct 0 .empty).gate read 0 := by
  have accepted := (inlineCached_ok weightedProduct_inlineCached).1
  obtain ⟨-, -, solution, every, inlined⟩ :=
    flat_layers_agree accepted maskedProductBase .empty
  obtain ⟨columns, gates⟩ := inlined _ weightedProduct_inlineCached
  obtain ⟨values, vanish⟩ := every _ solution
  refine ⟨values 1 2 0 rfl 0 ?_, vanish, columns, ?_⟩
  · exact Nat.one_pos
  · exact (gates 0 (by decide)).2.2 0 (by decide)

end Apogee
