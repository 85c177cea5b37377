import Apogee.Gkr.Resolved

/-! # The cache-free compilation keeps every gate's value

Inlining turns a product over a linear cached entry into an affine product and
leaves a gate without cached operands as it is. Lists, columns and places stay,
so every gate of the compiled circuit has its value at every point.
-/

namespace Apogee

open Math (bind_ok then_ok)

section Gate

variable {challenges : ExternalChallenges} {cached : List CachedEntry} {gate inlined : GateDef}
  {name : String} {row : Row}

/-- What a linear entry inlines to is its affine form. -/
theorem inlineLinear_some {op : PolyAddress} {terms : List (Coeff × PolyAddress)}
    {constant : Coeff} (linear : inlineLinear cached op = some (some (terms, constant))) :
    ∃ layer offset entry, op = .cached layer offset ∧ cached[offset]? = some entry ∧
      entry.gate = .linear terms constant := by
  cases op with
  | cached layer offset =>
    simp only [inlineLinear] at linear
    cases found : cached[offset]? with
    | none => simp [found] at linear
    | some entry =>
      refine ⟨layer, offset, entry, rfl, found, ?_⟩
      obtain ⟨entryName, address, entryGate⟩ := entry
      cases entryGate with
      | linear formTerms formConstant =>
        rw [found] at linear
        cases linear
        rfl
      | _ => simp [found] at linear
  | _ => simp [inlineLinear] at linear

/-- An inlined gate on a row of columns is the gate with its cached operands
substituted. -/
theorem value_inline {substituted : Row}
    (cachedValue : ∀ layer offset entry, cached[offset]? = some entry →
      substituted (.cached layer offset) = entry.gate.value challenges row)
    (columns : ∀ op, op.isCached = false → substituted op = row op)
    (passed : inline gate cached name = .ok inlined) :
    inlined.value challenges row = gate.value challenges substituted := by
  have plain : ∀ op, inlineLinear cached op = none → substituted op = row op := by
    intro op none_
    apply columns
    cases op with
    | cached layer offset =>
      simp only [inlineLinear] at none_
      split at none_ <;> cases none_
    | _ => rfl
  have linearValue : ∀ op terms constant,
      inlineLinear cached op = some (some (terms, constant)) →
        substituted op = coefficient challenges constant +
          (terms.map fun term => coefficient challenges term.1 * row term.2).sum := by
    intro op terms constant linear
    obtain ⟨layer, offset, entry, rfl, found, affine⟩ := inlineLinear_some linear
    rw [cachedValue layer offset entry found, affine, value_linear]
  unfold inline at passed
  by_cases free : gate.operands.any PolyAddress.isCached = false
  · rw [free, Bool.not_false, if_pos rfl] at passed
    rw [← Except.ok.inj passed]
    apply GateDef.value_congr
    intro op operand
    exact (columns op (by simpa using List.any_eq_false.mp free op operand)).symm
  · rw [Bool.not_eq_false] at free
    rw [free, Bool.not_true, if_neg Bool.false_ne_true] at passed
    cases gate with
    | product coeff left right =>
      cases leftForm : inlineLinear cached left with
      | none =>
        cases rightForm : inlineLinear cached right with
        | none => simp [leftForm, rightForm] at passed
        | some form =>
          cases form with
          | none => simp [leftForm, rightForm] at passed
          | some form =>
            simp only [leftForm, rightForm, Except.ok.injEq] at passed
            rw [← passed, value_affineProduct, value_product,
              linearValue right form.1 form.2 rightForm, plain left leftForm]
            simp
      | some leftOuter =>
        cases leftOuter with
        | none => simp [leftForm] at passed
        | some form =>
          cases rightForm : inlineLinear cached right with
          | none =>
            simp only [leftForm, rightForm, Except.ok.injEq] at passed
            rw [← passed, value_affineProduct, value_product,
              linearValue left form.1 form.2 leftForm, plain right rightForm]
            simp only [List.map_cons, List.map_nil, List.sum_cons, List.sum_nil,
              coefficient_literal]
            ring
          | some rightOuter => simp [leftForm, rightForm] at passed
    | _ => cases passed

/-- A gate that names no cached entry inlines to itself. -/
theorem inline_of_not_cached (free : ∀ op ∈ gate.operands, op.isCached = false)
    (passed : inline gate cached name = .ok inlined) : inlined = gate := by
  have none_ : gate.operands.any PolyAddress.isCached = false := by
    rw [List.any_eq_false]
    intro op operand
    rw [free op operand]
    exact Bool.false_ne_true
  unfold inline at passed
  rw [none_, Bool.not_false, if_pos rfl] at passed
  exact (Except.ok.inj passed).symm

end Gate

/-- The parts of a compiled list. -/
structure InlinedList (a : CircuitArtifact) (list out : LayerSpec) : Prop where
  halving : out.halving = list.halving
  numVars : out.numVars = list.numVars
  width : out.width = list.width
  cached : out.cached = []
  producing : List.Forall₂ (fun (entry new : ProducingEntry) => new.relation = entry.relation ∧
    new.output = entry.output ∧
    inline entry.gate list.cached (a.relationName entry.relation) = .ok new.gate)
      list.producing out.producing
  enforcing : List.Forall₂ (fun (entry new : EnforcingEntry) => new.relation = entry.relation ∧
    inline entry.gate list.cached (a.relationName entry.relation) = .ok new.gate)
      list.enforcing out.enforcing

/-- A gate of a compiled list is its source's gate inlined. -/
theorem InlinedList.gate {a : CircuitArtifact} {list out : LayerSpec}
    (inlined : InlinedList a list out) {j : ℕ}
    (listed : j < list.producing.length + list.enforcing.length) :
    ∃ gate new name,
      (list.producing.map (·.gate) ++ list.enforcing.map (·.gate))[j]? = some gate ∧
      (out.producing.map (·.gate) ++ out.enforcing.map (·.gate))[j]? = some new ∧
      inline gate list.cached name = .ok new := by
  by_cases produces : j < list.producing.length
  · have found := List.getElem?_eq_getElem produces
    obtain ⟨new, foundToo, -, -, step⟩ := Math.forall₂_getElem? inlined.producing found
    have below := inlined.producing.length_eq ▸ produces
    refine ⟨_, _, _, ?_, ?_, step⟩
    · rw [List.getElem?_append_left (by rwa [List.length_map]), List.getElem?_map, found,
        Option.map_some]
    · rw [List.getElem?_append_left (by rwa [List.length_map]), List.getElem?_map, foundToo,
        Option.map_some]
  · have enforces : j - list.producing.length < list.enforcing.length := by omega
    have found := List.getElem?_eq_getElem enforces
    obtain ⟨new, foundToo, -, step⟩ := Math.forall₂_getElem? inlined.enforcing found
    have length := inlined.producing.length_eq
    refine ⟨_, _, _, ?_, ?_, step⟩
    · rw [List.getElem?_append_right (by rw [List.length_map]; omega), List.length_map,
        List.getElem?_map, found, Option.map_some]
    · rw [List.getElem?_append_right (by rw [List.length_map]; omega), List.length_map, ← length,
        List.getElem?_map, foundToo, Option.map_some]

theorem inlineList_ok {a : CircuitArtifact} {list out : LayerSpec}
    (passed : a.inlineList list = .ok out) : InlinedList a list out := by
  unfold CircuitArtifact.inlineList at passed
  obtain ⟨producing, produced, passed⟩ := bind_ok.mp passed
  obtain ⟨enforcing, enforced, passed⟩ := bind_ok.mp passed
  rw [← Except.ok.inj passed]
  refine ⟨rfl, rfl, rfl, rfl, ?_, ?_⟩
  · apply (Math.mapM_ok produced).imp
    intro entry new step
    obtain ⟨gate, inlined, step⟩ := bind_ok.mp step
    rw [← Except.ok.inj step]
    exact ⟨rfl, rfl, inlined⟩
  · apply (Math.mapM_ok enforced).imp
    intro entry new step
    obtain ⟨gate, inlined, step⟩ := bind_ok.mp step
    rw [← Except.ok.inj step]
    exact ⟨rfl, inlined⟩

/-- A compiled circuit differs from its source in its lists' gates alone. -/
theorem inlineCached_ok {a b : CircuitArtifact} (passed : a.inlineCached = .ok b) :
    a.validate = .ok () ∧ b.validate = .ok () ∧ b = { a with layers := b.layers } ∧
      List.Forall₂ (InlinedList a) a.layers b.layers := by
  unfold CircuitArtifact.inlineCached at passed
  obtain ⟨accepted, passed⟩ := then_ok.mp passed
  obtain ⟨layers, inlined, passed⟩ := bind_ok.mp passed
  obtain ⟨acceptedToo, passed⟩ := then_ok.mp passed
  rw [← Except.ok.inj passed]
  refine ⟨accepted, acceptedToo, rfl, ?_⟩
  apply (Math.mapM_ok inlined).imp
  intro list out step
  exact inlineList_ok step

section Circuit

variable {a b : CircuitArtifact}

theorem inlineCached_layer (passed : a.inlineCached = .ok b) {k : ℕ} (inside : k < a.depth) :
    k < b.depth ∧ InlinedList a (a.layer k) (b.layer k) := by
  obtain ⟨-, -, -, lists⟩ := inlineCached_ok passed
  obtain ⟨out, found, inlined⟩ := Math.forall₂_getElem? lists (CircuitArtifact.layers_getElem? inside)
  rw [CircuitArtifact.layer_eq found]
  exact ⟨(List.getElem?_eq_some_iff.mp found).1, inlined⟩

theorem inlineCached_resolve (passed : a.inlineCached = .ok b) :
    b.resolve = a.resolve ∧ b.columnIndex = a.columnIndex := by
  obtain ⟨-, -, same, -⟩ := inlineCached_ok passed
  rw [same]
  exact ⟨rfl, rfl⟩

/-- The compiled circuit's layers have the source's columns and rows. -/
structure SameColumns (a b : CircuitArtifact) : Prop where
  memory : b.memory = a.memory
  witness : b.witness = a.witness
  setup : b.setup = a.setup
  virtuals : b.virtuals = a.virtuals
  scratch : b.scratch = a.scratch
  outputs : b.outputs = a.outputs
  depth : b.depth = a.depth
  layerVars : ∀ k ≤ a.depth, b.layerVars k = a.layerVars k
  layerWidth : ∀ k ≤ a.depth, b.layerWidth k = a.layerWidth k

theorem inlineCached_columns (passed : a.inlineCached = .ok b) : SameColumns a b := by
  obtain ⟨-, -, same, lists⟩ := inlineCached_ok passed
  have depth : b.depth = a.depth := lists.length_eq.symm
  refine ⟨by rw [same], by rw [same], by rw [same], by rw [same], by rw [same], by rw [same],
    depth, ?_, ?_⟩
  · intro k inside
    cases k with
    | zero =>
      rw [same]
      rfl
    | succ k => exact (inlineCached_layer passed inside).2.numVars
  · intro k inside
    cases k with
    | zero =>
      rw [same]
      rfl
    | succ k => exact (inlineCached_layer passed inside).2.width

/-- Every gate of the compiled circuit has its source's value at every point. -/
theorem inlineCached_gate (passed : a.inlineCached = .ok b) (challenges : ExternalChallenges)
    {k : ℕ} (inside : k < a.depth) {j : ℕ}
    (listed : j < (a.layer k).producing.length + (a.layer k).enforcing.length)
    (read : Source → Fr) :
    (ResolvedList.new b k challenges).gate read j =
      (ResolvedList.new a k challenges).gate read j := by
  obtain ⟨accepted, acceptedToo, -, -⟩ := inlineCached_ok passed
  have valid := CircuitArtifact.valid_of_validate accepted
  have validToo := CircuitArtifact.valid_of_validate acceptedToo
  obtain ⟨insideToo, inlined⟩ := inlineCached_layer passed inside
  obtain ⟨resolve, columnIndex⟩ := inlineCached_resolve passed
  cases halving : (a.layer k).halving with
  | true =>
    have laws := valid.halvingList k inside halving
    rw [laws.enforcing, List.length_nil, Nat.add_zero] at listed
    have found := List.getElem?_eq_getElem listed
    obtain ⟨new, foundToo, -, -, step⟩ := Math.forall₂_getElem? inlined.producing found
    have same : new.gate = (a.layer k).producing[j].gate := by
      apply inline_of_not_cached _ step
      intro op operand
      have reads := laws.reads _ (List.mem_of_getElem? found) op operand
      cases op with
      | cached layer offset => exact absurd reads Bool.false_ne_true
      | _ => rfl
    rw [gate_halving (inlined.halving.trans halving) foundToo, gate_halving halving found, same,
      columnIndex]
  | false =>
    obtain ⟨gate, new, name, found, foundToo, step⟩ := inlined.gate listed
    have rowWise := inlined.halving.trans halving
    have laws := validToo.rowWiseList k insideToo rowWise
    have member : new ∈ (b.layer k).gates := by
      rw [LayerSpec.gates, List.append_assoc]
      exact List.mem_append_right _ (List.mem_of_getElem? foundToo)
    have columns : ∀ op ∈ new.operands,
        cachedRow b k challenges read op = columnRow a read op := by
      intro op operand
      have reads := laws.reads new member op operand
      cases op with
      | cached layer offset =>
        rw [CircuitArtifact.readable, inlined.cached] at reads
        exact absurd reads (by simp)
      | _ =>
        show columnRow b read _ = _
        rw [columnRow, columnRow, resolve]
    rw [gate_rowWise validToo insideToo rowWise foundToo, gate_rowWise valid inside halving found,
      GateDef.value_congr columns]
    apply value_inline _ _ step
    · intro layer offset entry entryFound
      rw [cachedRow, entryFound]
    · intro op column
      cases op with
      | cached layer offset => cases column
      | _ => rfl

end Circuit

end Apogee
