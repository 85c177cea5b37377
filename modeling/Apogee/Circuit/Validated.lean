import Apogee.Circuit.Laws
import Apogee.Math.Passes
import Mathlib.Data.String.Basic

/-! # What an accepted artifact satisfies

Each check that passes leaves a fact about the artifact. Callers read these
facts and never the checks.
-/

namespace Apogee

open Math (bind_ok then_ok)

section Checks

variable {α : Type}

@[simp]
theorem ensure_ok {rule : Bool} {error : ConstraintError} :
    ensure rule error = .ok () ↔ rule = true := by
  unfold ensure
  cases rule <;> simp

theorem checkAll_ok {check : α → Except ConstraintError Unit} {list : List α} :
    checkAll check list = .ok () ↔ ∀ entry ∈ list, check entry = .ok () := by
  induction list with
  | nil => simp [checkAll]
  | cons entry rest ih => rw [checkAll, then_ok, ih, List.forall_mem_cons]

/-- A check over a numbered list is a check at every index. -/
theorem checkAll_zipIdx_ok {check : α × ℕ → Except ConstraintError Unit} {list : List α} :
    checkAll check list.zipIdx = .ok () ↔
      ∀ j entry, list[j]? = some entry → check (entry, j) = .ok () := by
  rw [checkAll_ok]
  constructor
  · intro passed j entry found
    exact passed _ (List.mem_zipIdx_iff_getElem?.mpr found)
  · rintro passed ⟨entry, j⟩ member
    exact passed j entry (List.mem_zipIdx_iff_getElem?.mp member)

end Checks

theorem GateDef.halvingShape_isSome (gate : GateDef) : gate.halvingShape.isSome = gate.halving := by
  cases gate <;> rfl

theorem rowWiseShape_ok {gate : GateDef} {name : String} {k : ℕ} :
    rowWiseShape gate name k = .ok () ↔ gate.halving = false := by
  cases gate <;> simp [rowWiseShape, GateDef.halvingShape, GateDef.halving]

namespace CircuitArtifact

variable {a : CircuitArtifact}

theorem layer_eq {k : ℕ} {list : LayerSpec} (found : a.layers[k]? = some list) :
    a.layer k = list := by
  rw [layer, List.getD_eq_getElem?_getD, found, Option.getD_some]

theorem layers_getElem? {k : ℕ} (inside : k < a.depth) : a.layers[k]? = some (a.layer k) := by
  rw [layer, List.getD_eq_getElem?_getD, List.getElem?_eq_getElem inside, Option.getD_some]

/-- Law 2: what list `k` stores of the layer it writes is what its gates imply. -/
structure Shape (a : CircuitArtifact) (k : ℕ) : Prop where
  halvable : (a.layer k).halving = true → 0 < a.layerVars k
  numVars : a.layerVars (k + 1) =
    if (a.layer k).halving then a.layerVars k - 1 else a.layerVars k
  width : a.layerWidth (k + 1) = (a.layer k).producing.length
  outputs : ∀ j (entry : ProducingEntry), (a.layer k).producing[j]? = some entry → entry.output = .inner (k + 1) j

/-- Law 1 for a halving list. -/
structure HalvingList (a : CircuitArtifact) (k : ℕ) : Prop where
  aboveBase : k ≠ 0
  cached : (a.layer k).cached = []
  enforcing : (a.layer k).enforcing = []
  shapes : ∀ entry ∈ (a.layer k).producing, entry.gate.halving = true
  reads : ∀ entry ∈ (a.layer k).producing, ∀ op ∈ entry.gate.operands,
    a.readable k (a.layer k) (a.layerWidth k) false op = true
  full : (a.layer k).producing.length = a.layerWidth k

/-- Law 1 and the degree ceiling for a row-wise list. -/
structure RowWiseList (a : CircuitArtifact) (k : ℕ) : Prop where
  addresses : ∀ j (entry : CachedEntry), (a.layer k).cached[j]? = some entry → entry.address = .cached k j
  shapes : ∀ gate ∈ (a.layer k).gates, gate.halving = false
  cachedReads : ∀ entry ∈ (a.layer k).cached, ∀ op ∈ entry.gate.operands,
    a.readable k (a.layer k) (a.layerWidth k) false op = true
  reads : ∀ gate ∈ (a.layer k).gates, ∀ op ∈ gate.operands,
    a.readable k (a.layer k) (a.layerWidth k) true op = true
  cachedCeiling : ∀ entry ∈ (a.layer k).cached, entry.gate.degree [] ≤ 2
  ceiling : ∀ gate ∈ (a.layer k).producing.map (·.gate) ++ (a.layer k).enforcing.map (·.gate),
    gate.degree (a.layer k).cached ≤ 2

/-- Law 3: the output map is a permutation of the top layer. -/
structure TopLayer (a : CircuitArtifact) : Prop where
  width : a.outputs.length = a.layerWidth a.depth
  columns : ∀ out ∈ a.outputs, ∃ offset < a.layerWidth a.depth, out = .inner a.depth offset
  distinct : a.outputs.Nodup

theorem nodup_of_take {α : Type} [BEq α] [LawfulBEq α] {list : List α}
    (fresh : ∀ j entry, list[j]? = some entry → entry ∉ list.take j) : list.Nodup := by
  rw [List.nodup_iff_pairwise_ne, List.pairwise_iff_getElem]
  intro i j inLeft inRight before same
  apply fresh j _ (List.getElem?_eq_getElem inRight)
  rw [← same]
  exact List.mem_take_iff_getElem.mpr ⟨i, by omega, rfl⟩

/-- What one list's shape check leaves. -/
theorem shape_ok {k vars : ℕ} {list : LayerSpec} {result : ℕ × ℕ}
    (passed : shape k vars list = .ok result) :
    (list.halving = true → 0 < vars) ∧ list.numVars = (if list.halving then vars - 1 else vars) ∧
      list.width = list.producing.length ∧
      (∀ j (entry : ProducingEntry), list.producing[j]? = some entry → entry.output = .inner (k + 1) j) ∧
      result = (list.numVars, list.width) := by
  unfold shape at passed
  simp only [then_ok, ensure_ok, checkAll_zipIdx_ok, beq_iff_eq, Bool.or_eq_true,
    Bool.not_eq_true', bne_iff_ne, ne_eq] at passed
  obtain ⟨halvable, numVars, width, outputs, rest⟩ := passed
  refine ⟨?_, numVars, width, outputs, ?_⟩
  · intro halving
    exact Nat.pos_of_ne_zero (halvable.resolve_left (by rw [halving]; exact Bool.noConfusion))
  · rw [numVars, width]
    exact (Except.ok.inj rest).symm

theorem shapesAbove_ok {k vars : ℕ} {lists : List LayerSpec} {result : List (ℕ × ℕ)}
    (passed : shapesAbove k vars lists = .ok result) :
    result = lists.map (fun list => (list.numVars, list.width)) ∧ ∀ j list, lists[j]? = some list →
        ∃ below above, shape (k + j) below list = .ok above ∧
          below = if j = 0 then vars else (lists.getD (j - 1) list).numVars := by
  induction lists generalizing k vars result with
  | nil =>
    cases passed
    exact ⟨rfl, fun j list found => absurd found (by simp)⟩
  | cons first rest ih =>
    rw [shapesAbove] at passed
    obtain ⟨above, shaped, passed⟩ := bind_ok.mp passed
    obtain ⟨others, tail, passed⟩ := bind_ok.mp passed
    cases passed
    have aboveEq := (shape_ok shaped).2.2.2.2
    obtain ⟨othersEq, facts⟩ := ih tail
    refine ⟨by rw [List.map_cons, othersEq, aboveEq], ?_⟩
    intro j list found
    cases j with
    | zero =>
      rw [List.getElem?_cons_zero] at found
      cases found
      exact ⟨vars, above, shaped, rfl⟩
    | succ j =>
      rw [List.getElem?_cons_succ] at found
      obtain ⟨below, next, shaped, belowEq⟩ := facts j list found
      have index : k + (j + 1) = k + 1 + j := by ring
      refine ⟨below, next, by rw [index, shaped], ?_⟩
      rw [belowEq, if_neg (Nat.succ_ne_zero j), Nat.add_sub_cancel]
      cases j with
      | zero => rw [if_pos rfl, aboveEq, List.getD_cons_zero]
      | succ j => rw [if_neg (Nat.succ_ne_zero j), List.getD_cons_succ, Nat.add_sub_cancel]

theorem shapes_ok {shapes : List (ℕ × ℕ)} (passed : a.shapes = .ok shapes) :
    shapes.length = a.depth + 1 ∧
      (∀ k ≤ a.depth, shapes.getD k (0, 0) = (a.layerVars k, a.layerWidth k)) ∧
      ∀ k < a.depth, a.Shape k := by
  unfold CircuitArtifact.shapes at passed
  obtain ⟨above, shaped, passed⟩ := bind_ok.mp passed
  cases passed
  obtain ⟨aboveEq, facts⟩ := shapesAbove_ok shaped
  refine ⟨by rw [aboveEq, List.length_cons, List.length_map, depth], ?_, ?_⟩
  · intro k le
    cases k with
    | zero => rfl
    | succ k =>
      have found := layers_getElem? (a := a) (k := k) (by omega)
      rw [aboveEq, List.getD_cons_succ, List.getD_eq_getElem?_getD, List.getElem?_map, found]
      rfl
  · intro k inside
    have found := layers_getElem? inside
    obtain ⟨below, next, shaped, belowEq⟩ := facts k _ found
    obtain ⟨halvable, numVars, width, outputs, -⟩ := shape_ok shaped
    have vars : below = a.layerVars k := by
      rw [belowEq]
      cases k with
      | zero => rfl
      | succ k =>
        have previous := layers_getElem? (a := a) (k := k) (by omega)
        rw [if_neg (by omega), Nat.add_sub_cancel, List.getD_eq_getElem?_getD, previous]
        rfl
    rw [vars] at halvable numVars
    rw [Nat.zero_add] at outputs
    exact ⟨halvable, numVars, width, outputs⟩

theorem locality_ok {k width : ℕ} {list : LayerSpec} {gate : GateDef} {name : String}
    {allowCached : Bool} :
    a.locality k list width gate name allowCached = .ok () ↔
      ∀ op ∈ gate.operands, a.readable k list width allowCached op = true := by
  unfold locality
  cases found : gate.operands.find? fun op => !a.readable k list width allowCached op with
  | none =>
    have none_ := List.find?_eq_none.mp found
    simpa using none_
  | some op =>
    have bad := List.find?_some found
    have member := List.mem_of_find?_eq_some found
    constructor
    · intro passed
      exact absurd passed (by simp)
    · intro all
      rw [all op member] at bad
      exact absurd bad (by decide)

theorem halvingList_ok {k : ℕ}
    (passed : a.halvingList k (a.layer k) (a.layerWidth k) = .ok ()) : a.HalvingList k := by
  unfold halvingList at passed
  simp only [then_ok, ensure_ok, checkAll_zipIdx_ok, beq_iff_eq, bne_iff_ne, ne_eq,
    Bool.and_eq_true, List.isEmpty_iff, locality_ok, GateDef.halvingShape_isSome] at passed
  obtain ⟨aboveBase, ⟨cached, enforcing⟩, entries, full⟩ := passed
  refine ⟨aboveBase, cached, enforcing, ?_, ?_, full⟩
  · intro entry member
    obtain ⟨j, found⟩ := List.mem_iff_getElem?.mp member
    exact (entries j entry found).2
  · intro entry member
    obtain ⟨j, found⟩ := List.mem_iff_getElem?.mp member
    exact (entries j entry found).1

theorem ceiling_ok {gate : GateDef} {cached : List CachedEntry} {name : String} :
    ceiling gate cached name = .ok () ↔ gate.degree cached ≤ 2 := by
  rw [Apogee.ceiling, ensure_ok, decide_eq_true_eq]

theorem readable_mono {k width : ℕ} {list : LayerSpec} {op : PolyAddress}
    (reads : a.readable k list width false op = true) :
    a.readable k list width true op = true := by
  cases op with
  | cached layer offset => exact absurd reads (by simp [readable])
  | _ => exact reads

theorem rowWiseList_ok {k : ℕ}
    (passed : a.rowWiseList k (a.layer k) (a.layerWidth k) = .ok ()) : a.RowWiseList k := by
  unfold rowWiseList at passed
  simp only [then_ok, checkAll_zipIdx_ok] at passed
  simp only [ensure_ok, checkAll_ok, beq_iff_eq, locality_ok, rowWiseShape_ok, ceiling_ok] at passed
  obtain ⟨cached, producing, enforcing, cachedCeiling, producingCeiling, enforcingCeiling⟩ := passed
  have facts : ∀ gate ∈ (a.layer k).gates, gate.halving = false ∧
      ∀ op ∈ gate.operands, a.readable k (a.layer k) (a.layerWidth k) true op = true := by
    intro gate member
    unfold LayerSpec.gates at member
    simp only [List.mem_append, List.mem_map] at member
    rcases member with (⟨entry, inside, rfl⟩ | ⟨entry, inside, rfl⟩) | ⟨entry, inside, rfl⟩
    · obtain ⟨j, found⟩ := List.mem_iff_getElem?.mp inside
      obtain ⟨-, rowWise, reads⟩ := cached j entry found
      exact ⟨rowWise, fun op operand => readable_mono (reads op operand)⟩
    · obtain ⟨j, found⟩ := List.mem_iff_getElem?.mp inside
      exact producing j entry found
    · obtain ⟨j, found⟩ := List.mem_iff_getElem?.mp inside
      exact enforcing j entry found
  refine ⟨fun j entry found => (cached j entry found).1, fun gate member => (facts gate member).1,
    ?_, fun gate member => (facts gate member).2, cachedCeiling, ?_⟩
  · intro entry member
    obtain ⟨j, found⟩ := List.mem_iff_getElem?.mp member
    exact (cached j entry found).2.2
  · intro gate member
    simp only [List.mem_append, List.mem_map] at member
    rcases member with ⟨entry, inside, rfl⟩ | ⟨entry, inside, rfl⟩
    · obtain ⟨j, found⟩ := List.mem_iff_getElem?.mp inside
      exact producingCeiling j entry found
    · obtain ⟨j, found⟩ := List.mem_iff_getElem?.mp inside
      exact enforcingCeiling j entry found

theorem topLayer_ok {shapes : List (ℕ × ℕ)}
    (top : shapes.getD a.depth (0, 0) = (a.layerVars a.depth, a.layerWidth a.depth))
    (passed : a.topLayer shapes = .ok ()) : a.TopLayer := by
  unfold topLayer at passed
  simp only [show a.layers.length = a.depth from rfl, top, then_ok, ensure_ok, checkAll_zipIdx_ok,
    beq_iff_eq, Bool.and_eq_true, Bool.not_eq_true', List.contains_eq_mem,
    decide_eq_false_iff_not] at passed
  obtain ⟨width, entries⟩ := passed
  refine ⟨width, ?_, nodup_of_take fun j out found => (entries j out found).2⟩
  intro out member
  obtain ⟨j, found⟩ := List.mem_iff_getElem?.mp member
  have column := (entries j out found).1
  cases out with
  | inner layer offset =>
    simp only [Bool.and_eq_true, beq_iff_eq, decide_eq_true_eq] at column
    exact ⟨offset, column.2, by rw [column.1]⟩
  | _ => exact absurd column (by simp)

/-- The facts an accepted artifact's layers satisfy. -/
structure Valid (a : CircuitArtifact) : Prop where
  nonempty : 0 < a.depth
  kinds : a.kinds.Nodup
  shape : ∀ k < a.depth, a.Shape k
  halvingList : ∀ k < a.depth, (a.layer k).halving = true → a.HalvingList k
  rowWiseList : ∀ k < a.depth, (a.layer k).halving = false → a.RowWiseList k
  topLayer : a.TopLayer

/-- Every check of an accepted artifact passes. -/
theorem validate_ok : a.validate = .ok () ↔ a.header = .ok () ∧ a.names = .ok () ∧
    a.lookupRules = .ok () ∧ ∃ shapes, a.shapes = .ok shapes ∧ checkAll (fun list : LayerSpec × ℕ =>
        a.gateList list.2 list.1 (shapes.getD list.2 (0, 0)).2) a.layers.zipIdx = .ok () ∧
      a.relationRules shapes = .ok () ∧ a.topLayer shapes = .ok () ∧ a.challengeSlots = .ok () ∧
      a.singleSource = .ok () ∧ a.nothingDropped shapes = .ok () := by
  unfold validate
  rw [then_ok, then_ok, then_ok, bind_ok]
  simp only [then_ok]

/-- A checked artifact is of this format. -/
theorem header_version (passed : a.header = .ok ()) : a.formatVersion = FORMAT_VERSION :=
  eq_of_beq (ensure_ok.mp (then_ok.mp passed).1)

theorem valid_of_validate (accepted : a.validate = .ok ()) : a.Valid := by
  obtain ⟨header, -, -, shapes, shaped, lists, -, top, -⟩ := validate_ok.mp accepted
  obtain ⟨-, layout, shape⟩ := shapes_ok shaped
  have listed : ∀ k < a.depth, a.gateList k (a.layer k) (a.layerWidth k) = .ok () := by
    intro k inside
    have passed := checkAll_zipIdx_ok.mp lists k _ (layers_getElem? inside)
    rwa [layout k inside.le] at passed
  unfold CircuitArtifact.header at header
  simp only [then_ok, ensure_ok, checkAll_zipIdx_ok, Bool.not_eq_true', List.isEmpty_eq_false_iff]
    at header
  obtain ⟨-, -, -, nonempty, -, fresh⟩ := header
  refine ⟨List.length_pos_iff.mpr nonempty, ?_, shape, ?_, ?_,
    topLayer_ok (layout a.depth le_rfl) top⟩
  · apply nodup_of_take
    intro j kind found member
    rw [kinds, List.getElem?_map] at found
    obtain ⟨entry, entryFound, rfl⟩ := Option.map_eq_some_iff.mp found
    have first := fresh j entry entryFound
    rw [kinds, ← List.map_take] at member
    obtain ⟨other, otherMember, same⟩ := List.mem_map.mp member
    rw [List.any_eq_false] at first
    exact first other otherMember (by rw [same]; exact beq_self_eq_true _)
  · intro k inside halving
    have passed := listed k inside
    rw [gateList, if_pos halving] at passed
    exact halvingList_ok passed
  · intro k inside rowWise
    have passed := listed k inside
    rw [gateList, if_neg (by rw [rowWise]; exact Bool.noConfusion)] at passed
    exact rowWiseList_ok passed

end CircuitArtifact

end Apogee
