import Apogee.Circuit.Validated

/-! # One constraint set in two encodings

An expansion's value is the gate's, so two gates of one normalized expansion
take one value wherever their symbols do. Law 4 makes the gates of the layers
and the flat list's relations one to one, and the scratch slots name the inner
columns.
-/

namespace Apogee

open Math (bind_ok then_ok)

section Value

variable {challenges : ExternalChallenges} {assign : Symbol → Fr}

theorem value_flatMap {α : Type} (list : List α) (parts : α → Expansion) :
    Expansion.value assign (list.flatMap parts) =
      (list.map fun entry => Expansion.value assign (parts entry)).sum := by
  induction list with
  | nil => rfl
  | cons entry list ih =>
    rw [List.flatMap_cons, Expansion.value_append, ih, List.map_cons, List.sum_cons]

variable (slots : ∀ slot, assign (.challenge slot) = coefficient challenges (.challenge slot))
include slots

theorem value_coefficient (c : Coeff) :
    Expansion.value assign c.expansion = coefficient challenges c := by
  cases c with
  | literal value => simp [Coeff.expansion]
  | challenge slot => simp [Coeff.expansion, slots]

theorem value_affineWith {operand : PolyAddress → Expansion} {row : Row}
    {terms : List (Coeff × PolyAddress)} (constant : Coeff)
    (operands : ∀ term ∈ terms, Expansion.value assign (operand term.2) = row term.2) :
    Expansion.value assign (Namespace.affineWith operand terms constant) =
      coefficient challenges constant +
        (terms.map fun term => coefficient challenges term.1 * row term.2).sum := by
  rw [Namespace.affineWith, value_normalize, Expansion.value_append, value_coefficient slots,
    value_flatMap]
  congr 2
  apply List.map_congr_left
  intro term member
  rw [value_expansionProduct, value_coefficient slots, operands term member]

/-- A row-wise gate's expansion has the gate's value. -/
theorem value_expandWith {space : Namespace} {operand : PolyAddress → Expansion} {row : Row}
    {gate : GateDef} (rowWise : gate.halving = false)
    (operands : ∀ op ∈ gate.operands, Expansion.value assign (operand op) = row op) :
    Expansion.value assign (space.expandWith operand gate) = gate.value challenges row := by
  cases gate with
  | linear terms constant =>
    rw [value_linear]
    apply value_affineWith slots
    intro term member
    exact operands _ (List.mem_map.mpr ⟨term, member, rfl⟩)
  | product coeff left right =>
    rw [value_product, Namespace.expandWith, value_expansionProduct, value_expansionProduct,
      value_coefficient slots, operands left (by simp [GateDef.operands]),
      operands right (by simp [GateDef.operands])]
  | maskIntoIdentity input mask =>
    have inputValue := operands input (by simp [GateDef.operands])
    have maskValue := operands mask (by simp [GateDef.operands])
    have value : (GateDef.maskIntoIdentity input mask).value challenges row =
        row input * row mask + 1 - row mask := rfl
    rw [value, Namespace.expandWith, value_normalize, Expansion.value_append,
      Expansion.value_append, value_expansionProduct, value_expansionProduct, inputValue,
      maskValue]
    simp only [Expansion.value_cons, Expansion.value_nil, List.map_nil, List.prod_nil]
    ring
  | affineProduct left leftConstant right rightConstant =>
    rw [value_affineProduct, Namespace.expandWith, value_expansionProduct]
    obtain ⟨lefts, rights⟩ := GateDef.forall_affineProduct.mp operands
    rw [value_affineWith slots _ lefts, value_affineWith slots _ rights]
  | treeProduct input => exact absurd rowWise (by simp [GateDef.halving])
  | treeCross left right => exact absurd rowWise (by simp [GateDef.halving])
  | quadratic constant linear products =>
    rw [value_quadratic, Namespace.expandWith, value_normalize, Expansion.value_append,
      value_flatMap]
    obtain ⟨linears, factors⟩ := GateDef.forall_quadratic.mp operands
    congr 1
    · exact value_affineWith slots _ linears
    · congr 1
      apply List.map_congr_left
      intro term member
      obtain ⟨left, right⟩ := factors term member
      rw [value_expansionProduct, value_expansionProduct, value_coefficient slots, left, right]

omit slots in
/-- A halving gate's expansion has the gate's value on both children. -/
theorem value_expandWith_halving {space : Namespace} (operand : PolyAddress → Expansion)
    {gate : GateDef} (halving : gate.halving = true) :
    Expansion.value assign (space.expandWith operand gate) =
      evalGate challenges gate (gate.operands.flatMap fun op =>
        [assign (.child (space.column op) 0), assign (.child (space.column op) 1)]) := by
  cases gate with
  | treeProduct input =>
    simp [Namespace.expandWith, evalGate, GateDef.operands]
  | treeCross left right =>
    simp [Namespace.expandWith, evalGate, GateDef.operands]
  | _ => exact absurd halving (by simp [GateDef.halving])

end Value

namespace Expansion

/-- Every symbol an expansion names satisfies a predicate. -/
def Over (holds : Symbol → Prop) (terms : Expansion) : Prop :=
  ∀ term ∈ terms, ∀ symbol ∈ term.1, holds symbol

variable {holds : Symbol → Prop} {left right terms : Expansion}

theorem Over.append (overLeft : left.Over holds) (overRight : right.Over holds) :
    Expansion.Over holds (left ++ right) := by
  intro term member
  rcases List.mem_append.mp member with inside | inside
  · exact overLeft term inside
  · exact overRight term inside

theorem Over.flatMap {α : Type} {list : List α} {parts : α → Expansion}
    (each : ∀ entry ∈ list, (parts entry).Over holds) :
    Expansion.Over holds (list.flatMap parts) := by
  intro term member
  obtain ⟨entry, listed, inside⟩ := List.mem_flatMap.mp member
  exact each entry listed term inside

theorem mem_mergeAdjacent {term : List Symbol × Fr} (member : term ∈ mergeAdjacent terms) :
    ∃ other ∈ terms, other.1 = term.1 := by
  induction terms generalizing term with
  | nil => exact absurd member List.not_mem_nil
  | cons first rest ih =>
    have step : mergeAdjacent (first :: rest) = mergeTerm first (mergeAdjacent rest) := rfl
    rw [step] at member
    cases merged : mergeAdjacent rest with
    | nil =>
      rw [merged, mergeTerm, List.mem_singleton] at member
      exact ⟨first, List.mem_cons_self, by rw [member]⟩
    | cons next others =>
      rw [merged] at member ih
      by_cases same : first.1 = next.1
      · rw [mergeTerm, if_pos same] at member
        rcases List.mem_cons.mp member with here | later
        · exact ⟨first, List.mem_cons_self, by rw [here]⟩
        · obtain ⟨other, listed, monomial⟩ := ih (List.mem_cons_of_mem _ later)
          exact ⟨other, List.mem_cons_of_mem _ listed, monomial⟩
      · rw [mergeTerm, if_neg same] at member
        rcases List.mem_cons.mp member with here | later
        · exact ⟨first, List.mem_cons_self, by rw [here]⟩
        · obtain ⟨other, listed, monomial⟩ := ih later
          exact ⟨other, List.mem_cons_of_mem _ listed, monomial⟩

/-- Normalizing names no new symbol. -/
theorem Over.normalize (over_ : terms.Over holds) : Expansion.Over holds (normalize terms) := by
  intro term member symbol factor
  have merged := (List.mem_filter.mp member).1
  obtain ⟨other, sorted, monomial⟩ := mem_mergeAdjacent merged
  obtain ⟨source, listed, rfl⟩ := List.mem_map.mp ((List.mem_insertionSort _).mp sorted)
  rw [← monomial] at factor
  exact over_ source listed symbol ((List.mem_insertionSort _).mp factor)

theorem Over.product (overLeft : left.Over holds) (overRight : right.Over holds) :
    Expansion.Over holds (left.product right) := by
  apply Over.normalize
  apply Over.flatMap
  intro a inLeft term member
  obtain ⟨b, inRight, rfl⟩ := List.mem_map.mp member
  intro symbol factor
  rcases List.mem_append.mp factor with inside | inside
  · exact overLeft a inLeft symbol inside
  · exact overRight b inRight symbol inside

/-- An expansion's value depends on its own symbols. -/
theorem Over.value_congr {assign other : Symbol → Fr}
    (over_ : terms.Over fun symbol => assign symbol = other symbol) :
    Expansion.value assign terms = Expansion.value other terms := by
  unfold Expansion.value
  congr 1
  apply List.map_congr_left
  intro term member
  rw [List.map_congr_left (over_ term member)]

section Gates

variable (slots : ∀ slot, holds (.challenge slot))
include slots

theorem over_coefficient (c : Coeff) : c.expansion.Over holds := by
  intro term member symbol factor
  cases c with
  | literal value =>
    rw [Coeff.expansion, List.mem_singleton] at member
    rw [member] at factor
    exact absurd factor List.not_mem_nil
  | challenge slot =>
    rw [Coeff.expansion, List.mem_singleton] at member
    rw [member, List.mem_singleton] at factor
    rw [factor]
    exact slots slot

theorem over_affineWith {operand : PolyAddress → Expansion} {terms : List (Coeff × PolyAddress)}
    (constant : Coeff) (operands : ∀ term ∈ terms, (operand term.2).Over holds) :
    (Namespace.affineWith operand terms constant).Over holds := by
  apply Over.normalize
  apply (over_coefficient slots constant).append
  apply Over.flatMap
  intro term member
  exact (over_coefficient slots term.1).product (operands term member)

/-- A row-wise gate's expansion names its operands' symbols and challenges. -/
theorem over_expandWith {space : Namespace} {operand : PolyAddress → Expansion} {gate : GateDef}
    (rowWise : gate.halving = false) (operands : ∀ op ∈ gate.operands, (operand op).Over holds) :
    (space.expandWith operand gate).Over holds := by
  have plain : ∀ value : Fr, Expansion.Over holds [([], value)] :=
    fun value => over_coefficient slots (.literal value)
  cases gate with
  | linear terms constant =>
    apply over_affineWith slots
    intro term member
    exact operands _ (List.mem_map.mpr ⟨term, member, rfl⟩)
  | product coeff left right =>
    exact ((over_coefficient slots coeff).product (operands left (by simp [GateDef.operands]))).product
      (operands right (by simp [GateDef.operands]))
  | maskIntoIdentity input mask =>
    have overInput := operands input (by simp [GateDef.operands])
    have overMask := operands mask (by simp [GateDef.operands])
    exact (((overInput.product overMask).append (plain 1)).append
      ((plain (-1)).product overMask)).normalize
  | affineProduct left leftConstant right rightConstant =>
    obtain ⟨lefts, rights⟩ := GateDef.forall_affineProduct.mp operands
    exact (over_affineWith slots _ lefts).product (over_affineWith slots _ rights)
  | treeProduct input => exact absurd rowWise (by simp [GateDef.halving])
  | treeCross left right => exact absurd rowWise (by simp [GateDef.halving])
  | quadratic constant linear products =>
    obtain ⟨linears, factors⟩ := GateDef.forall_quadratic.mp operands
    apply Over.normalize
    apply Over.append
    · exact over_affineWith slots _ linears
    · apply Over.flatMap
      intro term member
      obtain ⟨left, right⟩ := factors term member
      exact ((over_coefficient slots term.1).product left).product right

end Gates

end Expansion

namespace CircuitArtifact

variable {a : CircuitArtifact}

/-- The inner column a scratch slot is. -/
def slotAddress (a : CircuitArtifact) (s : ℕ) : Option PolyAddress :=
  a.scratch[s]?.map (·.address)

/-- The flat list names listed columns and scratch slots, each slot is defined
once, and the slots are distinct inner columns. -/
structure RelationRules (a : CircuitArtifact) : Prop where
  reads : ∀ r ∈ a.relations, ∀ op ∈ r.gate.operands, a.flatReadable op = true
  outputs : ∀ r ∈ a.relations, ∀ s, r.output = some s → s < a.scratch.length
  defined : ∀ s < a.scratch.length, (a.relations.countP fun r => r.output == some s) = 1
  inner : ∀ s address, a.slotAddress s = some address →
    ∃ k < a.depth, ∃ o < a.layerWidth (k + 1), address = .inner (k + 1) o
  distinct : (a.scratch.map (·.address)).Nodup

theorem relationRules_ok {shapes : List (ℕ × ℕ)} (length : shapes.length = a.depth + 1)
    (layout : ∀ k ≤ a.depth, shapes.getD k (0, 0) = (a.layerVars k, a.layerWidth k))
    (passed : a.relationRules shapes = .ok ()) : a.RelationRules := by
  unfold CircuitArtifact.relationRules at passed
  simp only [then_ok, checkAll_zipIdx_ok] at passed
  simp only [checkAll_ok, ensure_ok, beq_iff_eq, Bool.and_eq_true, List.mem_range] at passed
  obtain ⟨relations, defined, -, fresh⟩ := passed
  refine ⟨?_, ?_, defined, ?_, ?_⟩
  · intro r member op operand
    have checked := relations r member
    cases found : r.gate.operands.find? fun op => !a.flatReadable op with
    | none => simpa using List.find?_eq_none.mp found op operand
    | some bad =>
      rw [found] at checked
      cases checked
  · intro r member s output
    have checked := relations r member
    cases found : r.gate.operands.find? fun op => !a.flatReadable op with
    | none =>
      rw [found, output] at checked
      exact of_decide_eq_true (ensure_ok.mp (then_ok.mp (then_ok.mp checked).2).1)
    | some bad =>
      rw [found] at checked
      cases checked
  · intro s address found
    obtain ⟨slot, slotFound, rfl⟩ := Option.map_eq_some_iff.mp found
    have inRange := (fresh s slot slotFound).1
    cases address : slot.address with
    | inner layer offset =>
      rw [address] at inRange
      simp only [Bool.and_eq_true, decide_eq_true_eq, length] at inRange
      obtain ⟨⟨positive, below⟩, column⟩ := inRange
      obtain ⟨k, rfl⟩ := Nat.exists_eq_succ_of_ne_zero (Nat.one_le_iff_ne_zero.mp positive)
      rw [layout _ (Nat.lt_succ_iff.mp below)] at column
      exact ⟨k, Nat.succ_lt_succ_iff.mp below, offset, column, rfl⟩
    | _ =>
      rw [address] at inRange
      exact absurd inRange Bool.false_ne_true
  · apply nodup_of_take
    intro s address found member
    rw [List.getElem?_map] at found
    obtain ⟨slot, slotFound, rfl⟩ := Option.map_eq_some_iff.mp found
    have first := (fresh s slot slotFound).2
    rw [← List.map_take] at member
    obtain ⟨other, otherMember, same⟩ := List.mem_map.mp member
    rw [Bool.not_eq_true', List.any_eq_false] at first
    exact first other otherMember (by rw [same]; exact beq_self_eq_true _)

/-- A slot is where its column is found. -/
theorem RelationRules.inverse (rules : a.RelationRules) {s : ℕ} {address : PolyAddress}
    (slot : a.slotAddress s = some address) : a.inverse address = some s := by
  obtain ⟨entry, found, rfl⟩ := Option.map_eq_some_iff.mp slot
  obtain ⟨below, atIndex⟩ := List.getElem?_eq_some_iff.mp found
  rw [CircuitArtifact.inverse, List.findIdx?_eq_some_iff_getElem]
  refine ⟨below, by rw [atIndex]; exact beq_self_eq_true _, ?_⟩
  intro earlier before same
  have length : (a.scratch.map (·.address)).length = a.scratch.length := List.length_map _
  have different := List.pairwise_iff_getElem.mp (List.nodup_iff_pairwise_ne.mp rules.distinct)
    earlier s (by omega) (by omega) before
  rw [List.getElem_map, List.getElem_map, atIndex] at different
  exact different (eq_of_beq same)

/-- Two relations that define one slot are one. -/
theorem RelationRules.relation_unique (rules : a.RelationRules) {s : ℕ} {r : Relation}
    (member : r ∈ a.relations) (output : r.output = some s) :
    a.relations.find? (fun r => r.output == some s) = some r := by
  have once := rules.defined s (rules.outputs r member s output)
  rw [List.countP_eq_length_filter] at once
  obtain ⟨only, filtered⟩ := List.length_eq_one_iff.mp once
  have same : ∀ other ∈ a.relations, (other.output == some s) = true → other = only := by
    intro other listed defines
    have inside : other ∈ a.relations.filter fun r => r.output == some s :=
      List.mem_filter.mpr ⟨listed, defines⟩
    rw [filtered] at inside
    exact List.mem_singleton.mp inside
  have defines : (r.output == some s) = true := by rw [output]; exact beq_self_eq_true _
  cases found : a.relations.find? fun r => r.output == some s with
  | none => exact absurd defines (List.find?_eq_none.mp found r member)
  | some other =>
    have definesToo : (other.output == some s) = true := by simpa using List.find?_some found
    rw [same other (List.mem_of_find?_eq_some found) definesToo, same r member defines]

/-- Law 4 for one gate of the layered encoding and the relation it encodes. -/
structure Encodes (a : CircuitArtifact) (e : Encoding) (r : Relation) : Prop where
  listed : a.relations[e.relation]? = some r
  producing : ∀ output, e.output = some output →
    ∃ s, r.output = some s ∧ a.slotAddress s = some output
  enforcing : e.output = none → r.output = none
  same : normalForm r.gate = normalize ((a.layered e.list).expand e.gate)

theorem encodes_ok {encoded result : List Bool} {e : Encoding}
    (passed : a.encodes encoded e = .ok result) :
    (∃ r, a.Encodes e r) ∧ encoded[e.relation]? = some false ∧
      result = encoded.set e.relation true := by
  unfold encodes at passed
  obtain ⟨⟨next, r⟩, claimed, passed⟩ := bind_ok.mp passed
  unfold claim at claimed
  cases free : encoded[e.relation]? with
  | none => simp [free] at claimed
  | some claimedBefore =>
    cases found : a.relations[e.relation]? with
    | none => simp [free, found] at claimed
    | some relation =>
      cases claimedBefore with
      | true => simp [free, found] at claimed
      | false =>
        simp only [free, found, Except.ok.injEq, Prod.mk.injEq] at claimed
        obtain ⟨rfl, rfl⟩ := claimed
        cases written : e.output with
        | none =>
          simp only [written, then_ok, ensure_ok, samePolynomial, beq_iff_eq,
            Option.isNone_iff_eq_none] at passed
          obtain ⟨enforcing, same, result⟩ := passed
          refine ⟨⟨relation, found, ?_, fun _ => enforcing, same⟩, rfl,
            (Except.ok.inj result).symm⟩
          intro output produced
          rw [written] at produced
          cases produced
        | some output =>
          simp only [written, then_ok, ensure_ok, samePolynomial, beq_iff_eq] at passed
          obtain ⟨defines, same, result⟩ := passed
          refine ⟨⟨relation, found, ?_, ?_, same⟩, rfl, (Except.ok.inj result).symm⟩
          · intro address produced
            rw [written, Option.some.injEq] at produced
            rw [← produced]
            cases slot : relation.output with
            | none => simp [slot] at defines
            | some s =>
              rw [slot] at defines
              exact ⟨s, rfl, eq_of_beq defines⟩
          · intro enforcing
            rw [written] at enforcing
            cases enforcing

/-- Each gate claims a relation that none before it claimed. -/
theorem foldlM_encodes_ok {list : List Encoding} {encoded final : List Bool}
    (passed : list.foldlM a.encodes encoded = .ok final) :
    (∀ e ∈ list, ∃ r, a.Encodes e r) ∧ final.length = encoded.length ∧
      encoded.count false = final.count false + list.length ∧
      ∀ i, final[i]? = some true → encoded[i]? = some true ∨ ∃ e ∈ list, e.relation = i := by
  induction list generalizing encoded with
  | nil =>
    cases passed
    exact ⟨fun e member => absurd member List.not_mem_nil, rfl, rfl,
      fun i claimed => Or.inl claimed⟩
  | cons e list ih =>
    rw [List.foldlM_cons] at passed
    obtain ⟨next, first, rest⟩ := bind_ok.mp passed
    obtain ⟨encodes, free, rfl⟩ := encodes_ok first
    obtain ⟨others, length, count, claimed⟩ := ih rest
    obtain ⟨below, atIndex⟩ := List.getElem?_eq_some_iff.mp free
    refine ⟨List.forall_mem_cons.mpr ⟨encodes, others⟩, by rw [length, List.length_set], ?_, ?_⟩
    · have positive : 0 < encoded.count false :=
        List.count_pos_iff.mpr (List.mem_of_getElem? free)
      have fewer := List.count_set (b := false) (a := true) below
      simp only [atIndex, beq_self_eq_true, beq_false, Bool.not_true, Bool.false_eq_true,
        ↓reduceIte, Nat.add_zero] at fewer
      rw [List.length_cons]
      omega
    · intro i last
      rcases claimed i last with earlier | ⟨later, member, names⟩
      · by_cases here : e.relation = i
        · exact Or.inr ⟨e, List.mem_cons_self, here⟩
        · rw [List.getElem?_set_ne here] at earlier
          exact Or.inl earlier
      · exact Or.inr ⟨later, List.mem_cons_of_mem _ member, names⟩

/-- Law 4: every gate encodes a relation, and every relation is encoded. -/
structure SingleSource (a : CircuitArtifact) : Prop where
  encodes : ∀ e ∈ a.encodings, ∃ r, a.Encodes e r
  encoded : ∀ r ∈ a.relations, ∃ e ∈ a.encodings, a.Encodes e r

theorem singleSource_ok (passed : a.singleSource = .ok ()) : a.SingleSource := by
  unfold singleSource at passed
  obtain ⟨final, folded, counted⟩ := bind_ok.mp passed
  rw [ensure_ok, beq_iff_eq] at counted
  obtain ⟨encodes, length, count, claimed⟩ := foldlM_encodes_ok folded
  refine ⟨encodes, ?_⟩
  -- as many gates as relations, no relation twice: none is left unclaimed
  have none_ : final.count false = 0 := by
    rw [List.count_replicate_self] at count
    omega
  rw [List.length_replicate] at length
  intro r member
  obtain ⟨i, found⟩ := List.mem_iff_getElem?.mp member
  obtain ⟨below, -⟩ := List.getElem?_eq_some_iff.mp found
  have inside : i < final.length := by rwa [length]
  have true_ : final[i]? = some true := by
    rw [List.getElem?_eq_getElem inside]
    cases value : final[i] with
    | true => rfl
    | false =>
      exact absurd (List.getElem_mem inside) (by
        rw [value]
        exact List.count_eq_zero.mp none_)
  rcases claimed i true_ with earlier | ⟨e, listed, rfl⟩
  · rw [List.getElem?_replicate] at earlier
    split at earlier
    · cases earlier
    · cases earlier
  · obtain ⟨other, encodes⟩ := encodes e listed
    have same := encodes.listed
    rw [found] at same
    cases same
    exact ⟨e, listed, encodes⟩

theorem laws_of_validate (accepted : a.validate = .ok ()) : a.RelationRules ∧ a.SingleSource := by
  obtain ⟨-, -, -, shapes, shaped, -, relations, -, -, source, -⟩ := validate_ok.mp accepted
  obtain ⟨length, layout, -⟩ := shapes_ok shaped
  exact ⟨relationRules_ok length layout relations, singleSource_ok source⟩

theorem producing_mem_encodings {k j : ℕ} {entry : ProducingEntry} (inside : k < a.depth)
    (found : (a.layer k).producing[j]? = some entry) :
    (⟨k, a.layer k, entry.relation, some entry.output, entry.gate⟩ : Encoding) ∈ a.encodings := by
  apply List.mem_flatMap.mpr
  refine ⟨(a.layer k, k), List.mem_zipIdx_iff_getElem?.mpr (layers_getElem? inside), ?_⟩
  apply List.mem_append_left
  exact List.mem_map.mpr ⟨entry, List.mem_of_getElem? found, rfl⟩

theorem enforcing_mem_encodings {k j : ℕ} {entry : EnforcingEntry} (inside : k < a.depth)
    (found : (a.layer k).enforcing[j]? = some entry) :
    (⟨k, a.layer k, entry.relation, none, entry.gate⟩ : Encoding) ∈ a.encodings := by
  apply List.mem_flatMap.mpr
  refine ⟨(a.layer k, k), List.mem_zipIdx_iff_getElem?.mpr (layers_getElem? inside), ?_⟩
  apply List.mem_append_right
  exact List.mem_map.mpr ⟨entry, List.mem_of_getElem? found, rfl⟩

/-- An enforcing gate of the layered encoding is an entry of its list. -/
theorem enforcing_of_mem_encodings {e : Encoding} (member : e ∈ a.encodings)
    (enforcing : e.output = none) :
    e.k < a.depth ∧ e.list = a.layer e.k ∧
      ∃ j : ℕ, (a.layer e.k).enforcing[j]? = some (⟨e.relation, e.gate⟩ : EnforcingEntry) := by
  obtain ⟨⟨list, k⟩, listed, inside⟩ := List.mem_flatMap.mp member
  have found := List.mem_zipIdx_iff_getElem?.mp listed
  have layer := layer_eq found
  obtain ⟨below, -⟩ := List.getElem?_eq_some_iff.mp found
  rcases List.mem_append.mp inside with produced | enforced
  · obtain ⟨entry, -, rfl⟩ := List.mem_map.mp produced
    cases enforcing
  · obtain ⟨entry, entryMember, rfl⟩ := List.mem_map.mp enforced
    obtain ⟨j, entryFound⟩ := List.mem_iff_getElem?.mp entryMember
    refine ⟨below, layer.symm, j, ?_⟩
    rw [layer]
    exact entryFound

/-- The relation that defines an inner column's slot is the one its gate encodes. -/
theorem exists_relation (valid : a.Valid) (rules : a.RelationRules) (source : a.SingleSource)
    {s k o : ℕ} {entry : ProducingEntry} (inside : k < a.depth)
    (found : (a.layer k).producing[o]? = some entry)
    (slot : a.slotAddress s = some (.inner (k + 1) o)) :
    ∃ r ∈ a.relations, r.output = some s ∧
      normalForm r.gate = normalize ((a.layered (a.layer k)).expand entry.gate) := by
  obtain ⟨r, encodes⟩ := source.encodes _ (producing_mem_encodings inside found)
  obtain ⟨t, output, address⟩ := encodes.producing _ rfl
  rw [(valid.shape k inside).outputs o entry found] at address
  have same := rules.inverse slot
  rw [rules.inverse address, Option.some.injEq] at same
  refine ⟨r, List.mem_of_getElem? encodes.listed, ?_, encodes.same⟩
  rw [output, same]

/-- Every inner column has a slot. -/
theorem exists_slot (valid : a.Valid) (source : a.SingleSource) {k o : ℕ} (inside : k < a.depth)
    (column : o < a.layerWidth (k + 1)) : ∃ s, a.slotAddress s = some (.inner (k + 1) o) := by
  have shape := valid.shape k inside
  rw [shape.width] at column
  have found := List.getElem?_eq_getElem column
  obtain ⟨r, encodes⟩ := source.encodes _ (producing_mem_encodings inside found)
  obtain ⟨s, -, address⟩ := encodes.producing _ rfl
  rw [shape.outputs o _ found] at address
  exact ⟨s, address⟩

end CircuitArtifact

end Apogee
