import Apogee.Circuit.Frame
import Apogee.Circuit.Validated

/-! # The memory argument's construction rules

Where a memory artifact is built, every gate's cone is followed: whether it names a
memory challenge slot, and whether it reads a witness column. Witness columns are
committed after the memory challenges, so no gate may do both and no root may read one.
-/

namespace Apogee

/-- One of the memory argument's slots. -/
def Coeff.global : Coeff → Bool
  | .challenge slot =>
    ChallengeSlot.memGamma ≤ slot && slot ≤ ChallengeSlot.memWindowConstant
  | .literal _ => false

/-- What a column's cone holds. -/
structure Provenance where
  /-- It names a memory slot. -/
  slot : Bool
  /-- It reads a witness column. -/
  witness : Bool
deriving DecidableEq

/-- An operand's flags: those of the layer below, or of the list's cached entries. The source
indexes, and panics past the last. -/
def operandProvenance (below cached : List Provenance) : PolyAddress → Provenance
  | .witness _ => ⟨false, true⟩
  | .inner _ offset => below.getD offset ⟨false, false⟩
  | .cached _ offset => cached.getD offset ⟨false, false⟩
  | _ => ⟨false, false⟩

/-- A gate's flags: its own coefficients' and those of what it reads. -/
def provenance (gate : GateDef) (below cached : List Provenance) : Provenance :=
  gate.operands.foldl (fun flags op =>
    let read := operandProvenance below cached op
    ⟨flags.slot || read.slot, flags.witness || read.witness⟩)
    ⟨gate.coefficients.any Coeff.global, false⟩

/-- The flags of a list's cached entries, each from those before it. -/
def cachedProvenance (below : List Provenance) (entries : List CachedEntry) : List Provenance :=
  entries.foldl (fun cached entry => cached ++ [provenance entry.gate below cached]) []

/-- The columns that a memory slot may weight. -/
def PolyAddress.early : PolyAddress → Bool
  | .memory _ => true
  | .setup _ => true
  | .virtual _ => true
  | _ => false

namespace CircuitArtifact

variable (a : CircuitArtifact)

/-- A relation's name, in a refusal. -/
def ruleName (relation : ℕ) : String :=
  match a.relations[relation]? with
  | some r => r.name
  | none => "?"

/-- A list's gates with their names, in the order they are checked. -/
def namedGates (list : LayerSpec) : List (String × GateDef) :=
  list.cached.map (fun entry => (entry.name, entry.gate)) ++
    list.producing.map (fun entry => (a.ruleName entry.relation, entry.gate)) ++
    list.enforcing.map fun entry => (a.ruleName entry.relation, entry.gate)

/-- The provenance rule, and the rule of what a memory slot may weight. -/
def gateRule (k : ℕ) (below cached : List Provenance) (gate : String × GateDef) :
    Except String Unit :=
  if provenance gate.2 below cached = ⟨true, true⟩ then
    .error ("memory provenance: \x60" ++ gate.1 ++ "\x60 in gate list " ++ toString k ++
      " names a global memory slot and reads a W column")
  else if gate.2.coefficients.any Coeff.global then
    match gate.2.operands.find? fun op => !op.early with
    | some op => .error ("memory slot operands: \x60" ++ gate.1 ++ "\x60 in gate list " ++
        toString k ++ " carries a global memory slot and reads " ++ op.display ++
        "; only M, S and V columns may be weighted by one")
    | none => .ok ()
  else .ok ()

/-- The lists from the base up; the top layer's flags. -/
def gateRules (k : ℕ) (below : List Provenance) : List LayerSpec → Except String (List Provenance)
  | [] => .ok below
  | list :: rest => do
    let cached := cachedProvenance below list.cached
    (a.namedGates list).forM (gateRule k below cached)
    gateRules (k + 1) (list.producing.map fun entry => provenance entry.gate below cached) rest

/-- A root reads no witness column. -/
def rootRule (top : List Provenance) (root : ℕ) : Except String Unit :=
  match a.outputs[root]? with
  | some (.inner layer offset) =>
    if (top[offset]?).any Provenance.witness then
      let name := match a.scratch.find? fun slot => slot.address == .inner layer offset with
        | some slot => slot.name
        | none => "?"
      .error ("memory provenance: output " ++ toString root ++ ", \x60" ++ name ++
        "\x60, reads a W column, which is committed after the memory challenges")
    else .ok ()
  | _ => .ok ()

/-- A leaf's mask is 0 or 1 on every row. -/
def maskRule (list : LayerSpec) (leaf : String) (mask : PolyAddress) : Except String Unit :=
  let held : Except String Unit :=
    if list.enforcing.any fun entry => entry.gate == booleanity mask then .ok ()
    else .error ("unconstrained mask: leaf \x60" ++ leaf ++ "\x60 masks with " ++ mask.display ++
      ", and gate list 0 has no enforcing gate " ++ mask.display ++ " − " ++ mask.display ++ "·" ++
      mask.display)
  match mask with
  | .memory _ => held
  | .witness _ => held
  | .setup _ => held
  | .virtual .ramLive => .ok ()
  | _ => .error ("unconstrained mask: leaf \x60" ++ leaf ++ "\x60 masks with " ++ mask.display ++
      ", which is not 0 or 1 on every row")

/-- A leaf of gate list 0: the terms that a memory slot weights are masks. -/
def leafRule (list : LayerSpec) (entry : ProducingEntry) : Except String Unit :=
  match entry.gate with
  | .quadratic constant terms _ =>
    if constant = lit 1 then
      (terms.filter fun term => term.1.global).forM fun term =>
        maskRule list (a.ruleName entry.relation) term.2
    else .ok ()
  | _ => .ok ()

/-- The construction rules, on an artifact that `validate` accepts. -/
def checkMemory : Except String Unit := do
  let top ← a.gateRules 0 [] a.layers
  [Memory.readRoot, Memory.writeRoot].forM (a.rootRule top)
  match a.layers.head? with
  | none => .ok ()
  | some list => list.producing.forM (a.leafRule list)

end CircuitArtifact

/-! ## What the rules leave -/

/-- A gate reads a witness column when an operand does. -/
theorem provenance_witness (gate : GateDef) (below cached : List Provenance) :
    (provenance gate below cached).witness =
      gate.operands.any fun op => (operandProvenance below cached op).witness := by
  have loop : ∀ (ops : List PolyAddress) (start : Provenance),
      (ops.foldl (fun flags op =>
        let read := operandProvenance below cached op
        (⟨flags.slot || read.slot, flags.witness || read.witness⟩ : Provenance)) start).witness =
        (start.witness || ops.any fun op => (operandProvenance below cached op).witness) := by
    intro ops
    induction ops with
    | nil => exact fun start => (Bool.or_false _).symm
    | cons op ops ih =>
      intro start
      rw [List.foldl_cons, ih, List.any_cons, Bool.or_assoc]
  rw [provenance, loop, Bool.false_or]

/-- The flags of a cached entry, from the entries before it. -/
theorem cachedProvenance_getElem? (below : List Provenance) (entries : List CachedEntry) {i : ℕ}
    {entry : CachedEntry} (found : entries[i]? = some entry) :
    (cachedProvenance below entries)[i]? =
      some (provenance entry.gate below (cachedProvenance below (entries.take i))) := by
  have length : ∀ entries, (cachedProvenance below entries).length = entries.length := by
    intro entries
    induction entries using List.reverseRecOn with
    | nil => rfl
    | append_singleton before last ih =>
      rw [cachedProvenance, List.foldl_append, ← cachedProvenance, List.foldl_cons, List.foldl_nil,
        List.length_append, ih, List.length_append]
      rfl
  induction entries using List.reverseRecOn with
  | nil => cases found
  | append_singleton before last ih =>
    have flags : cachedProvenance below (before ++ [last]) = cachedProvenance below before ++
        [provenance last.gate below (cachedProvenance below before)] := by
      rw [cachedProvenance, List.foldl_append, ← cachedProvenance, List.foldl_cons, List.foldl_nil]
    by_cases inside : i < before.length
    · rw [List.getElem?_append_left inside] at found
      rw [flags, List.getElem?_append_left (by rw [length]; exact inside), ih found,
        List.take_append_of_le_length inside.le]
    · have last : i = before.length := by
        have bound := (List.getElem?_eq_some_iff.mp found).1
        rw [List.length_append, List.length_singleton] at bound
        omega
      subst last
      rw [List.getElem?_append_right le_rfl, Nat.sub_self, List.getElem?_cons_zero] at found
      cases found
      rw [flags, List.getElem?_append_right (by rw [length]), length, Nat.sub_self,
        List.getElem?_cons_zero, List.take_append_of_le_length le_rfl, List.take_length]

end Apogee
