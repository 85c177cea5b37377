import Apogee.Circuit.Expansion

/-! # The construction-time checks

`validate` holds an artifact to the four laws, the degree ceiling and every
other construction rule, in the source's order, and names the first one broken.
`inlineCached` is the cache-free compilation, checked by the same rules.
-/

namespace Apogee

/-- Why an artifact is not a circuit. -/
inductive ConstraintError
  | locality (layer : ℕ) (gate : String) (operand : PolyAddress)
  | derivedWidth (layer : ℕ) (detail : String)
  | topLayer (detail : String)
  | singleSource (detail : String)
  | degree (gate : String) (degree : ℕ)
  | notInlinable (gate : String)
  | malformed (detail : String)
deriving DecidableEq

/-- Refuse with an error unless a rule holds. -/
def ensure (rule : Bool) (error : ConstraintError) : Except ConstraintError Unit :=
  if rule then .ok () else .error error

/-- Every entry of a list passes a check, the first failure being reported. -/
def checkAll {α : Type} (check : α → Except ConstraintError Unit) :
    List α → Except ConstraintError Unit
  | [] => .ok ()
  | entry :: rest => do
    check entry
    checkAll check rest

/-- How a diagnostic names a virtual table. -/
def VirtualKind.debug : VirtualKind → String
  | .rowIndex => "RowIndex"
  | .ramLive => "RamLive"
  | .range19 => "Range19"
  | .range16 => "Range16"
  | .xor8A => "Xor8A"
  | .xor8B => "Xor8B"
  | .xor8Out => "Xor8Out"

namespace GateDef

/-- The name of a halving shape. -/
def halvingShape : GateDef → Option String
  | treeProduct _ => some "TreeProduct"
  | treeCross _ _ => some "TreeCross"
  | _ => none

/-- The widest operand of an affine form. -/
def widest (d : PolyAddress → ℕ) (terms : List (Coeff × PolyAddress)) : ℕ :=
  (terms.map fun term => d term.2).foldr max 0

/-- A gate's degree, its operands' degrees given. -/
def degreeWith (d : PolyAddress → ℕ) : GateDef → ℕ
  | linear terms _ => widest d terms
  | product _ left right => d left + d right
  | maskIntoIdentity input mask => max (d input + d mask) (d mask)
  | affineProduct left _ right _ => widest d left + widest d right
  | treeProduct _ => 2
  | treeCross _ _ => 2
  | quadratic _ terms products =>
    max (widest d terms) ((products.map fun term => d term.2.1 + d term.2.2).foldr max 0)

/-- An operand's degree: a column is 1, a cached entry its expression's. An
entry names no other, and an offset past the list panics in the source. -/
def operandDegree (cached : List CachedEntry) : PolyAddress → ℕ
  | .cached _ offset =>
    match cached[offset]? with
    | some entry => entry.gate.degreeWith fun _ => 1
    | none => 0
  | _ => 1

/-- A gate's degree in the layer it reads, cached entries substituted. -/
def degree (gate : GateDef) (cached : List CachedEntry) : ℕ :=
  gate.degreeWith (operandDegree cached)

end GateDef

/-- The degree ceiling. -/
def ceiling (gate : GateDef) (cached : List CachedEntry) (name : String) :
    Except ConstraintError Unit :=
  ensure (gate.degree cached ≤ 2) (.degree name (gate.degree cached))

def rowWiseShape (gate : GateDef) (name : String) (k : ℕ) : Except ConstraintError Unit :=
  match gate.halvingShape with
  | some shape => .error (.malformed
      ("`" ++ name ++ "` is a " ++ shape ++ " in row-wise gate list " ++ toString k))
  | none => .ok ()

namespace CircuitArtifact

variable (a : CircuitArtifact)

def header : Except ConstraintError Unit := do
  ensure (a.formatVersion == FORMAT_VERSION) (.malformed
    ("format version " ++ toString a.formatVersion ++ ", expected " ++ toString FORMAT_VERSION))
  ensure (a.coefficientEncoding == COEFFICIENT_ENCODING_CANONICAL_LE) (.malformed
    ("coefficient encoding " ++ toString a.coefficientEncoding ++ "; the only one is " ++
      toString COEFFICIENT_ENCODING_CANONICAL_LE ++ ", canonical 32-byte little-endian"))
  ensure (a.traceVars ≤ MAX_TRACE_VARS) (.malformed
    ("trace_vars " ++ toString a.traceVars ++ " is above " ++ toString MAX_TRACE_VARS))
  ensure (!a.layers.isEmpty) (.malformed "a circuit has at least one gate list")
  ensure (a.padding.row.length == a.committed.length) (.malformed
    ("the padding row has " ++ toString a.padding.row.length ++ " values for " ++
      toString a.committed.length ++ " committed columns"))
  checkAll (fun entry : (VirtualKind × String) × ℕ =>
    ensure (!(a.virtuals.take entry.2).any fun other => other.1 == entry.1.1) (.malformed
      ("virtual table " ++ entry.1.1.debug ++ " is listed twice"))) a.virtuals.zipIdx

/-- A name is a non-empty `[a-z0-9_]` string. -/
def legalName (name : String) : Bool :=
  !name.isEmpty && name.toList.all fun c => c.isLower || c.isDigit || c == '_'

/-- Every name of the artifact. -/
def allNames : List String :=
  a.memory ++ a.witness ++ a.setup ++ a.virtuals.map Prod.snd ++
    a.layers.flatMap (fun list => list.cached.map (·.name)) ++
    a.relations.map (·.name) ++ a.lookups.map (·.name) ++ a.scratch.map (·.name)

def names : Except ConstraintError Unit := do
  checkAll (fun name => ensure (legalName name) (.malformed
    ("name " ++ name.quote ++ " is not a non-empty [a-z0-9_] string"))) a.allNames
  let sorted := a.allNames.insertionSort fun left right => left ≤ right
  checkAll (fun pair : String × String => ensure (pair.1 != pair.2) (.malformed
    ("name " ++ pair.1.quote ++ " is used twice"))) (sorted.zip sorted.tail)

/-- A committed column of the artifact. -/
def isCommitted : PolyAddress → Bool
  | .memory i => i < a.memory.length
  | .witness i => i < a.witness.length
  | .setup i => i < a.setup.length
  | _ => false

/-- A committed column or a listed virtual table. -/
def isListed : PolyAddress → Bool
  | .virtual kind => a.kinds.contains kind
  | other => a.isCommitted other

/-- Whether some enforcing gate of gate list 0 is `x − x·x`, whatever its shape
spells it. -/
def booleanInList0 (x : PolyAddress) : Bool :=
  let want := normalForm (.quadratic (.literal 0) [(.literal 1, x)] [(.literal (-1), x, x)])
  (a.layer 0).enforcing.any fun entry => normalForm entry.gate == want

/-- One expression of a lookup's tuple. -/
def lookupExpression (name : String) (j : ℕ) : GateDef → Except ConstraintError Unit
  | .linear terms constant => do
    let literal : Coeff → Bool := fun
      | .literal _ => true
      | .challenge _ => false
    ensure (literal constant && terms.all fun term => literal term.1) (.malformed
      ("lookup `" ++ name ++ "` has a coefficient that is not a literal"))
    checkAll (fun term : Coeff × PolyAddress => ensure (a.isListed term.2) (.malformed
      ("lookup `" ++ name ++ "` reads " ++ term.2.display ++
        ", which is not a committed column or a listed virtual table"))) terms
    ensure (j == 0 || (terms.all (fun term => term.1 == .literal 1) && constant == .literal 0))
      (.malformed ("lookup `" ++ name ++ "` weights expression " ++ toString j ++
        " by something other than 1, or gives it a constant; only expression 0 may, `β^0` " ++
        "being the literal 1"))
  | _ => .error (.malformed ("lookup `" ++ name ++ "` has an expression that is not Linear"))

def lookup (l : LookupExpr) : Except ConstraintError Unit := do
  ensure (l.channel < LookupChannel.names.length) (.malformed
    ("lookup `" ++ l.name ++ "` names channel " ++ toString l.channel ++
      ", which is not in constants::lookup_channel"))
  let range := LookupChannel.isRange.getD l.channel false
  ensure (1 ≤ l.tuple.length && l.tuple.length ≤ if range then 1 else LookupChannel.maxTuple)
    (.malformed ("lookup `" ++ l.name ++ "` has " ++ toString l.tuple.length ++ " expressions; " ++
      if range then "a range channel's tuple has exactly one"
      else "a table channel's has 1 to lookup_channel::MAX_TUPLE"))
  match a.lookups.find? fun o => o.channel == l.channel && o.tuple.length != l.tuple.length with
  | some other => .error (.malformed
      ("lookup `" ++ l.name ++ "` has " ++ toString l.tuple.length ++ " expressions and `" ++
        other.name ++ "` has " ++ toString other.tuple.length ++
        ", and one channel has one table"))
  | none => .ok ()
  ensure (a.isCommitted l.selector) (.malformed
    ("lookup `" ++ l.name ++ "` has selector " ++ l.selector.display ++
      ", which is not a committed column"))
  ensure (a.booleanInList0 l.selector) (.malformed
    ("lookup `" ++ l.name ++ "` has selector " ++ l.selector.display ++
      ", which gate list 0 does not hold to booleanity"))
  checkAll (fun gate : GateDef × ℕ => a.lookupExpression l.name gate.2 gate.1) l.tuple.zipIdx

/-- The lookup rules. -/
def lookupRules : Except ConstraintError Unit := checkAll a.lookup a.lookups

/-- The shape of the layer that list `k` writes, `vars` being the variables of
the layer it reads. -/
def shape (k vars : ℕ) (list : LayerSpec) : Except ConstraintError (ℕ × ℕ) := do
  let above := k + 1
  ensure (!list.halving || vars != 0) (.malformed
    ("gate list " ++ toString k ++ " halves layer " ++ toString k ++
      ", which has no variable to halve"))
  let derivedVars := if list.halving then vars - 1 else vars
  ensure (list.numVars == derivedVars) (.derivedWidth above
    ("stored num_vars " ++ toString list.numVars ++ " but gate list " ++ toString k ++ " writes " ++
      toString derivedVars ++ " variables"))
  ensure (list.width == list.producing.length) (.derivedWidth above
    ("stored width " ++ toString list.width ++ " but gate list " ++ toString k ++ " has " ++
      toString list.producing.length ++ " producing gates"))
  checkAll (fun entry : ProducingEntry × ℕ =>
    ensure (entry.1.output == .inner above entry.2) (.derivedWidth above
      ("producing entry " ++ toString entry.2 ++ " writes " ++ entry.1.output.display ++ ", not " ++
        (PolyAddress.inner above entry.2).display))) list.producing.zipIdx
  pure (derivedVars, list.producing.length)

/-- The shapes of the layers above layer `k`. -/
def shapesAbove (k vars : ℕ) : List LayerSpec → Except ConstraintError (List (ℕ × ℕ))
  | [] => .ok []
  | list :: rest => do
    let above ← shape k vars list
    let others ← shapesAbove (k + 1) above.1 rest
    pure (above :: others)

/-- Law 2, and the variable counts: each layer's variables and columns. -/
def shapes : Except ConstraintError (List (ℕ × ℕ)) := do
  let above ← shapesAbove 0 a.traceVars a.layers
  pure ((a.traceVars, a.committed.length) :: above)

/-- How a gate is named in a diagnostic: by its relation where it has one. -/
def gateName (k : ℕ) (kind : String) (j relation : ℕ) : String :=
  match a.relations[relation]? with
  | some r => r.name
  | none => "gate list " ++ toString k ++ " " ++ kind ++ " entry " ++ toString j

/-- An address that a gate of list `k` may read. -/
def readable (k : ℕ) (list : LayerSpec) (width : ℕ) (allowCached : Bool) : PolyAddress → Bool
  | .memory i => k == 0 && i < a.memory.length
  | .witness i => k == 0 && i < a.witness.length
  | .setup i => k == 0 && i < a.setup.length
  | .virtual kind => k == 0 && a.kinds.contains kind
  | .inner l o => 1 ≤ k && l == k && o < width
  | .cached l o => allowCached && l == k && o < list.cached.length
  | .scratch _ => false

/-- Law 1 for one gate. -/
def locality (k : ℕ) (list : LayerSpec) (width : ℕ) (gate : GateDef) (name : String)
    (allowCached : Bool) : Except ConstraintError Unit :=
  match gate.operands.find? fun op => !a.readable k list width allowCached op with
  | some op => .error (.locality k name op)
  | none => .ok ()

/-- Law 1 and the halving rules for a halving list. -/
def halvingList (k : ℕ) (list : LayerSpec) (width : ℕ) : Except ConstraintError Unit := do
  ensure (k != 0) (.malformed "gate list 0 reads the base and cannot be a halving list")
  ensure (list.cached.isEmpty && list.enforcing.isEmpty) (.malformed
    ("halving gate list " ++ toString k ++ " has cached or enforcing entries"))
  checkAll (fun entry : ProducingEntry × ℕ => do
    let name := a.gateName k "producing" entry.2 entry.1.relation
    a.locality k list width entry.1.gate name false
    ensure entry.1.gate.halvingShape.isSome (.malformed
      ("`" ++ name ++ "` in halving gate list " ++ toString k ++
        " is neither a TreeProduct nor a TreeCross"))) list.producing.zipIdx
  ensure (list.producing.length == width) (.malformed
    ("halving gate list " ++ toString k ++ " writes " ++ toString list.producing.length ++
      " columns from " ++ toString width ++ "; it must halve every one"))

/-- Law 1 and the degree ceiling for a row-wise list. -/
def rowWiseList (k : ℕ) (list : LayerSpec) (width : ℕ) : Except ConstraintError Unit := do
  checkAll (fun entry : CachedEntry × ℕ => do
    ensure (entry.1.address == .cached k entry.2) (.malformed
      ("cached entry `" ++ entry.1.name ++ "` is at " ++ entry.1.address.display ++ ", not " ++
        (PolyAddress.cached k entry.2).display))
    rowWiseShape entry.1.gate entry.1.name k
    a.locality k list width entry.1.gate entry.1.name false) list.cached.zipIdx
  checkAll (fun entry : ProducingEntry × ℕ => do
    let name := a.gateName k "producing" entry.2 entry.1.relation
    rowWiseShape entry.1.gate name k
    a.locality k list width entry.1.gate name true) list.producing.zipIdx
  checkAll (fun entry : EnforcingEntry × ℕ => do
    let name := a.gateName k "enforcing" entry.2 entry.1.relation
    rowWiseShape entry.1.gate name k
    a.locality k list width entry.1.gate name true) list.enforcing.zipIdx
  -- The degrees, now that every cached reference is known to resolve.
  checkAll (fun entry : CachedEntry => ceiling entry.gate [] entry.name) list.cached
  checkAll (fun entry : ProducingEntry × ℕ => ceiling entry.1.gate list.cached
    (a.gateName k "producing" entry.2 entry.1.relation)) list.producing.zipIdx
  checkAll (fun entry : EnforcingEntry × ℕ => ceiling entry.1.gate list.cached
    (a.gateName k "enforcing" entry.2 entry.1.relation)) list.enforcing.zipIdx

def gateList (k : ℕ) (list : LayerSpec) (width : ℕ) : Except ConstraintError Unit :=
  if list.halving then a.halvingList k list width else a.rowWiseList k list width

/-- An address that the flat list may read. -/
def flatReadable : PolyAddress → Bool
  | .scratch i => i < a.scratch.length
  | .inner _ _ => false
  | .cached _ _ => false
  | other => a.isListed other

/-- The flat list's operands and outputs, and the scratch bijection. -/
def relationRules (shapes : List (ℕ × ℕ)) : Except ConstraintError Unit := do
  checkAll (fun r : Relation => do
    match r.gate.operands.find? fun op => !a.flatReadable op with
    | some op => .error (.malformed
        ("relation `" ++ r.name ++ "` reads " ++ op.display ++
          ", which the flat list cannot name"))
    | none => .ok ()
    match r.output with
    | some s => ensure (s < a.scratch.length) (.malformed
        ("relation `" ++ r.name ++ "` defines scratch[" ++ toString s ++
          "], which does not exist"))
    | none => .ok ()
    ceiling r.gate [] r.name) a.relations
  let defined := fun s : ℕ => a.relations.countP fun r => r.output == some s
  checkAll (fun s : ℕ => ensure (defined s == 1) (.malformed
    ("scratch[" ++ toString s ++ "] is defined by " ++ toString (defined s) ++
      " relations, not exactly one"))) (List.range a.scratch.length)
  let inner := (shapes.tail.map Prod.snd).sum
  ensure (a.scratch.length == inner) (.malformed
    (toString a.scratch.length ++ " scratch slots for " ++ toString inner ++
      " inner-layer columns"))
  checkAll (fun slot : ScratchSlot × ℕ =>
    let inRange := match slot.1.address with
      | .inner layer offset =>
        1 ≤ layer && layer < shapes.length && offset < (shapes.getD layer (0, 0)).2
      | _ => false
    ensure (inRange && !(a.scratch.take slot.2).any fun other => other.address == slot.1.address)
      (.malformed ("scratch[" ++ toString slot.2 ++ "] is " ++ slot.1.address.display ++
        ", which is not a fresh inner-layer column"))) a.scratch.zipIdx

/-- Law 3. -/
def topLayer (shapes : List (ℕ × ℕ)) : Except ConstraintError Unit := do
  let n := a.layers.length
  let width := (shapes.getD n (0, 0)).2
  ensure (a.outputs.length == width) (.topLayer
    ("layer " ++ toString n ++ " has " ++ toString width ++ " columns but the output map has " ++
      toString a.outputs.length))
  checkAll (fun out : PolyAddress × ℕ =>
    let top := match out.1 with
      | .inner layer offset => layer == n && offset < width
      | _ => false
    ensure (top && !(a.outputs.take out.2).contains out.1) (.topLayer
      ("output " ++ toString out.2 ++ " is " ++ out.1.display ++
        ", not a distinct column of layer " ++ toString n))) a.outputs.zipIdx

/-- How many external challenge slots there are. -/
def challengeSlotCount : ℕ := 14

def challengeSlots : Except ConstraintError Unit :=
  checkAll (fun c : Coeff =>
    match c with
    | .challenge slot => ensure (slot < challengeSlotCount) (.malformed
        ("challenge slot " ++ toString slot ++ " is not in constants::challenge_slot"))
    | .literal _ => .ok ())
    ((a.layers.flatMap LayerSpec.gates ++ a.relations.map (·.gate)).flatMap GateDef.coefficients)

/-- The scratch slot an inner column is. -/
def inverse (address : PolyAddress) : Option ℕ :=
  a.scratch.findIdx? fun slot => slot.address == address

/-- Gate list `k`'s namespace. -/
def layered (list : LayerSpec) : Namespace := ⟨true, list.cached, a.inverse⟩

def samePolynomial (relation gate : GateDef) (name : String) (k : ℕ) (list : LayerSpec) :
    Except ConstraintError Unit :=
  ensure (normalize (Namespace.flat.expand relation) == normalize ((a.layered list).expand gate))
    (.singleSource ("relation `" ++ name ++ "` and its gate in gate list " ++ toString k ++
      " are different polynomials"))

/-- Relation `index`, claimed by one gate more. -/
def claim (encoded : List Bool) (index : ℕ) : Except ConstraintError (List Bool × Relation) :=
  match encoded[index]?, a.relations[index]? with
  | some false, some r => .ok (encoded.set index true, r)
  | some true, some r => .error (.singleSource
      ("relation `" ++ r.name ++ "` is encoded by two gates"))
  | _, _ => .error (.singleSource
      ("a gate names relation " ++ toString index ++ ", which does not exist"))

/-- One gate of the layered encoding: its list, the relation it encodes, the
column it writes if it writes one. -/
structure Encoding where
  k : ℕ
  list : LayerSpec
  relation : ℕ
  output : Option PolyAddress
  gate : GateDef

/-- The gates of the layered encoding, list by list, producing before
enforcing. -/
def encodings : List Encoding :=
  a.layers.zipIdx.flatMap fun list =>
    list.1.producing.map (fun entry =>
      ⟨list.2, list.1, entry.relation, some entry.output, entry.gate⟩) ++
    list.1.enforcing.map fun entry => ⟨list.2, list.1, entry.relation, none, entry.gate⟩

/-- One gate against the relation it encodes. -/
def encodes (encoded : List Bool) (e : Encoding) : Except ConstraintError (List Bool) := do
  let (encoded, r) ← a.claim encoded e.relation
  match e.output with
  | some output =>
    let defines := match r.output with
      | some s => (a.scratch[s]?.map (·.address)) == some output
      | none => false
    ensure defines (.singleSource ("the gate writing " ++ output.display ++
      " encodes relation `" ++ r.name ++ "`, which does not define it"))
  | none => ensure r.output.isNone (.singleSource
      ("an enforcing gate encodes relation `" ++ r.name ++ "`, which is producing"))
  a.samePolynomial r.gate e.gate r.name e.k e.list
  pure encoded

/-- Law 4. -/
def singleSource : Except ConstraintError Unit := do
  let _ ← a.encodings.foldlM a.encodes (List.replicate a.relations.length false)
  ensure (a.encodings.length == a.relations.length) (.singleSource
    (toString a.relations.length ++ " relations in the flat list but " ++
      toString a.encodings.length ++ " gates"))

/-- The inner columns a gate of a list reads, terms that cancel left out. -/
def reads (list : LayerSpec) (gate : GateDef) : List PolyAddress :=
  ((a.layered list).expand gate).flatMap fun term => term.1.filterMap fun
    | .column (.scratch s) => a.scratch[s]?.map (·.address)
    | .child (.scratch s) _ => a.scratch[s]?.map (·.address)
    | _ => none

/-- The name of the relation a gate encodes, for a diagnostic. -/
def relationName (relation : ℕ) : String :=
  (a.relations.getD relation ⟨"", none, .linear [] (.literal 0)⟩).name

/-- Every inner column below the top is read, every cached entry is named and no
enforcing gate is identically zero. -/
def nothingDropped (shapes : List (ℕ × ℕ)) : Except ConstraintError Unit :=
  checkAll (fun entry : LayerSpec × ℕ => do
    let (list, k) := entry
    checkAll (fun e : EnforcingEntry =>
      ensure (!((a.layered list).expand e.gate).isEmpty) (.malformed
        ("enforcing gate `" ++ a.relationName e.relation ++
          "` in gate list " ++ toString k ++
          " is identically zero, so it constrains nothing"))) list.enforcing
    let gates := list.producing.map (·.gate) ++ list.enforcing.map (·.gate)
    let named := gates.flatMap GateDef.operands
    checkAll (fun e : CachedEntry × ℕ => ensure (named.contains e.1.address) (.malformed
      ("cached entry `" ++ e.1.name ++ "` (" ++ (PolyAddress.cached k e.2).display ++
        ") is named by no gate"))) list.cached.zipIdx
    if k == 0 then .ok () else
      let read := gates.flatMap (a.reads list)
      checkAll (fun j : ℕ => ensure (read.contains (.inner k j)) (.malformed
        ((PolyAddress.inner k j).display ++ " is written but gate list " ++ toString k ++
          " never reads it, so the relation defining it constrains nothing")))
        (List.range (shapes.getD k (0, 0)).2)) a.layers.zipIdx

/-- Every law and construction rule. -/
def validate : Except ConstraintError Unit := do
  a.header
  a.names
  a.lookupRules
  let shapes ← a.shapes
  checkAll (fun list : LayerSpec × ℕ =>
    a.gateList list.2 list.1 (shapes.getD list.2 (0, 0)).2) a.layers.zipIdx
  a.relationRules shapes
  a.topLayer shapes
  a.challengeSlots
  a.singleSource
  a.nothingDropped shapes

end CircuitArtifact

/-- What a cached operand inlines to: nothing for another address, nothing more
than its being cached for an entry that is not linear. -/
def inlineLinear (cached : List CachedEntry) :
    PolyAddress → Option (Option (List (Coeff × PolyAddress) × Coeff))
  | .cached _ offset =>
    match cached[offset]? with
    | some ⟨_, _, .linear terms constant⟩ => some (some (terms, constant))
    | _ => some none
  | _ => none

def PolyAddress.isCached : PolyAddress → Bool
  | .cached _ _ => true
  | _ => false

/-- A gate with its cached reference inlined: a product over a linear entry is
an affine product, and nothing else inlines. -/
def inline (gate : GateDef) (cached : List CachedEntry) (name : String) :
    Except ConstraintError GateDef :=
  if !gate.operands.any PolyAddress.isCached then .ok gate
  else match gate with
    | .product coeff left right =>
      match inlineLinear cached left, inlineLinear cached right with
      | some (some (terms, constant)), none =>
        .ok (.affineProduct terms constant [(coeff, right)] (.literal 0))
      | none, some (some (terms, constant)) =>
        .ok (.affineProduct [(coeff, left)] (.literal 0) terms constant)
      | _, _ => .error (.notInlinable name)
    | _ => .error (.notInlinable name)

namespace CircuitArtifact

variable (a : CircuitArtifact)

/-- One list with every cached reference inlined. -/
def inlineList (list : LayerSpec) : Except ConstraintError LayerSpec := do
  let producing ← list.producing.mapM fun entry => do
    pure { entry with gate := ← inline entry.gate list.cached (a.relationName entry.relation) }
  let enforcing ← list.enforcing.mapM fun entry => do
    pure { entry with gate := ← inline entry.gate list.cached (a.relationName entry.relation) }
  pure { list with cached := [], producing := producing, enforcing := enforcing }

/-- The cache-free compilation. -/
def inlineCached : Except ConstraintError CircuitArtifact := do
  a.validate
  let layers ← a.layers.mapM a.inlineList
  let out := { a with layers := layers }
  out.validate
  pure out

end CircuitArtifact

end Apogee
