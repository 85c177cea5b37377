import Apogee.Circuit.Lookup

/-! # Circuits as layered gate lists

Gate list `k` reads layer `k` and writes layer `k + 1`, row by row or halving
the layer along its highest variable. Beside the layers an artifact carries its
flat constraint list, its lookups and the bijection between scratch slots and
inner columns.
-/

namespace Apogee

/-- `C{k}[j] = gate`: a shared sub-expression of a gate list, not a column. -/
structure CachedEntry where
  name : String
  address : PolyAddress
  gate : GateDef
deriving DecidableEq

/-- `output = gate`, one relation of the flat list in layered form. -/
structure ProducingEntry where
  relation : ℕ
  output : PolyAddress
  gate : GateDef
deriving DecidableEq

/-- `0 = gate` on every row, one relation of the flat list in layered form. -/
structure EnforcingEntry where
  relation : ℕ
  gate : GateDef
deriving DecidableEq

/-- Gate list `k`: reads layer `k`, writes layer `k + 1`. -/
structure LayerSpec where
  halving : Bool
  /-- The variable count of layer `k + 1`, derived and stored. -/
  numVars : ℕ
  /-- The column count of layer `k + 1`, derived and stored. -/
  width : ℕ
  cached : List CachedEntry
  producing : List ProducingEntry
  enforcing : List EnforcingEntry
deriving DecidableEq

/-- The gates of a list, in the order the engine numbers them. -/
def LayerSpec.gates (list : LayerSpec) : List GateDef :=
  list.cached.map (·.gate) ++ list.producing.map (·.gate) ++ list.enforcing.map (·.gate)

/-- One entry of the flat constraint list: it defines a scratch slot, or it is
enforcing. -/
structure Relation where
  name : String
  output : Option ℕ
  gate : GateDef
deriving DecidableEq

/-- `scratch[i]`, its name, and the inner-layer address it is. -/
structure ScratchSlot where
  name : String
  address : PolyAddress
deriving DecidableEq

/-- The padding contract: the committed columns' values on an inactive row. -/
structure Padding where
  row : List Fr
  zeroRowValid : Bool
deriving DecidableEq

/-- A whole circuit, as data. -/
structure CircuitArtifact where
  formatVersion : ℕ
  coefficientEncoding : ℕ
  traceVars : ℕ
  memory : List String
  witness : List String
  setup : List String
  virtuals : List (VirtualKind × String)
  layers : List LayerSpec
  relations : List Relation
  lookups : List LookupExpr
  scratch : List ScratchSlot
  outputs : List PolyAddress
  padding : Padding
deriving DecidableEq

namespace CircuitArtifact

def FORMAT_VERSION : ℕ := 1

def COEFFICIENT_ENCODING_CANONICAL_LE : ℕ := 0

def MAX_TRACE_VARS : ℕ := 30

variable (artifact : CircuitArtifact)

/-- The number of layers above the base. -/
def depth : ℕ := artifact.layers.length

/-- Gate list `k`. The source indexes, and panics past the last. -/
def layer (k : ℕ) : LayerSpec := artifact.layers.getD k ⟨false, 0, 0, [], [], []⟩

/-- The committed columns in layout order. -/
def committed : List PolyAddress :=
  (List.range artifact.memory.length).map .memory ++
    (List.range artifact.witness.length).map .witness ++
    (List.range artifact.setup.length).map .setup

/-- A layer's variable count. -/
def layerVars : ℕ → ℕ
  | 0 => artifact.traceVars
  | k + 1 => (artifact.layer k).numVars

/-- A layer's column count. -/
def layerWidth : ℕ → ℕ
  | 0 => artifact.committed.length
  | k + 1 => (artifact.layer k).width

/-- The virtual tables the circuit lists. -/
def kinds : List VirtualKind := artifact.virtuals.map Prod.fst

end CircuitArtifact

end Apogee
