import Apogee.Gkr.Verify

/-! # The forward pass and the prover

`forward` materializes every layer from the committed columns, row by row.
`prove` walks the layers from the top as `verify` does, binding the tables of
each layer to the point the rounds draw.
-/

namespace Apogee

/-- The committed columns, each under its address. -/
structure BaseLayer where
  columns : List (PolyAddress × MultilinearPoly)

/-- The first column under an address. -/
def BaseLayer.get (base : BaseLayer) (address : PolyAddress) : Option MultilinearPoly :=
  (base.columns.find? fun column => column.1 == address).map Prod.snd

/-- Every layer of one forward pass above the base, each in offset order. -/
structure LayerValues where
  base : BaseLayer
  layers : List (List MultilinearPoly)

section Forward

variable (a : CircuitArtifact) (base : BaseLayer) (challenges : ExternalChallenges)

/-- Layer `k`'s columns: the committed ones in layout order at the base. The
source panics on a column the base lacks. -/
def layerColumns (layers : List (List MultilinearPoly)) (k : ℕ) : List MultilinearPoly :=
  if k = 0 then a.committed.map fun address => (base.get address).getD (.tabulate 0 fun _ => 0)
  else layers.getD (k - 1) []

/-- The variables of the rows a gate list defines. -/
def rowVars (k : ℕ) : ℕ := if (a.layer k).halving then a.layerVars k - 1 else a.layerVars k

/-- Row `y`'s inputs: both children for a halving list, the virtual tables for a
row-wise one. -/
def loadRow (k : ℕ) (columns : List MultilinearPoly) (y : ℕ) : Source → Fr :=
  if (a.layer k).halving then
    Source.read (columns.map fun column => column.get y)
      (columns.map fun column => column.get (y + 2 ^ rowVars a k)) []
  else Source.read (columns.map fun column => column.get y) []
    (a.kinds.map fun kind => virtualAtRow kind y)

/-- The columns gate list `k` writes. -/
def produce (layers : List (List MultilinearPoly)) (k : ℕ) : List MultilinearPoly :=
  (List.range (a.layerWidth (k + 1))).map fun j => .tabulate (rowVars a k) fun y =>
    (ResolvedList.new a k challenges).gate (loadRow a k (layerColumns a base layers k) y) j

/-- Materialize every layer from the base, gate list by gate list. -/
def forward : LayerValues :=
  ⟨base, (List.range a.depth).foldl
    (fun layers k => layers ++ [produce a base challenges layers k]) []⟩

/-- Gate `j` of list `k` on one row of the materialized layers. -/
def gateOnRow (values : LayerValues) (k j y : ℕ) : Fr :=
  (ResolvedList.new a k challenges).gate
    (loadRow a k (layerColumns a values.base values.layers k) y) j

end Forward

/-- The cubic through four values at `0, 1, 2, 3`: Newton's forward differences,
expanded. -/
def interpolateCubic (v0 v1 v2 v3 : Fr) : RoundPoly :=
  let inv2 := ((2 : ℕ) : Fr)⁻¹
  let inv3 := ((3 : ℕ) : Fr)⁻¹
  let inv6 := ((6 : ℕ) : Fr)⁻¹
  let d1 := v1 - v0
  let d2 := (v2 - v1) - d1
  let d3 := ((v3 - v2) - (v2 - v1)) - d2
  ⟨v0, d1 - d2 * inv2 + d3 * inv3, (d2 - d3) * inv2, d3 * inv6⟩

/-- The tables a layer sumcheck binds: a layer's columns, or both children of
each. -/
structure LayerTables where
  lower : List MultilinearPoly
  upper : List MultilinearPoly

/-- A line `value + X·step`. -/
structure Line where
  value : Fr
  step : Fr

/-- The line one step further. -/
def Line.next (line : Line) : Line := ⟨line.value + line.step, line.step⟩

/-- The line of a table's pair `i`. -/
def tableLine (table : MultilinearPoly) (i : ℕ) : Line :=
  ⟨table.get (2 * i), table.get (2 * i + 1) - table.get (2 * i)⟩

/-- The bits of a row index as coordinates. -/
def rowBits (count row : ℕ) : List Fr :=
  (List.range count).map fun j => (((row >>> j) &&& 1 : ℕ) : Fr)

/-- The line of a virtual table's pair `i`, from the closed form alone: the
bound challenges, then `X`, then the bits of `i`. -/
def virtualLine (kind : VirtualKind) (point : List Fr) (rest i : ℕ) : Line :=
  let at0 := virtualAtPoint kind (point ++ 0 :: rowBits rest i)
  let at1 := virtualAtPoint kind (point ++ 1 :: rowBits rest i)
  ⟨at0, at1 - at0⟩

/-- The lines of one row pair: the equality table's, every column's and every
virtual table's. -/
structure PairLines where
  eq : Line
  lower : List Line
  upper : List Line
  virtuals : List Line

/-- Every line one step further. -/
def PairLines.next (pair : PairLines) : PairLines :=
  ⟨pair.eq.next, pair.lower.map Line.next, pair.upper.map Line.next, pair.virtuals.map Line.next⟩

/-- The weighted summand where the lines stand. -/
def PairLines.value (pair : PairLines) (list : ResolvedList) (weights : List Fr) : Fr :=
  pair.eq.value * list.summand weights (Source.read (pair.lower.map (·.value))
    (pair.upper.map (·.value)) (pair.virtuals.map (·.value)))

/-- A layer sumcheck under way: the tables bound so far, and the point. -/
structure SumcheckState where
  eq : MultilinearPoly
  tables : LayerTables
  point : List Fr

namespace SumcheckState

/-- The lines of row pair `i`, `rest` variables being left after this round. -/
def pair (s : SumcheckState) (kinds : List VirtualKind) (rest i : ℕ) : PairLines where
  eq := tableLine s.eq i
  lower := s.tables.lower.map fun table => tableLine table i
  upper := s.tables.upper.map fun table => tableLine table i
  virtuals := kinds.map fun kind => virtualLine kind s.point rest i

/-- The round's value at one of its nodes. -/
def atNode (s : SumcheckState) (list : ResolvedList) (kinds : List VirtualKind) (weights : List Fr)
    (rest node : ℕ) : Fr :=
  ((List.range (2 ^ rest)).map fun i =>
    (PairLines.next^[node] (s.pair kinds rest i)).value list weights).sum

/-- The round's cubic. -/
def message (s : SumcheckState) (list : ResolvedList) (kinds : List VirtualKind)
    (weights : List Fr) (rest : ℕ) : RoundPoly :=
  interpolateCubic (s.atNode list kinds weights rest 0) (s.atNode list kinds weights rest 1)
    (s.atNode list kinds weights rest 2) (s.atNode list kinds weights rest 3)

/-- Every table bound to a challenge. -/
def bind (s : SumcheckState) (r : Fr) : SumcheckState :=
  ⟨s.eq.bind r, ⟨s.tables.lower.map (·.bind r), s.tables.upper.map (·.bind r)⟩, s.point ++ [r]⟩

end SumcheckState

/-- The rounds of one layer sumcheck, prover half. -/
def proveSumcheck (list : ResolvedList) (kinds : List VirtualKind) (weights : List Fr) :
    ℕ → SumcheckState → Transcript → List RoundPoly × SumcheckState × Transcript
  | 0, s, t => ([], s, t)
  | rest + 1, s, t =>
    let g := s.message list kinds weights rest
    let t := t.appendScalars TranscriptTag.sumcheckRound g.scalars
    let r := t.draw TranscriptTag.sumcheckChallenge
    let later := proveSumcheck list kinds weights rest (s.bind r)
      (t.drawn TranscriptTag.sumcheckChallenge)
    (g :: later.1, later.2)

/-- A halving list's two child tables of a column, the child bit being the
highest variable. -/
def children (column : MultilinearPoly) : MultilinearPoly × MultilinearPoly :=
  (.tabulate (column.numVars - 1) fun i => column.get i,
    .tabulate (column.numVars - 1) fun i => column.get (i + 2 ^ (column.numVars - 1)))

/-- The virtual tables a list's sumcheck reads. -/
def listKinds (a : CircuitArtifact) (k : ℕ) : List VirtualKind :=
  if (a.layer k).halving then [] else a.kinds

/-- The tables a transition binds. -/
def layerTables (a : CircuitArtifact) (k : ℕ) (columns : List MultilinearPoly) : LayerTables :=
  if (a.layer k).halving then
    ⟨columns.map fun column => (children column).1, columns.map fun column => (children column).2⟩
  else ⟨columns, []⟩

/-- The claims a transition leaves, every table being bound. -/
def finalEvals (a : CircuitArtifact) (k : ℕ) (tables : LayerTables) : List Fr :=
  if (a.layer k).halving then
    (tables.lower.zip tables.upper).flatMap fun pair => [pair.1.get 0, pair.2.get 0]
  else tables.lower.map fun table => table.get 0

/-- One transition, prover half. -/
def proveLayer (a : CircuitArtifact) (values : LayerValues) (challenges : ExternalChallenges)
    (k : ℕ) (point : List Fr) (t : Transcript) : SumcheckProof × List Fr × Transcript :=
  let list := a.layer k
  let weights := powers (t.draw TranscriptTag.gkrBatch)
    (list.producing.length + list.enforcing.length)
  let tables := layerTables a k (layerColumns a values.base values.layers k)
  let (rounds, s, t) := proveSumcheck (ResolvedList.new a k challenges) (listKinds a k) weights
    point.length ⟨eqPoly point, tables, []⟩ (t.drawn TranscriptTag.gkrBatch)
  let evals := finalEvals a k s.tables
  let t := t.appendScalars TranscriptTag.gkrLayerClaims evals
  if list.halving then
    (⟨rounds, evals⟩, s.point ++ [t.draw TranscriptTag.gkrChild], t.drawn TranscriptTag.gkrChild)
  else (⟨rounds, evals⟩, s.point, t)

/-- The transitions below layer `k`, from the top down; the proofs by list. -/
def proveLayers (a : CircuitArtifact) (values : LayerValues) (challenges : ExternalChallenges) :
    ℕ → List Fr → Transcript → List SumcheckProof × Transcript
  | 0, _, t => ([], t)
  | k + 1, point, t =>
    let (proof, point, t) := proveLayer a values challenges k point t
    let (proofs, t) := proveLayers a values challenges k point t
    (proofs ++ [proof], t)

/-- The top layer in output-map order. -/
def topOutputs (a : CircuitArtifact) (values : LayerValues) : OutputClaims :=
  ⟨a.outputs.map fun out => match out with
    | .inner _ offset => (layerColumns a values.base values.layers a.depth).getD offset
        (.tabulate 0 fun _ => 0)
    | _ => .tabulate 0 fun _ => 0⟩

/-- Prove the circuit's outputs, as the values hold them. -/
def prove (a : CircuitArtifact) (values : LayerValues) (challenges : ExternalChallenges)
    (t : Transcript) : GkrProof × Transcript :=
  let t := t.appendScalars TranscriptTag.gkrOutputs (topOutputs a values).message
  let drawn := t.challengeScalars TranscriptTag.gkrOutputPoint (a.layerVars a.depth)
  let proved := proveLayers a values challenges a.depth drawn.1 drawn.2
  (⟨proved.1⟩, proved.2)

end Apogee
