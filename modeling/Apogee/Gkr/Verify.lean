import Apogee.Gkr.Resolved
import Apogee.Transcript.Typed

/-! # The verifier

`verify` reduces claims about a circuit's outputs to claims about its committed
columns, one transition at a time from the top: a batch, the rounds of one
sumcheck, the claims they leave on the layer below, and for a halving list the
line its two children meet on.
-/

namespace Apogee

/-- A round's cubic, by ascending coefficient. -/
structure RoundPoly where
  c0 : Fr
  c1 : Fr
  c2 : Fr
  c3 : Fr
deriving DecidableEq

/-- The scalars a round absorbs. -/
def RoundPoly.scalars (g : RoundPoly) : List Fr := [g.c0, g.c1, g.c2, g.c3]

/-- Horner evaluation of a round's cubic. -/
def cubic (g : RoundPoly) (x : Fr) : Fr := ((g.c3 * x + g.c2) * x + g.c1) * x + g.c0

/-- One layer transition's sumcheck: its rounds and the claims they leave. -/
structure SumcheckProof where
  rounds : List RoundPoly
  finalEvals : List Fr
deriving DecidableEq

/-- One sumcheck per gate list, indexed by gate list. -/
structure GkrProof where
  layers : List SumcheckProof
deriving DecidableEq

/-- What the verifier is told the top layer holds, in output-map order. -/
structure OutputClaims where
  tables : List MultilinearPoly
deriving DecidableEq

/-- A claim about a committed column, left for the caller to discharge. -/
structure BaseClaim where
  address : PolyAddress
  point : List Fr
  value : Fr
deriving DecidableEq

/-- Why a proof was rejected. -/
inductive GkrError
  | missingChallenge (slot : ℕ)
  | outputShape
  | proofShape (layer : ℕ)
  | layerInconsistency (layer : ℕ)
deriving DecidableEq

/-- The rest of the powers, the next one given. -/
def powersFrom (lambda acc : Fr) : ℕ → List Fr
  | 0 => []
  | n + 1 => acc :: powersFrom lambda (acc * lambda) n

/-- `λ^0, λ^1, ..., λ^{n-1}`. -/
def powers (lambda : Fr) (n : ℕ) : List Fr := powersFrom lambda 1 n

/-- The claim values a transition leaves on its layer. -/
def claimCount (a : CircuitArtifact) (k : ℕ) : ℕ :=
  if (a.layer k).halving then 2 * a.layerWidth k else a.layerWidth k

/-- The slot a coefficient names, if the challenges lack it. -/
def missingSlot (challenges : ExternalChallenges) : Coeff → Option ℕ
  | .challenge slot => if (challenges.get slot).isNone then some slot else none
  | .literal _ => none

/-- The first slot a gate names that the challenges lack. -/
def checkChallenges (a : CircuitArtifact) (challenges : ExternalChallenges) : Except GkrError Unit :=
  match ((a.layers.flatMap LayerSpec.gates).flatMap GateDef.coefficients).findSome?
      (missingSlot challenges) with
  | some slot => .error (.missingChallenge slot)
  | none => .ok ()

/-- The rounds of one layer sumcheck: the bound point and the last claim, or
nothing at the first round that does not sum. -/
def verifySumcheck (claim : Fr) : List RoundPoly → Transcript → Option (List Fr × Fr × Transcript)
  | [], t => some ([], claim, t)
  | g :: rounds, t =>
    if cubic g 0 + cubic g 1 ≠ claim then none
    else
      let t := t.appendScalars TranscriptTag.sumcheckRound g.scalars
      let r := t.draw TranscriptTag.sumcheckChallenge
      match verifySumcheck (cubic g r) rounds (t.drawn TranscriptTag.sumcheckChallenge) with
      | none => none
      | some (point, last, t) => some (r :: point, last, t)

/-- The claims a transition starts from, or leaves. -/
structure LayerClaim where
  values : List Fr
  point : List Fr

/-- The batched claim of a transition. -/
def batchClaim (values weights : List Fr) : Fr :=
  (values.zip weights).foldl (fun acc pair => acc + pair.1 * pair.2) 0

/-- The reading that a transition's final claims give at the bound point. -/
def finalRead (a : CircuitArtifact) (k : ℕ) (evals rho : List Fr) : Source → Fr :=
  if (a.layer k).halving then
    Source.read ((chunkPairs evals).map Prod.fst) ((chunkPairs evals).map Prod.snd) []
  else Source.read evals [] (a.kinds.map fun kind => virtualAtPoint kind rho)

/-- One transition, from the claims on layer `k + 1` to the claims on layer `k`. -/
def verifyLayer (a : CircuitArtifact) (challenges : ExternalChallenges) (k : ℕ)
    (proof : SumcheckProof) (claim : LayerClaim) (t : Transcript) :
    Except GkrError (LayerClaim × Transcript) :=
  let list := a.layer k
  -- L1: the batch, drawn after every claim it batches is absorbed.
  let lambda := t.draw TranscriptTag.gkrBatch
  let weights := powers lambda (list.producing.length + list.enforcing.length)
  -- L2, L3, and the final check.
  match verifySumcheck (batchClaim claim.values weights) proof.rounds
      (t.drawn TranscriptTag.gkrBatch) with
  | none => .error (.layerInconsistency k)
  | some (rho, last, t) =>
    let t := t.appendScalars TranscriptTag.gkrLayerClaims proof.finalEvals
    let s := (ResolvedList.new a k challenges).summand weights (finalRead a k proof.finalEvals rho)
    if last ≠ eqEval claim.point rho * s then .error (.layerInconsistency k)
    -- L4: a halving transition's children meet on one line.
    else if list.halving then
      let tau := t.draw TranscriptTag.gkrChild
      .ok (⟨(chunkPairs proof.finalEvals).map fun pair => pair.1 + tau * (pair.2 - pair.1),
        rho ++ [tau]⟩, t.drawn TranscriptTag.gkrChild)
    else .ok (⟨proof.finalEvals, rho⟩, t)

/-- The transitions below layer `k`, from the top down. -/
def verifyLayers (a : CircuitArtifact) (challenges : ExternalChallenges) (proof : GkrProof) :
    ℕ → LayerClaim → Transcript → Except GkrError (LayerClaim × Transcript)
  | 0, claim, t => .ok (claim, t)
  | k + 1, claim, t =>
    match verifyLayer a challenges k (proof.layers.getD k ⟨[], []⟩) claim t with
    | .error e => .error e
    | .ok (claim, t) => verifyLayers a challenges proof k claim t

/-- The scalars of the output message. -/
def OutputClaims.message (outputs : OutputClaims) : List Fr :=
  outputs.tables.flatMap fun table => (List.range (2 ^ table.numVars)).map table.get

/-- An output's claim, set at its column's offset. -/
def setOutput (point values : List Fr) (pair : MultilinearPoly × PolyAddress) : List Fr :=
  match pair.2 with
  | .inner _ offset => values.set offset (pair.1.evaluate point)
  | _ => values

/-- The claims on the top layer at the output point, in column order. -/
def outputValues (a : CircuitArtifact) (outputs : OutputClaims) (point : List Fr) : List Fr :=
  (outputs.tables.zip a.outputs).foldl (setOutput point) (List.replicate a.outputs.length 0)

/-- The shapes checked before the transcript is touched. -/
def checkShapes (a : CircuitArtifact) (proof : GkrProof) (outputs : OutputClaims) :
    Except GkrError Unit :=
  if outputs.tables.length ≠ a.outputs.length ∨
      outputs.tables.any fun table => table.numVars != a.layerVars a.depth then
    .error .outputShape
  else if proof.layers.length ≠ a.depth then .error (.proofShape a.depth)
  else match proof.layers.zipIdx.find? fun layer =>
      layer.1.rounds.length != a.layerVars (layer.2 + 1) ||
        layer.1.finalEvals.length != claimCount a layer.2 with
    | some layer => .error (.proofShape layer.2)
    | none => .ok ()

/-- Reduce outputs to claims about the committed columns, or reject. The
transcript returned is the one the run leaves. -/
def verify (a : CircuitArtifact) (proof : GkrProof) (outputs : OutputClaims)
    (challenges : ExternalChallenges) (t : Transcript) :
    Except GkrError (List BaseClaim × Transcript) :=
  match checkChallenges a challenges with
  | .error e => .error e
  | .ok () => match checkShapes a proof outputs with
    | .error e => .error e
    | .ok () =>
      -- O1, O2: the outputs, then the point they are claimed at.
      let t := t.appendScalars TranscriptTag.gkrOutputs outputs.message
      let drawn := t.challengeScalars TranscriptTag.gkrOutputPoint (a.layerVars a.depth)
      match verifyLayers a challenges proof a.depth
          ⟨outputValues a outputs drawn.1, drawn.1⟩ drawn.2 with
      | .error e => .error e
      | .ok (claim, t) => .ok ((a.committed.zip claim.values).map fun pair =>
        ⟨pair.1, claim.point, pair.2⟩, t)

end Apogee
