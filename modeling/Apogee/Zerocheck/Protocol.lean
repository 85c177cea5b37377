import Apogee.Poly.Refines
import Apogee.Gkr.Prove

/-! # The zerocheck

A gate is a formula of degree two at most over named columns. The prover shows that
it vanishes on the whole cube by one sumcheck of the gate weighted by equality with a
random point; the verifier checks its rounds and leaves the columns' values at the
bound point as a claim. A missing value is a panic of the source.
-/

namespace Apogee

def TranscriptTag.sumcheckFinalEvals : ℕ := 9

namespace Zerocheck

/-- The identifier of a polynomial. -/
structure PolyAddress where
  index : UInt32
deriving DecidableEq

/-- One term of a formula: a coefficient and one or two inputs. -/
structure GateTerm where
  coef : Fr
  a : ℕ
  b : Option ℕ
deriving DecidableEq

/-- Why a gate could not be built. -/
inductive GateError
  | noInputs
  | duplicateInput (input : ℕ)
  | termIndexOutOfRange (term index : ℕ)
deriving DecidableEq

/-- A formula over named inputs. -/
structure Gate where
  inputs : List PolyAddress
  terms : List GateTerm
deriving DecidableEq

/-- The inputs a term names. -/
def GateTerm.indices (term : GateTerm) : List ℕ := term.a :: term.b.toList

/-- Declare a gate: some inputs, no two alike, and terms over these. -/
def Gate.new (inputs : List PolyAddress) (terms : List GateTerm) : Except GateError Gate :=
  if inputs = [] then .error .noInputs
  else match inputs.zipIdx.find? fun input => input.1 ∈ inputs.take input.2 with
    | some input => .error (.duplicateInput input.2)
    | none =>
      match (terms.zipIdx.flatMap fun term => term.1.indices.map fun index => (term.2, index)).find?
          fun named => inputs.length ≤ named.2 with
      | some named => .error (.termIndexOutOfRange named.1 named.2)
      | none => .ok ⟨inputs, terms⟩

/-- A term at one point. -/
def GateTerm.evaluate (inputValues : List Fr) (term : GateTerm) : Option Fr := do
  let a ← inputValues[term.a]?
  let v := term.coef * a
  match term.b with
  | some b => do
    let b ← inputValues[b]?
    pure (v * b)
  | none => pure v

/-- The formula at one point. -/
def Gate.evaluate (inputValues : List Fr) (gate : Gate) : Option Fr := do
  guard (inputValues.length = gate.inputs.length)
  gate.terms.foldlM (fun acc term => do
    let v ← term.evaluate inputValues
    pure (acc + v)) 0

/-- What a verified zerocheck leaves for the caller to discharge. -/
structure SumcheckClaim where
  point : List Fr
  finalEvals : List Fr
deriving DecidableEq

/-- Why a zerocheck was rejected. -/
inductive SumcheckError
  | roundCountMismatch (expected found : ℕ)
  | finalEvalCountMismatch (expected found : ℕ)
  | roundSumMismatch (round : ℕ)
  | finalEvalMismatch
deriving DecidableEq

/-! ## Prover -/

/-- One row pair's share of a round: at each node the weighted gate is added, then equality
and every column step along their lines. -/
def walkPair (gate : Gate) (eqStep : Fr) (step : List Fr) :
    List Fr → Fr → List Fr → Option (List Fr)
  | [], _, _ => some []
  | a :: acc, eqCur, cur => do
    let v ← gate.evaluate cur
    let later ← walkPair gate eqStep step acc (eqCur + eqStep) (List.zipWith (· + ·) cur step)
    pure ((a + eqCur * v) :: later)

/-- A round's cubic at `0, 1, 2, 3`. -/
def roundEvaluations (gate : Gate) (polys : List Poly.MultilinearPoly)
    (eq : Poly.MultilinearPoly) : Option (List Fr) :=
  (List.range (eq.len / 2)).foldlM (fun acc j => do
    let lo ← polys.mapM fun p => p.get (2 * j)
    let hi ← polys.mapM fun p => p.get (2 * j + 1)
    let eqLo ← eq.get (2 * j)
    let eqHi ← eq.get (2 * j + 1)
    walkPair gate (eqHi - eqLo) (List.zipWith (· - ·) hi lo) acc eqLo lo) [0, 0, 0, 0]

/-- The cubic through a round's four values. -/
def roundMessage (gate : Gate) (polys : List Poly.MultilinearPoly) (eq : Poly.MultilinearPoly) :
    Option RoundPoly := do
  let v ← roundEvaluations gate polys eq
  pure (interpolateCubic (v.getD 0 0) (v.getD 1 0) (v.getD 2 0) (v.getD 3 0))

/-- The rounds, prover half: a message, a challenge, and every table bound to it. -/
def proveRounds (gate : Gate) : ℕ → List Poly.MultilinearPoly → Poly.MultilinearPoly → Transcript →
    Option (List RoundPoly × List Poly.MultilinearPoly × Transcript)
  | 0, polys, _, t => some ([], polys, t)
  | rest + 1, polys, eq, t => do
    let coefficients ← roundMessage gate polys eq
    let t := t.appendScalars TranscriptTag.sumcheckRound coefficients.scalars
    let c := t.draw TranscriptTag.sumcheckChallenge
    let bound ← polys.mapM fun p => p.bind c
    let eq ← eq.bind c
    let (rounds, polys, t) ←
      proveRounds gate rest bound eq (t.drawn TranscriptTag.sumcheckChallenge)
    pure (coefficients :: rounds, polys, t)

/-- Prove that the gate vanishes on the whole cube of the columns, which are left bound. -/
def proveZerocheck (gate : Gate) (polys : List Poly.MultilinearPoly) (t : Transcript) :
    Option (SumcheckProof × List Poly.MultilinearPoly × Transcript) := do
  guard (polys.length = gate.inputs.length)
  let first ← polys[0]?
  let n := first.numVars
  guard (∀ p ∈ polys, p.numVars = n)
  let drawn := t.challengeScalars TranscriptTag.sumcheckChallenge n
  let table ← Poly.eqTable drawn.1
  let eq ← Poly.MultilinearPoly.new (.fr table)
  let (rounds, polys, t) ← proveRounds gate n polys eq drawn.2
  let finalEvals ← polys.mapM fun p => p.get 0
  pure (⟨rounds, finalEvals⟩, polys, t.appendScalars TranscriptTag.sumcheckFinalEvals finalEvals)

/-! ## Verifier -/

/-- The rounds, verifier half: the bound point and the last claim. -/
def verifyRounds : ℕ → Fr → List RoundPoly → Transcript →
    Except SumcheckError (List Fr × Fr × Transcript)
  | _, claim, [], t => .ok ([], claim, t)
  | round, claim, g :: rounds, t =>
    if cubic g 0 + cubic g 1 ≠ claim then .error (.roundSumMismatch round)
    else
      let t := t.appendScalars TranscriptTag.sumcheckRound g.scalars
      let c := t.draw TranscriptTag.sumcheckChallenge
      match verifyRounds (round + 1) (cubic g c) rounds
          (t.drawn TranscriptTag.sumcheckChallenge) with
      | .error e => .error e
      | .ok (point, claim, t) => .ok (c :: point, claim, t)

/-- Check a proof. The transcript returned is the one an accepting run leaves. -/
def verifyZerocheck (gate : Gate) (nVars : ℕ) (proof : SumcheckProof) (t : Transcript) :
    Option (Except SumcheckError (SumcheckClaim × Transcript)) :=
  if proof.rounds.length ≠ nVars then
    some (.error (.roundCountMismatch nVars proof.rounds.length))
  else if proof.finalEvals.length ≠ gate.inputs.length then
    some (.error (.finalEvalCountMismatch gate.inputs.length proof.finalEvals.length))
  else
    let drawn := t.challengeScalars TranscriptTag.sumcheckChallenge nVars
    match verifyRounds 0 0 proof.rounds drawn.2 with
    | .error e => some (.error e)
    | .ok (point, claim, t) => do
      let t := t.appendScalars TranscriptTag.sumcheckFinalEvals proof.finalEvals
      let eq ← Poly.eqEval drawn.1 point
      let value ← gate.evaluate proof.finalEvals
      if eq * value ≠ claim then pure (.error .finalEvalMismatch)
      else pure (.ok (⟨point, proof.finalEvals⟩, t))

end Zerocheck

end Apogee
