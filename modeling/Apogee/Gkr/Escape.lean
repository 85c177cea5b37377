import Apogee.Gkr.Completeness
import Apogee.Math.Lines

/-! # Where a false claim can escape

A verifier's run is followed event by event. Before each challenge is drawn, the
events so far and the committed columns fix one polynomial, and a false claim
can come true at that challenge only when it is a root.
-/

namespace Apogee

open Apogee.Math Finset

/-- Where a verifier stands in a run. -/
inductive Phase
  | start
  | output (drawn : List Fr)
  | batch (k : ℕ) (claim : LayerClaim)
  | rounds (k : ℕ) (claim : LayerClaim) (lambda : Fr) (rho message : List Fr)
  | child (k : ℕ) (rho evals : List Fr)
  | done (claim : LayerClaim)

namespace Phase

/-- The next transition, from a claim on layer `k`. -/
def below : ℕ → LayerClaim → Phase
  | 0, claim => done claim
  | k + 1, claim => batch k claim

/-- The output point's draws, once some are made. -/
def drawing (a : CircuitArtifact) (outputs : OutputClaims) (drawn : List Fr) : Phase :=
  if drawn.length = a.layerVars a.depth then
    below a.depth ⟨outputValues a outputs drawn, drawn⟩
  else output drawn

/-- Follow one event of a run. -/
def step (a : CircuitArtifact) (outputs : OutputClaims) : Phase → TranscriptEvent → Phase
  | start, .absorb _ _ => drawing a outputs []
  | output drawn, .challenge _ r => drawing a outputs (drawn ++ [r])
  | batch k claim, .challenge _ r => rounds k claim r [] []
  | rounds k claim lambda rho _, .absorb tag scalars =>
    if tag = TranscriptTag.gkrLayerClaims then
      if (a.layer k).halving then child k rho scalars else below k ⟨scalars, rho⟩
    else rounds k claim lambda rho scalars
  | rounds k claim lambda rho _, .challenge _ r => rounds k claim lambda (rho ++ [r]) []
  | child k rho evals, .challenge _ r => below k ⟨layerValues a k evals r, rho ++ [r]⟩
  | phase, _ => phase

/-- Where a run stands after its events. -/
def after (a : CircuitArtifact) (outputs : OutputClaims) (events : List TranscriptEvent) : Phase :=
  events.foldl (step a outputs) start

/-- The tag of the challenge that comes next. -/
def tag : Phase → ℕ
  | output _ => TranscriptTag.gkrOutputPoint
  | batch _ _ => TranscriptTag.gkrBatch
  | rounds _ _ _ _ _ => TranscriptTag.sumcheckChallenge
  | child _ _ _ => TranscriptTag.gkrChild
  | _ => 0

/-- The degree that the polynomial of a draw has at most: the gates of a batch,
less one; three for a round; one for a coordinate of the output point and for a
child. -/
def degree (a : CircuitArtifact) : Phase → ℕ
  | batch k _ => (a.layer k).producing.length + (a.layer k).enforcing.length - 1
  | rounds _ _ _ _ _ => 3
  | _ => 1

end Phase

section Escape

variable (a : CircuitArtifact) (base : BaseLayer) (challenges : ExternalChallenges)

/-- The enforcing gates of a list, as tables of rows. -/
def enforcingTables (k : ℕ) : List (ℕ → Fr) :=
  (List.range (a.layer k).enforcing.length).map fun e =>
    gateOnRow a challenges (forward a base challenges) k ((a.layer k).producing.length + e)

/-- The enforcing gates of the list below layer `k`. -/
def enforcingBelow : ℕ → List (ℕ → Fr)
  | 0 => []
  | k + 1 => enforcingTables a base challenges k

/-- The tables that must not vanish at the output point: how the outputs differ
from the top layer, or the enforcing gates below it. -/
def outputTables (outputs : OutputClaims) : List (ℕ → Fr) :=
  let top := topOutputs a (forward a base challenges)
  if outputs ≠ top then
    (outputs.tables.zip top.tables).map fun pair row => pair.1.get row - pair.2.get row
  else enforcingBelow a base challenges a.depth

/-- The honest prover's state at a bound point. -/
def honestState (k : ℕ) (point rho : List Fr) : SumcheckState :=
  rho.foldl (fun s r => s.bind r)
    ⟨eqPoly point, layerTables a k (columnsAt base challenges a k), []⟩

/-- The batch weights of a list. -/
def listWeights (k : ℕ) (lambda : Fr) : List Fr :=
  powers lambda ((a.layer k).producing.length + (a.layer k).enforcing.length)

/-- The honest prover's round message at a bound point. -/
def honestMessage (k : ℕ) (lambda : Fr) (point rho : List Fr) : RoundPoly :=
  (honestState a base challenges k point rho).message (ResolvedList.new a k challenges)
    (listKinds a k) (listWeights a k lambda) (rowVars a k - rho.length - 1)

/-- A round message from its scalars. -/
def RoundPoly.ofScalars (scalars : List Fr) : RoundPoly :=
  ⟨scalars.getD 0 0, scalars.getD 1 0, scalars.getD 2 0, scalars.getD 3 0⟩

/-- The coefficients of the polynomial whose roots the next challenge must avoid,
fixed by where the run stands. -/
def escape (outputs : OutputClaims) : Phase → List Fr
  | .output drawn =>
    firstLine (linePairs ((outputTables a base challenges outputs).map (bindAll drawn))
      (a.layerVars a.depth - drawn.length - 1))
  | .batch k claim =>
    List.zipWith (· - ·) claim.values (trueValues base challenges a (k + 1) claim.point) ++
      (enforcingTables a base challenges k).map fun table => -extension claim.point table
  | .rounds k claim lambda rho message =>
    let sent := RoundPoly.ofScalars message
    let honest := honestMessage a base challenges k lambda claim.point rho
    if cubic sent 0 + cubic sent 1 ≠ cubic honest 0 + cubic honest 1 then
      List.zipWith (· - ·) sent.scalars honest.scalars
    else firstLine (linePairs ((enforcingBelow a base challenges k).map (bindAll rho))
      (a.layerVars k - rho.length - 1))
  | .child k rho evals =>
    let honest := trueEvals a k (columnsAt base challenges a k) rho
    if evals ≠ honest then firstLine (chunkPairs (List.zipWith (· - ·) evals honest))
    else firstLine (linePairs ((enforcingBelow a base challenges k).map (bindAll rho)) 0)
  | _ => []

/-- A challenge is a root of the polynomial of its draw, which is not zero and of
the degree of its phase. -/
def Hits (outputs : OutputClaims) (phase : Phase) (r : Fr) : Prop :=
  let polynomial := ofCoeffs (escape a base challenges outputs phase)
  polynomial ≠ 0 ∧ polynomial.natDegree ≤ phase.degree a ∧ polynomial.IsRoot r

/-- Some challenge of a run hits the polynomial that the events before it fix. -/
def Escaped (outputs : OutputClaims) (start events : List TranscriptEvent) : Prop :=
  ∃ before r later, events =
      start ++ before ++ .challenge (Phase.after a outputs before).tag r :: later ∧
    Hits a base challenges outputs (Phase.after a outputs before) r

end Escape

section Following

variable {a : CircuitArtifact} {base : BaseLayer} {challenges : ExternalChallenges}
  {outputs : OutputClaims} {start : List TranscriptEvent}

theorem Escaped.mono {events more : List TranscriptEvent} (extends_ : events <+: more)
    (escaped : Escaped a base challenges outputs start events) :
    Escaped a base challenges outputs start more := by
  obtain ⟨before, r, later, rfl, hits⟩ := escaped
  obtain ⟨rest, rfl⟩ := extends_
  exact ⟨before, r, later ++ rest, by rw [List.append_assoc, List.cons_append], hits⟩

/-- A transcript stands at a phase of a run. -/
def StandsAt (a : CircuitArtifact) (outputs : OutputClaims) (start : List TranscriptEvent)
    (t : Transcript) (phase : Phase) : Prop :=
  ∃ before, t.events = start ++ before ∧ Phase.after a outputs before = phase

theorem StandsAt.absorb {t : Transcript} {phase : Phase} (at_ : StandsAt a outputs start t phase)
    (tag : ℕ) (scalars : List Fr) : StandsAt a outputs start (t.appendScalars tag scalars)
      (phase.step a outputs (.absorb tag scalars)) := by
  obtain ⟨before, events, rfl⟩ := at_
  refine ⟨before ++ [.absorb tag scalars], ?_, ?_⟩
  · rw [Transcript.appendScalars, events, List.append_assoc]
  · rw [Phase.after, List.foldl_append]
    rfl

theorem StandsAt.drawn {t : Transcript} {phase : Phase} (at_ : StandsAt a outputs start t phase)
    (tag : ℕ) : StandsAt a outputs start (t.drawn tag)
      (phase.step a outputs (.challenge tag (t.draw tag))) := by
  obtain ⟨before, events, rfl⟩ := at_
  refine ⟨before ++ [.challenge tag (t.draw tag)], ?_, ?_⟩
  · rw [Transcript.drawn, events, List.append_assoc]
  · rw [Phase.after, List.foldl_append]
    rfl

/-- A root drawn where its polynomial is fixed is an escape. -/
theorem StandsAt.escaped {t : Transcript} {phase : Phase} (at_ : StandsAt a outputs start t phase)
    (hits : Hits a base challenges outputs phase (t.draw phase.tag)) :
    Escaped a base challenges outputs start (t.drawn phase.tag).events := by
  obtain ⟨before, events, rfl⟩ := at_
  exact ⟨before, _, [], by rw [Transcript.drawn, events], hits⟩

theorem Transcript.appendScalars_extends (tag : ℕ) (scalars : List Fr) (t : Transcript) :
    t.events <+: (t.appendScalars tag scalars).events := List.prefix_append _ _

theorem Transcript.drawn_extends (tag : ℕ) (t : Transcript) : t.events <+: (t.drawn tag).events :=
  List.prefix_append _ _

/-- What an accepted round says. -/
theorem verifySumcheck_cons {claim last : Fr} {g : RoundPoly} {rounds : List RoundPoly}
    {rho : List Fr} {t t' : Transcript}
    (accepted : verifySumcheck claim (g :: rounds) t = some (rho, last, t')) :
    let absorbed := t.appendScalars TranscriptTag.sumcheckRound g.scalars
    let r := absorbed.draw TranscriptTag.sumcheckChallenge
    cubic g 0 + cubic g 1 = claim ∧ ∃ rest, rho = r :: rest ∧
      verifySumcheck (cubic g r) rounds (absorbed.drawn TranscriptTag.sumcheckChallenge) =
        some (rest, last, t') := by
  intro absorbed r
  by_cases sum : cubic g 0 + cubic g 1 = claim
  · rw [verifySumcheck, if_neg (not_not_intro sum)] at accepted
    cases found : verifySumcheck (cubic g r) rounds
        (absorbed.drawn TranscriptTag.sumcheckChallenge) with
    | none =>
      simp only [absorbed, r] at found
      simp only [found] at accepted
      cases accepted
    | some rest =>
      obtain ⟨point, lastClaim, t''⟩ := rest
      simp only [absorbed, r] at found
      simp only [found, Option.some.injEq, Prod.mk.injEq] at accepted
      obtain ⟨rfl, rfl, rfl⟩ := accepted
      exact ⟨sum, point, rfl, rfl⟩
  · rw [verifySumcheck, if_pos sum] at accepted
    cases accepted

/-- The rounds only add events. -/
theorem verifySumcheck_extends {claim last : Fr} {rounds : List RoundPoly} {rho : List Fr}
    {t t' : Transcript} (accepted : verifySumcheck claim rounds t = some (rho, last, t')) :
    t.events <+: t'.events := by
  induction rounds generalizing claim rho t with
  | nil =>
    rw [verifySumcheck, Option.some.injEq, Prod.mk.injEq, Prod.mk.injEq] at accepted
    rw [accepted.2.2]
  | cons g rounds ih =>
    obtain ⟨-, rest, -, later⟩ := verifySumcheck_cons accepted
    exact ((Transcript.appendScalars_extends _ _ _).trans
      (Transcript.drawn_extends _ _)).trans (ih later)

theorem verifySumcheck_length {claim last : Fr} {rounds : List RoundPoly} {rho : List Fr}
    {t t' : Transcript} (accepted : verifySumcheck claim rounds t = some (rho, last, t')) :
    rho.length = rounds.length := by
  induction rounds generalizing claim rho t with
  | nil =>
    rw [verifySumcheck, Option.some.injEq, Prod.mk.injEq] at accepted
    obtain ⟨rfl, -⟩ := accepted
    rfl
  | cons g rounds ih =>
    obtain ⟨-, rest, rfl, later⟩ := verifySumcheck_cons accepted
    rw [List.length_cons, ih later, List.length_cons]

/-- What an accepted transition says. -/
theorem verifyLayer_ok {k : ℕ} {proof : SumcheckProof} {claim next : LayerClaim}
    {t t' : Transcript} (accepted : verifyLayer a challenges k proof claim t = .ok (next, t')) :
    let weights := listWeights a k (t.draw TranscriptTag.gkrBatch)
    ∃ rho last t₁, verifySumcheck (batchClaim claim.values weights) proof.rounds
        (t.drawn TranscriptTag.gkrBatch) = some (rho, last, t₁) ∧
      last = eqEval claim.point rho * (ResolvedList.new a k challenges).summand weights
        (finalRead a k proof.finalEvals rho) ∧
      let absorbed := t₁.appendScalars TranscriptTag.gkrLayerClaims proof.finalEvals
      let tau := absorbed.draw TranscriptTag.gkrChild
      next = ⟨layerValues a k proof.finalEvals tau, layerPoint a k rho tau⟩ ∧
        t' = if (a.layer k).halving then absorbed.drawn TranscriptTag.gkrChild else absorbed := by
  intro weights
  rw [verifyLayer] at accepted
  cases found : verifySumcheck (batchClaim claim.values weights) proof.rounds
      (t.drawn TranscriptTag.gkrBatch) with
  | none =>
    simp only [weights, listWeights] at found
    simp only [found] at accepted
    cases accepted
  | some result =>
    obtain ⟨rho, last, t₁⟩ := result
    refine ⟨rho, last, t₁, rfl, ?_⟩
    simp only [weights, listWeights] at found ⊢
    simp only [found] at accepted
    split at accepted
    · cases accepted
    · next check =>
      refine ⟨not_not.mp check, ?_⟩
      cases halving : (a.layer k).halving with
      | false =>
        rw [halving, if_neg Bool.false_ne_true] at accepted
        rw [layerValues, layerPoint, halving]
        rw [Except.ok.injEq, Prod.mk.injEq] at accepted
        exact ⟨accepted.1.symm, accepted.2.symm⟩
      | true =>
        rw [halving, if_pos rfl] at accepted
        rw [layerValues, layerPoint, halving]
        rw [Except.ok.injEq, Prod.mk.injEq] at accepted
        exact ⟨accepted.1.symm, accepted.2.symm⟩

theorem verifyLayer_extends {k : ℕ} {proof : SumcheckProof} {claim next : LayerClaim}
    {t t' : Transcript} (accepted : verifyLayer a challenges k proof claim t = .ok (next, t')) :
    t.events <+: t'.events := by
  obtain ⟨rho, last, t₁, rounds, -, -, rfl⟩ := verifyLayer_ok accepted
  have before := (Transcript.drawn_extends _ _).trans (verifySumcheck_extends rounds)
  have absorbed := before.trans (Transcript.appendScalars_extends TranscriptTag.gkrLayerClaims
    proof.finalEvals t₁)
  split
  · exact absorbed.trans (Transcript.drawn_extends _ _)
  · exact absorbed

theorem verifyLayers_succ {k : ℕ} {proof : GkrProof} {claim last : LayerClaim} {t t' : Transcript}
    (accepted : verifyLayers a challenges proof (k + 1) claim t = .ok (last, t')) :
    ∃ next t₁, verifyLayer a challenges k (proof.layers.getD k ⟨[], []⟩) claim t = .ok (next, t₁) ∧
      verifyLayers a challenges proof k next t₁ = .ok (last, t') := by
  rw [verifyLayers] at accepted
  cases found : verifyLayer a challenges k (proof.layers.getD k ⟨[], []⟩) claim t with
  | error e =>
    rw [found] at accepted
    cases accepted
  | ok result =>
    rw [found] at accepted
    exact ⟨result.1, result.2, rfl, accepted⟩

theorem verifyLayers_extends {k : ℕ} {proof : GkrProof} {claim last : LayerClaim}
    {t t' : Transcript} (accepted : verifyLayers a challenges proof k claim t = .ok (last, t')) :
    t.events <+: t'.events := by
  induction k generalizing claim t with
  | zero =>
    rw [verifyLayers, Except.ok.injEq, Prod.mk.injEq] at accepted
    rw [accepted.2]
  | succ k ih =>
    obtain ⟨next, t₁, here, below⟩ := verifyLayers_succ accepted
    exact (verifyLayer_extends here).trans (ih below)

end Following

end Apogee
