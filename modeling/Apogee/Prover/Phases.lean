import Apogee.Prover.Setup

/-! # Proving by phases

A shard's GKR part and its opening, and `advance`: the later phases filled in order,
each read back from the archive where it is already held. An archive goes out and
comes back between calls.
-/

namespace Apogee

namespace TranscriptTag

def stackChallenge : ℕ := 42

end TranscriptTag

namespace Sponge

variable (permute : Lanes → Lanes)

/-- One event of the engine's, performed. -/
def Op.ofEvent : TranscriptEvent → Op
  | .absorb tag scalars => .appendScalars tag scalars
  | .challenge tag _ => .challengeScalar tag

/-- The transcript after an engine's events. -/
def replay (events : List TranscriptEvent) (t : Sponge) : Option Sponge :=
  (t.run permute (events.map Op.ofEvent)).map Prod.snd

/-- A transcript as an engine sees it: what it would answer after any events. -/
def transcript (t : Sponge) : Transcript where
  source := fun events tag =>
    match t.run permute (events.map Op.ofEvent ++ [.challengeScalar tag]) with
    | some drawn => drawn.1.getLastD 0
    | none => 0
  events := []

end Sponge

namespace Prover

open Trace (Fault TraceArchive Postcard)

/-- A shard whose family owns no part of the execution's time. -/
def trivialTsWindow : ℕ × ℕ := (0, 2 ^ 38)

/-- A canonical encoding's low 64 bits. -/
def low64 (v : Fr) : ℕ := v.val % 2 ^ 64

/-- A cycle's timestamp, saturating. -/
def cycleTs (cycle : ℕ) : ℕ := min (Clock.tsStep * cycle) (2 ^ 64 - 1)

/-- The shard's claimed time window, off its cycle column. -/
def tsWindow (family : ℕ) (base : BaseLayer) : Outcome (ℕ × ℕ) :=
  if Family.count ≤ family then .error .panicked
  else if ¬ Family.cycleOwning family ∧ (Trace.delegationFrameWords family).isNone then
    .ok trivialTsWindow
  else do
    let cycles ← expect (base.get (.memory 0))
    let top := (cycles.values.map low64).foldl max 0
    .ok (cycleTs (low64 (cycles.get 0)), min (cycleTs top + 4) (2 ^ 64 - 1))

/-- One round's message absorbed, its challenge drawn. -/
def replayRounds (permute : Lanes → Lanes) :
    List RoundPoly → Sponge → Option (List Fr × Sponge)
  | [], t => some ([], t)
  | round :: rounds, t => do
    let t ← t.appendScalars permute TranscriptTag.sumcheckRound round.scalars
    let (r, t) ← t.challengeScalar permute TranscriptTag.sumcheckChallenge
    let (point, t) ← replayRounds permute rounds t
    some (r :: point, t)

/-- One transition of the schedule: the point it leaves. -/
def replayLayer (permute : Lanes → Lanes) (artifact : CircuitArtifact) (proof : GkrProof) (k : ℕ)
    (t : Sponge) : Option (List Fr × Sponge) := do
  let (_, t) ← t.challengeScalar permute TranscriptTag.gkrBatch
  let layer ← proof.layers[k]?
  let (point, t) ← replayRounds permute layer.rounds t
  let t ← t.appendScalars permute TranscriptTag.gkrLayerClaims layer.finalEvals
  if (artifact.layer k).halving then do
    let (child, t) ← t.challengeScalar permute TranscriptTag.gkrChild
    some (point ++ [child], t)
  else some (point, t)

/-- The transitions below layer `k`, from the top down. -/
def replayLayers (permute : Lanes → Lanes) (artifact : CircuitArtifact) (proof : GkrProof) :
    ℕ → List Fr → Sponge → Option (List Fr × Sponge)
  | 0, point, t => some (point, t)
  | k + 1, _, t => do
    let (point, t) ← replayLayer permute artifact proof k t
    replayLayers permute artifact proof k point t

/-- The point every base claim sits at, and the transcript's state after it: the verifier's
schedule replayed over the proof. -/
def replayPoint (permute : Lanes → Lanes) (artifact : CircuitArtifact) (gkr : GkrProof)
    (outputs : List Fr) (start : TranscriptSnapshot) : Option (List Fr × TranscriptSnapshot) := do
  let t ← (Sponge.restore start).appendScalars permute TranscriptTag.gkrOutputs outputs
  let (point, t) ← t.challengeScalars permute TranscriptTag.gkrOutputPoint
    (artifact.layerVars artifact.depth)
  let (point, t) ← replayLayers permute artifact gkr artifact.depth point t
  some (point, t.snapshot)

/-- The output values, which the top layer holds at row 0. -/
def outputValues (artifact : CircuitArtifact) (values : LayerValues) : Option (List Fr) := do
  let top ← values.layers[artifact.depth - 1]?
  artifact.outputs.mapM fun out => match out with
    | .inner _ offset => top[offset]?.map fun column => column.get 0
    | _ => none

/-- The values a shard's opening claims: each stack's columns weighted by the stack
challenges, each setup column alone. -/
def stackValues (values : List Fr) (memory witness : ℕ) (r : List Fr) : List Fr :=
  let weights := (eqPoly r).values
  let stacked := fun columns : List Fr => (Math.chunks weights.length columns).map fun stack =>
    ((stack.zip weights).map fun entry => entry.1 * entry.2).sum
  stacked (values.take memory) ++ stacked ((values.drop memory).take witness) ++
    (values.drop (memory + witness)).map fun v => v * weights.getD 0 0

section Shards

variable (setup : ProverSetup) (engines : Engines)

/-- The shard's steps up to its opening, its transcript seeded by the global digest. -/
def gkrPart (global : GlobalCommitState) (family index : ℕ) (base : BaseLayer) :
    Outcome ShardGkr := do
  let reg ← setup.registration family
  let artifact := reg.circuit.artifact
  let witness ← (List.range artifact.witness.length).mapM fun i => expect (base.get (.witness i))
  let sigma ← stackVars setup.config artifact
  let witnessCommitments ← expect (engines.commitPhase witness sigma)
  let window ← tsWindow family base
  let (seeded, g, beta) :=
    shardTranscript engines.permute global.digest family index window witnessCommitments
  let t := Sponge.of [] seeded
  let challenges ← expect (engines.shardChallenges reg.circuit index global.statement.windows
    global.memoryChallenges g beta)
  let values := forward artifact base challenges
  let outputs ← expect (outputValues artifact values)
  let (gkr, proved) := prove artifact values challenges (t.transcript engines.permute)
  let after ← expect (t.replay engines.permute proved.events)
  let (point, replayed) ← expect (replayPoint engines.permute artifact gkr outputs t.snapshot)
  if replayed = after.snapshot then
    .ok ⟨family, index, window, witnessCommitments, outputs, gkr, point, after⟩
  else .error .panicked

/-- The shard's one batched opening, and its proof. -/
def openingPart (global : GlobalCommitState) (shard : ShardGkr) (base : BaseLayer) :
    Outcome ShardProof := do
  let reg ← setup.registration shard.family
  let artifact := reg.circuit.artifact
  let columns ← artifact.committed.mapM fun address => expect (base.get address)
  let familyIndex ← expect
    (setup.config.families.findIdx? fun entry => entry.1 == shard.family)
  let setupCommitments ← expect setup.vk.setupCommitments[familyIndex]?
  let shards := statementShards setup.config global.statement.shardCounts
  let position ← expect
    (shards.findIdx? fun id => id.family == shard.family && id.index == shard.index)
  let memoryCommitments ← expect global.statement.memoryCommitments[position]?
  let commitments := memoryCommitments ++ shard.witnessCommitments ++ setupCommitments ++
    if reg.circuit.readsGenericTable then List.ofFn setup.vk.genericTable else []
  let sigma ← stackVars setup.config artifact
  let (r, t) ← expect
    (shard.transcript.challengeScalars engines.permute TranscriptTag.stackChallenge sigma)
  let m := artifact.memory.length
  let w := artifact.witness.length
  let opened := Math.chunks (2 ^ sigma) (columns.take m) ++
    Math.chunks (2 ^ sigma) ((columns.drop m).take w) ++
    (columns.drop (m + w)).map fun column => [column]
  let (values, opening) ← expect (engines.batchOpenStacked opened commitments shard.point r
    (t.transcript engines.permute))
  let first ← expect shard.gkr.layers[0]?
  if values = stackValues first.finalEvals m w r then
    .ok
      { family := shard.family
        shardIndex := shard.index
        tsWindow := shard.tsWindow
        globalDigest := global.digest
        witnessCommitments := shard.witnessCommitments
        outputs := shard.outputs
        gkr := shard.gkr
        opening }
  else .error .panicked

end Shards

/-- A parallel step's results in order: a panic is the step's, else the first error. -/
def firstError {α : Type} (results : List (Outcome α)) : Outcome (List α) :=
  if results.any fun result => match result with
    | .error .panicked => true
    | _ => false
  then .error .panicked
  else results.mapM id

section Phases

variable (setup : ProverSetup) (engines : Engines)

/-- The post-commit phase. -/
def commitGlobal (x : Execution) : Outcome GlobalCommitState := do
  let inputs ← setup.statementInputs x
  setup.globalCommitPhase engines inputs

/-- The post-GKR phase: every shard in statement order, each from its own rebuilt columns. -/
def proveGkrs (x : Execution) (global : GlobalCommitState) : Outcome (List ShardGkr) :=
  firstError ((statementShards setup.config global.statement.shardCounts).map fun shard => do
    let base ← setup.shardColumns engines x shard.family shard.index global.statement.windows
    gkrPart setup engines global shard.family shard.index base)

/-- The post-opening phase: every shard's columns rebuilt and opened. -/
def openShards (x : Execution) (global : GlobalCommitState) (gkrs : List ShardGkr) :
    Outcome (List ShardProof) :=
  firstError (gkrs.map fun gkr => do
    let base ← setup.shardColumns engines x gkr.family gkr.index global.statement.windows
    openingPart setup engines global gkr base)

/-- A section that does not decode. -/
def archiveError {α : Type} (phase : Trace.Phase) : Except String α → Outcome α
  | .ok x => .ok x
  | .error why =>
    let name := phase.name
    .error (.refused (.archive s!"{name}: {why}"))

/-- A section the archive does not take. -/
def fillError {α : Type} : Except String α → Outcome α
  | .ok x => .ok x
  | .error why => .error (.refused (.archive why))

/-- A step over the archive: its result, and the archive after it whatever the result. -/
abbrev Advancing (α : Type) := ExceptT (Fault ProverError) (StateM TraceArchive) α

/-- A phase's value: read back if its section is filled, else computed and filled. An encoding
that panics leaves the section empty. -/
def phaseValue {α : Type} (phase : Trace.Phase) (clock : Trace.Phase → UInt64)
    (decode : List UInt8 → Except String α) (encode : α → Option (List UInt8))
    (compute : Execution → Outcome α) : Advancing α := do
  let archive ← get
  match archive.later phase.index with
  | some bytes => archiveError phase (decode bytes)
  | none => do
    let value ← compute archive.execution
    let content ← expect (encode value)
    let filled ← fillError (archive.fill phase content (clock phase))
    set filled
    pure value

/-- The final phase: the complete statement and every proof. -/
def fillFinal (clock : Trace.Phase → UInt64) (global : GlobalCommitState) (proofs : List ShardProof) :
    Advancing Unit := do
  let archive ← get
  if (archive.later Trace.Phase.final.index).isSome then pure () else
    let complete ← publicInputs global proofs
    let content ← expect (encodeFinal complete proofs)
    let filled ← fillError (archive.fill .final content (clock .final))
    set filled

/-- Prove up to and including a phase, filling each later phase in order and timing it. -/
def advance (upTo : Trace.Phase) (clock : Trace.Phase → UInt64) : Advancing Unit := do
  if upTo = .postExecution then pure () else
    let global ← phaseValue .postCommit clock decodeGlobal encodeGlobal (commitGlobal setup engines)
    if upTo = .postCommit then pure () else
      let gkrs ← phaseValue .postGkr clock decodeGkrs encodeGkrs fun x =>
        proveGkrs setup engines x global
      if upTo = .postGkr then pure () else
        let proofs ← phaseValue .postOpening clock decodeProofs encodeProofs fun x =>
          openShards setup engines x global gkrs
        if upTo = .postOpening then pure () else fillFinal clock global proofs

/-- The statement and every shard's proof, from an archive whose final phase is filled. -/
def finish (archive : TraceArchive) : Outcome (PublicInputs × List ShardProof) :=
  match archive.later Trace.Phase.final.index with
  | some bytes => archiveError .final (decodeFinal bytes)
  | none => .error (.refused (.archive "the final phase is empty"))

/-- One move of a resumed run: a call of `advance`, at some clock, or the archive written out
and read back. -/
inductive Move
  | advance (upTo : Trace.Phase) (clock : Trace.Phase → UInt64)
  | roundTrip

/-- The archive after a move, unless it panics or the file is not read back. A refused `advance`
leaves the archive it reached. -/
def perform (postcard : Postcard) (archive : TraceArchive) : Move → Option TraceArchive
  | .advance upTo clock =>
    match (advance setup engines upTo clock).run archive with
    | (.error .panicked, _) => none
    | (_, after) => some after
  | .roundTrip => (archive.roundTrip postcard).toOption

/-- The archive after several moves. -/
def performs (postcard : Postcard) (moves : List Move) (archive : TraceArchive) :
    Option TraceArchive :=
  moves.foldlM (perform setup engines postcard) archive

/-- What a run of moves ends in: the final section's bytes and what `finish` returns. -/
def outcome (postcard : Postcard) (moves : List Move) (archive : TraceArchive) :
    Option (Option (List UInt8) × Outcome (PublicInputs × List ShardProof)) :=
  (performs setup engines postcard moves archive).map fun after =>
    (after.later Trace.Phase.final.index, finish after)

end Phases

end Prover

end Apogee
