import Apogee.Gkr.Prove
import Apogee.Prover.Sections
import Apogee.Trace.Archive
import Apogee.Verifier.Key

/-! # What proving reads

The setup, an execution's statement, and a shard's columns. The families' fills and the
other crates' engines are any functions of what the source hands them; an assertion
that fails is a panic.
-/

namespace Apogee.Prover

open Apogee.Trace (Fault FamilyTrace DelegationTrace LastAccess CycleProfile)

abbrev Execution := Trace.TraceArchive.Execution

/-- Why the prover stops. -/
inductive ProverError
  | trace (why : String)
  | archive (why : String)
deriving DecidableEq

/-- A result, an error, or a panic. -/
abbrev Outcome (α : Type) := Except (Fault ProverError) α

/-- What must be there. -/
def expect {α : Type} : Option α → Outcome α
  | some x => .ok x
  | none => .error .panicked

/-- A trace's refusal is the prover's. -/
def ofTrace {α : Type} : Except (Fault String) α → Outcome α
  | .ok x => .ok x
  | .error .panicked => .error .panicked
  | .error (.refused why) => .error (.refused (.trace why))

/-- The rows a shard proves, by its family's kind: a cut of a buffer, or the execution's
final state. -/
inductive ShardRows
  | cycles (rows : FamilyTrace)
  | invocations (rows : DelegationTrace)
  | window (state : LastAccess)

/-- What a family's fill reads. -/
structure ShardSource where
  input : List UInt8
  advice : List UInt8
  rows : ShardRows
  index : ℕ
  height : ℕ
  window : ℕ

abbrev Columns := List (PolyAddress × MultilinearPoly)

/-- One family as the setup registers it. -/
structure FamilyRegistration where
  family : ℕ
  height : ℕ
  circuit : FamilyCircuit
  fill : ShardSource → Except (Fault String) Columns

/-- Everything proving one program needs that no execution changes. The program's config is
the key's, and what is registered is its families at their heights. -/
structure ProverSetup where
  families : List FamilyRegistration
  vk : VerifyingKey
  ids : ∀ entry ∈ vk.config.families, entry.1 < 2 ^ 32
  heights : ∀ f ∈ families, (f.family, f.height) ∈ vk.config.families

/-- The engines the phases call: functions of what they are handed. A transcript is handed
over as its source of challenges, the source's own record of events aside. -/
structure Engines where
  permute : Lanes → Lanes
  /-- A channel's multiplicities over the filled columns. -/
  buildMultiplicities : CircuitArtifact → Columns → List ChannelSpec → Except (Fault String) Columns
  /-- A phase's commitments, one a stack of `2 ^ σ` columns. -/
  commitPhase : List MultilinearPoly → ℕ → Option (List (FixedBytes 64))
  shardChallenges : FamilyCircuit → ℕ → List ℕ → (Fin 4 → Fr) → Fr → Fr →
    Option ExternalChallenges
  batchOpenStacked : List (List MultilinearPoly) → List (FixedBytes 64) → List Fr → List Fr →
    Transcript → Option (List Fr × FixedBytes 704)

/-- What the global commit phase takes. -/
structure StatementInputs where
  input : List UInt8
  output : List UInt8
  exitStatus : ℕ
  shardCounts : List ℕ
  windows : List ℕ
  boundary : Memory.BoundaryFinals
  /-- Per shard, in statement order, its memory columns. -/
  memoryColumns : List (List MultilinearPoly)

/-- `verifier_core::STACK_LOG`. -/
def stackLog : ℕ := 24

/-- How many variables a shard stacks its columns under. -/
def stackVars (config : VmConfig) (artifact : CircuitArtifact) : Outcome ℕ :=
  if config.isRecursion then
    let widest := max (max artifact.memory.length artifact.witness.length) 1
    let need := Nat.clog 2 widest
    if artifact.traceVars ≤ stackLog then
      .ok (min (need + need % 2) (stackLog - artifact.traceVars))
    else .error .panicked
  else .ok 0

section Statement

/-- Shard counts from a cycle profile, which must be the config's. -/
def planShards (profile : CycleProfile) (config : VmConfig) : Outcome (List (ℕ × ℕ)) :=
  if profile.counts.map (fun entry => entry.1.toNat) = config.families.map Prod.fst then
    (profile.counts.zip config.families).mapM fun entry =>
      let height := entry.2.2
      let n := (entry.1.2.toNat + height - 1) / height
      if 0 < height ∧ n < 2 ^ 32 then .ok (entry.2.1, n) else .error .panicked
  else .error .panicked

/-- The distinct ordinary windows touched, without the image's. -/
def initWindows (state : LastAccess) (height : ℕ) : List ℕ :=
  (state.touchedRamWindows height).filter (· != 0)

/-- How many words the advice region holds: its length word and its payload, or none. -/
def adviceRegionWords (advice : List UInt8) : ℕ :=
  if advice.isEmpty then 0 else 1 + (advice.length + 3) / 4

def adviceWindowCount (advice : List UInt8) (height : ℕ) : Outcome ℕ :=
  let n := (adviceRegionWords advice + height - 1) / height
  if 0 < height ∧ n < 2 ^ 32 then .ok n else .error .panicked

/-- One count per config family, in its order. -/
def shardCounts (config : VmConfig) (x : Execution) (windows : List ℕ) (height : ℕ) :
    Outcome (List ℕ) := do
  let plan ← planShards x.profile config
  plan.mapM fun entry =>
    if entry.1 = Family.initTeardown then .ok 1
    else if entry.1 = Family.zeroWindows then .ok (windows.length % 2 ^ 32)
    else if entry.1 = Family.publicInput ∨ entry.1 = Family.publicOutput then .ok 1
    else if entry.1 = Family.adviceWindows then adviceWindowCount x.advice height
    else if entry.1 = Family.fieldWindows then do
      let height ← expect (config.height Family.fieldWindows)
      .ok (x.tables.fieldWindows height)
    else .ok entry.2

/-- The window a shard covers; zero, unused, for every family but the window ones. -/
def windowOf (family index : ℕ) (windows : List ℕ) (height : ℕ) : Outcome ℕ :=
  if family = Family.zeroWindows then expect windows[index]?
  else if family = Family.publicInput then .ok Family.publicInputWindow
  else if family = Family.publicOutput then .ok Family.publicOutputWindow
  else if family = Family.adviceWindows then .ok (adviceFirstWindow height + index)
  else if family = Family.fieldWindows then .ok index
  else .ok 0

theorem zeroRegister_lt : 0 < 32 := by decide

theorem exitRegister_lt : 9 < 31 := by decide

/-- `x10` among the registers that hold values. -/
def exitRegister : Fin 31 := ⟨9, exitRegister_lt⟩

/-- The register and pc finals. `x0` ends at 0 and the pc at the halting sentinel. -/
def buildBoundaryFinals (state : LastAccess) : Outcome Memory.BoundaryFinals := do
  let zero := (state.regs ⟨0, zeroRegister_lt⟩).map Prod.snd
  let (pcTs, pcValue) ← expect state.pc
  if zero.getD 0 = 0 ∧ pcValue.toNat = Clock.haltPc then
    .ok
      { regTs := fun r => ((state.regs r).map fun last => last.1.toNat).getD 0
        pcTs := pcTs.toNat
        regValues := fun r => ((state.regs r.succ).map fun last => last.2.toNat).getD 0 }
  else .error .panicked

end Statement

namespace ProverSetup

variable (setup : ProverSetup)

def config : VmConfig := setup.vk.config

def registration (family : ℕ) : Outcome FamilyRegistration :=
  expect (setup.families.find? fun f => f.family == family)

/-- What a shard's fill reads of an archived execution. -/
def shardSource (x : Execution) (family index : ℕ) (windows : List ℕ) : Outcome ShardSource := do
  let reg ← setup.registration family
  let window ← windowOf family index windows reg.height
  let name := Family.name family
  let missing : ProverError := .trace s!"the archive has no {name} buffer"
  let rows ← (if (Trace.delegationFrameWords family).isSome then
      match x.traces.delegation family with
      | some trace => .ok (ShardRows.invocations (Trace.FrameSlice.shard trace index reg.height))
      | none => .error (.refused missing)
    else if Family.cycleOwning family then
      match x.traces.family family with
      | some trace => .ok (ShardRows.cycles (Trace.RowSlice.shard trace index reg.height))
      | none => .error (.refused missing)
    else .ok (ShardRows.window x.tables))
  .ok ⟨x.io.input, x.advice, rows, index, reg.height, window⟩

/-- A family's filled columns and every channel's multiplicities. -/
def shardColumns (engines : Engines) (x : Execution) (family index : ℕ) (windows : List ℕ) :
    Outcome BaseLayer := do
  let source ← setup.shardSource x family index windows
  let reg ← setup.registration family
  let columns ← ofTrace (reg.fill source)
  let counted ← ofTrace
    (engines.buildMultiplicities reg.circuit.artifact columns reg.circuit.channels)
  .ok ⟨columns ++ counted⟩

/-- A memory column's place, if the column is one. -/
def memoryPlace : PolyAddress → Option ℕ
  | .memory i => some i
  | _ => none

/-- A shard's memory columns alone, in layout order: the fill writes each and no other. -/
def shardMemoryColumns (x : Execution) (family index : ℕ) (windows : List ℕ) :
    Outcome (List MultilinearPoly) := do
  let source ← setup.shardSource x family index windows
  let reg ← setup.registration family
  let columns ← ofTrace (reg.fill source)
  let width := reg.circuit.artifact.memory.length
  if columns.all fun column => (memoryPlace column.1).all (· < width) then
    (List.range width).mapM fun i =>
      expect ((columns.reverse.find? fun column => memoryPlace column.1 == some i).map Prod.snd)
  else .error .panicked

/-- The statement an archived execution proves. -/
def statementInputs (x : Execution) : Outcome StatementInputs := do
  let height ← (windowHeight setup.config).mapError fun why => .refused (.trace why)
  let windows := initWindows x.tables height
  let counts ← shardCounts setup.config x windows height
  let boundary ← buildBoundaryFinals x.tables
  let memoryColumns ← (statementShards setup.config counts).mapM fun shard =>
    setup.shardMemoryColumns x shard.family shard.index windows
  .ok
    { input := x.io.input
      output := x.io.output
      exitStatus := boundary.regValues exitRegister
      shardCounts := counts
      windows
      boundary
      memoryColumns }

/-- Every shard's memory columns committed, then the global transcript over the statement. -/
def globalCommitPhase (engines : Engines) (inputs : StatementInputs) :
    Outcome GlobalCommitState := do
  let memoryCommitments ←
    ((statementShards setup.config inputs.shardCounts).zip inputs.memoryColumns).mapM fun entry => do
      let circuit ← expect (setup.vk.circuits.find? fun c => c.family == entry.1.family)
      let sigma ← stackVars setup.config circuit.artifact
      expect (engines.commitPhase entry.2 sigma)
  let statement : PublicInputs :=
    { input := inputs.input
      output := inputs.output
      exitStatus := inputs.exitStatus
      shardCounts := inputs.shardCounts
      windows := inputs.windows
      boundary := inputs.boundary
      memoryCommitments
      memoryRoots := [] }
  let global ← expect (globalTranscript engines.permute setup.vk.srsDigest setup.config
    setup.vk.identity statement)
  .ok
    { statement
      transcript := (Sponge.of [] global.transcript).snapshot
      memoryChallenges := fun i => global.memory.getD i 0
      digest := global.digest }

end ProverSetup

/-- The statement complete: every shard's two memory roots are its proof's first outputs. -/
def publicInputs (global : GlobalCommitState) (proofs : List ShardProof) : Outcome PublicInputs := do
  let memoryRoots ← proofs.mapM fun proof => do
    let read ← expect proof.outputs[0]?
    let write ← expect proof.outputs[1]?
    .ok (read, write)
  .ok { global.statement with memoryRoots }

end Apogee.Prover
