import Apogee.Verifier.Types
import Apogee.Verifier.Windows

/-! # The statement's shards

A statement lists its shards in one order: the initial image's, the zero windows',
then every other family's ascending, each family's shards ascending.
-/

namespace Apogee

/-- Each family of a config and its shard count, in the transcript's group order. -/
def groups (config : VmConfig) (shardCounts : List ℕ) : List (ℕ × ℕ) :=
  let pairs := (config.families.zip shardCounts).map fun entry => (entry.1.1, entry.2)
  pairs.filter (fun group => group.1 == Family.initTeardown) ++
    pairs.filter (fun group => group.1 == Family.zeroWindows) ++
    pairs.filter (fun group => group.1 != Family.initTeardown && group.1 != Family.zeroWindows)

/-- A statement's shards in statement order. The source asserts one count a family. -/
def statementShards (config : VmConfig) (shardCounts : List ℕ) : List ShardId :=
  (groups config shardCounts).flatMap fun group =>
    (List.range group.2).map fun index => ⟨group.1, index⟩

end Apogee

/-! ## The statement's transcripts

The identity and SRS sponges, the global transcript and the shard transcripts.
`none` is an assertion of the source that fails, a caller's error.
-/

namespace Apogee

open Duplex

variable (permute : Lanes → Lanes)

/-- `constants::PROTOCOL_VERSION`. -/
def protocolVersion : ℕ := 0

/-- A config's message: the family ids, their heights, the bytecode ceiling. -/
def VmConfig.scalars (config : VmConfig) : List Fr :=
  config.families.map (fun entry : ℕ × ℕ => (entry.1 : Fr)) ++
    config.families.map (fun entry : ℕ × ℕ => (entry.2 : Fr)) ++ [(config.bytecodeSizeWords : Fr)]

def absorbVmConfig (config : VmConfig) (t : Duplex) : Duplex :=
  t.appendScalars permute TranscriptTag.vmConfig config.scalars

/-- The config, one shard count a family, and the RAM window list. -/
def absorbStatementDescriptor (config : VmConfig) (shardCounts windows : List ℕ) (t : Duplex) :
    Option Duplex :=
  if shardCounts.length = config.families.length then
    let t := absorbVmConfig permute config t
    let t := t.appendScalars permute TranscriptTag.shardCounts
      (shardCounts.map fun count : ℕ => (count : Fr))
    some (t.appendScalars permute TranscriptTag.memoryWindows
      (windows.map fun window : ℕ => (window : Fr)))
  else none

/-- What the identity's sponge absorbs over given setup commitments. -/
def identitySponge (codeVersion : ℕ) (config : VmConfig) (entryPc : ℕ)
    (commitments : List (List (FixedBytes 64))) : Option Duplex :=
  if commitments.length = config.families.length then
    let t := new.appendScalar permute TranscriptTag.programIdentity (codeVersion : Fr)
    let t := absorbVmConfig permute config t
    let t := t.appendScalar permute TranscriptTag.programEntry (entryPc : Fr)
    some (commitments.foldl
      (fun t points => t.appendG1Points permute TranscriptTag.commitment points) t)
  else none

def identityDigest (codeVersion : ℕ) (config : VmConfig) (entryPc : ℕ)
    (commitments : List (List (FixedBytes 64))) : Option Fr :=
  (identitySponge permute codeVersion config entryPc commitments).map fun t =>
    (t.sample permute).1

/-- The verifier's points and the generic table's three commitments. -/
def srsDigest (srsVerifier : FixedBytes 320) (genericTable : Fin 3 → FixedBytes 64) : Fr :=
  let t := new.appendBytes permute TranscriptTag.srsVerifier srsVerifier.1
  let t := t.appendG1Points permute TranscriptTag.genericTable (List.ofFn genericTable)
  (t.sample permute).1

/-- One family's commitment lists, taken from those left. -/
def absorbLists : ℕ → List (List (FixedBytes 64)) → Duplex →
    Option (List (List (FixedBytes 64)) × Duplex)
  | 0, lists, t => some (lists, t)
  | _ + 1, [], _ => none
  | count + 1, list :: lists, t =>
    absorbLists count lists (t.appendG1Points permute TranscriptTag.commitment list)

/-- Each family's group: its id and shard count, then its shards' lists. -/
def absorbGroups : List (ℕ × ℕ) → List (List (FixedBytes 64)) → Duplex →
    Option (List (List (FixedBytes 64)) × Duplex)
  | [], lists, t => some (lists, t)
  | (family, count) :: others, lists, t => do
    let t := t.appendScalars permute TranscriptTag.memoryGroup [(family : Fr), (count : Fr)]
    let (left, t) ← absorbLists permute count lists t
    absorbGroups others left t

/-- What the global transcript yields. -/
structure GlobalTranscript where
  transcript : Duplex
  /-- The four memory challenges. -/
  memory : List Fr
  digest : Fr

/-- The global transcript over the three things it reads of a key. -/
def globalTranscript (srsDigest : Fr) (config : VmConfig) (identity : Fr)
    (statement : PublicInputs) : Option GlobalTranscript := do
  let t := new.appendScalar permute TranscriptTag.protocolSuite (protocolVersion : Fr)
  let t := t.appendScalar permute TranscriptTag.srsDigest srsDigest
  let t ← absorbStatementDescriptor permute config statement.shardCounts statement.windows t
  let t := t.appendScalar permute TranscriptTag.programIdentity identity
  let io := ioDigest permute statement.input statement.output
  let t := t.appendBytes permute TranscriptTag.publicInputs (Math.leBytes 32 io.val)
  let (left, t) ← absorbGroups permute (groups config statement.shardCounts)
    statement.memoryCommitments t
  if left = [] then
    let t := t.appendScalars permute TranscriptTag.memoryBoundary
      (boundaryScalars statement.boundary)
    let (memory, t) := t.challengeScalars permute TranscriptTag.memoryChallenge 4
    let (digest, t) := t.challengeScalar permute TranscriptTag.globalStateDigest
    some ⟨t, memory, digest⟩
  else none

/-- A shard transcript through its two lookup challenges. -/
def shardTranscript (digest : Fr) (family index : ℕ) (tsWindow : ℕ × ℕ)
    (witnessCommitments : List (FixedBytes 64)) : Duplex × Fr × Fr :=
  let t := new.appendScalars permute TranscriptTag.shardSeed
    [digest, (family : Fr), (index : Fr)]
  let t := t.appendScalars permute TranscriptTag.shardTsWindow
    [(tsWindow.1 : Fr), (tsWindow.2 : Fr)]
  let t := t.appendG1Points permute TranscriptTag.commitment witnessCommitments
  let (g, t) := t.challengeScalar permute TranscriptTag.lookupChallenge
  let (beta, t) := t.challengeScalar permute TranscriptTag.lookupChallenge
  (t, g, beta)

end Apogee
