import Apogee.Circuit.AddSub
import Apogee.Circuit.Artifact
import Apogee.Circuit.Atomics
import Apogee.Circuit.JumpBranchSlt
import Apogee.Circuit.MemSubword
import Apogee.Circuit.MemWord
import Apogee.Circuit.MulDiv
import Apogee.Circuit.ShiftBitwise

/-! # The registry of circuits

Each family has one circuit at a height: its artifact and its channels' specs.
The artifacts are whatever the families' constructors build; what the registry
itself decides is which families have a circuit, at which heights, and what its
channels are.
-/

namespace Apogee

/-- A family's circuit as a verifying key conveys it. -/
structure FamilyCircuit where
  family : ℕ
  artifact : CircuitArtifact
  channels : List ChannelSpec
deriving DecidableEq

/-- The circuit reads the generic channel. -/
def FamilyCircuit.readsGenericTable (circuit : FamilyCircuit) : Bool :=
  circuit.channels.any fun spec => spec.channel == LookupChannel.generic

namespace Registry

/-- A delegation family's halfword channel. -/
def range16Channel (multiplicity : ℕ) : ChannelSpec :=
  ⟨LookupChannel.range16, [.virtual .range16], .witness multiplicity⟩

/-- A delegation family's timestamp channel. -/
def timestampChannel (multiplicity : ℕ) : ChannelSpec :=
  ⟨LookupChannel.timestamp, [.virtual .range19], .witness multiplicity⟩

def xor8Table : List PolyAddress := [.virtual .xor8A, .virtual .xor8B, .virtual .xor8Out]

def xor8Channel (multiplicity : ℕ) : ChannelSpec :=
  ⟨LookupChannel.xor8, xor8Table, .witness multiplicity⟩

/-- How many delegations the base format's request family knows, and the recursion format's. -/
def types (recursion : Bool) : ℕ := if recursion then 10 else 6

/-- The families only the recursion format holds. -/
def recursionChannels : List (ℕ × List ChannelSpec) :=
  [(Family.fieldWindows, []), (Family.frOp, [range16Channel 30]),
    (Family.p2Field, [range16Channel 381]), (Family.fieldIo, [range16Channel 38]),
    (Family.fqOp, [timestampChannel 71, range16Channel 72])]

/-- Each family's channels. -/
def families (recursion : Bool) : List (ℕ × List ChannelSpec) :=
  [(Family.addSubLuiAuipc, AddSub.channels (types recursion)),
    (Family.jumpBranchSlt, JumpBranchSlt.channels), (Family.shiftBitwise, ShiftBitwise.channels),
    (Family.mulDiv, MulDiv.channels), (Family.memWord, MemWord.channels),
    (Family.memSubword, MemSubword.channels), (Family.atomics, Atomics.channels),
    (Family.initTeardown, []), (Family.zeroWindows, []), (Family.publicOutput, []),
    (Family.publicInput, []), (Family.adviceWindows, []),
    (Family.keccakF, [range16Channel 1554, xor8Channel 1555]), (Family.poseidon2, []),
    (Family.frArith, []), (Family.modMul, [range16Channel 220]),
    (Family.sha256Comp, [range16Channel 518, xor8Channel 519]),
    (Family.ecAdd, [range16Channel 1027])] ++
  if recursion then recursionChannels else []

/-- The channels of a family the registry holds. -/
def channels (recursion : Bool) (family : ℕ) : Option (List ChannelSpec) :=
  (families recursion).lookup family

/-- How many variables a circuit needs to hold a channel's table. The source indexes its
tables by the channel. -/
def tableVars (channel : ℕ) : ℕ :=
  if channel = LookupChannel.xor8 then 2 * 8
  else if LookupChannel.isRange.getD channel false then LookupChannel.bits.getD channel 0
  else 0

/-- The most any one of the channels' tables needs. -/
def minimumTraceVars (specs : List ChannelSpec) : ℕ :=
  (specs.map fun spec => tableVars spec.channel).foldr max 0

/-- The circuit that proves a family over `2 ^ traceVars` rows, if the registry holds one. -/
def circuit (build : Bool → ℕ → ℕ → CircuitArtifact) (recursion : Bool) (family traceVars : ℕ) :
    Option FamilyCircuit :=
  if CircuitArtifact.MAX_TRACE_VARS < traceVars then none
  else
    match channels recursion family with
    | none => none
    | some specs =>
      if traceVars < minimumTraceVars specs then none
      else some ⟨family, build recursion family traceVars, specs⟩

end Registry

end Apogee
