import Apogee.Transcript.Snapshot
import Apogee.Verifier.Block

/-! # The phase sections

What each later phase leaves in the archive, and its encoding: the global commit
state, every shard after its GKR proof, every shard's proof, the complete statement.
Each decoder accepts exactly what its encoder writes of what a prover can hold, so it
refuses every proper prefix and extension of an encoding.
-/

namespace Apogee

open Apogee.Math

namespace Wire

variable {α : Type} {read : Read α} {fits : α → Prop} {write : Writer α}

/-- Nothing is an encoding and a proper prefix of one. -/
theorem whole_append_ne (inverts : Inverts read fits write) {front rest : List UInt8} {x y : α}
    (first : whole read front = .ok x) (second : whole read (front ++ rest) = .ok y) :
    rest = [] := by
  obtain ⟨fitX, wroteX⟩ := (whole_ok inverts).mp first
  obtain ⟨fitY, wroteY⟩ := (whole_ok inverts).mp second
  have short := (inverts (front ++ rest) x rest).mpr ⟨fitX, front, wroteX, rfl⟩
  have long := (inverts (front ++ rest) y []).mpr
    ⟨fitY, front ++ rest, wroteY, (List.append_nil _).symm⟩
  rw [short] at long
  cases long
  rfl

end Wire

/-- What the global commit phase yields: the statement without its roots, the global
transcript, the four memory challenges and the digest. -/
structure GlobalCommitState where
  statement : PublicInputs
  transcript : TranscriptSnapshot
  memoryChallenges : Fin 4 → Fr
  digest : Fr

/-- A shard after its GKR proof, its transcript live. -/
structure ShardGkr where
  family : ℕ
  index : ℕ
  tsWindow : ℕ × ℕ
  witnessCommitments : List (FixedBytes 64)
  outputs : List Fr
  gkr : GkrProof
  /-- The base claims' one point. -/
  point : List Fr
  transcript : Sponge

/-- A shard after its GKR proof, as a section holds it. -/
structure ShardEntry where
  family : ℕ
  index : ℕ
  tsWindow : ℕ × ℕ
  witnessCommitments : List (FixedBytes 64)
  outputs : List Fr
  gkr : GkrProof
  point : List Fr
  transcript : TranscriptSnapshot

def ShardGkr.entry (s : ShardGkr) : ShardEntry :=
  ⟨s.family, s.index, s.tsWindow, s.witnessCommitments, s.outputs, s.gkr, s.point,
    s.transcript.snapshot⟩

def ShardEntry.restore (s : ShardEntry) : ShardGkr :=
  ⟨s.family, s.index, s.tsWindow, s.witnessCommitments, s.outputs, s.gkr, s.point,
    .restore s.transcript⟩

namespace GlobalCommitState

def write : Writer GlobalCommitState := fun g =>
  written [BlockProof.writeStatement g.statement, TranscriptSnapshot.write g.transcript,
    writeEach Write.fr (List.ofFn g.memoryChallenges), Write.fr g.digest]

def read : Read GlobalCommitState := do
  let statement ← BlockProof.readStatement
  let transcript ← TranscriptSnapshot.read
  let memoryChallenges ← array 4 Wire.fr
  let digest ← Wire.fr
  pure ⟨statement, transcript, memoryChallenges, digest⟩

/-- What a global commit phase can hold. -/
structure Fits (g : GlobalCommitState) : Prop where
  statement : g.statement.Fits
  transcript : g.transcript.canonical = true

end GlobalCommitState

namespace ShardEntry

def write : Writer ShardEntry := fun s =>
  written [Write.u32 s.family, Write.u32 s.index, writePair Write.u64 s.tsWindow,
    Write.g1s s.witnessCommitments, Write.frs s.outputs, writeGkr s.gkr, Write.frs s.point,
    TranscriptSnapshot.write s.transcript]

def read : Read ShardEntry := do
  let family ← Wire.u32
  let index ← Wire.u32
  let tsWindow ← readPair Wire.u64
  let witnessCommitments ← Wire.g1s
  let outputs ← Wire.frs
  let gkr ← readGkr
  let point ← Wire.frs
  let transcript ← TranscriptSnapshot.read
  pure ⟨family, index, tsWindow, witnessCommitments, outputs, gkr, point, transcript⟩

/-- What a shard after its GKR proof can hold. -/
structure Fits (s : ShardEntry) : Prop where
  family : s.family < 2 ^ 32
  index : s.index < 2 ^ 32
  tsWindow : s.tsWindow.1 < 2 ^ 64 ∧ s.tsWindow.2 < 2 ^ 64
  transcript : s.transcript.canonical = true

end ShardEntry

/-- Post-commit's section. -/
def encodeGlobal (g : GlobalCommitState) : Option (List UInt8) := GlobalCommitState.write g

def decodeGlobal (bytes : List UInt8) : Except String GlobalCommitState :=
  Wire.whole GlobalCommitState.read bytes

/-- Post-GKR's section: one entry a shard, in statement order. -/
def encodeGkrs (shards : List ShardGkr) : Option (List UInt8) :=
  Write.list ShardEntry.write (shards.map ShardGkr.entry)

def decodeGkrs (bytes : List UInt8) : Except String (List ShardGkr) :=
  (Wire.whole (Wire.list 8 ShardEntry.read) bytes).map fun entries =>
    entries.map ShardEntry.restore

/-- Post-opening's section: every shard's proof, in statement order. -/
def encodeProofs : Writer (List ShardProof) := Write.list BlockProof.writeShard

def readProofs : Read (List ShardProof) := Wire.list 4 BlockProof.readShard

def decodeProofs (bytes : List UInt8) : Except String (List ShardProof) :=
  Wire.whole readProofs bytes

def writeFinal : Writer (PublicInputs × List ShardProof) := fun x =>
  written [BlockProof.writeStatement x.1, encodeProofs x.2]

def readFinal : Read (PublicInputs × List ShardProof) := do
  let statement ← BlockProof.readStatement
  let proofs ← readProofs
  pure (statement, proofs)

/-- Final's section: the complete statement, then every proof. -/
def encodeFinal (statement : PublicInputs) (proofs : List ShardProof) : Option (List UInt8) :=
  writeFinal (statement, proofs)

def decodeFinal (bytes : List UInt8) : Except String (PublicInputs × List ShardProof) :=
  Wire.whole readFinal bytes

section Inversion

theorem statement_inverts :
    Inverts BlockProof.readStatement PublicInputs.Fits BlockProof.writeStatement :=
  Inverts.convert _ PublicInputs.toBytes Wire.bytes_inverts
    (fun _ _ _ => PublicInputs.fromBytes_ok) fun _ _ _ _ => trivial

theorem proofs_inverts :
    Inverts readProofs (fun proofs => ∀ proof ∈ proofs, proof.Fits) encodeProofs := by
  have proofs : Inverts BlockProof.readShard ShardProof.Fits BlockProof.writeShard :=
    Inverts.convert _ ShardProof.toBytes Wire.bytes_inverts
      (fun _ _ _ => ShardProof.fromBytes_ok) fun _ _ _ _ => trivial
  refine Wire.list_inverts proofs fun shard bytes _ wrote => ?_
  obtain ⟨inner, -, outer⟩ := Option.bind_eq_some_iff.mp wrote
  exact prefixed_length outer

theorem global_inverts :
    Inverts GlobalCommitState.read GlobalCommitState.Fits GlobalCommitState.write := by
  have fields : Inverts GlobalCommitState.read (fun g => g.statement.Fits ∧
      g.transcript.canonical = true ∧ (∀ _ : Fin 4, True) ∧ True ∧ True)
      GlobalCommitState.write := by
    unfold GlobalCommitState.read GlobalCommitState.write
    apply Inverts.first GlobalCommitState.statement statement_inverts
    intro statement
    apply Inverts.next GlobalCommitState.transcript TranscriptSnapshot.read_inverts
    intro transcript
    apply Inverts.next GlobalCommitState.memoryChallenges (Wire.fr_inverts.array 4)
    intro memoryChallenges
    apply Inverts.next GlobalCommitState.digest Wire.fr_inverts
    intro digest
    apply Inverts.done
    rintro ⟨⟩
    simp only [GlobalCommitState.mk.injEq, and_assoc]
  refine fields.congr (fun g => ⟨?_, ?_⟩) fun _ => rfl
  · intro fits
    exact ⟨fits.statement, fits.transcript, fun _ => trivial, trivial, trivial⟩
  · intro held
    exact ⟨held.1, held.2.1⟩

theorem entry_inverts : Inverts ShardEntry.read ShardEntry.Fits ShardEntry.write := by
  have fields : Inverts ShardEntry.read (fun s => s.family < 2 ^ 32 ∧ s.index < 2 ^ 32 ∧
      (s.tsWindow.1 < 2 ^ 64 ∧ s.tsWindow.2 < 2 ^ 64) ∧ True ∧ True ∧ True ∧ True ∧
      s.transcript.canonical = true ∧ True) ShardEntry.write := by
    unfold ShardEntry.read ShardEntry.write
    apply Inverts.first ShardEntry.family Wire.u32_inverts
    intro family
    apply Inverts.next ShardEntry.index Wire.u32_inverts
    intro index
    apply Inverts.next ShardEntry.tsWindow (pair_inverts Wire.u64_inverts)
    intro tsWindow
    apply Inverts.next ShardEntry.witnessCommitments Wire.g1s_inverts
    intro witnessCommitments
    apply Inverts.next ShardEntry.outputs Wire.frs_inverts
    intro outputs
    apply Inverts.next ShardEntry.gkr gkr_inverts
    intro gkr
    apply Inverts.next ShardEntry.point Wire.frs_inverts
    intro point
    apply Inverts.next ShardEntry.transcript TranscriptSnapshot.read_inverts
    intro transcript
    apply Inverts.done
    rintro ⟨⟩
    simp only [ShardEntry.mk.injEq, and_assoc]
  refine fields.congr (fun s => ⟨?_, ?_⟩) fun _ => rfl
  · intro fits
    exact ⟨fits.family, fits.index, fits.tsWindow, trivial, trivial, trivial, trivial,
      fits.transcript, trivial⟩
  · rintro ⟨family, index, tsWindow, -, -, -, -, transcript, -⟩
    exact ⟨family, index, tsWindow, transcript⟩

theorem entries_inverts : Inverts (Wire.list 8 ShardEntry.read)
    (fun entries => ∀ entry ∈ entries, entry.Fits) (Write.list ShardEntry.write) := by
  refine Wire.list_inverts entry_inverts fun s bytes _ wrote => ?_
  obtain ⟨family, wroteFamily, others, wroteOthers, rfl⟩ := written_cons_eq_some.mp wrote
  obtain ⟨index, wroteIndex, rest, -, rfl⟩ := written_cons_eq_some.mp wroteOthers
  cases wroteFamily
  cases wroteIndex
  simp only [List.length_append, leBytes_length]
  omega

theorem final_inverts : Inverts readFinal
    (fun x => x.1.Fits ∧ ∀ proof ∈ x.2, proof.Fits) writeFinal := by
  refine (Inverts.first Prod.fst statement_inverts fun statement =>
    Inverts.next Prod.snd proofs_inverts fun proofs =>
    @Inverts.done _ _ _ (statement, proofs) ?_).congr ?_ fun _ => rfl
  · rintro ⟨⟩
    simp only [Prod.mk.injEq]
  · exact fun x => ⟨fun fits => ⟨fits.1, fits.2, trivial⟩, fun fits => ⟨fits.1, fits.2.1⟩⟩

/-- What an encoder writes of a value that fits decodes to it, and no proper prefix or
extension of it decodes. -/
structure Exact {α : Type} (decode : List UInt8 → Except String α) (bytes : List UInt8) (x : α) :
    Prop where
  decodes : decode bytes = .ok x
  extension : ∀ rest y, decode (bytes ++ rest) = .ok y → rest = []
  proper : ∀ front rest y, front ++ rest = bytes → decode front = .ok y → rest = []

theorem exact_of_inverts {α : Type} {read : Read α} {fits : α → Prop} {write : Writer α}
    (inverts : Inverts read fits write) {x : α} {bytes : List UInt8} (fit : fits x)
    (wrote : write x = some bytes) : Exact (Wire.whole read) bytes x := by
  have decodes : Wire.whole read bytes = .ok x := (Wire.whole_ok inverts).mpr ⟨fit, wrote⟩
  refine ⟨decodes, fun rest y longer => Wire.whole_append_ne inverts decodes longer, ?_⟩
  intro front rest y whole shorter
  rw [← whole] at decodes
  exact Wire.whole_append_ne inverts shorter decodes

theorem encodeGlobal_exact {g : GlobalCommitState} {bytes : List UInt8} (fits : g.Fits)
    (wrote : encodeGlobal g = some bytes) : Exact decodeGlobal bytes g :=
  exact_of_inverts global_inverts fits wrote

theorem encodeProofs_exact {proofs : List ShardProof} {bytes : List UInt8}
    (fits : ∀ proof ∈ proofs, proof.Fits) (wrote : encodeProofs proofs = some bytes) :
    Exact decodeProofs bytes proofs := exact_of_inverts proofs_inverts fits wrote

theorem encodeFinal_exact {statement : PublicInputs} {proofs : List ShardProof}
    {bytes : List UInt8} (fits : statement.Fits ∧ ∀ proof ∈ proofs, proof.Fits)
    (wrote : encodeFinal statement proofs = some bytes) :
    Exact decodeFinal bytes (statement, proofs) :=
  @exact_of_inverts _ _ _ _ final_inverts (statement, proofs) _ fits wrote

/-- A post-GKR section decodes to its shards, each transcript restored. -/
theorem encodeGkrs_exact {shards : List ShardGkr} {bytes : List UInt8}
    (fits : ∀ s ∈ shards, s.entry.Fits) (wrote : encodeGkrs shards = some bytes) :
    Exact decodeGkrs bytes (shards.map fun s => s.entry.restore) := by
  have entries : Exact (Wire.whole (Wire.list 8 ShardEntry.read)) bytes
      (shards.map ShardGkr.entry) :=
    exact_of_inverts entries_inverts (List.forall_mem_map.mpr fits) wrote
  have mapped : ∀ {input : List UInt8} {y : List ShardGkr}, decodeGkrs input = .ok y →
      ∃ found, Wire.whole (Wire.list 8 ShardEntry.read) input = .ok found := by
    intro input y decoded
    unfold decodeGkrs at decoded
    cases found : Wire.whole (Wire.list 8 ShardEntry.read) input with
    | ok other => exact ⟨other, rfl⟩
    | error e =>
      rw [found] at decoded
      cases decoded
  refine ⟨?_, fun rest y longer => ?_, fun front rest y whole shorter => ?_⟩
  · rw [decodeGkrs, entries.decodes, Except.map, List.map_map]
    rfl
  · obtain ⟨found, decoded⟩ := mapped longer
    exact entries.extension rest found decoded
  · obtain ⟨found, decoded⟩ := mapped shorter
    exact entries.proper front rest found whole decoded

end Inversion

end Apogee
