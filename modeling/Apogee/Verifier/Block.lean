import Apogee.Verifier.Absorb

/-! # The block

One execution's shards as one object, and the cross-shard record set, with their
wire forms. A decoded block's statement and proofs are one shard set.
-/

namespace Apogee

open Apogee.Math

/-- One shard's cross-shard record. -/
structure ShardRecord where
  family : ℕ
  shardIndex : ℕ
  tsWindow : ℕ × ℕ
  memoryCommitments : List (FixedBytes 64)
  /-- The read root and the write root. -/
  roots : Fr × Fr

/-- Every shard's record in statement order. -/
structure BlockReconciliation where
  records : List ShardRecord

/-- One execution proven. -/
structure BlockProof where
  config : VmConfig
  statement : PublicInputs
  shards : List ShardProof

/-- Decode an embedded config. -/
def decodeConfig (refusal : String) (bytes : List UInt8) : Except String VmConfig :=
  match VmConfig.fromBytes bytes with
  | some config => .ok config
  | none => .error refusal

def readConfig (refusal : String) : Read VmConfig := convert (decodeConfig refusal) Wire.bytes

def writeConfig : Writer VmConfig := fun config => some config.toBytes >>= Write.bytes

namespace BlockProof

def readStatement : Read PublicInputs := convert PublicInputs.fromBytes Wire.bytes

def readShard : Read ShardProof := convert ShardProof.fromBytes Wire.bytes

def writeStatement : Writer PublicInputs := fun x => x.toBytes >>= Write.bytes

def writeShard : Writer ShardProof := fun x => x.toBytes >>= Write.bytes

def write : Writer BlockProof := fun x =>
  written [writeConfig x.config, writeStatement x.statement, Write.list writeShard x.shards]

def read : Read BlockProof := do
  let config ← readConfig "the block's VmConfig is refused"
  let statement ← readStatement
  let shards ← Wire.list 4 readShard
  pure ⟨config, statement, shards⟩

/-- The encoding, unless a count is above a `u32`. -/
def toBytes (x : BlockProof) : Option (List UInt8) := write x

/-- A proof names another shard than its place in the statement. -/
def misplaced (entry : ShardId × ShardProof) : Bool :=
  entry.2.family != entry.1.family || entry.2.shardIndex != entry.1.index

/-- The structural rule every decoded block keeps. -/
def shape (x : BlockProof) : Except String Unit :=
  let counts := x.statement.shardCounts
  let total := counts.sum
  if counts.length ≠ x.config.families.length then
    .error "the block has not one shard count per config family"
  else if total ≠ x.shards.length ∨ total ≠ x.statement.memoryCommitments.length ∨
      total ≠ x.statement.memoryRoots.length then
    .error "the block has not one proof, commitment list and root pair per shard"
  else if ((statementShards x.config counts).zip x.shards).any misplaced then
    .error "the block's proofs are not the statement's shards, in statement order"
  else .ok ()

/-- Decode a block whose statement and proofs are one shard set. -/
def fromBytes (bytes : List UInt8) : Except String BlockProof := do
  let block ← Wire.whole read bytes
  block.shape
  .ok block

/-- The format's rules. -/
structure Fits (x : BlockProof) : Prop where
  config : x.config.Derived
  statement : x.statement.Fits
  shards : ∀ shard ∈ x.shards, shard.Fits
  shape : x.shape = .ok ()

theorem config_inverts (refusal : String) :
    Inverts (readConfig refusal) VmConfig.Derived writeConfig := by
  refine (Inverts.convert _ (fun config : VmConfig => some config.toBytes) Wire.bytes_inverts
    ?_ ?_).congr (fun _ => Iff.rfl) fun _ => rfl
  · intro bytes config _
    rw [Option.some.injEq, and_comm, ← VmConfig.fromBytes_eq_some, decodeConfig]
    cases VmConfig.fromBytes bytes with
    | none => exact iff_of_false (fun wrong => nomatch wrong) fun wrong => nomatch wrong
    | some found => rw [Except.ok.injEq, Option.some.injEq]
  · exact fun _ _ _ _ => trivial

theorem read_inverts : Inverts read (fun x => x.config.Derived ∧ x.statement.Fits ∧
    (∀ shard ∈ x.shards, shard.Fits) ∧ True) write := by
  have statements : Inverts readStatement PublicInputs.Fits writeStatement :=
    Inverts.convert _ PublicInputs.toBytes Wire.bytes_inverts
      (fun _ _ _ => PublicInputs.fromBytes_ok) fun _ _ _ _ => trivial
  have proofs : Inverts readShard ShardProof.Fits writeShard :=
    Inverts.convert _ ShardProof.toBytes Wire.bytes_inverts
      (fun _ _ _ => ShardProof.fromBytes_ok) fun _ _ _ _ => trivial
  have shards : Inverts (Wire.list 4 readShard) (fun shards => ∀ shard ∈ shards, shard.Fits)
      (Write.list writeShard) := by
    refine Wire.list_inverts proofs fun shard bytes _ wrote => ?_
    obtain ⟨inner, -, outer⟩ := Option.bind_eq_some_iff.mp wrote
    exact prefixed_length outer
  unfold read write
  apply Inverts.first BlockProof.config (config_inverts _)
  intro config
  apply Inverts.next BlockProof.statement statements
  intro statement
  apply Inverts.next BlockProof.shards shards
  intro list
  apply Inverts.done
  rintro ⟨⟩
  simp only [BlockProof.mk.injEq, and_assoc]

/-- The decoder accepts exactly what the encoder writes of the blocks that fit. -/
theorem fromBytes_ok {bytes : List UInt8} {x : BlockProof} :
    fromBytes bytes = .ok x ↔ x.Fits ∧ x.toBytes = some bytes := by
  simp only [fromBytes, bind_ok, Wire.whole_ok read_inverts, Except.ok.injEq]
  constructor
  · rintro ⟨block, ⟨⟨config, statement, shards, -⟩, wrote⟩, _, shaped, rfl⟩
    exact ⟨⟨config, statement, shards, shaped⟩, wrote⟩
  · rintro ⟨fits, wrote⟩
    exact ⟨x, ⟨⟨fits.config, fits.statement, fits.shards, trivial⟩, wrote⟩, (), fits.shape, rfl⟩

/-- Every list, and every encoding embedded in the block's, is shorter than a wire count. -/
structure Short (x : BlockProof) : Prop where
  statement : ∃ bytes, x.statement.toBytes = some bytes ∧ bytes.length < 2 ^ 32
  shards : x.shards.length < 2 ^ 32 ∧
    ∀ shard ∈ x.shards, ∃ bytes, shard.toBytes = some bytes ∧ bytes.length < 2 ^ 32

/-- A derived config's encoding is short. -/
theorem config_isSome {config : VmConfig} (derived : config.Derived) :
    (writeConfig config).isSome := by
  refine Write.embedded_isSome.mpr ⟨config.toBytes, rfl, ?_⟩
  rw [VmConfig.toBytes_length]
  have few := derived.length_le
  have room : Family.count = 23 := rfl
  omega

/-- The encoder returns exactly on the short blocks. -/
theorem toBytes_isSome {x : BlockProof} (derived : x.config.Derived) :
    x.toBytes.isSome ↔ x.Short := by
  simp only [toBytes, write, written_cons_isSome, written_nil_isSome,
    Write.list_isSome, writeStatement, writeShard, Write.embedded_isSome, and_true]
  constructor
  · rintro ⟨-, statement, shards⟩
    exact ⟨statement, shards⟩
  · rintro ⟨statement, shards⟩
    exact ⟨config_isSome derived, statement, shards⟩

end BlockProof

namespace BlockReconciliation

def writeRecord : Writer ShardRecord := fun x =>
  written [Write.u32 x.family, Write.u32 x.shardIndex, writePair Write.u64 x.tsWindow,
    Write.g1s x.memoryCommitments, writePair Write.fr x.roots]

def readRecord : Read ShardRecord := do
  let family ← Wire.u32
  let shardIndex ← Wire.u32
  let tsWindow ← readPair Wire.u64
  let memoryCommitments ← Wire.g1s
  let roots ← readPair Wire.fr
  pure ⟨family, shardIndex, tsWindow, memoryCommitments, roots⟩

def write : Writer BlockReconciliation := fun x => Write.list writeRecord x.records

/-- A record is at least two `u32`s, two `u64`s, an empty list and two field elements. -/
def read : Read BlockReconciliation := do
  let records ← Wire.list (4 + 4 + 8 + 8 + 4 + 32 + 32) readRecord
  pure ⟨records⟩

/-- The encoding, unless a count is above a `u32`. -/
def toBytes (x : BlockReconciliation) : Option (List UInt8) := write x

def fromBytes (bytes : List UInt8) : Except String BlockReconciliation := Wire.whole read bytes

/-- The format's rules: the numbers are their types'. -/
structure RecordFits (x : ShardRecord) : Prop where
  family : x.family < 2 ^ 32
  shardIndex : x.shardIndex < 2 ^ 32
  tsWindow : x.tsWindow.1 < 2 ^ 64 ∧ x.tsWindow.2 < 2 ^ 64

def Fits (x : BlockReconciliation) : Prop := ∀ record ∈ x.records, RecordFits record

theorem record_inverts : Inverts readRecord RecordFits writeRecord := by
  have fields : Inverts readRecord (fun x => x.family < 2 ^ 32 ∧ x.shardIndex < 2 ^ 32 ∧
      (x.tsWindow.1 < 2 ^ 64 ∧ x.tsWindow.2 < 2 ^ 64) ∧ True ∧ (True ∧ True) ∧ True)
      writeRecord := by
    unfold readRecord writeRecord
    apply Inverts.first ShardRecord.family Wire.u32_inverts
    intro family
    apply Inverts.next ShardRecord.shardIndex Wire.u32_inverts
    intro shardIndex
    apply Inverts.next ShardRecord.tsWindow (pair_inverts Wire.u64_inverts)
    intro tsWindow
    apply Inverts.next ShardRecord.memoryCommitments Wire.g1s_inverts
    intro memoryCommitments
    apply Inverts.next ShardRecord.roots (pair_inverts Wire.fr_inverts)
    intro roots
    apply Inverts.done
    rintro ⟨⟩
    simp only [ShardRecord.mk.injEq, and_assoc]
  refine fields.congr (fun x => ⟨?_, ?_⟩) fun _ => rfl
  · rintro ⟨family, shardIndex, tsWindow⟩
    exact ⟨family, shardIndex, tsWindow, trivial, ⟨trivial, trivial⟩, trivial⟩
  · rintro ⟨family, shardIndex, tsWindow, -⟩
    exact ⟨family, shardIndex, tsWindow⟩

theorem record_length {x : ShardRecord} {bytes : List UInt8} (wrote : writeRecord x = some bytes) :
    92 ≤ bytes.length := by
  unfold writeRecord at wrote
  simp only [written_cons_eq_some] at wrote
  obtain ⟨family, wroteFamily, _, ⟨index, wroteIndex, _, ⟨window, wroteWindow, _,
    ⟨points, wrotePoints, _, ⟨roots, wroteRoots, _, empty, rfl⟩, rfl⟩, rfl⟩, rfl⟩, rfl⟩ := wrote
  have counted := counted_length wrotePoints
  cases wroteFamily
  cases wroteIndex
  cases wroteWindow
  cases wroteRoots
  cases empty
  simp only [List.length_append, leBytes_length, List.length_nil]
  omega

theorem read_inverts : Inverts read Fits write := by
  have records : Inverts (Wire.list (4 + 4 + 8 + 8 + 4 + 32 + 32) readRecord)
      (fun records => ∀ record ∈ records, RecordFits record) (Write.list writeRecord) :=
    Wire.list_inverts record_inverts fun _ _ _ wrote => record_length wrote
  have fields : Inverts read (fun x => Fits x ∧ True) fun x =>
      written [Write.list writeRecord x.records] := by
    apply Inverts.first BlockReconciliation.records records
    intro list
    apply Inverts.done
    rintro ⟨⟩
    simp only [BlockReconciliation.mk.injEq]
  exact fields.congr (fun _ => (and_iff_left trivial).symm) fun _ => (written_singleton _).symm

/-- The decoder accepts exactly what the encoder writes of the values that fit. -/
theorem fromBytes_ok {bytes : List UInt8} {x : BlockReconciliation} :
    fromBytes bytes = .ok x ↔ x.Fits ∧ x.toBytes = some bytes := Wire.whole_ok read_inverts

/-- Every list is shorter than a wire count. -/
def Short (x : BlockReconciliation) : Prop :=
  x.records.length < 2 ^ 32 ∧ ∀ record ∈ x.records, record.memoryCommitments.length < 2 ^ 32

/-- The encoder returns exactly on the short values. -/
theorem toBytes_isSome {x : BlockReconciliation} : x.toBytes.isSome ↔ x.Short := by
  have record : ∀ record, (writeRecord record).isSome ↔
      record.memoryCommitments.length < 2 ^ 32 := by
    intro record
    simp only [writeRecord, written_cons_isSome, written_nil_isSome,
      Write.g1s_isSome, and_true]
    exact ⟨fun ⟨_, _, _, short, _⟩ => short, fun short => ⟨rfl, rfl, rfl, short, rfl⟩⟩
  rw [toBytes, write, Write.list_isSome, Short]
  exact and_congr_right fun _ => forall₂_congr fun entry _ => record entry

end BlockReconciliation

end Apogee
