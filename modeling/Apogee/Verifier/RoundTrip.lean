import Apogee.Verifier.Coverage
import Apogee.Verifier.Key

/-! # The wire formats' round trips

Each decoder accepts one encoding of a value, and the encoding of every value that
keeps the format's rules and fits the wire's counts.
-/

namespace Apogee

open Apogee.Math

/-- A wire format: what its decoder accepts is what its encoder writes, and every value that
keeps the rules is read back when its lists fit, which is when the encoder returns. -/
structure RoundTrips {α : Type} (toBytes : α → Option (List UInt8))
    (decodes : List UInt8 → α → Prop) (rules short : α → Prop) : Prop where
  canonical : ∀ bytes x, decodes bytes x → toBytes x = some bytes
  restores : ∀ x, rules x → short x → ∃ bytes, toBytes x = some bytes ∧ decodes bytes x
  encodes : ∀ x, rules x → ((toBytes x).isSome ↔ short x)

/-- A decoder characterized by its encoder round-trips. -/
theorem RoundTrips.of_iff {α : Type} {toBytes : α → Option (List UInt8)}
    {decodes : List UInt8 → α → Prop} {rules short : α → Prop}
    (exact_ : ∀ bytes x, rules x → toBytes x = some bytes → decodes bytes x)
    (canonical : ∀ bytes x, decodes bytes x → toBytes x = some bytes)
    (encodes : ∀ x, rules x → ((toBytes x).isSome ↔ short x)) :
    RoundTrips toBytes decodes rules short where
  canonical := canonical
  restores x kept fits := by
    obtain ⟨bytes, wrote⟩ := Option.isSome_iff_exists.mp ((encodes x kept).mpr fits)
    exact ⟨bytes, wrote, exact_ bytes x kept wrote⟩
  encodes := encodes

/-- The six wire formats round-trip, and no byte string makes the key's loader panic. -/
theorem wire_round_trips (permute : Lanes → Lanes) (rules : CircuitRules) :
    RoundTrips PublicInputs.toBytes (fun bytes x => PublicInputs.fromBytes bytes = .ok x)
      PublicInputs.Fits PublicInputs.Short ∧
    RoundTrips ShardProof.toBytes (fun bytes x => ShardProof.fromBytes bytes = .ok x)
      ShardProof.Fits ShardProof.Short ∧
    RoundTrips BlockProof.toBytes (fun bytes x => BlockProof.fromBytes bytes = .ok x)
      BlockProof.Fits BlockProof.Short ∧
    RoundTrips BlockReconciliation.toBytes
      (fun bytes x => BlockReconciliation.fromBytes bytes = .ok x)
      BlockReconciliation.Fits BlockReconciliation.Short ∧
    RoundTrips (fun config => some config.toBytes)
      (fun bytes config => VmConfig.fromBytes bytes = some config) VmConfig.Derived
      (fun _ => True) ∧
    RoundTrips VerifyingKey.toBytes
      (fun bytes x => VerifyingKey.fromBytes permute rules bytes = .ok x)
      (fun x => x.InRange ∧ x.check permute rules = .ok ()) VerifyingKey.Short ∧
    ∀ bytes, VerifyingKey.fromBytes permute rules bytes ≠ .error .panicked := by
  refine ⟨?_, ?_, ?_, ?_, ?_, ?_, VerifyingKey.total_fromBytes permute rules⟩
  · exact RoundTrips.of_iff (fun _ _ kept wrote => PublicInputs.fromBytes_ok.mpr ⟨kept, wrote⟩)
      (fun _ _ read => (PublicInputs.fromBytes_ok.mp read).2)
      fun _ _ => PublicInputs.toBytes_isSome
  · exact RoundTrips.of_iff (fun _ _ kept wrote => ShardProof.fromBytes_ok.mpr ⟨kept, wrote⟩)
      (fun _ _ read => (ShardProof.fromBytes_ok.mp read).2)
      fun _ _ => ShardProof.toBytes_isSome
  · exact RoundTrips.of_iff (fun _ _ kept wrote => BlockProof.fromBytes_ok.mpr ⟨kept, wrote⟩)
      (fun _ _ read => (BlockProof.fromBytes_ok.mp read).2)
      fun _ kept => BlockProof.toBytes_isSome kept.config
  · exact RoundTrips.of_iff
      (fun _ _ kept wrote => BlockReconciliation.fromBytes_ok.mpr ⟨kept, wrote⟩)
      (fun _ _ read => (BlockReconciliation.fromBytes_ok.mp read).2)
      fun _ _ => BlockReconciliation.toBytes_isSome
  · refine RoundTrips.of_iff ?_ ?_ fun _ _ => iff_of_true rfl trivial
    · intro bytes config kept wrote
      exact VmConfig.fromBytes_eq_some.mpr ⟨Option.some.inj wrote, kept⟩
    · intro bytes config read
      rw [(VmConfig.fromBytes_eq_some.mp read).1]
  · refine RoundTrips.of_iff ?_ ?_ ?_
    · rintro bytes x ⟨range, passed⟩ wrote
      exact (VerifyingKey.fromBytes_ok permute rules).mpr
        ⟨VerifyingKey.encodable_of_check permute rules range passed, wrote, passed⟩
    · exact fun bytes x read => ((VerifyingKey.fromBytes_ok permute rules).mp read).2.1
    · rintro x ⟨range, passed⟩
      exact VerifyingKey.toBytes_isSome (VerifyingKey.encodable_of_check permute rules range passed)

/-- A block of three shards whose first commits to some number of memory columns. -/
def windowsBlock (columns : ℕ) : BlockProof where
  config := windowsConfig
  statement :=
    { input := []
      output := []
      exitStatus := 0
      shardCounts := [1, 0, 1, 1, 0, 0]
      windows := []
      boundary := ⟨fun _ => 0, 0, fun _ => 0⟩
      memoryCommitments := [List.replicate columns default, [], []]
      memoryRoots := [(1, 1), (1, 1), (1, 1)] }
  shards := [Family.initTeardown, Family.publicInput, Family.publicOutput].map fun family =>
    { family
      shardIndex := 0
      tsWindow := (0, 2 ^ 38)
      globalDigest := 0
      witnessCommitments := []
      outputs := []
      gkr := ⟨[]⟩
      opening := default }

theorem windowsBlock_fits (columns : ℕ) : (windowsBlock columns).Fits where
  config := (VmConfig.fromBytes_eq_some.mp (show VmConfig.fromBytes windowsConfig.toBytes =
    some windowsConfig by decide)).2
  statement := ⟨by norm_num [windowsBlock], by simp [windowsBlock], by simp [windowsBlock],
    ⟨fun _ => by norm_num [windowsBlock], by norm_num [windowsBlock],
      fun _ => by norm_num [windowsBlock]⟩⟩
  shards := by
    intro shard member
    obtain ⟨family, listed, rfl⟩ := List.mem_map.mp member
    have small : ∀ family ∈ [Family.initTeardown, Family.publicInput, Family.publicOutput],
        family < 2 ^ 32 := by
      decide
    exact ⟨small family listed, by norm_num, by norm_num⟩
  shape := rfl

/-- Every list of a block and of what it holds is shorter than a wire count. -/
structure ListsShort (x : BlockProof) : Prop where
  statement : x.statement.Short
  shards : x.shards.length < 2 ^ 32 ∧ ∀ shard ∈ x.shards, shard.Short

theorem windowsBlock_listsShort {columns : ℕ} (few : columns < 2 ^ 32) :
    ListsShort (windowsBlock columns) where
  statement := by
    refine ⟨by norm_num [windowsBlock], by norm_num [windowsBlock], by norm_num [windowsBlock],
      by norm_num [windowsBlock], ⟨by norm_num [windowsBlock], ?_⟩, by norm_num [windowsBlock]⟩
    intro list member
    rcases List.mem_cons.mp member with rfl | rest
    · rw [List.length_replicate]
      exact few
    · have empty : ∀ list ∈ ([[], []] : List (List (FixedBytes 64))), list.length < 2 ^ 32 := by
        decide
      exact empty list rest
  shards := by
    refine ⟨by norm_num [windowsBlock], ?_⟩
    intro shard member
    obtain ⟨family, -, rfl⟩ := List.mem_map.mp member
    exact ⟨by norm_num, by norm_num, by norm_num, fun _ none => absurd none List.not_mem_nil⟩

/-- A statement's encoding holds 64 bytes for each of a shard's memory commitments. -/
theorem statement_length {x : PublicInputs} {bytes : List UInt8} {list : List (FixedBytes 64)}
    (wrote : x.toBytes = some bytes) (member : list ∈ x.memoryCommitments) :
    list.length * 64 ≤ bytes.length := by
  have listed : Write.list Write.g1s x.memoryCommitments ∈ [Write.bytes x.input,
      Write.bytes x.output, Write.u32 x.exitStatus, Write.u32s x.shardCounts,
      Write.u32s x.windows, writeEach Write.fr (boundaryScalars x.boundary),
      Write.list Write.g1s x.memoryCommitments, Write.list (writePair Write.fr) x.memoryRoots] := by
    simp
  obtain ⟨lists, wroteLists, shortLists⟩ := length_le_of_written wrote listed
  obtain ⟨each, wroteEach, shortEach⟩ := length_le_of_written wroteLists
    (List.mem_cons_of_mem _ List.mem_cons_self)
  obtain ⟨own, wroteOwn, shortOwn⟩ := length_le_of_written wroteEach
    (List.mem_map.mpr ⟨list, member, rfl⟩)
  obtain ⟨points, wrotePoints, shortPoints⟩ := length_le_of_written wroteOwn
    (List.mem_cons_of_mem _ List.mem_cons_self)
  have point : ∀ point ∈ list, ∀ front, Write.raw point = some front → 64 ≤ front.length := by
    intro point _ front wrote
    cases wrote
    exact point.2.ge
  have sized := length_writeEach_ge point wrotePoints
  omega

/-- Lists shorter than `2 ^ 32` do not make an encoding: a statement of `2 ^ 32` bytes has no
count, and the block's encoder panics. -/
theorem windowsBlock_not_encoded : ¬∀ x : BlockProof, x.Fits → ListsShort x →
    ∃ bytes, x.toBytes = some bytes ∧ BlockProof.fromBytes bytes = .ok x := by
  intro claimed
  obtain ⟨bytes, wrote, -⟩ := claimed (windowsBlock (2 ^ 26)) (windowsBlock_fits _)
    (windowsBlock_listsShort (by norm_num))
  obtain ⟨statement, -⟩ := (BlockProof.toBytes_isSome (windowsBlock_fits _).config).mp
    (Option.isSome_iff_exists.mpr ⟨bytes, wrote⟩)
  obtain ⟨inner, encoded, short⟩ := statement
  have first : List.replicate (2 ^ 26) default ∈
      (windowsBlock (2 ^ 26)).statement.memoryCommitments := List.mem_cons_self
  have long := statement_length encoded first
  rw [List.length_replicate] at long
  omega

/-- The statement of a block whose first shard has one column is read back. -/
theorem windowsBlock_statement_round_trip :
    ∃ bytes, (windowsBlock 1).statement.toBytes = some bytes ∧
      PublicInputs.fromBytes bytes = .ok (windowsBlock 1).statement :=
  (wire_round_trips id ⟨fun _ _ _ => ⟨1, 0, 0, [], [], [], [], [], [], [], [], [], ⟨[], true⟩⟩,
    fun _ => .ok (), fun _ _ => .ok ()⟩).1.restores _ (windowsBlock_fits 1).statement
      (windowsBlock_listsShort (by norm_num)).statement

end Apogee
