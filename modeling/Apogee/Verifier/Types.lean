import Apogee.Gkr.Verify
import Apogee.Memory.Statement

/-! # The proof-side types

The statement and a shard's proof, and their wire forms. A decoder accepts
exactly what the encoder writes of the values that keep the format's rules.
-/

namespace Apogee

open Apogee.Math Apogee.Memory

/-- What a statement is about. -/
structure PublicInputs where
  input : List UInt8
  output : List UInt8
  exitStatus : ℕ
  shardCounts : List ℕ
  windows : List ℕ
  boundary : BoundaryFinals
  /-- Per shard, in statement order, its memory columns' commitments. -/
  memoryCommitments : List (List (FixedBytes 64))
  /-- Per shard, in statement order, its read root and its write root. -/
  memoryRoots : List (Fr × Fr)

/-- One shard's proof. -/
structure ShardProof where
  family : ℕ
  shardIndex : ℕ
  /-- The claimed time window, its end excluded. -/
  tsWindow : ℕ × ℕ
  globalDigest : Fr
  witnessCommitments : List (FixedBytes 64)
  outputs : List Fr
  gkr : GkrProof
  opening : FixedBytes 704

/-- The boundary's scalars: the register timestamps, the pc's, the values. -/
def boundaryScalars (finals : BoundaryFinals) : List Fr :=
  List.ofFn (fun r => (finals.regTs r : Fr)) ++ [(finals.pcTs : Fr)] ++
    List.ofFn (fun r => (finals.regValues r : Fr))

/-- A field element as a 64-bit number, when it is one. -/
def small (v : Fr) : Option ℕ := if v.val < 2 ^ 64 then some v.val else none

/-- Two values, one after the other. -/
def readPair {α : Type} (read : Read α) : Read (α × α) := do
  let first ← read
  let second ← read
  pure (first, second)

def writePair {α : Type} (write : Writer α) : Writer (α × α) := fun pair =>
  written [write pair.1, write pair.2]

/-- A field element below a bound. -/
def readBelow (bound : ℕ) (refusal : String) : Read ℕ :=
  convert (fun v => match small v with
    | some t => if t < bound then .ok t else .error refusal
    | none => .error refusal) Wire.fr

def writeScalar : Writer ℕ := fun t => Write.fr (t : Fr)

namespace PublicInputs

def timestamp : Read ℕ := readBelow (2 ^ 38) "a boundary timestamp is not below 2^38"

def value : Read ℕ := readBelow (2 ^ 32) "a boundary value is not below 2^32"

def readBoundary : Read BoundaryFinals := do
  let regTs ← array 32 timestamp
  let pcTs ← timestamp
  let regValues ← array 31 value
  pure ⟨regTs, pcTs, regValues⟩

def write : Writer PublicInputs := fun x =>
  written [Write.bytes x.input, Write.bytes x.output, Write.u32 x.exitStatus,
    Write.u32s x.shardCounts, Write.u32s x.windows,
    writeEach Write.fr (boundaryScalars x.boundary), Write.list Write.g1s x.memoryCommitments,
    Write.list (writePair Write.fr) x.memoryRoots]

def read : Read PublicInputs := do
  let input ← Wire.bytes
  let output ← Wire.bytes
  let exitStatus ← Wire.u32
  let shardCounts ← Wire.u32s
  let windows ← Wire.u32s
  let boundary ← readBoundary
  let memoryCommitments ← Wire.list 4 Wire.g1s
  let memoryRoots ← Wire.list 64 (readPair Wire.fr)
  pure ⟨input, output, exitStatus, shardCounts, windows, boundary, memoryCommitments, memoryRoots⟩

/-- The encoding, unless a count is above a `u32`. -/
def toBytes (x : PublicInputs) : Option (List UInt8) := write x

def fromBytes (bytes : List UInt8) : Except String PublicInputs := Wire.whole read bytes

end PublicInputs

/-- One transition: its rounds, then its claims. -/
def writeLayer : Writer SumcheckProof := fun layer =>
  written [Write.list (fun round : RoundPoly => writeEach Write.fr round.scalars) layer.rounds,
    Write.frs layer.finalEvals]

def writeGkr : Writer GkrProof := fun x => Write.list writeLayer x.layers

def readRound : Read RoundPoly := do
  let c0 ← Wire.fr
  let c1 ← Wire.fr
  let c2 ← Wire.fr
  let c3 ← Wire.fr
  pure ⟨c0, c1, c2, c3⟩

def readLayer : Read SumcheckProof := do
  let rounds ← Wire.list (4 * 32) readRound
  let finalEvals ← Wire.frs
  pure ⟨rounds, finalEvals⟩

def readGkr : Read GkrProof := do
  let layers ← Wire.list 8 readLayer
  pure ⟨layers⟩

namespace ShardProof

def write : Writer ShardProof := fun x =>
  written [Write.u32 x.family, Write.u32 x.shardIndex, writePair Write.u64 x.tsWindow,
    Write.fr x.globalDigest, Write.g1s x.witnessCommitments, Write.frs x.outputs, writeGkr x.gkr,
    Write.raw x.opening]

def read : Read ShardProof := do
  let family ← Wire.u32
  let shardIndex ← Wire.u32
  let tsWindow ← readPair Wire.u64
  let globalDigest ← Wire.fr
  let witnessCommitments ← Wire.g1s
  let outputs ← Wire.frs
  let gkr ← readGkr
  let opening ← Wire.raw 704
  pure ⟨family, shardIndex, tsWindow, globalDigest, witnessCommitments, outputs, gkr, opening⟩

def toBytes (x : ShardProof) : Option (List UInt8) := write x

def fromBytes (bytes : List UInt8) : Except String ShardProof := Wire.whole read bytes

end ShardProof

section Inversion

theorem pair_inverts {α : Type} {read : Read α} {fits : α → Prop} {write : Writer α}
    (inverts : Inverts read fits write) :
    Inverts (readPair read) (fun pair => fits pair.1 ∧ fits pair.2) (writePair write) := by
  refine (Inverts.first Prod.fst inverts fun first => Inverts.next Prod.snd inverts fun second =>
    @Inverts.done _ _ _ (first, second) ?_).congr ?_ fun _ => rfl
  · exact fun other => by rw [Prod.ext_iff]
  · exact fun other => by rw [and_true]

theorem below_inverts {bound : ℕ} (room : bound ≤ 2 ^ 64) (refusal : String) :
    Inverts (readBelow bound refusal) (fun t => t < bound) writeScalar := by
  have canonical : ∀ t, t < bound → ((t : Fr)).val = t := fun t below =>
    fr_val_natCast ((below.trans_le room).trans (by decide))
  refine (Inverts.convert _ (fun t : ℕ => some (t : Fr)) Wire.fr_inverts ?_ ?_).congr
    (fun _ => Iff.rfl) fun _ => rfl
  · intro v t _
    rw [Option.some.injEq]
    unfold small
    constructor
    · intro read
      by_cases fits : v.val < 2 ^ 64
      · rw [if_pos fits] at read
        dsimp only at read
        by_cases below : v.val < bound
        · rw [if_pos below] at read
          cases read
          exact ⟨below, ZMod.natCast_zmod_val v⟩
        · rw [if_neg below] at read
          cases read
      · rw [if_neg fits] at read
        cases read
    · rintro ⟨below, rfl⟩
      rw [canonical t below, if_pos (below.trans_le room)]
      dsimp only
      rw [if_pos below]
  · exact fun _ _ _ _ => trivial

/-- A counted byte string is at least its count. -/
theorem prefixed_length {value bytes : List UInt8} (wrote : Write.bytes value = some bytes) :
    4 ≤ bytes.length := by
  obtain ⟨front, counted, back, -, rfl⟩ := written_pair_eq_some.mp wrote
  obtain ⟨-, rfl⟩ := Wire.count_eq_some.mp counted
  rw [List.length_append, leBytes_length]
  exact Nat.le_add_right 4 _

/-- A counted list is at least its count. -/
theorem counted_length {α : Type} {item : Writer α} {values : List α} {bytes : List UInt8}
    (wrote : Write.list item values = some bytes) : 4 ≤ bytes.length := by
  obtain ⟨front, counted, back, -, rfl⟩ := written_pair_eq_some.mp wrote
  obtain ⟨-, rfl⟩ := Wire.count_eq_some.mp counted
  rw [List.length_append, leBytes_length]
  exact Nat.le_add_right 4 _

namespace PublicInputs

/-- The boundary's rules. -/
structure BoundaryFits (finals : BoundaryFinals) : Prop where
  regTs : ∀ r, finals.regTs r < 2 ^ 38
  pcTs : finals.pcTs < 2 ^ 38
  regValues : ∀ r, finals.regValues r < 2 ^ 32

/-- The format's rules: the numbers are their types' and the boundary's are bounded. -/
structure Fits (x : PublicInputs) : Prop where
  exitStatus : x.exitStatus < 2 ^ 32
  shardCounts : ∀ count ∈ x.shardCounts, count < 2 ^ 32
  windows : ∀ window ∈ x.windows, window < 2 ^ 32
  boundary : BoundaryFits x.boundary

theorem boundary_written (finals : BoundaryFinals) : writeEach Write.fr (boundaryScalars finals) =
      written [writeEach writeScalar (List.ofFn finals.regTs), writeScalar finals.pcTs,
        writeEach writeScalar (List.ofFn finals.regValues)] := by
  have scalars : ∀ {n : ℕ} (values : Fin n → ℕ),
      writeEach Write.fr (List.ofFn fun r => (values r : Fr)) =
        writeEach writeScalar (List.ofFn values) := by
    intro n values
    rw [writeEach, writeEach, List.map_ofFn, List.map_ofFn]
    rfl
  apply Option.ext
  intro bytes
  rw [boundaryScalars, List.append_assoc, writeEach_append, written_cons_eq_some, scalars]
  simp only [writeEach_append, written_pair_eq_some, scalars]
  rw [show writeEach Write.fr [(finals.pcTs : Fr)] = writeScalar finals.pcTs from
    written_singleton _]

theorem boundary_inverts :
    Inverts readBoundary BoundaryFits fun x => writeEach Write.fr (boundaryScalars x) := by
  have timestamps := @below_inverts (2 ^ 38) (by decide) "a boundary timestamp is not below 2^38"
  have values := @below_inverts (2 ^ 32) (by decide) "a boundary value is not below 2^32"
  refine (Inverts.first BoundaryFinals.regTs (timestamps.array 32) fun regTs =>
    Inverts.next BoundaryFinals.pcTs timestamps fun pcTs =>
    Inverts.next BoundaryFinals.regValues (values.array 31) fun regValues =>
    @Inverts.done _ _ _ ⟨regTs, pcTs, regValues⟩ ?_).congr ?_ ?_
  · rintro ⟨_, _, _⟩
    simp only [BoundaryFinals.mk.injEq, and_assoc]
  · intro finals
    constructor
    · rintro ⟨regTs, pcTs, regValues⟩
      exact ⟨regTs, pcTs, regValues, trivial⟩
    · rintro ⟨regTs, pcTs, regValues, -⟩
      exact ⟨regTs, pcTs, regValues⟩
  · exact boundary_written

theorem read_inverts : Inverts read Fits write := by
  have lists : Inverts (Wire.list 4 Wire.g1s) (fun _ => True) (Write.list Write.g1s) :=
    Wire.freeList_inverts Wire.g1s_inverts (fun _ => trivial) fun _ _ => counted_length
  have roots : Inverts (Wire.list 64 (readPair Wire.fr)) (fun _ => True)
      (Write.list (writePair Write.fr)) := by
    refine Wire.freeList_inverts (pair_inverts Wire.fr_inverts) (fun _ => ⟨trivial, trivial⟩)
      fun pair front wrote => ?_
    cases wrote
    simp only [List.length_append, leBytes_length]
    decide
  have fields : Inverts read (fun x => True ∧ True ∧ x.exitStatus < 2 ^ 32 ∧
      (∀ count ∈ x.shardCounts, count < 2 ^ 32) ∧ (∀ window ∈ x.windows, window < 2 ^ 32) ∧
      BoundaryFits x.boundary ∧ True ∧ True ∧ True) write := by
    unfold read write
    apply Inverts.first PublicInputs.input Wire.bytes_inverts
    intro input
    apply Inverts.next PublicInputs.output Wire.bytes_inverts
    intro output
    apply Inverts.next PublicInputs.exitStatus Wire.u32_inverts
    intro exitStatus
    apply Inverts.next PublicInputs.shardCounts Wire.u32s_inverts
    intro shardCounts
    apply Inverts.next PublicInputs.windows Wire.u32s_inverts
    intro windows
    apply Inverts.next PublicInputs.boundary boundary_inverts
    intro boundary
    apply Inverts.next PublicInputs.memoryCommitments lists
    intro memoryCommitments
    apply Inverts.next PublicInputs.memoryRoots roots
    intro memoryRoots
    apply Inverts.done
    rintro ⟨⟩
    simp only [PublicInputs.mk.injEq, and_assoc]
  refine fields.congr (fun x => ⟨?_, ?_⟩) fun _ => rfl
  · rintro ⟨exitStatus, shardCounts, windows, boundary⟩
    exact ⟨trivial, trivial, exitStatus, shardCounts, windows, boundary, trivial, trivial, trivial⟩
  · rintro ⟨-, -, exitStatus, shardCounts, windows, boundary, -⟩
    exact ⟨exitStatus, shardCounts, windows, boundary⟩

/-- The decoder accepts exactly what the encoder writes of the values that fit. -/
theorem fromBytes_ok {bytes : List UInt8} {x : PublicInputs} :
    fromBytes bytes = .ok x ↔ x.Fits ∧ x.toBytes = some bytes := Wire.whole_ok read_inverts

/-- Every list is shorter than a wire count. -/
structure Short (x : PublicInputs) : Prop where
  input : x.input.length < 2 ^ 32
  output : x.output.length < 2 ^ 32
  shardCounts : x.shardCounts.length < 2 ^ 32
  windows : x.windows.length < 2 ^ 32
  memoryCommitments : x.memoryCommitments.length < 2 ^ 32 ∧
    ∀ list ∈ x.memoryCommitments, list.length < 2 ^ 32
  memoryRoots : x.memoryRoots.length < 2 ^ 32

/-- The encoder returns exactly on the short values. -/
theorem toBytes_isSome {x : PublicInputs} : x.toBytes.isSome ↔ x.Short := by
  simp only [toBytes, write, written_cons_isSome, written_nil_isSome,
    Write.bytes_isSome, Write.u32s_isSome, writeEach_isSome, Write.list_isSome, Write.g1s_isSome,
    and_true]
  constructor
  · rintro ⟨input, output, -, shardCounts, windows, -, memoryCommitments, memoryRoots, -⟩
    exact ⟨input, output, shardCounts, windows, memoryCommitments, memoryRoots⟩
  · rintro ⟨input, output, shardCounts, windows, memoryCommitments, memoryRoots⟩
    exact ⟨input, output, rfl, shardCounts, windows, fun _ _ => rfl, memoryCommitments,
      memoryRoots, fun _ _ => rfl⟩

end PublicInputs

theorem round_inverts : Inverts readRound (fun _ => True)
    fun round => writeEach Write.fr round.scalars := by
  have fields : Inverts readRound (fun _ => True ∧ True ∧ True ∧ True ∧ True)
      fun round => writeEach Write.fr round.scalars := by
    apply Inverts.first RoundPoly.c0 Wire.fr_inverts
    intro c0
    apply Inverts.next RoundPoly.c1 Wire.fr_inverts
    intro c1
    apply Inverts.next RoundPoly.c2 Wire.fr_inverts
    intro c2
    apply Inverts.next RoundPoly.c3 Wire.fr_inverts
    intro c3
    apply Inverts.done
    rintro ⟨⟩
    simp only [RoundPoly.mk.injEq, and_assoc]
  refine fields.congr (fun _ => ?_) fun _ => rfl
  exact ⟨fun _ => ⟨trivial, trivial, trivial, trivial, trivial⟩, fun _ => trivial⟩

theorem layer_inverts : Inverts readLayer (fun _ => True) writeLayer := by
  have rounds : Inverts (Wire.list (4 * 32) readRound) (fun _ => True)
      (Write.list fun round : RoundPoly => writeEach Write.fr round.scalars) := by
    refine Wire.freeList_inverts round_inverts (fun _ => trivial) fun round front wrote => ?_
    cases wrote
    simp only [List.length_append, leBytes_length, List.length_nil]
    decide
  refine (Inverts.first SumcheckProof.rounds rounds fun rounds =>
    Inverts.next SumcheckProof.finalEvals Wire.frs_inverts fun finalEvals =>
    @Inverts.done _ _ _ ⟨rounds, finalEvals⟩ ?_).congr ?_ fun _ => rfl
  · rintro ⟨⟩
    simp only [SumcheckProof.mk.injEq]
  · exact fun _ => ⟨fun _ => ⟨trivial, trivial, trivial⟩, fun _ => trivial⟩

theorem gkr_inverts : Inverts readGkr (fun _ => True) writeGkr := by
  have layers : Inverts (Wire.list 8 readLayer) (fun _ => True) (Write.list writeLayer) := by
    refine Wire.freeList_inverts layer_inverts (fun _ => trivial) fun layer front wrote => ?_
    obtain ⟨first, wroteRounds, second, wroteEvals, rfl⟩ := written_pair_eq_some.mp wrote
    have rounds := counted_length wroteRounds
    have evals := counted_length wroteEvals
    rw [List.length_append]
    omega
  refine (Inverts.first GkrProof.layers layers fun layers =>
    @Inverts.done _ _ _ ⟨layers⟩ ?_).congr ?_ fun x => ?_
  · rintro ⟨⟩
    simp only [GkrProof.mk.injEq]
  · exact fun _ => ⟨fun _ => ⟨trivial, trivial⟩, fun _ => trivial⟩
  · exact (written_singleton _).symm

namespace ShardProof

/-- The format's rules: the numbers are their types'. -/
structure Fits (x : ShardProof) : Prop where
  family : x.family < 2 ^ 32
  shardIndex : x.shardIndex < 2 ^ 32
  tsWindow : x.tsWindow.1 < 2 ^ 64 ∧ x.tsWindow.2 < 2 ^ 64

theorem read_inverts : Inverts read Fits write := by
  have fields : Inverts read (fun x => x.family < 2 ^ 32 ∧ x.shardIndex < 2 ^ 32 ∧
      (x.tsWindow.1 < 2 ^ 64 ∧ x.tsWindow.2 < 2 ^ 64) ∧ True ∧ True ∧ True ∧ True ∧ True ∧ True)
      write := by
    unfold read write
    apply Inverts.first ShardProof.family Wire.u32_inverts
    intro family
    apply Inverts.next ShardProof.shardIndex Wire.u32_inverts
    intro shardIndex
    apply Inverts.next ShardProof.tsWindow (pair_inverts Wire.u64_inverts)
    intro tsWindow
    apply Inverts.next ShardProof.globalDigest Wire.fr_inverts
    intro globalDigest
    apply Inverts.next ShardProof.witnessCommitments Wire.g1s_inverts
    intro witnessCommitments
    apply Inverts.next ShardProof.outputs Wire.frs_inverts
    intro outputs
    apply Inverts.next ShardProof.gkr gkr_inverts
    intro gkr
    apply Inverts.next ShardProof.opening (Wire.raw_inverts 704)
    intro opening
    apply Inverts.done
    rintro ⟨⟩
    simp only [ShardProof.mk.injEq, and_assoc]
  refine fields.congr (fun x => ⟨?_, ?_⟩) fun _ => rfl
  · rintro ⟨family, shardIndex, tsWindow⟩
    exact ⟨family, shardIndex, tsWindow, trivial, trivial, trivial, trivial, trivial, trivial⟩
  · rintro ⟨family, shardIndex, tsWindow, -⟩
    exact ⟨family, shardIndex, tsWindow⟩

/-- The decoder accepts exactly what the encoder writes of the values that fit. -/
theorem fromBytes_ok {bytes : List UInt8} {x : ShardProof} :
    fromBytes bytes = .ok x ↔ x.Fits ∧ x.toBytes = some bytes := Wire.whole_ok read_inverts

/-- Every list is shorter than a wire count. -/
structure Short (x : ShardProof) : Prop where
  witnessCommitments : x.witnessCommitments.length < 2 ^ 32
  outputs : x.outputs.length < 2 ^ 32
  layers : x.gkr.layers.length < 2 ^ 32 ∧ ∀ layer ∈ x.gkr.layers,
    layer.rounds.length < 2 ^ 32 ∧ layer.finalEvals.length < 2 ^ 32

/-- The encoder returns exactly on the short values. -/
theorem toBytes_isSome {x : ShardProof} : x.toBytes.isSome ↔ x.Short := by
  have layer : ∀ layer, (writeLayer layer).isSome ↔
      layer.rounds.length < 2 ^ 32 ∧ layer.finalEvals.length < 2 ^ 32 := by
    intro layer
    rw [writeLayer, written_cons_isSome, written_singleton, Write.list_isSome, Write.frs_isSome]
    exact and_congr_left fun _ => and_iff_left fun round _ =>
      writeEach_isSome.mpr fun _ _ => rfl
  simp only [toBytes, write, writeGkr, written_cons_isSome, written_nil_isSome,
    Write.g1s_isSome, Write.frs_isSome, Write.list_isSome, layer, and_true]
  constructor
  · rintro ⟨-, -, -, -, witnessCommitments, outputs, layers, -⟩
    exact ⟨witnessCommitments, outputs, layers⟩
  · rintro ⟨witnessCommitments, outputs, layers⟩
    exact ⟨rfl, rfl, rfl, rfl, witnessCommitments, outputs, layers, rfl⟩

end ShardProof

end Inversion

end Apogee
