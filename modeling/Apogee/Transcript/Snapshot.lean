import Apogee.Transcript.Sponge

/-! # A snapshot's wire form

226 bytes: seven canonical elements and two lengths. The decoder refuses what no
transcript between operations holds, an over-long buffer or a lane past a length that
is not zero, so it accepts exactly what the encoder writes of what a transcript holds.
-/

namespace Apogee

open Apogee.Math

namespace TranscriptSnapshot

/-- What a transcript between operations holds. -/
def canonical (s : TranscriptSnapshot) : Bool :=
  s.inputLen < Duplex.rate && s.outputLen ≤ Duplex.rate &&
    (List.finRange 2).all (fun i => (i : ℕ) < s.inputLen || s.input i == 0) &&
    (List.finRange 2).all (fun i => (i : ℕ) < s.outputLen || s.output i == 0)

/-- `SNAPSHOT_BYTES`. -/
def snapshotBytes : ℕ := 226

def readLanes : Read Lanes := do
  let first ← Wire.fr
  let second ← Wire.fr
  let capacity ← Wire.fr
  pure ⟨first, second, capacity⟩

def writeLanes : Writer Lanes := fun x =>
  written [Write.fr x.first, Write.fr x.second, Write.fr x.capacity]

/-- The fields in order, a fixed tuple. -/
def readFields : Read TranscriptSnapshot := do
  let state ← readLanes
  let input ← array 2 Wire.fr
  let inputLen ← Wire.u8
  let output ← array 2 Wire.fr
  let outputLen ← Wire.u8
  pure ⟨state, input, inputLen, output, outputLen⟩

def writeFields : Writer TranscriptSnapshot := fun s =>
  written [writeLanes s.state, writeEach Write.fr (List.ofFn s.input), Write.u8 s.inputLen,
    writeEach Write.fr (List.ofFn s.output), Write.u8 s.outputLen]

/-- Decode a snapshot's bytes: every refusal has one text. -/
def ofBytes (bytes : List UInt8) : Except String TranscriptSnapshot :=
  match Wire.whole readFields bytes with
  | .ok s => if s.canonical then .ok s else .error "a transcript snapshot does not decode"
  | .error _ => .error "a transcript snapshot does not decode"

def read : Read TranscriptSnapshot := convert ofBytes (Wire.take snapshotBytes)

/-- The fixed size is an assertion. -/
def write : Writer TranscriptSnapshot := fun s => do
  let bytes ← writeFields s
  if bytes.length = snapshotBytes then some bytes else none

/-- The lengths are bytes. -/
structure Bytes (s : TranscriptSnapshot) : Prop where
  inputLen : s.inputLen < 2 ^ 8
  outputLen : s.outputLen < 2 ^ 8

theorem bytes_of_canonical {s : TranscriptSnapshot} (canonical : s.canonical = true) : s.Bytes := by
  simp only [TranscriptSnapshot.canonical, Bool.and_eq_true, decide_eq_true_eq] at canonical
  obtain ⟨⟨⟨pending, ready⟩, -⟩, -⟩ := canonical
  exact ⟨pending.trans (by decide), ready.trans_lt (by decide)⟩

theorem lanes_inverts : Inverts readLanes (fun _ => True) writeLanes := by
  refine (Inverts.first Lanes.first Wire.fr_inverts fun first =>
    Inverts.next Lanes.second Wire.fr_inverts fun second =>
    Inverts.next Lanes.capacity Wire.fr_inverts fun capacity =>
    @Inverts.done _ _ _ ⟨first, second, capacity⟩ ?_).congr ?_ fun _ => rfl
  · rintro ⟨_, _, _⟩
    simp only [Lanes.mk.injEq, and_assoc]
  · exact fun _ => ⟨fun _ => ⟨trivial, trivial, trivial, trivial⟩, fun _ => trivial⟩

theorem fields_inverts : Inverts readFields Bytes writeFields := by
  have pair := Wire.fr_inverts.array 2
  have fields : Inverts readFields (fun s => True ∧ (∀ _ : Fin 2, True) ∧ s.inputLen < 2 ^ 8 ∧
      (∀ _ : Fin 2, True) ∧ s.outputLen < 2 ^ 8 ∧ True) writeFields := by
    unfold readFields writeFields
    apply Inverts.first TranscriptSnapshot.state lanes_inverts
    intro state
    apply Inverts.next TranscriptSnapshot.input pair
    intro input
    apply Inverts.next TranscriptSnapshot.inputLen Wire.u8_inverts
    intro inputLen
    apply Inverts.next TranscriptSnapshot.output pair
    intro output
    apply Inverts.next TranscriptSnapshot.outputLen Wire.u8_inverts
    intro outputLen
    apply Inverts.done
    rintro ⟨⟩
    simp only [TranscriptSnapshot.mk.injEq, and_assoc]
  refine fields.congr (fun s => ⟨?_, ?_⟩) fun _ => rfl
  · intro bytes
    exact ⟨trivial, fun _ => trivial, bytes.inputLen, fun _ => trivial, bytes.outputLen, trivial⟩
  · rintro ⟨-, -, inputLen, -, outputLen, -⟩
    exact ⟨inputLen, outputLen⟩

theorem writeFields_length {s : TranscriptSnapshot} : ∃ bytes, writeFields s = some bytes ∧
    bytes.length = snapshotBytes := by
  refine ⟨_, rfl, ?_⟩
  simp only [List.length_append, leBytes_length, List.length_nil, snapshotBytes]

theorem write_eq (s : TranscriptSnapshot) : write s = writeFields s := by
  obtain ⟨bytes, wrote, length⟩ := @writeFields_length s
  rw [write, wrote, Option.bind_eq_bind, Option.bind_some, if_pos length]

/-- The decoder accepts exactly what the encoder writes of canonical snapshots. -/
theorem read_inverts : Inverts read (fun s => s.canonical) write := by
  refine (Inverts.convert _ writeFields (Wire.take_inverts snapshotBytes) ?_ ?_).congr
    (fun _ => Iff.rfl) fun s => ?_
  · intro bytes s _
    have accepts := @Wire.whole_ok _ _ _ _ fields_inverts bytes s
    unfold ofBytes
    cases found : Wire.whole readFields bytes with
    | error e =>
      rw [found] at accepts
      refine iff_of_false (fun wrong => nomatch wrong) ?_
      intro both
      exact nomatch accepts.mpr ⟨bytes_of_canonical both.1, both.2⟩
    | ok other =>
      rw [found, Except.ok.injEq] at accepts
      dsimp only
      by_cases canonical : other.canonical = true
      · rw [if_pos canonical, Except.ok.injEq, accepts]
        constructor
        · intro both
          obtain rfl := accepts.mpr both
          exact ⟨canonical, both.2⟩
        · intro both
          exact ⟨bytes_of_canonical both.1, both.2⟩
      · rw [if_neg canonical]
        refine iff_of_false (fun wrong => nomatch wrong) ?_
        intro both
        obtain rfl := accepts.mpr ⟨bytes_of_canonical both.1, both.2⟩
        exact canonical both.1
  · intro s bytes _ encoded
    obtain ⟨other, wrote, length⟩ := @writeFields_length s
    rw [wrote] at encoded
    cases encoded
    exact length
  · rw [write_eq]
    cases writeFields s <;> rfl

/-- What the encoder writes of a canonical snapshot decodes to it. -/
theorem ofBytes_write {s : TranscriptSnapshot} (canonical : s.canonical = true) :
    ∃ bytes, write s = some bytes ∧ ofBytes bytes = .ok s := by
  obtain ⟨bytes, wrote, -⟩ := @writeFields_length s
  have found := (@Wire.whole_ok _ _ _ _ fields_inverts bytes s).mpr
    ⟨bytes_of_canonical canonical, wrote⟩
  refine ⟨bytes, (write_eq s).trans wrote, ?_⟩
  rw [ofBytes, found]
  exact if_pos canonical

end TranscriptSnapshot

namespace Sponge

/-- What a transcript between operations captures is canonical. -/
theorem snapshot_canonical (events : List LoggedEvent) {d : Duplex} (rest : d.AtRest) :
    (of events d).snapshot.canonical = true := by
  have padded : ∀ xs : List Fr,
      (List.finRange 2).all (fun i => (i : ℕ) < xs.length || lanes xs i == 0) = true := by
    intro xs
    rw [List.all_eq_true]
    intro i _
    rw [Bool.or_eq_true, decide_eq_true_eq, beq_iff_eq]
    by_cases inside : (i : ℕ) < xs.length
    · exact Or.inl inside
    · right
      rw [lanes, List.getD_eq_getElem?_getD, List.getElem?_eq_none (Nat.not_lt.mp inside),
        Option.getD_none]
  have short : d.input.length < 2 ^ 8 := rest.input.trans (by decide)
  have ready : d.output.length < 2 ^ 8 := rest.output.trans_lt (by decide)
  simp only [TranscriptSnapshot.canonical, snapshot, of, Nat.mod_eq_of_lt short,
    Nat.mod_eq_of_lt ready, padded, Bool.and_true, Bool.and_eq_true, decide_eq_true_eq]
  exact ⟨rest.input, rest.output⟩

/-- A transcript cut after any operations and restored from its snapshot's bytes goes on as the
original does, and both end at one snapshot. -/
theorem run_resume (permute : Lanes → Lanes) (before after : List Op) :
    ∃ drawn t bytes s, run permute before new = some (drawn, t) ∧
      TranscriptSnapshot.write t.snapshot = some bytes ∧ TranscriptSnapshot.ofBytes bytes = .ok s ∧
      ∃ challenges original resumed, run permute after t = some (challenges, original) ∧
        run permute after (restore s) = some (challenges, resumed) ∧
        resumed.snapshot = original.snapshot := by
  obtain ⟨drawn, t, ran, continues⟩ := run_restore permute before after
  have known := run_of permute [] before Duplex.new_atRest
  rw [← new_eq, ran] at known
  cases known
  obtain ⟨bytes, wrote, read⟩ := TranscriptSnapshot.ofBytes_write
    (snapshot_canonical ([] ++ before.flatMap logged) (performs_atRest permute before
      Duplex.new_atRest))
  exact ⟨_, _, bytes, _, ran, wrote, read, continues⟩

end Sponge

end Apogee
