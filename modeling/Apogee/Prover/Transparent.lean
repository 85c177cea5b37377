import Apogee.Prover.Resume
import Apogee.Trace.Wire

/-! # Resume is transparent

However a block is cut into calls of `advance` and round trips through a file, once it
has been advanced to its final phase it holds what the single call leaves.
-/

namespace Apogee.Prover

open Trace (Fault TraceArchive Postcard FamilyTrace DelegationTrace FamilyTraces MemoryEventLog
  MemoryEvent CycleProfile IoStreams)

section Runs

variable {setup : ProverSetup} {engines : Engines} {x : Execution} {a : TraceArchive}

/-- A file carries an archive's sections, and its execution. -/
theorem roundTrip_agrees {postcard : Postcard} (lawful : postcard.Lawful)
    (archived : TraceArchive.Archived x) (agrees : Agrees setup engines x a) :
    ∃ b, a.roundTrip postcard = .ok b ∧ Agrees setup engines x b ∧ Grows a b := by
  have form : TraceArchive.Archived a.execution := by
    rw [agrees.execution]
    exact archived
  obtain ⟨b, read, same, later, timing⟩ :=
    TraceArchive.roundTrip_ok postcard lawful agrees.kept form
  have events : b.log.events = a.log.events :=
    congrArg TraceArchive.Execution.events same
  have traces : b.traces = a.traces := congrArg TraceArchive.Execution.traces same
  have profile : b.profile = a.profile := congrArg TraceArchive.Execution.profile same
  refine ⟨b, read, ⟨⟨?_, ?_, ?_, ?_⟩, same.trans agrees.execution, ?_⟩, fun i held => ?_⟩
  · rw [events, traces, profile]
    exact agrees.kept.parts
  · rw [later]
    exact agrees.kept.first
  · rw [later, timing]
    exact agrees.kept.timed
  · rw [later]
    exact agrees.kept.filled
  · rw [later]
    exact agrees.sections
  · rw [later]
    exact held

theorem map_snd_error {α β : Type} {value : Outcome (α × β)} {e : Fault ProverError} :
    value.map Prod.snd = .error e ↔ value = .error e := by
  cases value with
  | error e' => exact ⟨fun same => by cases same; rfl, fun same => by cases same; rfl⟩
  | ok pair => exact ⟨nofun, nofun⟩

/-- A phase that stops stops every later one. -/
theorem final_of_error {e : Fault ProverError} {phase : Trace.Phase}
    (failed : sectionBytes setup engines x phase = .error e) :
    sectionBytes setup engines x .final = .error e := by
  have commit : globalSection setup engines x = .error e →
      sectionBytes setup engines x .final = .error e := fun first =>
    map_snd_error.mpr (sections_of_global_error first).2.2
  cases phase with
  | postExecution => cases failed
  | postCommit => exact commit (map_snd_error.mp failed)
  | postGkr =>
    cases first : globalSection setup engines x with
    | error e' =>
      have stopped := map_snd_error.mp failed
      rw [(sections_of_global_error first).1] at stopped
      cases stopped
      exact commit first
    | ok held => exact map_snd_error.mpr (sections_of_gkr_error first (map_snd_error.mp failed)).2
  | postOpening =>
    cases first : globalSection setup engines x with
    | error e' =>
      have stopped := map_snd_error.mp failed
      rw [(sections_of_global_error first).2.1] at stopped
      cases stopped
      exact commit first
    | ok held => exact map_snd_error.mpr (section_of_proof_error first (map_snd_error.mp failed))
  | final => exact failed

/-- The final section is filled, with the execution's bytes, unless the execution has none. -/
def Finished (setup : ProverSetup) (engines : Engines) (x : Execution) (a : TraceArchive) : Prop :=
  sectionBytes setup engines x .final ≠ .error .panicked ∧
    ∀ bytes, sectionBytes setup engines x .final = .ok bytes →
      a.later Trace.Phase.final.index = some bytes

theorem Finished.grows {b : TraceArchive} (done : Finished setup engines x a)
    (grows : Grows a b) (agrees : Agrees setup engines x b) : Finished setup engines x b := by
  refine ⟨done.1, fun bytes reference => ?_⟩
  have held : (a.later Trace.Phase.final.index).isSome := by
    rw [done.2 bytes reference]
    rfl
  obtain ⟨content, found⟩ := Option.isSome_iff_exists.mp (grows _ held)
  have known := agrees.sections .final content found
  rw [reference] at known
  cases known
  exact found

/-- One move panics with the execution's final phase, or leaves an archive that agrees. -/
theorem perform_spec {postcard : Postcard} (lawful : postcard.Lawful)
    (clocked : x.tables.OnClock) (agrees : Agrees setup engines x a) (move : Move)
    (archived : move = .roundTrip → TraceArchive.Archived x) :
    (perform setup engines postcard a move = none ∧
      sectionBytes setup engines x .final = .error .panicked) ∨
    ∃ b, perform setup engines postcard a move = some b ∧ Agrees setup engines x b ∧ Grows a b ∧
      ∀ clock, move = .advance .final clock → Finished setup engines x b := by
  cases move with
  | roundTrip =>
    obtain ⟨b, read, agreed, grows⟩ := roundTrip_agrees lawful (archived rfl) agrees
    refine Or.inr ⟨b, ?_, agreed, grows, nofun⟩
    rw [perform, read]
    rfl
  | advance upTo clock =>
    obtain ⟨after, ran, agreed, grows, filled⟩ := advance_spec agrees clocked upTo clock
    by_cases panics : sectionBytes setup engines x upTo = .error .panicked
    · refine Or.inl ⟨?_, final_of_error panics⟩
      rw [perform, ran, panics]
      rfl
    · refine Or.inr ⟨after, ?_, agreed, grows, fun clock' same => ?_⟩
      · rw [perform, ran]
        cases reference : sectionBytes setup engines x upTo with
        | ok bytes => rfl
        | error e =>
          cases e with
          | panicked => exact absurd reference panics
          | refused why => rfl
      · cases same
        exact ⟨panics, filled rfl⟩

/-- Any run of moves likewise: it panics with the execution's final phase, or it leaves an archive
that agrees, and is finished if one of the moves went so far. -/
theorem performs_spec {postcard : Postcard} (lawful : postcard.Lawful)
    (clocked : x.tables.OnClock) (moves : List Move)
    (archived : Move.roundTrip ∈ moves → TraceArchive.Archived x) :
    ∀ {a : TraceArchive}, Agrees setup engines x a →
      (performs setup engines postcard moves a = none ∧
        sectionBytes setup engines x .final = .error .panicked) ∨
      ∃ b, performs setup engines postcard moves a = some b ∧ Agrees setup engines x b ∧
        Grows a b ∧ ∀ clock, Move.advance .final clock ∈ moves → Finished setup engines x b := by
  induction moves with
  | nil =>
    intro a agrees
    exact Or.inr ⟨a, rfl, agrees, Grows.refl a, fun clock member => nomatch member⟩
  | cons move moves ih =>
    intro a agrees
    have steps : performs setup engines postcard (move :: moves) a =
        (perform setup engines postcard a move).bind (performs setup engines postcard moves) :=
      List.foldlM_cons
    have form : move = .roundTrip → TraceArchive.Archived x := fun same =>
      archived (List.mem_cons.mpr (Or.inl same.symm))
    have others : Move.roundTrip ∈ moves → TraceArchive.Archived x := fun member =>
      archived (List.mem_cons_of_mem move member)
    rcases perform_spec lawful clocked agrees move form with
      ⟨stopped, panics⟩ | ⟨b, moved, agreed, grows, finished⟩
    · rw [steps, stopped]
      exact Or.inl ⟨rfl, panics⟩
    rw [steps, moved]
    rcases ih others agreed with ⟨stopped, panics⟩ | ⟨c, ran, agreed', grows', finished'⟩
    · exact Or.inl ⟨stopped, panics⟩
    · refine Or.inr ⟨c, ran, agreed', grows.trans grows', fun clock member => ?_⟩
      rcases List.mem_cons.mp member with here | among
      · exact (finished clock here.symm).grows grows' agreed'
      · exact finished' clock among

/-- What a run that went to the final phase ends in, from the execution's final section. -/
def conclusion : Outcome (List UInt8) →
    Option (Option (List UInt8) × Outcome (PublicInputs × List ShardProof))
  | .ok bytes => some (some bytes, archiveError .final (decodeFinal bytes))
  | .error .panicked => none
  | .error (.refused _) => some (none, .error (.refused (.archive "the final phase is empty")))

/-- Whatever the moves, a run that was advanced to the final phase ends in the same. -/
theorem outcome_eq {postcard : Postcard} (lawful : postcard.Lawful)
    (clocked : x.tables.OnClock) (agrees : Agrees setup engines x a) {moves : List Move}
    (archived : Move.roundTrip ∈ moves → TraceArchive.Archived x) {clock : Trace.Phase → UInt64}
    (final : Move.advance .final clock ∈ moves) :
    outcome setup engines postcard moves a = conclusion (sectionBytes setup engines x .final) := by
  rcases performs_spec lawful clocked moves archived agrees with
    ⟨stopped, panics⟩ | ⟨b, ran, agreed, _, finished⟩
  · rw [outcome, stopped, panics]
    rfl
  have done := finished clock final
  rw [outcome, ran, Option.map_some, finish]
  cases reference : sectionBytes setup engines x .final with
  | ok bytes =>
    rw [done.2 bytes reference]
    rfl
  | error e =>
    have empty : b.later Trace.Phase.final.index = none := by
      cases held : b.later Trace.Phase.final.index with
      | none => rfl
      | some content =>
        have known := agreed.sections .final content held
        rw [reference] at known
        cases known
    rw [empty]
    cases e with
    | panicked => exact absurd reference done.1
    | refused why => rfl

/-- The archive of an execution agrees with it. -/
theorem agrees_of_fromExecution {traces : FamilyTraces} {log : MemoryEventLog}
    {profile : CycleProfile} {io : IoStreams} {advice : List UInt8} {timing : UInt64}
    (built : TraceArchive.fromExecution traces log profile io advice timing = some a) :
    Agrees setup engines a.execution a := by
  obtain ⟨kept, later⟩ := TraceArchive.fromExecution_some built
  refine ⟨kept, rfl, fun phase bytes held => ?_⟩
  rw [later] at held
  cases held

/-- A single call meets no file. -/
theorem outcome_single {postcard : Postcard} (lawful : postcard.Lawful)
    (clocked : x.tables.OnClock) (agrees : Agrees setup engines x a) (clock : Trace.Phase → UInt64) :
    outcome setup engines postcard [.advance .final clock] a =
      conclusion (sectionBytes setup engines x .final) := by
  refine outcome_eq lawful clocked agrees (fun member => ?_) (List.mem_singleton.mpr rfl)
  exact nomatch List.mem_singleton.mp member

/-- Resume is transparent. However the calls of `advance` and the files between them are cut, a
block that was taken to its final phase ends as a single call does, where an archive that goes
through a file is of an execution with an archive form; a transcript restored from its snapshot's bytes goes on as the original; and a
section's decoder reads back what its encoder wrote, and no proper prefix or extension of it. -/
theorem resume_transparent (setup : ProverSetup) (engines : Engines) {postcard : Postcard}
    (lawful : postcard.Lawful) {traces : FamilyTraces} {log : MemoryEventLog}
    {profile : CycleProfile} {io : IoStreams} {advice : List UInt8} {timing : UInt64}
    (built : TraceArchive.fromExecution traces log profile io advice timing = some a) :
    (∀ moves clock, Move.advance .final clock ∈ moves →
      (Move.roundTrip ∈ moves → TraceArchive.Archived a.execution) → ∀ single,
      outcome setup engines postcard moves a =
        outcome setup engines postcard [.advance .final single] a) ∧
    (∀ permute before after, ∃ drawn t bytes s,
      Sponge.run permute before Sponge.new = some (drawn, t) ∧
      TranscriptSnapshot.write t.snapshot = some bytes ∧ TranscriptSnapshot.ofBytes bytes = .ok s ∧
      ∃ challenges original resumed, Sponge.run permute after t = some (challenges, original) ∧
        Sponge.run permute after (Sponge.restore s) = some (challenges, resumed) ∧
        resumed.snapshot = original.snapshot) ∧
    (∀ global bytes, global.Fits → encodeGlobal global = some bytes →
      Exact decodeGlobal bytes global) ∧
    (∀ shards bytes, (∀ s ∈ shards, s.entry.Fits) → encodeGkrs shards = some bytes →
      Exact decodeGkrs bytes (shards.map fun s => s.entry.restore)) ∧
    ∀ statement proofs bytes, (statement.Fits ∧ ∀ proof ∈ proofs, proof.Fits) →
      encodeFinal statement proofs = some bytes → Exact decodeFinal bytes (statement, proofs) := by
  have agrees := @agrees_of_fromExecution setup engines a _ _ _ _ _ _ built
  have clocked := agrees.kept.onClock
  refine ⟨fun moves clock final archived single => ?_, Sponge.run_resume,
    fun _ _ => encodeGlobal_exact, fun _ _ => encodeGkrs_exact, fun _ _ _ => encodeFinal_exact⟩
  rw [outcome_eq lawful clocked agrees archived final, outcome_single lawful clocked agrees single]

/-- Field accesses have no archive form: writing the archive out is an assertion. -/
theorem roundTrip_accesses (postcard : Postcard) {t : DelegationTrace}
    (member : t ∈ a.traces.delegations) (accesses : t.accesses ≠ []) :
    a.roundTrip postcard = .error .panicked := by
  have held : ¬ (a.traces.delegations.all fun t => t.accesses.isEmpty) = true := by
    intro every
    exact accesses (List.isEmpty_iff.mp (List.all_eq_true.mp every t member))
  rw [TraceArchive.roundTrip, TraceArchive.exportBytes, TraceArchive.postExecutionBytes,
    if_neg held]
  rfl

end Runs

section Halting

/-- A circuit whose two roots are its one column, of one row. -/
def rootsArtifact : CircuitArtifact where
  formatVersion := 1
  coefficientEncoding := 0
  traceVars := 0
  memory := ["cycle"]
  witness := []
  setup := []
  virtuals := []
  layers := [⟨false, 0, 2, [], [⟨0, .inner 1 0, .linear [(lit 1, .memory 0)] (lit 0)⟩,
    ⟨1, .inner 1 1, .linear [(lit 1, .memory 0)] (lit 0)⟩], []⟩]
  relations := [⟨"read_root", some 0, .linear [(lit 1, .memory 0)] (lit 0)⟩,
    ⟨"write_root", some 1, .linear [(lit 1, .memory 0)] (lit 0)⟩]
  lookups := []
  scratch := [⟨"read_slot", .inner 1 0⟩, ⟨"write_slot", .inner 1 1⟩]
  outputs := [.inner 1 0, .inner 1 1]
  padding := ⟨[0], true⟩

/-- The window families and one more; in the recursion format the field windows and a
delegation's too. -/
def rootsConfig (recursion : Bool) : VmConfig where
  families := [(Family.addSubLuiAuipc, 2 ^ 16), (Family.initTeardown, 2 ^ 16),
    (Family.zeroWindows, 2 ^ 16), (Family.publicInput, 2 ^ 12), (Family.publicOutput, 2 ^ 12),
    (Family.adviceWindows, 2 ^ 16)] ++
    if recursion then [(Family.fieldWindows, 2 ^ 16), (Family.frOp, 2 ^ 16)] else []
  bytecodeSizeWords := 1

theorem length_zeroBytes (n : ℕ) : (List.replicate n (0 : UInt8)).length = n :=
  List.length_replicate

def zeroBytes (n : ℕ) : FixedBytes n := ⟨List.replicate n 0, length_zeroBytes n⟩

/-- Every family under the one circuit, its column all ones. -/
def rootsSetup (recursion : Bool) : ProverSetup where
  families := (rootsConfig recursion).families.map fun entry => ⟨entry.1, entry.2,
    ⟨entry.1, rootsArtifact, []⟩, fun _ => .ok [(.memory 0, .tabulate 0 fun _ => 1)]⟩
  vk :=
    { codeVersion := 1
      config := rootsConfig recursion
      entryPc := 0x10000
      identity := 0
      setupCommitments := (rootsConfig recursion).families.map fun _ => []
      srsVerifier := zeroBytes 320
      genericTable := fun _ => zeroBytes 64
      srsDigest := 0
      circuits := (rootsConfig recursion).families.map fun entry =>
        ⟨entry.1, rootsArtifact, []⟩ }
  ids := by cases recursion <;> decide
  heights := fun f member => by
    obtain ⟨entry, listed, rfl⟩ := List.mem_map.mp member
    exact listed

/-- Engines whose commitments are one point and whose opening is the columns' first rows. -/
def rootsEngines : Engines where
  permute lanes := lanes
  buildMultiplicities _ _ _ := .ok []
  commitPhase columns _ := some (columns.map fun _ => zeroBytes 64)
  shardChallenges _ _ _ _ _ _ := some .empty
  batchOpenStacked opened _ _ _ _ :=
    some (opened.map fun stack => (stack.map fun column => column.get 0).sum, zeroBytes 704)

/-- A run of one cycle, which halts. -/
def haltingTraces (recursion : Bool) : FamilyTraces where
  families := { FamilyTrace.new 0 65536 with
      cycle := [1], pc := [0x10000], nextPc := [1], present := [0],
      queries := fun _ => ⟨[0], [0], [0], [0]⟩ } ::
    [.new 7 65536, .new 8 65536, .new 12 4096, .new 13 4096, .new 14 65536] ++
      if recursion then [.new 18 65536] else []
  delegations := if recursion then [DelegationTrace.new 19 65536 4] else []

/-- The cycle's one event. -/
def haltingEvent : MemoryEvent := ⟨.pc, 0, 4, 0, 0x10000, 1⟩

def haltingLog : MemoryEventLog := ⟨[haltingEvent], ⟨.ofEvents [haltingEvent], none⟩, rfl⟩

def haltingProfile (recursion : Bool) : CycleProfile :=
  ⟨[(0, 1), (7, 0), (8, 0), (12, 0), (13, 0), (14, 0)] ++
    if recursion then [(18, 0), (19, 0)] else []⟩

def haltingArchive (recursion : Bool) : TraceArchive :=
  ⟨haltingTraces recursion, haltingLog, haltingProfile recursion, ⟨[], []⟩, [], fun _ => none,
    fun i => if i = Trace.Phase.postExecution.index then some 0 else none⟩

theorem haltingTraces_accepted (recursion : Bool) : Trace.checkParts (haltingTraces recursion)
    haltingLog.events (haltingProfile recursion) = .ok () := by
  have ascending : (haltingProfile recursion).counts.Pairwise
      fun first second => decide (first.1 ≤ second.1) = true := by
    cases recursion <;> decide
  have counts : (haltingTraces recursion).rowCounts = (haltingProfile recursion).counts := by
    cases recursion <;> exact List.mergeSort_of_pairwise ascending
  have called : Trace.invocations (haltingTraces recursion) = [] := by
    cases recursion <;> exact List.mergeSort_of_pairwise (List.Pairwise.nil)
  have rows : Trace.cycleRows (haltingTraces recursion) =
      (haltingTraces recursion).families.flatMap FamilyTrace.rows := by
    cases recursion <;> exact List.mergeSort_of_pairwise (by decide)
  simp only [Trace.checkParts, Trace.consistent, called, rows, counts, beq_self_eq_true]
  cases recursion <;> decide

theorem haltingArchive_built (recursion : Bool) :
    TraceArchive.fromExecution (haltingTraces recursion) haltingLog (haltingProfile recursion)
      ⟨[], []⟩ [] 0 = some (haltingArchive recursion) := by
  rw [TraceArchive.fromExecution, haltingTraces_accepted]
  rfl

/-- Two phases filled, each with one byte. -/
theorem fillAll_roundTrip_halting :
    ∃ filled b, (haltingArchive false).fillAll [(.postCommit, [1], 5), (.postGkr, [2], 6)] =
      .ok filled ∧ filled.roundTrip .wire = .ok b ∧
        b.execution = (haltingArchive false).execution ∧
          b.later = filled.later ∧ b.timing = filled.timing := by
  obtain ⟨b, read⟩ := TraceArchive.fillAll_roundTrip .wire Postcard.wire_lawful
    (haltingArchive_built false) ⟨nofun, rfl⟩ [(.postCommit, [1], 5), (.postGkr, [2], 6)] rfl
  exact ⟨_, b, rfl, read⟩

/-- What the run's commit phase takes. -/
def haltingStatement (recursion : Bool) : StatementInputs where
  input := []
  output := []
  exitStatus := 0
  shardCounts := [1, 1, 0, 1, 1, 0] ++ if recursion then [0, 0] else []
  windows := []
  boundary := ⟨fun _ => 0, 4, fun _ => 0⟩
  memoryColumns := List.replicate 4 [.tabulate 0 fun _ => 1]

theorem haltingStatement_inputs (recursion : Bool) :
    (rootsSetup recursion).statementInputs (haltingArchive recursion).execution =
      .ok (haltingStatement recursion) := by
  have windows : ∀ height,
      initWindows (haltingArchive recursion).execution.tables height = [] := by
    intro height
    have touched : (haltingArchive recursion).execution.tables.touchedRamWindows height = [] :=
      congrArg List.dedup List.mergeSort_nil
    rw [initWindows, touched]
    rfl
  simp only [ProverSetup.statementInputs, windows]
  cases recursion <;> rfl

/-- The recursion run is proved. -/
theorem halting_proved : ∃ complete bytes, finalSection (rootsSetup true) rootsEngines
    (haltingArchive true).execution = .ok (complete, bytes) := by
  have committed : commitGlobal (rootsSetup true) rootsEngines (haltingArchive true).execution =
      (rootsSetup true).globalCommitPhase rootsEngines (haltingStatement true) := by
    rw [commitGlobal, haltingStatement_inputs]
    rfl
  have ends : (finalSection (rootsSetup true) rootsEngines
      (haltingArchive true).execution).toOption.isSome = true := by
    simp only [finalSection, proofSection, gkrSection, globalSection, committed]
    decide +kernel
  cases found : finalSection (rootsSetup true) rootsEngines (haltingArchive true).execution with
  | error e =>
    rw [found] at ends
    cases ends
  | ok held => exact ⟨held.1, held.2, rfl⟩

theorem outcome_halting (clock : Trace.Phase → UInt64) : ∃ bytes finished,
    outcome (rootsSetup true) rootsEngines .wire [.advance .final clock]
      (haltingArchive true) = some (some bytes, .ok finished) := by
  have agrees := @agrees_of_fromExecution (rootsSetup true) rootsEngines _ _ _ _ _ _ _
    (haltingArchive_built true)
  have clocked := agrees.kept.onClock
  obtain ⟨complete, bytes, found⟩ := halting_proved
  obtain ⟨_, _, proofs, _, _, _, _, decoded⟩ := finalSection_ok clocked found
  have reference : sectionBytes (rootsSetup true) rootsEngines (haltingArchive true).execution
      .final = .ok bytes := by
    rw [sectionBytes, found]
    rfl
  refine ⟨bytes, (complete, proofs), ?_⟩
  rw [outcome_single Postcard.wire_lawful clocked agrees clock, reference, conclusion, decoded]
  rfl

/-- A recursion execution is accepted and proved, and its round trip is an assertion. -/
theorem resume_recursion_panics :
    TraceArchive.fromExecution (haltingTraces true) haltingLog (haltingProfile true)
      ⟨[], []⟩ [] 0 = some (haltingArchive true) ∧
    (∃ bytes finished, outcome (rootsSetup true) rootsEngines .wire [.advance .final fun _ => 0]
      (haltingArchive true) = some (some bytes, .ok finished)) ∧
    outcome (rootsSetup true) rootsEngines .wire [.roundTrip, .advance .final fun _ => 0]
      (haltingArchive true) = none := by
  refine ⟨haltingArchive_built true, outcome_halting _, ?_⟩
  have refused : (haltingArchive true).roundTrip .wire = .error .panicked :=
    roundTrip_accesses .wire (List.mem_singleton.mpr rfl) (List.cons_ne_nil _ _)
  have stopped : performs (rootsSetup true) rootsEngines .wire
      [.roundTrip, .advance .final fun _ => 0] (haltingArchive true) = none := by
    rw [performs, List.foldlM_cons, perform, refused]
    rfl
  rw [outcome, stopped]
  rfl

/-- A file between two calls, and then to the end: as in one call. -/
theorem resume_halting :
    outcome (rootsSetup false) rootsEngines .wire [.advance .postCommit fun _ => 1, .roundTrip,
        .advance .final fun _ => 2] (haltingArchive false) =
      outcome (rootsSetup false) rootsEngines .wire [.advance .final fun _ => 0]
        (haltingArchive false) := by
  refine (resume_transparent (rootsSetup false) rootsEngines Postcard.wire_lawful
    (haltingArchive_built false)).1 _ (fun _ => 2) ?_ (fun _ => ⟨?_, rfl⟩) _
  · exact List.mem_cons_of_mem _ (List.mem_cons_of_mem _ (List.mem_singleton.mpr rfl))
  · exact fun t member => nomatch member

end Halting

end Apogee.Prover
