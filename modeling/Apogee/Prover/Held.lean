import Apogee.Prover.Phases

/-! # What the phases hold

What each phase computes is what its section can hold: the statement's numbers are
their types' and its boundary is on the clock, every transcript is one between
operations, and a shard's opening does not see its transcript's record of events.
-/

namespace Apogee

open Duplex

section Transcripts

variable {permute : Lanes → Lanes}

theorem appendScalars_atRest {d : Duplex} (rest : d.AtRest) (tag : ℕ) (xs : List Fr) :
    (d.appendScalars permute tag xs).AtRest :=
  Sponge.perform_atRest permute (.appendScalars tag xs) rest

theorem challengeScalar_atRest {d : Duplex} (rest : d.AtRest) (tag : ℕ) :
    (d.challengeScalar permute tag).2.AtRest :=
  Sponge.perform_atRest permute (.challengeScalar tag) rest

theorem challengeScalars_atRest {d : Duplex} (rest : d.AtRest) (tag count : ℕ) :
    (d.challengeScalars permute tag count).2.AtRest := by
  induction count generalizing d with
  | zero => exact rest
  | succ count ih => exact ih (challengeScalar_atRest rest tag)

theorem absorbStatementDescriptor_atRest {config : VmConfig} {shardCounts windows : List ℕ}
    {d after : Duplex} (rest : d.AtRest)
    (absorbed : absorbStatementDescriptor permute config shardCounts windows d = some after) :
    after.AtRest := by
  obtain ⟨-, same⟩ := Option.ite_none_right_eq_some.mp absorbed
  cases same
  exact appendScalars_atRest (appendScalars_atRest (appendScalars_atRest rest _ _) _ _) _ _

theorem absorbLists_atRest (count : ℕ) {lists left : List (List (FixedBytes 64))}
    {d after : Duplex} (rest : d.AtRest)
    (absorbed : absorbLists permute count lists d = some (left, after)) : after.AtRest := by
  induction count generalizing lists d with
  | zero =>
    cases absorbed
    exact rest
  | succ count ih =>
    cases lists with
    | nil => cases absorbed
    | cons list lists => exact ih (appendScalars_atRest rest _ _) absorbed

theorem absorbGroups_atRest {groups : List (ℕ × ℕ)} {lists left : List (List (FixedBytes 64))}
    {d after : Duplex} (rest : d.AtRest)
    (absorbed : absorbGroups permute groups lists d = some (left, after)) : after.AtRest := by
  induction groups generalizing lists d with
  | nil =>
    cases absorbed
    exact rest
  | cons group groups ih =>
    rw [absorbGroups, Option.bind_eq_bind, Option.bind_eq_some_iff] at absorbed
    obtain ⟨⟨middle, t⟩, here, others⟩ := absorbed
    exact ih (absorbLists_atRest group.2 (appendScalars_atRest rest _ _) here) others

theorem globalTranscript_atRest {srsDigest identity : Fr} {config : VmConfig}
    {statement : PublicInputs} {global : GlobalTranscript}
    (ran : globalTranscript permute srsDigest config identity statement = some global) :
    global.transcript.AtRest := by
  unfold globalTranscript at ran
  simp only [Option.bind_eq_bind, Option.bind_eq_some_iff] at ran
  obtain ⟨described, descriptor, ⟨left, grouped⟩, absorbed, finished⟩ := ran
  obtain ⟨-, same⟩ := Option.ite_none_right_eq_some.mp finished
  have first : described.AtRest := absorbStatementDescriptor_atRest
    (appendScalars_atRest (appendScalars_atRest new_atRest _ _) _ _) descriptor
  have whole : grouped.AtRest := absorbGroups_atRest
    (Sponge.perform_atRest permute (.appendBytes _ _) (appendScalars_atRest first _ _)) absorbed
  have bounded := @appendScalars_atRest permute _ whole TranscriptTag.memoryBoundary
    (boundaryScalars statement.boundary)
  have drawn := @challengeScalars_atRest permute _ bounded TranscriptTag.memoryChallenge 4
  rw [← Option.some.inj same]
  exact challengeScalar_atRest drawn _

theorem shardTranscript_atRest (digest : Fr) (family index : ℕ) (tsWindow : ℕ × ℕ)
    (witnessCommitments : List (FixedBytes 64)) :
    (shardTranscript permute digest family index tsWindow witnessCommitments).1.AtRest := by
  apply challengeScalar_atRest
  apply challengeScalar_atRest
  exact appendScalars_atRest (appendScalars_atRest (appendScalars_atRest new_atRest _ _) _ _) _ _

end Transcripts

namespace Sponge

variable (permute : Lanes → Lanes)

/-- A transcript between operations, whatever its record. -/
def Live (t : Sponge) : Prop := ∃ events d, Duplex.AtRest d ∧ t = of events d

theorem Live.canonical {t : Sponge} (live : t.Live) : t.snapshot.canonical = true := by
  obtain ⟨events, d, rest, rfl⟩ := live
  exact snapshot_canonical events rest

theorem replay_live {t after : Sponge} (live : t.Live) {events : List TranscriptEvent}
    (ran : t.replay permute events = some after) : after.Live := by
  obtain ⟨record, d, rest, rfl⟩ := live
  rw [replay, run_of permute record _ rest] at ran
  cases ran
  exact ⟨_, _, performs_atRest permute _ rest, rfl⟩

/-- An engine does not see a transcript's record. -/
theorem transcript_of (events : List LoggedEvent) {d : Duplex} (rest : d.AtRest) :
    (of events d).transcript permute = (of [] d).transcript permute := by
  simp only [transcript, run_of permute _ _ rest]

theorem challengeScalars_of (tag count : ℕ) (events : List LoggedEvent) {d : Duplex}
    (rest : d.AtRest) : (of events d).challengeScalars permute tag count =
      some ((d.challengeScalars permute tag count).1,
        of (events ++ List.replicate count (.challenge tag))
          (d.challengeScalars permute tag count).2) := by
  induction count generalizing d events with
  | zero => rw [challengeScalars, List.replicate_zero, List.append_nil]; rfl
  | succ count ih =>
    rw [challengeScalars, challengeScalar_of permute events tag rest, Option.bind_eq_bind,
      Option.bind_some]
    dsimp only
    rw [ih _ (challengeScalar_atRest rest tag), Option.bind_eq_bind, Option.bind_some,
      List.append_assoc]
    rfl

end Sponge

namespace Trace

/-- Every last write is on the clock. -/
structure LastAccess.OnClock (state : LastAccess) : Prop where
  regs : ∀ r last, state.regs r = some last → last.1.toNat < 2 ^ 38
  pc : ∀ last, state.pc = some last → last.1.toNat < 2 ^ 38

namespace LastAccess

theorem remember_onClock {state : LastAccess} (held : state.OnClock) {e : MemoryEvent}
    (early : e.ts.toNat < 2 ^ 38) : (state.remember e).OnClock := by
  unfold remember
  cases e.space with
  | reg =>
    dsimp only
    cases register e.addr with
    | none => exact held
    | some r =>
      refine ⟨fun s last found => ?_, held.pc⟩
      change Function.update state.regs r (some (e.ts, e.writeValue)) s = some last at found
      by_cases here : s = r
      · subst here
        rw [Function.update_self] at found
        cases found
        exact early
      · rw [Function.update_of_ne here] at found
        exact held.regs s last found
  | pc =>
    refine ⟨held.regs, fun last found => ?_⟩
    cases found
    exact early
  | ram => exact ⟨held.regs, held.pc⟩
  | _ => exact held

theorem ofEvents_onClock {events : List MemoryEvent}
    (early : ∀ e ∈ events, e.ts.toNat < 2 ^ 38) : (ofEvents events).OnClock := by
  induction events using List.reverseRecOn with
  | nil => exact ⟨fun _ _ wrong => (nomatch wrong), fun _ wrong => (nomatch wrong)⟩
  | append_singleton events e ih =>
    rw [ofEvents_append]
    exact remember_onClock (ih fun other member => early other (List.mem_append_left _ member))
      (early e (List.mem_append_right _ (List.mem_singleton_self e)))

end LastAccess

theorem TraceArchive.Kept.onClock {a : TraceArchive} (kept : a.Kept) :
    a.execution.tables.OnClock := by
  have events := LastAccess.ofEvents_onClock fun e member =>
    (events_of_checkParts kept.parts e member).2
  rw [← a.log.follows] at events
  exact ⟨events.regs, events.pc⟩

end Trace

namespace Prover

open Trace (Fault)
open Math (bind_ok then_ok exists_of_mapM_ok)

section Outcomes

variable {α β : Type}

theorem expect_ok {found : Option α} {x : α} : expect found = .ok x ↔ found = some x := by
  cases found with
  | none => exact iff_of_false (fun wrong => nomatch wrong) fun wrong => nomatch wrong
  | some y => rw [expect, Except.ok.injEq, Option.some.injEq]

theorem firstError_ok {results : List (Outcome α)} {ys : List α}
    (ran : firstError results = .ok ys) : ∀ y ∈ ys, .ok y ∈ results := by
  unfold firstError at ran
  split at ran
  · cases ran
  · intro y member
    obtain ⟨result, within, found⟩ := exists_of_mapM_ok ran y member
    rw [← found]
    exact within

end Outcomes

section Statement

variable {setup : ProverSetup} {engines : Engines} {x : Execution}

theorem planShards_lt {profile : Trace.CycleProfile} {config : VmConfig} {plan : List (ℕ × ℕ)}
    (planned : planShards profile config = .ok plan) : ∀ entry ∈ plan, entry.2 < 2 ^ 32 := by
  unfold planShards at planned
  split at planned
  · intro entry member
    obtain ⟨source, -, found⟩ := exists_of_mapM_ok planned entry member
    dsimp only at found
    split at found
    case isTrue small =>
      cases found
      exact small.2
    case isFalse => cases found
  · cases planned

theorem adviceWindowCount_lt {advice : List UInt8} {height n : ℕ}
    (counted : adviceWindowCount advice height = .ok n) : n < 2 ^ 32 := by
  unfold adviceWindowCount at counted
  dsimp only at counted
  split at counted
  case isTrue small =>
    cases counted
    exact small.2
  case isFalse => cases counted

theorem fieldWindows_lt (state : Trace.LastAccess) (height : ℕ) :
    state.fieldWindows height < 2 ^ 32 := by
  unfold Trace.LastAccess.fieldWindows
  split
  · exact Nat.mod_lt _ (by decide)
  · decide

theorem shardCounts_lt {config : VmConfig} {windows counts : List ℕ} {height : ℕ}
    (counted : shardCounts config x windows height = .ok counts) :
    ∀ count ∈ counts, count < 2 ^ 32 := by
  unfold shardCounts at counted
  obtain ⟨plan, planned, mapped⟩ := bind_ok.mp counted
  intro count member
  obtain ⟨entry, within, found⟩ := exists_of_mapM_ok mapped count member
  have planLt := planShards_lt planned entry within
  split at found
  · cases found; decide
  split at found
  · cases found; exact Nat.mod_lt _ (by decide)
  split at found
  · cases found; decide
  split at found
  · exact adviceWindowCount_lt found
  split at found
  · obtain ⟨_, -, same⟩ := bind_ok.mp found
    cases same
    exact fieldWindows_lt _ _
  · cases found; exact planLt

theorem initWindows_lt (state : Trace.LastAccess) (height : ℕ) :
    ∀ window ∈ initWindows state height, window < 2 ^ 32 := by
  intro window member
  rw [initWindows, List.mem_filter, Trace.LastAccess.touchedRamWindows, List.mem_dedup,
    List.mem_mergeSort, List.mem_map] at member
  obtain ⟨⟨entry, -, rfl⟩, -⟩ := member
  exact (Nat.div_le_self _ _).trans_lt entry.1.toNat_lt

theorem boundaryFits {finals : Memory.BoundaryFinals} (clocked : x.tables.OnClock)
    (built : buildBoundaryFinals x.tables = .ok finals) :
    PublicInputs.BoundaryFits finals := by
  unfold buildBoundaryFinals at built
  obtain ⟨⟨pcTs, pcValue⟩, pc, rest⟩ := bind_ok.mp built
  dsimp only at rest
  split at rest
  case isFalse => cases rest
  case isTrue =>
    cases rest
    refine ⟨fun r => ?_, clocked.pc _ (expect_ok.mp pc), fun r => ?_⟩
    · dsimp only
      cases found : x.tables.regs r with
      | none => exact Nat.two_pow_pos 38
      | some last => exact clocked.regs r last found
    · dsimp only
      cases x.tables.regs r.succ with
      | none => exact Nat.two_pow_pos 32
      | some last => exact last.2.toNat_lt

/-- A global commit phase's state is one its section can hold. -/
theorem commitGlobal_fits (clocked : x.tables.OnClock) {global : GlobalCommitState}
    (ran : commitGlobal setup engines x = .ok global) : global.Fits := by
  obtain ⟨inputs, gathered, committed⟩ := bind_ok.mp ran
  unfold ProverSetup.statementInputs at gathered
  obtain ⟨height, -, gathered⟩ := bind_ok.mp gathered
  obtain ⟨counts, counted, gathered⟩ := bind_ok.mp gathered
  obtain ⟨boundary, built, gathered⟩ := bind_ok.mp gathered
  obtain ⟨columns, -, same⟩ := bind_ok.mp gathered
  cases same
  unfold ProverSetup.globalCommitPhase at committed
  obtain ⟨commitments, -, committed⟩ := bind_ok.mp committed
  obtain ⟨transcript, drawn, same⟩ := bind_ok.mp committed
  cases same
  have fits := boundaryFits clocked built
  refine ⟨⟨fits.regValues 9, shardCounts_lt counted, initWindows_lt _ _, fits⟩, ?_⟩
  exact Sponge.snapshot_canonical [] (globalTranscript_atRest (expect_ok.mp drawn))

end Statement

section Shards

variable {setup : ProverSetup} {engines : Engines} {x : Execution} {global : GlobalCommitState}

/-- A statement's shard is of a config family, below one of the counts. -/
theorem mem_statementShards {config : VmConfig} {counts : List ℕ} {shard : ShardId}
    (member : shard ∈ statementShards config counts) :
    (∃ entry ∈ config.families, entry.1 = shard.family) ∧ ∃ count ∈ counts, shard.index < count := by
  rw [statementShards, List.mem_flatMap] at member
  obtain ⟨group, grouped, listed⟩ := member
  obtain ⟨index, below, rfl⟩ := List.mem_map.mp listed
  have paired : group ∈ (config.families.zip counts).map fun entry => (entry.1.1, entry.2) := by
    rw [groups, List.mem_append, List.mem_append, List.mem_filter, List.mem_filter,
      List.mem_filter] at grouped
    rcases grouped with (front | front) | front
    · exact front.1
    · exact front.1
    · exact front.1
  obtain ⟨entry, zipped, rfl⟩ := List.mem_map.mp paired
  obtain ⟨family, count⟩ := List.of_mem_zip zipped
  exact ⟨⟨entry.1, family, rfl⟩, entry.2, count, List.mem_range.mp below⟩

theorem cycleTs_lt (cycle : ℕ) : cycleTs cycle < 2 ^ 64 :=
  (min_le_right _ _).trans_lt (by decide)

theorem tsWindow_lt {family : ℕ} {base : BaseLayer} {window : ℕ × ℕ}
    (claimed : tsWindow family base = .ok window) : window.1 < 2 ^ 64 ∧ window.2 < 2 ^ 64 := by
  unfold tsWindow at claimed
  split at claimed
  · cases claimed
  split at claimed
  · cases claimed
    exact ⟨by decide, by decide⟩
  · obtain ⟨cycles, -, same⟩ := bind_ok.mp claimed
    cases same
    exact ⟨cycleTs_lt _, (min_le_right _ _).trans_lt (by decide)⟩

/-- What a shard's GKR part leaves. -/
structure GkrHeld (family index : ℕ) (s : ShardGkr) : Prop where
  family : s.family = family
  index : s.index = index
  tsWindow : s.tsWindow.1 < 2 ^ 64 ∧ s.tsWindow.2 < 2 ^ 64
  live : s.transcript.Live

theorem gkrPart_held {family index : ℕ} {base : BaseLayer} {s : ShardGkr}
    (ran : gkrPart setup engines global family index base = .ok s) : GkrHeld family index s := by
  unfold gkrPart at ran
  obtain ⟨reg, -, ran⟩ := bind_ok.mp ran
  obtain ⟨witness, -, ran⟩ := bind_ok.mp ran
  obtain ⟨sigma, -, ran⟩ := bind_ok.mp ran
  obtain ⟨commitments, -, ran⟩ := bind_ok.mp ran
  obtain ⟨window, claimed, ran⟩ := bind_ok.mp ran
  obtain ⟨challenges, -, ran⟩ := bind_ok.mp ran
  obtain ⟨outputs, -, ran⟩ := bind_ok.mp ran
  obtain ⟨after, replayed, ran⟩ := bind_ok.mp ran
  obtain ⟨point, -, ran⟩ := bind_ok.mp ran
  dsimp only at ran
  split at ran
  case isFalse => cases ran
  case isTrue =>
    cases ran
    have seeded := @shardTranscript_atRest engines.permute global.digest family index window
      commitments
    exact ⟨rfl, rfl, tsWindow_lt claimed,
      Sponge.replay_live engines.permute ⟨[], _, seeded, rfl⟩ (expect_ok.mp replayed)⟩

/-- Every shard after its GKR proof is one its section can hold, its transcript live. -/
theorem proveGkrs_held (counts : ∀ count ∈ global.statement.shardCounts, count < 2 ^ 32)
    {gkrs : List ShardGkr} (ran : proveGkrs setup engines x global = .ok gkrs) :
    ∀ s ∈ gkrs, s.entry.Fits ∧ s.transcript.Live := by
  intro s member
  obtain ⟨shard, listed, found⟩ := List.mem_map.mp (firstError_ok ran s member)
  obtain ⟨base, -, proved⟩ := bind_ok.mp found
  have held := gkrPart_held proved
  obtain ⟨⟨entry, attached, family⟩, count, counted, below⟩ := mem_statementShards listed
  refine ⟨⟨?_, ?_, held.tsWindow, held.live.canonical⟩, held.live⟩
  · change s.family < 2 ^ 32
    rw [held.family, ← family]
    exact setup.ids entry attached
  · change s.index < 2 ^ 32
    rw [held.index]
    exact below.trans (counts count counted)

/-- A shard's proof carries its shard's numbers. -/
theorem openingPart_fits {shard : ShardGkr} (fits : shard.entry.Fits) {base : BaseLayer}
    {proof : ShardProof} (ran : openingPart setup engines global shard base = .ok proof) :
    proof.Fits := by
  unfold openingPart at ran
  obtain ⟨reg, -, ran⟩ := bind_ok.mp ran
  obtain ⟨columns, -, ran⟩ := bind_ok.mp ran
  obtain ⟨familyIndex, -, ran⟩ := bind_ok.mp ran
  obtain ⟨setupCommitments, -, ran⟩ := bind_ok.mp ran
  obtain ⟨position, -, ran⟩ := bind_ok.mp ran
  obtain ⟨memoryCommitments, -, ran⟩ := bind_ok.mp ran
  obtain ⟨sigma, -, ran⟩ := bind_ok.mp ran
  obtain ⟨drawn, -, ran⟩ := bind_ok.mp ran
  obtain ⟨opened, -, ran⟩ := bind_ok.mp ran
  obtain ⟨first, -, ran⟩ := bind_ok.mp ran
  split at ran
  case isFalse => cases ran
  case isTrue =>
    cases ran
    exact ⟨fits.family, fits.index, fits.tsWindow⟩

theorem openShards_fits {gkrs : List ShardGkr} (fits : ∀ s ∈ gkrs, s.entry.Fits)
    {proofs : List ShardProof} (ran : openShards setup engines x global gkrs = .ok proofs) :
    ∀ proof ∈ proofs, proof.Fits := by
  intro proof member
  obtain ⟨shard, listed, found⟩ := List.mem_map.mp (firstError_ok ran proof member)
  obtain ⟨base, -, opened⟩ := bind_ok.mp found
  exact openingPart_fits (fits shard listed) opened

/-- An opening from a restored transcript is the opening from the live one. -/
theorem openingPart_restore {shard : ShardGkr} (live : shard.transcript.Live) (base : BaseLayer) :
    openingPart setup engines global shard.entry.restore base =
      openingPart setup engines global shard base := by
  obtain ⟨events, d, rest, same⟩ := live
  have restored : shard.entry.restore = { shard with transcript := Sponge.of [] d } := by
    rw [ShardEntry.restore, ShardGkr.entry, same, Sponge.restore_snapshot_of events rest]
  have draws : ∀ tag count record,
      (expect ((Sponge.of record d).challengeScalars engines.permute tag count)) =
        .ok ((d.challengeScalars engines.permute tag count).1,
          Sponge.of (record ++ List.replicate count (.challenge tag))
            (d.challengeScalars engines.permute tag count).2) := by
    intro tag count record
    rw [Sponge.challengeScalars_of engines.permute tag count record rest, expect]
  have unseen : ∀ tag count record,
      (Sponge.of (record ++ List.replicate count (.challenge tag))
        (d.challengeScalars engines.permute tag count).2).transcript engines.permute =
        (Sponge.of [] (d.challengeScalars engines.permute tag count).2).transcript
          engines.permute := fun tag count record =>
    Sponge.transcript_of engines.permute _ (challengeScalars_atRest rest tag count)
  rw [restored]
  unfold openingPart
  simp only [same, draws, bind, Except.bind, unseen]

theorem openShards_restore {gkrs : List ShardGkr} (live : ∀ s ∈ gkrs, s.transcript.Live) :
    openShards setup engines x global (gkrs.map fun s => s.entry.restore) =
      openShards setup engines x global gkrs := by
  unfold openShards
  rw [List.map_map]
  refine congrArg firstError (List.map_congr_left fun shard member => ?_)
  have opened : ∀ base, openingPart setup engines global shard.entry.restore base =
      openingPart setup engines global shard base :=
    openingPart_restore (live shard member)
  rw [Function.comp_apply]
  simp only [opened]
  rfl

theorem publicInputs_fits (fits : global.statement.Fits) {proofs : List ShardProof}
    {complete : PublicInputs} (ran : publicInputs global proofs = .ok complete) :
    complete.Fits := by
  unfold publicInputs at ran
  obtain ⟨roots, -, same⟩ := bind_ok.mp ran
  cases same
  exact ⟨fits.exitStatus, fits.shardCounts, fits.windows, fits.boundary⟩

end Shards

end Prover

end Apogee
