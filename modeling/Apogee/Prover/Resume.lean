import Apogee.Prover.Held

/-! # Resuming a block

Each later section is a function of the execution alone. An archive whose filled
sections are those stays so under `advance` and under a round trip through a file,
so whatever phases a run was cut at, its final section is the uninterrupted run's.
-/

namespace Apogee.Prover

open Trace (Fault TraceArchive Postcard)
open Math (bind_ok)

section Running

variable {α β : Type} {a after : TraceArchive}

theorem run_bind_ok {first : Advancing α} {next : α → Advancing β} {v : α}
    (ran : first.run a = (.ok v, after)) : (first >>= next).run a = (next v).run after := by
  rw [ExceptT.run_bind]
  change StateT.bind first.run _ a = _
  rw [StateT.bind, ran]
  rfl

theorem run_bind_error {first : Advancing α} {next : α → Advancing β} {e : Fault ProverError}
    (ran : first.run a = (.error e, after)) : (first >>= next).run a = (.error e, after) := by
  rw [ExceptT.run_bind]
  change StateT.bind first.run _ a = _
  rw [StateT.bind, ran]
  rfl

theorem run_lift_ok {given : Outcome α} {next : α → Advancing β} {v : α} (ok : given = .ok v) :
    ((liftM given : Advancing α) >>= next).run a = (next v).run a := by
  rw [ok]
  exact run_bind_ok rfl

theorem run_lift_error {given : Outcome α} {next : α → Advancing β} {e : Fault ProverError}
    (failed : given = .error e) :
    ((liftM given : Advancing α) >>= next).run a = (.error e, a) := by
  rw [failed]
  exact run_bind_error rfl

end Running

section Reference

variable (setup : ProverSetup) (engines : Engines) (x : Execution)

/-- A phase's value and its section's bytes. -/
def encoded {α : Type} (encode : α → Option (List UInt8)) (value : Outcome α) :
    Outcome (α × List UInt8) := do
  let v ← value
  let bytes ← expect (encode v)
  .ok (v, bytes)

def globalSection : Outcome (GlobalCommitState × List UInt8) :=
  encoded encodeGlobal (commitGlobal setup engines x)

def gkrSection : Outcome (List ShardGkr × List UInt8) := do
  let (global, _) ← globalSection setup engines x
  encoded encodeGkrs (proveGkrs setup engines x global)

def proofSection : Outcome (List ShardProof × List UInt8) := do
  let (global, _) ← globalSection setup engines x
  let (gkrs, _) ← gkrSection setup engines x
  encoded encodeProofs (openShards setup engines x global gkrs)

def finalSection : Outcome (PublicInputs × List UInt8) := do
  let (global, _) ← globalSection setup engines x
  let (proofs, _) ← proofSection setup engines x
  let complete ← publicInputs global proofs
  let bytes ← expect (encodeFinal complete proofs)
  .ok (complete, bytes)

/-- What each phase's section is, from the execution alone. -/
def sectionBytes : Trace.Phase → Outcome (List UInt8)
  | .postExecution => .ok []
  | .postCommit => (globalSection setup engines x).map Prod.snd
  | .postGkr => (gkrSection setup engines x).map Prod.snd
  | .postOpening => (proofSection setup engines x).map Prod.snd
  | .final => (finalSection setup engines x).map Prod.snd

/-- An archive of the execution whose filled sections are the execution's. -/
structure Agrees (a : TraceArchive) : Prop where
  kept : a.Kept
  execution : a.execution = x
  sections : ∀ phase bytes, a.later phase.index = some bytes →
    sectionBytes setup engines x phase = .ok bytes

end Reference

section Filling

variable {setup : ProverSetup} {engines : Engines} {x : Execution} {a : TraceArchive}

/-- Nothing filled is emptied. -/
def Grows (a after : TraceArchive) : Prop := ∀ i, (a.later i).isSome → (after.later i).isSome

theorem Grows.refl (a : TraceArchive) : Grows a a := fun _ filled => filled

theorem Grows.trans {b c : TraceArchive} (first : Grows a b) (second : Grows b c) : Grows a c :=
  fun i filled => second i (first i filled)

/-- Filling the next section with the execution's bytes. -/
theorem fill_agrees (agrees : Agrees setup engines x a) {phase : Trace.Phase}
    (later : phase ≠ .postExecution) (empty : a.later phase.index = none)
    (before : a.isFilled (Trace.Phase.phases (phase.index - 1)) = true) {content : List UInt8}
    (section_ : sectionBytes setup engines x phase = .ok content) (timing : UInt64) :
    ∃ after, a.fill phase content timing = .ok after ∧ Agrees setup engines x after ∧
      after.later phase.index = some content ∧ Grows a after := by
  have filled := TraceArchive.fill_ok content timing later empty before
  obtain ⟨kept, execution, grows⟩ := agrees.kept.fill filled
  refine ⟨_, filled, ⟨kept, execution.trans agrees.execution, fun p bytes found => ?_⟩,
    Function.update_self .., grows⟩
  dsimp only at found
  by_cases same : p.index = phase.index
  · obtain rfl : p = phase := by
      rw [← Trace.Phase.phases_index p, same, Trace.Phase.phases_index]
    rw [Function.update_self] at found
    cases found
    exact section_
  · rw [Function.update_of_ne same] at found
    exact agrees.sections p bytes found

theorem phaseValue_held {α : Type} {phase : Trace.Phase} {clock : Trace.Phase → UInt64}
    {decode : List UInt8 → Except String α} {encode : α → Option (List UInt8)}
    {compute : Execution → Outcome α} {bytes : List UInt8}
    (held : a.later phase.index = some bytes) :
    (phaseValue phase clock decode encode compute).run a = (archiveError phase (decode bytes), a) := by
  unfold phaseValue
  have archive : (get : Advancing TraceArchive).run a = (.ok a, a) := rfl
  refine (run_bind_ok archive).trans ?_
  rw [held]
  rfl

theorem phaseValue_empty {α : Type} {phase : Trace.Phase} {clock : Trace.Phase → UInt64}
    {decode : List UInt8 → Except String α} {encode : α → Option (List UInt8)}
    {compute : Execution → Outcome α} (empty : a.later phase.index = none) :
    (phaseValue phase clock decode encode compute).run a = (do
      let value ← compute a.execution
      let content ← expect (encode value)
      let filled ← fillError (a.fill phase content (clock phase))
      set filled
      pure value : Advancing α).run a := by
  unfold phaseValue
  have archive : (get : Advancing TraceArchive).run a = (.ok a, a) := rfl
  refine (run_bind_ok archive).trans ?_
  rw [empty]

/-- A phase's value is the execution's, and its section is filled; or the phase fails as the
execution's does, and nothing changes. -/
theorem phaseValue_spec (agrees : Agrees setup engines x a) {α : Type} (phase : Trace.Phase)
    (clock : Trace.Phase → UInt64) (decode : List UInt8 → Except String α)
    (encode : α → Option (List UInt8)) (compute : Execution → Outcome α) (alike : α → α → Prop)
    (later : phase ≠ .postExecution)
    (before : a.isFilled (Trace.Phase.phases (phase.index - 1)) = true) (self : ∀ v, alike v v)
    (bytesOf : sectionBytes setup engines x phase = (encoded encode (compute x)).map Prod.snd)
    (decodes : ∀ v bytes, encoded encode (compute x) = .ok (v, bytes) →
      ∃ w, decode bytes = .ok w ∧ alike v w) :
    (∃ e, encoded encode (compute x) = .error e ∧
      (phaseValue phase clock decode encode compute).run a = (.error e, a)) ∨
    ∃ v bytes w after, encoded encode (compute x) = .ok (v, bytes) ∧ alike v w ∧
      (phaseValue phase clock decode encode compute).run a = (.ok w, after) ∧
      Agrees setup engines x after ∧ after.later phase.index = some bytes ∧ Grows a after := by
  cases held : a.later phase.index with
  | some bytes =>
    have reference := agrees.sections phase bytes held
    rw [bytesOf] at reference
    cases computed : encoded encode (compute x) with
    | error e =>
      rw [computed] at reference
      cases reference
    | ok pair =>
      rw [computed] at reference
      cases reference
      obtain ⟨w, decoded, same⟩ := decodes pair.1 pair.2 computed
      refine Or.inr ⟨pair.1, pair.2, w, a, rfl, same, ?_, agrees, held, Grows.refl a⟩
      rw [phaseValue_held held, decoded]
      rfl
  | none =>
    rw [phaseValue_empty held, agrees.execution]
    unfold encoded at bytesOf ⊢
    cases computed : compute x with
    | error e =>
      exact Or.inl ⟨e, rfl, rfl⟩
    | ok v =>
      cases wrote : encode v with
      | none =>
        refine Or.inl ⟨.panicked, ?_, ?_⟩
        · change (expect (encode v) >>= fun bytes => .ok (v, bytes)) = _
          rw [wrote]
          rfl
        · change ((liftM (expect (encode v)) >>= fun content => do
            let filled ← liftM (fillError (a.fill phase content (clock phase)))
            set filled
            pure v : Advancing α)).run a = _
          rw [wrote]
          rfl
      | some content =>
        have value : (do
            let v ← compute x
            let bytes ← expect (encode v)
            Except.ok (v, bytes) : Outcome (α × List UInt8)) = .ok (v, content) := by
          rw [computed]
          change (expect (encode v) >>= fun bytes => .ok (v, bytes)) = _
          rw [wrote]
          rfl
        have section_ : sectionBytes setup engines x phase = .ok content := by
          rw [bytesOf, value]
          rfl
        obtain ⟨after, filled, agreed, found, grows⟩ :=
          fill_agrees agrees later held before section_ (clock phase)
        refine Or.inr ⟨v, content, v, after, ?_, self v, ?_, agreed, found, grows⟩
        · rw [computed] at value
          exact value
        · change ((liftM (expect (encode v)) >>= fun content => do
            let filled ← liftM (fillError (a.fill phase content (clock phase)))
            set filled
            pure v : Advancing α)).run a = _
          rw [wrote]
          change ((liftM (fillError (a.fill phase content (clock phase))) >>= fun filled => do
            set filled
            pure v : Advancing α)).run a = _
          rw [filled]
          rfl

end Filling

section Advance

variable {setup : ProverSetup} {engines : Engines} {x : Execution} {a : TraceArchive}

theorem encoded_ok {α : Type} {encode : α → Option (List UInt8)} {value : Outcome α} {v : α}
    {bytes : List UInt8} (held : encoded encode value = .ok (v, bytes)) :
    value = .ok v ∧ encode v = some bytes := by
  obtain ⟨w, found, rest⟩ := bind_ok.mp held
  obtain ⟨content, wrote, same⟩ := bind_ok.mp rest
  cases same
  exact ⟨found, expect_ok.mp wrote⟩

/-- The post-commit phase. -/
theorem global_spec (agrees : Agrees setup engines x a) (clocked : x.tables.OnClock)
    (clock : Trace.Phase → UInt64) :
    (∃ e, globalSection setup engines x = .error e ∧ (phaseValue .postCommit clock decodeGlobal
      encodeGlobal (commitGlobal setup engines)).run a = (.error e, a)) ∨
    ∃ global bytes after, globalSection setup engines x = .ok (global, bytes) ∧
      (phaseValue .postCommit clock decodeGlobal encodeGlobal (commitGlobal setup engines)).run a =
        (.ok global, after) ∧
      Agrees setup engines x after ∧ after.later Trace.Phase.postCommit.index = some bytes ∧
      Grows a after := by
  have decodes : ∀ v bytes, encoded encodeGlobal (commitGlobal setup engines x) = .ok (v, bytes) →
      ∃ w, decodeGlobal bytes = .ok w ∧ v = w := by
    intro v bytes held
    obtain ⟨ran, wrote⟩ := encoded_ok held
    exact ⟨v, (encodeGlobal_exact (commitGlobal_fits clocked ran) wrote).decodes, rfl⟩
  rcases phaseValue_spec agrees .postCommit clock decodeGlobal encodeGlobal
    (commitGlobal setup engines) Eq nofun rfl (fun _ => rfl) rfl decodes with failed | ⟨v, bytes, w, after, held, rfl, ran, agreed, filled, grows⟩
  · exact Or.inl failed
  · exact Or.inr ⟨v, bytes, after, held, ran, agreed, filled, grows⟩

/-- The post-GKR phase: the shards, or the shards with each transcript restored. -/
theorem gkr_spec (agrees : Agrees setup engines x a) {global : GlobalCommitState}
    {content : List UInt8} (committed : globalSection setup engines x = .ok (global, content))
    (before : a.later Trace.Phase.postCommit.index = some content) (clocked : x.tables.OnClock)
    (clock : Trace.Phase → UInt64) :
    (∃ e, gkrSection setup engines x = .error e ∧ (phaseValue .postGkr clock decodeGkrs encodeGkrs
      fun x => proveGkrs setup engines x global).run a = (.error e, a)) ∨
    ∃ gkrs bytes found after, gkrSection setup engines x = .ok (gkrs, bytes) ∧
      openShards setup engines x global found = openShards setup engines x global gkrs ∧
      (phaseValue .postGkr clock decodeGkrs encodeGkrs fun x =>
        proveGkrs setup engines x global).run a = (.ok found, after) ∧
      Agrees setup engines x after ∧ after.later Trace.Phase.postGkr.index = some bytes ∧
      Grows a after := by
  have counts := (commitGlobal_fits clocked (encoded_ok committed).1).statement.shardCounts
  have reference : gkrSection setup engines x =
      encoded encodeGkrs (proveGkrs setup engines x global) := by
    rw [gkrSection, committed]
    rfl
  have decodes : ∀ v bytes, encoded encodeGkrs (proveGkrs setup engines x global) =
      .ok (v, bytes) → ∃ w, decodeGkrs bytes = .ok w ∧
        openShards setup engines x global w = openShards setup engines x global v := by
    intro v bytes held
    obtain ⟨ran, wrote⟩ := encoded_ok held
    have shards := proveGkrs_held counts ran
    exact ⟨_, (encodeGkrs_exact (fun s member => (shards s member).1) wrote).decodes,
      openShards_restore fun s member => (shards s member).2⟩
  have filled : a.isFilled (Trace.Phase.phases (Trace.Phase.postGkr.index - 1)) = true := by
    change (_ || (a.later Trace.Phase.postCommit.index).isSome) = true
    rw [before]
    rfl
  have bytesOf : sectionBytes setup engines x .postGkr =
      (encoded encodeGkrs (proveGkrs setup engines x global)).map Prod.snd := by
    rw [sectionBytes, reference]
  rw [reference]
  rcases phaseValue_spec agrees .postGkr clock decodeGkrs encodeGkrs
    (fun x => proveGkrs setup engines x global)
    (fun v w => openShards setup engines x global w = openShards setup engines x global v) nofun
    filled (fun _ => rfl) bytesOf decodes with
    failed | ⟨v, bytes, w, after, held, same, ran, agreed, found, grows⟩
  · exact Or.inl failed
  · exact Or.inr ⟨v, bytes, w, after, held, same, ran, agreed, found, grows⟩

/-- The post-opening phase, from the shards or from the restored ones. -/
theorem proof_spec (agrees : Agrees setup engines x a) {global : GlobalCommitState}
    {committed proved : List UInt8} {gkrs found : List ShardGkr}
    (first : globalSection setup engines x = .ok (global, committed))
    (second : gkrSection setup engines x = .ok (gkrs, proved))
    (opens : openShards setup engines x global found = openShards setup engines x global gkrs)
    (before : a.later Trace.Phase.postGkr.index = some proved) (clocked : x.tables.OnClock)
    (clock : Trace.Phase → UInt64) :
    (∃ e, proofSection setup engines x = .error e ∧ (phaseValue .postOpening clock decodeProofs
      encodeProofs fun x => openShards setup engines x global found).run a = (.error e, a)) ∨
    ∃ proofs bytes after, proofSection setup engines x = .ok (proofs, bytes) ∧
      (phaseValue .postOpening clock decodeProofs encodeProofs fun x =>
        openShards setup engines x global found).run a = (.ok proofs, after) ∧
      Agrees setup engines x after ∧ after.later Trace.Phase.postOpening.index = some bytes ∧
      Grows a after := by
  have counts := (commitGlobal_fits clocked (encoded_ok first).1).statement.shardCounts
  have reference : proofSection setup engines x =
      encoded encodeProofs (openShards setup engines x global found) := by
    rw [proofSection, first, second, opens]
    rfl
  have shards : ∀ s ∈ gkrs, s.entry.Fits := by
    have ran : encoded encodeGkrs (proveGkrs setup engines x global) = .ok (gkrs, proved) := by
      rw [gkrSection, first] at second
      exact second
    exact fun s member => (proveGkrs_held counts (encoded_ok ran).1 s member).1
  have decodes : ∀ v bytes, encoded encodeProofs (openShards setup engines x global found) =
      .ok (v, bytes) → ∃ w, decodeProofs bytes = .ok w ∧ v = w := by
    intro v bytes held
    obtain ⟨ran, wrote⟩ := encoded_ok held
    rw [opens] at ran
    exact ⟨v, (encodeProofs_exact (openShards_fits shards ran) wrote).decodes, rfl⟩
  have filled : a.isFilled (Trace.Phase.phases (Trace.Phase.postOpening.index - 1)) = true := by
    change (_ || (a.later Trace.Phase.postGkr.index).isSome) = true
    rw [before]
    rfl
  have bytesOf : sectionBytes setup engines x .postOpening =
      (encoded encodeProofs (openShards setup engines x global found)).map Prod.snd := by
    rw [sectionBytes, reference]
  rw [reference]
  rcases phaseValue_spec agrees .postOpening clock decodeProofs encodeProofs
    (fun x => openShards setup engines x global found) Eq nofun filled (fun _ => rfl) bytesOf
    decodes with failed | ⟨v, bytes, w, after, held, rfl, ran, agreed, kept, grows⟩
  · exact Or.inl failed
  · exact Or.inr ⟨v, bytes, after, held, ran, agreed, kept, grows⟩

/-- The final phase: it succeeds exactly as the execution's does, and then it is filled. -/
theorem final_spec (agrees : Agrees setup engines x a) {global : GlobalCommitState}
    {committed opened : List UInt8} {proofs : List ShardProof}
    (first : globalSection setup engines x = .ok (global, committed))
    (third : proofSection setup engines x = .ok (proofs, opened))
    (before : a.later Trace.Phase.postOpening.index = some opened) (clock : Trace.Phase → UInt64) :
    ∃ after, (fillFinal clock global proofs).run a =
        ((sectionBytes setup engines x .final).map (fun _ => ()), after) ∧
      Agrees setup engines x after ∧ Grows a after ∧
      ∀ bytes, sectionBytes setup engines x .final = .ok bytes →
        after.later Trace.Phase.final.index = some bytes := by
  have reference : finalSection setup engines x = (do
      let complete ← publicInputs global proofs
      let bytes ← expect (encodeFinal complete proofs)
      .ok (complete, bytes)) := by
    rw [finalSection, first, third]
    rfl
  have archive : (get : Advancing TraceArchive).run a = (.ok a, a) := rfl
  unfold fillFinal
  rw [run_bind_ok archive]
  cases held : a.later Trace.Phase.final.index with
  | some bytes =>
    have known := agrees.sections .final bytes held
    refine ⟨a, ?_, agrees, Grows.refl a, fun content same => ?_⟩
    · rw [known]
      rfl
    · rw [known] at same
      cases same
      exact held
  | none =>
    have vacant : ¬ (none : Option (List UInt8)).isSome := nofun
    rw [if_neg vacant, sectionBytes, reference]
    cases complete : publicInputs global proofs with
    | error e => exact ⟨a, run_lift_error rfl, agrees, Grows.refl a, fun _ wrong => nomatch wrong⟩
    | ok statement =>
      rw [run_lift_ok rfl]
      change ∃ after, _ = (((expect (encodeFinal statement proofs) >>= fun bytes =>
        .ok (statement, bytes) : Outcome _).map Prod.snd).map _, after) ∧ _ ∧ _ ∧
          ∀ bytes, (expect (encodeFinal statement proofs) >>= fun bytes =>
            .ok (statement, bytes) : Outcome _).map Prod.snd = .ok bytes → _
      cases wrote : encodeFinal statement proofs with
      | none =>
        exact ⟨a, run_lift_error rfl, agrees, Grows.refl a, fun _ wrong => nomatch wrong⟩
      | some content =>
        have written : expect (encodeFinal statement proofs) = .ok content := expect_ok.mpr wrote
        have section_ : sectionBytes setup engines x .final = .ok content := by
          rw [sectionBytes, reference, complete]
          change (expect (encodeFinal statement proofs) >>= fun bytes =>
            .ok (statement, bytes) : Outcome _).map Prod.snd = _
          rw [written]
          rfl
        have filledBefore : a.isFilled (Trace.Phase.phases (Trace.Phase.final.index - 1)) = true := by
          change (_ || (a.later Trace.Phase.postOpening.index).isSome) = true
          rw [before]
          rfl
        have later : Trace.Phase.final ≠ .postExecution := nofun
        obtain ⟨after, filled, agreed, found, grows⟩ :=
          fill_agrees agrees later held filledBefore section_ (clock .final)
        refine ⟨after, ?_, agreed, grows, fun bytes same => ?_⟩
        · have taken : fillError (a.fill .final content (clock .final)) = .ok after := by
            rw [filled, fillError]
          have given : (expect (some content) : Outcome (List UInt8)) = .ok content := rfl
          rw [run_lift_ok given, run_lift_ok taken]
          rfl
        · cases same
          exact found

/-- What the final section holds: the statement complete, and the proofs it decodes with. -/
theorem finalSection_ok (clocked : x.tables.OnClock) {complete : PublicInputs}
    {bytes : List UInt8} (held : finalSection setup engines x = .ok (complete, bytes)) :
    ∃ global committed proofs opened, globalSection setup engines x = .ok (global, committed) ∧
      proofSection setup engines x = .ok (proofs, opened) ∧
      publicInputs global proofs = .ok complete ∧ decodeFinal bytes = .ok (complete, proofs) := by
  obtain ⟨⟨global, committed⟩, first, held⟩ := bind_ok.mp held
  obtain ⟨⟨proofs, opened⟩, third, held⟩ := bind_ok.mp held
  obtain ⟨statement, completes, held⟩ := bind_ok.mp held
  obtain ⟨content, wrote, same⟩ := bind_ok.mp held
  cases same
  have fits := commitGlobal_fits clocked (encoded_ok first).1
  obtain ⟨⟨global', committed'⟩, first', rest⟩ := bind_ok.mp third
  obtain ⟨⟨gkrs, proved⟩, second, opens⟩ := bind_ok.mp rest
  rw [first] at first'
  cases first'
  have shards : ∀ s ∈ gkrs, s.entry.Fits := by
    have ran : encoded encodeGkrs (proveGkrs setup engines x global) = .ok (gkrs, proved) := by
      rw [gkrSection, first] at second
      exact second
    exact fun s member => (proveGkrs_held fits.statement.shardCounts (encoded_ok ran).1 s member).1
  have proofFits := openShards_fits shards (encoded_ok opens).1
  exact ⟨global, committed, proofs, opened, first, third, completes,
    (encodeFinal_exact ⟨publicInputs_fits fits.statement completes, proofFits⟩
      (expect_ok.mp wrote)).decodes⟩

theorem sections_of_global_error {e : Fault ProverError}
    (failed : globalSection setup engines x = .error e) :
    gkrSection setup engines x = .error e ∧ proofSection setup engines x = .error e ∧
      finalSection setup engines x = .error e := by
  rw [gkrSection, proofSection, finalSection, failed]
  exact ⟨rfl, rfl, rfl⟩

theorem sections_of_gkr_error {e : Fault ProverError} {held : GlobalCommitState × List UInt8}
    (global : globalSection setup engines x = .ok held)
    (failed : gkrSection setup engines x = .error e) :
    proofSection setup engines x = .error e ∧ finalSection setup engines x = .error e := by
  have third : proofSection setup engines x = .error e := by
    rw [proofSection, global, failed]
    rfl
  refine ⟨third, ?_⟩
  rw [finalSection, global, third]
  rfl

theorem section_of_proof_error {e : Fault ProverError} {held : GlobalCommitState × List UInt8}
    (global : globalSection setup engines x = .ok held)
    (failed : proofSection setup engines x = .error e) :
    finalSection setup engines x = .error e := by
  rw [finalSection, global, failed]
  rfl

/-- A call of `advance` on an archive that agrees succeeds or fails as the execution's sections
do, leaves an archive that agrees, and empties nothing. -/
theorem advance_spec (agrees : Agrees setup engines x a) (clocked : x.tables.OnClock)
    (upTo : Trace.Phase) (clock : Trace.Phase → UInt64) :
    ∃ after, (advance setup engines upTo clock).run a =
        ((sectionBytes setup engines x upTo).map (fun _ => ()), after) ∧
      Agrees setup engines x after ∧ Grows a after ∧
      (upTo = .final → ∀ bytes, sectionBytes setup engines x .final = .ok bytes →
        after.later Trace.Phase.final.index = some bytes) := by
  unfold advance
  by_cases start : upTo = .postExecution
  · rw [if_pos start, start]
    exact ⟨a, rfl, agrees, Grows.refl a, nofun⟩
  rw [if_neg start]
  rcases global_spec agrees clocked clock with
    ⟨e, failed, ran⟩ | ⟨global, committed, second, first, ran, agreed, filled, grows⟩
  · obtain ⟨gkr, proof, final⟩ := sections_of_global_error failed
    refine ⟨a, ?_, agrees, Grows.refl a, fun _ bytes wrong => ?_⟩
    · rw [run_bind_error ran]
      cases upTo with
      | postExecution => exact absurd rfl start
      | postCommit => rw [sectionBytes, failed]; rfl
      | postGkr => rw [sectionBytes, gkr]; rfl
      | postOpening => rw [sectionBytes, proof]; rfl
      | final => rw [sectionBytes, final]; rfl
    · rw [sectionBytes, final] at wrong
      cases wrong
  rw [run_bind_ok ran]
  by_cases commit : upTo = .postCommit
  · rw [if_pos commit, commit, sectionBytes, first]
    exact ⟨second, rfl, agreed, grows, nofun⟩
  rw [if_neg commit]
  rcases gkr_spec agreed first filled clocked clock with
    ⟨e, failed, ran⟩ | ⟨gkrs, proved, found, third, reference, opens, ran, agreed', filled', grows'⟩
  · obtain ⟨proof, final⟩ := sections_of_gkr_error first failed
    refine ⟨second, ?_, agreed, grows, fun _ bytes wrong => ?_⟩
    · rw [run_bind_error ran]
      cases upTo with
      | postExecution => exact absurd rfl start
      | postCommit => exact absurd rfl commit
      | postGkr => rw [sectionBytes, failed]; rfl
      | postOpening => rw [sectionBytes, proof]; rfl
      | final => rw [sectionBytes, final]; rfl
    · rw [sectionBytes, final] at wrong
      cases wrong
  rw [run_bind_ok ran]
  by_cases gkr : upTo = .postGkr
  · rw [if_pos gkr, gkr, sectionBytes, reference]
    exact ⟨third, rfl, agreed', grows.trans grows', nofun⟩
  rw [if_neg gkr]
  rcases proof_spec agreed' first reference opens filled' clocked clock with
    ⟨e, failed, ran⟩ | ⟨proofs, opened, fourth, held, ran, agreed'', filled'', grows''⟩
  · have final := section_of_proof_error first failed
    refine ⟨third, ?_, agreed', grows.trans grows', fun _ bytes wrong => ?_⟩
    · rw [run_bind_error ran]
      cases upTo with
      | postExecution => exact absurd rfl start
      | postCommit => exact absurd rfl commit
      | postGkr => exact absurd rfl gkr
      | postOpening => rw [sectionBytes, failed]; rfl
      | final => rw [sectionBytes, final]; rfl
    · rw [sectionBytes, final] at wrong
      cases wrong
  rw [run_bind_ok ran]
  by_cases opening : upTo = .postOpening
  · rw [if_pos opening, opening, sectionBytes, held]
    exact ⟨fourth, rfl, agreed'', (grows.trans grows').trans grows'', nofun⟩
  rw [if_neg opening]
  have last : upTo = .final := by
    cases upTo with
    | postExecution => exact absurd rfl start
    | postCommit => exact absurd rfl commit
    | postGkr => exact absurd rfl gkr
    | postOpening => exact absurd rfl opening
    | final => rfl
  obtain ⟨after, ran, agreed, grown, filled⟩ := final_spec agreed'' first held filled'' clock
  rw [last]
  exact ⟨after, ran, agreed, ((grows.trans grows').trans grows'').trans grown, fun _ => filled⟩

end Advance

end Apogee.Prover
