import Apogee.Recorder.WitnessRecorder

/-! # A recording replays

The recorder only ever adds to what it keeps, so each answer of a run is still the record's
at its end. The witness answers the same, but for an account that holds storage and nothing
else: the recorder says that it exists, and the witness that it does not.
-/

namespace Apogee.Recorder

open Mpt Math Stateless

variable {keccak : List UInt8 → Word32} {revm : Revm} {rpc : Rpc}

/-! ## What a recorder keeps -/

/-- What a recorder holds is ordered, and is what the chain answered. -/
structure Sound (keccak : List UInt8 → Word32) (rpc : Rpc) (recorder : WitnessRecorder) : Prop where
  accounts : Ascending recordedRank recorder.accounts
  slots : ∀ entry ∈ recorder.accounts, Ascending slotRank entry.2.slots
  hashes : Ascending blockRank recorder.blockHashes
  answered : ∀ entry ∈ recorder.accounts, ∃ proof, rpc.getProof entry.1 = .ok proof ∧
    entry.2.nonce = proof.nonce ∧ entry.2.balance = proof.balance ∧
    entry.2.present = proof.present ∧
    WitnessRecorder.code keccak rpc entry.1 proof.hashes.1 = .ok entry.2.code
  fetched : ∀ entry ∈ recorder.accounts, ∀ slot ∈ entry.2.slots,
    rpc.getStorageAt entry.1 slot.1 = .ok slot.2
  hashed : ∀ entry ∈ recorder.blockHashes, rpc.getBlockHash entry.1 = .ok entry.2

/-- A recorder holds what another does, and at each account perhaps more slots. -/
structure Grows (before after : WitnessRecorder) : Prop where
  accounts : ∀ address recorded, (address, recorded) ∈ before.accounts →
    ∃ later, (address, later) ∈ after.accounts ∧ later = { recorded with slots := later.slots } ∧
      recorded.slots ⊆ later.slots
  hashes : before.blockHashes ⊆ after.blockHashes

/-- A call's answer is on record. -/
def Kept (keccak : List UInt8 → Word32) (revm : Revm) :
    Sigma (Query.Answer revm) → WitnessRecorder → Prop
  | ⟨.basic address, answer⟩, recorder => ∃ recorded, (address, recorded) ∈ recorder.accounts ∧
      WitnessRecorder.info keccak revm address recorded = .ok answer
  | ⟨.codeByHash _, _⟩, _ => False
  | ⟨.storage address index, value⟩, recorder => ∃ recorded word,
      (address, recorded) ∈ recorder.accounts ∧ (toBeBytes index, word) ∈ recorded.slots ∧
        value = fromBeBytes word
  | ⟨.blockHash number, hash⟩, recorder => (number, hash) ∈ recorder.blockHashes

theorem Grows.refl (recorder : WitnessRecorder) : Grows recorder recorder :=
  ⟨fun _ recorded member => ⟨recorded, member, rfl, List.Subset.refl _⟩, List.Subset.refl _⟩

theorem Grows.trans {first second third : WitnessRecorder} (here : Grows first second)
    (there : Grows second third) : Grows first third := by
  refine ⟨fun address recorded member => ?_, List.Subset.trans here.hashes there.hashes⟩
  obtain ⟨middle, inside, fields, slots⟩ := here.accounts address recorded member
  obtain ⟨last, kept, fields', slots'⟩ := there.accounts address middle inside
  refine ⟨last, kept, ?_, List.Subset.trans slots slots'⟩
  rw [fields', fields]

theorem Kept.mono {call : Sigma (Query.Answer revm)} {before after : WitnessRecorder}
    (kept : Kept keccak revm call before) (grows : Grows before after) :
    Kept keccak revm call after := by
  obtain ⟨query, answer⟩ := call
  cases query with
  | basic address =>
    obtain ⟨recorded, member, told⟩ := kept
    obtain ⟨later, inside, fields, -⟩ := grows.accounts _ _ member
    refine ⟨later, inside, ?_⟩
    rw [← told, fields]
    rfl
  | codeByHash codeHash => exact kept
  | storage address index =>
    obtain ⟨recorded, word, member, slot, told⟩ := kept
    obtain ⟨later, inside, -, slots⟩ := grows.accounts _ _ member
    exact ⟨later, word, inside, slots slot, told⟩
  | blockHash number => exact grows.hashes kept

/-- Among ordered accounts, an address has one record. -/
theorem Sound.find_account {recorder : WitnessRecorder} (sound : Sound keccak rpc recorder)
    {address : Address} {entry : Address × Recorded}
    (found : find recordedRank (bytesRank address.1) recorder.accounts = some entry) :
    entry ∈ recorder.accounts ∧ entry.1 = address := by
  obtain ⟨member, same⟩ := (find_eq_some_iff sound.accounts).mp found
  exact ⟨member, bytesRank_inj same⟩

theorem load_spec {recorder loaded : WitnessRecorder} {address : Address}
    (sound : Sound keccak rpc recorder)
    (ran : WitnessRecorder.load keccak rpc recorder address = .ok loaded) :
    Sound keccak rpc loaded ∧ Grows recorder loaded ∧
      ∃ recorded, (address, recorded) ∈ loaded.accounts := by
  unfold WitnessRecorder.load at ran
  cases found : find recordedRank (bytesRank address.1) recorder.accounts with
  | some entry =>
    rw [found] at ran
    cases ran
    obtain ⟨member, rfl⟩ := sound.find_account found
    exact ⟨sound, .refl _, entry.2, member⟩
  | none =>
    rw [found] at ran
    cases answered : rpc.getProof address with
    | error message =>
      rw [answered] at ran
      cases ran
    | ok proof =>
      rw [answered] at ran
      dsimp only at ran
      cases held : WitnessRecorder.code keccak rpc address proof.hashes.1 with
      | error error =>
        rw [held] at ran
        cases ran
      | ok code =>
        rw [held] at ran
        cases ran
        have absent := (find_eq_none_iff sound.accounts).mp found
        have members := fun entry => @List.mem_insertIdx _ entry (address,
          (⟨proof.nonce, proof.balance, code, [], proof.present⟩ : Recorded)) _ _
          (@position_le _ recordedRank (bytesRank address.1) recorder.accounts)
        refine ⟨⟨ascending_insertIdx sound.accounts absent rfl, ?_, sound.hashes, ?_, ?_,
          sound.hashed⟩, ⟨?_, ?_⟩, ?_⟩
        · intro entry member
          rcases (members entry).mp member with rfl | old
          · exact List.Pairwise.nil
          · exact sound.slots entry old
        · intro entry member
          rcases (members entry).mp member with rfl | old
          · exact ⟨proof, answered, rfl, rfl, rfl, held⟩
          · exact sound.answered entry old
        · intro entry member
          rcases (members entry).mp member with rfl | old
          · exact fun slot held => absurd held List.not_mem_nil
          · exact sound.fetched entry old
        · exact fun _ old member => ⟨old, (members _).mpr (Or.inr member), rfl, List.Subset.refl _⟩
        · exact List.Subset.refl _
        · exact ⟨_, (members _).mpr (Or.inl rfl)⟩

theorem loadSlot_spec {recorder after : WitnessRecorder} {address : Address} {key value : Word32}
    (sound : Sound keccak rpc recorder)
    (ran : WitnessRecorder.loadSlot keccak rpc recorder address key = .ok (value, after)) :
    Sound keccak rpc after ∧ Grows recorder after ∧
      ∃ recorded, (address, recorded) ∈ after.accounts ∧ (key, value) ∈ recorded.slots := by
  unfold WitnessRecorder.loadSlot at ran
  cases first : WitnessRecorder.load keccak rpc recorder address with
  | error error =>
    rw [first] at ran
    cases ran
  | ok loaded =>
    rw [first] at ran
    dsimp only at ran
    obtain ⟨sound, grows, -⟩ := load_spec sound first
    cases found : find recordedRank (bytesRank address.1) loaded.accounts with
    | none =>
      rw [found] at ran
      cases ran
    | some entry =>
      obtain ⟨address', recorded⟩ := entry
      rw [found] at ran
      dsimp only at ran
      obtain ⟨member, rfl⟩ := sound.find_account found
      cases known : find slotRank (bytesRank key.1) recorded.slots with
      | some slot =>
        rw [known] at ran
        cases ran
        obtain ⟨inside, same⟩ := (find_eq_some_iff (sound.slots _ member)).mp known
        have own : slot.1 = key := bytesRank_inj same
        exact ⟨sound, grows, recorded, member, own ▸ inside⟩
      | none =>
        rw [known] at ran
        dsimp only at ran
        cases answered : rpc.getStorageAt address' key with
        | error message =>
          rw [answered] at ran
          cases ran
        | ok fetched =>
          rw [answered] at ran
          cases ran
          have absent := (find_eq_none_iff (sound.slots _ member)).mp known
          have slots := fun slot => @List.mem_insertIdx _ slot (key, value) _ _
            (@position_le _ slotRank (bytesRank key.1) recorded.slots)
          obtain ⟨own, others, rest⟩ := @modify_found _ _ _ _ (fun entry : Address × Recorded =>
            let place := position slotRank (bytesRank key.1) recorded.slots
            (entry.1, { entry.2 with slots := entry.2.slots.insertIdx place (key, value) })) _ found
          refine ⟨⟨?_, ?_, sound.hashes, ?_, ?_, sound.hashed⟩, grows.trans ⟨?_, List.Subset.refl _⟩,
            _, own, (slots _).mpr (Or.inl rfl)⟩
          · refine ascending_modify ?_ _ sound.accounts
            exact fun entry => rfl
          · intro entry changed
            rcases others entry changed with rfl | old
            · exact ascending_insertIdx (sound.slots _ member) absent rfl
            · exact sound.slots entry old
          · intro entry changed
            rcases others entry changed with rfl | old
            · obtain ⟨proof, facts⟩ := sound.answered _ member
              exact ⟨proof, facts⟩
            · exact sound.answered entry old
          · intro entry changed
            rcases others entry changed with rfl | old
            · intro slot held
              rcases (slots slot).mp held with rfl | before
              · exact answered
              · exact sound.fetched _ member slot before
            · exact sound.fetched entry old
          · intro address before inside
            rcases rest _ inside with same | kept
            · cases same
              exact ⟨_, own, rfl, fun slot held => (slots slot).mpr (Or.inr held)⟩
            · exact ⟨before, kept, rfl, List.Subset.refl _⟩

theorem loadBlockHash_spec {recorder after : WitnessRecorder} {number : UInt64} {hash : Word32}
    (sound : Sound keccak rpc recorder)
    (ran : WitnessRecorder.loadBlockHash rpc recorder number = .ok (hash, after)) :
    Sound keccak rpc after ∧ Grows recorder after ∧ (number, hash) ∈ after.blockHashes := by
  unfold WitnessRecorder.loadBlockHash at ran
  cases found : find blockRank number.toNat recorder.blockHashes with
  | some entry =>
    rw [found] at ran
    cases ran
    obtain ⟨member, same⟩ := (find_eq_some_iff sound.hashes).mp found
    have own : entry.1 = number := UInt64.toNat_inj.mp same
    exact ⟨sound, .refl _, own ▸ member⟩
  | none =>
    rw [found] at ran
    dsimp only at ran
    cases answered : rpc.getBlockHash number with
    | error message =>
      rw [answered] at ran
      cases ran
    | ok fetched =>
      rw [answered] at ran
      cases ran
      have absent := (find_eq_none_iff sound.hashes).mp found
      have members := fun entry => @List.mem_insertIdx _ entry (number, hash) _ _
        (@position_le _ blockRank number.toNat recorder.blockHashes)
      refine ⟨⟨sound.accounts, sound.slots, ascending_insertIdx sound.hashes absent rfl,
        sound.answered, sound.fetched, ?_⟩, ⟨?_, ?_⟩, (members _).mpr (Or.inl rfl)⟩
      · intro entry member
        rcases (members entry).mp member with rfl | old
        · exact answered
        · exact sound.hashed entry old
      · exact fun _ recorded member => ⟨recorded, member, rfl, List.Subset.refl _⟩
      · exact fun entry member => (members entry).mpr (Or.inr member)

/-- One call keeps the recorder sound, adds to it, and puts its answer on record. -/
theorem serve_spec {recorder after : WitnessRecorder} {query : Query} {answer : query.Answer revm}
    (sound : Sound keccak rpc recorder)
    (ran : WitnessRecorder.serve keccak revm rpc recorder query = (.ok answer, after)) :
    Sound keccak rpc after ∧ Grows recorder after ∧ Kept keccak revm ⟨query, answer⟩ after := by
  cases query with
  | basic address =>
    rw [WitnessRecorder.serve] at ran
    cases first : WitnessRecorder.load keccak rpc recorder address with
    | error error =>
      rw [first] at ran
      cases ran
    | ok loaded =>
      rw [first] at ran
      dsimp only at ran
      obtain ⟨sound, grows, -⟩ := load_spec sound first
      cases found : find recordedRank (bytesRank address.1) loaded.accounts with
      | none =>
        rw [found] at ran
        cases ran
      | some entry =>
        obtain ⟨address', recorded⟩ := entry
        rw [found] at ran
        obtain ⟨told, same⟩ := Prod.mk.inj ran
        obtain ⟨member, rfl⟩ := sound.find_account found
        subst same
        exact ⟨sound, grows, recorded, member, told⟩
  | codeByHash codeHash => cases ran
  | storage address index =>
    rw [WitnessRecorder.serve] at ran
    cases first : WitnessRecorder.loadSlot keccak rpc recorder address (toBeBytes index) with
    | error error =>
      rw [first] at ran
      cases ran
    | ok both =>
      rw [first] at ran
      cases ran
      obtain ⟨sound, grows, recorded, member, slot⟩ := loadSlot_spec sound first
      exact ⟨sound, grows, recorded, _, member, slot, rfl⟩
  | blockHash number =>
    rw [WitnessRecorder.serve] at ran
    cases first : WitnessRecorder.loadBlockHash rpc recorder number with
    | error error =>
      rw [first] at ran
      cases ran
    | ok both =>
      rw [first] at ran
      cases ran
      exact loadBlockHash_spec sound first

theorem keeps_serve : Dialogue.Keeps (WitnessRecorder.serve keccak revm rpc) (Sound keccak rpc)
    (Kept keccak revm) where
  step sound ran := (serve_spec sound ran).1
  here sound ran := (serve_spec sound ran).2.2
  later sound kept ran := kept.mono (serve_spec sound ran).2.1

theorem sound_nothing : Sound keccak rpc ⟨[], []⟩ :=
  ⟨List.Pairwise.nil, fun _ member => absurd member List.not_mem_nil, List.Pairwise.nil,
    fun _ member => absurd member List.not_mem_nil, fun _ member => absurd member List.not_mem_nil,
    fun _ member => absurd member List.not_mem_nil⟩

theorem sound_preloaded {preloaded : List Address} {recorder loaded : WitnessRecorder}
    (sound : Sound keccak rpc recorder)
    (ran : preloaded.foldlM (WitnessRecorder.load keccak rpc) recorder = .ok loaded) :
    Sound keccak rpc loaded := by
  induction preloaded generalizing recorder with
  | nil =>
    cases ran
    exact sound
  | cons address rest ih =>
    rw [List.foldlM_cons] at ran
    cases first : WitnessRecorder.load keccak rpc recorder address with
    | error error =>
      rw [first] at ran
      cases ran
    | ok middle =>
      rw [first] at ran
      exact ih (load_spec sound first).1 ran

/-- A recording's end is sound, and every answer of its run is on record. -/
theorem record_spec {preloaded : List Address} {R : Type}
    {executor : Dialogue Query (Query.Answer revm) R} {result : R}
    {calls : List (Sigma (Query.Answer revm))} {recorder : WitnessRecorder}
    (recorded : record keccak revm rpc preloaded executor = .ok (result, calls, recorder)) :
    Sound keccak rpc recorder ∧ (∀ call ∈ calls, Kept keccak revm call recorder) ∧
      ∃ loaded, executor.run (WitnessRecorder.serve keccak revm rpc) loaded =
        (.ok result, calls, recorder) := by
  unfold record at recorded
  cases first : preloaded.foldlM (WitnessRecorder.load keccak rpc) ⟨[], []⟩ with
  | error error =>
    rw [first] at recorded
    cases recorded
  | ok loaded =>
    rw [first] at recorded
    dsimp only at recorded
    cases ran : executor.run (WitnessRecorder.serve keccak revm rpc) loaded with
    | mk outcome rest =>
      rw [ran] at recorded
      cases outcome with
      | error error => cases recorded
      | ok value =>
        cases recorded
        obtain ⟨sound, kept, -⟩ := keeps_serve.run (sound_preloaded sound_nothing first) ran
        exact ⟨sound, kept, loaded, ran⟩

end Apogee.Recorder
