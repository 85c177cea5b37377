import Apogee.Recorder.Replay
import Apogee.Stateless.Served

/-! # What exists, recorded and replayed

A recording is a run against the chain itself, and its witness answers as the chain does,
with one exception: an account that has storage and neither nonce, balance nor code. The
recorder finds it by its storage root; of what the witness carries nothing tells it from an
account that does not exist.
-/

namespace Apogee.Recorder

open Mpt Math Stateless

section Chain

variable (keccak : List UInt8 → Word32) (revm : Revm) (rpc : Rpc)

/-- What the chain says of an account. -/
def Rpc.basic (address : Address) : Except RecorderError (Option (AccountInfo revm)) :=
  match rpc.getProof address with
  | .error message => .error (.rpc message)
  | .ok proof =>
    match WitnessRecorder.code keccak rpc address proof.hashes.1 with
    | .error error => .error error
    | .ok code => WitnessRecorder.info keccak revm address
        ⟨proof.nonce, proof.balance, code, [], proof.present⟩

/-- The chain's own answers, with nothing kept. -/
def Rpc.answer : (query : Query) → Except RecorderError (query.Answer revm)
  | .basic address => rpc.basic keccak revm address
  | .codeByHash codeHash => .error (.codeByHash codeHash)
  | .storage address index =>
    match rpc.getStorageAt address (toBeBytes index) with
    | .error message => .error (.rpc message)
    | .ok value => .ok (fromBeBytes value)
  | .blockHash number =>
    match rpc.getBlockHash number with
    | .error message => .error (.rpc message)
    | .ok hash => .ok hash

/-- An account of the chain that has storage and nothing else. -/
def Rpc.StorageOnly (address : Address) : Prop :=
  ∃ proof, rpc.getProof address = .ok proof ∧ proof.nonce = 0 ∧ proof.balance = zeroWord ∧
    proof.hashes.1 = keccakEmpty ∧ proof.hashes.2 ≠ emptyTrieRoot

end Chain

variable {keccak : List UInt8 → Word32} {revm : Revm} {rpc : Rpc} {recorder : WitnessRecorder}

/-! ## The chain's answers -/

/-- What is on record is what the chain answers. -/
theorem Kept.answered (sound : Sound keccak rpc recorder) {call : Sigma (Query.Answer revm)}
    (kept : Kept keccak revm call recorder) : rpc.answer keccak revm call.1 = .ok call.2 := by
  obtain ⟨query, answer⟩ := call
  cases query with
  | basic address =>
    obtain ⟨recorded, member, told⟩ := kept
    obtain ⟨proof, asked, nonce, balance, present, code⟩ := sound.answered _ member
    rw [Rpc.answer, Rpc.basic, asked]
    dsimp only
    rw [code]
    dsimp only
    rw [← nonce, ← balance, ← present]
    exact told
  | codeByHash codeHash => exact kept.elim
  | storage address index =>
    obtain ⟨recorded, word, member, slot, rfl⟩ := kept
    rw [Rpc.answer, sound.fetched _ member _ slot]
  | blockHash number => rw [Rpc.answer, sound.hashed _ kept]

section Recording

variable {preloaded : List Address} {R : Type} {executor : Dialogue Query (Query.Answer revm) R}
  {result : R} {calls : List (Sigma (Query.Answer revm))}

/-- A recording is a run against the chain. -/
theorem record_answers
    (recorded : record keccak revm rpc preloaded executor = .ok (result, calls, recorder)) :
    executor.run (Dialogue.fixed (rpc.answer keccak revm)) () = (.ok result, calls, ()) := by
  obtain ⟨sound, kept, loaded, ran⟩ := record_spec recorded
  exact (Dialogue.run_fixed_iff ran).mpr fun call member => (kept call member).answered sound

end Recording

/-! ## The witness's answers -/

theorem harvest_ascending (sound : Sound keccak rpc recorder) :
    Ascending accountRank recorder.harvest :=
  List.pairwise_map.mpr sound.accounts

theorem account_of_mem (sound : Sound keccak rpc recorder) {address : Address} {recorded : Recorded}
    (member : (address, recorded) ∈ recorder.accounts) (env : BlockEnvWitness) :
    (recorder.witness env).account address =
      .ok ⟨address, recorded.nonce, recorded.balance, recorded.code, recorded.slots⟩ := by
  have found := (find_eq_some_iff (harvest_ascending sound)).mpr
    ⟨List.mem_map.mpr ⟨_, member, rfl⟩, (rfl : accountRank _ = bytesRank address.1)⟩
  rw [BlockWitness.account, WitnessRecorder.witness, found]

/-- Code is held to its hash, so there is none exactly under the hash of nothing. -/
theorem code_eq_nil_iff (nothing : keccak [] = keccakEmpty) {address : Address} {codeHash : Word32}
    {code : List UInt8} (held : WitnessRecorder.code keccak rpc address codeHash = .ok code) :
    code = [] ↔ codeHash = keccakEmpty := by
  unfold WitnessRecorder.code at held
  by_cases none : codeHash = keccakEmpty
  · rw [if_pos none] at held
    cases held
    exact iff_of_true rfl none
  · rw [if_neg none] at held
    cases asked : rpc.getCode address with
    | error message =>
      rw [asked] at held
      cases held
    | ok fetched =>
      rw [asked] at held
      dsimp only at held
      by_cases same : keccak fetched = codeHash
      · rw [if_pos same] at held
        cases held
        refine iff_of_false (fun empty => none ?_) none
        rw [← same, empty, nothing]
      · rw [if_neg same] at held
        cases held

theorem present_eq_false_iff {proof : Proof} : proof.present = false ↔
    proof.nonce = 0 ∧ proof.balance = zeroWord ∧ proof.hashes.1 = keccakEmpty ∧
      proof.hashes.2 = emptyTrieRoot := by
  rw [Proof.present, Bool.or_eq_false_iff, Bool.or_eq_false_iff, Bool.or_eq_false_iff,
    decide_eq_false_iff_not, decide_eq_false_iff_not, decide_eq_false_iff_not,
    decide_eq_false_iff_not, not_not, not_not, not_not, not_not, and_assoc, and_assoc]

/-- The witness says of an account what the recorder said, unless it has storage alone. -/
theorem basic_eq_iff (nothing : keccak [] = keccakEmpty) (sound : Sound keccak rpc recorder)
    {address : Address} {answer : Option (AccountInfo revm)}
    (kept : Kept keccak revm ⟨.basic address, answer⟩ recorder) (env : BlockEnvWitness) :
    (recorder.witness env).basic keccak revm address = .ok answer ↔ ¬rpc.StorageOnly address := by
  obtain ⟨recorded, member, told⟩ := kept
  obtain ⟨proof, asked, nonce, balance, present, code⟩ := sound.answered _ member
  dsimp only at asked nonce balance present code
  have empty := code_eq_nil_iff nothing code
  have only : rpc.StorageOnly address ↔ (recorded.nonce = 0 ∧ recorded.balance = zeroWord ∧
      recorded.code = []) ∧ recorded.present = true := by
    rw [nonce, balance, empty, present, ← Bool.not_eq_false, present_eq_false_iff]
    constructor
    · rintro ⟨other, same, bare⟩
      cases asked.symm.trans same
      exact ⟨⟨bare.1, bare.2.1, bare.2.2.1⟩, fun none => bare.2.2.2 none.2.2.2⟩
    · rintro ⟨⟨first, second, third⟩, some⟩
      exact ⟨proof, asked, first, second, third, fun none => some ⟨first, second, third, none⟩⟩
  rw [BlockWitness.basic, account_of_mem sound member env, only]
  unfold WitnessRecorder.info at told
  by_cases bare : recorded.nonce = 0 ∧ recorded.balance = zeroWord ∧ recorded.code = []
  · cases there : recorded.present with
    | false =>
      rw [there, if_neg Bool.false_ne_true] at told
      cases told
      refine iff_of_true ?_ fun both => Bool.false_ne_true both.2
      exact if_pos bare
    | true =>
      rw [there, if_pos rfl] at told
      refine iff_of_false (fun same => ?_) (not_not.mpr ⟨bare, rfl⟩)
      cases (if_pos bare).symm.trans same
      cases made : revm.newRawChecked recorded.code with
      | none =>
        rw [made] at told
        cases told
      | some bytecode =>
        rw [made] at told
        cases told
  · have there : recorded.present = true := by
      rw [present, ← Bool.not_eq_false, present_eq_false_iff, ← nonce, ← balance, ← empty]
      exact fun all => bare ⟨all.1, all.2.1, all.2.2.1⟩
    rw [there, if_pos rfl] at told
    refine iff_of_true ((if_neg bare).trans ?_) fun both => bare both.1
    cases made : revm.newRawChecked recorded.code with
    | none =>
      rw [made] at told
      cases told
    | some bytecode =>
      rw [made] at told
      cases told
      by_cases none : recorded.code = []
      · rw [if_pos none, none, nothing]
      · rw [if_neg none]

/-- The witness gives an answer again, unless it is one of an account that has storage alone. -/
theorem answer_eq_iff (nothing : keccak [] = keccakEmpty) (sound : Sound keccak rpc recorder)
    {call : Sigma (Query.Answer revm)} (kept : Kept keccak revm call recorder)
    (env : BlockEnvWitness) : (recorder.witness env).answer keccak revm call.1 = .ok call.2 ↔
      ∀ address, call.1 = .basic address → ¬rpc.StorageOnly address := by
  obtain ⟨query, answer⟩ := call
  cases query with
  | basic address =>
    refine (basic_eq_iff nothing sound kept env).trans ⟨fun none other same => ?_, fun none => none _ rfl⟩
    cases same
    exact none
  | codeByHash codeHash => exact kept.elim
  | storage address index =>
    obtain ⟨recorded, word, member, slot, rfl⟩ := kept
    refine iff_of_true ?_ fun _ same => by cases same
    have found : find slotRank (bytesRank (toBeBytes index).1) recorded.slots =
        some (toBeBytes index, word) := (find_eq_some_iff (sound.slots _ member)).mpr ⟨slot, rfl⟩
    rw [BlockWitness.answer, BlockWitness.storage, account_of_mem sound member env]
    dsimp only [bind, Except.bind]
    rw [found]
  | blockHash number =>
    refine iff_of_true ?_ fun _ same => by cases same
    have found := (find_eq_some_iff sound.hashes).mpr ⟨kept, (rfl : blockRank _ = number.toNat)⟩
    rw [BlockWitness.answer, BlockWitness.blockHash, WitnessRecorder.witness, found]

/-! ## A witness that lacks what was read -/

theorem account_withoutAccount {witness : BlockWitness}
    (ascending : Ascending accountRank witness.accounts) (address : Address) :
    (witness.withoutAccount address).account address = .error (.unknownAccount address) := by
  have absent : find accountRank (bytesRank address.1)
      (witness.withoutAccount address).accounts = none := by
    refine (find_eq_none_iff (ascending.sublist List.filter_sublist)).mpr fun account member same => ?_
    exact of_decide_eq_true (List.mem_filter.mp member).2 (bytesRank_inj same)
  rw [BlockWitness.account, absent]

/-- Without its account a read errs. -/
theorem answer_withoutAccount {witness : BlockWitness}
    (ascending : Ascending accountRank witness.accounts) {query : Query} {address : Address}
    (reads : query.account = some address) :
    (witness.withoutAccount address).answer keccak revm query = .error (.unknownAccount address) := by
  have absent := account_withoutAccount ascending address
  cases query with
  | basic other =>
    cases reads
    rw [BlockWitness.answer, BlockWitness.basic, absent]
    rfl
  | codeByHash codeHash => cases reads
  | storage other index =>
    cases reads
    rw [BlockWitness.answer, BlockWitness.storage, absent]
    rfl
  | blockHash number => cases reads

/-- Without its slot a read errs. -/
theorem answer_withoutSlot (sound : Sound keccak rpc recorder) {address : Address} {index : U256}
    {value : U256} (kept : Kept keccak revm ⟨.storage address index, value⟩ recorder)
    (env : BlockEnvWitness) :
    ((recorder.witness env).withoutSlot address (toBeBytes index)).answer keccak revm
      (.storage address index) = .error (.unknownSlot address (toBeBytes index)) := by
  obtain ⟨recorded, word, member, -, -⟩ := kept
  let account : AccountWitness :=
    ⟨address, recorded.nonce, recorded.balance, recorded.code, recorded.slots⟩
  let left : AccountWitness :=
    { account with slots := account.slots.filter (·.1 ≠ toBeBytes index) }
  have ranks : Ascending accountRank
      ((recorder.witness env).withoutSlot address (toBeBytes index)).accounts := by
    refine List.pairwise_map.mpr ((harvest_ascending sound).imp fun {first second} below => ?_)
    have same : ∀ account : AccountWitness, accountRank (if account.address = address then
        { account with slots := account.slots.filter (·.1 ≠ toBeBytes index) } else account) =
        accountRank account := fun account => by
      by_cases own : account.address = address
      · rw [if_pos own]
        rfl
      · rw [if_neg own]
    rw [same, same]
    exact below
  have held : left ∈ ((recorder.witness env).withoutSlot address (toBeBytes index)).accounts :=
    List.mem_map.mpr ⟨account, List.mem_map.mpr ⟨_, member, rfl⟩, if_pos rfl⟩
  have found := (find_eq_some_iff ranks).mpr ⟨held, (rfl : accountRank _ = bytesRank address.1)⟩
  have absent : find slotRank (bytesRank (toBeBytes index).1) left.slots = none := by
    refine (find_eq_none_iff ((sound.slots _ member).sublist List.filter_sublist)).mpr
      fun slot inside same => ?_
    exact of_decide_eq_true (List.mem_filter.mp inside).2 (bytesRank_inj same)
  rw [BlockWitness.answer, BlockWitness.storage, BlockWitness.account, found]
  dsimp only [bind, Except.bind]
  rw [absent]

/-- Without its hash a read errs. -/
theorem answer_withoutBlockHash {witness : BlockWitness}
    (ascending : Ascending blockRank witness.env.blockHashes) (number : UInt64) :
    (witness.withoutBlockHash number).answer keccak revm (.blockHash number) =
      .error (.unknownBlockHash number) := by
  have absent : find blockRank number.toNat (witness.withoutBlockHash number).env.blockHashes =
      none := by
    refine (find_eq_none_iff (ascending.sublist List.filter_sublist)).mpr fun entry member same => ?_
    exact of_decide_eq_true (List.mem_filter.mp member).2 (UInt64.toNat_inj.mp same)
  rw [BlockWitness.answer, BlockWitness.blockHash, absent]

/-! ## The replay -/

/-- A recording replays: its witness is in order, the same execution of it asks the same and
is answered the same, and without what a call reads that call errs. -/
structure Replays (keccak : List UInt8 → Word32) (revm : Revm) {R : Type}
    (executor : Dialogue Query (Query.Answer revm) R) (result : R)
    (calls : List (Sigma (Query.Answer revm))) (recorder : WitnessRecorder) : Prop where
  canonical : ∀ known env, known env.specId = true →
    env.excessBlobGas.isSome = env.blobGasprice.isSome →
      (recorder.witness env).canonical known = .ok ()
  again : ∀ env, executor.run
    (Dialogue.fixed ((recorder.witness env).answer keccak revm)) () = (.ok result, calls, ())
  account : ∀ env, ∀ call ∈ calls, ∀ address, call.1.account = some address →
    ((recorder.witness env).withoutAccount address).answer keccak revm call.1 =
      .error (.unknownAccount address)
  slot : ∀ env, ∀ call ∈ calls, ∀ address index, call.1 = .storage address index →
    ((recorder.witness env).withoutSlot address (toBeBytes index)).answer keccak revm call.1 =
      .error (.unknownSlot address (toBeBytes index))
  hash : ∀ env, ∀ call ∈ calls, ∀ number, call.1 = .blockHash number →
    ((recorder.witness env).withoutBlockHash number).answer keccak revm call.1 =
      .error (.unknownBlockHash number)

/-- A recording replays exactly when the execution asks about no account that has storage
and nothing else. -/
theorem replays_iff (nothing : keccak [] = keccakEmpty) {preloaded : List Address} {R : Type}
    {executor : Dialogue Query (Query.Answer revm) R} {result : R}
    {calls : List (Sigma (Query.Answer revm))}
    (recorded : record keccak revm rpc preloaded executor = .ok (result, calls, recorder)) :
    Replays keccak revm executor result calls recorder ↔
      ∀ address, .basic address ∈ executor.asked (rpc.answer keccak revm) →
        ¬rpc.StorageOnly address := by
  obtain ⟨sound, kept, loaded, ran⟩ := record_spec recorded
  have asked : executor.asked (rpc.answer keccak revm) = calls.map Sigma.fst := by
    rw [Dialogue.asked, record_answers recorded]
  have same : ∀ env, executor.run
      (Dialogue.fixed ((recorder.witness env).answer keccak revm)) () = (.ok result, calls, ()) ↔
        ∀ address, .basic address ∈ executor.asked (rpc.answer keccak revm) →
          ¬rpc.StorageOnly address := by
    intro env
    rw [Dialogue.run_fixed_iff ran, asked]
    constructor
    · intro answers address member
      obtain ⟨call, listed, query⟩ := List.mem_map.mp member
      exact (answer_eq_iff nothing sound (kept call listed) env).mp (answers call listed) address query
    · intro none call listed
      refine (answer_eq_iff nothing sound (kept call listed) env).mpr fun address query => ?_
      exact none address (List.mem_map.mpr ⟨call, listed, query⟩)
  constructor
  · intro replays
    exact (same ⟨0, none, none, []⟩).mp (replays.again _)
  · intro none
    refine ⟨fun known env spec pairing => ?_, fun env => (same env).mpr none, ?_, ?_, ?_⟩
    · refine canonical_of_ascending spec pairing (harvest_ascending sound) ?_ sound.hashes
      intro account member
      obtain ⟨entry, inside, rfl⟩ := List.mem_map.mp member
      exact sound.slots entry inside
    · exact fun env call listed address reads =>
      answer_withoutAccount (harvest_ascending sound) reads
    · rintro env ⟨query, value⟩ listed address index rfl
      exact answer_withoutSlot sound (kept _ listed) env
    · rintro env ⟨query, value⟩ listed number rfl
      exact answer_withoutBlockHash sound.hashes number

/-! ## Two chains -/

/-- The root of a storage that is seven at slot zero. -/
def sevenRoot : Word32 :=
  ⟨[0xf2, 0x58, 0xb1, 0xc6, 0xd5, 0xee, 0x7f, 0x6f, 0x35, 0x49, 0x11, 0x7f, 0xb0, 0xac, 0x79, 0x11,
    0x8d, 0x5a, 0xd1, 0x9b, 0x9c, 0x02, 0x7f, 0x9b, 0x8e, 0x14, 0x71, 0xca, 0x51, 0x9b, 0x3b, 0x6c], rfl⟩

/-- A chain of one account, of no code and no balance, that holds seven at its first slot. -/
def soleRpc (nonce : UInt64) : Rpc where
  getProof address :=
    if address = soleAddress then .ok ⟨nonce, zeroWord, keccakEmpty, sevenRoot⟩
    else .ok ⟨0, zeroWord, zeroWord, zeroWord⟩
  getCode _ := .ok []
  getStorageAt address key :=
    if address = soleAddress ∧ key = zeroWord then .ok (toBeBytes 7) else .ok zeroWord
  getBlockHash _ := .ok zeroWord

/-- An execution that asks whether the account exists, and then reads its first slot. -/
def soleExecutor : Dialogue Query (Query.Answer bytesRevm) (Bool × U256) :=
  .ask (.basic soleAddress) fun info => .ask (.storage soleAddress 0) fun value =>
    .done (info.isSome, value)

/-- An account that has been used replays. -/
theorem used_replays : ∃ calls recorder,
    record soleKeccak bytesRevm (soleRpc 1) [] soleExecutor = .ok ((true, 7), calls, recorder) ∧
      Replays soleKeccak bytesRevm soleExecutor (true, 7) calls recorder := by
  have recorded : ∃ calls recorder, record soleKeccak bytesRevm (soleRpc 1) [] soleExecutor =
    .ok ((true, 7), calls, recorder) := ⟨_, _, rfl⟩
  obtain ⟨calls, recorder, recorded⟩ := recorded
  refine ⟨calls, recorder, recorded, (replays_iff (by decide) recorded).mpr ?_⟩
  intro address member only
  obtain ⟨proof, answered, nonce, -⟩ := only
  have own : address = soleAddress := by
    rcases List.mem_cons.mp member with same | rest
    · cases same
      rfl
    · cases List.mem_singleton.mp rest
  cases own
  cases answered
  exact absurd nonce (by decide)

/-- An account of storage alone exists in the recording and not in its witness, which
serves its slot all the same. -/
theorem unused_differs : ∃ calls recorder,
    record soleKeccak bytesRevm (soleRpc 0) [] soleExecutor = .ok ((true, 7), calls, recorder) ∧
      (∀ env, ∃ answers, soleExecutor.run
        (Dialogue.fixed ((recorder.witness env).answer soleKeccak bytesRevm)) () =
          (.ok (false, 7), answers, ())) ∧
      ¬Replays soleKeccak bytesRevm soleExecutor (true, 7) calls recorder := by
  have recorded : ∃ calls recorder,
      record soleKeccak bytesRevm (soleRpc 0) [] soleExecutor = .ok ((true, 7), calls, recorder) ∧
        ∀ env, ∃ answers, soleExecutor.run
          (Dialogue.fixed ((recorder.witness env).answer soleKeccak bytesRevm)) () =
            (.ok (false, 7), answers, ()) := ⟨_, _, rfl, fun _ => ⟨_, rfl⟩⟩
  obtain ⟨calls, recorder, recorded, replayed⟩ := recorded
  refine ⟨calls, recorder, recorded, replayed, fun replays => ?_⟩
  obtain ⟨answers, other⟩ := replayed ⟨0, none, none, []⟩
  have same := congrArg Prod.fst (other.symm.trans (replays.again _))
  exact Bool.false_ne_true (congrArg Prod.fst (Except.ok.inj same))

end Apogee.Recorder
