import Apogee.Stateless.World

/-! # What the database answers

Whatever is asked, in whatever order and however often, an answer is the world's; what
the tries refuse, they refuse for a node the world commits to and the witness lacks.
-/

namespace Apogee.Stateless

open Mpt Rlp Math Patricia

variable {keccak : List UInt8 → Word32} {world : World} {nodes codes : List (List UInt8)}
  {addresses : Set Address} {indices : Set U256}

/-! ## Refusals -/

/-- A node that the world commits to and the witness lacks, by its hash. -/
def World.Missing (keccak : List UInt8 → Word32) (world : World) (nodes : List (List UInt8))
    (hash : Word32) : Prop :=
  ∃ bytes, world.NodeOf keccak bytes ∧ keccak bytes = hash ∧ ∀ known ∈ nodes, keccak known ≠ hash

/-- A refusal that names such a node. -/
def World.Refuses (keccak : List UInt8 → Word32) (world : World) (nodes : List (List UInt8))
    (error : WitnessError) : Prop :=
  ∃ hash, (error = .trie (.missingNode hash) ∨ error = .trie (.blindedCollapse hash)) ∧
    world.Missing keccak nodes hash

/-- What a witness shows of a trie: hashes in the place of nodes of it that are lacked. -/
def Shows (keccak : List UInt8 → Word32) (nodes : List (List UInt8)) (view trie : Node) : Prop :=
  View (fun hash node => Lacks keccak (NodeMap.new keccak nodes) hash node ∧ Within node trie) view trie

theorem shows_sight {trie : Node} {contents : Contents} (holds : Holds trie contents) :
    Shows keccak nodes (sight keccak (NodeMap.new keccak nodes) trie) trie :=
  (view_sight keccak _ trie holds.resolved).within

/-! ## The tries of a world -/

/-- The tries that a world's state and storage have. -/
structure World.Tries (keccak : List UInt8 → Word32) (world : World) (state : Node)
    (storage : Address → Node) : Prop where
  holds_state : Holds state (stateContents keccak (world.state keccak))
  holds_storage : ∀ address, Holds (storage address) (storageContents keccak (world.slots address))
  storage_root : ∀ address, (storage address).root keccak = some (storageRoot keccak (world.slots address))

variable {state : Node} {storage : Address → Node} (tries : world.Tries keccak state storage)
include tries

namespace World.Tries

theorem missing_state {hash : Word32} {hidden : Node}
    (lacks : Lacks keccak (NodeMap.new keccak nodes) hash hidden) (within : Within hidden state) :
    world.Missing keccak nodes hash := by
  obtain ⟨absent, filled, bytes, encoded, -, same⟩ := lacks
  exact ⟨bytes, Or.inl ⟨state, hidden, tries.holds_state, within, filled, encoded⟩, same,
    NodeMap.get_new_eq_none_iff.mp absent⟩

theorem missing_storage {address : Address} {hash : Word32} {hidden : Node}
    (lacks : Lacks keccak (NodeMap.new keccak nodes) hash hidden)
    (within : Within hidden (storage address)) : world.Missing keccak nodes hash := by
  obtain ⟨absent, filled, bytes, encoded, -, same⟩ := lacks
  exact ⟨bytes, Or.inr ⟨address, storage address, hidden, tries.holds_storage address, within, filled,
    encoded⟩, same, NodeMap.get_new_eq_none_iff.mp absent⟩

variable (setting : world.Setting keccak nodes codes addresses indices)
include setting

theorem distinct_state : Set.InjOn keccak (hashed keccak nodes state) := by
  refine setting.distinct.mono ?_
  rintro bytes (rfl | known | ⟨node, within, encoded⟩)
  · exact Or.inl rfl
  · exact Or.inr (Or.inr (Or.inl known))
  · by_cases filled : node = .empty
    · rw [filled] at encoded
      exact Or.inl (Option.some.inj encoded).symm
    · exact Or.inr (Or.inr (Or.inr (Or.inr (Or.inr (Or.inr (Or.inr
        (Or.inl ⟨state, node, tries.holds_state, within, filled, encoded⟩)))))))

theorem distinct_storage (address : Address) :
    Set.InjOn keccak (hashed keccak nodes (storage address)) := by
  refine setting.distinct.mono ?_
  rintro bytes (rfl | known | ⟨node, within, encoded⟩)
  · exact Or.inl rfl
  · exact Or.inr (Or.inr (Or.inl known))
  · by_cases filled : node = .empty
    · rw [filled] at encoded
      exact Or.inl (Option.some.inj encoded).symm
    · exact Or.inr (Or.inr (Or.inr (Or.inr (Or.inr (Or.inr (Or.inr (Or.inr
        ⟨address, storage address, node, tries.holds_storage address, within, filled, encoded⟩)))))))

/-- The state trie reads an account's leaf at its path. -/
theorem get_state {address : Address} (known : address ∈ addresses) :
    get state (accountPath keccak address) =
      .ok ((world.state keccak address).map (Record.leaf keccak)) := by
  rw [tries.holds_state.reads, stateContents, keyed_path setting.accountPaths ?_ known]
  intro other held
  refine setting.here other fun absent => held ?_
  rw [World.state, absent]
  rfl

/-- A storage trie reads a slot's leaf at its path. -/
theorem get_storage (address : Address) {index : U256} (known : index ∈ indices) :
    get (storage address) (slotPath keccak index) = .ok (slotTable (world.slots address) index) := by
  rw [(tries.holds_storage address).reads, storageContents,
    keyed_path setting.slotPaths (slotTable_inside (setting.known address)) known]

end World.Tries

omit tries

/-! ## Accounts -/

section Account

variable {db : WitnessDb} {address : Address}

/-- A leaf that is read is the account it was made of. -/
theorem account_of_get {record : Option Record}
    (read : get db.state (accountPath keccak address) = .ok (record.map (Record.leaf keccak))) :
    db.account keccak address = .ok (record.map fun record =>
      (record.nonce, toBeBytes record.balance, storageRoot keccak record.slots, record.codeHash)) := by
  rw [WitnessDb.account, read]
  cases record with
  | none => rfl
  | some record =>
    dsimp only [Option.map_some]
    rw [Record.leaf, decodeAccount_encodeAccount]

theorem account_of_error {error : MptError}
    (read : get db.state (accountPath keccak address) = .error error) :
    db.account keccak address = .error (.trie error) := by
  rw [WitnessDb.account, read]

theorem storageContents_zero : storageContents keccak 0 = fun _ => none := by
  funext key
  by_contra held
  obtain ⟨index, -, same⟩ := exists_of_keyed held
  exact held (same.trans (if_pos rfl))

theorem holds_zero : Holds .empty (storageContents keccak 0) := by
  rw [storageContents_zero]
  exact .empty

/-- No slots have the root of the empty trie. -/
theorem storageRoot_zero (emptyRoot : keccak [0x80] = emptyTrieRoot) :
    storageRoot keccak 0 = emptyTrieRoot := by
  have tabulates : Tabulates [] (storageContents keccak 0) := by
    rw [storageContents_zero]
    exact ⟨List.nodup_nil, fun key value => iff_of_false List.not_mem_nil nofun⟩
  have root := holds_zero.contentsRoot keccak ⟨[], tabulates⟩
  rw [storageRoot, ← Option.some.inj root, ← emptyRoot]

/-- The storage root of an account that is read. -/
theorem storageRoot_of_get (emptyRoot : keccak [0x80] = emptyTrieRoot)
    (read : get db.state (accountPath keccak address) =
      .ok ((world.state keccak address).map (Record.leaf keccak))) :
    db.storageRoot keccak address = .ok (storageRoot keccak (world.slots address)) := by
  rw [WitnessDb.storageRoot, account_of_get read, World.state, World.slots]
  cases world.account address with
  | none => exact congrArg Except.ok (storageRoot_zero emptyRoot).symm
  | some account => rfl

end Account

/-! ## The database of a world -/

/-- Whether an account's storage trie is kept. -/
def Kept (db : WitnessDb) (address : Address) : Prop :=
  (find storageRank (bytesRank address.1) db.storage).isSome

/-- What a database of a world's witness is. -/
structure Serving (keccak : List UInt8 → Word32) (nodes codes : List (List UInt8)) (state : Node)
    (storage : Address → Node) (db : WitnessDb) : Prop where
  nodes_eq : db.nodes = NodeMap.new keccak nodes
  codes_eq : db.codes = NodeMap.new keccak codes
  shows : Shows keccak nodes db.state state
  ascending : Ascending storageRank db.storage
  parsed : ∀ entry ∈ db.storage, Shows keccak nodes entry.2 (storage entry.1)

/-- An account whose storage was asked for in vain: its leaf or its storage's first node is
lacked. -/
def Unread (keccak : List UInt8 → Word32) (world : World) (nodes : List (List UInt8))
    (db : WitnessDb) (address : Address) : Prop :=
  (∃ error, db.storageRoot keccak address = .error error ∧ world.Refuses keccak nodes error) ∨
    db.storageRoot keccak address = .ok (storageRoot keccak (world.slots address)) ∧
      world.Missing keccak nodes (storageRoot keccak (world.slots address))

theorem storage_of_find {db : WitnessDb} (serving : Serving keccak nodes codes state storage db)
    {address : Address} {entry : Address × Node}
    (found : find storageRank (bytesRank address.1) db.storage = some entry) :
    entry ∈ db.storage ∧ entry.1 = address ∧ Shows keccak nodes entry.2 (storage address) := by
  obtain ⟨member, rank⟩ := (find_eq_some_iff serving.ascending).mp found
  have same : entry.1 = address := bytesRank_inj rank
  exact ⟨member, same, same ▸ serving.parsed entry member⟩

theorem kept_iff {db : WitnessDb} (ascending : Ascending storageRank db.storage) {address : Address} :
    Kept db address ↔ ∃ entry ∈ db.storage, entry.1 = address := by
  rw [Kept, Option.isSome_iff_exists]
  constructor
  · rintro ⟨entry, found⟩
    obtain ⟨member, rank⟩ := (find_eq_some_iff ascending).mp found
    exact ⟨entry, member, bytesRank_inj rank⟩
  · rintro ⟨entry, member, rfl⟩
    exact ⟨entry, (find_eq_some_iff ascending).mpr ⟨member, rfl⟩⟩

/-- A trie put where it belongs is kept beside the others. -/
theorem keep {db : WitnessDb} (serving : Serving keccak nodes codes state storage db)
    {address : Address} (found : find storageRank (bytesRank address.1) db.storage = none)
    {trie : Node} (shows : Shows keccak nodes trie (storage address)) {after : WitnessDb}
    (kept : after = ⟨db.nodes, db.codes, db.state,
      db.storage.insertIdx (position storageRank (bytesRank address.1) db.storage) (address, trie),
      db.blockHashes⟩) :
    Serving keccak nodes codes state storage after ∧ Kept after address ∧
      ∀ other, Kept db other → Kept after other := by
  subst kept
  have ascending : Ascending storageRank (db.storage.insertIdx
      (position storageRank (bytesRank address.1) db.storage) (address, trie)) :=
    ascending_insertIdx serving.ascending ((find_eq_none_iff serving.ascending).mp found) rfl
  have members : ∀ entry, entry ∈ db.storage.insertIdx
      (position storageRank (bytesRank address.1) db.storage) (address, trie) ↔
        entry = (address, trie) ∨ entry ∈ db.storage :=
    fun entry => List.mem_insertIdx (position_le _ _)
  refine ⟨⟨serving.nodes_eq, serving.codes_eq, serving.shows, ascending, fun entry member => ?_⟩,
    ?_, fun other kept => ?_⟩
  · rcases (members entry).mp member with rfl | listed
    · exact shows
    · exact serving.parsed entry listed
  · exact (kept_iff ascending).mpr ⟨_, (members _).mpr (Or.inl rfl), rfl⟩
  · obtain ⟨entry, member, same⟩ := (kept_iff serving.ascending).mp kept
    exact (kept_iff ascending).mpr ⟨entry, (members _).mpr (Or.inr member), same⟩

variable (setting : world.Setting keccak nodes codes addresses indices)
include setting tries

/-- An account is the world's, or its path meets a node that is lacked. -/
theorem get_spec {view : Node} (shows : Shows keccak nodes view state) {address : Address}
    (known : address ∈ addresses) :
    get view (accountPath keccak address) =
        .ok ((world.state keccak address).map (Record.leaf keccak)) ∨
      ∃ error, get view (accountPath keccak address) = .error error ∧
        world.Refuses keccak nodes (.trie error) := by
  rcases shows.get (accountPath keccak address) with same | ⟨hash, hidden, rest, refused, ⟨lacks, within⟩, -⟩
  · exact Or.inl (same.trans (tries.get_state setting known))
  · exact Or.inr ⟨_, refused, hash, Or.inl rfl, tries.missing_state lacks within⟩

theorem storageRoot_spec {db : WitnessDb} (shows : Shows keccak nodes db.state state)
    {address : Address} (known : address ∈ addresses) :
    db.storageRoot keccak address = .ok (storageRoot keccak (world.slots address)) ∨
      ∃ error, db.storageRoot keccak address = .error error ∧ world.Refuses keccak nodes error := by
  rcases get_spec tries setting shows known with read | ⟨error, read, refuses⟩
  · exact Or.inl (storageRoot_of_get setting.emptyRoot read)
  · refine Or.inr ⟨.trie error, ?_, refuses⟩
    rw [WitnessDb.storageRoot, account_of_error read]

/-- A storage trie is the account's as far as the witness shows it, and is kept. -/
theorem storageTrie_spec {db : WitnessDb} (serving : Serving keccak nodes codes state storage db)
    {address : Address} (known : address ∈ addresses) :
    (∃ trie after, db.storageTrie keccak address = .ok (trie, after) ∧
        Shows keccak nodes trie (storage address) ∧ Serving keccak nodes codes state storage after ∧
        after.state = db.state ∧ after.blockHashes = db.blockHashes ∧ Kept after address ∧
        ∀ other, Kept db other → Kept after other) ∨
      ∃ error, db.storageTrie keccak address = .error error ∧ world.Refuses keccak nodes error ∧
        Unread keccak world nodes db address := by
  unfold WitnessDb.storageTrie
  cases found : find storageRank (bytesRank address.1) db.storage with
  | some entry =>
    obtain ⟨-, -, shows⟩ := storage_of_find serving found
    refine Or.inl ⟨entry.2, db, rfl, shows, serving, rfl, rfl, ?_, fun _ kept => kept⟩
    rw [Kept, found]
    rfl
  | none =>
    dsimp only
    rcases storageRoot_spec tries setting serving.shows known with root | ⟨error, refused, refuses⟩
    · rw [root]
      dsimp only
      have length : ∀ key, storageContents keccak (world.slots address) key ≠ none → key.length = 64 :=
        keyed_length fun index => length_nibbles _
      rcases build_sight (tries.holds_storage address) length setting.short setting.emptyRoot
        (tries.distinct_storage setting address) (tries.storage_root address) with
        ran | ⟨refused, filled, bytes, encoded, same, absent⟩
      · have built : build db.nodes (storageRoot keccak (world.slots address)) =
            .ok (sight keccak (NodeMap.new keccak nodes) (storage address)) := by
          rw [serving.nodes_eq, ran]
        have shows := @shows_sight keccak nodes _ _ (tries.holds_storage address)
        rw [built]
        obtain ⟨after, kept, others⟩ := keep serving found shows rfl
        exact Or.inl ⟨_, _, rfl, shows, after, rfl, rfl, kept, others⟩
      · rw [← serving.nodes_eq] at refused
        rw [refused]
        have missing : world.Missing keccak nodes (storageRoot keccak (world.slots address)) :=
          ⟨bytes, Or.inr ⟨address, storage address, storage address, tries.holds_storage address,
            .refl _, filled, encoded⟩, same, absent⟩
        exact Or.inr ⟨_, rfl, ⟨_, Or.inl rfl, missing⟩, Or.inr ⟨root, missing⟩⟩
    · rw [refused]
      exact Or.inr ⟨error, rfl, refuses, Or.inl ⟨error, refused, refuses⟩⟩

end Apogee.Stateless
