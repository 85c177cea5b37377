import Apogee.Stateless.Reads

/-! # Right answers

What it is for an answer to be the world's, and that every answer of every run of calls is.
-/

namespace Apogee.Stateless

open Mpt Math

namespace Query

/-- The addresses a call asks for. -/
def addresses : Query → List Address
  | basic address => [address]
  | storage address _ => [address]
  | _ => []

/-- The slots a call asks for. -/
def indices : Query → List U256
  | storage _ index => [index]
  | _ => []

end Query

/-- An answer that is the world's: an account's own info, none for an absent one; the code
of the hash, which is that of every account with the hash; a slot's own value, zero for an
absent one; and for a number below the block's the hash of the header as many places from
the end as it is short of it. -/
def Right (keccak : List UInt8 → Word32) (revm : Revm) (world : World)
    (headers : List (List UInt8)) (number : UInt64) : Query → Answer revm → Prop
  | .basic address, .basic info =>
    info = (world.account address).map fun account =>
      ⟨account.balance, account.nonce, keccak account.code⟩
  | .codeByHash codeHash, .code code =>
    keccak (revm.originalBytes code) = codeHash ∧
      ∀ address account, world.account address = some account → keccak account.code = codeHash →
        revm.originalBytes code = account.code
  | .storage address index, .slot value => value = world.slots address index
  | .blockHash position, .hash hash =>
    position.toNat < number.toNat ∧ ∃ header,
      headers.reverse[number.toNat - position.toNat - 1]? = some header ∧ keccak header = hash
  | _, _ => False

variable {keccak : List UInt8 → Word32} {revm : Revm} {world : World}
  {nodes codes headers : List (List UInt8)} {number : UInt64} {addresses : Set Address}
  {indices : Set U256} {state : Node} {storage : Address → Node}

theorem exists_of_map_ok {ε α β : Type} {f : α → β} {x : Except ε α} {b : β} (ran : x.map f = .ok b) :
    ∃ a, x = .ok a ∧ f a = b := by
  cases x with
  | error error => cases ran
  | ok a => exact ⟨a, rfl, Except.ok.inj ran⟩

/-! ## Each call -/

theorem blockHash_right {db : WitnessDb} (blocks : db.blockHashes = positions number (headers.map keccak))
    {position : UInt64} {hash : Word32} (answered : db.blockHash position = .ok hash) :
    Right keccak revm world headers number (.blockHash position) (.hash hash) := by
  unfold WitnessDb.blockHash at answered
  rw [blocks] at answered
  cases found : find blockRank position.toNat (positions number (headers.map keccak)) with
  | none =>
    rw [found] at answered
    cases answered
  | some entry =>
    rw [found] at answered
    cases answered
    obtain ⟨member, rank⟩ := (find_eq_some_iff (positions_ascending _ _)).mp found
    obtain ⟨place, own⟩ := entry
    cases UInt64.toNat_inj.mp rank
    obtain ⟨below, held⟩ := mem_positions member
    rw [← List.map_reverse, List.getElem?_map] at held
    obtain ⟨header, there, same⟩ := Option.map_eq_some_iff.mp held
    exact ⟨below, header, there, same⟩

/-- The bytes of a code are those of every account with their hash. -/
theorem code_unique (setting : world.Setting keccak nodes codes addresses indices) {code : List UInt8} (own : code = [] ∨ code ∈ codes) {address : Address}
    {account : Account} (held : world.account address = some account)
    (same : keccak account.code = keccak code) : code = account.code := by
  refine (setting.distinct ?_ ?_ same).symm
  · exact Or.inr (Or.inr (Or.inr (Or.inr (Or.inl ⟨address, account, held, rfl⟩))))
  · rcases own with rfl | listed
    · exact Or.inr (Or.inl rfl)
    · exact Or.inr (Or.inr (Or.inr (Or.inl listed)))

variable (tries : world.Tries keccak state storage)
  (setting : world.Setting keccak nodes codes addresses indices)
include tries setting

theorem basic_right {db : WitnessDb} (serving : Serving keccak nodes codes state storage db)
    {address : Address} (known : address ∈ addresses) {info : Option AccountInfo}
    (answered : db.basic keccak address = .ok info) :
    Right keccak revm world headers number (.basic address) (.basic info) := by
  unfold WitnessDb.basic at answered
  rcases get_spec tries setting serving.shows known with read | ⟨error, read, -⟩
  · rw [account_of_get read, World.state] at answered
    rw [Right]
    cases held : world.account address with
    | none =>
      rw [held] at answered
      cases answered
      rfl
    | some account =>
      rw [held] at answered
      dsimp only [Option.map_some] at answered
      rw [fromBeBytes_toBeBytes] at answered
      exact (Except.ok.inj answered).symm
  · rw [account_of_error read] at answered
    cases answered

omit tries in
theorem code_right (lawful : revm.Lawful) {db : WitnessDb}
    (serving : Serving keccak nodes codes state storage db) {codeHash : Word32} {code : revm.Bytecode}
    (answered : db.codeByHash revm codeHash = .ok code) :
    Right keccak revm world headers number (.codeByHash codeHash) (.code code) := by
  have made : ∃ bytes, (bytes = [] ∨ bytes ∈ codes) ∧ keccak bytes = codeHash ∧
      revm.originalBytes code = bytes := by
    unfold WitnessDb.codeByHash at answered
    by_cases none : codeHash = keccakEmpty
    · rw [if_pos none] at answered
      cases answered
      exact ⟨[], Or.inl rfl, setting.emptyCode.trans none.symm, lawful.empty_bytes⟩
    · rw [if_neg none, serving.codes_eq] at answered
      cases found : (NodeMap.new keccak codes).get codeHash with
      | none =>
        rw [found] at answered
        cases answered
      | some bytes =>
        rw [found] at answered
        cases answered
        obtain ⟨listed, hash⟩ := NodeMap.get_new found
        refine ⟨bytes, Or.inr listed, hash, ?_⟩
        cases checked : revm.newRawChecked bytes with
        | none => exact lawful.legacy_bytes bytes
        | some code => exact lawful.checked_bytes bytes code checked
  obtain ⟨bytes, own, hash, same⟩ := made
  subst same
  exact ⟨hash, fun address account held also => code_unique setting own held (also.trans hash.symm)⟩

/-- A slot that is read is the account's. -/
theorem slot_right {trie : Node} {address : Address} (shows : Shows keccak nodes trie (storage address))
    {index : U256} (known : index ∈ indices) {value : U256}
    (answered : WitnessDb.slot trie (slotPath keccak index) = .ok value) :
    value = world.slots address index := by
  unfold WitnessDb.slot at answered
  rcases shows.get (slotPath keccak index) with same | ⟨hash, hidden, rest, refused, -⟩
  · rw [same, tries.get_storage setting address known, slotTable] at answered
    by_cases zero : world.slots address index = 0
    · rw [if_pos zero] at answered
      rw [zero]
      exact (Except.ok.inj answered).symm
    · rw [if_neg zero] at answered
      dsimp only at answered
      rw [decodeSlot_encodeSlot] at answered
      dsimp only at answered
      rw [fromBeBytes_toBeBytes] at answered
      exact (Except.ok.inj answered).symm
  · rw [refused] at answered
    cases answered

/-! ## Runs of calls -/

/-- What a call leaves: the database still serves the world, and keeps what it kept. -/
structure Left (keccak : List UInt8 → Word32) (nodes codes : List (List UInt8)) (state : Node)
    (storage : Address → Node) (db after : WitnessDb) : Prop where
  serving : Serving keccak nodes codes state storage after
  state_eq : after.state = db.state
  blocks_eq : after.blockHashes = db.blockHashes
  kept : ∀ address, Kept db address → Kept after address

/-- A call's answer is the world's; storage that is asked for is kept, or in vain. -/
theorem serve_spec (lawful : revm.Lawful) {db : WitnessDb}
    (serving : Serving keccak nodes codes state storage db)
    (blocks : db.blockHashes = positions number (headers.map keccak)) {query : Query}
    (known : ∀ address ∈ query.addresses, address ∈ addresses)
    (listed : ∀ index ∈ query.indices, index ∈ indices) :
    (∀ answer, (serve keccak revm db query).1 = .ok answer →
        Right keccak revm world headers number query answer) ∧
      Left keccak nodes codes state storage db (serve keccak revm db query).2 ∧
      ∀ address index, query = .storage address index →
        Kept (serve keccak revm db query).2 address ∨ Unread keccak world nodes db address := by
  have same : Left keccak nodes codes state storage db db := ⟨serving, rfl, rfl, fun _ kept => kept⟩
  cases query with
  | basic address =>
    refine ⟨fun answer answered => ?_, same, nofun⟩
    obtain ⟨info, ran, rfl⟩ := exists_of_map_ok answered
    exact basic_right tries setting serving (known address (List.mem_singleton_self _)) ran
  | codeByHash codeHash =>
    refine ⟨fun answer answered => ?_, same, nofun⟩
    obtain ⟨code, ran, rfl⟩ := exists_of_map_ok answered
    exact code_right setting lawful serving ran
  | blockHash position =>
    refine ⟨fun answer answered => ?_, same, nofun⟩
    obtain ⟨hash, ran, rfl⟩ := exists_of_map_ok answered
    exact blockHash_right blocks ran
  | storage address index =>
    have here := known address (List.mem_singleton_self _)
    have slot := listed index (List.mem_singleton_self _)
    rw [serve, WitnessDb.readSlot]
    rcases storageTrie_spec tries setting serving here with
      ⟨trie, after, ran, shows, served, state, blocks, kept, others⟩ | ⟨error, ran, -, unread⟩
    · rw [ran]
      refine ⟨fun answer answered => ?_, ⟨served, state, blocks, others⟩, ?_⟩
      · obtain ⟨value, read, rfl⟩ := exists_of_map_ok answered
        exact slot_right tries setting shows slot read
      · rintro _ _ ⟨rfl, rfl⟩
        exact Or.inl kept
    · rw [ran]
      refine ⟨fun answer answered => ?_, same, ?_⟩
      · cases answered
      · rintro _ _ ⟨rfl, rfl⟩
        exact Or.inr unread

/-- Every answer of a run is the world's. -/
theorem serveAll_spec (lawful : revm.Lawful) {db : WitnessDb}
    (serving : Serving keccak nodes codes state storage db)
    (blocks : db.blockHashes = positions number (headers.map keccak)) {queries : List Query}
    (known : ∀ query ∈ queries, ∀ address ∈ query.addresses, address ∈ addresses)
    (listed : ∀ query ∈ queries, ∀ index ∈ query.indices, index ∈ indices) :
    List.Forall₂ (fun query result => ∀ answer, result = .ok answer →
        Right keccak revm world headers number query answer) queries
        (serveAll keccak revm db queries).1 ∧
      Left keccak nodes codes state storage db (serveAll keccak revm db queries).2 ∧
      ∀ address index, Query.storage address index ∈ queries →
        Kept (serveAll keccak revm db queries).2 address ∨ Unread keccak world nodes db address := by
  induction queries generalizing db with
  | nil => exact ⟨.nil, ⟨serving, rfl, rfl, fun _ kept => kept⟩, fun _ _ none => absurd none List.not_mem_nil⟩
  | cons query queries ih =>
    obtain ⟨here, later⟩ := List.forall_mem_cons.mp known
    obtain ⟨slot, slots⟩ := List.forall_mem_cons.mp listed
    obtain ⟨right, left, asked⟩ := serve_spec tries setting lawful serving blocks here slot
    obtain ⟨rights, rest, others⟩ := ih left.serving (left.blocks_eq.trans blocks) later slots
    have unread : ∀ address, Unread keccak world nodes (serve keccak revm db query).2 address →
        Unread keccak world nodes db address := by
      intro address
      rw [Unread, Unread, WitnessDb.storageRoot, WitnessDb.storageRoot, WitnessDb.account,
        WitnessDb.account, left.state_eq]
      exact id
    refine ⟨.cons right rights, ⟨rest.serving, rest.state_eq.trans left.state_eq,
      rest.blocks_eq.trans left.blocks_eq, fun address kept => rest.kept address (left.kept address kept)⟩,
      fun address index member => ?_⟩
    rcases List.mem_cons.mp member with first | after
    · exact (asked address index first.symm).imp_left (rest.kept address)
    · exact (others address index after).imp_right (unread address)

end Apogee.Stateless
