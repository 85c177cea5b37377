import Apogee.Stateless.Refines

/-! # A witness serves its world

From the headers and the witness's nodes and codes on: what is answered is the world's,
and the root after a bundle is that of the world with the bundle applied.
-/

namespace Apogee.Stateless

open Mpt Rlp Math Patricia

/-- The accounts of a world and those that calls and a bundle ask for. -/
def World.asked (world : World) (queries : List Query) (bundle : BundleState) : Set Address :=
  {address | world.account address ≠ none ∨ (∃ query ∈ queries, address ∈ query.addresses) ∨
    ∃ entry ∈ bundle.state, entry.1 = address}

/-- The slots of a world and those that calls and a bundle ask for. -/
def World.askedSlots (world : World) (queries : List Query) (bundle : BundleState) : Set U256 :=
  {index | (∃ address, world.slots address index ≠ 0) ∨ (∃ query ∈ queries, index ∈ query.indices) ∨
    ∃ entry ∈ bundle.state, ∃ change ∈ entry.2.storage, change.1 = index}

variable {keccak : List UInt8 → Word32} {revm : Revm} {world : World}
  {nodes codes headers : List (List UInt8)} {addresses : Set Address} {indices : Set U256}
  (setting : world.Setting keccak nodes codes addresses indices)
include setting

/-- A world has its tries, the state's under the state root. -/
theorem exists_tries : ∃ state storage, world.Tries keccak state storage ∧
    state.root keccak = some (stateRoot keccak (world.state keccak)) := by
  have tabulated := exists_tabulates setting.accountPaths (state_inside setting) (state_finite world)
  have filled : ∀ address, (world.state keccak address).map (Record.leaf keccak) ≠ some [] := by
    intro address held
    obtain ⟨record, -, none⟩ := Option.map_eq_some_iff.mp held
    exact encodeAccount_ne_nil _ _ _ _ none
  obtain ⟨state, holds⟩ := tabulated.choose_spec.exists_holds (keyed_filled filled)
  choose storage storages using fun address =>
    exists_storageTrie setting.slotPaths (setting.known address)
  exact ⟨state, storage, ⟨holds, fun address => (storages address).1, fun address => (storages address).2⟩,
    holds.contentsRoot keccak tabulated⟩

/-- A witness opens on its world, or lacks the state's first node. -/
theorem new_spec {state : Node} {storage : Address → Node} (tries : world.Tries keccak state storage)
    (root : state.root keccak = some (stateRoot keccak (world.state keccak)))
    (blocks : List (UInt64 × Word32)) :
    (∃ db, WitnessDb.new keccak (stateRoot keccak (world.state keccak)) nodes codes blocks = .ok db ∧
        Serving keccak nodes codes state storage db ∧ db.blockHashes = blocks) ∨
      ∃ error, WitnessDb.new keccak (stateRoot keccak (world.state keccak)) nodes codes blocks =
        .error error ∧ world.Refuses keccak nodes error := by
  have length : ∀ key, stateContents keccak (world.state keccak) key ≠ none → key.length = 64 :=
    keyed_length fun address => length_nibbles _
  rw [WitnessDb.new]
  rcases build_sight tries.holds_state length setting.short setting.emptyRoot
    (tries.distinct_state setting) root with ran | ⟨refused, filled, bytes, encoded, same, absent⟩
  · rw [ran]
    refine Or.inl ⟨_, rfl, ⟨rfl, rfl, shows_sight tries.holds_state, List.Pairwise.nil, ?_⟩, rfl⟩
    exact fun entry member => absurd member List.not_mem_nil
  · rw [refused]
    refine Or.inr ⟨_, rfl, _, Or.inl rfl, bytes, ?_, same, absent⟩
    exact Or.inl ⟨state, state, tries.holds_state, .refl _, filled, encoded⟩

omit setting

/-- The hash of each header is under the number of its place. -/
theorem ancestors_positions {amsterdam : Bool} {number : UInt64} {parent : Header} {last : Word32}
    {blocks : List (UInt64 × Word32)}
    (chained : ancestors keccak headers amsterdam number = some (parent, last, blocks)) :
    blocks = positions number (headers.map keccak) := by
  obtain ⟨chain, ran, rest⟩ := Option.bind_eq_some_iff.mp chained
  obtain ⟨parent, -, rest⟩ := Option.bind_eq_some_iff.mp rest
  obtain ⟨last, -, same⟩ := Option.bind_eq_some_iff.mp rest
  cases same
  rw [foldlM_link ran]
  rfl

/-- Over the headers and the witness of a world, without collisions among the strings that
are hashed: every answer of every run of calls is the world's; the root after a bundle is
that of the world with the bundle applied, or the witness is refused; and the refusal names
a node it lacks, unless storage was changed that was there and never asked for. -/
theorem witness_refines (keccak : List UInt8 → Word32) (emptyRoot : keccak [0x80] = emptyTrieRoot)
    (emptyCode : keccak [] = keccakEmpty) (revm : Revm) (lawful : revm.Lawful) (world : World)
    {nodes codes headers : List (List UInt8)} (short : ∀ node ∈ nodes, node.length ≤ usizeMax)
    (queries : List Query) (bundle : BundleState)
    (distinct : Set.InjOn keccak (world.strings keccak nodes codes (world.asked queries bundle)
      (world.askedSlots queries bundle)))
    {amsterdam : Bool} {number : UInt64} {parent : Header} {last : Word32}
    {blocks : List (UInt64 × Word32)}
    (chained : ancestors keccak headers amsterdam number = some (parent, last, blocks))
    (committed : parent.stateRoot = stateRoot keccak (world.state keccak)) :
    (∃ error, WitnessDb.new keccak parent.stateRoot nodes codes blocks = .error error ∧
        world.Refuses keccak nodes error) ∨
      ∃ db, WitnessDb.new keccak parent.stateRoot nodes codes blocks = .ok db ∧
        List.Forall₂ (fun query result => ∀ answer, result = .ok answer →
          Right keccak revm world headers number query answer) queries
          (serveAll keccak revm db queries).1 ∧
        (postStateRoot keccak revm (serveAll keccak revm db queries).2 bundle =
            .ok (stateRoot keccak (world.apply revm keccak bundle)) ∨
          ∃ error, postStateRoot keccak revm (serveAll keccak revm db queries).2 bundle =
              .error (.refused error) ∧
            ((∀ entry ∈ bundle.state, entry.2.storage = [] ∨ entry.2.destroyed = true ∨
                world.account entry.1 = none ∨ ∃ index, Query.storage entry.1 index ∈ queries) →
              world.Refuses keccak nodes error)) := by
  have setting : world.Setting keccak nodes codes (world.asked queries bundle)
      (world.askedSlots queries bundle) :=
    ⟨emptyRoot, emptyCode, short, distinct, fun address present => Or.inl present,
      fun address index filled => Or.inl ⟨address, filled⟩⟩
  obtain ⟨state, storage, tries, root⟩ := exists_tries setting
  rw [committed]
  rcases new_spec setting tries root blocks with ⟨db, opened, serving, kept⟩ | refused
  · refine Or.inr ⟨db, opened, ?_⟩
    obtain ⟨rights, left, asked⟩ := serveAll_spec tries setting lawful serving
      (kept.trans (ancestors_positions chained))
      (fun query member address own => Or.inr (Or.inl ⟨query, member, own⟩))
      (fun query member index own => Or.inr (Or.inl ⟨query, member, own⟩))
    refine ⟨rights, ?_⟩
    rcases postStateRoot_spec setting tries left.serving bundle
      (fun entry member => Or.inr (Or.inr ⟨entry, member, rfl⟩))
      (fun entry member change own => Or.inr (Or.inr ⟨entry, member, change, own, rfl⟩)) with
      done | ⟨error, refused, refuses⟩
    · exact Or.inl done
    · refine Or.inr ⟨error, refused, fun touched => refuses fun entry member => ?_⟩
      rcases touched entry member with none | gone | absent | ⟨index, read⟩
      · exact Or.inl none
      · exact Or.inr (Or.inl gone)
      · exact Or.inr (Or.inr (Or.inl absent))
      · rcases asked entry.1 index read with kept | unread
        · exact Or.inr (Or.inr (Or.inr (Or.inl kept)))
        · refine Or.inr (Or.inr (Or.inr (Or.inr ?_)))
          rw [Unread, WitnessDb.storageRoot, WitnessDb.account] at unread ⊢
          rwa [left.state_eq]
  · exact Or.inl refused

/-! ## A world of one account -/

def soleAddress : Address := ⟨List.replicate 20 0, rfl⟩

def soleWorld : World :=
  ⟨fun address => if address = soleAddress then some ⟨1, 5, [], 0⟩ else none,
    (Set.finite_singleton soleAddress).subset fun address held => by
      by_contra apart
      exact held (if_neg apart)⟩

/-- The hash of its address. -/
def soleKey : Word32 :=
  ⟨[0x53, 0x80, 0xc7, 0xb7, 0xae, 0x81, 0xa5, 0x8e, 0xb9, 0x8d, 0x9c, 0x78, 0xde, 0x4a, 0x1f, 0xd7,
    0xfd, 0x95, 0x35, 0xfc, 0x95, 0x3e, 0xd2, 0xbe, 0x60, 0x2d, 0xaa, 0xa4, 0x17, 0x67, 0x31, 0x2a],
    rfl⟩

/-- The hash of the first slot's index. -/
def slotKey : Word32 :=
  ⟨[0x29, 0x0d, 0xec, 0xd9, 0x54, 0x8b, 0x62, 0xa8, 0xd6, 0x03, 0x45, 0xa9, 0x88, 0x38, 0x6f, 0xc8,
    0x4b, 0xa6, 0xbc, 0x95, 0x48, 0x40, 0x08, 0xf6, 0x36, 0x2f, 0x93, 0x16, 0x0e, 0xf3, 0xe5, 0x63],
    rfl⟩

def soleLeaf : List UInt8 := encodeAccount 1 (toBeBytes 5) emptyTrieRoot keccakEmpty

/-- The one node of the state. -/
def soleNode : List UInt8 := 0xf8 :: 0x6a :: 0xa1 :: 0x20 :: soleKey.1 ++ 0xb8 :: 0x46 :: soleLeaf

def soleRoot : Word32 :=
  ⟨[0x51, 0x3d, 0x5d, 0xf5, 0x5d, 0x7d, 0x1a, 0xa5, 0x05, 0x12, 0xe2, 0x0f, 0xaf, 0xeb, 0x17, 0x1c,
    0x20, 0x73, 0xa1, 0x99, 0x42, 0xc7, 0x74, 0x96, 0xd6, 0xaa, 0x61, 0xbb, 0x8f, 0xe2, 0x92, 0x33],
    rfl⟩

/-- A header with that state root, of block six. -/
def soleHeader : List UInt8 :=
  let zero (len : ℕ) : List UInt8 := UInt8.ofNat (0x80 + len) :: List.replicate len 0
  [0xf9, 0x02, 0x53] ++ zero 32 ++ zero 32 ++ zero 20 ++ (0xa0 :: soleRoot.1) ++ zero 32 ++ zero 32 ++
    [0xb9, 0x01, 0x00] ++ List.replicate 256 0 ++ [0x80, 0x06, 0x80, 0x80, 0x80, 0x80] ++ zero 32 ++
    zero 8 ++ [0x80] ++ zero 32 ++ [0x80, 0x80] ++ zero 32 ++ zero 32

def soleHeaderHash : Word32 :=
  ⟨[0x8b, 0x90, 0xc3, 0x57, 0x5a, 0x5a, 0xfc, 0x8b, 0xb0, 0x6f, 0xab, 0x4b, 0x1e, 0x86, 0x4f, 0x0e,
    0xc3, 0x3d, 0xf2, 0x18, 0x7f, 0xb8, 0xda, 0xc3, 0x78, 0xf5, 0x4b, 0xe4, 0xa5, 0xd3, 0x26, 0x27],
    rfl⟩

/-- The hash on the strings of that world. -/
def soleKeccak : List UInt8 → Word32 :=
  tableHash [([], keccakEmpty), (soleAddress.1, soleKey), ((toBeBytes 0).1, slotKey),
    (soleNode, soleRoot), (soleHeader, soleHeaderHash)]

/-- Code that is its bytes. -/
def bytesRevm : Revm where
  Bytecode := List UInt8
  empty := []
  newRawChecked bytes := some bytes
  newLegacy bytes := bytes
  originalBytes code := code
  isEmpty info := info.balance = 0 ∧ info.nonce = 0 ∧ info.codeHash = keccakEmpty

/-- The account's balance and its first slot are changed. -/
def soleBundle : BundleState :=
  ⟨[(soleAddress, ⟨some ⟨9, 2, keccakEmpty⟩, [(0, 7)], List.nodup_singleton _, false⟩)],
    List.nodup_singleton _⟩

def soleQueries : List Query :=
  [.basic soleAddress, .storage soleAddress 0, .codeByHash keccakEmpty, .blockHash 6]

theorem soleWorld_slots (address : Address) : soleWorld.slots address = 0 := by
  unfold World.slots
  by_cases own : address = soleAddress
  · have held : soleWorld.account address = some ⟨1, 5, [], 0⟩ := if_pos own
    rw [held]
    rfl
  · have absent : soleWorld.account address = none := if_neg own
    rw [absent]
    rfl

theorem sole_emptyRoot : soleKeccak [0x80] = emptyTrieRoot := by decide

/-- The state's trie is the account's leaf. -/
theorem sole_holds : Holds (.leaf (nibbles soleKey) soleLeaf)
    (stateContents soleKeccak (soleWorld.state soleKeccak)) := by
  have table : (fun address => (soleWorld.state soleKeccak address).map (Record.leaf soleKeccak)) =
      Function.update (fun _ => none) soleAddress (some soleLeaf) := by
    funext address
    by_cases own : address = soleAddress
    · have held : soleWorld.account address = some ⟨1, 5, [], 0⟩ := if_pos own
      rw [own, Function.update_self, ← own, World.state, held]
      refine congrArg some ?_
      rw [Record.leaf, storageRoot_zero sole_emptyRoot]
      rfl
    · have absent : soleWorld.account address = none := if_neg own
      rw [Function.update_of_ne own, World.state, absent]
      rfl
  have path : accountPath soleKeccak soleAddress = nibbles soleKey := by decide
  have bare : keyed (accountPath soleKeccak) (fun _ => none) = fun _ => none := by
    funext key
    by_contra held
    obtain ⟨-, -, none⟩ := exists_of_keyed held
    exact held none
  rw [stateContents, table, keyed_update (Set.injOn_singleton _ _) (fun _ held => absurd rfl held)
    (Set.mem_singleton soleAddress), bare, path]
  have filled : some soleLeaf ≠ some [] := fun none => encodeAccount_ne_nil _ _ _ _ (Option.some.inj none)
  obtain ⟨node, ran, holds⟩ := @Holds.apply _ _ Holds.empty ⟨nibbles soleKey, some soleLeaf⟩ filled
  cases ran
  exact holds

/-- Every node that the world commits to is that leaf. -/
theorem sole_nodeOf {bytes : List UInt8} (committed : soleWorld.NodeOf soleKeccak bytes) :
    bytes = soleNode := by
  rcases committed with ⟨trie, node, holds, within, -, encoded⟩ | ⟨address, trie, node, holds, within, filled, -⟩
  · rw [holds.unique sole_holds] at within
    cases within
    have own : (Node.leaf (nibbles soleKey) soleLeaf).encode soleKeccak = some soleNode := by
      decide
    exact Option.some.inj (encoded.symm.trans own)
  · rw [soleWorld_slots] at holds
    rw [holds.unique holds_zero] at within
    cases within
    exact absurd rfl filled

theorem sole_root : stateRoot soleKeccak (soleWorld.state soleKeccak) = soleRoot := by
  have tabulated := @exists_tabulates _ (accountPath soleKeccak)
    (fun address => (soleWorld.state soleKeccak address).map (Record.leaf soleKeccak)) {soleAddress}
    (Set.injOn_singleton _ _) ?_ (state_finite soleWorld)
  · have named : (Node.leaf (nibbles soleKey) soleLeaf).root soleKeccak = some soleRoot := by
      decide
    have root := sole_holds.contentsRoot soleKeccak tabulated
    exact Option.some.inj (root.symm.trans named)
  · intro address held
    by_contra apart
    have absent : soleWorld.account address = none := if_neg apart
    refine held ?_
    rw [World.state, absent]
    rfl

theorem sole_distinct : Set.InjOn soleKeccak (soleWorld.strings soleKeccak [soleNode] []
    (soleWorld.asked soleQueries soleBundle) (soleWorld.askedSlots soleQueries soleBundle)) := by
  have hashes : ([[0x80], [], soleNode, soleAddress.1, (toBeBytes 0).1].map soleKeccak).Nodup := by
    decide
  have listed : ∀ bytes ∈ soleWorld.strings soleKeccak [soleNode] []
      (soleWorld.asked soleQueries soleBundle) (soleWorld.askedSlots soleQueries soleBundle),
      bytes ∈ [[0x80], [], soleNode, soleAddress.1, (toBeBytes 0).1] := by
    rintro bytes (rfl | rfl | known | none | ⟨address, account, held, rfl⟩ | ⟨address, asked, rfl⟩ |
      ⟨index, asked, rfl⟩ | committed)
    · simp
    · simp
    · simp [List.mem_singleton.mp known]
    · exact absurd none List.not_mem_nil
    · obtain ⟨-, same⟩ := Option.ite_none_right_eq_some.mp held
      simp [← Option.some.inj same]
    · have own : address = soleAddress := by
        rcases asked with present | ⟨query, listed, own⟩ | ⟨entry, listed, rfl⟩
        · by_contra apart
          exact present (if_neg apart)
        · simp only [soleQueries, List.mem_cons, List.not_mem_nil, or_false] at listed
          rcases listed with rfl | rfl | rfl | rfl
          · exact List.mem_singleton.mp own
          · exact List.mem_singleton.mp own
          · exact absurd own List.not_mem_nil
          · exact absurd own List.not_mem_nil
        · simp only [soleBundle, List.mem_singleton] at listed
          rw [listed]
      simp [own]
    · have own : index = 0 := by
        rcases asked with ⟨address, filled⟩ | ⟨query, listed, own⟩ | ⟨entry, listed, change, inside, rfl⟩
        · rw [soleWorld_slots] at filled
          exact absurd rfl filled
        · simp only [soleQueries, List.mem_cons, List.not_mem_nil, or_false] at listed
          rcases listed with rfl | rfl | rfl | rfl
          · exact absurd own List.not_mem_nil
          · exact List.mem_singleton.mp own
          · exact absurd own List.not_mem_nil
          · exact absurd own List.not_mem_nil
        · simp only [soleBundle, List.mem_singleton] at listed
          rw [listed, List.mem_singleton] at inside
          rw [inside]
      simp [own]
    · simp [sole_nodeOf committed]
  intro first member second member' same
  exact List.inj_on_of_nodup_map hashes (listed first member) (listed second member') same

/-- Asked for its account, a slot, its code and its parent, and changed, the world's
database answers as the world and ends at the changed world's root. -/
theorem witness_refines_sole : ∃ db,
    WitnessDb.new soleKeccak soleRoot [soleNode] [] [(6, soleHeaderHash)] = .ok db ∧
      List.Forall₂ (fun query result => ∀ answer, result = .ok answer →
        Right soleKeccak bytesRevm soleWorld [soleHeader] 7 query answer) soleQueries
        (serveAll soleKeccak bytesRevm db soleQueries).1 ∧
      postStateRoot soleKeccak bytesRevm (serveAll soleKeccak bytesRevm db soleQueries).2 soleBundle =
        .ok (stateRoot soleKeccak (soleWorld.apply bytesRevm soleKeccak soleBundle)) := by
  have kept : ∀ error, ¬ soleWorld.Refuses soleKeccak [soleNode] error := by
    rintro error ⟨hash, -, bytes, committed, same, lacking⟩
    rw [sole_nodeOf committed] at same
    exact lacking soleNode (List.mem_singleton_self _) same
  have chained : (ancestors soleKeccak [soleHeader] false 7).map (fun found =>
      (found.1.stateRoot, found.2)) = some (soleRoot, soleHeaderHash, [(6, soleHeaderHash)]) := by
    decide +kernel
  obtain ⟨⟨parent, last, blocks⟩, found, same⟩ := Option.map_eq_some_iff.mp chained
  obtain ⟨committed, same⟩ := Prod.mk.inj same
  obtain ⟨rfl, rfl⟩ := Prod.mk.inj same
  rw [← committed]
  rcases witness_refines soleKeccak sole_emptyRoot (by decide) bytesRevm
    ⟨rfl, fun _ _ same => (Option.some.inj same).symm, fun _ => rfl⟩ soleWorld (by decide)
    soleQueries soleBundle sole_distinct found (committed.trans sole_root.symm) with
    ⟨error, -, refused⟩ | ⟨db, opened, right, done | ⟨error, -, refused⟩⟩
  · exact absurd refused (kept error)
  · exact ⟨db, opened, right, done⟩
  · refine absurd (refused ?_) (kept error)
    exact List.forall_mem_singleton.mpr (Or.inr (Or.inr (Or.inr ⟨0, by simp [soleQueries]⟩)))

end Apogee.Stateless
