import Apogee.Stateless.Answers

/-! # The post-state root

A bundle applied to the tries the witness shows: every account's changed slots onto its
storage trie, its leaf into the state trie, and after every write the removals. An account
whose storage was never read keeps its root as a hash.
-/

namespace Apogee.Stateless

open Mpt Rlp Math Patricia

/-- Why the computation stops: the witness is refused, or there is a panic. -/
inductive Stop where
  | refused (error : WitnessError)
  | panicked

def addressRank (entry : Address × BundleAccount) : ℕ := bytesRank entry.1.1

/-- Changed slots by index, those that become zero after all others. -/
def changeRank (change : U256 × U256) : ℕ :=
  (if change.2 = 0 then 2 ^ 256 else 0) + change.1.toNat

section Model

variable (keccak : List UInt8 → Word32)

/-- A changed slot's update of its storage trie. -/
def slotUpdate (change : U256 × U256) : Update :=
  ⟨slotPath keccak change.1,
    if change.2 = 0 then none else some (encodeSlot (toBeBytes change.2))⟩

/-- The trie an account's changes start from: none where it was destroyed, the one kept,
which is taken, or else its root alone. -/
def startTrie (db : WitnessDb) (address : Address) (account : BundleAccount) :
    Except WitnessError (Node × WitnessDb) :=
  if account.destroyed then .ok (.empty, db)
  else
    match find storageRank (bytesRank address.1) db.storage with
    | some entry =>
      let place := position storageRank (bytesRank address.1) db.storage
      .ok (entry.2, { db with storage := db.storage.modify place fun entry => (entry.1, .empty) })
    | none =>
      match db.account keccak address with
      | .error error => .error error
      | .ok none => .ok (.empty, db)
      | .ok (some (_, _, root, _)) => .ok (if root ≠ emptyTrieRoot then .blinded root else .empty, db)

/-- An account's storage trie after its changes, values before zeros. -/
def changedTrie (db : WitnessDb) (address : Address) (account : BundleAccount) :
    Except WitnessError (Node × WitnessDb) :=
  match startTrie keccak db address account with
  | .error error => .error error
  | .ok (start, db) =>
    let changes := account.storage.mergeSort fun first second => changeRank first ≤ changeRank second
    match run start (changes.map (slotUpdate keccak)) with
    | .error error => .error (.trie error)
    | .ok trie => .ok (trie, db)

/-- An account that stays: its storage's new root in its new leaf. -/
def writeAccount (db : WitnessDb) (address : Address) (account : BundleAccount) (info : AccountInfo) :
    Except Stop WitnessDb :=
  match changedTrie keccak db address account with
  | .error error => .error (.refused error)
  | .ok (trie, db) =>
    match trie.root keccak with
    | none => .error .panicked
    | some root =>
      let leaf := encodeAccount info.nonce (toBeBytes info.balance) root info.codeHash
      match insert db.state (accountPath keccak address) leaf with
      | .error error => .error (.refused (.trie error))
      | .ok state => .ok { db with state := state }

/-- One account: written, or put with those to be removed. -/
def postAccount (revm : Revm) (progress : WitnessDb × List Path) (entry : Address × BundleAccount) :
    Except Stop (WitnessDb × List Path) :=
  match entry.2.kept revm with
  | none => .ok (progress.1, progress.2 ++ [accountPath keccak entry.1])
  | some info =>
    match writeAccount keccak progress.1 entry.1 entry.2 info with
    | .error stop => .error stop
    | .ok db => .ok (db, progress.2)

/-- The root after a bundle. -/
def postStateRoot (revm : Revm) (db : WitnessDb) (bundle : BundleState) : Except Stop Word32 :=
  let accounts := bundle.state.mergeSort fun first second => addressRank first ≤ addressRank second
  match accounts.foldlM (postAccount keccak revm) (db, []) with
  | .error stop => .error stop
  | .ok (db, removed) =>
    match removed.foldlM remove db.state with
    | .error error => .error (.refused (.trie error))
    | .ok state =>
      match state.root keccak with
      | none => .error .panicked
      | some root => .ok root

end Model

/-! ## Changed slots -/

variable {keccak : List UInt8 → Word32}

theorem slotTable_update (slots : U256 →₀ U256) (index value : U256) :
    slotTable (slots.update index value) = Function.update (slotTable slots) index
      (if value = 0 then none else some (encodeSlot (toBeBytes value))) := by
  funext other
  by_cases here : other = index
  · rw [here, Function.update_self, slotTable, Finsupp.coe_update, Function.update_self]
  · rw [Function.update_of_ne here, slotTable, slotTable, Finsupp.coe_update,
      Function.update_of_ne here]

/-- Changes of slots assign their leaves. -/
theorem slotTable_changed (slots : U256 →₀ U256) (changes : List (U256 × U256)) :
    slotTable (changedSlots slots changes) = assigned (slotTable slots) (changes.map fun change =>
      (change.1, if change.2 = 0 then none else some (encodeSlot (toBeBytes change.2)))) := by
  induction changes generalizing slots with
  | nil => rfl
  | cons change changes ih =>
    rw [List.map_cons, assigned_cons, ← slotTable_update]
    exact ih _

/-- Changes in whatever order lead a storage trie to the changed slots'. -/
theorem written_slots {indices : Set U256} (apart : Set.InjOn (slotPath keccak) indices)
    {slots : U256 →₀ U256} (known : ∀ index, slots index ≠ 0 → index ∈ indices)
    {changes order : List (U256 × U256)} (distinct : (changes.map Prod.fst).Nodup)
    (listed : ∀ change ∈ changes, change.1 ∈ indices) (same : order.Perm changes) :
    written (storageContents keccak slots) (order.map (slotUpdate keccak)) =
      storageContents keccak (changedSlots slots changes) := by
  have updates : order.map (slotUpdate keccak) = assignments (slotPath keccak) (order.map fun change =>
      (change.1, if change.2 = 0 then none else some (encodeSlot (toBeBytes change.2)))) := by
    rw [assignments, List.map_map]
    rfl
  rw [updates, storageContents, written_keyed apart (slotTable_inside known) ?_, storageContents,
    slotTable_changed]
  · congr 1
    refine assigned_perm (same.map _) ?_
    rw [List.map_map]
    exact (same.map Prod.fst).nodup_iff.mpr distinct
  · intro entry member
    obtain ⟨change, inside, rfl⟩ := List.mem_map.mp member
    exact listed change (same.mem_iff.mp inside)

/-- Changed slots are among the known ones. -/
theorem changed_known {indices : Set U256} {slots : U256 →₀ U256}
    (known : ∀ index, slots index ≠ 0 → index ∈ indices) {changes : List (U256 × U256)}
    (listed : ∀ change ∈ changes, change.1 ∈ indices) (index : U256)
    (held : changedSlots slots changes index ≠ 0) : index ∈ indices := by
  induction changes generalizing slots with
  | nil => exact known index held
  | cons change changes ih =>
    obtain ⟨here, later⟩ := List.forall_mem_cons.mp listed
    refine ih (fun other filled => ?_) later held
    by_cases same : other = change.1
    · rwa [same]
    · rw [Finsupp.coe_update, Function.update_of_ne same] at filled
      exact known other filled

theorem slotUpdate_filled (change : U256 × U256) : (slotUpdate keccak change).value ≠ some [] := by
  rw [slotUpdate]
  by_cases zero : change.2 = 0
  · rw [if_pos zero]
    exact nofun
  · rw [if_neg zero]
    exact fun none => encodeSlot_ne_nil _ (Option.some.inj none)

/-! ## One account's storage -/

variable {world : World} {nodes codes : List (List UInt8)} {addresses : Set Address}
  {indices : Set U256} {state : Node} {storage : Address → Node}

/-- Storage whose changes can be applied: there are none, or none are left of what was, or
what was is known. -/
def Touchable (keccak : List UInt8 → Word32) (world : World) (nodes : List (List UInt8))
    (db : WitnessDb) (address : Address) (account : BundleAccount) : Prop :=
  account.storage = [] ∨ account.destroyed = true ∨ world.account address = none ∨
    Kept db address ∨ Unread keccak world nodes db address

/-- A hash alone takes no update. -/
theorem run_blinded (hash : Word32) (update : Update) (updates : List Update) :
    run (.blinded hash) (update :: updates) = .error (.missingNode hash) := by
  rw [run, List.foldlM_cons]
  obtain ⟨path, value⟩ := update
  cases value <;> rfl

variable (setting : world.Setting keccak nodes codes addresses indices)
include setting

/-- The changes of a trie that the witness shows are those of the trie. -/
theorem changes_spec {slots : U256 →₀ U256} {start trie : Node}
    (holds : Holds trie (storageContents keccak slots))
    (known : ∀ index, slots index ≠ 0 → index ∈ indices) (shows : Shows keccak nodes start trie)
    (part : ∀ hash hidden, Lacks keccak (NodeMap.new keccak nodes) hash hidden →
      Within hidden trie → world.Missing keccak nodes hash) {changes : List (U256 × U256)}
    (distinct : (changes.map Prod.fst).Nodup) (listed : ∀ change ∈ changes, change.1 ∈ indices)
    {order : List (U256 × U256)} (same : order.Perm changes) :
    (∃ after, run start (order.map (slotUpdate keccak)) = .ok after ∧
        after.root keccak = some (storageRoot keccak (changedSlots slots changes))) ∨
      ∃ error, run start (order.map (slotUpdate keccak)) = .error error ∧
        world.Refuses keccak nodes (.trie error) := by
  have filled : ∀ update ∈ order.map (slotUpdate keccak), update.value ≠ some [] := by
    intro update member
    obtain ⟨change, -, rfl⟩ := List.mem_map.mp member
    exact slotUpdate_filled change
  obtain ⟨after, ran, done⟩ := holds.run filled
  rw [written_slots setting.slotPaths known distinct listed same] at done
  rcases run_view (fun _ _ stands => lacks_filled _ _ stands.1) shows (order.map (slotUpdate keccak)) with
    ⟨view, whole, here, there, views⟩ | ⟨error, hash, hidden, refused, kind, ⟨lacks, within⟩, -⟩
  · rw [ran] at there
    cases there
    refine Or.inl ⟨view, here, ?_⟩
    rw [(views.mono fun _ _ stands => stands.1).root_eq]
    exact done.contentsRoot keccak (exists_tabulates setting.slotPaths
      (slotTable_inside (changed_known known listed)) (slotTable_finite _))
  · refine Or.inr ⟨error, refused, hash, ?_, part hash hidden lacks within⟩
    rcases kind with rfl | rfl
    · exact Or.inl rfl
    · exact Or.inr rfl

theorem changedTrie_of_start {db after : WitnessDb} {address : Address} {account : BundleAccount}
    {slots : U256 →₀ U256} {start trie : Node}
    (started : startTrie keccak db address account = .ok (start, after))
    (holds : Holds trie (storageContents keccak slots))
    (known : ∀ index, slots index ≠ 0 → index ∈ indices) (shows : Shows keccak nodes start trie)
    (part : ∀ hash hidden, Lacks keccak (NodeMap.new keccak nodes) hash hidden →
      Within hidden trie → world.Missing keccak nodes hash)
    (listed : ∀ change ∈ account.storage, change.1 ∈ indices) :
    (∃ trie, changedTrie keccak db address account = .ok (trie, after) ∧
        trie.root keccak = some (storageRoot keccak (changedSlots slots account.storage))) ∨
      ∃ error, changedTrie keccak db address account = .error error ∧
        world.Refuses keccak nodes error := by
  unfold changedTrie
  rw [started]
  dsimp only
  rcases changes_spec setting holds known shows part account.storage_nodup listed
    (List.mergeSort_perm _ _) with ⟨trie, ran, root⟩ | ⟨error, ran, refuses⟩
  · rw [ran]
    exact Or.inl ⟨trie, rfl, root⟩
  · rw [ran]
    exact Or.inr ⟨_, rfl, refuses⟩

variable (tries : world.Tries keccak state storage)
include tries

/-- Storage under the empty trie's root is empty. -/
theorem holds_of_emptyRoot {address : Address}
    (root : storageRoot keccak (world.slots address) = emptyTrieRoot) :
    Holds .empty (storageContents keccak (world.slots address)) := by
  have length : ∀ key, storageContents keccak (world.slots address) key ≠ none → key.length = 64 :=
    keyed_length fun index => length_nibbles _
  have empty : build (NodeMap.new keccak nodes) (storageRoot keccak (world.slots address)) =
      .ok .empty := by
    rw [build, if_pos root]
  have holds := tries.holds_storage address
  rcases build_sight holds length setting.short setting.emptyRoot
    (tries.distinct_storage setting address) (tries.storage_root address) with ran | ⟨refused, -⟩
  · rw [empty] at ran
    rwa [sight_eq_empty.mp (Except.ok.inj ran).symm] at holds
  · rw [empty] at refused
    cases refused

omit tries in
/-- An account that is not kept starts from its root. -/
theorem startTrie_of_get {db : WitnessDb} {address : Address} {account : BundleAccount}
    (destroyed : ¬ account.destroyed = true)
    (found : find storageRank (bytesRank address.1) db.storage = none)
    (read : get db.state (accountPath keccak address) =
      .ok ((world.state keccak address).map (Record.leaf keccak))) :
    startTrie keccak db address account =
      .ok (if storageRoot keccak (world.slots address) ≠ emptyTrieRoot
        then .blinded (storageRoot keccak (world.slots address)) else .empty, db) := by
  rw [startTrie, if_neg destroyed, found, account_of_get read, World.state, World.slots]
  cases world.account address with
  | none =>
    have empty : storageRoot keccak ((Option.map Account.slots none).getD 0) = emptyTrieRoot :=
      storageRoot_zero setting.emptyRoot
    rw [if_neg (not_not.mpr empty)]
    rfl
  | some account => rfl

/-- An account's changed trie has the root of its changed slots, or a node is lacked, if
its storage could be touched. -/
theorem changedTrie_spec {db : WitnessDb} {address : Address} {account : BundleAccount}
    (kept : ∀ entry, find storageRank (bytesRank address.1) db.storage = some entry →
      entry.1 = address ∧ Shows keccak nodes entry.2 (storage address))
    (read : get db.state (accountPath keccak address) =
        .ok ((world.state keccak address).map (Record.leaf keccak)) ∨
      ∃ error, get db.state (accountPath keccak address) = .error error ∧
        world.Refuses keccak nodes (.trie error))
    (listed : ∀ change ∈ account.storage, change.1 ∈ indices) :
    (∃ trie after, changedTrie keccak db address account = .ok (trie, after) ∧
        trie.root keccak = some (storageRoot keccak (changedSlots
          (if account.destroyed then 0 else world.slots address) account.storage)) ∧
        after.state = db.state ∧ ∀ other ≠ address,
          find storageRank (bytesRank other.1) after.storage =
            find storageRank (bytesRank other.1) db.storage) ∨
      ∃ error, changedTrie keccak db address account = .error error ∧
        (Touchable keccak world nodes db address account → world.Refuses keccak nodes error) := by
  have resolved : ∀ {hash : Word32} {hidden : Node}, Within hidden .empty →
      ¬ Lacks keccak (NodeMap.new keccak nodes) hash hidden := by
    rintro hash hidden ⟨⟩ lacks
    exact lacks.2.1 rfl
  by_cases destroyed : account.destroyed = true
  · -- from nothing
    have started : startTrie keccak db address account = .ok (.empty, db) := if_pos destroyed
    rw [if_pos destroyed]
    rcases changedTrie_of_start setting started holds_zero (fun _ held => absurd rfl held) .empty
      (fun _ _ lacks within => absurd lacks (resolved within)) listed with
      ⟨trie, ran, root⟩ | ⟨error, ran, refuses⟩
    · exact Or.inl ⟨trie, db, ran, root, rfl, fun _ _ => rfl⟩
    · exact Or.inr ⟨error, ran, fun _ => refuses⟩
  rw [if_neg destroyed]
  have part : ∀ hash hidden, Lacks keccak (NodeMap.new keccak nodes) hash hidden →
      Within hidden (storage address) → world.Missing keccak nodes hash :=
    fun _ _ lacks within => tries.missing_storage lacks within
  cases found : find storageRank (bytesRank address.1) db.storage with
  | some entry =>
    -- from the trie that is kept
    obtain ⟨own, shows⟩ := kept entry found
    have started : startTrie keccak db address account = .ok (entry.2, { db with
        storage := db.storage.modify (position storageRank (bytesRank address.1) db.storage)
          fun entry => (entry.1, .empty) }) := by
      rw [startTrie, if_neg destroyed, found]
    rcases changedTrie_of_start setting started (tries.holds_storage address)
      (setting.known address) shows part listed with ⟨trie, ran, root⟩ | ⟨error, ran, refuses⟩
    · refine Or.inl ⟨trie, _, ran, root, rfl, fun other apart => ?_⟩
      refine @find_modify _ storageRank db.storage _ (fun entry => (entry.1, .empty)) (fun _ => rfl) _
        fun x place same => apart ?_
      rw [find_eq_filter, place, Option.filter_eq_some_iff] at found
      cases found.1
      exact (bytesRank_inj same).symm.trans own
    · exact Or.inr ⟨error, ran, fun _ => refuses⟩
  | none =>
    rcases read with read | ⟨error, read, refuses⟩
    · by_cases empty : storageRoot keccak (world.slots address) = emptyTrieRoot
      · -- from an account with no storage
        have started := startTrie_of_get setting destroyed found read
        rw [if_neg (not_not.mpr empty)] at started
        rcases changedTrie_of_start setting started (holds_of_emptyRoot setting tries empty)
          (setting.known address) .empty
          (fun _ _ lacks within => absurd lacks (resolved within)) listed with
          ⟨trie, ran, root⟩ | ⟨error, ran, refuses⟩
        · exact Or.inl ⟨trie, db, ran, root, rfl, fun _ _ => rfl⟩
        · exact Or.inr ⟨error, ran, fun _ => refuses⟩
      · -- from its root alone, which takes no change
        have started := startTrie_of_get setting destroyed found read
        rw [if_pos empty] at started
        unfold changedTrie
        rw [started]
        dsimp only
        have order := List.mergeSort_perm account.storage
          fun first second => changeRank first ≤ changeRank second
        cases changes : account.storage.mergeSort fun first second => changeRank first ≤ changeRank second with
        | nil =>
          rw [changes, List.nil_perm] at order
          rw [order]
          exact Or.inl ⟨_, db, rfl, rfl, rfl, fun _ _ => rfl⟩
        | cons change changes' =>
          rw [List.map_cons, run_blinded]
          refine Or.inr ⟨_, rfl, ?_⟩
          rintro (none | gone | absent | stays | ⟨error, refused, -⟩ | ⟨-, missing⟩)
          · rw [changes, none] at order
            exact absurd order.length_eq (by simp)
          · exact absurd gone destroyed
          · refine absurd ?_ empty
            rw [World.slots, absent]
            exact storageRoot_zero setting.emptyRoot
          · rw [Kept, found] at stays
            cases stays
          · rw [storageRoot_of_get setting.emptyRoot read] at refused
            cases refused
          · exact ⟨_, Or.inl rfl, missing⟩
    · refine Or.inr ⟨.trie error, ?_, fun _ => refuses⟩
      rw [changedTrie, startTrie, if_neg destroyed, found]
      dsimp only
      rw [account_of_error read]

end Apogee.Stateless
