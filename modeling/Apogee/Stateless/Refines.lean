import Apogee.Stateless.PostState

/-! # The witness database refines the world

What the database answers is the world's, and the root after a bundle is that of the
world with the bundle applied. A refusal names a node the witness lacks.
-/

namespace Apogee.Stateless

open Mpt Rlp Math Patricia

variable {keccak : List UInt8 → Word32} {revm : Revm} {world : World}
  {nodes codes : List (List UInt8)} {addresses : Set Address} {indices : Set U256} {state : Node}
  {storage : Address → Node}

/-! ## One account -/

/-- What the writes so far leave of the database they started from: a view of the trie of
what is assigned so far, and everything of the accounts to come. -/
structure Progress (keccak : List UInt8 → Word32) (nodes : List (List UInt8))
    (addresses : Set Address) (state : Node) (start db : WitnessDb) (trie : Node)
    (table : Address → Option (List UInt8)) (rest : List Address) : Prop where
  views : View (fun hash node => Lacks keccak (NodeMap.new keccak nodes) hash node ∧
    Within node state) db.state trie
  holds : Holds trie (keyed (accountPath keccak) table)
  inside : ∀ address, table address ≠ none → address ∈ addresses
  reads : ∀ address ∈ rest, get db.state (accountPath keccak address) =
    get start.state (accountPath keccak address)
  stored : ∀ address ∈ rest, find storageRank (bytesRank address.1) db.storage =
    find storageRank (bytesRank address.1) start.storage

variable (setting : world.Setting keccak nodes codes addresses indices)
  (tries : world.Tries keccak state storage) {start : WitnessDb}
  (serving : Serving keccak nodes codes state storage start)

/-- What an account's storage could be touched by does not change before its turn. -/
theorem touchable_iff {db : WitnessDb} {address : Address} {account : BundleAccount}
    (reads : get db.state (accountPath keccak address) = get start.state (accountPath keccak address))
    (stored : find storageRank (bytesRank address.1) db.storage =
      find storageRank (bytesRank address.1) start.storage) :
    Touchable keccak world nodes db address account ↔
      Touchable keccak world nodes start address account := by
  rw [Touchable, Touchable, Kept, Kept, stored, Unread, Unread, WitnessDb.storageRoot,
    WitnessDb.storageRoot, WitnessDb.account, WitnessDb.account, reads]

include setting tries serving

/-- An account that is written assigns its leaf, or a node is lacked. -/
theorem writeAccount_spec {db : WitnessDb} {trie : Node} {table : Address → Option (List UInt8)}
    {address : Address} {rest : List Address}
    (progress : Progress keccak nodes addresses state start db trie table (address :: rest))
    (apart : address ∉ rest) (known : ∀ other ∈ address :: rest, other ∈ addresses)
    {account : BundleAccount} (listed : ∀ change ∈ account.storage, change.1 ∈ indices)
    (info : AccountInfo) :
    (∃ after trie', writeAccount keccak db address account info = .ok after ∧
        Progress keccak nodes addresses state start after trie'
          (Function.update table address (some (Record.leaf keccak ⟨info.nonce, info.balance,
            info.codeHash, changedSlots (if account.destroyed then 0 else world.slots address)
              account.storage⟩))) rest) ∨
      ∃ error, writeAccount keccak db address account info = .error (.refused error) ∧
        (Touchable keccak world nodes start address account → world.Refuses keccak nodes error) := by
  obtain ⟨here, later⟩ := List.forall_mem_cons.mp known
  obtain ⟨read, reads⟩ := List.forall_mem_cons.mp progress.reads
  obtain ⟨store, stored⟩ := List.forall_mem_cons.mp progress.stored
  have shown := get_spec tries setting serving.shows here
  rw [← read] at shown
  unfold writeAccount
  rcases changedTrie_spec setting tries
    (fun entry found => (storage_of_find serving (store ▸ found)).2) shown listed with
    ⟨changed, after, ran, root, same, others⟩ | ⟨error, ran, refuses⟩
  · rw [ran]
    dsimp only
    rw [root]
    dsimp only
    rw [same]
    have filled : ∀ hash node, Lacks keccak (NodeMap.new keccak nodes) hash node ∧ Within node state →
        node ≠ .empty := fun _ _ stands => lacks_filled _ _ stands.1
    have nonempty : some (Record.leaf keccak ⟨info.nonce, info.balance, info.codeHash, changedSlots
        (if account.destroyed then 0 else world.slots address) account.storage⟩) ≠ some [] :=
      fun none => encodeAccount_ne_nil _ _ _ _ (Option.some.inj none)
    rcases progress.views.insert (accountPath keccak address) (Record.leaf keccak ⟨info.nonce,
      info.balance, info.codeHash, changedSlots (if account.destroyed then 0 else world.slots address)
        account.storage⟩) with
      ⟨view, trie', ran, there, views⟩ | ⟨error, ran, hash, hidden, kind, ⟨lacks, within⟩, -⟩
    · have inserted := ran
      rw [Record.leaf] at ran
      rw [ran]
      refine Or.inl ⟨_, trie', rfl, views, ?_, ?_, ?_, ?_⟩
      · obtain ⟨whole, done, holds⟩ := @Holds.apply _ _ progress.holds ⟨accountPath keccak address, _⟩ nonempty
        cases Except.ok.inj (done.symm.trans there)
        rw [keyed_update setting.accountPaths progress.inside here]
        exact holds
      · intro other held
        by_cases same : other = address
        · rwa [same]
        · rw [Function.update_of_ne same] at held
          exact progress.inside other held
      · intro other member
        have canonical := progress.views.canonical filled progress.holds.canonical
        obtain ⟨-, settles, -⟩ := @run_settled _ view canonical [⟨accountPath keccak address, some _⟩]
          (List.nodup_singleton _) (List.forall_mem_singleton.mpr nonempty)
          (by rw [run, List.foldlM_cons]; exact congrArg (· >>= _) inserted)
        rw [← reads other member, settles, settled_of_notMem]
        refine List.forall_mem_singleton.mpr fun same => apart ?_
        rwa [setting.accountPaths here (later other member) same]
      · intro other member
        rw [← stored other member]
        exact others other fun same => apart (same ▸ member)
    · rw [Record.leaf] at ran
      rw [ran]
      refine Or.inr ⟨_, rfl, fun _ => ⟨hash, ?_, tries.missing_state lacks within⟩⟩
      rcases kind with rfl | rfl
      · exact Or.inl rfl
      · exact Or.inr rfl
  · rw [ran]
    exact Or.inr ⟨error, rfl, fun touchable => refuses ((touchable_iff read store).mpr touchable)⟩

/-! ## Every account -/

omit setting tries serving in
/-- What a bundle's entry assigns in the state trie. -/
noncomputable def assignment (keccak : List UInt8 → Word32) (revm : Revm) (world : World)
    (entry : Address × BundleAccount) : Address × Option (List UInt8) :=
  (entry.1, (entry.2.record revm (world.slots entry.1)).map (Record.leaf keccak))

/-- The entries that stay. -/
def staying (revm : Revm) (entries : List (Address × BundleAccount)) :
    List (Address × BundleAccount) := entries.filter fun entry => (entry.2.kept revm).isSome

/-- The entries that go. -/
def going (revm : Revm) (entries : List (Address × BundleAccount)) :
    List (Address × BundleAccount) := entries.filter fun entry => !(entry.2.kept revm).isSome

/-- Every account in turn is written or put with those to go. -/
theorem postAccounts_spec {entries : List (Address × BundleAccount)} {db : WitnessDb} {trie : Node}
    {table : Address → Option (List UInt8)} {removed : List Path}
    (progress : Progress keccak nodes addresses state start db trie table (entries.map Prod.fst))
    (distinct : (entries.map Prod.fst).Nodup) (known : ∀ entry ∈ entries, entry.1 ∈ addresses)
    (listed : ∀ entry ∈ entries, ∀ change ∈ entry.2.storage, change.1 ∈ indices) :
    (∃ after trie', entries.foldlM (postAccount keccak revm) (db, removed) =
          .ok (after, removed ++ (going revm entries).map fun entry => accountPath keccak entry.1) ∧
        Progress keccak nodes addresses state start after trie'
          (assigned table ((staying revm entries).map (assignment keccak revm world))) []) ∨
      ∃ error, entries.foldlM (postAccount keccak revm) (db, removed) = .error (.refused error) ∧
        ((∀ entry ∈ entries, Touchable keccak world nodes start entry.1 entry.2) →
          world.Refuses keccak nodes error) := by
  induction entries generalizing db trie table removed with
  | nil =>
    refine Or.inl ⟨db, trie, ?_, progress⟩
    exact congrArg (fun paths => Except.ok (db, paths)) (List.append_nil removed).symm
  | cons entry entries ih =>
    obtain ⟨here, later⟩ := List.forall_mem_cons.mp known
    obtain ⟨slot, slots⟩ := List.forall_mem_cons.mp listed
    obtain ⟨apart, others⟩ := List.nodup_cons.mp distinct
    rw [List.foldlM_cons, postAccount]
    cases kept : entry.2.kept revm with
    | none =>
      have gone : going revm (entry :: entries) = entry :: going revm entries := by
        rw [going, List.filter_cons, if_pos (by rw [kept]; rfl), going]
      have stays : staying revm (entry :: entries) = staying revm entries := by
        rw [staying, List.filter_cons, if_neg (by rw [kept]; exact Bool.false_ne_true), staying]
      have rest : Progress keccak nodes addresses state start db trie table (entries.map Prod.fst) :=
        ⟨progress.views, progress.holds, progress.inside,
          fun address member => progress.reads address (List.mem_cons_of_mem _ member),
          fun address member => progress.stored address (List.mem_cons_of_mem _ member)⟩
      rw [gone, stays]
      rcases @ih db trie table (removed ++ [accountPath keccak entry.1]) rest others later slots with
        ⟨after, trie', ran, done⟩ | ⟨error, ran, refuses⟩
      · refine Or.inl ⟨after, trie', ?_, done⟩
        rw [List.append_assoc] at ran
        exact ran
      · exact Or.inr ⟨error, ran, fun touchable =>
        refuses fun other member => touchable other (List.mem_cons_of_mem _ member)⟩
    | some info =>
      have gone : going revm (entry :: entries) = going revm entries := by
        rw [going, List.filter_cons, if_neg (by rw [kept]; exact Bool.false_ne_true), going]
      have stays : staying revm (entry :: entries) = entry :: staying revm entries := by
        rw [staying, List.filter_cons, if_pos (by rw [kept]; rfl), staying]
      have assigns : assignment keccak revm world entry = (entry.1, some (Record.leaf keccak
          ⟨info.nonce, info.balance, info.codeHash, changedSlots
            (if entry.2.destroyed then 0 else world.slots entry.1) entry.2.storage⟩)) := by
        rw [assignment, BundleAccount.record, kept]
        rfl
      have addressed : ∀ other ∈ entry.1 :: entries.map Prod.fst, other ∈ addresses := by
        refine List.forall_mem_cons.mpr ⟨here, fun other member => ?_⟩
        obtain ⟨entry, inside, rfl⟩ := List.mem_map.mp member
        exact later entry inside
      rw [gone, stays, List.map_cons, assigned_cons, assigns]
      dsimp only
      rcases writeAccount_spec setting tries serving progress apart addressed slot info with
        ⟨middle, trie', ran, done⟩ | ⟨error, ran, refuses⟩
      · rw [ran]
        rcases @ih middle trie' _ removed done others later slots with
          ⟨after, trie', ran, done⟩ | ⟨error, ran, refuses⟩
        · exact Or.inl ⟨after, trie', ran, done⟩
        · exact Or.inr ⟨error, ran, fun touchable =>
          refuses fun other member => touchable other (List.mem_cons_of_mem _ member)⟩
      · rw [ran]
        exact Or.inr ⟨error, rfl, fun touchable => refuses (touchable entry List.mem_cons_self)⟩

/-! ## The root -/

omit setting tries serving in
/-- The removals are updates of the trie. -/
theorem foldlM_remove (paths : List Path) (node : Node) :
    paths.foldlM remove node = run node (paths.map fun path => ⟨path, none⟩) := by
  rw [run, List.foldlM_map]
  rfl

omit setting tries serving in
/-- What stays and then what goes is what the bundle assigns, in whatever order. -/
theorem assigned_bundle {entries order : List (Address × BundleAccount)}
    (distinct : (entries.map Prod.fst).Nodup) (same : order.Perm entries)
    (table : Address → Option (List UInt8)) :
    assigned (assigned table ((staying revm order).map (assignment keccak revm world)))
        ((going revm order).map fun entry => (entry.1, none)) =
      assigned table (entries.map (assignment keccak revm world)) := by
  have goes : ((going revm order).map fun entry => (entry.1, none)) =
      (going revm order).map (assignment keccak revm world) := by
    refine List.map_congr_left fun entry member => ?_
    have none : entry.2.kept revm = none := by
      have filtered := (List.mem_filter.mp member).2
      rwa [Bool.not_eq_true', Option.isSome_eq_false_iff, Option.isNone_iff_eq_none] at filtered
    rw [assignment, BundleAccount.record, none]
    rfl
  have whole : (staying revm order ++ going revm order).Perm entries :=
    (List.filter_append_perm _ order).trans same
  rw [goes, ← assigned_append, ← List.map_append]
  refine assigned_perm (whole.map _) ?_
  rw [List.map_map]
  exact (whole.map Prod.fst).nodup_iff.mpr distinct

omit setting tries serving in
/-- The contents of the next state. -/
theorem stateContents_apply (bundle : BundleState) :
    stateContents keccak (world.apply revm keccak bundle) = keyed (accountPath keccak)
      (assigned (fun address => (world.state keccak address).map (Record.leaf keccak))
        (bundle.state.map (assignment keccak revm world))) := by
  rw [stateContents]
  congr 1
  have leaves := @assigned_comp _ _ _ (world.state keccak) (bundle.state.map fun entry =>
    (entry.1, entry.2.record revm (world.slots entry.1))) _ (Option.map (Record.leaf keccak))
  rw [List.map_map] at leaves
  exact leaves

omit tries serving in
/-- The state's accounts are among the known ones, and finitely many. -/
theorem state_inside (address : Address)
    (held : (world.state keccak address).map (Record.leaf keccak) ≠ none) : address ∈ addresses := by
  refine setting.here address fun absent => held ?_
  rw [World.state, absent]
  rfl

omit setting tries serving in
theorem state_finite (world : World) :
    {address | (world.state keccak address).map (Record.leaf keccak) ≠ none}.Finite := by
  refine world.finite.subset fun address held absent => held ?_
  rw [World.state, absent]
  rfl

/-- The root after a bundle is the next state's, or the witness is refused. -/
theorem postStateRoot_spec (bundle : BundleState)
    (known : ∀ entry ∈ bundle.state, entry.1 ∈ addresses)
    (listed : ∀ entry ∈ bundle.state, ∀ change ∈ entry.2.storage, change.1 ∈ indices) :
    postStateRoot keccak revm start bundle = .ok (stateRoot keccak (world.apply revm keccak bundle)) ∨
      ∃ error, postStateRoot keccak revm start bundle = .error (.refused error) ∧
        ((∀ entry ∈ bundle.state, Touchable keccak world nodes start entry.1 entry.2) →
          world.Refuses keccak nodes error) := by
  have same := List.mergeSort_perm bundle.state
    fun first second => addressRank first ≤ addressRank second
  unfold postStateRoot
  dsimp only
  generalize bundle.state.mergeSort (fun first second => addressRank first ≤ addressRank second) =
    order at same
  have first : Progress keccak nodes addresses state start start state
      (fun address => (world.state keccak address).map (Record.leaf keccak)) (order.map Prod.fst) :=
    ⟨serving.shows, tries.holds_state, state_inside setting, fun _ _ => rfl, fun _ _ => rfl⟩
  rcases @postAccounts_spec _ revm _ _ _ _ _ _ _ setting tries _ serving order start state _ [] first
    ((same.map Prod.fst).nodup_iff.mpr bundle.state_nodup)
    (fun entry member => known entry (same.mem_iff.mp member))
    (fun entry member => listed entry (same.mem_iff.mp member)) with
    ⟨after, trie, ran, done⟩ | ⟨error, ran, refuses⟩
  · rw [ran]
    dsimp only
    rw [List.nil_append, foldlM_remove, List.map_map]
    have goes : ∀ entry ∈ (going revm order).map fun entry => (entry.1, @none (List UInt8)),
        entry.1 ∈ addresses := by
      intro pair member
      obtain ⟨entry, inside, rfl⟩ := List.mem_map.mp member
      exact known entry (same.mem_iff.mp (List.mem_of_mem_filter inside))
    have updates : (going revm order).map
        ((fun path => (⟨path, none⟩ : Update)) ∘ fun entry => accountPath keccak entry.1) =
        assignments (accountPath keccak) ((going revm order).map fun entry => (entry.1, none)) := by
      rw [assignments, List.map_map]
      rfl
    have removes : ∀ update ∈ assignments (accountPath keccak)
        ((going revm order).map fun entry => (entry.1, none)), update.value ≠ some [] := by
      intro update member
      obtain ⟨pair, inside, rfl⟩ := List.mem_map.mp member
      obtain ⟨entry, -, rfl⟩ := List.mem_map.mp inside
      exact (Option.some_ne_none _).symm
    rw [updates]
    obtain ⟨final, whole, holds⟩ := done.holds.run removes
    rw [written_keyed setting.accountPaths done.inside goes,
      assigned_bundle bundle.state_nodup same, ← stateContents_apply] at holds
    rcases run_view (fun _ _ stands => lacks_filled _ _ stands.1) done.views
      (assignments (accountPath keccak) ((going revm order).map fun entry => (entry.1, none))) with
      ⟨view, changed, here, there, views⟩ | ⟨error, hash, hidden, refused, kind, ⟨lacks, within⟩, -⟩
    · rw [whole] at there
      cases there
      have tabulated : ∃ entries, Tabulates entries (stateContents keccak (world.apply revm keccak bundle)) := by
        rw [stateContents_apply]
        refine exists_tabulates setting.accountPaths (assigned_inside (state_inside setting) ?_)
          (assigned_finite (state_finite world))
        intro pair member
        obtain ⟨entry, inside, rfl⟩ := List.mem_map.mp member
        exact known entry inside
      rw [here]
      dsimp only
      rw [(views.mono fun _ _ stands => stands.1).root_eq, holds.contentsRoot keccak tabulated]
      exact Or.inl rfl
    · rw [refused]
      refine Or.inr ⟨_, rfl, fun _ => ⟨hash, ?_, tries.missing_state lacks within⟩⟩
      rcases kind with rfl | rfl
      · exact Or.inl rfl
      · exact Or.inr rfl
  · rw [ran]
    exact Or.inr ⟨error, rfl, fun touchable =>
      refuses fun entry member => touchable entry (same.mem_iff.mp member)⟩

end Apogee.Stateless
