import Apogee.Mpt.Sparse

/-! # Writes before deletes

Updates of distinct keys leave one trie in every order, where the order is not refused.
A removal is refused for a hash it would leave alone; an order that writes first leaves
a hash alone only if every order does in the end. So it succeeds where any does, and
every node it needs is needed by all.
-/

namespace Apogee.Mpt

open Node Rlp

/-! ## What updates leave -/

/-- The reads after some updates, each the last word on its path. -/
def settled (reads : Reads) (updates : List Update) : Reads := fun key =>
  match updates.find? (·.path = key) with
  | some update => .ok update.value
  | none => reads key

section Settled

variable {reads : Reads} {updates : List Update}

theorem settled_of_notMem {key : Path} (apart : ∀ update ∈ updates, update.path ≠ key) :
    settled reads updates key = reads key := by
  have absent : updates.find? (·.path = key) = none :=
    List.find?_eq_none.mpr fun update member => by simpa using apart update member
  rw [settled, absent]

theorem settled_of_mem (distinct : (updates.map Update.path).Nodup) {update : Update}
    (member : update ∈ updates) : settled reads updates update.path = .ok update.value := by
  induction updates with
  | nil => exact absurd member List.not_mem_nil
  | cons first rest ih =>
    obtain ⟨apart, others⟩ := List.nodup_cons.mp distinct
    rcases List.mem_cons.mp member with rfl | later
    · rw [settled, List.find?_cons_of_pos (by simp)]
    · have differ : first.path ≠ update.path := by
        intro same
        exact apart (same ▸ List.mem_map_of_mem later)
      have below := ih others later
      rw [settled] at below
      rwa [settled, List.find?_cons_of_neg (by simpa using differ)]

theorem settled_cons {first : Update} {rest : List Update}
    (distinct : ((first :: rest).map Update.path).Nodup) :
    settled (Function.update reads first.path (.ok first.value)) rest =
      settled reads (first :: rest) := by
  obtain ⟨apart, others⟩ := List.nodup_cons.mp distinct
  funext key
  by_cases listed : ∃ update ∈ rest, update.path = key
  · obtain ⟨update, member, rfl⟩ := listed
    rw [settled_of_mem others member, settled_of_mem distinct (List.mem_cons_of_mem _ member)]
  · have absent : ∀ update ∈ rest, update.path ≠ key :=
      fun update member same => listed ⟨update, member, same⟩
    rw [settled_of_notMem absent]
    by_cases here : key = first.path
    · rw [here, Function.update_self, settled_of_mem distinct List.mem_cons_self]
    · rw [Function.update_of_ne here, settled_of_notMem]
      exact List.forall_mem_cons.mpr ⟨Ne.symm here, absent⟩

/-- What updates leave is not a matter of their order. -/
theorem settled_perm {order : List Update} (same : order.Perm updates)
    (distinct : (updates.map Update.path).Nodup) : settled reads order = settled reads updates := by
  have distinct' : (order.map Update.path).Nodup := (same.map Update.path).nodup_iff.mpr distinct
  funext key
  by_cases listed : ∃ update ∈ updates, update.path = key
  · obtain ⟨update, member, rfl⟩ := listed
    rw [settled_of_mem distinct member, settled_of_mem distinct' (same.mem_iff.mpr member)]
  · have absent : ∀ update ∈ updates, update.path ≠ key :=
      fun update member here => listed ⟨update, member, here⟩
    rw [settled_of_notMem absent,
      settled_of_notMem fun update member => absent update (same.mem_iff.mp member)]

end Settled

/-! ## One update -/

theorem Kept.trans {first second third : Reads} (left : Kept first second) (right : Kept second third)
    (refused : ∀ key hash, first key = .error (.missingNode hash) →
      second key = .error (.missingNode hash)) : Kept first third :=
  fun place nibble hash missing beside =>
    right place nibble hash (refused _ hash missing) (left place nibble hash missing beside)

/-- Reading more beside a hash leaves it beside what was read. -/
theorem Beside.mono {first second : Reads} {place : Path} {nibble : Nibble}
    (beside : Beside first place nibble) (more : ∀ key, first key ≠ .ok none → second key ≠ .ok none) :
    Beside second place nibble := by
  obtain ⟨key, below, apart, present⟩ := beside
  exact ⟨key, below, apart, more key present⟩

/-- A hash refuses its paths after an update as before. -/
theorem refused_update {reads : Reads} {path : Path} {found value : Option (List UInt8)}
    (here : reads path = .ok found) (key : Path) (hash : Word32)
    (missing : reads key = .error (.missingNode hash)) :
    Function.update reads path (.ok value) key = .error (.missingNode hash) := by
  rw [Function.update_of_ne, missing]
  rintro rfl
  rw [here] at missing
  exact absurd missing nofun

/-- What an update of a sparse trie leaves. -/
structure Applied (node : Node) (update : Update) (after : Node) : Prop where
  canonical : Canonical after
  reads : get after = Function.update (get node) update.path (.ok update.value)
  kept : Kept (get node) (get after)

theorem apply_spec {node : Node} (canonical : Canonical node) {update : Update}
    (some : update.value ≠ some []) :
    (∀ error, get node update.path = .error error → update.apply node = .error error) ∧
      ∀ found, get node update.path = .ok found →
        (∃ after, update.apply node = .ok after ∧ Applied node update after) ∨
          update.value = none ∧ ∃ hash, update.apply node = .error (.blindedCollapse hash) ∧
            Stranded node update.path hash := by
  obtain ⟨path, value⟩ := update
  cases value with
  | some value =>
    have present : value ≠ [] := fun none => some (congrArg Option.some none)
    obtain ⟨refused, inserted⟩ := insert_spec present canonical path
    refine ⟨refused, fun found here => Or.inl ?_⟩
    obtain ⟨after, ran, done⟩ := inserted found here
    refine ⟨after, ran, done.canonical, done.reads, ?_⟩
    rw [done.reads]
    intro place nibble hash _ beside
    refine beside.mono fun key present => ?_
    by_cases same : key = path
    · rw [same, Function.update_self]
      exact nofun
    · rwa [Function.update_of_ne same]
  | none =>
    obtain ⟨refused, removed⟩ := remove_spec canonical path
    refine ⟨refused, fun found here => ?_⟩
    rcases removed found here with ⟨after, ran, done⟩ | ⟨hash, ran, stranded⟩
    · exact Or.inl ⟨after, ran, done.canonical, done.reads, done.reads ▸ done.kept⟩
    · exact Or.inr ⟨rfl, hash, ran, stranded⟩

/-! ## Orders -/

/-- What an order that is not refused leaves, and that it needed every path and kept
something beside every hash. -/
theorem run_settled {node after : Node} (canonical : Canonical node) {order : List Update}
    (distinct : (order.map Update.path).Nodup) (fits : ∀ update ∈ order, update.value ≠ some [])
    (ran : run node order = .ok after) :
    Canonical after ∧ get after = settled (get node) order ∧
      (∀ update ∈ order, ∃ found, get node update.path = .ok found) ∧
      Kept (get node) (settled (get node) order) := by
  induction order generalizing node with
  | nil =>
    cases ran
    exact ⟨canonical, rfl, nofun, Kept.refl _⟩
  | cons update order ih =>
    obtain ⟨here, later⟩ := List.forall_mem_cons.mp fits
    obtain ⟨refused, applied⟩ := apply_spec canonical here
    obtain ⟨apart, others⟩ := List.nodup_cons.mp distinct
    rw [run, List.foldlM_cons] at ran
    cases read : get node update.path with
    | error error =>
      rw [refused error read] at ran
      cases ran
    | ok found =>
      rcases applied found read with ⟨middle, step, done⟩ | ⟨-, hash, step, -⟩
      · rw [step] at ran
        obtain ⟨shaped, reads, paths, kept⟩ := ih done.canonical others later ran
        rw [done.reads, settled_cons distinct] at reads kept
        refine ⟨shaped, reads, List.forall_mem_cons.mpr ⟨⟨found, read⟩, ?_⟩, ?_⟩
        · intro other member
          obtain ⟨seen, found⟩ := paths other member
          rw [done.reads, Function.update_of_ne] at found
          · exact ⟨seen, found⟩
          · intro same
            exact apart (same ▸ List.mem_map_of_mem member)
        · exact (done.reads ▸ done.kept).trans kept fun key hash => refused_update read key hash
      · rw [step] at ran
        cases ran

/-- No update writes after one has removed. -/
def WritesFirst (order : List Update) : Prop :=
  order.Pairwise fun first second => first.value = none → second.value = none

/-- Removals leave no more to read than there was. -/
theorem settled_removals {reads : Reads} {order : List Update}
    (distinct : (order.map Update.path).Nodup) (removals : ∀ update ∈ order, update.value = none)
    {key : Path} (present : settled reads order key ≠ .ok none) : reads key ≠ .ok none := by
  by_cases listed : ∃ update ∈ order, update.path = key
  · obtain ⟨update, member, rfl⟩ := listed
    rw [settled_of_mem distinct member, removals update member] at present
    exact absurd rfl present
  · rwa [settled_of_notMem fun update member same => listed ⟨update, member, same⟩] at present

/-- An order that writes first succeeds when its paths are read and something is left
beside every hash in the end. -/
theorem run_writesFirst {node : Node} (canonical : Canonical node) {order : List Update}
    (distinct : (order.map Update.path).Nodup) (fits : ∀ update ∈ order, update.value ≠ some [])
    (first : WritesFirst order) (paths : ∀ update ∈ order, ∃ found, get node update.path = .ok found)
    (kept : Kept (get node) (settled (get node) order)) : ∃ after, run node order = .ok after := by
  induction order generalizing node with
  | nil => exact ⟨node, rfl⟩
  | cons update order ih =>
    obtain ⟨here, later⟩ := List.forall_mem_cons.mp fits
    obtain ⟨⟨found, read⟩, others⟩ := List.forall_mem_cons.mp paths
    obtain ⟨apart, distinct'⟩ := List.nodup_cons.mp distinct
    obtain ⟨ahead, behind⟩ := List.pairwise_cons.mp first
    rw [← settled_cons distinct] at kept
    -- what the rest of a removal's order leaves was there once the removal was made
    have left : update.value = none → ∀ key, settled (Function.update (get node) update.path
        (.ok update.value)) order key ≠ .ok none →
        Function.update (get node) update.path (.ok update.value) key ≠ .ok none :=
      fun removal key => settled_removals distinct' (fun other member => ahead other member removal)
    rcases (apply_spec canonical here).2 found read with
      ⟨middle, step, done⟩ | ⟨removal, hash, -, place, nibble, missing, beside, alone⟩
    · obtain ⟨after, ran⟩ := ih done.canonical distinct' later behind (by
          intro other member
          obtain ⟨seen, found⟩ := others other member
          refine ⟨seen, ?_⟩
          rw [done.reads, Function.update_of_ne, found]
          intro same
          exact apart (same ▸ List.mem_map_of_mem member))
        (by
          rw [done.reads]
          intro place nibble hash missing beside
          have before : get node (place ++ [nibble]) = .error (.missingNode hash) := by
            by_cases same : place ++ [nibble] = update.path
            · rw [same, Function.update_self] at missing
              exact absurd missing nofun
            · rwa [Function.update_of_ne same] at missing
          obtain ⟨key, below, clear, present⟩ := beside
          by_cases same : key = update.path
          · -- the path just written is read to the end
            refine ⟨key, below, clear, ?_⟩
            rw [settled_of_notMem]
            · exact present
            · intro other member here
              exact apart ((here.trans same) ▸ List.mem_map_of_mem member)
          · rw [Function.update_of_ne same] at present
            exact kept place nibble hash before ⟨key, below, clear, present⟩)
      refine ⟨after, ?_⟩
      rw [run, List.foldlM_cons, step]
      exact ran
    · refine absurd ((kept place nibble hash missing beside).mono (left removal)) ?_
      rwa [removal]

/-- Where any order succeeds, one that writes first does, and leaves the same trie. -/
theorem writesFirst_of_run {node after : Node} (canonical : Canonical node)
    {order arranged : List Update} (same : arranged.Perm order)
    (distinct : (order.map Update.path).Nodup) (fits : ∀ update ∈ order, update.value ≠ some [])
    (ran : run node order = .ok after) (first : WritesFirst arranged) :
    run node arranged = .ok after := by
  obtain ⟨shaped, reads, paths, kept⟩ := run_settled canonical distinct fits ran
  have distinct' : (arranged.map Update.path).Nodup := (same.map Update.path).nodup_iff.mpr distinct
  have fits' : ∀ update ∈ arranged, update.value ≠ some [] :=
    fun update member => fits update (same.mem_iff.mp member)
  obtain ⟨final, ran'⟩ := run_writesFirst canonical distinct' fits' first
    (fun update member => paths update (same.mem_iff.mp member))
    (by rwa [settled_perm same distinct])
  obtain ⟨shaped', reads', -⟩ := run_settled canonical distinct' fits' ran'
  have one : final = after := shaped'.eq_of_get shaped (by
    rw [reads', reads, settled_perm same distinct])
  rw [ran', one]

/-- A write comes before a removal, and updates of one kind by their keys. -/
def before (rank : Update → ℕ) (first second : Update) : Bool :=
  if first.value.isNone = second.value.isNone then rank first ≤ rank second
  else second.value.isNone

/-- The order of updates of keys in some order: writes by key, then removals by key. -/
def postOrder (rank : Update → ℕ) (updates : List Update) : List Update :=
  updates.mergeSort (before rank)

theorem postOrder_perm (rank : Update → ℕ) (updates : List Update) :
    (postOrder rank updates).Perm updates := List.mergeSort_perm _ _

theorem postOrder_writesFirst (rank : Update → ℕ) (updates : List Update) :
    WritesFirst (postOrder rank updates) := by
  have transitive : ∀ a b c, before rank a b = true → before rank b c = true → before rank a c = true := by
    intro a b c
    unfold before
    cases a.value <;> cases b.value <;> cases c.value <;> simp
    all_goals omega
  have total : ∀ a b, (before rank a b || before rank b a) = true := by
    intro a b
    unfold before
    cases a.value <;> cases b.value <;> simp
    all_goals omega
  refine (List.pairwise_mergeSort transitive total updates).imp ?_
  intro first second sorted removal
  rw [before, removal] at sorted
  cases own : second.value with
  | none => rfl
  | some value =>
    rw [own] at sorted
    exact absurd sorted Bool.false_ne_true

/-! ## Two witnesses -/

/-- A run of a view is the trie's, or refused for one of its hashes, which refuses the
trie's run too when it is the trie's own. -/
theorem run_view {stands : Word32 → Node → Prop}
    (filled : ∀ hash node, stands hash node → node ≠ .empty) {view trie : Node}
    (views : View stands view trie) (order : List Update) :
    (∃ after final, run view order = .ok after ∧ run trie order = .ok final ∧
      View stands after final) ∨
      ∃ error hash hidden, run view order = .error error ∧
        (error = .missingNode hash ∨ error = .blindedCollapse hash) ∧ stands hash hidden ∧
        (hidden = blinded hash → run trie order = .error error) := by
  induction order generalizing view trie with
  | nil => exact Or.inl ⟨view, trie, rfl, rfl, views⟩
  | cons update order ih =>
    rw [run, run, List.foldlM_cons, List.foldlM_cons]
    rcases views.apply filled update with
      ⟨after, changed, ran, other, seen⟩ | ⟨error, ran, hash, hidden, kind, names, -, own⟩
    · rw [ran, other]
      exact ih seen
    · rw [ran]
      refine Or.inr ⟨error, hash, hidden, rfl, kind, names, fun same => ?_⟩
      rw [own same]
      rfl

/-- What a fuller witness shows at a hash: the hash still, or a node it has under it. -/
def Fuller (db : NodeMap) (hash : Word32) (node : Node) : Prop :=
  node ≠ empty ∧ (node = blinded hash ∨ (db.get hash).isSome)

/-- What a witness shows of a trie is a view of what a fuller one shows. -/
theorem view_sight_sight (keccak : List UInt8 → Word32) {db fuller : NodeMap}
    (more : ∀ hash, (db.get hash).isSome → (fuller.get hash).isSome) (node : Node)
    (resolved : ∀ hash, ¬ Within (blinded hash) node) :
    View (Fuller fuller) (sight keccak db node) (sight keccak fuller node) := by
  have slot : ∀ child, View (Fuller fuller) (sight keccak db child) (sight keccak fuller child) →
      View (Fuller fuller) (seen keccak db child (sight keccak db child))
        (seen keccak fuller child (sight keccak fuller child)) := by
    intro child below
    unfold seen
    cases encoded : child.encode keccak with
    | none => exact below
    | some bytes =>
      have filled : 32 ≤ bytes.length → child ≠ empty := by
        rintro long rfl
        cases encoded
        exact absurd long (by decide)
      dsimp only
      by_cases hidden : 32 ≤ bytes.length ∧ (fuller.get (keccak bytes)).isNone
      · have lacking : (db.get (keccak bytes)).isNone := by
          cases known : db.get (keccak bytes) with
          | none => rfl
          | some known' =>
            obtain ⟨found, held⟩ := Option.isSome_iff_exists.mp (more _ (by rw [known]; rfl))
            rw [held] at hidden
            exact absurd hidden.2 Bool.false_ne_true
        rw [if_pos hidden, if_pos ⟨hidden.1, lacking⟩]
        exact .blinded ⟨nofun, Or.inl rfl⟩
      · rw [if_neg hidden]
        by_cases lacking : 32 ≤ bytes.length ∧ (db.get (keccak bytes)).isNone
        · rw [if_pos lacking]
          refine .blinded ⟨fun none => filled lacking.1 (sight_eq_empty.mp none), Or.inr ?_⟩
          rw [Option.isSome_iff_ne_none]
          intro none
          exact hidden ⟨lacking.1, Option.isNone_iff_eq_none.mpr none⟩
        · rwa [if_neg lacking]
  induction node with
  | empty => exact .empty
  | leaf path value => exact .leaf path value
  | ext path child ih =>
    exact .ext path (slot child (ih fun hash inside => resolved hash (.ext path inside)))
  | branch children value ih =>
    exact .branch value fun i =>
      slot (children i) (ih i fun hash inside => resolved hash (.branch i value inside))
  | blinded hash => exact absurd (.refl _) (resolved hash)

/-- A fuller witness has a node wherever a witness has one. -/
theorem more_known {keccak : List UInt8 → Word32} {nodes fuller : List (List UInt8)}
    (more : nodes ⊆ fuller) (hash : Word32) (known : ((NodeMap.new keccak nodes).get hash).isSome) :
    ((NodeMap.new keccak fuller).get hash).isSome := by
  obtain ⟨bytes, found⟩ := Option.isSome_iff_exists.mp known
  obtain ⟨member, rfl⟩ := NodeMap.get_new found
  obtain ⟨held, found⟩ := @NodeMap.get_new_isSome keccak fuller bytes (more member)
  rw [found]
  rfl

/-- Writes before deletes is the least demanding order: it succeeds where any order does
and leaves the same trie, and a node it lacks is lacked by every order. -/
theorem writes_first (keccak : List UInt8 → Word32) (emptyRoot : keccak [0x80] = emptyTrieRoot)
    {trie : Node} {contents : Contents} (holds : Holds trie contents)
    (keys : ∀ key, contents key ≠ none → key.length = 64) {nodes : List (List UInt8)}
    (short : ∀ node ∈ nodes, node.length ≤ usizeMax)
    (distinct : Set.InjOn keccak (hashed keccak nodes trie)) {root : Word32}
    (named : trie.root keccak = some root) {start : Node}
    (built : build (NodeMap.new keccak nodes) root = .ok start) (rank : Update → ℕ)
    {updates : List Update} (once : (updates.map Update.path).Nodup)
    (fits : ∀ update ∈ updates, update.path.length = 64 ∧ update.value ≠ some []) :
    (∀ order after, order.Perm updates → run start order = .ok after →
      ∃ final, run start (postOrder rank updates) = .ok final ∧
        final.root keccak = after.root keccak) ∧
      ∀ error, run start (postOrder rank updates) = .error error →
        ∃ hash, (error = .missingNode hash ∨ error = .blindedCollapse hash) ∧
          ∀ fuller fullerStart order after, nodes ⊆ fuller →
            (∀ node ∈ fuller, node.length ≤ usizeMax) →
            Set.InjOn keccak (hashed keccak fuller trie) →
            build (NodeMap.new keccak fuller) root = .ok fullerStart →
            order.Perm updates → run fullerStart order = .ok after →
            ∃ known ∈ fuller, keccak known = hash := by
  -- a trie built is what its witness shows, and canonical
  have shown : ∀ {known : List (List UInt8)} {start : Node},
      (∀ node ∈ known, node.length ≤ usizeMax) → Set.InjOn keccak (hashed keccak known trie) →
      build (NodeMap.new keccak known) root = .ok start →
      start = sight keccak (NodeMap.new keccak known) trie ∧ Canonical start := by
    intro known start short distinct built
    rcases build_sight holds keys short emptyRoot distinct named with ran | ⟨refused, -⟩
    · rw [ran] at built
      cases built
      exact ⟨rfl, (view_sight keccak _ trie holds.resolved).canonical lacks_filled holds.canonical⟩
    · rw [refused] at built
      cases built
  have least : ∀ {start order after}, Canonical start → order.Perm updates →
      run start order = .ok after → run start (postOrder rank updates) = .ok after := by
    intro start order after canonical same ran
    exact writesFirst_of_run canonical ((postOrder_perm rank updates).trans same.symm)
      ((same.map Update.path).nodup_iff.mpr once)
      (fun update member => (fits update (same.mem_iff.mp member)).2) ran
      (postOrder_writesFirst rank updates)
  obtain ⟨here, canonical⟩ := shown short distinct built
  refine ⟨fun order after same ran => ⟨after, least canonical same ran, rfl⟩, ?_⟩
  intro error refused
  rw [here] at refused
  have views := view_sight keccak (NodeMap.new keccak nodes) trie holds.resolved
  rcases run_view lacks_filled views (postOrder rank updates) with
    ⟨_, _, ran, -⟩ | ⟨error', hash, -, ran, kind, -⟩
  · rw [ran] at refused
    cases refused
  · rw [ran] at refused
    cases refused
    refine ⟨hash, kind, ?_⟩
    intro fuller fullerStart order after more short distinct built same succeeded
    obtain ⟨whole, canonical⟩ := shown short distinct built
    have success := least canonical same succeeded
    rw [whole] at success
    have finer := @view_sight_sight keccak (NodeMap.new keccak nodes) (NodeMap.new keccak fuller)
      (@more_known keccak nodes fuller more) trie holds.resolved
    rcases run_view (fun _ _ stands => stands.1) finer (postOrder rank updates) with
      ⟨_, _, ran', -⟩ | ⟨error', hash', hidden, ran', kind', ⟨-, own | known⟩, refuses⟩
    · rw [ran'] at ran
      cases ran
    · rw [refuses own] at success
      cases success
    · rw [ran'] at ran
      cases ran
      have one : hash' = hash := by
        rcases kind with rfl | rfl <;> rcases kind' with same | same <;> cases same <;> rfl
      obtain ⟨bytes, found⟩ := Option.isSome_iff_exists.mp known
      obtain ⟨member, hashes⟩ := NodeMap.get_new found
      exact ⟨bytes, member, hashes.trans one⟩

/-- The one key of a trie removed, and another written after it: the write may come first. -/
theorem writes_first_zeroKey :
    ∃ final, run zeroKeyTrie (postOrder (fun _ => 0)
        [⟨List.replicate 64 0, none⟩, ⟨List.replicate 64 1, some [7]⟩]) = .ok final ∧
      final.root (tableHash [(zeroKeyBytes, zeroKeyHash)]) =
        (leaf (List.replicate 64 1) [7]).root (tableHash [(zeroKeyBytes, zeroKeyHash)]) := by
  have named : zeroKeyTrie.root (tableHash [(zeroKeyBytes, zeroKeyHash)]) = some zeroKeyHash := by
    decide
  have built : build (NodeMap.new (tableHash [(zeroKeyBytes, zeroKeyHash)]) [zeroKeyBytes])
      zeroKeyHash = .ok zeroKeyTrie := by
    rcases build_sight zeroKeyTrie_holds zeroKey_lengths (by decide) (by decide)
      zeroKey_distinct named with ran | ⟨-, -, bytes, encoded, same, absent⟩
    · exact ran
    · rw [zeroKeyTrie_encode] at encoded
      cases encoded
      exact absurd same (absent zeroKeyBytes (List.mem_singleton_self _))
  exact (writes_first (tableHash [(zeroKeyBytes, zeroKeyHash)]) (by decide)
    zeroKeyTrie_holds zeroKey_lengths (by decide) zeroKey_distinct named built (fun _ => 0)
    (by decide) (by decide)).1 _ _ (.refl _) rfl

end Apogee.Mpt
