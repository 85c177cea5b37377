import Apogee.Mpt.Patricia
import Mathlib.Data.List.TakeWhile

/-! # One trie for each map

Whatever inserts and removes lead to a map, they lead to one node, whose root is the
map's. With keys none of which begins another, every value is in a leaf. The ordered
trie of a list, keyed by each index's encoding, is one case.
-/

namespace Apogee.Mpt

open Node Rlp Patricia

/-! ## Updates -/

/-- A path to be written, or removed when there is no value. -/
structure Update where
  path : Path
  value : Option (List UInt8)

namespace Update

def apply (node : Node) (update : Update) : Except MptError Node :=
  match update.value with
  | some value => insert node update.path value
  | none => remove node update.path

/-- The map after an update. -/
def writes (contents : Contents) (update : Update) : Contents :=
  Function.update contents update.path update.value

end Update

/-- A sequence of updates of a trie. -/
def run (node : Node) (updates : List Update) : Except MptError Node :=
  updates.foldlM Update.apply node

/-- The same updates of a map. -/
def written (contents : Contents) (updates : List Update) : Contents :=
  updates.foldl Update.writes contents

/-- A trie whose reads are a map's. -/
structure Holds (node : Node) (contents : Contents) : Prop where
  canonical : Canonical node
  reads : ∀ key, get node key = .ok (contents key)

theorem Holds.empty : Holds .empty fun _ => none := ⟨.empty, fun _ => rfl⟩

theorem ok_update (contents : Contents) (key : Path) (value : Option (List UInt8)) :
    Function.update (fun key => Except.ok (contents key)) key (.ok value) =
      fun key' : Path => (.ok (Function.update contents key value key') :
        Except MptError (Option (List UInt8))) := by
  funext key'
  exact (Function.apply_update (fun _ => Except.ok) contents key value key').symm

/-- One update of a trie is the update of its map. -/
theorem Holds.apply {node : Node} {contents : Contents} (holds : Holds node contents)
    {update : Update} (some : update.value ≠ some []) :
    ∃ after, update.apply node = .ok after ∧ Holds after (update.writes contents) := by
  have reads : get node = fun key => .ok (contents key) := funext holds.reads
  obtain ⟨path, value⟩ := update
  cases value with
  | some value =>
    have present : value ≠ [] := fun none => some (congrArg Option.some none)
    obtain ⟨after, ran, done⟩ := (insert_spec present holds.canonical path).2 _ (holds.reads path)
    refine ⟨after, ran, done.canonical, fun key => ?_⟩
    rw [done.reads, reads, ok_update]
    rfl
  | none =>
    rcases (remove_spec holds.canonical path).2 _ (holds.reads path) with
      ⟨after, ran, done⟩ | ⟨hash, -, place, nibble, missing, -⟩
    · refine ⟨after, ran, done.canonical, fun key => ?_⟩
      rw [done.reads, reads, ok_update]
      rfl
    · rw [holds.reads] at missing
      exact absurd missing nofun

/-- Every sequence of updates succeeds and does to the trie what it does to the map. -/
theorem Holds.run {node : Node} {contents : Contents} (holds : Holds node contents)
    {updates : List Update} (some : ∀ update ∈ updates, update.value ≠ some []) :
    ∃ after, run node updates = .ok after ∧ Holds after (written contents updates) := by
  induction updates generalizing node contents with
  | nil => exact ⟨node, rfl, holds⟩
  | cons update updates ih =>
    obtain ⟨here, later⟩ := List.forall_mem_cons.mp some
    obtain ⟨middle, ran, held⟩ := holds.apply here
    obtain ⟨after, rest, done⟩ := ih held later
    refine ⟨after, ?_, done⟩
    rw [Mpt.run, List.foldlM_cons, ran]
    exact rest

/-- Two tries of one map are one. -/
theorem Holds.unique {node other : Node} {contents : Contents} (holds : Holds node contents)
    (held : Holds other contents) : node = other :=
  holds.canonical.eq_of_get held.canonical
    (funext fun key => (holds.reads key).trans (held.reads key).symm)

theorem Holds.root_eq {node : Node} {contents : Contents} (holds : Holds node contents)
    (keccak : List UInt8 → Word32) {entries : Entries} (tabulates : Tabulates entries contents) :
    node.root keccak = some (trieRoot keccak entries) :=
  Patricia.root_eq keccak holds.canonical holds.reads tabulates

/-! ## Keys none of which begins another -/

/-- No key begins another. -/
def PrefixFree (keys : Set Path) : Prop := ∀ a ∈ keys, ∀ b ∈ keys, a <+: b → a = b

/-- A trie's shape when its values are all in leaves: no extension but a nonempty one above
a branch, no branch but with two children at least and no value. -/
inductive Shaped : Node → Prop
  | empty : Shaped empty
  | leaf {path : Path} {value : List UInt8} (some : value ≠ []) : Shaped (leaf path value)
  | ext {path : Path} {children : Nibble → Node} (some : path ≠ [])
      (below : Shaped (branch children [])) : Shaped (ext path (branch children []))
  | branch {children : Nibble → Node} (below : ∀ i, Shaped (children i))
      (two : 2 ≤ (live children).length) : Shaped (branch children [])

theorem Canonical.shaped {node : Node} (canonical : Canonical node) {contents : Contents}
    (reads : ∀ key, get node key = .ok (contents key))
    (free : PrefixFree {key | contents key ≠ none}) : Shaped node := by
  induction canonical generalizing contents with
  | empty => exact .empty
  | leaf some => exact .leaf some
  | @ext path child some below forks ih =>
    have shaped : Shaped child := by
      refine @ih (fun key => contents (path ++ key)) (fun key => ?_) ?_
      · rw [← reads, get_ext_append]
      · intro a present b other inside
        exact List.append_cancel_left
          (free _ present _ other ((List.prefix_append_right_inj path).mpr inside))
    cases shaped with
    | branch inside two => exact .ext some (.branch inside two)
    | _ => exact forks.elim
  | @branch children value below two ih =>
    have none : value = [] := by
      by_contra own
      obtain ⟨key, present, apart⟩ := (Canonical.branch below two).spread trivial none
      have top : contents [] = some value := by
        rw [← Except.ok.inj (reads []), if_neg own]
      have other : contents key ≠ .none := by
        rw [reads] at present
        exact fun absent => present (congrArg Except.ok absent)
      refine apart ?_
      rw [← free [] (by rw [Set.mem_ofPred_eq, top]; exact nofun) key other List.nil_prefix]
      rfl
    subst none
    refine .branch (fun i => ?_) two
    refine @ih i (fun key => contents (i :: key)) (fun key => reads (i :: key)) ?_
    intro a present b other inside
    exact (List.cons.inj (free _ present _ other ((List.prefix_cons_inj i).mpr inside))).2
  | blinded hash => exact absurd (reads []) nofun

/-- What was never written is not held. -/
theorem written_of_notMem {contents : Contents} {updates : List Update} {key : Path}
    (apart : ∀ update ∈ updates, update.path ≠ key) : written contents updates key = contents key := by
  induction updates generalizing contents with
  | nil => rfl
  | cons update updates ih =>
    obtain ⟨here, later⟩ := List.forall_mem_cons.mp apart
    exact (ih later).trans (Function.update_of_ne (Ne.symm here) _ _)

/-- Keys of one length. -/
theorem prefixFree_length (n : ℕ) : PrefixFree {key | key.length = n} :=
  fun _ length _ other inside => inside.eq_of_length (length.trans other.symm)

/-! ## Keys of an ordered trie -/

/-- The path of an index. -/
def indexPath (i : ℕ) : Path := nibblesOf (encodeU64 (UInt64.ofNat i))

theorem pair_nibbles (byte : UInt8) : pair (highNibble byte) (lowNibble byte) = byte := by
  have small := byte.toNat_lt
  apply UInt8.toNat_inj.mp
  rw [pair, highNibble, lowNibble, UInt8.toNat_ofNat', Fin.val_ofNat, Fin.val_ofNat]
  omega

/-- A byte string begins another when its nibbles do. -/
theorem prefix_of_nibblesOf {first second : List UInt8} (inside : nibblesOf first <+: nibblesOf second) :
    first <+: second := by
  induction first generalizing second with
  | nil => exact List.nil_prefix
  | cons a first ih =>
    cases second with
    | nil => exact absurd (List.prefix_nil.mp inside) (List.cons_ne_nil _ _)
    | cons b second =>
      obtain ⟨high, rest⟩ := List.cons_prefix_cons.mp inside
      obtain ⟨low, rest⟩ := List.cons_prefix_cons.mp rest
      rw [← pair_nibbles a, ← pair_nibbles b, high, low]
      exact (List.prefix_cons_inj _).mpr (ih rest)

/-- Numbers written without their leading zeros differ still. -/
theorem dropWhile_inj {first second : List UInt8} (lengths : first.length = second.length)
    (same : first.dropWhile (· == 0) = second.dropWhile (· == 0)) : first = second := by
  have zeros : ∀ bytes : List UInt8, bytes.takeWhile (· == 0) =
      List.replicate (bytes.length - (bytes.dropWhile (· == 0)).length) 0 := by
    intro bytes
    have parts := congrArg List.length (@List.takeWhile_append_dropWhile UInt8 (· == 0) bytes)
    rw [List.length_append] at parts
    refine List.eq_replicate_iff.mpr ⟨by omega, fun byte member => ?_⟩
    have zero := List.mem_takeWhile_imp member
    exact eq_of_beq zero
  rw [← @List.takeWhile_append_dropWhile UInt8 (· == 0) first,
    ← @List.takeWhile_append_dropWhile UInt8 (· == 0) second, zeros, zeros, same, lengths]

theorem beBytes_length (n x : ℕ) : (beBytes n x).length = n := by
  rw [beBytes, List.length_reverse, Math.leBytes_length]

theorem beBytes_inj {n x y : ℕ} (small : x < 256 ^ n) (small' : y < 256 ^ n)
    (same : beBytes n x = beBytes n y) : x = y := by
  have low := List.reverse_injective same
  rw [← Math.leValue_leBytes small, low, Math.leValue_leBytes small']

theorem encodeBytes_short {payload : List UInt8} (short : payload.length ≤ 55) :
    (encodeBytes payload).length ≤ usizeMax := by
  have limit : 56 ≤ usizeMax := by decide
  unfold encodeBytes encodeHeader
  by_cases single : payload.length = 1 ∧ payload.all (· < 0x80)
  · rw [if_pos single]
    omega
  · rw [if_neg single, if_pos short, List.singleton_append, List.length_cons]
    omega

/-- One byte string's encoding begins another's only when they are one. -/
theorem encodeBytes_prefix {first second : List UInt8} (short : first.length ≤ 55)
    (short' : second.length ≤ 55) (inside : encodeBytes first <+: encodeBytes second) :
    first = second := by
  obtain ⟨rest, same⟩ := inside
  have left := split_encodeBytes first rest (encodeBytes_short short)
  have right := split_encodeBytes second [] (encodeBytes_short short')
  rw [List.append_nil, ← same, left, Option.some.injEq, Prod.mk.injEq, Item.mk.injEq] at right
  exact right.1.2.1

/-- An index's path begins no other's. -/
theorem indexPath_begins {i j : ℕ} (small : i < 2 ^ 64) (small' : j < 2 ^ 64)
    (inside : indexPath i <+: indexPath j) : i = j := by
  have short : ∀ x, ((beBytes 8 x).dropWhile (· == 0)).length ≤ 55 := by
    intro x
    refine (List.IsSuffix.length_le (List.dropWhile_suffix _)).trans ?_
    rw [beBytes_length]
    exact Nat.le_add_left 8 47
  have payloads := encodeBytes_prefix (short _) (short _) (prefix_of_nibblesOf inside)
  have numbers := dropWhile_inj (by rw [beBytes_length, beBytes_length]) payloads
  rw [UInt64.toNat_ofNat_of_lt' small, UInt64.toNat_ofNat_of_lt' small'] at numbers
  exact beBytes_inj (small.trans_le (by decide)) (small'.trans_le (by decide)) numbers

theorem prefixFree_indexPath : PrefixFree (Set.range fun i : UInt64 => nibblesOf (encodeU64 i)) := by
  rintro _ ⟨i, rfl⟩ _ ⟨j, rfl⟩ inside
  have same := @indexPath_begins i.toNat j.toNat i.toNat_lt j.toNat_lt
    (by rwa [indexPath, indexPath, UInt64.ofNat_toNat, UInt64.ofNat_toNat])
  rw [UInt64.toNat_inj.mp same]

/-- The root of the trie of a list, each value under its index. -/
def orderedRoot (keccak : List UInt8 → Word32) (values : List (List UInt8)) : Option Word32 := do
  let updates := values.zipIdx.map fun entry => Update.mk (indexPath entry.2) (some entry.1)
  let trie ← (run empty updates).toOption
  trie.root keccak

/-- The map from each index's path to its value. -/
def ordered (values : List (List UInt8)) : Entries :=
  values.zipIdx.map fun entry => (indexPath entry.2, entry.1)

/-- Writing entries under distinct keys tabulates them. -/
theorem tabulates_written {entries : Entries} (distinct : (entries.map Prod.fst).Nodup) :
    Tabulates entries (written (fun _ => none)
      (entries.map fun entry => Update.mk entry.1 (some entry.2))) := by
  refine ⟨List.Nodup.of_map _ distinct, ?_⟩
  induction entries using List.reverseRecOn with
  | nil => exact fun key value => iff_of_false List.not_mem_nil nofun
  | append_singleton entries last ih =>
    intro key value
    obtain ⟨path, own⟩ := last
    rw [List.map_append, List.nodup_append] at distinct
    obtain ⟨before, -, apart⟩ := distinct
    have here := ih before key value
    rw [List.mem_append, List.mem_singleton, Prod.mk.injEq, List.map_append, written,
      List.foldl_append]
    rw [written] at here
    by_cases same : key = path
    · rw [List.map_singleton, List.foldl_cons, List.foldl_nil, Update.writes, same,
        Function.update_self, Option.some.injEq]
      constructor
      · rintro (member | ⟨-, held⟩)
        · exact absurd rfl (apart _ (List.mem_map_of_mem member) path (List.mem_singleton_self _))
        · exact held.symm
      · intro held
        exact Or.inr ⟨rfl, held.symm⟩
    · rw [List.map_singleton, List.foldl_cons, List.foldl_nil, Update.writes,
        Function.update_of_ne same, ← here]
      exact or_iff_left fun last => same last.1

theorem ordered_nodup {values : List (List UInt8)} (bounded : values.length ≤ 2 ^ 64) :
    ((ordered values).map Prod.fst).Nodup := by
  have paths : (ordered values).map Prod.fst = (List.range values.length).map indexPath := by
    rw [ordered, List.map_map, List.range_eq_range', ← List.zipIdx_map_snd 0 values, List.map_map]
    rfl
  rw [paths]
  refine List.Nodup.map_on ?_ List.nodup_range
  intro i inside j inside' same
  have small := (List.mem_range.mp inside).trans_le bounded
  have small' := (List.mem_range.mp inside').trans_le bounded
  exact indexPath_begins small small' (by rw [same])

/-- The ordered trie's root is that of the map from indices to values. -/
theorem orderedRoot_eq (keccak : List UInt8 → Word32) {values : List (List UInt8)}
    (bounded : values.length ≤ 2 ^ 64) (some : ∀ value ∈ values, value ≠ []) :
    orderedRoot keccak values = .some (trieRoot keccak (ordered values)) := by
  have updates : values.zipIdx.map (fun entry => Update.mk (indexPath entry.2) (.some entry.1)) =
      (ordered values).map fun entry => Update.mk entry.1 (.some entry.2) := by
    rw [ordered, List.map_map]
    rfl
  have written : ∀ update ∈ (ordered values).map fun entry => Update.mk entry.1 (.some entry.2),
      update.value ≠ .some [] := by
    intro update member
    obtain ⟨_, inside, rfl⟩ := List.mem_map.mp member
    obtain ⟨entry, listed, rfl⟩ := List.mem_map.mp inside
    exact fun none => some _ (List.fst_mem_of_mem_zipIdx listed) (Option.some.inj none)
  obtain ⟨trie, ran, holds⟩ := Holds.empty.run written
  rw [orderedRoot, updates, ran]
  exact holds.root_eq keccak (tabulates_written (ordered_nodup bounded))

/-- Whatever the updates, a trie is the canonical one of the map they make, and its root
the map's; so is the ordered trie's of its list, whose length is a 64-bit number. -/
theorem trie_canonical (keccak : List UInt8 → Word32) :
    PrefixFree {key | key.length = 64} ∧
      PrefixFree (Set.range fun i : UInt64 => nibblesOf (encodeU64 i)) ∧
      (∀ keys, PrefixFree keys → ∀ updates : List Update,
        (∀ update ∈ updates, update.path ∈ keys ∧ update.value ≠ some []) →
        ∃ node, run empty updates = .ok node ∧ Shaped node ∧
          (∀ key, get node key = .ok (written (fun _ => none) updates key)) ∧
          (∀ entries, Tabulates entries (written (fun _ => none) updates) →
            node.root keccak = some (trieRoot keccak entries)) ∧
          ∀ others : List Update, (∀ update ∈ others, update.path ∈ keys ∧ update.value ≠ some []) →
            written (fun _ => none) others = written (fun _ => none) updates →
            run empty others = .ok node) ∧
      ∀ values : List (List UInt8), values.length ≤ 2 ^ 64 → (∀ value ∈ values, value ≠ []) →
        orderedRoot keccak values = some (trieRoot keccak (ordered values)) := by
  refine ⟨prefixFree_length 64, prefixFree_indexPath, fun keys free updates fits => ?_,
    fun values bounded some => orderedRoot_eq keccak bounded some⟩
  obtain ⟨node, ran, holds⟩ := Holds.empty.run fun update member => (fits update member).2
  refine ⟨node, ran, ?_, holds.reads, fun entries => holds.root_eq keccak, ?_⟩
  · refine holds.canonical.shaped holds.reads ?_
    have inside : ∀ key, written (fun _ => none) updates key ≠ none → key ∈ keys := by
      intro key held
      by_contra outside
      refine held (written_of_notMem fun update member same => ?_)
      exact outside (same ▸ (fits update member).1)
    exact fun a present b other => free a (inside a present) b (inside b other)
  · intro others allowed same
    obtain ⟨other, ran, held⟩ := Holds.empty.run fun update member => (allowed update member).2
    rw [same] at held
    rw [ran, holds.unique held]

/-- A hash known on the strings of a table. -/
def tableHash (table : List (List UInt8 × Word32)) (bytes : List UInt8) : Word32 :=
  (table.lookup bytes).getD emptyTrieRoot

/-- Two keys written and the first removed leave the second's leaf, with its hash. -/
theorem trie_canonical_leaf :
    let hash : Word32 := ⟨[0x5e, 0x00, 0x91, 0xe5, 0xed, 0x39, 0xa4, 0x82, 0x60, 0xdc, 0x9a, 0x25,
      0x73, 0x49, 0x79, 0x77, 0x83, 0xde, 0xa5, 0x2d, 0xf0, 0xcf, 0x89, 0xb8, 0x7b, 0x9e, 0xf4,
      0x3c, 0x71, 0x99, 0xcb, 0x29], rfl⟩
    let keccak := tableHash [([0xc4, 0x82, 0x20, 0x13, 0x08], hash)]
    (∃ node, run empty [⟨[1, 2], some [7]⟩, ⟨[1, 3], some [8]⟩, ⟨[1, 2], none⟩] = .ok node ∧
      Shaped node ∧ get node [1, 2] = .ok none ∧ get node [1, 3] = .ok (some [8]) ∧
      node.root keccak = some hash) ∧
      orderedRoot keccak [[1], [2]] = some (trieRoot keccak (ordered [[1], [2]])) := by
  intro hash keccak
  obtain ⟨-, -, runs, lists⟩ := trie_canonical keccak
  refine ⟨?_, lists [[1], [2]] (by decide) (by decide)⟩
  obtain ⟨node, ran, shaped, reads, -, -⟩ := runs {key | key.length = 2} (prefixFree_length 2)
    [⟨[1, 2], some [7]⟩, ⟨[1, 3], some [8]⟩, ⟨[1, 2], none⟩] (by simp)
  refine ⟨node, ran, shaped, reads [1, 2], reads [1, 3], ?_⟩
  cases ran
  rfl

end Apogee.Mpt
