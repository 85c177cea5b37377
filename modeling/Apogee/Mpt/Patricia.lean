import Apogee.Mpt.Remove

/-! # The Merkle-Patricia root

The root of a finite map of keys, from its entries alone: one entry is a leaf, several
that share a prefix are an extension, several that part at once are a branch. A
canonical trie without hashes encodes the map that it reads as.
-/

namespace Apogee.Mpt

open Node Rlp

/-- What a key holds. -/
abbrev Contents := Path → Option (List UInt8)

abbrev Entries := List (Path × List UInt8)

namespace Patricia

/-! ## The definition -/

/-- A path under its flag, filled to an even number of nibbles. -/
def hexPrefix (path : Path) (leaf : Bool) : List UInt8 :=
  if path.length % 2 = 1 then pairs (flag leaf true :: path)
  else pairs (flag leaf false :: lowNibble 0 :: path)

/-- The entries below a path, with the path taken off. -/
def under (path : Path) (entries : Entries) : Entries :=
  entries.filterMap fun entry =>
    if path <+: entry.1 then some (entry.1.drop path.length, entry.2) else none

/-- The longest path that all keys begin with. -/
def shared (entries : Entries) : Path :=
  match entries with
  | [] => []
  | (key, _) :: _ =>
    key.take (Nat.findGreatest (fun n => ∀ entry ∈ entries, key.take n <+: entry.1) key.length)

/-- How a node is named in the one above it. -/
def naming (keccak : List UInt8 → Word32) (bytes : List UInt8) : List UInt8 :=
  if bytes.length < 32 then bytes else encodeBytes (keccak bytes).1

/-- A number that falls when entries are taken below a path. -/
def weight (entries : Entries) : ℕ := (entries.map fun entry => entry.1.length + 1).sum

theorem weight_under_le (path : Path) (entries : Entries) : weight (under path entries) ≤ weight entries := by
  induction entries with
  | nil => exact le_rfl
  | cons entry entries ih =>
    unfold weight under at ih ⊢
    rw [List.filterMap_cons, List.map_cons, List.sum_cons]
    by_cases inside : path <+: entry.1
    · rw [if_pos inside]
      simp only [List.map_cons, List.sum_cons, List.length_drop]
      omega
    · rw [if_neg inside]
      exact ih.trans (Nat.le_add_left _ _)

theorem weight_under_lt {path : Path} (some : path ≠ []) {entries : Entries} (present : entries ≠ []) :
    weight (under path entries) < weight entries := by
  cases entries with
  | nil => exact absurd rfl present
  | cons entry entries =>
    have rest := weight_under_le path entries
    have long := List.length_pos_iff.mpr some
    unfold weight under at rest ⊢
    rw [List.filterMap_cons, List.map_cons, List.sum_cons]
    by_cases inside : path <+: entry.1
    · have measure := inside.length_le
      rw [if_pos inside]
      simp only [List.map_cons, List.sum_cons, List.length_drop]
      omega
    · rw [if_neg inside]
      dsimp only
      omega

/-- The bytes of the node that holds some entries. -/
def composition (keccak : List UInt8 → Word32) : Entries → List UInt8
  | [] => encodeBytes []
  | [(key, value)] => encodeList (encodeBytes (hexPrefix key true) ++ encodeBytes value)
  | first :: second :: others =>
    let entries := first :: second :: others
    if shared entries ≠ [] then
      encodeList (encodeBytes (hexPrefix (shared entries) false) ++
        naming keccak (composition keccak (under (shared entries) entries)))
    else
      encodeList (((List.finRange 16).flatMap fun i =>
        naming keccak (composition keccak (under [i] entries))) ++
        encodeBytes ((entries.lookup []).getD []))
termination_by entries => weight entries
decreasing_by
  · exact weight_under_lt (by assumption) (List.cons_ne_nil _ _)
  · exact weight_under_lt (List.cons_ne_nil _ _) (List.cons_ne_nil _ _)

/-- The Merkle-Patricia root of some entries. -/
def trieRoot (keccak : List UInt8 → Word32) (entries : Entries) : Word32 :=
  keccak (composition keccak entries)

/-! ## Entries of a map -/

/-- The entries are the map's, each once. -/
def Tabulates (entries : Entries) (contents : Contents) : Prop :=
  entries.Nodup ∧ ∀ key value, (key, value) ∈ entries ↔ contents key = some value

variable {entries : Entries} {contents : Contents}

theorem mem_under {path key : Path} {value : List UInt8} :
    (key, value) ∈ under path entries ↔ (path ++ key, value) ∈ entries := by
  rw [under, List.mem_filterMap]
  constructor
  · rintro ⟨⟨whole, held⟩, member, same⟩
    obtain ⟨⟨rest, rfl⟩, same⟩ := Option.ite_none_right_eq_some.mp same
    rw [List.drop_left] at same
    cases same
    exact member
  · intro member
    refine ⟨_, member, ?_⟩
    rw [if_pos (List.prefix_append path key), List.drop_left]

theorem Tabulates.under (tabulates : Tabulates entries contents) (path : Path) :
    Tabulates (under path entries) fun key => contents (path ++ key) := by
  obtain ⟨once, members⟩ := tabulates
  refine ⟨?_, fun key value => by rw [mem_under, members]⟩
  refine List.Nodup.filterMap ?_ once
  rintro ⟨key, value⟩ ⟨key', value'⟩ ⟨rest, held⟩ here there
  obtain ⟨⟨tail, rfl⟩, same⟩ := Option.ite_none_right_eq_some.mp here
  obtain ⟨⟨tail', rfl⟩, same'⟩ := Option.ite_none_right_eq_some.mp there
  rw [List.drop_left] at same same'
  cases same
  cases same'
  rfl

theorem Tabulates.lookup (tabulates : Tabulates entries contents) (key : Path) :
    entries.lookup key = contents key := by
  obtain ⟨-, members⟩ := tabulates
  cases found : entries.lookup key with
  | none =>
    rw [List.lookup_eq_none_iff] at found
    rw [eq_comm, Option.eq_none_iff_forall_ne_some]
    intro value held
    exact absurd (found _ ((members key value).mpr held)) (by simp)
  | some value =>
    obtain ⟨before, after, whole, -⟩ := List.lookup_eq_some_iff.mp found
    refine ((members key value).mp ?_).symm
    rw [whole]
    exact List.mem_append_right _ List.mem_cons_self

/-- A path is the longest shared one when every key begins with it and no longer one will do. -/
theorem shared_eq {path : Path} (present : entries ≠ []) (all : ∀ entry ∈ entries, path <+: entry.1)
    (most : ∀ i, ∃ entry ∈ entries, ¬ path ++ [i] <+: entry.1) : shared entries = path := by
  cases entries with
  | nil => exact absurd rfl present
  | cons first others =>
    obtain ⟨key, value⟩ := first
    obtain ⟨rest, same⟩ := all _ List.mem_cons_self
    have here : key = path ++ rest := same.symm
    subst here
    have count : Nat.findGreatest (fun n => ∀ entry ∈ (path ++ rest, value) :: others,
        (path ++ rest).take n <+: entry.1) (path ++ rest).length = path.length := by
      apply Nat.findGreatest_eq_iff.mpr
      refine ⟨by simp, fun _ => by rwa [List.take_left], ?_⟩
      intro n longer _ every
      obtain ⟨i, tail, rfl⟩ : ∃ i tail, rest = i :: tail := by
        cases rest with
        | nil => rw [List.append_nil] at *; omega
        | cons i tail => exact ⟨i, tail, rfl⟩
      obtain ⟨entry, member, apart⟩ := most i
      refine apart (List.IsPrefix.trans ?_ (every entry member))
      rw [List.take_append, List.take_of_length_le longer.le]
      refine (List.prefix_append_right_inj path).mpr ?_
      rw [show n - path.length = n - path.length - 1 + 1 by omega, List.take_succ_cons]
      exact ⟨_, rfl⟩
    rw [shared, count, List.take_left]

/-! ## A trie encodes its map -/

theorem hpEncode_eq (path : Path) (leaf : Bool) : hpEncode path leaf = hexPrefix path leaf := by
  unfold hpEncode hexPrefix
  by_cases odd : path.length % 2 = 1
  · rw [if_pos odd, if_pos odd]
    cases path with
    | nil => exact absurd odd (by decide)
    | cons first rest => rfl
  · rw [if_neg odd, if_neg odd]
    rfl

variable (keccak : List UInt8 → Word32)

theorem composition_two (two : 2 ≤ entries.length) : composition keccak entries =
      if shared entries ≠ [] then
        encodeList (encodeBytes (hexPrefix (shared entries) false) ++
          naming keccak (composition keccak (Patricia.under (shared entries) entries)))
      else
        encodeList (((List.finRange 16).flatMap fun i =>
          naming keccak (composition keccak (Patricia.under [i] entries))) ++
          encodeBytes ((entries.lookup []).getD [])) := by
  cases entries with
  | nil => exact absurd two (by decide)
  | cons first others =>
    cases others with
    | nil => exact absurd two (by simp)
    | cons second others =>
      rw [composition]

theorem named_eq {node : Node} {bytes : List UInt8} (seen : ∀ hash, node ≠ blinded hash) :
    node.named keccak (some bytes) = some (naming keccak bytes) := by
  cases node with
  | blinded hash => exact absurd rfl (seen hash)
  | _ => rfl

section Encode

variable {node : Node} (reads : ∀ key, get node key = .ok (contents key))
  (tabulates : Tabulates entries contents)
include reads tabulates

/-- What is read is listed. -/
theorem listed {key : Path} (present : get node key ≠ .ok none) : ∃ value, (key, value) ∈ entries := by
  rw [reads] at present
  obtain ⟨value, held⟩ := Option.ne_none_iff_exists'.mp fun none => present (congrArg Except.ok none)
  exact ⟨value, (tabulates.2 key value).mpr held⟩

theorem read_of_mem {key : Path} {value : List UInt8} (member : (key, value) ∈ entries) :
    get node key = .ok (some value) := by
  rw [reads, (tabulates.2 key value).mp member]

/-- Reads apart are two entries at least. -/
theorem two_of_spread (spread : Spread (get node)) : 2 ≤ entries.length := by
  obtain ⟨first, second, present, other, apart⟩ := spread.two
  obtain ⟨value, member⟩ := listed reads tabulates present
  obtain ⟨value', member'⟩ := listed reads tabulates other
  cases entries with
  | nil => exact absurd member List.not_mem_nil
  | cons entry others =>
    cases others with
    | nil =>
      rw [List.mem_singleton] at member member'
      exact absurd (congrArg Prod.fst (member.trans member'.symm)) apart
    | cons _ _ => exact Nat.le_add_left 2 _

end Encode

/-- A canonical trie that no hash stands in encodes what it reads as. -/
theorem encode_eq {node : Node} (canonical : Canonical node)
    (reads : ∀ key, get node key = .ok (contents key)) (tabulates : Tabulates entries contents) :
    node.encode keccak = some (composition keccak entries) := by
  induction canonical generalizing entries contents with
  | empty =>
    have none : entries = [] := by
      refine List.eq_nil_iff_forall_not_mem.mpr ?_
      rintro ⟨key, value⟩ member
      exact absurd (read_of_mem reads tabulates member) nofun
    rw [none, composition]
    rfl
  | @leaf path value some =>
    have one : entries = [(path, value)] := by
      have distinct := List.nodup_singleton (path, value)
      refine List.perm_singleton.mp ((List.perm_ext_iff_of_nodup tabulates.1 distinct).mpr ?_)
      rintro ⟨key, held⟩
      rw [tabulates.2, ← Except.ok.inj (reads key), Option.ite_none_right_eq_some,
        List.mem_singleton, Prod.mk.injEq, Option.some.injEq, eq_comm, @eq_comm _ held]
    rw [one, composition, encode, hpEncode_eq]
  | @ext path child some below forks ih =>
    have within : ∀ key, get child key = .ok (contents (path ++ key)) := by
      intro key
      rw [← reads, get_ext_append]
    have two : 2 ≤ entries.length :=
      (two_of_spread within (tabulates.under path) (below.spread forks)).trans
        (List.length_filterMap_le _ _)
    have path_eq : shared entries = path := by
      refine shared_eq ?_ ?_ ?_
      · rintro rfl
        exact absurd two (by decide)
      · rintro ⟨key, value⟩ member
        have present : get (.ext path child) key ≠ .ok none := by
          rw [read_of_mem reads tabulates member]
          exact nofun
        obtain ⟨rest, whole, -⟩ := exists_of_get_ext present
        exact ⟨rest, whole.symm⟩
      · intro i
        obtain ⟨key, present, apart⟩ := below.spread forks (Option.some i)
        rw [← get_ext_append path] at present
        obtain ⟨value, member⟩ := listed reads tabulates present
        refine ⟨_, member, ?_⟩
        rw [List.prefix_append_right_inj]
        rintro ⟨rest, rfl⟩
        exact apart rfl
    have seen : ∀ hash, child ≠ .blinded hash := by
      rintro hash rfl
      exact absurd (within []) nofun
    rw [composition_two keccak two, path_eq, if_pos some, encode, if_neg some,
      ih within (tabulates.under path), named_eq keccak seen, Option.map_some, hpEncode_eq]
  | @branch children value below two ih =>
    have spread : Spread (get (.branch children value)) := (Canonical.branch below two).spread trivial
    have within : ∀ i key, get (children i) key = .ok (contents ([i] ++ key)) :=
      fun i key => reads (i :: key)
    have twoEntries := two_of_spread reads tabulates spread
    have path_eq : shared entries = [] := by
      refine shared_eq ?_ (fun _ _ => List.nil_prefix) ?_
      · rintro rfl
        exact absurd twoEntries (by decide)
      · intro i
        obtain ⟨key, present, apart⟩ := spread (some i)
        obtain ⟨value, member⟩ := listed reads tabulates present
        refine ⟨_, member, ?_⟩
        rintro ⟨rest, rfl⟩
        exact apart rfl
    have names : (fun i => (children i).named keccak ((children i).encode keccak)) =
        fun i => some (naming keccak (composition keccak (under [i] entries))) := by
      funext i
      rw [ih i (within i) (tabulates.under [i]), named_eq]
      intro hash blind
      have top := within i []
      rw [blind] at top
      exact absurd top nofun
    have own : (contents []).getD [] = value := by
      have top := Except.ok.inj (reads [])
      by_cases none : value = []
      · rw [← top, if_pos none, none]
        rfl
      · rw [← top, if_neg none]
        rfl
    rw [composition_two keccak twoEntries, path_eq, if_neg (not_not.mpr rfl), encode, names,
      tabulates.lookup, own]
    rw [show (fun i => some (naming keccak (composition keccak (under [i] entries)))) =
      fun i => pure (naming keccak (composition keccak (under [i] entries))) from rfl, List.mapM_pure,
      List.flatMap_def]
    rfl
  | blinded hash => exact absurd (reads []) nofun

/-- A canonical trie without hashes has the root of what it reads as. -/
theorem root_eq {node : Node} (canonical : Canonical node)
    (reads : ∀ key, get node key = .ok (contents key)) (tabulates : Tabulates entries contents) :
    node.root keccak = some (trieRoot keccak entries) := by
  have encoded := encode_eq keccak canonical reads tabulates
  cases node with
  | blinded hash => exact absurd (reads []) nofun
  | _ => exact congrArg (Option.map keccak) encoded

end Patricia

end Apogee.Mpt
