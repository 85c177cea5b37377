import Apogee.Mpt.Order

/-! # Maps behind hashed keys

A state or storage trie holds a map under its keys' paths, which tell apart the keys that
are asked for. A finite map has one trie, and one root.
-/

namespace Apogee.Mpt

open Node Patricia

/-! ## The root of a map -/

theorem Patricia.Tabulates.unique {entries : Entries} {contents other : Contents}
    (tabulates : Tabulates entries contents) (tabulated : Tabulates entries other) :
    contents = other := by
  funext key
  refine Option.ext fun value => ?_
  rw [← tabulates.2, ← tabulated.2]

/-- A map of nonempty values has a trie. -/
theorem Patricia.Tabulates.exists_holds {entries : Entries} {contents : Contents}
    (tabulates : Tabulates entries contents) (filled : ∀ key, contents key ≠ some []) :
    ∃ trie, Holds trie contents := by
  have distinct : (entries.map Prod.fst).Nodup := by
    refine List.Nodup.map_on ?_ tabulates.1
    rintro ⟨key, value⟩ member ⟨other, value'⟩ member' same
    have held := (tabulates.2 key value).mp member
    have held' := (tabulates.2 other value').mp member'
    rw [show key = other from same, held', Option.some.injEq] at held
    rw [show key = other from same, held]
  have writes : ∀ update ∈ entries.map fun entry => Update.mk entry.1 (some entry.2),
      update.value ≠ some [] := by
    intro update member
    obtain ⟨⟨key, value⟩, listed, rfl⟩ := List.mem_map.mp member
    intro none
    exact filled key (((tabulates.2 key value).mp listed).trans none)
  obtain ⟨trie, -, holds⟩ := Holds.empty.run writes
  rw [(tabulates_written distinct).unique tabulates] at holds
  exact ⟨trie, holds⟩

open Classical in
/-- The root of a map, read off any table of its entries. -/
noncomputable def contentsRoot (keccak : List UInt8 → Word32) (contents : Contents) : Word32 :=
  if tabulated : ∃ entries, Tabulates entries contents then trieRoot keccak tabulated.choose
  else emptyTrieRoot

theorem Holds.contentsRoot {trie : Node} {contents : Contents} (holds : Holds trie contents)
    (keccak : List UInt8 → Word32) (tabulated : ∃ entries, Tabulates entries contents) :
    trie.root keccak = some (contentsRoot keccak contents) := by
  rw [Mpt.contentsRoot, dif_pos tabulated]
  exact holds.root_eq keccak tabulated.choose_spec

/-! ## Keys and their paths -/

open Classical in
/-- A map's contents under its keys' paths. -/
noncomputable def keyed {K : Type} (path : K → Path) (table : K → Option (List UInt8)) : Contents :=
  fun key => if found : ∃ k, path k = key ∧ table k ≠ none then table found.choose else none

section Keyed

variable {K : Type} {path : K → Path} {table : K → Option (List UInt8)}

theorem exists_of_keyed {key : Path} (present : keyed path table key ≠ none) :
    ∃ k, path k = key ∧ keyed path table key = table k := by
  by_cases found : ∃ k, path k = key ∧ table k ≠ none
  · refine ⟨found.choose, found.choose_spec.1, ?_⟩
    rw [keyed, dif_pos found]
  · rw [keyed, dif_neg found] at present
    exact absurd rfl present

variable {keys : Set K} (apart : Set.InjOn path keys) (inside : ∀ k, table k ≠ none → k ∈ keys)
include apart inside

theorem keyed_path {k : K} (member : k ∈ keys) : keyed path table (path k) = table k := by
  by_cases present : table k = none
  · have absent : ¬ ∃ other, path other = path k ∧ table other ≠ none := by
      rintro ⟨other, same, held⟩
      exact held (apart (inside other held) member same ▸ present)
    rw [keyed, dif_neg absent, present]
  · have found : ∃ other, path other = path k ∧ table other ≠ none := ⟨k, rfl, present⟩
    rw [keyed, dif_pos found, apart (inside _ found.choose_spec.2) member found.choose_spec.1]

/-- Updating a map updates its contents at the key's path. -/
theorem keyed_update [DecidableEq K] {k : K} (member : k ∈ keys) (value : Option (List UInt8)) :
    keyed path (Function.update table k value) =
      Function.update (keyed path table) (path k) value := by
  have inside' : ∀ other, Function.update table k value other ≠ none → other ∈ keys := by
    intro other held
    by_cases same : other = k
    · rwa [same]
    · rw [Function.update_of_ne same] at held
      exact inside other held
  funext key
  by_cases here : key = path k
  · rw [here, keyed_path apart inside' member, Function.update_self, Function.update_self]
  · rw [Function.update_of_ne here]
    by_cases listed : ∃ other ∈ keys, path other = key
    · obtain ⟨other, known, rfl⟩ := listed
      rw [keyed_path apart inside' known, keyed_path apart inside known, Function.update_of_ne]
      rintro rfl
      exact here rfl
    · have absent : ∀ {table : K → Option (List UInt8)}, (∀ k, table k ≠ none → k ∈ keys) →
          keyed path table key = none := by
        intro table inside
        by_contra present
        obtain ⟨other, same, held⟩ := exists_of_keyed present
        exact listed ⟨other, inside other (held ▸ present), same⟩
      rw [absent inside', absent inside]

/-- A finite map has a table. -/
theorem exists_tabulates (finite : {k | table k ≠ none}.Finite) :
    ∃ entries, Tabulates entries (keyed path table) := by
  refine ⟨finite.toFinset.toList.filterMap fun k => (table k).map fun value => (path k, value),
    ?_, ?_⟩
  · refine List.Nodup.filterMap ?_ (Finset.nodup_toList _)
    intro k other entry held held'
    obtain ⟨value, present, rfl⟩ := Option.map_eq_some_iff.mp held
    obtain ⟨value', present', same⟩ := Option.map_eq_some_iff.mp held'
    refine apart (inside k ?_) (inside other ?_) (congrArg Prod.fst same).symm
    · rw [present]
      exact Option.some_ne_none value
    · rw [present']
      exact Option.some_ne_none value'
  · intro key value
    rw [List.mem_filterMap]
    constructor
    · rintro ⟨k, -, held⟩
      obtain ⟨own, present, same⟩ := Option.map_eq_some_iff.mp held
      obtain ⟨rfl, rfl⟩ := Prod.mk.inj same
      have filled : table k ≠ none := by
        rw [present]
        exact Option.some_ne_none own
      rw [keyed_path apart inside (inside k filled), present]
    · intro held
      have filled : keyed path table key ≠ none := by
        rw [held]
        exact Option.some_ne_none value
      obtain ⟨k, rfl, same⟩ := exists_of_keyed filled
      refine ⟨k, ?_, ?_⟩
      · rw [Finset.mem_toList, Set.Finite.mem_toFinset, Set.mem_ofPred_eq, ← same]
        exact filled
      · rw [← same, held]
        rfl

end Keyed

/-! ## Assignments -/

/-- A table after assignments in a row. -/
def assigned {K V : Type} [DecidableEq K] (table : K → V) (entries : List (K × V)) : K → V :=
  entries.foldl (fun table entry => Function.update table entry.1 entry.2) table

section Assigned

variable {K V : Type} [DecidableEq K] {table : K → V} {entries : List (K × V)}

theorem assigned_cons (entry : K × V) :
    assigned table (entry :: entries) = assigned (Function.update table entry.1 entry.2) entries := rfl

theorem assigned_append (others : List (K × V)) :
    assigned table (entries ++ others) = assigned (assigned table entries) others :=
  List.foldl_append

theorem assigned_of_notMem {k : K} (absent : k ∉ entries.map Prod.fst) :
    assigned table entries k = table k := by
  induction entries generalizing table with
  | nil => rfl
  | cons entry entries ih =>
    rw [List.map_cons, List.mem_cons, not_or] at absent
    rw [assigned_cons, ih absent.2, Function.update_of_ne absent.1]

/-- Assignments to distinct keys are one table in every order. -/
theorem assigned_perm {others : List (K × V)} (same : entries.Perm others)
    (distinct : (entries.map Prod.fst).Nodup) : assigned table entries = assigned table others := by
  refine same.foldl_eq' ?_ table
  intro first member second member' table
  by_cases one : first.1 = second.1
  · rw [List.inj_on_of_nodup_map distinct member member' one]
  · exact Function.update_comm one _ _ _

/-- A function of a table's values is assigned the same function's. -/
theorem assigned_comp {W : Type} (f : V → W) : (fun k => f (assigned table entries k)) =
      assigned (fun k => f (table k)) (entries.map fun entry => (entry.1, f entry.2)) := by
  induction entries generalizing table with
  | nil => rfl
  | cons entry entries ih =>
    rw [assigned_cons, List.map_cons, assigned_cons, ih]
    congr 1
    exact Function.comp_update f table entry.1 entry.2

end Assigned

section Assign

variable {K : Type} [DecidableEq K] {path : K → Path} {table : K → Option (List UInt8)}
  {entries : List (K × Option (List UInt8))}

/-- The updates of a trie that assign a table's keys. -/
def assignments (path : K → Path) (entries : List (K × Option (List UInt8))) : List Update :=
  entries.map fun entry => ⟨path entry.1, entry.2⟩

theorem assigned_finite (finite : {k | table k ≠ none}.Finite) :
    {k | assigned table entries k ≠ none}.Finite := by
  refine (finite.union (List.finite_toSet (entries.map Prod.fst))).subset ?_
  intro k held
  by_cases listed : k ∈ entries.map Prod.fst
  · exact Or.inr listed
  · rw [Set.mem_ofPred_eq, assigned_of_notMem listed] at held
    exact Or.inl held

/-- Assigned keys stay among the known. -/
theorem assigned_inside {keys : Set K} (inside : ∀ k, table k ≠ none → k ∈ keys)
    (known : ∀ entry ∈ entries, entry.1 ∈ keys) (k : K) (held : assigned table entries k ≠ none) :
    k ∈ keys := by
  by_cases listed : k ∈ entries.map Prod.fst
  · obtain ⟨entry, member, rfl⟩ := List.mem_map.mp listed
    exact known entry member
  · rw [assigned_of_notMem listed] at held
    exact inside k held

/-- Writing a map's trie assigns the map. -/
theorem written_keyed {keys : Set K} (apart : Set.InjOn path keys)
    (inside : ∀ k, table k ≠ none → k ∈ keys) (known : ∀ entry ∈ entries, entry.1 ∈ keys) :
    written (keyed path table) (assignments path entries) = keyed path (assigned table entries) := by
  induction entries generalizing table with
  | nil => rfl
  | cons entry entries ih =>
    obtain ⟨here, later⟩ := List.forall_mem_cons.mp known
    have step := assigned_inside inside (List.forall_mem_singleton.mpr here)
    refine Eq.trans ?_ (ih step later)
    exact congrArg (written · (assignments path entries)) (keyed_update apart inside here entry.2).symm

end Assign

end Apogee.Mpt
