import Apogee.Mpt.Node

/-! # What a trie reads

A canonical node is the only one that reads as it does: its branches have two
occupied slots at least, its extensions have a path and stand above a branch or a
hash, its leaves have a value. What a hash stands for is not constrained.
-/

namespace Apogee.Mpt

open Node

/-- What every path reads as. -/
abbrev Reads := Path → Except MptError (Option (List UInt8))

/-- A node that paths part at, as far as it is known. -/
def Node.Forks : Node → Prop
  | branch _ _ => True
  | blinded _ => True
  | _ => False

/-- How many of a branch's slots are occupied, its own value's included. -/
def occupied (children : Nibble → Node) (value : List UInt8) : ℕ :=
  (live children).length + if value = [] then 0 else 1

/-- The one shape of a trie's contents. -/
inductive Canonical : Node → Prop
  | empty : Canonical empty
  | leaf {path : Path} {value : List UInt8} (some : value ≠ []) : Canonical (leaf path value)
  | ext {path : Path} {child : Node} (some : path ≠ []) (below : Canonical child)
      (forks : child.Forks) : Canonical (ext path child)
  | branch {children : Nibble → Node} {value : List UInt8} (below : ∀ i, Canonical (children i))
      (two : 2 ≤ occupied children value) : Canonical (branch children value)
  | blinded (hash : Word32) : Canonical (blinded hash)

/-! ## Occupied slots -/

theorem isEmpty_iff {node : Node} : node.isEmpty = true ↔ node = empty := by
  cases node <;> simp [isEmpty]

theorem mem_live {children : Nibble → Node} {i : Nibble} : i ∈ live children ↔ children i ≠ empty := by
  rw [live, List.mem_filter, Bool.not_eq_true', ← Bool.not_eq_true, isEmpty_iff]
  exact and_iff_right (List.mem_finRange i)

theorem live_nodup (children : Nibble → Node) : (live children).Nodup :=
  (List.nodup_finRange 16).filter _

/-- Two slots are occupied when, whichever slot is left out, another is. -/
theorem two_le_occupied {children : Nibble → Node} {value : List UInt8} :
    2 ≤ occupied children value ↔ (∃ i, children i ≠ empty) ∧
      ∀ i, value ≠ [] ∨ ∃ j, j ≠ i ∧ children j ≠ empty := by
  have members := fun i => @mem_live children i
  have distinct := live_nodup children
  rw [occupied]
  cases slots : live children with
  | nil =>
    rw [slots] at members
    constructor
    · intro two
      by_cases none : value = [] <;> simp [none] at two
    · rintro ⟨⟨i, filled⟩, -⟩
      exact absurd ((members i).mpr filled) List.not_mem_nil
  | cons first others =>
    rw [slots] at members distinct
    have filled : children first ≠ empty := (members first).mp List.mem_cons_self
    by_cases none : value = []
    · rw [if_pos none, add_zero, List.length_cons]
      cases others with
      | nil =>
        constructor
        · intro two
          exact absurd two (by decide)
        · rintro ⟨-, each⟩
          rcases each first with some | ⟨j, other, present⟩
          · exact absurd none some
          · exact absurd (List.mem_singleton.mp ((members j).mpr present)) other
      | cons second others =>
        refine iff_of_true (by simp) ⟨⟨first, filled⟩, fun i => Or.inr ?_⟩
        have apart : second ≠ first := by
          intro same
          rw [same] at distinct
          exact (List.nodup_cons.mp distinct).1 List.mem_cons_self
        by_cases here : first = i
        · exact ⟨second, here ▸ apart, (members second).mp (by simp)⟩
        · exact ⟨first, here, filled⟩
    · rw [if_neg none, List.length_cons]
      exact iff_of_true (by omega) ⟨⟨first, filled⟩, fun i => Or.inl none⟩

/-! ## Reading each node -/

section Get

variable {path key : Path} {child : Node} {children : Nibble → Node} {value : List UInt8}

@[simp]
theorem get_ext_append (path key : Path) (child : Node) :
    get (ext path child) (path ++ key) = get child key := by
  rw [get, if_pos (List.prefix_append path key), List.drop_left]

theorem get_ext_of_apart (apart : ¬ path <+: key) : get (ext path child) key = .ok none := by
  rw [get, if_neg apart]

/-- An extension reads something only below its path. -/
theorem exists_of_get_ext (present : get (ext path child) key ≠ .ok none) :
    ∃ rest, key = path ++ rest ∧ get child rest ≠ .ok none := by
  by_cases below : path <+: key
  · obtain ⟨rest, rfl⟩ := below
    rw [get_ext_append] at present
    exact ⟨rest, rfl, present⟩
  · exact absurd (get_ext_of_apart below) present

theorem get_leaf_ne_none (present : get (leaf path value) key ≠ .ok none) : key = path := by
  by_contra apart
  exact present (congrArg Except.ok (if_neg (Ne.symm apart)))

theorem get_leaf_self : get (leaf path value) path = .ok (some value) :=
  congrArg Except.ok (if_pos rfl)

theorem get_branch_nil (some : value ≠ []) :
    get (branch children value) [] = .ok (.some value) := congrArg Except.ok (if_neg some)

end Get

/-- Whatever the first nibble of a path, or its absence, something is read elsewhere. -/
def Spread (reads : Reads) : Prop :=
  ∀ head : Option Nibble, ∃ key, reads key ≠ .ok none ∧ key.head? ≠ head

theorem Spread.two {reads : Reads} (spread : Spread reads) :
    ∃ first second, reads first ≠ .ok none ∧ reads second ≠ .ok none ∧ first ≠ second := by
  obtain ⟨first, present, -⟩ := spread none
  obtain ⟨second, other, apart⟩ := spread first.head?
  refine ⟨first, second, present, other, ?_⟩
  intro same
  exact apart (congrArg List.head? same.symm)

namespace Canonical

variable {node other : Node}

/-- A node that is not the empty one reads something, whatever the head when it forks. -/
theorem reads_some (canonical : Canonical node) :
    (node ≠ .empty → ∃ key, get node key ≠ .ok none) ∧ (node.Forks → Spread (get node)) := by
  induction canonical with
  | empty => exact ⟨fun absent => absurd rfl absent, False.elim⟩
  | leaf some => exact ⟨fun _ => ⟨_, by rw [get_leaf_self]; exact nofun⟩, False.elim⟩
  | @ext path child some below forks ih =>
    refine ⟨fun _ => ?_, False.elim⟩
    obtain ⟨key, present, -⟩ := ih.2 forks none
    exact ⟨path ++ key, by rwa [get_ext_append]⟩
  | @branch children value below two ih =>
    have spread : Spread (get (.branch children value)) := by
      obtain ⟨⟨i, filled⟩, each⟩ := two_le_occupied.mp two
      intro head
      cases head with
      | none =>
        obtain ⟨key, present⟩ := (ih i).1 filled
        exact ⟨i :: key, present, nofun⟩
      | some j =>
        rcases each j with own | ⟨k, apart, filled⟩
        · exact ⟨[], by rw [get_branch_nil own]; exact nofun, nofun⟩
        · obtain ⟨key, present⟩ := (ih k).1 filled
          refine ⟨k :: key, present, ?_⟩
          intro same
          exact apart (Option.some.inj same)
    refine ⟨fun _ => ?_, fun _ => spread⟩
    obtain ⟨key, present, -⟩ := spread none
    exact ⟨key, present⟩
  | blinded hash =>
    refine ⟨fun _ => ⟨[], nofun⟩, fun _ head => ?_⟩
    cases head with
    | none => exact ⟨[0], nofun, nofun⟩
    | some i => exact ⟨[], nofun, nofun⟩

theorem exists_get (canonical : Canonical node) (filled : node ≠ .empty) :
    ∃ key, get node key ≠ .ok none := canonical.reads_some.1 filled

theorem spread (canonical : Canonical node) (forks : node.Forks) : Spread (get node) :=
  canonical.reads_some.2 forks

/-- A leaf and a node that reads two paths read differently. -/
theorem leaf_ne_spread {path : Path} {value : List UInt8} {reads : Reads} (spread : Spread reads)
    (lift : Path → Path) (injective : Function.Injective lift)
    (same : ∀ key, reads key = get (.leaf path value) (lift key)) : False := by
  obtain ⟨first, second, present, other, apart⟩ := spread.two
  rw [same] at present other
  exact apart (injective ((get_leaf_ne_none present).trans (get_leaf_ne_none other).symm))

/-- An extension's paths all begin with its path. -/
theorem not_spread_ext {path : Path} {child : Node} (some : path ≠ []) :
    ¬ Spread (get (.ext path child)) := by
  intro spread
  obtain ⟨key, present, apart⟩ := spread path.head?
  obtain ⟨rest, rfl, -⟩ := exists_of_get_ext present
  exact apart (List.head?_append_of_ne_nil path some)

/-- An extension's path is the longest its readings share. -/
theorem prefix_of_ext {path longer : Path} {child below : Node} (spread : Spread (get child))
    (same : get (.ext path child) = get (.ext longer below)) : longer <+: path := by
  have shared : ∀ key, get child key ≠ .ok none → longer <+: path ++ key := by
    intro key present
    rw [← get_ext_append path, same] at present
    obtain ⟨rest, whole, -⟩ := exists_of_get_ext present
    exact ⟨rest, whole.symm⟩
  obtain ⟨key, present, -⟩ := spread none
  rcases List.prefix_or_prefix_of_prefix (shared key present) (List.prefix_append path key) with
    shorter | ⟨further, rfl⟩
  · exact shorter
  · -- every reading of the child begins with what is left over, so nothing is left over
    obtain ⟨key, present, apart⟩ := spread further.head?
    obtain ⟨rest, whole⟩ := shared key present
    rw [List.append_assoc, List.append_cancel_left_eq] at whole
    cases further with
    | nil => rw [List.append_nil]
    | cons nibble further =>
      rw [← whole] at apart
      exact absurd rfl apart

/-- Two canonical nodes that read alike are one. -/
theorem eq_of_get (canonical : Canonical node) (right : Canonical other)
    (same : get node = get other) : node = other := by
  have agrees : ∀ key, get node key = get other key := congrFun same
  induction canonical generalizing other with
  | empty =>
    by_contra filled
    obtain ⟨key, present⟩ := right.exists_get (Ne.symm filled)
    exact present (agrees key).symm
  | @leaf path value some =>
    cases right with
    | empty => exact absurd (get_leaf_self.symm.trans (agrees path)) nofun
    | @leaf path' value' _ =>
      have here : get (.leaf path' value') path = .ok (.some value) :=
        (agrees path).symm.trans get_leaf_self
      have paths : path = path' := get_leaf_ne_none (by rw [here]; exact nofun)
      subst paths
      rw [get_leaf_self] at here
      cases here
      rfl
    | @ext path' child _ below forks =>
      exact (leaf_ne_spread (below.spread forks) (path' ++ ·) (List.append_right_injective path')
        fun key => by rw [agrees, get_ext_append]).elim
    | branch below two =>
      exact (leaf_ne_spread ((Canonical.branch below two).spread trivial) id Function.injective_id
        fun key => (agrees key).symm).elim
    | blinded => exact absurd (agrees []) nofun
  | @ext path child some below forks ih =>
    cases right with
    | empty =>
      obtain ⟨key, present⟩ := (Canonical.ext some below forks).exists_get nofun
      exact absurd (agrees key) present
    | leaf =>
      exact (leaf_ne_spread (below.spread forks) (path ++ ·) (List.append_right_injective path)
        fun key => by rw [← agrees, get_ext_append]).elim
    | @ext path' child' some' below' forks' =>
      have paths : path = path' := by
        have one := prefix_of_ext (below.spread forks) same
        exact ((prefix_of_ext (below'.spread forks') same.symm).eq_of_length
          (le_antisymm (prefix_of_ext (below'.spread forks') same.symm).length_le one.length_le))
      subst paths
      have children : get child = get child' := by
        funext key
        rw [← get_ext_append path, agrees, get_ext_append]
      rw [ih below' children (congrFun children)]
    | branch below' two =>
      exact absurd (same ▸ (Canonical.branch below' two).spread trivial) (not_spread_ext some)
    | blinded =>
      have here := agrees []
      rw [get_ext_of_apart (fun below => some (List.prefix_nil.mp below))] at here
      exact absurd here nofun
  | @branch children value below two ih =>
    have spread := (Canonical.branch below two).spread trivial
    cases right with
    | empty =>
      obtain ⟨key, present, -⟩ := spread none
      exact absurd (agrees key) present
    | leaf => exact (leaf_ne_spread spread id Function.injective_id agrees).elim
    | ext some' => exact absurd (same ▸ spread) (not_spread_ext some')
    | @branch children' value' below' two' =>
      have slots : children = children' := by
        funext i
        exact ih i (below' i) (funext fun key => agrees (i :: key)) fun key => agrees (i :: key)
      have values : value = value' := by
        have here := Except.ok.inj (agrees [])
        by_cases none : value = [] <;> by_cases none' : value' = [] <;>
          simp_all
      rw [slots, values]
    | blinded => exact absurd (agrees []) nofun
  | blinded hash =>
    have here := agrees []
    cases right with
    | empty => exact absurd here nofun
    | leaf => exact absurd here nofun
    | ext some' =>
      rw [get_ext_of_apart (fun below => some' (List.prefix_nil.mp below))] at here
      exact absurd here nofun
    | branch => exact absurd here nofun
    | blinded => cases here; rfl

end Canonical

end Apogee.Mpt
