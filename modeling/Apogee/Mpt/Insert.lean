import Apogee.Mpt.Reads

/-! # Inserting

An insertion that reaches no hash changes what its own path reads and nothing else,
and leaves a canonical node canonical; one that reaches a hash is refused by it.
-/

namespace Apogee.Mpt

open Node

/-! ## Reads below a path -/

/-- The reads of nothing. -/
def nothing : Reads := fun _ => .ok none

/-- Reads moved below a path. -/
def shift (path : Path) (reads : Reads) : Reads :=
  fun key => if path <+: key then reads (key.drop path.length) else .ok none

section Shift

variable (path key : Path) (reads : Reads)

@[simp]
theorem shift_append : shift path reads (path ++ key) = reads key := by
  rw [shift, if_pos (List.prefix_append path key), List.drop_left]

theorem shift_of_apart {path key : Path} (apart : ¬ path <+: key) :
    shift path reads key = .ok none := if_neg apart

@[simp]
theorem shift_nil : shift [] reads = reads := by
  funext key
  exact shift_append [] key reads

@[simp]
theorem shift_nothing : shift path nothing = nothing := by
  funext key
  exact ite_self _

theorem shift_shift (below : Path) : shift path (shift below reads) = shift (path ++ below) reads := by
  funext key
  by_cases first : path <+: key
  · obtain ⟨rest, rfl⟩ := first
    rw [shift_append]
    by_cases second : below <+: rest
    · obtain ⟨rest, rfl⟩ := second
      rw [shift_append, ← List.append_assoc, shift_append]
    · rw [shift_of_apart _ second, shift_of_apart]
      rwa [List.prefix_append_right_inj]
  · rw [shift_of_apart _ first, shift_of_apart]
    intro whole
    exact first ((List.prefix_append path below).trans whole)

theorem shift_update (found : Except MptError (Option (List UInt8))) :
    shift path (Function.update reads key found) =
      Function.update (shift path reads) (path ++ key) found := by
  funext whole
  by_cases below : path <+: whole
  · obtain ⟨rest, rfl⟩ := below
    rw [shift_append]
    by_cases here : rest = key
    · rw [here, Function.update_self, Function.update_self]
    · rw [Function.update_of_ne here, Function.update_of_ne, shift_append]
      intro same
      exact here (List.append_cancel_left same)
  · rw [shift_of_apart _ below, Function.update_of_ne, shift_of_apart _ below]
    rintro rfl
    exact below (List.prefix_append path key)

end Shift

theorem get_empty : get empty = nothing := rfl

theorem get_ext (path : Path) (child : Node) : get (ext path child) = shift path (get child) := by
  funext key
  rw [get, shift]

theorem get_wrap (path : Path) (node : Node) : get (wrap path node) = shift path (get node) := by
  by_cases none : path = []
  · rw [none, wrap, if_pos rfl, shift_nil]
  · rw [wrap, if_neg none, get_ext]

theorem get_leaf (path : Path) (value : List UInt8) :
    get (leaf path value) = Function.update nothing path (.ok (some value)) := by
  funext key
  by_cases here : key = path
  · rw [here, get_leaf_self, Function.update_self]
  · rw [Function.update_of_ne here]
    exact congrArg Except.ok (if_neg (Ne.symm here))

section Branch

variable (children : Nibble → Node) (value : List UInt8) (nibble : Nibble)

/-- A child's reads are its branch's below its nibble. -/
theorem get_branch_update {node : Node} {key : Path} {found : Except MptError (Option (List UInt8))}
    (changed : get node = Function.update (get (children nibble)) key found) :
    get (branch (Function.update children nibble node) value) =
      Function.update (get (branch children value)) (nibble :: key) found := by
  funext whole
  cases whole with
  | nil => rw [Function.update_of_ne (List.cons_ne_nil _ _).symm, get, get]
  | cons i rest =>
    rw [get]
    by_cases child : i = nibble
    · subst child
      rw [Function.update_self, changed]
      by_cases here : rest = key
      · rw [here, Function.update_self, Function.update_self]
      · rw [Function.update_of_ne here, Function.update_of_ne, get]
        intro same
        exact here (List.cons.inj same).2
    · rw [Function.update_of_ne child, Function.update_of_ne, get]
      intro same
      exact child (List.cons.inj same).1

theorem get_branch_value (some : value ≠ []) (own : List UInt8) : get (branch children value) =
      Function.update (get (branch children own)) [] (.ok (.some value)) := by
  funext whole
  cases whole with
  | nil => rw [get_branch_nil some, Function.update_self]
  | cons i rest => rw [Function.update_of_ne (List.cons_ne_nil i rest), get, get]

/-- A branch that reads apart has two occupied slots. -/
theorem two_of_spread {children : Nibble → Node} {value : List UInt8}
    (spread : Spread (get (branch children value))) : 2 ≤ occupied children value := by
  have filled : ∀ {i : Nibble} {rest : Path},
      get (branch children value) (i :: rest) ≠ .ok none → children i ≠ empty := by
    intro i rest present absent
    rw [get, absent] at present
    exact present rfl
  refine two_le_occupied.mpr ⟨?_, fun i => ?_⟩
  · obtain ⟨key, present, apart⟩ := spread none
    cases key with
    | nil => exact absurd rfl apart
    | cons i rest => exact ⟨i, filled present⟩
  · obtain ⟨key, present, apart⟩ := spread (some i)
    cases key with
    | nil =>
      left
      intro none
      exact present (congrArg Except.ok (if_pos none))
    | cons j rest =>
      right
      exact ⟨j, fun same => apart (congrArg some same), filled present⟩

end Branch

theorem spread_of_two {reads : Reads} {first second : Path} (present : reads first ≠ .ok none)
    (other : reads second ≠ .ok none) (apart : first.head? ≠ second.head?) : Spread reads := by
  intro head
  by_cases here : first.head? = head
  · exact ⟨second, other, fun same => apart (here.trans same.symm)⟩
  · exact ⟨first, present, here⟩

/-- Reading something more keeps a node's reads apart. -/
theorem Spread.update {reads : Reads} (spread : Spread reads) (key : Path) (value : List UInt8) :
    Spread (Function.update reads key (.ok (some value))) := by
  intro head
  obtain ⟨other, present, apart⟩ := spread head
  refine ⟨other, ?_, apart⟩
  by_cases here : other = key
  · rw [here, Function.update_self]
    exact nofun
  · rwa [Function.update_of_ne here]

/-! ## Where two paths part -/

theorem commonPrefix_spec (first second : Path) :
    ∃ shared left right, first = shared ++ left ∧ second = shared ++ right ∧
      commonPrefix first second = shared.length ∧
      (left.head? = right.head? → left = [] ∧ right = []) := by
  induction first generalizing second with
  | nil =>
    refine ⟨[], [], second, rfl, rfl, rfl, fun same => ⟨rfl, ?_⟩⟩
    exact List.head?_eq_none_iff.mp same.symm
  | cons a first ih =>
    cases second with
    | nil => exact ⟨[], _, _, rfl, rfl, rfl, nofun⟩
    | cons b second =>
      by_cases same : a = b
      · obtain ⟨shared, left, right, rfl, rfl, count, apart⟩ := ih second
        exact ⟨a :: shared, left, right, rfl, by rw [same]; rfl,
          by rw [commonPrefix, if_pos same, count, List.length_cons], apart⟩
      · refine ⟨[], _, _, rfl, rfl, by rw [commonPrefix, if_neg same]; rfl, fun heads => ?_⟩
        exact absurd (Option.some.inj heads) same

/-! ## Branches under construction -/

namespace Fork

/-- The place of a key is free. -/
def Free (fork : Fork) : Path → Prop
  | [] => fork.value = []
  | nibble :: _ => fork.children nibble = empty

theorem new_free (key : Path) : new.Free key := by
  cases key with
  | nil => rfl
  | cons nibble rest => rfl

@[simp]
theorem setChild_self (fork : Fork) (nibble : Nibble) (node : Node) :
    (fork.setChild nibble node).children nibble = node := Function.update_self _ _ _

theorem setChild_of_ne (fork : Fork) {i nibble : Nibble} (apart : i ≠ nibble) (node : Node) :
    (fork.setChild nibble node).children i = fork.children i := Function.update_of_ne apart _ _

theorem setChild_canonical {fork : Fork} (below : ∀ i, Canonical (fork.children i))
    (nibble : Nibble) {node : Node} (canonical : Canonical node) (i : Nibble) :
    Canonical ((fork.setChild nibble node).children i) := by
  by_cases here : i = nibble
  · rwa [here, setChild_self]
  · rw [setChild_of_ne fork here]
    exact below i

theorem get_new : get new.node = nothing := by
  funext key
  cases key with
  | nil => rfl
  | cons nibble rest => rfl

theorem get_setChild {fork : Fork} {nibble : Nibble} (free : fork.children nibble = empty)
    (reads : get fork.node = nothing) (node : Node) :
    get (fork.setChild nibble node).node = shift [nibble] (get node) := by
  funext key
  cases key with
  | nil =>
    rw [shift_of_apart _ (by simp)]
    exact congrFun reads []
  | cons i rest =>
    by_cases here : i = nibble
    · subst here
      refine Eq.trans ?_ (shift_append [i] rest (get node)).symm
      exact congrArg (get · rest) (setChild_self fork i node)
    · rw [shift_of_apart _ (by simpa using Ne.symm here)]
      refine Eq.trans ?_ (congrFun reads (i :: rest))
      exact congrArg (get · rest) (setChild_of_ne fork here node)

theorem get_place {fork : Fork} {key : Path} (free : fork.Free key) {value : List UInt8}
    (some : value ≠ []) :
    get (fork.place key value).node = Function.update (get fork.node) key (.ok (.some value)) := by
  cases key with
  | nil => exact get_branch_value fork.children value some fork.value
  | cons nibble rest =>
    apply get_branch_update
    rw [get_leaf, show fork.children nibble = empty from free, get_empty]

theorem place_canonical {fork : Fork} (below : ∀ i, Canonical (fork.children i)) (key : Path)
    {value : List UInt8} (some : value ≠ []) (i : Nibble) :
    Canonical ((fork.place key value).children i) := by
  cases key with
  | nil => exact below i
  | cons nibble rest => exact setChild_canonical below nibble (.leaf some) i

end Fork

theorem wrap_canonical {path : Path} {node : Node} (canonical : Canonical node)
    (forks : node.Forks) : Canonical (wrap path node) := by
  by_cases none : path = []
  · rwa [wrap, if_pos none]
  · rw [wrap, if_neg none]
    exact .ext none canonical forks

/-- A branch under construction, once two keys part in it, below their shared path. -/
theorem wrap_fork {fork : Fork} {shared first second : Path}
    (below : ∀ i, Canonical (fork.children i)) (present : get fork.node first ≠ .ok none)
    (other : get fork.node second ≠ .ok none) (apart : first.head? ≠ second.head?) :
    Canonical (wrap shared fork.node) :=
  wrap_canonical (.branch below (two_of_spread (spread_of_two present other apart))) trivial

/-! ## Insertion -/

/-- What an insertion leaves: the same reads but for its own path. -/
structure Inserted (node : Node) (key : Path) (value : List UInt8) (after : Node) : Prop where
  canonical : Canonical after
  reads : get after = Function.update (get node) key (.ok (some value))
  forks : node.Forks → after.Forks

section Insert

variable {value : List UInt8} (some : value ≠ [])
include some

/-- A leaf parts from the key where their paths do. -/
theorem insert_leaf_apart {path key : Path} {old : List UInt8} (present : old ≠ [])
    (apart : path ≠ key) :
    ∃ after, insert (leaf path old) key value = .ok after ∧
      Inserted (leaf path old) key value after := by
  obtain ⟨shared, left, right, rfl, rfl, count, heads⟩ := commonPrefix_spec path key
  have parted : left.head? ≠ right.head? := by
    intro same
    obtain ⟨rfl, rfl⟩ := heads same
    exact apart rfl
  have free : (Fork.new.place left old).Free right := by
    cases right with
    | nil =>
      cases left with
      | nil => exact absurd rfl parted
      | cons i left => rfl
    | cons j right =>
      cases left with
      | nil => rfl
      | cons i left =>
        refine Fork.setChild_of_ne _ ?_ _
        intro same
        exact parted (congrArg Option.some same.symm)
  have reads : get ((Fork.new.place left old).place right value).node =
      Function.update (Function.update nothing left (.ok (.some old))) right (.ok (.some value)) := by
    rw [Fork.get_place free some, Fork.get_place (Fork.new_free left) present, Fork.get_new]
  refine ⟨wrap shared ((Fork.new.place left old).place right value).node, ?_, ?_, ?_, False.elim⟩
  · rw [insert, if_neg apart, count]
    dsimp only
    rw [List.drop_left, List.drop_left, List.take_left]
  · refine @wrap_fork _ shared left right ?_ ?_ ?_ parted
    · exact Fork.place_canonical (Fork.place_canonical (fun _ => .empty) left present) right some
    · have distinct : left ≠ right := fun same => parted (congrArg List.head? same)
      rw [reads, Function.update_of_ne distinct, Function.update_self]
      exact nofun
    · rw [reads, Function.update_self]
      exact nofun
  · rw [get_wrap, reads, shift_update, shift_update, shift_nothing, get_leaf]

/-- The key leaves an extension before its end. -/
theorem insert_ext_apart {shared right rest : Path} {nibble : Nibble} {child : Node}
    (canonical : Canonical child) (forks : child.Forks) (parted : right.head? ≠ .some nibble)
    (count : commonPrefix (shared ++ nibble :: rest) (shared ++ right) = shared.length) :
    ∃ after, insert (ext (shared ++ nibble :: rest) child) (shared ++ right) value = .ok after ∧
      Inserted (ext (shared ++ nibble :: rest) child) (shared ++ right) value after := by
  have free : (Fork.new.setChild nibble (wrap rest child)).Free right := by
    cases right with
    | nil => rfl
    | cons j right =>
      refine Fork.setChild_of_ne _ ?_ _
      intro same
      exact parted (congrArg Option.some same)
  have reads : get ((Fork.new.setChild nibble (wrap rest child)).place right value).node =
      Function.update (shift (nibble :: rest) (get child)) right (.ok (.some value)) := by
    rw [Fork.get_place free some, Fork.get_setChild rfl Fork.get_new, get_wrap, shift_shift]
    rfl
  refine ⟨wrap shared ((Fork.new.setChild nibble (wrap rest child)).place right value).node,
    ?_, ?_, ?_, False.elim⟩
  · rw [insert, count]
    dsimp only
    rw [List.drop_left, List.drop_left, List.take_left]
  · obtain ⟨key, present, -⟩ := canonical.spread forks none
    refine @wrap_fork _ shared (nibble :: rest ++ key) right ?_ ?_ ?_ (Ne.symm parted)
    · exact Fork.place_canonical
        (Fork.setChild_canonical (fun _ => .empty) nibble (wrap_canonical canonical forks)) right some
    · have distinct : nibble :: rest ++ key ≠ right := by
        rintro rfl
        exact parted rfl
      rw [reads, Function.update_of_ne distinct, shift_append]
      exact present
    · rw [reads, Function.update_self]
      exact nofun
  · rw [get_wrap, reads, shift_update, shift_shift, get_ext]

/-- An insertion does what its path's reading allows. -/
theorem insert_spec {node : Node} (canonical : Canonical node) (key : Path) :
    (∀ error, get node key = .error error → insert node key value = .error error) ∧
      ∀ found, get node key = .ok found →
        ∃ after, insert node key value = .ok after ∧ Inserted node key value after := by
  induction canonical generalizing key with
  | empty =>
    refine ⟨nofun, fun _ _ => ⟨_, rfl, .leaf some, ?_, False.elim⟩⟩
    rw [get_leaf, get_empty]
  | @leaf path old present =>
    refine ⟨nofun, fun _ _ => ?_⟩
    by_cases here : path = key
    · subst here
      refine ⟨_, if_pos rfl, .leaf some, ?_, False.elim⟩
      rw [get_leaf, get_leaf, Function.update_idem]
    · exact insert_leaf_apart some present here
  | @ext path child long below forks ih =>
    obtain ⟨shared, left, right, rfl, rfl, count, heads⟩ := commonPrefix_spec path key
    cases left with
    | nil =>
      rw [List.append_nil] at count long ⊢
      obtain ⟨refused, inserted⟩ := ih right
      have step : insert (.ext shared child) (shared ++ right) value =
          insert child right value >>= fun below => .ok (.ext shared below) := by
        rw [insert, count]
        dsimp only
        rw [List.drop_length, List.drop_left]
      refine ⟨fun error here => ?_, fun found here => ?_⟩
      · rw [get_ext_append] at here
        rw [step, refused error here]
        rfl
      · rw [get_ext_append] at here
        obtain ⟨after, ran, done⟩ := inserted found here
        refine ⟨_, by rw [step, ran]; rfl, .ext long done.canonical (done.forks forks), ?_, False.elim⟩
        rw [get_ext, done.reads, shift_update, get_ext]
    | cons nibble rest =>
      have parted : right.head? ≠ .some nibble := by
        intro same
        exact absurd (heads same.symm).1 (List.cons_ne_nil nibble rest)
      refine ⟨fun error here => ?_, fun _ _ => insert_ext_apart some below forks parted count⟩
      rw [get_ext_of_apart] at here
      · exact absurd here nofun
      · rw [List.prefix_append_right_inj]
        rintro ⟨tail, rfl⟩
        exact parted rfl
  | @branch children own below two ih =>
    cases key with
    | nil =>
      refine ⟨nofun, fun _ _ => ⟨_, rfl, ?_, get_branch_value children value some own, id⟩⟩
      refine .branch below (two_of_spread ?_)
      rw [get_branch_value children value some own]
      exact ((Canonical.branch below two).spread trivial).update [] value
    | cons nibble rest =>
      obtain ⟨refused, inserted⟩ := ih nibble rest
      refine ⟨fun error here => ?_, fun found here => ?_⟩
      · rw [insert, refused error here]
        rfl
      · obtain ⟨after, ran, done⟩ := inserted found here
        have reads := get_branch_update children own nibble done.reads
        refine ⟨_, by rw [insert, ran]; rfl, .branch ?_ (two_of_spread ?_), reads, id⟩
        · intro i
          by_cases same : i = nibble
          · subst same
            rw [Function.update_self]
            exact done.canonical
          · rw [Function.update_of_ne same]
            exact below i
        · rw [reads]
          exact ((Canonical.branch below two).spread trivial).update _ value
  | blinded hash =>
    refine ⟨fun error here => ?_, nofun⟩
    cases here
    rfl

end Insert

end Apogee.Mpt
