import Apogee.Math.Passes
import Apogee.Mpt.Build

/-! # Any trie

A witness can name a trie that no client builds: extensions above leaves, branches of one
child, paths that end early or late. Every trie that is parsed or made from one still has
its encoding, and its updates are those of a map under keys of one length.
-/

namespace Apogee.Mpt

open Node
open Math (bind_ok exists_of_mapM_ok)

/-! ## Shape -/

/-- Every extension has a path. -/
inductive Sound : Node → Prop
  | empty : Sound empty
  | leaf (path : Path) (value : List UInt8) : Sound (leaf path value)
  | ext {path : Path} {child : Node} (some : path ≠ []) (below : Sound child) :
      Sound (ext path child)
  | branch {children : Nibble → Node} (value : List UInt8) (below : ∀ i, Sound (children i)) :
      Sound (branch children value)
  | blinded (hash : Word32) : Sound (blinded hash)

variable {node child after : Node} {key other path : Path} {value : List UInt8}

theorem exists_mapM {α β : Type} {f : α → Option β} {xs : List α} (each : ∀ x ∈ xs, f x ≠ none) :
    ∃ ys, xs.mapM f = some ys := by
  induction xs with
  | nil => exact ⟨[], rfl⟩
  | cons x xs ih =>
    obtain ⟨first, rest⟩ := List.forall_mem_cons.mp each
    obtain ⟨y, made⟩ := Option.ne_none_iff_exists'.mp first
    obtain ⟨ys, others⟩ := ih rest
    exact ⟨y :: ys, by rw [List.mapM_cons, made, others]; rfl⟩

/-- A parent names any such node. -/
theorem Sound.reference (keccak : List UInt8 → Word32) (sound : Sound node) :
    node.reference keccak ≠ none := by
  have named : ∀ {node : Node} {bytes : List UInt8}, node.named keccak (some bytes) ≠ none := by
    intro node bytes
    cases node <;> exact Option.some_ne_none _
  rw [Node.reference]
  induction sound with
  | empty => exact Option.some_ne_none _
  | leaf path value => exact Option.some_ne_none _
  | @ext path child some below ih =>
    obtain ⟨reference, made⟩ := Option.ne_none_iff_exists'.mp ih
    rw [encode, if_neg some, made]
    exact named
  | @branch children value below ih =>
    obtain ⟨references, made⟩ := @exists_mapM _ _
      (fun i => (children i).named keccak ((children i).encode keccak)) (List.finRange 16)
      fun i _ => ih i
    rw [encode, made]
    exact named
  | blinded hash => exact Option.some_ne_none _

theorem Sound.root (keccak : List UInt8 → Word32) (sound : Sound node) : node.root keccak ≠ none := by
  have reference := sound.reference keccak
  intro absent
  have encoded : node.encode keccak = none := by
    cases node with
    | blinded hash => cases absent
    | _ => exact Option.map_eq_none_iff.mp absent
  cases node with
  | blinded hash => cases absent
  | _ =>
    refine reference ?_
    rw [Node.reference, encoded]
    rfl

theorem Sound.wrap (sound : Sound node) (path : Path) : Sound (wrap path node) := by
  by_cases none : path = []
  · rwa [Mpt.wrap, if_pos none]
  · rw [Mpt.wrap, if_neg none]
    exact .ext none sound

theorem Sound.update {children : Nibble → Node} (below : ∀ i, Sound (children i)) (nibble : Nibble)
    (sound : Sound node) (i : Nibble) : Sound (Function.update children nibble node i) := by
  by_cases here : i = nibble
  · rwa [here, Function.update_self]
  · rw [Function.update_of_ne here]
    exact below i

theorem Sound.place {fork : Fork} (below : ∀ i, Sound (fork.children i)) (rest : Path)
    (value : List UInt8) (i : Nibble) : Sound ((fork.place rest value).children i) := by
  cases rest with
  | nil => exact below i
  | cons nibble rest => exact Sound.update below nibble (.leaf rest value) i

/-- Where a leaf's path was put, the key's place is free. -/
theorem place_free {left right : Path} (parted : left.head? ≠ right.head?) (old : List UInt8) :
    (Fork.new.place left old).Free right := by
  cases right with
  | nil =>
    cases left with
    | nil => exact absurd rfl parted
    | cons i left => rfl
  | cons j right =>
    cases left with
    | nil => rfl
    | cons i left =>
      refine Fork.setChild_of_ne _ (fun same => ?_) _
      exact parted (congrArg Option.some same.symm)

theorem Sound.insert (sound : Sound node) (ran : insert node key value = .ok after) : Sound after := by
  induction sound generalizing key after with
  | empty =>
    cases ran
    exact .leaf key value
  | leaf path old =>
    rw [Mpt.insert] at ran
    by_cases here : path = key
    · rw [if_pos here] at ran
      cases ran
      exact .leaf path value
    · rw [if_neg here] at ran
      cases ran
      exact .wrap (.branch _ (Sound.place (Sound.place (fun _ => .empty) _ old) _ value)) _
  | @ext path child some below ih =>
    rw [Mpt.insert] at ran
    dsimp only at ran
    cases left : path.drop (commonPrefix path key) with
    | nil =>
      rw [left] at ran
      obtain ⟨under, step, rest⟩ := bind_ok.mp ran
      cases rest
      exact .ext some (ih step)
    | cons nibble remainder =>
      rw [left] at ran
      cases ran
      exact .wrap (.branch _ (Sound.place (Sound.update (fun _ => .empty) nibble (below.wrap remainder))
        _ value)) _
  | @branch children own below ih =>
    cases key with
    | nil =>
      cases ran
      exact .branch value below
    | cons nibble rest =>
      obtain ⟨under, step, rest⟩ := bind_ok.mp ran
      cases rest
      exact .branch own (Sound.update below nibble (ih nibble step))
  | blinded hash => cases ran

theorem Sound.normalizeExt (some : path ≠ []) (sound : Sound child) :
    Sound (normalizeExt path child) := by
  cases sound with
  | empty => exact .empty
  | leaf below value => exact .leaf _ value
  | ext _ below => exact .ext (List.append_ne_nil_of_left_ne_nil some _) below
  | branch value below => exact .ext some (.branch value below)
  | blinded hash => exact .ext some (.blinded hash)

theorem Sound.normalizeBranch {children : Nibble → Node} (below : ∀ i, Sound (children i))
    (ran : normalizeBranch children value = .ok after) : Sound after := by
  unfold Mpt.normalizeBranch at ran
  cases slots : live children with
  | nil =>
    rw [slots] at ran
    cases value with
    | nil => cases ran; exact .empty
    | cons byte rest => cases ran; exact .leaf [] _
  | cons first others =>
    rw [slots] at ran
    cases others with
    | cons _ _ => cases ran; exact .branch value below
    | nil =>
      cases value with
      | cons byte rest => cases ran; exact .branch _ below
      | nil =>
        have only := below first
        have collapsed : collapse first (children first) = .ok after := ran
        cases sound : children first with
        | blinded hash => rw [sound] at collapsed; cases collapsed
        | leaf path value => rw [sound] at collapsed; cases collapsed; exact .leaf _ value
        | ext path child =>
          rw [sound] at collapsed only
          cases collapsed
          cases only with
          | ext _ under => exact .ext (List.cons_ne_nil _ _) under
        | empty =>
          rw [sound] at collapsed
          cases collapsed
          exact .ext (List.cons_ne_nil _ _) .empty
        | branch children value =>
          rw [sound] at collapsed only
          cases collapsed
          exact .ext (List.cons_ne_nil _ _) only

theorem Sound.remove (sound : Sound node) (ran : remove node key = .ok after) : Sound after := by
  induction sound generalizing key after with
  | empty =>
    cases ran
    exact .empty
  | leaf path old =>
    cases ran
    by_cases here : path = key
    · rw [if_pos here]
      exact .empty
    · rw [if_neg here]
      exact .leaf path old
  | @ext path child some below ih =>
    rw [Mpt.remove] at ran
    by_cases inside : path <+: key
    · rw [if_pos inside] at ran
      obtain ⟨under, step, rest⟩ := bind_ok.mp ran
      cases rest
      exact .normalizeExt some (ih step)
    · rw [if_neg inside] at ran
      cases ran
      exact .ext some below
  | @branch children own below ih =>
    cases key with
    | nil => exact Sound.normalizeBranch below ran
    | cons nibble rest =>
      obtain ⟨under, step, rest⟩ := bind_ok.mp ran
      exact Sound.normalizeBranch (Sound.update below nibble (ih nibble step)) rest
  | blinded hash => cases ran

/-! ## Reads -/

/-- What a leaf leaves in a branch of nothing is read by the paths that go on. -/
theorem get_new_place (path : Path) (old : List UInt8) (long : other ≠ []) :
    get (Fork.new.place path old).node other = get (leaf path old) other := by
  cases path with
  | nil =>
    cases other with
    | nil => exact absurd rfl long
    | cons i rest => rfl
  | cons nibble rest =>
    rw [Fork.place, Fork.get_setChild rfl Fork.get_new, get_leaf, get_leaf, shift_update, shift_nothing]
    rfl

theorem get_leaf_append (path below : Path) (value : List UInt8) :
    get (leaf (path ++ below) value) = shift path (get (leaf below value)) := by
  rw [get_leaf, get_leaf, shift_update, shift_nothing]

/-- Reads below a path change as the reads there do. -/
theorem shift_changed {reads changed : Reads} {found : Except MptError (Option (List UInt8))}
    (same : ∀ rest, rest.length = key.length → changed rest = Function.update reads key found rest)
    (long : other.length = (path ++ key).length) :
    shift path changed other = Function.update (shift path reads) (path ++ key) found other := by
  rw [← shift_update]
  by_cases below : path <+: other
  · obtain ⟨rest, rfl⟩ := below
    rw [shift_append, shift_append]
    refine same rest ?_
    rwa [List.length_append, List.length_append, Nat.add_left_cancel_iff] at long
  · rw [shift_of_apart _ below, shift_of_apart _ below]

/-- A branch's reads change as its child's do. -/
theorem get_branch_changed {children : Nibble → Node} {nibble : Nibble}
    {found : Except MptError (Option (List UInt8))}
    (same : ∀ rest, rest.length = key.length →
      get node rest = Function.update (get (children nibble)) key found rest)
    (long : other.length = (nibble :: key).length) :
    get (branch (Function.update children nibble node) value) other =
      Function.update (get (branch children value)) (nibble :: key) found other := by
  cases other with
  | nil => cases long
  | cons i rest =>
    rw [get]
    by_cases child : i = nibble
    · subst child
      rw [Function.update_self, same rest (Nat.succ.inj long)]
      by_cases here : rest = key
      · rw [here, Function.update_self, Function.update_self]
      · rw [Function.update_of_ne here, Function.update_of_ne, get]
        exact fun whole => here (List.cons.inj whole).2
    · rw [Function.update_of_ne child, Function.update_of_ne, get]
      exact fun whole => child (List.cons.inj whole).1

/-- An insertion's reads, at the keys of its own key's length. -/
theorem get_insert (some : value ≠ []) (ran : insert node key value = .ok after)
    (long : other.length = key.length) :
    get after other = Function.update (get node) key (.ok (.some value)) other := by
  induction node generalizing key other after with
  | empty =>
    cases ran
    rw [get_leaf, get_empty]
  | leaf path old =>
    rw [Mpt.insert] at ran
    by_cases here : path = key
    · rw [if_pos here] at ran
      cases ran
      rw [get_leaf, get_leaf, here, Function.update_idem]
    · rw [if_neg here] at ran
      obtain ⟨shared, left, right, rfl, rfl, count, heads⟩ := commonPrefix_spec path key
      rw [count] at ran
      dsimp only at ran
      rw [List.drop_left, List.drop_left, List.take_left] at ran
      cases ran
      have parted : left.head? ≠ right.head? := by
        intro same
        obtain ⟨rfl, rfl⟩ := heads same
        exact here rfl
      rw [get_wrap, get_leaf_append]
      refine shift_changed (fun rest length => ?_) long
      rw [Fork.get_place (place_free parted old) some]
      by_cases own : rest = right
      · rw [own, Function.update_self, Function.update_self]
      · rw [Function.update_of_ne own, Function.update_of_ne own, get_new_place]
        -- the key's own place is the only empty one of its length
        rintro rfl
        exact own (List.length_eq_zero_iff.mp length.symm).symm
  | ext path child ih =>
    obtain ⟨shared, left, right, rfl, rfl, count, heads⟩ := commonPrefix_spec path key
    rw [Mpt.insert, count] at ran
    dsimp only at ran
    rw [List.drop_left, List.drop_left, List.take_left] at ran
    cases left with
    | nil =>
      obtain ⟨under, step, rest⟩ := bind_ok.mp ran
      cases rest
      rw [List.append_nil, get_ext, get_ext]
      exact shift_changed (fun rest length => ih step length) long
    | cons nibble remainder =>
      cases ran
      have parted : right.head? ≠ .some nibble := by
        intro same
        exact absurd (heads same.symm).1 (List.cons_ne_nil nibble remainder)
      have free : (Fork.new.setChild nibble (wrap remainder child)).Free right := by
        cases right with
        | nil => rfl
        | cons j right =>
          refine Fork.setChild_of_ne _ (fun same => ?_) _
          exact parted (congrArg Option.some same)
      rw [get_wrap, Fork.get_place free some, Fork.get_setChild rfl Fork.get_new, get_wrap, shift_shift,
        shift_update, shift_shift, get_ext]
      rfl
  | branch children own ih =>
    cases key with
    | nil =>
      cases ran
      rw [get_branch_value children value some own]
    | cons nibble rest =>
      obtain ⟨under, step, same⟩ := bind_ok.mp ran
      cases same
      exact get_branch_changed (fun rest length => ih nibble step length) long
  | blinded hash => cases ran

theorem get_normalizeExt (path : Path) (child : Node) :
    get (normalizeExt path child) = shift path (get child) := by
  cases child with
  | empty => exact (shift_nothing path).symm
  | leaf below value => exact get_leaf_append path below value
  | ext below child => rw [normalizeExt, get_ext, get_ext, shift_shift]
  | branch children value => exact get_ext _ _
  | blinded hash => exact get_ext _ _

theorem get_collapse {nibble : Nibble} (ran : collapse nibble child = .ok after) :
    get after = shift [nibble] (get child) := by
  cases child with
  | empty => cases ran; exact get_ext _ _
  | leaf below value => cases ran; exact get_leaf_append [nibble] below value
  | ext below child =>
    cases ran
    rw [get_ext, get_ext, shift_shift]
    rfl
  | branch children value => cases ran; exact get_ext _ _
  | blinded hash => cases ran

/-- A branch reads as what it collapses to. -/
theorem get_normalizeBranch {children : Nibble → Node}
    (ran : normalizeBranch children value = .ok after) : get after = get (branch children value) := by
  have members := fun i => @mem_live children i
  unfold Mpt.normalizeBranch at ran
  cases slots : live children with
  | nil =>
    rw [slots] at ran members
    have absent : ∀ i, children i = empty := by
      intro i
      by_contra filled
      exact absurd ((members i).mpr filled) List.not_mem_nil
    have reads : get (branch children []) = nothing := by
      rw [@get_branch_only children (lowNibble 0) fun i _ => absent i, absent, get_empty, shift_nothing]
    cases value with
    | nil =>
      cases ran
      exact reads.symm
    | cons byte rest =>
      cases ran
      rw [get_leaf, ← reads, get_branch_value children _ (List.cons_ne_nil byte rest) []]
  | cons first others =>
    rw [slots] at ran members
    cases others with
    | cons _ _ => cases ran; rfl
    | nil =>
      cases value with
      | cons byte rest => cases ran; rfl
      | nil =>
        have alone : ∀ i, i ≠ first → children i = empty := by
          intro i apart
          by_contra filled
          exact apart (List.mem_singleton.mp ((members i).mpr filled))
        rw [get_collapse ran, get_branch_only alone]

/-- A removal's reads, at the keys of its own key's length. -/
theorem get_remove (ran : remove node key = .ok after) (long : other.length = key.length) :
    get after other = Function.update (get node) key (.ok none) other := by
  induction node generalizing key other after with
  | empty =>
    cases ran
    by_cases own : other = key
    · rw [own, Function.update_self]
      rfl
    · rw [Function.update_of_ne own]
  | leaf path old =>
    cases ran
    by_cases own : other = key
    · rw [own, Function.update_self]
      by_cases here : path = key
      · rw [if_pos here]
        rfl
      · rw [if_neg here]
        exact congrArg Except.ok (if_neg here)
    · rw [Function.update_of_ne own]
      by_cases here : path = key
      · rw [if_pos here, get_leaf, Function.update_of_ne (here ▸ own)]
        rfl
      · rw [if_neg here]
  | ext path child ih =>
    rw [Mpt.remove] at ran
    by_cases inside : path <+: key
    · obtain ⟨rest, rfl⟩ := inside
      rw [if_pos (List.prefix_append path rest), List.drop_left] at ran
      obtain ⟨under, step, same⟩ := bind_ok.mp ran
      cases same
      rw [get_normalizeExt, get_ext]
      exact shift_changed (fun rest length => ih step length) long
    · rw [if_neg inside] at ran
      cases ran
      by_cases own : other = key
      · rw [own, Function.update_self, get_ext_of_apart inside]
      · rw [Function.update_of_ne own]
  | branch children own ih =>
    cases key with
    | nil =>
      rw [get_normalizeBranch ran, List.length_eq_zero_iff.mp long, Function.update_self]
      rfl
    | cons nibble rest =>
      obtain ⟨under, step, same⟩ := bind_ok.mp ran
      rw [get_normalizeBranch same]
      exact get_branch_changed (fun rest length => ih nibble step length) long
  | blinded hash => cases ran

/-! ## Tries that are parsed -/

variable {db : NodeMap}

theorem childOf_sound {parse : List UInt8 → Except MptError Node}
    (parsed : ∀ bytes node, parse bytes = .ok node → Sound node) (item : Rlp.Item) (node : Node)
    (ran : childOf db parse item = .ok node) : Sound node := by
  unfold childOf at ran
  by_cases list : item.list
  · rw [if_pos list] at ran
    exact parsed _ _ ran
  rw [if_neg list] at ran
  by_cases none : item.payload = []
  · rw [if_pos none] at ran
    cases ran
    exact .empty
  rw [if_neg none] at ran
  by_cases exact : item.payload.length = 32
  · rw [dif_pos exact] at ran
    cases found : db.get ⟨item.payload, exact⟩ with
    | none =>
      rw [found] at ran
      cases ran
      exact .blinded _
    | some bytes =>
      rw [found] at ran
      exact parsed bytes node ran
  · rw [dif_neg exact] at ran
    cases ran

/-- What a parse that succeeds has found. -/
theorem parseAt_cases {levels : ℕ} {bytes : List UInt8} {node : Node}
    (ran : parseAt db (levels + 1) bytes = .ok node) :
    ∃ items, Rlp.listItems bytes = some items ∧
      ((∃ first second path, items = [first, second] ∧ hpDecode first.payload = some (path, true) ∧
          node = leaf path second.payload) ∨
        (∃ first second path child, items = [first, second] ∧
          hpDecode first.payload = some (path, false) ∧ path ≠ [] ∧
          childOf db (parseAt db levels) second = .ok child ∧ node = ext path child) ∨
        ∃ slots value, items.length = 17 ∧ items[16]? = some value ∧
          (items.take 16).mapM (childOf db (parseAt db levels)) = .ok slots ∧
          node = branch (fun i => slots.getD i.val empty) value.payload) := by
  unfold parseAt at ran
  split at ran
  · cases ran
  · rename_i first second found
    refine ⟨_, found, ?_⟩
    split at ran
    · cases ran
    · rename_i path decoded
      cases ran
      exact Or.inl ⟨first, second, path, rfl, decoded, rfl⟩
    · rename_i path decoded
      by_cases some : path = []
      · rw [if_pos some] at ran
        cases ran
      · rw [if_neg some] at ran
        obtain ⟨child, below, same⟩ := bind_ok.mp ran
        cases same
        exact Or.inr (Or.inl ⟨first, second, path, child, rfl, decoded, some, below, rfl⟩)
  · rename_i items _ found
    refine ⟨_, found, Or.inr (Or.inr ?_)⟩
    split at ran
    · cases ran
    · rename_i value last
      by_cases wide : items.length = 17
      · rw [if_pos wide] at ran
        obtain ⟨slots, below, same⟩ := bind_ok.mp ran
        cases same
        exact ⟨slots, value, wide, last, below, rfl⟩
      · rw [if_neg wide] at ran
        cases ran

theorem parseAt_sound (levels : ℕ) (bytes : List UInt8) (node : Node)
    (ran : parseAt db levels bytes = .ok node) : Sound node := by
  induction levels generalizing bytes node with
  | zero => cases ran
  | succ levels ih =>
    have children := @childOf_sound db _ ih
    obtain ⟨items, -, ⟨first, second, path, -, -, rfl⟩ |
      ⟨first, second, path, child, -, -, some, below, rfl⟩ | ⟨slots, value, -, -, below, rfl⟩⟩ :=
      parseAt_cases ran
    · exact .leaf _ _
    · exact .ext some (children _ _ below)
    · have each : ∀ child ∈ slots, Sound child := fun child member => by
        obtain ⟨slot, -, parsed⟩ := exists_of_mapM_ok below child member
        exact children slot child parsed
      refine .branch _ fun i => ?_
      rw [List.getD_eq_getElem?_getD]
      cases found : slots[i.val]? with
      | none => exact .empty
      | some child => exact each child (List.mem_of_getElem? found)

theorem build_sound {root : Word32} (ran : build db root = .ok node) : Sound node := by
  unfold build at ran
  by_cases none : root = emptyTrieRoot
  · rw [if_pos none] at ran
    cases ran
    exact .empty
  · rw [if_neg none] at ran
    cases found : db.get root with
    | none =>
      rw [found] at ran
      cases ran
    | some bytes =>
      rw [found] at ran
      exact parseAt_sound _ bytes node ran

/-- The tries that witnesses give, and their updates under keys of 64 nibbles. -/
inductive Made (keccak : List UInt8 → Word32) : Node → Prop
  | built {nodes : List (List UInt8)} {root : Word32} {node : Node}
      (ran : build (NodeMap.new keccak nodes) root = .ok node) : Made keccak node
  | inserted {node after : Node} {key : Path} {value : List UInt8} (made : Made keccak node)
      (long : key.length = 64) (some : value ≠ []) (ran : insert node key value = .ok after) :
      Made keccak after
  | removed {node after : Node} {key : Path} (made : Made keccak node) (long : key.length = 64)
      (ran : remove node key = .ok after) : Made keccak after

theorem Made.sound {keccak : List UInt8 → Word32} (made : Made keccak node) : Sound node := by
  induction made with
  | built ran => exact build_sound ran
  | inserted _ _ _ ran ih => exact ih.insert ran
  | removed _ _ ran ih => exact ih.remove ran

/-- The shared part of two paths is within both. -/
theorem commonPrefix_le (first second : Path) :
    commonPrefix first second ≤ first.length ∧ commonPrefix first second ≤ second.length := by
  obtain ⟨shared, left, right, rfl, rfl, count, -⟩ := commonPrefix_spec first second
  rw [count, List.length_append, List.length_append]
  exact ⟨Nat.le_add_right _ _, Nat.le_add_right _ _⟩

/-- Of every trie that a witness can give and every update makes of it: its extensions have
paths, so that it has its bytes, its reference and its root; an insertion makes a key read
its value, a removal makes it read nothing, and no other key reads another. -/
theorem hostile_updates (keccak : List UInt8 → Word32) {node : Node} (made : Made keccak node)
    {key : Path} (long : key.length = 64) {value : List UInt8} (some : value ≠ []) :
    Sound node ∧ node.reference keccak ≠ none ∧ node.root keccak ≠ none ∧
      (∀ path, commonPrefix path key ≤ path.length ∧ commonPrefix path key ≤ key.length) ∧
      (∀ after, insert node key value = .ok after → get after key = .ok (.some value) ∧
        ∀ other, other.length = 64 → other ≠ key → get after other = get node other) ∧
      ∀ after, remove node key = .ok after → get after key = .ok none ∧
        ∀ other, other.length = 64 → other ≠ key → get after other = get node other := by
  have sound := made.sound
  refine ⟨sound, sound.reference keccak, sound.root keccak, fun path => commonPrefix_le path key,
    fun after ran => ⟨?_, fun other length apart => ?_⟩, fun after ran => ⟨?_, fun other length apart => ?_⟩⟩
  · rw [get_insert some ran rfl, Function.update_self]
  · rw [get_insert some ran (length.trans long.symm), Function.update_of_ne apart]
  · rw [get_remove ran rfl, Function.update_self]
  · rw [get_remove ran (length.trans long.symm), Function.update_of_ne apart]

/-- An extension above a leaf that ends early. -/
def earlyBytes : List UInt8 := [0xc6, 0x82, 0x00, 0x00, 0xc2, 0x20, 0x05]

def earlyHash : Word32 :=
  ⟨[0x30, 0x97, 0xbe, 0x00, 0xac, 0xc6, 0xc1, 0x31, 0x26, 0xcd, 0xb1, 0x1a, 0x9d, 0xf9, 0x0e, 0xbd,
    0x2f, 0xfa, 0x20, 0x1a, 0x64, 0x1e, 0x8e, 0xd9, 0x20, 0x6c, 0x92, 0xb7, 0x22, 0xfe, 0x6b, 0x53],
    rfl⟩

set_option maxRecDepth 4000 in
/-- A key written into it is read, and another is as absent as before. -/
theorem hostile_updates_early :
    ∃ node after, build (NodeMap.new (tableHash [(earlyBytes, earlyHash)]) [earlyBytes]) earlyHash =
        .ok node ∧ insert node (nibblesOf (List.replicate 32 0)) [7] = .ok after ∧
      get after (nibblesOf (List.replicate 32 0)) = .ok (some [7]) ∧
      get after (nibblesOf (List.replicate 32 1)) = get node (nibblesOf (List.replicate 32 1)) := by
  have built : build (NodeMap.new (tableHash [(earlyBytes, earlyHash)]) [earlyBytes]) earlyHash =
      .ok (ext (nibblesOf [0]) (leaf [] [5])) := by
    have single : NodeMap.new (tableHash [(earlyBytes, earlyHash)]) [earlyBytes] =
        ⟨[(earlyHash, earlyBytes)]⟩ := by
      simp [NodeMap.new, Math.table, tableHash]
    have found : NodeMap.get ⟨[(earlyHash, earlyBytes)]⟩ earlyHash = some earlyBytes := by decide
    rw [single, build, if_neg (by decide), found]
    rfl
  have inserted : insert (ext (nibblesOf [0]) (leaf [] [5])) (nibblesOf (List.replicate 32 0)) [7] =
      .ok _ := rfl
  obtain ⟨-, -, -, -, reads, -⟩ := hostile_updates (tableHash [(earlyBytes, earlyHash)]) (.built built)
    (show (nibblesOf (List.replicate 32 0)).length = 64 by decide) (List.cons_ne_nil 7 [])
  obtain ⟨own, others⟩ := reads _ inserted
  exact ⟨_, _, built, inserted, own, others _ (by decide) (by decide)⟩

end Apogee.Mpt
