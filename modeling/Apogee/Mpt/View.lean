import Apogee.Mpt.Build

/-! # Views of a trie

A view is a trie with hashes in the place of some of another's nodes. What a view
answers, and what it becomes, is what the other does; what it refuses, it refuses
for one of its hashes.
-/

namespace Apogee.Mpt

open Node

/-- A node inside a trie. -/
inductive Within : Node → Node → Prop
  | refl (node : Node) : Within node node
  | ext {node child : Node} (path : Path) (inside : Within node child) : Within node (ext path child)
  | branch {node : Node} {children : Nibble → Node} (i : Nibble) (value : List UInt8)
      (inside : Within node (children i)) : Within node (branch children value)

/-- A trie with hashes in it, and the trie whose nodes they stand for. -/
inductive View (stands : Word32 → Node → Prop) : Node → Node → Prop
  | empty : View stands empty empty
  | leaf (path : Path) (value : List UInt8) : View stands (leaf path value) (leaf path value)
  | ext {child whole : Node} (path : Path) (below : View stands child whole) :
      View stands (ext path child) (ext path whole)
  | branch {children wholes : Nibble → Node} (value : List UInt8)
      (below : ∀ i, View stands (children i) (wholes i)) :
      View stands (branch children value) (branch wholes value)
  | blinded {hash : Word32} {node : Node} (names : stands hash node) : View stands (blinded hash) node

/-- What a view refuses: a hash of it, which refuses the other trie too when it is the
other's own. -/
def Refuses (stands : Word32 → Node → Prop) (node : Node) (error : MptError)
    (other : Except MptError Node) : Prop :=
  ∃ hash hidden, (error = .missingNode hash ∨ error = .blindedCollapse hash) ∧ stands hash hidden ∧
    Within hidden node ∧ (hidden = blinded hash → other = .error error)

variable {stands : Word32 → Node → Prop}

namespace View

theorem mono {stands' : Word32 → Node → Prop} (imp : ∀ hash node, stands hash node → stands' hash node)
    {node whole : Node} (view : View stands node whole) : View stands' node whole := by
  induction view with
  | empty => exact .empty
  | leaf path value => exact .leaf path value
  | ext path _ ih => exact .ext path ih
  | branch value _ ih => exact .branch value ih
  | blinded names => exact .blinded (imp _ _ names)

/-- The nodes that hashes stand for are inside the trie. -/
theorem within {node whole : Node} (view : View stands node whole) :
    View (fun hash hidden => stands hash hidden ∧ Within hidden whole) node whole := by
  induction view with
  | empty => exact .empty
  | leaf path value => exact .leaf path value
  | ext path _ ih => exact .ext path (ih.mono fun _ _ names => ⟨names.1, .ext path names.2⟩)
  | branch value _ ih =>
    exact .branch value fun i => (ih i).mono fun _ _ names => ⟨names.1, .branch i value names.2⟩
  | @blinded hash node names => exact .blinded ⟨names, .refl node⟩

/-- A slot is empty in a view when it is in the trie. -/
theorem isEmpty (filled : ∀ hash node, stands hash node → node ≠ .empty) {node whole : Node}
    (view : View stands node whole) : node.isEmpty = whole.isEmpty := by
  cases view with
  | blinded names =>
    have some := filled _ _ names
    cases whole with
    | empty => exact absurd rfl some
    | _ => rfl
  | _ => rfl

theorem live_eq (filled : ∀ hash node, stands hash node → node ≠ .empty)
    {children wholes : Nibble → Node} (below : ∀ i, View stands (children i) (wholes i)) :
    live children = live wholes := by
  unfold live
  congr 1
  funext i
  rw [(below i).isEmpty filled]

/-- A view of a canonical trie is canonical. -/
theorem canonical (filled : ∀ hash node, stands hash node → node ≠ .empty) {node whole : Node}
    (view : View stands node whole) (shaped : Canonical whole) : Canonical node := by
  induction view with
  | empty => exact .empty
  | leaf => exact shaped
  | @ext child whole path below ih =>
    cases shaped with
    | ext some inside forks =>
      refine .ext some (ih inside) ?_
      cases below with
      | branch => trivial
      | blinded => trivial
      | _ => exact forks
  | @branch children wholes value below ih =>
    cases shaped with
    | branch inside two =>
      refine .branch (fun i => ih i (inside i)) ?_
      rwa [occupied, live_eq filled below]
  | blinded => exact .blinded _

/-! ## Reading -/

/-- A view answers as the trie does, or with one of its hashes. -/
theorem get {node whole : Node} (view : View stands node whole) (key : Path) :
    get node key = get whole key ∨ ∃ hash hidden rest, Mpt.get node key = .error (.missingNode hash) ∧
      stands hash hidden ∧ Within hidden whole ∧ Mpt.get whole key = Mpt.get hidden rest := by
  induction view generalizing key with
  | empty => exact Or.inl rfl
  | leaf => exact Or.inl rfl
  | @ext child whole path below ih =>
    by_cases inside : path <+: key
    · obtain ⟨rest, rfl⟩ := inside
      rw [get_ext_append, get_ext_append]
      rcases ih rest with same | ⟨hash, hidden, last, refused, names, within, reads⟩
      · exact Or.inl same
      · exact Or.inr ⟨hash, hidden, last, refused, names, .ext path within, reads⟩
    · rw [get_ext_of_apart inside, get_ext_of_apart inside]
      exact Or.inl rfl
  | @branch children wholes value below ih =>
    cases key with
    | nil => exact Or.inl rfl
    | cons i rest =>
      rcases ih i rest with same | ⟨hash, hidden, last, refused, names, within, reads⟩
      · exact Or.inl same
      · exact Or.inr ⟨hash, hidden, last, refused, names, .branch i value within, reads⟩
  | @blinded hash node names =>
    exact Or.inr ⟨hash, node, key, rfl, names, .refl node, rfl⟩

/-! ## Writing -/

theorem wrap {node whole : Node} (view : View stands node whole) (path : Path) :
    View stands (wrap path node) (wrap path whole) := by
  unfold Mpt.wrap
  by_cases none : path = []
  · rwa [if_pos none, if_pos none]
  · rw [if_neg none, if_neg none]
    exact .ext path view

theorem update {children wholes : Nibble → Node} (below : ∀ i, View stands (children i) (wholes i))
    (nibble : Nibble) {node whole : Node} (view : View stands node whole) (i : Nibble) :
    View stands (Function.update children nibble node i) (Function.update wholes nibble whole i) := by
  by_cases here : i = nibble
  · subst here
    rwa [Function.update_self, Function.update_self]
  · rw [Function.update_of_ne here, Function.update_of_ne here]
    exact below i

/-- Two branches under construction, one a view of the other. -/
theorem place {fork other : Fork} (value : fork.value = other.value)
    (below : ∀ i, View stands (fork.children i) (other.children i)) (rest : Path) (new : List UInt8) :
    View stands (fork.place rest new).node (other.place rest new).node := by
  cases rest with
  | nil => exact .branch new below
  | cons nibble rest =>
    rw [Fork.node, Fork.node, Fork.place, Fork.place, Fork.setChild, Fork.setChild, value]
    exact .branch _ (update below nibble (.leaf rest new))

/-- Inserting into a view inserts into the trie. -/
theorem insert {node whole : Node} (view : View stands node whole) (key : Path) (value : List UInt8) :
    (∃ after changed, insert node key value = .ok after ∧ Mpt.insert whole key value = .ok changed ∧
      View stands after changed) ∨
      ∃ error, Mpt.insert node key value = .error error ∧
        Refuses stands whole error (Mpt.insert whole key value) := by
  induction view generalizing key with
  | empty => exact Or.inl ⟨_, _, rfl, rfl, .leaf key value⟩
  | leaf path old =>
    refine Or.inl ?_
    unfold Mpt.insert
    by_cases here : path = key
    · rw [if_pos here]
      exact ⟨_, _, rfl, rfl, .leaf path value⟩
    · rw [if_neg here]
      refine ⟨_, _, rfl, rfl, wrap (place ?_ (fun i => ?_) _ value) _⟩
      · rfl
      · generalize path.drop (commonPrefix path key) = rest
        cases rest with
        | nil => exact .empty
        | cons nibble rest => exact update (fun _ => .empty) nibble (.leaf rest old) i
  | @ext child whole path below ih =>
    unfold Mpt.insert
    dsimp only
    cases left : path.drop (commonPrefix path key) with
    | nil =>
      dsimp only
      rcases ih (key.drop (commonPrefix path key)) with
        ⟨after, changed, ran, other, done⟩ | ⟨error, ran, hash, hidden, kind, names, within, own⟩
      · rw [ran, other]
        exact Or.inl ⟨_, _, rfl, rfl, .ext path done⟩
      · rw [ran]
        refine Or.inr ⟨error, rfl, hash, hidden, kind, names, .ext path within, fun same => ?_⟩
        rw [own same]
        rfl
    | cons nibble rest =>
      refine Or.inl ⟨_, _, rfl, rfl, wrap ?_ _⟩
      exact @place stands (Fork.new.setChild nibble (Mpt.wrap rest child))
        (Fork.new.setChild nibble (Mpt.wrap rest whole)) rfl
        (update (fun _ => .empty) nibble (below.wrap rest)) _ value
  | @branch children wholes own below ih =>
    cases key with
    | nil => exact Or.inl ⟨_, _, rfl, rfl, .branch value below⟩
    | cons nibble rest =>
      unfold Mpt.insert
      rcases ih nibble rest with
        ⟨after, changed, ran, other, done⟩ | ⟨error, ran, hash, hidden, kind, names, within, refused⟩
      · rw [ran, other]
        exact Or.inl ⟨_, _, rfl, rfl, .branch own (update below nibble done)⟩
      · rw [ran]
        refine Or.inr ⟨error, rfl, hash, hidden, kind, names, .branch nibble own within, fun same => ?_⟩
        rw [refused same]
        rfl
  | @blinded hash node names =>
    refine Or.inr ⟨_, rfl, hash, node, Or.inl rfl, names, .refl node, ?_⟩
    rintro rfl
    rfl

/-! ## Removing -/

theorem collapse {node whole : Node} (view : View stands node whole) (nibble : Nibble) :
    (∃ after changed, collapse nibble node = .ok after ∧ Mpt.collapse nibble whole = .ok changed ∧
      View stands after changed) ∨ ∃ hash, node = .blinded hash := by
  cases view with
  | empty => exact Or.inl ⟨_, _, rfl, rfl, .ext _ .empty⟩
  | leaf path value => exact Or.inl ⟨_, _, rfl, rfl, .leaf _ value⟩
  | ext path below => exact Or.inl ⟨_, _, rfl, rfl, .ext _ below⟩
  | branch value below => exact Or.inl ⟨_, _, rfl, rfl, .ext _ (.branch value below)⟩
  | blinded => exact Or.inr ⟨_, rfl⟩

/-- A branch of a view is normalized as the trie's is, but for a hash left alone. -/
theorem normalizeBranch (filled : ∀ hash node, stands hash node → node ≠ .empty)
    {children wholes : Nibble → Node} (below : ∀ i, View stands (children i) (wholes i))
    (value : List UInt8) :
    (∃ after changed, normalizeBranch children value = .ok after ∧
      Mpt.normalizeBranch wholes value = .ok changed ∧ View stands after changed) ∨
      ∃ i hash, children i = .blinded hash ∧
        Mpt.normalizeBranch children value = .error (.blindedCollapse hash) ∧
        (wholes i = .blinded hash →
          Mpt.normalizeBranch wholes value = .error (.blindedCollapse hash)) := by
  unfold Mpt.normalizeBranch
  rw [live_eq filled below]
  have whole := View.branch value below
  cases live wholes with
  | nil =>
    cases value with
    | nil => exact Or.inl ⟨_, _, rfl, rfl, .empty⟩
    | cons byte rest => exact Or.inl ⟨_, _, rfl, rfl, .leaf [] _⟩
  | cons first others =>
    cases others with
    | cons _ _ => exact Or.inl ⟨_, _, rfl, rfl, whole⟩
    | nil =>
      cases value with
      | cons byte rest => exact Or.inl ⟨_, _, rfl, rfl, whole⟩
      | nil =>
        rcases collapse (below first) first with done | ⟨hash, hidden⟩
        · exact Or.inl done
        · exact Or.inr ⟨first, hash, hidden, congrArg (Mpt.collapse first) hidden,
            fun same => congrArg (Mpt.collapse first) same⟩

theorem normalizeExt {node whole : Node} (view : View stands node whole)
    (seen : ∀ hash, node ≠ .blinded hash) (path : Path) :
    View stands (normalizeExt path node) (normalizeExt path whole) := by
  cases view with
  | empty => exact .empty
  | leaf below value => exact .leaf _ value
  | ext below inside => exact .ext _ inside
  | branch value below => exact .ext path (.branch value below)
  | blinded => exact absurd rfl (seen _)

end View

theorem normalizeBranch_ne_blinded {children : Nibble → Node} {value : List UInt8} {after : Node}
    (ran : normalizeBranch children value = .ok after) (hash : Word32) : after ≠ blinded hash := by
  rintro rfl
  unfold normalizeBranch at ran
  cases slots : live children with
  | nil =>
    rw [slots] at ran
    cases value <;> cases ran
  | cons first others =>
    rw [slots] at ran
    cases others with
    | cons _ _ => cases ran
    | nil =>
      cases value with
      | cons _ _ => cases ran
      | nil =>
        have collapsed : collapse first (children first) = .ok (blinded hash) := ran
        cases only : children first <;> rw [only] at collapsed <;> cases collapsed

/-- What a removal leaves is not a hash. -/
theorem remove_ne_blinded {node after : Node} {key : Path} (ran : remove node key = .ok after)
    (hash : Word32) : after ≠ blinded hash := by
  rintro rfl
  cases node with
  | empty => cases ran
  | leaf path value =>
    by_cases here : path = key
    · rw [remove, if_pos here] at ran
      cases ran
    · rw [remove, if_neg here] at ran
      cases ran
  | ext path child =>
    by_cases inside : path <+: key
    · rw [remove, if_pos inside] at ran
      cases below : remove child (key.drop path.length) with
      | error error => rw [below] at ran; cases ran
      | ok node =>
        rw [below] at ran
        cases node <;> cases ran
    · rw [remove, if_neg inside] at ran
      cases ran
  | branch children value =>
    cases key with
    | nil => exact normalizeBranch_ne_blinded ran hash rfl
    | cons nibble rest =>
      rw [remove] at ran
      cases below : remove (children nibble) rest with
      | error error => rw [below] at ran; cases ran
      | ok node =>
        rw [below] at ran
        exact normalizeBranch_ne_blinded ran hash rfl
  | blinded => cases ran

/-- Removing from a view removes from the trie. A collapse names a hash the trie had
before the removal. -/
theorem View.remove (filled : ∀ hash node, stands hash node → node ≠ .empty) {node whole : Node}
    (view : View stands node whole) (key : Path) :
    (∃ after changed, remove node key = .ok after ∧ Mpt.remove whole key = .ok changed ∧
      View stands after changed) ∨
      ∃ error, Mpt.remove node key = .error error ∧
        Refuses stands whole error (Mpt.remove whole key) := by
  induction view generalizing key with
  | empty => exact Or.inl ⟨_, _, rfl, rfl, .empty⟩
  | leaf path value =>
    refine Or.inl ⟨_, _, rfl, rfl, ?_⟩
    by_cases here : path = key
    · rw [if_pos here]
      exact .empty
    · rw [if_neg here]
      exact .leaf path value
  | @ext child whole path below ih =>
    unfold Mpt.remove
    by_cases inside : path <+: key
    · rw [if_pos inside, if_pos inside]
      rcases ih (key.drop path.length) with
        ⟨after, changed, ran, other, done⟩ | ⟨error, ran, hash, hidden, kind, names, within, own⟩
      · rw [ran, other]
        exact Or.inl ⟨_, _, rfl, rfl, done.normalizeExt (remove_ne_blinded ran) path⟩
      · rw [ran]
        refine Or.inr ⟨error, rfl, hash, hidden, kind, names, .ext path within, fun same => ?_⟩
        rw [own same]
        rfl
    · rw [if_neg inside, if_neg inside]
      exact Or.inl ⟨_, _, rfl, rfl, .ext path below⟩
  | @branch children wholes own below ih =>
    cases key with
    | nil =>
      rcases View.normalizeBranch filled below [] with done | ⟨i, hash, hidden, ran, own⟩
      · exact Or.inl done
      · have names := below i
        rw [hidden] at names
        cases names with
        | blinded names =>
          exact Or.inr ⟨_, ran, hash, wholes i, Or.inr rfl, names, .branch i _ (.refl _), own⟩
    | cons nibble rest =>
      unfold Mpt.remove
      rcases ih nibble rest with
        ⟨after, changed, ran, other, done⟩ | ⟨error, ran, hash, hidden, kind, names, within, refused⟩
      · rcases View.normalizeBranch filled (View.update below nibble done) own with
          kept | ⟨i, hash, hidden, refused, same⟩
        · rw [ran, other]
          exact Or.inl kept
        · have apart : i ≠ nibble := by
            rintro rfl
            rw [Function.update_self] at hidden
            exact remove_ne_blinded ran hash hidden
          rw [Function.update_of_ne apart] at hidden same
          have names := below i
          rw [hidden] at names
          cases names with
          | blinded names =>
            rw [ran, other]
            exact Or.inr ⟨_, refused, hash, wholes i, Or.inr rfl, names, .branch i _ (.refl _), same⟩
      · rw [ran]
        refine Or.inr ⟨error, rfl, hash, hidden, kind, names, .branch nibble own within, fun same => ?_⟩
        rw [refused same]
        rfl
  | @blinded hash node names =>
    refine Or.inr ⟨_, rfl, hash, node, Or.inl rfl, names, .refl node, ?_⟩
    rintro rfl
    rfl

end Apogee.Mpt
