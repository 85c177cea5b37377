import Apogee.Mpt.Insert

/-! # Removing

A removal that reaches no hash changes what its own path reads and nothing else, and
leaves a canonical node canonical. It is refused by a hash its path runs into, and by
one more: a hash beside which nothing would be left to read.
-/

namespace Apogee.Mpt

open Node

/-- Something is read at a place, not through its slot `nibble`. -/
def Beside (reads : Reads) (place : Path) (nibble : Nibble) : Prop :=
  ∃ key, place <+: key ∧ ¬ place ++ [nibble] <+: key ∧ reads key ≠ .ok none

/-- Beside every hash something is read after, where something was before. -/
def Kept (reads after : Reads) : Prop :=
  ∀ place nibble hash, reads (place ++ [nibble]) = .error (.missingNode hash) →
    Beside reads place nibble → Beside after place nibble

theorem beside_append {reads : Reads} {path place : Path} {nibble : Nibble} :
    Beside reads (path ++ place) nibble ↔ Beside (fun key => reads (path ++ key)) place nibble := by
  constructor
  · rintro ⟨key, ⟨rest, rfl⟩, apart, present⟩
    rw [List.append_assoc, List.append_assoc, List.prefix_append_right_inj] at apart
    rw [List.append_assoc] at present
    exact ⟨place ++ rest, List.prefix_append place rest, apart, present⟩
  · rintro ⟨key, below, apart, present⟩
    refine ⟨path ++ key, (List.prefix_append_right_inj path).mpr below, ?_, present⟩
    rwa [List.append_assoc, List.prefix_append_right_inj]

theorem beside_cons {reads : Reads} {i nibble : Nibble} {place : Path} :
    Beside reads (i :: place) nibble ↔ Beside (fun key => reads (i :: key)) place nibble :=
  @beside_append reads [i] place nibble

theorem update_append (reads : Reads) (path key : Path)
    (found : Except MptError (Option (List UInt8))) :
    (fun rest => Function.update reads (path ++ key) found (path ++ rest)) =
      Function.update (fun rest => reads (path ++ rest)) key found := by
  funext rest
  by_cases here : rest = key
  · rw [here, Function.update_self, Function.update_self]
  · rw [Function.update_of_ne here, Function.update_of_ne]
    intro same
    exact here (List.append_cancel_left same)

/-! ## Collapsing -/

/-- The only reads of a branch with one child are the child's. -/
theorem get_branch_only {children : Nibble → Node} {only : Nibble}
    (alone : ∀ i, i ≠ only → children i = empty) :
    get (branch children []) = shift [only] (get (children only)) := by
  funext key
  cases key with
  | nil => exact (shift_of_apart _ (by simp)).symm
  | cons i rest =>
    by_cases here : i = only
    · subst here
      exact (shift_append [i] rest _).symm
    · rw [get, alone i here, shift_of_apart _ (by simpa using Ne.symm here), get]

theorem collapse_spec {child : Node} (nibble : Nibble) (canonical : Canonical child)
    (filled : child ≠ empty) :
    (∃ after, collapse nibble child = .ok after ∧ Canonical after ∧
      get after = shift [nibble] (get child) ∧ ∀ hash, child ≠ blinded hash) ∨
      ∃ hash, child = blinded hash ∧ collapse nibble child = .error (.blindedCollapse hash) := by
  cases canonical with
  | empty => exact absurd rfl filled
  | leaf some =>
    refine Or.inl ⟨_, rfl, .leaf some, ?_, nofun⟩
    rw [get_leaf, get_leaf, shift_update, shift_nothing]
    rfl
  | ext some below forks =>
    refine Or.inl ⟨_, rfl, .ext (List.cons_ne_nil _ _) below forks, ?_, nofun⟩
    rw [get_ext, get_ext, shift_shift]
    rfl
  | branch below two =>
    exact Or.inl ⟨_, rfl, .ext (List.cons_ne_nil _ _) (.branch below two) trivial, get_ext _ _, nofun⟩
  | blinded hash => exact Or.inr ⟨hash, rfl, rfl⟩

theorem normalizeExt_spec {path : Path} {child : Node} (some : path ≠ [])
    (canonical : Canonical child) :
    Canonical (normalizeExt path child) ∧
      get (normalizeExt path child) = shift path (get child) := by
  cases canonical with
  | empty => exact ⟨.empty, (shift_nothing path).symm⟩
  | leaf present =>
    refine ⟨.leaf present, ?_⟩
    rw [normalizeExt, get_leaf, get_leaf, shift_update, shift_nothing]
  | ext _ below forks =>
    refine ⟨.ext (List.append_ne_nil_of_left_ne_nil some _) below forks, ?_⟩
    rw [normalizeExt, get_ext, get_ext, shift_shift]
  | branch below two => exact ⟨.ext some (.branch below two) trivial, get_ext _ _⟩
  | blinded hash => exact ⟨.ext some (.blinded hash) trivial, get_ext _ _⟩

section NormalizeBranch

variable {children : Nibble → Node} {value : List UInt8}

/-- Beside a slot of a branch something is read when another slot is occupied. -/
theorem beside_branch (below : ∀ i, Canonical (children i)) (nibble : Nibble) :
    Beside (get (branch children value)) [] nibble ↔
      value ≠ [] ∨ ∃ i, i ≠ nibble ∧ children i ≠ empty := by
  constructor
  · rintro ⟨key, -, apart, present⟩
    cases key with
    | nil =>
      left
      intro none
      exact present (congrArg Except.ok (if_pos none))
    | cons i rest =>
      refine Or.inr ⟨i, ?_, ?_⟩
      · rintro rfl
        exact apart ⟨rest, rfl⟩
      · intro absent
        rw [get, absent] at present
        exact present rfl
  · rintro (some | ⟨i, apart, filled⟩)
    · refine ⟨[], List.prefix_rfl, by simp, ?_⟩
      rw [get_branch_nil some]
      intro same
      cases same
    · obtain ⟨key, present⟩ := (below i).exists_get filled
      refine ⟨i :: key, List.nil_prefix, ?_, present⟩
      rintro ⟨rest, same⟩
      exact apart (List.cons.inj same).1.symm

/-- A branch collapses to a canonical node that reads alike, unless all it has is a hash. -/
theorem normalizeBranch_spec (below : ∀ i, Canonical (children i)) :
    (∃ after, normalizeBranch children value = .ok after ∧ Canonical after ∧
      get after = get (branch children value) ∧ ∀ i hash, children i = blinded hash →
        Beside (get (branch children value)) [] i) ∨
      ∃ i hash, normalizeBranch children value = .error (.blindedCollapse hash) ∧
        children i = blinded hash ∧ ¬ Beside (get (branch children value)) [] i := by
  have members := fun i => @mem_live children i
  have kept : 2 ≤ occupied children value → ∀ i hash, children i = blinded hash →
      Beside (get (branch children value)) [] i :=
    fun two i _ _ => (beside_branch below i).mpr ((two_le_occupied.mp two).2 i)
  unfold normalizeBranch
  cases slots : live children with
  | nil =>
    rw [slots] at members
    have absent : ∀ i, children i = empty := by
      intro i
      by_contra filled
      exact absurd ((members i).mpr filled) List.not_mem_nil
    have reads : get (branch children []) = nothing := by
      rw [@get_branch_only children 0 fun i _ => absent i, absent 0, get_empty, shift_nothing]
    have hashes : ∀ {P : Prop} i hash, children i = blinded hash → P := by
      intro P i hash here
      exact absurd ((absent i).symm.trans here) nofun
    cases value with
    | nil => exact Or.inl ⟨_, rfl, .empty, reads.symm, fun i hash => hashes i hash⟩
    | cons byte rest =>
      refine Or.inl ⟨_, rfl, .leaf (List.cons_ne_nil _ _), ?_, fun i hash => hashes i hash⟩
      rw [get_leaf, ← reads, get_branch_value children _ (List.cons_ne_nil byte rest) []]
  | cons first others =>
    have filled : children first ≠ empty := mem_live.mp (slots ▸ List.mem_cons_self)
    cases value with
    | cons byte rest =>
      have two : 2 ≤ occupied children (byte :: rest) := by
        rw [occupied, slots, if_neg (List.cons_ne_nil _ _), List.length_cons]
        exact Nat.succ_le_succ (Nat.le_add_left _ _)
      cases others with
      | nil => exact Or.inl ⟨_, rfl, .branch below two, rfl, kept two⟩
      | cons _ _ => exact Or.inl ⟨_, rfl, .branch below two, rfl, kept two⟩
    | nil =>
      cases others with
      | cons second others =>
        have two : 2 ≤ occupied children [] := by
          rw [occupied, slots, List.length_cons, List.length_cons]
          exact (Nat.le_add_left 2 others.length).trans (Nat.le_add_right _ _)
        exact Or.inl ⟨_, rfl, .branch below two, rfl, kept two⟩
      | nil =>
        rw [slots] at members
        have alone : ∀ i, i ≠ first → children i = empty := by
          intro i apart
          by_contra present
          exact apart (List.mem_singleton.mp ((members i).mpr present))
        have solitary : ¬ Beside (get (branch children [])) [] first := by
          rw [beside_branch below]
          rintro (some | ⟨i, apart, present⟩)
          · exact some rfl
          · exact present (alone i apart)
        rcases collapse_spec first (below first) filled with
          ⟨after, ran, canonical, reads, seen⟩ | ⟨hash, here, ran⟩
        · refine Or.inl ⟨after, ran, canonical, ?_, ?_⟩
          · rw [reads, get_branch_only alone]
          · intro i hash here
            by_cases same : i = first
            · exact absurd (same ▸ here) (seen hash)
            · exact absurd ((alone i same).symm.trans here) nofun
        · exact Or.inr ⟨first, hash, ran, here, solitary⟩

end NormalizeBranch

/-! ## Removal -/

/-- What a removal leaves: the same reads but for its own path. -/
structure Removed (node : Node) (key : Path) (after : Node) : Prop where
  canonical : Canonical after
  reads : get after = Function.update (get node) key (.ok none)
  kept : Kept (get node) (Function.update (get node) key (.ok none))

/-- What a removal is refused for: a hash it would leave alone. -/
def Stranded (node : Node) (key : Path) (hash : Word32) : Prop :=
  ∃ place nibble, get node (place ++ [nibble]) = .error (.missingNode hash) ∧
    Beside (get node) place nibble ∧
    ¬ Beside (Function.update (get node) key (.ok none)) place nibble

/-- A hash at the root refuses every path alike. -/
theorem Canonical.blinded_of_get {node : Node} (canonical : Canonical node) {error : MptError}
    (here : get node [] = .error error) : ∃ hash, node = .blinded hash := by
  cases canonical with
  | empty => exact absurd here nofun
  | leaf => exact absurd here nofun
  | ext some =>
    rw [get_ext_of_apart (fun below => some (List.prefix_nil.mp below))] at here
    exact absurd here nofun
  | branch => exact absurd here nofun
  | blinded hash => exact ⟨hash, rfl⟩

/-- A removal below one of a branch's children, once the branch is normalized. -/
theorem normalize_removed {children after : Nibble → Node} {value own : List UInt8} {key : Path}
    (canonical : Canonical (branch children value)) (below : ∀ i, Canonical (after i))
    (reads : get (branch after own) = Function.update (get (branch children value)) key (.ok none))
    (hashes : ∀ i hash, children i = blinded hash ↔ after i = blinded hash)
    (kept : ∀ i, Kept (get (children i)) (get (after i))) :
    (∃ node, normalizeBranch after own = .ok node ∧ Removed (branch children value) key node) ∨
      ∃ hash, normalizeBranch after own = .error (.blindedCollapse hash) ∧
        Stranded (branch children value) key hash := by
  cases canonical with
  | branch canonical two =>
    rcases @normalizeBranch_spec after own below with
      ⟨node, ran, shaped, same, present⟩ | ⟨i, hash, ran, here, alone⟩
    · refine Or.inl ⟨node, ran, shaped, same.trans reads, ?_⟩
      rw [← reads]
      intro place nibble hash missing beside
      cases place with
      | nil =>
        obtain ⟨hash, here⟩ := (canonical nibble).blinded_of_get missing
        exact present nibble hash ((hashes nibble hash).mp here)
      | cons i place =>
        exact beside_cons.mpr (kept i place nibble hash missing (beside_cons.mp beside))
    · refine Or.inr ⟨hash, ran, [], i, ?_, ?_, by rwa [← reads]⟩
      · rw [List.nil_append, get, (hashes i hash).mpr here, get]
      · exact (beside_branch canonical i).mpr ((two_le_occupied.mp two).2 i)

theorem Kept.refl (reads : Reads) : Kept reads reads := fun _ _ _ _ beside => beside

/-- A removal does what its path's reading allows, and strands no hash. -/
theorem remove_spec {node : Node} (canonical : Canonical node) (key : Path) :
    (∀ error, get node key = .error error → remove node key = .error error) ∧
      ∀ found, get node key = .ok found →
        (∃ after, remove node key = .ok after ∧ Removed node key after) ∨
          ∃ hash, remove node key = .error (.blindedCollapse hash) ∧ Stranded node key hash := by
  induction canonical generalizing key with
  | empty =>
    refine ⟨fun _ here => ?_, fun _ _ => Or.inl ⟨_, rfl, .empty, ?_, fun _ _ _ missing => ?_⟩⟩
    · cases here
    · exact (Function.update_eq_self_iff.mpr rfl).symm
    · cases missing
  | @leaf path value some =>
    refine ⟨fun _ here => (by cases here), fun _ _ => Or.inl ?_⟩
    have kept : Kept (get (.leaf path value))
        (Function.update (get (.leaf path value)) key (.ok none)) := by
      intro _ _ _ missing
      cases missing
    by_cases here : path = key
    · refine ⟨_, congrArg Except.ok (if_pos here), .empty, ?_, kept⟩
      rw [get_leaf, here, Function.update_idem, get_empty]
      exact (Function.update_eq_self_iff.mpr rfl).symm
    · refine ⟨_, congrArg Except.ok (if_neg here), .leaf some, ?_, kept⟩
      rw [eq_comm, Function.update_eq_self_iff]
      exact (congrArg Except.ok (if_neg here)).symm
  | @ext path child some below forks ih =>
    by_cases inside : path <+: key
    · obtain ⟨rest, rfl⟩ := inside
      obtain ⟨refused, removed⟩ := ih rest
      have step : remove (.ext path child) (path ++ rest) =
          remove child rest >>= fun below => .ok (normalizeExt path below) := by
        rw [remove, if_pos (List.prefix_append path rest), List.drop_left]
      have reads : ∀ key, get (.ext path child) (path ++ key) = get child key :=
        fun key => get_ext_append path key child
      have after : (fun key => Function.update (get (.ext path child)) (path ++ rest) (.ok none)
          (path ++ key)) = Function.update (get child) rest (.ok none) := by
        rw [update_append]
        exact congrArg (Function.update · rest _) (funext reads)
      rw [get_ext_append, step]
      refine ⟨fun error here => by rw [refused error here]; rfl, fun found here => ?_⟩
      rcases removed found here with ⟨node, ran, done⟩ | ⟨hash, ran, place, nibble, missing, beside, alone⟩
      · obtain ⟨shaped, same⟩ := normalizeExt_spec some done.canonical
        refine Or.inl ⟨_, by rw [ran]; rfl, shaped, ?_, ?_⟩
        · rw [same, done.reads, shift_update, get_ext]
        · intro place nibble hash missing beside
          have inside : path <+: place ++ [nibble] := by
            obtain ⟨tail, whole, -⟩ := @exists_of_get_ext _ (place ++ [nibble]) _
              (by rw [missing]; simp)
            exact ⟨tail, whole.symm⟩
          obtain ⟨tail, whole⟩ := inside
          rcases List.eq_nil_or_concat tail with rfl | ⟨front, last, rfl⟩
          · -- the hash is the extension's own child, which refuses the key itself
            rw [← whole, reads] at missing
            obtain ⟨hash, blind⟩ := below.blinded_of_get missing
            rw [blind] at here
            cases here
          · rw [List.concat_eq_append, ← List.append_assoc] at whole
            obtain ⟨rfl, same⟩ := List.append_inj' whole rfl
            cases same
            rw [List.append_assoc, reads] at missing
            rw [beside_append] at beside ⊢
            rw [after]
            exact done.kept front nibble hash missing
              (by rwa [show (fun key => get (.ext path child) (path ++ key)) = get child from
                funext reads] at beside)
      · refine Or.inr ⟨hash, by rw [ran]; rfl, path ++ place, nibble, ?_, ?_, ?_⟩
        · rwa [List.append_assoc, reads]
        · rw [beside_append]
          rwa [show (fun key => get (.ext path child) (path ++ key)) = get child from funext reads]
        · rwa [beside_append, after]
    · have unread : get (.ext path child) key = .ok none := get_ext_of_apart inside
      have same : Function.update (get (.ext path child)) key (.ok none) = get (.ext path child) :=
        Function.update_eq_self_iff.mpr unread.symm
      rw [unread, remove, if_neg inside]
      refine ⟨fun _ here => (by cases here), fun _ _ => Or.inl ⟨_, rfl, .ext some below forks, same.symm, ?_⟩⟩
      rw [same]
      exact Kept.refl _
  | @branch children value below two ih =>
    have canonical : Canonical (.branch children value) := .branch below two
    cases key with
    | nil =>
      refine ⟨fun _ here => (by cases here), fun _ _ => ?_⟩
      refine normalize_removed canonical below ?_ (fun _ _ => Iff.rfl) fun i => Kept.refl _
      funext key
      cases key with
      | nil => rw [Function.update_self, get, if_pos rfl]
      | cons i rest => rw [Function.update_of_ne (List.cons_ne_nil i rest), get, get]
    | cons nibble rest =>
      obtain ⟨refused, removed⟩ := ih nibble rest
      refine ⟨fun error here => by rw [remove, refused error here]; rfl, fun found here => ?_⟩
      rcases removed found here with ⟨node, ran, done⟩ | ⟨hash, ran, place, i, missing, beside, alone⟩
      · have step : remove (.branch children value) (nibble :: rest) =
            normalizeBranch (Function.update children nibble node) value := by
          rw [remove, ran]
          rfl
        have seen : ∀ hash, children nibble ≠ .blinded hash := by
          intro hash blind
          rw [get, blind] at here
          cases here
        rw [step]
        refine normalize_removed canonical ?_ (get_branch_update children value nibble done.reads) ?_ ?_
        · intro i
          by_cases same : i = nibble
          · rw [same, Function.update_self]
            exact done.canonical
          · rw [Function.update_of_ne same]
            exact below i
        · intro i hash
          by_cases same : i = nibble
          · rw [same, Function.update_self]
            refine iff_of_false (seen hash) ?_
            intro blind
            have top : get node [] = .error (.missingNode hash) := by rw [blind, get]
            rw [done.reads] at top
            by_cases last : rest = []
            · rw [last, Function.update_self] at top
              cases top
            · rw [Function.update_of_ne (Ne.symm last)] at top
              obtain ⟨hash, blind⟩ := (below nibble).blinded_of_get top
              exact seen hash blind
          · rw [Function.update_of_ne same]
        · intro i
          by_cases same : i = nibble
          · rw [same, Function.update_self, done.reads]
            exact done.kept
          · rw [Function.update_of_ne same]
            exact Kept.refl _
      · have after := update_append (get (.branch children value)) [nibble] rest (.ok none)
        refine Or.inr ⟨hash, by rw [remove, ran]; rfl, nibble :: place, i, missing,
          beside_cons.mpr beside, ?_⟩
        intro left
        apply alone
        have lifted := beside_cons.mp left
        exact after ▸ lifted
  | blinded hash =>
    refine ⟨fun error here => ?_, fun _ here => ?_⟩
    · cases here
      rfl
    · cases here

end Apogee.Mpt
