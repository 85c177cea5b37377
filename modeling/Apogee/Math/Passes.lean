import Mathlib.Algebra.BigOperators.Group.List.Basic
import Mathlib.Data.Set.Basic

/-! # Passes over lists

A pass that may fail, run over a list: where it succeeds, it succeeded at every
entry, and the results are read off place by place.
-/

namespace Apogee.Math

section Steps

variable {α β ε : Type}

theorem bind_ok {step : Except ε α} {next : α → Except ε β} {result : β} :
    step >>= next = .ok result ↔ ∃ value, step = .ok value ∧ next value = .ok result := by
  cases step with
  | error e => simp [bind, Except.bind]
  | ok value => simp [bind, Except.bind]

theorem then_ok {step : Except ε Unit} {next : Except ε β} {result : β} :
    (do step; next) = .ok result ↔ step = .ok () ∧ next = .ok result := by
  rw [bind_ok]
  constructor
  · rintro ⟨_, first, second⟩
    exact ⟨first, second⟩
  · rintro ⟨first, second⟩
    exact ⟨(), first, second⟩

/-- Checks in a row pass when each does. -/
theorem forM_ok {check : α → Except ε Unit} {list : List α} :
    list.forM check = .ok () ↔ ∀ entry ∈ list, check entry = .ok () := by
  induction list with
  | nil => exact iff_of_true rfl fun entry member => absurd member List.not_mem_nil
  | cons entry list ih =>
    have unfolded : (entry :: list).forM check = (do check entry; list.forM check) := rfl
    rw [unfolded, then_ok, ih, List.forall_mem_cons]

/-- A pass over a list that succeeds succeeds at every entry. -/
theorem mapM_ok {step : α → Except ε β} {list : List α}
    {result : List β} (passed : list.mapM step = .ok result) :
    List.Forall₂ (fun entry value => step entry = .ok value) list result := by
  induction list generalizing result with
  | nil =>
    cases passed
    exact List.Forall₂.nil
  | cons entry list ih =>
    rw [List.mapM_cons] at passed
    obtain ⟨value, first, rest⟩ := bind_ok.mp passed
    obtain ⟨values, others, same⟩ := bind_ok.mp rest
    cases same
    exact List.Forall₂.cons first (ih others)

/-- A pass that succeeds at every entry with a known value. -/
theorem mapM_some {step : α → Option β} {value : α → β} {list : List α}
    (each : ∀ entry ∈ list, step entry = some (value entry)) :
    list.mapM step = some (list.map value) := by
  induction list with
  | nil => rfl
  | cons entry list ih =>
    obtain ⟨first, others⟩ := List.forall_mem_cons.mp each
    rw [List.mapM_cons, first, ih others]
    rfl

/-- A pass succeeds where it does at every entry. -/
theorem exists_mapM {step : α → Option β} {holds : α → β → Prop} {list : List α}
    (each : ∀ entry ∈ list, ∃ value, step entry = some value ∧ holds entry value) :
    ∃ values, list.mapM step = some values ∧ List.Forall₂ holds list values := by
  induction list with
  | nil => exact ⟨[], rfl, List.Forall₂.nil⟩
  | cons entry list ih =>
    obtain ⟨first, others⟩ := List.forall_mem_cons.mp each
    obtain ⟨value, stepped, here⟩ := first
    obtain ⟨values, passed, there⟩ := ih others
    exact ⟨value :: values, by rw [List.mapM_cons, stepped, passed]; rfl,
      List.Forall₂.cons here there⟩

/-- Each result of a pass is that of an entry. -/
theorem exists_of_mapM_ok {step : α → Except ε β} {list : List α} {result : List β}
    (passed : list.mapM step = .ok result) :
    ∀ value ∈ result, ∃ entry ∈ list, step entry = .ok value := by
  have each := mapM_ok passed
  clear passed
  induction each with
  | nil => exact fun value member => absurd member List.not_mem_nil
  | cons first rest ih =>
    refine List.forall_mem_cons.mpr ⟨⟨_, List.mem_cons_self, first⟩, fun value member => ?_⟩
    obtain ⟨entry, inside, found⟩ := ih value member
    exact ⟨entry, List.mem_cons_of_mem _ inside, found⟩

end Steps

/-! ## Where a pass ends -/

section Ends

variable {α β ε : Type} {allowed : ε → Prop}

/-- The step ends in a result of which `post` holds, or in an allowed error. -/
def Ends (allowed : ε → Prop) (post : α → Prop) : Except ε α → Prop
  | .ok result => post result
  | .error error => allowed error

namespace Ends

theorem imp {post post' : α → Prop} {step : Except ε α} (ends : Ends allowed post step)
    (weaker : ∀ result, post result → post' result) : Ends allowed post' step := by
  cases step with
  | error e => exact ends
  | ok result => exact weaker result ends

theorem of_ok {post : α → Prop} {step : Except ε α} {result : α} (ends : Ends allowed post step)
    (stepped : step = .ok result) : post result := by
  rw [stepped] at ends
  exact ends

theorem bind {mid : α → Prop} {post : β → Prop} {step : Except ε α} {next : α → Except ε β}
    (first : Ends allowed mid step) (rest : ∀ value, mid value → Ends allowed post (next value)) :
    Ends allowed post (step >>= next) := by
  cases step with
  | error e => exact first
  | ok value => exact rest value first

/-- Checks in a row pass when each does. -/
theorem forM {check : α → Except ε Unit} {holds : α → Prop} {list : List α}
    (each : ∀ entry ∈ list, Ends allowed (fun _ => holds entry) (check entry)) :
    Ends allowed (fun _ => ∀ entry ∈ list, holds entry) (list.forM check) := by
  induction list with
  | nil => exact fun entry member => absurd member List.not_mem_nil
  | cons entry list ih =>
    obtain ⟨first, others⟩ := List.forall_mem_cons.mp each
    exact first.bind fun _ here => (ih others).imp fun _ later =>
      List.forall_mem_cons.mpr ⟨here, later⟩

/-- A pass gives each entry a value it holds of. -/
theorem mapM {step : α → Except ε β} {holds : α → β → Prop} {list : List α}
    (each : ∀ entry ∈ list, Ends allowed (holds entry) (step entry)) :
    Ends allowed (List.Forall₂ holds list) (list.mapM step) := by
  induction list with
  | nil => exact List.Forall₂.nil
  | cons entry list ih =>
    obtain ⟨first, others⟩ := List.forall_mem_cons.mp each
    rw [List.mapM_cons]
    exact first.bind fun value here => (ih others).bind fun values later =>
      List.Forall₂.cons here later

/-- What every turn of a loop preserves holds after it. -/
theorem foldlM {step : β → α → Except ε β} {invariant : β → Prop} {list : List α} {start : β}
    (initially : invariant start)
    (each : ∀ state, invariant state → ∀ entry ∈ list, Ends allowed invariant (step state entry)) :
    Ends allowed invariant (list.foldlM step start) := by
  induction list generalizing start with
  | nil => exact initially
  | cons entry list ih =>
    rw [List.foldlM_cons]
    exact (each start initially entry List.mem_cons_self).bind fun state kept =>
      ih kept fun state' kept' other member =>
        each state' kept' other (List.mem_cons_of_mem _ member)

end Ends

end Ends

/-- Related lists are related place by place. -/
theorem forall₂_getElem? {α β : Type} {holds : α → β → Prop} {left : List α} {right : List β}
    (each : List.Forall₂ holds left right) {i : ℕ} {entry : α} (found : left[i]? = some entry) :
    ∃ other, right[i]? = some other ∧ holds entry other := by
  induction each generalizing i with
  | nil => cases found
  | cons first rest ih =>
    cases i with
    | zero =>
      cases found
      exact ⟨_, rfl, first⟩
    | succ i => exact ih found

/-- What holds of every item of an indexed map holds at every place. -/
theorem forall_mem_mapIdx {α β : Type*} {f : ℕ → α → β} {list : List α} {property : β → Prop} :
    (∀ item ∈ list.mapIdx f, property item) ↔
      ∀ i, (inside : i < list.length) → property (f i list[i]) := by
  simp only [List.mem_mapIdx, forall_exists_index]
  exact ⟨fun each i inside => each _ i inside rfl, fun each item i inside same =>
    same ▸ each i inside⟩

/-- A sum of an indexed map, by its places. -/
theorem sum_map_mapIdx {α β M : Type*} [AddCommMonoid M] (f : ℕ → α → β) (g : β → M)
    (list : List α) (fallback : α) :
    ((list.mapIdx f).map g).sum =
      ((List.range list.length).map fun i => g (f i (list.getD i fallback))).sum := by
  congr 1
  refine List.ext_getElem (by simp) fun i left right => ?_
  have inside : i < list.length := by simpa using left
  simp [inside]

end Apogee.Math

/-! ## Reordering partial steps

Steps that read and write cells of a memory commute when neither writes what the
other reads or writes. A run may be reordered when every two steps whose order it
turns around commute.
-/

namespace Apogee.Math

section Commute

variable {σ ι : Type}

/-- Two steps in either order end alike. -/
def Commutes (step : σ → ι → Option σ) (a b : ι) : Prop :=
  ∀ s, (step s a).bind (step · b) = (step s b).bind (step · a)

theorem Commutes.symm {step : σ → ι → Option σ} {a b : ι} (commutes : Commutes step a b) :
    Commutes step b a := fun s => (commutes s).symm

/-- A step that commutes with those before it may come first. -/
theorem foldlM_move {step : σ → ι → Option σ} {a : ι} {before : List ι}
    (commutes : ∀ b ∈ before, Commutes step b a) (after : List ι) (s : σ) :
    (before ++ a :: after).foldlM step s = (a :: (before ++ after)).foldlM step s := by
  induction before generalizing s with
  | nil => rfl
  | cons b before ih =>
    obtain ⟨first, rest⟩ := List.forall_mem_cons.mp commutes
    have swap := first s
    calc (b :: before ++ a :: after).foldlM step s
        = (step s b).bind fun s' => (a :: (before ++ after)).foldlM step s' := by
          rw [List.cons_append, List.foldlM_cons]
          exact congrArg _ (funext fun s' => ih rest s')
      _ = ((step s b).bind (step · a)).bind fun s' => (before ++ after).foldlM step s' := by
          rw [Option.bind_assoc]
          rfl
      _ = ((step s a).bind (step · b)).bind fun s' => (before ++ after).foldlM step s' := by
          rw [swap]
      _ = (a :: (b :: before ++ after)).foldlM step s := by
          rw [Option.bind_assoc]
          rfl

/-- A run over another order of the same steps ends alike, if the steps whose order is
turned around commute. -/
theorem foldlM_reorder [LinearOrder ι] {step : σ → ι → Option σ} {sorted order : List ι}
    (ascending : sorted.Pairwise (· < ·)) (perm : order.Perm sorted)
    (turned : order.Pairwise fun a b => b < a → Commutes step a b) (s : σ) :
    order.foldlM step s = sorted.foldlM step s := by
  induction sorted generalizing order s with
  | nil => rw [List.Perm.eq_nil perm]
  | cons a sorted ih =>
    obtain ⟨least, ascending⟩ := List.pairwise_cons.mp ascending
    obtain ⟨before, after, rfl⟩ := List.append_of_mem (perm.symm.subset List.mem_cons_self)
    have rest : (before ++ after).Perm sorted :=
      (List.perm_middle.symm.trans perm).cons_inv
    obtain ⟨beforeTurned, _, across⟩ := List.pairwise_append.mp turned
    have first : ∀ b ∈ before, Commutes step b a := fun b member =>
      across b member a List.mem_cons_self (least b (rest.subset (List.mem_append_left _ member)))
    rw [foldlM_move first, List.foldlM_cons, List.foldlM_cons]
    refine congrArg _ (funext fun s' => ih ascending rest ?_ s')
    exact turned.sublist (List.Sublist.append_left (List.sublist_cons_self a after) before)

end Commute

section Footprint

variable {κ ν : Type}

/-- What a partial action on a memory reads and what it writes. -/
structure Footprint (act : (κ → ν) → Option (κ → ν)) (reads writes : Set κ) : Prop where
  frame : ∀ m m', act m = some m' → ∀ c ∉ writes, m' c = m c
  congr : ∀ m n, (∀ c ∈ reads, m c = n c) → (act m = none ∧ act n = none) ∨
    ∃ m' n', act m = some m' ∧ act n = some n' ∧ ∀ c ∈ writes, m' c = n' c

/-- Actions commute when neither writes what the other reads or writes. -/
theorem Footprint.commutes {ι : Type} {step : (κ → ν) → ι → Option (κ → ν)} {a b : ι}
    {aReads aWrites bReads bWrites : Set κ}
    (first : Footprint (step · a) aReads aWrites) (second : Footprint (step · b) bReads bWrites)
    (aApart : ∀ c ∈ aWrites, c ∉ bReads ∧ c ∉ bWrites)
    (bApart : ∀ c ∈ bWrites, c ∉ aReads ∧ c ∉ aWrites) : Commutes step a b := by
  intro m
  have alone : (step m a = none ∧ (step m b).bind (step · a) = none) ∨
      ∃ ma, step m a = some ma := by
    cases ran : step m a with
    | some ma => exact .inr ⟨ma, rfl⟩
    | none =>
      refine .inl ⟨rfl, ?_⟩
      cases other : step m b with
      | none => rfl
      | some mb =>
        have same := first.congr m mb fun c member =>
          (second.frame m mb other c fun written => (bApart c written).1 member).symm
        rcases same with ⟨-, stuck⟩ | ⟨m', _, ok, -⟩
        · exact stuck
        · exact absurd (ran.symm.trans ok) nofun
  rcases alone with ⟨stuck, both⟩ | ⟨ma, ranA⟩
  · rw [both]
    exact congrArg (Option.bind · (step · b)) stuck
  · rw [ranA, Option.bind_some]
    have unread := second.congr m ma fun c member =>
      (first.frame m ma ranA c fun written => (aApart c written).1 member).symm
    rcases unread with ⟨stuckM, stuckA⟩ | ⟨mb, mab, ranB, ranAB, sameB⟩
    · rw [show step m b = none from stuckM, show step ma b = none from stuckA]
      rfl
    · rw [show step m b = some mb from ranB, show step ma b = some mab from ranAB,
        Option.bind_some]
      have unread' := first.congr m mb fun c member =>
        (second.frame m mb ranB c fun written => (bApart c written).1 member).symm
      rcases unread' with ⟨stuck, -⟩ | ⟨ma', mba, ranA', ranBA, sameA⟩
      · exact absurd (ranA.symm.trans stuck) nofun
      · cases ranA.symm.trans ranA'
        rw [show step mb a = some mba from ranBA, Option.some.injEq]
        funext c
        by_cases inA : c ∈ aWrites
        · rw [second.frame ma mab ranAB c (aApart c inA).2, sameA c inA]
        · by_cases inB : c ∈ bWrites
          · rw [first.frame mb mba ranBA c inA, sameB c inB]
          · rw [second.frame ma mab ranAB c inB, first.frame m ma ranA c inA,
              first.frame mb mba ranBA c inA, second.frame m mb ranB c inB]

end Footprint

end Apogee.Math
