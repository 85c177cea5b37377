import Mathlib.Data.List.Destutter
import Mathlib.Data.List.TakeWhile
import Mathlib.Data.List.Sort

/-! # Sorted tables

Entries sorted by a number and kept once for each, and what a binary search of them
finds: the place of an entry, or the place where one belongs.
-/

namespace Apogee.Math

variable {α : Type*} (rank : α → ℕ)

/-- Strictly ascending entries. -/
def Ascending (xs : List α) : Prop := xs.Pairwise fun x y => rank x < rank y

/-- Entries sorted, the first of those of one rank kept. -/
def table (xs : List α) : List α :=
  (xs.mergeSort fun x y => rank x ≤ rank y).destutter fun x y => rank x ≠ rank y

/-- Where entries of some rank begin. -/
def position (n : ℕ) (xs : List α) : ℕ := (xs.takeWhile fun x => rank x < n).length

/-- The place of the entry of a rank, or the place where it belongs. -/
def search (n : ℕ) (xs : List α) : Except ℕ ℕ :=
  if (xs[position rank n xs]?).any (rank · = n) then .ok (position rank n xs)
  else .error (position rank n xs)

/-- The entry of a rank. -/
def find (n : ℕ) (xs : List α) : Option α :=
  match search rank n xs with
  | .ok i => xs[i]?
  | .error _ => none

variable {rank} {xs : List α} {n : ℕ}

/-! ## Tables -/

theorem sorted_mergeSort (xs : List α) :
    (xs.mergeSort fun x y => rank x ≤ rank y).Pairwise fun x y => rank x ≤ rank y := by
  refine (List.pairwise_mergeSort ?_ ?_ xs).imp fun here => of_decide_eq_true here
  · intro x y z first second
    rw [decide_eq_true_eq] at *
    exact first.trans second
  · intro x y
    rw [Bool.or_eq_true, decide_eq_true_eq, decide_eq_true_eq]
    exact le_total _ _

/-- Entries in order, neighbours apart, ascend strictly. -/
theorem chain_lt (distinct : xs.IsChain fun x y => rank x ≠ rank y)
    (sorted : xs.Pairwise fun x y => rank x ≤ rank y) : xs.IsChain fun x y => rank x < rank y := by
  induction xs with
  | nil => exact List.isChain_nil
  | cons first rest ih =>
    obtain ⟨least, later⟩ := List.pairwise_cons.mp sorted
    cases rest with
    | nil => exact List.isChain_singleton first
    | cons second rest =>
      obtain ⟨apart, others⟩ := List.isChain_cons_cons.mp distinct
      refine List.isChain_cons_cons.mpr ⟨?_, ih others later⟩
      exact lt_of_le_of_ne (least second List.mem_cons_self) apart

theorem table_ascending (xs : List α) : Ascending rank (table rank xs) := by
  have distinct := List.isChain_destutter (fun x y : α => rank x ≠ rank y)
    (xs.mergeSort fun x y => rank x ≤ rank y)
  have sorted := (sorted_mergeSort xs).sublist
    (List.destutter_sublist (fun x y : α => rank x ≠ rank y) (xs.mergeSort fun x y => rank x ≤ rank y))
  have trans : IsTrans α fun x y => rank x < rank y := ⟨fun _ _ _ => lt_trans⟩
  exact List.isChain_iff_pairwise.mp (chain_lt distinct sorted)

theorem mem_of_mem_table {x : α} (member : x ∈ table rank xs) : x ∈ xs :=
  List.mem_mergeSort.mp ((List.destutter_sublist _ _).subset member)

theorem exists_mem_destutter' (first : α) (xs : List α) {x : α} (member : x ∈ first :: xs) :
    ∃ y ∈ xs.destutter' (fun x y => rank x ≠ rank y) first, rank y = rank x := by
  induction xs generalizing first x with
  | nil =>
    rw [List.mem_singleton] at member
    exact ⟨first, List.mem_singleton_self first, by rw [member]⟩
  | cons second xs ih =>
    by_cases apart : rank first ≠ rank second
    · rw [List.destutter'_cons, if_pos apart]
      rcases List.mem_cons.mp member with rfl | later
      · exact ⟨x, List.mem_cons_self, rfl⟩
      · obtain ⟨y, kept, same⟩ := ih second later
        exact ⟨y, List.mem_cons_of_mem _ kept, same⟩
    · rw [List.destutter'_cons, if_neg apart]
      have equal := not_not.mp apart
      rcases List.mem_cons.mp member with rfl | later
      · exact ih x List.mem_cons_self
      · rcases List.mem_cons.mp later with rfl | later
        · obtain ⟨y, kept, same⟩ := ih first List.mem_cons_self
          exact ⟨y, kept, same.trans equal⟩
        · exact ih first (List.mem_cons_of_mem _ later)

/-- Every rank among the entries is in their table. -/
theorem exists_mem_table {x : α} (member : x ∈ xs) : ∃ y ∈ table rank xs, rank y = rank x := by
  have listed : x ∈ xs.mergeSort fun x y => rank x ≤ rank y := List.mem_mergeSort.mpr member
  unfold table
  cases sorted : xs.mergeSort fun x y => rank x ≤ rank y with
  | nil =>
    rw [sorted] at listed
    exact absurd listed List.not_mem_nil
  | cons first rest =>
    rw [sorted] at listed
    rw [List.destutter_cons']
    exact exists_mem_destutter' first rest listed

/-! ## Searching -/

theorem getElem?_position (n : ℕ) (xs : List α) :
    xs[position rank n xs]? = (xs.dropWhile fun x => rank x < n).head? := by
  have parts := List.takeWhile_append_dropWhile (p := fun x => rank x < n) (l := xs)
  calc xs[position rank n xs]? = (xs.takeWhile (fun x => rank x < n) ++
        xs.dropWhile fun x => rank x < n)[position rank n xs]? := by rw [parts]
    _ = (xs.dropWhile fun x => rank x < n)[position rank n xs - position rank n xs]? :=
        List.getElem?_append_right le_rfl
    _ = (xs.dropWhile fun x => rank x < n).head? := by
        rw [Nat.sub_self, List.head?_eq_getElem?]

/-- A search finds the entry of a rank, when there is one. -/
theorem find_eq_some_iff (ascending : Ascending rank xs) {x : α} :
    find rank n xs = some x ↔ x ∈ xs ∧ rank x = n := by
  have parts := List.takeWhile_append_dropWhile (p := fun x => rank x < n) (l := xs)
  have entry := @getElem?_position _ rank n xs
  unfold find search
  constructor
  · intro found
    by_cases here : (xs[position rank n xs]?).any (rank · = n)
    · rw [if_pos here] at found
      dsimp only at found
      rw [found, Option.any_some, decide_eq_true_eq] at here
      exact ⟨List.mem_of_getElem? found, here⟩
    · rw [if_neg here] at found
      exact absurd found nofun
  · rintro ⟨member, same⟩
    have first : (xs.dropWhile fun x => rank x < n).head? = some x := by
      rw [← parts, List.mem_append] at member
      rcases member with before | after
      · have low := List.mem_takeWhile_imp before
        rw [decide_eq_true_eq, same] at low
        exact absurd low (lt_irrefl n)
      · cases rest : xs.dropWhile fun x => rank x < n with
        | nil =>
          rw [rest] at after
          exact absurd after List.not_mem_nil
        | cons y ys =>
          have high := List.head?_dropWhile_not (fun x => decide (rank x < n)) xs
          rw [rest, List.head?_cons] at high
          rw [rest] at after
          rcases List.mem_cons.mp after with rfl | later
          · rfl
          · have tail := ascending.sublist (List.dropWhile_sublist fun x => rank x < n)
            rw [rest] at tail
            have low := (List.pairwise_cons.mp tail).1 x later
            rw [same] at low
            exact absurd (decide_eq_true low) (by simpa using high)
    rw [if_pos (by rw [entry, first, Option.any_some, decide_eq_true_eq]; exact same)]
    dsimp only
    rw [entry, first]

/-- A search that finds nothing says that there is nothing. -/
theorem find_eq_none_iff (ascending : Ascending rank xs) :
    find rank n xs = none ↔ ∀ x ∈ xs, rank x ≠ n := by
  rw [Option.eq_none_iff_forall_ne_some]
  constructor
  · intro absent x member same
    exact absent x ((find_eq_some_iff ascending).mpr ⟨member, same⟩)
  · intro absent x found
    obtain ⟨member, same⟩ := (find_eq_some_iff ascending).mp found
    exact absent x member same

theorem position_le (n : ℕ) (xs : List α) : position rank n xs ≤ xs.length :=
  (List.takeWhile_sublist _).length_le

theorem find_eq_filter (n : ℕ) (xs : List α) :
    find rank n xs = (xs[position rank n xs]?).filter (rank · = n) := by
  unfold find search
  cases entry : xs[position rank n xs]? with
  | none => rfl
  | some x =>
    rw [Option.any_some]
    by_cases same : rank x = n
    · rw [if_pos (decide_eq_true same), Option.filter_some, if_pos (decide_eq_true same)]
      exact entry
    · rw [if_neg (by simpa using same), Option.filter_some, if_neg (by simpa using same)]

/-- A change that keeps ranks keeps places. -/
theorem position_modify {f : α → α} (same : ∀ x, rank (f x) = rank x) (xs : List α) (i : ℕ) :
    position rank n (xs.modify i f) = position rank n xs := by
  induction xs generalizing i with
  | nil => rw [List.modify_nil]
  | cons first rest ih =>
    cases i with
    | zero =>
      rw [List.modify_zero_cons, position, position, List.takeWhile_cons, List.takeWhile_cons, same]
      by_cases low : rank first < n
      · rw [if_pos (decide_eq_true low), if_pos (decide_eq_true low), List.length_cons,
          List.length_cons]
      · rw [if_neg (by simpa using low), if_neg (by simpa using low)]
    | succ i =>
      have next := ih i
      rw [position, position] at next
      rw [List.modify_succ_cons, position, position, List.takeWhile_cons, List.takeWhile_cons]
      by_cases low : rank first < n
      · rw [if_pos (decide_eq_true low), if_pos (decide_eq_true low), List.length_cons,
          List.length_cons, next]
      · rw [if_neg (by simpa using low), if_neg (by simpa using low)]

/-- A change that keeps ranks, of an entry of another rank, is not seen by a search. -/
theorem find_modify {f : α → α} (same : ∀ x, rank (f x) = rank x) {i : ℕ}
    (apart : ∀ x, xs[i]? = some x → rank x ≠ n) : find rank n (xs.modify i f) = find rank n xs := by
  rw [find_eq_filter, find_eq_filter, position_modify same, List.getElem?_modify]
  cases entry : xs[position rank n xs]? with
  | none => rfl
  | some x =>
    rw [Option.map_eq_map, Option.map_some]
    by_cases here : i = position rank n xs
    · subst here
      have other := apart x entry
      rw [if_pos rfl, Option.filter_some, Option.filter_some, same, if_neg (by simpa using other),
        if_neg (by simpa using other)]
    · rw [if_neg here]

/-- The entry of a rank is at its place. -/
theorem getElem?_of_find {x : α} (found : find rank n xs = some x) :
    xs[position rank n xs]? = some x := by
  rw [find_eq_filter] at found
  exact (Option.filter_eq_some_iff.mp found).1

theorem ascending_modify {f : α → α} (same : ∀ x, rank (f x) = rank x) (i : ℕ)
    (ascending : Ascending rank xs) : Ascending rank (xs.modify i f) := by
  have ranks : (xs.modify i f).map rank = xs.map rank := by
    refine List.ext_getElem? fun j => ?_
    rw [List.getElem?_map, List.getElem?_map, List.getElem?_modify]
    cases xs[j]? with
    | none => rfl
    | some x =>
      rw [Option.map_eq_map, Option.map_some, Option.map_some, Option.map_some]
      by_cases here : i = j
      · rw [if_pos here, same]
      · rw [if_neg here]
  rw [Ascending, ← List.pairwise_map (f := rank) (R := (· < ·)), ranks, List.pairwise_map]
  exact ascending

/-- Where the entry that is found is changed, the table has its change and its others. -/
theorem modify_found {f : α → α} {x : α} (found : find rank n xs = some x) :
    f x ∈ xs.modify (position rank n xs) f ∧
      (∀ y ∈ xs.modify (position rank n xs) f, y = f x ∨ y ∈ xs) ∧
      ∀ y ∈ xs, y = x ∨ y ∈ xs.modify (position rank n xs) f := by
  have here := getElem?_of_find found
  have entry : ∀ j, (xs.modify (position rank n xs) f)[j]? =
      xs[j]?.map fun y => if position rank n xs = j then f y else y := fun j => List.getElem?_modify _ _ _ _
  refine ⟨?_, fun y changed => ?_, fun y member => ?_⟩
  · refine List.mem_of_getElem? (i := position rank n xs) ?_
    rw [entry, here, Option.map_some, if_pos rfl]
  · obtain ⟨j, at_j⟩ := List.mem_iff_getElem?.mp changed
    rw [entry] at at_j
    obtain ⟨old, before, rfl⟩ := Option.map_eq_some_iff.mp at_j
    by_cases same : position rank n xs = j
    · subst same
      cases here.symm.trans before
      rw [if_pos rfl]
      exact Or.inl rfl
    · rw [if_neg same]
      exact Or.inr (List.mem_of_getElem? before)
  · obtain ⟨j, at_j⟩ := List.mem_iff_getElem?.mp member
    by_cases same : position rank n xs = j
    · subst same
      exact Or.inl (Option.some.inj (at_j.symm.trans here))
    · refine Or.inr (List.mem_of_getElem? (i := j) ?_)
      rw [entry, at_j, Option.map_some, if_neg same]

/-- An entry put where it belongs leaves the table ascending. -/
theorem ascending_insertIdx (ascending : Ascending rank xs) (absent : ∀ x ∈ xs, rank x ≠ n) {x : α}
    (same : rank x = n) : Ascending rank (xs.insertIdx (position rank n xs) x) := by
  induction xs with
  | nil => exact List.pairwise_singleton _ _
  | cons first rest ih =>
    obtain ⟨least, later⟩ := List.pairwise_cons.mp ascending
    obtain ⟨apart, others⟩ := List.forall_mem_cons.mp absent
    by_cases low : rank first < n
    · have next : position rank n (first :: rest) = position rank n rest + 1 := by
        rw [position, List.takeWhile_cons, if_pos (decide_eq_true low), List.length_cons, position]
      rw [next, List.insertIdx_succ_cons]
      refine List.pairwise_cons.mpr ⟨fun y member => ?_, ih later others⟩
      rcases (List.mem_insertIdx (position_le n rest)).mp member with rfl | listed
      · rwa [same]
      · exact least y listed
    · have here : position rank n (first :: rest) = 0 := by
        rw [position, List.takeWhile_cons, if_neg (by simpa using low), List.length_nil]
      have high : n < rank first := lt_of_le_of_ne (Nat.not_lt.mp low) (Ne.symm apart)
      rw [here, List.insertIdx_zero]
      refine List.pairwise_cons.mpr ⟨fun y member => ?_, ascending⟩
      rw [same]
      rcases List.mem_cons.mp member with rfl | listed
      · exact high
      · exact high.trans (least y listed)

end Apogee.Math
