import Mathlib.Algebra.Order.Group.Multiset
import Mathlib.Order.WellFounded

/-! # Balanced edges are walks

Edges that only ascend, whose sources and targets balance but for one start and
one finish, are the steps of one walk from the start to the finish. With nodes
sorted by a key that edges keep, and at most one start for each key, every key's
edges are its own walk, and a key without a start has no edges.
-/

namespace Apogee.Math

variable {Edge Node Key : Type*}

/-- The edges lead from one node to another, each leaving where the last arrived. -/
def Walk (src dst : Edge → Node) : Node → List Edge → Node → Prop
  | start, [], finish => start = finish
  | start, edge :: path, finish => src edge = start ∧ Walk src dst (dst edge) path finish

section Balanced

variable (src dst : Edge → Node) (rank : Node → ℕ) {edges : Multiset Edge}

/-- The lowest source is no edge's target. -/
theorem exists_lowest (ascends : ∀ edge ∈ edges, rank (src edge) < rank (dst edge))
    (nonempty : edges ≠ 0) : ∃ edge ∈ edges, src edge ∉ edges.map dst := by
  obtain ⟨first, member⟩ := Multiset.exists_mem_of_ne_zero nonempty
  obtain ⟨lowest, inside, least⟩ := WellFounded.has_min
    (measure fun edge => rank (src edge)).wf {edge | edge ∈ edges} ⟨first, member⟩
  refine ⟨lowest, inside, fun target => ?_⟩
  obtain ⟨other, otherMember, arrives⟩ := Multiset.mem_map.mp target
  apply least other otherMember
  show rank (src other) < rank (src lowest)
  rw [← arrives]
  exact ascends other otherMember

/-- Ascending edges whose sources are their targets are no edges. -/
theorem eq_zero_of_balanced (ascends : ∀ edge ∈ edges, rank (src edge) < rank (dst edge))
    (balanced : edges.map src = edges.map dst) : edges = 0 := by
  by_contra nonempty
  obtain ⟨lowest, inside, noTarget⟩ := exists_lowest src dst rank ascends nonempty
  apply noTarget
  rw [← balanced]
  exact Multiset.mem_map_of_mem src inside

/-- Ascending edges balanced between a start and a finish are one walk. -/
theorem exists_walk {start finish : Node}
    (ascends : ∀ edge ∈ edges, rank (src edge) < rank (dst edge))
    (balanced : edges.map src + {finish} = edges.map dst + {start}) :
    ∃ path : List Edge, (path : Multiset Edge) = edges ∧ Walk src dst start path finish := by
  induction card : edges.card generalizing edges start with
  | zero =>
    rw [Multiset.card_eq_zero] at card
    subst card
    rw [Multiset.map_zero, Multiset.map_zero, zero_add, zero_add] at balanced
    exact ⟨[], rfl, (Multiset.singleton_inj.mp balanced).symm⟩
  | succ n ih =>
    have nonempty : edges ≠ 0 := by
      rintro rfl
      exact absurd card (by simp)
    obtain ⟨lowest, inside, noTarget⟩ := exists_lowest src dst rank ascends nonempty
    have leaves : src lowest = start := by
      have listed : src lowest ∈ edges.map dst + {start} := by
        rw [← balanced]
        exact Multiset.mem_add.mpr (Or.inl (Multiset.mem_map_of_mem src inside))
      exact Multiset.mem_singleton.mp ((Multiset.mem_add.mp listed).resolve_left noTarget)
    obtain ⟨rest, rfl⟩ := Multiset.exists_cons_of_mem inside
    have residual : rest.map src + {finish} = rest.map dst + {dst lowest} := by
      rw [Multiset.map_cons, Multiset.map_cons, leaves] at balanced
      apply (Multiset.cons_inj_right start).mp
      rw [← Multiset.cons_add, balanced]
      simp only [← Multiset.singleton_add, add_comm, add_left_comm]
    rw [Multiset.card_cons, Nat.add_right_cancel_iff] at card
    obtain ⟨path, isRest, walk⟩ := ih
      (fun edge member => ascends edge (Multiset.mem_cons_of_mem member)) residual card
    refine ⟨lowest :: path, ?_, leaves, walk⟩
    rw [← isRest]
    rfl

end Balanced

namespace Walk

variable {src dst : Edge → Node} (rank : Node → ℕ) {start finish : Node} {path : List Edge}

/-- A walk can be cut before any of its edges. -/
theorem split {edge : Edge} {before after : List Edge}
    (walk : Walk src dst start (before ++ edge :: after) finish) :
    Walk src dst start before (src edge) ∧ Walk src dst (dst edge) after finish := by
  induction before generalizing start with
  | nil => exact ⟨walk.1.symm, walk.2⟩
  | cons first before ih => exact ⟨⟨walk.1, (ih walk.2).1⟩, (ih walk.2).2⟩

/-- A walk ends where its last edge arrives. -/
theorem finish_eq {edge : Edge} (walk : Walk src dst start path finish)
    (last : path.getLast? = some edge) : dst edge = finish := by
  obtain ⟨before, rfl⟩ := List.getLast?_eq_some_iff.mp last
  exact walk.split.2

/-- What the start has and every edge hands on, every edge's ends and the finish have. -/
theorem preserves {P : Node → Prop} (first : P start)
    (keeps : ∀ edge ∈ path, P (src edge) → P (dst edge))
    (walk : Walk src dst start path finish) :
    (∀ edge ∈ path, P (src edge) ∧ P (dst edge)) ∧ P finish := by
  induction path generalizing start with
  | nil => exact ⟨fun edge member => absurd member List.not_mem_nil, walk ▸ first⟩
  | cons edge path ih =>
    obtain ⟨rfl, walk⟩ := walk
    have step := keeps edge List.mem_cons_self first
    obtain ⟨later, last⟩ :=
      ih step (fun other member => keeps other (List.mem_cons_of_mem _ member)) walk
    exact ⟨List.forall_mem_cons.mpr ⟨⟨first, step⟩, later⟩, last⟩

/-- An ascending walk's edges arrive above its start. -/
theorem start_lt (ascends : ∀ edge ∈ path, rank (src edge) < rank (dst edge))
    (walk : Walk src dst start path finish) : ∀ edge ∈ path, rank start < rank (dst edge) := by
  induction path generalizing start with
  | nil => exact fun edge member => absurd member List.not_mem_nil
  | cons first path ih =>
    intro edge member
    have step := ascends first List.mem_cons_self
    rw [walk.1] at step
    rcases List.mem_cons.mp member with rfl | later
    · exact step
    · exact step.trans (ih (fun edge member => ascends edge (List.mem_cons_of_mem _ member))
        walk.2 edge later)

/-- An ascending walk arrives ever higher. -/
theorem sorted (ascends : ∀ edge ∈ path, rank (src edge) < rank (dst edge))
    (walk : Walk src dst start path finish) :
    path.Pairwise fun left right => rank (dst left) < rank (dst right) := by
  induction path generalizing start with
  | nil => exact List.Pairwise.nil
  | cons first path ih =>
    have later : ∀ edge ∈ path, rank (src edge) < rank (dst edge) :=
      fun edge member => ascends edge (List.mem_cons_of_mem _ member)
    exact List.pairwise_cons.mpr ⟨walk.2.start_lt rank later, ih later walk.2⟩

/-- The last arrival of a nonempty ascending walk is its highest, and its end. -/
theorem le_finish (ascends : ∀ edge ∈ path, rank (src edge) < rank (dst edge))
    (walk : Walk src dst start path finish) :
    (path = [] ∧ start = finish) ∨ ∃ edge ∈ path, dst edge = finish ∧
      ∀ other ∈ path, rank (dst other) ≤ rank (dst edge) := by
  rcases List.eq_nil_or_concat path with rfl | ⟨before, last, rfl⟩
  · exact Or.inl ⟨rfl, walk⟩
  · rw [List.concat_eq_append] at *
    refine Or.inr ⟨last, by simp, walk.split.2, fun other member => ?_⟩
    have ordered := List.pairwise_append.mp (walk.sorted rank ascends)
    rcases List.mem_append.mp member with earlier | same
    · exact (ordered.2.2 other earlier last (List.mem_singleton.mpr rfl)).le
    · rw [List.mem_singleton.mp same]

/-- An edge of an ascending walk leaves where the highest lower arrival is, or from
the start if none is lower. -/
theorem src_eq {edge : Edge} (ascends : ∀ edge ∈ path, rank (src edge) < rank (dst edge))
    (walk : Walk src dst start path finish) (member : edge ∈ path) :
    (src edge = start ∧ ∀ other ∈ path, rank (dst edge) ≤ rank (dst other)) ∨
      ∃ previous ∈ path, src edge = dst previous ∧ rank (dst previous) < rank (dst edge) ∧
        ∀ other ∈ path, rank (dst other) < rank (dst edge) →
          rank (dst other) ≤ rank (dst previous) := by
  obtain ⟨before, after, rfl⟩ := List.append_of_mem member
  have ordered := List.pairwise_append.mp (walk.sorted rank ascends)
  have above : ∀ other ∈ edge :: after, rank (dst edge) ≤ rank (dst other) := by
    intro other listed
    rcases List.mem_cons.mp listed with rfl | later
    · exact le_rfl
    · exact ((List.pairwise_cons.mp ordered.2.1).1 other later).le
  have earlier : ∀ edge ∈ before, rank (src edge) < rank (dst edge) :=
    fun edge listed => ascends edge (List.mem_append_left _ listed)
  rcases walk.split.1.le_finish rank earlier with ⟨rfl, here⟩ | ⟨previous, listed, arrives, highest⟩
  · exact Or.inl ⟨here.symm, above⟩
  · refine Or.inr ⟨previous, List.mem_append_left _ listed, arrives.symm,
      ordered.2.2 previous listed edge List.mem_cons_self, fun other within lower => ?_⟩
    rcases List.mem_append.mp within with inside | outside
    · exact highest other inside
    · exact absurd lower (not_lt.mpr (above other outside))

/-- Two ascending walks over the same edges are one. -/
theorem unique {other : List Edge} {start' finish' : Node}
    (ascends : ∀ edge ∈ path, rank (src edge) < rank (dst edge))
    (walk : Walk src dst start path finish) (walk' : Walk src dst start' other finish')
    (same : other.Perm path) : other = path := by
  have ascends' : ∀ edge ∈ other, rank (src edge) < rank (dst edge) :=
    fun edge member => ascends edge (same.mem_iff.mp member)
  refine List.Perm.eq_of_pairwise (fun left right _ _ forward backward => ?_)
    (walk'.sorted rank ascends') (walk.sorted rank ascends) same
  exact absurd forward backward.asymm

end Walk

section Keyed

variable [DecidableEq Key] (src dst : Edge → Node) (rank : Node → ℕ)
  (key : Node → Key) {edges : Multiset Edge} {starts finishes : Multiset Node}

/-- Balance holds key by key, where edges keep their key. -/
theorem balanced_filter (keeps : ∀ edge ∈ edges, key (src edge) = key (dst edge))
    (balanced : edges.map src + finishes = edges.map dst + starts) (k : Key) :
    (edges.filter fun edge => key (dst edge) = k).map src + finishes.filter (key · = k) =
      (edges.filter fun edge => key (dst edge) = k).map dst + starts.filter (key · = k) := by
  have filtered := congrArg (Multiset.filter (key · = k)) balanced
  rw [Multiset.filter_add, Multiset.filter_add, Multiset.filter_map, Multiset.filter_map] at filtered
  have same : edges.filter ((key · = k) ∘ src) = edges.filter fun edge => key (dst edge) = k :=
    Multiset.filter_congr fun edge member => by rw [Function.comp_apply, keeps edge member]
  rw [same] at filtered
  exact filtered

/-- A key has as many finishes as starts. -/
theorem card_finishes (keeps : ∀ edge ∈ edges, key (src edge) = key (dst edge))
    (balanced : edges.map src + finishes = edges.map dst + starts) (k : Key) :
    (finishes.filter (key · = k)).card = (starts.filter (key · = k)).card := by
  have counts := congrArg Multiset.card (balanced_filter src dst key keeps balanced k)
  simpa using counts

/-- Every edge's key has a start. -/
theorem exists_start (ascends : ∀ edge ∈ edges, rank (src edge) < rank (dst edge))
    (keeps : ∀ edge ∈ edges, key (src edge) = key (dst edge))
    (balanced : edges.map src + finishes = edges.map dst + starts) :
    ∀ edge ∈ edges, ∃ start ∈ starts, key start = key (dst edge) := by
  intro edge member
  by_contra none
  have noStarts : starts.filter (key · = key (dst edge)) = 0 :=
    Multiset.filter_eq_nil.mpr fun start listed same => none ⟨start, listed, same⟩
  have noFinishes : finishes.filter (key · = key (dst edge)) = 0 := by
    rw [← Multiset.card_eq_zero, card_finishes src dst key keeps balanced, noStarts, Multiset.card_zero]
  have closed := balanced_filter src dst key keeps balanced (key (dst edge))
  rw [noStarts, noFinishes, add_zero, add_zero] at closed
  have empty := eq_zero_of_balanced src dst rank
    (fun other inside => ascends other (Multiset.mem_filter.mp inside).1) closed
  apply Multiset.notMem_zero edge
  rw [← empty]
  exact Multiset.mem_filter.mpr ⟨member, rfl⟩

/-- Every finish's key has a start. -/
theorem exists_start_of_finish (keeps : ∀ edge ∈ edges, key (src edge) = key (dst edge))
    (balanced : edges.map src + finishes = edges.map dst + starts) :
    ∀ finish ∈ finishes, ∃ start ∈ starts, key start = key finish := by
  intro finish member
  have inside : finish ∈ finishes.filter (key · = key finish) :=
    Multiset.mem_filter.mpr ⟨member, rfl⟩
  have positive := Multiset.card_pos_iff_exists_mem.mpr ⟨finish, inside⟩
  rw [card_finishes src dst key keeps balanced] at positive
  obtain ⟨start, listed⟩ := Multiset.card_pos_iff_exists_mem.mp positive
  exact ⟨start, (Multiset.mem_filter.mp listed).1, (Multiset.mem_filter.mp listed).2⟩

/-- A key's one start is all its starts. -/
theorem filter_start {start : Node} (distinct : (starts.map key).Nodup) (listed : start ∈ starts) :
    starts.filter (key · = key start) = {start} := by
  obtain ⟨rest, rfl⟩ := Multiset.exists_cons_of_mem listed
  rw [Multiset.map_cons, Multiset.nodup_cons] at distinct
  have others : rest.filter (key · = key start) = 0 :=
    Multiset.filter_eq_nil.mpr fun other inside same =>
      distinct.1 (Multiset.mem_map.mpr ⟨other, inside, same⟩)
  rw [Multiset.filter_cons_of_pos rest (show key start = key start from rfl), others]
  rfl

/-- A key with one start has one finish, and its edges are the walk between them. -/
theorem exists_keyed_walk {start : Node}
    (ascends : ∀ edge ∈ edges, rank (src edge) < rank (dst edge))
    (keeps : ∀ edge ∈ edges, key (src edge) = key (dst edge))
    (balanced : edges.map src + finishes = edges.map dst + starts)
    (distinct : (starts.map key).Nodup) (listed : start ∈ starts) :
    ∃ (path : List Edge) (finish : Node),
      (path : Multiset Edge) = edges.filter (fun edge => key (dst edge) = key start) ∧
        finishes.filter (key · = key start) = {finish} ∧ Walk src dst start path finish := by
  have only := filter_start key distinct listed
  obtain ⟨finish, finishIs⟩ := Multiset.card_eq_one.mp
    ((card_finishes src dst key keeps balanced (key start)).trans (by rw [only, Multiset.card_singleton]))
  have between := balanced_filter src dst key keeps balanced (key start)
  rw [only, finishIs] at between
  obtain ⟨path, isFilter, walk⟩ := exists_walk src dst rank
    (fun edge inside => ascends edge (Multiset.mem_filter.mp inside).1) between
  exact ⟨path, finish, isFilter, finishIs, walk⟩

/-- No two edges of one key arrive equally high, where each key has at most one start. -/
theorem arrivals_nodup (ascends : ∀ edge ∈ edges, rank (src edge) < rank (dst edge))
    (keeps : ∀ edge ∈ edges, key (src edge) = key (dst edge))
    (balanced : edges.map src + finishes = edges.map dst + starts)
    (distinct : (starts.map key).Nodup) :
    (edges.map fun edge => (key (dst edge), rank (dst edge))).Nodup := by
  classical
  rw [Multiset.nodup_iff_count_le_one]
  rintro ⟨k, height⟩
  rw [Multiset.count_map]
  by_cases listed : ∃ start ∈ starts, key start = k
  · obtain ⟨start, member, rfl⟩ := listed
    obtain ⟨path, finish, isFilter, -, walk⟩ :=
      exists_keyed_walk src dst rank key ascends keeps balanced distinct member
    have pathAscends : ∀ edge ∈ path, rank (src edge) < rank (dst edge) := by
      intro edge inside
      rw [← Multiset.mem_coe, isFilter] at inside
      exact ascends edge (Multiset.mem_filter.mp inside).1
    have heights : (path.map fun edge => rank (dst edge)).Nodup :=
      List.pairwise_map.mpr ((walk.sorted rank pathAscends).imp fun less => less.ne)
    have once := Multiset.nodup_iff_count_le_one.mp (Multiset.coe_nodup.mpr heights) height
    rw [← Multiset.map_coe, isFilter, Multiset.count_map, Multiset.filter_filter] at once
    refine le_trans (Multiset.card_le_card (Multiset.monotone_filter_right _ ?_)) once
    intro edge same
    exact ⟨congrArg Prod.snd same, (congrArg Prod.fst same).symm⟩
  · have none : edges.filter (fun edge => (k, height) = (key (dst edge), rank (dst edge))) = 0 := by
      refine Multiset.filter_eq_nil.mpr fun edge member same => listed ?_
      obtain ⟨start, inside, keyEq⟩ := exists_start src dst rank key ascends keeps balanced edge member
      exact ⟨start, inside, keyEq.trans (congrArg Prod.fst same).symm⟩
    rw [none, Multiset.card_zero]
    exact Nat.zero_le 1

end Keyed

end Apogee.Math
