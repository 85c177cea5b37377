import Apogee.Math.Tiling
import Apogee.Recursion.TreeText
import Mathlib.Algebra.BigOperators.Fin
import Mathlib.Algebra.BigOperators.Intervals
import Mathlib.Algebra.Order.BigOperators.Group.Finset
import Mathlib.Data.List.GetD

/-! # The leaves of a plan

The shards are cut where a leaf would pass its limits, and nowhere else: each leaf is the
longest from where it starts, so no cut has fewer.
-/

namespace Apogee.Recursion

open Math (Tiles Longest Hereditary)

section

variable (costs : List UInt64) (leaf : ℕ) (budget : UInt64)

/-- What the shards of a range cost together. -/
def spending (start stop : ℕ) : ℕ := ∑ i ∈ Finset.Ico start stop, (costs.getD i 0).toNat

/-- A leaf within its limits: the shards and their cost, unless it is one shard. -/
def Admits (start stop : ℕ) : Prop :=
  stop - start ≤ leaf ∧ (spending costs start stop ≤ budget.toNat ∨ stop - start = 1)

end

variable {costs : List UInt64} {leaf : ℕ} {budget : UInt64}

theorem spending_succ {start stop : ℕ} (some : start ≤ stop) :
    spending costs start (stop + 1) = spending costs start stop + (costs.getD stop 0).toNat :=
  Finset.sum_Ico_succ_top some _

theorem spending_mono {a b c d : ℕ} (left : a ≤ b) (right : c ≤ d) :
    spending costs b c ≤ spending costs a d :=
  Finset.sum_le_sum_of_subset (Finset.Ico_subset_Ico left right)

theorem admits_hereditary : Hereditary (Admits costs leaf budget) := by
  intro a b c d admitted left some right
  obtain ⟨short, cheap⟩ := admitted
  refine ⟨by omega, ?_⟩
  rcases cheap with within | single
  · exact Or.inl ((spending_mono left right).trans within)
  · exact Or.inr (by omega)

/-- A shard alone is always a leaf. -/
theorem admits_single (positive : 1 ≤ leaf) (start : ℕ) : Admits costs leaf budget start (start + 1) :=
  ⟨by omega, Or.inr (by omega)⟩

def leafOf (range : ℕ × ℕ) : TreeNode := .leaf (UInt32.ofNat range.1) (UInt32.ofNat range.2)

/-- Leaves closed for these ranges, and one open over the shards up to `seen`. -/
structure Cutting.Open (costs : List UInt64) (leaf : ℕ) (budget : UInt64) (seen : ℕ)
    (state : Cutting) (ranges : List (ℕ × ℕ)) : Prop where
  tiled : Tiles state.start 0 ranges
  longest : ∀ range ∈ ranges, Admits costs leaf budget range.1 range.2 ∧
    ¬ Admits costs leaf budget range.1 (range.2 + 1)
  nodes : state.nodes = ranges.map leafOf
  level : state.level = List.range ranges.length
  started : state.start < seen ∨ state.start = 0 ∧ seen = 0
  admitted : state.start < seen → Admits costs leaf budget state.start seen
  spent : state.spent.toNat = spending costs state.start seen

/-- Closing the open leaf. -/
theorem Cutting.Open.close {seen stop : ℕ} {state : Cutting} {ranges : List (ℕ × ℕ)}
    (opened : state.Open costs leaf budget seen ranges) (more : state.start < stop) :
    Tiles stop 0 (ranges ++ [(state.start, stop)]) ∧
      (state.close stop).nodes = (ranges ++ [(state.start, stop)]).map leafOf ∧
        (state.close stop).level = List.range (ranges ++ [(state.start, stop)]).length := by
  refine ⟨opened.tiled.snoc more, ?_, ?_⟩
  · rw [Cutting.close, opened.nodes, List.map_append]
    rfl
  · rw [Cutting.close, opened.level, opened.nodes, List.length_map, List.length_append,
      List.length_singleton, List.range_succ]

/-- One shard keeps the leaves the longest. -/
theorem cutStep_open (positive : 1 ≤ leaf) {seen : ℕ} {state : Cutting} {ranges : List (ℕ × ℕ)}
    (opened : state.Open costs leaf budget seen ranges)
    (fits : spending costs 0 (seen + 1) < 2 ^ 64) :
    ∃ ranges, (cutStep leaf budget state (costs.getD seen 0, seen)).Open costs leaf budget (seen + 1)
      ranges := by
  have order : state.start ≤ seen := by
    rcases opened.started with before | ⟨start, none⟩
    · exact before.le
    · omega
  have next := @spending_succ costs _ _ order
  have whole : spending costs state.start (seen + 1) < 2 ^ 64 :=
    (spending_mono (Nat.zero_le _) le_rfl).trans_lt fits
  have sum : (state.spent + costs.getD seen 0).toNat = spending costs state.start (seen + 1) := by
    rw [UInt64.toNat_add, opened.spent, ← next, Nat.mod_eq_of_lt whole]
  unfold cutStep
  by_cases closes : state.start < seen ∧
      (seen - state.start = leaf ∨ budget < state.spent + costs.getD seen 0)
  · obtain ⟨more, past⟩ := closes
    obtain ⟨tiled, nodes, level⟩ := opened.close more
    rw [if_pos ⟨more, past⟩]
    refine ⟨ranges ++ [(state.start, seen)], tiled, ?_, nodes, level, Or.inl (Nat.lt_succ_self seen),
      fun _ => admits_single positive seen, ?_⟩
    · refine List.forall_mem_append.mpr ⟨opened.longest, List.forall_mem_singleton.mpr
        ⟨opened.admitted more, ?_⟩⟩
      rintro ⟨short, cheap⟩
      rcases past with full | dear
      · dsimp only at short
        omega
      · rcases cheap with within | single
        · rw [UInt64.lt_iff_toNat_lt, sum] at dear
          exact absurd within (Nat.not_le.mpr dear)
        · dsimp only at single
          omega
    · have single : spending costs seen (seen + 1) = (costs.getD seen 0).toNat := by
        rw [spending_succ le_rfl, spending, Finset.Ico_self, Finset.sum_empty, Nat.zero_add]
      have fresh : (0 + costs.getD seen 0 : UInt64) = costs.getD seen 0 := UInt64.zero_add _
      exact (congrArg UInt64.toNat fresh).trans single.symm
  · rw [if_neg closes]
    refine ⟨ranges, opened.tiled, opened.longest, opened.nodes, opened.level,
      Or.inl (Nat.lt_succ_of_le order), fun _ => ?_, sum⟩
    by_cases more : state.start < seen
    · obtain ⟨room, cheap⟩ := not_or.mp fun past => closes ⟨more, past⟩
      have short := (opened.admitted more).1
      have shorter : seen + 1 - state.start ≤ leaf := by omega
      refine ⟨shorter, Or.inl ?_⟩
      dsimp only
      rw [← sum]
      exact UInt64.le_iff_toNat_le.mp (UInt64.not_lt.mp cheap)
    · have first : state.start = seen := by omega
      rw [first]
      exact admits_single positive seen

/-- All the shards left. -/
theorem foldl_cutStep (positive : 1 ≤ leaf) (fits : spending costs 0 costs.length < 2 ^ 64)
    (seen left : List UInt64) (whole : costs = seen ++ left) {state : Cutting}
    {ranges : List (ℕ × ℕ)} (opened : state.Open costs leaf budget seen.length ranges) :
    ∃ ranges, ((left.zipIdx seen.length).foldl (cutStep leaf budget) state).Open costs leaf budget
      costs.length ranges := by
  induction left generalizing seen state ranges with
  | nil =>
    rw [List.append_nil] at whole
    rw [whole] at opened ⊢
    exact ⟨ranges, opened⟩
  | cons cost left ih =>
    have longer : seen.length + 1 ≤ costs.length := by
      rw [whole, List.length_append, List.length_cons]
      omega
    have here : costs.getD seen.length 0 = cost := by
      rw [whole, List.getD_eq_getElem?_getD, List.getElem?_append_right le_rfl, Nat.sub_self,
        List.getElem?_cons_zero, Option.getD_some]
    obtain ⟨ranges, stepped⟩ := cutStep_open positive opened
      ((spending_mono le_rfl longer).trans_lt fits)
    rw [here] at stepped
    rw [List.zipIdx_cons, List.foldl_cons]
    have measure : (seen ++ [cost]).length = seen.length + 1 := by
      rw [List.length_append, List.length_singleton]
    rw [← measure] at stepped ⊢
    exact ih (seen ++ [cost]) (by rw [whole, List.append_assoc, List.singleton_append]) stepped

/-- The leaves of a plan tile the shards, and each is the longest from where it starts. -/
theorem planLeaves_spec (some : costs ≠ []) (positive : 1 ≤ leaf)
    (fits : spending costs 0 costs.length < 2 ^ 64) :
    ∃ ranges, Tiles costs.length 0 ranges ∧
      (∀ range ∈ ranges, Longest (Admits costs leaf budget) costs.length range) ∧
        (planLeaves costs leaf budget).nodes = ranges.map leafOf ∧
          (planLeaves costs leaf budget).level = List.range ranges.length := by
  have initial : (⟨[], [], 0, 0⟩ : Cutting).Open costs leaf budget ([] : List UInt64).length [] :=
    ⟨Tiles.done, fun range member => absurd member List.not_mem_nil, rfl, rfl, Or.inr ⟨rfl, rfl⟩,
      fun more => absurd more (Nat.lt_irrefl 0), by
        rw [spending, List.length_nil, Finset.Ico_self, Finset.sum_empty]
        rfl⟩
  obtain ⟨ranges, opened⟩ := foldl_cutStep positive fits [] costs rfl initial
  have more := opened.started.resolve_right fun none =>
    some (List.length_eq_zero_iff.mp none.2)
  obtain ⟨tiled, nodes, level⟩ := opened.close more
  refine ⟨_, tiled, ?_, nodes, level⟩
  refine List.forall_mem_append.mpr ⟨fun range member => ?_, List.forall_mem_singleton.mpr
    ⟨opened.admitted more, Or.inl rfl⟩⟩
  obtain ⟨admitted, stuck⟩ := opened.longest range member
  exact ⟨admitted, Or.inr stuck⟩

end Apogee.Recursion

/-! ## A plan is a tree over the shards

Its leaves cut the shards as few times as their limits admit, its levels hold every node
under one parent, and its text reads back.
-/

namespace Apogee.Recursion

open Math (Tiles)

variable {costs : List UInt64} {leaf fanIn : ℕ} {budget : UInt64}

/-- A tree over the shards of these costs. -/
structure Tree.Planned (costs : List UInt64) (leaf : ℕ) (budget : UInt64) (fanIn : ℕ) (tree : Tree) :
    Prop where
  /-- The leaves are the shards, in order. -/
  tiled : Tiles costs.length 0 (inOrder tree.nodes tree.root)
  admitted : ∀ range ∈ inOrder tree.nodes tree.root, Admits costs leaf budget range.1 range.2
  /-- No other cut within the limits has fewer leaves. -/
  fewest : ∀ others, Tiles costs.length 0 others →
    (∀ range ∈ others, Admits costs leaf budget range.1 range.2) →
      (inOrder tree.nodes tree.root).length ≤ others.length
  sound : Sound fanIn tree.nodes
  root : tree.root < tree.nodes.length
  /-- Every node but the root is a child once, and the root never. -/
  parents : ∀ id < tree.nodes.length,
    (tree.nodes.flatMap TreeNode.children).count id = if id = tree.root then 0 else 1
  shallow : depth tree.nodes tree.root ≤ Nat.clog fanIn (inOrder tree.nodes tree.root).length
  readBack : Tree.fromText tree.toText = some tree

theorem spending_all : spending costs 0 costs.length = (costs.map UInt64.toNat).sum := by
  rw [spending, Nat.Ico_zero_eq_range, Finset.sum_range, ← Fin.sum_univ_fun_getElem]
  refine Finset.sum_congr rfl fun i _ => ?_
  rw [List.getD_eq_getElem _ _ i.isLt]

/-- The leaves alone are a forest of one level. -/
theorem leaves_forest {ranges : List (ℕ × ℕ)}
    (narrow : ∀ range ∈ ranges, range.1 < 2 ^ 32 ∧ range.2 < 2 ^ 32) :
    Forest fanIn (ranges.map leafOf) (List.range ranges.length) ranges ∧
      ∀ id ∈ List.range ranges.length, depth (ranges.map leafOf) id ≤ 0 := by
  have childless : (ranges.map leafOf).flatMap TreeNode.children = [] :=
    List.flatMap_eq_nil_iff.mpr (List.forall_mem_map.mpr fun range _ => rfl)
  have found : ∀ id (inside : id < ranges.length),
      (ranges.map leafOf)[id]? = some (leafOf ranges[id]) := fun id inside => by
    rw [List.getElem?_map, List.getElem?_eq_getElem inside, Option.map_some]
  have each : ∀ id ∈ List.range ranges.length,
      inOrder (ranges.map leafOf) id = [ranges.getD id (0, 0)] := by
    intro id member
    have inside := List.mem_range.mp member
    obtain ⟨first, last⟩ := narrow _ (List.getElem_mem inside)
    rw [inOrder, found id inside, List.getD_eq_getElem _ _ inside]
    dsimp only [leafOf]
    rw [UInt32.toNat_ofNat_of_lt' first, UInt32.toNat_ofNat_of_lt' last]
  refine ⟨⟨fun id children there => ?_, ?_, ?_, ?_⟩, fun id member => ?_⟩
  · obtain ⟨range, -, same⟩ := List.mem_map.mp (List.mem_of_getElem? there)
    cases same
  · rw [childless, List.nil_append, List.length_map]
  · rw [List.flatMap_congr each, ← List.map_eq_flatMap]
    refine List.ext_getElem (by rw [List.length_map, List.length_range]) fun i _ inside => ?_
    rw [List.getElem_map, List.getElem_range, List.getD_eq_getElem _ _ inside]
  · rw [List.length_map, List.length_range, Nat.two_mul]
  · rw [depth, found id (List.mem_range.mp member)]
    exact le_rfl

/-- A forest of one root holds every other node under one parent. -/
theorem Forest.parents {nodes : List TreeNode} {root : ℕ} {ranges : List (ℕ × ℕ)}
    (forest : Forest fanIn nodes [root] ranges) {id : ℕ} (inside : id < nodes.length) :
    (nodes.flatMap TreeNode.children).count id = if id = root then 0 else 1 := by
  have once : (List.range nodes.length).count id = 1 :=
    List.count_eq_one_of_mem List.nodup_range (List.mem_range.mpr inside)
  have all := forest.covers.count_eq id
  rw [once, List.count_append] at all
  by_cases same : id = root
  · rw [if_pos same]
    rw [same, List.count_singleton_self] at all
    rw [same]
    omega
  · rw [if_neg same]
    rwa [List.count_singleton, if_neg (by simpa using Ne.symm same), Nat.add_zero] at all

/-- A planned tree's numbers fit a `usize`, its leaves being fewer than `2 ^ 32`. -/
theorem Forest.fits {nodes : List TreeNode} {root : ℕ} {ranges : List (ℕ × ℕ)}
    (forest : Forest fanIn nodes [root] ranges) (few : ranges.length < 2 ^ 32) :
    Tree.Fits ⟨nodes, root⟩ := by
  have size := forest.size
  refine ⟨by dsimp only; omega, forest.before root (List.mem_singleton_self root), ?_⟩
  intro node member child below
  have inside : child < nodes.length := by
    refine List.mem_range.mp (forest.covers.mem_iff.mp (List.mem_append_left _ ?_))
    exact List.mem_flatMap.mpr ⟨node, member, below⟩
  omega

/-- The plan over fewer than `2 ^ 32` shards whose costs sum below `2 ^ 64`. -/
theorem plan_planned (present : costs ≠ []) (few : costs.length < 2 ^ 32)
    (fits : (costs.map UInt64.toNat).sum < 2 ^ 64) (positive : 1 ≤ leaf) (two : 2 ≤ fanIn) :
    ∃ tree, Tree.plan costs leaf budget fanIn = some tree ∧
      tree.Planned costs leaf budget fanIn := by
  rw [← spending_all] at fits
  obtain ⟨ranges, tiled, longest, nodes, level⟩ :=
    @planLeaves_spec costs leaf budget present positive fits
  have narrow : ∀ range ∈ ranges, range.1 < 2 ^ 32 ∧ range.2 < 2 ^ 32 := fun range member => by
    obtain ⟨order, inside⟩ := tiled.range_le range member
    omega
  have fewer : ranges.length < 2 ^ 32 := by
    have count := tiled.length_add_le
    omega
  have some : ranges ≠ [] := by
    intro none
    rw [none] at tiled
    have zero : costs.length = 0 := by
      generalize costs.length = count at tiled
      cases tiled
      rfl
    exact present (List.length_eq_zero_iff.mp zero)
  obtain ⟨forest, shallow⟩ := @leaves_forest fanIn ranges narrow
  have leaves : List.range ranges.length ≠ [] := fun none =>
    some (List.length_eq_zero_iff.mp (List.range_eq_nil.mp none))
  have counted : ((List.range ranges.length).length - 1) * fanIn ^ 0 < ranges.length := by
    rw [List.length_range, pow_zero, Nat.mul_one]
    exact Nat.sub_lt (List.length_pos_iff.mpr some) Nat.one_pos
  obtain ⟨joined, bounded⟩ :=
    joinLevels_spec two _ _ leaves forest shallow counted (Nat.zero_le _)
  have ordered := joined.ordered
  rw [List.flatMap_singleton] at ordered
  refine ⟨_, dif_pos ⟨present, positive, two⟩, ?_⟩
  rw [nodes, level]
  refine ⟨?_, ?_, ?_, joined.sound, joined.before _ (List.mem_singleton_self _),
    fun id => joined.parents, ?_, fromText_toText (joined.fits fewer)⟩
  · rw [ordered]
    exact tiled
  · rw [ordered]
    exact fun range member => (longest range member).1
  · rw [ordered]
    exact fun others other each => tiled.length_le admits_hereditary longest le_rfl other each
  · rw [ordered]
    exact bounded

/-- A plan terminates in a tree over the shards; what a text reads as has its root among its
nodes. -/
theorem plan_isTree :
    (∀ costs leaf budget fanIn, costs ≠ [] → costs.length < 2 ^ 32 →
      (costs.map UInt64.toNat).sum < 2 ^ 64 → 1 ≤ leaf → 2 ≤ fanIn →
        ∃ tree, Tree.plan costs leaf budget fanIn = some tree ∧
          tree.Planned costs leaf budget fanIn) ∧
      ∀ text tree, Tree.fromText text = some tree → tree.root < tree.nodes.length :=
  ⟨fun _ _ _ _ present few fits positive two => plan_planned present few fits positive two,
    fun _ _ => root_lt_of_fromText⟩

theorem plan_isTree_two :
    (∃ tree, Tree.plan [10, 10, 30] 2 25 2 = some tree ∧ tree.Planned [10, 10, 30] 2 25 2) ∧
      0 < (Tree.mk [.leaf 0 1] 0).nodes.length :=
  ⟨plan_isTree.1 [10, 10, 30] 2 25 2 (List.cons_ne_nil _ _) (by decide) (by decide) (by decide)
    (by decide), plan_isTree.2 (Tree.mk [.leaf 0 1] 0).toText _
      (fromText_toText ⟨by decide, by decide, by decide⟩)⟩

/-- A node whose child is no node. -/
def dangling : Tree := ⟨[.internal [5]], 0⟩

/-- Its text is accepted as it stands. -/
theorem dangling_accepted : Tree.fromText dangling.toText = some dangling ∧
    ¬ ∀ id children, dangling.nodes[id]? = some (.internal children) →
      ∀ child ∈ children, child < id ∧ child < dangling.nodes.length := by
  refine ⟨fromText_toText ⟨by decide, by decide, by decide⟩, fun each => ?_⟩
  have small := (each 0 [5] rfl 5 (List.mem_singleton_self 5)).1
  exact absurd small (by decide)

end Apogee.Recursion
