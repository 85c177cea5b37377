import Apogee.Math.Framing
import Mathlib.Data.Nat.Log

/-! # A recursion tree

A tree's shape, fixed before anything is proved: leaves over consecutive base shards,
then levels of internal nodes over them.
-/

namespace Apogee.Recursion

open Math (chunks chunks_length_lt)

/-- A leaf over base shards, or an internal node over its children, in order. -/
inductive TreeNode where
  | leaf (start stop : UInt32)
  | internal (children : List ℕ)
deriving DecidableEq

structure Tree where
  nodes : List TreeNode
  root : ℕ
deriving DecidableEq

def TreeNode.children : TreeNode → List ℕ
  | .leaf _ _ => []
  | .internal children => children

/-! ## The plan -/

/-- The leaves closed so far, and the one that is open. -/
structure Cutting where
  nodes : List TreeNode
  level : List ℕ
  start : ℕ
  spent : UInt64

/-- The open leaf, closed before a shard. -/
def Cutting.close (state : Cutting) (stop : ℕ) : Cutting :=
  { nodes := state.nodes ++ [.leaf (UInt32.ofNat state.start) (UInt32.ofNat stop)]
    level := state.level ++ [state.nodes.length]
    start := stop
    spent := 0 }

/-- One shard: the leaf closes before one that would take it past its limits. -/
def cutStep (leaf : ℕ) (budget : UInt64) (state : Cutting) (entry : UInt64 × ℕ) : Cutting :=
  let state :=
    if state.start < entry.2 ∧ (entry.2 - state.start = leaf ∨ budget < state.spent + entry.1) then
      state.close entry.2
    else state
  { state with spent := state.spent + entry.1 }

/-- A group of one is carried up as it is. -/
def joinGroup (state : List TreeNode × List ℕ) (group : List ℕ) : List TreeNode × List ℕ :=
  match group with
  | [orphan] => (state.1, state.2 ++ [orphan])
  | _ => (state.1 ++ [.internal group], state.2 ++ [state.1.length])

def joinLevel (fanIn : ℕ) (nodes : List TreeNode) (level : List ℕ) : List TreeNode × List ℕ :=
  (chunks fanIn level).foldl joinGroup (nodes, [])

theorem joinLevel_level_length (fanIn : ℕ) (nodes : List TreeNode) (level : List ℕ) :
    (joinLevel fanIn nodes level).2.length = (chunks fanIn level).length := by
  have joined : ∀ (groups : List (List ℕ)) (state : List TreeNode × List ℕ),
      (groups.foldl joinGroup state).2.length = state.2.length + groups.length := by
    intro groups
    induction groups with
    | nil => exact fun state => rfl
    | cons group groups ih =>
      intro state
      have one : (joinGroup state group).2.length = state.2.length + 1 := by
        unfold joinGroup
        split <;> exact List.length_append
      rw [List.foldl_cons, ih, one, List.length_cons]
      omega
  rw [joinLevel, joined, List.length_nil, Nat.zero_add]

/-- Levels of internal nodes, until one node is left. -/
def joinLevels (fanIn : ℕ) (two : 2 ≤ fanIn) (nodes : List TreeNode) (level : List ℕ) : Tree :=
  if 1 < level.length then
    joinLevels fanIn two (joinLevel fanIn nodes level).1 (joinLevel fanIn nodes level).2
  else ⟨nodes, level.headD 0⟩
termination_by level.length
decreasing_by
  rw [joinLevel_level_length]
  exact chunks_length_lt two ‹_›

/-- The leaves of a plan, in order. -/
def planLeaves (costs : List UInt64) (leaf : ℕ) (budget : UInt64) : Cutting :=
  (costs.zipIdx.foldl (cutStep leaf budget) ⟨[], [], 0, 0⟩).close costs.length

/-- A tree over shards of these costs; nothing where the plan's own assertion fails. -/
def Tree.plan (costs : List UInt64) (leaf : ℕ) (budget : UInt64) (fanIn : ℕ) : Option Tree :=
  if limits : costs ≠ [] ∧ 1 ≤ leaf ∧ 2 ≤ fanIn then
    let leaves := planLeaves costs leaf budget
    some (joinLevels fanIn limits.2.2 leaves.nodes leaves.level)
  else none

/-! ## What a tree says -/

/-- The ranges of the leaves under a node, in order. Children come before their node. -/
def inOrder (nodes : List TreeNode) (id : ℕ) : List (ℕ × ℕ) :=
  match nodes[id]? with
  | some (.leaf start stop) => [(start.toNat, stop.toNat)]
  | some (.internal children) =>
    children.flatMap fun child => if child < id then inOrder nodes child else []
  | none => []
termination_by id

/-- The number of nodes on the longest way down, less one. -/
def depth (nodes : List TreeNode) (id : ℕ) : ℕ :=
  match nodes[id]? with
  | some (.internal children) =>
    (children.map fun child => if child < id then depth nodes child + 1 else 0).foldr max 0
  | _ => 0
termination_by id

end Apogee.Recursion

/-! ## The levels of a plan

Every level keeps the leaves in order, every node below it the child of one node, and takes
one round of division by the fan-in off the way to the root.
-/

namespace Apogee.Recursion

open Math (chunks chunks_length chunks_length_lt)

variable {nodes : List TreeNode} {fanIn : ℕ}

/-! ## Nodes that come later -/

theorem inOrder_append (more : List TreeNode) {id : ℕ} (inside : id < nodes.length) :
    inOrder (nodes ++ more) id = inOrder nodes id := by
  induction id using Nat.strong_induction_on with
  | _ id ih =>
    have same : (nodes ++ more)[id]? = nodes[id]? := List.getElem?_append_left inside
    rw [inOrder, inOrder.eq_def nodes id, same]
    cases nodes[id]? with
    | none => rfl
    | some node =>
      cases node with
      | leaf start stop => rfl
      | internal children =>
        dsimp only
        refine List.flatMap_congr fun child _ => ?_
        by_cases below : child < id
        · rw [if_pos below, if_pos below, ih child below (below.trans inside)]
        · rw [if_neg below, if_neg below]

theorem depth_append (more : List TreeNode) {id : ℕ} (inside : id < nodes.length) :
    depth (nodes ++ more) id = depth nodes id := by
  induction id using Nat.strong_induction_on with
  | _ id ih =>
    have same : (nodes ++ more)[id]? = nodes[id]? := List.getElem?_append_left inside
    rw [depth, depth.eq_def nodes id, same]
    cases nodes[id]? with
    | none => rfl
    | some node =>
      cases node with
      | leaf start stop => rfl
      | internal children =>
        dsimp only
        congr 1
        refine List.map_congr_left fun child _ => ?_
        by_cases below : child < id
        · rw [if_pos below, if_pos below, ih child below (below.trans inside)]
        · rw [if_neg below, if_neg below]

theorem inOrder_new {group : List ℕ} (before : ∀ child ∈ group, child < nodes.length) :
    inOrder (nodes ++ [.internal group]) nodes.length = group.flatMap (inOrder nodes) := by
  have here : (nodes ++ [TreeNode.internal group])[nodes.length]? = some (.internal group) := by
    rw [List.getElem?_append_right le_rfl, Nat.sub_self, List.getElem?_cons_zero]
  rw [inOrder, here]
  dsimp only
  refine List.flatMap_congr fun child member => ?_
  rw [if_pos (before child member), inOrder_append _ (before child member)]

theorem depth_new {group : List ℕ} {height : ℕ} (before : ∀ child ∈ group, child < nodes.length)
    (shallow : ∀ child ∈ group, depth nodes child ≤ height) :
    depth (nodes ++ [.internal group]) nodes.length ≤ height + 1 := by
  have here : (nodes ++ [TreeNode.internal group])[nodes.length]? = some (.internal group) := by
    rw [List.getElem?_append_right le_rfl, Nat.sub_self, List.getElem?_cons_zero]
  have most : ∀ list : List ℕ, (∀ n ∈ list, n ≤ height + 1) → list.foldr max 0 ≤ height + 1 := by
    intro list
    induction list with
    | nil => exact fun _ => Nat.zero_le _
    | cons n list ih =>
      intro each
      obtain ⟨first, rest⟩ := List.forall_mem_cons.mp each
      exact Nat.max_le.mpr ⟨first, ih rest⟩
  rw [depth, here]
  refine most _ (List.forall_mem_map.mpr fun child member => ?_)
  rw [if_pos (before child member), depth_append _ (before child member)]
  exact Nat.succ_le_succ (shallow child member)

/-! ## One level -/

/-- Every internal node has its children before it, as many as the fan-in admits. -/
def Sound (fanIn : ℕ) (nodes : List TreeNode) : Prop :=
  ∀ (id : ℕ) (children : List ℕ), nodes[id]? = some (.internal children) →
    2 ≤ children.length ∧ children.length ≤ fanIn ∧ ∀ child ∈ children, child < id

theorem Sound.snoc (sound : Sound fanIn nodes) {group : List ℕ} (two : 2 ≤ group.length)
    (few : group.length ≤ fanIn) (before : ∀ child ∈ group, child < nodes.length) :
    Sound fanIn (nodes ++ [.internal group]) := by
  intro id children found
  rcases Nat.lt_trichotomy id nodes.length with inside | rfl | past
  · rw [List.getElem?_append_left inside] at found
    exact sound id children found
  · rw [List.getElem?_append_right le_rfl, Nat.sub_self, List.getElem?_cons_zero] at found
    cases found
    exact ⟨two, few, before⟩
  · rw [List.getElem?_eq_none (by rw [List.length_append, List.length_singleton]; exact past)] at found
    cases found

/-- Trees side by side, with their roots in order: each other node is the child of one. -/
structure Forest (fanIn : ℕ) (nodes : List TreeNode) (roots : List ℕ) (ranges : List (ℕ × ℕ)) :
    Prop where
  sound : Sound fanIn nodes
  covers : (nodes.flatMap TreeNode.children ++ roots).Perm (List.range nodes.length)
  ordered : roots.flatMap (inOrder nodes) = ranges
  size : nodes.length + roots.length ≤ 2 * ranges.length

variable {roots : List ℕ} {ranges : List (ℕ × ℕ)}

theorem Forest.before (forest : Forest fanIn nodes roots ranges) : ∀ id ∈ roots, id < nodes.length :=
  fun _ member => List.mem_range.mp (forest.covers.mem_iff.mp (List.mem_append_right _ member))

/-- A group of at least two becomes one node. -/
theorem Forest.join {done group rest : List ℕ}
    (forest : Forest fanIn nodes (done ++ (group ++ rest)) ranges) (two : 2 ≤ group.length)
    (few : group.length ≤ fanIn) :
    Forest fanIn (nodes ++ [.internal group]) (done ++ [nodes.length] ++ rest) ranges := by
  have before : ∀ id ∈ group, id < nodes.length := fun id member =>
    forest.before id (List.mem_append_right _ (List.mem_append_left _ member))
  have old : ∀ ids : List ℕ, (∀ id ∈ ids, id < nodes.length) →
      ids.flatMap (inOrder (nodes ++ [.internal group])) = ids.flatMap (inOrder nodes) :=
    fun ids each => List.flatMap_congr fun id member => inOrder_append _ (each id member)
  refine ⟨forest.sound.snoc two few before, ?_, ?_, ?_⟩
  · rw [List.flatMap_append, List.flatMap_singleton, List.length_append, List.length_singleton,
      List.range_succ]
    refine List.Perm.trans ?_ (forest.covers.append_right [nodes.length])
    change (nodes.flatMap TreeNode.children ++ group ++ (done ++ [nodes.length] ++ rest)).Perm _
    simp only [List.append_assoc]
    refine List.Perm.append_left _ ?_
    -- the group and what is done change places, and so do the new node and the rest
    have swap : ((group ++ done) ++ ([nodes.length] ++ rest)).Perm
        ((done ++ group) ++ (rest ++ [nodes.length])) :=
      List.perm_append_comm.append List.perm_append_comm
    simpa only [List.append_assoc] using swap
  · have ordered := forest.ordered
    rw [List.flatMap_append, List.flatMap_append] at ordered
    rw [List.flatMap_append, List.flatMap_append, List.flatMap_singleton, inOrder_new before,
      old done fun id member => forest.before id (List.mem_append_left _ member),
      old rest fun id member =>
        forest.before id (List.mem_append_right _ (List.mem_append_right _ member)),
      List.append_assoc, ordered]
  · have size := forest.size
    simp only [List.length_append, List.length_singleton] at size ⊢
    omega

/-- The groups of a level, joined one by one. -/
theorem joinGroups_spec (groups : List (List ℕ)) (each : ∀ group ∈ groups,
      group ≠ [] ∧ group.length ≤ fanIn) {height : ℕ} {nodes : List TreeNode} {done : List ℕ}
    (forest : Forest fanIn nodes (done ++ groups.flatten) ranges)
    (lifted : ∀ id ∈ done, depth nodes id ≤ height + 1)
    (shallow : ∀ id ∈ groups.flatten, depth nodes id ≤ height) :
    Forest fanIn (groups.foldl joinGroup (nodes, done)).1 (groups.foldl joinGroup (nodes, done)).2
        ranges ∧
      ∀ id ∈ (groups.foldl joinGroup (nodes, done)).2,
        depth (groups.foldl joinGroup (nodes, done)).1 id ≤ height + 1 := by
  induction groups generalizing nodes done with
  | nil =>
    rw [List.flatten_nil, List.append_nil] at forest
    exact ⟨forest, lifted⟩
  | cons group groups ih =>
    obtain ⟨⟨some, few⟩, others⟩ := List.forall_mem_cons.mp each
    rw [List.flatten_cons] at forest shallow
    obtain ⟨here, rest⟩ := List.forall_mem_append.mp shallow
    rw [List.foldl_cons]
    by_cases single : ∃ orphan, group = [orphan]
    · obtain ⟨orphan, rfl⟩ := single
      have carried : joinGroup (nodes, done) [orphan] = (nodes, done ++ [orphan]) := rfl
      rw [carried]
      rw [← List.append_assoc] at forest
      refine ih others forest (List.forall_mem_append.mpr ⟨lifted, ?_⟩) rest
      exact fun id member => (here id member).trans (Nat.le_succ height)
    · have two : 2 ≤ group.length := by
        rcases Nat.lt_or_ge group.length 2 with few | enough
        · have one : group.length = 1 := by
            have positive := List.length_pos_iff.mpr some
            omega
          exact absurd (List.length_eq_one_iff.mp one) single
        · exact enough
      have joined : joinGroup (nodes, done) group =
          (nodes ++ [.internal group], done ++ [nodes.length]) := by
        unfold joinGroup
        split
        · exact absurd ⟨_, rfl⟩ single
        · rfl
      have before : ∀ id ∈ group, id < nodes.length := fun id member =>
        forest.before id (List.mem_append_right _ (List.mem_append_left _ member))
      have outside : ∀ id ∈ done ++ groups.flatten, id < nodes.length := fun id member =>
        forest.before id ((List.mem_append.mp member).elim (List.mem_append_left _) fun later =>
          List.mem_append_right _ (List.mem_append_right _ later))
      rw [joined]
      refine ih others (forest.join two few) (List.forall_mem_append.mpr ⟨fun id member => ?_,
        List.forall_mem_singleton.mpr (depth_new before here)⟩) fun id member => ?_
      · rw [depth_append _ (outside id (List.mem_append_left _ member))]
        exact lifted id member
      · rw [depth_append _ (outside id (List.mem_append_right _ member))]
        exact rest id member

/-- One level up. -/
theorem joinLevel_spec (positive : 0 < fanIn) {level : List ℕ} {height : ℕ}
    (forest : Forest fanIn nodes level ranges) (shallow : ∀ id ∈ level, depth nodes id ≤ height) :
    Forest fanIn (joinLevel fanIn nodes level).1 (joinLevel fanIn nodes level).2 ranges ∧
      ∀ id ∈ (joinLevel fanIn nodes level).2,
        depth (joinLevel fanIn nodes level).1 id ≤ height + 1 := by
  have whole : (chunks fanIn level).flatten = level := Math.flatten_chunks positive level
  refine joinGroups_spec (chunks fanIn level) (fun group member => Math.mem_chunks member) ?_
    (fun id member => absurd member List.not_mem_nil) ?_
  · rw [List.nil_append, whole]
    exact forest
  · rw [whole]
    exact shallow

/-! ## All levels -/

/-- The levels end in one root over the same leaves; each halves what is left by the fan-in,
so there are no more than the leaves' logarithm. -/
theorem joinLevels_spec (two : 2 ≤ fanIn) (nodes : List TreeNode) (level : List ℕ) {height : ℕ}
    (present : level ≠ []) (forest : Forest fanIn nodes level ranges)
    (shallow : ∀ id ∈ level, depth nodes id ≤ height)
    (counted : (level.length - 1) * fanIn ^ height < ranges.length)
    (bounded : height ≤ Nat.clog fanIn ranges.length) :
    Forest fanIn (joinLevels fanIn two nodes level).nodes [(joinLevels fanIn two nodes level).root]
        ranges ∧
      depth (joinLevels fanIn two nodes level).nodes (joinLevels fanIn two nodes level).root ≤
        Nat.clog fanIn ranges.length := by
  have positive : 0 < fanIn := (by decide : 0 < 2).trans_le two
  induction measure : level.length using Nat.strong_induction_on generalizing nodes level height with
  | _ length ih =>
    rw [joinLevels]
    by_cases more : 1 < level.length
    · rw [if_pos more]
      have shorter := chunks_length_lt two more
      have fewer := Math.chunks_length_mul_lt positive present
      rw [← joinLevel_level_length fanIn nodes level] at shorter fewer
      obtain ⟨joined, lifted⟩ := joinLevel_spec positive forest shallow
      refine ih _ (measure ▸ shorter) _ _ ?_ joined lifted ?_ ?_ rfl
      · intro none
        have groups := joinLevel_level_length fanIn nodes level
        have whole : (chunks fanIn level).flatten = level := Math.flatten_chunks positive level
        rw [none, List.length_nil, eq_comm, List.length_eq_zero_iff] at groups
        rw [groups, List.flatten_nil] at whole
        exact present whole.symm
      · refine lt_of_le_of_lt ?_ counted
        rw [pow_succ', ← Nat.mul_assoc]
        exact Nat.mul_le_mul_right _ (Nat.le_pred_of_lt fewer)
      · refine (Nat.lt_clog_iff_pow_lt two).mpr (lt_of_le_of_lt ?_ counted)
        exact Nat.le_mul_of_pos_left _ (Nat.sub_pos_of_lt more)
    · rw [if_neg more]
      have single : level.length = 1 := by
        have some := List.length_pos_iff.mpr present
        omega
      obtain ⟨root, rfl⟩ := List.length_eq_one_iff.mp single
      exact ⟨forest, (shallow root (List.mem_singleton_self root)).trans bounded⟩

end Apogee.Recursion
