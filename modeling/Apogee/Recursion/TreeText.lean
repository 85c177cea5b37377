import Apogee.Math.Text
import Apogee.Recursion.Tree

/-! # A tree as text

A line a node, under its position, and the root's line last. What is written is read back.
-/

namespace Apogee.Recursion

open Math

/-! ## Writing -/

def space : List Char := [' ']

/-- The words of a node's line. -/
def nodeWords (node : TreeNode) (id : ℕ) : List (List Char) :=
  match node with
  | .leaf start stop => [decimal id, "leaf".toList, decimal start.toNat, decimal stop.toNat]
  | .internal children => decimal id :: "node".toList :: children.map decimal

/-- A node's line; a node without children keeps the space before them. -/
def nodeLine (node : TreeNode) (id : ℕ) : List Char :=
  match node with
  | .leaf start stop =>
    decimal id ++ ' ' :: ("leaf".toList ++ ' ' :: (decimal start.toNat ++ ' ' :: decimal stop.toNat))
  | .internal children =>
    decimal id ++ ' ' :: ("node".toList ++ ' ' :: List.intercalate space (children.map decimal))

def Tree.toText (tree : Tree) : List Char :=
  (tree.nodes.zipIdx.flatMap fun entry => nodeLine entry.1 entry.2 ++ ['\n']) ++
    ("root".toList ++ ' ' :: decimal tree.root) ++ ['\n']

/-! ## Reading -/

/-- A position or an argument. -/
def number (word : List Char) : Option ℕ := parseDecimal 64 word

/-- A leaf's words after its kind, where `count` nodes came before it. -/
def readLeaf (count : ℕ) (id : List Char) (arguments : List (List Char)) : Option TreeNode :=
  match arguments with
  | [start, stop] => do
    let id ← number id
    if id = count then
      let start ← number start
      let stop ← number stop
      pure (.leaf (UInt32.ofNat start) (UInt32.ofNat stop))
    else none
  | _ => none

/-- An internal node's children. -/
def readInternal (count : ℕ) (id : List Char) (arguments : List (List Char)) : Option TreeNode := do
  let id ← number id
  if id = count then
    let children ← arguments.mapM number
    pure (.internal children)
  else none

def readNode (count : ℕ) (line : List (List Char)) : Option TreeNode :=
  match line with
  | id :: kind :: arguments =>
    if kind = "leaf".toList then readLeaf count id arguments
    else if kind = "node".toList then readInternal count id arguments
    else none
  | _ => none

/-- One line: the root's, which has two words, or a node's. -/
def readLine (state : List TreeNode × Option ℕ) (line : List Char) :
    Option (List TreeNode × Option ℕ) :=
  let line := splitWhitespace line
  if line.length = 2 ∧ line.head? = some "root".toList then
    some (state.1, number (line.getD 1 []))
  else do
    let node ← readNode state.1.length line
    pure (state.1 ++ [node], state.2)

def Tree.fromText (text : List Char) : Option Tree := do
  let (nodes, root) ← (lines text).foldlM readLine ([], none)
  let root ← root
  if root < nodes.length then some ⟨nodes, root⟩ else none

/-! ## What is written is read back -/

/-- A tree's numbers fit a `usize`. -/
structure Tree.Fits (tree : Tree) : Prop where
  count : tree.nodes.length ≤ 2 ^ 64
  root : tree.root < tree.nodes.length
  children : ∀ node ∈ tree.nodes, ∀ child ∈ node.children, child < 2 ^ 64

theorem number_decimal {n : ℕ} (fits : n < 2 ^ 64) : number (decimal n) = some n :=
  parseDecimal_decimal fits

/-- A line of a tree's text ends nowhere inside. -/
def Plain (line : List Char) : Prop := ∀ c ∈ line, c ≠ '\n' ∧ c ≠ '\r'

theorem decimal_plain (n : ℕ) : Plain (decimal n) := fun c member =>
  (digit_plain (decimal_digits n c member)).2.imp_right And.left

theorem Plain.append {front back : List Char} (first : Plain front) (second : Plain back) :
    Plain (front ++ ' ' :: back) :=
  List.forall_mem_append.mpr ⟨first, List.forall_mem_cons.mpr ⟨by decide, second⟩⟩

theorem leaf_isWord : IsWord "leaf".toList := isWord_of_all (List.cons_ne_nil _ _) (by decide)

theorem node_isWord : IsWord "node".toList := isWord_of_all (List.cons_ne_nil _ _) (by decide)

theorem root_isWord : IsWord "root".toList := isWord_of_all (List.cons_ne_nil _ _) (by decide)

/-- Line ends are white space. -/
theorem plain_of_isWord {word : List Char} (whole : IsWord word) : Plain word := by
  intro c member
  have inside := whole.2 c member
  refine ⟨?_, ?_⟩
  · rintro rfl
    exact absurd inside (by decide)
  · rintro rfl
    exact absurd inside (by decide)

theorem intercalate_plain {list : List (List Char)} (each : ∀ word ∈ list, Plain word) :
    Plain (List.intercalate space list) := by
  induction list with
  | nil => exact fun c member => absurd member List.not_mem_nil
  | cons word list ih =>
    obtain ⟨here, each⟩ := List.forall_mem_cons.mp each
    cases list with
    | nil =>
      rw [List.intercalate_singleton]
      exact here
    | cons next list =>
      rw [List.intercalate_cons_cons, List.append_assoc]
      exact here.append (ih each)

theorem nodeLine_plain (node : TreeNode) (id : ℕ) : Plain (nodeLine node id) := by
  cases node with
  | leaf start stop =>
    exact (decimal_plain id).append (Plain.append (plain_of_isWord leaf_isWord)
      ((decimal_plain _).append (decimal_plain _)))
  | internal children =>
    refine (decimal_plain id).append (Plain.append (plain_of_isWord node_isWord)
      (intercalate_plain ?_))
    exact List.forall_mem_map.mpr fun child _ => decimal_plain child

theorem splitWhitespace_nodeLine (node : TreeNode) (id : ℕ) :
    splitWhitespace (nodeLine node id) = nodeWords node id := by
  cases node with
  | leaf start stop =>
    rw [nodeLine, splitWhitespace_cons (decimal_isWord id), splitWhitespace_cons leaf_isWord,
      splitWhitespace_cons (decimal_isWord _),
      splitWhitespace_single (decimal_isWord _), nodeWords]
  | internal children =>
    rw [nodeLine, splitWhitespace_cons (decimal_isWord id), splitWhitespace_cons node_isWord, space,
      splitWhitespace_intercalate,
      nodeWords]
    exact List.forall_mem_map.mpr fun child _ => decimal_isWord child

theorem mapM_number {children : List ℕ} (fits : ∀ child ∈ children, child < 2 ^ 64) :
    (children.map decimal).mapM number = some children := by
  induction children with
  | nil => rfl
  | cons child children ih =>
    obtain ⟨here, fits⟩ := List.forall_mem_cons.mp fits
    rw [List.map_cons, List.mapM_cons, number_decimal here, ih fits]
    rfl

/-- A node is read back under its position. -/
theorem readNode_words {node : TreeNode} {count : ℕ} (few : count < 2 ^ 64)
    (fits : ∀ child ∈ node.children, child < 2 ^ 64) :
    readNode count (nodeWords node count) = some node := by
  cases node with
  | leaf start stop =>
    have first : number (decimal start.toNat) = some start.toNat :=
      number_decimal (start.toNat_lt.trans (by decide))
    have last : number (decimal stop.toNat) = some stop.toNat :=
      number_decimal (stop.toNat_lt.trans (by decide))
    rw [nodeWords, readNode, if_pos rfl, readLeaf, number_decimal few, first, last]
    dsimp only [Option.bind_eq_bind, Option.bind_some]
    rw [if_pos rfl, UInt32.ofNat_toNat, UInt32.ofNat_toNat]
    rfl
  | internal children =>
    have read : (children.map decimal).mapM number = some children := mapM_number fits
    rw [nodeWords, readNode, if_neg (by decide), if_pos rfl, readInternal, number_decimal few,
      Option.bind_eq_bind, Option.bind_some, if_pos rfl, read]
    rfl

theorem readLine_node {nodes : List TreeNode} {node : TreeNode} (few : nodes.length < 2 ^ 64)
    (fits : ∀ child ∈ node.children, child < 2 ^ 64) :
    readLine (nodes, none) (nodeLine node nodes.length) = some (nodes ++ [node], none) := by
  have apart : decimal nodes.length ≠ "root".toList := by
    intro same
    have digits := decimal_digits nodes.length
    rw [same] at digits
    exact absurd (digits 'r' (by decide)) (by decide)
  have first : (nodeWords node nodes.length).head? = some (decimal nodes.length) := by
    cases node <;> rfl
  rw [readLine, splitWhitespace_nodeLine]
  dsimp only
  rw [if_neg fun root => apart (Option.some.inj (first.symm.trans root.2)), readNode_words few fits]
  rfl

/-- The nodes left, each read back onto those before it. -/
theorem foldlM_nodes (later before : List TreeNode) (few : (before ++ later).length ≤ 2 ^ 64)
    (fits : ∀ node ∈ later, ∀ child ∈ node.children, child < 2 ^ 64) (rest : List Char) :
    (lines ((later.zipIdx before.length).flatMap (fun entry => nodeLine entry.1 entry.2 ++ ['\n']) ++
        rest)).foldlM readLine (before, none) =
      (lines rest).foldlM readLine (before ++ later, none) := by
  induction later generalizing before with
  | nil => rw [List.append_nil]; rfl
  | cons node later ih =>
    obtain ⟨here, fits⟩ := List.forall_mem_cons.mp fits
    have room : before.length < 2 ^ 64 := by
      rw [List.length_append, List.length_cons] at few
      omega
    have measure : (before ++ [node]).length = before.length + 1 := List.length_append
    rw [List.zipIdx_cons, List.flatMap_cons, List.append_assoc, List.append_assoc,
      List.singleton_append, lines_cons (nodeLine_plain node before.length), List.foldlM_cons,
      readLine_node room here, Option.bind_eq_bind, Option.bind_some, ← measure,
      ih (before ++ [node]) (by rwa [List.append_assoc, List.singleton_append]) fits,
      List.append_assoc, List.singleton_append]

/-- A tree is read back from its text. -/
theorem fromText_toText {tree : Tree} (fits : tree.Fits) : Tree.fromText tree.toText = some tree := by
  have plain : Plain ("root".toList ++ ' ' :: decimal tree.root) :=
    Plain.append (plain_of_isWord root_isWord) (decimal_plain tree.root)
  have rooted : splitWhitespace ("root".toList ++ ' ' :: decimal tree.root) =
      ["root".toList, decimal tree.root] := by
    rw [splitWhitespace_cons root_isWord, splitWhitespace_single (decimal_isWord tree.root)]
  have small : tree.root < 2 ^ 64 := fits.root.trans_le fits.count
  have last : readLine (tree.nodes, none) ("root".toList ++ ' ' :: decimal tree.root) =
      some (tree.nodes, some tree.root) := by
    rw [readLine, rooted]
    dsimp only
    rw [if_pos ⟨rfl, rfl⟩, List.getD_cons_succ, List.getD_cons_zero, number_decimal small]
  have nodes := foldlM_nodes tree.nodes [] fits.count fits.children
    ("root".toList ++ ' ' :: decimal tree.root ++ ['\n'])
  rw [lines_cons plain, lines_nil, List.foldlM_cons, List.nil_append, last] at nodes
  rw [Tree.fromText, Tree.toText, List.append_assoc]
  change ((lines _).foldlM readLine ([], none)).bind _ = _
  rw [show tree.nodes.zipIdx = tree.nodes.zipIdx ([] : List TreeNode).length from rfl, nodes]
  dsimp only [Option.bind_eq_bind, Option.bind_some, List.foldlM_nil]
  exact if_pos fits.root

/-- A tree that is read has its root among its nodes. -/
theorem root_lt_of_fromText {text : List Char} {tree : Tree} (read : Tree.fromText text = some tree) :
    tree.root < tree.nodes.length := by
  obtain ⟨⟨nodes, root⟩, -, read⟩ := Option.bind_eq_some_iff.mp read
  obtain ⟨id, -, read⟩ := Option.bind_eq_some_iff.mp read
  obtain ⟨inside, same⟩ := Option.ite_none_right_eq_some.mp read
  cases same
  exact inside

end Apogee.Recursion
