import Apogee.Mpt.Reencode

/-! # The size of a parsed trie

A parse makes no more nodes of a byte string than it has items. But a string is parsed
again for every slot whose hash leads to it, so a trie may be larger than its witness.
-/

namespace Apogee.Mpt

open Node Rlp

/-- A trie's nodes. -/
def Node.size : Node → ℕ
  | empty => 1
  | leaf _ _ => 1
  | ext _ child => 1 + child.size
  | branch children _ => 1 + ((List.finRange 16).map fun i => (children i).size).sum
  | blinded _ => 1

/-- The items of an item: itself, and those of a list's entries. -/
def itemCount : ℕ → Item → ℕ
  | 0, _ => 1
  | rounds + 1, item => 1 + (((items item).getD []).map (itemCount rounds)).sum

/-- The items of a byte string that is one. -/
def countItems (bytes : List UInt8) : ℕ :=
  match split bytes with
  | some (item, []) => itemCount bytes.length item
  | _ => 0

/-- The slots of a node's bytes. -/
def slotsOf (bytes : List UInt8) : List Item := childSlots ((listItems bytes).getD [])

/-- The nodes that one parse makes of a string, those of the strings that hashes lead to
apart. -/
def made (db : NodeMap) : ℕ → List UInt8 → ℕ
  | 0, _ => 0
  | levels + 1, bytes =>
    1 + ((slotsOf bytes).map fun slot =>
      if slot.list then made db levels slot.whole
      else if (leadsTo db slot).isSome then 0 else 1).sum

/-- The strings that hashes lead to below a string, each as often as it is parsed. -/
def reached (db : NodeMap) : ℕ → List UInt8 → List (List UInt8)
  | 0, _ => []
  | levels + 1, bytes => (slotsOf bytes).flatMap fun slot =>
    ((leadsTo db slot).map fun below =>
      (if slot.list then [] else [below]) ++ reached db levels below).getD []

variable {db : NodeMap}

/-! ## One string -/

/-- The strings that a build parses, in order, each as often as it is parsed. -/
def parses (db : NodeMap) (root : Word32) : List (List UInt8) :=
  if root = emptyTrieRoot then []
  else ((db.get root).map fun bytes => bytes :: reached db (maxDepth + 1) bytes).getD []

/-- What the entries of a list count for after each one's first place. -/
def repeats {α : Type} [DecidableEq α] (xs : List α) (f : α → ℕ) : ℕ :=
  ∑ x ∈ xs.toFinset, (xs.count x - 1) * f x

/-- The nodes that the parses of a string after its first make, and the empty trie's. -/
def again (db : NodeMap) (root : Word32) : ℕ :=
  (if root = emptyTrieRoot then 1 else 0) + repeats (parses db root) (made db (maxDepth + 1))

/-- The items that no node is made of: paths, values, hashes that lead to a string, and all
of a string that is not parsed. -/
def spare (db : NodeMap) (root : Word32) (nodes : List (List UInt8)) : ℕ :=
  ∑ bytes ∈ nodes.toFinset,
    (countItems bytes - if bytes ∈ parses db root then made db (maxDepth + 1) bytes else 0)

end Apogee.Mpt
