import Apogee.Mpt.Canonicity
import Apogee.Math.SortedTable

/-! # The sparse trie of a witness

The witness's nodes keyed by their hashes, and the trie under a root parsed from them:
a hash the witness does not carry stays a hash.
-/

namespace Apogee.Mpt

open Node Rlp Math

/-- The order of byte arrays of one length is that of the numbers they are, high byte first. -/
def bytesRank (bytes : List UInt8) : ℕ := leValue bytes.reverse

theorem bytesRank_inj {n : ℕ} {first second : FixedBytes n}
    (same : bytesRank first.1 = bytesRank second.1) : first = second := by
  have lengths : first.1.reverse.length = second.1.reverse.length := by
    rw [List.length_reverse, List.length_reverse, first.2, second.2]
  have reversed : first.1.reverse = second.1.reverse := by
    rw [← leBytes_leValue first.1.reverse, ← leBytes_leValue second.1.reverse, lengths]
    exact congrArg _ same
  exact Subtype.ext (List.reverse_injective reversed)

/-- Byte strings under their hashes, ascending. -/
structure NodeMap where
  entries : List (Word32 × List UInt8)

namespace NodeMap

def entryRank (entry : Word32 × List UInt8) : ℕ := bytesRank entry.1.1

/-- Every node hashed once, a repeated one kept once. -/
def new (keccak : List UInt8 → Word32) (nodes : List (List UInt8)) : NodeMap :=
  ⟨table entryRank (nodes.map fun node => (keccak node, node))⟩

def get (db : NodeMap) (hash : Word32) : Option (List UInt8) :=
  (find entryRank (bytesRank hash.1) db.entries).map Prod.snd

variable {keccak : List UInt8 → Word32} {nodes : List (List UInt8)}

/-- What is found under a hash has that hash and is the witness's. -/
theorem get_new {hash : Word32} {bytes : List UInt8} (found : (new keccak nodes).get hash = some bytes) :
    bytes ∈ nodes ∧ keccak bytes = hash := by
  obtain ⟨⟨key, held⟩, entry, same⟩ := Option.map_eq_some_iff.mp found
  cases same
  obtain ⟨member, rank⟩ := (find_eq_some_iff (table_ascending _)).mp entry
  obtain ⟨node, listed, same⟩ := List.mem_map.mp (mem_of_mem_table member)
  cases same
  exact ⟨listed, bytesRank_inj rank⟩

/-- A node of the witness is found under its hash. -/
theorem get_new_isSome {node : List UInt8} (member : node ∈ nodes) :
    ∃ bytes, (new keccak nodes).get (keccak node) = some bytes := by
  have listed : (keccak node, node) ∈ nodes.map fun node => (keccak node, node) :=
    List.mem_map_of_mem member
  obtain ⟨entry, held, rank⟩ := @exists_mem_table _ entryRank _ _ listed
  have found := (find_eq_some_iff (table_ascending _)).mpr ⟨held, rank⟩
  exact ⟨entry.2, congrArg (Option.map Prod.snd) found⟩

theorem get_new_eq_none_iff {hash : Word32} :
    (new keccak nodes).get hash = none ↔ ∀ node ∈ nodes, keccak node ≠ hash := by
  constructor
  · rintro absent node member rfl
    obtain ⟨bytes, found⟩ := @get_new_isSome keccak nodes node member
    rw [found] at absent
    exact absurd absent nofun
  · intro absent
    rw [Option.eq_none_iff_forall_ne_some]
    intro bytes found
    obtain ⟨member, same⟩ := get_new found
    exact absent bytes member same

end NodeMap

/-- One child slot: a list is an inlined node, a 32-byte string a hash, the empty
string an absent child. -/
def childOf (db : NodeMap) (parse : List UInt8 → Except MptError Node) (item : Item) :
    Except MptError Node :=
  if item.list then parse item.whole
  else if item.payload = [] then .ok empty
  else if exact : item.payload.length = 32 then
    match db.get ⟨item.payload, exact⟩ with
    | some bytes => parse bytes
    | none => .ok (blinded ⟨item.payload, exact⟩)
  else .error .malformed

/-- The deepest nesting a parse follows. -/
def maxDepth : ℕ := 68

/-- One node's bytes and its children's, `levels` deep at most: the depth is what
`maxDepth + 1` exceeds `levels` by. -/
def parseAt (db : NodeMap) : ℕ → List UInt8 → Except MptError Node
  | 0, _ => .error .malformed
  | levels + 1, bytes =>
    match listItems bytes with
    | none => .error .malformed
    | some [path, rest] =>
      match hpDecode path.payload with
      | none => .error .malformed
      | some (path, true) => .ok (leaf path rest.payload)
      | some (path, false) =>
        if path = [] then .error .malformed
        else do
          let child ← childOf db (parseAt db levels) rest
          .ok (ext path child)
    | some items =>
      match items[16]? with
      | none => .error .malformed
      | some value =>
        if items.length = 17 then do
          let children ← (items.take 16).mapM (childOf db (parseAt db levels))
          .ok (branch (fun i => children.getD i.val empty) value.payload)
        else .error .malformed

/-- The sparse trie under a root. -/
def build (db : NodeMap) (root : Word32) : Except MptError Node :=
  if root = emptyTrieRoot then .ok empty
  else
    match db.get root with
    | none => .error (.missingNode root)
    | some bytes => parseAt db (maxDepth + 1) bytes

end Apogee.Mpt
