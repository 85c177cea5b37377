import Apogee.Mpt.Rlp

/-! # The trie

A Merkle-Patricia trie with every subtree that is known only by its hash standing in
as that hash, and what is done with one: encoding, reading, writing and removing.
A key is its nibbles.
-/

namespace Apogee.Mpt

open Rlp

/-- Half a byte. -/
abbrev Nibble := Fin 16

abbrev Path := List Nibble

/-! ## Nibbles and the hex prefix -/

def highNibble (byte : UInt8) : Nibble := Fin.ofNat 16 (byte.toNat / 16)

def lowNibble (byte : UInt8) : Nibble := Fin.ofNat 16 (byte.toNat % 16)

/-- `(high << 4) | low`. -/
def pair (high low : Nibble) : UInt8 := UInt8.ofNat (16 * high.val + low.val)

/-- A byte string's nibbles, high nibble first. -/
def nibblesOf (key : List UInt8) : Path := key.flatMap fun byte => [highNibble byte, lowNibble byte]

/-- A 32-byte key's nibbles. -/
def nibbles (key : Word32) : Path := nibblesOf key.1

/-- Nibbles two to a byte; there is an even number of them. -/
def pairs : Path → List UInt8
  | high :: low :: rest => pair high low :: pairs rest
  | _ => []

/-- The flag nibble: two for a leaf, one more for an odd path. -/
def flag (leaf odd : Bool) : Nibble := (if leaf then 2 else 0) + (if odd then 1 else 0)

/-- A path under its flag, the flag's padding nibble zero when the path is even. -/
def hpEncode (path : Path) (leaf : Bool) : List UInt8 :=
  if path.length % 2 = 1 then
    match path with
    | [] => []
    | first :: rest => pair (flag leaf true) first :: pairs rest
  else pair (flag leaf false) 0 :: pairs path

/-- Its inverse: no flag above three, no padding but zero. -/
def hpDecode (bytes : List UInt8) : Option (Path × Bool) := do
  let first ← bytes.head?
  let flag := first.toNat / 16
  if 3 < flag then none
  else
    let leaf := flag / 2 = 1
    if flag % 2 = 1 then pure (lowNibble first :: nibblesOf bytes.tail, leaf)
    else if first.toNat % 16 ≠ 0 then none
    else pure (nibblesOf bytes.tail, leaf)

/-- How many nibbles two paths begin with in common. -/
def commonPrefix : Path → Path → ℕ
  | a :: as, b :: bs => if a = b then commonPrefix as bs + 1 else 0
  | _, _ => 0

/-- The root of an empty trie: the hash of the empty string's encoding. -/
def emptyTrieRoot : Word32 :=
  ⟨[0x56, 0xe8, 0x1f, 0x17, 0x1b, 0xcc, 0x55, 0xa6, 0xff, 0x83, 0x45, 0xe6, 0x92, 0xc0, 0xf8, 0x6e,
    0x5b, 0x48, 0xe0, 0x1b, 0x99, 0x6c, 0xad, 0xc0, 0x01, 0x62, 0x2f, 0xb5, 0xe3, 0x63, 0xb4, 0x21],
    rfl⟩

/-! ## Nodes -/

/-- Everything the trie refuses. -/
inductive MptError where
  | malformed
  | missingNode (hash : Word32)
  | blindedCollapse (hash : Word32)
  | rootMismatch
deriving DecidableEq

/-- One node of a sparse trie. -/
inductive Node where
  /-- No node. -/
  | empty
  /-- The rest of the key, and the value. -/
  | leaf (path : Path) (value : List UInt8)
  /-- A shared prefix and the node below it. -/
  | ext (path : Path) (child : Node)
  /-- A child for each nibble, and the node's own value. -/
  | branch (children : Nibble → Node) (value : List UInt8)
  /-- A subtree known only by its hash. -/
  | blinded (hash : Word32)

namespace Node

def isEmpty : Node → Bool
  | empty => true
  | _ => false

section Hashing

variable (keccak : List UInt8 → Word32)

/-- How a parent names a node, given the node's encoding: the encoding itself when it
is under 32 bytes, else its hash. -/
def named : Node → Option (List UInt8) → Option (List UInt8)
  | blinded hash, _ => some (encodeBytes hash.1)
  | _, encoded => encoded.map fun bytes =>
    if bytes.length < 32 then bytes else encodeBytes (keccak bytes).1

/-- A node's bytes. An extension of an empty path and a blinded node have none. -/
def encode : Node → Option (List UInt8)
  | empty => some [0x80]
  | leaf path value =>
    some (encodeList (encodeBytes (hpEncode path true) ++ encodeBytes value))
  | ext path child =>
    if path = [] then none
    else (child.named keccak child.encode).map fun reference =>
      encodeList (encodeBytes (hpEncode path false) ++ reference)
  | branch children value =>
    ((List.finRange 16).mapM fun i => (children i).named keccak (children i).encode).map
      fun references => encodeList (references.flatten ++ encodeBytes value)
  | blinded _ => none

/-- How a parent names this node. -/
def reference (node : Node) : Option (List UInt8) := node.named keccak (node.encode keccak)

/-- The node as a trie root: the hash of its bytes, whatever their number. -/
def root : Node → Option Word32
  | blinded hash => some hash
  | node => (node.encode keccak).map keccak

end Hashing

end Node

/-! ## Reading -/

open Node

/-- The value at a path, when the trie proves it; a node that is only a hash proves
nothing. -/
def get : Node → Path → Except MptError (Option (List UInt8))
  | empty, _ => .ok none
  | blinded hash, _ => .error (.missingNode hash)
  | leaf path value, key => .ok (if path = key then some value else none)
  | ext path child, key =>
    if path <+: key then get child (key.drop path.length) else .ok none
  | branch _ value, [] => .ok (if value = [] then none else some value)
  | branch children _, nibble :: rest => get (children nibble) rest

/-! ## Writing -/

/-- A branch under construction. -/
structure Fork where
  children : Nibble → Node
  value : List UInt8

namespace Fork

/-- A branch of nothing. -/
def new : Fork := ⟨fun _ => empty, []⟩

def setChild (fork : Fork) (nibble : Nibble) (node : Node) : Fork :=
  { fork with children := Function.update fork.children nibble node }

/-- A value's place in a branch: the branch's own slot when the key ends there, else a
leaf below the key's first nibble. -/
def place (fork : Fork) (rest : Path) (value : List UInt8) : Fork :=
  match rest with
  | [] => { fork with value := value }
  | nibble :: tail => fork.setChild nibble (leaf tail value)

def node (fork : Fork) : Node := branch fork.children fork.value

end Fork

/-- An extension above a node, or the node itself when the path is empty. -/
def wrap (path : Path) (node : Node) : Node := if path = [] then node else ext path node

/-- Insert or replace a path's value. -/
def insert : Node → Path → List UInt8 → Except MptError Node
  | blinded hash, _, _ => .error (.missingNode hash)
  | empty, path, value => .ok (leaf path value)
  | leaf path old, key, value =>
    if path = key then .ok (leaf path value)
    else
      let shared := commonPrefix path key
      let fork := (Fork.new.place (path.drop shared) old).place (key.drop shared) value
      .ok (wrap (path.take shared) fork.node)
  | ext path child, key, value =>
    let shared := commonPrefix path key
    match path.drop shared with
    | [] => do
      let below ← insert child (key.drop shared) value
      .ok (ext path below)
    | nibble :: remainder =>
      -- An extension's path is never empty: with nothing left of it the child is attached directly.
      let fork := (Fork.new.setChild nibble (wrap remainder child)).place (key.drop shared) value
      .ok (wrap (path.take shared) fork.node)
  | branch children _, [], value => .ok (branch children value)
  | branch children own, nibble :: rest, value => do
      let below ← insert (children nibble) rest value
      .ok (branch (Function.update children nibble below) own)

/-! ## Removing -/

/-- An extension over whatever its child became. -/
def normalizeExt (path : Path) : Node → Node
  | empty => empty
  | leaf below value => leaf (path ++ below) value
  | ext below under => ext (path ++ below) under
  | other => ext path other

/-- The nibbles of a branch's children. -/
def live (children : Nibble → Node) : List Nibble :=
  (List.finRange 16).filter fun i => !(children i).isEmpty

/-- A branch's only child, in the branch's place. -/
def collapse (nibble : Nibble) : Node → Except MptError Node
  | leaf path value => .ok (leaf (nibble :: path) value)
  | ext path child => .ok (ext (nibble :: path) child)
  | blinded hash => .error (.blindedCollapse hash)
  | other => .ok (ext [nibble] other)

/-- A branch, after one of its children changed. -/
def normalizeBranch (children : Nibble → Node) (value : List UInt8) : Except MptError Node :=
  match live children, value.isEmpty with
  | [], true => .ok empty
  | [], false => .ok (leaf [] value)
  | [only], true => collapse only (children only)
  | _, _ => .ok (branch children value)

/-- Remove a path, collapsing whatever the removal leaves behind. -/
def remove : Node → Path → Except MptError Node
  | blinded hash, _ => .error (.missingNode hash)
  | empty, _ => .ok empty
  | leaf path value, key => .ok (if path = key then empty else leaf path value)
  | ext path child, key =>
    if path <+: key then do
      let below ← remove child (key.drop path.length)
      .ok (normalizeExt path below)
    else .ok (ext path child)
  | branch children _, [] => normalizeBranch children []
  | branch children value, nibble :: rest => do
      let below ← remove (children nibble) rest
      normalizeBranch (Function.update children nibble below) value

end Apogee.Mpt
