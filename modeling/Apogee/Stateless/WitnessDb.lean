import Apogee.Mpt.Keyed
import Apogee.Stateless.Ancestors

/-! # The witness database

The pre-state as it is read: accounts off the state trie, slots off storage tries that
are parsed when first asked for and kept, codes and ancestors under their hash and number.
-/

namespace Apogee.Stateless

open Mpt Rlp Math

/-- The hash of no bytes. -/
def keccakEmpty : Word32 :=
  ⟨[0xc5, 0xd2, 0x46, 0x01, 0x86, 0xf7, 0x23, 0x3c, 0x92, 0x7e, 0x7d, 0xb2, 0xdc, 0xc7, 0x03, 0xc0,
    0xe5, 0x00, 0xb6, 0x53, 0xca, 0x82, 0x27, 0x3b, 0x7b, 0xfa, 0xd8, 0x04, 0x5d, 0x85, 0xa4, 0x70],
    rfl⟩

/-- An account as the machine is told of it; its code is asked for by its hash. -/
structure AccountInfo where
  balance : U256
  nonce : UInt64
  codeHash : Word32
deriving DecidableEq

/-- What the database takes from the machine it serves. -/
structure Revm where
  Bytecode : Type
  /-- The code of no bytes. -/
  empty : Bytecode
  /-- Code from its bytes, unless they begin a delegation that is not one. -/
  newRawChecked : List UInt8 → Option Bytecode
  newLegacy : List UInt8 → Bytecode
  originalBytes : Bytecode → List UInt8
  /-- An account that leaves the state: no nonce, no balance and no code. -/
  isEmpty : AccountInfo → Bool

/-- Code is made of its bytes. -/
structure Revm.Lawful (revm : Revm) : Prop where
  empty_bytes : revm.originalBytes revm.empty = []
  checked_bytes : ∀ bytes code, revm.newRawChecked bytes = some code → revm.originalBytes code = bytes
  legacy_bytes : ∀ bytes, revm.originalBytes (revm.newLegacy bytes) = bytes

/-- What a read can find wrong with the witness. -/
inductive WitnessError where
  | trie (error : MptError)
  | missingCode (codeHash : Word32)
  | missingBlockHash (number : UInt64)

/-- The pre-state of a witness. -/
structure WitnessDb where
  nodes : NodeMap
  /-- Code preimages under their hashes. -/
  codes : NodeMap
  state : Node
  /-- Storage tries parsed so far, ascending by address. -/
  storage : List (Address × Node)
  /-- Every ancestor's hash, ascending by number. -/
  blockHashes : List (UInt64 × Word32)

def storageRank (entry : Address × Node) : ℕ := bytesRank entry.1.1

def blockRank (entry : UInt64 × Word32) : ℕ := entry.1.toNat

section Paths

variable (keccak : List UInt8 → Word32)

/-- The state trie's path of an address. -/
def accountPath (address : Address) : Path := nibbles (keccak address.1)

/-- A storage trie's path of a slot. -/
def slotPath (index : U256) : Path := nibbles (keccak (toBeBytes index).1)

end Paths

namespace WitnessDb

variable (keccak : List UInt8 → Word32)

/-- The database of a witness, under the parent's state root. -/
def new (stateRoot : Word32) (stateNodes codes : List (List UInt8))
    (blockHashes : List (UInt64 × Word32)) : Except WitnessError WitnessDb :=
  match build (NodeMap.new keccak stateNodes) stateRoot with
  | .error error => .error (.trie error)
  | .ok state => .ok ⟨NodeMap.new keccak stateNodes, NodeMap.new keccak codes, state, [], blockHashes⟩

/-- An account's nonce, balance, storage root and code hash, when the trie has it. -/
def account (db : WitnessDb) (address : Address) :
    Except WitnessError (Option (UInt64 × Word32 × Word32 × Word32)) :=
  match get db.state (accountPath keccak address) with
  | .error error => .error (.trie error)
  | .ok none => .ok none
  | .ok (some leaf) =>
    match decodeAccount leaf with
    | .error error => .error (.trie error)
    | .ok fields => .ok (some fields)

/-- The root of an account's storage, as the state trie has it. -/
def storageRoot (db : WitnessDb) (address : Address) : Except WitnessError Word32 :=
  match db.account keccak address with
  | .error error => .error error
  | .ok none => .ok emptyTrieRoot
  | .ok (some (_, _, root, _)) => .ok root

/-- An account's storage trie, parsed and kept the first time it is asked for. -/
def storageTrie (db : WitnessDb) (address : Address) : Except WitnessError (Node × WitnessDb) :=
  match find storageRank (bytesRank address.1) db.storage with
  | some entry => .ok (entry.2, db)
  | none =>
    match db.storageRoot keccak address with
    | .error error => .error error
    | .ok root =>
      match build db.nodes root with
      | .error error => .error (.trie error)
      | .ok trie =>
        let place := position storageRank (bytesRank address.1) db.storage
        .ok (trie, { db with storage := db.storage.insertIdx place (address, trie) })

def basic (db : WitnessDb) (address : Address) : Except WitnessError (Option AccountInfo) :=
  match db.account keccak address with
  | .error error => .error error
  | .ok none => .ok none
  | .ok (some (nonce, balance, _, codeHash)) => .ok (some ⟨fromBeBytes balance, nonce, codeHash⟩)

def codeByHash (revm : Revm) (db : WitnessDb) (codeHash : Word32) :
    Except WitnessError revm.Bytecode :=
  if codeHash = keccakEmpty then .ok revm.empty
  else
    match db.codes.get codeHash with
    | none => .error (.missingCode codeHash)
    | some bytes => .ok ((revm.newRawChecked bytes).getD (revm.newLegacy bytes))

/-- The value of a slot in a storage trie: zero when the trie has none. -/
def slot (trie : Node) (path : Path) : Except WitnessError U256 :=
  match get trie path with
  | .error error => .error (.trie error)
  | .ok none => .ok 0
  | .ok (some leaf) =>
    match decodeSlot leaf with
    | .error error => .error (.trie error)
    | .ok value => .ok (fromBeBytes value)

/-- A slot's value, and the database with the trie it was read from: kept also when the
read itself fails. -/
def readSlot (db : WitnessDb) (address : Address) (index : U256) :
    Except WitnessError U256 × WitnessDb :=
  match db.storageTrie keccak address with
  | .error error => (.error error, db)
  | .ok (trie, after) => (slot trie (slotPath keccak index), after)

def blockHash (db : WitnessDb) (number : UInt64) : Except WitnessError Word32 :=
  match find blockRank number.toNat db.blockHashes with
  | none => .error (.missingBlockHash number)
  | some entry => .ok entry.2

end WitnessDb

/-- A call of the database. -/
inductive Query where
  | basic (address : Address)
  | codeByHash (codeHash : Word32)
  | storage (address : Address) (index : U256)
  | blockHash (number : UInt64)

/-- What a call answers. -/
inductive Answer (revm : Revm) where
  | basic (info : Option AccountInfo)
  | code (code : revm.Bytecode)
  | slot (value : U256)
  | hash (hash : Word32)

variable (keccak : List UInt8 → Word32) (revm : Revm)

/-- One call. -/
def serve (db : WitnessDb) : Query → Except WitnessError (Answer revm) × WitnessDb
  | .basic address => ((db.basic keccak address).map .basic, db)
  | .codeByHash codeHash => ((db.codeByHash revm codeHash).map .code, db)
  | .storage address index =>
    let (value, after) := db.readSlot keccak address index
    (value.map .slot, after)
  | .blockHash number => ((db.blockHash number).map .hash, db)

/-- Calls in a row, whatever each answers. -/
def serveAll : WitnessDb → List Query → List (Except WitnessError (Answer revm)) × WitnessDb
  | db, [] => ([], db)
  | db, query :: queries =>
    let (answer, middle) := serve keccak revm db query
    let (answers, after) := serveAll middle queries
    (answer :: answers, after)

end Apogee.Stateless
