import Apogee.Rlp.HeaderCodec

/-! # Transactions

A block carries a transaction as bytes: a legacy one is a list, a typed one is a type from
1 to 4 and then a list. It is decoded strictly, and what its signer signed is its own items
without the last three, under a fresh list header.
-/

namespace Apogee.Stateless

open Rlp Mpt
open Bounds (Attempt expected index sub add items)

/-- One signed authorization, as the transaction carries it. -/
structure Authorization where
  chainId : Word32
  address : Address
  nonce : UInt64
  yParity : UInt8
  r : Word32
  s : Word32
deriving DecidableEq

/-- One transaction, decoded. -/
structure Tx where
  txType : UInt8
  chainId : Option UInt64
  nonce : UInt64
  gasPrice : BitVec 128
  priorityFee : Option (BitVec 128)
  gasLimit : UInt64
  toAddress : Option Address
  value : Word32
  data : List UInt8
  accessList : List (Address × List Word32)
  maxFeePerBlobGas : Option (BitVec 128)
  blobHashes : List Word32
  authorizations : List Authorization
  yOdd : Bool
  r : Word32
  s : Word32
  signingHash : Word32
deriving DecidableEq

namespace Tx

/-! ## The items -/

/-- The items of the one list the bytes are. -/
def listItems (bytes : List UInt8) : Attempt (List Item) := do
  let (head, rest) ← Bounds.split 4 bytes
  if rest = [] then items 4 head else .error .malformed

/-- A field, read off an item by its place. -/
def field {α : Type} (items : List Item) (place : ℕ) (read : Item → Option α) : Attempt α := do
  let item ← index items place
  expected (read item)

/-- The items before a place, which must be there. -/
def before (items : List Item) (place : ℕ) : Attempt (List Item) :=
  if place ≤ items.length then .ok (items.take place) else .error .panic

/-- The encodings of the items that are signed. -/
def signedItems (items : List Item) : List UInt8 := (items.map Item.whole).flatten

/-- The empty string for a creation, otherwise 20 bytes. -/
def toOf (item : Item) : Option (Option Address) := do
  match ← Rlp.bytes item with
  | [] => pure none
  | _ :: _ =>
    let address ← fixed 20 item
    pure (some address)

/-- An entry of an access list: an address, and its slots. -/
def entryOf (entry : Item) : Attempt (Address × List Word32) := do
  let pair ← items 4 entry
  if pair.length ≠ 2 then .error .malformed
  else
    let second ← index pair 1
    let keys ← items 4 second
    let keys ← keys.mapM fun key => expected (fixed 32 key)
    let address ← field pair 0 (fixed 20)
    pure (address, keys)

def accessListOf (item : Item) : Attempt (List (Address × List Word32)) := do
  let entries ← items 4 item
  entries.mapM entryOf

def authorizationOf (item : Item) : Attempt Authorization := do
  let fields ← items 4 item
  if fields.length ≠ 6 then .error .malformed
  else
    let yParity ← field fields 3 u64Of
    let chainId ← field fields 0 wordOf
    let address ← field fields 1 (fixed 20)
    let nonce ← field fields 2 u64Of
    let yParity ← expected (if yParity.toNat < 256 then some yParity.toUInt8 else none)
    let r ← field fields 4 wordOf
    let s ← field fields 5 wordOf
    pure ⟨chainId, address, nonce, yParity, r, s⟩

/-! ## Legacy transactions -/

/-- The chain id and the parity that a legacy `v` stands for. -/
def parityOf (v : BitVec 128) : Attempt (Option UInt64 × Bool) := do
  if v.toNat = 27 ∨ v.toNat = 28 then pure (none, decide (v.toNat = 28))
  else if 35 ≤ v.toNat then
    let rest ← sub v.toNat 35
    let chainId ← expected (if rest / 2 < 2 ^ 64 then some (UInt64.ofNat (rest / 2)) else none)
    let rest ← sub v.toNat 35
    pure (some chainId, decide (rest % 2 = 1))
  else .error .malformed

/-- What a legacy signer signs: the chain id and two zeros follow the fields, when there is
a chain id. -/
def unsignedItems (fields : List UInt8) : Option UInt64 → List UInt8
  | some chainId => fields ++ encodeU64 chainId ++ [0x80, 0x80]
  | none => fields

/-- A legacy transaction: `[nonce, gas_price, gas, to, value, data, v, r, s]`. -/
def legacy (keccak : List UInt8 → Word32) (bytes : List UInt8) : Attempt Tx := do
  let items ← listItems bytes
  if items.length ≠ 9 then .error .malformed
  else
    let v ← field items 6 u128Of
    let (chainId, yOdd) ← parityOf v
    let front ← before items 6
    let unsigned := unsignedItems (signedItems front) chainId
    let _capacity ← add 4 unsigned.length 9
    let nonce ← field items 0 u64Of
    let gasPrice ← field items 1 u128Of
    let gasLimit ← field items 2 u64Of
    let toAddress ← field items 3 toOf
    let value ← field items 4 wordOf
    let data ← field items 5 Rlp.bytes
    let r ← field items 7 wordOf
    let s ← field items 8 wordOf
    pure
      { txType := 0, chainId, nonce, gasPrice, priorityFee := none, gasLimit, toAddress, value, data
        accessList := [], maxFeePerBlobGas := none, blobHashes := [], authorizations := []
        yOdd, r, s, signingHash := keccak (encodeList unsigned) }

/-! ## Typed transactions -/

/-- How many items a type's list has. -/
def itemCount (txType : UInt8) : ℕ :=
  if txType = 1 then 11 else if txType = 2 then 12 else if txType = 3 then 14 else 13

/-- The gas price, or the two fee caps. -/
def feesOf (txType : UInt8) (items : List Item) : Attempt (BitVec 128 × Option (BitVec 128)) := do
  if txType = 1 then
    let gasPrice ← field items 2 u128Of
    pure (gasPrice, none)
  else
    let gasPrice ← field items 3 u128Of
    let priorityFee ← field items 2 u128Of
    pure (gasPrice, some priorityFee)

/-- A blob or set-code transaction always has a destination. -/
def destinationOf (txType : UInt8) (items : List Item) (place : ℕ) : Attempt (Option Address) := do
  if txType = 3 ∨ txType = 4 then
    let address ← field items place (fixed 20)
    pure (some address)
  else field items place toOf

/-- A blob transaction's hashes and the fee it pays for them. -/
def blobsOf (txType : UInt8) (items : List Item) (fee hashes : ℕ) :
    Attempt (Option (BitVec 128) × List Word32) := do
  if txType = 3 then
    let item ← index items hashes
    let hashes ← Bounds.items 4 item
    let hashes ← hashes.mapM fun hash => expected (fixed 32 hash)
    let maxFeePerBlobGas ← field items fee u128Of
    pure (some maxFeePerBlobGas, hashes)
  else pure (none, [])

def authorizationsOf (txType : UInt8) (items : List Item) (place : ℕ) :
    Attempt (List Authorization) := do
  if txType = 4 then
    let item ← index items place
    let tuples ← Bounds.items 4 item
    tuples.mapM authorizationOf
  else pure []

/-- A typed transaction's list, after its type. -/
def typed (keccak : List UInt8 → Word32) (txType : UInt8) (body : List UInt8) : Attempt Tx := do
  let items ← listItems body
  if items.length ≠ itemCount txType then .error .malformed
  else
    let fees := if txType = 1 then 1 else 2
    let (gasPrice, priorityFee) ← feesOf txType items
    -- every later place shifts with the fees
    let gas := 2 + fees
    let toAddress ← destinationOf txType items (gas + 1)
    let (maxFeePerBlobGas, blobHashes) ← blobsOf txType items (gas + 5) (gas + 6)
    let authorizations ← authorizationsOf txType items (gas + 5)
    let n := items.length
    let parityPlace ← sub n 3
    let yParity ← field items parityPlace u64Of
    if 1 < yParity.toNat then .error .malformed
    else
      let _capacity ← add 4 body.length 1
      let signed ← sub n 3
      let front ← before items signed
      let preimage := txType :: encodeList (signedItems front)
      let chainId ← field items 0 u64Of
      let nonce ← field items 1 u64Of
      let gasLimit ← field items gas u64Of
      let value ← field items (gas + 2) wordOf
      let data ← field items (gas + 3) Rlp.bytes
      let item ← index items (gas + 4)
      let accessList ← accessListOf item
      let rPlace ← sub n 2
      let r ← field items rPlace wordOf
      let sPlace ← sub n 1
      let s ← field items sPlace wordOf
      pure
        { txType, chainId := some chainId, nonce, gasPrice, priorityFee, gasLimit, toAddress,
          value, data
          accessList, maxFeePerBlobGas, blobHashes, authorizations
          yOdd := decide (yParity.toNat = 1), r, s, signingHash := keccak preimage }

/-- One transaction, from its bytes. -/
def decode (keccak : List UInt8 → Word32) (bytes : List UInt8) : Attempt Tx := do
  let first ← expected bytes.head?
  if 0xc0 ≤ first then legacy keccak bytes
  else if 1 ≤ first ∧ first ≤ 4 then
    let body ← Bounds.range bytes 1 bytes.length
    typed keccak first body
  else .error .malformed

end Tx

end Apogee.Stateless

/-! ## Transaction layouts

The fields of a transaction of each type, in the order they are written and signed.
-/

namespace Apogee.Stateless

open Rlp

namespace Tx

/-- A destination: the empty string for a creation. -/
def encodeTo : Option Address → List UInt8
  | none => encodeBytes []
  | some address => encodeBytes address.1

def encodeEntry (entry : Address × List Word32) : List UInt8 :=
  encodeList [encodeBytes entry.1.1, encodeEach (fun key => encodeBytes key.1) entry.2].flatten

def encodeAccessList (entries : List (Address × List Word32)) : List UInt8 :=
  encodeEach encodeEntry entries

def encodeAuthorization (authorization : Authorization) : List UInt8 :=
  encodeList [encodeUint authorization.chainId.1, encodeBytes authorization.address.1,
    encodeU64 authorization.nonce, encodeU64 authorization.yParity.toUInt64,
    encodeUint authorization.r.1, encodeUint authorization.s.1].flatten

end Tx

/-- What a transaction says, by its type: what its signer signs. -/
inductive Fields where
  | legacy (chainId : Option UInt64) (nonce : UInt64) (gasPrice : BitVec 128) (gasLimit : UInt64)
      (destination : Option Address) (value : Word32) (data : List UInt8)
  | accessList (chainId nonce : UInt64) (gasPrice : BitVec 128) (gasLimit : UInt64)
      (destination : Option Address) (value : Word32) (data : List UInt8)
      (entries : List (Address × List Word32))
  | dynamicFee (chainId nonce : UInt64) (priorityFee maxFee : BitVec 128) (gasLimit : UInt64)
      (destination : Option Address) (value : Word32) (data : List UInt8)
      (entries : List (Address × List Word32))
  | blob (chainId nonce : UInt64) (priorityFee maxFee : BitVec 128) (gasLimit : UInt64)
      (destination : Address) (value : Word32) (data : List UInt8)
      (entries : List (Address × List Word32)) (maxFeePerBlobGas : BitVec 128)
      (blobHashes : List Word32)
  | setCode (chainId nonce : UInt64) (priorityFee maxFee : BitVec 128) (gasLimit : UInt64)
      (destination : Address) (value : Word32) (data : List UInt8)
      (entries : List (Address × List Word32)) (authorizations : List Authorization)

/-- A signature: the parity of the point's ordinate, and its two numbers. -/
structure Signature where
  yOdd : Bool
  r : Word32
  s : Word32

namespace Fields

open Tx

/-- The type that stands before a list; a legacy transaction has none. -/
def kind : Fields → List UInt8
  | .legacy .. => []
  | .accessList .. => [1]
  | .dynamicFee .. => [2]
  | .blob .. => [3]
  | .setCode .. => [4]

/-- The fields' encodings, in order. -/
def parts : Fields → List (List UInt8)
  | .legacy _ nonce gasPrice gasLimit destination value data =>
    [encodeU64 nonce, encodeU128 gasPrice, encodeU64 gasLimit, encodeTo destination,
      encodeUint value.1, encodeBytes data]
  | .accessList chainId nonce gasPrice gasLimit destination value data entries =>
    [encodeU64 chainId, encodeU64 nonce, encodeU128 gasPrice, encodeU64 gasLimit,
      encodeTo destination, encodeUint value.1, encodeBytes data, encodeAccessList entries]
  | .dynamicFee chainId nonce priorityFee maxFee gasLimit destination value data entries =>
    [encodeU64 chainId, encodeU64 nonce, encodeU128 priorityFee, encodeU128 maxFee,
      encodeU64 gasLimit, encodeTo destination, encodeUint value.1, encodeBytes data,
      encodeAccessList entries]
  | .blob chainId nonce priorityFee maxFee gasLimit destination value data entries
      maxFeePerBlobGas blobHashes =>
    [encodeU64 chainId, encodeU64 nonce, encodeU128 priorityFee, encodeU128 maxFee,
      encodeU64 gasLimit, encodeBytes destination.1, encodeUint value.1, encodeBytes data,
      encodeAccessList entries, encodeU128 maxFeePerBlobGas,
      encodeEach (fun hash => encodeBytes hash.1) blobHashes]
  | .setCode chainId nonce priorityFee maxFee gasLimit destination value data entries
      authorizations =>
    [encodeU64 chainId, encodeU64 nonce, encodeU128 priorityFee, encodeU128 maxFee,
      encodeU64 gasLimit, encodeBytes destination.1, encodeUint value.1, encodeBytes data,
      encodeAccessList entries, encodeEach encodeAuthorization authorizations]

/-- What follows a legacy transaction's fields where they are signed for one chain. -/
def chainParts : Fields → List (List UInt8)
  | .legacy (some chainId) .. => [encodeU64 chainId, [0x80], [0x80]]
  | _ => []

/-- What is signed. -/
def unsigned (fields : Fields) : List UInt8 :=
  fields.kind ++ encodeList (fields.parts ++ fields.chainParts).flatten

/-- A legacy `v`: `27 + parity`, or `35 + 2 · chain_id + parity`. -/
def legacyV : Option UInt64 → Bool → ℕ
  | none, yOdd => 27 + yOdd.toNat
  | some chainId, yOdd => 35 + 2 * chainId.toNat + yOdd.toNat

/-- The parity as it is written: in a legacy `v`, or on its own. -/
def parityPart (yOdd : Bool) : Fields → List UInt8
  | .legacy chainId .. => encodeU128 (BitVec.ofNat 128 (legacyV chainId yOdd))
  | _ => encodeU64 (if yOdd then 1 else 0)

/-- A signed transaction's bytes. -/
def encode (fields : Fields) (signature : Signature) : List UInt8 :=
  fields.kind ++ encodeList (fields.parts ++ [fields.parityPart signature.yOdd,
    encodeUint signature.r.1, encodeUint signature.s.1]).flatten

/-- The transaction that fields and a signature make. -/
def tx (keccak : List UInt8 → Word32) (fields : Fields) (signature : Signature) : Tx :=
  let ⟨yOdd, r, s⟩ := signature
  let signingHash := keccak fields.unsigned
  match fields with
  | .legacy chainId nonce gasPrice gasLimit destination value data =>
    ⟨0, chainId, nonce, gasPrice, none, gasLimit, destination, value, data, [], none, [], [], yOdd,
      r, s, signingHash⟩
  | .accessList chainId nonce gasPrice gasLimit destination value data entries =>
    ⟨1, some chainId, nonce, gasPrice, none, gasLimit, destination, value, data, entries, none, [],
      [], yOdd, r, s, signingHash⟩
  | .dynamicFee chainId nonce priorityFee maxFee gasLimit destination value data entries =>
    ⟨2, some chainId, nonce, maxFee, some priorityFee, gasLimit, destination, value, data, entries,
      none, [], [], yOdd, r, s, signingHash⟩
  | .blob chainId nonce priorityFee maxFee gasLimit destination value data entries
      maxFeePerBlobGas blobHashes =>
    ⟨3, some chainId, nonce, maxFee, some priorityFee, gasLimit, some destination, value, data,
      entries, some maxFeePerBlobGas, blobHashes, [], yOdd, r, s, signingHash⟩
  | .setCode chainId nonce priorityFee maxFee gasLimit destination value data entries
      authorizations =>
    ⟨4, some chainId, nonce, maxFee, some priorityFee, gasLimit, some destination, value, data,
      entries, none, [], authorizations, yOdd, r, s, signingHash⟩

end Fields

end Apogee.Stateless
