import Apogee.Stateless.TransactionTyped

/-! # Decoding is exact

A transaction is decoded from exactly the bytes its layout writes, and what it is signed
over is its layout's unsigned payload. No bytes stop the guest.
-/

namespace Apogee.Stateless.Tx

open Rlp
open Bounds (Attempt expected index sub add bind_eq_ok bind_ne_panic malformed_ne_panic ok_ne_panic)

variable {keccak : List UInt8 → Word32} {bytes body : List UInt8} {items : List Item} {tx : Tx}

/-! ## Rows -/

/-- The end of every typed transaction: the parity and the signature's numbers. -/
def signatureRow : RowCodec (Bool × Word32 × Word32 × Unit) :=
  .cons parityCodec <| .cons .word <| .cons .word .nil

def accessRow : RowCodec (UInt64 × UInt64 × BitVec 128 × UInt64 × Option Address × Word32 ×
    List UInt8 × List (Address × List Word32) × Bool × Word32 × Word32 × Unit) :=
  .cons .u64 <| .cons .u64 <| .cons .u128 <| .cons .u64 <| .cons toCodec <| .cons .word <|
  .cons .string <| .cons accessListCodec signatureRow

theorem access_reads {chainId : UInt64} : Reads 1 3 11 items tx chainId ↔
    accessRow.read 0 items = some (chainId, tx.nonce, tx.gasPrice, tx.gasLimit, tx.toAddress,
        tx.value, tx.data, tx.accessList, tx.yOdd, tx.r, tx.s, ()) ∧
      tx = ⟨1, some chainId, tx.nonce, tx.gasPrice, none, tx.gasLimit, tx.toAddress, tx.value,
        tx.data, tx.accessList, none, [], [], tx.yOdd, tx.r, tx.s, tx.signingHash⟩ := by
  obtain ⟨txType, chain, nonce, gasPrice, priorityFee, gasLimit, destination, value, data, entries,
    maxFee, hashes, authorizations, yOdd, r, s, signingHash⟩ := tx
  simp only [accessRow, signatureRow, RowCodec.cons_read]
  constructor
  · rintro ⟨rfl, rfl, readChainId, readNonce, fees, readGasLimit, readDestination, readValue,
      readData, readEntries, blobs, readAuthorizations, readParity, readR, readS⟩
    obtain ⟨readGasPrice, rfl⟩ := feesOf_one.mp fees
    obtain ⟨rfl, rfl⟩ := (blobsOf_none (by decide)).mp blobs
    obtain rfl := (authorizationsOf_none (by decide)).mp readAuthorizations
    exact ⟨⟨readChainId, readNonce, readGasPrice, readGasLimit,
      (destinationOf_any (by decide)).mp readDestination, readValue, readData, readEntries,
        readParity,
      readR, readS, rfl⟩, rfl⟩
  · rintro ⟨⟨readChainId, readNonce, readGasPrice, readGasLimit, readDestination, readValue,
      readData, readEntries, readParity, readR, readS, -⟩, same⟩
    cases same
    exact ⟨rfl, rfl, readChainId, readNonce, feesOf_one.mpr ⟨readGasPrice, rfl⟩, readGasLimit,
      (destinationOf_any (by decide)).mpr readDestination, readValue, readData, readEntries,
      (blobsOf_none (by decide)).mpr ⟨rfl, rfl⟩, (authorizationsOf_none (by decide)).mpr rfl,
      readParity, readR, readS⟩

def feeRow : RowCodec (UInt64 × UInt64 × BitVec 128 × BitVec 128 × UInt64 × Option Address ×
    Word32 × List UInt8 × List (Address × List Word32) × Bool × Word32 × Word32 × Unit) :=
  .cons .u64 <| .cons .u64 <| .cons .u128 <| .cons .u128 <| .cons .u64 <| .cons toCodec <|
  .cons .word <| .cons .string <| .cons accessListCodec signatureRow

theorem fee_reads {chainId : UInt64} : Reads 2 4 12 items tx chainId ↔ ∃ priorityFee,
    feeRow.read 0 items = some (chainId, tx.nonce, priorityFee, tx.gasPrice, tx.gasLimit,
        tx.toAddress, tx.value, tx.data, tx.accessList, tx.yOdd, tx.r, tx.s, ()) ∧
      tx = ⟨2, some chainId, tx.nonce, tx.gasPrice, some priorityFee, tx.gasLimit, tx.toAddress,
        tx.value, tx.data, tx.accessList, none, [], [], tx.yOdd, tx.r, tx.s, tx.signingHash⟩ := by
  obtain ⟨txType, chain, nonce, gasPrice, priorityFee, gasLimit, destination, value, data, entries,
    maxFee, hashes, authorizations, yOdd, r, s, signingHash⟩ := tx
  simp only [feeRow, signatureRow, RowCodec.cons_read]
  constructor
  · rintro ⟨rfl, rfl, readChainId, readNonce, fees, readGasLimit, readDestination, readValue,
      readData, readEntries, blobs, readAuthorizations, readParity, readR, readS⟩
    obtain ⟨readGasPrice, fee, readFee, rfl⟩ := (feesOf_two (by decide)).mp fees
    obtain ⟨rfl, rfl⟩ := (blobsOf_none (by decide)).mp blobs
    obtain rfl := (authorizationsOf_none (by decide)).mp readAuthorizations
    exact ⟨fee, ⟨readChainId, readNonce, readFee, readGasPrice, readGasLimit,
      (destinationOf_any (by decide)).mp readDestination, readValue, readData, readEntries,
        readParity,
      readR, readS, rfl⟩, rfl⟩
  · rintro ⟨fee, read, same⟩
    obtain ⟨readChainId, readNonce, readFee, readGasPrice, readGasLimit, readDestination, readValue,
      readData, readEntries, readParity, readR, readS, -⟩ := read
    cases same
    exact ⟨rfl, rfl, readChainId, readNonce, (feesOf_two (by decide)).mpr ⟨readGasPrice, fee,
      readFee, rfl⟩, readGasLimit, (destinationOf_any (by decide)).mpr readDestination, readValue,
        readData,
      readEntries, (blobsOf_none (by decide)).mpr ⟨rfl, rfl⟩,
      (authorizationsOf_none (by decide)).mpr rfl, readParity, readR, readS⟩

def blobRow : RowCodec (UInt64 × UInt64 × BitVec 128 × BitVec 128 × UInt64 × Address × Word32 ×
    List UInt8 × List (Address × List Word32) × BitVec 128 × List Word32 × Bool × Word32 × Word32 ×
    Unit) :=
  .cons .u64 <| .cons .u64 <| .cons .u128 <| .cons .u128 <| .cons .u64 <| .cons (.fixed 20) <|
  .cons .word <| .cons .string <| .cons accessListCodec <| .cons .u128 <|
    .cons keysCodec signatureRow

theorem blob_reads {chainId : UInt64} : Reads 3 4 14 items tx chainId ↔
    ∃ priorityFee destination maxFeePerBlobGas,
      blobRow.read 0 items = some (chainId, tx.nonce, priorityFee, tx.gasPrice, tx.gasLimit,
        destination, tx.value, tx.data, tx.accessList, maxFeePerBlobGas, tx.blobHashes, tx.yOdd,
          tx.r,
        tx.s, ()) ∧
      tx = ⟨3, some chainId, tx.nonce, tx.gasPrice, some priorityFee, tx.gasLimit, some destination,
        tx.value, tx.data, tx.accessList, some maxFeePerBlobGas, tx.blobHashes, [], tx.yOdd, tx.r,
        tx.s, tx.signingHash⟩ := by
  obtain ⟨txType, chain, nonce, gasPrice, priorityFee, gasLimit, destination, value, data, entries,
    maxFee, hashes, authorizations, yOdd, r, s, signingHash⟩ := tx
  simp only [blobRow, signatureRow, RowCodec.cons_read]
  constructor
  · rintro ⟨rfl, rfl, readChainId, readNonce, fees, readGasLimit, readDestination, readValue,
      readData, readEntries, blobs, readAuthorizations, readParity, readR, readS⟩
    obtain ⟨readGasPrice, fee, readFee, rfl⟩ := (feesOf_two (by decide)).mp fees
    obtain ⟨address, readAddress, rfl⟩ := (destinationOf_always (by decide)).mp readDestination
    obtain ⟨readHashes, most, readMost, rfl⟩ := blobsOf_three.mp blobs
    obtain rfl := (authorizationsOf_none (by decide)).mp readAuthorizations
    exact ⟨fee, address, most, ⟨readChainId, readNonce, readFee, readGasPrice,
      readGasLimit, readAddress, readValue, readData, readEntries, readMost, readHashes, readParity,
      readR, readS, rfl⟩, rfl⟩
  · rintro ⟨fee, address, most, read, same⟩
    obtain ⟨readChainId, readNonce, readFee, readGasPrice, readGasLimit, readAddress, readValue,
      readData, readEntries, readMost, readHashes, readParity, readR, readS, -⟩ := read
    cases same
    exact ⟨rfl, rfl, readChainId, readNonce, (feesOf_two (by decide)).mpr ⟨readGasPrice, fee,
      readFee, rfl⟩, readGasLimit, (destinationOf_always (by decide)).mpr ⟨address, readAddress,
        rfl⟩, readValue,
      readData, readEntries, blobsOf_three.mpr ⟨readHashes, most, readMost, rfl⟩,
      (authorizationsOf_none (by decide)).mpr rfl, readParity, readR, readS⟩

def setCodeRow : RowCodec (UInt64 × UInt64 × BitVec 128 × BitVec 128 × UInt64 × Address × Word32 ×
    List UInt8 × List (Address × List Word32) × List Authorization × Bool × Word32 × Word32 ×
      Unit) :=
  .cons .u64 <| .cons .u64 <| .cons .u128 <| .cons .u128 <| .cons .u64 <| .cons (.fixed 20) <|
  .cons .word <| .cons .string <| .cons accessListCodec <| .cons authorizationsCodec signatureRow

theorem setCode_reads {chainId : UInt64} : Reads 4 4 13 items tx chainId ↔
    ∃ priorityFee destination,
      setCodeRow.read 0 items = some (chainId, tx.nonce, priorityFee, tx.gasPrice, tx.gasLimit,
        destination, tx.value, tx.data, tx.accessList, tx.authorizations, tx.yOdd, tx.r, tx.s, ()) ∧
      tx = ⟨4, some chainId, tx.nonce, tx.gasPrice, some priorityFee, tx.gasLimit, some destination,
        tx.value, tx.data, tx.accessList, none, [], tx.authorizations, tx.yOdd, tx.r, tx.s,
        tx.signingHash⟩ := by
  obtain ⟨txType, chain, nonce, gasPrice, priorityFee, gasLimit, destination, value, data, entries,
    maxFee, hashes, authorizations, yOdd, r, s, signingHash⟩ := tx
  simp only [setCodeRow, signatureRow, RowCodec.cons_read]
  constructor
  · rintro ⟨rfl, rfl, readChainId, readNonce, fees, readGasLimit, readDestination, readValue,
      readData, readEntries, blobs, readAuthorizations, readParity, readR, readS⟩
    obtain ⟨readGasPrice, fee, readFee, rfl⟩ := (feesOf_two (by decide)).mp fees
    obtain ⟨address, readAddress, rfl⟩ := (destinationOf_always (by decide)).mp readDestination
    obtain ⟨rfl, rfl⟩ := (blobsOf_none (by decide)).mp blobs
    exact ⟨fee, address, ⟨readChainId, readNonce, readFee, readGasPrice,
      readGasLimit, readAddress, readValue, readData, readEntries,
      authorizationsOf_four.mp readAuthorizations, readParity, readR, readS, rfl⟩, rfl⟩
  · rintro ⟨fee, address, read, same⟩
    obtain ⟨readChainId, readNonce, readFee, readGasPrice, readGasLimit, readAddress, readValue,
      readData, readEntries, readAuthorizations, readParity, readR, readS, -⟩ := read
    cases same
    exact ⟨rfl, rfl, readChainId, readNonce, (feesOf_two (by decide)).mpr ⟨readGasPrice, fee,
      readFee, rfl⟩, readGasLimit, (destinationOf_always (by decide)).mpr ⟨address, readAddress,
        rfl⟩, readValue,
      readData, readEntries, (blobsOf_none (by decide)).mpr ⟨rfl, rfl⟩,
      authorizationsOf_four.mpr readAuthorizations, readParity, readR, readS⟩

/-! ## Their bytes -/

/-- A row that writes a typed transaction's fields and then its signature. -/
structure Lays {α : Type} (row : RowCodec α) (value : α) (txType : UInt8) (fields : Fields)
    (signature : Signature) : Prop where
  kind : fields.kind = [txType]
  chain : fields.chainParts = []
  write : row.write value = fields.parts ++ [fields.parityPart signature.yOdd,
    encodeUint signature.r.1, encodeUint signature.s.1]
  width : row.width = fields.parts.length + 3

variable {α : Type} {row : RowCodec α} {value : α} {txType : UInt8} {fields : Fields}
  {signature : Signature}

theorem Lays.encode (lays : Lays row value txType fields signature) :
    fields.encode signature = txType :: row.encode value := by
  rw [Fields.encode, lays.kind, RowCodec.encode, lays.write]
  rfl

/-- What is signed is the row without its last three fields. -/
theorem Lays.unsigned (lays : Lays row value txType fields signature)
    (listed : Rlp.listItems body = some items) (read : row.ofItems items = some value) :
    fields.unsigned = txType :: encodeList (signedItems (items.take (items.length - 3))) := by
  obtain ⟨count, -⟩ := Option.ite_none_right_eq_some.mp read
  rw [signedItems_take row listed read, lays.write, count, lays.width, Nat.add_sub_cancel,
    List.take_left, Fields.unsigned, lays.kind, lays.chain, List.append_nil]
  rfl

/-- A typed transaction's row is read from exactly its bytes. -/
theorem Lays.listed (lays : Lays row value txType fields signature)
    (short : body.length ≤ isizeMax) :
    fields.encode signature = txType :: body ↔
      ∃ items, Rlp.listItems body = some items ∧ row.ofItems items = some value := by
  rw [lays.encode, List.cons.injEq, eq_self_iff_true, true_and, ← Option.bind_eq_some_iff,
    row.listItems_iff]
  exact ⟨fun same => ⟨same.symm, short.trans (by decide)⟩, fun found => found.1.symm⟩

/-- A type's row, and the fields and the signature that its values are. -/
structure Laid {α : Type} (row : RowCodec α) (txType : UInt8) (made : α → Fields × Signature) :
    Prop where
  width : row.width = itemCount txType
  lays : ∀ value, Lays row value txType (made value).1 (made value).2
  all : ∀ fields signature, fields.kind = [txType] → ∃ value, made value = (fields, signature)
  reads : ∀ (items : List Item) (tx : Tx) (keccak : List UInt8 → Word32),
    (∃ chainId, Reads txType (2 + if txType = 1 then 1 else 2) row.width items tx chainId) ↔
      ∃ value, row.read 0 items = some value ∧
        tx = { (made value).1.tx keccak (made value).2 with signingHash := tx.signingHash }

theorem signingHash_tx (fields : Fields) (signature : Signature) :
    (fields.tx keccak signature).signingHash = keccak fields.unsigned := by
  cases fields with
  | legacy => rfl
  | accessList => rfl
  | dynamicFee => rfl
  | blob => rfl
  | setCode => rfl

variable {made : α → Fields × Signature}

theorem Laid.typed_eq_ok (laid : Laid row txType made) (short : body.length ≤ isizeMax) :
    typed keccak txType body = .ok tx ↔ ∃ (fields : Fields) (signature : Signature),
      fields.kind = [txType] ∧ fields.encode signature = txType :: body ∧
      tx = fields.tx keccak signature := by
  rw [Tx.typed_eq_ok short]
  constructor
  · rintro ⟨items, chainId, listed, count, reads, signed⟩
    rw [count, ← laid.width] at reads
    obtain ⟨value, read, same⟩ := (laid.reads items tx keccak).mp ⟨chainId, reads⟩
    have row : row.ofItems items = some value := (if_pos (count.trans laid.width.symm)).trans read
    have lays := laid.lays value
    refine ⟨_, _, lays.kind, (lays.listed short).mpr ⟨items, listed, row⟩, ?_⟩
    have hash : ((made value).1.tx keccak (made value).2).signingHash = _ := signingHash_tx _ _
    rw [same, signed, ← lays.unsigned listed row, ← hash]
  · rintro ⟨fields, signature, kind, whole, rfl⟩
    obtain ⟨value, same⟩ := laid.all fields signature kind
    have lays := laid.lays value
    rw [same] at lays
    obtain ⟨items, listed, row⟩ := (lays.listed short).mp whole
    obtain ⟨count, read⟩ := Option.ite_none_right_eq_some.mp row
    obtain ⟨chainId, reads⟩ := (laid.reads items (fields.tx keccak signature) keccak).mpr
      ⟨value, read, by rw [same]⟩
    refine ⟨items, chainId, listed, count.trans laid.width, count ▸ reads, ?_⟩
    rw [signingHash_tx, lays.unsigned listed row]

/-! ## The types -/

theorem laid_access : Laid accessRow 1 fun (chainId, nonce, gasPrice, gasLimit, destination, value,
    data, entries, yOdd, r, s, _) =>
      (.accessList chainId nonce gasPrice gasLimit destination value data entries, ⟨yOdd, r,
        s⟩) where
  width := rfl
  lays _ := ⟨rfl, rfl, rfl, rfl⟩
  all fields signature kind := by
    cases fields with
    | accessList chainId nonce gasPrice gasLimit destination value data entries =>
      exact ⟨(chainId, nonce, gasPrice, gasLimit, destination, value, data, entries, signature.yOdd,
        signature.r, signature.s, ()), rfl⟩
    | legacy => cases kind
    | dynamicFee => cases kind
    | blob => cases kind
    | setCode => cases kind
  reads items tx keccak := by
    constructor
    · rintro ⟨chainId, reads⟩
      obtain ⟨read, same⟩ := access_reads.mp reads
      exact ⟨_, read, same⟩
    · rintro ⟨⟨chainId, nonce, gasPrice, gasLimit, destination, value, data, entries, yOdd, r, s,
        _⟩, read, same⟩
      rw [same]
      exact ⟨chainId, access_reads.mpr ⟨read, rfl⟩⟩

theorem laid_fee : Laid feeRow 2 fun (chainId, nonce, priorityFee, maxFee, gasLimit, destination,
    value, data, entries, yOdd, r, s, _) =>
      (.dynamicFee chainId nonce priorityFee maxFee gasLimit destination value data entries,
        ⟨yOdd, r, s⟩) where
  width := rfl
  lays _ := ⟨rfl, rfl, rfl, rfl⟩
  all fields signature kind := by
    cases fields with
    | dynamicFee chainId nonce priorityFee maxFee gasLimit destination value data entries =>
      exact ⟨(chainId, nonce, priorityFee, maxFee, gasLimit, destination, value, data, entries,
        signature.yOdd, signature.r, signature.s, ()), rfl⟩
    | legacy => cases kind
    | accessList => cases kind
    | blob => cases kind
    | setCode => cases kind
  reads items tx keccak := by
    constructor
    · rintro ⟨chainId, reads⟩
      obtain ⟨fee, read, same⟩ := fee_reads.mp reads
      exact ⟨_, read, same⟩
    · rintro ⟨⟨chainId, nonce, priorityFee, maxFee, gasLimit, destination, value, data, entries,
        yOdd, r, s, _⟩, read, same⟩
      rw [same]
      exact ⟨chainId, fee_reads.mpr ⟨priorityFee, read, rfl⟩⟩

theorem laid_blob : Laid blobRow 3 fun (chainId, nonce, priorityFee, maxFee, gasLimit, destination,
    value, data, entries, maxFeePerBlobGas, hashes, yOdd, r, s, _) =>
      (.blob chainId nonce priorityFee maxFee gasLimit destination value data entries maxFeePerBlobGas
        hashes, ⟨yOdd, r, s⟩) where
  width := rfl
  lays _ := ⟨rfl, rfl, rfl, rfl⟩
  all fields signature kind := by
    cases fields with
    | blob chainId nonce priorityFee maxFee gasLimit destination value data entries maxFeePerBlobGas
        hashes =>
      exact ⟨(chainId, nonce, priorityFee, maxFee, gasLimit, destination, value, data, entries,
        maxFeePerBlobGas, hashes, signature.yOdd, signature.r, signature.s, ()), rfl⟩
    | legacy => cases kind
    | accessList => cases kind
    | dynamicFee => cases kind
    | setCode => cases kind
  reads items tx keccak := by
    constructor
    · rintro ⟨chainId, reads⟩
      obtain ⟨fee, address, most, read, same⟩ := blob_reads.mp reads
      exact ⟨_, read, same⟩
    · rintro ⟨⟨chainId, nonce, priorityFee, maxFee, gasLimit, destination, value, data, entries,
        maxFeePerBlobGas, hashes, yOdd, r, s, _⟩, read, same⟩
      rw [same]
      exact ⟨chainId, blob_reads.mpr ⟨priorityFee, destination, maxFeePerBlobGas, read, rfl⟩⟩

theorem laid_setCode : Laid setCodeRow 4 fun (chainId, nonce, priorityFee, maxFee, gasLimit,
    destination, value, data, entries, authorizations, yOdd, r, s, _) =>
      (.setCode chainId nonce priorityFee maxFee gasLimit destination value data entries authorizations,
        ⟨yOdd, r, s⟩) where
  width := rfl
  lays _ := ⟨rfl, rfl, rfl, rfl⟩
  all fields signature kind := by
    cases fields with
    | setCode chainId nonce priorityFee maxFee gasLimit destination value data entries authorizations =>
      exact ⟨(chainId, nonce, priorityFee, maxFee, gasLimit, destination, value, data, entries,
        authorizations, signature.yOdd, signature.r, signature.s, ()), rfl⟩
    | legacy => cases kind
    | accessList => cases kind
    | dynamicFee => cases kind
    | blob => cases kind
  reads items tx keccak := by
    constructor
    · rintro ⟨chainId, reads⟩
      obtain ⟨fee, address, read, same⟩ := setCode_reads.mp reads
      exact ⟨_, read, same⟩
    · rintro ⟨⟨chainId, nonce, priorityFee, maxFee, gasLimit, destination, value, data, entries,
        authorizations, yOdd, r, s, _⟩, read, same⟩
      rw [same]
      exact ⟨chainId, setCode_reads.mpr ⟨priorityFee, destination, read, rfl⟩⟩

/-! ## Any bytes -/

/-- The type of a typed transaction, and what its bytes decode to. -/
theorem typed_eq_ok_iff {txType : UInt8} (kind : 1 ≤ txType ∧ txType ≤ 4)
    (short : body.length ≤ isizeMax) :
    typed keccak txType body = .ok tx ↔ ∃ (fields : Fields) (signature : Signature),
      fields.kind = [txType] ∧ fields.encode signature = txType :: body ∧
      tx = fields.tx keccak signature := by
  have types : txType = 1 ∨ txType = 2 ∨ txType = 3 ∨ txType = 4 := by
    have low : 1 ≤ txType.toNat := kind.1
    have high : txType.toNat ≤ 4 := kind.2
    simp only [← UInt8.toNat_inj]
    change txType.toNat = 1 ∨ txType.toNat = 2 ∨ txType.toNat = 3 ∨ txType.toNat = 4
    omega
  rcases types with rfl | rfl | rfl | rfl
  · exact laid_access.typed_eq_ok short
  · exact laid_fee.typed_eq_ok short
  · exact laid_blob.typed_eq_ok short
  · exact laid_setCode.typed_eq_ok short

theorem decode_legacy {first : UInt8} (list : 0xc0 ≤ first) (rest : List UInt8) :
    decode keccak (first :: rest) = legacy keccak (first :: rest) := if_pos list

theorem decode_typed {first : UInt8} (kind : 1 ≤ first ∧ first ≤ 4) (rest : List UInt8) :
    decode keccak (first :: rest) = typed keccak first rest := by
  have list : ¬(0xc0 : UInt8) ≤ first := by
    have high : first.toNat ≤ 4 := kind.2
    change ¬(192 ≤ first.toNat)
    omega
  have body : Bounds.range (first :: rest) 1 (first :: rest).length = .ok rest := by
    rw [Bounds.range, if_pos ⟨Nat.le_add_left 1 rest.length, le_rfl⟩, List.take_length]
    rfl
  change (if 0xc0 ≤ first then legacy keccak (first :: rest) else _) = _
  rw [if_neg list, if_pos kind, body]
  rfl

theorem decode_other {first : UInt8} (list : ¬0xc0 ≤ first) (kind : ¬(1 ≤ first ∧ first ≤ 4))
    (rest : List UInt8) : decode keccak (first :: rest) = .error .malformed :=
  (if_neg list).trans (if_neg kind)

theorem decode_ne_panic (short : bytes.length ≤ isizeMax) :
    decode keccak bytes ≠ .error .panic := by
  cases bytes with
  | nil => exact malformed_ne_panic
  | cons first rest =>
    by_cases list : 0xc0 ≤ first
    · rw [decode_legacy list]
      exact legacy_ne_panic short
    by_cases kind : 1 ≤ first ∧ first ≤ 4
    · rw [decode_typed kind]
      exact typed_ne_panic first ((Nat.le_succ _).trans short)
    · rw [decode_other list kind]
      exact malformed_ne_panic

theorem head_typed {fields : Fields} {signature : Signature} {txType : UInt8}
    (kind : fields.kind = [txType]) (low : 1 ≤ txType ∧ txType ≤ 4) :
    ∃ first rest, fields.encode signature = first :: rest ∧ ((fields.kind = [] ∧ 0xc0 ≤ first) ∨
        (fields.kind = [first] ∧ 1 ≤ first ∧ first ≤ 4)) := by
  rw [Fields.encode, kind]
  exact ⟨txType, _, rfl, Or.inr ⟨rfl, low⟩⟩

/-- The first byte of a transaction is its type, or a list's. -/
theorem head_encode (fields : Fields) (signature : Signature) :
    ∃ first rest, fields.encode signature = first :: rest ∧ ((fields.kind = [] ∧ 0xc0 ≤ first) ∨
        (fields.kind = [first] ∧ 1 ≤ first ∧ first ≤ 4)) := by
  cases fields with
  | legacy chainId nonce gasPrice gasLimit destination value data =>
    have opened := head_encodeList ((Fields.legacy chainId nonce gasPrice gasLimit destination value
      data).parts ++ [(Fields.legacy chainId nonce gasPrice gasLimit destination value
      data).parityPart signature.yOdd, encodeUint signature.r.1, encodeUint signature.s.1]).flatten
    rw [Fields.encode, Fields.kind, List.nil_append]
    obtain ⟨first, head, list⟩ := (Option.any_eq_true _ _).mp opened
    obtain ⟨rest, whole⟩ := List.head?_eq_some_iff.mp head
    exact ⟨first, rest, whole, Or.inl ⟨rfl, of_decide_eq_true list⟩⟩
  | accessList => exact head_typed rfl (by decide)
  | dynamicFee => exact head_typed rfl (by decide)
  | blob => exact head_typed rfl (by decide)
  | setCode => exact head_typed rfl (by decide)

theorem decode_eq_ok (short : bytes.length ≤ isizeMax) : decode keccak bytes = .ok tx ↔
    ∃ (fields : Fields) (signature : Signature), bytes = fields.encode signature ∧
      tx = fields.tx keccak signature := by
  constructor
  · intro found
    cases bytes with
    | nil => cases found
    | cons first rest =>
      by_cases list : 0xc0 ≤ first
      · rw [decode_legacy list] at found
        obtain ⟨chainId, nonce, gasPrice, gasLimit, destination, value, data, signature, whole,
          same⟩ :=
          (legacy_eq_ok short).mp found
        exact ⟨_, signature, whole, same⟩
      by_cases kind : 1 ≤ first ∧ first ≤ 4
      · rw [decode_typed kind] at found
        obtain ⟨fields, signature, -, whole, same⟩ :=
          (typed_eq_ok_iff kind ((Nat.le_succ _).trans short)).mp found
        exact ⟨fields, signature, whole.symm, same⟩
      · rw [decode_other list kind] at found
        cases found
  · rintro ⟨fields, signature, whole, same⟩
    obtain ⟨first, rest, opened, kind⟩ := head_encode fields signature
    rw [opened] at whole
    subst whole
    rcases kind with ⟨none, list⟩ | ⟨some, kind⟩
    · rw [decode_legacy list, legacy_eq_ok short]
      cases fields with
      | legacy => exact ⟨_, _, _, _, _, _, _, signature, opened.symm, same⟩
      | accessList => cases none
      | dynamicFee => cases none
      | blob => cases none
      | setCode => cases none
    · rw [decode_typed kind, typed_eq_ok_iff kind ((Nat.le_succ _).trans short)]
      exact ⟨fields, signature, some, opened, same⟩

/-- Decoding never stops the guest. It takes exactly the encodings of fields and signatures, gives
each back, and hashes what the fields' signer signed. -/
theorem decode_exact (keccak : List UInt8 → Word32) (bytes : List UInt8)
    (short : bytes.length ≤ isizeMax) :
    decode keccak bytes ≠ .error .panic ∧
      (∀ tx, decode keccak bytes = .ok tx → ∃ (fields : Fields) (signature : Signature),
        tx = fields.tx keccak signature ∧ fields.encode signature = bytes ∧
          tx.signingHash = keccak fields.unsigned) ∧
      ∀ (fields : Fields) (signature : Signature), fields.encode signature = bytes →
        decode keccak bytes = .ok (fields.tx keccak signature) := by
  refine ⟨decode_ne_panic short, fun tx found => ?_, fun fields signature whole => ?_⟩
  · obtain ⟨fields, signature, whole, rfl⟩ := (decode_eq_ok short).mp found
    exact ⟨fields, signature, rfl, whole.symm, signingHash_tx fields signature⟩
  · exact (decode_eq_ok short).mpr ⟨fields, signature, whole.symm, rfl⟩

/-- A creation on the chain 1, with nothing to warm. -/
theorem decode_exact_creation :
    decode (fun _ => ⟨List.replicate 32 0, rfl⟩)
        [1, 0xcb, 1, 0x80, 0x80, 0x80, 0x80, 0x80, 0x80, 0xc0, 1, 1, 1] =
      .ok ((Fields.accessList 1 0 0 0 none ⟨List.replicate 32 0, rfl⟩ [] []).tx
        (fun _ => ⟨List.replicate 32 0, rfl⟩)
        ⟨true, ⟨List.replicate 31 0 ++ [1], rfl⟩, ⟨List.replicate 31 0 ++ [1], rfl⟩⟩) :=
  (decode_exact _ _ (by decide)).2.2 _ _ (by decide)

end Apogee.Stateless.Tx
