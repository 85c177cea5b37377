import Apogee.Stateless.TransactionCodec

/-! # Legacy transactions

A legacy transaction is decoded from exactly the bytes its layout writes.
-/

namespace Apogee.Stateless.Tx

open Rlp
open Bounds (Attempt expected index sub add bind_eq_ok bind_ne_panic malformed_ne_panic ok_ne_panic)

/-- The most bytes that a slice of the guest has. -/
def isizeMax : ℕ := 2 ^ 31 - 1

variable {keccak : List UInt8 → Word32} {bytes body : List UInt8} {items : List Item} {tx : Tx}

def legacyRow : RowCodec (UInt64 × BitVec 128 × UInt64 × Option Address × Word32 × List UInt8 ×
    (Option UInt64 × Bool) × Word32 × Word32 × Unit) :=
  .cons .u64 <| .cons .u128 <| .cons .u64 <| .cons toCodec <| .cons .word <| .cons .string <|
  .cons vCodec <| .cons .word <| .cons .word .nil

theorem before_eq {place : ℕ} (inside : place ≤ items.length) :
    before items place = .ok (items.take place) := if_pos inside

/-- The items that are signed are the row's first fields. -/
theorem signedItems_take {α : Type} (row : RowCodec α) {value : α}
    (listed : Rlp.listItems bytes = some items)
    (read : row.ofItems items = some value) (count : ℕ) :
    signedItems (items.take count) = ((row.write value).take count).flatten := by
  have written := (listItems_eq_some listed).2.2
  rw [signedItems, List.map_take, row.ofItems_sound written read]

/-- Items are no longer than the bytes they are read from. -/
theorem length_signedItems_le (listed : Rlp.listItems bytes = some items) (count : ℕ) :
    (signedItems (items.take count)).length ≤ bytes.length := by
  have inside : (signedItems (items.take count)).length ≤ (items.map Item.whole).flatten.length := by
    rw [signedItems, List.map_take]
    exact ((List.take_prefix count _).sublist.flatten).length_le
  have whole := (listItems_eq_some listed).1
  rw [whole]
  exact inside.trans (length_le_encodeList _)

theorem length_unsignedItems_le (fields : List UInt8) (chainId : Option UInt64) :
    (unsignedItems fields chainId).length ≤ fields.length + 19 := by
  cases chainId with
  | none => exact Nat.le_add_right _ _
  | some chainId =>
    have digits := Mpt.length_encodeUint_le (beBytes 8 chainId.toNat)
    rw [length_beBytes_eq] at digits
    rw [unsignedItems, List.length_append, List.length_append, encodeU64]
    change _ + _ + 2 ≤ _
    omega

theorem capacity_legacy (short : bytes.length ≤ isizeMax)
    (listed : Rlp.listItems bytes = some items)
    (chainId : Option UInt64) :
    (unsignedItems (signedItems (items.take 6)) chainId).length + 9 ≤ maxOf 4 := by
  have fields := length_signedItems_le listed 6
  have unsigned := length_unsignedItems_le (signedItems (items.take 6)) chainId
  have room : maxOf 4 = 2 ^ 32 - 1 := rfl
  unfold isizeMax at short
  omega

/-! ## Its bytes -/

theorem unsigned_legacy (fields : List (List UInt8)) (chainId : Option UInt64) :
    unsignedItems fields.flatten chainId = (fields ++ match chainId with
      | some chainId => [encodeU64 chainId, [0x80], [0x80]]
      | none => []).flatten := by
  cases chainId with
  | none =>
    rw [unsignedItems, List.append_nil]
  | some chainId =>
    rw [unsignedItems, List.flatten_append, List.append_assoc]
    rfl

section

variable (chainId : Option UInt64) (nonce : UInt64) (gasPrice : BitVec 128) (gasLimit : UInt64)
  (destination : Option Address) (value : Word32) (data : List UInt8) (yOdd : Bool) (r s : Word32)

theorem encode_legacy :
    (Fields.legacy chainId nonce gasPrice gasLimit destination value data).encode ⟨yOdd, r, s⟩ =
      legacyRow.encode (nonce, gasPrice, gasLimit, destination, value, data, (chainId, yOdd), r, s,
        ()) := by
  rw [Fields.encode, Fields.kind, List.nil_append, RowCodec.encode]
  exact congrArg (fun parts : List (List UInt8) => encodeList parts.flatten) rfl

theorem unsigned_eq_legacy :
    (Fields.legacy chainId nonce gasPrice gasLimit destination value data).unsigned =
      encodeList (unsignedItems ((legacyRow.write (nonce, gasPrice, gasLimit, destination, value,
        data, (chainId, yOdd), r, s, ())).take 6).flatten chainId) := by
  rw [Fields.unsigned, Fields.kind, List.nil_append, unsigned_legacy]
  cases chainId with
  | none => exact congrArg (fun parts : List (List UInt8) => encodeList parts.flatten) rfl
  | some chainId => exact congrArg (fun parts : List (List UInt8) => encodeList parts.flatten) rfl

end

theorem legacy_eq_ok (short : bytes.length ≤ isizeMax) : legacy keccak bytes = .ok tx ↔
    ∃ (chainId : Option UInt64) (nonce : UInt64) (gasPrice : BitVec 128) (gasLimit : UInt64)
      (destination : Option Address) (value : Word32) (data : List UInt8) (signature : Signature),
      bytes = (Fields.legacy chainId nonce gasPrice gasLimit destination value data).encode signature ∧
      tx = (Fields.legacy chainId nonce gasPrice gasLimit destination value data).tx keccak
        signature := by
  rw [legacy, listItems_eq]
  constructor
  · intro found
    obtain ⟨items, listed, found⟩ := bind_eq_ok.mp found
    have listed := Bounds.expected_eq_ok.mp listed
    by_cases nine : items.length = 9
    · rw [if_neg (not_not_intro nine)] at found
      obtain ⟨v, readV, found⟩ := bind_eq_ok.mp found
      obtain ⟨⟨chainId, yOdd⟩, known, found⟩ := bind_eq_ok.mp found
      obtain ⟨front, taken, found⟩ := bind_eq_ok.mp found
      obtain ⟨capacity, -, found⟩ := bind_eq_ok.mp found
      obtain ⟨nonce, readNonce, found⟩ := bind_eq_ok.mp found
      obtain ⟨gasPrice, readGasPrice, found⟩ := bind_eq_ok.mp found
      obtain ⟨gasLimit, readGasLimit, found⟩ := bind_eq_ok.mp found
      obtain ⟨destination, readDestination, found⟩ := bind_eq_ok.mp found
      obtain ⟨value, readValue, found⟩ := bind_eq_ok.mp found
      obtain ⟨data, readData, found⟩ := bind_eq_ok.mp found
      obtain ⟨r, readR, found⟩ := bind_eq_ok.mp found
      obtain ⟨s, readS, found⟩ := bind_eq_ok.mp found
      have parity : items[6]?.bind vCodec.read = some (chainId, yOdd) :=
        v_read.mpr ⟨v, field_eq_ok.mp readV, Bounds.expected_eq_ok.mp (parityOf_eq v ▸ known)⟩
      have row : legacyRow.ofItems items = some (nonce, gasPrice, gasLimit, destination, value,
          data, (chainId, yOdd), r, s, ()) := by
        refine (if_pos nine).trans (RowCodec.cons_read.mpr ⟨field_eq_ok.mp readNonce, ?_⟩)
        refine RowCodec.cons_read.mpr ⟨field_eq_ok.mp readGasPrice, ?_⟩
        refine RowCodec.cons_read.mpr ⟨field_eq_ok.mp readGasLimit, ?_⟩
        refine RowCodec.cons_read.mpr ⟨field_eq_ok.mp readDestination, ?_⟩
        refine RowCodec.cons_read.mpr ⟨field_eq_ok.mp readValue, ?_⟩
        refine RowCodec.cons_read.mpr ⟨field_eq_ok.mp readData, RowCodec.cons_read.mpr ⟨parity, ?_⟩⟩
        refine RowCodec.cons_read.mpr ⟨field_eq_ok.mp readR, ?_⟩
        exact RowCodec.cons_read.mpr ⟨field_eq_ok.mp readS, rfl⟩
      obtain ⟨whole, -⟩ := legacyRow.listItems_iff.mp (Option.bind_eq_some_iff.mpr ⟨items, listed,
        row⟩)
      rw [before_eq (by omega)] at taken
      cases taken
      cases found
      refine ⟨chainId, nonce, gasPrice, gasLimit, destination, value, data, ⟨yOdd, r, s⟩, ?_, ?_⟩
      · rw [whole, encode_legacy]
      · rw [Fields.tx, unsigned_eq_legacy, ← signedItems_take legacyRow listed row 6]
    · rw [if_pos nine] at found
      cases found
  · rintro ⟨chainId, nonce, gasPrice, gasLimit, destination, value, data, ⟨yOdd, r, s⟩, whole, rfl⟩
    have counted : bytes.length ≤ usizeMax := short.trans (by decide)
    rw [encode_legacy] at whole
    obtain ⟨items, listed, row⟩ :=
      Option.bind_eq_some_iff.mp (legacyRow.listItems_iff.mpr ⟨whole, counted⟩)
    obtain ⟨nine, read⟩ := Option.ite_none_right_eq_some.mp row
    change items.length = 9 at nine
    obtain ⟨readNonce, read⟩ := RowCodec.cons_read.mp read
    obtain ⟨readGasPrice, read⟩ := RowCodec.cons_read.mp read
    obtain ⟨readGasLimit, read⟩ := RowCodec.cons_read.mp read
    obtain ⟨readDestination, read⟩ := RowCodec.cons_read.mp read
    obtain ⟨readValue, read⟩ := RowCodec.cons_read.mp read
    obtain ⟨readData, read⟩ := RowCodec.cons_read.mp read
    obtain ⟨readParity, read⟩ := RowCodec.cons_read.mp read
    obtain ⟨readR, read⟩ := RowCodec.cons_read.mp read
    obtain ⟨readS, -⟩ := RowCodec.cons_read.mp read
    obtain ⟨v, readV, known⟩ := v_read.mp readParity
    refine bind_eq_ok.mpr ⟨items, Bounds.expected_eq_ok.mpr listed, ?_⟩
    rw [if_neg (not_not_intro nine)]
    refine bind_eq_ok.mpr ⟨v, field_eq_ok.mpr readV, ?_⟩
    refine bind_eq_ok.mpr ⟨(chainId, yOdd), parityOf_eq v ▸ Bounds.expected_eq_ok.mpr known, ?_⟩
    refine bind_eq_ok.mpr ⟨items.take 6, before_eq (by omega), ?_⟩
    refine bind_eq_ok.mpr ⟨_, Bounds.add_eq (capacity_legacy short listed chainId), ?_⟩
    refine bind_eq_ok.mpr ⟨nonce, field_eq_ok.mpr readNonce, ?_⟩
    refine bind_eq_ok.mpr ⟨gasPrice, field_eq_ok.mpr readGasPrice, ?_⟩
    refine bind_eq_ok.mpr ⟨gasLimit, field_eq_ok.mpr readGasLimit, ?_⟩
    refine bind_eq_ok.mpr ⟨destination, field_eq_ok.mpr readDestination, ?_⟩
    refine bind_eq_ok.mpr ⟨value, field_eq_ok.mpr readValue, ?_⟩
    refine bind_eq_ok.mpr ⟨data, field_eq_ok.mpr readData, ?_⟩
    refine bind_eq_ok.mpr ⟨r, field_eq_ok.mpr readR, ?_⟩
    refine bind_eq_ok.mpr ⟨s, field_eq_ok.mpr readS, ?_⟩
    rw [Fields.tx, unsigned_eq_legacy, ← signedItems_take legacyRow listed row 6]
    rfl

theorem legacy_ne_panic (short : bytes.length ≤ isizeMax) :
    legacy keccak bytes ≠ .error .panic := by
  rw [legacy, listItems_eq]
  refine bind_ne_panic (Bounds.expected_ne_panic _) fun items listed => ?_
  by_cases nine : items.length = 9
  · rw [if_neg (not_not_intro nine)]
    refine bind_ne_panic (field_ne_panic (by omega)) fun v _ => ?_
    refine bind_ne_panic (parityOf_eq v ▸ Bounds.expected_ne_panic _) fun ⟨chainId, yOdd⟩ _ => ?_
    have front : before items 6 = .ok (items.take 6) := before_eq (by omega)
    dsimp only
    rw [front, Bounds.ok_bind]
    have capacity := capacity_legacy short (Bounds.expected_eq_ok.mp listed) chainId
    rw [Bounds.add_eq capacity, Bounds.ok_bind]
    refine bind_ne_panic (field_ne_panic (by omega)) fun nonce _ => ?_
    refine bind_ne_panic (field_ne_panic (by omega)) fun gasPrice _ => ?_
    refine bind_ne_panic (field_ne_panic (by omega)) fun gasLimit _ => ?_
    refine bind_ne_panic (field_ne_panic (by omega)) fun destination _ => ?_
    refine bind_ne_panic (field_ne_panic (by omega)) fun value _ => ?_
    refine bind_ne_panic (field_ne_panic (by omega)) fun data _ => ?_
    refine bind_ne_panic (field_ne_panic (by omega)) fun r _ => ?_
    exact bind_ne_panic (field_ne_panic (by omega)) fun s _ => ok_ne_panic
  · rw [if_pos nine]
    exact malformed_ne_panic

end Apogee.Stateless.Tx

/-! ## Typed transactions

A transaction of each type is decoded from exactly the bytes its layout writes after the
type.
-/

namespace Apogee.Stateless.Tx

open Rlp
open Bounds (Attempt expected index sub add bind_eq_ok bind_ne_panic malformed_ne_panic ok_ne_panic)

variable {keccak : List UInt8 → Word32} {body : List UInt8} {items : List Item} {tx : Tx}

/-- What the fields of a typed transaction of `n` items are read from, its gas limit at a
place. -/
structure Reads (txType : UInt8) (gas n : ℕ) (items : List Item) (tx : Tx) (id : UInt64) :
    Prop where
  type : tx.txType = txType
  chain : tx.chainId = some id
  chainId : items[0]?.bind u64Of = some id
  nonce : items[1]?.bind u64Of = some tx.nonce
  fees : feesOf txType items = .ok (tx.gasPrice, tx.priorityFee)
  gasLimit : items[gas]?.bind u64Of = some tx.gasLimit
  destination : destinationOf txType items (gas + 1) = .ok tx.toAddress
  value : items[gas + 2]?.bind wordOf = some tx.value
  data : items[gas + 3]?.bind Rlp.bytes = some tx.data
  accessList : items[gas + 4]?.bind accessListCodec.read = some tx.accessList
  blobs : blobsOf txType items (gas + 5) (gas + 6) = .ok (tx.maxFeePerBlobGas, tx.blobHashes)
  authorizations : authorizationsOf txType items (gas + 5) = .ok tx.authorizations
  yOdd : items[n - 3]?.bind parityCodec.read = some tx.yOdd
  r : items[n - 2]?.bind wordOf = some tx.r
  s : items[n - 1]?.bind wordOf = some tx.s

theorem itemCount_ge (txType : UInt8) : 11 ≤ itemCount txType := by
  unfold itemCount
  by_cases one : txType = 1
  · rw [if_pos one]
  rw [if_neg one]
  by_cases two : txType = 2
  · rw [if_pos two]
    decide
  rw [if_neg two]
  by_cases three : txType = 3
  · rw [if_pos three]
    decide
  · rw [if_neg three]
    decide

theorem sub_eq {a b : ℕ} (less : b ≤ a) : sub a b = .ok (a - b) := if_pos less

theorem capacity_typed (short : body.length ≤ isizeMax) : body.length + 1 ≤ maxOf 4 := by
  have room : maxOf 4 = 2 ^ 32 - 1 := rfl
  unfold isizeMax at short
  omega

theorem accessList_eq_ok {place : ℕ} {entries : List (Address × List Word32)} :
    (index items place >>= accessListOf) = .ok entries ↔
      items[place]?.bind accessListCodec.read = some entries := by
  rw [← field_eq_ok, field]
  exact iff_of_eq (congrArg (· = _) (congrArg _ (funext accessListOf_eq)))

theorem typed_eq_ok {txType : UInt8} (short : body.length ≤ isizeMax) :
    typed keccak txType body = .ok tx ↔ ∃ items chainId, Rlp.listItems body = some items ∧
      items.length = itemCount txType ∧
      Reads txType (2 + if txType = 1 then 1 else 2) items.length items tx chainId ∧
      tx.signingHash =
        keccak (txType :: encodeList (signedItems (items.take (items.length - 3)))) := by
  rw [typed, listItems_eq]
  constructor
  · intro found
    obtain ⟨items, listed, found⟩ := bind_eq_ok.mp found
    by_cases count : items.length = itemCount txType
    · have many := count ▸ itemCount_ge txType
      rw [if_neg (not_not_intro count)] at found
      obtain ⟨⟨gasPrice, priorityFee⟩, fees, found⟩ := bind_eq_ok.mp found
      obtain ⟨destination, readDestination, found⟩ := bind_eq_ok.mp found
      obtain ⟨⟨maxFee, hashes⟩, blobs, found⟩ := bind_eq_ok.mp found
      obtain ⟨authorizations, readAuthorizations, found⟩ := bind_eq_ok.mp found
      dsimp only at found
      rw [sub_eq (show 3 ≤ items.length by omega), sub_eq (show 2 ≤ items.length by omega),
        sub_eq (show 1 ≤ items.length by omega), Bounds.ok_bind] at found
      obtain ⟨yParity, readParity, found⟩ := bind_eq_ok.mp found
      by_cases high : 1 < yParity.toNat
      · rw [if_pos high] at found
        cases found
      rw [if_neg high] at found
      obtain ⟨capacity, -, found⟩ := bind_eq_ok.mp found
      rw [Bounds.ok_bind, before_eq (Nat.sub_le _ _), Bounds.ok_bind] at found
      obtain ⟨chainId, readChainId, found⟩ := bind_eq_ok.mp found
      obtain ⟨nonce, readNonce, found⟩ := bind_eq_ok.mp found
      obtain ⟨gasLimit, readGasLimit, found⟩ := bind_eq_ok.mp found
      obtain ⟨value, readValue, found⟩ := bind_eq_ok.mp found
      obtain ⟨data, readData, found⟩ := bind_eq_ok.mp found
      obtain ⟨item, there, found⟩ := bind_eq_ok.mp found
      obtain ⟨accessList, readAccessList, found⟩ := bind_eq_ok.mp found
      rw [Bounds.ok_bind] at found
      obtain ⟨r, readR, found⟩ := bind_eq_ok.mp found
      rw [Bounds.ok_bind] at found
      obtain ⟨s, readS, found⟩ := bind_eq_ok.mp found
      cases found
      have parity : items[items.length - 3]?.bind parityCodec.read =
          some (decide (yParity.toNat = 1)) :=
        parity_read.mpr ⟨yParity, field_eq_ok.mp readParity, if_pos (Nat.not_lt.mp high)⟩
      have entries := accessList_eq_ok.mp (bind_eq_ok.mpr ⟨item, there, readAccessList⟩)
      exact ⟨items, chainId, Bounds.expected_eq_ok.mp listed, count,
        ⟨rfl, rfl, field_eq_ok.mp readChainId, field_eq_ok.mp readNonce, fees,
          field_eq_ok.mp readGasLimit, readDestination, field_eq_ok.mp readValue,
          field_eq_ok.mp readData, entries, blobs, readAuthorizations, parity, field_eq_ok.mp readR,
          field_eq_ok.mp readS⟩, rfl⟩
    · rw [if_pos count] at found
      cases found
  · rintro ⟨items, chainId, listed, count, reads, signed⟩
    have many := count ▸ itemCount_ge txType
    obtain ⟨yParity, readParity, fits⟩ := parity_read.mp reads.yOdd
    obtain ⟨low, same⟩ := Option.ite_none_right_eq_some.mp fits
    obtain ⟨item, there, entries⟩ := bind_eq_ok.mp (accessList_eq_ok.mpr reads.accessList)
    refine bind_eq_ok.mpr ⟨items, Bounds.expected_eq_ok.mpr listed, ?_⟩
    rw [if_neg (not_not_intro count)]
    refine bind_eq_ok.mpr ⟨_, reads.fees, ?_⟩
    refine bind_eq_ok.mpr ⟨_, reads.destination, ?_⟩
    refine bind_eq_ok.mpr ⟨_, reads.blobs, ?_⟩
    refine bind_eq_ok.mpr ⟨_, reads.authorizations, ?_⟩
    dsimp only
    rw [sub_eq (show 3 ≤ items.length by omega), sub_eq (show 2 ≤ items.length by omega),
      sub_eq (show 1 ≤ items.length by omega), Bounds.ok_bind]
    refine bind_eq_ok.mpr ⟨yParity, field_eq_ok.mpr readParity, ?_⟩
    rw [if_neg (Nat.not_lt.mpr low)]
    refine bind_eq_ok.mpr ⟨_, Bounds.add_eq (capacity_typed short), ?_⟩
    rw [Bounds.ok_bind, before_eq (Nat.sub_le _ _), Bounds.ok_bind]
    refine bind_eq_ok.mpr ⟨_, field_eq_ok.mpr reads.chainId, ?_⟩
    refine bind_eq_ok.mpr ⟨_, field_eq_ok.mpr reads.nonce, ?_⟩
    refine bind_eq_ok.mpr ⟨_, field_eq_ok.mpr reads.gasLimit, ?_⟩
    refine bind_eq_ok.mpr ⟨_, field_eq_ok.mpr reads.value, ?_⟩
    refine bind_eq_ok.mpr ⟨_, field_eq_ok.mpr reads.data, ?_⟩
    refine bind_eq_ok.mpr ⟨item, there, bind_eq_ok.mpr ⟨_, entries, ?_⟩⟩
    rw [Bounds.ok_bind]
    refine bind_eq_ok.mpr ⟨_, field_eq_ok.mpr reads.r, ?_⟩
    rw [Bounds.ok_bind]
    refine bind_eq_ok.mpr ⟨_, field_eq_ok.mpr reads.s, ?_⟩
    rw [Option.some.inj same, ← signed, ← reads.chain]
    obtain rfl := reads.type
    rfl

theorem index_ne_panic {place : ℕ} (inside : place < items.length) :
    index items place ≠ .error .panic := by
  rw [index, List.getElem?_eq_getElem inside]
  exact ok_ne_panic

theorem feesOf_ne_panic (txType : UInt8) (many : 11 ≤ items.length) :
    feesOf txType items ≠ .error .panic := by
  unfold feesOf
  by_cases one : txType = 1
  · rw [if_pos one]
    exact bind_ne_panic (field_ne_panic (by omega)) fun _ _ => ok_ne_panic
  · rw [if_neg one]
    refine bind_ne_panic (field_ne_panic (by omega)) fun _ _ => ?_
    exact bind_ne_panic (field_ne_panic (by omega)) fun _ _ => ok_ne_panic

theorem destinationOf_ne_panic (txType : UInt8) {place : ℕ} (inside : place < items.length) :
    destinationOf txType items place ≠ .error .panic := by
  unfold destinationOf
  by_cases always : txType = 3 ∨ txType = 4
  · rw [if_pos always]
    exact bind_ne_panic (field_ne_panic inside) fun _ _ => ok_ne_panic
  · rw [if_neg always]
    exact field_ne_panic inside

theorem blobsOf_ne_panic (txType : UInt8) {fee hashes : ℕ} (feeInside : fee < items.length)
    (hashesInside : hashes < items.length) : blobsOf txType items fee hashes ≠ .error .panic := by
  unfold blobsOf
  by_cases blob : txType = 3
  · rw [if_pos blob]
    refine bind_ne_panic (index_ne_panic hashesInside) fun item _ => ?_
    rw [keys_bind]
    refine bind_ne_panic (Bounds.expected_ne_panic _) fun keys _ => ?_
    exact bind_ne_panic (field_ne_panic feeInside) fun _ _ => ok_ne_panic
  · rw [if_neg blob]
    exact ok_ne_panic

theorem authorizationsOf_ne_panic (txType : UInt8) {place : ℕ} (inside : place < items.length) :
    authorizationsOf txType items place ≠ .error .panic := by
  unfold authorizationsOf
  by_cases setCode : txType = 4
  · rw [if_pos setCode]
    refine bind_ne_panic (index_ne_panic inside) fun item _ => ?_
    rw [authorizations_eq]
    exact Bounds.expected_ne_panic _
  · rw [if_neg setCode]
    exact ok_ne_panic

theorem typed_ne_panic (txType : UInt8) (short : body.length ≤ isizeMax) :
    typed keccak txType body ≠ .error .panic := by
  rw [typed, listItems_eq]
  refine bind_ne_panic (Bounds.expected_ne_panic _) fun items _ => ?_
  by_cases count : items.length = itemCount txType
  · have many := count ▸ itemCount_ge txType
    have places : (if txType = 1 then 1 else 2) ≤ 2 := by
      by_cases one : txType = 1
      · rw [if_pos one]
        decide
      · rw [if_neg one]
    rw [if_neg (not_not_intro count)]
    refine bind_ne_panic (feesOf_ne_panic txType many) fun ⟨gasPrice, priorityFee⟩ _ => ?_
    refine bind_ne_panic (destinationOf_ne_panic txType (by omega)) fun destination _ => ?_
    refine bind_ne_panic (blobsOf_ne_panic txType (by omega) (by omega)) fun ⟨fee, hashes⟩ _ => ?_
    refine bind_ne_panic (authorizationsOf_ne_panic txType (by omega)) fun authorizations _ => ?_
    dsimp only
    rw [sub_eq (show 3 ≤ items.length by omega), sub_eq (show 2 ≤ items.length by omega),
      sub_eq (show 1 ≤ items.length by omega), Bounds.ok_bind]
    refine bind_ne_panic (field_ne_panic (by omega)) fun yParity _ => ?_
    by_cases high : 1 < yParity.toNat
    · rw [if_pos high]
      exact malformed_ne_panic
    rw [if_neg high, Bounds.add_eq (capacity_typed short), Bounds.ok_bind, Bounds.ok_bind,
      before_eq (Nat.sub_le _ _), Bounds.ok_bind]
    refine bind_ne_panic (field_ne_panic (by omega)) fun chainId _ => ?_
    refine bind_ne_panic (field_ne_panic (by omega)) fun nonce _ => ?_
    refine bind_ne_panic (field_ne_panic (by omega)) fun gasLimit _ => ?_
    refine bind_ne_panic (field_ne_panic (by omega)) fun value _ => ?_
    refine bind_ne_panic (field_ne_panic (by omega)) fun data _ => ?_
    refine bind_ne_panic (index_ne_panic (by omega)) fun item _ => ?_
    refine bind_ne_panic (accessListOf_eq item ▸ Bounds.expected_ne_panic _) fun entries _ => ?_
    rw [Bounds.ok_bind]
    refine bind_ne_panic (field_ne_panic (by omega)) fun r _ => ?_
    rw [Bounds.ok_bind]
    exact bind_ne_panic (field_ne_panic (by omega)) fun s _ => ok_ne_panic
  · rw [if_pos count]
    exact malformed_ne_panic

/-! ### Each type's fields -/

theorem feesOf_one {gasPrice : BitVec 128} {priorityFee : Option (BitVec 128)} :
    feesOf 1 items = .ok (gasPrice, priorityFee) ↔
      items[2]?.bind u128Of = some gasPrice ∧ priorityFee = none := by
  rw [feesOf, if_pos rfl]
  constructor
  · intro found
    obtain ⟨fee, read, same⟩ := bind_eq_ok.mp found
    cases same
    exact ⟨field_eq_ok.mp read, rfl⟩
  · rintro ⟨read, rfl⟩
    exact bind_eq_ok.mpr ⟨gasPrice, field_eq_ok.mpr read, rfl⟩

theorem feesOf_two {txType : UInt8} (other : txType ≠ 1) {gasPrice : BitVec 128}
    {priorityFee : Option (BitVec 128)} : feesOf txType items = .ok (gasPrice, priorityFee) ↔
      items[3]?.bind u128Of = some gasPrice ∧
        ∃ fee, items[2]?.bind u128Of = some fee ∧ priorityFee = some fee := by
  rw [feesOf, if_neg other]
  constructor
  · intro found
    obtain ⟨price, read, found⟩ := bind_eq_ok.mp found
    obtain ⟨fee, readFee, same⟩ := bind_eq_ok.mp found
    cases same
    exact ⟨field_eq_ok.mp read, fee, field_eq_ok.mp readFee, rfl⟩
  · rintro ⟨read, fee, readFee, rfl⟩
    refine bind_eq_ok.mpr ⟨gasPrice, field_eq_ok.mpr read, ?_⟩
    exact bind_eq_ok.mpr ⟨fee, field_eq_ok.mpr readFee, rfl⟩

theorem destinationOf_any {txType : UInt8} (any : ¬(txType = 3 ∨ txType = 4)) {place : ℕ}
    {destination : Option Address} : destinationOf txType items place = .ok destination ↔
      items[place]?.bind toOf = some destination := by
  rw [destinationOf, if_neg any]
  exact field_eq_ok

theorem destinationOf_always {txType : UInt8} (always : txType = 3 ∨ txType = 4) {place : ℕ}
    {destination : Option Address} : destinationOf txType items place = .ok destination ↔
      ∃ address, items[place]?.bind (fixed 20) = some address ∧ destination = some address := by
  rw [destinationOf, if_pos always]
  constructor
  · intro found
    obtain ⟨address, read, same⟩ := bind_eq_ok.mp found
    cases same
    exact ⟨address, field_eq_ok.mp read, rfl⟩
  · rintro ⟨address, read, rfl⟩
    exact bind_eq_ok.mpr ⟨address, field_eq_ok.mpr read, rfl⟩

theorem blobsOf_none {txType : UInt8} (other : txType ≠ 3) {fee hashes : ℕ}
    {maxFee : Option (BitVec 128)} {blobHashes : List Word32} :
    blobsOf txType items fee hashes = .ok (maxFee, blobHashes) ↔ maxFee = none ∧
      blobHashes = [] := by
  rw [blobsOf, if_neg other]
  exact ⟨fun same => (by cases same; exact ⟨rfl, rfl⟩), fun ⟨first, second⟩ => first ▸ second ▸ rfl⟩

theorem blobsOf_three {fee hashes : ℕ} {maxFee : Option (BitVec 128)} {blobHashes : List Word32} :
    blobsOf 3 items fee hashes = .ok (maxFee, blobHashes) ↔
      items[hashes]?.bind keysCodec.read = some blobHashes ∧
        ∃ most, items[fee]?.bind u128Of = some most ∧ maxFee = some most := by
  rw [blobsOf, if_pos rfl]
  simp only [keys_bind]
  rw [← bind_assoc]
  change field items hashes keysCodec.read >>= _ = _ ↔ _
  constructor
  · intro found
    obtain ⟨keys, read, found⟩ := bind_eq_ok.mp found
    obtain ⟨most, readMost, same⟩ := bind_eq_ok.mp found
    cases same
    exact ⟨field_eq_ok.mp read, most, field_eq_ok.mp readMost, rfl⟩
  · rintro ⟨read, most, readMost, rfl⟩
    refine bind_eq_ok.mpr ⟨blobHashes, field_eq_ok.mpr read, ?_⟩
    exact bind_eq_ok.mpr ⟨most, field_eq_ok.mpr readMost, rfl⟩

theorem authorizationsOf_none {txType : UInt8} (other : txType ≠ 4) {place : ℕ}
    {authorizations : List Authorization} :
    authorizationsOf txType items place = .ok authorizations ↔ authorizations = [] := by
  rw [authorizationsOf, if_neg other]
  exact ⟨fun same => (Except.ok.inj same).symm, fun same => congrArg Except.ok same.symm⟩

theorem authorizationsOf_four {place : ℕ} {authorizations : List Authorization} :
    authorizationsOf 4 items place = .ok authorizations ↔
      items[place]?.bind authorizationsCodec.read = some authorizations := by
  rw [authorizationsOf, if_pos rfl, ← field_eq_ok]
  exact iff_of_eq (congrArg (· = _) (congrArg _ (funext authorizations_eq)))

end Apogee.Stateless.Tx
