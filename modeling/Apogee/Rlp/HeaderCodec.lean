import Apogee.Rlp.Codec
import Apogee.Rlp.Lengths
import Apogee.Stateless.Ancestors

/-! # Headers, accounts and slots

Each is read from exactly the bytes it is written to.
-/

namespace Apogee.Rlp

variable {item : Item} {α β : Type}

theorem RowCodec.cons_read {field : Codec α} {row : RowCodec β} {place : ℕ} {items : List Item}
    {value : α}
    {rest : β} : (RowCodec.cons field row).read place items = some (value, rest) ↔
      items[place]?.bind field.read = some value ∧ row.read (place + 1) items = some rest := by
  constructor
  · intro found
    obtain ⟨first, here, found⟩ := Option.bind_eq_some_iff.mp found
    obtain ⟨others, later, same⟩ := Option.bind_eq_some_iff.mp found
    cases same
    exact ⟨here, later⟩
  · rintro ⟨here, later⟩
    refine Option.bind_eq_some_iff.mpr ⟨value, here, ?_⟩
    exact Option.bind_eq_some_iff.mpr ⟨rest, later, rfl⟩

end Apogee.Rlp

namespace Apogee.Stateless

open Rlp Mpt

/-- A header's bytes. None when exactly one of Amsterdam's fields is there, which stops the
guest. -/
def Header.encode (header : Header) : Option (List UInt8) :=
  let out := [encodeBytes header.parentHash.1, encodeBytes header.ommersHash.1,
    encodeBytes header.coinbase.1, encodeBytes header.stateRoot.1,
    encodeBytes header.transactionsRoot.1, encodeBytes header.receiptsRoot.1,
    encodeBytes header.bloom.1, encodeUint header.difficulty.1, encodeU64 header.number,
    encodeU64 header.gasLimit, encodeU64 header.gasUsed, encodeU64 header.timestamp,
    encodeBytes header.extraData, encodeBytes header.prevRandao.1, encodeBytes header.nonce.1,
    encodeU64 header.baseFeePerGas, encodeBytes header.withdrawalsRoot.1,
    encodeU64 header.blobGasUsed, encodeU64 header.excessBlobGas,
    encodeBytes header.parentBeaconBlockRoot.1, encodeBytes header.requestsHash.1]
  match header.blockAccessListHash, header.slotNumber with
  | some hash, some slot => some (encodeList (out ++ [encodeBytes hash.1, encodeU64 slot]).flatten)
  | none, none => some (encodeList out.flatten)
  | _, _ => none

/-- A header's 21 fields, and what follows them. -/
abbrev HeaderFields (α : Type) : Type :=
  Word32 × Word32 × Address × Word32 × Word32 × Word32 × FixedBytes 256 × Word32 × UInt64 × UInt64 ×
    UInt64 × UInt64 × List UInt8 × Word32 × FixedBytes 8 × UInt64 × Word32 × UInt64 × UInt64 ×
    Word32 × Word32 × α

def headerRow {α : Type} (rest : RowCodec α) : RowCodec (HeaderFields α) :=
  .cons (.fixed 32) <| .cons (.fixed 32) <| .cons (.fixed 20) <| .cons (.fixed 32) <|
  .cons (.fixed 32) <| .cons (.fixed 32) <| .cons (.fixed 256) <| .cons .word <| .cons .u64 <|
  .cons .u64 <| .cons .u64 <| .cons .u64 <| .cons .string <| .cons (.fixed 32) <|
    .cons (.fixed 8) <|
  .cons .u64 <| .cons (.fixed 32) <| .cons .u64 <| .cons .u64 <| .cons (.fixed 32) <|
  .cons (.fixed 32) rest

/-- Amsterdam's two fields. -/
def amsterdamRow : RowCodec (Word32 × UInt64 × Unit) := .cons (.fixed 32) (.cons .u64 .nil)

def Header.fields {α : Type} (header : Header) (rest : α) : HeaderFields α :=
  (header.parentHash, header.ommersHash, header.coinbase, header.stateRoot, header.transactionsRoot,
    header.receiptsRoot, header.bloom, header.difficulty, header.number, header.gasLimit,
    header.gasUsed, header.timestamp, header.extraData, header.prevRandao, header.nonce,
    header.baseFeePerGas, header.withdrawalsRoot, header.blobGasUsed, header.excessBlobGas,
    header.parentBeaconBlockRoot, header.requestsHash, rest)

theorem encode_osaka {header : Header} (hash : header.blockAccessListHash = none)
    (slot : header.slotNumber = none) :
    header.encode = some ((headerRow .nil).encode (header.fields ())) := by
  rw [Header.encode, hash, slot]
  rfl

theorem encode_amsterdam {header : Header} {hash : Word32} {slot : UInt64}
    (hashed : header.blockAccessListHash = some hash) (slotted : header.slotNumber = some slot) :
    header.encode = some ((headerRow amsterdamRow).encode (header.fields (hash, slot, ()))) := by
  rw [Header.encode, hashed, slotted]
  rfl

theorem headerRow_read {α : Type} {rest : RowCodec α} {header : Header} {last : α}
    {items : List Item} :
    (headerRow rest).read 0 items = some (header.fields last) ↔
      items[0]?.bind (fixed 32) = some header.parentHash ∧
      items[1]?.bind (fixed 32) = some header.ommersHash ∧
      items[2]?.bind (fixed 20) = some header.coinbase ∧
      items[3]?.bind (fixed 32) = some header.stateRoot ∧
      items[4]?.bind (fixed 32) = some header.transactionsRoot ∧
      items[5]?.bind (fixed 32) = some header.receiptsRoot ∧
      items[6]?.bind (fixed 256) = some header.bloom ∧
      items[7]?.bind wordOf = some header.difficulty ∧
      items[8]?.bind u64Of = some header.number ∧
      items[9]?.bind u64Of = some header.gasLimit ∧
      items[10]?.bind u64Of = some header.gasUsed ∧
      items[11]?.bind u64Of = some header.timestamp ∧
      items[12]?.bind Rlp.bytes = some header.extraData ∧
      items[13]?.bind (fixed 32) = some header.prevRandao ∧
      items[14]?.bind (fixed 8) = some header.nonce ∧
      items[15]?.bind u64Of = some header.baseFeePerGas ∧
      items[16]?.bind (fixed 32) = some header.withdrawalsRoot ∧
      items[17]?.bind u64Of = some header.blobGasUsed ∧
      items[18]?.bind u64Of = some header.excessBlobGas ∧
      items[19]?.bind (fixed 32) = some header.parentBeaconBlockRoot ∧
      items[20]?.bind (fixed 32) = some header.requestsHash ∧
      rest.read 21 items = some last := by
  unfold headerRow Header.fields
  simp only [RowCodec.cons_read]
  rfl

variable {header : Header} {bytes : List UInt8} {amsterdam : Bool}

/-- A header's reading is its row's, and Amsterdam's fields'. -/
theorem decode_eq_some : Header.decode bytes amsterdam = some header ↔
    ∃ items, listItems bytes = some items ∧
      amsterdamFields items amsterdam = some (header.blockAccessListHash, header.slotNumber) ∧
      (headerRow .nil).read 0 items = some (header.fields ()) := by
  constructor
  · intro found
    obtain ⟨items, listed, found⟩ := Option.bind_eq_some_iff.mp found
    obtain ⟨⟨hash, slot⟩, extra, found⟩ := Option.bind_eq_some_iff.mp found
    obtain ⟨parentHash, readParentHash, found⟩ := Option.bind_eq_some_iff.mp found
    obtain ⟨ommersHash, readOmmersHash, found⟩ := Option.bind_eq_some_iff.mp found
    obtain ⟨coinbase, readCoinbase, found⟩ := Option.bind_eq_some_iff.mp found
    obtain ⟨stateRoot, readStateRoot, found⟩ := Option.bind_eq_some_iff.mp found
    obtain ⟨transactionsRoot, readTransactionsRoot, found⟩ := Option.bind_eq_some_iff.mp found
    obtain ⟨receiptsRoot, readReceiptsRoot, found⟩ := Option.bind_eq_some_iff.mp found
    obtain ⟨bloom, readBloom, found⟩ := Option.bind_eq_some_iff.mp found
    obtain ⟨difficulty, readDifficulty, found⟩ := Option.bind_eq_some_iff.mp found
    obtain ⟨number, readNumber, found⟩ := Option.bind_eq_some_iff.mp found
    obtain ⟨gasLimit, readGasLimit, found⟩ := Option.bind_eq_some_iff.mp found
    obtain ⟨gasUsed, readGasUsed, found⟩ := Option.bind_eq_some_iff.mp found
    obtain ⟨timestamp, readTimestamp, found⟩ := Option.bind_eq_some_iff.mp found
    obtain ⟨extraData, readExtraData, found⟩ := Option.bind_eq_some_iff.mp found
    obtain ⟨prevRandao, readPrevRandao, found⟩ := Option.bind_eq_some_iff.mp found
    obtain ⟨nonce, readNonce, found⟩ := Option.bind_eq_some_iff.mp found
    obtain ⟨baseFeePerGas, readBaseFeePerGas, found⟩ := Option.bind_eq_some_iff.mp found
    obtain ⟨withdrawalsRoot, readWithdrawalsRoot, found⟩ := Option.bind_eq_some_iff.mp found
    obtain ⟨blobGasUsed, readBlobGasUsed, found⟩ := Option.bind_eq_some_iff.mp found
    obtain ⟨excessBlobGas, readExcessBlobGas, found⟩ := Option.bind_eq_some_iff.mp found
    obtain ⟨parentBeaconBlockRoot, readParentBeaconBlockRoot, found⟩ :=
      Option.bind_eq_some_iff.mp found
    obtain ⟨requestsHash, readRequestsHash, found⟩ := Option.bind_eq_some_iff.mp found
    cases found
    refine ⟨items, listed, extra, headerRow_read.mpr ⟨readParentHash, readOmmersHash, readCoinbase,
      readStateRoot,
      readTransactionsRoot, readReceiptsRoot, readBloom, readDifficulty,
      readNumber, readGasLimit, readGasUsed, readTimestamp, readExtraData,
      readPrevRandao, readNonce, readBaseFeePerGas, readWithdrawalsRoot,
      readBlobGasUsed, readExcessBlobGas, readParentBeaconBlockRoot,
      readRequestsHash, rfl⟩⟩
  · rintro ⟨items, listed, extra, read⟩
    obtain ⟨readParentHash, readOmmersHash, readCoinbase, readStateRoot,
      readTransactionsRoot, readReceiptsRoot, readBloom, readDifficulty,
      readNumber, readGasLimit, readGasUsed, readTimestamp, readExtraData,
      readPrevRandao, readNonce, readBaseFeePerGas, readWithdrawalsRoot,
      readBlobGasUsed, readExcessBlobGas, readParentBeaconBlockRoot,
      readRequestsHash, -⟩ := headerRow_read.mp read
    refine Option.bind_eq_some_iff.mpr ⟨_, listed, ?_⟩
    refine Option.bind_eq_some_iff.mpr ⟨_, extra, ?_⟩
    refine Option.bind_eq_some_iff.mpr ⟨_, readParentHash, ?_⟩
    refine Option.bind_eq_some_iff.mpr ⟨_, readOmmersHash, ?_⟩
    refine Option.bind_eq_some_iff.mpr ⟨_, readCoinbase, ?_⟩
    refine Option.bind_eq_some_iff.mpr ⟨_, readStateRoot, ?_⟩
    refine Option.bind_eq_some_iff.mpr ⟨_, readTransactionsRoot, ?_⟩
    refine Option.bind_eq_some_iff.mpr ⟨_, readReceiptsRoot, ?_⟩
    refine Option.bind_eq_some_iff.mpr ⟨_, readBloom, ?_⟩
    refine Option.bind_eq_some_iff.mpr ⟨_, readDifficulty, ?_⟩
    refine Option.bind_eq_some_iff.mpr ⟨_, readNumber, ?_⟩
    refine Option.bind_eq_some_iff.mpr ⟨_, readGasLimit, ?_⟩
    refine Option.bind_eq_some_iff.mpr ⟨_, readGasUsed, ?_⟩
    refine Option.bind_eq_some_iff.mpr ⟨_, readTimestamp, ?_⟩
    refine Option.bind_eq_some_iff.mpr ⟨_, readExtraData, ?_⟩
    refine Option.bind_eq_some_iff.mpr ⟨_, readPrevRandao, ?_⟩
    refine Option.bind_eq_some_iff.mpr ⟨_, readNonce, ?_⟩
    refine Option.bind_eq_some_iff.mpr ⟨_, readBaseFeePerGas, ?_⟩
    refine Option.bind_eq_some_iff.mpr ⟨_, readWithdrawalsRoot, ?_⟩
    refine Option.bind_eq_some_iff.mpr ⟨_, readBlobGasUsed, ?_⟩
    refine Option.bind_eq_some_iff.mpr ⟨_, readExcessBlobGas, ?_⟩
    refine Option.bind_eq_some_iff.mpr ⟨_, readParentBeaconBlockRoot, ?_⟩
    refine Option.bind_eq_some_iff.mpr ⟨_, readRequestsHash, ?_⟩
    rfl

theorem headerRow_read_iff {α : Type} {rest : RowCodec α} {last : α} {items : List Item} :
    (headerRow rest).read 0 items = some (header.fields last) ↔
      (headerRow .nil).read 0 items = some (header.fields ()) ∧ rest.read 21 items = some last := by
  have none : RowCodec.nil.read 21 items = some () := rfl
  rw [headerRow_read, headerRow_read]
  simp only [none, and_true, and_assoc]

/-- A header of `width` fields is read by the row of so many. -/
theorem headerRow_ofItems {α : Type} (rest : RowCodec α) {last : α} {items : List Item}
    (width : items.length = 21 + rest.width) :
    (headerRow rest).ofItems items = some (header.fields last) ↔
      (headerRow .nil).read 0 items = some (header.fields ()) ∧ rest.read 21 items = some last := by
  have whole : items.length = (headerRow rest).width := width.trans (Nat.add_comm _ _)
  rw [RowCodec.ofItems, if_pos whole, headerRow_read_iff]

/-- **A header is read from exactly the bytes it is written to**, with Amsterdam's two fields
only where they may be. -/
theorem Header.decode_iff : Header.decode bytes amsterdam = some header ↔
    header.encode = some bytes ∧ bytes.length ≤ usizeMax ∧
      (header.slotNumber.isSome → amsterdam = true) := by
  rw [decode_eq_some]
  constructor
  · rintro ⟨items, listed, extra, read⟩
    unfold amsterdamFields at extra
    by_cases osaka : items.length = 21
    · rw [if_pos osaka] at extra
      obtain ⟨hash, slot⟩ := Prod.mk.inj (Option.some.inj extra)
      have found := (headerRow_ofItems .nil osaka).mpr ⟨read, rfl⟩
      obtain ⟨whole, counted⟩ := (headerRow .nil).listItems_iff.mp
        (Option.bind_eq_some_iff.mpr ⟨items, listed, found⟩)
      refine ⟨?_, counted, fun some => ?_⟩
      · rw [encode_osaka hash.symm slot.symm, whole]
      · rw [← slot] at some
        cases some
    rw [if_neg osaka] at extra
    obtain ⟨⟨width, allowed⟩, extra⟩ := Option.ite_none_right_eq_some.mp extra
    obtain ⟨hash, readHash, extra⟩ := Option.bind_eq_some_iff.mp extra
    obtain ⟨slot, readSlot, same⟩ := Option.bind_eq_some_iff.mp extra
    obtain ⟨hashed, slotted⟩ := Prod.mk.inj (Option.some.inj same)
    have rest : amsterdamRow.read 21 items = some (hash, slot, ()) :=
      RowCodec.cons_read.mpr ⟨readHash, RowCodec.cons_read.mpr ⟨readSlot, rfl⟩⟩
    have found := (headerRow_ofItems amsterdamRow width).mpr ⟨read, rest⟩
    obtain ⟨whole, counted⟩ := (headerRow amsterdamRow).listItems_iff.mp
      (Option.bind_eq_some_iff.mpr ⟨items, listed, found⟩)
    refine ⟨?_, counted, fun _ => allowed⟩
    rw [encode_amsterdam hashed.symm slotted.symm, whole]
  · rintro ⟨written, counted, allowed⟩
    cases hash : header.blockAccessListHash with
    | none =>
      cases slot : header.slotNumber with
      | none =>
        rw [encode_osaka hash slot] at written
        obtain ⟨items, listed, found⟩ := Option.bind_eq_some_iff.mp
          ((headerRow .nil).listItems_iff.mpr ⟨(Option.some.inj written).symm, counted⟩)
        obtain ⟨width, -⟩ := Option.ite_none_right_eq_some.mp found
        refine ⟨items, listed, if_pos width, ?_⟩
        exact ((headerRow_ofItems .nil width).mp found).1
      | some slot =>
        rw [Header.encode, hash, slot] at written
        cases written
    | some hash' =>
      cases slot : header.slotNumber with
      | none =>
        rw [Header.encode, hash, slot] at written
        cases written
      | some slot' =>
        rw [encode_amsterdam hash slot] at written
        obtain ⟨items, listed, found⟩ := Option.bind_eq_some_iff.mp
          ((headerRow amsterdamRow).listItems_iff.mpr ⟨(Option.some.inj written).symm, counted⟩)
        obtain ⟨width, -⟩ := Option.ite_none_right_eq_some.mp found
        obtain ⟨read, rest⟩ := (headerRow_ofItems amsterdamRow width).mp found
        obtain ⟨readHash, rest⟩ := RowCodec.cons_read.mp rest
        obtain ⟨readSlot, -⟩ := RowCodec.cons_read.mp rest
        refine ⟨items, listed, ?_, read⟩
        have longer : ¬ items.length = 21 := fun shorter =>
          absurd (width.symm.trans shorter) (by decide)
        rw [amsterdamFields, if_neg longer, if_pos ⟨width, allowed (slot ▸ rfl)⟩]
        refine Option.bind_eq_some_iff.mpr ⟨hash', readHash, ?_⟩
        exact Option.bind_eq_some_iff.mpr ⟨slot', readSlot, rfl⟩

/-- A header cannot be written exactly when it has one of Amsterdam's fields alone. -/
theorem Header.encode_eq_none : header.encode = none ↔
    header.blockAccessListHash.isSome ≠ header.slotNumber.isSome := by
  unfold Header.encode
  cases header.blockAccessListHash with
  | none =>
    cases header.slotNumber with
    | none => exact ⟨fun same => (by cases same), fun apart => absurd rfl apart⟩
    | some slot => exact ⟨fun _ same => (by cases same), fun _ => rfl⟩
  | some hash =>
    cases header.slotNumber with
    | none => exact ⟨fun _ same => (by cases same), fun _ => rfl⟩
    | some slot => exact ⟨fun same => (by cases same), fun apart => absurd rfl apart⟩

/-! ## Accounts and slots -/

/-- An account's fields. -/
def accountRow : RowCodec (UInt64 × Word32 × Word32 × Word32 × Unit) :=
  .cons .u64 (.cons .word (.cons (.fixed 32) (.cons (.fixed 32) .nil)))

/-- What an account is read from is what it is written to. -/
theorem encodeAccount_of_decodeAccount {account : UInt64 × Word32 × Word32 × Word32}
    (read : decodeAccount bytes = .ok account) :
    bytes = encodeAccount account.1 account.2.1 account.2.2.1 account.2.2.2 := by
  obtain ⟨nonce, balance, storageRoot, codeHash⟩ := account
  unfold decodeAccount at read
  split at read
  · rename_i items first second third fourth listed
    split at read
    · rename_i readNonce readBalance readRoot readHash
      cases read
      have row : accountRow.ofItems [first, second, third, fourth] =
          some (nonce, balance, storageRoot, codeHash, ()) := by
        refine (if_pos rfl).trans (RowCodec.cons_read.mpr ⟨readNonce,
          RowCodec.cons_read.mpr ⟨readBalance, ?_⟩⟩)
        exact RowCodec.cons_read.mpr ⟨readRoot, RowCodec.cons_read.mpr ⟨readHash, rfl⟩⟩
      have whole := (accountRow.listItems_iff.mp (Option.bind_eq_some_iff.mpr ⟨_, listed, row⟩)).1
      have fields : accountRow.encode (nonce, balance, storageRoot, codeHash, ()) =
          encodeList (encodeU64 nonce ++ (encodeUint balance.1 ++
            (encodeBytes storageRoot.1 ++ (encodeBytes codeHash.1 ++ [])))) := rfl
      rw [whole, encodeAccount, List.append_assoc, List.append_assoc, fields, List.append_nil,
        encodeU64]
    · cases read
  · cases read

/-- What a slot is read from is what it is written to. -/
theorem encodeSlot_of_decodeSlot {value : Word32} (read : decodeSlot bytes = .ok value) :
    bytes = encodeSlot value := by
  unfold decodeSlot at read
  split at read
  · rename_i item found
    split at read
    · rename_i word readWord
      cases read
      obtain ⟨whole, written⟩ := split_eq_some found
      rw [List.append_nil] at whole
      rw [whole]
      exact Codec.word.sound item value written readWord
    · cases read
  · cases read

end Apogee.Stateless

/-! ## The codecs are inverse

One form of every value: the strict reader takes the canonical bytes and no others, and
headers, accounts and slots are read from exactly what they are written to. The lengths
computed without the bytes are the bytes'.
-/

namespace Apogee.Stateless

open Rlp Mpt
open Bounds (decode)

/-- **The codecs are strict and inverse.** On a `usize` of four or eight bytes no byte string
stops the reader, exactly the canonical encodings are read, and what is read is written back;
the same holds of headers, accounts and slots, and a header's and a block's computed lengths
are those of the bytes. -/
theorem codecs_inverse :
    (∀ usize, usize = 4 ∨ usize = 8 → ∀ bytes : List UInt8,
      decode usize bytes ≠ .error .panic ∧
      (∀ value : Value, decode usize bytes = .ok value ↔
        bytes = value.encode ∧ bytes.length ≤ maxOf usize) ∧
      ((∃ value, decode usize bytes = .ok value) ↔
        (∃ value, bytes = Canonical.encode value) ∧ bytes.length ≤ maxOf usize)) ∧
    (∀ (bytes : List UInt8) (amsterdam : Bool) (header : Header),
      Header.decode bytes amsterdam = some header → header.encode = some bytes) ∧
    (∀ header : Header, header.blockAccessListHash.isSome = header.slotNumber.isSome →
      ∃ bytes, header.encode = some bytes ∧
        (bytes.length ≤ usizeMax → Header.decode bytes true = some header)) ∧
    (∀ (bytes : List UInt8) (nonce : UInt64) (balance storageRoot codeHash : Word32),
      decodeAccount bytes = .ok (nonce, balance, storageRoot, codeHash) ↔
        bytes = encodeAccount nonce balance storageRoot codeHash) ∧
    (∀ (bytes : List UInt8) (value : Word32), decodeSlot bytes = .ok value ↔
      bytes = encodeSlot value) ∧
    (∀ usize, usize = 4 ∨ usize = 8 → ∀ (n : ℕ) (short : UInt8), n ≤ maxOf usize →
      (encodeHeader n short).length = headerLen usize n) ∧
    (∀ usize, usize = 4 ∨ usize = 8 →
      ∀ (header : Value) (transactions : List Envelope) (withdrawals : List Value),
        blockRlpLen usize header.encode (transactions.map Envelope.bytes)
            (withdrawals.map Value.encode) =
          counted usize (blockValue header transactions withdrawals).encode.length) := by
  have widths : ∀ usize, usize = 4 ∨ usize = 8 → 1 ≤ usize ∧ usize ≤ 8 := by omega
  refine ⟨fun usize width bytes => ?_, fun bytes amsterdam header read => ?_, fun header both => ?_,
    fun bytes nonce balance storageRoot codeHash => ⟨encodeAccount_of_decodeAccount, ?_⟩,
    fun bytes value => ⟨encodeSlot_of_decodeSlot, ?_⟩, fun usize width n short small => ?_,
    fun usize width header transactions withdrawals => ?_⟩
  · obtain ⟨byte, wide⟩ := widths usize width
    exact ⟨Bounds.decode_ne_panic byte, fun value => Bounds.decode_iff byte wide,
      decode_canonical byte wide⟩
  · exact (Header.decode_iff.mp read).1
  · cases written : header.encode with
    | none => exact absurd both (Header.encode_eq_none.mp written)
    | some bytes => exact ⟨bytes, rfl, fun counted => Header.decode_iff.mpr ⟨written, counted,
      fun _ => rfl⟩⟩
  · rintro rfl
    exact decodeAccount_encodeAccount nonce balance storageRoot codeHash
  · rintro rfl
    exact decodeSlot_encodeSlot value
  · exact length_encodeHeader (widths usize width).2 small short
  · rw [blockRlpLen_eq (widths usize width).2, blockRlp_value]

/-- The empty list on either `usize`, a payload that takes the long header, and a block with
nothing in it. -/
theorem codecs_inverse_empty :
    decode 4 [0xc0] = .ok (.list []) ∧ decode 8 [0xc0] = .ok (.list []) ∧
      (encodeHeader 56 0x80).length = headerLen 4 56 ∧
      blockRlpLen 8 [0xc0] [] [] = counted 8 5 :=
  ⟨((codecs_inverse.1 4 (Or.inl rfl) [0xc0]).2.1 (.list [])).mpr ⟨rfl, by decide⟩,
    ((codecs_inverse.1 8 (Or.inr rfl) [0xc0]).2.1 (.list [])).mpr ⟨rfl, by decide⟩,
    codecs_inverse.2.2.2.2.2.1 4 (Or.inl rfl) 56 0x80 (by decide),
    codecs_inverse.2.2.2.2.2.2 8 (Or.inr rfl) (.list []) [] []⟩

end Apogee.Stateless
