import Apogee.Mpt.Leaves

/-! # The ancestor chain

The witness's headers, each naming the one before it by its hash. A header answers for
the number of its position, counted back from the block's own.
-/

namespace Apogee.Stateless

open Mpt Rlp Math

abbrev Address := FixedBytes 20

/-- A block header. -/
structure Header where
  parentHash : Word32
  ommersHash : Word32
  coinbase : Address
  stateRoot : Word32
  transactionsRoot : Word32
  receiptsRoot : Word32
  bloom : FixedBytes 256
  difficulty : Word32
  number : UInt64
  gasLimit : UInt64
  gasUsed : UInt64
  timestamp : UInt64
  extraData : List UInt8
  prevRandao : Word32
  nonce : FixedBytes 8
  baseFeePerGas : UInt64
  withdrawalsRoot : Word32
  blobGasUsed : UInt64
  excessBlobGas : UInt64
  parentBeaconBlockRoot : Word32
  requestsHash : Word32
  blockAccessListHash : Option Word32
  slotNumber : Option UInt64

/-- Amsterdam's two fields, which come together: present with 23 items, absent with 21. -/
def amsterdamFields (items : List Item) (amsterdam : Bool) :
    Option (Option Word32 × Option UInt64) :=
  if items.length = 21 then some (none, none)
  else if items.length = 23 ∧ amsterdam = true then do
    let hash ← items[21]?.bind (fixed 32)
    let slot ← items[22]?.bind u64Of
    pure (some hash, some slot)
  else none

/-- A header from its bytes, strictly. -/
def Header.decode (bytes : List UInt8) (amsterdam : Bool) : Option Header := do
  let items ← listItems bytes
  let (blockAccessListHash, slotNumber) ← amsterdamFields items amsterdam
  let parentHash ← items[0]?.bind (fixed 32)
  let ommersHash ← items[1]?.bind (fixed 32)
  let coinbase ← items[2]?.bind (fixed 20)
  let stateRoot ← items[3]?.bind (fixed 32)
  let transactionsRoot ← items[4]?.bind (fixed 32)
  let receiptsRoot ← items[5]?.bind (fixed 32)
  let bloom ← items[6]?.bind (fixed 256)
  let difficulty ← items[7]?.bind wordOf
  let number ← items[8]?.bind u64Of
  let gasLimit ← items[9]?.bind u64Of
  let gasUsed ← items[10]?.bind u64Of
  let timestamp ← items[11]?.bind u64Of
  let extraData ← items[12]?.bind Rlp.bytes
  let prevRandao ← items[13]?.bind (fixed 32)
  let nonce ← items[14]?.bind (fixed 8)
  let baseFeePerGas ← items[15]?.bind u64Of
  let withdrawalsRoot ← items[16]?.bind (fixed 32)
  let blobGasUsed ← items[17]?.bind u64Of
  let excessBlobGas ← items[18]?.bind u64Of
  let parentBeaconBlockRoot ← items[19]?.bind (fixed 32)
  let requestsHash ← items[20]?.bind (fixed 32)
  pure ⟨parentHash, ommersHash, coinbase, stateRoot, transactionsRoot, receiptsRoot, bloom,
    difficulty, number, gasLimit, gasUsed, timestamp, extraData, prevRandao, nonce, baseFeePerGas,
    withdrawalsRoot, blobGasUsed, excessBlobGas, parentBeaconBlockRoot, requestsHash,
    blockAccessListHash, slotNumber⟩

/-- One header onto the chain: it must name the last one's hash. -/
def link (keccak : List UInt8 → Word32) (amsterdam : Bool)
    (chain : List Word32 × Option Header) (bytes : List UInt8) :
    Option (List Word32 × Option Header) := do
  let header ← Header.decode bytes amsterdam
  if chain.1.getLast?.all (header.parentHash = ·) then some (chain.1 ++ [keccak bytes], some header)
  else none

/-- Each hash under its position, counted back from the block's number; none before zero. -/
def positions (number : UInt64) (hashes : List Word32) : List (UInt64 × Word32) :=
  hashes.zipIdx.filterMap fun (hash, i) =>
    if hashes.length - i ≤ number.toNat then
      some (UInt64.ofNat (number.toNat - (hashes.length - i)), hash)
    else none

/-- The parent, its hash, and what every ancestor answers for. -/
def ancestors (keccak : List UInt8 → Word32) (headers : List (List UInt8)) (amsterdam : Bool)
    (number : UInt64) : Option (Header × Word32 × List (UInt64 × Word32)) := do
  let (hashes, parent) ← headers.foldlM (link keccak amsterdam) ([], none)
  let parent ← parent
  let last ← hashes.getLast?
  pure (parent, last, positions number hashes)

variable {keccak : List UInt8 → Word32} {amsterdam : Bool} {number : UInt64}

/-- The chain's hashes are its headers'. -/
theorem foldlM_link {headers : List (List UInt8)} {chain after : List Word32 × Option Header}
    (ran : headers.foldlM (link keccak amsterdam) chain = some after) :
    after.1 = chain.1 ++ headers.map keccak := by
  induction headers generalizing chain with
  | nil =>
    cases ran
    exact (List.append_nil _).symm
  | cons bytes headers ih =>
    rw [List.foldlM_cons] at ran
    obtain ⟨middle, linked, rest⟩ := Option.bind_eq_some_iff.mp ran
    obtain ⟨header, -, step⟩ := Option.bind_eq_some_iff.mp linked
    by_cases named : chain.1.getLast?.all (header.parentHash = ·)
    · rw [if_pos named] at step
      cases step
      rw [ih rest, List.append_assoc, List.map_cons]
      rfl
    · rw [if_neg named] at step
      cases step

theorem toNat_back (number : UInt64) (back : ℕ) :
    (UInt64.ofNat (number.toNat - back)).toNat = number.toNat - back :=
  UInt64.toNat_ofNat_of_lt' (lt_of_le_of_lt (Nat.sub_le _ _) number.toNat_lt)

/-- What a header's place makes of it. -/
theorem mem_positions {hashes : List Word32} {position : UInt64} {hash : Word32}
    (listed : (position, hash) ∈ positions number hashes) :
    position.toNat < number.toNat ∧
      hashes.reverse[number.toNat - position.toNat - 1]? = some hash := by
  obtain ⟨⟨own, i⟩, entry, made⟩ := List.mem_filterMap.mp listed
  obtain ⟨inside, held⟩ := List.mem_zipIdx' entry
  obtain ⟨room, same⟩ := Option.ite_none_right_eq_some.mp made
  cases same
  rw [toNat_back]
  refine ⟨by omega, ?_⟩
  rw [List.getElem?_reverse (by omega), held, List.getElem?_eq_some_iff]
  exact ⟨by omega, by congr 1; omega⟩

/-- Positions ascend. -/
theorem positions_ascending (number : UInt64) (hashes : List Word32) :
    Ascending (fun entry : UInt64 × Word32 => entry.1.toNat) (positions number hashes) := by
  rw [Ascending, positions, List.pairwise_filterMap, List.pairwise_iff_getElem]
  intro i j inside inside' before first made second made'
  rw [List.length_zipIdx] at inside inside'
  rw [List.getElem_zipIdx] at made made'
  obtain ⟨room, same⟩ := Option.ite_none_right_eq_some.mp made
  obtain ⟨room', same'⟩ := Option.ite_none_right_eq_some.mp made'
  cases same
  cases same'
  rw [zero_add] at room room'
  rw [zero_add, zero_add]
  dsimp only
  rw [toNat_back, toNat_back]
  omega

end Apogee.Stateless
