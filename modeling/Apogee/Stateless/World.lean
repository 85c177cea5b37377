import Apogee.Stateless.WitnessDb
import Mathlib.Data.BitVec

/-! # The world state

Accounts under their addresses, slots under their indices, and the root that commits to
them: each account's leaf holds the root of its own storage. A bundle of changes takes a
state to the next, whatever the order of its entries.
-/

namespace Apogee.Stateless

open Mpt Rlp Patricia

/-- An account of the world; its absent slots are zero. -/
structure Account where
  nonce : UInt64
  balance : U256
  code : List UInt8
  slots : U256 →₀ U256

/-- Finitely many accounts. -/
structure World where
  account : Address → Option Account
  finite : {address | account address ≠ none}.Finite

/-- What a state commits to of an account. -/
structure Record where
  nonce : UInt64
  balance : U256
  codeHash : Word32
  slots : U256 →₀ U256

abbrev State := Address → Option Record

/-- The slots at an address. -/
noncomputable def World.slots (world : World) (address : Address) : U256 →₀ U256 :=
  ((world.account address).map Account.slots).getD 0

section Roots

variable (keccak : List UInt8 → Word32)

def World.state (world : World) : State := fun address =>
  (world.account address).map fun account =>
    ⟨account.nonce, account.balance, keccak account.code, account.slots⟩

/-- The leaf of each slot that is not zero. -/
def slotTable (slots : U256 →₀ U256) (index : U256) : Option (List UInt8) :=
  if slots index = 0 then none else some (encodeSlot (toBeBytes (slots index)))

noncomputable def storageContents (slots : U256 →₀ U256) : Contents :=
  keyed (slotPath keccak) (slotTable slots)

noncomputable def storageRoot (slots : U256 →₀ U256) : Word32 :=
  contentsRoot keccak (storageContents keccak slots)

noncomputable def Record.leaf (record : Record) : List UInt8 :=
  encodeAccount record.nonce (toBeBytes record.balance) (storageRoot keccak record.slots)
    record.codeHash

noncomputable def stateContents (state : State) : Contents :=
  keyed (accountPath keccak) fun address => (state address).map (Record.leaf keccak)

/-- The root that commits to a state. -/
noncomputable def stateRoot (state : State) : Word32 := contentsRoot keccak (stateContents keccak state)

end Roots

/-! ## Bundles -/

/-- What became of an account: its info, its changed slots' values and whether its storage
was destroyed first. -/
structure BundleAccount where
  info : Option AccountInfo
  storage : List (U256 × U256)
  storage_nodup : (storage.map Prod.fst).Nodup
  destroyed : Bool

/-- What became of every account touched. -/
structure BundleState where
  state : List (Address × BundleAccount)
  state_nodup : (state.map Prod.fst).Nodup

variable (revm : Revm)

/-- The info of an account that stays. -/
def BundleAccount.kept (account : BundleAccount) : Option AccountInfo :=
  account.info.filter fun info => !revm.isEmpty info

/-- Slots after changes. -/
noncomputable def changedSlots (slots : U256 →₀ U256) (changes : List (U256 × U256)) : U256 →₀ U256 :=
  changes.foldl (fun slots change => slots.update change.1 change.2) slots

/-- An account after a bundle's entry: gone, or its info over the changed slots of what it
had, or of none where that was destroyed. -/
noncomputable def BundleAccount.record (account : BundleAccount) (slots : U256 →₀ U256) :
    Option Record :=
  (account.kept revm).map fun info => ⟨info.nonce, info.balance, info.codeHash,
    changedSlots (if account.destroyed then 0 else slots) account.storage⟩

/-- The world's state after a bundle. -/
noncomputable def World.apply (keccak : List UInt8 → Word32) (world : World) (bundle : BundleState) :
    State :=
  assigned (world.state keccak) (bundle.state.map fun entry =>
    (entry.1, entry.2.record revm (world.slots entry.1)))

/-! ## Hashed strings -/

/-- A node of a map's trie that is not empty, by its bytes. -/
def NodeOf (keccak : List UInt8 → Word32) (contents : Contents) (bytes : List UInt8) : Prop :=
  ∃ trie node, Holds trie contents ∧ Within node trie ∧ node ≠ .empty ∧
    node.encode keccak = some bytes

/-- A node that a state or one of its accounts' storage commits to. -/
def World.NodeOf (keccak : List UInt8 → Word32) (world : World) (bytes : List UInt8) : Prop :=
  Stateless.NodeOf keccak (stateContents keccak (world.state keccak)) bytes ∨
    ∃ address, Stateless.NodeOf keccak (storageContents keccak (world.slots address)) bytes

/-- The strings that are hashed: the two constants, the witness's, the world's, and the
addresses and indices that are asked for. -/
def World.strings (keccak : List UInt8 → Word32) (world : World) (nodes codes : List (List UInt8))
    (addresses : Set Address) (indices : Set U256) : Set (List UInt8) :=
  {bytes | bytes = [0x80] ∨ bytes = [] ∨ bytes ∈ nodes ∨ bytes ∈ codes ∨
    (∃ address account, world.account address = some account ∧ account.code = bytes) ∨
    (∃ address ∈ addresses, address.1 = bytes) ∨ (∃ index ∈ indices, (toBeBytes index).1 = bytes) ∨
    world.NodeOf keccak bytes}

/-- What is taken of the hash and of the witness: no collision among the strings, and
nodes that fit the machine. -/
structure World.Setting (keccak : List UInt8 → Word32) (world : World)
    (nodes codes : List (List UInt8)) (addresses : Set Address) (indices : Set U256) : Prop where
  emptyRoot : keccak [0x80] = emptyTrieRoot
  emptyCode : keccak [] = keccakEmpty
  short : ∀ node ∈ nodes, node.length ≤ usizeMax
  distinct : Set.InjOn keccak (world.strings keccak nodes codes addresses indices)
  here : ∀ address, world.account address ≠ none → address ∈ addresses
  known : ∀ address index, world.slots address index ≠ 0 → index ∈ indices

/-! ## Paths -/

theorem nibbles_inj {first second : Word32} (same : nibbles first = nibbles second) :
    first = second := by
  obtain ⟨rest, whole⟩ := prefix_of_nibblesOf (same ▸ List.prefix_rfl : nibbles first <+: nibbles second)
  have long := congrArg List.length whole
  rw [List.length_append, first.2, second.2] at long
  rw [List.length_eq_zero_iff.mp (Nat.add_eq_left.mp long), List.append_nil] at whole
  exact Subtype.ext whole

theorem length_nibbles (word : Word32) : (nibbles word).length = 64 := by
  have doubled : ∀ bytes : List UInt8, (nibblesOf bytes).length = 2 * bytes.length := by
    intro bytes
    rw [nibblesOf, List.length_flatMap, List.map_congr_left (fun byte _ => rfl)]
    simp [Nat.mul_comm]
  rw [nibbles, doubled, word.2]

section Setting

variable {keccak : List UInt8 → Word32} {world : World} {nodes codes : List (List UInt8)}
  {addresses : Set Address} {indices : Set U256}
  (setting : world.Setting keccak nodes codes addresses indices)
include setting

namespace World.Setting

theorem accountPaths : Set.InjOn (accountPath keccak) addresses := by
  intro first member second member' same
  refine Subtype.ext (setting.distinct ?_ ?_ (nibbles_inj same))
  · exact Or.inr (Or.inr (Or.inr (Or.inr (Or.inr (Or.inl ⟨first, member, rfl⟩)))))
  · exact Or.inr (Or.inr (Or.inr (Or.inr (Or.inr (Or.inl ⟨second, member', rfl⟩)))))

theorem slotPaths : Set.InjOn (slotPath keccak) indices := by
  intro first member second member' same
  refine toBeBytes_inj (setting.distinct ?_ ?_ (nibbles_inj same))
  · exact Or.inr (Or.inr (Or.inr (Or.inr (Or.inr (Or.inr (Or.inl ⟨first, member, rfl⟩))))))
  · exact Or.inr (Or.inr (Or.inr (Or.inr (Or.inr (Or.inr (Or.inl ⟨second, member', rfl⟩))))))

end World.Setting

end Setting

/-! ## Tries of the maps -/

/-- The indices of a map's slots are among the known. -/
theorem slotTable_inside {slots : U256 →₀ U256} {indices : Set U256}
    (known : ∀ index, slots index ≠ 0 → index ∈ indices) (index : U256)
    (held : slotTable slots index ≠ none) : index ∈ indices := by
  refine known index fun zero => held ?_
  rw [slotTable, if_pos zero]

theorem slotTable_finite (slots : U256 →₀ U256) : {index | slotTable slots index ≠ none}.Finite := by
  refine slots.hasFiniteSupport.subset fun index held zero => held ?_
  rw [slotTable, if_pos zero]

/-- A map's contents are under paths of one length, and not empty. -/
theorem keyed_length {K : Type} {path : K → Path} (long : ∀ k, (path k).length = 64)
    {table : K → Option (List UInt8)} (key : Path) (held : keyed path table key ≠ none) :
    key.length = 64 := by
  obtain ⟨k, rfl, -⟩ := exists_of_keyed held
  exact long k

theorem keyed_filled {K : Type} {path : K → Path} {table : K → Option (List UInt8)}
    (filled : ∀ k, table k ≠ some []) (key : Path) : keyed path table key ≠ some [] := by
  intro held
  obtain ⟨k, -, same⟩ := exists_of_keyed (held ▸ Option.some_ne_none [] : keyed path table key ≠ none)
  exact filled k (same ▸ held)

theorem slotTable_filled (slots : U256 →₀ U256) (index : U256) : slotTable slots index ≠ some [] := by
  rw [slotTable]
  by_cases zero : slots index = 0
  · rw [if_pos zero]
    exact nofun
  · rw [if_neg zero]
    exact fun none => encodeSlot_ne_nil _ (Option.some.inj none)

/-- Storage has a trie, whose root is the storage's. -/
theorem exists_storageTrie {keccak : List UInt8 → Word32} {indices : Set U256}
    (apart : Set.InjOn (slotPath keccak) indices) {slots : U256 →₀ U256}
    (known : ∀ index, slots index ≠ 0 → index ∈ indices) :
    ∃ trie, Holds trie (storageContents keccak slots) ∧
      trie.root keccak = some (storageRoot keccak slots) := by
  have tabulated := exists_tabulates apart (slotTable_inside known) (slotTable_finite slots)
  obtain ⟨trie, holds⟩ := tabulated.choose_spec.exists_holds (keyed_filled (slotTable_filled slots))
  exact ⟨trie, holds, holds.contentsRoot keccak tabulated⟩

end Apogee.Stateless
