import Apogee.Math.Dialogue
import Apogee.Stateless.WitnessDb

/-! # The block witness

The pre-state that a block's execution read, account by account and slot by slot, in one
order. Its database answers from it and refuses every read that it does not carry.
-/

namespace Apogee.Recorder

open Mpt Math Stateless

/-- A word of zeros. -/
def zeroWord : Word32 := ⟨List.replicate 32 0, rfl⟩

/-- One pre-state account. -/
structure AccountWitness where
  address : Address
  nonce : UInt64
  balance : Word32
  code : List UInt8
  /-- The slots that are read, those of value zero among them. -/
  slots : List (Word32 × Word32)

/-- What the order rules and the database read of the block's environment. -/
structure BlockEnvWitness where
  specId : UInt8
  excessBlobGas : Option UInt64
  blobGasprice : Option ℕ
  blockHashes : List (UInt64 × Word32)

structure BlockWitness where
  env : BlockEnvWitness
  accounts : List AccountWitness

inductive WitnessError where
  | accountsNotSorted (place : ℕ)
  | slotsNotSorted (account place : ℕ)
  | unknownSpec (specId : UInt8)
  | blockHashesNotSorted (place : ℕ)
  | blobPairing

def accountRank (account : AccountWitness) : ℕ := bytesRank account.address.1

def slotRank (slot : Word32 × Word32) : ℕ := bytesRank slot.1.1

/-! ## Order -/

/-- The place of the first entry that is not above the one before it. -/
def descent {α : Type} (rank : α → ℕ) : ℕ → List α → Option ℕ
  | place, first :: second :: rest =>
    if rank second ≤ rank first then some (place + 1) else descent rank (place + 1) (second :: rest)
  | _, _ => none

/-- The first account whose slots are out of order, and where. -/
def slotsDescent : ℕ → List AccountWitness → Option (ℕ × ℕ)
  | _, [] => none
  | index, account :: rest =>
    match descent slotRank 0 account.slots with
    | some place => some (index, place)
    | none => slotsDescent (index + 1) rest

/-- A witness is in order; `known` are the hardforks there are. -/
def BlockWitness.canonical (known : UInt8 → Bool) (witness : BlockWitness) : Except WitnessError Unit :=
  if known witness.env.specId = false then .error (.unknownSpec witness.env.specId)
  else if witness.env.excessBlobGas.isSome ≠ witness.env.blobGasprice.isSome then .error .blobPairing
  else
    match descent accountRank 0 witness.accounts with
    | some place => .error (.accountsNotSorted place)
    | none =>
      match slotsDescent 0 witness.accounts with
      | some (account, place) => .error (.slotsNotSorted account place)
      | none =>
        match descent blockRank 0 witness.env.blockHashes with
        | some place => .error (.blockHashesNotSorted place)
        | none => .ok ()

/-! ## The database -/

inductive DbError where
  | unknownAccount (address : Address)
  | unknownSlot (address : Address) (key : Word32)
  | unknownBlockHash (number : UInt64)
  | unknownCode (codeHash : Word32)
  | malformedCode (address : Address)

/-- An account as the machine is told of it, its code with it. -/
structure AccountInfo (revm : Revm) where
  balance : U256
  nonce : UInt64
  codeHash : Word32
  code : revm.Bytecode

/-- A call of a database. -/
inductive Query where
  | basic (address : Address)
  | codeByHash (codeHash : Word32)
  | storage (address : Address) (index : U256)
  | blockHash (number : UInt64)

/-- The account that a call reads. -/
def Query.account : Query → Option Address
  | .basic address => some address
  | .storage address _ => some address
  | _ => none

/-- What each call answers. -/
abbrev Query.Answer (revm : Revm) : Query → Type
  | .basic _ => Option (AccountInfo revm)
  | .codeByHash _ => revm.Bytecode
  | .storage _ _ => U256
  | .blockHash _ => Word32

namespace BlockWitness

def account (witness : BlockWitness) (address : Address) : Except DbError AccountWitness :=
  match find accountRank (bytesRank address.1) witness.accounts with
  | none => .error (.unknownAccount address)
  | some account => .ok account

variable (keccak : List UInt8 → Word32) (revm : Revm)

/-- An account that is recorded with nothing does not exist. -/
def basic (witness : BlockWitness) (address : Address) :
    Except DbError (Option (AccountInfo revm)) := do
  let account ← witness.account address
  if account.nonce = 0 ∧ account.balance = zeroWord ∧ account.code = [] then .ok none
  else
    match revm.newRawChecked account.code with
    | none => .error (.malformedCode account.address)
    | some code => .ok (some ⟨fromBeBytes account.balance, account.nonce,
        if account.code = [] then keccakEmpty else keccak account.code, code⟩)

def storage (witness : BlockWitness) (address : Address) (index : U256) : Except DbError U256 := do
  let account ← witness.account address
  match find slotRank (bytesRank (toBeBytes index).1) account.slots with
  | none => .error (.unknownSlot address (toBeBytes index))
  | some slot => .ok (fromBeBytes slot.2)

def blockHash (witness : BlockWitness) (number : UInt64) : Except DbError Word32 :=
  match find blockRank number.toNat witness.env.blockHashes with
  | none => .error (.unknownBlockHash number)
  | some entry => .ok entry.2

/-- What a witness answers. -/
def answer (witness : BlockWitness) : (query : Query) → Except DbError (query.Answer revm)
  | .basic address => witness.basic keccak revm address
  | .codeByHash codeHash => .error (.unknownCode codeHash)
  | .storage address index => witness.storage address index
  | .blockHash number => witness.blockHash number

/-! ### Witnesses that lack an entry -/

def withoutAccount (witness : BlockWitness) (address : Address) : BlockWitness :=
  { witness with accounts := witness.accounts.filter (·.address ≠ address) }

def withoutSlot (witness : BlockWitness) (address : Address) (key : Word32) : BlockWitness :=
  { witness with accounts := witness.accounts.map fun account =>
      if account.address = address then
        { account with slots := account.slots.filter (·.1 ≠ key) }
      else account }

def withoutBlockHash (witness : BlockWitness) (number : UInt64) : BlockWitness :=
  { witness with env := { witness.env with
      blockHashes := witness.env.blockHashes.filter (·.1 ≠ number) } }

end BlockWitness

/-! ## Order of a witness -/

theorem descent_eq_none {α : Type} {rank : α → ℕ} {xs : List α} (ascending : Ascending rank xs)
    (place : ℕ) : descent rank place xs = none := by
  induction xs generalizing place with
  | nil => rfl
  | cons first xs ih =>
    cases xs with
    | nil => rfl
    | cons second rest =>
      obtain ⟨least, later⟩ := List.pairwise_cons.mp ascending
      have above := least second List.mem_cons_self
      rw [descent, if_neg (Nat.not_le.mpr above)]
      exact ih later _

theorem slotsDescent_eq_none {accounts : List AccountWitness}
    (ascending : ∀ account ∈ accounts, Ascending slotRank account.slots) (index : ℕ) :
    slotsDescent index accounts = none := by
  induction accounts generalizing index with
  | nil => rfl
  | cons account rest ih =>
    obtain ⟨here, later⟩ := List.forall_mem_cons.mp ascending
    rw [slotsDescent, descent_eq_none here]
    exact ih later _

/-- A witness whose entries ascend is in order. -/
theorem canonical_of_ascending {known : UInt8 → Bool} {witness : BlockWitness}
    (spec : known witness.env.specId = true)
    (pairing : witness.env.excessBlobGas.isSome = witness.env.blobGasprice.isSome)
    (accounts : Ascending accountRank witness.accounts)
    (slots : ∀ account ∈ witness.accounts, Ascending slotRank account.slots)
    (hashes : Ascending blockRank witness.env.blockHashes) : witness.canonical known = .ok () := by
  rw [BlockWitness.canonical, if_neg (by rw [spec]; exact Bool.noConfusion),
    if_neg (not_not.mpr pairing), descent_eq_none accounts, slotsDescent_eq_none slots,
    descent_eq_none hashes]

end Apogee.Recorder
