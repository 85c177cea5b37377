import Apogee.Recorder.BlockWitness

/-! # The recorder

A database that answers from the chain, at one block, and keeps every answer that it
gives. What it kept is the witness.
-/

namespace Apogee.Recorder

open Mpt Math Stateless

/-- What the chain answers of an account. -/
structure Proof where
  nonce : UInt64
  balance : Word32
  codeHash : Word32
  storageHash : Word32

/-- The chain at one block, as it is asked. -/
structure Rpc where
  getProof : Address → Except String Proof
  getCode : Address → Except String (List UInt8)
  getStorageAt : Address → Word32 → Except String Word32
  getBlockHash : UInt64 → Except String Word32

/-- One account as the chain answered for it. -/
structure Recorded where
  nonce : UInt64
  balance : Word32
  code : List UInt8
  /-- Slots read, ascending by key. -/
  slots : List (Word32 × Word32)
  present : Bool

inductive RecorderError where
  | rpc (message : String)
  /-- The code that the chain gives does not hash to the account's code hash. -/
  | code (address : Address) (actual expected : Word32)
  | bytecode (address : Address)
  | codeByHash (codeHash : Word32)
  /-- No account where one was loaded just before. -/
  | unloaded

structure WitnessRecorder where
  /-- Accounts asked about, ascending by address. -/
  accounts : List (Address × Recorded)
  /-- Ancestor hashes asked for, ascending by number. -/
  blockHashes : List (UInt64 × Word32)

def recordedRank (entry : Address × Recorded) : ℕ := bytesRank entry.1.1

/-- An absent account's two hashes are both zero words at some servers. -/
def Proof.absent (proof : Proof) : Prop := proof.codeHash = zeroWord ∧ proof.storageHash = zeroWord

instance (proof : Proof) : Decidable proof.absent :=
  inferInstanceAs (Decidable (proof.codeHash = zeroWord ∧ proof.storageHash = zeroWord))

/-- The code hash and the storage root, an absent account's repaired together. -/
def Proof.hashes (proof : Proof) : Word32 × Word32 :=
  if proof.absent then (keccakEmpty, emptyTrieRoot) else (proof.codeHash, proof.storageHash)

/-- One of the four things that the state trie holds is not its empty value. -/
def Proof.present (proof : Proof) : Bool :=
  proof.nonce ≠ 0 || proof.balance ≠ zeroWord || proof.hashes.1 ≠ keccakEmpty ||
    proof.hashes.2 ≠ emptyTrieRoot

namespace WitnessRecorder

section Loading

variable (keccak : List UInt8 → Word32) (rpc : Rpc)

/-- The code of an account, held to its code hash. -/
def code (address : Address) (codeHash : Word32) : Except RecorderError (List UInt8) :=
  if codeHash = keccakEmpty then .ok []
  else
    match rpc.getCode address with
    | .error message => .error (.rpc message)
    | .ok code =>
      if keccak code = codeHash then .ok code else .error (.code address (keccak code) codeHash)

/-- Fetch and remember one account. -/
def load (recorder : WitnessRecorder) (address : Address) : Except RecorderError WitnessRecorder :=
  match find recordedRank (bytesRank address.1) recorder.accounts with
  | some _ => .ok recorder
  | none =>
    match rpc.getProof address with
    | .error message => .error (.rpc message)
    | .ok proof =>
      match code keccak rpc address proof.hashes.1 with
      | .error error => .error error
      | .ok code =>
        let place := position recordedRank (bytesRank address.1) recorder.accounts
        .ok { recorder with
          accounts := recorder.accounts.insertIdx place
            (address, ⟨proof.nonce, proof.balance, code, [], proof.present⟩) }

/-- Fetch and remember one storage slot. -/
def loadSlot (recorder : WitnessRecorder) (address : Address) (key : Word32) :
    Except RecorderError (Word32 × WitnessRecorder) :=
  match load keccak rpc recorder address with
  | .error error => .error error
  | .ok loaded =>
    match find recordedRank (bytesRank address.1) loaded.accounts with
    | none => .error .unloaded
    | some (_, recorded) =>
      match find slotRank (bytesRank key.1) recorded.slots with
      | some slot => .ok (slot.2, loaded)
      | none =>
        match rpc.getStorageAt address key with
        | .error message => .error (.rpc message)
        | .ok value =>
          let place := position slotRank (bytesRank key.1) recorded.slots
          .ok (value, { loaded with
            accounts := loaded.accounts.modify
              (position recordedRank (bytesRank address.1) loaded.accounts) fun entry =>
                (entry.1, { entry.2 with slots := entry.2.slots.insertIdx place (key, value) }) })

/-- Fetch and remember one ancestor's hash. -/
def loadBlockHash (recorder : WitnessRecorder) (number : UInt64) :
    Except RecorderError (Word32 × WitnessRecorder) :=
  match find blockRank number.toNat recorder.blockHashes with
  | some entry => .ok (entry.2, recorder)
  | none =>
    match rpc.getBlockHash number with
    | .error message => .error (.rpc message)
    | .ok hash =>
      let place := position blockRank number.toNat recorder.blockHashes
      .ok (hash, { recorder with blockHashes := recorder.blockHashes.insertIdx place (number, hash) })

end Loading

variable (keccak : List UInt8 → Word32) (revm : Revm) (rpc : Rpc)

/-- What a recorded account answers. -/
def info (address : Address) (recorded : Recorded) :
    Except RecorderError (Option (AccountInfo revm)) :=
  if recorded.present then
    match revm.newRawChecked recorded.code with
    | none => .error (.bytecode address)
    | some code =>
      .ok (some ⟨fromBeBytes recorded.balance, recorded.nonce, keccak recorded.code, code⟩)
  else .ok none

/-- One call: its answer, and what is recorded after it. A call that errs ends the recording. -/
def serve (recorder : WitnessRecorder) :
    (query : Query) → Except RecorderError (query.Answer revm) × WitnessRecorder
  | .basic address =>
    match load keccak rpc recorder address with
    | .error error => (.error error, recorder)
    | .ok loaded =>
      match find recordedRank (bytesRank address.1) loaded.accounts with
      | none => (.error .unloaded, loaded)
      | some (_, recorded) => (info keccak revm address recorded, loaded)
  | .codeByHash codeHash => (.error (.codeByHash codeHash), recorder)
  | .storage address index =>
    match loadSlot keccak rpc recorder address (toBeBytes index) with
    | .error error => (.error error, recorder)
    | .ok (value, after) => (.ok (fromBeBytes value), after)
  | .blockHash number =>
    match loadBlockHash rpc recorder number with
    | .error error => (.error error, recorder)
    | .ok (hash, after) => (.ok hash, after)

/-- The accounts recorded so far. -/
def harvest (recorder : WitnessRecorder) : List AccountWitness :=
  recorder.accounts.map fun entry =>
    ⟨entry.1, entry.2.nonce, entry.2.balance, entry.2.code, entry.2.slots⟩

/-- The witness of a recording, its ancestor hashes in the block's environment. -/
def witness (recorder : WitnessRecorder) (env : BlockEnvWitness) : BlockWitness :=
  ⟨{ env with blockHashes := recorder.blockHashes }, recorder.harvest⟩

end WitnessRecorder

/-- A recording: the accounts loaded up front, and the execution against the chain. -/
def record (keccak : List UInt8 → Word32) (revm : Revm) (rpc : Rpc) (preloaded : List Address)
    {R : Type} (executor : Dialogue Query (Query.Answer revm) R) :
    Except RecorderError (R × List (Sigma (Query.Answer revm)) × WitnessRecorder) :=
  match preloaded.foldlM (WitnessRecorder.load keccak rpc) ⟨[], []⟩ with
  | .error error => .error error
  | .ok loaded =>
    match executor.run (WitnessRecorder.serve keccak revm rpc) loaded with
    | (.error error, _) => .error error
    | (.ok result, calls, recorder) => .ok (result, calls, recorder)

end Apogee.Recorder
