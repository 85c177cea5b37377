import Apogee.Stateless.Recovery
import Apogee.Stateless.TransactionCodec

/-! # What is signed

The messages that a key signs: each type of transaction, and an authorization. No two have
one preimage, so a signature names its signer for one message only.
-/

namespace Apogee

namespace Rlp

variable {α β : Type}

/-- A row's bytes are of one value only. -/
theorem RowCodec.encode_inj (row : RowCodec α) {value other : α}
    (counted : (row.encode value).length ≤ usizeMax) (same : row.encode value = row.encode other) :
    value = other := by
  have first := row.listItems_iff.mpr ⟨rfl, counted⟩
  have second := row.listItems_iff.mpr ⟨same, counted⟩
  exact Option.some.inj (first.symm.trans second)

/-- Rows with one encoding have one width. -/
theorem RowCodec.width_eq (row : RowCodec α) (row' : RowCodec β) {value : α} {other : β}
    (counted : (row.encode value).length ≤ usizeMax) (same : row.encode value = row'.encode other) :
    row.width = row'.width := by
  obtain ⟨items, listed, read⟩ := Option.bind_eq_some_iff.mp (row.listItems_iff.mpr ⟨rfl, counted⟩)
  obtain ⟨items', listed', read'⟩ :=
    Option.bind_eq_some_iff.mp (row'.listItems_iff.mpr ⟨same, counted⟩)
  obtain rfl := Option.some.inj (listed.symm.trans listed')
  exact (Option.ite_none_right_eq_some.mp read).1.symm.trans
    (Option.ite_none_right_eq_some.mp read').1

end Rlp

namespace Stateless

open Rlp

/-- A message that a key signs. -/
inductive Message where
  | transaction (fields : Fields)
  | authorization (chainId : Word32) (address : Address) (nonce : UInt64)

/-- The byte before the list, where there is one. -/
def Message.mark : Message → List UInt8
  | .transaction fields => fields.kind
  | .authorization .. => [0x05]

/-- The list that is signed. -/
def Message.list : Message → List UInt8
  | .transaction fields => encodeList (fields.parts ++ fields.chainParts).flatten
  | .authorization chainId address nonce =>
    encodeList [encodeUint chainId.1, encodeBytes address.1, encodeU64 nonce].flatten

/-- The bytes whose hash is signed. -/
def Message.preimage : Message → List UInt8
  | .transaction fields => fields.unsigned
  | .authorization chainId address nonce => authorizationPreimage chainId address nonce

theorem Message.preimage_eq (message : Message) :
    message.preimage = message.mark ++ message.list := by
  cases message with
  | transaction fields => rfl
  | authorization chainId address nonce => rfl

/-! ## Rows -/

def legacyFields : RowCodec (UInt64 × BitVec 128 × UInt64 × Option Address × Word32 × List UInt8 ×
    Unit) :=
  .cons .u64 <| .cons .u128 <| .cons .u64 <| .cons Tx.toCodec <| .cons .word <| .cons .string .nil

/-- The fields, the chain id and two empty strings. -/
def chainFields : RowCodec (UInt64 × BitVec 128 × UInt64 × Option Address × Word32 × List UInt8 ×
    UInt64 × List UInt8 × List UInt8 × Unit) :=
  .cons .u64 <| .cons .u128 <| .cons .u64 <| .cons Tx.toCodec <| .cons .word <| .cons .string <|
  .cons .u64 <| .cons .string <| .cons .string .nil

def accessFields : RowCodec (UInt64 × UInt64 × BitVec 128 × UInt64 × Option Address × Word32 ×
    List UInt8 × List (Address × List Word32) × Unit) :=
  .cons .u64 <| .cons .u64 <| .cons .u128 <| .cons .u64 <| .cons Tx.toCodec <| .cons .word <|
  .cons .string <| .cons Tx.accessListCodec .nil

def feeFields : RowCodec (UInt64 × UInt64 × BitVec 128 × BitVec 128 × UInt64 × Option Address ×
    Word32 × List UInt8 × List (Address × List Word32) × Unit) :=
  .cons .u64 <| .cons .u64 <| .cons .u128 <| .cons .u128 <| .cons .u64 <| .cons Tx.toCodec <|
  .cons .word <| .cons .string <| .cons Tx.accessListCodec .nil

def blobFields : RowCodec (UInt64 × UInt64 × BitVec 128 × BitVec 128 × UInt64 × Address × Word32 ×
    List UInt8 × List (Address × List Word32) × BitVec 128 × List Word32 × Unit) :=
  .cons .u64 <| .cons .u64 <| .cons .u128 <| .cons .u128 <| .cons .u64 <| .cons (.fixed 20) <|
  .cons .word <| .cons .string <| .cons Tx.accessListCodec <| .cons .u128 <| .cons Tx.keysCodec .nil

def setCodeFields : RowCodec (UInt64 × UInt64 × BitVec 128 × BitVec 128 × UInt64 × Address ×
    Word32 × List UInt8 × List (Address × List Word32) × List Authorization × Unit) :=
  .cons .u64 <| .cons .u64 <| .cons .u128 <| .cons .u128 <| .cons .u64 <| .cons (.fixed 20) <|
  .cons .word <| .cons .string <| .cons Tx.accessListCodec <| .cons Tx.authorizationsCodec .nil

def authorityFields : RowCodec (Word32 × Address × UInt64 × Unit) :=
  .cons .word <| .cons (.fixed 20) <| .cons .u64 .nil

/-! ## One message -/

theorem Message.mark_eq (message : Message) :
    message.mark = [] ∨ ∃ byte : UInt8, message.mark = [byte] ∧ ¬0xc0 ≤ byte := by
  cases message with
  | authorization chainId address nonce => exact Or.inr ⟨5, rfl, by decide⟩
  | transaction fields =>
    cases fields with
    | legacy => exact Or.inl rfl
    | accessList => exact Or.inr ⟨1, rfl, by decide⟩
    | dynamicFee => exact Or.inr ⟨2, rfl, by decide⟩
    | blob => exact Or.inr ⟨3, rfl, by decide⟩
    | setCode => exact Or.inr ⟨4, rfl, by decide⟩

theorem Message.list_opened (message : Message) :
    ∃ first rest, message.list = first :: rest ∧ (0xc0 : UInt8) ≤ first := by
  have opened (payload : List UInt8) :
      ∃ first rest, encodeList payload = first :: rest ∧ (0xc0 : UInt8) ≤ first := by
    obtain ⟨first, head, list⟩ := (Option.any_eq_true _ _).mp (head_encodeList payload)
    obtain ⟨rest, whole⟩ := List.head?_eq_some_iff.mp head
    exact ⟨first, rest, whole, of_decide_eq_true list⟩
  cases message with
  | transaction fields => exact opened _
  | authorization chainId address nonce => exact opened _

/-- A list's first byte is no mark. -/
theorem Message.split {message other : Message} (same : message.preimage = other.preimage) :
    message.mark = other.mark ∧ message.list = other.list := by
  obtain ⟨first, rest, listed, opens⟩ := message.list_opened
  obtain ⟨first', rest', listed', opens'⟩ := other.list_opened
  rw [preimage_eq, preimage_eq] at same
  rcases message.mark_eq with none | ⟨byte, marked, low⟩
  · rcases other.mark_eq with none' | ⟨byte', marked', low'⟩
    · rw [none, none'] at same ⊢
      exact ⟨rfl, same⟩
    · rw [none, marked', listed] at same
      exact absurd ((List.cons.inj same).1 ▸ opens) low'
  · rcases other.mark_eq with none' | ⟨byte', marked', low'⟩
    · rw [none', marked, listed'] at same
      exact absurd ((List.cons.inj same).1 ▸ opens') low
    · rw [marked, marked'] at same ⊢
      obtain ⟨rfl, lists⟩ := List.cons.inj same
      exact ⟨rfl, lists⟩

theorem Message.list_length_le (message : Message) :
    message.list.length ≤ message.preimage.length := by
  rw [preimage_eq, List.length_append]
  exact Nat.le_add_left _ _

section

variable (chainId nonce : UInt64) (gasPrice priorityFee maxFee : BitVec 128) (gasLimit : UInt64)
  (destination : Option Address) (address : Address) (value : Word32) (data : List UInt8)
  (entries : List (Address × List Word32))

theorem list_legacy : (Message.transaction
    (.legacy none nonce gasPrice gasLimit destination value data)).list =
      legacyFields.encode (nonce, gasPrice, gasLimit, destination, value, data, ()) := by
  rw [Message.list, RowCodec.encode]
  exact congrArg (fun parts : List (List UInt8) => encodeList parts.flatten) rfl

theorem list_chain : (Message.transaction
    (.legacy (some chainId) nonce gasPrice gasLimit destination value data)).list =
      chainFields.encode (nonce, gasPrice, gasLimit, destination, value, data, chainId, [], [],
        ()) := by
  rw [Message.list, RowCodec.encode]
  exact congrArg (fun parts : List (List UInt8) => encodeList parts.flatten) rfl

theorem list_access : (Message.transaction
    (.accessList chainId nonce gasPrice gasLimit destination value data entries)).list =
      accessFields.encode (chainId, nonce, gasPrice, gasLimit, destination, value, data, entries,
        ()) := by
  rw [Message.list, RowCodec.encode]
  exact congrArg (fun parts : List (List UInt8) => encodeList parts.flatten) rfl

theorem list_fee : (Message.transaction
    (.dynamicFee chainId nonce priorityFee maxFee gasLimit destination value data entries)).list =
      feeFields.encode (chainId, nonce, priorityFee, maxFee, gasLimit, destination, value, data,
        entries, ()) := by
  rw [Message.list, RowCodec.encode]
  exact congrArg (fun parts : List (List UInt8) => encodeList parts.flatten) rfl

theorem list_blob (maxFeePerBlobGas : BitVec 128) (hashes : List Word32) : (Message.transaction
    (.blob chainId nonce priorityFee maxFee gasLimit address value data entries maxFeePerBlobGas
      hashes)).list =
      blobFields.encode (chainId, nonce, priorityFee, maxFee, gasLimit, address, value, data,
        entries, maxFeePerBlobGas, hashes, ()) := by
  rw [Message.list, RowCodec.encode]
  exact congrArg (fun parts : List (List UInt8) => encodeList parts.flatten) rfl

theorem list_setCode (authorizations : List Authorization) : (Message.transaction
    (.setCode chainId nonce priorityFee maxFee gasLimit address value data entries
      authorizations)).list =
      setCodeFields.encode (chainId, nonce, priorityFee, maxFee, gasLimit, address, value, data,
        entries, authorizations, ()) := by
  rw [Message.list, RowCodec.encode]
  exact congrArg (fun parts : List (List UInt8) => encodeList parts.flatten) rfl

theorem list_authorization (chainId : Word32) : (Message.authorization chainId address nonce).list =
      authorityFields.encode (chainId, address, nonce, ()) := by
  rw [Message.list, RowCodec.encode]
  exact congrArg (fun parts : List (List UInt8) => encodeList parts.flatten) rfl

end

/-- Fields of one type with one list are the same. -/
theorem fields_inj {fields other : Fields} (kinds : fields.kind = other.kind)
    (counted : (Message.transaction fields).list.length ≤ usizeMax)
    (lists : (Message.transaction fields).list = (Message.transaction other).list) :
    fields = other := by
  cases fields with
  | legacy chainId nonce gasPrice gasLimit destination value data =>
    cases other with
    | legacy chainId' nonce' gasPrice' gasLimit' destination' value' data' =>
      cases chainId with
      | none =>
        rw [list_legacy] at counted lists
        cases chainId' with
        | none =>
          rw [list_legacy] at lists
          cases legacyFields.encode_inj counted lists
          rfl
        | some chainId' =>
          rw [list_chain] at lists
          exact absurd (legacyFields.width_eq chainFields counted lists) (by decide)
      | some chainId =>
        rw [list_chain] at counted lists
        cases chainId' with
        | none =>
          rw [list_legacy] at lists
          exact absurd (chainFields.width_eq legacyFields counted lists) (by decide)
        | some chainId' =>
          rw [list_chain] at lists
          cases chainFields.encode_inj counted lists
          rfl
    | _ => cases kinds
  | accessList =>
    cases other with
    | accessList =>
      rw [list_access] at counted lists
      rw [list_access] at lists
      cases accessFields.encode_inj counted lists
      rfl
    | _ => cases kinds
  | dynamicFee =>
    cases other with
    | dynamicFee =>
      rw [list_fee] at counted lists
      rw [list_fee] at lists
      cases feeFields.encode_inj counted lists
      rfl
    | _ => cases kinds
  | blob =>
    cases other with
    | blob =>
      rw [list_blob] at counted lists
      rw [list_blob] at lists
      cases blobFields.encode_inj counted lists
      rfl
    | _ => cases kinds
  | setCode =>
    cases other with
    | setCode =>
      rw [list_setCode] at counted lists
      rw [list_setCode] at lists
      cases setCodeFields.encode_inj counted lists
      rfl
    | _ => cases kinds

/-- No two messages have one preimage. -/
theorem Message.preimage_inj {message other : Message}
    (counted : message.preimage.length ≤ usizeMax)
    (same : message.preimage = other.preimage) : message = other := by
  obtain ⟨marks, lists⟩ := Message.split same
  have counted := message.list_length_le.trans counted
  cases message with
  | transaction fields =>
    cases other with
    | transaction fields' => rw [fields_inj marks counted lists]
    | authorization chainId address nonce =>
      cases fields with
      | _ => cases marks
  | authorization chainId address nonce =>
    cases other with
    | transaction fields =>
      cases fields with
      | _ => cases marks
    | authorization chainId' address' nonce' =>
      rw [list_authorization] at counted lists
      rw [list_authorization] at lists
      cases authorityFields.encode_inj counted lists
      rfl

/-! ## One signer -/

open Secp256k1 (Scalar Point generator scalarOf isHigh toEncodedPoint)

variable {r s : Word32} {yOdd : Bool}

/-- A signature that recovers to one key from two digests has one scalar for both. -/
theorem scalar_eq_of_recoverKey {prehash other : Word32} {key : PublicKey}
    (found : recoverKey prehash r s yOdd = some key)
      (again : recoverKey other r s yOdd = some key) :
    scalarOf prehash = scalarOf other := by
  obtain ⟨R, Q, recovers, encoded⟩ := recoverKey_eq_some.mp found
  obtain ⟨R', Q', recovers', encoded'⟩ := recoverKey_eq_some.mp again
  obtain rfl := Secp256k1.toEncodedPoint_inj (encoded.trans encoded'.symm)
  obtain rfl := Option.some.inj ((Secp256k1.decompress_eq_some.mpr recovers.point).symm.trans
    (Secp256k1.decompress_eq_some.mpr recovers'.point))
  have rNonzero := mt (Secp256k1.scalarOf_eq_zero recovers.rBelow).mp recovers.rPositive.ne'
  have keys := recovers.key.symm.trans recovers'.key
  have multiples := sub_right_injective (smul_right_injective _ (inv_ne_zero rNonzero) keys)
  by_contra differ
  refine sub_ne_zero.mpr differ ((smul_eq_zero.mp ?_).resolve_right Secp256k1.generator_ne_zero)
  rw [sub_smul]
  exact sub_eq_zero.mpr multiples

/-- The hash does not collide where two messages under one signature could: in the scalars that
are signed, which are the digests modulo the order, and in the addresses of the keys. -/
structure NoCollision (keccak : List UInt8 → Word32) (message other : Message) (r s : Word32)
    (yOdd : Bool) : Prop where
  digests : scalarOf (keccak message.preimage) = scalarOf (keccak other.preimage) →
    message.preimage = other.preimage
  keys : ∀ key key', recoverKey (keccak message.preimage) r s yOdd = some key →
    recoverKey (keccak other.preimage) r s yOdd = some key' →
    addressOf keccak key = addressOf keccak key' → key = key'

/-- What a signature binds: recovery takes exactly the low signatures of a finite key, the key it
finds is the only one that verifies, every signature that is made recovers to its signer, and one
signature has one signer for one message only. -/
theorem signature_binds (keccak : List UInt8 → Word32) :
    (∀ (prehash r s : Word32) (yOdd : Bool) (key : PublicKey),
      recoverKey prehash r s yOdd = some key ↔
        ∃ R Q, Recovers prehash r s yOdd R Q ∧ toEncodedPoint Q = some key) ∧
    (∀ (prehash r s : Word32) (yOdd : Bool) (R Q : Point), Recovers prehash r s yOdd R Q →
      ∀ other, verified (scalarOf prehash) (scalarOf r) (scalarOf s) other = R ↔ other = Q) ∧
    (∀ (d k : Scalar) (prehash r s : Word32) (parity : Bool), d ≠ 0 →
      sign d k prehash = some (r, s, parity) →
        recoverKey prehash r s parity = toEncodedPoint (d • generator)) ∧
    (∀ message other : Message, message.preimage.length ≤ usizeMax →
      message.preimage = other.preimage → message = other) ∧
    (∀ (fields : Fields) (signature : Signature), (fields.tx keccak signature).sender keccak =
      recover keccak (keccak (Message.transaction fields).preimage) signature.r signature.s
        signature.yOdd) ∧
    (∀ auth : Authorization, auth.authority keccak = if 1 < auth.yParity then none else
      recover keccak (keccak (Message.authorization auth.chainId auth.address auth.nonce).preimage)
        auth.r auth.s (auth.yParity == 1)) ∧
    ∀ (message other : Message) (r s : Word32) (yOdd : Bool) (address : Address),
      message.preimage.length ≤ usizeMax → NoCollision keccak message other r s yOdd →
      recover keccak (keccak message.preimage) r s yOdd = some address →
      recover keccak (keccak other.preimage) r s yOdd = some address → message = other := by
  refine ⟨fun _ _ _ _ _ => recoverKey_eq_some, fun prehash r s yOdd R Q recovers other => ?_,
    fun _ _ _ _ _ _ nonzero signed => recoverKey_sign nonzero signed,
    fun _ _ counted same => Message.preimage_inj counted same, fun fields signature => ?_,
    fun _ => rfl, fun message other r s yOdd address counted collisionless found again => ?_⟩
  · have sBelow := recovers.sLow.trans_lt half_lt_order
    rw [verified_eq_iff (mt (Secp256k1.scalarOf_eq_zero recovers.rBelow).mp recovers.rPositive.ne')
      (mt (Secp256k1.scalarOf_eq_zero sBelow).mp recovers.sPositive.ne'), recovers.key]
  · cases fields with
    | _ => rfl
  · obtain ⟨key, found, named⟩ := Option.map_eq_some_iff.mp found
    obtain ⟨key', again, named'⟩ := Option.map_eq_some_iff.mp again
    obtain rfl := collisionless.keys key key' found again (named.trans named'.symm)
    exact Message.preimage_inj counted (collisionless.digests (scalar_eq_of_recoverKey found again))

/-- The key 1 signs the digest zero with the nonce 1, and is recovered: it is the generator. -/
theorem signature_binds_generator :
    recoverKey ⟨List.replicate 32 0, rfl⟩ (word (Secp256k1.generatorX : ℕ))
      (word (Secp256k1.generatorX : ℕ)) false = toEncodedPoint ((1 : Scalar) • generator) := by
  refine (signature_binds fun _ => ⟨List.replicate 32 0, rfl⟩).2.2.1 1 1 _ _ _ _ one_ne_zero ?_
  have one : (1 : Scalar).val • generator = generator := by
    rw [Secp256k1.val_smul, one_smul]
  have abscissa : (Secp256k1.generatorX : Secp256k1.Field).val = Secp256k1.generatorX :=
    ZMod.val_cast_of_lt (by decide +kernel)
  have ordinate : (Secp256k1.generatorY : Secp256k1.Field).val = Secp256k1.generatorY :=
    ZMod.val_cast_of_lt (by decide +kernel)
  have scalar : ((Secp256k1.generatorX : ℕ) : Scalar).val = Secp256k1.generatorX :=
    ZMod.val_cast_of_lt (by decide +kernel)
  have nonzero : ((Secp256k1.generatorX : ℕ) : Scalar) ≠ 0 := by
    rw [← ZMod.val_ne_zero, scalar]
    decide
  have zero : scalarOf ⟨List.replicate 32 0, rfl⟩ = 0 := by
    have none : Mpt.bytesRank (List.replicate 32 0) = 0 := by decide
    rw [scalarOf, none, Nat.cast_zero]
  rw [sign, one, generator, Math.mordellPoint]
  dsimp only
  rw [abscissa, zero, inv_one, one_mul, zero_add, mul_one, if_pos (by decide +kernel),
    if_neg (not_or.mpr ⟨nonzero, nonzero⟩)]
  have low : isHigh (Secp256k1.generatorX : ℕ) = false := by
    rw [Secp256k1.isHigh_eq_false, scalar]
    decide +kernel
  have even : Math.isOdd (Secp256k1.generatorY : Secp256k1.Field) = false := by
    rw [Math.isOdd, ordinate]
    decide
  rw [low, even, if_neg Bool.false_ne_true]

end Stateless

end Apogee
