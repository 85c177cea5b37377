import Apogee.Mpt.Parse

/-! # Account and slot leaves

A state trie's leaf holds an account's nonce, balance, storage root and code hash; a
storage trie's leaf holds a slot's value, encoded once more by the node. Both decode to
what was encoded.
-/

namespace Apogee.Mpt

open Rlp Math

/-- A 256-bit integer. -/
abbrev U256 := BitVec 256

theorem length_beBytes_word (x : ℕ) : (beBytes 32 x).length = 32 := by
  rw [beBytes, List.length_reverse, leBytes_length]

def toBeBytes (value : U256) : Word32 := ⟨beBytes 32 value.toNat, length_beBytes_word value.toNat⟩

def fromBeBytes (word : Word32) : U256 := BitVec.ofNat 256 (bytesRank word.1)

@[simp]
theorem fromBeBytes_toBeBytes (value : U256) : fromBeBytes (toBeBytes value) = value := by
  have rank : bytesRank (beBytes 32 value.toNat) = value.toNat := by
    rw [bytesRank, beBytes, List.reverse_reverse, leValue_leBytes (value.isLt.trans_eq (by norm_num))]
  rw [fromBeBytes, toBeBytes, rank, BitVec.ofNat_toNat, BitVec.setWidth_eq]

theorem toBeBytes_inj {first second : U256} (same : (toBeBytes first).1 = (toBeBytes second).1) :
    first = second := by
  rw [← fromBeBytes_toBeBytes first, ← fromBeBytes_toBeBytes second, Subtype.ext same]

/-- An account as the state trie holds it. -/
def encodeAccount (nonce : UInt64) (balance storageRoot codeHash : Word32) : List UInt8 :=
  encodeList (encodeUint (beBytes 8 nonce.toNat) ++ encodeUint balance.1 ++
    encodeBytes storageRoot.1 ++ encodeBytes codeHash.1)

/-- A slot's value in the storage trie. A zero is never written. -/
def encodeSlot (value : Word32) : List UInt8 := encodeUint value.1

/-- The four fields of an account's leaf. -/
def decodeAccount (bytes : List UInt8) : Except MptError (UInt64 × Word32 × Word32 × Word32) :=
  match listItems bytes with
  | some [nonce, balance, storageRoot, codeHash] =>
    match u64Of nonce, wordOf balance, fixed 32 storageRoot, fixed 32 codeHash with
    | some nonce, some balance, some storageRoot, some codeHash =>
      .ok (nonce, balance, storageRoot, codeHash)
    | _, _, _, _ => .error .malformed
  | _ => .error .malformed

/-- The value of a slot's leaf. -/
def decodeSlot (bytes : List UInt8) : Except MptError Word32 :=
  match split bytes with
  | some (item, []) =>
    match wordOf item with
    | some value => .ok value
    | none => .error .malformed
  | _ => .error .malformed

/-! ## Lengths -/

theorem length_encodeHeader_le (len : ℕ) (short : UInt8) : (encodeHeader len short).length ≤ 9 := by
  unfold encodeHeader
  by_cases small : len ≤ 55
  · rw [if_pos small]
    simp
  · rw [if_neg small]
    have digits := (List.dropWhile_suffix (· == 0) (l := beBytes 8 len)).length_le
    rw [beBytes, List.length_reverse, leBytes_length] at digits
    rw [List.length_cons]
    exact Nat.succ_le_succ digits

theorem length_encodeBytes_le (payload : List UInt8) :
    (encodeBytes payload).length ≤ payload.length + 9 := by
  unfold encodeBytes
  by_cases single : payload.length = 1 ∧ payload.all (· < 0x80)
  · rw [if_pos single]
    exact Nat.le_add_right _ _
  · rw [if_neg single, List.length_append, Nat.add_comm]
    exact Nat.add_le_add_left (length_encodeHeader_le _ _) _

theorem length_encodeList_le (payload : List UInt8) :
    (encodeList payload).length ≤ payload.length + 9 := by
  rw [encodeList, List.length_append, Nat.add_comm]
  exact Nat.add_le_add_left (length_encodeHeader_le _ _) _

theorem length_encodeUint_le (be : List UInt8) : (encodeUint be).length ≤ be.length + 9 :=
  (length_encodeBytes_le _).trans (Nat.add_le_add_right (List.dropWhile_suffix _).length_le 9)

/-! ## Integers -/

/-- The item an integer is encoded to. -/
def uintItem (be : List UInt8) : Item := ⟨false, be.dropWhile (· == 0), encodeUint be⟩

theorem splits_uint {be : List UInt8} (short : be.length ≤ 32) :
    Splits (encodeUint be) (uintItem be) :=
  splits_bytes ((length_encodeUint_le be).trans ((Nat.add_le_add_right short 9).trans (by decide)))

/-- The minimal digits of a short integer are what its item holds. -/
theorem uint_uintItem {be : List UInt8} {width : ℕ} (short : be.length ≤ width) :
    uint (uintItem be) width = some (be.dropWhile (· == 0)) := by
  have small : ¬ width < (be.dropWhile (· == 0)).length :=
    Nat.not_lt.mpr ((List.dropWhile_suffix _).length_le.trans short)
  have leading : (be.dropWhile (· == 0)).head? ≠ some 0 := by
    intro zero
    have stopped := List.head?_dropWhile_not (fun byte : UInt8 => byte == 0) be
    rw [zero] at stopped
    exact absurd stopped (by decide)
  rw [uint, bytes, uintItem, if_neg Bool.false_ne_true, Option.bind_eq_bind, Option.bind_some,
    if_neg (not_or.mpr ⟨small, leading⟩)]

/-- Zeros in front of the minimal digits are the digits again. -/
theorem replicate_dropWhile (be : List UInt8) :
    List.replicate (be.length - (be.dropWhile (· == 0)).length) 0 ++ be.dropWhile (· == 0) = be := by
  have parts := List.takeWhile_append_dropWhile (p := (· == 0)) (l := be)
  have zeros : be.takeWhile (· == 0) = List.replicate (be.takeWhile (· == 0)).length 0 := by
    rw [List.eq_replicate_iff]
    refine ⟨rfl, fun byte member => ?_⟩
    exact beq_iff_eq.mp (@List.mem_takeWhile_imp _ (· == 0) _ _ member)
  have long := congrArg List.length parts
  rw [List.length_append] at long
  rw [← long, Nat.add_sub_cancel, ← zeros, parts]

theorem wordOf_uintItem (word : Word32) : wordOf (uintItem word.1) = some word := by
  obtain ⟨be, exact32⟩ := word
  have short : (be.dropWhile (· == 0)).length ≤ 32 :=
    (List.dropWhile_suffix _).length_le.trans exact32.le
  rw [wordOf, uint_uintItem exact32.le, Option.bind_eq_bind, Option.bind_some, dif_pos short]
  congr 2
  rw [← exact32]
  exact replicate_dropWhile be

theorem fixed_bytes (word : Word32) : fixed 32 ⟨false, word.1, encodeBytes word.1⟩ = some word := by
  rw [fixed, bytes, if_neg Bool.false_ne_true, Option.bind_eq_bind, Option.bind_some,
    dif_pos word.2]

theorem bytesRank_cons (byte : UInt8) (be : List UInt8) :
    bytesRank (byte :: be) = byte.toNat * 256 ^ be.length + bytesRank be := by
  rw [bytesRank, List.reverse_cons, leValue_append, List.length_reverse, bytesRank, leValue, leValue]
  ring

theorem bytesRank_dropWhile (be : List UInt8) : bytesRank (be.dropWhile (· == 0)) = bytesRank be := by
  induction be with
  | nil => rfl
  | cons byte be ih =>
    by_cases zero : (byte == 0) = true
    · rw [@List.dropWhile_cons_of_pos _ (· == 0) _ be zero, ih, bytesRank_cons, beq_iff_eq.mp zero]
      exact (Nat.zero_add _).symm.trans (congrArg (· + bytesRank be) (Nat.zero_mul _).symm)
    · rw [@List.dropWhile_cons_of_neg _ (· == 0) _ be zero]

/-- The digits are read from the highest, modulo the width. -/
theorem toNat_fold {w : ℕ} (wide : 8 ≤ w) (be : List UInt8) (acc : BitVec w) :
    (be.foldl (fun (acc : BitVec w) byte => (acc <<< 8) ||| byte.toBitVec.setWidth w) acc).toNat =
      (acc.toNat * 256 ^ be.length + bytesRank be) % 2 ^ w := by
  obtain ⟨high, rfl⟩ := Nat.exists_eq_add_of_le wide
  induction be generalizing acc with
  | nil =>
    rw [List.foldl_nil, List.length_nil, pow_zero, mul_one]
    exact (Nat.mod_eq_of_lt acc.isLt).symm
  | cons byte be ih =>
    have low : byte.toNat < 2 ^ 8 := byte.toNat_lt
    have widened : (byte.toBitVec.setWidth (8 + high)).toNat = byte.toNat := by
      rw [BitVec.toNat_setWidth]
      exact Nat.mod_eq_of_lt (low.trans_le (Nat.pow_le_pow_right two_pos wide))
    have step : ((acc <<< 8) ||| byte.toBitVec.setWidth (8 + high)).toNat =
        (acc.toNat * 256 + byte.toNat) % 2 ^ (8 + high) := by
      have shifted : acc.toNat * 2 ^ 8 % (2 ^ 8 * 2 ^ high) = acc.toNat % 2 ^ high * 2 ^ 8 := by
        rw [Nat.mul_comm, Nat.mul_mod_mul_left, Nat.mul_comm]
      rw [BitVec.toNat_or, BitVec.toNat_shiftLeft, widened, Nat.shiftLeft_eq, pow_add, shifted,
        ← Nat.shiftLeft_eq, ← Nat.shiftLeft_add_eq_or_of_lt low, Nat.shiftLeft_eq, Nat.mod_mul,
        show (acc.toNat * 256 + byte.toNat) / 2 ^ 8 = acc.toNat by omega]
      omega
    have value : acc.toNat * 256 ^ (be.length + 1) + bytesRank (byte :: be) =
        (acc.toNat * 256 + byte.toNat) * 256 ^ be.length + bytesRank be := by
      rw [bytesRank_cons]
      ring
    rw [List.foldl_cons, ih, step, List.length_cons, value]
    exact ((Nat.mod_modEq _ _).mul_right _).add_right _

theorem toNat_fold_u64 (be : List UInt8) :
    (be.foldl (fun (acc : UInt64) byte => (acc <<< 8) ||| byte.toUInt64) 0).toNat =
      bytesRank be % 2 ^ 64 := by
  have same (acc : UInt64) :
      (be.foldl (fun (acc : UInt64) byte => (acc <<< 8) ||| byte.toUInt64) acc).toBitVec =
        be.foldl (fun (acc : BitVec 64) byte => (acc <<< 8) ||| byte.toBitVec.setWidth 64)
          acc.toBitVec := by
    induction be generalizing acc with
    | nil => rfl
    | cons byte be ih => exact ih _
  rw [← UInt64.toNat_toBitVec, same, toNat_fold (by norm_num)]
  norm_num

theorem u64Of_uintItem (value : UInt64) :
    u64Of (uintItem (beBytes 8 value.toNat)) = some value := by
  have long : (beBytes 8 value.toNat).length = 8 := by
    rw [beBytes, List.length_reverse, leBytes_length]
  have rank : bytesRank ((beBytes 8 value.toNat).dropWhile (· == 0)) = value.toNat := by
    rw [bytesRank_dropWhile, bytesRank, beBytes, List.reverse_reverse,
      leValue_leBytes (value.toNat_lt.trans_eq (by norm_num))]
  rw [u64Of, uint_uintItem long.le, Option.bind_eq_bind, Option.bind_some]
  refine congrArg some (UInt64.toNat_inj.mp ?_)
  rw [toNat_fold_u64, rank, Nat.mod_eq_of_lt value.toNat_lt]

/-! ## Leaves -/

/-- An account's leaf decodes to the account. -/
theorem decodeAccount_encodeAccount (nonce : UInt64) (balance storageRoot codeHash : Word32) :
    decodeAccount (encodeAccount nonce balance storageRoot codeHash) =
      .ok (nonce, balance, storageRoot, codeHash) := by
  have long : (beBytes 8 nonce.toNat).length = 8 := by
    rw [beBytes, List.length_reverse, leBytes_length]
  have words : ∀ word : Word32, (encodeBytes word.1).length ≤ 41 := fun word =>
    (length_encodeBytes_le word.1).trans_eq (by rw [word.2])
  have digits : ∀ word : Word32, (encodeUint word.1).length ≤ 41 := fun word =>
    (length_encodeUint_le word.1).trans_eq (by rw [word.2])
  have first := length_encodeUint_le (beBytes 8 nonce.toNat)
  have string : ∀ word : Word32,
      Splits (encodeBytes word.1) ⟨false, word.1, encodeBytes word.1⟩ :=
    fun word => splits_bytes ((words word).trans (by decide))
  have listed := @listItems_encodeList
    [(encodeUint (beBytes 8 nonce.toNat), uintItem (beBytes 8 nonce.toNat)),
      (encodeUint balance.1, uintItem balance.1),
      (encodeBytes storageRoot.1, ⟨false, storageRoot.1, encodeBytes storageRoot.1⟩),
      (encodeBytes codeHash.1, ⟨false, codeHash.1, encodeBytes codeHash.1⟩)]
    (by
      intro part member
      simp only [List.mem_cons, List.not_mem_nil, or_false] at member
      rcases member with rfl | rfl | rfl | rfl
      · exact splits_uint (long.le.trans (by decide))
      · exact splits_uint balance.2.le
      · exact string storageRoot
      · exact string codeHash)
    (by
      have whole := length_encodeList_le (encodeUint (beBytes 8 nonce.toNat) ++
        (encodeUint balance.1 ++ (encodeBytes storageRoot.1 ++ encodeBytes codeHash.1)))
      have balances := digits balance
      have roots := words storageRoot
      have hashes := words codeHash
      simp only [List.map_cons, List.map_nil, List.flatten_cons, List.flatten_nil, List.append_nil,
        List.length_append, usizeMax] at whole ⊢
      omega)
  simp only [List.map_cons, List.map_nil, List.flatten_cons, List.flatten_nil, List.append_nil] at listed
  rw [decodeAccount, encodeAccount, List.append_assoc, List.append_assoc, listed]
  dsimp only
  rw [u64Of_uintItem, wordOf_uintItem, fixed_bytes, fixed_bytes]

/-- A slot's leaf decodes to its value. -/
theorem decodeSlot_encodeSlot (value : Word32) : decodeSlot (encodeSlot value) = .ok value := by
  have whole := (splits_uint value.2.le).2 []
  rw [List.append_nil] at whole
  rw [decodeSlot, encodeSlot, whole]
  dsimp only
  rw [wordOf_uintItem]

theorem encodeAccount_ne_nil (nonce : UInt64) (balance storageRoot codeHash : Word32) :
    encodeAccount nonce balance storageRoot codeHash ≠ [] := encodeList_ne_nil _

theorem encodeSlot_ne_nil (value : Word32) : encodeSlot value ≠ [] := encodeBytes_ne_nil _

end Apogee.Mpt
