import Apogee.Rlp.Values
import Mathlib.Data.Nat.Digits.Lemmas

/-! # Canonical encodings

The encoding as the format defines it: a length's digits are minimal, a payload below
56 bytes has the short header, and a lone byte below 128 is its own encoding. What the
codec writes is that.
-/

namespace Apogee.Rlp

open Math

namespace Canonical

/-- A number's minimal digits, the highest first. -/
def bigEndian (n : ℕ) : List UInt8 := ((Nat.digits 256 n).map UInt8.ofNat).reverse

/-- The header of a payload of `len` bytes, from the offset of its kind. -/
def header (offset len : ℕ) : List UInt8 :=
  if len < 56 then [UInt8.ofNat (offset + len)]
  else UInt8.ofNat (offset + 55 + (bigEndian len).length) :: bigEndian len

def string (payload : List UInt8) : List UInt8 :=
  if payload.length = 1 ∧ payload.all (·.toNat < 128) then payload
  else header 128 payload.length ++ payload

def list (payload : List UInt8) : List UInt8 := header 192 payload.length ++ payload

mutual

/-- A value's one canonical encoding. -/
def encode : Value → List UInt8
  | .string payload => string payload
  | .list values => list (encodeAll values)

def encodeAll : List Value → List UInt8
  | [] => []
  | value :: values => encode value ++ encodeAll values

end

end Canonical

/-- A number's bytes are its digits, zeros above them. -/
theorem leBytes_digits {n x : ℕ} (fits : x < 256 ^ n) :
    ∃ zeros, leBytes n x = (Nat.digits 256 x).map UInt8.ofNat ++ List.replicate zeros 0 := by
  induction n generalizing x with
  | zero =>
    rw [Nat.lt_one_iff.mp fits]
    exact ⟨0, rfl⟩
  | succ n ih =>
    rcases Nat.eq_zero_or_pos x with rfl | positive
    · exact ⟨n + 1, leBytes_zero (n + 1)⟩
    · have high : x / 256 < 256 ^ n := by
        rw [pow_succ] at fits
        exact Nat.div_lt_of_lt_mul (by rwa [mul_comm] at fits)
      obtain ⟨zeros, rest⟩ := ih high
      refine ⟨zeros, ?_⟩
      rw [leBytes, rest, Nat.digits_def' (by decide) positive, List.map_cons, List.cons_append,
        UInt8.ofNat_mod_size]

/-- The minimal digits are the number's bytes without the leading zeros. -/
theorem bigEndian_eq {n x : ℕ} (fits : x < 256 ^ n) :
    (beBytes n x).dropWhile (· == 0) = Canonical.bigEndian x := by
  obtain ⟨zeros, bytes⟩ := leBytes_digits fits
  rw [beBytes, bytes, List.reverse_append, List.reverse_replicate,
    List.dropWhile_append_of_pos fun byte member => by
      rw [List.eq_of_mem_replicate member, beq_self_eq_true]]
  rw [← Canonical.bigEndian]
  cases digits : Canonical.bigEndian x with
  | nil => rfl
  | cons first rest =>
    refine List.dropWhile_cons_of_neg ?_
    rw [beq_iff_eq]
    intro zero
    have positive : x ≠ 0 := by
      rintro rfl
      cases digits
    have last := congrArg List.head? digits
    rw [Canonical.bigEndian, List.head?_reverse, List.getLast?_map,
      List.getLast?_eq_some_getLast (Nat.digits_ne_nil_iff_ne_zero.mpr positive), List.head?_cons,
      Option.map_some, Option.some_inj, zero] at last
    have small := Nat.digits_lt_base (show 1 < 256 by decide)
      (List.getLast_mem (Nat.digits_ne_nil_iff_ne_zero.mpr positive))
    have value := congrArg UInt8.toNat last
    rw [UInt8.toNat_ofNat', Nat.mod_eq_of_lt small] at value
    exact Nat.getLast_digit_ne_zero 256 positive value

theorem encodeHeader_eq {len offset : ℕ} {short : UInt8} (kind : short = UInt8.ofNat offset)
    (fits : len < 256 ^ 8) : encodeHeader len short = Canonical.header offset len := by
  unfold encodeHeader Canonical.header
  by_cases small : len ≤ 55
  · rw [if_pos small, if_pos (Nat.lt_succ_of_le small), kind, UInt8.ofNat_add]
  · rw [if_neg small, if_neg fun low => small (Nat.le_of_lt_succ low), bigEndian_eq fits, kind,
      UInt8.ofNat_add, UInt8.ofNat_add]
    rfl

theorem encodeBytes_eq {payload : List UInt8} (fits : payload.length < 256 ^ 8) :
    encodeBytes payload = Canonical.string payload := by
  have ascii : payload.all (· < 0x80) = payload.all (·.toNat < 128) :=
    congrArg payload.all (funext fun byte => decide_eq_decide.mpr UInt8.lt_iff_toNat_lt)
  unfold encodeBytes Canonical.string
  rw [encodeHeader_eq (show (0x80 : UInt8) = UInt8.ofNat 128 from rfl) fits, ascii]

theorem encodeList_eq {payload : List UInt8} (fits : payload.length < 256 ^ 8) :
    encodeList payload = Canonical.list payload := by
  rw [encodeList, Canonical.list,
    encodeHeader_eq (show (0xc0 : UInt8) = UInt8.ofNat 192 from rfl) fits]

theorem length_le_canonical_list (payload : List UInt8) :
    payload.length ≤ (Canonical.list payload).length := by
  rw [Canonical.list, List.length_append]
  exact Nat.le_add_left _ _

theorem length_le_canonical_string (payload : List UInt8) :
    payload.length ≤ (Canonical.string payload).length := by
  unfold Canonical.string
  by_cases single : payload.length = 1 ∧ payload.all (·.toNat < 128)
  · rw [if_pos single]
  · rw [if_neg single, List.length_append]
    exact Nat.le_add_left _ _

mutual

/-- What is written is canonical, when either is of a length that eight bytes hold. -/
theorem Value.encode_eq (value : Value)
    (fits : value.encode.length < 256 ^ 8 ∨ (Canonical.encode value).length < 256 ^ 8) :
    value.encode = Canonical.encode value := by
  cases value with
  | string payload =>
    rw [Value.encode, Canonical.encode] at fits ⊢
    exact encodeBytes_eq (fits.elim (length_le_encodeBytes payload).trans_lt
      (length_le_canonical_string payload).trans_lt)
  | list values =>
    rw [Value.encode, Canonical.encode] at fits ⊢
    have inside := fits.imp (length_le_encodeList _).trans_lt (length_le_canonical_list _).trans_lt
    have same := Value.encodeAll_canonical values inside
    rw [same] at inside ⊢
    exact encodeList_eq (or_self_iff.mp inside)

theorem Value.encodeAll_canonical (values : List Value)
    (fits : (Value.encodeAll values).length < 256 ^ 8 ∨
      (Canonical.encodeAll values).length < 256 ^ 8) :
    Value.encodeAll values = Canonical.encodeAll values := by
  cases values with
  | nil => rfl
  | cons value values =>
    rw [Value.encodeAll, Canonical.encodeAll, List.length_append, List.length_append] at fits
    rw [Value.encodeAll, Canonical.encodeAll, Value.encode_eq value (fits.imp (by omega)
      (by omega)), Value.encodeAll_canonical values (fits.imp (by omega) (by omega))]

end

theorem maxOf_lt (usize : ℕ) (wide : usize ≤ 8) : maxOf usize < 256 ^ 8 :=
  (Nat.lt_of_succ_le (succ_maxOf usize).le).trans_le (Nat.pow_le_pow_right (by decide) wide)

/-- **Exactly the canonical encodings are read.** -/
theorem decode_canonical {usize : ℕ} (byte : 1 ≤ usize) (wide : usize ≤ 8) {bytes : List UInt8} :
    (∃ value, Bounds.decode usize bytes = .ok value) ↔
      (∃ value, bytes = Canonical.encode value) ∧ bytes.length ≤ maxOf usize := by
  have below := maxOf_lt usize wide
  constructor
  · intro ⟨value, read⟩
    obtain ⟨rfl, counted⟩ := (Bounds.decode_iff byte wide).mp read
    exact ⟨⟨value, value.encode_eq (Or.inl (counted.trans_lt below))⟩, counted⟩
  · intro ⟨⟨value, same⟩, counted⟩
    have written := value.encode_eq (Or.inr (same ▸ counted.trans_lt below))
    exact ⟨value, (Bounds.decode_iff byte wide).mpr ⟨same.trans written.symm, counted⟩⟩

end Apogee.Rlp
