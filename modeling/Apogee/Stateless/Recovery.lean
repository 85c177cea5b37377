import Apogee.Stateless.CurvePoints
import Apogee.Stateless.Transaction

/-! # Recovering a signer

A digest, a signature and a parity give back the key that signed, or nothing. Recovery
does not verify what it found: there is nothing that verification could still refuse.
-/

namespace Apogee.Stateless

open Math Rlp
open Secp256k1 (Scalar Point generator order fromRepr scalarOf isHigh invert decompress lincomb
  toEncodedPoint)

/-- The key that made a signature over a digest. -/
def recoverKey (prehash r s : Word32) (yOdd : Bool) : Option PublicKey := do
  let rScalar ← fromRepr r
  let sScalar ← fromRepr s
  if rScalar = 0 ∨ sScalar = 0 then none
  -- a high `s` is the same signature's second encoding
  else if isHigh sScalar then none
  else
    let bigR ← decompress r yOdd
    let z := scalarOf prehash
    let rInv ← invert rScalar
    let u1 := -(rInv * z)
    let u2 := rInv * sScalar
    toEncodedPoint (lincomb generator u1 bigR u2)

/-- The last twenty bytes of a key's hash. -/
def addressOf (keccak : List UInt8 → Word32) (key : PublicKey) : Address :=
  ⟨(keccak (key.1.drop 1)).1.drop 12, by rw [List.length_drop, (keccak _).2]⟩

def recover (keccak : List UInt8 → Word32) (prehash r s : Word32) (yOdd : Bool) : Option Address :=
  (recoverKey prehash r s yOdd).map (addressOf keccak)

/-- A transaction's sender. -/
def Tx.sender (keccak : List UInt8 → Word32) (tx : Tx) : Option Address :=
  recover keccak tx.signingHash tx.r tx.s tx.yOdd

/-- What an authority signs. -/
def authorizationPreimage (chainId : Word32) (address : Address) (nonce : UInt64) : List UInt8 :=
  0x05 :: encodeList [encodeUint chainId.1, encodeBytes address.1, encodeU64 nonce].flatten

/-- The authority that an authorization names. -/
def Authorization.authority (keccak : List UInt8 → Word32) (auth : Authorization) :
    Option Address :=
  if 1 < auth.yParity then none
  else recover keccak (keccak (authorizationPreimage auth.chainId auth.address auth.nonce)) auth.r
    auth.s (auth.yParity == 1)

/-- What a signature that recovers is. -/
structure Recovers (prehash r s : Word32) (yOdd : Bool) (R Q : Point) : Prop where
  rPositive : 0 < Mpt.bytesRank r.1
  rBelow : Mpt.bytesRank r.1 < order
  sPositive : 0 < Mpt.bytesRank s.1
  sLow : Mpt.bytesRank s.1 ≤ order / 2
  point : ∃ x y there, R = mordellPoint (x := x) (y := y) there ∧ x.val = Mpt.bytesRank r.1 ∧
    isOdd y = yOdd
  key : Q = (scalarOf r)⁻¹ • (scalarOf s • R - scalarOf prehash • generator)
  finite : Q ≠ 0

variable {prehash r s : Word32} {yOdd : Bool} {key : PublicKey}

theorem half_lt_order : order / 2 < order := by
  have := Secp256k1.order_odd
  omega

/-- Recovery's two terms, as one multiple. -/
theorem lincomb_recover (rInv s z : Scalar) (R : Point) :
    lincomb generator (-(rInv * z)) R (rInv * s) = rInv • (s • R - z • generator) := by
  rw [Secp256k1.lincomb_eq, smul_sub, smul_smul, smul_smul, neg_smul, sub_eq_add_neg, add_comm]

theorem recoverKey_eq_some : recoverKey prehash r s yOdd = some key ↔
    ∃ R Q, Recovers prehash r s yOdd R Q ∧ toEncodedPoint Q = some key := by
  rw [recoverKey]
  constructor
  · intro found
    obtain ⟨_, readR, found⟩ := Option.bind_eq_some_iff.mp found
    obtain ⟨_, readS, found⟩ := Option.bind_eq_some_iff.mp found
    obtain ⟨rBelow, rfl⟩ := Secp256k1.fromRepr_eq_some.mp readR
    obtain ⟨sBelow, rfl⟩ := Secp256k1.fromRepr_eq_some.mp readS
    obtain ⟨nonzero, found⟩ := Option.ite_none_left_eq_some.mp found
    obtain ⟨low, found⟩ := Option.ite_none_left_eq_some.mp found
    obtain ⟨R, point, found⟩ := Option.bind_eq_some_iff.mp found
    obtain ⟨rInv, inverse, found⟩ := Option.bind_eq_some_iff.mp found
    obtain ⟨rNonzero, sNonzero⟩ := not_or.mp nonzero
    rw [Secp256k1.invert_eq_some rNonzero] at inverse
    cases inverse
    have sLow := Secp256k1.isHigh_eq_false.mp (Bool.not_eq_true _ ▸ low)
    rw [Secp256k1.val_scalarOf sBelow] at sLow
    dsimp only at found
    rw [lincomb_recover] at found
    refine ⟨R, _, ⟨?_, rBelow, ?_, sLow, Secp256k1.decompress_eq_some.mp point, rfl, ?_⟩, found⟩
    · exact Nat.pos_of_ne_zero (mt (Secp256k1.scalarOf_eq_zero rBelow).mpr rNonzero)
    · exact Nat.pos_of_ne_zero (mt (Secp256k1.scalarOf_eq_zero sBelow).mpr sNonzero)
    · intro infinite
      rw [Secp256k1.toEncodedPoint_eq_none.mpr infinite] at found
      cases found
  · rintro ⟨R, Q, recovers, encoded⟩
    have sBelow := recovers.sLow.trans_lt half_lt_order
    have rNonzero := mt (Secp256k1.scalarOf_eq_zero recovers.rBelow).mp recovers.rPositive.ne'
    have sNonzero := mt (Secp256k1.scalarOf_eq_zero sBelow).mp recovers.sPositive.ne'
    have low : isHigh (scalarOf s) = false :=
      Secp256k1.isHigh_eq_false.mpr (Secp256k1.val_scalarOf sBelow ▸ recovers.sLow)
    refine Option.bind_eq_some_iff.mpr
      ⟨_, Secp256k1.fromRepr_eq_some.mpr ⟨recovers.rBelow, rfl⟩, ?_⟩
    refine Option.bind_eq_some_iff.mpr ⟨_, Secp256k1.fromRepr_eq_some.mpr ⟨sBelow, rfl⟩, ?_⟩
    rw [if_neg (not_or.mpr ⟨rNonzero, sNonzero⟩), low, if_neg Bool.false_ne_true]
    refine Option.bind_eq_some_iff.mpr ⟨R, Secp256k1.decompress_eq_some.mpr recovers.point, ?_⟩
    refine Option.bind_eq_some_iff.mpr ⟨_, Secp256k1.invert_eq_some rNonzero, ?_⟩
    dsimp only
    rw [lincomb_recover, ← recovers.key, encoded]

/-! ## Verification -/

/-- What verification computes from a digest, a signature's numbers and a key. -/
noncomputable def verified (z r s : Scalar) (Q : Point) : Point :=
  (s⁻¹ * z) • generator + (s⁻¹ * r) • Q

/-- The recovered key is the only one whose verification comes back to the point. -/
theorem verified_eq_iff {z r s : Scalar} (rNonzero : r ≠ 0) (sNonzero : s ≠ 0) (R Q : Point) :
    verified z r s Q = R ↔ Q = r⁻¹ • (s • R - z • generator) := by
  have scaled : verified z r s Q = s⁻¹ • (z • generator + r • Q) := by
    rw [verified, smul_add, smul_smul, smul_smul]
  rw [scaled, inv_smul_eq_iff₀ sNonzero, eq_inv_smul_iff₀ rNonzero, eq_sub_iff_add_eq, add_comm]

/-! ## Signing -/

def word (u : Scalar) : Word32 := ⟨beBytes 32 u.val, length_beBytes_eq 32 u.val⟩

/-- A key's signature with a nonce: the point's abscissa, which must be below the order, and the
low one of the two numbers that fit, with the parity that belongs to it. -/
def sign (d k : Scalar) (prehash : Word32) : Option (Word32 × Word32 × Bool) :=
  match k.val • generator with
  | .zero => none
  | .some x y _ =>
    if x.val < order then
      let r : Scalar := (x.val : ℕ)
      let s := k⁻¹ * (scalarOf prehash + r * d)
      if r = 0 ∨ s = 0 then none
      else if isHigh s then some (word r, word (-s), !isOdd y)
      else some (word r, word s, isOdd y)
    else none

theorem rank_word (u : Scalar) : Mpt.bytesRank (word u).1 = u.val := by
  rw [← Mpt.bytesRank_dropWhile]
  exact bytesRank_beBytes
    (u.val_lt.trans (Secp256k1.order_lt_fieldModulus.trans Secp256k1.fieldModulus_lt))

theorem scalarOf_word (u : Scalar) : scalarOf (word u) = u := by
  rw [scalarOf, rank_word, ZMod.natCast_zmod_val]

/-- A point whose abscissa is a scalar recovers, with a low multiple of it, to the key that the
multiple stands for. -/
theorem recovers_word {x y : Secp256k1.Field}
    (there : (mordell Secp256k1.coefficient).Nonsingular x y)
    {d u : Scalar} (key : d ≠ 0) (below : x.val < order) (r : ((x.val : ℕ) : Scalar) ≠ 0)
      (s : u ≠ 0)
    (low : isHigh u = false)
    (equation : u • mordellPoint there = (scalarOf prehash + (x.val : ℕ) * d) • generator) :
    Recovers prehash (word (x.val : ℕ)) (word u) (isOdd y) (mordellPoint there)
      (d • generator) where
  rPositive := by
    rw [rank_word]
    exact Nat.pos_of_ne_zero ((ZMod.val_ne_zero _).mpr r)
  rBelow := by
    rw [rank_word]
    exact ZMod.val_lt _
  sPositive := by
    rw [rank_word]
    exact Nat.pos_of_ne_zero ((ZMod.val_ne_zero _).mpr s)
  sLow := by
    rw [rank_word]
    exact Secp256k1.isHigh_eq_false.mp low
  point := ⟨x, y, there, rfl, by rw [rank_word, ZMod.val_cast_of_lt below], rfl⟩
  key := by
    rw [scalarOf_word, scalarOf_word, equation, add_smul, add_sub_cancel_left, mul_smul,
      inv_smul_smul₀ r]
  finite := smul_ne_zero key Secp256k1.generator_ne_zero

/-- A key's signatures recover to it. -/
theorem recoverKey_sign {d k : Scalar} (nonzero : d ≠ 0) {parity : Bool}
    (signed : sign d k prehash = some (r, s, parity)) :
    recoverKey prehash r s parity = toEncodedPoint (d • generator) := by
  have recovered {R : Point} (recovers : Recovers prehash r s parity R (d • generator)) :
      recoverKey prehash r s parity = toEncodedPoint (d • generator) := by
    obtain ⟨key, encoded⟩ := Option.ne_none_iff_exists'.mp
      (mt Secp256k1.toEncodedPoint_eq_none.mp recovers.finite)
    rw [encoded]
    exact recoverKey_eq_some.mpr ⟨R, _, recovers, encoded⟩
  rw [sign, Secp256k1.val_smul] at signed
  cases point : k • generator with
  | zero =>
    rw [point] at signed
    cases signed
  | some x y there =>
    rw [point] at signed
    dsimp only at signed
    obtain ⟨below, signed⟩ := Option.ite_none_right_eq_some.mp signed
    obtain ⟨nonzeros, signed⟩ := Option.ite_none_left_eq_some.mp signed
    obtain ⟨rNonzero, sNonzero⟩ := not_or.mp nonzeros
    have nonce : k ≠ 0 := fun zero => sNonzero (by rw [zero, inv_zero, zero_mul])
    have equation : (k⁻¹ * (scalarOf prehash + (x.val : ℕ) * d)) • mordellPoint there =
        (scalarOf prehash + (x.val : ℕ) * d) • generator := by
      rw [mordellPoint, ← point, mul_comm, mul_smul, inv_smul_smul₀ nonce]
    by_cases high : isHigh (k⁻¹ * (scalarOf prehash + (x.val : ℕ) * d)) = true
    · rw [if_pos high] at signed
      cases signed
      obtain ⟨opposite, same⟩ :=
        some_eq ((WeierstrassCurve.Affine.nonsingular_neg ..).mpr there) rfl
        mordell_negY
      have finite := Secp256k1.ordinate_ne_zero (mordell_equation.mp there.1)
      refine recovered (isOdd_neg Secp256k1.fieldModulus_odd finite ▸ recovers_word opposite nonzero below
        rNonzero (neg_ne_zero.mpr sNonzero) (Secp256k1.isHigh_neg high) ?_)
      rw [← equation, mordellPoint, ← same, neg_smul, ← smul_neg]
      exact congrArg _ (neg_neg (mordellPoint there))
    · rw [if_neg high] at signed
      cases signed
      exact recovered (recovers_word there nonzero below rNonzero sNonzero (Bool.not_eq_true _ ▸ high)
        equation)

end Apogee.Stateless
