import Apogee.Rlp.Codec
import Apogee.Stateless.Secp256k1

/-! # Scalars and points

The curve library's operations: scalars out of bytes, points out of an abscissa and a
parity, and the bytes of a point.
-/

namespace Apogee

open Math Rlp

/-- An uncompressed public key. -/
abbrev PublicKey := FixedBytes 65

namespace Secp256k1

open WeierstrassCurve.Affine

def scalarOf (bytes : Word32) : Scalar := (Mpt.bytesRank bytes.1 : ℕ)

/-- A scalar's bytes; none at or above the order. -/
def fromRepr (bytes : Word32) : Option Scalar :=
  if Mpt.bytesRank bytes.1 < order then some (scalarOf bytes) else none

def isHigh (s : Scalar) : Bool := decide (order / 2 < s.val)

def invert (s : Scalar) : Option Scalar := if s = 0 then none else some s⁻¹

/-- The root that is a power, when its square is the number. -/
def sqrt (alpha : Field) : Option {beta : Field // beta ^ 2 = alpha} :=
  let beta := alpha ^ ((fieldModulus + 1) / 4)
  if root : beta ^ 2 = alpha then some ⟨beta, root⟩ else none

/-- The finite point at an abscissa whose ordinate has a parity. -/
def decompress (bytes : Word32) (yOdd : Bool) : Option Point :=
  if Mpt.bytesRank bytes.1 < fieldModulus then
    let x : Field := (Mpt.bytesRank bytes.1 : ℕ)
    (sqrt (x ^ 3 + coefficient)).map fun beta =>
      if isOdd beta.1 = yOdd then mordellPoint (nonsingular_of_equation beta.2)
      else mordellPoint (nonsingular_of_equation ((neg_sq beta.1).trans beta.2))
  else none

def lincomb (first : Point) (u1 : Scalar) (second : Point) (u2 : Scalar) : Point :=
  u1.val • first + u2.val • second

/-- A finite point's two coordinates, after the byte that marks them. -/
def toEncodedPoint : Point → Option PublicKey
  | .zero => none
  | .some x y _ => some ⟨4 :: (beBytes 32 x.val ++ beBytes 32 y.val), by
      rw [List.length_cons, List.length_append, length_beBytes_eq, length_beBytes_eq]⟩

/-! ## What they do -/

theorem order_lt_fieldModulus : order < fieldModulus := by norm_num [order, fieldModulus]

theorem order_odd : order % 2 = 1 := by norm_num [order]

theorem fieldModulus_lt : fieldModulus < 256 ^ 32 := by norm_num [fieldModulus]

theorem fieldModulus_mod_four : fieldModulus % 4 = 3 := by norm_num [fieldModulus]

theorem val_smul (u : Scalar) (P : Point) : u.val • P = u • P := by
  rw [← Nat.cast_smul_eq_nsmul Scalar, ZMod.natCast_zmod_val]

theorem lincomb_eq (first second : Point) (u1 u2 : Scalar) :
    lincomb first u1 second u2 = u1 • first + u2 • second := by
  rw [lincomb, val_smul, val_smul]

theorem fromRepr_eq_some {bytes : Word32} {s : Scalar} : fromRepr bytes = some s ↔
    Mpt.bytesRank bytes.1 < order ∧ s = scalarOf bytes := by
  rw [fromRepr, Option.ite_none_right_eq_some, Option.some_inj, eq_comm (a := s)]

theorem val_scalarOf {bytes : Word32} (small : Mpt.bytesRank bytes.1 < order) :
    (scalarOf bytes).val = Mpt.bytesRank bytes.1 := ZMod.val_cast_of_lt small

theorem scalarOf_eq_zero {bytes : Word32} (small : Mpt.bytesRank bytes.1 < order) :
    scalarOf bytes = 0 ↔ Mpt.bytesRank bytes.1 = 0 := by
  rw [← ZMod.val_eq_zero, val_scalarOf small]

theorem invert_eq_some {s : Scalar} (nonzero : s ≠ 0) : invert s = some s⁻¹ := if_neg nonzero

/-- A square's power is its root. -/
theorem sqrt_isSome {alpha y : Field} (root : y ^ 2 = alpha) : ∃ beta, sqrt alpha = some beta := by
  have exponent : 2 * ((fieldModulus + 1) / 4) * 2 = fieldModulus - 1 + 2 := by
    have := fieldModulus_mod_four
    have := fieldModulus_prime.two_le
    omega
  have power : (alpha ^ ((fieldModulus + 1) / 4)) ^ 2 = alpha := by
    rw [← root, ← pow_mul, ← pow_mul, ← mul_assoc, exponent, pow_add]
    by_cases zero : y = 0
    · rw [zero, zero_pow two_ne_zero, mul_zero]
    · rw [ZMod.pow_card_sub_one_eq_one zero, one_mul]
  exact ⟨_, dif_pos power⟩

theorem ordinate_ne_zero {x y : Field} (equation : y ^ 2 = x ^ 3 + coefficient) : y ≠ 0 := by
  rintro rfl
  exact no_cube x (by linear_combination -equation)

/-- A point is decompressed from exactly its abscissa and its ordinate's parity. -/
theorem decompress_eq_some {bytes : Word32} {yOdd : Bool} {P : Point} :
    decompress bytes yOdd = some P ↔ ∃ x y there, P = mordellPoint (x := x) (y := y) there ∧
      x.val = Mpt.bytesRank bytes.1 ∧ isOdd y = yOdd := by
  constructor
  · intro found
    obtain ⟨small, found⟩ := Option.ite_none_right_eq_some.mp found
    obtain ⟨beta, -, same⟩ := Option.map_eq_some_iff.mp found
    by_cases parity : isOdd beta.1 = yOdd
    · rw [if_pos parity] at same
      exact ⟨_, _, _, same.symm, ZMod.val_cast_of_lt small, parity⟩
    · rw [if_neg parity] at same
      refine ⟨_, _, _, same.symm, ZMod.val_cast_of_lt small, ?_⟩
      rw [isOdd_neg fieldModulus_odd (ordinate_ne_zero beta.2)]
      exact Bool.not_eq.mpr parity
  · rintro ⟨x, y, there, rfl, abscissa, rfl⟩
    have equation := mordell_equation.mp there.1
    have same : ((Mpt.bytesRank bytes.1 : ℕ) : Field) = x := by
      rw [← abscissa, ZMod.natCast_zmod_val]
    have small : Mpt.bytesRank bytes.1 < fieldModulus := abscissa ▸ x.val_lt
    subst same
    rw [decompress, if_pos small]
    dsimp only
    obtain ⟨beta, found⟩ := sqrt_isSome equation
    rw [found, Option.map_some]
    refine congrArg some ?_
    by_cases parity : isOdd beta.1 = isOdd y
    · obtain rfl := ordinate_unique fieldModulus_odd (equation.trans beta.2.symm) parity.symm
      rw [if_pos rfl]
    · rw [if_neg parity]
      have negative : isOdd y = isOdd (-beta.1) := by
        rw [isOdd_neg fieldModulus_odd (ordinate_ne_zero beta.2)]
        exact (Bool.not_eq.mpr parity).symm
      have squares : y ^ 2 = (-beta.1) ^ 2 := by rw [neg_sq, beta.2, equation]
      obtain rfl := ordinate_unique fieldModulus_odd squares negative
      rfl

theorem toEncodedPoint_eq_none {P : Point} : toEncodedPoint P = none ↔ P = 0 := by
  cases P with
  | zero => exact ⟨fun _ => rfl, fun _ => rfl⟩
  | some x y there => exact ⟨fun same => (by cases same), fun same => (by cases same)⟩

theorem beBytes_val_inj {x y : Field} (same : beBytes 32 x.val = beBytes 32 y.val) : x = y := by
  have fits (z : Field) : z.val < 256 ^ 32 := z.val_lt.trans fieldModulus_lt
  rw [← ZMod.natCast_zmod_val x, ← ZMod.natCast_zmod_val y, ← bytesRank_beBytes (fits x),
    ← bytesRank_beBytes (fits y), same]

theorem toEncodedPoint_inj {P Q : Point} (same : toEncodedPoint P = toEncodedPoint Q) : P = Q := by
  cases P with
  | zero => exact (toEncodedPoint_eq_none.mp same.symm).symm
  | some x y there =>
    cases Q with
    | zero => cases same
    | some x' y' there' =>
      have coordinates := (List.cons.inj (Subtype.mk.inj (Option.some.inj same))).2
      have lengths : (beBytes 32 x.val).length = (beBytes 32 x'.val).length := by
        rw [length_beBytes_eq, length_beBytes_eq]
      obtain ⟨abscissas, ordinates⟩ := List.append_inj coordinates lengths
      obtain rfl := beBytes_val_inj abscissas
      obtain rfl := beBytes_val_inj ordinates
      rfl

theorem isHigh_eq_false {s : Scalar} : isHigh s = false ↔ s.val ≤ order / 2 := by
  rw [isHigh, decide_eq_false_iff_not, Nat.not_lt]

/-- The negative of a high scalar is low. -/
theorem isHigh_neg {s : Scalar} (high : isHigh s = true) : isHigh (-s) = false := by
  have high := of_decide_eq_true high
  have nonzero : s ≠ 0 := by
    rintro rfl
    rw [ZMod.val_zero] at high
    exact Nat.not_lt_zero _ high
  have : NeZero s := ⟨nonzero⟩
  have bound := s.val_lt
  have odd := order_odd
  rw [isHigh_eq_false, ZMod.val_neg_of_ne_zero]
  omega

end Secp256k1

end Apogee
