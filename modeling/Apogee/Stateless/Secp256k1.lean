import Apogee.Math.CurveLadder
import Apogee.Math.PrimeField
import Mathlib.Algebra.Module.ZMod
import Mathlib.FieldTheory.Finite.Basic
import Mathlib.Tactic.NormNum.Prime

/-! # secp256k1

The curve that transactions are signed on, `y² = x³ + 7`. Its field and the order of its
group are certified prime here, and every point is killed by the order.
-/

namespace Apogee.Secp256k1

open Apogee.Math

/-- The field's modulus. -/
@[irreducible]
def fieldModulus : ℕ := 0xfffffffffffffffffffffffffffffffffffffffffffffffffffffffefffffc2f

/-- The order of the group. -/
@[irreducible]
def order : ℕ := 0xfffffffffffffffffffffffffffffffebaaedce6af48a03bbfd25e8cd0364141

/-! ## Primes -/

/-- The certificates of the primes under both, checked together. -/
private theorem curveCertificates : lucasTest 24 13331831 13 [2, 5, 971, 1373] ∧
      lucasTest 32 44706919 6 [2, 3, 797, 9349] ∧
      lucasTest 32 107590001 3 [2, 2, 2, 2, 5, 5, 5, 5, 7, 29, 53] ∧
      lucasTest 32 545358713 5 [2, 2, 2, 41, 59, 28181] ∧
      lucasTest 40 297159362677 2 [2, 2, 3, 3, 11, 461, 1627771] ∧
      lucasTest 64 107361793816595537 3 [2, 2, 2, 2, 16699, 85831, 4681609] ∧
      lucasTest 64 173378833005251801 6 [2, 2, 2, 5, 5, 2621, 24809, 13331831] ∧
      lucasTest 72 174723607534414371449 3 [2, 2, 2, 17, 59, 4051, 120233, 44706919] ∧
      lucasTest 80 22149492674086928081353 5 [2, 2, 2, 3, 5323, 173378833005251801] ∧
      lucasTest 80 132896956044521568488119 6 [2, 3, 22149492674086928081353] ∧
      lucasTest 96 29047611873442575647497758179 2 [2, 293, 305873, 545358713, 297159362677] ∧
      lucasTest 112 341948486974166000522343609283189 2 [2, 2, 3, 3, 3, 109,
        29047611873442575647497758179] ∧
      lucasTest 128 255515944373312847190720520512484175977 3 [2, 2, 2, 7, 7, 11, 1627, 2657, 4423,
        41201, 96557, 7240687, 107590001] ∧
      lucasTest 240 205115282021455665897114700593932402728804164701536103180137503955397371 10 [2,
        3, 5, 29, 29, 31, 7723, 132896956044521568488119,
          255515944373312847190720520512484175977] ∧
      lucasTest 256 fieldModulus 3 [2, 3, 7, 13441,
        205115282021455665897114700593932402728804164701536103180137503955397371] ∧
      lucasTest 256 order 7 [2, 2, 2, 2, 2, 2, 3, 149, 631, 107361793816595537,
        174723607534414371449, 341948486974166000522343609283189] := by
  decide +kernel

private theorem prime_13331831 : Nat.Prime 13331831 :=
  prime_of_lucasTest 24 13 [2, 5, 971, 1373] (by norm_num) curveCertificates.1

private theorem prime_44706919 : Nat.Prime 44706919 :=
  prime_of_lucasTest 32 6 [2, 3, 797, 9349] (by norm_num) curveCertificates.2.1

private theorem prime_107590001 : Nat.Prime 107590001 :=
  prime_of_lucasTest 32 3 [2, 2, 2, 2, 5, 5, 5, 5, 7, 29, 53] (by norm_num) curveCertificates.2.2.1

private theorem prime_545358713 : Nat.Prime 545358713 :=
  prime_of_lucasTest 32 5 [2, 2, 2, 41, 59, 28181] (by norm_num) curveCertificates.2.2.2.1

private theorem prime_297159362677 : Nat.Prime 297159362677 :=
  prime_of_lucasTest 40 2 [2, 2, 3, 3, 11, 461, 1627771] (by norm_num) curveCertificates.2.2.2.2.1

private theorem prime_107361793816595537 : Nat.Prime 107361793816595537 :=
  prime_of_lucasTest 64 3 [2, 2, 2, 2, 16699, 85831,
    4681609] (by norm_num) curveCertificates.2.2.2.2.2.1

private theorem prime_173378833005251801 : Nat.Prime 173378833005251801 := by
  refine prime_of_lucasTest 64 6 [2, 2, 2, 5, 5, 2621, 24809, 13331831] ?_
    curveCertificates.2.2.2.2.2.2.1
  simp only [List.forall_mem_cons, prime_13331831, true_and]
  norm_num

private theorem prime_174723607534414371449 : Nat.Prime 174723607534414371449 := by
  refine prime_of_lucasTest 72 3 [2, 2, 2, 17, 59, 4051, 120233, 44706919] ?_
    curveCertificates.2.2.2.2.2.2.2.1
  simp only [List.forall_mem_cons, prime_44706919, true_and]
  norm_num

private theorem prime_22149492674086928081353 : Nat.Prime 22149492674086928081353 := by
  refine prime_of_lucasTest 80 5 [2, 2, 2, 3, 5323, 173378833005251801] ?_
    curveCertificates.2.2.2.2.2.2.2.2.1
  simp only [List.forall_mem_cons, prime_173378833005251801, true_and]
  norm_num

private theorem prime_132896956044521568488119 : Nat.Prime 132896956044521568488119 := by
  refine prime_of_lucasTest 80 6 [2, 3, 22149492674086928081353] ?_
    curveCertificates.2.2.2.2.2.2.2.2.2.1
  simp only [List.forall_mem_cons, prime_22149492674086928081353, true_and]
  norm_num

private theorem prime_29047611873442575647497758179 : Nat.Prime 29047611873442575647497758179 := by
  refine prime_of_lucasTest 96 2 [2, 293, 305873, 545358713, 297159362677] ?_
    curveCertificates.2.2.2.2.2.2.2.2.2.2.1
  simp only [List.forall_mem_cons, prime_545358713, prime_297159362677, true_and]
  norm_num

private theorem prime_341948486974166000522343609283189 : Nat.Prime 341948486974166000522343609283189 := by
  refine prime_of_lucasTest 112 2 [2, 2, 3, 3, 3, 109, 29047611873442575647497758179] ?_
    curveCertificates.2.2.2.2.2.2.2.2.2.2.2.1
  simp only [List.forall_mem_cons, prime_29047611873442575647497758179, true_and]
  norm_num

private theorem prime_255515944373312847190720520512484175977 : Nat.Prime 255515944373312847190720520512484175977 := by
  refine prime_of_lucasTest 128 3 [2, 2, 2, 7, 7, 11, 1627, 2657, 4423, 41201, 96557, 7240687,
    107590001] ?_
    curveCertificates.2.2.2.2.2.2.2.2.2.2.2.2.1
  simp only [List.forall_mem_cons, prime_107590001, true_and]
  norm_num

private theorem prime_205115282021455665897114700593932402728804164701536103180137503955397371 : Nat.Prime 205115282021455665897114700593932402728804164701536103180137503955397371 := by
  refine prime_of_lucasTest 240 10 [2, 3, 5, 29, 29, 31, 7723, 132896956044521568488119,
    255515944373312847190720520512484175977] ?_
    curveCertificates.2.2.2.2.2.2.2.2.2.2.2.2.2.1
  simp only [List.forall_mem_cons, prime_132896956044521568488119,
    prime_255515944373312847190720520512484175977, true_and]
  norm_num

theorem fieldModulus_prime : fieldModulus.Prime := by
  refine prime_of_lucasTest 256 3
    [2, 3, 7, 13441, 205115282021455665897114700593932402728804164701536103180137503955397371] ?_
    curveCertificates.2.2.2.2.2.2.2.2.2.2.2.2.2.2.1
  simp only [List.forall_mem_cons,
    prime_205115282021455665897114700593932402728804164701536103180137503955397371, true_and]
  norm_num

instance : Fact fieldModulus.Prime := ⟨fieldModulus_prime⟩

theorem order_prime : order.Prime := by
  refine prime_of_lucasTest 256 7
    [2, 2, 2, 2, 2, 2, 3, 149, 631, 107361793816595537, 174723607534414371449,
      341948486974166000522343609283189] ?_
    curveCertificates.2.2.2.2.2.2.2.2.2.2.2.2.2.2.2
  simp only [List.forall_mem_cons, prime_107361793816595537, prime_174723607534414371449,
    prime_341948486974166000522343609283189, true_and]
  norm_num

instance : Fact order.Prime := ⟨order_prime⟩

/-! ## The group -/

abbrev Field := ZMod fieldModulus

abbrev Scalar := ZMod order

def coefficient : Field := (7 : ℕ)

/-- The curve's points, with the point at infinity. -/
abbrev Point := (mordell coefficient).Point

def generatorX : ℕ := 0x79be667ef9dcbbac55a06295ce870b07029bfcdb2dce28d959f2815b16f81798

def generatorY : ℕ := 0x483ada7726a3c4655da4fbfc0e1108a8fd17b448a68554199c47d08ffb10d4b8

theorem fieldModulus_odd : fieldModulus % 2 = 1 := by norm_num [fieldModulus]

theorem cast_eq_zero (n : ℕ) : (n : Field) = 0 ↔ n % fieldModulus = 0 := by
  rw [ZMod.natCast_eq_zero_iff, Nat.dvd_iff_mod_eq_zero]

theorem two_ne_zero_field : (2 : Field) ≠ 0 := by
  intro zero
  have small := (cast_eq_zero 2).mp (by exact_mod_cast zero)
  exact absurd small (by norm_num [fieldModulus])

theorem coefficient_ne_zero : coefficient ≠ 0 := fun zero =>
  absurd ((cast_eq_zero 7).mp zero) (by norm_num [fieldModulus])

/-- No ordinate is zero: `-7` is not a cube. -/
theorem no_cube (x : Field) : x ^ 3 ≠ -coefficient := by
  intro cube
  have nonzero : x ≠ 0 := by
    rintro rfl
    exact coefficient_ne_zero (by linear_combination cube)
  have third : fieldModulus - 1 = 3 * ((fieldModulus - 1) / 3) := by norm_num [fieldModulus]
  have power : (-coefficient) ^ ((fieldModulus - 1) / 3) = 1 := by
    rw [← cube, ← pow_mul, ← third]
    exact ZMod.pow_card_sub_one_eq_one nonzero
  have even : Even ((fieldModulus - 1) / 3) := by
    rw [Nat.even_iff]
    norm_num [fieldModulus]
  rw [even.neg_pow] at power
  have same := powMod_cast fieldModulus 7 256 ((fieldModulus - 1) / 3) (by norm_num [fieldModulus])
  rw [← coefficient, power] at same
  have one : ((powMod fieldModulus 7 256 ((fieldModulus - 1) / 3) : ℕ) : Field) = (1 : ℕ) := by
    rw [same, Nat.cast_one]
  exact absurd ((ZMod.natCast_eq_natCast_iff' _ _ _).mp one) (by decide +kernel)

theorem nonsingular_of_equation {x y : Field} (equation : y ^ 2 = x ^ 3 + coefficient) :
    (mordell coefficient).Nonsingular x y := by
  refine (WeierstrassCurve.Affine.nonsingular_iff ..).mpr ⟨mordell_equation.mpr equation, Or.inr ?_⟩
  intro same
  have twice : 2 * y = 0 := by
    simp only [mordell] at same
    linear_combination same
  have zero := (mul_eq_zero.mp twice).resolve_left two_ne_zero_field
  rw [zero] at equation
  exact no_cube x (by linear_combination -equation)

theorem generator_nonsingular :
    (mordell coefficient).Nonsingular (generatorX : Field) (generatorY : Field) := by
  refine nonsingular_of_equation ?_
  have equation : generatorY ^ 2 % fieldModulus = (generatorX ^ 3 + 7) % fieldModulus := by
    norm_num [fieldModulus, generatorX, generatorY]
  have cast := (ZMod.natCast_eq_natCast_iff' _ _ fieldModulus).mpr equation
  rwa [Nat.cast_pow, Nat.cast_add, Nat.cast_pow] at cast

def generator : Point := mordellPoint generator_nonsingular

theorem generator_ne_zero : generator ≠ 0 := fun same => (by cases same)

/-- Every point is killed by the group's order. -/
theorem order_nsmul (P : Point) : order • P = 0 := by
  refine nsmul_eq_zero_of_point fieldModulus_odd no_cube order_prime ?_ generator_ne_zero ?_ P
  · norm_num [fieldModulus, order]
  · exact nsmul_of_orderTest generator_nonsingular 256 (by decide +kernel)

/-- Scalars act on points. -/
noncomputable instance : Module Scalar Point := AddCommGroup.zmodModule order_nsmul

end Apogee.Secp256k1
