import Mathlib.Algebra.BigOperators.Associated
import Mathlib.NumberTheory.LucasPrimality
import Mathlib.Tactic.LinearCombination

/-! # Lucas certificates

A number is prime when some residue has multiplicative order one less than it.
The order is checked from a factorization of the predecessor: the kernel
evaluates one modular power for each prime factor (`lucasTest`), and a chain of
such checks certifies primes too large for trial division.
-/

namespace Apogee.Math

/-- Repeated squaring modulo `modulus`, reading `fuel` bits of the exponent. -/
def powMod (modulus base : ℕ) : (fuel : ℕ) → (exponent : ℕ) → ℕ
  | 0, _ => 1 % modulus
  | fuel + 1, exponent =>
    let half := powMod modulus base fuel (exponent / 2)
    if exponent % 2 = 1 then half * half % modulus * base % modulus
    else half * half % modulus

/-- Repeated squaring computes the power when the fuel covers the exponent. -/
theorem powMod_cast (modulus base : ℕ) : ∀ (fuel exponent : ℕ), exponent < 2 ^ fuel →
    ((powMod modulus base fuel exponent : ℕ) : ZMod modulus) = (base : ZMod modulus) ^ exponent := by
  intro fuel
  induction fuel with
  | zero =>
    intro exponent covered
    have : exponent = 0 := by simpa using covered
    simp [powMod, this]
  | succ fuel ih =>
    intro exponent covered
    have half := ih (exponent / 2) (by rw [pow_succ] at covered; omega)
    have split : exponent / 2 + exponent / 2 + exponent % 2 = exponent := by omega
    unfold powMod
    by_cases odd : exponent % 2 = 1
    · rw [odd] at split
      simp only [odd, ↓reduceIte, ZMod.natCast_mod, Nat.cast_mul, half]
      conv_rhs => rw [← split]
      ring
    · have even : exponent % 2 = 0 := by omega
      rw [even] at split
      simp only [odd, ↓reduceIte, ZMod.natCast_mod, Nat.cast_mul, half]
      conv_rhs => rw [← split]
      ring

/-- The order of `root` modulo `modulus` is `modulus - 1`, whose prime factors
with multiplicity are `factors`. -/
def lucasTest (fuel modulus root : ℕ) (factors : List ℕ) : Bool :=
  decide (1 < modulus) && decide (modulus ≤ 2 ^ fuel) && decide (factors.prod = modulus - 1) &&
    decide (powMod modulus root fuel (modulus - 1) % modulus = 1) &&
    factors.all fun factor =>
      decide (powMod modulus root fuel ((modulus - 1) / factor) % modulus ≠ 1)

/-- A number that passes the test with prime factors is prime. -/
theorem prime_of_lucasTest {modulus : ℕ} (fuel root : ℕ) (factors : List ℕ)
    (prime : ∀ factor ∈ factors, factor.Prime)
    (test : lucasTest fuel modulus root factors = true) : modulus.Prime := by
  simp only [lucasTest, Bool.and_eq_true, decide_eq_true_eq, List.all_eq_true] at test
  obtain ⟨⟨⟨⟨large, covered⟩, product⟩, full⟩, partials⟩ := test
  have power (exponent : ℕ) (small : exponent < modulus) :
      (root : ZMod modulus) ^ exponent = 1 ↔ powMod modulus root fuel exponent % modulus = 1 := by
    rw [← powMod_cast modulus root fuel exponent (lt_of_lt_of_le small covered), ← Nat.cast_one,
      ZMod.natCast_eq_natCast_iff', Nat.mod_eq_of_lt large]
  refine lucas_primality modulus root ((power _ (by omega)).mpr full) ?_
  intro divisor divisorPrime divides
  rw [← product] at divides
  obtain ⟨factor, member, divides⟩ := (Prime.dvd_prod_iff divisorPrime.prime).mp divides
  have same : divisor = factor :=
    (Nat.prime_dvd_prime_iff_eq divisorPrime (prime factor member)).mp divides
  subst same
  exact fun one => partials divisor member
    ((power _ (lt_of_le_of_lt (Nat.div_le_self _ _) (by omega))).mp one)

end Apogee.Math

/-! ## Reading integers off a prime field

Equations between field elements become equations between integers as soon as
both sides are images of integers smaller than the modulus. The lemmas below
state that transfer once, together with the field facts that circuit gates rely
on: booleanity, inverses and canonical representatives.
-/

namespace Apogee.Math

/-- A field identity between small integers holds over the integers. -/
theorem intCast_eq_zero_of_small {modulus : ℕ} {value : ℤ} (vanishes : (value : ZMod modulus) = 0)
    (lower : -(modulus : ℤ) < value) (upper : value < modulus) : value = 0 :=
  Int.eq_zero_of_abs_lt_dvd ((ZMod.intCast_zmod_eq_zero_iff_dvd value modulus).mp vanishes)
    (abs_lt.mpr ⟨lower, upper⟩)

end Apogee.Math
