import Apogee.Math.PrimeField
import Mathlib.Tactic.NormNum.Prime

/-! # The scalar field

Every column, challenge and claim is an element of the scalar field of BN254.
Its modulus is certified prime here, and small integer identities are read off
it through `fr_eq_zero`.
-/

namespace Apogee

open Apogee.Math

/-- The order of the scalar field. -/
@[irreducible]
def frModulus : ℕ :=
  21888242871839275222246405745257275088548364400416034343698204186575808495617

/-- The certificates of the large primes under the modulus, checked together. -/
private theorem certificates : lucasTest 32 405928799 22 [2, 11, 3691, 4999] ∧
      lucasTest 40 12048837557 2 [2, 2, 7, 7, 661, 93001] ∧
      lucasTest 48 5156902474397 2 [2, 2, 107, 12048837557] ∧
      lucasTest 56 1670836401704629 2 [2, 2, 3, 3, 3, 3, 5156902474397] ∧
      lucasTest 32 639533339 2 [2, 229, 853, 1637] ∧
      lucasTest 60 65865678001877903 5 [2, 83, 379, 1637, 639533339] ∧
      lucasTest 96 13818364434197438864469338081 3
        [2, 2, 2, 2, 2, 5, 823, 1593227, 65865678001877903] := by
  decide +kernel

private theorem prime_405928799 : Nat.Prime 405928799 :=
  prime_of_lucasTest 32 22 [2, 11, 3691, 4999] (by norm_num) certificates.1

private theorem prime_12048837557 : Nat.Prime 12048837557 :=
  prime_of_lucasTest 40 2 [2, 2, 7, 7, 661, 93001] (by norm_num) certificates.2.1

private theorem prime_5156902474397 : Nat.Prime 5156902474397 := by
  refine prime_of_lucasTest 48 2 [2, 2, 107, 12048837557] ?_ certificates.2.2.1
  simp only [List.forall_mem_cons, prime_12048837557, true_and]
  norm_num

private theorem prime_1670836401704629 : Nat.Prime 1670836401704629 := by
  refine prime_of_lucasTest 56 2 [2, 2, 3, 3, 3, 3, 5156902474397] ?_ certificates.2.2.2.1
  simp only [List.forall_mem_cons, prime_5156902474397, true_and]
  norm_num

private theorem prime_639533339 : Nat.Prime 639533339 :=
  prime_of_lucasTest 32 2 [2, 229, 853, 1637] (by norm_num) certificates.2.2.2.2.1

private theorem prime_65865678001877903 : Nat.Prime 65865678001877903 := by
  refine prime_of_lucasTest 60 5 [2, 83, 379, 1637, 639533339] ?_ certificates.2.2.2.2.2.1
  simp only [List.forall_mem_cons, prime_639533339, true_and]
  norm_num

private theorem prime_13818364434197438864469338081 : Nat.Prime 13818364434197438864469338081 := by
  refine prime_of_lucasTest 96 3 [2, 2, 2, 2, 2, 5, 823, 1593227, 65865678001877903] ?_
    certificates.2.2.2.2.2.2
  simp only [List.forall_mem_cons, prime_65865678001877903, true_and]
  norm_num

/-- The modulus is prime: its predecessor is `2 ^ 28` times a product of
certified primes. -/
theorem frModulus_prime : frModulus.Prime := by
  refine prime_of_lucasTest 256 5
    (List.replicate 28 2 ++ [3, 3, 13, 29, 983, 11003, 237073, 405928799,
      1670836401704629, 13818364434197438864469338081]) ?_ ?_
  · simp only [List.forall_mem_append, List.forall_mem_cons, prime_405928799,
      prime_1670836401704629, prime_13818364434197438864469338081, true_and]
    refine ⟨?_, by norm_num⟩
    intro factor member
    rw [List.eq_of_mem_replicate member]
    exact Nat.prime_two
  · decide +kernel

instance : Fact frModulus.Prime := ⟨frModulus_prime⟩

/-- The scalar field. -/
abbrev Fr := ZMod frModulus

instance : NeZero frModulus := ⟨frModulus_prime.ne_zero⟩

/-- A field identity between integers of fewer than 250 bits is an identity of
integers. -/
theorem fr_eq_zero {value : ℤ} (vanishes : (value : Fr) = 0) (lower : -(2 ^ 250) < value)
    (upper : value < 2 ^ 250) : value = 0 := by
  have room : (2 ^ 250 : ℤ) < (frModulus : ℤ) := by norm_num [frModulus]
  exact intCast_eq_zero_of_small vanishes (by linarith) (by linarith)

/-- A small positive natural is not zero. -/
theorem fr_natCast_ne_zero {value : ℕ} (positive : 0 < value) (small : value < 2 ^ 250) :
    (value : Fr) ≠ 0 := by
  intro vanishes
  have zero := @fr_eq_zero value (by exact_mod_cast vanishes) (by omega) (by exact_mod_cast small)
  omega

/-- Small naturals are their own canonical representatives. -/
theorem fr_val_natCast {value : ℕ} (small : value < 2 ^ 250) : ((value : Fr)).val = value := by
  refine ZMod.val_natCast_of_lt (lt_trans small ?_)
  norm_num [frModulus]

/-- Distinct small naturals are distinct elements. -/
theorem fr_natCast_inj {left right : ℕ} (leftSmall : left < 2 ^ 250) (rightSmall : right < 2 ^ 250)
    (same : (left : Fr) = right) : left = right := by
  rw [← fr_val_natCast leftSmall, ← fr_val_natCast rightSmall, same]

end Apogee

/-! ## The base field

Curve coordinates live in the base field of BN254. Its modulus is certified
prime here.
-/

namespace Apogee

open Apogee.Math

/-- The order of the base field. -/
@[irreducible]
def fqModulus : ℕ :=
  21888242871839275222246405745257275088696311157297823662689037894645226208583

/-- The certificates of the large primes under the base modulus, checked together. -/
private theorem baseCertificates : lucasTest 28 173171039 13 [2, 73, 89, 13327] ∧
      lucasTest 29 405928799 22 [2, 11, 3691, 4999] ∧
      lucasTest 31 1263766531 10 [2, 3, 5, 13, 911, 3557] ∧
      lucasTest 34 11465965001 3 [2, 2, 2, 5, 5, 5, 5, 7, 327599] ∧
      lucasTest 36 35385462869 2 [2, 2, 7, 1263766531] ∧
      lucasTest 52 2480874801745591 6 [2, 3, 3, 5, 19, 41, 35385462869] ∧
      lucasTest 136 13427688667394608761327070753331941386769 17
        [2, 2, 2, 2, 3, 7, 11, 1853641, 4562087, 173171039, 2480874801745591] ∧
      lucasTest 256 fqModulus 3 [2, 3, 3, 13, 29, 67, 229, 311, 983, 11003, 405928799, 11465965001,
          13427688667394608761327070753331941386769] := by
  decide +kernel

private theorem prime_173171039 : Nat.Prime 173171039 :=
  prime_of_lucasTest 28 13 [2, 73, 89, 13327] (by norm_num) baseCertificates.1

private theorem basePrime_405928799 : Nat.Prime 405928799 :=
  prime_of_lucasTest 29 22 [2, 11, 3691, 4999] (by norm_num) baseCertificates.2.1

private theorem prime_1263766531 : Nat.Prime 1263766531 :=
  prime_of_lucasTest 31 10 [2, 3, 5, 13, 911, 3557] (by norm_num) baseCertificates.2.2.1

private theorem prime_11465965001 : Nat.Prime 11465965001 :=
  prime_of_lucasTest 34 3 [2, 2, 2, 5, 5, 5, 5, 7, 327599] (by norm_num) baseCertificates.2.2.2.1

private theorem prime_35385462869 : Nat.Prime 35385462869 := by
  refine prime_of_lucasTest 36 2 [2, 2, 7, 1263766531] ?_ baseCertificates.2.2.2.2.1
  simp only [List.forall_mem_cons, prime_1263766531, true_and]
  norm_num

private theorem prime_2480874801745591 : Nat.Prime 2480874801745591 := by
  refine prime_of_lucasTest 52 6 [2, 3, 3, 5, 19, 41, 35385462869] ?_ baseCertificates.2.2.2.2.2.1
  simp only [List.forall_mem_cons, prime_35385462869, true_and]
  norm_num

private theorem prime_13427688667394608761327070753331941386769 :
    Nat.Prime 13427688667394608761327070753331941386769 := by
  refine prime_of_lucasTest 136 17
    [2, 2, 2, 2, 3, 7, 11, 1853641, 4562087, 173171039, 2480874801745591] ?_
    baseCertificates.2.2.2.2.2.2.1
  simp only [List.forall_mem_cons, prime_173171039, prime_2480874801745591, true_and]
  norm_num

theorem fqModulus_prime : fqModulus.Prime := by
  refine prime_of_lucasTest 256 3 _ ?_ baseCertificates.2.2.2.2.2.2.2
  simp only [List.forall_mem_cons, basePrime_405928799, prime_11465965001,
    prime_13427688667394608761327070753331941386769, true_and]
  norm_num

instance : Fact fqModulus.Prime := ⟨fqModulus_prime⟩

instance : NeZero fqModulus := ⟨fqModulus_prime.ne_zero⟩

/-- The base field. -/
abbrev Fq := ZMod fqModulus

end Apogee
