import Mathlib.Data.BitVec
import Mathlib.Data.Nat.Bitwise
import Mathlib.Tactic.Ring

/-! # Bit fields

The `k` bits of a number from bit `s` on, and the number with those bits replaced.
A mask-and-merge on machine words is such a replacement.
-/

namespace Apogee.Math

/-- The `k` bits of `n` from bit `s` on. -/
def bitField (n s k : ℕ) : ℕ := n / 2 ^ s % 2 ^ k

/-- `n` with its `k` bits from bit `s` on replaced by the low bits of `v`. -/
def splice (n s k v : ℕ) : ℕ :=
  n % 2 ^ s + 2 ^ s * (v % 2 ^ k + 2 ^ k * (n / 2 ^ (s + k)))

section Parts

variable {s k low mid high : ℕ}

/-- A number's field is its middle part. -/
theorem bitField_of_parts (lowSmall : low < 2 ^ s) (midSmall : mid < 2 ^ k) :
    bitField (low + 2 ^ s * (mid + 2 ^ k * high)) s k = mid := by
  rw [bitField, Nat.add_mul_div_left _ _ (Nat.two_pow_pos s), Nat.div_eq_of_lt lowSmall, zero_add,
    Nat.add_mul_mod_self_left, Nat.mod_eq_of_lt midSmall]

/-- Replacing a number's field replaces its middle part. -/
theorem splice_of_parts (v : ℕ) (lowSmall : low < 2 ^ s) (midSmall : mid < 2 ^ k) :
    splice (low + 2 ^ s * (mid + 2 ^ k * high)) s k v =
      low + 2 ^ s * (v % 2 ^ k + 2 ^ k * high) := by
  rw [splice, pow_add, ← Nat.div_div_eq_div_mul, Nat.add_mul_mod_self_left,
    Nat.mod_eq_of_lt lowSmall, Nat.add_mul_div_left _ _ (Nat.two_pow_pos s),
    Nat.div_eq_of_lt lowSmall, zero_add, Nat.add_mul_div_left _ _ (Nat.two_pow_pos k),
    Nat.div_eq_of_lt midSmall, zero_add]

/-- Three parts that fit make a number that fits. -/
theorem parts_lt {w : ℕ} (fits : s + k ≤ w) (lowSmall : low < 2 ^ s) (midSmall : mid < 2 ^ k)
    (highSmall : 2 ^ (s + k) * high < 2 ^ w) : low + 2 ^ s * (mid + 2 ^ k * high) < 2 ^ w := by
  have whole : 2 ^ w = 2 ^ s * (2 ^ k * 2 ^ (w - (s + k))) := by
    rw [← pow_add, ← pow_add]
    congr 1
    omega
  rw [whole, pow_add, mul_assoc] at highSmall
  have highLess : high < 2 ^ (w - (s + k)) :=
    lt_of_mul_lt_mul_left (lt_of_mul_lt_mul_left highSmall (Nat.zero_le _)) (Nat.zero_le _)
  have midLess : mid + 2 ^ k * high < 2 ^ k * 2 ^ (w - (s + k)) :=
    calc mid + 2 ^ k * high < 2 ^ k * (high + 1) := by rw [mul_add_one]; omega
      _ ≤ 2 ^ k * 2 ^ (w - (s + k)) := Nat.mul_le_mul_left _ highLess
  calc low + 2 ^ s * (mid + 2 ^ k * high) < 2 ^ s * (mid + 2 ^ k * high + 1) := by
        rw [mul_add_one]; omega
    _ ≤ 2 ^ w := by rw [whole]; exact Nat.mul_le_mul_left _ midLess

end Parts

/-- The bits of a replacement. -/
theorem testBit_splice (n s k v i : ℕ) : (splice n s k v).testBit i =
      if i < s then n.testBit i else if i < s + k then v.testBit (i - s) else n.testBit i := by
  rw [splice, add_comm, Nat.testBit_two_pow_mul_add _ (Nat.mod_lt _ (Nat.two_pow_pos s)),
    add_comm (v % 2 ^ k), Nat.testBit_two_pow_mul_add _ (Nat.mod_lt _ (Nat.two_pow_pos k))]
  split_ifs with below inner inside inside
  · simp [below]
  · rw [Nat.testBit_mod_two_pow, decide_eq_true inner, Bool.true_and]
  · exact absurd inside (by omega)
  · exact absurd inside (by omega)
  · rw [Nat.testBit_div_two_pow]
    congr 1
    omega

/-- Merging a shifted value into a word under the field's mask replaces the field. -/
theorem toNat_merge {w : ℕ} (old value : BitVec w) {s k : ℕ} (fits : s + k ≤ w) :
    (old &&& ~~~(BitVec.allOnes w >>> (w - k) <<< s) |||
        value <<< s &&& BitVec.allOnes w >>> (w - k) <<< s).toNat =
      splice old.toNat s k value.toNat := by
  refine Nat.eq_of_testBit_eq fun i => ?_
  rw [testBit_splice]
  simp only [BitVec.testBit_toNat, BitVec.getLsbD_or, BitVec.getLsbD_and, BitVec.getLsbD_not,
    BitVec.getLsbD_shiftLeft, BitVec.getLsbD_ushiftRight, BitVec.getLsbD_allOnes]
  by_cases within : i < w
  · by_cases below : i < s
    · simp [within, below]
    · by_cases inside : i < s + k
      · have masked : w - k + (i - s) < w := by omega
        simp [within, below, inside, masked]
      · have unmasked : ¬w - k + (i - s) < w := by omega
        simp [within, below, inside, unmasked]
  · have outside : old.getLsbD i = false := BitVec.getLsbD_of_ge _ _ (Nat.not_lt.mp within)
    have above : ¬i < s := by omega
    have beyond : ¬i < s + k := by omega
    simp [within, above, beyond, outside]

end Apogee.Math

/-! ## Packed bits

A list of bits packed least significant first is a power of two exactly when one
bit is set.
-/

namespace Apogee.Math

/-- The number whose binary digits, least significant first, are the list. -/
def packBits : List ℕ → ℕ
  | [] => 0
  | bit :: bits => bit + 2 * packBits bits

/-- A packed power of two has exactly that bit set. -/
theorem getD_of_packBits {bits : List ℕ} (boolean : ∀ bit ∈ bits, bit ≤ 1) {j : ℕ}
    (packed : packBits bits = 2 ^ j) (k : ℕ) : bits.getD k 0 = if k = j then 1 else 0 := by
  have zero : ∀ {bits : List ℕ}, packBits bits = 0 → ∀ k, bits.getD k 0 = 0 := by
    intro bits
    induction bits with
    | nil => intro _ k; simp
    | cons bit bits ih =>
      intro packed k
      simp only [packBits] at packed
      cases k with
      | zero => rw [List.getD_cons_zero]; omega
      | succ k => rw [List.getD_cons_succ]; exact ih (by omega) k
  induction bits generalizing j k with
  | nil =>
    have positive : 0 < 2 ^ j := Nat.two_pow_pos j
    simp only [packBits] at packed
    omega
  | cons bit bits ih =>
    have bound := boolean bit List.mem_cons_self
    have rest : ∀ other ∈ bits, other ≤ 1 := fun other member =>
      boolean other (List.mem_cons_of_mem _ member)
    simp only [packBits] at packed
    cases j with
    | zero =>
      rw [pow_zero] at packed
      cases k with
      | zero => rw [List.getD_cons_zero, if_pos rfl]; omega
      | succ k =>
        rw [List.getD_cons_succ, if_neg (by omega)]
        exact zero (by omega) k
    | succ j =>
      rw [pow_succ] at packed
      cases k with
      | zero => rw [List.getD_cons_zero, if_neg (by omega)]; omega
      | succ k =>
        rw [List.getD_cons_succ, ih rest (j := j) (by omega) k]
        simp

/-- Bits pack below the power of two of their count. -/
theorem packBits_lt {bits : List ℕ} (boolean : ∀ bit ∈ bits, bit ≤ 1) :
    packBits bits < 2 ^ bits.length := by
  induction bits with
  | nil => simp [packBits]
  | cons bit bits ih =>
    have bound := boolean bit List.mem_cons_self
    have rest := ih fun other member => boolean other (List.mem_cons_of_mem _ member)
    rw [packBits, List.length_cons, pow_succ]
    omega

end Apogee.Math

/-! ## Packed bytes

A list of bytes packed least significant first. The bitwise AND of two packed
numbers is the packing of their bytes' ANDs, and the operands' sum is their OR
and their AND, or their XOR and twice their AND.
-/

namespace Apogee.Math

/-- The number whose base-256 digits, least significant first, are the list. -/
def packBytes : List ℕ → ℕ
  | [] => 0
  | byte :: bytes => byte + 2 ^ 8 * packBytes bytes

/-- AND acts on the low and the high digits apart. -/
theorem land_add_mul {k a b x y : ℕ} (left : a < 2 ^ k) (right : b < 2 ^ k) :
    (a + 2 ^ k * x) &&& (b + 2 ^ k * y) = (a &&& b) + 2 ^ k * (x &&& y) := by
  have positive : 0 < 2 ^ k := Nat.two_pow_pos k
  have low := Nat.and_mod_two_pow (a := a + 2 ^ k * x) (b := b + 2 ^ k * y) (n := k)
  have high := Nat.and_div_two_pow (a := a + 2 ^ k * x) (b := b + 2 ^ k * y) (n := k)
  simp only [Nat.add_mul_mod_self_left, Nat.mod_eq_of_lt left, Nat.mod_eq_of_lt right] at low
  simp only [Nat.add_mul_div_left _ _ positive, Nat.div_eq_of_lt left, Nat.div_eq_of_lt right,
    zero_add] at high
  rw [← Nat.mod_add_div ((a + 2 ^ k * x) &&& (b + 2 ^ k * y)) (2 ^ k), low, high]

/-- The AND of packed bytes is packed from the bytes' ANDs. -/
theorem land_packBytes {left right : List ℕ} (same : left.length = right.length)
    (leftBytes : ∀ byte ∈ left, byte < 2 ^ 8) (rightBytes : ∀ byte ∈ right, byte < 2 ^ 8) :
    packBytes left &&& packBytes right =
      packBytes (List.zipWith (fun a b => a &&& b) left right) := by
  induction left generalizing right with
  | nil => simp [packBytes]
  | cons a left ih =>
    cases right with
    | nil => simp at same
    | cons b right =>
      simp only [List.length_cons, Nat.add_right_cancel_iff] at same
      simp only [List.forall_mem_cons] at leftBytes rightBytes
      rw [packBytes, packBytes, land_add_mul leftBytes.1 rightBytes.1,
        ih same leftBytes.2 rightBytes.2, List.zipWith_cons_cons, packBytes]

/-- Bytes pack below the power of two of their bits. -/
theorem packBytes_lt {bytes : List ℕ} (small : ∀ byte ∈ bytes, byte < 2 ^ 8) :
    packBytes bytes < 2 ^ (8 * bytes.length) := by
  induction bytes with
  | nil => simp [packBytes]
  | cons byte bytes ih =>
    simp only [List.forall_mem_cons] at small
    have rest := ih small.2
    have first := small.1
    rw [packBytes, List.length_cons, Nat.mul_succ, pow_add]
    omega

/-- OR and AND together sum the operands, and XOR with the AND twice. -/
theorem add_eq_lor_add_land (a b : ℕ) :
    a + b = (a ||| b) + (a &&& b) ∧ a + b = (a ^^^ b) + 2 * (a &&& b) := by
  induction a using Nat.strong_induction_on generalizing b with
  | _ a ih =>
    by_cases zero : a = 0
    · simp [zero]
    · obtain ⟨sum, twice⟩ := ih (a / 2) (by omega) (b / 2)
      have lor := Nat.or_div_two (a := a) (b := b)
      have land := Nat.and_div_two (a := a) (b := b)
      have lxor := Nat.xor_div_two (a := a) (b := b)
      have lorLow := Nat.or_mod_two_pow (a := a) (b := b) (n := 1)
      have landLow := Nat.and_mod_two_pow (a := a) (b := b) (n := 1)
      have lxorLow := Nat.xor_mod_two_pow (a := a) (b := b) (n := 1)
      rw [pow_one] at lorLow landLow lxorLow
      rcases Nat.mod_two_eq_zero_or_one a with aLow | aLow <;>
        rcases Nat.mod_two_eq_zero_or_one b with bLow | bLow <;>
        simp only [aLow, bLow, Nat.or_zero, Nat.zero_or, Nat.or_self, Nat.and_zero,
          Nat.zero_and, Nat.and_self, Nat.xor_zero, Nat.zero_xor, Nat.xor_self]
          at lorLow landLow lxorLow <;>
        omega

end Apogee.Math
