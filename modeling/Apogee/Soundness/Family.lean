import Apogee.Math.PackedBytes
import Apogee.Soundness.Words

/-! # What the families' shared rules say

The packed mask of a live row is one-hot, so exactly one kind bit is set, and an
absent operand reads zero.
-/

namespace Apogee

open Frame Family

variable {challenges : ExternalChallenges} {decoded : List (List Fr)} {row : Row}

private theorem sum_mapIdx_bits (challenges : ExternalChallenges) (kinds : List PolyAddress)
    (bits : List ℕ)
    (same : kinds.map row = bits.map fun bit : ℕ => (bit : Fr)) (scale : ℕ) :
    ((kinds.mapIdx fun k bit => (lit (scale * 2 ^ k), bit)).map
        fun term => coefficient challenges term.1 * row term.2).sum =
      ((scale * Math.packBits bits : ℕ) : Fr) := by
  induction kinds generalizing bits scale with
  | nil =>
    cases bits with
    | nil => simp [Math.packBits]
    | cons bit bits => simp at same
  | cons kind kinds ih =>
    cases bits with
    | nil => simp at same
    | cons bit bits =>
      simp only [List.map_cons, List.cons.injEq] at same
      have tail := ih bits same.2 (scale * 2)
      have shift : (fun k (bit : PolyAddress) => (lit (scale * 2 ^ (k + 1)), bit)) =
          fun k bit => (lit (scale * 2 * 2 ^ k), bit) := by
        funext k bit
        rw [pow_succ', mul_assoc]
      simp only [List.mapIdx_cons, List.map_cons, List.sum_cons, shift, tail, same.1,
        coefficient_lit, pow_zero, mul_one, Math.packBits]
      push_cast
      ring

/-- The kind bits of a row whose packed mask is a power of two are one-hot. -/
theorem kinds_oneHot {names : List String} {kinds : List PolyAddress} {mask : PolyAddress} {j : ℕ}
    (named : names.length = kinds.length)
    (gates : ∀ gate ∈ kindBooleans names kinds, gate.2.value challenges row = 0)
    (bits : (decodedMaskBits kinds mask).value challenges row = 0)
    (short : kinds.length ≤ 32) (bounded : j < 32) (maskEq : row mask = ((2 ^ j : ℕ) : Fr)) :
    ∀ k, (kinds.map row).getD k 0 = if k = j then 1 else 0 := by
  have booleans : ∀ kind ∈ kinds, (booleanity kind).value challenges row = 0 := by
    intro kind member
    obtain ⟨k, inside, rfl⟩ := List.getElem_of_mem member
    refine gates ("kind_" ++ names[k] ++ "_boolean", booleanity kinds[k]) ?_
    refine List.mem_map.mpr ⟨(names[k], kinds[k]), ?_, rfl⟩
    exact List.mem_iff_getElem.mpr ⟨k, by rw [List.length_zip]; omega, List.getElem_zip⟩
  have digits : ∃ digits : List ℕ, (∀ digit ∈ digits, digit ≤ 1) ∧
      kinds.map row = digits.map fun digit : ℕ => (digit : Fr) := by
    clear bits short named gates
    induction kinds with
    | nil => exact ⟨[], by simp, rfl⟩
    | cons kind kinds ih =>
      obtain ⟨digit, small, digitEq⟩ := bit_of_booleanity (booleans kind List.mem_cons_self)
      obtain ⟨digits, smalls, digitsEq⟩ := ih fun other member =>
        booleans other (List.mem_cons_of_mem _ member)
      exact ⟨digit :: digits, List.forall_mem_cons.mpr ⟨small, smalls⟩,
        by rw [List.map_cons, List.map_cons, digitEq, digitsEq]⟩
  obtain ⟨digits, smalls, digitsEq⟩ := digits
  have sum := sum_mapIdx_bits challenges kinds digits digitsEq 1
  simp only [one_mul] at sum
  simp only [decodedMaskBits, linear, value_linear, List.map_append, List.sum_append, sum,
    List.map_cons, List.map_nil, List.sum_cons, List.sum_nil, coefficient_neg, coefficient_lit,
    maskEq] at bits
  have length : digits.length ≤ 32 := by
    have := congrArg List.length digitsEq
    simp only [List.length_map] at this
    omega
  have packed : Math.packBits digits = 2 ^ j := by
    refine fr_natCast_inj ?_ ?_ (by push_cast at bits ⊢; linear_combination bits)
    · refine lt_of_lt_of_le (Math.packBits_lt smalls) (Nat.pow_le_pow_right (by norm_num) ?_)
      omega
    · exact Nat.pow_lt_pow_right (by norm_num) (by omega)
  intro k
  have digit := Math.getD_of_packBits smalls packed k
  rw [digitsEq, List.getD_eq_getElem?_getD, List.getElem?_map]
  rw [List.getD_eq_getElem?_getD] at digit
  cases found : digits[k]? with
  | none =>
    rw [found] at digit
    simp only [Option.getD_none] at digit
    split_ifs with same
    · rw [if_pos same] at digit; omega
    · simp
  | some value =>
    rw [found] at digit
    simp only [Option.getD_some] at digit
    simp only [Option.map_some, Option.getD_some, digit]
    split_ifs <;> simp

/-- The x0 gates: the written value is the selected one, but for the part that the
indicator of a present query at address zero masks. -/
private theorem masked_of_x0Gates {at' width : ℕ}
    (gates : ∀ gate ∈ x0Gates at' width, gate.2.value challenges row = 0) :
    row (frame at' fieldWriteValue) = row (rdSelected width) -
      (if row (frame at' fieldAddr) = 0 then row (frame at' fieldMask) else 0) *
        row (rdSelected width) := by
  simp only [x0Gates, Gadgets.isZero, List.zip_cons_cons, List.zip_nil_right, List.cons_append,
    List.nil_append, List.forall_mem_cons, List.not_mem_nil, IsEmpty.forall_iff, implies_true,
    and_true] at gates
  obtain ⟨inverse, atNonzero, -, masked⟩ := gates
  have zeroTest : ∀ gate ∈ Gadgets.isZero [(lit 1, frame at' fieldAddr)] (rdInv width)
      (rdIsZero width) (frame at' fieldMask), gate.value challenges row = 0 :=
    List.forall_mem_cons.mpr ⟨inverse, List.forall_mem_singleton.mpr atNonzero⟩
  have indicator := isZero_indicator zeroTest
  simp only [quadratic, value_quadratic, List.map_cons, List.map_nil, List.sum_cons,
    List.sum_nil, coefficient_lit, coefficient_neg, Nat.cast_one, one_mul, add_zero]
    at indicator masked
  rw [← indicator]
  push_cast at masked
  linear_combination masked

/-- A present `rd` query at a nonzero address writes the selected value. -/
theorem write_of_x0Gates {at' width : ℕ}
    (gates : ∀ gate ∈ x0Gates at' width, gate.2.value challenges row = 0)
    (nonzero : row (frame at' fieldAddr) ≠ 0) :
    row (frame at' fieldWriteValue) = row (rdSelected width) := by
  rw [masked_of_x0Gates gates, if_neg nonzero, zero_mul, sub_zero]

/-- A present `rd` query at address zero writes zero. -/
theorem zero_of_x0Gates {at' width : ℕ}
    (gates : ∀ gate ∈ x0Gates at' width, gate.2.value challenges row = 0)
    (zero : row (frame at' fieldAddr) = 0) (present : row (frame at' fieldMask) = 1) :
    row (frame at' fieldWriteValue) = 0 := by
  rw [masked_of_x0Gates gates, if_pos zero, present, one_mul, sub_self]

end Apogee
