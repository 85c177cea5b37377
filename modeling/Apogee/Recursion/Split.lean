import Apogee.Curve.Groups

/-! # A scalar's two halves

A fold splits each scalar against a short basis of the lattice that the curve's
endomorphism fixes, so that a multiple is two of half the length. The quotients
are floors of products with truncated multipliers; a half that is not below
`2 ^ 128` in either sign, or a machine sum that overflows, is `none`.
-/

namespace Apogee.Recursion.Glv

open Curve Kernel Math FqOp

section Split

/-- The cube root of unity that the endomorphism acts as. -/
def lambda : Fr := ((0xb3c4d79d41a917585bfc41088d8daaa78b17ea66b99c90dd : ℕ) : Fr)

/-- The short basis `(a₁, b₁)`, `(a₂, b₂)`: magnitudes, and whether each is negative. -/
def basis : (ℕ × Bool) × (ℕ × Bool) × (ℕ × Bool) × (ℕ × Bool) :=
  ((0x89d3256894d213e3, false), (0x6f4d8248eeb859fc8211bbeb7d4f1128, true),
    (0x6f4d8248eeb859fd0be4e1541221250b, false), (0x89d3256894d213e3, false))

/-- The multipliers that the quotients are taken with, as limbs. -/
def round : List ℕ × List ℕ :=
  ([0xd91d232ec7e0b3d7, 0x2, 0], [0x7a7bd9d4391eb18e, 0x4ccef014a773d2cf, 0x2])

def pow64 : Fr := ((2 ^ 32 : ℕ) : Fr) * ((2 ^ 32 : ℕ) : Fr)

/-- A 128-bit number in the field. -/
def fr128 (v : ℕ) : Fr := ((v % 2 ^ 64 : ℕ) : Fr) + ((v / 2 ^ 64 : ℕ) : Fr) * pow64

def signed (entry : ℕ × Bool) : Fr := if entry.2 then -fr128 entry.1 else fr128 entry.1

/-- One limb's multiple of the multiplier, added into the product at its place. -/
def productRow (g product : List ℕ) (limb : ℕ × ℕ) : Option (List ℕ) := do
  let (row, carry) ← macLoop limb.1 ((product.drop limb.2).take 3) g 0
  some (product.take limb.2 ++ row ++ [carry] ++ product.drop (limb.2 + 4))

/-- `⌊k·g / 2^256⌋`: the product's limbs from the fourth up. -/
def quotient (limbs g : List ℕ) : Option Fr := do
  let product ← limbs.zipIdx.foldlM (productRow g) (List.replicate 7 0)
  some (fr128 (product.getD 4 0 ||| product.getD 5 0 * 2 ^ 64) +
    fr128 (product.getD 6 0) * pow64 * pow64)

/-- Whether an element is below `2 ^ 128`. -/
def small (x : Fr) : Bool := ((Fr.toBytes x).drop 16).all (· == 0)

/-- A half as a number below `2 ^ 128` and its sign. -/
def half (v : Fr) : Option (Fr × Fr) :=
  if small v then some (v, 0) else if small (-v) then some (-v, 1) else none

def split (k : Fr) : Option (List Fr) := do
  let limbs := byteLimbs (Fr.toBytes k)
  let c1 ← quotient limbs round.1
  let c2 ← quotient limbs round.2
  let (k1, n1) ← half (k - c1 * signed basis.1 - c2 * signed basis.2.2.1)
  let (k2, n2) ← half (-(c1 * signed basis.2.1) - c2 * signed basis.2.2.2)
  some [k1, k2, n1, 0, n2, 0]

end Split

section Quotients

theorem value_append (low high : List ℕ) :
    value (low ++ high) = value low + (2 ^ 64) ^ low.length * value high :=
  Nat.ofDigits_append

/-- A row adds its limb's multiple above what is done. -/
theorem productRow_spec {g lanes : List ℕ} (done : List ℕ) (count : ℕ) {limb : ℕ}
    (gLength : g.length = 3) (gSmall : InRange g) (length : lanes.length = 3)
    (small : InRange lanes) (limbSmall : limb < 2 ^ 64) :
    ∃ d lanes', productRow g (done ++ lanes ++ List.replicate (count + 1) 0) (limb, done.length) =
        some (done ++ [d] ++ lanes' ++ List.replicate count 0) ∧
      lanes'.length = 3 ∧ InRange lanes' ∧ d < 2 ^ 64 ∧
      d + 2 ^ 64 * value lanes' = value lanes + limb * value g := by
  obtain ⟨row, out, ran, rowLength, rowSmall, outSmall, total⟩ :=
    @macLoop_spec limb limbSmall lanes g (length.trans gLength.symm) small gSmall 0 (by norm_num)
  rw [length] at rowLength total
  obtain ⟨d, lanes', rfl⟩ : ∃ d lanes', row = d :: lanes' := by
    cases row with
    | nil => cases rowLength
    | cons d lanes' => exact ⟨d, lanes', rfl⟩
  have lanesLength : lanes'.length = 2 := by simpa using rowLength
  obtain ⟨dSmall, lanesSmall⟩ := List.forall_mem_cons.mp rowSmall
  refine ⟨d, lanes' ++ [out], ?_, ?_, ?_, dSmall, ?_⟩
  · have window : ((done ++ lanes ++ List.replicate (count + 1) 0).drop done.length).take 3 =
        lanes := by
      rw [List.append_assoc, List.drop_left, ← length, List.take_left]
    have before : (done ++ lanes ++ List.replicate (count + 1) 0).take done.length = done := by
      rw [List.append_assoc, List.take_left]
    have after : (done ++ lanes ++ List.replicate (count + 1) 0).drop (done.length + 4) =
        List.replicate count 0 := by
      have front : (done ++ lanes ++ [0]).length = done.length + 4 := by
        rw [List.length_append, List.length_append, length]
        rfl
      rw [List.replicate_succ, List.append_cons, ← front, List.drop_left]
    simp only [productRow, window, before, after, ran, Option.bind_eq_bind, Option.bind_some]
    simp only [List.append_assoc, List.cons_append, List.nil_append]
  · rw [List.length_append, lanesLength]
    rfl
  · exact List.forall_mem_append.mpr ⟨lanesSmall, by simpa using outSmall⟩
  · have joined := value_append lanes' [out]
    rw [lanesLength] at joined
    simp only [value, Nat.ofDigits_cons, Nat.ofDigits_nil] at total joined ⊢
    rw [joined]
    linarith

/-- The rows of all limbs make the product. -/
theorem productRows_spec {g : List ℕ} (gLength : g.length = 3) (gSmall : InRange g)
    {limbs : List ℕ} (limbsSmall : InRange limbs) (done : List ℕ) {lanes : List ℕ}
    (length : lanes.length = 3) (small : InRange lanes) :
    ∃ done' lanes', (limbs.zipIdx done.length).foldlM (productRow g)
        (done ++ lanes ++ List.replicate limbs.length 0) = some (done' ++ lanes') ∧
      done'.length = done.length + limbs.length ∧ lanes'.length = 3 ∧ InRange lanes' ∧
      (InRange done → InRange done') ∧
      value done' + (2 ^ 64) ^ done'.length * value lanes' =
        value done + (2 ^ 64) ^ done.length * (value lanes + value limbs * value g) := by
  induction limbs generalizing done lanes with
  | nil =>
    refine ⟨done, lanes, ?_, rfl, length, small, id, ?_⟩
    · rw [List.length_nil, List.replicate_zero, List.append_nil]
      rfl
    · rw [value, value, value, Nat.ofDigits_nil, zero_mul, add_zero]
  | cons limb limbs ih =>
    obtain ⟨limbSmall, limbsSmall⟩ := List.forall_mem_cons.mp limbsSmall
    obtain ⟨d, next, stepped, nextLength, nextSmall, dSmall, row⟩ :=
      productRow_spec done limbs.length gLength gSmall length small limbSmall
    obtain ⟨done', lanes', ran, doneLength, lanesLength, lanesSmall, doneSmall, total⟩ :=
      ih limbsSmall (done ++ [d]) nextLength nextSmall
    have longer : (done ++ [d]).length = done.length + 1 := by simp
    rw [longer] at ran doneLength total
    refine ⟨done', lanes', ?_, ?_, lanesLength, lanesSmall, fun small => doneSmall ?_, ?_⟩
    · rw [List.zipIdx_cons, List.foldlM_cons, List.length_cons, stepped]
      exact ran
    · rw [doneLength, List.length_cons]
      omega
    · exact List.forall_mem_append.mpr ⟨small, by simpa using dSmall⟩
    · rw [total, value_append]
      simp only [value, Nat.ofDigits_cons, Nat.ofDigits_nil] at row ⊢
      rw [pow_succ]
      linear_combination (2 ^ 64) ^ done.length * row

theorem pow64_eq : pow64 = ((2 ^ 64 : ℕ) : Fr) := by
  rw [pow64, ← Nat.cast_mul]
  norm_num

theorem fr128_eq (v : ℕ) : fr128 v = (v : Fr) := by
  rw [fr128, pow64_eq, ← Nat.cast_mul, ← Nat.cast_add, mul_comm, Nat.mod_add_div]

/-- The quotient is the floor of the product over `2 ^ 256`. -/
theorem quotient_spec (k : Fr) {g : List ℕ} (gLength : g.length = 3) (gSmall : InRange g) :
    quotient (byteLimbs (Fr.toBytes k)) g = some ((k.val * value g / 2 ^ 256 : ℕ) : Fr) := by
  obtain ⟨length, limbsSmall, worth⟩ := byteLimbs_spec (b := Fr.toBytes k) (leBytes_length 32 _)
  rw [Fr.leValue_toBytes] at worth
  generalize byteLimbs (Fr.toBytes k) = limbs at length limbsSmall worth ⊢
  obtain ⟨done, lanes, ran, doneLength, lanesLength, lanesSmall, doneSmall, total⟩ :=
    @productRows_spec _ gLength gSmall _ limbsSmall [] [0, 0, 0] rfl (by simp [InRange])
  rw [length] at ran
  have start : ([] : List ℕ) ++ [0, 0, 0] ++ List.replicate 4 0 = List.replicate 7 0 := rfl
  rw [start, List.length_nil] at ran
  rw [List.length_nil, pow_zero, one_mul] at total
  rw [List.length_nil, zero_add, length] at doneLength
  have doneBelow := value_lt (doneSmall (by simp [InRange]))
  rw [worth, doneLength] at total
  rw [doneLength] at doneBelow
  obtain ⟨x, y, z, rfl⟩ : ∃ x y z, lanes = [x, y, z] := List.length_eq_three.mp lanesLength
  obtain ⟨xSmall, ySmall, zSmall⟩ : x < 2 ^ 64 ∧ y < 2 ^ 64 ∧ z < 2 ^ 64 := by
    simpa [InRange] using lanesSmall
  have floor : k.val * value g / 2 ^ 256 = value [x, y, z] := by
    have product : k.val * value g = value done + 2 ^ 256 * value [x, y, z] := by
      simp only [value, Nat.ofDigits_cons, Nat.ofDigits_nil] at total ⊢
      linarith
    rw [product, Nat.add_mul_div_left _ _ (by norm_num), Nat.div_eq_of_lt, zero_add]
    exact doneBelow.trans_eq (by norm_num)
  have entry (i : ℕ) : (done ++ [x, y, z]).getD (4 + i) 0 = [x, y, z].getD i 0 := by
    rw [List.getD_eq_getElem?_getD, ← doneLength, List.getElem?_append_right (by omega),
      Nat.add_sub_cancel_left, List.getD_eq_getElem?_getD]
  have joined : x ||| y * 2 ^ 64 = x + 2 ^ 64 * y := by
    rw [Nat.or_comm, mul_comm, ← Nat.two_pow_add_eq_or_of_lt xSmall, add_comm]
  rw [quotient, ran, Option.bind_eq_bind, Option.bind_some, entry 0, entry 1, entry 2]
  simp only [List.getD_cons_zero, List.getD_cons_succ, joined, fr128_eq, pow64_eq, floor]
  simp only [value, Nat.ofDigits_cons, Nat.ofDigits_nil]
  congr 1
  push_cast
  ring

end Quotients

section Halves

theorem small_iff (x : Fr) : small x = true ↔ x.val < 2 ^ 128 := by
  have bytes := @Fr.any_drop_toBytes 16 (by norm_num) x
  rw [show (256 : ℕ) ^ 16 = 2 ^ 128 by norm_num] at bytes
  rw [small, ← bytes, List.all_eq_not_any_not, Bool.not_eq_true']
  rfl

/-- An integer below `2 ^ 128` in magnitude is read back with its sign. -/
theorem half_spec {v : Fr} {n : ℤ} (same : v = (n : Fr)) (bound : |n| < 2 ^ 128) :
    ∃ magnitude sign, half v = some (magnitude, sign) ∧ (sign = 0 ∨ sign = 1) ∧
      magnitude.val < 2 ^ 128 ∧ (1 - 2 * sign) * magnitude = v := by
  have room : (2 : ℕ) ^ 128 < frModulus := by norm_num [frModulus]
  have natBound : n.natAbs < 2 ^ 128 := by
    rw [Int.abs_eq_natAbs] at bound
    exact_mod_cast bound
  rw [half]
  by_cases held : small v = true
  · rw [if_pos held]
    exact ⟨v, 0, rfl, Or.inl rfl, (small_iff v).mp held, by ring⟩
  · rw [if_neg held]
    have negative : -v = (n.natAbs : Fr) := by
      rcases Int.natAbs_eq n with positive | negated
      · refine absurd ((small_iff v).mpr ?_) held
        have natural : v = (n.natAbs : Fr) := by
          rw [same]
          nth_rewrite 1 [positive]
          exact Int.cast_natCast _
        rw [natural, ZMod.val_natCast_of_lt (natBound.trans room)]
        exact natBound
      · rw [same]
        nth_rewrite 1 [negated]
        rw [Int.cast_neg, neg_neg, Int.cast_natCast]
    have below : (-v).val < 2 ^ 128 := by
      rw [negative, ZMod.val_natCast_of_lt (natBound.trans room)]
      exact natBound
    rw [if_pos ((small_iff (-v)).mpr below)]
    exact ⟨-v, 1, rfl, Or.inr rfl, below, by ring⟩

/-- A floor is at most one below the quotient it truncates. -/
theorem floor_bounds (k g : ℕ) : ((k * g / 2 ^ 256 : ℕ) : ℤ) * 2 ^ 256 ≤ k * g ∧
    (k : ℤ) * g < ((k * g / 2 ^ 256 : ℕ) : ℤ) * 2 ^ 256 + 2 ^ 256 := by
  constructor
  · exact_mod_cast Nat.div_mul_le_self (k * g) (2 ^ 256)
  · exact_mod_cast Nat.lt_div_mul_add (by norm_num)

/-- The floors with truncated multipliers leave both halves short. -/
theorem halves_bound {k : ℕ} (below : k < frModulus) :
    |(k : ℤ) - (k * value round.1 / 2 ^ 256 : ℕ) * (basis.1.1 : ℕ) -
        (k * value round.2 / 2 ^ 256 : ℕ) * (basis.2.2.1.1 : ℕ)| < 2 ^ 128 ∧
      |((k * value round.1 / 2 ^ 256 : ℕ) : ℤ) * (basis.2.1.1 : ℕ) -
        (k * value round.2 / 2 ^ 256 : ℕ) * (basis.2.2.2.1 : ℕ)| < 2 ^ 128 := by
  obtain ⟨low1, high1⟩ := floor_bounds k (value round.1)
  obtain ⟨low2, high2⟩ := floor_bounds k (value round.2)
  generalize ((k * value round.1 / 2 ^ 256 : ℕ) : ℤ) = c1 at low1 high1 ⊢
  generalize ((k * value round.2 / 2 ^ 256 : ℕ) : ℤ) = c2 at low2 high2 ⊢
  have first : value round.1 = 0x2d91d232ec7e0b3d7 := by
    norm_num [round, value, Nat.ofDigits_cons]
  have second : value round.2 = 0x24ccef014a773d2cf7a7bd9d4391eb18e := by
    norm_num [round, value, Nat.ofDigits_cons]
  rw [first] at low1 high1
  rw [second] at low2 high2
  have small : (k : ℤ) < frModulus := by exact_mod_cast below
  have natural : (0 : ℤ) ≤ k := Int.natCast_nonneg k
  norm_num [frModulus, basis] at small low1 high1 low2 high2 ⊢
  refine ⟨abs_lt.mpr ⟨?_, ?_⟩, abs_lt.mpr ⟨?_, ?_⟩⟩
  · linarith
  · linarith
  · linarith
  · linarith

theorem signed_positive {entry : ℕ × Bool} (positive : entry.2 = false) :
    signed entry = (entry.1 : Fr) := by
  rw [signed, positive, fr128_eq]
  rfl

theorem signed_negative {entry : ℕ × Bool} (negative : entry.2 = true) :
    signed entry = -(entry.1 : Fr) := by
  rw [signed, negative, fr128_eq]
  rfl

/-- The basis lies in the endomorphism's lattice. -/
theorem basis_vanishes : signed basis.1 + lambda * signed basis.2.1 = 0 ∧
    signed basis.2.2.1 + lambda * signed basis.2.2.2 = 0 := by
  simp only [basis, signed, if_true, Bool.false_eq_true, if_false, fr128_eq, lambda]
  constructor
  · have spelled : 0xb3c4d79d41a917585bfc41088d8daaa78b17ea66b99c90dd *
        0x6f4d8248eeb859fc8211bbeb7d4f1128 =
          0x89d3256894d213e3 + frModulus * 29793968203157093285 := by
      norm_num [frModulus]
    have field := congrArg (fun n : ℕ => (n : Fr)) spelled
    simp only [Nat.cast_mul, Nat.cast_add, ZMod.natCast_self, zero_mul, add_zero] at field
    rw [mul_neg, field]
    exact add_neg_cancel _
  · have spelled : 0x6f4d8248eeb859fd0be4e1541221250b +
        0xb3c4d79d41a917585bfc41088d8daaa78b17ea66b99c90dd * 0x89d3256894d213e3 =
          frModulus * 2 := by
      norm_num [frModulus]
    have field := congrArg (fun n : ℕ => (n : Fr)) spelled
    simp only [Nat.cast_mul, Nat.cast_add, ZMod.natCast_self, zero_mul] at field
    exact field

/-- Every scalar splits into two signed halves below `2 ^ 128`. -/
theorem split_total (k : Fr) : ∃ k1 k2 b1 b2 : Fr, split k = some [k1, k2, b1, 0, b2, 0] ∧
    (b1 = 0 ∨ b1 = 1) ∧ (b2 = 0 ∨ b2 = 1) ∧ k1.val < 2 ^ 128 ∧ k2.val < 2 ^ 128 ∧
    (1 - 2 * b1) * k1 + lambda * ((1 - 2 * b2) * k2) = k := by
  have quotient1 := quotient_spec k (g := round.1) rfl (by simp [round, InRange])
  have quotient2 := quotient_spec k (g := round.2) rfl (by simp [round, InRange])
  obtain ⟨bound1, bound2⟩ := halves_bound (ZMod.val_lt k)
  obtain ⟨vanishes1, vanishes2⟩ := basis_vanishes
  generalize k.val * value round.1 / 2 ^ 256 = c1 at quotient1 bound1 bound2
  generalize k.val * value round.2 / 2 ^ 256 = c2 at quotient2 bound1 bound2
  have spelled1 : k - c1 * signed basis.1 - c2 * signed basis.2.2.1 =
      (((k.val : ℤ) - c1 * (basis.1.1 : ℕ) - c2 * (basis.2.2.1.1 : ℕ) : ℤ) : Fr) := by
    rw [signed_positive rfl, signed_positive rfl]
    push_cast
    rw [ZMod.natCast_zmod_val]
  have spelled2 : -(c1 * signed basis.2.1) - c2 * signed basis.2.2.2 =
      (((c1 : ℤ) * (basis.2.1.1 : ℕ) - c2 * (basis.2.2.2.1 : ℕ) : ℤ) : Fr) := by
    rw [signed_negative rfl, signed_positive rfl]
    push_cast
    ring
  obtain ⟨k1, b1, read1, bit1, small1, sum1⟩ := half_spec spelled1 bound1
  obtain ⟨k2, b2, read2, bit2, small2, sum2⟩ := half_spec spelled2 bound2
  refine ⟨k1, k2, b1, b2, ?_, bit1, bit2, small1, small2, ?_⟩
  · rw [split, quotient1, Option.bind_eq_bind, Option.bind_some, quotient2, Option.bind_eq_bind,
      Option.bind_some, read1, Option.bind_some]
    dsimp only
    rw [read2, Option.bind_some]
  · rw [sum1, sum2]
    linear_combination -c1 * vanishes1 - c2 * vanishes2

end Halves

end Apogee.Recursion.Glv
