import Apogee.Curve.Msm
import Apogee.Math.Buckets
import Apogee.Math.Passes

/-! # The multiplication is the sum of the multiples

Each scalar's digits are small and sum back to it, each window's buckets sum to
its digits' multiples over whatever chunks the input is split in, and the
doublings put the windows in their places.
-/

namespace Apogee.Curve

open Math Kernel FqOp WeierstrassCurve.Affine

section Sizes

theorem divCeil_mul {a b : ℕ} (positive : 0 < b) :
    a ≤ divCeil a b * b ∧ divCeil a b * b < a + b := by
  have parts := Nat.div_add_mod (a + b - 1) b
  have small := Nat.mod_lt (a + b - 1) positive
  rw [divCeil, mul_comm]
  omega

/-- Up to `2 ^ 44` points the width is at most 32. -/
theorem windowBits_le {n : ℕ} (bound : n ≤ 2 ^ 44) : 3 ≤ windowBits n ∧ windowBits n ≤ 32 := by
  rw [windowBits]
  split
  · omega
  · have positive : n ≠ 0 := by omega
    have logGe : 5 ≤ log2 n := by
      have least := (Nat.le_log2 positive).mpr (show 2 ^ 5 ≤ n by omega)
      rw [log2]
      split
      · exact least
      · omega
    have logLe : log2 n ≤ 44 := by
      rw [log2]
      have low := Nat.log2_self_le positive
      split
      · by_contra large
        have more := Nat.pow_le_pow_right (show 0 < 2 by norm_num) (show 45 ≤ Nat.log2 n by omega)
        omega
      · rename_i other
        have strict : 2 ^ Nat.log2 n < 2 ^ 44 := by omega
        have := (Nat.pow_lt_pow_iff_right (show 1 < 2 by norm_num)).mp strict
        omega
    omega

end Sizes

section Windows

/-- Bits out of one limb or two are the bits of the whole. -/
theorem windowOf_eq {limbs : List ℕ} (length : limbs.length = 4) (small : InRange limbs)
    {offset w : ℕ} (inside : offset < 256) (narrow : w < 64) :
    windowOf limbs offset w = some (value limbs / 2 ^ offset % 2 ^ w) := by
  have each (i : ℕ) (below : i < 4) : limbs[i]? = some (value limbs / (2 ^ 64) ^ i % 2 ^ 64) := by
    have spelled := limbs_ofDigits small
    rw [length] at spelled
    have entry := @getD_limbs (2 ^ 64) 4 (value limbs) i below
    rw [value, spelled] at entry
    rw [List.getD_eq_getElem _ _ (by omega)] at entry
    rw [List.getElem?_eq_getElem (by omega), entry]
  have limbSmall : offset / 64 < 4 := by omega
  have shiftSmall : offset % 64 < 64 := Nat.mod_lt _ (by norm_num)
  have split : 2 ^ offset = (2 ^ 64) ^ (offset / 64) * 2 ^ (offset % 64) := by
    rw [← pow_mul, ← pow_add]
    congr 1
    omega
  rw [windowOf]
  simp only [each _ limbSmall, shiftedOne, if_pos narrow, Option.bind_eq_bind, Option.bind_some,
    Nat.and_two_pow_sub_one_eq_mod]
  rw [split, ← Nat.div_div_eq_div_mul]
  have below := value_lt small
  rw [length] at below
  by_cases straddles : 0 < offset % 64 ∧ offset / 64 + 1 < 4
  · rw [if_pos straddles, each _ straddles.2, Option.map_some, Option.bind_some]
    rw [pow_succ (2 ^ 64) (offset / 64), ← Nat.div_div_eq_div_mul]
    generalize value limbs / (2 ^ 64) ^ (offset / 64) = v
    generalize offset % 64 = s at shiftSmall straddles ⊢
    have room : 2 ^ 64 = 2 ^ s * 2 ^ (64 - s) := by
      rw [← pow_add]
      congr 1
      omega
    -- the high limb's low bits above the low limb's high bits
    have inner : v / 2 ^ 64 % 2 ^ 64 % 2 ^ s = v / 2 ^ 64 % 2 ^ s :=
      Nat.mod_mod_of_dvd _ (pow_dvd_pow 2 (by omega))
    have high : v / 2 ^ 64 % 2 ^ 64 * 2 ^ (64 - s) % 2 ^ 64 =
        2 ^ (64 - s) * (v / 2 ^ 64 % 2 ^ s) := by
      calc v / 2 ^ 64 % 2 ^ 64 * 2 ^ (64 - s) % 2 ^ 64
          = 2 ^ (64 - s) * (v / 2 ^ 64 % 2 ^ 64) % (2 ^ (64 - s) * 2 ^ s) := by
            rw [mul_comm (v / 2 ^ 64 % 2 ^ 64), mul_comm (2 ^ (64 - s)) (2 ^ s), ← room]
        _ = 2 ^ (64 - s) * (v / 2 ^ 64 % 2 ^ s) := by rw [Nat.mul_mod_mul_left, inner]
    have low : v % 2 ^ 64 / 2 ^ s < 2 ^ (64 - s) := by
      rw [Nat.div_lt_iff_lt_mul (by positivity), mul_comm, ← room]
      exact Nat.mod_lt _ (by norm_num)
    have joined : v / 2 ^ s % 2 ^ 64 =
        2 ^ (64 - s) * (v / 2 ^ 64 % 2 ^ s) + v % 2 ^ 64 / 2 ^ s := by
      calc v / 2 ^ s % 2 ^ 64
          = v % (2 ^ 64 * 2 ^ s) / 2 ^ s := by
            rw [mul_comm (2 ^ 64), Nat.mod_mul_right_div_self]
        _ = (v % 2 ^ 64 + 2 ^ s * (2 ^ (64 - s) * (v / 2 ^ 64 % 2 ^ s))) / 2 ^ s := by
            rw [Nat.mod_mul, ← mul_assoc (2 ^ s), ← room]
        _ = 2 ^ (64 - s) * (v / 2 ^ 64 % 2 ^ s) + v % 2 ^ 64 / 2 ^ s := by
            rw [Nat.add_mul_div_left _ _ (by positivity), add_comm]
    rw [high, Nat.or_comm, ← Nat.two_pow_add_eq_or_of_lt low, ← joined,
      Nat.mod_mod_of_dvd _ (pow_dvd_pow 2 (by omega))]
  · rw [if_neg straddles, Option.bind_some]
    congr 1
    by_cases aligned : offset % 64 = 0
    · rw [aligned, pow_zero, Nat.div_one, Nat.div_one,
        Nat.mod_mod_of_dvd _ (pow_dvd_pow 2 (by omega))]
    · have top : offset / 64 = 3 := by omega
      rw [top]
      have topSmall : value limbs / (2 ^ 64) ^ 3 < 2 ^ 64 := by
        rw [Nat.div_lt_iff_lt_mul (by positivity), ← pow_succ']
        exact below
      rw [Nat.mod_eq_of_lt topSmall]

theorem asI32_eq {x : ℤ} (low : -2 ^ 31 ≤ x) (high : x < 2 ^ 31) : asI32 x = x :=
  Int.bmod_eq_of_le (by norm_num; exact low) (by norm_num; exact high)

/-- The windows of a value, `w` bits each. -/
structure ReadsWindows (window : ℕ → Option ℕ) (v w windows : ℕ) : Prop where
  eq : ∀ i < windows, window i = some (v / 2 ^ (w * i) % 2 ^ w)

/-- The carry below a window with the digits so far make the value's low bits. -/
theorem digits_below {window : ℕ → Option ℕ} {v w windows : ℕ} (wide : 0 < w) (narrow : w ≤ 32)
    (reads : ReadsWindows window v w windows) {m : ℕ} (below : m < windows) :
    ∃ digits carry, (List.range m).foldlM (digitStep window w (windows - 1)) ([], 0) =
      some (digits, carry) ∧ digits.length = m ∧ (∀ d ∈ digits, d.natAbs ≤ 2 ^ (w - 1)) ∧
      carry ≤ 1 ∧ signedValue w digits + 2 ^ (w * m) * carry = (v % 2 ^ (w * m) : ℕ) := by
  have halves : 2 ^ w = 2 ^ (w - 1) * 2 := by
    rw [← pow_succ]
    congr 1
    omega
  have half : 2 ^ (w - 1) ≤ 2 ^ 31 := Nat.pow_le_pow_right (by norm_num) (by omega)
  have halfCast : (2 : ℤ) ^ (w - 1) = ((2 ^ (w - 1) : ℕ) : ℤ) := by push_cast; rfl
  have halvesCast : (2 : ℤ) ^ w = ((2 ^ (w - 1) : ℕ) : ℤ) * 2 := by
    rw [← halfCast, ← pow_succ]
    congr 1
    omega
  induction m with
  | zero => exact ⟨[], 0, rfl, rfl, by simp, by norm_num, by simp [signedValue, Nat.mod_one]⟩
  | succ m ih =>
    obtain ⟨digits, carry, ran, length, small, bit, total⟩ := ih (by omega)
    generalize rawEq : v / 2 ^ (w * m) % 2 ^ w = raw
    have rawSmall : raw < 2 ^ w := rawEq ▸ Nat.mod_lt _ (by positivity)
    have next : v % 2 ^ (w * (m + 1)) = v % 2 ^ (w * m) + 2 ^ (w * m) * raw := by
      rw [Nat.mul_succ, pow_add, Nat.mod_mul, rawEq]
    have step : (List.range (m + 1)).foldlM (digitStep window w (windows - 1)) ([], 0) =
        digitStep window w (windows - 1) (digits, carry) m := by
      rw [List.range_succ, List.foldlM_append, ran]
      simp
    have fits : raw + carry < 2 ^ 64 := by omega
    have middle : ¬m = windows - 1 := by omega
    rw [step, digitStep, reads.eq m (by omega), rawEq]
    simp only [Option.bind_eq_bind, Option.bind_some, checked_eq fits, if_neg middle]
    by_cases large : 2 ^ (w - 1) ≤ raw + carry
    · have exact32 : asI32 ((raw + carry : ℕ) - 2 ^ w : ℤ) = (raw + carry : ℕ) - 2 ^ w := by
        rw [halvesCast]
        exact asI32_eq (by omega) (by omega)
      refine ⟨_, 1, if_pos large, by simp [length], ?_, by norm_num, ?_⟩
      · rw [exact32, halvesCast]
        refine List.forall_mem_append.mpr ⟨small, ?_⟩
        simp only [List.forall_mem_cons, List.not_mem_nil, IsEmpty.forall_iff, implies_true,
          and_true]
        omega
      · rw [exact32, signedValue_concat, length, next, Nat.mul_succ, pow_add]
        push_cast at total ⊢
        linear_combination total
    · have exact32 : asI32 ((raw + carry : ℕ) : ℤ) = (raw + carry : ℕ) :=
        asI32_eq (by omega) (by omega)
      refine ⟨_, 0, if_neg large, by simp [length], ?_, by norm_num, ?_⟩
      · rw [exact32]
        refine List.forall_mem_append.mpr ⟨small, ?_⟩
        simp only [List.forall_mem_cons, List.not_mem_nil, IsEmpty.forall_iff, implies_true,
          and_true, Int.natAbs_natCast]
        exact le_of_not_ge large
      · rw [exact32, signedValue_concat, length, next]
        push_cast at total ⊢
        linear_combination total

/-- A value's digits: small, and summing back to it. -/
structure Recodes (digits : List ℤ) (v w windows : ℕ) : Prop where
  length_eq : digits.length = windows
  small : ∀ d ∈ digits, d.natAbs ≤ 2 ^ (w - 1)
  value_eq : signedValue w digits = v

/-- With a bit to spare above the value, the top window swallows its carry. -/
theorem recodeWith_spec {window : ℕ → Option ℕ} {bits v w : ℕ} (wide : 3 ≤ w) (narrow : w ≤ 32)
    (spare : w = 32 → (bits + 1) % 32 ≠ 0) (below : v < 2 ^ bits)
    (reads : ReadsWindows window v w (windowCount bits w)) :
    ∃ digits, recodeWith window w (windowCount bits w) = some digits ∧
      Recodes digits v w (windowCount bits w) := by
  obtain ⟨covers, tight⟩ := @divCeil_mul (bits + 1) w (by omega)
  rw [← windowCount] at covers tight
  generalize windowCount bits w = windows at *
  obtain ⟨m, rfl⟩ : ∃ m, windows = m + 1 := by
    cases windows with
    | zero => omega
    | succ m => exact ⟨m, rfl⟩
  obtain ⟨digits, carry, ran, length, small, bit, total⟩ :=
    digits_below (by omega) narrow reads (Nat.lt_succ_self m)
  rw [Nat.add_mul, one_mul] at covers tight
  rw [mul_comm m] at covers tight
  -- the top window's bits
  have split : 2 ^ bits = 2 ^ (w * m) * 2 ^ (bits - w * m) := by
    rw [← pow_add]
    congr 1
    omega
  have topSmall : v / 2 ^ (w * m) < 2 ^ (bits - w * m) := by
    rw [Nat.div_lt_iff_lt_mul (by positivity), mul_comm, ← split]
    exact below
  have room : 2 ^ (bits - w * m) ≤ 2 ^ (w - 1) := Nat.pow_le_pow_right (by norm_num) (by omega)
  have wider : 2 ^ (w - 1) ≤ 2 ^ w := Nat.pow_le_pow_right (by norm_num) (by omega)
  have cast32 : 2 ^ (bits - w * m) < 2 ^ 31 := by
    refine Nat.pow_lt_pow_right (by norm_num) ?_
    by_cases widest : w = 32
    · subst widest
      have := spare rfl
      omega
    · omega
  have raw : v / 2 ^ (w * m) % 2 ^ w = v / 2 ^ (w * m) := Nat.mod_eq_of_lt (by omega)
  have coefSmall : v / 2 ^ (w * m) + carry ≤ 2 ^ (w - 1) := by omega
  have fits : v / 2 ^ (w * m) + carry < 2 ^ 64 := by
    have : 2 ^ 31 < 2 ^ 64 := by norm_num
    omega
  have exact32 : asI32 ((v / 2 ^ (w * m) + carry : ℕ) : ℤ) = (v / 2 ^ (w * m) + carry : ℕ) :=
    asI32_eq (by omega) (by omega)
  refine ⟨digits ++ [asI32 ((v / 2 ^ (w * m) + carry : ℕ) : ℤ)], ?_, ?_, ?_, ?_⟩
  · rw [recodeWith, if_pos ⟨by omega, by omega, Nat.succ_pos m⟩, List.range_succ,
      List.foldlM_append, ran]
    simp only [Option.bind_eq_bind, Option.bind_some, List.foldlM_cons, List.foldlM_nil, digitStep,
      reads.eq m (Nat.lt_succ_self m), raw, checked_eq fits, Nat.add_sub_cancel, if_pos coefSmall]
    rfl
  · simp [length]
  · rw [exact32]
    refine List.forall_mem_append.mpr ⟨small, ?_⟩
    simp only [List.forall_mem_cons, List.not_mem_nil, IsEmpty.forall_iff, implies_true, and_true,
      Int.natAbs_natCast]
    exact coefSmall
  · rw [exact32, signedValue_concat, length]
    have parts := Nat.mod_add_div v (2 ^ (w * m))
    push_cast at total ⊢
    have partsCast : (v : ℤ) = v % 2 ^ (w * m) + 2 ^ (w * m) * (v / 2 ^ (w * m)) := by
      exact_mod_cast parts.symm
    linear_combination total - partsCast

end Windows

section Buckets

variable {b : Fq}

/-- A base goes to its digit's bucket, with its digit's sign. -/
theorem bucketStep_stands {digits : List ℤ} {windows window j : ℕ} {base : G1Affine}
    {P : (mordell b).Point} (stands : base.Stands P) {bucket : List G1Projective}
    {sums : List (mordell b).Point} (gathered : List.Forall₂ Projective.Stands bucket sums) {d : ℤ}
    (read : digits[j * windows + window]? = some d) (small : d.natAbs ≤ bucket.length) :
    ∃ bucket', bucketStep digits windows window bucket (base, j) = some bucket' ∧
      List.Forall₂ Projective.Stands bucket' (addToBucket sums d P) := by
  rw [bucketStep, addToBucket]
  simp only [read, Option.bind_eq_bind, Option.bind_some]
  by_cases zero : d = 0
  · rw [if_pos zero, if_pos zero]
    exact ⟨bucket, rfl, gathered⟩
  · rw [if_neg zero, if_neg zero]
    have positive : 0 < d.natAbs := Int.natAbs_pos.mpr zero
    obtain ⟨slot, found⟩ : ∃ slot, bucket[d.natAbs - 1]? = some slot :=
      ⟨_, List.getElem?_eq_getElem (by omega)⟩
    obtain ⟨sum, there, slotStands⟩ := forall₂_getElem? gathered found
    refine ⟨_, by rw [found]; rfl, forall₂_set_modify gathered ?_⟩
    intro other same
    obtain rfl := Option.some.inj (there.symm.trans same)
    by_cases plus : 0 < d
    · rw [if_pos plus, Int.sign_eq_one_of_pos plus, one_smul]
      exact Projective.addAffine_stands slotStands stands
    · rw [if_neg plus, Int.sign_eq_neg_one_of_neg (by omega), neg_one_smul]
      exact Projective.addAffine_stands slotStands (Affine.neg_stands stands)

theorem bucketLoop_stands {digits : List ℤ} {windows window : ℕ} {bases : List G1Affine}
    {points : List (mordell b).Point} (stand : List.Forall₂ Affine.Stands bases points)
    {ds : List ℤ} (length : ds.length = bases.length) {start : ℕ}
    (read : ∀ j (inside : j < ds.length), digits[(start + j) * windows + window]? = some ds[j])
    {bucket : List G1Projective} (small : ∀ d ∈ ds, d.natAbs ≤ bucket.length)
    {sums : List (mordell b).Point} (gathered : List.Forall₂ Projective.Stands bucket sums) :
    ∃ bucket', (bases.zipIdx start).foldlM (bucketStep digits windows window) bucket =
        some bucket' ∧
      List.Forall₂ Projective.Stands bucket'
        ((ds.zip points).foldl (fun sums term => addToBucket sums term.1 term.2) sums) := by
  induction stand generalizing ds start bucket sums with
  | nil =>
    rw [List.eq_nil_of_length_eq_zero length]
    exact ⟨bucket, rfl, gathered⟩
  | cons first rest ih =>
    cases ds with
    | nil => simp at length
    | cons d ds =>
      obtain ⟨dSmall, dsSmall⟩ := List.forall_mem_cons.mp small
      obtain ⟨bucket', stepped, gathered'⟩ :=
        bucketStep_stands first gathered (read 0 (Nat.succ_pos _)) dSmall
      have same : bucket'.length = bucket.length := by
        rw [gathered'.length_eq, length_addToBucket, gathered.length_eq]
      have later (j : ℕ) (inside : j < ds.length) :
          digits[(start + 1 + j) * windows + window]? = some ds[j] := by
        have entry := read (j + 1) (by simpa using inside)
        rwa [show start + (j + 1) = start + 1 + j by omega] at entry
      obtain ⟨bucket'', looped, gathered''⟩ := ih (by simpa using length) later
        (by rw [same]; exact dsSmall) gathered'
      refine ⟨bucket'', ?_, gathered''⟩
      rw [List.zipIdx_cons, List.foldlM_cons]
      rw [Nat.add_zero] at stepped
      rw [stepped]
      exact looped

theorem runningSum_stands {bucket : List G1Projective} {sums : List (mordell b).Point}
    (gathered : List.Forall₂ Projective.Stands bucket sums) :
    (runningSum bucket).1.Stands sums.sum ∧ (runningSum bucket).2.Stands (weightedSum sums) := by
  induction gathered with
  | nil => exact ⟨Projective.identity_stands, Projective.identity_stands⟩
  | @cons slot sum bucket sums first rest ih =>
    have unfolded : runningSum (slot :: bucket) = ((runningSum bucket).1.add slot,
          (runningSum bucket).2.add ((runningSum bucket).1.add slot)) := by
      rw [runningSum, List.reverse_cons, List.foldl_append]
      rfl
    have running := Projective.add_stands ih.1 first
    rw [unfolded, List.sum_cons, weightedSum, add_comm sum]
    exact ⟨running, Projective.add_stands ih.2 running⟩

/-- A window's digits in the rows of all digits. -/
abbrev column (rows : List (List ℤ)) (window : ℕ) : List ℤ :=
  rows.map fun row => row.getD window 0

/-- A window's buckets sum to the multiples by its digits. -/
theorem windowSum_stands {bases : List G1Affine} {points : List (mordell b).Point}
    (stand : List.Forall₂ Affine.Stands bases points) {rows : List (List ℤ)}
    (length : rows.length = bases.length) {windows window buckets : ℕ}
    (formed : ∀ row ∈ rows, row.length = windows)
    (small : ∀ row ∈ rows, ∀ d ∈ row, d.natAbs ≤ buckets) (inside : window < windows) :
    ∃ total, windowSum bases rows.flatten windows window buckets = some total ∧
      total.Stands (((rows.zip points).map fun term => term.1.getD window 0 • term.2).sum) := by
  rw [windowSum]
  by_cases empty : bases = []
  · subst empty
    rw [if_pos rfl, List.eq_nil_of_length_eq_zero length]
    exact ⟨_, rfl, Projective.identity_stands⟩
  · rw [if_neg empty]
    have zeros : List.Forall₂ Projective.Stands (List.replicate buckets (.identity : G1Projective))
        (List.replicate buckets (0 : (mordell b).Point)) := by
      rw [List.forall₂_iff_get]
      refine ⟨by simp, fun i left right => ?_⟩
      simp only [List.get_eq_getElem, List.getElem_replicate]
      exact Projective.identity_stands
    have read (j : ℕ) (below : j < (column rows window).length) :
        rows.flatten[(0 + j) * windows + window]? = some (column rows window)[j] := by
      have row : j < rows.length := by simpa using below
      rw [zero_add, getElem?_flatten_rows formed row inside, List.getElem_map,
        List.getD_eq_getElem?_getD,
        List.getElem?_eq_getElem (by rw [formed _ (List.getElem_mem row)]; exact inside)]
      rfl
    have columnSmall : ∀ d ∈ column rows window,
        d.natAbs ≤ (List.replicate buckets (.identity : G1Projective)).length := by
      intro d member
      obtain ⟨row, rowMember, rfl⟩ := List.mem_map.mp member
      rw [List.length_replicate]
      refine small row rowMember _ ?_
      rw [List.getD_eq_getElem _ _ (by rw [formed row rowMember]; exact inside)]
      exact List.getElem_mem _
    obtain ⟨bucket, looped, gathered⟩ := bucketLoop_stands stand
      (by rw [List.length_map, length]) read columnSmall zeros
    refine ⟨_, by rw [looped]; rfl, ?_⟩
    have total := (runningSum_stands gathered).2
    rw [weightedSum_foldl, weightedSum_replicate_zero, zero_add, List.zip_map_left,
      List.map_map] at total
    · exact total
    · intro term member
      have digit := columnSmall term.1 (List.of_mem_zip member).1
      rwa [List.length_replicate] at digit ⊢

end Buckets

section Windows

variable {b : Fq}

theorem sliceOf_eq {α : Type} {xs : List α} {start stop : ℕ} (ordered : start ≤ stop)
    (inside : stop ≤ xs.length) : sliceOf xs start stop = some ((xs.take stop).drop start) :=
  if_pos ⟨ordered, inside⟩

/-- A task's sum is its window's over its chunk of the input. -/
theorem partialSum_stands {bases : List G1Affine} {points : List (mordell b).Point}
    (stand : List.Forall₂ Affine.Stands bases points) {rows : List (List ℤ)}
    (length : rows.length = bases.length) {windows buckets chunks chunkLen task : ℕ}
    (formed : ∀ row ∈ rows, row.length = windows)
    (small : ∀ row ∈ rows, ∀ d ∈ row, d.natAbs ≤ buckets) (inside : task < windows * chunks)
    (fits : chunks * chunkLen < 2 ^ 63) :
    ∃ total, partialSum bases rows.flatten windows buckets chunks chunkLen task = some total ∧
      total.Stands ((((rows.zip points).take
        (min (min (task % chunks * chunkLen) bases.length + chunkLen) bases.length)).drop
          (min (task % chunks * chunkLen) bases.length)).map fun term =>
            term.1.getD (task / chunks) 0 • term.2).sum := by
  have positive : 0 < chunks := Nat.pos_of_ne_zero fun zero => by
    rw [zero, mul_zero] at inside
    omega
  have chunkBelow := Nat.mod_lt task positive
  have offsetSmall : task % chunks * chunkLen + chunkLen ≤ chunks * chunkLen := by
    rw [← Nat.succ_mul]
    exact Nat.mul_le_mul_right _ chunkBelow
  rw [partialSum]
  simp only [checked_eq (show task % chunks * chunkLen < 2 ^ 64 by omega), Option.bind_eq_bind,
    Option.bind_some]
  generalize startEq : min (task % chunks * chunkLen) bases.length = start
  rw [checked_eq (show start + chunkLen < 2 ^ 64 by omega), Option.bind_some]
  generalize stopEq : min (start + chunkLen) bases.length = stop
  have ordered : start ≤ stop := by omega
  have atMost : stop ≤ bases.length := by omega
  have digitLength := length_flatten_rows formed
  rw [sliceOf_eq ordered atMost, sliceOf_eq (Nat.mul_le_mul_right windows ordered) (by
    rw [digitLength, length]
    exact Nat.mul_le_mul_right windows atMost), Option.bind_some, Option.bind_some,
    take_flatten formed, drop_flatten fun row member => formed row (List.mem_of_mem_take member)]
  have slices : ((rows.zip points).take stop).drop start =
      ((rows.take stop).drop start).zip ((points.take stop).drop start) := by
    rw [List.zip, List.take_zipWith, List.drop_zipWith]
  rw [slices]
  have among {row : List ℤ} (member : row ∈ (rows.take stop).drop start) : row ∈ rows :=
    List.mem_of_mem_take (List.mem_of_mem_drop member)
  refine windowSum_stands (List.forall₂_drop start (List.forall₂_take stop stand)) ?_
    (fun row member => formed row (among member)) (fun row member => small row (among member)) ?_
  · rw [List.length_drop, List.length_take, List.length_drop, List.length_take, length]
  · exact Nat.div_lt_of_lt_mul (by rwa [mul_comm] at inside)

theorem iterate_double_stands {p : G1Projective} {P : (mordell b).Point} (stands : p.Stands P)
    (w : ℕ) : (Projective.double^[w] p).Stands ((2 ^ w : ℤ) • P) := by
  induction w with
  | zero =>
    rw [pow_zero, one_smul]
    exact stands
  | succ w ih =>
    rw [Function.iterate_succ_apply', pow_succ', mul_zsmul, two_zsmul]
    exact Projective.double_stands ih

/-- A window is joined under those above it, which it doubles. -/
theorem joinWindow_stands {partials : List G1Projective} {chunks w window : ℕ}
    {sums : ℕ → (mordell b).Point}
    (present : ∀ c < chunks, ∃ p, partials[window * chunks + c]? = some p ∧
      p.Stands (sums (window * chunks + c)))
    {acc : G1Projective} {P : (mordell b).Point} (stands : acc.Stands P) :
    ∃ acc', joinWindow partials chunks w acc window = some acc' ∧ acc'.Stands ((2 ^ w : ℤ) • P +
        ((List.range chunks).map fun c => sums (window * chunks + c)).sum) := by
  rw [joinWindow]
  have doubled := iterate_double_stands stands w
  generalize Projective.double^[w] acc = start at doubled ⊢
  have upTo (count : ℕ) (inside : count ≤ chunks) :
      ∃ acc', (List.range count).foldlM (fun (acc : G1Projective) chunk =>
          (partials[window * chunks + chunk]?).map acc.add) start = some acc' ∧
        acc'.Stands ((2 ^ w : ℤ) • P +
          ((List.range count).map fun c => sums (window * chunks + c)).sum) := by
    induction count with
    | zero => exact ⟨start, rfl, by simpa using doubled⟩
    | succ count ih =>
      obtain ⟨acc', folded, reached⟩ := ih (by omega)
      obtain ⟨p, found, holds⟩ := present count (by omega)
      refine ⟨acc'.add p, ?_, ?_⟩
      · rw [List.range_succ, List.foldlM_append, folded]
        simp [found]
      · rw [List.range_succ, List.map_append, List.sum_append, List.map_singleton,
          List.sum_singleton, ← add_assoc]
        exact Projective.add_stands reached holds
  exact upTo chunks le_rfl

/-- The windows in their places, the top one first. -/
theorem joinWindows_stands {partials : List G1Projective} {chunks w windows : ℕ}
    {sums : ℕ → (mordell b).Point}
    (present : ∀ task < windows * chunks, ∃ p, partials[task]? = some p ∧ p.Stands (sums task))
    {m : ℕ} (inside : m ≤ windows) {acc : G1Projective} {P : (mordell b).Point}
    (stands : acc.Stands P) :
    ∃ acc', (List.range m).reverse.foldlM (joinWindow partials chunks w) acc = some acc' ∧
      acc'.Stands ((2 ^ (w * m) : ℤ) • P + ∑ i ∈ Finset.range m,
        (2 ^ (w * i) : ℤ) • ((List.range chunks).map fun c => sums (i * chunks + c)).sum) := by
  induction m generalizing acc P with
  | zero => exact ⟨acc, rfl, by simpa using stands⟩
  | succ m ih =>
    obtain ⟨acc', joined, reached⟩ := @joinWindow_stands b partials chunks w m sums
      (fun c below => present _ (by
        have last : (m + 1) * chunks ≤ windows * chunks := Nat.mul_le_mul_right _ inside
        rw [Nat.succ_mul] at last
        omega)) acc P stands
    obtain ⟨acc'', folded, total⟩ := ih (by omega) reached
    refine ⟨acc'', ?_, ?_⟩
    · rw [List.range_succ, List.reverse_append, List.reverse_singleton, List.singleton_append,
        List.foldlM_cons, joined]
      exact folded
    · rw [zsmul_add, ← mul_zsmul, ← pow_add, ← Nat.mul_succ] at total
      rw [Finset.sum_range_succ, add_comm (∑ i ∈ Finset.range m, _), ← add_assoc]
      exact total

/-- The chunks are at most as many as the bases, and together they cover them. -/
theorem chunkCount_le {threads n windows buckets : ℕ} (positive : 0 < n) :
    0 < chunkCount threads n windows buckets ∧ chunkCount threads n windows buckets ≤ n := by
  have fewer := Nat.div_le_self n buckets
  rw [chunkCount]
  omega

/-- Small digits in rows are summed to the multiples they spell. -/
theorem pippenger_stands (threads : ℕ) {bases : List G1Affine} {points : List (mordell b).Point}
    (stand : List.Forall₂ Affine.Stands bases points) (nonempty : bases ≠ [])
    (bound : bases.length ≤ 2 ^ 45) {rows : List (List ℤ)} (length : rows.length = bases.length)
    {windows w : ℕ} (narrow : w ≤ 64) (few : windows ≤ 255)
    (formed : ∀ row ∈ rows, row.length = windows)
    (small : ∀ row ∈ rows, ∀ d ∈ row, d.natAbs ≤ 2 ^ (w - 1)) :
    ∃ total, pippenger threads bases rows.flatten windows w = some total ∧
      total.Stands (((rows.zip points).map fun term => signedValue w term.1 • term.2).sum) := by
  have positive : 0 < bases.length := List.length_pos_of_ne_nil nonempty
  have shifted : shiftedOne (w - 1) = some (2 ^ (w - 1)) := if_pos (by omega)
  rw [pippenger]
  simp only [shifted, Option.bind_eq_bind, Option.bind_some]
  obtain ⟨some_, most⟩ := @chunkCount_le threads bases.length windows (2 ^ (w - 1)) positive
  generalize chunkCount threads bases.length windows (2 ^ (w - 1)) = chunks at some_ most ⊢
  obtain ⟨covers, tight⟩ := @divCeil_mul bases.length chunks some_
  generalize divCeil bases.length chunks = chunkLen at covers tight ⊢
  rw [mul_comm chunkLen] at covers tight
  have tasks : windows * chunks ≤ 255 * 2 ^ 45 := Nat.mul_le_mul few (most.trans bound)
  rw [checked_eq (show windows * chunks < 2 ^ 64 by omega), Option.bind_some]
  obtain ⟨partials, mapped, each⟩ := @exists_mapM _ _ _ _ (List.range (windows * chunks))
    fun task member => partialSum_stands stand length formed small (List.mem_range.mp member)
      (show chunks * chunkLen < 2 ^ 63 by omega)
  rw [mapped, Option.bind_some]
  obtain ⟨total, joined, reached⟩ := joinWindows_stands (w := w)
    (fun task below => forall₂_getElem? each (List.getElem?_range below)) le_rfl (Projective.identity_stands (b := b))
  refine ⟨total, joined, ?_⟩
  have whole : (rows.zip points).length = bases.length := by
    rw [List.length_zip, length, ← stand.length_eq, min_self]
  have windowed := @sum_windows _ _ w windows chunks chunkLen (rows.zip points)
    (fun row member => formed _ (List.of_mem_zip member).1)
    (by rw [whole]; exact covers)
  rw [zsmul_zero, zero_add] at reached
  rw [whole] at windowed
  exact (congrArg total.Stands windowed).mp reached

end Windows

section Scalars

/-- The windows start below the scalar's bits. -/
theorem mul_lt_of_lt_windowCount {bits w i : ℕ} (positive : 0 < w)
    (inside : i < windowCount bits w) : i * w < bits + 1 := by
  obtain ⟨-, tight⟩ := @divCeil_mul (bits + 1) w positive
  rw [← windowCount] at tight
  have last := Nat.mul_le_mul_right w (Nat.succ_le_of_lt inside)
  rw [Nat.succ_mul] at last
  omega

theorem windowCount_le {bits w : ℕ} (small : bits ≤ 254) (wide : 3 ≤ w) :
    windowCount bits w ≤ 255 := by
  by_contra many
  have last := @mul_lt_of_lt_windowCount bits w 255 (by omega) (by omega)
  omega

/-- A field scalar's digits, at every width that the multiplication picks. -/
theorem recode_spec (scalar : Fr) {w : ℕ} (wide : 3 ≤ w) (narrow : w ≤ 32) :
    ∃ digits, recode (canonicalLimbs scalar) w (windowCount frBits w) = some digits ∧
      Recodes digits scalar.val w (windowCount frBits w) := by
  obtain ⟨length, small, worth⟩ := byteLimbs_spec (b := Fr.toBytes scalar) (leBytes_length 32 _)
  rw [Fr.leValue_toBytes] at worth
  have below := ZMod.val_lt scalar
  refine recodeWith_spec wide narrow (fun _ => by norm_num [frBits])
    (below.trans (by norm_num [frModulus, frBits])) ⟨fun i inside => ?_⟩
  have start := mul_lt_of_lt_windowCount (by omega) inside
  rw [canonicalLimbs, windowOf_eq length small (start.trans (by norm_num [frBits])) (by omega),
    worth, mul_comm]

theorem recodeU32_spec (scalar : UInt32) {w : ℕ} (wide : 3 ≤ w) (narrow : w ≤ 32) :
    ∃ digits, recodeU32 scalar w (windowCount u32Bits w) = some digits ∧
      Recodes digits scalar.toNat w (windowCount u32Bits w) := by
  refine recodeWith_spec wide narrow (fun _ => by norm_num [u32Bits]) scalar.toNat_lt
    ⟨fun i inside => ?_⟩
  have start := mul_lt_of_lt_windowCount (by omega) inside
  rw [if_pos (start.trans (by norm_num [u32Bits])), Nat.and_two_pow_sub_one_eq_mod, mul_comm]

variable {b : Fq}

/-- The multiples by what the digits spell are those by the scalars. -/
theorem sum_recoded {σ : Type} {value : σ → ℕ} {w windows : ℕ} {scalars : List σ}
    {rows : List (List ℤ)}
    (spelled : List.Forall₂ (fun scalar digits => Recodes digits (value scalar) w windows)
      scalars rows) (points : List (mordell b).Point) :
    ((rows.zip points).map fun term => signedValue w term.1 • term.2).sum =
      ((scalars.zip points).map fun term => value term.1 • term.2).sum := by
  induction spelled generalizing points with
  | nil => rfl
  | cons first rest ih =>
    cases points with
    | nil => rfl
    | cons P points =>
      rw [List.zip_cons_cons, List.zip_cons_cons, List.map_cons, List.map_cons, List.sum_cons,
        List.sum_cons, ih, first.value_eq, natCast_zsmul]

/-- Scalars whose digits are small and sum back to them are multiplied and summed. -/
theorem msmWith_stands {σ : Type} {recoder : σ → ℕ → ℕ → Option (List ℤ)} {value : σ → ℕ}
    {bits : ℕ} (fewBits : bits ≤ 254)
    (recodes : ∀ scalar {w}, 3 ≤ w → w ≤ 32 →
      ∃ digits, recoder scalar w (windowCount bits w) = some digits ∧
        Recodes digits (value scalar) w (windowCount bits w))
    (threads : ℕ) {bases : List G1Affine} {points : List (mordell b).Point}
    (stand : List.Forall₂ Affine.Stands bases points) (bound : bases.length ≤ 2 ^ 44)
    {scalars : List σ} (length : scalars.length = bases.length) :
    ∃ total, msmWith recoder bits threads bases scalars = some (.ok total) ∧
      total.Stands (((scalars.zip points).map fun term => value term.1 • term.2).sum) := by
  rw [msmWith, if_neg (not_not.mpr length.symm)]
  by_cases empty : bases = []
  · subst empty
    rw [if_pos rfl, List.eq_nil_of_length_eq_zero length]
    exact ⟨_, rfl, Projective.identity_stands⟩
  · rw [if_neg empty]
    obtain ⟨wide, narrow⟩ := windowBits_le bound
    generalize windowBits bases.length = w at wide narrow ⊢
    have few := windowCount_le fewBits wide
    have digits : bases.length * windowCount bits w ≤ 2 ^ 44 * 255 := Nat.mul_le_mul bound few
    obtain ⟨rows, mapped, spelled⟩ := @exists_mapM _ _
      (fun scalar => recoder scalar w (windowCount bits w)) _ scalars
      fun scalar _ => recodes scalar wide narrow
    have each (row : List ℤ) (member : row ∈ rows) :
        ∃ scalar, Recodes row (value scalar) w (windowCount bits w) := by
      obtain ⟨i, inside, rfl⟩ := List.mem_iff_getElem.mp member
      obtain ⟨scalar, -, holds⟩ :=
        forall₂_getElem? spelled.flip (List.getElem?_eq_getElem inside)
      exact ⟨scalar, holds⟩
    obtain ⟨total, summed, stands⟩ := pippenger_stands threads stand empty
      (bound.trans (by norm_num)) (by rw [← spelled.length_eq, length]) (by omega) few
      (fun row member => (each row member).choose_spec.length_eq)
      (fun row member => (each row member).choose_spec.small)
    refine ⟨total, ?_, ?_⟩
    · simp only [checked_eq (show bases.length * windowCount bits w < 2 ^ 64 by omega), mapped,
        summed, Option.bind_eq_bind, Option.bind_some, Option.map_some]
    · exact (congrArg total.Stands (sum_recoded spelled points)).mp stands

end Scalars

/-- Up to `2 ^ 44` bases, on any number of threads, both multiplications return the
sum of the multiples, by digits that are small and sum back to their scalars. -/
theorem msm_exact {b : Fq} (threads : ℕ) {bases : List G1Affine}
    {points : List (mordell b).Point} (stand : List.Forall₂ Affine.Stands bases points)
    (bound : bases.length ≤ 2 ^ 44) :
    (∀ scalars : List Fr, scalars.length = bases.length →
      (∃ total, msm threads bases scalars = some (.ok total) ∧
        total.Stands (((scalars.zip points).map fun term => term.1.val • term.2).sum)) ∧
      ∀ scalar ∈ scalars, ∃ digits,
        recode (canonicalLimbs scalar) (windowBits bases.length)
          (windowCount frBits (windowBits bases.length)) = some digits ∧
        Recodes digits scalar.val (windowBits bases.length)
          (windowCount frBits (windowBits bases.length))) ∧
    ∀ scalars : List UInt32, scalars.length = bases.length →
      (∃ total, msmSmallU32 threads bases scalars = some (.ok total) ∧
        total.Stands (((scalars.zip points).map fun term => term.1.toNat • term.2).sum)) ∧
      ∀ scalar ∈ scalars, ∃ digits,
        recodeU32 scalar (windowBits bases.length)
          (windowCount u32Bits (windowBits bases.length)) = some digits ∧
        Recodes digits scalar.toNat (windowBits bases.length)
          (windowCount u32Bits (windowBits bases.length)) := by
  obtain ⟨wide, narrow⟩ := windowBits_le bound
  refine ⟨fun scalars length => ⟨?_, fun scalar _ => recode_spec scalar wide narrow⟩,
    fun scalars length => ⟨?_, fun scalar _ => recodeU32_spec scalar wide narrow⟩⟩
  · exact msmWith_stands (by norm_num [frBits]) (fun scalar _ => recode_spec scalar) threads stand
      bound length
  · exact msmWith_stands (by norm_num [u32Bits]) (fun scalar _ => recodeU32_spec scalar) threads
      stand bound length

/-- The generator and infinity, on three threads. -/
theorem msm_exact_generator : ∃ (P : (mordell G1.coefficient).Point) (total : G1Projective),
    G1.generator.Stands P ∧ msm 3 [G1.generator, .identity] [1, 1] = some (.ok total) ∧
      total.Stands ((([1, 1].zip [P, 0]).map fun term : Fr × _ => term.1.val • term.2).sum) := by
  obtain ⟨P, stands⟩ := G1.generator_stands
  obtain ⟨total, summed, holds⟩ := ((msm_exact 3
    (List.Forall₂.cons stands
      (List.Forall₂.cons (.infinity (p := .identity) rfl) List.Forall₂.nil))
    (by norm_num)).1 [1, 1] rfl).1
  exact ⟨P, total, stands, summed, holds⟩

section Wide

theorem replicate_stands {b : Fq} {p : G1Affine} {P : (mordell b).Point} (stands : p.Stands P)
    (n : ℕ) : List.Forall₂ Affine.Stands (List.replicate n p) (List.replicate n P) := by
  rw [List.forall₂_iff_get]
  refine ⟨by rw [List.length_replicate, List.length_replicate], fun i left right => ?_⟩
  simp only [List.get_eq_getElem, List.getElem_replicate]
  exact stands

theorem sum_zip_zeros {b : Fq} (w : ℕ) (rows : List (List ℤ)) (n : ℕ) :
    ((rows.zip (List.replicate n (0 : (mordell b).Point))).map fun term =>
      signedValue w term.1 • term.2).sum = 0 := by
  apply List.sum_eq_zero
  intro multiple member
  obtain ⟨term, inside, rfl⟩ := List.mem_map.mp member
  rw [(List.mem_replicate.mp (List.of_mem_zip inside).2).2, zsmul_zero]

/-- One base over `2 ^ 44` makes windows too wide for a 32-bit digit. -/
theorem msm_wide (threads : ℕ) {P : (mordell G1.coefficient).Point}
    (stands : G1.generator.Stands P) :
    ∃ total, msm threads (G1.generator :: List.replicate (2 ^ 44) .identity)
        (((0x80000000 : ℕ) : Fr) :: List.replicate (2 ^ 44) 0) = some (.ok total) ∧
      total.Stands ((-0x80000000 : ℤ) • P) := by
  have width : windowBits (2 ^ 44 + 1) = 33 ∧ windowCount frBits 33 = 8 := by decide
  have first : recode (canonicalLimbs ((0x80000000 : ℕ) : Fr)) 33 8 =
      some (-0x80000000 :: List.replicate 7 0) := by decide +kernel
  have others : recode (canonicalLimbs 0) 33 8 = some (List.replicate 8 0) := by decide +kernel
  obtain ⟨rows, mapped, each⟩ := @exists_mapM _ _
    (fun scalar => recode (canonicalLimbs scalar) 33 8)
    (fun _ digits => digits = List.replicate 8 0) (List.replicate (2 ^ 44) (0 : Fr))
    fun scalar member => ⟨_, by rw [(List.mem_replicate.mp member).2]; exact others, rfl⟩
  have zeros : ∀ row ∈ rows, row = List.replicate 8 0 := by
    intro row member
    obtain ⟨i, inside, rfl⟩ := List.mem_iff_getElem.mp member
    obtain ⟨_, -, holds⟩ := forall₂_getElem? each.flip (List.getElem?_eq_getElem inside)
    exact holds
  have count : (G1.generator :: List.replicate (2 ^ 44) Affine.identity).length = 2 ^ 44 + 1 := by
    rw [List.length_cons, List.length_replicate]
  have points : List.Forall₂ Affine.Stands (G1.generator :: List.replicate (2 ^ 44) .identity)
      (P :: List.replicate (2 ^ 44) 0) :=
    List.Forall₂.cons stands (replicate_stands (.infinity rfl) _)
  obtain ⟨total, summed, holds⟩ := @pippenger_stands _ threads _ _ points (List.cons_ne_nil _ _)
    (by rw [count]; norm_num) ((-0x80000000 :: List.replicate 7 0) :: rows)
    (by rw [count, List.length_cons, ← each.length_eq, List.length_replicate]) 8 33 (by norm_num)
    (by norm_num)
    (List.forall_mem_cons.mpr ⟨rfl, fun row member => by rw [zeros row member]; rfl⟩)
    (List.forall_mem_cons.mpr ⟨by decide, fun row member => by rw [zeros row member]; decide⟩)
  refine ⟨total, ?_, ?_⟩
  · rw [msm, msmWith, if_neg (by
        rw [count, List.length_cons, List.length_replicate]
        exact not_not.mpr rfl),
      if_neg (List.cons_ne_nil _ _), count]
    simp only [width, checked_eq (show (2 ^ 44 + 1) * 8 < 2 ^ 64 by norm_num), List.mapM_cons,
      first, mapped, summed, Option.bind_eq_bind, Option.bind_some, Option.pure_def, Option.map_some]
  · rw [List.zip_cons_cons, List.map_cons, List.sum_cons, sum_zip_zeros, add_zero] at holds
    exact holds
/-- The generator's multiples there differ, as its order is odd. -/
theorem wide_ne {P : (mordell G1.coefficient).Point} (stands : G1.generator.Stands P) :
    (-0x80000000 : ℤ) • P ≠ 0x80000000 • P := by
  intro same
  have killed : 0x100000000 • P = 0 := by
    have split : (0x100000000 : ℕ) = 0x80000000 + 0x80000000 := by norm_num
    rw [split, add_nsmul]
    nth_rewrite 1 [← same]
    rw [neg_zsmul, ofNat_zsmul]
    exact neg_add_cancel _
  have zero := G1.eq_zero_of_coprime (by norm_num [frModulus]) killed
  subst zero
  cases stands with
  | infinity held => cases held

/-- There the sum of the multiples is another point. -/
theorem msm_wide_ne : ∃ (P : (mordell G1.coefficient).Point) (total : G1Projective),
    List.Forall₂ Affine.Stands (G1.generator :: List.replicate (2 ^ 44) .identity)
      (P :: List.replicate (2 ^ 44) 0) ∧
    msm 1 (G1.generator :: List.replicate (2 ^ 44) .identity)
      (((0x80000000 : ℕ) : Fr) :: List.replicate (2 ^ 44) 0) = some (.ok total) ∧
    ¬total.Stands ((((((0x80000000 : ℕ) : Fr) :: List.replicate (2 ^ 44) 0).zip
      (P :: List.replicate (2 ^ 44) 0)).map fun term => term.1.val • term.2).sum) := by
  obtain ⟨P, stands⟩ := G1.generator_stands
  obtain ⟨total, summed, negated⟩ := msm_wide 1 stands
  refine ⟨P, total, List.Forall₂.cons stands (replicate_stands (.infinity rfl) _), summed, ?_⟩
  intro exact
  have same := Projective.stands_unique negated exact
  have small : (((0x80000000 : ℕ) : Fr)).val = 0x80000000 :=
    ZMod.val_natCast_of_lt (by norm_num [frModulus])
  have rest : (((List.replicate (2 ^ 44) (0 : Fr)).zip
      (List.replicate (2 ^ 44) (0 : (mordell G1.coefficient).Point))).map
        fun term => term.1.val • term.2).sum = 0 := by
    apply List.sum_eq_zero
    intro multiple member
    obtain ⟨term, inside, rfl⟩ := List.mem_map.mp member
    rw [(List.mem_replicate.mp (List.of_mem_zip inside).2).2]
    exact nsmul_zero _
  rw [List.zip_cons_cons, List.map_cons, List.sum_cons, rest, add_zero, small] at same
  exact wide_ne stands same

end Wide

end Apogee.Curve
