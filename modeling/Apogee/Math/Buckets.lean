import Mathlib.Algebra.BigOperators.Intervals
import Mathlib.Algebra.Module.BigOperators
import Mathlib.Data.List.GetD
import Mathlib.Tactic.Abel
import Mathlib.Tactic.Ring

/-! # Multiples summed by buckets

A sum of multiples is gathered a digit at a time: the terms of one digit share a
bucket, a bucket counts as often as its digit says, and the digits' sums are
joined by doublings.
-/

namespace Apogee.Math

section Digits

/-- The value of signed digits in base `2 ^ w`, low first. -/
def signedValue (w : ℕ) : List ℤ → ℤ
  | [] => 0
  | d :: ds => d + 2 ^ w * signedValue w ds

theorem signedValue_concat (w : ℕ) (ds : List ℤ) (d : ℤ) :
    signedValue w (ds ++ [d]) = signedValue w ds + 2 ^ (w * ds.length) * d := by
  induction ds with
  | nil => simp [signedValue]
  | cons e ds ih =>
    rw [List.cons_append, signedValue, ih, signedValue, List.length_cons, Nat.mul_succ, pow_add]
    ring

theorem signedValue_eq_sum (w : ℕ) (ds : List ℤ) :
    signedValue w ds = ∑ i ∈ Finset.range ds.length, 2 ^ (w * i) * ds.getD i 0 := by
  induction ds with
  | nil => rfl
  | cons d ds ih =>
    rw [signedValue, ih, List.length_cons, Finset.sum_range_succ', Finset.mul_sum, add_comm]
    congr 1
    · refine Finset.sum_congr rfl fun i _ => ?_
      rw [List.getD_cons_succ, Nat.mul_succ, pow_add]
      ring
    · simp

end Digits

section Buckets

variable {A : Type*} [AddCommGroup A]

/-- The buckets, the first counted once, the second twice, and so on. -/
def weightedSum : List A → A
  | [] => 0
  | a :: as => weightedSum as + (a + as.sum)

/-- A term added with its digit's sign to the bucket of the digit's magnitude. -/
def addToBucket (buckets : List A) (d : ℤ) (a : A) : List A :=
  if d = 0 then buckets else buckets.modify (d.natAbs - 1) (· + d.sign • a)

theorem sum_modify {as : List A} {k : ℕ} (inside : k < as.length) (c : A) :
    (as.modify k (· + c)).sum = as.sum + c := by
  induction as generalizing k with
  | nil => exact absurd inside (Nat.not_lt_zero k)
  | cons a as ih =>
    cases k with
    | zero =>
      rw [List.modify_zero_cons, List.sum_cons, List.sum_cons]
      abel
    | succ k =>
      rw [List.modify_succ_cons, List.sum_cons, List.sum_cons, ih (by simpa using inside)]
      abel

theorem weightedSum_modify {as : List A} {k : ℕ} (inside : k < as.length) (c : A) :
    weightedSum (as.modify k (· + c)) = weightedSum as + (k + 1) • c := by
  induction as generalizing k with
  | nil => exact absurd inside (Nat.not_lt_zero k)
  | cons a as ih =>
    cases k with
    | zero =>
      rw [List.modify_zero_cons, weightedSum, weightedSum, zero_add, one_smul]
      abel
    | succ k =>
      have below : k < as.length := by simpa using inside
      rw [List.modify_succ_cons, weightedSum, weightedSum, ih below, sum_modify below,
        succ_nsmul c (k + 1)]
      abel

/-- The buckets count a term as often as its digit says. -/
theorem weightedSum_addToBucket {buckets : List A} {d : ℤ} (small : d.natAbs ≤ buckets.length)
    (a : A) : weightedSum (addToBucket buckets d a) = weightedSum buckets + d • a := by
  rw [addToBucket]
  by_cases zero : d = 0
  · rw [if_pos zero, zero, zero_smul, add_zero]
  · rw [if_neg zero]
    have positive : 0 < d.natAbs := Int.natAbs_pos.mpr zero
    rw [weightedSum_modify (by omega), Nat.sub_add_cancel positive, ← natCast_zsmul, smul_smul,
      mul_comm, Int.sign_mul_natAbs]

@[simp]
theorem length_addToBucket (buckets : List A) (d : ℤ) (a : A) :
    (addToBucket buckets d a).length = buckets.length := by
  rw [addToBucket]
  split
  · rfl
  · exact List.length_modify ..

/-- All terms added, each by its digit. -/
theorem weightedSum_foldl {buckets : List A} {terms : List (ℤ × A)}
    (small : ∀ term ∈ terms, term.1.natAbs ≤ buckets.length) :
    weightedSum (terms.foldl (fun buckets term => addToBucket buckets term.1 term.2) buckets) =
      weightedSum buckets + (terms.map fun term => term.1 • term.2).sum := by
  induction terms generalizing buckets with
  | nil => simp
  | cons term terms ih =>
    obtain ⟨first, others⟩ := List.forall_mem_cons.mp small
    rw [List.foldl_cons, ih (by simpa using others), weightedSum_addToBucket first,
      List.map_cons, List.sum_cons, add_assoc]

theorem weightedSum_replicate_zero (count : ℕ) :
    weightedSum (List.replicate count (0 : A)) = 0 := by
  induction count with
  | zero => rfl
  | succ count ih =>
    rw [List.replicate_succ, weightedSum, ih, List.sum_replicate, smul_zero, add_zero, add_zero]

/-- The digits' sums, each weighted by its place, are the sum of the multiples. -/
theorem sum_places (w count : ℕ) {rows : List (List ℤ × A)}
    (length : ∀ row ∈ rows, row.1.length = count) :
    ∑ i ∈ Finset.range count, (2 ^ (w * i) : ℤ) • (rows.map fun row => row.1.getD i 0 • row.2).sum =
      (rows.map fun row => signedValue w row.1 • row.2).sum := by
  induction rows with
  | nil => simp
  | cons row rows ih =>
    obtain ⟨first, others⟩ := List.forall_mem_cons.mp length
    rw [List.map_cons, List.sum_cons, ← ih others, signedValue_eq_sum, first, Finset.sum_smul,
      ← Finset.sum_add_distrib]
    refine Finset.sum_congr rfl fun i _ => ?_
    rw [List.map_cons, List.sum_cons, smul_add, smul_smul]

end Buckets

section Slices

variable {α A : Type*} [AddCommMonoid A]

/-- Slices of one length cover a list once. -/
theorem sum_slices (xs : List α) (g : α → A) (len count : ℕ) : ((List.range count).map fun c =>
      (((xs.take (min (min (c * len) xs.length + len) xs.length)).drop
        (min (c * len) xs.length)).map g).sum).sum =
      ((xs.take (min (count * len) xs.length)).map g).sum := by
  induction count with
  | zero => simp
  | succ count ih =>
    rw [List.range_succ, List.map_append, List.sum_append, ih, List.map_singleton,
      List.sum_singleton, ← List.sum_append, ← List.map_append]
    generalize startEq : min (count * len) xs.length = start
    have stop : min ((count + 1) * len) xs.length = min (start + len) xs.length := by
      rw [Nat.succ_mul]
      omega
    have front : xs.take start = (xs.take (min (start + len) xs.length)).take start := by
      rw [List.take_take]
      congr 1
      omega
    rw [stop, front, List.take_append_drop]

/-- The digits' multiples, summed a window and a chunk at a time. -/
theorem sum_windows {A : Type*} [AddCommGroup A] (w windows : ℕ) {chunks chunkLen : ℕ}
    {terms : List (List ℤ × A)} (length : ∀ term ∈ terms, term.1.length = windows)
    (covers : terms.length ≤ chunks * chunkLen) :
    ∑ i ∈ Finset.range windows, (2 ^ (w * i) : ℤ) • ((List.range chunks).map fun c =>
      (((terms.take (min (min ((i * chunks + c) % chunks * chunkLen) terms.length + chunkLen)
        terms.length)).drop (min ((i * chunks + c) % chunks * chunkLen) terms.length)).map
          fun term => term.1.getD ((i * chunks + c) / chunks) 0 • term.2).sum).sum =
      (terms.map fun term => signedValue w term.1 • term.2).sum := by
  rw [← sum_places w windows length]
  refine Finset.sum_congr rfl fun i _ => ?_
  have slices := sum_slices terms (fun term => term.1.getD i 0 • term.2) chunkLen chunks
  rw [min_eq_right covers, List.take_length] at slices
  rw [← slices]
  congr 2
  refine List.map_congr_left fun c member => ?_
  have below := List.mem_range.mp member
  have positive : 0 < chunks := by omega
  have remainder : (i * chunks + c) % chunks = c := by
    rw [Nat.mul_add_mod_self_right, Nat.mod_eq_of_lt below]
  have quotient : (i * chunks + c) / chunks = i := by
    rw [mul_comm, Nat.mul_add_div positive, Nat.div_eq_of_lt below, add_zero]
  rw [remainder, quotient]

end Slices

section Rows

variable {α β : Type}

/-- Rows of one length, read as one list. -/
theorem take_flatten {rows : List (List α)} {width : ℕ}
    (length : ∀ row ∈ rows, row.length = width) (k : ℕ) :
    rows.flatten.take (k * width) = (rows.take k).flatten := by
  induction rows generalizing k with
  | nil => simp
  | cons row rows ih =>
    obtain ⟨first, others⟩ := List.forall_mem_cons.mp length
    cases k with
    | zero => simp
    | succ k =>
      rw [List.flatten_cons, Nat.succ_mul, add_comm, ← first, List.take_length_add_append,
        first, ih others, List.take_succ_cons, List.flatten_cons]

theorem drop_flatten {rows : List (List α)} {width : ℕ}
    (length : ∀ row ∈ rows, row.length = width) (k : ℕ) :
    rows.flatten.drop (k * width) = (rows.drop k).flatten := by
  induction rows generalizing k with
  | nil => simp
  | cons row rows ih =>
    obtain ⟨first, others⟩ := List.forall_mem_cons.mp length
    cases k with
    | zero => simp
    | succ k =>
      rw [List.flatten_cons, Nat.succ_mul, add_comm, ← first, List.drop_length_add_append,
        first, ih others, List.drop_succ_cons]

theorem getElem?_flatten_rows {rows : List (List α)} {width : ℕ}
    (length : ∀ row ∈ rows, row.length = width) {j i : ℕ} (below : j < rows.length)
    (inside : i < width) : rows.flatten[j * width + i]? = rows[j][i]? := by
  have row := length _ (List.getElem_mem below)
  rw [← List.getElem?_drop, drop_flatten length, List.drop_eq_getElem_cons below,
    List.flatten_cons, List.getElem?_append_left (by omega)]

theorem length_flatten_rows {rows : List (List α)} {width : ℕ}
    (length : ∀ row ∈ rows, row.length = width) : rows.flatten.length = rows.length * width := by
  induction rows with
  | nil => simp
  | cons row rows ih =>
    obtain ⟨first, others⟩ := List.forall_mem_cons.mp length
    rw [List.flatten_cons, List.length_append, ih others, first, List.length_cons, Nat.succ_mul,
      add_comm]

/-- One place of related lists replaced on both sides. -/
theorem forall₂_set_modify {holds : α → β → Prop} {left : List α} {right : List β}
    (each : List.Forall₂ holds left right) {k : ℕ} {entry : α} {change : β → β}
    (here : ∀ other, right[k]? = some other → holds entry (change other)) :
    List.Forall₂ holds (left.set k entry) (right.modify k change) := by
  induction each generalizing k with
  | nil =>
    rw [List.set_nil, List.modify_nil]
    exact List.Forall₂.nil
  | cons first rest ih =>
    cases k with
    | zero => exact List.Forall₂.cons (here _ rfl) rest
    | succ k => exact List.Forall₂.cons first (ih here)

end Rows

end Apogee.Math
