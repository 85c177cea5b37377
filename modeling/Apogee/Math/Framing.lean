import Mathlib.Data.List.Basic
import Mathlib.Tactic.Linarith

/-! # Self-delimiting encodings

A sequence of messages is read back one at a time when each says where it ends.
`Framed` is that property; it composes over lists, so the reading of a long
script is the reading of its messages.
-/

namespace Apogee.Math

variable {α β σ : Type}

/-- An encoding that determines both its value and what follows it. -/
def Framed (fits : α → Prop) (encode : α → List σ) : Prop :=
  ∀ x y rest rest', fits x → fits y → encode x ++ rest = encode y ++ rest' → x = y ∧ rest = rest'

variable {fits : α → Prop} {encode : α → List σ}

/-- A framed encoding is injective. -/
theorem Framed.injective (framed : Framed fits encode) {x y : α} (fitsX : fits x) (fitsY : fits y)
    (same : encode x = encode y) : x = y :=
  (framed x y [] [] fitsX fitsY (by rw [same])).1

/-- An injective encoding of one length is framed. -/
theorem Framed.ofLength {n : ℕ} (length : ∀ x, fits x → (encode x).length = n)
    (injective : ∀ x y, fits x → fits y → encode x = encode y → x = y) : Framed fits encode := by
  intro x y rest rest' fitsX fitsY same
  obtain ⟨values, rests⟩ := List.append_inj same ((length x fitsX).trans (length y fitsY).symm)
  exact ⟨injective x y fitsX fitsY values, rests⟩

/-- As many framed values in a row. -/
theorem Framed.flatMap (framed : Framed fits encode) :
    ∀ (xs ys : List α) (rest rest' : List σ), xs.length = ys.length → (∀ x ∈ xs, fits x) →
      (∀ y ∈ ys, fits y) → xs.flatMap encode ++ rest = ys.flatMap encode ++ rest' →
      xs = ys ∧ rest = rest'
  | [], [], _, _, _, _, _, same => ⟨rfl, same⟩
  | x :: xs, y :: ys, rest, rest', lengths, fitsX, fitsY, same => by
    rw [List.flatMap_cons, List.flatMap_cons, List.append_assoc, List.append_assoc] at same
    obtain ⟨heads, tails⟩ := framed x y _ _ (fitsX x List.mem_cons_self)
      (fitsY y List.mem_cons_self) same
    obtain ⟨others, rests⟩ := flatMap framed xs ys rest rest' (Nat.succ.inj lengths)
      (fun z member => fitsX z (List.mem_cons_of_mem _ member))
      (fun z member => fitsY z (List.mem_cons_of_mem _ member)) tails
    exact ⟨by rw [heads, others], rests⟩

/-- Consecutive runs of `n` values, the last one possibly shorter. -/
def chunks (n : ℕ) (xs : List α) : List (List α) :=
  if xs = [] ∨ n = 0 then [] else xs.take n :: chunks n (xs.drop n)
termination_by xs.length
decreasing_by
  rename_i present
  obtain ⟨some, positive⟩ := not_or.mp present
  rw [List.length_drop]
  exact Nat.sub_lt (List.length_pos_iff.mpr some) (Nat.pos_of_ne_zero positive)

@[simp]
theorem chunks_nil (n : ℕ) : chunks n ([] : List α) = [] := by
  rw [chunks, if_pos (Or.inl rfl)]

theorem flatten_chunks {n : ℕ} (positive : 0 < n) (xs : List α) : (chunks n xs).flatten = xs := by
  induction xs using chunks.induct n with
  | case1 xs stops =>
    rw [chunks, if_pos stops, List.flatten_nil, stops.resolve_right positive.ne']
  | case2 xs continues ih =>
    rw [chunks, if_neg continues, List.flatten_cons, ih, List.take_append_drop]

/-- A chunk is not empty, and no longer than `n`. -/
theorem mem_chunks {n : ℕ} {xs run : List α} (member : run ∈ chunks n xs) :
    run ≠ [] ∧ run.length ≤ n := by
  induction xs using chunks.induct n with
  | case1 xs stops =>
    rw [chunks, if_pos stops] at member
    exact absurd member List.not_mem_nil
  | case2 xs continues ih =>
    obtain ⟨present, positive⟩ := not_or.mp continues
    rw [chunks, if_neg continues] at member
    rcases List.mem_cons.mp member with rfl | later
    · exact ⟨fun none => (List.take_eq_nil_iff.mp none).elim positive present, List.length_take_le n xs⟩
    · exact ih later

theorem chunks_length_le (n : ℕ) (xs : List α) : (chunks n xs).length ≤ xs.length := by
  induction xs using chunks.induct n with
  | case1 xs stops =>
    rw [chunks, if_pos stops]
    exact Nat.zero_le _
  | case2 xs continues ih =>
    have present := List.length_pos_iff.mpr (not_or.mp continues).1
    rw [List.length_drop] at ih
    rw [chunks, if_neg continues, List.length_cons]
    omega

/-- Chunks of two at least are fewer than what they group. -/
theorem chunks_length_lt {n : ℕ} (two : 2 ≤ n) {xs : List α} (more : 1 < xs.length) :
    (chunks n xs).length < xs.length := by
  have continues : ¬(xs = [] ∨ n = 0) := by
    rintro (rfl | rfl)
    · exact absurd more (Nat.not_lt_zero 1)
    · exact absurd two (by decide)
  have rest := chunks_length_le n (xs.drop n)
  rw [List.length_drop] at rest
  rw [chunks, if_neg continues, List.length_cons]
  omega

/-- All chunks but the last are full. -/
theorem chunks_length_mul_lt {n : ℕ} (positive : 0 < n) {xs : List α} (present : xs ≠ []) :
    ((chunks n xs).length - 1) * n < xs.length := by
  induction xs using chunks.induct n with
  | case1 xs stops => exact absurd (stops.resolve_right positive.ne') present
  | case2 xs continues ih =>
    have some := List.length_pos_iff.mpr present
    rw [chunks, if_neg continues, List.length_cons, Nat.add_sub_cancel]
    by_cases last : xs.drop n = []
    · rw [last, chunks_nil, List.length_nil, Nat.zero_mul]
      exact some
    · have rest := ih last
      have full : n < xs.length := Nat.not_le.mp fun short => last (List.drop_of_length_le short)
      rw [List.length_drop] at rest
      rcases Nat.eq_zero_or_pos (chunks n (xs.drop n)).length with zero | more
      · rw [zero, Nat.zero_mul]
        exact some
      · obtain ⟨count, counted⟩ := Nat.exists_eq_add_of_le' more
        rw [counted, Nat.add_sub_cancel] at rest
        rw [counted, Nat.succ_mul]
        omega

/-- The number of chunks is the length's. -/
theorem chunks_length {n : ℕ} (positive : 0 < n) :
    ∀ xs ys : List α, xs.length = ys.length → (chunks n xs).length = (chunks n ys).length := by
  intro xs
  induction xs using chunks.induct n with
  | case1 xs none =>
    intro ys lengths
    have empty : xs = [] := none.resolve_right positive.ne'
    rw [empty] at lengths ⊢
    rw [List.length_eq_zero_iff.mp lengths.symm]
  | case2 xs present ih =>
    intro ys lengths
    have other : ¬(ys = [] ∨ n = 0) := by
      rintro (empty | zero)
      · rw [empty] at lengths
        exact present (Or.inl (List.length_eq_zero_iff.mp lengths))
      · exact positive.ne' zero
    rw [chunks, if_neg present, chunks.eq_def n ys, if_neg other, List.length_cons,
      List.length_cons, ih (ys.drop n) (by rw [List.length_drop, List.length_drop, lengths])]

/-- Lists of one length are told apart by any encoding that tells their chunks apart. -/
theorem chunks_inj {n : ℕ} (positive : 0 < n) {encode : List α → β}
    (injective : ∀ xs ys : List α, xs.length ≤ n → xs.length = ys.length →
      encode xs = encode ys → xs = ys) :
    ∀ xs ys : List α, xs.length = ys.length →
      (chunks n xs).map encode = (chunks n ys).map encode → xs = ys := by
  intro xs
  induction xs using chunks.induct n with
  | case1 xs none =>
    intro ys lengths _
    have empty : xs = [] := none.resolve_right positive.ne'
    rw [empty] at lengths ⊢
    exact (List.length_eq_zero_iff.mp lengths.symm).symm
  | case2 xs present ih =>
    intro ys lengths same
    have other : ¬(ys = [] ∨ n = 0) := by
      rintro (empty | zero)
      · rw [empty] at lengths
        exact present (Or.inl (List.length_eq_zero_iff.mp lengths))
      · exact positive.ne' zero
    rw [chunks, if_neg present, chunks.eq_def n ys, if_neg other, List.map_cons, List.map_cons,
      List.cons.injEq] at same
    have heads : xs.take n = ys.take n := by
      apply injective _ _ (List.length_take_le n xs) _ same.1
      rw [List.length_take, List.length_take, lengths]
    have tails : xs.drop n = ys.drop n := by
      apply ih _ _ same.2
      rw [List.length_drop, List.length_drop, lengths]
    rw [← List.take_append_drop n xs, ← List.take_append_drop n ys, heads, tails]

end Apogee.Math
