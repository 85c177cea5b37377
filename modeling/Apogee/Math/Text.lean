import Mathlib.Algebra.Order.Ring.Nat
import Mathlib.Data.List.TakeWhile

/-! # Text of numbers

Lines of words, and unsigned numbers in decimal: each read back as it was written.
-/

namespace Apogee.Math

/-! ## Words -/

/-- White space, by its code points. -/
def isWhitespace (c : Char) : Bool :=
  (9 ≤ c.toNat && c.toNat ≤ 13) || c.toNat = 32 || c.toNat = 0x85 || c.toNat = 0xa0 ||
    c.toNat = 0x1680 || (0x2000 ≤ c.toNat && c.toNat ≤ 0x200a) || c.toNat = 0x2028 ||
    c.toNat = 0x2029 || c.toNat = 0x202f || c.toNat = 0x205f || c.toNat = 0x3000

/-- The words of a line, white space between them. -/
def splitWhitespace (line : List Char) : List (List Char) :=
  match _found : line.dropWhile isWhitespace with
  | [] => []
  | first :: rest =>
    (first :: rest.takeWhile (!isWhitespace ·)) :: splitWhitespace (rest.dropWhile (!isWhitespace ·))
termination_by line.length
decreasing_by
  have shorter := (List.dropWhile_suffix (l := line) isWhitespace).length_le
  have rest' := (List.dropWhile_suffix (l := rest) (!isWhitespace ·)).length_le
  rw [_found, List.length_cons] at shorter
  omega

/-- A word: at least one character, and none of them white space. -/
def IsWord (word : List Char) : Prop := word ≠ [] ∧ ∀ c ∈ word, isWhitespace c = false

variable {word rest : List Char}

theorem isWord_of_all (present : word ≠ []) (each : word.all (!isWhitespace ·) = true) : IsWord word :=
  ⟨present, fun c member => Bool.not_eq_true' _ ▸ List.all_eq_true.mp each c member⟩

theorem splitWhitespace_nil : splitWhitespace [] = [] := by
  rw [splitWhitespace]
  rfl

/-- A word and what follows the white space after it. -/
theorem splitWhitespace_append (whole : IsWord word)
    (ends : ∀ c ∈ rest.head?, isWhitespace c = true) :
    splitWhitespace (word ++ rest) = word :: splitWhitespace rest := by
  obtain ⟨some, plain⟩ := whole
  cases word with
  | nil => exact absurd rfl some
  | cons first word =>
    obtain ⟨here, plain⟩ := List.forall_mem_cons.mp plain
    have kept : (word ++ rest).takeWhile (!isWhitespace ·) = word := by
      rw [List.takeWhile_append_of_pos fun c member => by rw [plain c member]; rfl]
      cases rest with
      | nil => rw [List.takeWhile_nil, List.append_nil]
      | cons c rest =>
        rw [List.takeWhile_cons_of_neg (by rw [ends c rfl]; decide), List.append_nil]
    have left : (word ++ rest).dropWhile (!isWhitespace ·) = rest := by
      rw [List.dropWhile_append_of_pos fun c member => by rw [plain c member]; rfl]
      cases rest with
      | nil => rfl
      | cons c rest => exact List.dropWhile_cons_of_neg (by rw [ends c rfl]; decide)
    rw [splitWhitespace, List.cons_append, List.dropWhile_cons_of_neg (by rw [here]; decide)]
    dsimp only
    rw [kept, left]

/-- Leading white space is no word. -/
theorem splitWhitespace_space (rest : List Char) :
    splitWhitespace (' ' :: rest) = splitWhitespace rest := by
  rw [splitWhitespace, List.dropWhile_cons_of_pos (by decide), splitWhitespace.eq_def rest]

theorem splitWhitespace_cons (whole : IsWord word) (rest : List Char) :
    splitWhitespace (word ++ ' ' :: rest) = word :: splitWhitespace rest := by
  rw [splitWhitespace_append whole (by intro c found; cases found; decide), splitWhitespace_space]

theorem splitWhitespace_single (whole : IsWord word) : splitWhitespace word = [word] := by
  have alone := @splitWhitespace_append word [] whole (by intro c found; cases found)
  rwa [List.append_nil, splitWhitespace_nil] at alone

/-- Words with one space between them. -/
theorem splitWhitespace_intercalate {list : List (List Char)} (each : ∀ word ∈ list, IsWord word) :
    splitWhitespace (List.intercalate [' '] list) = list := by
  induction list with
  | nil => exact splitWhitespace_nil
  | cons word list ih =>
    obtain ⟨here, each⟩ := List.forall_mem_cons.mp each
    cases list with
    | nil =>
      rw [List.intercalate_singleton]
      exact splitWhitespace_single here
    | cons next list =>
      rw [List.intercalate_cons_cons, List.append_assoc, List.singleton_append,
        splitWhitespace_cons here,
        ih each]

/-! ## Lines -/

/-- A line that ended, without the carriage return before its end. -/
def withoutReturn (line : List Char) : List Char :=
  if line.getLast? = some '\r' then line.dropLast else line

/-- The lines of a text; one that nothing follows need not end. -/
def lines (text : List Char) : List (List Char) :=
  if text = [] then []
  else
    let line := text.takeWhile (· ≠ '\n')
    match _found : text.dropWhile (· ≠ '\n') with
    | [] => [line]
    | _ :: rest => withoutReturn line :: lines rest
termination_by text.length
decreasing_by
  have shorter := (List.dropWhile_suffix (l := text) (· ≠ '\n')).length_le
  rw [_found, List.length_cons] at shorter
  omega

theorem lines_nil : lines [] = [] := by rw [lines, if_pos rfl]

theorem lines_cons {line : List Char} (plain : ∀ c ∈ line, c ≠ '\n' ∧ c ≠ '\r') (rest : List Char) :
    lines (line ++ '\n' :: rest) = line :: lines rest := by
  have kept : (line ++ '\n' :: rest).takeWhile (· ≠ '\n') = line := by
    rw [List.takeWhile_append_of_pos fun c member => decide_eq_true (plain c member).1,
      List.takeWhile_cons_of_neg (by decide), List.append_nil]
  have left : (line ++ '\n' :: rest).dropWhile (· ≠ '\n') = '\n' :: rest := by
    rw [List.dropWhile_append_of_pos fun c member => decide_eq_true (plain c member).1]
    exact List.dropWhile_cons_of_neg (by decide)
  have returned : withoutReturn line = line := by
    refine if_neg fun last => ?_
    exact (plain _ (List.mem_of_getLast? last)).2 rfl
  have some : line ++ '\n' :: rest ≠ [] := List.append_ne_nil_of_right_ne_nil _ (List.cons_ne_nil _ _)
  rw [lines, if_neg some, left]
  dsimp only
  rw [kept, returned]

/-! ## Decimal -/

def digitChar (d : ℕ) : Char := Char.ofNat (48 + d)

/-- A number in decimal, without leading zeros. -/
def decimal (n : ℕ) : List Char :=
  if n < 10 then [digitChar n] else decimal (n / 10) ++ [digitChar (n % 10)]

def digitValue (c : Char) : Option ℕ :=
  if 48 ≤ c.toNat ∧ c.toNat ≤ 57 then some (c.toNat - 48) else none

/-- One more digit of a number of `width` bits. -/
def furtherDigit (width value : ℕ) (c : Char) : Option ℕ := do
  let d ← digitValue c
  if value * 10 + d < 2 ^ width then some (value * 10 + d) else none

/-- A number of `width` bits from its text, which may have a plus in front. -/
def parseDecimal (width : ℕ) (text : List Char) : Option ℕ :=
  let digits := if text.head? = some '+' then text.drop 1 else text
  if digits = [] then none else digits.foldlM (furtherDigit width) 0

theorem digitChar_toNat {d : ℕ} (small : d < 10) : (digitChar d).toNat = 48 + d := by
  have each : ∀ d < 10, (digitChar d).toNat = 48 + d := by decide
  exact each d small

theorem digitValue_digitChar {d : ℕ} (small : d < 10) : digitValue (digitChar d) = some d := by
  rw [digitValue, digitChar_toNat small, if_pos (by omega), Nat.add_sub_cancel_left]

theorem decimal_ne_nil (n : ℕ) : decimal n ≠ [] := by
  rw [decimal]
  by_cases small : n < 10
  · rw [if_pos small]
    exact List.cons_ne_nil _ _
  · rw [if_neg small]
    exact List.append_ne_nil_of_right_ne_nil _ (List.cons_ne_nil _ _)

/-- Every character of a number is a digit. -/
theorem decimal_digits (n : ℕ) : ∀ c ∈ decimal n, 48 ≤ c.toNat ∧ c.toNat ≤ 57 := by
  induction n using Nat.strong_induction_on with
  | _ n ih =>
    rw [decimal]
    by_cases small : n < 10
    · rw [if_pos small, List.forall_mem_singleton, digitChar_toNat small]
      omega
    · rw [if_neg small]
      refine List.forall_mem_append.mpr ⟨ih (n / 10) (by omega), List.forall_mem_singleton.mpr ?_⟩
      rw [digitChar_toNat (Nat.mod_lt n (by decide))]
      omega

/-- A digit is no white space, and ends no line. -/
theorem digit_plain {c : Char} (digit : 48 ≤ c.toNat ∧ c.toNat ≤ 57) :
    isWhitespace c = false ∧ c ≠ '\n' ∧ c ≠ '\r' ∧ c ≠ '+' := by
  obtain ⟨low, high⟩ := digit
  refine ⟨?_, ?_, ?_, ?_⟩
  · simp only [isWhitespace, Bool.or_eq_false_iff, Bool.and_eq_false_iff, decide_eq_false_iff_not]
    omega
  · rintro rfl
    exact absurd low (by decide)
  · rintro rfl
    exact absurd low (by decide)
  · rintro rfl
    exact absurd low (by decide)

theorem decimal_isWord (n : ℕ) : IsWord (decimal n) :=
  ⟨decimal_ne_nil n, fun c member => (digit_plain (decimal_digits n c member)).1⟩

theorem foldlM_decimal {width n : ℕ} (fits : n < 2 ^ width) :
    (decimal n).foldlM (furtherDigit width) 0 = some n := by
  induction n using Nat.strong_induction_on with
  | _ n ih =>
    rw [decimal]
    by_cases small : n < 10
    · rw [if_pos small, List.foldlM_cons, furtherDigit, digitValue_digitChar small,
        Option.bind_eq_bind, Option.bind_some, Nat.zero_mul, Nat.zero_add, if_pos fits]
      rfl
    · have rest := ih (n / 10) (by omega) ((Nat.div_le_self n 10).trans_lt fits)
      rw [if_neg small, List.foldlM_append, rest, Option.bind_eq_bind, Option.bind_some,
        List.foldlM_cons, furtherDigit, digitValue_digitChar (Nat.mod_lt n (by decide)),
        Option.bind_eq_bind, Option.bind_some, Nat.div_add_mod', if_pos fits]
      rfl

/-- A number is read back as it was written. -/
theorem parseDecimal_decimal {width n : ℕ} (fits : n < 2 ^ width) :
    parseDecimal width (decimal n) = some n := by
  have unsigned : (decimal n).head? ≠ some '+' := fun plus =>
    (digit_plain (decimal_digits n _ (List.mem_of_mem_head? plus))).2.2.2 rfl
  rw [parseDecimal, if_neg unsigned, if_neg (decimal_ne_nil n), foldlM_decimal fits]

end Apogee.Math
