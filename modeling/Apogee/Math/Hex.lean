import Apogee.Math.Text
import Mathlib.Tactic.IntervalCases

/-! # Bytes as text

UTF-8 text and its slices by byte offset, and bytes written as two hexadecimal digits each.
-/

namespace Apogee.Math

/-! ## Text in bytes -/

/-- The bytes of a text. -/
def asBytes (text : List Char) : List UInt8 := text.flatMap String.utf8EncodeChar

/-- The text a byte string holds, if it is UTF-8. -/
def fromUtf8 (bytes : List UInt8) : Option (List Char) :=
  bytes.toByteArray.utf8Decode?.map Array.toList

/-- A text's length in bytes. -/
def byteLength (text : List Char) : ℕ := (text.map Char.utf8Size).sum

/-- A text's first `n` bytes and the rest; none inside a character or past the end. -/
def splitBytes : List Char → ℕ → Option (List Char × List Char)
  | text, 0 => some ([], text)
  | [], _ + 1 => none
  | c :: rest, n + 1 =>
    if c.utf8Size ≤ n + 1 then
      (splitBytes rest (n + 1 - c.utf8Size)).map fun parts => (c :: parts.1, parts.2)
    else none

/-- The text between two byte offsets; none where the slice panics. -/
def slice (text : List Char) (start stop : ℕ) : Option (List Char) :=
  if start ≤ stop then
    (splitBytes text start).bind fun parts => (splitBytes parts.2 (stop - start)).map Prod.fst
  else none

/-- A text without the white space at its ends. -/
def trim (text : List Char) : List Char :=
  ((text.dropWhile isWhitespace).reverse.dropWhile isWhitespace).reverse

/-- The bytes of a text are the only ones that hold it. -/
theorem fromUtf8_eq_some {bytes : List UInt8} {text : List Char} :
    fromUtf8 bytes = some text ↔ bytes = asBytes text := by
  unfold fromUtf8
  constructor
  · intro decoded
    obtain ⟨chars, found, rfl⟩ := Option.map_eq_some_iff.mp decoded
    obtain ⟨whole, encoded⟩ := ByteArray.isSome_utf8Decode?_iff.mp (Option.isSome_of_mem found)
    rw [encoded, List.utf8Decode?_utf8Encode] at found
    cases found
    have same := congrArg ByteArray.data encoded
    rw [List.utf8Encode, List.data_toByteArray, List.data_toByteArray] at same
    exact List.toArray_inj same
  · intro same
    have decoded : text.utf8Encode.utf8Decode? = some text.toArray := List.utf8Decode?_utf8Encode
    rw [List.utf8Encode] at decoded
    rw [same, asBytes, decoded]
    rfl

theorem length_asBytes (text : List Char) : (asBytes text).length = byteLength text := by
  induction text with
  | nil => rfl
  | cons c rest ih =>
    unfold asBytes byteLength at *
    rw [List.flatMap_cons, List.length_append, ih, String.length_utf8EncodeChar, List.map_cons,
      List.sum_cons]

theorem byteLength_append (front back : List Char) :
    byteLength (front ++ back) = byteLength front + byteLength back := by
  rw [byteLength, List.map_append, List.sum_append]
  rfl

theorem byteLength_cons (c : Char) (rest : List Char) :
    byteLength (c :: rest) = c.utf8Size + byteLength rest := by
  rw [byteLength, List.map_cons, List.sum_cons]
  rfl

theorem splitBytes_append (front back : List Char) :
    splitBytes (front ++ back) (byteLength front) = some (front, back) := by
  induction front with
  | nil => cases back <;> rfl
  | cons c rest ih =>
    have wide := c.utf8Size_pos
    obtain ⟨n, size⟩ : ∃ n, c.utf8Size + byteLength rest = n + 1 :=
      ⟨c.utf8Size + byteLength rest - 1, by omega⟩
    rw [List.cons_append, byteLength_cons, size, splitBytes, if_pos (by omega), ← size,
      Nat.add_sub_cancel_left, ih]
    rfl

theorem slice_append (front text back : List Char) :
    slice (front ++ (text ++ back)) (byteLength front) (byteLength front + byteLength text) =
      some text := by
  rw [slice, if_pos (Nat.le_add_right _ _), splitBytes_append, Option.bind_some,
    Nat.add_sub_cancel_left, splitBytes_append]
  rfl

theorem splitBytes_eq_some {text front rest : List Char} {n : ℕ}
    (found : splitBytes text n = some (front, rest)) :
    text = front ++ rest ∧ byteLength front = n := by
  induction text, n using splitBytes.induct generalizing front with
  | case1 text => cases text <;> cases found <;> exact ⟨rfl, rfl⟩
  | case2 n => cases found
  | case3 c text n inside ih =>
    rw [splitBytes, if_pos inside] at found
    obtain ⟨parts, shorter, same⟩ := Option.map_eq_some_iff.mp found
    cases same
    obtain ⟨rfl, size⟩ := ih shorter
    refine ⟨rfl, ?_⟩
    rw [byteLength_cons, size]
    omega
  | case4 c text n cut =>
    rw [splitBytes, if_neg cut] at found
    cases found

/-- What a slice is of its text. -/
theorem slice_eq_some {text mid : List Char} {start stop : ℕ}
    (found : slice text start stop = some mid) :
    ∃ front back, text = front ++ (mid ++ back) ∧ byteLength front = start ∧
      byteLength mid = stop - start := by
  unfold slice at found
  split at found
  · obtain ⟨⟨front, rest⟩, first, found⟩ := Option.bind_eq_some_iff.mp found
    obtain ⟨⟨_, back⟩, second, rfl⟩ := Option.map_eq_some_iff.mp found
    obtain ⟨rfl, size⟩ := splitBytes_eq_some first
    obtain ⟨rest, inner⟩ := splitBytes_eq_some second
    dsimp only at rest
    exact ⟨front, back, rest ▸ rfl, size, inner⟩
  · cases found

/-- A word is what trimming leaves of it before white space. -/
theorem trim_append {word trail : List Char} (isWord : IsWord word)
    (after : ∀ c ∈ trail, isWhitespace c = true) : trim (word ++ trail) = word := by
  obtain ⟨present, plain⟩ := isWord
  unfold trim
  obtain ⟨c, rest, rfl⟩ := List.exists_cons_of_ne_nil present
  have first := plain c List.mem_cons_self
  rw [List.cons_append, List.dropWhile_cons_of_neg (by rw [first]; exact Bool.false_ne_true),
    ← List.cons_append, List.reverse_append, List.dropWhile_append_of_pos fun d member =>
      after d (List.mem_reverse.mp member)]
  cases backward : (c :: rest).reverse with
  | nil => exact absurd backward (by simp)
  | cons d others =>
    have last := plain d (List.mem_reverse.mp (backward ▸ List.mem_cons_self))
    rw [List.dropWhile_cons_of_neg (by rw [last]; exact Bool.false_ne_true), ← backward,
      List.reverse_reverse]

/-! ## Hexadecimal digits -/

/-- A digit of either case. -/
def hexDigit (c : Char) : Option ℕ :=
  if 48 ≤ c.toNat ∧ c.toNat ≤ 57 then some (c.toNat - 48)
  else if 97 ≤ c.toNat ∧ c.toNat ≤ 102 then some (c.toNat - 87)
  else if 65 ≤ c.toNat ∧ c.toNat ≤ 70 then some (c.toNat - 55)
  else none

/-- A byte's two lowercase digits. -/
def hexPair (byte : UInt8) : List Char :=
  [Nat.digitChar (byte.toNat / 16), Nat.digitChar (byte.toNat % 16)]

/-- Bytes as lowercase digits. -/
def hexText (bytes : List UInt8) : List Char := bytes.flatMap hexPair

/-- A digit's value, and the digit once its case is put down. -/
theorem hexDigit_eq_some {c : Char} {x : ℕ} (digit : hexDigit c = some x) :
    x < 16 ∧ c.toLower = Nat.digitChar x := by
  unfold hexDigit at digit
  obtain ⟨code, known⟩ : ∃ code, c.toNat = code := ⟨_, rfl⟩
  have char : c = Char.ofNat code := by rw [← known, Char.ofNat_toNat]
  rw [known] at digit
  subst char
  clear known
  by_cases decimal : 48 ≤ code ∧ code ≤ 57
  · obtain ⟨least, most⟩ := decimal
    interval_cases code <;> cases digit <;> exact ⟨by norm_num, rfl⟩
  · by_cases small : 97 ≤ code ∧ code ≤ 102
    · obtain ⟨least, most⟩ := small
      interval_cases code <;> cases digit <;> exact ⟨by norm_num, rfl⟩
    · by_cases capital : 65 ≤ code ∧ code ≤ 70
      · obtain ⟨least, most⟩ := capital
        interval_cases code <;> cases digit <;> exact ⟨by norm_num, rfl⟩
      · rw [if_neg decimal, if_neg small, if_neg capital] at digit
        cases digit

theorem hexDigit_digitChar {x : ℕ} (small : x < 16) : hexDigit (Nat.digitChar x) = some x := by
  interval_cases x <;> rfl

theorem utf8Size_hexDigit {c : Char} {x : ℕ} (digit : hexDigit c = some x) : c.utf8Size = 1 := by
  have low : c.toNat < 128 := by
    unfold hexDigit at digit
    split_ifs at digit <;> omega
  exact Char.utf8Size_eq_one_iff.mpr (UInt32.le_iff_toNat_le.mpr (Nat.lt_succ_iff.mp low))

/-- The digits of a number's text, a sign before them left out. -/
def digitsOf : List Char → List Char
  | '+' :: c :: rest => c :: rest
  | text => text

/-- A further digit of an 8-bit number. -/
def furtherHexDigit (value : ℕ) (c : Char) : Option ℕ := do
  let digit ← hexDigit c
  if value * 16 + digit < 256 then some (value * 16 + digit) else none

/-- `u8::from_str_radix` in base sixteen, which takes a sign. -/
def fromStrRadix (text : List Char) : Option UInt8 :=
  if digitsOf text = [] then none
  else ((digitsOf text).foldlM furtherHexDigit 0).map UInt8.ofNat

/-- A text is the digits of bytes, of either case. -/
structure Spells (text : List Char) (bytes : List UInt8) : Prop where
  lower : text.map Char.toLower = hexText bytes
  digits : ∀ c ∈ text, (hexDigit c).isSome

theorem Spells.append {first second : List Char} {xs ys : List UInt8} (left : Spells first xs)
    (right : Spells second ys) : Spells (first ++ second) (xs ++ ys) where
  lower := by rw [List.map_append, left.lower, right.lower, hexText, hexText, hexText,
    List.flatMap_append]
  digits c member := (List.mem_append.mp member).elim (left.digits c) (right.digits c)

theorem digitsOf_eq {text : List Char} (unsigned : text.head? ≠ some '+') :
    digitsOf text = text := by
  unfold digitsOf
  split
  · exact absurd rfl unsigned
  · rfl

theorem furtherHexDigit_eq_some {value next : ℕ} {c : Char} : furtherHexDigit value c = some next ↔
      ∃ digit, hexDigit c = some digit ∧ next = value * 16 + digit ∧ next < 256 := by
  unfold furtherHexDigit
  constructor
  · intro read
    obtain ⟨digit, found, read⟩ := Option.bind_eq_some_iff.mp read
    split at read
    · cases read
      exact ⟨digit, found, rfl, ‹_›⟩
    · cases read
  · rintro ⟨digit, found, rfl, fits⟩
    exact Option.bind_eq_some_iff.mpr ⟨digit, found, if_pos fits⟩

/-- Two bytes of text without a sign are read as a byte where they are its two digits. -/
theorem fromStrRadix_pair {pair : List Char} {byte : UInt8} (size : byteLength pair = 2)
    (unsigned : pair.head? ≠ some '+') (parsed : fromStrRadix pair = some byte) :
    Spells pair [byte] := by
  rw [fromStrRadix, digitsOf_eq unsigned] at parsed
  rcases pair with _ | ⟨c, _ | ⟨d, _ | ⟨e, rest⟩⟩⟩
  · cases size
  · obtain ⟨value, read, -⟩ := Option.map_eq_some_iff.mp parsed
    obtain ⟨next, read, -⟩ := Option.bind_eq_some_iff.mp read
    obtain ⟨digit, found, -⟩ := furtherHexDigit_eq_some.mp read
    have one := utf8Size_hexDigit found
    rw [byteLength_cons, one] at size
    cases size
  · obtain ⟨value, read, rfl⟩ := Option.map_eq_some_iff.mp parsed
    obtain ⟨high, readHigh, read⟩ := Option.bind_eq_some_iff.mp read
    obtain ⟨low, readLow, same⟩ := Option.bind_eq_some_iff.mp read
    cases same
    obtain ⟨x, foundX, rfl, -⟩ := furtherHexDigit_eq_some.mp readHigh
    obtain ⟨y, foundY, rfl, fits⟩ := furtherHexDigit_eq_some.mp readLow
    obtain ⟨-, lowerX⟩ := hexDigit_eq_some foundX
    obtain ⟨small, lowerY⟩ := hexDigit_eq_some foundY
    have value : (UInt8.ofNat ((0 * 16 + x) * 16 + y)).toNat = x * 16 + y := by
      rw [UInt8.toNat_ofNat_of_lt' fits, Nat.zero_mul, Nat.zero_add]
    constructor
    · rw [hexText, List.flatMap_singleton, hexPair, value, List.map_cons, List.map_cons, lowerX,
        lowerY, List.map_nil]
      congr 2
      · omega
      · congr 1
        omega
    · intro e member
      rcases List.mem_cons.mp member with rfl | member
      · exact Option.isSome_of_mem foundX
      · rw [List.mem_singleton.mp member]
        exact Option.isSome_of_mem foundY
  · rw [byteLength_cons, byteLength_cons, byteLength_cons] at size
    have first := c.utf8Size_pos
    have second := d.utf8Size_pos
    have third := e.utf8Size_pos
    omega

theorem unsigned_hexPair (byte : UInt8) : (hexPair byte).head? ≠ some '+' := by
  intro sign
  have digit := hexDigit_digitChar (x := byte.toNat / 16) (by have := byte.toNat_lt; omega)
  rw [Option.some.inj sign] at digit
  cases digit

theorem fromStrRadix_hexPair (byte : UInt8) : fromStrRadix (hexPair byte) = some byte := by
  have whole := byte.toNat_lt
  have high : hexDigit (Nat.digitChar (byte.toNat / 16)) = some (byte.toNat / 16) :=
    hexDigit_digitChar (by omega)
  have low : hexDigit (Nat.digitChar (byte.toNat % 16)) = some (byte.toNat % 16) :=
    hexDigit_digitChar (by omega)
  rw [fromStrRadix, digitsOf_eq (unsigned_hexPair byte), hexPair, if_neg (List.cons_ne_nil _ _),
    List.foldlM_cons, furtherHexDigit_eq_some.mpr ⟨_, high, rfl, by omega⟩, Option.bind_eq_bind,
    Option.bind_some, List.foldlM_cons, furtherHexDigit_eq_some.mpr ⟨_, low, rfl, by omega⟩,
    Option.bind_eq_bind, Option.bind_some, List.foldlM_nil]
  refine congrArg some ?_
  rw [Nat.zero_mul, Nat.zero_add, Nat.div_add_mod', UInt8.ofNat_toNat]

theorem byteLength_hexText (bytes : List UInt8) :
    byteLength (hexText bytes) = 2 * bytes.length := by
  induction bytes with
  | nil => rfl
  | cons byte rest ih =>
    have whole := byte.toNat_lt
    rw [hexText, List.flatMap_cons, ← hexText, byteLength_append, ih, hexPair, byteLength_cons,
      byteLength_cons, utf8Size_hexDigit (hexDigit_digitChar (by omega)),
      utf8Size_hexDigit (hexDigit_digitChar (by omega)), List.length_cons]
    have none : byteLength [] = 0 := rfl
    omega

theorem byteLength_hexPair (byte : UInt8) : byteLength (hexPair byte) = 2 := by
  have alone := byteLength_hexText [byte]
  rwa [hexText, List.flatMap_singleton] at alone

theorem length_hexText (bytes : List UInt8) : (hexText bytes).length = 2 * bytes.length := by
  induction bytes with
  | nil => rfl
  | cons byte rest ih =>
    rw [hexText, List.flatMap_cons, ← hexText, List.length_append, ih, List.length_cons]
    exact Nat.add_comm 2 _

/-- Digits are no white space. -/
theorem plain_hexText {bytes : List UInt8} {c : Char} (member : c ∈ hexText bytes) :
    isWhitespace c = false := by
  obtain ⟨byte, -, pair⟩ := List.mem_flatMap.mp member
  have whole := byte.toNat_lt
  have digit : ∃ x < 16, c = Nat.digitChar x := by
    rcases List.mem_cons.mp pair with rfl | pair
    · exact ⟨_, by omega, rfl⟩
    · exact ⟨byte.toNat % 16, by omega, List.mem_singleton.mp pair⟩
  obtain ⟨x, small, rfl⟩ := digit
  interval_cases x <;> rfl

end Apogee.Math
