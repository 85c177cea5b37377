import Apogee.Verifier.Wire

/-! # The trie's codec

Recursive length prefixes, written minimally and read strictly: a one-byte string
below `0x80` is never wrapped, a length that fits the short form is never written
long, no length and no integer has a leading zero. Lengths are the guest's `usize`,
four bytes wide, and every sum of them is checked.
-/

namespace Apogee

/-- A 32-byte word. -/
abbrev Word32 := FixedBytes 32

namespace Rlp

open Apogee.Math

/-- A fixed-width integer's bytes, high first. -/
def beBytes (n x : ℕ) : List UInt8 := (leBytes n x).reverse

/-! ## Writing -/

/-- A string or list header for a payload of `len` bytes. -/
def encodeHeader (len : ℕ) (short : UInt8) : List UInt8 :=
  if len ≤ 55 then [short + UInt8.ofNat len]
  else
    let be := (beBytes 8 len).dropWhile (· == 0)
    (short + 55 + UInt8.ofNat be.length) :: be

def encodeBytes (payload : List UInt8) : List UInt8 :=
  if payload.length = 1 ∧ payload.all (· < 0x80) then payload
  else encodeHeader payload.length 0x80 ++ payload

/-- A list whose payload is its items' complete encodings. -/
def encodeList (payload : List UInt8) : List UInt8 :=
  encodeHeader payload.length 0xc0 ++ payload

/-- A big-endian integer, minimally. -/
def encodeUint (be : List UInt8) : List UInt8 := encodeBytes (be.dropWhile (· == 0))

def encodeU64 (value : UInt64) : List UInt8 := encodeUint (beBytes 8 value.toNat)

/-! ## Reading -/

/-- One item: whether it is a list, its payload, and its complete encoding. -/
structure Item where
  list : Bool
  payload : List UInt8
  whole : List UInt8
deriving DecidableEq

/-- The largest `usize` of the guest. -/
def usizeMax : ℕ := 2 ^ 32 - 1

def checked (n : ℕ) : Option ℕ := if n ≤ usizeMax then some n else none

/-- The bytes from `start` up to `stop`, when there are so many. -/
def slice (bytes : List UInt8) (start stop : ℕ) : Option (List UInt8) :=
  if stop ≤ bytes.length then some ((bytes.take stop).drop start) else none

/-- A declared length, one byte further. -/
def further (len : ℕ) (byte : UInt8) : Option ℕ := do
  let shifted ← checked (len * 256)
  checked (shifted + byte.toNat)

/-- A declared length. -/
def length (size : List UInt8) : Option ℕ := size.foldlM further 0

/-- The item whose payload lies between two places. -/
def cut (list : Bool) (bytes : List UInt8) (start stop : ℕ) :
    Option (Item × List UInt8) := do
  let body ← slice bytes start stop
  pure (⟨list, body, bytes.take stop⟩, bytes.drop stop)

def long (bytes : List UInt8) (width : ℕ) (list : Bool) : Option (Item × List UInt8) := do
  let size ← slice bytes 1 (1 + width)
  if size.head? = some 0 then none
  else if 4 < width then none
  else
    let len ← length size
    if len ≤ 55 then none
    else
      let stop ← checked (1 + width + len)
      cut list bytes (1 + width) stop

/-- One item off the front. -/
def split (bytes : List UInt8) : Option (Item × List UInt8) := do
  let first ← bytes.head?
  if first < 0x80 then cut false bytes 0 1
  else if first ≤ 0xb7 then
    let len := first.toNat - 0x80
    let body ← slice bytes 1 (1 + len)
    if len = 1 ∧ body.all (· < 0x80) then none else cut false bytes 1 (1 + len)
  else if first ≤ 0xbf then long bytes (first.toNat - 0xb7) false
  else if first ≤ 0xf7 then cut true bytes 1 (1 + (first.toNat - 0xc0))
  else long bytes (first.toNat - 0xf7) true

/-- The items of a payload. Each is at least one byte, so as many rounds as there are
bytes are enough. -/
def itemsIn : ℕ → List UInt8 → Option (List Item)
  | _, [] => some []
  | 0, _ :: _ => none
  | rounds + 1, bytes => do
    let (next, rest) ← split bytes
    let others ← itemsIn rounds rest
    pure (next :: others)

def items (item : Item) : Option (List Item) :=
  if item.list then itemsIn item.payload.length item.payload else none

/-- The items of the one list the bytes are. -/
def listItems (bytes : List UInt8) : Option (List Item) := do
  let (head, rest) ← split bytes
  if rest = [] then items head else none

/-- A byte string's bytes. -/
def bytes (item : Item) : Option (List UInt8) := if item.list then none else some item.payload

/-- An exactly `n`-byte string. -/
def fixed (n : ℕ) (item : Item) : Option (FixedBytes n) := do
  let payload ← bytes item
  if exact : payload.length = n then some ⟨payload, exact⟩ else none

/-- A canonical big-endian integer of at most `width` bytes. -/
def uint (item : Item) (width : ℕ) : Option (List UInt8) := do
  let be ← bytes item
  if width < be.length ∨ be.head? = some 0 then none else some be

def u64Of (item : Item) : Option UInt64 := do
  let be ← uint item 8
  pure (be.foldl (fun acc byte => (acc <<< 8) ||| byte.toUInt64) 0)

theorem padded_length (be : List UInt8) (short : be.length ≤ 32) :
    (List.replicate (32 - be.length) 0 ++ be).length = 32 := by
  rw [List.length_append, List.length_replicate, Nat.sub_add_cancel short]

/-- A canonical integer below `2 ^ 256`, as a big-endian word. -/
def wordOf (item : Item) : Option Word32 := do
  let be ← uint item 32
  if short : be.length ≤ 32 then some ⟨List.replicate (32 - be.length) 0 ++ be, padded_length be short⟩
  else none

/-! ## Any `usize`

The codec again where a `usize` is so many bytes wide: four in the guest, eight
elsewhere.
-/

/-- The largest `usize` of that many bytes. -/
def maxOf (usize : ℕ) : ℕ := 256 ^ usize - 1

namespace Sized

variable (usize : ℕ)

def checked (n : ℕ) : Option ℕ := if n ≤ maxOf usize then some n else none

/-- A declared length, one byte further. -/
def further (len : ℕ) (byte : UInt8) : Option ℕ := do
  let shifted ← checked usize (len * 256)
  checked usize (shifted + byte.toNat)

/-- A declared length. -/
def length (size : List UInt8) : Option ℕ := size.foldlM (further usize) 0

def long (bytes : List UInt8) (width : ℕ) (list : Bool) : Option (Item × List UInt8) := do
  let size ← slice bytes 1 (1 + width)
  if size.head? = some 0 then none
  else if usize < width then none
  else
    let len ← length usize size
    if len ≤ 55 then none
    else
      let stop ← checked usize (1 + width + len)
      cut list bytes (1 + width) stop

/-- One item off the front. -/
def split (bytes : List UInt8) : Option (Item × List UInt8) := do
  let first ← bytes.head?
  if first < 0x80 then cut false bytes 0 1
  else if first ≤ 0xb7 then
    let len := first.toNat - 0x80
    let body ← slice bytes 1 (1 + len)
    if len = 1 ∧ body.all (· < 0x80) then none else cut false bytes 1 (1 + len)
  else if first ≤ 0xbf then long usize bytes (first.toNat - 0xb7) false
  else if first ≤ 0xf7 then cut true bytes 1 (1 + (first.toNat - 0xc0))
  else long usize bytes (first.toNat - 0xf7) true

/-- The items of a payload. -/
def itemsIn : ℕ → List UInt8 → Option (List Item)
  | _, [] => some []
  | 0, _ :: _ => none
  | rounds + 1, bytes => do
    let (next, rest) ← split usize bytes
    let others ← itemsIn rounds rest
    pure (next :: others)

def items (item : Item) : Option (List Item) :=
  if item.list then itemsIn usize item.payload.length item.payload else none

end Sized

theorem split_eq_sized : split = Sized.split 4 := rfl

theorem itemsIn_eq_sized (rounds : ℕ) (bytes : List UInt8) :
    itemsIn rounds bytes = Sized.itemsIn 4 rounds bytes := by
  induction rounds generalizing bytes with
  | zero => cases bytes <;> rfl
  | succ rounds ih =>
    cases bytes with
    | nil => rfl
    | cons first tail =>
      rw [itemsIn.eq_def, Sized.itemsIn.eq_def, split_eq_sized]
      dsimp only
      exact congrArg _ (funext fun found => congrArg (· >>= fun others => pure (found.1 :: others))
        (ih found.2))

/-! ## What is written is read back -/

@[simp]
theorem slice_append (front body rest : List UInt8) :
    slice (front ++ body ++ rest) front.length (front.length + body.length) = some body := by
  rw [slice, if_pos (by simp), List.take_append_of_le_length (by simp),
    List.take_of_length_le (by simp), List.drop_left]

theorem cut_append (list : Bool) (front body rest : List UInt8) :
    cut list (front ++ body ++ rest) front.length (front.length + body.length) =
      some (⟨list, body, front ++ body⟩, rest) := by
  have ends : front.length + body.length = (front ++ body).length := List.length_append.symm
  rw [cut, slice_append, ends, List.take_left, List.drop_left]
  rfl

theorem beBytes_succ (n x : ℕ) : beBytes (n + 1) x = beBytes n (x / 256) ++ [UInt8.ofNat x] := by
  rw [beBytes, leBytes, List.reverse_cons, beBytes]

theorem mem_beBytes_zero {n : ℕ} : ∀ byte ∈ beBytes n 0, (byte == 0) = true := by
  have zero : ∀ n, ∀ byte ∈ leBytes n 0, byte = 0 := by
    intro n
    induction n with
    | zero => exact fun byte member => absurd member List.not_mem_nil
    | succ n ih => exact List.forall_mem_cons.mpr ⟨rfl, ih⟩
  intro byte member
  rw [zero n byte (List.mem_reverse.mp member), beq_self_eq_true]

theorem succ_maxOf (usize : ℕ) : maxOf usize + 1 = 256 ^ usize :=
  Nat.sub_add_cancel (Nat.one_le_pow _ _ (by decide))

namespace Sized

variable {usize : ℕ}

theorem checked_of_le {n : ℕ} (small : n ≤ maxOf usize) : checked usize n = some n := if_pos small

/-- A number's bytes declare it, when a `usize` holds it. -/
theorem length_beBytes {n x : ℕ} (wide : x < 256 ^ n) (small : x ≤ maxOf usize) :
    length usize (beBytes n x) = some x := by
  induction n generalizing x with
  | zero =>
    have zero : x = 0 := Nat.lt_one_iff.mp wide
    rw [zero]
    rfl
  | succ n ih =>
    have high : x / 256 < 256 ^ n := by
      rw [pow_succ] at wide
      exact Nat.div_lt_of_lt_mul (by rwa [mul_comm] at wide)
    have smaller : x / 256 * 256 ≤ maxOf usize := (Nat.div_mul_le_self x 256).trans small
    have rest : length usize (beBytes n (x / 256)) = some (x / 256) :=
      ih high ((Nat.div_le_self x 256).trans small)
    have last : further usize (x / 256) (UInt8.ofNat x) = some x := by
      rw [further, checked_of_le smaller, Option.bind_eq_bind, Option.bind_some,
        UInt8.toNat_ofNat', Nat.div_add_mod', checked_of_le small]
    rw [length] at rest
    rw [length, beBytes_succ, List.foldlM_append, rest, Option.bind_eq_bind, Option.bind_some,
      List.foldlM_cons, last]
    rfl

/-- Leading zeros declare nothing. -/
theorem length_dropWhile (size : List UInt8) :
    length usize (size.dropWhile (· == 0)) = length usize size := by
  induction size with
  | nil => rfl
  | cons byte size ih =>
    by_cases zero : byte = 0
    · have here : further usize 0 0 = some 0 := by
        rw [further, Nat.zero_mul, checked_of_le (Nat.zero_le _), Option.bind_eq_bind,
          Option.bind_some, UInt8.toNat_zero, checked_of_le (Nat.zero_le _)]
      rw [zero, List.dropWhile_cons_of_pos (by rfl), ih, length, length, List.foldlM_cons, here]
      rfl
    · rw [List.dropWhile_cons_of_neg (by simpa using zero)]

/-- The bytes of a length that does not fit the short form. -/
theorem longLength {len : ℕ} (wide : usize ≤ 8) (high : 55 < len) (small : len ≤ maxOf usize) :
    ∃ be, (beBytes 8 len).dropWhile (· == 0) = be ∧ be.head? ≠ some 0 ∧ 1 ≤ be.length ∧
      be.length ≤ usize ∧ length usize be = some len := by
  obtain ⟨zeros, eight⟩ := Nat.exists_eq_add_of_le wide
  have below : len < 256 ^ usize := succ_maxOf usize ▸ Nat.lt_succ_of_le small
  have declared : length usize ((beBytes 8 len).dropWhile (· == 0)) = some len := by
    rw [length_dropWhile]
    exact length_beBytes (below.trans_le (Nat.pow_le_pow_right (by decide) wide)) small
  have parts : beBytes 8 len = beBytes zeros 0 ++ beBytes usize len := by
    rw [beBytes, eight, leBytes_add, Nat.div_eq_of_lt below, List.reverse_append]
    rfl
  refine ⟨_, rfl, ?_, ?_, ?_, declared⟩
  · intro leading
    have stopped := List.head?_dropWhile_not (fun byte : UInt8 => byte == 0) (beBytes 8 len)
    rw [leading] at stopped
    exact absurd stopped (by decide)
  · rw [Nat.one_le_iff_ne_zero]
    intro none
    rw [List.length_eq_zero_iff.mp none] at declared
    have zero : 0 = len := Option.some.inj declared
    omega
  · rw [parts, List.dropWhile_append_of_pos mem_beBytes_zero]
    refine (List.IsSuffix.length_le (List.dropWhile_suffix _)).trans (le_of_eq ?_)
    rw [beBytes, List.length_reverse, leBytes_length]

theorem long_header {len : ℕ} (list : Bool) (first : UInt8) {size body : List UInt8} (rest : List UInt8)
    (leading : size.head? ≠ some 0) (narrow : size.length ≤ usize)
    (declared : length usize size = some len) (high : 55 < len) (measure : body.length = len)
    (small : 1 + size.length + len ≤ maxOf usize) :
    long usize ((first :: size) ++ body ++ rest) size.length list =
      some (⟨list, body, (first :: size) ++ body⟩, rest) := by
  have sized : slice ((first :: size) ++ body ++ rest) 1 (1 + size.length) = some size := by
    have read := slice_append [first] size (body ++ rest)
    rwa [← List.append_assoc] at read
  have whole := cut_append list (first :: size) body rest
  rw [List.length_cons, Nat.add_comm size.length 1, measure] at whole
  rw [long, sized, Option.bind_eq_bind, Option.bind_some, if_neg leading,
    if_neg (Nat.not_lt.mpr narrow), declared, Option.bind_eq_bind, Option.bind_some,
    if_neg (Nat.not_le.mpr high), checked_of_le small]
  exact whole

theorem split_encodeList (payload rest : List UInt8)
    (wide : usize ≤ 8) (small : (encodeList payload).length ≤ maxOf usize) :
    split usize (encodeList payload ++ rest) = some (⟨true, payload, encodeList payload⟩, rest) := by
  unfold encodeList encodeHeader at small ⊢
  by_cases short : payload.length ≤ 55
  · rw [if_pos short]
    have least : ∀ n, n ≤ 55 → ¬ 0xc0 + UInt8.ofNat n < 0x80 ∧ ¬ 0xc0 + UInt8.ofNat n ≤ 0xb7 ∧
      ¬ 0xc0 + UInt8.ofNat n ≤ 0xbf ∧ 0xc0 + UInt8.ofNat n ≤ 0xf7 ∧
      (0xc0 + UInt8.ofNat n).toNat - 0xc0 = n := by decide
    obtain ⟨single, string, longString, list, difference⟩ := least _ short
    rw [split, List.append_assoc, List.singleton_append, List.head?_cons, Option.bind_eq_bind,
      Option.bind_some, if_neg single, if_neg string, if_neg longString, if_pos list, difference]
    exact cut_append true [0xc0 + UInt8.ofNat payload.length] payload rest
  · have high : 55 < payload.length := Nat.not_le.mp short
    rw [if_neg short] at small ⊢
    have fits : payload.length ≤ maxOf usize := by
      rw [List.length_append] at small
      exact (Nat.le_add_left _ _).trans small
    obtain ⟨be, trimmed, leading, some, narrow, declared⟩ := longLength wide high fits
    rw [trimmed] at small ⊢
    have least : ∀ n, 1 ≤ n → n ≤ 8 → ¬ 0xc0 + 55 + UInt8.ofNat n < 0x80 ∧
      ¬ 0xc0 + 55 + UInt8.ofNat n ≤ 0xb7 ∧ ¬ 0xc0 + 55 + UInt8.ofNat n ≤ 0xbf ∧
      ¬ 0xc0 + 55 + UInt8.ofNat n ≤ 0xf7 ∧ (0xc0 + 55 + UInt8.ofNat n).toNat - 0xf7 = n := by
      intro n low high
      interval_cases n <;> decide
    obtain ⟨single, string, longString, list, width⟩ := least _ some (narrow.trans wide)
    rw [split, List.append_assoc, List.cons_append, List.head?_cons, Option.bind_eq_bind,
      Option.bind_some, if_neg single, if_neg string, if_neg longString, if_neg list, width,
      ← List.cons_append, ← List.append_assoc]
    refine long_header true _ rest leading narrow declared high rfl ?_
    rw [List.length_append, List.length_cons] at small
    omega

theorem split_encodeBytes (payload rest : List UInt8)
    (wide : usize ≤ 8) (small : (encodeBytes payload).length ≤ maxOf usize) :
    split usize (encodeBytes payload ++ rest) = some (⟨false, payload, encodeBytes payload⟩, rest) := by
  unfold encodeBytes encodeHeader at small ⊢
  by_cases single : payload.length = 1 ∧ payload.all (· < 0x80)
  · obtain ⟨one, ascii⟩ := single
    obtain ⟨byte, rfl⟩ := List.length_eq_one_iff.mp one
    have low : byte < 0x80 := by simpa using ascii
    rw [if_pos ⟨one, ascii⟩, split, List.singleton_append, List.head?_cons, Option.bind_eq_bind,
      Option.bind_some, if_pos low]
    exact cut_append false [] [byte] rest
  · rw [if_neg single] at small ⊢
    by_cases short : payload.length ≤ 55
    · rw [if_pos short]
      have least : ∀ n, n ≤ 55 → ¬ 0x80 + UInt8.ofNat n < 0x80 ∧ 0x80 + UInt8.ofNat n ≤ 0xb7 ∧
        (0x80 + UInt8.ofNat n).toNat - 0x80 = n := by decide
      obtain ⟨wrapped, string, difference⟩ := least _ short
      have read := slice_append [0x80 + UInt8.ofNat payload.length] payload rest
      rw [List.length_singleton] at read
      rw [split, List.append_assoc, List.singleton_append, List.head?_cons, Option.bind_eq_bind,
        Option.bind_some, if_neg wrapped, if_pos string, difference, ← List.singleton_append,
        ← List.append_assoc]
      dsimp only
      rw [read, Option.bind_eq_bind, Option.bind_some, if_neg single]
      exact cut_append false [0x80 + UInt8.ofNat payload.length] payload rest
    · have high : 55 < payload.length := Nat.not_le.mp short
      rw [if_neg short] at small ⊢
      have fits : payload.length ≤ maxOf usize := by
        rw [List.length_append] at small
        exact (Nat.le_add_left _ _).trans small
      obtain ⟨be, trimmed, leading, some, narrow, declared⟩ := longLength wide high fits
      rw [trimmed] at small ⊢
      have least : ∀ n, 1 ≤ n → n ≤ 8 → ¬ 0x80 + 55 + UInt8.ofNat n < 0x80 ∧
        ¬ 0x80 + 55 + UInt8.ofNat n ≤ 0xb7 ∧ 0x80 + 55 + UInt8.ofNat n ≤ 0xbf ∧
        (0x80 + 55 + UInt8.ofNat n).toNat - 0xb7 = n := by
        intro n low high
        interval_cases n <;> decide
      obtain ⟨wrapped, string, longString, width⟩ := least _ some (narrow.trans wide)
      rw [split, List.append_assoc, List.cons_append, List.head?_cons, Option.bind_eq_bind,
        Option.bind_some, if_neg wrapped, if_neg string, if_pos longString, width,
        ← List.cons_append, ← List.append_assoc]
      refine long_header false _ rest leading narrow declared high rfl ?_
      rw [List.length_append, List.length_cons] at small
      omega

end Sized

theorem split_encodeList (payload rest : List UInt8)
    (small : (encodeList payload).length ≤ usizeMax) :
    split (encodeList payload ++ rest) = some (⟨true, payload, encodeList payload⟩, rest) :=
  Sized.split_encodeList payload rest (by decide : 4 ≤ 8) small

theorem split_encodeBytes (payload rest : List UInt8)
    (small : (encodeBytes payload).length ≤ usizeMax) :
    split (encodeBytes payload ++ rest) = some (⟨false, payload, encodeBytes payload⟩, rest) :=
  Sized.split_encodeBytes payload rest (by decide : 4 ≤ 8) small

theorem encodeHeader_ne_nil (len : ℕ) (short : UInt8) : encodeHeader len short ≠ [] := by
  unfold encodeHeader
  by_cases small : len ≤ 55
  · rw [if_pos small]
    exact List.cons_ne_nil _ _
  · rw [if_neg small]
    exact List.cons_ne_nil _ _

theorem encodeBytes_ne_nil (payload : List UInt8) : encodeBytes payload ≠ [] := by
  unfold encodeBytes
  by_cases single : payload.length = 1 ∧ payload.all (· < 0x80)
  · rw [if_pos single]
    intro none
    rw [none] at single
    exact absurd single.1 (by decide)
  · rw [if_neg single]
    exact List.append_ne_nil_of_left_ne_nil (encodeHeader_ne_nil _ _) _

theorem encodeList_ne_nil (payload : List UInt8) : encodeList payload ≠ [] :=
  List.append_ne_nil_of_left_ne_nil (encodeHeader_ne_nil _ _) _

theorem length_lt_encodeList (payload : List UInt8) : payload.length < (encodeList payload).length := by
  rw [encodeList, List.length_append]
  exact Nat.lt_add_of_pos_left (List.length_pos_iff.mpr (encodeHeader_ne_nil _ _))

theorem length_le_encodeList (payload : List UInt8) : payload.length ≤ (encodeList payload).length :=
  (length_lt_encodeList payload).le

theorem length_le_encodeBytes (payload : List UInt8) :
    payload.length ≤ (encodeBytes payload).length := by
  unfold encodeBytes
  by_cases single : payload.length = 1 ∧ payload.all (· < 0x80)
  · rw [if_pos single]
  · rw [if_neg single, List.length_append]
    exact Nat.le_add_left _ _

end Rlp

end Apogee
