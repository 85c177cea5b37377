import Apogee.Mpt.Strict

/-! # The codec's indices

The codec with every index, slice and sum that could stop the guest. None of them does,
on any bytes that a `usize` counts.
-/

namespace Apogee.Rlp.Bounds

/-- What keeps a reader from its result: bytes that are not what was expected, or an
index, a slice or a sum out of bounds. -/
inductive Stop where
  | malformed
  | panic
deriving DecidableEq

abbrev Attempt (α : Type) := Except Stop α

variable {α β : Type}

/-- A value, or malformed without one. -/
def expected : Option α → Attempt α
  | some value => .ok value
  | none => .error .malformed

def index (xs : List α) (i : ℕ) : Attempt α :=
  match xs[i]? with
  | some x => .ok x
  | none => .error .panic

/-- The bytes from `start` up to `stop`, which must be there. -/
def range (bytes : List UInt8) (start stop : ℕ) : Attempt (List UInt8) :=
  if start ≤ stop ∧ stop ≤ bytes.length then .ok ((bytes.take stop).drop start) else .error .panic

/-- The bytes from `start` up to `stop`, when they are there. -/
def get (bytes : List UInt8) (start stop : ℕ) : Attempt (List UInt8) :=
  if start ≤ stop ∧ stop ≤ bytes.length then .ok ((bytes.take stop).drop start)
  else .error .malformed

def sub (a b : ℕ) : Attempt ℕ := if b ≤ a then .ok (a - b) else .error .panic

variable (usize : ℕ)

def add (a b : ℕ) : Attempt ℕ := if a + b ≤ maxOf usize then .ok (a + b) else .error .panic

/-- The item up to `stop`, and what follows it. -/
def upTo (list : Bool) (bytes body : List UInt8) (stop : ℕ) : Attempt (Item × List UInt8) := do
  let whole ← range bytes 0 stop
  let rest ← range bytes stop bytes.length
  pure (⟨list, body, whole⟩, rest)

def long (bytes : List UInt8) (width : ℕ) (list : Bool) : Attempt (Item × List UInt8) := do
  let stop ← add usize 1 width
  let size ← get bytes 1 stop
  let leading ← index size 0
  if leading = 0 then .error .malformed
  else if usize < width then .error .malformed
  else
    let len ← size.foldlM (fun len byte => expected (Sized.further usize len byte)) 0
    if len ≤ 55 then .error .malformed
    else
      let start ← add usize 1 width
      let stop ← expected (Sized.checked usize (start + len))
      let body ← get bytes start stop
      upTo list bytes body stop

/-- One item off the front. -/
def split (bytes : List UInt8) : Attempt (Item × List UInt8) := do
  let first ← expected bytes.head?
  if first < 0x80 then
    let payload ← range bytes 0 1
    upTo false bytes payload 1
  else if first ≤ 0xb7 then
    let len ← sub first.toNat 0x80
    let stop ← add usize 1 len
    let body ← get bytes 1 stop
    if len = 1 then
      let byte ← index body 0
      if byte < 0x80 then .error .malformed else upTo false bytes body stop
    else upTo false bytes body stop
  else if first ≤ 0xbf then
    let width ← sub first.toNat 0xb7
    long usize bytes width false
  else if first ≤ 0xf7 then
    let len ← sub first.toNat 0xc0
    let stop ← add usize 1 len
    let body ← get bytes 1 stop
    upTo true bytes body stop
  else
    let width ← sub first.toNat 0xf7
    long usize bytes width true

/-- The items of a payload. -/
def itemsIn : ℕ → List UInt8 → Attempt (List Item)
  | _, [] => .ok []
  | 0, _ :: _ => .error .malformed
  | rounds + 1, bytes => do
    let (next, rest) ← split usize bytes
    let others ← itemsIn rounds rest
    pure (next :: others)

def items (item : Item) : Attempt (List Item) :=
  if item.list then itemsIn usize item.payload.length item.payload else .error .malformed

/-! ## No reader stops the guest -/

theorem ok_bind (value : α) (next : α → Attempt β) :
    (Except.ok value : Attempt α) >>= next = next value := rfl

theorem error_bind (stop : Stop) (next : α → Attempt β) :
    (Except.error stop : Attempt α) >>= next = .error stop := rfl

theorem expected_bind (found : Option α) (next : α → Option β) :
    expected (found.bind next) = expected found >>= fun value => expected (next value) := by
  cases found with
  | none => rfl
  | some value => rfl

theorem expected_eq_ok {found : Option α} {value : α} :
    expected found = .ok value ↔ found = some value := by
  cases found with
  | none => exact ⟨fun same => (by cases same), fun same => (by cases same)⟩
  | some found => exact ⟨fun same => congrArg some (Except.ok.inj same),
      fun same => congrArg Except.ok (Option.some.inj same)⟩

theorem expected_ne_panic (found : Option α) : expected found ≠ .error .panic := by
  intro stopped
  cases found with
  | none => cases stopped
  | some value => cases stopped

theorem bind_eq_ok {attempt : Attempt α} {next : α → Attempt β} {result : β} :
    attempt >>= next = .ok result ↔ ∃ value, attempt = .ok value ∧ next value = .ok result := by
  cases attempt with
  | error stop => exact ⟨fun same => (by cases same), fun ⟨_, same, _⟩ => (by cases same)⟩
  | ok value =>
    exact ⟨fun same => ⟨value, rfl, same⟩, fun ⟨_, same, later⟩ => Except.ok.inj same ▸ later⟩

theorem bind_ne_panic {attempt : Attempt α} {next : α → Attempt β} (here : attempt ≠ .error .panic)
    (later : ∀ value, attempt = .ok value → next value ≠ .error .panic) :
    attempt >>= next ≠ .error .panic := by
  cases attempt with
  | error stop => exact fun stopped => here (congrArg Except.error (Except.error.inj stopped))
  | ok value => exact later value rfl

theorem malformed_ne_panic : (.error .malformed : Attempt α) ≠ .error .panic :=
  fun same => (by cases same)

theorem ok_ne_panic {value : α} : (.ok value : Attempt α) ≠ .error .panic :=
  fun same => (by cases same)

/-- An attempt that does not stop the guest, by what it results in. -/
theorem eq_expected {attempt : Attempt α} {found : Option α} (safe : attempt ≠ .error .panic)
    (same : ∀ value, attempt = .ok value ↔ found = some value) : attempt = expected found := by
  cases attempt with
  | ok value => exact (expected_eq_ok.mpr ((same value).mp rfl)).symm
  | error stop =>
    cases stop with
    | panic => exact absurd rfl safe
    | malformed =>
      cases found with
      | none => rfl
      | some value => cases (same value).mpr rfl

theorem mapM_expected (f : α → Option β) (xs : List α) :
    (xs.mapM fun x => expected (f x)) = expected (xs.mapM f) := by
  induction xs with
  | nil => rfl
  | cons x xs ih =>
    rw [List.mapM_cons, List.mapM_cons, ih]
    cases f x with
    | none => rfl
    | some value =>
      cases xs.mapM f with
      | none => rfl
      | some values => rfl

theorem expected_ite {c : Prop} [Decidable c] (found : Option α) :
    expected (if c then none else found) = if c then .error .malformed else expected found := by
  by_cases holds : c
  · rw [if_pos holds, if_pos holds]
    rfl
  · rw [if_neg holds, if_neg holds]

variable {usize} {bytes body : List UInt8} {start stop : ℕ} {list : Bool}

theorem get_eq (order : start ≤ stop) :
    get bytes start stop = expected (slice bytes start stop) := by
  unfold get slice
  by_cases inside : stop ≤ bytes.length
  · rw [if_pos ⟨order, inside⟩, if_pos inside]
    rfl
  · rw [if_neg fun both => inside both.2, if_neg inside]
    rfl

theorem upTo_eq (inside : stop ≤ bytes.length) :
    upTo list bytes body stop = .ok (⟨list, body, bytes.take stop⟩, bytes.drop stop) := by
  have front : range bytes 0 stop = .ok (bytes.take stop) := if_pos ⟨Nat.zero_le _, inside⟩
  have back : range bytes stop bytes.length = .ok (bytes.drop stop) := by
    rw [range, if_pos ⟨inside, le_rfl⟩, List.take_length]
  rw [upTo, front, ok_bind, back, ok_bind]
  rfl

/-- A slice that is there and the item up to its end. -/
theorem get_upTo (order : start ≤ stop) :
    (get bytes start stop >>= fun body => upTo list bytes body stop) =
      expected (cut list bytes start stop) := by
  rw [get_eq order, cut, Option.bind_eq_bind, expected_bind]
  unfold slice
  by_cases inside : stop ≤ bytes.length
  · rw [if_pos inside]
    exact upTo_eq inside
  · rw [if_neg inside]
    rfl

theorem add_eq {a b : ℕ} (fits : a + b ≤ maxOf usize) : add usize a b = .ok (a + b) := if_pos fits

theorem le_maxOf (byte : 1 ≤ usize) {n : ℕ} (small : n ≤ 255) : n ≤ maxOf usize := by
  have power : 256 ^ 1 ≤ 256 ^ usize := Nat.pow_le_pow_right (by decide) byte
  have below := succ_maxOf usize
  omega

theorem foldlM_expected {step : β → α → Option β} (xs : List α) (start : β) :
    xs.foldlM (fun acc x => expected (step acc x)) start = expected (xs.foldlM step start) := by
  induction xs generalizing start with
  | nil => rfl
  | cons x xs ih =>
    rw [List.foldlM_cons, List.foldlM_cons, Option.bind_eq_bind, expected_bind]
    exact congrArg _ (funext ih)

theorem long_eq (byte : 1 ≤ usize) {width : ℕ} (positive : 1 ≤ width) (narrow : width ≤ 8) :
    long usize bytes width list = expected (Sized.long usize bytes width list) := by
  have fits : 1 + width ≤ maxOf usize := le_maxOf byte (by omega)
  rw [long, add_eq fits, ok_bind, get_eq (Nat.le_add_right 1 width), Sized.long,
    Option.bind_eq_bind, expected_bind]
  unfold slice
  by_cases inside : 1 + width ≤ bytes.length
  · rw [if_pos inside, expected, ok_bind, ok_bind]
    have long : ((bytes.take (1 + width)).drop 1).length = width := by
      rw [List.length_drop, List.length_take, Nat.min_eq_left inside, Nat.add_sub_cancel_left]
    generalize (bytes.take (1 + width)).drop 1 = size at long
    cases size with
    | nil => exact absurd long.symm (Nat.ne_of_gt positive)
    | cons leading size =>
      have head : index (leading :: size) 0 = .ok leading := rfl
      have same : ((leading :: size).head? = some 0) = (leading = 0) := by
        rw [List.head?_cons, Option.some_inj]
      rw [head, ok_bind]
      simp only [same, expected_ite]
      by_cases zero : leading = 0
      · rw [if_pos zero, if_pos zero]
      by_cases beyond : usize < width
      · rw [if_neg zero, if_neg zero, if_pos beyond, if_pos beyond]
      rw [if_neg zero, if_neg zero, if_neg beyond, if_neg beyond, foldlM_expected,
        Option.bind_eq_bind, expected_bind, ← Sized.length]
      refine congrArg _ (funext fun len => ?_)
      rw [expected_ite]
      by_cases short : len ≤ 55
      · rw [if_pos short, if_pos short]
      rw [if_neg short, if_neg short, ok_bind, expected_bind]
      unfold Sized.checked
      by_cases room : 1 + width + len ≤ maxOf usize
      · rw [if_pos room]
        exact get_upTo (Nat.le_add_right _ _)
      · rw [if_neg room]
        rfl
  · rw [if_neg inside]
    rfl

theorem sub_eq {first low : UInt8} (least : low ≤ first) :
    sub first.toNat low.toNat = .ok (first.toNat - low.toNat) :=
  if_pos (UInt8.le_iff_toNat_le.mp least)

/-- An item is split off without a stop. -/
theorem split_eq (byte : 1 ≤ usize) : split usize bytes = expected (Sized.split usize bytes) := by
  rw [split, Sized.split, Option.bind_eq_bind, expected_bind]
  cases bytes with
  | nil => rfl
  | cons first tail =>
    rw [List.head?_cons, expected, ok_bind, ok_bind]
    have bound := first.toNat_lt
    by_cases single : first < 0x80
    · rw [if_pos single, if_pos single]
      have present : 1 ≤ (first :: tail).length := Nat.le_add_left 1 _
      have payload : range (first :: tail) 0 1 = get (first :: tail) 0 1 := by
        rw [range, get, if_pos ⟨Nat.zero_le _, present⟩, if_pos ⟨Nat.zero_le _, present⟩]
      rw [payload]
      exact get_upTo (Nat.zero_le 1)
    rw [if_neg single, if_neg single]
    have least : (0x80 : UInt8) ≤ first := UInt8.not_lt.mp single
    by_cases string : first ≤ 0xb7
    · rw [if_pos string, if_pos string]
      have top : first.toNat ≤ 0xb7 := UInt8.le_iff_toNat_le.mp string
      have fits : 1 + (first.toNat - 0x80) ≤ maxOf usize := le_maxOf byte (by omega)
      have less : sub first.toNat 0x80 = .ok (first.toNat - 0x80) := sub_eq least
      rw [less, ok_bind, add_eq fits, ok_bind]
      dsimp only
      generalize first.toNat - 0x80 = len
      have order : 1 ≤ 1 + len := Nat.le_add_right 1 len
      rw [get_eq order, Option.bind_eq_bind, expected_bind]
      unfold slice
      by_cases inside : 1 + len ≤ (first :: tail).length
      · have cutting : cut false (first :: tail) 1 (1 + len) =
            some (⟨false, ((first :: tail).take (1 + len)).drop 1, (first :: tail).take (1 + len)⟩,
              (first :: tail).drop (1 + len)) := by
          rw [cut, slice, if_pos inside]
          rfl
        rw [if_pos inside, expected, ok_bind, ok_bind, expected_ite, cutting, upTo_eq inside]
        by_cases one : len = 1
        · have measure : (((first :: tail).take (1 + len)).drop 1).length = 1 := by
            rw [List.length_drop, List.length_take, Nat.min_eq_left inside, one]
          obtain ⟨low, alone⟩ := List.length_eq_one_iff.mp measure
          have head : index [low] 0 = .ok low := rfl
          have all : (len = 1 ∧ [low].all (· < 0x80) = true) = (low < 0x80) := by
            simp [one]
          rw [if_pos one, alone, head, ok_bind]
          simp only [all]
          rfl
        · rw [if_neg one, if_neg fun both => one both.1]
          rfl
      · rw [if_neg inside]
        rfl
    rw [if_neg string, if_neg string]
    have past : 0xb7 < first.toNat := UInt8.lt_iff_toNat_lt.mp (UInt8.not_le.mp string)
    by_cases longString : first ≤ 0xbf
    · rw [if_pos longString, if_pos longString]
      have top : first.toNat ≤ 0xbf := UInt8.le_iff_toNat_le.mp longString
      have less : sub first.toNat 0xb7 = .ok (first.toNat - 0xb7) := if_pos past.le
      rw [less, ok_bind]
      exact long_eq byte (by omega) (by omega)
    rw [if_neg longString, if_neg longString]
    have beyond : 0xbf < first.toNat := UInt8.lt_iff_toNat_lt.mp (UInt8.not_le.mp longString)
    by_cases list : first ≤ 0xf7
    · rw [if_pos list, if_pos list]
      have top : first.toNat ≤ 0xf7 := UInt8.le_iff_toNat_le.mp list
      have less : sub first.toNat 0xc0 = .ok (first.toNat - 0xc0) := if_pos beyond
      rw [less, ok_bind, add_eq (le_maxOf byte (by omega)), ok_bind]
      exact get_upTo (Nat.le_add_right 1 _)
    rw [if_neg list, if_neg list]
    have last : 0xf7 < first.toNat := UInt8.lt_iff_toNat_lt.mp (UInt8.not_le.mp list)
    have less : sub first.toNat 0xf7 = .ok (first.toNat - 0xf7) := if_pos last.le
    rw [less, ok_bind]
    exact long_eq byte (by omega) (by omega)

/-- A payload is divided without a stop. -/
theorem itemsIn_eq (byte : 1 ≤ usize) (rounds : ℕ) (bytes : List UInt8) :
    itemsIn usize rounds bytes = expected (Sized.itemsIn usize rounds bytes) := by
  induction rounds generalizing bytes with
  | zero =>
    cases bytes with
    | nil => rfl
    | cons first tail => rfl
  | succ rounds ih =>
    cases bytes with
    | nil => rfl
    | cons first tail =>
      rw [itemsIn.eq_def, Sized.itemsIn.eq_def]
      dsimp only
      rw [split_eq byte, Option.bind_eq_bind, expected_bind]
      refine congrArg _ (funext fun found => ?_)
      rw [ih, Option.bind_eq_bind, expected_bind]
      rfl

theorem items_eq (byte : 1 ≤ usize) (item : Item) :
    items usize item = expected (Sized.items usize item) := by
  unfold items Sized.items
  by_cases list : item.list
  · rw [if_pos list, if_pos list, itemsIn_eq byte]
  · rw [if_neg list, if_neg list]
    rfl

end Apogee.Rlp.Bounds
