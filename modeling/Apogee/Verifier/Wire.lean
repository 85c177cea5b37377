import Apogee.Field
import Apogee.Math.Codec

/-! # The wire primitives

Little-endian integers, canonical field elements, fixed runs of bytes, and
counted strings and lists. A count is refused unless the bytes left could hold
that many of the smallest item; on what a writer writes the guard never fires.
-/

namespace Apogee

open Apogee.Math

/-- A decoder over one byte string, with the source's refusals. -/
abbrev Read (α : Type) := Reader String α

/-- A byte string of a fixed length. -/
abbrev FixedBytes (n : ℕ) := { bytes : List UInt8 // bytes.length = n }

namespace Wire

/-- The next bytes. -/
def take (n : ℕ) : Read (List UInt8) := takeBytes "truncated" n

/-- An unsigned integer of some bytes. -/
def uint (n : ℕ) : Read ℕ := convert (fun bytes => .ok (leValue bytes)) (take n)

def u8 : Read ℕ := uint 1
def u32 : Read ℕ := uint 4
def u64 : Read ℕ := uint 8

/-- A canonical encoding is below the modulus; nothing is reduced. -/
def frOfBytes (bytes : List UInt8) : Except String Fr :=
  if leValue bytes < frModulus then .ok (leValue bytes : Fr)
  else .error "a field element is not canonical"

def fr : Read Fr := convert frOfBytes (take 32)

/-- A fixed run of bytes, not validated. -/
def raw (n : ℕ) : Read (FixedBytes n) :=
  convert (fun bytes => if length : bytes.length = n then .ok ⟨bytes, length⟩ else .error "truncated")
    (take n)

/-- A point's encoding, not validated: that is the curve's decoder's. -/
def g1 : Read (FixedBytes 64) := raw 64

/-- The guard on a count: the bytes left could hold that many items. -/
def guardCount (itemBytes n : ℕ) : Read ℕ := fun bytes =>
  if bytes.length < n * max itemBytes 1 then .error "a count is longer than the bytes left"
  else .ok (n, bytes)

def count (itemBytes : ℕ) : Read ℕ := do
  let n ← u32
  guardCount itemBytes n

/-- A counted byte string. -/
def bytes : Read (List UInt8) := do
  let n ← count 1
  take n

/-- A counted list. -/
def list {α : Type} (itemBytes : ℕ) (item : Read α) : Read (List α) := do
  let n ← count itemBytes
  repeatRead item n

def u32s : Read (List ℕ) := list 4 u32
def frs : Read (List Fr) := list 32 fr
def g1s : Read (List (FixedBytes 64)) := list 64 g1

/-- Refuse bytes after the value. -/
def finish : Read Unit := fun bytes =>
  if bytes.length = 0 then .ok ((), bytes) else .error "bytes follow the value"

/-- Decode a whole byte string. -/
def whole {α : Type} (read : Read α) (bytes : List UInt8) : Except String α := do
  let (value, rest) ← read bytes
  let _ ← finish rest
  pure value

end Wire

namespace Write

def uint (n : ℕ) : Writer ℕ := fun x => some (leBytes n x)

def u8 : Writer ℕ := uint 1
def u32 : Writer ℕ := uint 4
def u64 : Writer ℕ := uint 8

def fr : Writer Fr := fun x => some (leBytes 32 x.val)

def raw {n : ℕ} : Writer (FixedBytes n) := fun x => some x.1

/-- A count, which the source panics on above a `u32`. -/
def count : Writer ℕ := fun n => if n < 2 ^ 32 then some (leBytes 4 n) else none

def bytes : Writer (List UInt8) := fun x => written [count x.length, some x]

def list {α : Type} (item : Writer α) : Writer (List α) := fun values =>
  written [count values.length, writeEach item values]

def u32s : Writer (List ℕ) := list u32
def frs : Writer (List Fr) := list fr
def g1s : Writer (List (FixedBytes 64)) := list raw

theorem count_isSome {n : ℕ} : (count n).isSome ↔ n < 2 ^ 32 := by
  unfold count
  by_cases small : n < 2 ^ 32
  · rw [if_pos small]
    exact iff_of_true rfl small
  · rw [if_neg small]
    exact iff_of_false (fun wrong => nomatch wrong) small

theorem bytes_isSome {x : List UInt8} : (bytes x).isSome ↔ x.length < 2 ^ 32 := by
  rw [bytes, written_cons_isSome, count_isSome]
  exact and_iff_left rfl

theorem list_isSome {α : Type} {item : Writer α} {values : List α} : (list item values).isSome ↔
      values.length < 2 ^ 32 ∧ ∀ value ∈ values, (item value).isSome := by
  rw [list, written_cons_isSome, count_isSome, written_singleton, writeEach_isSome]

theorem u32s_isSome {values : List ℕ} : (u32s values).isSome ↔ values.length < 2 ^ 32 :=
  list_isSome.trans (and_iff_left fun _ _ => rfl)

theorem frs_isSome {values : List Fr} : (frs values).isSome ↔ values.length < 2 ^ 32 :=
  list_isSome.trans (and_iff_left fun _ _ => rfl)

theorem g1s_isSome {values : List (FixedBytes 64)} : (g1s values).isSome ↔ values.length < 2 ^ 32 :=
  list_isSome.trans (and_iff_left fun _ _ => rfl)

/-- An encoding embedded as a byte string. -/
theorem embedded_isSome {encoding : Option (List UInt8)} :
    (encoding >>= bytes).isSome ↔ ∃ inner, encoding = some inner ∧ inner.length < 2 ^ 32 := by
  cases encoding with
  | none =>
    exact iff_of_false (fun wrong => nomatch wrong) fun ⟨_, wrong, _⟩ => nomatch wrong
  | some inner =>
    rw [Option.bind_eq_bind, Option.bind_some, bytes_isSome]
    exact ⟨fun short => ⟨inner, rfl, short⟩, fun ⟨_, same, short⟩ => by cases same; exact short⟩

end Write

namespace Wire

theorem take_inverts (n : ℕ) : Inverts (take n) (fun value => value.length = n) some :=
  takeBytes_inverts _ n

theorem uint_inverts (n : ℕ) : Inverts (uint n) (fun x => x < 256 ^ n) (Write.uint n) := by
  refine (Inverts.convert _ (fun x => some (leBytes n x)) (take_inverts n) ?_ ?_).congr
    (fun _ => Iff.rfl) fun _ => rfl
  · intro bytes x length
    rw [Except.ok.injEq, Option.some.injEq]
    constructor
    · rintro rfl
      have small := leValue_lt bytes
      have written := leBytes_leValue bytes
      rw [length] at small written
      exact ⟨small, written⟩
    · rintro ⟨small, rfl⟩
      exact leValue_leBytes small
  · intro x bytes _ encoded
    cases encoded
    exact leBytes_length n x

theorem u8_inverts : Inverts u8 (fun x => x < 2 ^ 8) Write.u8 :=
  (uint_inverts 1).congr (fun x => by norm_num) fun _ => rfl

theorem u32_inverts : Inverts u32 (fun x => x < 2 ^ 32) Write.u32 :=
  (uint_inverts 4).congr (fun x => by norm_num) fun _ => rfl

theorem u64_inverts : Inverts u64 (fun x => x < 2 ^ 64) Write.u64 :=
  (uint_inverts 8).congr (fun x => by norm_num) fun _ => rfl

theorem fr_inverts : Inverts fr (fun _ => True) Write.fr := by
  have room : frModulus < 256 ^ 32 := by norm_num [frModulus]
  have small : ∀ x : Fr, x.val < 256 ^ 32 := fun x => x.val_lt.trans room
  refine (Inverts.convert _ (fun x : Fr => some (leBytes 32 x.val)) (take_inverts 32) ?_ ?_).congr
    (fun _ => Iff.rfl) fun _ => rfl
  · intro bytes x length
    unfold frOfBytes
    rw [Option.some.injEq, true_and]
    by_cases canonical : leValue bytes < frModulus
    · rw [if_pos canonical, Except.ok.injEq]
      constructor
      · rintro rfl
        have written := leBytes_leValue bytes
        rw [length] at written
        rw [ZMod.val_natCast_of_lt canonical, written]
      · rintro rfl
        rw [leValue_leBytes (small x), ZMod.natCast_zmod_val]
    · rw [if_neg canonical]
      constructor
      · intro wrong
        cases wrong
      · rintro rfl
        rw [leValue_leBytes (small x)] at canonical
        exact absurd x.val_lt canonical
  · intro x bytes _ encoded
    cases encoded
    exact leBytes_length 32 x.val

theorem raw_inverts (n : ℕ) : Inverts (raw n) (fun _ => True) Write.raw := by
  refine (Inverts.convert _ (fun x : FixedBytes n => some x.1) (take_inverts n) ?_ ?_).congr
    (fun _ => Iff.rfl) fun _ => rfl
  · intro bytes x length
    rw [dif_pos length, Except.ok.injEq, Option.some.injEq, true_and]
    constructor
    · rintro rfl
      rfl
    · rintro rfl
      rfl
  · intro x bytes _ encoded
    cases encoded
    exact x.2

theorem count_eq_some {n : ℕ} {front : List UInt8} :
    Write.count n = some front ↔ n < 2 ^ 32 ∧ leBytes 4 n = front := by
  unfold Write.count
  by_cases small : n < 2 ^ 32
  · rw [if_pos small, Option.some.injEq, and_iff_right small]
  · rw [if_neg small]
    exact iff_of_false (fun wrong => nomatch wrong) fun wrong => small wrong.1

theorem count_ok {itemBytes n : ℕ} {bytes rest : List UInt8} :
    count itemBytes bytes = .ok (n, rest) ↔
      n < 2 ^ 32 ∧ bytes = leBytes 4 n ++ rest ∧ n * max itemBytes 1 ≤ rest.length := by
  simp only [count, reader_bind, u32_inverts _ _ _]
  constructor
  · rintro ⟨value, left, ⟨small, front, wrote, rfl⟩, guarded⟩
    unfold guardCount at guarded
    by_cases long : left.length < value * max itemBytes 1
    · rw [if_pos long] at guarded
      cases guarded
    · rw [if_neg long] at guarded
      cases guarded
      cases wrote
      exact ⟨small, rfl, Nat.not_lt.mp long⟩
  · rintro ⟨small, rfl, fits⟩
    refine ⟨n, rest, ⟨small, _, rfl, rfl⟩, ?_⟩
    rw [guardCount, if_neg (Nat.not_lt.mpr fits)]

section Counted

variable {α : Type} {itemBytes : ℕ}

/-- What follows a count is exactly the items it counts, so a guard no item is
smaller than refuses nothing a writer writes. -/
theorem counted_inverts {read : ℕ → Read (List α)} {fits : List α → Prop} {write : Writer (List α)}
    (items : ∀ n, Inverts (read n) (fun values => values.length = n ∧ fits values) write)
    (sized : ∀ values front, fits values → write values = some front →
      values.length * max itemBytes 1 ≤ front.length) :
    Inverts (count itemBytes >>= read) fits
      fun values => written [Write.count values.length, write values] := by
  intro bytes values rest
  simp only [reader_bind, count_ok, written_pair_eq_some, items _ _ _ _, count_eq_some]
  constructor
  · rintro ⟨n, left, ⟨small, rfl, -⟩, ⟨rfl, fit⟩, front, wrote, rfl⟩
    exact ⟨fit, _, ⟨_, ⟨small, rfl⟩, front, wrote, rfl⟩, (List.append_assoc _ _ _).symm⟩
  · rintro ⟨fit, _, ⟨_, ⟨small, rfl⟩, front, wrote, rfl⟩, rfl⟩
    refine ⟨values.length, front ++ rest, ⟨small, List.append_assoc _ _ _, ?_⟩, ⟨rfl, fit⟩, front,
      wrote, rfl⟩
    rw [List.length_append]
    exact (sized values front fit wrote).trans (Nat.le_add_right _ _)

theorem list_inverts {item : Read α} {fits : α → Prop} {write : Writer α}
    (inverts : Inverts item fits write)
    (sized : ∀ value front, fits value → write value = some front →
      max itemBytes 1 ≤ front.length) :
    Inverts (list itemBytes item) (fun values => ∀ value ∈ values, fits value)
      (Write.list write) := by
  refine counted_inverts (fun n => inverts.repeatRead n) ?_
  intro values front fit wrote
  exact length_writeEach_ge (fun value member front => sized value front (fit value member)) wrote

/-- Items of which the list asks nothing. -/
theorem freeList_inverts {item : Read α} {write : Writer α} {fits : α → Prop}
    (inverts : Inverts item fits write) (free : ∀ value, fits value)
    (sized : ∀ value front, write value = some front → max itemBytes 1 ≤ front.length) :
    Inverts (list itemBytes item) (fun _ => True) (Write.list write) :=
  (list_inverts inverts fun value front _ => sized value front).congr
    (fun _ => ⟨fun _ value _ => free value, fun _ => trivial⟩) fun _ => rfl

theorem bytes_inverts : Inverts bytes (fun _ => True) Write.bytes := by
  refine counted_inverts (fun n => (take_inverts n).congr (fun _ => and_iff_left trivial) fun _ => rfl) ?_
  intro values front _ wrote
  cases wrote
  exact (Nat.mul_one _).le

theorem u32s_inverts : Inverts u32s (fun values => ∀ value ∈ values, value < 2 ^ 32) Write.u32s :=
  list_inverts u32_inverts fun value front _ wrote => by
    cases wrote
    exact (leBytes_length 4 value).ge

theorem frs_inverts : Inverts frs (fun _ => True) Write.frs :=
  freeList_inverts fr_inverts (fun _ => trivial) fun value front wrote => by
    cases wrote
    exact (leBytes_length 32 value.val).ge

theorem g1s_inverts : Inverts g1s (fun _ => True) Write.g1s :=
  freeList_inverts (raw_inverts 64) (fun _ => trivial) fun value front wrote => by
    cases wrote
    exact value.2.ge

end Counted

/-- What a whole decoder accepts. -/
theorem whole_ok {α : Type} {read : Read α} {fits : α → Prop} {write : Writer α}
    (inverts : Inverts read fits write) {bytes : List UInt8} {value : α} :
    whole read bytes = .ok value ↔ fits value ∧ write value = some bytes := by
  unfold whole
  cases ran : read bytes with
  | error e =>
    constructor
    · intro wrong
      cases wrong
    · rintro ⟨fit, wrote⟩
      have accepted := (inverts bytes value []).mpr
        ⟨fit, bytes, wrote, (List.append_nil bytes).symm⟩
      rw [ran] at accepted
      cases accepted
  | ok pair =>
    obtain ⟨found, rest⟩ := pair
    obtain ⟨fit, front, wrote, rfl⟩ := (inverts _ _ _).mp ran
    change (finish rest >>= fun _ => Except.ok found) = .ok value ↔ _
    unfold finish
    by_cases spent : rest.length = 0
    · rw [if_pos spent]
      obtain rfl := List.eq_nil_of_length_eq_zero spent
      rw [List.append_nil] at ran ⊢
      constructor
      · intro same
        cases same
        exact ⟨fit, wrote⟩
      · rintro ⟨fits', wrote'⟩
        have accepted := (inverts front value []).mpr
          ⟨fits', front, wrote', (List.append_nil front).symm⟩
        rw [ran] at accepted
        cases accepted
        rfl
    · rw [if_neg spent]
      constructor
      · intro wrong
        cases wrong
      · rintro ⟨fits', wrote'⟩
        have accepted := (inverts _ value []).mpr ⟨fits', _, wrote', (List.append_nil _).symm⟩
        rw [ran] at accepted
        cases accepted
        exact absurd rfl spent

end Wire

end Apogee
