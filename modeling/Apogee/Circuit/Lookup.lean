import Apogee.Circuit.Gate

/-! # Lookup channels

A lookup expression names a channel, a selector column and a tuple of affine
expressions. What the channel's argument holds to the table is the *gated*
tuple, so a row that its selector switches off looks up the channel's neutral
entry (`LookupExpr.gatedTuple`). The tables are the two ranges, the packed
generic table, the decoded instruction table and the byte XOR table.
-/

namespace Apogee

namespace LookupChannel

/-- Range: the timestamp gap's 19-bit chunks. -/
def timestamp : ℕ := 0
/-- Range: a halfword. -/
def range16 : ℕ := 1
/-- Table: the packed generic table. -/
def generic : ℕ := 2
/-- Table: a family's decoded instruction table. -/
def decoder : ℕ := 3
/-- Table: the byte XOR table. -/
def xor8 : ℕ := 4
/-- How many channels there are. -/
def count : ℕ := 5
/-- A range channel's bound as a bit width, zero for a table channel. -/
def bits : List ℕ := [19, 16, 0, 0, 0]
/-- Whether a channel is a range channel. -/
def isRange : List Bool := [true, true, false, false, false]
/-- The channels' display names. -/
def names : List String := ["timestamp", "range16", "generic", "decoder", "xor8"]
/-- The widest lookup tuple. -/
def maxTuple : ℕ := 7

end LookupChannel

namespace GenericTable

/-- The table's tuple width. -/
def width : ℕ := 3
/-- The AND byte table's key base. -/
def andBase : ℕ := 0
/-- The sign table's key base. -/
def signBase : ℕ := 256
/-- The shift-power table's key base. -/
def shiftBase : ℕ := signBase + 65536
theorem shiftBase_eq : shiftBase = 65792 := rfl

/-- The shift-power table's rows. -/
def shiftRows : ℕ := 32
/-- The exponent a shift-power row's two values sum to. -/
def shiftCopowerBits : ℕ := 31

/-- Every real entry of the packed table: the AND byte table, the sign table,
then the shift powers. -/
def entries : List (List ℕ) :=
  ((List.range 256).flatMap fun a =>
    (List.range 256).map fun b => [andBase + a + 1, b, a &&& b]) ++
  (List.range (2 ^ 16)).map (fun h => [signBase + h + 1, h >>> 15, 0]) ++
  (List.range shiftRows).map fun s => [shiftBase + s + 1, 1 <<< s, 1 <<< (shiftCopowerBits - s)]

/-- The packed table's rows: the zero entry, then the real entries. -/
def rows : List (List ℕ) := [0, 0, 0] :: entries

end GenericTable

/-- A lookup expression: on a selected row, the tuple is looked up in the
channel. -/
structure LookupExpr where
  name : String
  channel : ℕ
  selector : PolyAddress
  tuple : List GateDef
deriving DecidableEq

/-- A channel's table columns and its multiplicity column. -/
structure ChannelSpec where
  channel : ℕ
  table : List PolyAddress
  multiplicity : PolyAddress
deriving DecidableEq

/-- What a channel's gated tuple is on a row its selector switches off, and what
it adds to a participating row. -/
inductive Gating
  /-- `flag·expr`: the neutral tuple is all zero and a real entry. -/
  | noOffset
  /-- `flag·(key + 1)` on column 0 and `flag·v_j` on the rest. -/
  | zeroEntry
  /-- `flag·(v_j + 1) − 1` on every column. -/
  | minusOne
deriving DecidableEq

/-- A channel's gating. The source panics on a number that is no channel. -/
def gating (channel : ℕ) : Gating :=
  if channel = LookupChannel.generic then .zeroEntry
  else if channel = LookupChannel.decoder then .minusOne
  else .noOffset

/-- What a channel's gating adds to a tuple's column `j` before the selector
multiplies it. -/
def Gating.offset : Gating → ℕ → Fr
  | .noOffset, _ => 0
  | .zeroEntry, j => if j = 0 then 1 else 0
  | .minusOne, _ => 1

/-- The neutral value of every column. -/
def Gating.neutral : Gating → Fr
  | .minusOne => -1
  | _ => 0

/-- The tuple a channel's argument compresses on one row. -/
def LookupExpr.gatedTuple (challenges : ExternalChallenges) (row : Row) (lookup : LookupExpr) :
    List Fr :=
  lookup.tuple.mapIdx fun j expression =>
    row lookup.selector * (expression.value challenges row + (gating lookup.channel).offset j) +
      (gating lookup.channel).neutral

/-- The rows of a channel's table; `decoded` is the family's decoded table. -/
def channelTable (decoded : List (List Fr)) (channel : ℕ) (tuple : List Fr) : Prop :=
  if channel = LookupChannel.generic then
    ∃ entry ∈ GenericTable.rows, tuple = entry.map fun value : ℕ => (value : Fr)
  else if channel = LookupChannel.decoder then tuple ∈ decoded
  else if channel = LookupChannel.xor8 then
    ∃ a b : ℕ, a < 256 ∧ b < 256 ∧ tuple = [(a : Fr), (b : Fr), ((a ^^^ b : ℕ) : Fr)]
  else ∃ value : ℕ, value < 2 ^ LookupChannel.bits.getD channel 0 ∧ tuple = [(value : Fr)]

/-- A lookup expression holds on a row when its gated tuple is in the table. -/
def LookupExpr.Holds (challenges : ExternalChallenges) (decoded : List (List Fr)) (row : Row)
    (lookup : LookupExpr) : Prop :=
  channelTable decoded lookup.channel (lookup.gatedTuple challenges row)

/-- The packed table's rows, by the key that names each sub-table. -/
theorem GenericTable.mem_rows {key first second : ℕ} : [key, first, second] ∈ GenericTable.rows ↔
      (key = 0 ∧ first = 0 ∧ second = 0) ∨
      (1 ≤ key ∧ key ≤ 256 ∧ first < 256 ∧ second = (key - 1) &&& first) ∨
      (257 ≤ key ∧ key ≤ 65792 ∧ first = (key - 257) / 2 ^ 15 ∧ second = 0) ∨
      (∃ s < 32, key = 65793 + s ∧ first = 2 ^ s ∧ second = 2 ^ (31 - s)) := by
  simp only [rows, entries, List.mem_cons, List.mem_append, List.mem_flatMap, List.mem_map,
    List.mem_range, List.cons.injEq, and_true, andBase, signBase, shiftBase_eq, shiftRows,
    shiftCopowerBits, Nat.shiftRight_eq_div_pow, Nat.one_shiftLeft, or_assoc]
  constructor
  · rintro (zero | ⟨a, small, b, bound, rfl, rfl, rfl⟩ | ⟨h, bound, rfl, rfl, rfl⟩ |
      ⟨s, bound, keyEq, firstEq, secondEq⟩)
    · exact Or.inl zero
    · exact Or.inr (Or.inl ⟨by omega, by omega, bound, by simp⟩)
    · refine Or.inr (Or.inr (Or.inl ⟨by omega, by omega, ?_, rfl⟩))
      rw [show 256 + h + 1 - 257 = h by omega]
    · exact Or.inr (Or.inr (Or.inr ⟨s, bound, by omega, firstEq.symm, secondEq.symm⟩))
  · rintro (zero | ⟨lower, upper, bound, secondEq⟩ | ⟨lower, upper, firstEq, secondEq⟩ |
      ⟨s, bound, keyEq, firstEq, secondEq⟩)
    · exact Or.inl zero
    · exact Or.inr (Or.inl ⟨key - 1, by omega, first, bound, by omega, rfl, secondEq.symm⟩)
    · exact Or.inr (Or.inr (Or.inl ⟨key - 257, by omega, by omega, firstEq.symm, secondEq.symm⟩))
    · exact Or.inr (Or.inr (Or.inr ⟨s, bound, by omega, firstEq.symm, secondEq.symm⟩))

/-- Every packed row is a triple of words. -/
theorem GenericTable.exists_of_mem {entry : List ℕ} (member : entry ∈ GenericTable.rows) :
    ∃ key first second, entry = [key, first, second] ∧ key < 2 ^ 32 ∧ first < 2 ^ 32 ∧
      second < 2 ^ 32 := by
  have triple : ∃ key first second, entry = [key, first, second] := by
    simp only [rows, entries, List.mem_cons, List.mem_append, List.mem_flatMap, List.mem_map,
      or_assoc] at member
    rcases member with rfl | ⟨a, -, b, -, rfl⟩ | ⟨h, -, rfl⟩ | ⟨s, -, rfl⟩ <;>
      exact ⟨_, _, _, rfl⟩
  obtain ⟨key, first, second, rfl⟩ := triple
  refine ⟨key, first, second, rfl, ?_⟩
  rcases GenericTable.mem_rows.mp member with zero | ⟨lower, upper, bound, masked⟩ |
    ⟨lower, upper, top, rfl⟩ | ⟨s, bound, keyEq, firstEq, secondEq⟩
  · omega
  · have : (key - 1) &&& first ≤ first := Nat.and_le_right
    omega
  · omega
  · have firstBound : 2 ^ s < 2 ^ 32 := Nat.pow_lt_pow_right (by omega) (by omega)
    have secondBound : 2 ^ (31 - s) < 2 ^ 32 := Nat.pow_lt_pow_right (by omega) (by omega)
    omega

/-- The executable membership test of a channel's table. -/
def channelCheck (decoded : List (List Fr)) (channel : ℕ) (tuple : List Fr) : Bool :=
  if channel = LookupChannel.generic then
    match tuple with
    | [key, first, second] =>
      (key.val == 0 && first.val == 0 && second.val == 0) ||
      (decide (1 ≤ key.val) && decide (key.val ≤ 256) && decide (first.val < 256) &&
        second.val == (key.val - 1) &&& first.val) ||
      (decide (257 ≤ key.val) && decide (key.val ≤ 65792) &&
        first.val == (key.val - 257) / 2 ^ 15 && second.val == 0) ||
      (List.range 32).any fun s =>
        key.val == 65793 + s && first.val == 2 ^ s && second.val == 2 ^ (31 - s)
    | _ => false
  else if channel = LookupChannel.decoder then decide (tuple ∈ decoded)
  else if channel = LookupChannel.xor8 then
    match tuple with
    | [a, b, out] => decide (a.val < 256) && decide (b.val < 256) && out.val == a.val ^^^ b.val
    | _ => false
  else
    match tuple with
    | [value] => decide (value.val < 2 ^ LookupChannel.bits.getD channel 0)
    | _ => false

/-- A tuple that passes the test is in the channel's table. -/
theorem channelTable_of_check {decoded : List (List Fr)} {channel : ℕ} {tuple : List Fr}
    (check : channelCheck decoded channel tuple = true) : channelTable decoded channel tuple := by
  have cast (element : Fr) : ((element.val : ℕ) : Fr) = element := ZMod.natCast_zmod_val element
  unfold channelCheck at check
  unfold channelTable
  split_ifs with generic decoder xor8
  · simp only [if_pos generic] at check
    split at check
    next key first second =>
      refine ⟨[key.val, first.val, second.val], GenericTable.mem_rows.mpr ?_, by simp [cast]⟩
      simp only [Bool.or_eq_true, Bool.and_eq_true, beq_iff_eq, decide_eq_true_eq,
        List.any_eq_true, List.mem_range, or_assoc, and_assoc] at check
      exact check
    next => exact absurd check Bool.false_ne_true
  · simpa [if_neg generic, if_pos decoder] using check
  · simp only [if_neg generic, if_neg decoder, if_pos xor8] at check
    split at check
    next a b out =>
      simp only [Bool.and_eq_true, beq_iff_eq, decide_eq_true_eq] at check
      exact ⟨a.val, b.val, check.1.1, check.1.2, by rw [← check.2]; simp [cast]⟩
    next => exact absurd check Bool.false_ne_true
  · simp only [if_neg generic, if_neg decoder, if_neg xor8] at check
    split at check
    next value => exact ⟨value.val, of_decide_eq_true check, by simp [cast]⟩
    next => exact absurd check Bool.false_ne_true

end Apogee
