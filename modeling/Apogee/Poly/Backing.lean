import Apogee.Field
import Apogee.Math.Multilinear
import Mathlib.Data.Nat.Bitwise

/-! # Evaluation tables at their native width

A polynomial is stored as its evaluations, in the width its column came in, and
lifted to the field where it is read. Binding a variable folds the table: in place
over the pairs of a field table, through the lift for a narrow one. A missing
value is a panic of the source.
-/

namespace Apogee.Poly

open Apogee.Math

/-- How a polynomial's evaluation table is stored; bits come in limbs of 64. -/
inductive PolyBacking
  | u1 (limbs : List UInt64) (entries : ℕ)
  | u8 (v : List UInt8)
  | u16 (v : List UInt16)
  | u32 (v : List UInt32)
  | fr (v : List Fr)
deriving DecidableEq

namespace PolyBacking

/-- The number of evaluations stored. -/
def entries : PolyBacking → ℕ
  | u1 _ entries => entries
  | u8 v => v.length
  | u16 v => v.length
  | u32 v => v.length
  | fr v => v.length

/-- An entry, lifted to the field. -/
def entry (index : ℕ) : PolyBacking → Option Fr
  | u1 limbs _ => limbs[index / 64]?.map fun limb =>
    if (limb >>> UInt64.ofNat (index % 64)) &&& 1 = 1 then 1 else 0
  | u8 v => v[index]?.map fun x => (x.toNat : Fr)
  | u16 v => v[index]?.map fun x => (x.toNat : Fr)
  | u32 v => v[index]?.map fun x => (x.toNat : Fr)
  | fr v => v[index]?

end PolyBacking

/-- A multilinear polynomial, stored as its evaluations. -/
structure MultilinearPoly where
  backing : PolyBacking
  numVars : ℕ
deriving DecidableEq

/-- The two entries of a pair, joined by a line at `r`. -/
def joined (r lo hi : Fr) : Fr := lo + r * (hi - lo)

/-- One iteration of the fold in place: pair `i` is read, entry `i` overwritten. -/
def foldStep (r : Fr) (values : List Fr) (i : ℕ) : Option (List Fr) := do
  let lo ← values[2 * i]?
  let hi ← values[2 * i + 1]?
  if i < values.length then pure (values.set i (joined r lo hi)) else none

/-- The fold in place, and the truncation after it. -/
def foldInPlace (r : Fr) (values : List Fr) (half : ℕ) : Option (List Fr) :=
  ((List.range half).foldlM (foldStep r) values).map (·.take half)

/-- The fold through the lift. -/
def foldLifted (r : Fr) (backing : PolyBacking) (half : ℕ) : Option (List Fr) :=
  (List.range half).mapM fun i => do
    let lo ← backing.entry (2 * i)
    let hi ← backing.entry (2 * i + 1)
    pure (joined r lo hi)

namespace MultilinearPoly

/-- A bit set has just the limbs its count needs, and no bit past it. -/
def checkLimbs (entries : ℕ) : PolyBacking → Option Unit
  | .u1 limbs _ => do
    guard (limbs.length = (entries + 63) / 64)
    let used := entries - 64 * (limbs.length - 1)
    if used < 64 then
      let last ← limbs[limbs.length - 1]?
      guard (last >>> UInt64.ofNat used = 0)
  | _ => pure ()

/-- A polynomial over a backing of a power of two of evaluations. -/
def new (backing : PolyBacking) : Option MultilinearPoly := do
  let entries := backing.entries
  guard (entries = 2 ^ entries.log2)
  checkLimbs entries backing
  -- The exponent of a power of two is its count of trailing zeros.
  pure ⟨backing, entries.log2⟩

def len (poly : MultilinearPoly) : ℕ := 2 ^ poly.numVars

/-- The evaluation at a vertex of the cube left. -/
def get (index : ℕ) (poly : MultilinearPoly) : Option Fr := do
  guard (index < poly.len)
  poly.backing.entry index

/-- Fix the lowest variable. The first call leaves a field table. -/
def bind (r : Fr) (poly : MultilinearPoly) : Option MultilinearPoly := do
  guard (0 < poly.numVars)
  let half := poly.len / 2
  let values ← match poly.backing with
    | .fr values => foldInPlace r values half
    | small => foldLifted r small half
  pure ⟨.fr values, poly.numVars - 1⟩

/-- The value at a point: a scratch table, folded one coordinate at a time. -/
def evaluate (point : List Fr) (poly : MultilinearPoly) : Option Fr := do
  guard (point.length = poly.numVars)
  if poly.numVars = 0 then poly.get 0
  else
    let r ← point[0]?
    let scratch ← foldLifted r poly.backing (poly.len / 2)
    let scratch ← point.tail.foldlM
      (fun scratch r => foldInPlace r scratch (scratch.length / 2)) scratch
    scratch[0]?

end MultilinearPoly

/-- One iteration of a doubling: entry `i` is split between the two halves. -/
def splitStep (r : Fr) (half : ℕ) (table : List Fr) (i : ℕ) : Option (List Fr) := do
  let v ← table[i]?
  let withOne := v * r
  if i + half < table.length then
    pure ((table.set (i + half) withOne).set i (v - withOne))
  else none

/-- A vector at a new length: cut, or filled up with zeros. -/
def resize (table : List Fr) (length : ℕ) : List Fr :=
  (table ++ List.replicate (length - table.length) 0).take length

/-- One variable more: the table doubled, then split in place. -/
def eqDouble (table : List Fr) (pair : Fr × ℕ) : Option (List Fr) :=
  let half := 2 ^ pair.2
  (List.range half).foldlM (splitStep pair.1 half) (resize table (2 * half))

/-- Equality with a point over the cube. -/
def eqTable (r : List Fr) : Option (List Fr) := r.zipIdx.foldlM eqDouble [1]

/-- Equality with a point off the cube. -/
def eqEval (r y : List Fr) : Option Fr := do
  guard (r.length = y.length)
  pure ((r.zip y).foldl (fun acc pair => acc * (pair.1 * pair.2 + (1 - pair.1) * (1 - pair.2))) 1)

/-! ## Columns -/

/-- A column at its native width, before its bits are packed. -/
inductive Column
  | u1 (v : List Bool)
  | u8 (v : List UInt8)
  | u16 (v : List UInt16)
  | u32 (v : List UInt32)
  | fr (v : List Fr)

namespace Column

/-- The values a column stands for. -/
def lifted : Column → List Fr
  | u1 v => v.map fun bit => if bit then 1 else 0
  | u8 v => v.map fun x => (x.toNat : Fr)
  | u16 v => v.map fun x => (x.toNat : Fr)
  | u32 v => v.map fun x => (x.toNat : Fr)
  | fr v => v

/-- Limb `k` of a bit column. -/
def limb (v : List Bool) (k : ℕ) : ℕ := Nat.ofBits fun j : Fin 64 => v.getD (64 * k + j) false

/-- A column as it is stored. -/
def backing : Column → PolyBacking
  | u1 v => .u1 ((List.range ((v.length + 63) / 64)).map fun k => UInt64.ofNat (limb v k)) v.length
  | u8 v => .u8 v
  | u16 v => .u16 v
  | u32 v => .u32 v
  | fr v => .fr v

theorem entries_backing (column : Column) : column.backing.entries = column.lifted.length := by
  cases column <;> simp [backing, lifted, PolyBacking.entries]

theorem limb_testBit (v : List Bool) (k j : ℕ) :
    (limb v k).testBit j = (decide (j < 64) && v.getD (64 * k + j) false) := by
  rw [limb]
  by_cases inside : j < 64
  · rw [Nat.testBit_ofBits_lt _ _ inside, decide_eq_true inside, Bool.true_and]
  · rw [Nat.testBit_ofBits_ge _ _ (Nat.not_lt.mp inside), decide_eq_false inside, Bool.false_and]

theorem toNat_limb (v : List Bool) (k : ℕ) : (UInt64.ofNat (limb v k)).toNat = limb v k :=
  UInt64.toNat_ofNat_of_lt' (Nat.ofBits_lt_two_pow _)

/-- A limb's bit, as the source reads it. -/
theorem shifted_and_one (limb : UInt64) {j : ℕ} (inside : j < 64) :
    (limb >>> UInt64.ofNat j) &&& 1 = 1 ↔ limb.toNat.testBit j = true := by
  rw [← UInt64.toNat_inj, UInt64.toNat_and, UInt64.toNat_shiftRight,
    UInt64.toNat_ofNat_of_lt' (lt_trans inside (by norm_num)), Nat.mod_eq_of_lt inside,
    show (1 : UInt64).toNat = 1 from rfl, Nat.and_one_is_mod, Nat.testBit, Nat.and_comm,
    Nat.and_one_is_mod]
  rcases Nat.mod_two_eq_zero_or_one (limb.toNat >>> j) with even | odd
  · simp [even]
  · simp [odd]

/-- An entry is the column's value. -/
theorem entry_backing (column : Column) {row : ℕ} (inside : row < column.lifted.length) :
    column.backing.entry row = column.lifted[row]? := by
  cases column with
  | u1 v =>
    have small : row < v.length := by simpa [lifted] using inside
    have covered : row / 64 < (v.length + 63) / 64 := by omega
    rw [backing, PolyBacking.entry, lifted, List.getElem?_map, List.getElem?_range covered,
      List.getElem?_map, List.getElem?_eq_getElem small]
    simp only [Option.map_some]
    have bit : (limb v (row / 64)).testBit (row % 64) = v[row] := by
      rw [limb_testBit, decide_eq_true (Nat.mod_lt _ (by norm_num)), Bool.true_and,
        Nat.div_add_mod, List.getD_eq_getElem _ _ small]
    have reads := shifted_and_one (UInt64.ofNat (limb v (row / 64)))
      (Nat.mod_lt row (show 0 < 64 by norm_num))
    rw [toNat_limb, bit] at reads
    simp only [reads]
  | u8 v => rw [backing, PolyBacking.entry, lifted, List.getElem?_map]
  | u16 v => rw [backing, PolyBacking.entry, lifted, List.getElem?_map]
  | u32 v => rw [backing, PolyBacking.entry, lifted, List.getElem?_map]
  | fr v => rfl

/-- Past the column a bit set's last limb is clear. -/
theorem last_limb_clear (v : List Bool) (nonempty : 0 < v.length) :
    let last := (v.length + 63) / 64 - 1
    let used := v.length - 64 * last
    used < 64 → UInt64.ofNat (limb v last) >>> UInt64.ofNat used = 0 := by
  intro last used small
  rw [← UInt64.toNat_inj, UInt64.toNat_shiftRight, toNat_limb,
    UInt64.toNat_ofNat_of_lt' (lt_trans small (by norm_num)), Nat.mod_eq_of_lt small]
  apply Nat.eq_of_testBit_eq
  intro j
  have past : v.length ≤ 64 * last + (used + j) := by omega
  rw [Nat.testBit_shiftRight, limb_testBit, List.getD_eq_getElem?_getD,
    List.getElem?_eq_none past, Option.getD_none, Bool.and_false]
  exact (Nat.zero_testBit j).symm

end Column

/-! ## The constructor -/

theorem guard_eq_some {p : Prop} [Decidable p] : guard p = some () ↔ p := by
  by_cases holds : p
  · simp [guard, holds]
  · simp [guard, holds]

/-- What the constructor accepts it stores, with the variables its count has. -/
theorem MultilinearPoly.new_some {backing : PolyBacking} {poly : MultilinearPoly}
    (built : MultilinearPoly.new backing = some poly) :
    poly.backing = backing ∧ backing.entries = 2 ^ poly.numVars ∧
      checkLimbs backing.entries backing = some () := by
  rw [MultilinearPoly.new] at built
  simp only [Option.bind_eq_bind, Option.bind_eq_some_iff] at built
  obtain ⟨_, power, _, limbs, rest⟩ := built
  have same := Option.some.inj rest
  rw [← same]
  exact ⟨rfl, guard_eq_some.mp power, limbs⟩

/-- A column of a power of two of values is accepted. -/
theorem MultilinearPoly.new_column (column : Column) {n : ℕ}
    (length : column.lifted.length = 2 ^ n) :
    MultilinearPoly.new column.backing = some ⟨column.backing, n⟩ := by
  have entries : column.backing.entries = 2 ^ n := column.entries_backing.trans length
  have log : (2 ^ n).log2 = n := Nat.log2_two_pow
  have limbs : checkLimbs (2 ^ n) column.backing = some () := by
    cases column with
    | u1 v =>
      have count : v.length = 2 ^ n := by simpa [Column.lifted] using length
      have positive : 0 < v.length := by
        rw [count]
        exact Nat.two_pow_pos n
      have clear := Column.last_limb_clear v positive
      rw [← count, Column.backing, checkLimbs]
      simp only [List.length_map, List.length_range, guard, if_true]
      split
      · next small =>
        rw [List.getElem?_map, List.getElem?_range (by omega)]
        simp only [Option.map_some, Option.bind_eq_bind, Option.bind_some]
        rw [if_pos (clear small)]
        rfl
      · rfl
    | u8 v => rfl
    | u16 v => rfl
    | u32 v => rfl
    | fr v => rfl
  rw [MultilinearPoly.new]
  simp only [entries, log, limbs, guard, if_true]
  rfl

/-! ## The loops in place -/

section Loops

variable {r : Fr} {values : List Fr} {half : ℕ}

/-- After some iterations the folded entries stand before the entries not replaced. -/
def foldedUpTo (r : Fr) (values : List Fr) (i : ℕ) : List Fr :=
  (List.range i).map (bindLow r fun row => values.getD row 0) ++ values.drop i

theorem getElem?_foldedUpTo {i row : ℕ} (past : i ≤ row) :
    (foldedUpTo r values i)[row]? = values[row]? := by
  rw [foldedUpTo, List.getElem?_append_right (by simpa using past), List.length_map,
    List.length_range, List.getElem?_drop, Nat.add_sub_cancel' past]

theorem length_foldedUpTo {i : ℕ} (inside : i ≤ values.length) :
    (foldedUpTo r values i).length = values.length := by
  rw [foldedUpTo, List.length_append, List.length_map, List.length_range, List.length_drop,
    Nat.add_sub_cancel' inside]

theorem foldStep_foldedUpTo {i : ℕ} (inside : 2 * i + 1 < values.length) :
    foldStep r (foldedUpTo r values i) i = some (foldedUpTo r values (i + 1)) := by
  have present (row : ℕ) (small : row < values.length) :
    values[row]? = some (values.getD row 0) := by
    rw [List.getD_eq_getElem?_getD, List.getElem?_eq_getElem small, Option.getD_some]
  have replaced : (foldedUpTo r values i).set i
      (bindLow r (fun row => values.getD row 0) i) = foldedUpTo r values (i + 1) := by
    rw [foldedUpTo, foldedUpTo, List.range_succ, List.map_append, List.append_assoc,
      List.set_append_right _ _ (by simp), List.length_map, List.length_range, Nat.sub_self,
      List.drop_eq_getElem_cons (by omega), List.set_cons_zero]
    rfl
  rw [foldStep, getElem?_foldedUpTo (by omega), getElem?_foldedUpTo (by omega),
    present _ (by omega), present _ inside, length_foldedUpTo (by omega)]
  simp only [Option.bind_eq_bind, Option.bind_some]
  rw [if_pos (by omega)]
  exact congrArg some replaced

/-- Each iteration finds the pair it reads as the table had it. -/
theorem foldlM_foldStep (length : values.length = 2 * half) {i : ℕ} (inside : i ≤ half) :
    (List.range i).foldlM (foldStep r) values = some (foldedUpTo r values i) := by
  induction i with
  | zero => rfl
  | succ i ih =>
    rw [List.range_succ, List.foldlM_append, ih (by omega)]
    simp only [Option.bind_eq_bind, Option.bind_some, List.foldlM_cons, List.foldlM_nil]
    rw [foldStep_foldedUpTo (by omega)]
    rfl

theorem foldInPlace_eq (length : values.length = 2 * half) : foldInPlace r values half =
    some ((List.range half).map (bindLow r fun row => values.getD row 0)) := by
  rw [foldInPlace, foldlM_foldStep length le_rfl, Option.map_some, foldedUpTo, List.take_left']
  rw [List.length_map, List.length_range]

/-- After some iterations of a doubling: the entries split, those left, the upper half so far
and the zeros not yet written. -/
def splitUpTo (r : Fr) (table : List Fr) (i : ℕ) : List Fr :=
  ((table.take i).map fun v => v - v * r) ++
    (table.drop i ++ ((table.take i).map (fun v => v * r) ++ List.replicate (table.length - i) 0))

theorem getElem?_splitUpTo {table : List Fr} {i : ℕ} (inside : i < table.length) :
    (splitUpTo r table i)[i]? = table[i]? := by
  have below : ((table.take i).map fun v => v - v * r).length = i := by
    rw [List.length_map, List.length_take, min_eq_left inside.le]
  rw [splitUpTo, List.getElem?_append_right below.le, below, Nat.sub_self,
    List.getElem?_append_left (by rw [List.length_drop]; omega), List.getElem?_drop, add_zero]

theorem length_splitUpTo {table : List Fr} {i : ℕ} (inside : i ≤ table.length) :
    (splitUpTo r table i).length = 2 * table.length := by
  simp only [splitUpTo, List.length_append, List.length_map, List.length_take, List.length_drop,
    List.length_replicate, min_eq_left inside]
  omega

theorem splitStep_splitUpTo {table : List Fr} {i : ℕ} (inside : i < table.length) :
    splitStep r table.length (splitUpTo r table i) i = some (splitUpTo r table (i + 1)) := by
  have below : (table.take i).length = i := by rw [List.length_take, min_eq_left inside.le]
  have taken : table.take (i + 1) = table.take i ++ [table[i]] := by
    rw [List.take_add_one, List.getElem?_eq_getElem inside]
    rfl
  have left : table.drop i = table[i] :: table.drop (i + 1) := List.drop_eq_getElem_cons inside
  have zeros : List.replicate (table.length - i) (0 : Fr) =
      0 :: List.replicate (table.length - (i + 1)) 0 := by
    rw [← List.replicate_succ]
    congr 1
    omega
  have upper : (splitUpTo r table i).set (i + table.length) (table[i] * r) =
      ((table.take i).map fun v => v - v * r) ++
        (table.drop i ++ ((table.take (i + 1)).map (fun v => v * r) ++
          List.replicate (table.length - (i + 1)) 0)) := by
    rw [splitUpTo, List.set_append_right _ _ (by rw [List.length_map, below]; omega),
      List.length_map, below, Nat.add_sub_cancel_left,
      List.set_append_right _ _ (by rw [List.length_drop]; omega), List.length_drop,
      List.set_append_right _ _ (by rw [List.length_map, below]; omega), List.length_map, below,
      zeros, show table.length - (table.length - i) - i = 0 by omega, List.set_cons_zero, taken,
      List.map_append, List.append_assoc]
    rfl
  have lower : ((splitUpTo r table i).set (i + table.length) (table[i] * r)).set i
      (table[i] - table[i] * r) = splitUpTo r table (i + 1) := by
    rw [upper, List.set_append_right _ _ (by rw [List.length_map, below]), List.length_map, below,
      Nat.sub_self, left, List.cons_append, List.set_cons_zero, splitUpTo, taken]
    simp only [List.map_append, List.map_cons, List.map_nil, List.append_assoc, List.cons_append,
      List.nil_append]
  rw [splitStep, getElem?_splitUpTo inside, List.getElem?_eq_getElem inside,
    length_splitUpTo inside.le]
  simp only [Option.bind_eq_bind, Option.bind_some]
  rw [if_pos (by omega)]
  exact congrArg some lower

theorem foldlM_splitStep {table : List Fr} {i : ℕ} (inside : i ≤ table.length) :
    (List.range i).foldlM (splitStep r table.length) (splitUpTo r table 0) =
      some (splitUpTo r table i) := by
  induction i with
  | zero => rfl
  | succ i ih =>
    rw [List.range_succ, List.foldlM_append, ih (by omega)]
    simp only [Option.bind_eq_bind, Option.bind_some, List.foldlM_cons, List.foldlM_nil]
    rw [splitStep_splitUpTo inside]
    rfl

theorem resize_double (table : List Fr) :
    resize table (2 * table.length) = splitUpTo r table 0 := by
  have short : (table ++ List.replicate (2 * table.length - table.length) (0 : Fr)).length ≤
      2 * table.length := by
    rw [List.length_append, List.length_replicate]
    omega
  rw [resize, List.take_of_length_le short, splitUpTo, List.take_zero, List.map_nil, List.map_nil,
    List.nil_append, List.nil_append, List.drop_zero]
  congr 2
  omega

theorem eqDouble_eq {table : List Fr} {j : ℕ} (length : table.length = 2 ^ j) :
    eqDouble table (r, j) = some (table.map (fun v => v - v * r) ++ table.map fun v => v * r) := by
  rw [eqDouble]
  simp only [← length]
  rw [@resize_double r, foldlM_splitStep le_rfl, splitUpTo, List.take_length, List.drop_length,
    Nat.sub_self, List.replicate_zero, List.append_nil, List.nil_append]

end Loops

end Apogee.Poly
