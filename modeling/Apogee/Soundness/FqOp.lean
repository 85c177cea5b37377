import Apogee.Math.Passes
import Apogee.Soundness.Delegation
import Apogee.Soundness.FqWitness

/-! # The base-field operation row

A live row's gates and obligations say which operation its frame names, where its
elements are, and that the identity holds of the integers its limbs are. In the
other direction the witness fills a row exactly where the identity has a
quotient: where its left side is not short of the new element.
-/

namespace Apogee.FqOp

open Delegation Gadgets Math

section Sums

variable {challenges : ExternalChallenges} {row : Row}

/-- A term's value on a row. -/
def Item.value (row : Row) : Item → Fr
  | .lin k x => k * row x
  | .prod k x y => k * row x * row y

/-- A sum's value on a row. -/
def Sum.value (row : Row) (sum : Sum) : Fr :=
  (sum.lin.map fun term => term.1 * row term.2).sum +
    (sum.prod.map fun term => term.1 * row term.2.1 * row term.2.2).sum

private theorem sum_merge (k : Fr) (x : PolyAddress) (terms : List (Fr × PolyAddress)) :
    ((Sum.merge k x terms).map fun term => term.1 * row term.2).sum =
      (terms.map fun term => term.1 * row term.2).sum + k * row x := by
  induction terms with
  | nil => simp [Sum.merge]
  | cons term terms ih =>
    rw [Sum.merge]
    by_cases same : term.2 = x
    · rw [if_pos same, List.map_cons, List.map_cons, List.sum_cons, List.sum_cons, ← same]
      ring
    · rw [if_neg same, List.map_cons, List.map_cons, List.sum_cons, List.sum_cons, ih]
      ring

theorem Sum.value_push (sum : Sum) (item : Item) :
    (sum.push item).value row = sum.value row + item.value row := by
  cases item with
  | lin k x =>
    rw [Sum.push, Sum.value, Sum.value, sum_merge, Item.value]
    ring
  | prod k x y =>
    simp only [Sum.push, Sum.value, Item.value, List.map_append, List.map_cons, List.map_nil,
      List.sum_append, List.sum_cons, List.sum_nil]
    ring

theorem Sum.value_foldl (items : List Item) (sum : Sum) : (items.foldl Sum.push sum).value row =
      sum.value row + (items.map fun item => item.value row).sum := by
  induction items generalizing sum with
  | nil => simp
  | cons item items ih =>
    rw [List.foldl_cons, ih, Sum.value_push, List.map_cons, List.sum_cons, add_assoc]

/-- A sum's gate has its value. -/
theorem Sum.value_gate (sum : Sum) : sum.gate.value challenges row = sum.value row := by
  have kept : ((sum.lin.filter fun term => term.1 ≠ 0).map fun term => term.1 * row term.2).sum =
      (sum.lin.map fun term => term.1 * row term.2).sum := by
    generalize sum.lin = terms
    induction terms with
    | nil => rfl
    | cons term terms ih =>
      by_cases zero : term.1 = 0
      · rw [List.filter_cons_of_neg (by simpa using zero), ih, List.map_cons, List.sum_cons, zero]
        ring
      · rw [List.filter_cons_of_pos (by simpa using zero), List.map_cons, List.map_cons,
          List.sum_cons, List.sum_cons, ih]
  simp only [Sum.gate, quadratic, value_quadratic, List.map_map, Function.comp_def,
    coefficient_literal, coefficient_lit, Nat.cast_zero, zero_add, kept, Sum.value]

/-- A group's gate has its terms' value. -/
theorem value_group (g : ℕ) :
    (group g).value challenges row = ((groupItems g).map fun item => item.value row).sum := by
  rw [group, Sum.value_gate, Sum.value_foldl]
  simp [Sum.value]

end Sums

/-- A row's signed carries: none into the first group, none out of the last. -/
def signedCarry (carry : ℕ → ℕ) : ℕ → ℤ
  | 0 => 0
  | g + 1 => if g < 3 then (carry g : ℤ) - 2 ^ carryOffsetBits else 0

/-- A row's columns hold the identity's numbers: the operands' limbs, the
quotient's by its chunks, the addend's by the selectors, and the carries. -/
structure HoldsNumbers (row : Row) (a y d : List ℕ) (z : ℕ → ℤ) (k carry : ℕ → ℕ) : Prop where
  products : ∀ i < 4, ∀ j < 4,
    row (FqOp.a i) * row (FqOp.y j) = ((a.getD i 0 * y.getD j 0 : ℕ) : Fr)
  quotient : ∀ j < 4,
    ((List.range 4).map fun c => kWeight j c * row (kChunk j c)).sum = ((k j : ℕ) : Fr)
  addend : ∀ i < 4, row (sel add) * row (b i) - row (sel sub) * row (b i) +
    ((subMultiple : ℕ) : Fr) * ((qLimb i : ℕ) : Fr) * row (sel sub) +
    row (sel from128) * row (dNew i) = ((z i : ℤ) : Fr)
  element : ∀ i < 4, row (dNew i) = ((d.getD i 0 : ℕ) : Fr)
  carries : ∀ g < 3,
    ((List.range 4).map fun c => pow2 (19 * c) * row (carryChunk g c)).sum = ((carry g : ℕ) : Fr)

section Groups

variable {challenges : ExternalChallenges} {row : Row} {a y d : List ℕ} {z : ℕ → ℤ}
  {k carry : ℕ → ℕ}

private theorem value_place (holds : HoldsNumbers row a y d z k carry) (scale : Fr) (i : ℕ) :
    ((place scale i).map fun item => item.value row).sum =
      scale * ((balance a y z d k i : ℤ) : Fr) := by
  have products : (((List.range 4).flatMap fun l =>
      if l ≤ i ∧ i - l < 4 then
        Item.prod scale (FqOp.a l) (FqOp.y (i - l)) ::
          (List.range 4).map fun c =>
            .lin (-scale * ((qLimb l : ℕ) : Fr) * kWeight (i - l) c) (kChunk (i - l) c)
      else []).map fun item => item.value row).sum =
        scale * (((convolve (fun l => a.getD l 0) (fun j => y.getD j 0) 4 4 i : ℕ) -
          (convolve qLimb k 4 4 i : ℕ) : ℤ) : Fr) := by
    rw [sum_map_flatMap, list_sum_range]
    push_cast
    rw [cast_convolve, cast_convolve, convolve, convolve, ← Finset.sum_sub_distrib, Finset.mul_sum]
    refine Finset.sum_congr rfl fun l member => ?_
    have few := Finset.mem_range.mp member
    by_cases inside : l ≤ i ∧ i - l < 4
    · have product := holds.products l few (i - l) inside.2
      have quotient := holds.quotient (i - l) inside.2
      rw [if_pos inside, if_pos inside, if_pos inside, List.map_cons, List.map_map, List.sum_cons,
        ← quotient, list_sum_range, list_sum_range, Finset.mul_sum, mul_sub, Finset.mul_sum,
        sub_eq_add_neg, ← Finset.sum_neg_distrib]
      refine congrArg₂ _ ?_ (Finset.sum_congr rfl fun c _ => ?_)
      · rw [Item.value, mul_assoc, product]
        push_cast
        ring
      · simp only [Function.comp_apply, Item.value]
        ring
    · rw [if_neg inside, if_neg inside, if_neg inside, List.map_nil, List.sum_nil, sub_zero,
        mul_zero]
  rw [place, List.map_append, List.sum_append, products, balance]
  by_cases few : i < 4
  · have addend := holds.addend i few
    have element := holds.element i few
    rw [if_pos few, if_pos few]
    simp only [List.map_cons, List.map_nil, List.sum_cons, List.sum_nil, Item.value]
    push_cast at addend element ⊢
    rw [← addend, element]
    ring
  · rw [if_neg few, if_neg few, List.map_nil, List.sum_nil]
    push_cast
    ring

private theorem value_carry (selected : row live = 1) (holds : HoldsNumbers row a y d z k carry)
    (scale : Fr) {g : ℕ} (inside : g < 3) :
    ((FqOp.carry g scale).map fun item => item.value row).sum =
      scale * ((signedCarry carry (g + 1) : ℤ) : Fr) := by
  have chunks := holds.carries g inside
  rw [FqOp.carry, List.map_append, List.sum_append, List.map_map, signedCarry, if_pos inside]
  simp only [Function.comp_def, Item.value, List.map_cons, List.map_nil, List.sum_cons,
    List.sum_nil, selected, mul_assoc, List.sum_map_mul_left, chunks]
  simp only [pow2]
  push_cast
  ring

/-- A group's gate is its balance with its carries. -/
theorem value_group_eq (selected : row live = 1) (holds : HoldsNumbers row a y d z k carry) {g : ℕ}
    (inside : g < 4) :
    (group g).value challenges row = ((groupBalance (balance a y z d k) g + signedCarry carry g -
      2 ^ 128 * signedCarry carry (g + 1) : ℤ) : Fr) := by
  have into : (((if 0 < g then FqOp.carry (g - 1) 1 else []) : List Item).map
      fun item => item.value row).sum = ((signedCarry carry g : ℤ) : Fr) := by
    cases g with
    | zero => simp [signedCarry]
    | succ g =>
      rw [if_pos (Nat.succ_pos g), Nat.add_sub_cancel,
        value_carry selected holds 1 (show g < 3 by omega), one_mul]
  have outOf : (((if g < 3 then FqOp.carry g (-pow2 128) else []) : List Item).map
      fun item => item.value row).sum = -(pow2 128 * ((signedCarry carry (g + 1) : ℤ) : Fr)) := by
    by_cases few : g < 3
    · rw [if_pos few, value_carry selected holds _ few, neg_mul]
    · rw [if_neg few, signedCarry, if_neg few]
      simp
  rw [value_group, groupItems, List.map_append, List.map_append, List.map_append, List.sum_append,
    List.sum_append, List.sum_append, value_place holds, value_place holds, into, outOf,
    groupBalance]
  simp only [pow2]
  push_cast
  ring

/-- The groups' gates say that the balances and the carries close. -/
theorem groups_iff (selected : row live = 1) (holds : HoldsNumbers row a y d z k carry)
    (aSmall : InRange a) (ySmall : InRange y) (dSmall : InRange d)
    (zSmall : ∀ i < 4, |z i| ≤ 7 * 2 ^ 64) (kSmall : ∀ j < 4, k j < 2 ^ 76)
    (carrySmall : ∀ g < 3, carry g < 2 ^ 76) :
    (∀ g < 4, (group g).value challenges row = 0) ↔
      ∀ g < 4, groupBalance (balance a y z d k) g + signedCarry carry g =
        2 ^ 128 * signedCarry carry (g + 1) := by
  refine forall₂_congr fun g inside => ?_
  rw [value_group_eq selected holds inside]
  have bound := abs_le.mp (abs_groupBalance_le (fun place => abs_balance_le aSmall ySmall dSmall
    zSmall kSmall (by norm_num) place) g)
  have signed (g : ℕ) : |signedCarry carry g| ≤ 2 ^ 76 := by
    cases g with
    | zero => simp [signedCarry]
    | succ g =>
      rw [signedCarry]
      by_cases few : g < 3
      · have small := carrySmall g few
        rw [if_pos few, abs_le, carryOffsetBits]
        omega
      · simp [few]
  have before := abs_le.mp (signed g)
  have after := abs_le.mp (signed (g + 1))
  constructor
  · intro vanishes
    have zero := fr_eq_zero vanishes (by omega) (by omega)
    omega
  · intro equal
    rw [equal, sub_self, Int.cast_zero]

end Groups

/-- What an operation word names: an operation and which operands are indirect. -/
structure Call where
  op : Op
  indD : Bool
  indA : Bool
  indB : Bool
deriving DecidableEq

/-- The word of a call over a digit cell. -/
def Call.word (call : Call) (cell : ℕ) : ℕ :=
  call.op.code + flagD * call.indD.toNat + flagA * call.indA.toNat + flagB * call.indB.toNat +
    2 ^ digitShift * cell

/-- A word names one call and one digit cell. -/
theorem Call.word_injective {call other : Call} {cell otherCell : ℕ}
    (same : call.word cell = other.word otherCell) : call = other ∧ cell = otherCell := by
  have codes (op : Op) : 1 ≤ op.code ∧ op.code ≤ 5 := by
    cases op <;> decide
  have codeInj {left right : Op} (equal : left.code = right.code) : left = right := by
    cases left <;> cases right <;> first | rfl | cases equal
  have bit (flag : Bool) : flag.toNat ≤ 1 := Bool.toNat_le flag
  have bitInj {left right : Bool} (equal : left.toNat = right.toNat) : left = right := by
    cases left <;> cases right <;> first | rfl | cases equal
  obtain ⟨op, indD, indA, indB⟩ := call
  obtain ⟨op', indD', indA', indB'⟩ := other
  simp only [Call.word, flagD, flagA, flagB, digitShift, codeBits] at same
  have left := codes op
  have right := codes op'
  have dBit := bit indD
  have aBit := bit indA
  have bBit := bit indB
  have dBit' := bit indD'
  have aBit' := bit indA'
  have bBit' := bit indB'
  have opEq : op = op' := codeInj (by omega)
  have dEq : indD = indD' := bitInj (by omega)
  have aEq : indA = indA' := bitInj (by omega)
  have bEq : indB = indB' := bitInj (by omega)
  subst opEq dEq aEq bEq
  exact ⟨rfl, by omega⟩

/-- A row's selectors select an operation. -/
def Selects (row : Row) (op : Op) : Prop :=
  ∀ other : Op, row (sel other.code) = if other = op then 1 else 0

section Gates

variable {challenges : ExternalChallenges} {decoded : List (List Fr)} {row : Row}

/-- Selectors that are bits and sum to 1 select an operation. -/
theorem exists_selects_iff : ((∀ code ∈ ops, row (sel code) = 0 ∨ row (sel code) = 1) ∧
        (ops.map fun code => row (sel code)).sum = 1) ↔ ∃ op, Selects row op := by
  have hot := @oneHot_iff row selector 5 (by norm_num)
  have bits : (∀ code ∈ ops, row (sel code) = 0 ∨ row (sel code) = 1) ↔
      ∀ i < 5, row (selector i) = 0 ∨ row (selector i) = 1 := by
    refine ⟨fun each i inside => ?_, fun each code member => ?_⟩
    · have member : i + 1 ∈ ops := by interval_cases i <;> decide
      exact each (i + 1) member
    · have inside : code - 1 < 5 := by
        simp only [ops, mul, add, sub, muleq, from128, List.mem_cons, List.not_mem_nil,
          or_false] at member
        omega
      exact each (code - 1) inside
  rw [bits]
  refine hot.trans ⟨fun given => ?_, fun given => ?_⟩
  · obtain ⟨place, inside, each⟩ := given
    have selects (op : Op) (code : op.code = place + 1) : Selects row op := by
      intro other
      have few : other.code - 1 < 5 := by cases other <;> decide
      refine (each (other.code - 1) few).trans ?_
      have same : other.code - 1 = place ↔ other = op := by
        cases op <;> cases other <;> simp_all [Op.code, mul, add, sub, muleq, from128]
      by_cases equal : other = op
      · rw [if_pos equal, if_pos (same.mpr equal)]
      · rw [if_neg equal, if_neg fun sameCode => equal (same.mp sameCode)]
    interval_cases place
    · exact ⟨.mul, selects _ rfl⟩
    · exact ⟨.add, selects _ rfl⟩
    · exact ⟨.sub, selects _ rfl⟩
    · exact ⟨.muleq, selects _ rfl⟩
    · exact ⟨.from128, selects _ rfl⟩
  · obtain ⟨op, selects⟩ := given
    refine ⟨op.code - 1, by cases op <;> decide, fun i inside => ?_⟩
    interval_cases i
    · exact (selects .mul).trans (by cases op <;> rfl)
    · exact (selects .add).trans (by cases op <;> rfl)
    · exact (selects .sub).trans (by cases op <;> rfl)
    · exact (selects .muleq).trans (by cases op <;> rfl)
    · exact (selects .from128).trans (by cases op <;> rfl)

/-- A sum weighted by the selectors is the selected operation's weight. -/
theorem sum_selects {op : Op} (selects : Selects row op) :
    (ops.map fun code => ((code : ℕ) : Fr) * row (sel code)).sum = ((op.code : ℕ) : Fr) := by
  have whole : (ops.map fun code => ((code : ℕ) : Fr) * row (sel code)).sum =
      ((Op.mul.code : ℕ) : Fr) * row (sel Op.mul.code) +
        (((Op.add.code : ℕ) : Fr) * row (sel Op.add.code) +
          (((Op.sub.code : ℕ) : Fr) * row (sel Op.sub.code) +
            (((Op.muleq.code : ℕ) : Fr) * row (sel Op.muleq.code) +
              (((Op.from128.code : ℕ) : Fr) * row (sel Op.from128.code) + 0)))) := rfl
  rw [whole, selects, selects, selects, selects, selects]
  cases op <;> simp

/-- The selectors' and flags' gates say that the frame's word names a call. -/
theorem selectorGates_iff (selected : row live = 1) :
    (∀ gate ∈ selectorGates, gate.2.value challenges row = 0) ↔
      ∃ call : Call, Selects row call.op ∧ row indD = bitFr call.indD ∧
        row indA = bitFr call.indA ∧ row indB = bitFr call.indB ∧
        row (frame opWord) = ((call.word 0 : ℕ) : Fr) + ((2 ^ digitShift : ℕ) : Fr) * row gAddr := by
  have one : (linear ((neg 1, live) :: ops.map fun code => (lit 1, sel code))).value challenges row =
      (ops.map fun code => row (sel code)).sum - 1 := by
    simp only [linear, value_linear, List.map_cons, List.map_map, Function.comp_def, List.sum_cons,
      coefficient_neg, coefficient_lit, selected, Nat.cast_one, one_mul, mul_one, Nat.cast_zero]
    ring
  have named : (linear ((neg 1, frame opWord) :: (ops.map fun code => (lit code, sel code)) ++
      [(lit flagD, indD), (lit flagA, indA), (lit flagB, indB),
        (lit (2 ^ digitShift), gAddr)])).value challenges row =
      (ops.map fun code => ((code : ℕ) : Fr) * row (sel code)).sum + ((flagD : ℕ) : Fr) * row indD +
        ((flagA : ℕ) : Fr) * row indA + ((flagB : ℕ) : Fr) * row indB +
        ((2 ^ digitShift : ℕ) : Fr) * row gAddr - row (frame opWord) := by
    simp only [linear, value_linear, List.map_cons, List.map_append, List.map_map, List.map_nil,
      Function.comp_def, List.sum_cons, List.sum_append, List.sum_nil, List.cons_append,
      coefficient_neg, coefficient_lit, Nat.cast_one, Nat.cast_zero]
    ring
  simp only [selectorGates, List.forall_mem_append, List.forall_mem_cons, List.forall_mem_map,
    List.not_mem_nil, IsEmpty.forall_iff, implies_true, and_true, booleanity_iff, one, named,
    sub_eq_zero]
  have flag {x : PolyAddress} (bit : row x = 0 ∨ row x = 1) : ∃ on : Bool, row x = bitFr on := by
    rcases bit with zero | one
    · exact ⟨false, zero⟩
    · exact ⟨true, one⟩
  have bit (on : Bool) : bitFr on = 0 ∨ bitFr on = 1 := by
    cases on
    · exact Or.inl rfl
    · exact Or.inr rfl
  constructor
  · intro given
    obtain ⟨⟨boolean, dBit, aBit, bBit⟩, total, code⟩ := given
    obtain ⟨op, selects⟩ := exists_selects_iff.mp ⟨boolean, total⟩
    obtain ⟨indD', dEq⟩ := flag dBit
    obtain ⟨indA', aEq⟩ := flag aBit
    obtain ⟨indB', bEq⟩ := flag bBit
    rw [sum_selects selects] at code
    refine ⟨⟨op, indD', indA', indB'⟩, selects, dEq, aEq, bEq, ?_⟩
    rw [← code, dEq, aEq, bEq, Call.word, bitFr_eq_toNat, bitFr_eq_toNat, bitFr_eq_toNat]
    push_cast
    ring
  · intro given
    obtain ⟨call, selects, dEq, aEq, bEq, code⟩ := given
    obtain ⟨boolean, total⟩ := exists_selects_iff.mpr ⟨call.op, selects⟩
    rw [sum_selects selects, dEq, aEq, bEq]
    refine ⟨⟨boolean, bit _, bit _, bit _⟩, total, ?_⟩
    rw [code, Call.word, bitFr_eq_toNat, bitFr_eq_toNat, bitFr_eq_toNat]
    push_cast
    ring

/-- The address gates say where the elements are. -/
theorem addressGates_iff : (∀ gate ∈ addressGates, gate.2.value challenges row = 0) ↔
      row dAddr = row (frame dWord) + ((bucketCells : ℕ) : Fr) * row indD * row digit ∧
      row aAddr = row (frame aWord) + ((bucketCells : ℕ) : Fr) * row indA * row digit ∧
      row bAddr = row (frame bWord) + ((bucketCells : ℕ) : Fr) * row indB * row digit := by
  have each (addr word flag : PolyAddress) :
      (quadratic [(lit 1, addr), (neg 1, word)] [(neg bucketCells, flag, digit)]).value challenges
        row = row addr - (row word + ((bucketCells : ℕ) : Fr) * row flag * row digit) := by
    simp only [quadratic, value_quadratic, List.map_cons, List.map_nil, List.sum_cons, List.sum_nil,
      coefficient_lit, coefficient_neg]
    push_cast
    ring
  simp only [addressGates, List.map_cons, List.map_nil, List.forall_mem_cons, List.not_mem_nil,
    IsEmpty.forall_iff, implies_true, and_true, each, sub_eq_zero]

/-- The multiplier's gates say that it is the selected operation's. -/
theorem yGates_iff {op : Op} {list : List ℕ} (selects : Selects row op)
    (bEq : ∀ i < 4, row (b i) = ((list.getD i 0 : ℕ) : Fr)) :
    (∀ gate ∈ yGates, gate.2.value challenges row = 0) ↔
      ∀ j < 4, row (y j) = (((op.y list).getD j 0 : ℕ) : Fr) := by
  simp only [yGates, List.forall_mem_map, List.mem_range]
  refine forall₂_congr fun j inside => ?_
  have value : (quadratic ((lit 1, y j) :: if j = 0 then [(neg 1, sel add), (neg 1, sel sub)] else [])
      [(neg 1, sel mul, b j), (neg 1, sel muleq, b j)]).value challenges row =
        row (y j) - (((op.y list).getD j 0 : ℕ) : Fr) := by
    have first := selects .mul
    have second := selects .add
    have third := selects .sub
    have fourth := selects .muleq
    simp only [Op.code] at first second third fourth
    rw [quadratic, value_quadratic]
    have products : (((lit 1, y j) ::
        if j = 0 then [(neg 1, sel add), (neg 1, sel sub)] else []).map
          fun term : Coeff × PolyAddress => coefficient challenges term.1 * row term.2).sum =
        row (y j) - if j = 0 then row (sel add) + row (sel sub) else 0 := by
      by_cases zero : j = 0
      · simp only [if_pos zero, List.map_cons, List.map_nil, List.sum_cons, List.sum_nil,
          coefficient_lit, coefficient_neg]
        push_cast
        ring
      · simp [if_neg zero]
    rw [products]
    simp only [List.map_cons, List.map_nil, List.sum_cons, List.sum_nil, coefficient_lit,
      coefficient_neg, first, second, third, fourth, bEq j inside]
    interval_cases j
    all_goals
      cases op <;> simp [Op.y, sub_eq_add_neg]
  rw [value, sub_eq_zero]

end Gates

end Apogee.FqOp
