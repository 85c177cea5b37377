import Apogee.Soundness.DelegationBits

/-! # The field-arithmetic row

A live row's gates say that the frame names one operation, that the operands and
the result are numbers below the modulus, and that the result is the operation's.
Read as limbs in memory, it is the field's own addition, Montgomery product and
inverse.
-/

namespace Apogee.FrArith

open Delegation Gadgets Math Montgomery

/-- The words hold a number below the modulus, by its limbs. -/
def HoldsValue (words : ℕ → Fr) (first n : ℕ) : Prop :=
  n < frModulus ∧ ∀ k < 8, words (first + k) = ((limbAt (2 ^ 32) n k : ℕ) : Fr)

/-- The radix of the representation in memory. -/
def memoryRadix : Fr := ((2 ^ 256 : ℕ) : Fr)

/-- What an operation computes on representations in memory; 0 has the inverse 0. -/
def Result (op : ℕ) (a b out : Fr) : Prop :=
  (op = opAdd ∧ out = a + b) ∨ (op = opMul ∧ out = a * b * memoryRadix⁻¹) ∨
    (op = opInv ∧ out = memoryRadix ^ 2 * a⁻¹)

/-- What a call computes, over the elements its row reads and writes: the first
word names the operation, the operands and the result are numbers below the
modulus by their words, the words before the result are kept, and the result is
the operation's. -/
def Computes (read written : ℕ → Fr) : Prop :=
  ∃ op a b out : ℕ, read opcodeWord = ((op : ℕ) : Fr) ∧ HoldsValue read aWord a ∧
    HoldsValue read bWord b ∧ HoldsValue written outWord out ∧
    (∀ j < outWord, written j = read j) ∧ Result op (a : Fr) (b : Fr) (out : Fr)

theorem rho_eq : rho = memoryRadix := Element.stored_one

private theorem sum_map_neg {α : Type*} (list : List α) (f : α → Fr) :
    (list.map fun x => -f x).sum = -(list.map f).sum := by
  induction list with
  | nil => simp
  | cons x list ih => rw [List.map_cons, List.sum_cons, List.map_cons, List.sum_cons, ih, neg_add]

/-- The value of a form. -/
def formValue (challenges : ExternalChallenges) (row : Row) (terms : List (Coeff × PolyAddress)) :
    Fr :=
  (terms.map fun term => coefficient challenges term.1 * row term.2).sum

section Gates

variable {challenges : ExternalChallenges} {decoded : List (List Fr)} {row : Row}

/-- A value's terms sum to it. -/
theorem formValue_valueTerms {first field n : ℕ}
    (holds : HoldsValue (fun j => row (word j field)) first n) :
    formValue challenges row (valueTerms first field) = ((n : ℕ) : Fr) := by
  have number : ((n : ℕ) : Fr) = ∑ k ∈ Finset.range 8,
      ((2 ^ 32 : ℕ) : Fr) ^ k * ((limbAt (2 ^ 32) n k : ℕ) : Fr) := by
    conv_lhs => rw [← limbSum_limbAt_of_lt (lt_trans holds.1 (by norm_num [frModulus] :
      frModulus < (2 ^ 32) ^ 8)), cast_limbSum]
    rfl
  rw [formValue, valueTerms, List.map_map, list_sum_range, number]
  refine Finset.sum_congr rfl fun k member => ?_
  have wordEq := holds.2 k (Finset.mem_range.mp member)
  dsimp only at wordEq
  rw [Function.comp_apply, coefficient_literal, wordEq, wordWeight]

/-- The selectors' gates say that the frame names one operation. -/
theorem selectorGates_iff (selected : row live = 1) :
    (∀ gate ∈ selectorGates, gate.2.value challenges row = 0) ↔
      ∃ i < 3, row (word opcodeWord wordReadValue) = ((ops.getD i 0 : ℕ) : Fr) ∧
        ∀ j < 3, row (selector j) = if j = i then 1 else 0 := by
  have bits : (∀ gate ∈ ops.mapIdx fun i op =>
        ("selector" ++ toString op ++ "_boolean", booleanity (selector i)),
      gate.2.value challenges row = 0) ↔ ∀ i < 3, row (selector i) = 0 ∨ row (selector i) = 1 := by
    simp only [forall_mem_mapIdx, booleanity_iff]
    rfl
  have named : (linear ((lit 1, word opcodeWord wordReadValue) ::
      ops.mapIdx fun i op => (neg op, selector i))).value challenges row =
        row (word opcodeWord wordReadValue) -
          ((List.range 3).map fun i => ((ops.getD i 0 : ℕ) : Fr) * row (selector i)).sum := by
    rw [linear, value_linear, List.map_cons, List.sum_cons, sum_map_mapIdx _ _ _ 0]
    simp only [coefficient_lit, coefficient_neg, neg_mul, Nat.cast_one, one_mul, Nat.cast_zero,
      zero_add, list_sum_range, Finset.sum_neg_distrib, ← sub_eq_add_neg]
    rfl
  have one : (linear ((ops.mapIdx fun i _ => (lit 1, selector i)) ++ [(neg 1, live)])).value
      challenges row = ((List.range 3).map fun i => row (selector i)).sum - 1 := by
    rw [linear, value_linear, List.map_append, List.sum_append, sum_map_mapIdx _ _ _ 0]
    simp only [coefficient_lit, coefficient_neg, List.map_cons, List.map_nil, List.sum_cons,
      List.sum_nil, selected, Nat.cast_one, one_mul, mul_one, Nat.cast_zero, add_zero, zero_add,
      ← sub_eq_add_neg]
    rfl
  simp only [selectorGates, List.forall_mem_append, List.forall_mem_cons, List.not_mem_nil,
    IsEmpty.forall_iff, implies_true, and_true, bits, named, one, sub_eq_zero]
  have hot := @oneHot_iff row selector 3 (by norm_num)
  constructor
  · intro given
    obtain ⟨boolean, code, total⟩ := given
    obtain ⟨i, few, each⟩ := hot.mp ⟨boolean, total⟩
    rw [sum_oneHot few each fun i => ((ops.getD i 0 : ℕ) : Fr)] at code
    exact ⟨i, few, code, each⟩
  · intro given
    obtain ⟨i, few, code, each⟩ := given
    obtain ⟨boolean, total⟩ := hot.mpr ⟨i, few, each⟩
    rw [sum_oneHot few each fun i => ((ops.getD i 0 : ℕ) : Fr)]
    exact ⟨boolean, code, total⟩

/-- The operations' gates, over the values' forms. -/
private theorem operationGates_parts {a b out : Fr} (aEq : formValue challenges row aTerms = a)
    (bEq : formValue challenges row bTerms = b) (outEq : formValue challenges row outTerms = out) :
    (∀ gate ∈ operationGates, gate.2.value challenges row = 0) ↔
      row prod = a * b ∧ row isZero - row (selector 2) + a * row inv = 0 ∧ a * row isZero = 0 ∧
        row isZero * row inv = 0 ∧
        out = row (selector 0) * (a + b) + memoryRadix⁻¹ * (row (selector 1) * row prod) +
          memoryRadix ^ 2 * (row (selector 2) * row inv) := by
  have literal {first field : ℕ} {term : Coeff × PolyAddress}
      (member : term ∈ valueTerms first field) : literalOf term.1 = coefficient challenges term.1 := by
    obtain ⟨k, _, rfl⟩ := List.mem_map.mp member
    rfl
  have times (x : PolyAddress) : ((aTerms.map fun term => (term.1, term.2, x)).map
      fun term => coefficient challenges term.1 * row term.2.1 * row term.2.2).sum = a * row x := by
    rw [List.map_map, ← aEq, formValue, ← List.sum_map_mul_right]
    rfl
  have products : ((aTerms.flatMap fun left => bTerms.map fun right =>
        ((.literal (-(literalOf left.1 * literalOf right.1)), left.2, right.2) :
          Coeff × PolyAddress × PolyAddress)).map
      fun term => coefficient challenges term.1 * row term.2.1 * row term.2.2).sum = -(a * b) := by
    rw [sum_map_flatMap, ← aEq, formValue, ← List.sum_map_mul_right, ← sum_map_neg]
    refine congrArg List.sum (List.map_congr_left fun left inLeft => ?_)
    rw [← bEq, formValue, List.map_map, ← List.sum_map_mul_left, ← sum_map_neg]
    refine congrArg List.sum (List.map_congr_left fun right inRight => ?_)
    rw [Function.comp_apply, coefficient_literal, literal inLeft, literal inRight]
    ring
  have sums : (((aTerms ++ bTerms).map fun term =>
        ((.literal (-literalOf term.1), selector 0, term.2) : Coeff × PolyAddress × PolyAddress)).map
      fun term => coefficient challenges term.1 * row term.2.1 * row term.2.2).sum =
        -(row (selector 0) * (a + b)) := by
    rw [mul_add, ← aEq, ← bEq, formValue, formValue, ← List.sum_map_mul_left,
      ← List.sum_map_mul_left, ← List.sum_append, ← List.map_append, List.map_map,
      ← sum_map_neg]
    refine congrArg List.sum (List.map_congr_left fun term member => ?_)
    have isLiteral : literalOf term.1 = coefficient challenges term.1 := by
      rcases List.mem_append.mp member with left | right
      · exact literal left
      · exact literal right
    rw [Function.comp_apply, coefficient_literal, isLiteral]
    ring
  have result : (outTerms.map fun term => coefficient challenges term.1 * row term.2).sum = out :=
    outEq
  have selectedResult : ((((aTerms ++ bTerms).map fun term =>
        (.literal (-literalOf term.1), selector 0, term.2)) ++
          [(.literal (-rho⁻¹), selector 1, prod), (.literal (-(rho * rho)), selector 2, inv)] :
          List (Coeff × PolyAddress × PolyAddress)).map
      fun term => coefficient challenges term.1 * row term.2.1 * row term.2.2).sum =
        -(row (selector 0) * (a + b) + memoryRadix⁻¹ * (row (selector 1) * row prod) +
          memoryRadix ^ 2 * (row (selector 2) * row inv)) := by
    rw [List.map_append, List.sum_append, sums]
    simp only [List.map_cons, List.map_nil, List.sum_cons, List.sum_nil, coefficient_literal, rho_eq]
    ring
  simp only [operationGates, List.forall_mem_cons, List.not_mem_nil, IsEmpty.forall_iff,
    implies_true, and_true, quadratic, value_quadratic, products, selectedResult, times, result,
    List.map_cons, List.map_nil, List.sum_cons, List.sum_nil, coefficient_lit, coefficient_neg,
    Nat.cast_one, Nat.cast_zero, one_mul, neg_mul, add_zero, zero_add]
  refine and_congr ?_ (and_congr ?_ (and_congr Iff.rfl (and_congr Iff.rfl ?_)))
  · rw [← sub_eq_add_neg, sub_eq_zero]
  · rw [← sub_eq_add_neg]
  · rw [← sub_eq_add_neg, sub_eq_zero]

end Gates

/-- A value's name, first word and field. -/
def valueAt (v : ℕ) : String × ℕ × ℕ := values.getD v ("", 0, 0)

/-- The family's columns for an operation on numbers, by their places. -/
def columns (i a b out place : ℕ) : Fr :=
  let k := place - frameWitness frameWords
  let width := valueBits + canonicityBits
  let sel (j : ℕ) : Fr := if j = i then 1 else 0
  if k < scalars then canonicalColumns ([a, b, out].getD (k / width) 0) (k % width)
  else [sel 0, sel 1, sel 2, (a : Fr) * (b : Fr), if i = 2 then (a : Fr)⁻¹ else 0,
    if i = 2 ∧ (a : Fr) = 0 then 1 else 0].getD (k - scalars) 0

section Row

variable {challenges : ExternalChallenges} {decoded : List (List Fr)} {row : Row}

/-- What the circuit asks of a row, part by part. -/
private theorem satisfies_parts : Satisfies challenges decoded row body ↔
      (∀ gate ∈ frameGates frameWords frameBytes, gate.2.value challenges row = 0) ∧
        (∀ j < outWord, row (word j wordWriteValue) = row (word j wordReadValue)) ∧
        (∀ gate ∈ selectorGates, gate.2.value challenges row = 0) ∧
        (∀ v < 3, ∀ gate ∈ canonicalGates (valueAt v).1 (valueAt v).2.1 (valueAt v).2.2
          (valueBitsAt v) (valueCanonAt v), gate.2.value challenges row = 0) ∧
        ∀ gate ∈ operationGates, gate.2.value challenges row = 0 := by
  have item {v : ℕ} (inside : v < values.length) : values[v] = valueAt v := by
    rw [valueAt, List.getD_eq_getElem?_getD, List.getElem?_eq_getElem inside, Option.getD_some]
  have chains : (∀ gate ∈ (values.mapIdx fun v value =>
        canonicalGates value.1 value.2.1 value.2.2 (valueBitsAt v) (valueCanonAt v)).flatten,
        gate.2.value challenges row = 0) ↔
      ∀ v < 3, ∀ gate ∈ canonicalGates (valueAt v).1 (valueAt v).2.1 (valueAt v).2.2
        (valueBitsAt v) (valueCanonAt v), gate.2.value challenges row = 0 := by
    rw [List.forall_mem_flatten, forall_mem_mapIdx]
    refine forall₂_congr fun v inside => ?_
    rw [item inside]
  have whole : Satisfies challenges decoded row body ↔
      ∀ gate ∈ body.enforcing, gate.2.value challenges row = 0 :=
    ⟨fun holds => holds.gates, fun holds => ⟨holds, List.forall_mem_nil _⟩⟩
  rw [whole, ← @writesBack_iff challenges row outWord, ← chains]
  simp only [body, gates, List.forall_mem_append, and_assoc]

/-- A live row under the columns of an operation on the numbers it holds satisfies
the circuit. -/
theorem satisfies_columns {i a b out : ℕ} (selected : row live = 1)
    (frame : ∀ gate ∈ frameGates frameWords frameBytes, gate.2.value challenges row = 0)
    (kept : ∀ j < outWord, row (word j wordWriteValue) = row (word j wordReadValue)) (few : i < 3)
    (code : row (word opcodeWord wordReadValue) = ((ops.getD i 0 : ℕ) : Fr))
    (aHeld : HoldsValue (fun j => row (word j wordReadValue)) aWord a)
    (bHeld : HoldsValue (fun j => row (word j wordReadValue)) bWord b)
    (outHeld : HoldsValue (fun j => row (word j wordWriteValue)) outWord out)
    (result : Result (ops.getD i 0) (a : Fr) (b : Fr) (out : Fr)) :
    Satisfies challenges decoded
      (row.withColumns (frameWitness frameWords) witnessColumns (columns i a b out)) body := by
  have start : frameWitness frameWords = 1010 := rfl
  have stop : witnessColumns = 2576 := rfl
  have width : valueBits + canonicityBits = 520 := rfl
  have count : scalars = 1560 := rfl
  have column (k : ℕ) (inside : k < 1566) :
      row.withColumns (frameWitness frameWords) witnessColumns (columns i a b out) (w (1010 + k)) =
        columns i a b out (1010 + k) :=
    Row.withColumns_of_mem row _ (by omega) (by omega)
  have scalar (k : ℕ) (inside : k < 6) :
      row.withColumns (frameWitness frameWords) witnessColumns (columns i a b out)
          (w (1010 + 1560 + k)) =
        [(if 0 = i then 1 else 0 : Fr), if 1 = i then 1 else 0, if 2 = i then 1 else 0,
          (a : Fr) * (b : Fr), if i = 2 then (a : Fr)⁻¹ else 0,
          if i = 2 ∧ (a : Fr) = 0 then 1 else 0].getD k 0 := by
    rw [add_assoc, column (1560 + k) (by omega), columns, start, Nat.add_sub_cancel_left, count]
    dsimp only
    rw [if_neg (by omega), Nat.add_sub_cancel_left]
  have canonical (v : ℕ) (inside : v < 3) : HoldsCanonical
      (row.withColumns (frameWitness frameWords) witnessColumns (columns i a b out))
      (valueBitsAt v) (valueCanonAt v) ([a, b, out].getD v 0) := by
    refine holdsCanonical_of_columns fun k few => ?_
    have equal := column (v * 520 + k) (by omega)
    rw [← add_assoc, columns, start, add_assoc, Nat.add_sub_cancel_left, count, width] at equal
    dsimp only at equal
    rw [if_pos (by omega), show (v * 520 + k) / 520 = v by omega,
      show (v * 520 + k) % 520 = k by omega] at equal
    rw [← equal, valueBitsAt, start, width, add_assoc]
    rfl
  have sel (j : ℕ) (inside : j < 3) :
      row.withColumns (frameWitness frameWords) witnessColumns (columns i a b out) (selector j) =
        if j = i then 1 else 0 := by
    refine (scalar j (by omega)).trans ?_
    interval_cases j <;> rfl
  refine satisfies_parts.mpr ⟨(frameGates_withColumns le_rfl).mpr frame, kept, ?_, ?_, ?_⟩
  · exact (@selectorGates_iff challenges (row.withColumns _ _ _) selected).mpr ⟨i, few, code, sel⟩
  · intro v inside
    have held := canonical v inside
    interval_cases v
    · exact canonicalGates_of_columns selected aHeld.1 aHeld.2 held
    · exact canonicalGates_of_columns selected bHeld.1 bHeld.2 held
    · exact canonicalGates_of_columns selected outHeld.1 outHeld.2 held
  · refine (@operationGates_parts challenges (row.withColumns _ _ _) _ _ _
      (formValue_valueTerms aHeld) (formValue_valueTerms bHeld)
      (formValue_valueTerms outHeld)).mpr ?_
    have prodEq : row.withColumns (frameWitness frameWords) witnessColumns (columns i a b out) prod =
        (a : Fr) * (b : Fr) := scalar 3 (by norm_num)
    have invEq : row.withColumns (frameWitness frameWords) witnessColumns (columns i a b out) inv =
        if i = 2 then (a : Fr)⁻¹ else 0 := scalar 4 (by norm_num)
    have zeroEq : row.withColumns (frameWitness frameWords) witnessColumns (columns i a b out) isZero =
        if i = 2 ∧ (a : Fr) = 0 then 1 else 0 := scalar 5 (by norm_num)
    rw [prodEq, invEq, zeroEq, sel 0 (by norm_num), sel 1 (by norm_num), sel 2 (by norm_num)]
    rcases result with ⟨op, equal⟩ | ⟨op, equal⟩ | ⟨op, equal⟩
    · have here : i = 0 := by
        interval_cases i <;> first | rfl | cases op
      subst here
      simp [equal]
    · have here : i = 1 := by
        interval_cases i <;> first | rfl | cases op
      subst here
      simp [equal, mul_comm]
    · have here : i = 2 := by
        interval_cases i <;> first | rfl | cases op
      subst here
      by_cases none : (a : Fr) = 0
      · simp [equal, none]
      · simp [equal, none]

/-- A live row that satisfies the circuit computes. -/
theorem computes_of_satisfies (selected : row live = 1)
    (holds : Satisfies challenges decoded row body) :
    Computes (fun j => row (word j wordReadValue)) fun j => row (word j wordWriteValue) := by
  obtain ⟨_, kept, selectors, chains, operations⟩ := satisfies_parts.mp holds
  obtain ⟨i, few, code, sel⟩ := (selectorGates_iff selected).mp selectors
  obtain ⟨a, aBelow, aEq⟩ := exists_canonical selected (chains 0 (by norm_num))
  obtain ⟨b, bBelow, bEq⟩ := exists_canonical selected (chains 1 (by norm_num))
  obtain ⟨out, outBelow, outEq⟩ := exists_canonical selected (chains 2 (by norm_num))
  have aHeld : HoldsValue (fun j => row (word j wordReadValue)) aWord a := ⟨aBelow, aEq⟩
  have bHeld : HoldsValue (fun j => row (word j wordReadValue)) bWord b := ⟨bBelow, bEq⟩
  have outHeld : HoldsValue (fun j => row (word j wordWriteValue)) outWord out := ⟨outBelow, outEq⟩
  refine ⟨ops.getD i 0, a, b, out, code, aHeld, bHeld, outHeld, kept, ?_⟩
  obtain ⟨prodEq, zeroTest, zeroAt, zeroInv, equal⟩ :=
    (operationGates_parts (formValue_valueTerms aHeld) (formValue_valueTerms bHeld)
      (formValue_valueTerms outHeld)).mp operations
  rw [sel 0 (by norm_num), sel 1 (by norm_num), sel 2 (by norm_num), prodEq] at equal
  rw [sel 2 (by norm_num)] at zeroTest
  interval_cases i
  · refine Or.inl ⟨rfl, ?_⟩
    simpa using equal
  · refine Or.inr (Or.inl ⟨rfl, ?_⟩)
    simpa [mul_comm] using equal
  · refine Or.inr (Or.inr ⟨rfl, ?_⟩)
    have inverse : row inv = (a : Fr)⁻¹ := by
      rw [if_pos rfl] at zeroTest
      by_cases none : (a : Fr) = 0
      · rw [none, zero_mul, add_zero, sub_eq_zero] at zeroTest
        rw [zeroTest, one_mul] at zeroInv
        rw [zeroInv, none, inv_zero]
      · have flag := (mul_eq_zero.mp zeroAt).resolve_left none
        rw [flag] at zeroTest
        refine eq_inv_of_mul_eq_one_right ?_
        linear_combination zeroTest
    rw [inverse] at equal
    simpa using equal

end Row

section Memory

/-- The words hold an element as it lies in memory. -/
def HoldsElement (words : ℕ → Fr) (first : ℕ) (x : Element) : Prop :=
  ∀ k < 8, words (first + k) = ((x.memoryWord k : ℕ) : Fr)

/-- The operation on elements in memory; 0 has the inverse 0, and no other code
names an operation. -/
def call (op : ℕ) (x y : Element) : Option Element :=
  if op = opAdd then some (x.add y)
  else if op = opMul then some (x.mul y)
  else if op = opInv then some (x.inverse.getD Element.zero)
  else none

/-- A number below the modulus in words is an element in memory. -/
theorem holdsValue_iff {words : ℕ → Fr} {first n : ℕ} :
    HoldsValue words first n ↔ ∃ x : Element, HoldsElement words first x ∧ FqOp.value x.limbs = n := by
  constructor
  · intro held
    refine ⟨Element.ofValue n held.1, fun k inside => ?_, Element.value_ofValue n held.1⟩
    rw [held.2 k inside, Element.memoryWord_eq _ inside, Element.value_ofValue]
  · intro given
    obtain ⟨x, held, rfl⟩ := given
    refine ⟨x.reduced, fun k inside => ?_⟩
    rw [held k inside, Element.memoryWord_eq _ inside]

theorem stored_call {op : ℕ} {x y z : Element} (called : call op x y = some z) :
    Result op x.stored y.stored z.stored := by
  rw [call] at called
  by_cases isAdd : op = opAdd
  · rw [if_pos isAdd, Option.some.injEq] at called
    exact Or.inl ⟨isAdd, called ▸ x.stored_add y⟩
  · rw [if_neg isAdd] at called
    by_cases isMul : op = opMul
    · rw [if_pos isMul, Option.some.injEq] at called
      exact Or.inr (Or.inl ⟨isMul, called ▸ x.stored_mul y⟩)
    · rw [if_neg isMul] at called
      by_cases isInv : op = opInv
      · rw [if_pos isInv, Option.some.injEq] at called
        refine Or.inr (Or.inr ⟨isInv, ?_⟩)
        rw [← called]
        by_cases none : x.stored = 0
        · rw [x.stored_inverse.1 none, none, inv_zero, mul_zero]
          exact Element.stored_zero
        · obtain ⟨inverse, found, spelled⟩ := x.stored_inverse.2 none
          rw [found]
          exact spelled
      · rw [if_neg isInv] at called
        cases called

theorem exists_call {op : ℕ} {a b out : Fr} (result : Result op a b out) (x y : Element) :
    ∃ z, call op x y = some z := by
  rcases result with ⟨rfl, _⟩ | ⟨rfl, _⟩ | ⟨rfl, _⟩
  · exact ⟨_, rfl⟩
  · exact ⟨_, rfl⟩
  · exact ⟨_, rfl⟩

theorem Result.unique {op : ℕ} {a b out other : Fr} (result : Result op a b out)
    (same : Result op a b other) : out = other := by
  rcases result with ⟨rfl, equal⟩ | ⟨rfl, equal⟩ | ⟨rfl, equal⟩ <;>
    rcases same with ⟨code, equal'⟩ | ⟨code, equal'⟩ | ⟨code, equal'⟩ <;>
    first | exact equal.trans equal'.symm | cases code

/-- What a call computes is the operation on the elements its words hold. -/
theorem computes_iff_call {read written : ℕ → Fr} :
    Computes read written ↔ ∃ (op : ℕ) (x y z : Element), read opcodeWord = ((op : ℕ) : Fr) ∧
      HoldsElement read aWord x ∧ HoldsElement read bWord y ∧ HoldsElement written outWord z ∧
      (∀ j < outWord, written j = read j) ∧ call op x y = some z := by
  constructor
  · intro given
    obtain ⟨op, a, b, out, code, aHeld, bHeld, outHeld, kept, result⟩ := given
    obtain ⟨x, xHeld, rfl⟩ := holdsValue_iff.mp aHeld
    obtain ⟨y, yHeld, rfl⟩ := holdsValue_iff.mp bHeld
    obtain ⟨z, zHeld, rfl⟩ := holdsValue_iff.mp outHeld
    obtain ⟨computed, called⟩ := exists_call result x y
    have same : z = computed := Element.stored_injective (result.unique (stored_call called))
    exact ⟨op, x, y, z, code, xHeld, yHeld, zHeld, kept, same ▸ called⟩
  · intro given
    obtain ⟨op, x, y, z, code, xHeld, yHeld, zHeld, kept, called⟩ := given
    exact ⟨op, _, _, _, code, holdsValue_iff.mpr ⟨x, xHeld, rfl⟩, holdsValue_iff.mpr ⟨y, yHeld, rfl⟩,
      holdsValue_iff.mpr ⟨z, zHeld, rfl⟩, kept, stored_call called⟩

end Memory

section Exact

variable {challenges : ExternalChallenges} {decoded : List (List Fr)} {row : Row}

/-- A live row's family columns can be filled exactly when the frame's gates hold
and the words it reads and writes are a call's, which is the field's own
operation on the elements in memory. -/
theorem fr_arith_exact (selected : row live = 1) :
    ((∃ columns, Satisfies challenges decoded
        (row.withColumns (frameWitness frameWords) witnessColumns columns) body) ↔
      (∀ gate ∈ frameGates frameWords frameBytes, gate.2.value challenges row = 0) ∧
        Computes (fun j => row (word j wordReadValue)) fun j => row (word j wordWriteValue)) ∧
    ((Computes (fun j => row (word j wordReadValue)) fun j => row (word j wordWriteValue)) ↔
      ∃ (op : ℕ) (x y z : Element), row (word opcodeWord wordReadValue) = ((op : ℕ) : Fr) ∧
        HoldsElement (fun j => row (word j wordReadValue)) aWord x ∧
        HoldsElement (fun j => row (word j wordReadValue)) bWord y ∧
        HoldsElement (fun j => row (word j wordWriteValue)) outWord z ∧
        (∀ j < outWord, row (word j wordWriteValue) = row (word j wordReadValue)) ∧
        call op x y = some z) := by
  refine ⟨⟨?_, ?_⟩, computes_iff_call⟩
  · intro given
    obtain ⟨columns, holds⟩ := given
    refine ⟨(frameGates_withColumns le_rfl).mp (satisfies_parts.mp holds).1, ?_⟩
    exact @computes_of_satisfies challenges decoded (row.withColumns _ _ columns) selected holds
  · intro given
    obtain ⟨frame, op, a, b, out, code, aHeld, bHeld, outHeld, kept, result⟩ := given
    obtain ⟨i, few, rfl⟩ : ∃ i < 3, op = ops.getD i 0 := by
      rcases result with ⟨rfl, _⟩ | ⟨rfl, _⟩ | ⟨rfl, _⟩
      · exact ⟨0, by norm_num, rfl⟩
      · exact ⟨1, by norm_num, rfl⟩
      · exact ⟨2, by norm_num, rfl⟩
    exact ⟨columns i a b out, satisfies_columns selected frame kept few code aHeld bHeld outHeld
      result⟩

/-- A live row that adds 0 to 1. -/
def sampleRow : Row
  | .memory i => if i = 1 ∨ i = 6 ∨ i = 7 ∨ i = 10 ∨ i = 11 ∨ i = 75 then 1 else 0
  | _ => 0

/-- The row that adds 0 to 1 computes. -/
theorem fr_arith_exact_sample :
    ((∃ columns, Satisfies ExternalChallenges.empty []
        (sampleRow.withColumns (frameWitness frameWords) witnessColumns columns) body) ↔
      (∀ gate ∈ frameGates frameWords frameBytes,
          gate.2.value ExternalChallenges.empty sampleRow = 0) ∧
        Computes (fun j => sampleRow (word j wordReadValue))
          fun j => sampleRow (word j wordWriteValue)) ∧
    Computes (fun j => sampleRow (word j wordReadValue))
      fun j => sampleRow (word j wordWriteValue) := by
  have limb (n k : ℕ) (small : n < 2) :
      ((limbAt (2 ^ 32) n k : ℕ) : Fr) = if k = 0 ∧ n = 1 then 1 else 0 := by
    have digit : limbAt (2 ^ 32) n k = if k = 0 ∧ n = 1 then 1 else 0 := by
      cases k with
      | zero =>
        rw [limbAt, pow_zero, Nat.div_one]
        interval_cases n <;> rfl
      | succ k =>
        have power : 2 ≤ (2 ^ 32) ^ (k + 1) := by
          rw [pow_succ]
          exact le_trans (by norm_num) (Nat.le_mul_of_pos_left _ (by positivity))
        rw [limbAt, Nat.div_eq_of_lt (by omega), Nat.zero_mod, if_neg (by simp)]
    rw [digit, Nat.cast_ite, Nat.cast_one, Nat.cast_zero]
  refine ⟨(@fr_arith_exact ExternalChallenges.empty [] sampleRow rfl).1, 1, 1, 0, 1, ?_,
    ⟨by norm_num [frModulus], fun k inside => ?_⟩, ⟨by norm_num [frModulus], fun k inside => ?_⟩,
    ⟨by norm_num [frModulus], fun k inside => ?_⟩, fun j inside => ?_, Or.inl ⟨rfl, ?_⟩⟩
  · exact Nat.cast_one.symm
  · rw [limb 1 k (by norm_num)]
    interval_cases k <;> rfl
  · rw [limb 0 k (by norm_num)]
    interval_cases k <;> rfl
  · rw [limb 1 k (by norm_num)]
    interval_cases k <;> rfl
  · rw [show outWord = 17 from rfl] at inside
    interval_cases j <;> rfl
  · rw [Nat.cast_zero, add_zero]

end Exact

end Apogee.FrArith
