import Apogee.Zerocheck.Protocol
import Apogee.Gkr.Soundness

/-! # The rounds of a zerocheck

The prover's tables are the columns and the equality weights bound to the challenges so
far, and its message is the cubic of the weighted sum over the rows left. So an honest
round sums to the claim it inherits and evaluates to the next one.
-/

namespace Apogee.Zerocheck

open Apogee.Math Finset

/-! ## Gates -/

/-- A term over a reading of the inputs. -/
def GateTerm.value (read : ℕ → Fr) (term : GateTerm) : Fr :=
  match term.b with
  | some b => term.coef * read term.a * read b
  | none => term.coef * read term.a

/-- A formula over a reading of the inputs. -/
def Gate.value (gate : Gate) (read : ℕ → Fr) : Fr := (gate.terms.map (GateTerm.value read)).sum

/-- A gate has inputs, and its terms name them alone. -/
structure Gate.WellFormed (gate : Gate) : Prop where
  nonempty : gate.inputs ≠ []
  named : ∀ term ∈ gate.terms, ∀ index ∈ term.indices, index < gate.inputs.length

theorem Gate.wellFormed_of_new {inputs : List PolyAddress} {terms : List GateTerm} {gate : Gate}
    (built : Gate.new inputs terms = .ok gate) : gate.WellFormed := by
  rw [Gate.new] at built
  by_cases empty : inputs = []
  · rw [if_pos empty] at built
    cases built
  rw [if_neg empty] at built
  cases twice : inputs.zipIdx.find? fun input => input.1 ∈ inputs.take input.2 with
  | some input =>
    simp only [twice] at built
    cases built
  | none =>
    cases outside : (terms.zipIdx.flatMap fun term => term.1.indices.map fun index =>
        (term.2, index)).find? fun named => inputs.length ≤ named.2 with
    | some named =>
      simp only [twice, outside] at built
      cases built
    | none =>
      simp only [twice, outside, Except.ok.injEq] at built
      rw [← built]
      refine ⟨empty, fun term member index names => ?_⟩
      obtain ⟨t, inside, found⟩ := List.mem_iff_getElem.mp member
      have listed : (t, index) ∈ terms.zipIdx.flatMap fun term =>
          term.1.indices.map fun index => (term.2, index) := by
        refine List.mem_flatMap.mpr ⟨(term, t), ?_, List.mem_map.mpr ⟨index, names, rfl⟩⟩
        rw [List.mem_zipIdx_iff_getElem?, List.getElem?_eq_getElem inside, found]
      have small := List.find?_eq_none.mp outside _ listed
      simpa using small

theorem GateTerm.evaluate_eq {term : GateTerm} {values : List Fr}
    (named : ∀ index ∈ term.indices, index < values.length) :
    term.evaluate values = some (term.value fun c => values.getD c 0) := by
  have present (index : ℕ) (names : index ∈ term.indices) :
      values[index]? = some (values.getD index 0) := by
    rw [List.getD_eq_getElem?_getD, List.getElem?_eq_getElem (named index names), Option.getD_some]
  have first := present term.a List.mem_cons_self
  rw [GateTerm.evaluate, GateTerm.value, first]
  cases second : term.b with
  | none => rfl
  | some b =>
    have also := present b (by rw [GateTerm.indices, second]; simp)
    simp only [Option.bind_eq_bind, Option.bind_some, also]
    rfl

/-- A gate's formula is total on as many values as it has inputs. -/
theorem Gate.evaluate_eq {gate : Gate} (formed : gate.WellFormed) {values : List Fr}
    (length : values.length = gate.inputs.length) :
    gate.evaluate values = some (gate.value fun c => values.getD c 0) := by
  have folded (terms : List GateTerm) (acc : Fr) (among : ∀ term ∈ terms, term ∈ gate.terms) :
      (terms.foldlM (fun acc term => do
          let v ← term.evaluate values
          pure (acc + v)) acc : Option Fr) =
        some (acc + (terms.map (GateTerm.value fun c => values.getD c 0)).sum) := by
    induction terms generalizing acc with
    | nil => simp
    | cons term terms ih =>
      have each := @GateTerm.evaluate_eq term values fun index names => by
        rw [length]
        exact formed.named term (among term List.mem_cons_self) index names
      rw [List.foldlM_cons, each]
      have later := ih (acc + term.value fun c => values.getD c 0) fun other member =>
        among other (List.mem_cons_of_mem term member)
      rw [List.map_cons, List.sum_cons, ← add_assoc]
      exact later
  rw [Gate.evaluate]
  simp only [guard, if_pos length]
  refine (folded gate.terms 0 fun _ member => member).trans ?_
  rw [zero_add, Gate.value]

/-- A gate is quadratic along every line. -/
theorem Gate.value_quadratic (gate : Gate) : Quadratic gate.value := by
  intro value step
  apply LowDegree.list_sum
  intro term _
  have first := (LowDegree.line (value term.a) (step term.a)).smul term.coef
  cases second : term.b with
  | none =>
    have same : (fun x => GateTerm.value (fun c => value c + x * step c) term) =
        fun x => term.coef * (value term.a + x * step term.a) := by
      funext x
      rw [GateTerm.value, second]
    rw [same]
    exact first.mono (by norm_num)
  | some b =>
    have same : (fun x => GateTerm.value (fun c => value c + x * step c) term) =
        fun x => term.coef * (value term.a + x * step term.a) * (value b + x * step b) := by
      funext x
      rw [GateTerm.value, second]
    rw [same]
    exact first.mul (LowDegree.line (value b) (step b))

/-! ## Tables -/

/-- Row `row` of column `c`. -/
def cells (tables : List (ℕ → Fr)) (c row : ℕ) : Fr := (tables.map fun table => table row).getD c 0

theorem cells_bind (tables : List (ℕ → Fr)) (bound : List Fr) (c row : ℕ) :
    (tables.map fun table => bindAll bound table row).getD c 0 =
      bindAll bound (cells tables c) row := by
  unfold cells
  simp only [getD_map]
  cases tables[c]? with
  | none => exact (bindAll_const bound 0 row).symm
  | some table => rfl

/-- The weighted sum over the rows left once some challenges are bound. -/
def boundSum (gate : Gate) (tables : List (ℕ → Fr)) (r bound : List Fr) (rest : ℕ) : Fr :=
  cubeSum gate.value rest (bindAll bound (eqWeight r)) fun c => bindAll bound (cells tables c)

/-- A round's sum at a node. -/
def nodeSum (gate : Gate) (tables : List (ℕ → Fr)) (r bound : List Fr) (rest : ℕ) (x : Fr) : Fr :=
  roundSum gate.value rest (bindAll bound (eqWeight r)) (fun c => bindAll bound (cells tables c)) x

/-- The honest message of a round. -/
def honestMessage (gate : Gate) (tables : List (ℕ → Fr)) (r bound : List Fr) (rest : ℕ) :
    RoundPoly :=
  interpolateCubic (nodeSum gate tables r bound rest (0 : ℕ))
    (nodeSum gate tables r bound rest (1 : ℕ)) (nodeSum gate tables r bound rest (2 : ℕ))
    (nodeSum gate tables r bound rest (3 : ℕ))

section Honest

variable (gate : Gate) (tables : List (ℕ → Fr)) (r bound : List Fr) (rest : ℕ)

theorem cubic_honestMessage (x : Fr) :
    cubic (honestMessage gate tables r bound rest) x = nodeSum gate tables r bound rest x :=
  cubic_interpolateCubic (roundSum_lowDegree _ _ _ _ gate.value_quadratic) x

/-- An honest round sums to the claim it inherits. -/
theorem honestMessage_sum : cubic (honestMessage gate tables r bound rest) 0 +
    cubic (honestMessage gate tables r bound rest) 1 = boundSum gate tables r bound (rest + 1) := by
  rw [cubic_honestMessage, cubic_honestMessage]
  exact roundSum_zero_add_one _ _ _ _

/-- An honest round evaluates to the next claim. -/
theorem honestMessage_next (x : Fr) : cubic (honestMessage gate tables r bound rest) x =
    boundSum gate tables r (bound ++ [x]) rest := by
  rw [cubic_honestMessage, boundSum, bindAll_concat]
  simp only [bindAll_concat]
  rfl

end Honest

/-! ## The prover's rounds -/

/-- Every column holds its table, bound. -/
def Bound (polys : List Poly.MultilinearPoly) (tables : List (ℕ → Fr)) (bound : List Fr)
    (rest : ℕ) : Prop :=
  List.Forall₂ (fun p table => Poly.Holds p rest (bindAll bound table)) polys tables

section Walk

variable {gate : Gate} {polys : List Poly.MultilinearPoly} {tables : List (ℕ → Fr)}
  {bound : List Fr} {rest : ℕ}

theorem Bound.length (held : Bound polys tables bound rest) : polys.length = tables.length :=
  List.Forall₂.length_eq held

theorem Bound.get (held : Bound polys tables bound rest) {row : ℕ} (inside : row < 2 ^ rest) :
    polys.mapM (fun p => p.get row) = some (tables.map fun table => bindAll bound table row) := by
  induction held with
  | nil => rfl
  | cons holds _ ih =>
    rw [List.mapM_cons, holds.get inside, ih]
    rfl

theorem Bound.bind (held : Bound polys tables bound (rest + 1)) (c : Fr) :
    ∃ later, polys.mapM (fun p => p.bind c) = some later ∧
      Bound later tables (bound ++ [c]) rest := by
  induction held with
  | nil => exact ⟨[], rfl, List.Forall₂.nil⟩
  | cons holds _ ih =>
    obtain ⟨p, here, holds'⟩ := holds.bind c
    obtain ⟨later, others, held'⟩ := ih
    refine ⟨p :: later, ?_, List.Forall₂.cons ?_ held'⟩
    · rw [List.mapM_cons, here, others]
      rfl
    · rwa [bindAll_concat]

theorem getD_zipWith_add {left right : List Fr} (same : left.length = right.length) (c : ℕ) :
    (List.zipWith (· + ·) left right).getD c 0 = left.getD c 0 + right.getD c 0 := by
  simp only [List.getD_eq_getElem?_getD, List.getElem?_zipWith]
  by_cases inside : c < left.length
  · rw [List.getElem?_eq_getElem inside, List.getElem?_eq_getElem (same ▸ inside)]
    rfl
  · rw [List.getElem?_eq_none (by omega), List.getElem?_eq_none (by omega)]
    simp

/-- Stepping along the lines reads them at the nodes. -/
theorem walkPair_eq (formed : gate.WellFormed) {step : List Fr}
    (stepLength : step.length = gate.inputs.length) (eqStep eqCur : Fr) (acc : List Fr)
    {cur : List Fr} (length : cur.length = gate.inputs.length) :
    walkPair gate eqStep step acc eqCur cur = some (List.zipWith (· + ·) acc
      ((List.range acc.length).map fun k : ℕ => (eqCur + k * eqStep) *
        gate.value fun c => cur.getD c 0 + k * step.getD c 0)) := by
  induction acc generalizing eqCur cur with
  | nil => rfl
  | cons a acc ih =>
    have next : (List.zipWith (· + ·) cur step).length = gate.inputs.length := by
      rw [List.length_zipWith, length, stepLength, min_self]
    rw [walkPair, gate.evaluate_eq formed length, ih (eqCur + eqStep) next]
    simp only [Option.bind_eq_bind, Option.bind_some, Option.pure_def]
    rw [List.length_cons, List.range_succ_eq_map, List.map_cons, List.zipWith_cons_cons,
      List.map_map]
    congr 2
    · simp only [Nat.cast_zero, zero_mul, add_zero]
    · congr 1
      apply List.map_congr_left
      intro k _
      simp only [Function.comp_apply, getD_zipWith_add (length.trans stepLength.symm)]
      push_cast
      congr 1
      · ring
      · congr 1
        funext c
        ring

/-- The share of row pair `j` at a node. -/
def pairSum (gate : Gate) (tables : List (ℕ → Fr)) (r bound : List Fr) (j : ℕ) (x : Fr) : Fr :=
  bindLow x (bindAll bound (eqWeight r)) j *
    gate.value fun c => bindLow x (bindAll bound (cells tables c)) j

/-- A round's four values are its sums at the nodes. -/
theorem roundEvaluations_eq (formed : gate.WellFormed) {r : List Fr} {eq : Poly.MultilinearPoly}
    (held : Bound polys tables bound (rest + 1)) (arity : polys.length = gate.inputs.length)
    (weights : Poly.Holds eq (rest + 1) (bindAll bound (eqWeight r))) :
    roundEvaluations gate polys eq =
      some ((List.range 4).map fun k : ℕ => nodeSum gate tables r bound rest k) := by
  have half : eq.len / 2 = 2 ^ rest := by
    rw [Poly.MultilinearPoly.len, weights.vars, pow_succ, Nat.mul_div_cancel _ two_pos]
  have count : tables.length = gate.inputs.length := held.length.symm.trans arity
  have walked (acc : List Fr) (four : acc.length = 4) {j : ℕ} (inside : j < 2 ^ rest) :
      (do
        let lo ← polys.mapM fun p => p.get (2 * j)
        let hi ← polys.mapM fun p => p.get (2 * j + 1)
        let eqLo ← eq.get (2 * j)
        let eqHi ← eq.get (2 * j + 1)
        walkPair gate (eqHi - eqLo) (List.zipWith (· - ·) hi lo) acc eqLo lo : Option (List Fr)) =
      some (List.zipWith (· + ·) acc
        ((List.range 4).map fun k : ℕ => pairSum gate tables r bound j k)) := by
    have even : 2 * j < 2 ^ (rest + 1) := by rw [pow_succ]; omega
    have odd : 2 * j + 1 < 2 ^ (rest + 1) := by rw [pow_succ]; omega
    rw [held.get even, held.get odd, weights.get even, weights.get odd]
    simp only [Option.bind_eq_bind, Option.bind_some]
    rw [walkPair_eq formed _ _ _ _ (by rw [List.length_map, count]), four]
    · congr 2
      apply List.map_congr_left
      intro k _
      rw [pairSum, bindLow]
      congr 2
      funext c
      rw [cells_bind, bindLow, ← cells_bind, ← cells_bind]
      simp only [List.getD_eq_getElem?_getD, List.getElem?_zipWith, List.getElem?_map]
      cases tables[c]? with
      | none => simp
      | some table => simp
    · rw [List.length_zipWith, List.length_map, List.length_map, min_self, count]
  have summed (count : ℕ) (inside : count ≤ 2 ^ rest) : (List.range count).foldlM (fun acc j => do
        let lo ← polys.mapM fun p => p.get (2 * j)
        let hi ← polys.mapM fun p => p.get (2 * j + 1)
        let eqLo ← eq.get (2 * j)
        let eqHi ← eq.get (2 * j + 1)
        walkPair gate (eqHi - eqLo) (List.zipWith (· - ·) hi lo) acc eqLo lo) [0, 0, 0, 0] =
      some ((List.range 4).map fun k : ℕ =>
        ∑ j ∈ range count, pairSum gate tables r bound j k) := by
    induction count with
    | zero => rfl
    | succ count ih =>
      rw [List.range_succ, List.foldlM_append, ih (by omega)]
      simp only [Option.bind_eq_bind, Option.bind_some, List.foldlM_cons, List.foldlM_nil]
      have here := walked ((List.range 4).map fun k : ℕ =>
        ∑ j ∈ range count, pairSum gate tables r bound j k) (by simp)
        (show count < 2 ^ rest by omega)
      simp only [Option.bind_eq_bind] at here
      rw [here]
      simp only [Option.bind_some, Option.pure_def, List.zipWith_map, List.zipWith_self,
        sum_range_succ]
  rw [roundEvaluations, half, summed _ le_rfl]
  rfl

theorem roundMessage_eq (formed : gate.WellFormed) {r : List Fr} {eq : Poly.MultilinearPoly}
    (held : Bound polys tables bound (rest + 1)) (arity : polys.length = gate.inputs.length)
    (weights : Poly.Holds eq (rest + 1) (bindAll bound (eqWeight r))) :
    roundMessage gate polys eq = some (honestMessage gate tables r bound rest) := by
  rw [roundMessage, roundEvaluations_eq formed held arity weights]
  rfl

end Walk

end Apogee.Zerocheck
