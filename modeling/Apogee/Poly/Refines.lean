import Apogee.Poly.Backing
import Apogee.Math.Passes
import Apogee.Gkr.Poly

/-! # One polynomial behind every backing

Whatever its width, a backing that the constructor accepts answers as the one
multilinear polynomial with its lifted values, through any run of calls.
-/

namespace Apogee.Poly

open Apogee.Math Finset

/-- A polynomial holds a table of field elements over its cube. -/
structure Holds (poly : MultilinearPoly) (n : ℕ) (table : ℕ → Fr) : Prop where
  vars : poly.numVars = n
  entries : poly.backing.entries = 2 ^ n
  entry : ∀ row < 2 ^ n, poly.backing.entry row = some (table row)

section Holds

variable {poly : MultilinearPoly} {n : ℕ} {table : ℕ → Fr}

theorem Holds.get (holds : Holds poly n table) {row : ℕ} (inside : row < 2 ^ n) :
    poly.get row = some (table row) := by
  have below : row < poly.len := by rwa [MultilinearPoly.len, holds.vars]
  rw [MultilinearPoly.get, holds.entry row inside]
  simp only [guard, if_pos below]
  rfl

theorem Holds.get_none (holds : Holds poly n table) {row : ℕ} (outside : ¬ row < 2 ^ n) :
    poly.get row = none := by
  have past : ¬ row < poly.len := by rwa [MultilinearPoly.len, holds.vars]
  rw [MultilinearPoly.get]
  simp only [guard, if_neg past]
  rfl

/-- The fold through the lift halves the table. -/
theorem Holds.foldLifted (holds : Holds poly (n + 1) table) (r : Fr) :
    foldLifted r poly.backing (2 ^ n) = some ((List.range (2 ^ n)).map (bindLow r table)) := by
  rw [Poly.foldLifted]
  apply mapM_some
  intro i member
  have inside := List.mem_range.mp member
  rw [holds.entry _ (by rw [pow_succ]; omega), holds.entry _ (by rw [pow_succ]; omega)]
  rfl

/-- A field table folded in place is halved too. -/
theorem foldInPlace_map {r : Fr} (half : ℕ) :
    foldInPlace r ((List.range (2 * half)).map table) half =
      some ((List.range half).map (bindLow r table)) := by
  rw [foldInPlace_eq (by rw [List.length_map, List.length_range])]
  congr 1
  apply List.map_congr_left
  intro i member
  have inside := List.mem_range.mp member
  have present (row : ℕ) (small : row < 2 * half) :
      ((List.range (2 * half)).map table).getD row 0 = table row := by
    rw [List.getD_eq_getElem?_getD, List.getElem?_map, List.getElem?_range small]
    rfl
  rw [bindLow, present _ (by omega), present _ (by omega)]
  rfl

/-- A field table, from the values it is made of. -/
theorem holds_fr (n : ℕ) (table : ℕ → Fr) :
    Holds ⟨.fr ((List.range (2 ^ n)).map table), n⟩ n table := by
  refine ⟨rfl, ?_, fun row inside => ?_⟩
  · rw [PolyBacking.entries, List.length_map, List.length_range]
  · rw [PolyBacking.entry, List.getElem?_map, List.getElem?_range inside]
    rfl

theorem Holds.values {values : List Fr} (holds : Holds ⟨.fr values, n⟩ n table) :
    values = (List.range (2 ^ n)).map table := by
  have length : values.length = 2 ^ n := holds.entries
  apply List.ext_getElem?
  intro row
  by_cases inside : row < 2 ^ n
  · have held : values[row]? = some (table row) := holds.entry row inside
    rw [held, List.getElem?_map, List.getElem?_range inside]
    rfl
  · rw [List.getElem?_eq_none (by omega), List.getElem?_eq_none]
    rw [List.length_map, List.length_range]
    omega

/-- Binding halves the table, whatever the width it had. -/
theorem Holds.bind (holds : Holds poly (n + 1) table) (r : Fr) :
    ∃ bound, poly.bind r = some bound ∧ Holds bound n (bindLow r table) := by
  obtain ⟨backing, vars⟩ := poly
  obtain rfl : vars = n + 1 := holds.vars
  have half : (⟨backing, n + 1⟩ : MultilinearPoly).len / 2 = 2 ^ n := by
    rw [MultilinearPoly.len, pow_succ, Nat.mul_div_cancel _ two_pos]
  refine ⟨_, ?_, holds_fr n (bindLow r table)⟩
  rw [MultilinearPoly.bind, half]
  simp only [guard, if_pos (Nat.succ_pos n), Nat.add_sub_cancel]
  cases backing with
  | fr values =>
    have all := holds.values
    rw [pow_succ'] at all
    simp only [all, foldInPlace_map]
    rfl
  | u1 limbs entries =>
    simp only [holds.foldLifted r]
    rfl
  | u8 v =>
    simp only [holds.foldLifted r]
    rfl
  | u16 v =>
    simp only [holds.foldLifted r]
    rfl
  | u32 v =>
    simp only [holds.foldLifted r]
    rfl

theorem Holds.bind_none (holds : Holds poly 0 table) (r : Fr) : poly.bind r = none := by
  rw [MultilinearPoly.bind, holds.vars]
  rfl

/-- The scratch table of an evaluation, folded by the coordinates left. -/
theorem foldlM_foldInPlace (point : List Fr) (table : ℕ → Fr) :
    point.foldlM (fun scratch r => foldInPlace r scratch (scratch.length / 2))
        ((List.range (2 ^ point.length)).map table) =
      some [bindAll point table 0] := by
  induction point generalizing table with
  | nil => rfl
  | cons r rest ih =>
    rw [List.foldlM_cons, List.length_cons, List.length_map, List.length_range, pow_succ',
      Nat.mul_div_cancel_left _ two_pos, foldInPlace_map]
    exact ih (bindLow r table)

/-- An evaluation is the table's extension. -/
theorem Holds.evaluate (holds : Holds poly n table) {point : List Fr} (length : point.length = n) :
    poly.evaluate point = some (extension point table) := by
  rw [← bindAll_zero, MultilinearPoly.evaluate, holds.vars]
  simp only [guard, if_pos length]
  cases point with
  | nil =>
    obtain rfl : n = 0 := length.symm
    rw [if_pos rfl, holds.get (by norm_num)]
    rfl
  | cons r rest =>
    obtain rfl : n = rest.length + 1 := length.symm
    have half : poly.len / 2 = 2 ^ rest.length := by
      rw [MultilinearPoly.len, holds.vars, pow_succ, Nat.mul_div_cancel _ two_pos]
    rw [if_neg (Nat.succ_ne_zero _), half]
    simp only [List.getElem?_cons_zero, List.tail_cons, Option.pure_def, Option.bind_eq_bind,
      Option.bind_some, holds.foldLifted r, foldlM_foldInPlace]
    rfl

theorem Holds.evaluate_none (holds : Holds poly n table) {point : List Fr}
    (length : point.length ≠ n) : poly.evaluate point = none := by
  rw [MultilinearPoly.evaluate, holds.vars]
  simp only [guard, if_neg length]
  rfl

end Holds

/-! ## Equality over the cube -/

/-- The doubled table is the equality weights'. -/
theorem eqTable_eq (r : List Fr) : eqTable r = some (Apogee.eqTable r) := by
  induction r using List.reverseRecOn with
  | nil => rfl
  | append_singleton r x ih =>
    rw [eqTable] at ih
    rw [eqTable, List.zipIdx_append, List.foldlM_append, ih, eqTable_concat]
    simp only [Option.bind_eq_bind, Option.bind_some, List.zipIdx_cons, List.zipIdx_nil,
      List.foldlM_cons, List.foldlM_nil, zero_add]
    rw [eqDouble_eq (eqTable_length r)]
    rfl

theorem eqEval_eq {r y : List Fr} (same : r.length = y.length) :
    eqEval r y = some (eqProduct r y) := by
  rw [← eqEval_eq_eqProduct, eqEval]
  simp only [guard, if_pos same]
  rfl

/-- The table's entry at a vertex is equality with it. -/
theorem eqTable_vertex (r : List Fr) {row : ℕ} (inside : row < 2 ^ r.length) :
    (Apogee.eqTable r)[row]? = eqEval r (vertex Fr r.length row) := by
  rw [eqEval_eq (length_vertex _ _).symm, eqProduct_vertex r inside, Apogee.eqTable_eq,
    List.getElem?_map, List.getElem?_range inside]
  rfl

/-! ## Runs of calls -/

/-- A call on a polynomial. -/
inductive Call
  | get (index : ℕ)
  | evaluate (point : List Fr)
  | bind (r : Fr)

/-- What a call answers, and the polynomial it leaves. -/
def Call.perform (poly : MultilinearPoly) : Call → Option (Option Fr × MultilinearPoly)
  | .get index => (poly.get index).map fun value => (some value, poly)
  | .evaluate point => (poly.evaluate point).map fun value => (some value, poly)
  | .bind r => (poly.bind r).map fun bound => (none, bound)

/-- What one polynomial, some of its variables bound, answers a call, and the variables bound
after it. A call out of range is a panic. -/
noncomputable def Call.answer {n : ℕ} (p : MvPolynomial (Fin n) Fr) (bound : List Fr) :
    Call → Option (Option Fr × List Fr)
  | .get index =>
    if index < 2 ^ (n - bound.length) then
      some (some (valueAt p (bound ++ vertex Fr (n - bound.length) index)), bound)
    else none
  | .evaluate point =>
    if point.length = n - bound.length then some (some (valueAt p (bound ++ point)), bound)
    else none
  | .bind r => if bound.length < n then some (none, bound ++ [r]) else none

/-- A run of calls: the answers, and the state it leaves. -/
def runCalls {σ : Type} (step : σ → Call → Option (Option Fr × σ)) (state : σ) :
    List Call → Option (List (Option Fr) × σ)
  | [] => some ([], state)
  | call :: rest => do
    let (out, next) ← step state call
    let (outs, last) ← runCalls step next rest
    pure (out :: outs, last)

/-- A polynomial's table is the restriction of one polynomial to the variables not bound. -/
structure Restricts {n : ℕ} (p : MvPolynomial (Fin n) Fr) (poly : MultilinearPoly)
    (bound : List Fr) : Prop where
  vars : bound.length + poly.numVars = n
  entries : poly.backing.entries = 2 ^ poly.numVars
  get : ∀ row < 2 ^ poly.numVars,
    poly.get row = some (valueAt p (bound ++ vertex Fr poly.numVars row))
  evaluate : ∀ point : List Fr, point.length = poly.numVars →
    poly.evaluate point = some (valueAt p (bound ++ point))
  weighted : ∀ point : List Fr, point.length = poly.numVars → ∃ table,
    eqTable point = some table ∧ poly.evaluate point = some (∑ row ∈ range (2 ^ poly.numVars),
      table.getD row 0 * valueAt p (bound ++ vertex Fr poly.numVars row))

section Runs

variable {n : ℕ} {table : ℕ → Fr} {poly : MultilinearPoly} {bound : List Fr}

/-- The table left, bound so far, is the table bound. -/
def Tracked (table : ℕ → Fr) (n : ℕ) (poly : MultilinearPoly) (bound : List Fr) : Prop :=
  ∃ left, bound.length + left = n ∧ Holds poly left (bindAll bound table)

theorem valueAt_append {left : ℕ} (vars : bound.length + left = n) {point : List Fr}
    (length : point.length = left) :
    valueAt (multilinearOf n table) (bound ++ point) = extension point (bindAll bound table) := by
  rw [valueAt_multilinearOf table (by rw [List.length_append, length, vars]), ← bindAll_zero,
    bindAll_append, bindAll_zero]

theorem valueAt_vertex {left row : ℕ} (vars : bound.length + left = n) (inside : row < 2 ^ left) :
    valueAt (multilinearOf n table) (bound ++ vertex Fr left row) = bindAll bound table row := by
  rw [valueAt_append vars (length_vertex left row), extension_vertex _ inside]

theorem Tracked.restricts (tracked : Tracked table n poly bound) :
    Restricts (multilinearOf n table) poly bound := by
  obtain ⟨left, vars, holds⟩ := tracked
  obtain rfl := holds.vars
  refine ⟨vars, holds.entries, fun row inside => ?_, fun point length => ?_, fun point length =>
    ⟨Apogee.eqTable point, eqTable_eq point, ?_⟩⟩
  · rw [valueAt_vertex vars inside, holds.get inside]
  · rw [valueAt_append vars length, holds.evaluate length]
  · rw [holds.evaluate length, extension, length]
    congr 1
    apply sum_congr rfl
    intro row member
    have inside := mem_range.mp member
    rw [valueAt_vertex vars inside, Apogee.eqTable_eq, length, List.getD_eq_getElem?_getD,
      List.getElem?_map, List.getElem?_range inside]
    rfl

/-- One call answers as the polynomial does, or both panic. -/
theorem Tracked.perform (tracked : Tracked table n poly bound) (call : Call) :
    (∃ out next after, call.perform poly = some (out, next) ∧
      call.answer (multilinearOf n table) bound = some (out, after) ∧
      Tracked table n next after) ∨
    call.perform poly = none ∧ call.answer (multilinearOf n table) bound = none := by
  have kept := tracked
  obtain ⟨left, vars, holds⟩ := tracked
  have rest : n - bound.length = left := by omega
  cases call with
  | get index =>
    rw [Call.perform, Call.answer, rest]
    by_cases inside : index < 2 ^ left
    · refine Or.inl ⟨_, _, _, ?_, if_pos inside, kept⟩
      rw [holds.get inside, valueAt_vertex vars inside]
      rfl
    · refine Or.inr ⟨?_, if_neg inside⟩
      rw [holds.get_none inside]
      rfl
  | evaluate point =>
    rw [Call.perform, Call.answer, rest]
    by_cases length : point.length = left
    · refine Or.inl ⟨_, _, _, ?_, if_pos length, kept⟩
      rw [holds.evaluate length, valueAt_append vars length]
      rfl
    · refine Or.inr ⟨?_, if_neg length⟩
      rw [holds.evaluate_none length]
      rfl
  | bind r =>
    rw [Call.perform, Call.answer]
    cases left with
    | zero =>
      refine Or.inr ⟨?_, if_neg (by omega)⟩
      rw [holds.bind_none]
      rfl
    | succ left =>
      obtain ⟨next, bound', holds'⟩ := holds.bind r
      refine Or.inl ⟨none, next, bound ++ [r], ?_, if_pos (by omega), left, ?_, ?_⟩
      · rw [bound']
        rfl
      · rw [List.length_append, List.length_singleton]
        omega
      · rw [bindAll_concat]
        exact holds'

/-- A run of calls answers as the polynomial does, or both panic. -/
theorem Tracked.run (tracked : Tracked table n poly bound) (calls : List Call) :
    (∃ outs last after, runCalls (fun poly call => call.perform poly) poly calls =
        some (outs, last) ∧
      runCalls (fun bound call => call.answer (multilinearOf n table) bound) bound calls =
        some (outs, after) ∧
      Tracked table n last after) ∨
    runCalls (fun poly call => call.perform poly) poly calls = none ∧
      runCalls (fun bound call => call.answer (multilinearOf n table) bound) bound calls =
        none := by
  induction calls generalizing poly bound with
  | nil => exact Or.inl ⟨[], poly, bound, rfl, rfl, tracked⟩
  | cons call rest ih =>
    rcases tracked.perform call with ⟨out, next, after, performed, answered,
      tracked'⟩ | ⟨performed, answered⟩
    · rcases ih tracked' with ⟨outs, last, final, ran, said, tracked''⟩ | ⟨ran, said⟩
      · refine Or.inl ⟨out :: outs, last, final, ?_, ?_, tracked''⟩
        · rw [runCalls]
          simp only [performed, Option.bind_eq_bind, Option.bind_some, ran]
          rfl
        · rw [runCalls]
          simp only [answered, Option.bind_eq_bind, Option.bind_some, said]
          rfl
      · refine Or.inr ⟨?_, ?_⟩
        · rw [runCalls]
          simp only [performed, Option.bind_eq_bind, Option.bind_some, ran]
          rfl
        · rw [runCalls]
          simp only [answered, Option.bind_eq_bind, Option.bind_some, said]
          rfl
    · refine Or.inr ⟨?_, ?_⟩
      · rw [runCalls]
        simp only [performed]
        rfl
      · rw [runCalls]
        simp only [answered]
        rfl

end Runs

/-- A backing's lifted values. -/
def PolyBacking.lifted (backing : PolyBacking) (row : ℕ) : Fr := (backing.entry row).getD 0

/-- What the constructor accepts holds its backing's lifted values. -/
theorem holds_new {backing : PolyBacking} {poly : MultilinearPoly}
    (built : MultilinearPoly.new backing = some poly) :
    Holds poly poly.numVars backing.lifted := by
  obtain ⟨stored, count, limbs⟩ := MultilinearPoly.new_some built
  refine ⟨rfl, stored ▸ count, fun row inside => ?_⟩
  rw [stored, PolyBacking.lifted]
  have present (value : Option Fr) (isSome : value ≠ none) : value = some (value.getD 0) := by
    cases value with
    | none => exact absurd rfl isSome
    | some value => rfl
  apply present
  rw [← count] at inside
  cases backing with
  | u1 held entries =>
    rw [MultilinearPoly.checkLimbs] at limbs
    simp only [Option.bind_eq_bind, Option.bind_eq_some_iff] at limbs
    obtain ⟨_, length, -⟩ := limbs
    have cover := guard_eq_some.mp length
    simp only [PolyBacking.entries] at inside cover
    rw [PolyBacking.entry, List.getElem?_eq_getElem (by omega)]
    exact Option.some_ne_none _
  | u8 v =>
    rw [PolyBacking.entry, List.getElem?_eq_getElem inside]
    exact Option.some_ne_none _
  | u16 v =>
    rw [PolyBacking.entry, List.getElem?_eq_getElem inside]
    exact Option.some_ne_none _
  | u32 v =>
    rw [PolyBacking.entry, List.getElem?_eq_getElem inside]
    exact Option.some_ne_none _
  | fr v =>
    rw [PolyBacking.entry, List.getElem?_eq_getElem inside]
    exact Option.some_ne_none _

/-- Every column of a power of two of values is accepted, in whatever width; what is accepted
answers every run of calls as the one multilinear polynomial with its lifted values, and leaves
that polynomial's restriction; the equality table is equality at the vertices; and no iteration
in place reads an entry already replaced. -/
theorem polynomial_exact :
    (∀ (column : Column) (n : ℕ), column.lifted.length = 2 ^ n →
      ∃ poly, MultilinearPoly.new column.backing = some poly ∧ poly.numVars = n ∧
        ∀ row < 2 ^ n, poly.get row = column.lifted[row]?) ∧
    (∀ backing poly, MultilinearPoly.new backing = some poly →
      ∃! p : MvPolynomial (Fin poly.numVars) Fr, IsMultilinear p ∧
        ∀ row < 2 ^ poly.numVars, poly.get row = some (valueAt p (vertex Fr poly.numVars row))) ∧
    (∀ backing poly, MultilinearPoly.new backing = some poly →
      ∀ p : MvPolynomial (Fin poly.numVars) Fr, IsMultilinear p →
        (∀ row < 2 ^ poly.numVars, poly.get row = some (valueAt p (vertex Fr poly.numVars row))) →
        ∀ calls, (∃ outs last bound,
            runCalls (fun poly call => call.perform poly) poly calls = some (outs, last) ∧
            runCalls (fun bound call => call.answer p bound) [] calls = some (outs, bound) ∧
            Restricts p last bound) ∨
          runCalls (fun poly call => call.perform poly) poly calls = none ∧
            runCalls (fun bound call => call.answer p bound) [] calls = none) ∧
    (∀ r : List Fr, ∃ table, eqTable r = some table ∧ table.length = 2 ^ r.length ∧
      ∀ row < 2 ^ r.length, table[row]? = eqEval r (vertex Fr r.length row)) ∧
    (∀ (r : Fr) (values : List Fr) (half i : ℕ), values.length = 2 * half → i < half →
      ∃ held, (List.range i).foldlM (foldStep r) values = some held ∧
        held[2 * i]? = values[2 * i]? ∧ held[2 * i + 1]? = values[2 * i + 1]?) ∧
    ∀ (r : Fr) (table : List Fr) (j i : ℕ), table.length = 2 ^ j → i < 2 ^ j →
      ∃ held, (List.range i).foldlM (splitStep r (2 ^ j)) (resize table (2 * 2 ^ j)) = some held ∧
        held[i]? = table[i]? := by
  have only {backing : PolyBacking} {poly : MultilinearPoly}
      (built : MultilinearPoly.new backing = some poly) {p : MvPolynomial (Fin poly.numVars) Fr}
      (multilinear : IsMultilinear p) (agrees : ∀ row < 2 ^ poly.numVars,
        poly.get row = some (valueAt p (vertex Fr poly.numVars row))) :
      p = multilinearOf poly.numVars backing.lifted := by
    refine eq_multilinearOf multilinear fun row inside => ?_
    have got := agrees row inside
    rw [(holds_new built).get inside] at got
    exact (Option.some.inj got).symm
  refine ⟨fun column n length => ?_, fun backing poly built => ?_,
    fun backing poly built p multilinear agrees calls => ?_, fun r => ?_,
    fun r values half i length inside => ?_, fun r table j i length inside => ?_⟩
  · have built := MultilinearPoly.new_column column length
    refine ⟨_, built, rfl, fun row inside => ?_⟩
    have held := (holds_new built).entry row inside
    rw [(holds_new built).get inside, ← held]
    exact column.entry_backing (length ▸ inside)
  · refine ⟨multilinearOf poly.numVars backing.lifted,
      ⟨multilinearOf_isMultilinear _ _, fun row inside => ?_⟩,
      fun p given => only built given.1 given.2⟩
    rw [(holds_new built).get inside, valueAt_multilinearOf _ (length_vertex _ _),
      extension_vertex _ inside]
  · rw [only built multilinear agrees]
    have start : Tracked backing.lifted poly.numVars poly [] :=
      ⟨poly.numVars, Nat.zero_add _, holds_new built⟩
    rcases start.run calls with ⟨outs, last, bound, ran, said, tracked⟩ | stopped
    · exact Or.inl ⟨outs, last, bound, ran, said, tracked.restricts⟩
    · exact Or.inr stopped
  · exact ⟨Apogee.eqTable r, eqTable_eq r, eqTable_length r, fun row inside =>
    eqTable_vertex r inside⟩
  · exact ⟨_, foldlM_foldStep length inside.le, getElem?_foldedUpTo (by omega),
      getElem?_foldedUpTo (by omega)⟩
  · rw [← length] at inside ⊢
    rw [@resize_double r table]
    exact ⟨_, foldlM_splitStep inside.le, getElem?_splitUpTo inside⟩

/-- Two bits, in one limb. -/
theorem polynomial_exact_bits :
    ∃! p : MvPolynomial (Fin 1) Fr, IsMultilinear p ∧ ∀ row < 2 ^ 1,
      (⟨(Column.u1 [false, true]).backing, 1⟩ : MultilinearPoly).get row =
        some (valueAt p (vertex Fr 1 row)) :=
  polynomial_exact.2.1 _ ⟨(Column.u1 [false, true]).backing, 1⟩
    (@MultilinearPoly.new_column (.u1 [false, true]) 1 rfl)

end Apogee.Poly
