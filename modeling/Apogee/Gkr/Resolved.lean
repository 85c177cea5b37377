import Apogee.Circuit.Validated
import Apogee.Gkr.Virtual
import Apogee.Math.Sumcheck

/-! # Gate lists at a point

A gate list's operands are resolved once to where their values are read: a
column of the lower layer, a column's upper child, a virtual table, a cached
entry. Every pass evaluates the same gates on such a reading, and on a line of
readings an accepted list's gates are quadratic.
-/

namespace Apogee

open Apogee.Math

/-- Where one operand of a resolved list is read at a point. -/
inductive Source
  | lower (index : ℕ)
  | upper (index : ℕ)
  | virtual (index : ℕ)
  | cached (index : ℕ)
deriving DecidableEq

/-- The values one point reads: columns, their upper children, virtual tables. -/
def Source.read (lower upper virtuals : List Fr) : Source → Fr
  | .lower x => lower.getD x 0
  | .upper x => upper.getD x 0
  | .virtual x => virtuals.getD x 0
  | .cached _ => 0

namespace CircuitArtifact

variable (a : CircuitArtifact)

/-- Where a column operand sits in its layer's value order. The source panics on
an address that is no column. -/
def columnIndex : PolyAddress → ℕ
  | .memory i => i
  | .witness i => a.memory.length + i
  | .setup i => a.memory.length + a.witness.length + i
  | .inner _ offset => offset
  | _ => 0

/-- Where a row-wise list reads an operand. -/
def resolve : PolyAddress → Source
  | .virtual kind => .virtual (a.kinds.findIdx fun listed => listed == kind)
  | .cached _ offset => .cached offset
  | other => .lower (a.columnIndex other)

end CircuitArtifact

/-- A gate list with every operand resolved: the cached entries, then the
producing gates, then the enforcing gates. -/
structure ResolvedList where
  challenges : ExternalChallenges
  gates : List (GateDef × List Source)
  cached : ℕ
  producing : ℕ
  enforcing : ℕ

namespace ResolvedList

/-- Resolve gate list `k`. A halving gate reads each operand at both children,
and a halving list's cached and enforcing lists are not read. -/
def new (a : CircuitArtifact) (k : ℕ) (challenges : ExternalChallenges) : ResolvedList :=
  let list := a.layer k
  if list.halving then
    { challenges := challenges
      gates := list.producing.map fun entry => (entry.gate, entry.gate.operands.flatMap fun op =>
        [.lower (a.columnIndex op), .upper (a.columnIndex op)])
      cached := 0
      producing := list.producing.length
      enforcing := 0 }
  else
    { challenges := challenges
      gates := list.gates.map fun gate => (gate, gate.operands.map a.resolve)
      cached := list.cached.length
      producing := list.producing.length
      enforcing := list.enforcing.length }

variable (list : ResolvedList)

/-- Gate `i` of the whole list through the kernel, the cached values given. -/
def eval (read : Source → Fr) (scratch : List Fr) (i : ℕ) : Fr :=
  match list.gates[i]? with
  | some (gate, sources) => evalGate list.challenges gate (sources.map fun
      | .cached x => scratch.getD x 0
      | source => read source)
  | none => 0

/-- The cached entries at the point, in order. -/
def cache (read : Source → Fr) : List Fr :=
  (List.range list.cached).foldl (fun scratch i => scratch.set i (list.eval read scratch i))
    (List.replicate list.cached 0)

/-- Gate `j` at the point, producing gates first, then enforcing. -/
def gate (read : Source → Fr) (j : ℕ) : Fr := list.eval read (list.cache read) (list.cached + j)

/-- The gates at the point, weighted. -/
def summand (weights : List Fr) (read : Source → Fr) : Fr :=
  weights.zipIdx.foldl (fun acc entry => acc + list.gate read entry.2 * entry.1) 0

/-- The weighted gates as a sum. -/
theorem summand_eq_sum (weights : List Fr) (read : Source → Fr) : list.summand weights read =
      ∑ j ∈ Finset.range weights.length, weights.getD j 0 * list.gate read j := by
  have loop : ∀ (weights : List Fr) (first : ℕ) (start : Fr),
      (weights.zipIdx first).foldl (fun acc entry => acc + list.gate read entry.2 * entry.1) start =
        start + ∑ j ∈ Finset.range weights.length,
          weights.getD j 0 * list.gate read (first + j) := by
    intro weights
    induction weights with
    | nil => intro first start; simp
    | cons w weights ih =>
      intro first start
      rw [List.zipIdx_cons, List.foldl_cons, ih, List.length_cons, Finset.sum_range_succ']
      simp only [List.getD_cons_succ, List.getD_cons_zero, Nat.add_zero, Nat.add_right_comm,
        Nat.add_assoc]
      ring
  rw [summand, loop]
  simp only [zero_add]

end ResolvedList

section RowWise

variable {a : CircuitArtifact} {k : ℕ} {challenges : ExternalChallenges}

/-- A column's value at a reading. -/
def columnRow (a : CircuitArtifact) (read : Source → Fr) : Row := fun op => read (a.resolve op)

/-- An operand's value at a reading, cached entries substituted. -/
def cachedRow (a : CircuitArtifact) (k : ℕ) (challenges : ExternalChallenges)
    (read : Source → Fr) : Row
  | .cached _ offset =>
    match (a.layer k).cached[offset]? with
    | some entry => entry.gate.value challenges (columnRow a read)
    | none => 0
  | other => columnRow a read other

theorem new_rowWise (rowWise : (a.layer k).halving = false) : ResolvedList.new a k challenges =
      { challenges := challenges
        gates := (a.layer k).gates.map fun gate => (gate, gate.operands.map a.resolve)
        cached := (a.layer k).cached.length
        producing := (a.layer k).producing.length
        enforcing := (a.layer k).enforcing.length } := by
  rw [ResolvedList.new]
  simp only [rowWise, Bool.false_eq_true, ↓reduceIte]

/-- A cached source is a cached operand. -/
theorem resolve_cached {op : PolyAddress} {offset : ℕ} (cached : a.resolve op = .cached offset) :
    ∃ layer, op = .cached layer offset := by
  cases op with
  | cached layer o =>
    refine ⟨layer, ?_⟩
    rw [CircuitArtifact.resolve, Source.cached.injEq] at cached
    rw [cached]
  | _ => exact absurd cached (by simp [CircuitArtifact.resolve])

/-- A gate of a row-wise list evaluates at its operands' values. -/
theorem eval_rowWise (rowWise : (a.layer k).halving = false) {i : ℕ} {gate : GateDef}
    (found : (a.layer k).gates[i]? = some gate) (read : Source → Fr) (scratch : List Fr) :
    (ResolvedList.new a k challenges).eval read scratch i =
      gate.value challenges fun op => match a.resolve op with
        | .cached x => scratch.getD x 0
        | source => read source := by
  rw [new_rowWise rowWise, ResolvedList.eval]
  simp only [List.getElem?_map, found, Option.map_some, List.map_map]
  rfl

/-- The loop over the cached entries leaves their values. -/
theorem cache_rowWise (valid : a.Valid) (inside : k < a.depth)
    (rowWise : (a.layer k).halving = false) (read : Source → Fr) :
    (ResolvedList.new a k challenges).cache read =
      (a.layer k).cached.map fun entry => entry.gate.value challenges (columnRow a read) := by
  have laws := valid.rowWiseList k inside rowWise
  have count : (ResolvedList.new a k challenges).cached = (a.layer k).cached.length := by
    rw [new_rowWise rowWise]
  have step : ∀ i entry, (a.layer k).cached[i]? = some entry → ∀ scratch,
      (ResolvedList.new a k challenges).eval read scratch i =
        entry.gate.value challenges (columnRow a read) := by
    intro i entry found scratch
    have gate : (a.layer k).gates[i]? = some entry.gate := by
      have bound : i < ((a.layer k).cached.map (·.gate)).length := by
        rw [List.length_map]
        exact (List.getElem?_eq_some_iff.mp found).1
      rw [LayerSpec.gates, List.append_assoc, List.getElem?_append_left bound, List.getElem?_map,
        found]
      rfl
    rw [eval_rowWise rowWise gate]
    -- a cached entry reads no cached entry, so the scratch does not matter
    unfold GateDef.value
    congr 1
    apply List.map_congr_left
    intro op operand
    have reads := laws.cachedReads entry (List.mem_iff_getElem?.mpr ⟨i, found⟩) op operand
    rw [columnRow]
    cases resolved : a.resolve op with
    | cached x =>
      obtain ⟨layer, rfl⟩ := resolve_cached resolved
      exact absurd reads (by simp [CircuitArtifact.readable])
    | _ => rfl
  have loop : ∀ m ≤ (a.layer k).cached.length,
      (List.range m).foldl (fun scratch i =>
        scratch.set i ((ResolvedList.new a k challenges).eval read scratch i))
        (List.replicate (a.layer k).cached.length 0) =
      ((a.layer k).cached.take m).map (fun entry =>
          entry.gate.value challenges (columnRow a read)) ++
        List.replicate ((a.layer k).cached.length - m) 0 := by
    intro m
    induction m with
    | zero => intro _; simp
    | succ m ih =>
      intro le
      have found := List.getElem?_eq_getElem (l := (a.layer k).cached) (i := m) (by omega)
      rw [List.range_succ, List.foldl_append, ih (by omega), List.foldl_cons, List.foldl_nil,
        step m _ found, List.take_add_one, found, Option.toList_some, List.map_append,
        List.append_assoc]
      have rest : (a.layer k).cached.length - m = (a.layer k).cached.length - (m + 1) + 1 := by
        omega
      rw [rest, List.replicate_succ, List.set_append_right _ _ (by simp)]
      simp [List.length_take, Nat.min_eq_left (by omega : m ≤ (a.layer k).cached.length)]
  rw [ResolvedList.cache, count, loop _ le_rfl, List.take_length, Nat.sub_self,
    List.replicate_zero, List.append_nil]

/-- A gate of a row-wise list is its value with the cached entries substituted. -/
theorem gate_rowWise (valid : a.Valid) (inside : k < a.depth)
    (rowWise : (a.layer k).halving = false) {j : ℕ} {gate : GateDef}
    (found : ((a.layer k).producing.map (·.gate) ++ (a.layer k).enforcing.map (·.gate))[j]? =
      some gate) (read : Source → Fr) :
    (ResolvedList.new a k challenges).gate read j =
      gate.value challenges (cachedRow a k challenges read) := by
  have count : (ResolvedList.new a k challenges).cached = (a.layer k).cached.length := by
    rw [new_rowWise rowWise]
  have gateFound : (a.layer k).gates[(a.layer k).cached.length + j]? = some gate := by
    rw [LayerSpec.gates, List.append_assoc, List.getElem?_append_right (by simp),
      List.length_map, Nat.add_sub_cancel_left, found]
  rw [ResolvedList.gate, count, eval_rowWise rowWise gateFound, cache_rowWise valid inside rowWise]
  unfold GateDef.value
  congr 1
  apply List.map_congr_left
  intro op _
  cases op with
  | cached layer offset =>
    simp only [CircuitArtifact.resolve, cachedRow, List.getD_eq_getElem?_getD,
      List.getElem?_map]
    cases (a.layer k).cached[offset]? <;> rfl
  | _ => rfl

end RowWise

section Halving

variable {a : CircuitArtifact} {k : ℕ} {challenges : ExternalChallenges}

/-- A halving gate reads each operand at both children. -/
theorem gate_halving (halving : (a.layer k).halving = true) {j : ℕ} {entry : ProducingEntry}
    (found : (a.layer k).producing[j]? = some entry) (read : Source → Fr) :
    (ResolvedList.new a k challenges).gate read j =
      evalGate challenges entry.gate (entry.gate.operands.flatMap fun op =>
        [read (.lower (a.columnIndex op)), read (.upper (a.columnIndex op))]) := by
  have new : ResolvedList.new a k challenges =
      { challenges := challenges
        gates := (a.layer k).producing.map fun entry =>
          (entry.gate, entry.gate.operands.flatMap fun op =>
            [.lower (a.columnIndex op), .upper (a.columnIndex op)])
        cached := 0
        producing := (a.layer k).producing.length
        enforcing := 0 } := by
    rw [ResolvedList.new]
    simp only [halving, ↓reduceIte]
  rw [new, ResolvedList.gate, ResolvedList.eval]
  simp only [List.getElem?_map, Nat.zero_add, found, Option.map_some, List.map_flatMap]
  rfl

end Halving

section Degree

variable (challenges : ExternalChallenges) (row : Fr → Row) (d : PolyAddress → ℕ)

theorem le_foldr_max {list : List ℕ} {value : ℕ} (member : value ∈ list) :
    value ≤ list.foldr max 0 := by
  induction list with
  | nil => exact absurd member List.not_mem_nil
  | cons first rest ih =>
    rcases List.mem_cons.mp member with rfl | later
    · exact le_max_left _ _
    · exact (ih later).trans (le_max_right _ _)

theorem affine_lowDegree (terms : List (Coeff × PolyAddress)) (constant : Coeff)
    (operands : ∀ term ∈ terms, LowDegree (d term.2) fun x => row x term.2) :
    LowDegree (GateDef.widest d terms) fun x => coefficient challenges constant +
      (terms.map fun term => coefficient challenges term.1 * row x term.2).sum := by
  apply LowDegree.add
  · exact (LowDegree.const _).mono (Nat.zero_le _)
  · apply LowDegree.list_sum terms fun term x => coefficient challenges term.1 * row x term.2
    intro term member
    apply LowDegree.smul
    exact (operands term member).mono (le_foldr_max (List.mem_map.mpr ⟨term, member, rfl⟩))

/-- A row-wise gate's degree along a family of rows. -/
theorem value_lowDegree {gate : GateDef} (rowWise : gate.halving = false)
    (operands : ∀ op ∈ gate.operands, LowDegree (d op) fun x => row x op) :
    LowDegree (gate.degreeWith d) fun x => gate.value challenges (row x) := by
  cases gate with
  | linear terms constant =>
    simp only [value_linear]
    apply affine_lowDegree
    intro term member
    exact operands _ (List.mem_map.mpr ⟨term, member, rfl⟩)
  | product coeff left right =>
    have leftLow := operands left (by simp [GateDef.operands])
    have rightLow := operands right (by simp [GateDef.operands])
    simp only [value_product, mul_assoc]
    exact (leftLow.mul rightLow).smul _
  | maskIntoIdentity input mask =>
    have inputLow := operands input (by simp [GateDef.operands])
    have maskLow := operands mask (by simp [GateDef.operands])
    show LowDegree _ fun x => row x input * row x mask + 1 - row x mask
    apply LowDegree.sub
    · apply LowDegree.add
      · exact (inputLow.mul maskLow).mono (le_max_left _ _)
      · exact (LowDegree.const 1).mono (Nat.zero_le _)
    · exact maskLow.mono (le_max_right _ _)
  | affineProduct left leftConstant right rightConstant =>
    simp only [value_affineProduct]
    obtain ⟨lefts, rights⟩ := GateDef.forall_affineProduct.mp operands
    exact (affine_lowDegree _ _ _ _ _ lefts).mul (affine_lowDegree _ _ _ _ _ rights)
  | treeProduct input => exact absurd rowWise (by simp [GateDef.halving])
  | treeCross left right => exact absurd rowWise (by simp [GateDef.halving])
  | quadratic constant linear products =>
    simp only [value_quadratic]
    obtain ⟨linears, factors⟩ := GateDef.forall_quadratic.mp operands
    apply LowDegree.add
    · exact (affine_lowDegree _ _ _ _ _ linears).mono (le_max_left _ _)
    · apply LowDegree.mono _ (le_max_right _ _)
      apply LowDegree.list_sum products fun term x =>
        coefficient challenges term.1 * row x term.2.1 * row x term.2.2
      intro term member
      obtain ⟨leftLow, rightLow⟩ := factors term member
      simp only [mul_assoc]
      exact ((leftLow.mul rightLow).smul _).mono
        (le_foldr_max (List.mem_map.mpr ⟨term, member, rfl⟩))

end Degree

section Quadratic

variable {a : CircuitArtifact} {k : ℕ} (challenges : ExternalChallenges)

/-- An operand along a line of readings has its operand degree. -/
theorem cachedRow_lowDegree (valid : a.Valid) (inside : k < a.depth)
    (rowWise : (a.layer k).halving = false) (value step : Source → Fr) (op : PolyAddress) :
    LowDegree (GateDef.operandDegree (a.layer k).cached op) fun x =>
      cachedRow a k challenges (fun source => value source + x * step source) op := by
  have laws := valid.rowWiseList k inside rowWise
  cases op with
  | cached layer offset =>
    cases found : (a.layer k).cached[offset]? with
    | none =>
      simp only [cachedRow, GateDef.operandDegree, found]
      exact LowDegree.const 0
    | some entry =>
      have member : entry ∈ (a.layer k).cached := List.mem_iff_getElem?.mpr ⟨offset, found⟩
      simp only [cachedRow, GateDef.operandDegree, found]
      apply value_lowDegree
      · apply laws.shapes
        unfold LayerSpec.gates
        exact List.mem_append_left _ (List.mem_append_left _
          (List.mem_map.mpr ⟨entry, member, rfl⟩))
      · intro op _
        exact LowDegree.line _ _
  | _ => exact LowDegree.line _ _

theorem gate_lowDegree (valid : a.Valid) (inside : k < a.depth) (value step : Source → Fr)
    (j : ℕ) : LowDegree 2 fun x => (ResolvedList.new a k challenges).gate
      (fun source => value source + x * step source) j := by
  cases halving : (a.layer k).halving with
  | true =>
    cases found : (a.layer k).producing[j]? with
    | none =>
      have zero : ∀ read, (ResolvedList.new a k challenges).gate read j = 0 := by
        intro read
        rw [ResolvedList.gate, ResolvedList.eval, ResolvedList.new]
        simp [halving, found]
      simp only [zero]
      exact (LowDegree.const 0).mono (Nat.zero_le 2)
    | some entry =>
      have member := List.mem_iff_getElem?.mpr ⟨j, found⟩
      have shape := (valid.halvingList k inside halving).shapes entry member
      have line := fun source : Source => LowDegree.line (value source) (step source)
      simp only [gate_halving halving found]
      cases gate : entry.gate with
      | treeProduct input =>
        exact (line (.lower (a.columnIndex input))).mul (line (.upper (a.columnIndex input)))
      | treeCross left right =>
        apply LowDegree.add
        · exact (line (.lower (a.columnIndex left))).mul (line (.upper (a.columnIndex right)))
        · exact (line (.upper (a.columnIndex left))).mul (line (.lower (a.columnIndex right)))
      | _ => exact absurd (gate ▸ shape) (by simp [GateDef.halving])
  | false =>
    cases found : ((a.layer k).producing.map (·.gate) ++
        (a.layer k).enforcing.map (·.gate))[j]? with
    | none =>
      have zero : ∀ read, (ResolvedList.new a k challenges).gate read j = 0 := by
        intro read
        have past : (a.layer k).gates[(a.layer k).cached.length + j]? = none := by
          rw [LayerSpec.gates, List.append_assoc, List.getElem?_append_right (by simp),
            List.length_map, Nat.add_sub_cancel_left, found]
        rw [ResolvedList.gate, new_rowWise halving, ResolvedList.eval]
        simp only [List.getElem?_map, past, Option.map_none]
      simp only [zero]
      exact (LowDegree.const 0).mono (Nat.zero_le 2)
    | some gate =>
      have laws := valid.rowWiseList k inside halving
      have member := List.mem_iff_getElem?.mpr ⟨j, found⟩
      have listed : gate ∈ (a.layer k).gates := by
        rw [LayerSpec.gates, List.append_assoc]
        exact List.mem_append_right _ member
      simp only [gate_rowWise valid inside halving found]
      apply LowDegree.mono _ (laws.ceiling gate member)
      apply value_lowDegree _ _ _ (laws.shapes gate listed)
      intro op _
      exact cachedRow_lowDegree challenges valid inside halving value step op

/-- An accepted list's summand is quadratic along every line of readings. -/
theorem summand_quadratic (valid : a.Valid) (inside : k < a.depth) (weights : List Fr) :
    Quadratic ((ResolvedList.new a k challenges).summand weights) := by
  intro value step
  simp only [ResolvedList.summand_eq_sum]
  apply LowDegree.sum
  intro j _
  exact (gate_lowDegree challenges valid inside value step j).smul _

end Quadratic

end Apogee
