import Apogee.Field

/-! # Gates

The closed set of gate shapes, the addresses they read and the one kernel that
evaluates them. A gate is data: a family's circuit is a list of these values,
and every statement about a circuit is a statement about `evalGate` on them.
-/

namespace Apogee

/-- A virtual setup table's closed form. -/
inductive VirtualKind
  | rowIndex
  | ramLive
  | range19
  | range16
  | xor8A
  | xor8B
  | xor8Out
deriving DecidableEq, Repr

/-- The one way any polynomial is named. -/
inductive PolyAddress
  | memory (index : ℕ)
  | witness (index : ℕ)
  | setup (index : ℕ)
  | virtual (kind : VirtualKind)
  | inner (layer offset : ℕ)
  | scratch (index : ℕ)
  | cached (layer offset : ℕ)
deriving DecidableEq, Repr

/-- The short notation of diagnostics. -/
def PolyAddress.display : PolyAddress → String
  | .memory i => "M[" ++ toString i ++ "]"
  | .witness i => "W[" ++ toString i ++ "]"
  | .setup i => "S[" ++ toString i ++ "]"
  | .virtual .rowIndex => "V[row]"
  | .virtual .ramLive => "V[ram_live]"
  | .virtual .range19 => "V[range19]"
  | .virtual .range16 => "V[range16]"
  | .virtual .xor8A => "V[xor8_a]"
  | .virtual .xor8B => "V[xor8_b]"
  | .virtual .xor8Out => "V[xor8_out]"
  | .inner layer offset => "L\x7b" ++ toString layer ++ "\x7d[" ++ toString offset ++ "]"
  | .scratch i => "scratch[" ++ toString i ++ "]"
  | .cached layer offset => "C\x7b" ++ toString layer ++ "\x7d[" ++ toString offset ++ "]"

/-- A coefficient: a literal, or an external challenge slot. -/
inductive Coeff
  | literal (value : Fr)
  | challenge (slot : ℕ)
deriving DecidableEq

/-- The coefficient of a small literal, which gates write as a `u64`. -/
def lit (value : ℕ) : Coeff := .literal value

/-- The coefficient of a small negated literal. -/
def neg (value : ℕ) : Coeff := .literal (-(value : Fr))

/-- The gate shapes. -/
inductive GateDef
  /-- `Σ c_i·x_i + c_0`. -/
  | linear (terms : List (Coeff × PolyAddress)) (constant : Coeff)
  /-- `c·x·y`. -/
  | product (coeff : Coeff) (left right : PolyAddress)
  /-- `x·m + (1 − m)`. -/
  | maskIntoIdentity (input mask : PolyAddress)
  /-- `(Σ a_i·x_i + a_0)·(Σ b_j·y_j + b_0)`. -/
  | affineProduct (left : List (Coeff × PolyAddress)) (leftConstant : Coeff)
      (right : List (Coeff × PolyAddress)) (rightConstant : Coeff)
  /-- `x(·,0)·x(·,1)`, in a halving list. -/
  | treeProduct (input : PolyAddress)
  /-- `p(·,0)·q(·,1) + p(·,1)·q(·,0)`, in a halving list. -/
  | treeCross (left right : PolyAddress)
  /-- `c_0 + Σ a_i·x_i + Σ b_j·y_j·z_j`. -/
  | quadratic (constant : Coeff) (linear : List (Coeff × PolyAddress))
      (products : List (Coeff × PolyAddress × PolyAddress))
deriving DecidableEq

namespace GateDef

/-- The addresses a gate reads, in kernel order. -/
def operands : GateDef → List PolyAddress
  | linear terms _ => terms.map Prod.snd
  | product _ left right => [left, right]
  | maskIntoIdentity input mask => [input, mask]
  | affineProduct left _ right _ => (left ++ right).map Prod.snd
  | treeProduct input => [input]
  | treeCross left right => [left, right]
  | quadratic _ terms products =>
    terms.map Prod.snd ++ products.flatMap fun term => [term.2.1, term.2.2]

theorem forall_affineProduct {holds : PolyAddress → Prop} {left right : List (Coeff × PolyAddress)}
    {leftConstant rightConstant : Coeff} :
    (∀ op ∈ (affineProduct left leftConstant right rightConstant).operands, holds op) ↔
      (∀ term ∈ left, holds term.2) ∧ ∀ term ∈ right, holds term.2 := by
  simp only [operands, List.map_append, List.forall_mem_append, List.forall_mem_map]

theorem forall_quadratic {holds : PolyAddress → Prop} {constant : Coeff}
    {linear : List (Coeff × PolyAddress)} {products : List (Coeff × PolyAddress × PolyAddress)} :
    (∀ op ∈ (quadratic constant linear products).operands, holds op) ↔
      (∀ term ∈ linear, holds term.2) ∧ ∀ term ∈ products, holds term.2.1 ∧ holds term.2.2 := by
  simp only [operands, List.forall_mem_append, List.forall_mem_map, List.forall_mem_flatMap,
    List.forall_mem_cons, List.not_mem_nil, IsEmpty.forall_iff, implies_true, and_true]

/-- Every coefficient a gate carries, constants included, in field order. -/
def coefficients : GateDef → List Coeff
  | linear terms constant => terms.map Prod.fst ++ [constant]
  | product coeff _ _ => [coeff]
  | maskIntoIdentity _ _ => []
  | affineProduct left leftConstant right rightConstant =>
    left.map Prod.fst ++ [leftConstant] ++ (right.map Prod.fst ++ [rightConstant])
  | treeProduct _ => []
  | treeCross _ _ => []
  | quadratic constant terms products =>
    constant :: (terms.map Prod.fst ++ products.map Prod.fst)

/-- The shapes that read both children of a column. -/
def halving : GateDef → Bool
  | treeProduct _ => true
  | treeCross _ _ => true
  | _ => false

end GateDef

/-- Named external challenge slots, sorted by slot with one entry each. -/
structure ExternalChallenges where
  slots : List (ℕ × Fr)
  sorted : slots.Pairwise (·.1 < ·.1)

namespace ExternalChallenges

/-- No slot set. -/
def empty : ExternalChallenges := ⟨[], List.Pairwise.nil⟩

/-- The value of a slot, if it is set. -/
def get (challenges : ExternalChallenges) (slot : ℕ) : Option Fr :=
  challenges.slots.lookup slot

end ExternalChallenges

/-- A coefficient's value. The kernel panics on a slot that is not set; no
caller reaches that case, and it reads as zero here. -/
def coefficient (challenges : ExternalChallenges) : Coeff → Fr
  | .literal value => value
  | .challenge slot => (challenges.get slot).getD 0

/-- An affine form at given operand values. -/
def affine (challenges : ExternalChallenges) (terms : List (Coeff × PolyAddress)) (constant : Coeff)
    (values : List Fr) : Fr :=
  (terms.zip values).foldl (fun acc term => acc + coefficient challenges term.1.1 * term.2)
    (coefficient challenges constant)

/-- The consecutive pairs of a list, a last odd element dropped. -/
def chunkPairs : List Fr → List (Fr × Fr)
  | y :: z :: rest => (y, z) :: chunkPairs rest
  | _ => []

/-- The gate kernel: a gate at one point, given one value for each operand, two
for each operand of a halving shape. -/
def evalGate (challenges : ExternalChallenges) (gate : GateDef) (values : List Fr) : Fr :=
  match gate with
  | .linear terms constant => affine challenges terms constant values
  | .product coeff _ _ => coefficient challenges coeff * values.getD 0 0 * values.getD 1 0
  | .maskIntoIdentity _ _ => values.getD 0 0 * values.getD 1 0 + 1 - values.getD 1 0
  | .affineProduct left leftConstant right rightConstant =>
    affine challenges left leftConstant (values.take left.length) *
      affine challenges right rightConstant (values.drop left.length)
  | .treeProduct _ => values.getD 0 0 * values.getD 1 0
  | .treeCross _ _ => values.getD 0 0 * values.getD 3 0 + values.getD 1 0 * values.getD 2 0
  | .quadratic constant linear products =>
    (products.zip (chunkPairs (values.drop linear.length))).foldl
      (fun acc term => acc + coefficient challenges term.1.1 * term.2.1 * term.2.2)
      (affine challenges linear constant (values.take linear.length))

/-- One row's value of every address a gate may read. -/
abbrev Row := PolyAddress → Fr

/-- A row-wise gate on one row. -/
def GateDef.value (challenges : ExternalChallenges) (row : Row) (gate : GateDef) : Fr :=
  evalGate challenges gate (gate.operands.map row)

/-- A gate's value is that of the columns it reads. -/
theorem GateDef.value_congr {challenges : ExternalChallenges} {gate : GateDef} {row other : Row}
    (same : ∀ op ∈ gate.operands, row op = other op) :
    gate.value challenges row = gate.value challenges other := by
  unfold GateDef.value
  rw [List.map_congr_left same]

section Value

variable (challenges : ExternalChallenges) (row : Row)

/-- Reading the operands of an affine form off a row gives the written-out sum. -/
theorem affine_map (terms : List (Coeff × PolyAddress)) (constant : Coeff) :
    affine challenges terms constant (terms.map fun term => row term.2) =
      coefficient challenges constant +
        (terms.map fun term => coefficient challenges term.1 * row term.2).sum := by
  unfold affine
  generalize coefficient challenges constant = start
  induction terms generalizing start with
  | nil => simp
  | cons term terms ih =>
    simp only [List.map_cons, List.zip_cons_cons, List.foldl_cons, List.sum_cons, ih]
    ring

private theorem foldl_products (products : List (Coeff × PolyAddress × PolyAddress)) (start : Fr) :
    (products.zip (chunkPairs (products.flatMap fun term =>
        [row term.2.1, row term.2.2]))).foldl
        (fun acc term => acc + coefficient challenges term.1.1 * term.2.1 * term.2.2) start =
      start + (products.map fun term =>
        coefficient challenges term.1 * row term.2.1 * row term.2.2).sum := by
  induction products generalizing start with
  | nil => simp
  | cons term products ih =>
    simp only [List.flatMap_cons, List.cons_append, List.nil_append, chunkPairs,
      List.zip_cons_cons, List.foldl_cons, List.map_cons, List.sum_cons, ih]
    ring

/-- A sum over lists laid end to end is the sum of their sums. -/
theorem sum_map_flatMap {α β : Type*} (list : List α) (parts : α → List β) (term : β → Fr) :
    ((list.flatMap parts).map term).sum =
      (list.map fun entry => ((parts entry).map term).sum).sum := by
  induction list with
  | nil => rfl
  | cons entry list ih =>
    rw [List.flatMap_cons, List.map_append, List.sum_append, ih, List.map_cons, List.sum_cons]

/-- A linear gate's value. -/
@[simp]
theorem value_linear (terms : List (Coeff × PolyAddress)) (constant : Coeff) :
    (GateDef.linear terms constant).value challenges row = coefficient challenges constant +
        (terms.map fun term => coefficient challenges term.1 * row term.2).sum := by
  simp only [GateDef.value, GateDef.operands, List.map_map]
  exact affine_map challenges row terms constant

/-- An affine product's value. -/
@[simp]
theorem value_affineProduct (left : List (Coeff × PolyAddress)) (leftConstant : Coeff)
    (right : List (Coeff × PolyAddress)) (rightConstant : Coeff) :
    (GateDef.affineProduct left leftConstant right rightConstant).value challenges row =
      (coefficient challenges leftConstant +
        (left.map fun term => coefficient challenges term.1 * row term.2).sum) *
      (coefficient challenges rightConstant +
        (right.map fun term => coefficient challenges term.1 * row term.2).sum) := by
  have split : ((left ++ right).map Prod.snd).map row =
      (left.map fun term => row term.2) ++ (right.map fun term => row term.2) := by
    simp [List.map_map, Function.comp_def]
  simp only [GateDef.value, GateDef.operands, evalGate, split]
  rw [List.take_left' (by simp), List.drop_left' (by simp), affine_map, affine_map]

/-- A quadratic gate's value. -/
@[simp]
theorem value_quadratic (constant : Coeff) (linear : List (Coeff × PolyAddress))
    (products : List (Coeff × PolyAddress × PolyAddress)) :
    (GateDef.quadratic constant linear products).value challenges row =
      coefficient challenges constant +
        (linear.map fun term => coefficient challenges term.1 * row term.2).sum +
        (products.map fun term =>
          coefficient challenges term.1 * row term.2.1 * row term.2.2).sum := by
  have split : (linear.map Prod.snd ++ products.flatMap fun term => [term.2.1, term.2.2]).map row =
      (linear.map fun term => row term.2) ++
        products.flatMap fun term => [row term.2.1, row term.2.2] := by
    simp [List.map_map, Function.comp_def, List.map_flatMap]
  simp only [GateDef.value, GateDef.operands, evalGate, split]
  rw [List.take_left' (by simp), List.drop_left' (by simp), affine_map, foldl_products]

/-- A product gate's value. -/
@[simp]
theorem value_product (coeff : Coeff) (left right : PolyAddress) :
    (GateDef.product coeff left right).value challenges row =
      coefficient challenges coeff * row left * row right := rfl

end Value

@[simp]
theorem coefficient_literal (challenges : ExternalChallenges) (value : Fr) :
    coefficient challenges (.literal value) = value := rfl

@[simp]
theorem coefficient_lit (challenges : ExternalChallenges) (value : ℕ) :
    coefficient challenges (lit value) = (value : Fr) := rfl

@[simp]
theorem coefficient_neg (challenges : ExternalChallenges) (value : ℕ) :
    coefficient challenges (neg value) = -(value : Fr) := rfl

end Apogee
