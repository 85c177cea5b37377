import Apogee.Circuit.Artifact

/-! # Gates as polynomials over symbols

A gate expands to a normalized sum of monomials: sorted, equal ones merged,
zero coefficients dropped. Two gates of equal expansions take equal values.
-/

namespace Apogee

/-- What a monomial multiplies: a column, a column's child, a challenge. -/
inductive Symbol
  | column (address : PolyAddress)
  | child (address : PolyAddress) (bit : ℕ)
  | challenge (slot : ℕ)
deriving DecidableEq

/-- The derived order of virtual tables. -/
def VirtualKind.index : VirtualKind → ℕ
  | .rowIndex => 0
  | .ramLive => 1
  | .range19 => 2
  | .range16 => 3
  | .xor8A => 4
  | .xor8B => 5
  | .xor8Out => 6

/-- The derived order of addresses: by variant, then by field. -/
def PolyAddress.key : PolyAddress → List ℕ
  | .memory i => [0, i]
  | .witness i => [1, i]
  | .setup i => [2, i]
  | .virtual kind => [3, kind.index]
  | .inner layer offset => [4, layer, offset]
  | .scratch i => [5, i]
  | .cached layer offset => [6, layer, offset]

/-- The derived order of symbols. -/
def Symbol.key : Symbol → List ℕ
  | .column address => 0 :: address.key
  | .child address bit => 1 :: (address.key ++ [bit])
  | .challenge slot => [2, slot]

/-- `Σ coefficient · Π symbols`. -/
abbrev Expansion := List (List Symbol × Fr)

/-- A term in front of merged ones. -/
def mergeTerm (term : List Symbol × Fr) : Expansion → Expansion
  | [] => [term]
  | next :: merged =>
    if term.1 = next.1 then (term.1, term.2 + next.2) :: merged else term :: next :: merged

/-- Merge the equal monomials that stand side by side. -/
def mergeAdjacent (terms : Expansion) : Expansion := terms.foldr mergeTerm []

/-- One polynomial, one representation: monomials sorted, equal ones merged,
zero coefficients dropped. -/
def normalize (terms : Expansion) : Expansion :=
  let sorted := terms.map fun term => (term.1.insertionSort fun s t => s.key ≤ t.key, term.2)
  (mergeAdjacent (sorted.insertionSort fun x y => x.1.map Symbol.key ≤ y.1.map Symbol.key)).filter
    fun term => term.2 ≠ 0

/-- The normalized product of two sums. -/
def Expansion.product (left right : Expansion) : Expansion :=
  normalize (left.flatMap fun a => right.map fun b => (a.1 ++ b.1, a.2 * b.2))

/-- A coefficient as a sum of one monomial. -/
def Coeff.expansion : Coeff → Expansion
  | .literal value => [([], value)]
  | .challenge slot => [([.challenge slot], 1)]

/-- Where a gate's operands live: the flat list, or one gate list of the layered
encoding, whose inner columns are read as their scratch slots. -/
structure Namespace where
  layered : Bool
  cached : List CachedEntry
  inverse : PolyAddress → Option ℕ

namespace Namespace

/-- A column in the flat list's namespace; the source panics on an inner column
that no scratch slot is. -/
def column (space : Namespace) : PolyAddress → PolyAddress
  | .inner layer offset =>
    if space.layered then .scratch ((space.inverse (.inner layer offset)).getD 0)
    else .inner layer offset
  | other => other

/-- An affine form, its operands' expansions given. -/
def affineWith (operand : PolyAddress → Expansion) (terms : List (Coeff × PolyAddress))
    (constant : Coeff) : Expansion :=
  normalize (constant.expansion ++
    terms.flatMap fun term => term.1.expansion.product (operand term.2))

/-- A gate, its operands' expansions given. -/
def expandWith (space : Namespace) (operand : PolyAddress → Expansion) : GateDef → Expansion
  | .linear terms constant => affineWith operand terms constant
  | .product coeff left right => (coeff.expansion.product (operand left)).product (operand right)
  | .maskIntoIdentity input mask =>
    normalize ((operand input).product (operand mask) ++ [([], 1)] ++
      Expansion.product [([], -1)] (operand mask))
  | .affineProduct left leftConstant right rightConstant =>
    (affineWith operand left leftConstant).product (affineWith operand right rightConstant)
  | .treeProduct input =>
    [([.child (space.column input) 0, .child (space.column input) 1], 1)]
  | .treeCross left right =>
    normalize [([.child (space.column left) 0, .child (space.column right) 1], 1),
      ([.child (space.column left) 1, .child (space.column right) 0], 1)]
  | .quadratic constant linear products =>
    normalize (affineWith operand linear constant ++
      products.flatMap fun term =>
        (term.1.expansion.product (operand term.2.1)).product (operand term.2.2))

/-- A column operand's expansion. -/
def columnOperand (space : Namespace) (address : PolyAddress) : Expansion :=
  [([.column (space.column address)], 1)]

/-- An operand's expansion: a cached entry is substituted, and names no other. -/
def operand (space : Namespace) : PolyAddress → Expansion
  | .cached layer offset =>
    if space.layered then
      match space.cached[offset]? with
      | some entry => space.expandWith space.columnOperand entry.gate
      | none => []
    else space.columnOperand (.cached layer offset)
  | other => space.columnOperand other

/-- A gate's expansion. -/
def expand (space : Namespace) (gate : GateDef) : Expansion := space.expandWith space.operand gate

/-- The flat list's namespace. -/
def flat : Namespace := ⟨false, [], fun _ => none⟩

end Namespace

/-- A gate's normalized expansion in the flat namespace. -/
def normalForm (gate : GateDef) : Expansion := normalize (Namespace.flat.expand gate)

section Value

variable (assign : Symbol → Fr)

/-- An expansion's value at an assignment of its symbols. -/
def Expansion.value (terms : Expansion) : Fr :=
  (terms.map fun term => term.2 * (term.1.map assign).prod).sum

@[simp]
theorem Expansion.value_nil : Expansion.value assign [] = 0 := rfl

@[simp]
theorem Expansion.value_cons (term : List Symbol × Fr) (rest : Expansion) :
    Expansion.value assign (term :: rest) =
      term.2 * (term.1.map assign).prod + Expansion.value assign rest := by
  rw [Expansion.value, List.map_cons, List.sum_cons, Expansion.value]

@[simp]
theorem Expansion.value_append (left right : Expansion) : Expansion.value assign (left ++ right) =
      Expansion.value assign left + Expansion.value assign right := by
  rw [Expansion.value, List.map_append, List.sum_append, Expansion.value, Expansion.value]

theorem value_mergeTerm (term : List Symbol × Fr) (merged : Expansion) :
    Expansion.value assign (mergeTerm term merged) = Expansion.value assign (term :: merged) := by
  cases merged with
  | nil => rfl
  | cons next merged =>
    by_cases same : term.1 = next.1
    · simp only [mergeTerm, same, ↓reduceIte, Expansion.value_cons]
      ring
    · simp only [mergeTerm, same, ↓reduceIte]

theorem value_mergeAdjacent (terms : Expansion) :
    Expansion.value assign (mergeAdjacent terms) = Expansion.value assign terms := by
  induction terms with
  | nil => rfl
  | cons term rest ih =>
    rw [mergeAdjacent, List.foldr_cons, value_mergeTerm, Expansion.value_cons,
      Expansion.value_cons, ← ih, mergeAdjacent]

theorem value_filter_ne_zero (terms : Expansion) :
    Expansion.value assign (terms.filter fun term => term.2 ≠ 0) = Expansion.value assign terms := by
  induction terms with
  | nil => rfl
  | cons term rest ih =>
    by_cases zero : term.2 = 0
    · rw [List.filter_cons_of_neg (by simpa using zero), ih, Expansion.value_cons, zero,
        zero_mul, zero_add]
    · rw [List.filter_cons_of_pos (by simpa using zero), Expansion.value_cons, ih,
        Expansion.value_cons]

theorem value_perm {left right : Expansion} (perm : left.Perm right) :
    Expansion.value assign left = Expansion.value assign right :=
  (perm.map _).sum_eq

/-- Normalizing keeps the value. -/
@[simp]
theorem value_normalize (terms : Expansion) :
    Expansion.value assign (normalize terms) = Expansion.value assign terms := by
  unfold normalize
  rw [value_filter_ne_zero, value_mergeAdjacent, value_perm assign (List.perm_insertionSort _ _)]
  induction terms with
  | nil => rfl
  | cons term rest ih =>
    have sorted : ((term.1.insertionSort fun s t => s.key ≤ t.key).map assign).prod =
        (term.1.map assign).prod := ((List.perm_insertionSort _ _).map assign).prod_eq
    rw [List.map_cons, Expansion.value_cons, Expansion.value_cons, ih, sorted]

@[simp]
theorem value_expansionProduct (left right : Expansion) :
    Expansion.value assign (left.product right) =
      Expansion.value assign left * Expansion.value assign right := by
  unfold Expansion.product
  rw [value_normalize]
  induction left with
  | nil => simp
  | cons a left ih =>
    have scaled : Expansion.value assign (right.map fun b => (a.1 ++ b.1, a.2 * b.2)) =
        a.2 * (a.1.map assign).prod * Expansion.value assign right := by
      clear ih
      induction right with
      | nil => simp
      | cons b right ih =>
        rw [List.map_cons, Expansion.value_cons, ih, Expansion.value_cons, List.map_append,
          List.prod_append]
        ring
    rw [List.flatMap_cons, Expansion.value_append, ih, scaled, Expansion.value_cons, add_mul]

end Value

end Apogee
