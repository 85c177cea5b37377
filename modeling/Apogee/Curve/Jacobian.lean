import Apogee.Math.BatchInverse
import Apogee.Math.Codec
import Apogee.Math.CurveLadder

/-! # Points in Jacobian coordinates

G1 and G2 are written out with the same formulas, each over its own field and
with its own constant. A point is read as the affine one that its coordinates
stand for, and every operation is the group's on what it reads.
-/

namespace Apogee.Curve

open Math WeierstrassCurve.Affine

/-- What the formulas use of a field besides its sums and products. -/
class Coordinate (F : Type*) [Field F] [DecidableEq F] where
  square : F → F
  inverse : F → Option F
  square_eq : ∀ x, square x = x * x
  inverse_eq : ∀ x, inverse x = if x = 0 then none else some x⁻¹

export Coordinate (square inverse square_eq inverse_eq)

/-- A point in affine coordinates, or the point at infinity, whose coordinates
carry no meaning. -/
structure Affine (F : Type*) where
  x : F
  y : F
  infinity : Bool

/-- A point in Jacobian coordinates: the affine `(x / z², y / z³)`, or the point
at infinity where `z` is zero. -/
structure Projective (F : Type*) where
  x : F
  y : F
  z : F

section Model

variable {F : Type*} [Field F] [DecidableEq F] [Coordinate F]

namespace Affine

def identity : Affine F := ⟨0, 0, true⟩

def isOnCurve (b : F) (p : Affine F) : Bool :=
  p.infinity || decide (square p.y = square p.x * p.x + b)

def neg (p : Affine F) : Affine F := if p.infinity then p else ⟨p.x, -p.y, false⟩

def eq (p other : Affine F) : Bool :=
  match p.infinity, other.infinity with
  | true, true => true
  | false, false => decide (p.x = other.x) && decide (p.y = other.y)
  | _, _ => false

end Affine

namespace Projective

def identity : Projective F := ⟨1, 1, 0⟩

def isIdentity (p : Projective F) : Bool := decide (p.z = 0)

def ofAffine (p : Affine F) : Projective F := if p.infinity then identity else ⟨p.x, p.y, 1⟩

def neg (p : Projective F) : Projective F := ⟨p.x, -p.y, p.z⟩

/-- The tangent's third point. -/
def double (p : Projective F) : Projective F :=
  if p.isIdentity then identity
  else
    let a := square p.x
    let b := square p.y
    let c := square b
    let t := square (p.x + b) - a - c
    let d := t + t
    let e := a + a + a
    let f := square e
    let x3 := f - d - d
    let c2 := c + c
    let c4 := c2 + c2
    let eightC := c4 + c4
    let s := p.y * p.z
    ⟨x3, e * (d - x3) - eightC, s + s⟩

/-- The chord's third point; a shared abscissa is a doubling or the identity. -/
def add (p other : Projective F) : Projective F :=
  if p.isIdentity then other
  else if other.isIdentity then p
  else
    let z1z1 := square p.z
    let z2z2 := square other.z
    let u1 := p.x * z2z2
    let u2 := other.x * z1z1
    let s1 := p.y * z2z2 * other.z
    let s2 := other.y * z1z1 * p.z
    let h := u2 - u1
    let d := s2 - s1
    let r := d + d
    if h = 0 then
      if r = 0 then p.double else identity
    else
      let twoH := h + h
      let i := square twoH
      let j := h * i
      let v := u1 * i
      let x3 := square r - j - v - v
      let s1j := s1 * j
      ⟨x3, r * (v - x3) - (s1j + s1j), (square (p.z + other.z) - z1z1 - z2z2) * h⟩

/-- The sum with a point whose `z` is one. -/
def addAffine (p : Projective F) (other : Affine F) : Projective F :=
  if other.infinity then p
  else if p.isIdentity then ofAffine other
  else
    let z1z1 := square p.z
    let u2 := other.x * z1z1
    let s2 := other.y * z1z1 * p.z
    let h := u2 - p.x
    let d := s2 - p.y
    let r := d + d
    if h = 0 then
      if r = 0 then p.double else identity
    else
      let hh := square h
      let twoHh := hh + hh
      let i := twoHh + twoHh
      let j := h * i
      let v := p.x * i
      let x3 := square r - j - v - v
      let y1j := p.y * j
      ⟨x3, r * (v - x3) - (y1j + y1j), square (p.z + h) - z1z1 - hh⟩

/-- An entry of the ladder's table, each one addition from the last. -/
def entry (p : Projective F) : ℕ → Projective F
  | 0 => identity
  | 1 => p
  | i + 2 => (p.entry (i + 1)).add p

/-- Four doublings and the addition of a nibble's entry. -/
def window (p acc : Projective F) (nibble : ℕ) : Projective F :=
  acc.double.double.double.double.add (p.entry nibble)

/-- The window ladder over a little-endian scalar, from the top nibble down. -/
def mulLeBytes (p : Projective F) (scalar : List UInt8) : Projective F :=
  scalar.reverse.foldl (fun acc byte =>
    [byte.toNat / 16, byte.toNat % 16].foldl p.window acc) identity

/-- The point normalized by an inverse of its `z`. -/
def scaled (p : Projective F) (zInv : F) : Affine F :=
  let zInv2 := square zInv
  ⟨p.x * zInv2, p.y * zInv2 * zInv, false⟩

def toAffine (p : Projective F) : Affine F :=
  match inverse p.z with
  | none => .identity
  | some zInv => p.scaled zInv

/-- A list normalized with one inversion; a zero inverse marks an identity. -/
def batchToAffine (points : List (Projective F)) : Option (List (Affine F)) := do
  let zInvs ← batchInverse (fun u v : F => some (u * v)) (fun u => some (inverse u)) 0 1
    (points.map Projective.z)
  some (List.zipWith (fun (p : Projective F) zInv =>
    if zInv = 0 then .identity else p.scaled zInv) points zInvs)

/-- Equality without normalizing. -/
def eq (p other : Projective F) : Bool :=
  match p.isIdentity, other.isIdentity with
  | true, true => true
  | false, false =>
    let z1z1 := square p.z
    let z2z2 := square other.z
    decide (p.x * z2z2 = other.x * z1z1) &&
      decide (p.y * z2z2 * other.z = other.y * z1z1 * p.z)
  | _, _ => false

end Projective

end Model

section Reading

variable {F : Type*} [Field F] [DecidableEq F] {b : F}

/-- The point that affine coordinates stand for. -/
inductive Affine.Stands : Affine F → (mordell b).Point → Prop
  | infinity {p : Affine F} (held : p.infinity = true) : p.Stands 0
  | finite {p : Affine F} (held : p.infinity = false) (there : (mordell b).Nonsingular p.x p.y) :
      p.Stands (mordellPoint there)

/-- The point that Jacobian coordinates stand for. -/
inductive Projective.Stands : Projective F → (mordell b).Point → Prop
  | infinity {p : Projective F} (zero : p.z = 0) : p.Stands 0
  | finite {p : Projective F} {x y : F} (nonzero : p.z ≠ 0) (abscissa : p.x = x * p.z ^ 2)
      (ordinate : p.y = y * p.z ^ 3) (there : (mordell b).Nonsingular x y) :
      p.Stands (mordellPoint there)

theorem Projective.isIdentity_iff {p : Projective F} : p.isIdentity = true ↔ p.z = 0 :=
  decide_eq_true_iff

omit [DecidableEq F] in
theorem Projective.identity_stands : (identity : Projective F).Stands (0 : (mordell b).Point) :=
  .infinity rfl

omit [DecidableEq F] in
theorem Projective.ofAffine_stands {p : Affine F} {point : (mordell b).Point}
    (stands : p.Stands point) : (ofAffine p).Stands point := by
  cases stands with
  | infinity held =>
    rw [ofAffine, if_pos held]
    exact identity_stands
  | finite held there =>
    rw [ofAffine, if_neg (by simp [held])]
    exact .finite one_ne_zero (by simp) (by simp) there

theorem Affine.neg_stands {p : Affine F} {point : (mordell b).Point} (stands : p.Stands point) :
    p.neg.Stands (-point) := by
  cases stands with
  | infinity held =>
    rw [neg, if_pos held, neg_zero]
    exact .infinity held
  | finite held there =>
    rw [neg, if_neg (by simp [held]), Point.neg_some]
    simp only [mordell_negY]
    exact .finite rfl _

theorem Projective.neg_stands {p : Projective F} {point : (mordell b).Point}
    (stands : p.Stands point) : p.neg.Stands (-point) := by
  cases stands with
  | infinity zero =>
    rw [neg_zero]
    exact .infinity zero
  | finite nonzero abscissa ordinate there =>
    rw [Point.neg_some]
    refine .finite (p := p.neg) nonzero abscissa ?_ _
    rw [mordell_negY, neg, ordinate, neg_mul]

end Reading

section Comparisons

variable {F : Type*} [Field F] {b : F}

/-- What the comparisons of scaled coordinates decide. -/
theorem scaled_eq_iff {x x' z z' : F} (n : ℕ) (nonzero : z ≠ 0) (nonzero' : z' ≠ 0) :
    x' * z' ^ n * z ^ n - x * z ^ n * z' ^ n = 0 ↔ x = x' := by
  have factored : x' * z' ^ n * z ^ n - x * z ^ n * z' ^ n = (x' - x) * (z ^ n * z' ^ n) := by ring
  rw [factored, mul_eq_zero, sub_eq_zero, eq_comm]
  exact or_iff_left (mul_ne_zero (pow_ne_zero n nonzero) (pow_ne_zero n nonzero'))

/-- Two points of one abscissa are equal or opposite. -/
theorem ordinates_cases {x y y' : F} (there : (mordell b).Nonsingular x y)
    (there' : (mordell b).Nonsingular x y') : y = y' ∨ y = -y' := by
  refine sq_eq_sq_iff_eq_or_eq_neg.mp ?_
  rw [mordell_equation.mp there.1, mordell_equation.mp there'.1]

end Comparisons

section Group

variable {F : Type*} [Field F] [DecidableEq F] [Coordinate F] [NeZero (2 : F)] {b : F}

namespace Projective

theorem double_stands {p : Projective F} {point : (mordell b).Point} (stands : p.Stands point) :
    p.double.Stands (point + point) := by
  cases stands with
  | infinity zero =>
    rw [double, if_pos (isIdentity_iff.mpr zero), add_zero]
    exact identity_stands
  | @finite x y nonzero abscissa ordinate there =>
    rw [double, if_neg (fun held => nonzero (isIdentity_iff.mp held))]
    simp only [square_eq, abscissa, ordinate]
    by_cases flat : y = 0
    · -- a point of order two: the ordinate makes `z` zero
      have opposite : mordellPoint there + mordellPoint there = 0 := by
        refine Point.add_of_Y_eq rfl ?_
        rw [mordell_negY, flat, neg_zero]
      rw [opposite]
      exact .infinity (by simp [flat])
    · have two : (2 : F) ≠ 0 := NeZero.ne 2
      obtain ⟨there', sum⟩ := mordell_double there (mul_ne_zero two flat)
      rw [sum]
      refine .finite ?_ ?_ ?_ there'
      · have split : y * p.z ^ 3 * p.z + y * p.z ^ 3 * p.z = 2 * y * p.z ^ 4 := by ring
        rw [split]
        exact mul_ne_zero (mul_ne_zero two flat) (pow_ne_zero 4 nonzero)
      · field_simp
        ring
      · field_simp
        ring

theorem add_stands {p other : Projective F} {P Q : (mordell b).Point} (left : p.Stands P)
    (right : other.Stands Q) : (p.add other).Stands (P + Q) := by
  have doubled := double_stands left
  cases left with
  | infinity zero =>
    rw [add, if_pos (isIdentity_iff.mpr zero), zero_add]
    exact right
  | @finite x y nonzero abscissa ordinate there =>
    cases right with
    | infinity zero' =>
      rw [add, if_neg (fun held => nonzero (isIdentity_iff.mp held)),
        if_pos (isIdentity_iff.mpr zero'), add_zero]
      exact .finite nonzero abscissa ordinate there
    | @finite x' y' nonzero' abscissa' ordinate' there' =>
      rw [add, if_neg (fun held => nonzero (isIdentity_iff.mp held)),
        if_neg (fun held => nonzero' (isIdentity_iff.mp held))]
      have two : (2 : F) ≠ 0 := NeZero.ne 2
      have width : other.x * square p.z - p.x * square other.z = 0 ↔ x = x' := by
        rw [square_eq, square_eq, ← sq, ← sq, abscissa, abscissa']
        exact scaled_eq_iff 2 nonzero nonzero'
      have height : other.y * square p.z * p.z - p.y * square other.z * other.z = 0 ↔ y = y' := by
        have cubes : y' * other.z ^ 3 * (p.z * p.z) * p.z - y * p.z ^ 3 * (other.z * other.z) *
            other.z = y' * other.z ^ 3 * p.z ^ 3 - y * p.z ^ 3 * other.z ^ 3 := by ring
        rw [square_eq, square_eq, ordinate, ordinate', cubes]
        exact scaled_eq_iff 3 nonzero nonzero'
      dsimp only
      by_cases apart : x = x'
      · subst apart
        rw [if_pos (width.mpr rfl)]
        by_cases same : y = y'
        · subst same
          rw [if_pos (by rw [height.mpr rfl, add_zero])]
          exact doubled
        · have opposite := (ordinates_cases there there').resolve_left same
          rw [if_neg, Point.add_of_Y_eq rfl (by rw [mordell_negY, opposite])]
          · exact identity_stands
          · rw [← two_mul]
            exact mul_ne_zero two (fun zero => same (height.mp zero))
      · rw [if_neg (fun zero => apart (width.mp zero))]
        have distance : x' - x ≠ 0 := sub_ne_zero.mpr (Ne.symm apart)
        obtain ⟨there'', sum⟩ := mordell_add there there' distance
        rw [sum]
        simp only [square_eq, abscissa, ordinate, abscissa', ordinate']
        obtain ⟨d, dEq⟩ : ∃ d : F, x' = x + d := ⟨x' - x, by ring⟩
        subst dEq
        have dNonzero : d ≠ 0 := by simpa using distance
        refine .finite ?_ ?_ ?_ there''
        · have split : ((p.z + other.z) * (p.z + other.z) - p.z * p.z - other.z * other.z) *
              ((x + d) * other.z ^ 2 * (p.z * p.z) - x * p.z ^ 2 * (other.z * other.z)) =
              2 * d * (p.z ^ 3 * other.z ^ 3) := by ring
          rw [split]
          exact mul_ne_zero (mul_ne_zero two dNonzero)
            (mul_ne_zero (pow_ne_zero 3 nonzero) (pow_ne_zero 3 nonzero'))
        · rw [add_sub_cancel_left]
          field_simp
          ring
        · rw [add_sub_cancel_left]
          field_simp
          ring

omit [NeZero (2 : F)] in
/-- The mixed addition is the addition at a `z` of one. -/
theorem addAffine_eq (p : Projective F) {other : Affine F} (finite : other.infinity = false) :
    p.addAffine other = p.add (ofAffine other) := by
  rw [addAffine, if_neg (by simp [finite]), add]
  have shape : ofAffine other = ⟨other.x, other.y, 1⟩ := by
    rw [ofAffine, if_neg (by simp [finite])]
  have away : ¬(⟨other.x, other.y, 1⟩ : Projective F).isIdentity = true := fun held =>
    one_ne_zero (isIdentity_iff.mp held)
  by_cases zero : p.isIdentity = true
  · rw [if_pos zero, if_pos zero]
  · rw [if_neg zero, if_neg zero, shape, if_neg away]
    simp only [square_eq, mul_one]
    by_cases shared : other.x * (p.z * p.z) - p.x = 0
    · rw [if_pos shared, if_pos shared]
    · rw [if_neg shared, if_neg shared]
      congr 1
      · ring
      · ring
      · ring

theorem addAffine_stands {p : Projective F} {other : Affine F} {P Q : (mordell b).Point}
    (left : p.Stands P) (right : other.Stands Q) : (p.addAffine other).Stands (P + Q) := by
  cases right with
  | infinity held =>
    rw [addAffine, if_pos held, add_zero]
    exact left
  | finite held there =>
    rw [addAffine_eq p held]
    exact add_stands left (ofAffine_stands (.finite held there))

theorem entry_stands {p : Projective F} {P : (mordell b).Point} (stands : p.Stands P) :
    ∀ i, (p.entry i).Stands (i • P)
  | 0 => by
      rw [zero_smul]
      exact identity_stands
  | 1 => by
      rw [one_smul]
      exact stands
  | i + 2 => by
      rw [succ_nsmul]
      exact add_stands (entry_stands stands (i + 1)) stands

theorem window_stands {p acc : Projective F} {P Q : (mordell b).Point} (stands : p.Stands P)
    (reached : acc.Stands Q) (nibble : ℕ) :
    (p.window acc nibble).Stands (16 • Q + nibble • P) := by
  have sixteen : 16 • Q = Q + Q + (Q + Q) + (Q + Q + (Q + Q)) +
      (Q + Q + (Q + Q) + (Q + Q + (Q + Q))) := by abel
  rw [sixteen]
  exact add_stands (double_stands (double_stands (double_stands (double_stands reached))))
    (entry_stands stands nibble)

/-- The ladder over a little-endian scalar is the multiple. -/
theorem mulLeBytes_stands {p : Projective F} {P : (mordell b).Point} (stands : p.Stands P)
    (scalar : List UInt8) : (p.mulLeBytes scalar).Stands (leValue scalar • P) := by
  rw [mulLeBytes]
  induction scalar with
  | nil =>
    rw [leValue, zero_smul]
    exact identity_stands
  | cons byte scalar ih =>
    rw [List.reverse_cons, List.foldl_append]
    have high := window_stands stands ih (byte.toNat / 16)
    have low := window_stands stands high (byte.toNat % 16)
    have total : leValue (byte :: scalar) • P =
        16 • (16 • leValue scalar • P + (byte.toNat / 16) • P) + (byte.toNat % 16) • P := by
      have parts := Nat.div_add_mod byte.toNat 16
      rw [smul_add, smul_smul, smul_smul, smul_smul, add_assoc, ← add_smul, parts, ← add_smul,
        leValue]
      congr 1
      ring
    rw [total]
    exact low

omit [NeZero (2 : F)] in
theorem scaled_stands {p : Projective F} {P : (mordell b).Point} (stands : p.Stands P)
    (nonzero : p.z ≠ 0) : (p.scaled p.z⁻¹).Stands P := by
  cases stands with
  | infinity zero => exact absurd zero nonzero
  | @finite x y _ abscissa ordinate there =>
    have first : (p.scaled p.z⁻¹).x = x := by
      rw [scaled, square_eq, abscissa]
      field_simp
    have second : (p.scaled p.z⁻¹).y = y := by
      rw [scaled, square_eq, ordinate]
      field_simp
    have held : (p.scaled p.z⁻¹).infinity = false := rfl
    generalize p.scaled p.z⁻¹ = q at first second held ⊢
    subst first second
    exact .finite held there

omit [DecidableEq F] [Coordinate F] [NeZero (2 : F)] in
theorem z_eq_zero_iff {p : Projective F} {P : (mordell b).Point} (stands : p.Stands P) :
    p.z = 0 ↔ P = 0 := by
  cases stands with
  | infinity zero => exact iff_of_true zero rfl
  | finite nonzero _ _ there => exact iff_of_false nonzero fun same => (by cases same)

omit [NeZero (2 : F)] in
theorem toAffine_stands {p : Projective F} {P : (mordell b).Point} (stands : p.Stands P) :
    p.toAffine.Stands P := by
  rw [toAffine, inverse_eq]
  by_cases zero : p.z = 0
  · rw [if_pos zero, (z_eq_zero_iff stands).mp zero]
    exact .infinity rfl
  · rw [if_neg zero]
    exact scaled_stands stands zero

omit [Coordinate F] [NeZero (2 : F)] in
/-- The field's own operations are the batch's. -/
theorem spellsField [Coordinate F] : SpellsField (id : F → F) (fun u v => some (u * v))
    (fun u => some (inverse u)) 0 1 where
  mul_eq := fun _ _ => rfl
  eq_zero := fun _ => Iff.rfl
  one_eq := rfl
  inverse_eq := by
    intro v nonzero
    rw [id, inverse_eq, if_neg nonzero]
    rfl

omit [NeZero (2 : F)] in
/-- The batch normalizes every entry as it would be by itself. -/
theorem batchToAffine_eq (points : List (Projective F)) :
    batchToAffine points = some (points.map toAffine) := by
  have inverted := spellsField.batchInverse_eq (points.map Projective.z)
  rw [List.map_id] at inverted
  rw [batchToAffine, inverted, Option.bind_eq_bind, Option.bind_some, List.map_map,
    List.zipWith_map_right, List.zipWith_self]
  refine congrArg some (List.map_congr_left fun p _ => ?_)
  simp only [Function.comp_apply, id, toAffine, inverse_eq, inv_eq_zero]
  by_cases zero : p.z = 0
  · rw [if_pos zero, if_pos zero]
  · rw [if_neg zero, if_neg zero]

omit [NeZero (2 : F)] in
theorem eq_iff {p other : Projective F} {P Q : (mordell b).Point} (left : p.Stands P)
    (right : other.Stands Q) : p.eq other = true ↔ P = Q := by
  have leftZero := z_eq_zero_iff left
  have rightZero := z_eq_zero_iff right
  rw [eq]
  by_cases zero : p.z = 0
  · have held : p.isIdentity = true := isIdentity_iff.mpr zero
    by_cases zero' : other.z = 0
    · have held' : other.isIdentity = true := isIdentity_iff.mpr zero'
      rw [held, held', leftZero.mp zero, rightZero.mp zero']
      exact iff_of_true rfl rfl
    · have held' : other.isIdentity = false := decide_eq_false zero'
      rw [held, held', leftZero.mp zero]
      exact iff_of_false (by simp) fun same => zero' (rightZero.mpr same.symm)
  · have held : p.isIdentity = false := decide_eq_false zero
    by_cases zero' : other.z = 0
    · have held' : other.isIdentity = true := isIdentity_iff.mpr zero'
      rw [held, held', rightZero.mp zero']
      exact iff_of_false (by simp) fun same => zero (leftZero.mpr same)
    · have held' : other.isIdentity = false := decide_eq_false zero'
      rw [held, held']
      cases left with
      | infinity none => exact absurd none zero
      | @finite x y _ abscissa ordinate there =>
        cases right with
        | infinity none => exact absurd none zero'
        | @finite x' y' _ abscissa' ordinate' there' =>
          have first : p.x * square other.z = other.x * square p.z ↔ x = x' := by
            rw [square_eq, square_eq, ← sq, ← sq, abscissa, abscissa']
            exact eq_comm.trans (sub_eq_zero.symm.trans (scaled_eq_iff 2 zero zero'))
          have second : p.y * square other.z * other.z = other.y * square p.z * p.z ↔ y = y' := by
            have cubes : y * p.z ^ 3 * (other.z * other.z) * other.z =
                y * p.z ^ 3 * other.z ^ 3 := by ring
            have cubes' : y' * other.z ^ 3 * (p.z * p.z) * p.z =
                y' * other.z ^ 3 * p.z ^ 3 := by ring
            rw [square_eq, square_eq, ordinate, ordinate', cubes, cubes']
            exact eq_comm.trans (sub_eq_zero.symm.trans (scaled_eq_iff 3 zero zero'))
          rw [Bool.and_eq_true, decide_eq_true_iff, decide_eq_true_iff, first, second,
            Point.some.injEq]

omit [NeZero (2 : F)] in
/-- A triple stands for one point. -/
theorem stands_unique {p : Projective F} {P Q : (mordell b).Point} (left : p.Stands P)
    (right : p.Stands Q) : P = Q :=
  (eq_iff left right).mp ((eq_iff left left).mpr rfl)

end Projective

end Group

end Apogee.Curve
