import Apogee.Curve.Jacobian
import Apogee.Field.KernelExact
import Mathlib.NumberTheory.LegendreSymbol.Basic

/-! # The quadratic extension

`Fq2 = Fq[u] / (u² + 1)`, where G2's coordinates live. Minus one is not a square
of the base field, so the norm of a nonzero element is not zero and the extension
is a field.
-/

namespace Apogee

open Math Curve

/-- An element `c0 + c1 * u`. -/
@[ext]
structure Fq2 where
  c0 : Fq
  c1 : Fq
deriving DecidableEq

namespace Fq2

def zero : Fq2 := ⟨0, 0⟩

def one : Fq2 := ⟨1, 0⟩

def add (a b : Fq2) : Fq2 := ⟨a.c0 + b.c0, a.c1 + b.c1⟩

def sub (a b : Fq2) : Fq2 := ⟨a.c0 - b.c0, a.c1 - b.c1⟩

def neg (a : Fq2) : Fq2 := ⟨-a.c0, -a.c1⟩

/-- The schoolbook product, with `u² = -1`. -/
def mul (a b : Fq2) : Fq2 := ⟨a.c0 * b.c0 - a.c1 * b.c1, a.c0 * b.c1 + a.c1 * b.c0⟩

/-- The square, with one multiplication for the difference of squares. -/
def square (a : Fq2) : Fq2 :=
  let cross := a.c0 * a.c1
  ⟨(a.c0 + a.c1) * (a.c0 - a.c1), cross + cross⟩

def norm (a : Fq2) : Fq := a.c0 * a.c0 + a.c1 * a.c1

/-- The inverse of a base field element; zero has none. -/
def baseInverse (x : Fq) : Option Fq := if x = 0 then none else some x⁻¹

/-- The inverse, the conjugate over the norm; zero has none. -/
def inverse (a : Fq2) : Option Fq2 := do
  let normInv ← baseInverse a.norm
  some ⟨a.c0 * normInv, -(a.c1 * normInv)⟩

instance : Zero Fq2 := ⟨zero⟩
instance : One Fq2 := ⟨one⟩
instance : Add Fq2 := ⟨add⟩
instance : Sub Fq2 := ⟨sub⟩
instance : Neg Fq2 := ⟨neg⟩
instance : Mul Fq2 := ⟨mul⟩

@[simp] theorem zero_c0 : (0 : Fq2).c0 = 0 := rfl
@[simp] theorem zero_c1 : (0 : Fq2).c1 = 0 := rfl
@[simp] theorem one_c0 : (1 : Fq2).c0 = 1 := rfl
@[simp] theorem one_c1 : (1 : Fq2).c1 = 0 := rfl
@[simp] theorem add_c0 (a b : Fq2) : (a + b).c0 = a.c0 + b.c0 := rfl
@[simp] theorem add_c1 (a b : Fq2) : (a + b).c1 = a.c1 + b.c1 := rfl
@[simp] theorem sub_c0 (a b : Fq2) : (a - b).c0 = a.c0 - b.c0 := rfl
@[simp] theorem sub_c1 (a b : Fq2) : (a - b).c1 = a.c1 - b.c1 := rfl
@[simp] theorem neg_c0 (a : Fq2) : (-a).c0 = -a.c0 := rfl
@[simp] theorem neg_c1 (a : Fq2) : (-a).c1 = -a.c1 := rfl
@[simp] theorem mul_c0 (a b : Fq2) : (a * b).c0 = a.c0 * b.c0 - a.c1 * b.c1 := rfl
@[simp] theorem mul_c1 (a b : Fq2) : (a * b).c1 = a.c0 * b.c1 + a.c1 * b.c0 := rfl

instance : CommRing Fq2 where
  add_assoc a b c := by ext <;> simp [add_assoc]
  zero_add a := by ext <;> simp
  add_zero a := by ext <;> simp
  add_comm a b := by ext <;> simp [add_comm]
  neg_add_cancel a := by ext <;> simp
  sub_eq_add_neg a b := by ext <;> simp [sub_eq_add_neg]
  mul_assoc a b c := by
    ext
    · simp only [mul_c0, mul_c1]
      ring
    · simp only [mul_c0, mul_c1]
      ring
  one_mul a := by ext <;> simp
  mul_one a := by ext <;> simp
  mul_comm a b := by
    ext
    · simp only [mul_c0]
      ring
    · simp only [mul_c1]
      ring
  zero_mul a := by ext <;> simp
  mul_zero a := by ext <;> simp
  left_distrib a b c := by
    ext
    · simp only [mul_c0, add_c0, add_c1]
      ring
    · simp only [mul_c1, add_c0, add_c1]
      ring
  right_distrib a b c := by
    ext
    · simp only [mul_c0, add_c0, add_c1]
      ring
    · simp only [mul_c1, add_c0, add_c1]
      ring
  nsmul := nsmulRec
  zsmul := zsmulRec

/-- Minus one is no square, so only zero has norm zero. -/
theorem norm_eq_zero {a : Fq2} : a.norm = 0 ↔ a = 0 := by
  constructor
  · intro zero
    have opposite : a.c0 ^ 2 = -a.c1 ^ 2 := by
      rw [norm] at zero
      linear_combination zero
    have second : a.c1 = 0 := by
      by_contra nonzero
      exact ZMod.mod_four_ne_three_of_sq_eq_neg_sq' nonzero opposite (by norm_num [fqModulus])
    have first : a.c0 = 0 := by
      rw [second] at opposite
      exact pow_eq_zero_iff (two_ne_zero) |>.mp (by rw [opposite]; ring)
    exact Fq2.ext first second
  · intro zero
    rw [zero, norm, zero_c0, zero_c1]
    ring

instance : Field Fq2 where
  inv a := ⟨a.c0 * a.norm⁻¹, -(a.c1 * a.norm⁻¹)⟩
  exists_pair_ne := ⟨0, 1, fun same => zero_ne_one (congrArg c0 same)⟩
  mul_inv_cancel a nonzero := by
    have unit : a.norm ≠ 0 := fun zero => nonzero (norm_eq_zero.mp zero)
    ext
    · rw [mul_c0, one_c0]
      calc a.c0 * (a.c0 * a.norm⁻¹) - a.c1 * -(a.c1 * a.norm⁻¹)
          = (a.c0 * a.c0 + a.c1 * a.c1) * a.norm⁻¹ := by ring
        _ = 1 := mul_inv_cancel₀ unit
    · rw [mul_c1, one_c1]
      ring
  inv_zero := by
    ext
    · exact zero_mul _
    · show -(0 * _) = (0 : Fq)
      rw [zero_mul, neg_zero]
  nnqsmul := _
  qsmul := _

theorem square_eq (a : Fq2) : a.square = a * a := by
  ext
  · rw [mul_c0, square]
    ring
  · rw [mul_c1, square]
    ring

theorem inverse_eq (a : Fq2) : a.inverse = if a = 0 then none else some a⁻¹ := by
  rw [inverse, baseInverse]
  by_cases zero : a = 0
  · rw [if_pos zero, if_pos (norm_eq_zero.mpr zero)]
    rfl
  · rw [if_neg zero, if_neg (fun none => zero (norm_eq_zero.mp none))]
    rfl

end Fq2

/-- Multiplication and inversion of the base field, as its kernel does them. -/
instance : Coordinate Fq where
  square x := x * x
  inverse x := Fq2.baseInverse x
  square_eq _ := rfl
  inverse_eq _ := rfl

instance : Coordinate Fq2 where
  square := Fq2.square
  inverse := Fq2.inverse
  square_eq := Fq2.square_eq
  inverse_eq := Fq2.inverse_eq

/-- A small number is not zero in the base field. -/
theorem fq_natCast_ne_zero {n : ℕ} (positive : 0 < n) (small : n < fqModulus) : (n : Fq) ≠ 0 := by
  intro zero
  exact absurd (Nat.le_of_dvd positive ((ZMod.natCast_eq_zero_iff n fqModulus).mp zero)) (by omega)

instance : NeZero (2 : Fq) :=
  ⟨by exact_mod_cast fq_natCast_ne_zero (n := 2) (by norm_num) (by norm_num [fqModulus])⟩

instance : NeZero (3 : Fq) :=
  ⟨by exact_mod_cast fq_natCast_ne_zero (n := 3) (by norm_num) (by norm_num [fqModulus])⟩

theorem Fq2.natCast_c0 (n : ℕ) : (n : Fq2).c0 = n := by
  induction n with
  | zero => simp
  | succ n ih => rw [Nat.cast_succ, Nat.cast_succ, add_c0, ih, one_c0]

theorem Fq2.natCast_c1 (n : ℕ) : (n : Fq2).c1 = 0 := by
  induction n with
  | zero => simp
  | succ n ih => rw [Nat.cast_succ, add_c1, ih, one_c1, add_zero]

instance : NeZero (2 : Fq2) := ⟨fun zero => NeZero.ne (2 : Fq) (by
  have first := Fq2.natCast_c0 2
  rw [Nat.cast_ofNat, zero] at first
  exact_mod_cast first.symm)⟩

instance : NeZero (3 : Fq2) := ⟨fun zero => NeZero.ne (3 : Fq) (by
  have first := Fq2.natCast_c0 3
  rw [Nat.cast_ofNat, zero] at first
  exact_mod_cast first.symm)⟩

end Apogee
