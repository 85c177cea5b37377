import Mathlib.Algebra.Field.ZMod
import Mathlib.AlgebraicGeometry.EllipticCurve.Affine.Point
import Mathlib.Data.ZMod.ValMinAbs

/-! # Multiples of a curve point

On the curves `y² = x³ + b` modulo a prime, a ladder of doublings and additions in
Jacobian coordinates evaluates a multiple of a point on natural numbers, without a
division.
-/

namespace Apogee.Math

open WeierstrassCurve.Affine

/-- The curve `y² = x³ + b`. -/
def mordell {F : Type*} [CommRing F] (b : F) : WeierstrassCurve.Affine F := ⟨0, 0, 0, 0, b⟩

/-- The point at coordinates on the curve. -/
abbrev mordellPoint {F : Type*} [CommRing F] {b x y : F} (there : (mordell b).Nonsingular x y) :
    (mordell b).Point := .some x y there

section Field

variable {F : Type*} [Field F] {b x y : F}

theorem mordell_equation : (mordell b).Equation x y ↔ y ^ 2 = x ^ 3 + b := by
  rw [equation_iff]
  simp [mordell]

theorem mordell_negY : (mordell b).negY x y = -y := by
  simp [WeierstrassCurve.Affine.negY, mordell]

variable [DecidableEq F]

/-- The tangent's third point. -/
theorem mordell_double (nonsingular : (mordell b).Nonsingular x y) (finite : 2 * y ≠ 0) :
    ∃ there, mordellPoint nonsingular + mordellPoint nonsingular =
      (.some ((3 * x ^ 2 / (2 * y)) ^ 2 - 2 * x)
        (3 * x ^ 2 / (2 * y) * (x - ((3 * x ^ 2 / (2 * y)) ^ 2 - 2 * x)) - y) there :
        (mordell b).Point) := by
  have other : y ≠ (mordell b).negY x y := by
    rw [mordell_negY]
    intro same
    exact finite (by linear_combination same)
  have slope : (mordell b).slope x x y y = 3 * x ^ 2 / (2 * y) := by
    rw [slope_of_Y_ne rfl other, mordell_negY]
    simp only [mordell]
    ring_nf
  have abscissa : (mordell b).addX x x ((mordell b).slope x x y y) =
      (3 * x ^ 2 / (2 * y)) ^ 2 - 2 * x := by
    rw [slope, addX]
    simp only [mordell]
    ring
  have ordinate : (mordell b).addY x x y ((mordell b).slope x x y y) =
      3 * x ^ 2 / (2 * y) * (x - ((3 * x ^ 2 / (2 * y)) ^ 2 - 2 * x)) - y := by
    rw [addY, negAddY, abscissa, slope, mordell_negY]
    ring
  rw [← ordinate, ← abscissa]
  exact ⟨_, Point.add_self_of_Y_ne other⟩

/-- The chord's third point. -/
theorem mordell_add {x' y' : F} (nonsingular : (mordell b).Nonsingular x y)
    (nonsingular' : (mordell b).Nonsingular x' y') (apart : x' - x ≠ 0) :
    ∃ there, mordellPoint nonsingular + mordellPoint nonsingular' =
      (.some (((y' - y) / (x' - x)) ^ 2 - x - x')
        ((y' - y) / (x' - x) * (x - (((y' - y) / (x' - x)) ^ 2 - x - x')) - y) there :
        (mordell b).Point) := by
  have other : x ≠ x' := fun same => apart (by rw [same, sub_self])
  have slope : (mordell b).slope x x' y y' = (y' - y) / (x' - x) := by
    rw [slope_of_X_ne other, ← neg_sub x' x, ← neg_sub y' y, neg_div_neg_eq]
  have abscissa : (mordell b).addX x x' ((mordell b).slope x x' y y') =
      ((y' - y) / (x' - x)) ^ 2 - x - x' := by
    rw [slope, addX]
    simp only [mordell]
    ring
  have ordinate : (mordell b).addY x x' y ((mordell b).slope x x' y y') =
      (y' - y) / (x' - x) * (x - (((y' - y) / (x' - x)) ^ 2 - x - x')) - y := by
    rw [addY, negAddY, abscissa, slope, mordell_negY]
    ring
  rw [← ordinate, ← abscissa]
  exact ⟨_, Point.add_of_X_ne other⟩

end Field

/-! ## The ladder -/

/-- `a - b` modulo `p`. -/
def minusMod (p a b : ℕ) : ℕ := (a + (p - 1) * b) % p

/-- Jacobian coordinates: the point `(x / z², y / z³)`. -/
structure Jacobian where
  x : ℕ
  y : ℕ
  z : ℕ

def Jacobian.double (p : ℕ) : Jacobian → Jacobian
  | ⟨x, y, z⟩ =>
    let yy := y * y % p
    let s := 4 * x * yy % p
    let m := 3 * x * x % p
    let x' := minusMod p (m * m) (2 * s)
    ⟨x', minusMod p (m * minusMod p s x') (8 * yy * yy), 2 * y * z % p⟩

/-- The sum with the affine point `(gx, gy)`. -/
def Jacobian.add (p gx gy : ℕ) : Jacobian → Jacobian
  | ⟨x, y, z⟩ =>
    let zz := z * z % p
    let h := minusMod p (gx * zz) x
    let r := minusMod p (gy * z * zz) y
    let hh := h * h % p
    let v := x * hh % p
    let hhh := h * hh % p
    let x' := minusMod p (r * r) (hhh + 2 * v)
    ⟨x', minusMod p (r * minusMod p v x') (y * hhh), z * h % p⟩

/-- The multiple `k` of `(gx, gy)`, for `k` of at most `fuel` bits after the first. -/
def ladder (p gx gy : ℕ) : (fuel : ℕ) → (k : ℕ) → Jacobian
  | 0, _ => ⟨gx, gy, 1⟩
  | fuel + 1, k =>
    if k ≤ 1 then ⟨gx, gy, 1⟩
    else
      let twice := (ladder p gx gy fuel (k / 2)).double p
      if k % 2 = 1 then twice.add p gx gy else twice

variable {p : ℕ} [prime : Fact p.Prime] {b : ZMod p}

theorem cast_minusMod (m n : ℕ) : (minusMod p m n : ZMod p) = m - n := by
  have one : ((p - 1 : ℕ) : ZMod p) = -1 := by
    rw [Nat.cast_sub prime.out.one_le, ZMod.natCast_self, Nat.cast_one, zero_sub]
  rw [minusMod, ZMod.natCast_mod, Nat.cast_add, Nat.cast_mul, one]
  ring

/-- The point that Jacobian coordinates stand for. -/
def Jacobian.At (t : Jacobian) (point : (mordell b).Point) : Prop :=
  (t.z : ZMod p) ≠ 0 ∧ ∃ there, point = .some ((t.x : ZMod p) / (t.z : ZMod p) ^ 2)
    ((t.y : ZMod p) / (t.z : ZMod p) ^ 3) there

omit prime in
theorem some_eq {x y x' y' : ZMod p} (nonsingular : (mordell b).Nonsingular x y) (abscissa : x = x')
    (ordinate : y = y') :
    ∃ there, mordellPoint nonsingular = (.some x' y' there : (mordell b).Point) := by
  subst abscissa ordinate
  exact ⟨nonsingular, rfl⟩

theorem Jacobian.double_at {t : Jacobian} {point : (mordell b).Point} (here : t.At point)
    (finite : ((t.double p).z : ZMod p) ≠ 0) : (t.double p).At (point + point) := by
  obtain ⟨x, y, z⟩ := t
  obtain ⟨nonzero, there, rfl⟩ := here
  have last : ((double p ⟨x, y, z⟩).z : ZMod p) = 2 * y * z := by
    simp only [double, ZMod.natCast_mod, Nat.cast_mul, Nat.cast_ofNat]
  have middle : ((double p ⟨x, y, z⟩).x : ZMod p) = (3 * x * x) ^ 2 - 2 * (4 * x * (y * y)) := by
    simp only [double, cast_minusMod, ZMod.natCast_mod, Nat.cast_mul, Nat.cast_ofNat]
    ring
  have ordinate : ((double p ⟨x, y, z⟩).y : ZMod p) =
      3 * x * x * (4 * x * (y * y) - ((3 * x * x) ^ 2 - 2 * (4 * x * (y * y)))) -
        8 * (y * y) * (y * y) := by
    simp only [double, cast_minusMod, ZMod.natCast_mod, Nat.cast_mul, Nat.cast_ofNat]
    ring
  refine ⟨finite, ?_⟩
  rw [last] at finite
  have twice : (2 * y : ZMod p) ≠ 0 := left_ne_zero_of_mul finite
  obtain ⟨there, sum⟩ := mordell_double there (by
    rw [mul_div_assoc']
    exact div_ne_zero twice (pow_ne_zero 3 nonzero))
  have two : (2 : ZMod p) ≠ 0 := left_ne_zero_of_mul twice
  have y0 : (y : ZMod p) ≠ 0 := right_ne_zero_of_mul twice
  rw [sum, last, middle, ordinate]
  refine some_eq there ?_ ?_
  · field_simp
    ring
  · field_simp
    ring

theorem Jacobian.add_at {gx gy : ℕ} {t : Jacobian} {point : (mordell b).Point} (here : t.At point)
    (base : (mordell b).Nonsingular (gx : ZMod p) (gy : ZMod p))
    (finite : ((t.add p gx gy).z : ZMod p) ≠ 0) :
      (t.add p gx gy).At (point + mordellPoint base) := by
  obtain ⟨x, y, z⟩ := t
  obtain ⟨nonzero, there, rfl⟩ := here
  have last : ((add p gx gy ⟨x, y, z⟩).z : ZMod p) = z * (gx * (z * z) - x) := by
    simp only [add, cast_minusMod, ZMod.natCast_mod, Nat.cast_mul]
  have middle : ((add p gx gy ⟨x, y, z⟩).x : ZMod p) = (gy * z * (z * z) - y) ^ 2 -
      ((gx * (z * z) - x) ^ 3 + 2 * (x * (gx * (z * z) - x) ^ 2)) := by
    simp only [add, cast_minusMod, ZMod.natCast_mod, Nat.cast_mul, Nat.cast_add, Nat.cast_ofNat]
    ring
  have ordinate : ((add p gx gy ⟨x, y, z⟩).y : ZMod p) =
      (gy * z * (z * z) - y) * (x * (gx * (z * z) - x) ^ 2 - ((gy * z * (z * z) - y) ^ 2 -
        ((gx * (z * z) - x) ^ 3 + 2 * (x * (gx * (z * z) - x) ^ 2)))) -
        y * (gx * (z * z) - x) ^ 3 := by
    simp only [add, cast_minusMod, ZMod.natCast_mod, Nat.cast_mul, Nat.cast_add, Nat.cast_ofNat]
    ring
  refine ⟨finite, ?_⟩
  rw [last] at finite
  have apart : (gx * (z * z) - x : ZMod p) ≠ 0 := right_ne_zero_of_mul finite
  have difference : (gx - x / z ^ 2 : ZMod p) = (gx * (z * z) - x) / z ^ 2 := by
    field_simp
  obtain ⟨there, sum⟩ := mordell_add there base (by
    rw [difference]
    exact div_ne_zero apart (pow_ne_zero 2 nonzero))
  rw [sum, last, middle, ordinate]
  -- the chord's width, as a variable of its own
  obtain ⟨h, width⟩ : ∃ h : ZMod p, gx * (z * z) - x = h := ⟨_, rfl⟩
  have abscissa : (gx : ZMod p) = (h + x) / z ^ 2 := by
    rw [← width]
    field_simp
    ring
  rw [width] at apart difference
  refine some_eq there ?_ ?_
  · rw [difference, width, abscissa]
    field_simp
    ring
  · rw [difference, width, abscissa]
    field_simp
    ring

variable {gx gy : ℕ}

theorem Jacobian.z_of_double {t : Jacobian} (finite : ((t.double p).z : ZMod p) ≠ 0) :
    (t.z : ZMod p) ≠ 0 := by
  intro zero
  refine finite ?_
  obtain ⟨x, y, z⟩ := t
  dsimp only at zero
  simp only [double, ZMod.natCast_mod, Nat.cast_mul, zero, mul_zero]

theorem Jacobian.z_of_add {t : Jacobian} (finite : ((t.add p gx gy).z : ZMod p) ≠ 0) :
    (t.z : ZMod p) ≠ 0 := by
  intro zero
  refine finite ?_
  obtain ⟨x, y, z⟩ := t
  dsimp only at zero
  simp only [add, ZMod.natCast_mod, Nat.cast_mul, zero, zero_mul]

theorem affine_at (base : (mordell b).Nonsingular (gx : ZMod p) (gy : ZMod p)) :
    Jacobian.At ⟨gx, gy, 1⟩ (mordellPoint base) := by
  refine ⟨by rw [Nat.cast_one]; exact one_ne_zero, some_eq base ?_ ?_⟩
  · rw [Nat.cast_one, one_pow, div_one]
  · rw [Nat.cast_one, one_pow, div_one]

/-- A ladder that ends away from infinity has never been there, and is the multiple. -/
theorem ladder_at (base : (mordell b).Nonsingular (gx : ZMod p) (gy : ZMod p)) (fuel : ℕ) :
    ∀ k, 1 ≤ k → k < 2 ^ (fuel + 1) → ((ladder p gx gy fuel k).z : ZMod p) ≠ 0 →
      (ladder p gx gy fuel k).At (k • mordellPoint base) := by
  induction fuel with
  | zero =>
    intro k positive covered _
    obtain rfl : k = 1 := by omega
    rw [one_smul]
    exact affine_at base
  | succ fuel ih =>
    intro k positive covered finite
    rw [ladder] at finite ⊢
    by_cases one : k ≤ 1
    · obtain rfl : k = 1 := by omega
      rw [if_pos one, one_smul]
      exact affine_at base
    rw [if_neg one] at finite ⊢
    have half := ih (k / 2) (by omega) (by rw [pow_succ] at covered; omega)
    dsimp only at finite ⊢
    by_cases odd : k % 2 = 1
    · rw [if_pos odd] at finite ⊢
      have twice := Jacobian.z_of_add finite
      have point : k • mordellPoint base = (k / 2) • mordellPoint base +
          (k / 2) • mordellPoint base + mordellPoint base := by
        rw [← add_smul, ← succ_nsmul]
        exact congrArg (· • _) (by omega)
      rw [point]
      exact Jacobian.add_at (Jacobian.double_at (half (Jacobian.z_of_double twice)) twice) base finite
    · rw [if_neg odd] at finite ⊢
      have point : k • mordellPoint base = (k / 2) • mordellPoint base +
          (k / 2) • mordellPoint base := by
        rw [← add_smul]
        exact congrArg (· • _) (by omega)
      rw [point]
      exact Jacobian.double_at (half (Jacobian.z_of_double finite)) finite

/-- The multiple one short of `n` is the point's negative. -/
def orderTest (p gx gy fuel n : ℕ) : Bool :=
  let t := ladder p gx gy fuel (n - 1)
  decide (1 < n) && decide (n ≤ 2 ^ (fuel + 1)) && decide (t.z % p ≠ 0) &&
    decide (t.x % p = gx * (t.z * t.z) % p) && decide ((t.y + gy * (t.z * (t.z * t.z))) % p = 0)

theorem nsmul_of_orderTest (base : (mordell b).Nonsingular (gx : ZMod p) (gy : ZMod p)) (fuel : ℕ)
    {n : ℕ} (test : orderTest p gx gy fuel n = true) : n • mordellPoint base = 0 := by
  simp only [orderTest, Bool.and_eq_true, decide_eq_true_eq] at test
  obtain ⟨⟨⟨⟨large, covered⟩, finite⟩, abscissa⟩, ordinate⟩ := test
  have zero (m : ℕ) : (m : ZMod p) = 0 ↔ m % p = 0 := by
    rw [ZMod.natCast_eq_zero_iff, Nat.dvd_iff_mod_eq_zero]
  obtain ⟨nonzero, there, point⟩ :=
    ladder_at base fuel (n - 1) (by omega) (by omega) fun infinite => finite ((zero _).mp infinite)
  generalize ladder p gx gy fuel (n - 1) = t at *
  have abscissa := (ZMod.natCast_eq_natCast_iff' _ _ _).mpr abscissa
  have ordinate := (zero _).mpr ordinate
  push_cast at abscissa ordinate
  have split : n • mordellPoint base = (n - 1) • mordellPoint base + mordellPoint base := by
    rw [← succ_nsmul]
    exact congrArg (· • _) (by omega)
  rw [split, point]
  refine Point.add_of_Y_eq ?_ ?_
  · rw [abscissa]
    field_simp
  · rw [mordell_negY, eq_neg_of_add_eq_zero_left ordinate]
    field_simp

end Apogee.Math

/-! ## The order of a curve's group

A point on `y² = x³ + b` is known by its abscissa and the parity of its ordinate, so the
group is small next to a point of large prime order.
-/

namespace Apogee.Math

open WeierstrassCurve.Affine

/-- A prime that kills a point kills a group that is less than three times as large and has
no point of order two. -/
theorem nsmul_eq_zero_of_card {A : Type*} [AddCommGroup A] [Finite A] {n : ℕ} (prime : n.Prime)
    {g : A} (nonzero : g ≠ 0) (killed : n • g = 0) (few : Nat.card A < 3 * n)
    (halves : ∀ a : A, 2 • a = 0 → a = 0) (a : A) : n • a = 0 := by
  have order : addOrderOf g = n := by
    have := Fact.mk prime
    exact addOrderOf_eq_prime killed nonzero
  obtain ⟨c, card⟩ : n ∣ Nat.card A := order ▸ addOrderOf_dvd_natCard g
  have positive : 0 < Nat.card A := Nat.card_pos
  have odd : ¬2 ∣ Nat.card A := by
    intro even
    have := Fintype.ofFinite A
    obtain ⟨a, two⟩ := exists_prime_addOrderOf_dvd_card' 2 even
    have zero := halves a (two ▸ addOrderOf_nsmul_eq_zero a)
    rw [zero, addOrderOf_zero] at two
    exact absurd two (by decide)
  have once : c = 1 := by
    rw [card, mul_comm 3 n] at few
    have small := Nat.lt_of_mul_lt_mul_left few
    interval_cases c
    · omega
    · rfl
    · exact absurd (card ▸ Nat.dvd_mul_left 2 n) odd
  rw [once, mul_one] at card
  rw [← card]
  exact card_nsmul_eq_zero'

variable {p : ℕ} [prime : Fact p.Prime] {b : ZMod p}

/-- The parity of a residue. -/
def isOdd (y : ZMod p) : Bool := y.val % 2 == 1

theorem isOdd_neg (odd : p % 2 = 1) {y : ZMod p} (nonzero : y ≠ 0) : isOdd (-y) = !isOdd y := by
  have := prime.out.pos
  have : NeZero y := ⟨nonzero⟩
  have bound := y.val_lt
  have positive := Nat.pos_of_ne_zero ((ZMod.val_ne_zero y).mpr nonzero)
  unfold isOdd
  rw [ZMod.val_neg_of_ne_zero]
  rcases Nat.mod_two_eq_zero_or_one y.val with even | odd'
  · rw [even, show (p - y.val) % 2 = 1 by omega]
    rfl
  · rw [odd', show (p - y.val) % 2 = 0 by omega]
    rfl

/-- Of the ordinates at an abscissa, each parity has one. -/
theorem ordinate_unique (odd : p % 2 = 1) {y y' : ZMod p} (same : y ^ 2 = y' ^ 2)
    (parity : isOdd y = isOdd y') : y = y' := by
  rcases sq_eq_sq_iff_eq_or_eq_neg.mp same with equal | opposite
  · exact equal
  by_cases zero : y' = 0
  · rw [opposite, zero, neg_zero]
  · rw [opposite, isOdd_neg odd zero] at parity
    cases held : isOdd y' with
    | false => simp [held] at parity
    | true => simp [held] at parity

/-- What is kept of a point. -/
def abscissaParity : (mordell b).Point → Option (ZMod p × Bool)
  | .zero => none
  | .some x y _ => some (x, isOdd y)

theorem abscissaParity_injective (odd : p % 2 = 1) :
    Function.Injective (abscissaParity : (mordell b).Point → _) := by
  intro P Q same
  cases P with
  | zero =>
    cases Q with
    | zero => rfl
    | some x y there => cases same
  | some x y there =>
    cases Q with
    | zero => cases same
    | some x' y' there' =>
      obtain ⟨rfl, parity⟩ := Prod.mk.inj (Option.some.inj same)
      have squares : y ^ 2 = y' ^ 2 := by
        rw [mordell_equation.mp there.1, mordell_equation.mp there'.1]
      obtain rfl := ordinate_unique odd squares parity
      rfl

theorem finite_points (odd : p % 2 = 1) : Finite (mordell b).Point :=
  Finite.of_injective abscissaParity (abscissaParity_injective odd)

theorem card_points_le (odd : p % 2 = 1) : Nat.card (mordell b).Point ≤ 2 * p + 1 := by
  have fewer := Nat.card_le_card_of_injective abscissaParity (abscissaParity_injective (b := b) odd)
  have all : Nat.card (Option (ZMod p × Bool)) = 2 * p + 1 := by
    rw [Nat.card_eq_fintype_card, Fintype.card_option, Fintype.card_prod, ZMod.card,
      Fintype.card_bool, mul_comm]
  exact all ▸ fewer

/-- A point of order two would be a cube root. -/
theorem eq_zero_of_two_nsmul (odd : p % 2 = 1) (cubes : ∀ x : ZMod p, x ^ 3 ≠ -b)
    (P : (mordell b).Point) (twice : 2 • P = 0) : P = 0 := by
  cases P with
  | zero => rfl
  | some x y there =>
    rw [two_nsmul] at twice
    have opposite := add_eq_zero_iff_eq_neg.mp twice
    rw [Point.neg_some, Point.some.injEq, mordell_negY] at opposite
    have two : (2 : ZMod p) ≠ 0 := by
      intro zero
      have divides := (ZMod.natCast_eq_zero_iff 2 p).mp (by exact_mod_cast zero)
      have := (Nat.prime_dvd_prime_iff_eq prime.out Nat.prime_two).mp divides
      omega
    have zero : y = 0 := by
      have double : 2 * y = 0 := by linear_combination opposite.2
      exact (mul_eq_zero.mp double).resolve_left two
    have equation := mordell_equation.mp there.1
    rw [zero] at equation
    exact absurd (by linear_combination -equation) (cubes x)

/-- A point of prime order `n` gives the whole group the order `n`, when that is more than a
third of what the field allows. -/
theorem nsmul_eq_zero_of_point (odd : p % 2 = 1) (cubes : ∀ x : ZMod p, x ^ 3 ≠ -b) {n : ℕ}
    (order : n.Prime) (wide : 2 * p + 1 < 3 * n) {G : (mordell b).Point} (finite : G ≠ 0)
    (killed : n • G = 0) (P : (mordell b).Point) : n • P = 0 := by
  have := finite_points (b := b) odd
  exact nsmul_eq_zero_of_card order finite killed ((card_points_le odd).trans_lt wide)
    (eq_zero_of_two_nsmul odd cubes) P

end Apogee.Math
