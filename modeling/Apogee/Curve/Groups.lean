import Apogee.Curve.Fq2

/-! # G1 and G2

The two groups over their fields: the curves' constants, the points' bytes, and
the check that a point is killed by the group order. G1 has that order, so only
G2's check excludes a point.
-/

namespace Apogee.Curve

open Math WeierstrassCurve.Affine

/-- A coordinate's bytes, of a fixed width. -/
class CoordinateBytes (F : Type*) [Field F] where
  width : ℕ
  toBytes : F → List UInt8
  fromBytes : List UInt8 → Option F
  length_toBytes : ∀ x, (toBytes x).length = width
  toBytes_zero : toBytes 0 = List.replicate width 0
  fromBytes_eq_some : ∀ bytes x, bytes.length = width →
    (fromBytes bytes = some x ↔ bytes = toBytes x)

section Bytes

variable {F : Type*} [Field F] [DecidableEq F] [Coordinate F] [CoordinateBytes F] {b : F}

open CoordinateBytes in
/-- Both coordinates, or zeros for infinity. -/
def Affine.toBytes (p : Affine F) : List UInt8 :=
  if p.infinity then List.replicate (2 * width F) 0
  else CoordinateBytes.toBytes p.x ++ CoordinateBytes.toBytes p.y

open CoordinateBytes in
/-- A point out of its bytes, with every check; none for what fails one. -/
def Affine.fromBytes (b : F) (isInSubgroup : Affine F → Bool) (bytes : List UInt8) :
    Option (Affine F) :=
  if bytes = List.replicate (2 * width F) 0 then some .identity
  else do
    let x ← CoordinateBytes.fromBytes (bytes.take (width F))
    let y ← CoordinateBytes.fromBytes (bytes.drop (width F))
    let point : Affine F := ⟨x, y, false⟩
    if !point.isOnCurve b || !isInSubgroup point then none else some point

omit [Coordinate F] [CoordinateBytes F] in
/-- A point on the curve is nonsingular, as the constant is not zero. -/
theorem nonsingular_of_equation [NeZero (2 : F)] [NeZero (3 : F)] (nonzero : b ≠ 0) {x y : F}
    (equation : y ^ 2 = x ^ 3 + b) : (mordell b).Nonsingular x y := by
  rw [nonsingular_iff]
  constructor
  · exact mordell_equation.mpr equation
  · by_cases flat : y = 0
    · left
      intro same
      have zero : 3 * x ^ 2 = 0 := by
        simp only [mordell] at same
        linear_combination -same
      have root := pow_eq_zero_iff two_ne_zero |>.mp
        ((mul_eq_zero.mp zero).resolve_left (NeZero.ne 3))
      rw [flat, root] at equation
      exact nonzero (by linear_combination -equation)
    · right
      intro same
      have zero : 2 * y = 0 := by
        simp only [mordell] at same
        linear_combination same
      exact flat ((mul_eq_zero.mp zero).resolve_left (NeZero.ne 2))

omit [CoordinateBytes F] in
theorem Affine.isOnCurve_iff {p : Affine F} (finite : p.infinity = false) :
    p.isOnCurve b = true ↔ p.y ^ 2 = p.x ^ 3 + b := by
  rw [isOnCurve, finite, Bool.false_or, decide_eq_true_iff, square_eq, square_eq, ← sq,
    show p.x * p.x * p.x = p.x ^ 3 by ring]

omit [CoordinateBytes F] in
/-- The points on the curve are those that stand for one. -/
theorem Affine.exists_stands_iff [NeZero (2 : F)] [NeZero (3 : F)] (nonzero : b ≠ 0)
    (p : Affine F) : (∃ P : (mordell b).Point, p.Stands P) ↔ p.isOnCurve b = true := by
  constructor
  · rintro ⟨P, stands⟩
    cases stands with
    | infinity held => rw [isOnCurve, held, Bool.true_or]
    | finite held there => exact (isOnCurve_iff held).mpr (mordell_equation.mp there.1)
  · intro onCurve
    cases held : p.infinity with
    | true => exact ⟨0, .infinity held⟩
    | false =>
      exact ⟨_, .finite held (nonsingular_of_equation nonzero ((isOnCurve_iff held).mp onCurve))⟩

open CoordinateBytes in
omit [DecidableEq F] [Coordinate F] in
/-- The bytes of a finite point are not infinity's. -/
theorem toBytes_append_ne_zero (nonzero : b ≠ 0) {x y : F} (equation : y ^ 2 = x ^ 3 + b) :
    CoordinateBytes.toBytes x ++ CoordinateBytes.toBytes y ≠ List.replicate (2 * width F) 0 := by
  intro same
  rw [two_mul, ← List.replicate_append_replicate, ← toBytes_zero] at same
  obtain ⟨first, second⟩ := List.append_inj same (by rw [length_toBytes, length_toBytes])
  have inject {u v : F} (equal : toBytes u = toBytes v) : u = v := by
    have left := (fromBytes_eq_some (toBytes u) u (length_toBytes u)).mpr rfl
    have right := (fromBytes_eq_some (toBytes u) v (length_toBytes u)).mpr equal
    exact Option.some.inj (left.symm.trans right)
  rw [inject first, inject second] at equation
  exact nonzero (by linear_combination -equation)

open CoordinateBytes in
/-- A point is read out of exactly its own bytes, and only in the subgroup. -/
theorem Affine.fromBytes_eq_some [NeZero (2 : F)] [NeZero (3 : F)] (nonzero : b ≠ 0)
    {isInSubgroup : Affine F → Bool} {bytes : List UInt8} (length : bytes.length = 2 * width F)
    {p : Affine F} :
    Affine.fromBytes b isInSubgroup bytes = some p ↔
      bytes = p.toBytes ∧ (p.infinity = true → p = .identity) ∧
        (p.infinity = false → p.isOnCurve b = true ∧ isInSubgroup p = true) := by
  rw [Affine.fromBytes]
  by_cases zeros : bytes = List.replicate (2 * width F) 0
  · rw [if_pos zeros, Option.some_inj]
    constructor
    · rintro rfl
      exact ⟨zeros, fun _ => rfl, fun held => (by cases held)⟩
    · rintro ⟨same, atInfinity, finite⟩
      cases held : p.infinity with
      | true => exact (atInfinity held).symm
      | false =>
        have equation := (isOnCurve_iff held).mp (finite held).1
        rw [toBytes, if_neg (by simp [held]), zeros] at same
        exact absurd same.symm (toBytes_append_ne_zero nonzero equation)
  · rw [if_neg zeros]
    have front : (bytes.take (width F)).length = width F := by
      rw [List.length_take, length]
      omega
    have back : (bytes.drop (width F)).length = width F := by
      rw [List.length_drop, length]
      omega
    constructor
    · intro read
      obtain ⟨x, readX, read⟩ := Option.bind_eq_some_iff.mp read
      obtain ⟨y, readY, read⟩ := Option.bind_eq_some_iff.mp read
      have xBytes := (CoordinateBytes.fromBytes_eq_some _ x front).mp readX
      have yBytes := (CoordinateBytes.fromBytes_eq_some _ y back).mp readY
      obtain ⟨passed, same⟩ := Option.ite_none_left_eq_some.mp read
      simp only [Bool.or_eq_true, Bool.not_eq_true', not_or, Bool.not_eq_false] at passed
      cases same
      refine ⟨?_, fun held => (by cases held), fun _ => passed⟩
      rw [toBytes, if_neg (by simp), ← xBytes, ← yBytes, List.take_append_drop]
    · rintro ⟨same, atInfinity, finite⟩
      cases held : p.infinity with
      | true =>
        rw [toBytes, if_pos held] at same
        exact absurd same zeros
      | false =>
        obtain ⟨onCurve, inside⟩ := finite held
        obtain ⟨x, y, infinity⟩ := p
        dsimp only at held
        subst held
        rw [toBytes, if_neg (by simp)] at same
        dsimp only at same
        have xBytes : bytes.take (width F) = CoordinateBytes.toBytes x := by
          rw [same, List.take_left' (length_toBytes x)]
        have yBytes : bytes.drop (width F) = CoordinateBytes.toBytes y := by
          rw [same, List.drop_left' (length_toBytes x)]
        rw [(CoordinateBytes.fromBytes_eq_some _ x front).mpr xBytes,
          (CoordinateBytes.fromBytes_eq_some _ y back).mpr yBytes]
        simp [onCurve, inside]

omit [Coordinate F] [CoordinateBytes F] in
theorem Affine.eq_iff {p other : Affine F} {P Q : (mordell b).Point} (left : p.Stands P)
    (right : other.Stands Q) : p.eq other = true ↔ P = Q := by
  cases left with
  | infinity held =>
    cases right with
    | infinity held' =>
      rw [eq, held, held']
      exact iff_of_true rfl rfl
    | finite held' there' =>
      rw [eq, held, held']
      exact iff_of_false (by simp) fun same => (by cases same)
  | finite held there =>
    cases right with
    | infinity held' =>
      rw [eq, held, held']
      exact iff_of_false (by simp) fun same => (by cases same)
    | finite held' there' =>
      rw [eq, held, held', Point.some.injEq, Bool.and_eq_true, decide_eq_true_iff,
        decide_eq_true_iff]

/-- The canonical bytes of a scalar. -/
def Fr.toBytes (s : Fr) : List UInt8 := leBytes 32 s.val

theorem Fr.leValue_toBytes (s : Fr) : leValue (Fr.toBytes s) = s.val := by
  have below := ZMod.val_lt s
  have room : frModulus < 256 ^ 32 := by norm_num [frModulus]
  exact leValue_leBytes (below.trans room)

theorem any_leBytes {m x : ℕ} (small : x < 256 ^ m) :
    (leBytes m x).any (· != 0) = false ↔ x = 0 := by
  induction m generalizing x with
  | zero =>
    rw [pow_zero, Nat.lt_one_iff] at small
    exact iff_of_true rfl small
  | succ m ih =>
    have rest : x / 256 < 256 ^ m := by
      rw [Nat.div_lt_iff_lt_mul (by norm_num), ← pow_succ]
      exact small
    rw [leBytes, List.any_cons, Bool.or_eq_false_iff, ih rest, bne_eq_false_iff_eq,
      ← UInt8.toNat_inj, UInt8.toNat_ofNat']
    simp only [UInt8.toNat_zero]
    omega

/-- The bytes from a place on are zeros for what fits below it. -/
theorem Fr.any_drop_toBytes {n : ℕ} (inside : n ≤ 32) (x : Fr) :
    ((Fr.toBytes x).drop n).any (· != 0) = false ↔ x.val < 256 ^ n := by
  have below : x.val < 256 ^ 32 := (ZMod.val_lt x).trans (by norm_num [frModulus])
  have parts : Fr.toBytes x = leBytes n x.val ++ leBytes (32 - n) (x.val / 256 ^ n) := by
    rw [Fr.toBytes, ← leBytes_add, Nat.add_sub_cancel' inside]
  have high : x.val / 256 ^ n < 256 ^ (32 - n) := by
    rw [Nat.div_lt_iff_lt_mul (by positivity), ← pow_add, Nat.sub_add_cancel inside]
    exact below
  rw [parts, List.drop_left' (leBytes_length n _), any_leBytes high, Nat.div_eq_zero_iff]
  exact or_iff_right (by positivity)

theorem Fr.take_toBytes {n : ℕ} (inside : n ≤ 32) (x : Fr) :
    (Fr.toBytes x).take n = leBytes n x.val := by
  rw [Fr.toBytes, ← Nat.add_sub_cancel' inside, leBytes_add,
    List.take_left' (leBytes_length n _)]

/-- The multiple by a scalar. -/
def Projective.mul (p : Projective F) (scalar : Fr) : Projective F :=
  p.mulLeBytes (Fr.toBytes scalar)

omit [CoordinateBytes F] in
/-- A scalar's multiple is the multiple by its representative. -/
theorem Projective.mul_stands [NeZero (2 : F)] {p : Projective F} {P : (mordell b).Point}
    (stands : p.Stands P)
    (scalar : Fr) : (p.mul scalar).Stands (scalar.val • P) := by
  rw [← Fr.leValue_toBytes]
  exact mulLeBytes_stands stands _

/-- The operations are the group's on whatever the coordinates stand for. -/
structure ComputesGroup (b : F) : Prop where
  add : ∀ {p q : Projective F} {P Q : (mordell b).Point},
    p.Stands P → q.Stands Q → (p.add q).Stands (P + Q)
  addAffine : ∀ {p : Projective F} {q : Affine F} {P Q : (mordell b).Point},
    p.Stands P → q.Stands Q → (p.addAffine q).Stands (P + Q)
  double : ∀ {p : Projective F} {P : (mordell b).Point}, p.Stands P → p.double.Stands (P + P)
  neg : ∀ {p : Projective F} {P : (mordell b).Point}, p.Stands P → p.neg.Stands (-P)
  mul : ∀ {p : Projective F} {P : (mordell b).Point}, p.Stands P →
    ∀ scalar : Fr, (p.mul scalar).Stands (scalar.val • P)
  toAffine : ∀ {p : Projective F} {P : (mordell b).Point}, p.Stands P → p.toAffine.Stands P
  batchToAffine : ∀ {points : List (Projective F)} {reads : List (mordell b).Point},
    List.Forall₂ Projective.Stands points reads →
      ∃ affine, Projective.batchToAffine points = some affine ∧
        List.Forall₂ Affine.Stands affine reads
  eq : ∀ {p q : Projective F} {P Q : (mordell b).Point},
    p.Stands P → q.Stands Q → (p.eq q = true ↔ P = Q)
  affineEq : ∀ {p q : Affine F} {P Q : (mordell b).Point},
    p.Stands P → q.Stands Q → (p.eq q = true ↔ P = Q)

omit [CoordinateBytes F] in
theorem computesGroup [NeZero (2 : F)] (b : F) : ComputesGroup b where
  add := Projective.add_stands
  addAffine := Projective.addAffine_stands
  double := Projective.double_stands
  neg := Projective.neg_stands
  mul := Projective.mul_stands
  toAffine := Projective.toAffine_stands
  batchToAffine := by
    intro points reads stand
    refine ⟨_, Projective.batchToAffine_eq points, ?_⟩
    exact List.forall₂_map_left_iff.mpr (stand.imp fun _ _ => Projective.toAffine_stands)
  eq := Projective.eq_iff
  affineEq := Affine.eq_iff

open CoordinateBytes in
/-- Bytes are accepted exactly when they are those of a point killed by the order,
and the point read is that one. -/
structure ReadsSubgroup (b : F) (isInSubgroup : Affine F → Bool) (order : ℕ) : Prop where
  accepted : ∀ {bytes p}, bytes.length = 2 * width F →
    Affine.fromBytes b isInSubgroup bytes = some p →
      p.toBytes = bytes ∧ ∃ P : (mordell b).Point, p.Stands P ∧ order • P = 0
  reread : ∀ {p : Affine F} {P : (mordell b).Point}, p.Stands P → order • P = 0 →
    ∃ p', Affine.fromBytes b isInSubgroup p.toBytes = some p' ∧ p'.Stands P ∧ p'.eq p = true

omit [DecidableEq F] [Coordinate F] in
theorem Affine.length_toBytes (p : Affine F) : p.toBytes.length = 2 * CoordinateBytes.width F := by
  rw [toBytes]
  split
  · exact List.length_replicate
  · rw [List.length_append, CoordinateBytes.length_toBytes, CoordinateBytes.length_toBytes,
      two_mul]

theorem readsSubgroup [NeZero (2 : F)] [NeZero (3 : F)] (nonzero : b ≠ 0)
    {isInSubgroup : Affine F → Bool} {order : ℕ}
    (decides : ∀ {p : Affine F} {P : (mordell b).Point}, p.Stands P →
      (isInSubgroup p = true ↔ order • P = 0)) : ReadsSubgroup b isInSubgroup order where
  accepted := by
    intro bytes p length read
    obtain ⟨same, atInfinity, finite⟩ := (Affine.fromBytes_eq_some nonzero length).mp read
    refine ⟨same.symm, ?_⟩
    cases held : p.infinity with
    | true => exact ⟨0, .infinity held, smul_zero order⟩
    | false =>
      obtain ⟨onCurve, inside⟩ := finite held
      obtain ⟨P, stands⟩ := (Affine.exists_stands_iff nonzero p).mpr onCurve
      exact ⟨P, stands, (decides stands).mp inside⟩
  reread := by
    intro p P stands killed
    cases stands with
    | infinity held =>
      have zeros : p.toBytes = (Affine.identity : Affine F).toBytes := by
        rw [Affine.toBytes, if_pos held]
        rfl
      refine ⟨.identity, ?_, .infinity rfl, ?_⟩
      · rw [zeros]
        exact (Affine.fromBytes_eq_some nonzero (Affine.length_toBytes _)).mpr
          ⟨rfl, fun _ => rfl, fun none => (by cases none)⟩
      · rw [Affine.eq, held]
        rfl
    | finite held there =>
      have stands : p.Stands (mordellPoint there) := .finite held there
      refine ⟨p, ?_, stands, (Affine.eq_iff stands stands).mpr rfl⟩
      have onCurve := (Affine.exists_stands_iff nonzero p).mp ⟨_, stands⟩
      exact (Affine.fromBytes_eq_some nonzero (Affine.length_toBytes p)).mpr
        ⟨rfl, fun infinite => (by rw [held] at infinite; cases infinite),
          fun _ => ⟨onCurve, (decides stands).mpr killed⟩⟩

end Bytes

section Coordinates

/-- An element's canonical little-endian bytes. -/
def Fq.toBytes (x : Fq) : List UInt8 := leBytes 32 x.val

def Fq.fromBytes (bytes : List UInt8) : Option Fq :=
  if leValue bytes < fqModulus then some (leValue bytes : Fq) else none

theorem Fq.fromBytes_eq_some {bytes : List UInt8} {x : Fq} (length : bytes.length = 32) :
    Fq.fromBytes bytes = some x ↔ bytes = Fq.toBytes x := by
  have room : fqModulus < 256 ^ 32 := by norm_num [fqModulus]
  rw [Fq.fromBytes, Option.ite_none_right_eq_some, Option.some_inj, Fq.toBytes]
  constructor
  · rintro ⟨below, rfl⟩
    rw [ZMod.val_natCast_of_lt below, ← length, leBytes_leValue]
  · rintro rfl
    have below := ZMod.val_lt x
    rw [leValue_leBytes (below.trans room)]
    exact ⟨below, ZMod.natCast_zmod_val x⟩

instance : CoordinateBytes Fq where
  width := 32
  toBytes := Fq.toBytes
  fromBytes := Fq.fromBytes
  length_toBytes _ := leBytes_length 32 _
  toBytes_zero := by
    rw [Fq.toBytes, ZMod.val_zero]
    rfl
  fromBytes_eq_some _ _ := Fq.fromBytes_eq_some

def Fq2.toBytes (x : Fq2) : List UInt8 := Fq.toBytes x.c0 ++ Fq.toBytes x.c1

def Fq2.fromBytes (bytes : List UInt8) : Option Fq2 := do
  let c0 ← Fq.fromBytes (bytes.take 32)
  let c1 ← Fq.fromBytes (bytes.drop 32)
  some ⟨c0, c1⟩

theorem Fq2.fromBytes_eq_some {bytes : List UInt8} {x : Fq2} (length : bytes.length = 64) :
    Fq2.fromBytes bytes = some x ↔ bytes = Fq2.toBytes x := by
  have front : (bytes.take 32).length = 32 := by rw [List.length_take, length]; rfl
  have back : (bytes.drop 32).length = 32 := by rw [List.length_drop, length]
  constructor
  · intro read
    obtain ⟨c0, first, read⟩ := Option.bind_eq_some_iff.mp read
    obtain ⟨c1, second, read⟩ := Option.bind_eq_some_iff.mp read
    cases read
    rw [Fq2.toBytes, ← (Fq.fromBytes_eq_some front).mp first,
      ← (Fq.fromBytes_eq_some back).mp second, List.take_append_drop]
  · intro same
    have halves : (Fq.toBytes x.c0).length = 32 := leBytes_length 32 _
    have first := (Fq.fromBytes_eq_some front).mpr
      (show bytes.take 32 = Fq.toBytes x.c0 by rw [same, Fq2.toBytes, List.take_left' halves])
    have second := (Fq.fromBytes_eq_some back).mpr
      (show bytes.drop 32 = Fq.toBytes x.c1 by rw [same, Fq2.toBytes, List.drop_left' halves])
    rw [Fq2.fromBytes, first, second]
    rfl

instance : CoordinateBytes Fq2 where
  width := 64
  toBytes := Fq2.toBytes
  fromBytes := Fq2.fromBytes
  length_toBytes x := by
    rw [Fq2.toBytes, List.length_append, Fq.toBytes, Fq.toBytes, leBytes_length, leBytes_length]
  toBytes_zero := by
    rw [Fq2.toBytes, Fq2.zero_c0, Fq2.zero_c1, Fq.toBytes, ZMod.val_zero]
    rfl
  fromBytes_eq_some _ _ := Fq2.fromBytes_eq_some

end Coordinates

namespace G1

/-- The curve's constant, by its limbs. -/
def coefficient : Fq := Kernel.represented fqModulus
  [0x7a17caa950ad28d7, 0x1f6ac17ae15521b9, 0x334bea4e696bd284, 0x2a1f6744ce179d8e]

/-- The generator's ordinate, by its limbs. -/
def generatorY : Fq := Kernel.represented fqModulus
  [0xa6ba871b8b1e1b3a, 0x14f1d651eb8e167b, 0xccdd46def0f28c58, 0x1c14ef83340fbe5e]

def generator : Affine Fq := ⟨1, generatorY, false⟩

def isInSubgroup (p : Affine Fq) : Bool := p.isOnCurve coefficient

def fromBytes (bytes : List UInt8) : Option (Affine Fq) :=
  Affine.fromBytes coefficient isInSubgroup bytes

/-- What limbs represent, where their value is a multiple of the radix. -/
theorem represented_eq {a : List ℕ} {n : ℕ}
    (value : FqOp.value a % fqModulus = n * 2 ^ 256 % fqModulus) :
    Kernel.represented fqModulus a = n := by
  have same := (ZMod.natCast_eq_natCast_iff' _ _ fqModulus).mpr value
  rw [Kernel.represented, same, Nat.cast_mul, mul_assoc,
    mul_inv_cancel₀ Kernel.fq_lawful.radix_ne_zero, mul_one]

theorem coefficient_eq : coefficient = (3 : ℕ) :=
  represented_eq (by norm_num [FqOp.value, Nat.ofDigits, fqModulus])

theorem generatorY_eq : generatorY = (2 : ℕ) :=
  represented_eq (by norm_num [FqOp.value, Nat.ofDigits, fqModulus])

theorem coefficient_ne_zero : coefficient ≠ 0 := by
  rw [coefficient_eq]
  exact fq_natCast_ne_zero (by norm_num) (by norm_num [fqModulus])

/-- No point has a zero ordinate: `-3` is not a cube. -/
theorem no_cube (x : Fq) : x ^ 3 ≠ -coefficient := by
  intro cube
  have nonzero : x ≠ 0 := by
    intro zero
    rw [zero] at cube
    exact coefficient_ne_zero (by linear_combination cube)
  have third : fqModulus - 1 = 3 * ((fqModulus - 1) / 3) := by norm_num [fqModulus]
  have power : (-coefficient) ^ ((fqModulus - 1) / 3) = 1 := by
    rw [← cube, ← pow_mul, ← third]
    exact ZMod.pow_card_sub_one_eq_one nonzero
  have even : Even ((fqModulus - 1) / 3) := by
    rw [Nat.even_iff]
    norm_num [fqModulus]
  rw [even.neg_pow, coefficient_eq] at power
  have same := powMod_cast fqModulus 3 256 ((fqModulus - 1) / 3) (by norm_num [fqModulus])
  have one : ((powMod fqModulus 3 256 ((fqModulus - 1) / 3) : ℕ) : Fq) = (1 : ℕ) := by
    rw [same, power, Nat.cast_one]
  exact absurd ((ZMod.natCast_eq_natCast_iff' _ _ _).mp one) (by decide +kernel)

theorem generator_nonsingular :
    (mordell coefficient).Nonsingular ((1 : ℕ) : Fq) ((2 : ℕ) : Fq) := by
  refine nonsingular_of_equation coefficient_ne_zero ?_
  rw [coefficient_eq]
  norm_num

theorem generator_stands : ∃ P : (mordell coefficient).Point, generator.Stands P := by
  refine (Affine.exists_stands_iff coefficient_ne_zero generator).mpr ?_
  rw [Affine.isOnCurve_iff rfl, generator, generatorY_eq, coefficient_eq]
  norm_num

/-- The order kills every point of the curve. -/
theorem order_nsmul (P : (mordell coefficient).Point) : frModulus • P = 0 := by
  refine nsmul_eq_zero_of_point (by norm_num [fqModulus]) no_cube frModulus_prime
    (by norm_num [fqModulus, frModulus]) (G := mordellPoint generator_nonsingular) ?_ ?_ P
  · exact fun same => (by cases same)
  · exact nsmul_of_orderTest generator_nonsingular 256 (by decide +kernel)

/-- A number prime to the order kills infinity only. -/
theorem eq_zero_of_coprime {P : (mordell coefficient).Point} {k : ℕ}
    (coprime : Nat.Coprime k frModulus) (killed : k • P = 0) : P = 0 := by
  have first : addOrderOf P ∣ k := addOrderOf_dvd_iff_nsmul_eq_zero.mpr killed
  have second : addOrderOf P ∣ frModulus := addOrderOf_dvd_iff_nsmul_eq_zero.mpr (order_nsmul P)
  have both := Nat.dvd_gcd first second
  rw [coprime, Nat.dvd_one, AddMonoid.addOrderOf_eq_one_iff] at both
  exact both

theorem isInSubgroup_iff {p : Affine Fq} {P : (mordell coefficient).Point} (stands : p.Stands P) :
    isInSubgroup p = true ↔ frModulus • P = 0 :=
  iff_of_true ((Affine.exists_stands_iff coefficient_ne_zero p).mp ⟨P, stands⟩) (order_nsmul P)

end G1

namespace G2

/-- The curve's constant, by its limbs. -/
def coefficient : Fq2 where
  c0 := Kernel.represented fqModulus
    [0x3bf938e377b802a8, 0x020b1b273633535d, 0x26b7edf049755260, 0x2514c6324384a86d]
  c1 := Kernel.represented fqModulus
    [0x38e7ecccd1dcff67, 0x65f0b37d93ce0d3e, 0xd749d0dd22ac00aa, 0x0141b9ce4a688d4d]

/-- The group order, as the bytes the ladder reads. -/
def subgroupOrderLeBytes : List UInt8 := Montgomery.modulus.flatMap (leBytes 8)

def isInSubgroup (p : Affine Fq2) : Bool :=
  p.isOnCurve coefficient &&
    ((Projective.ofAffine p).mulLeBytes subgroupOrderLeBytes).isIdentity

def fromBytes (bytes : List UInt8) : Option (Affine Fq2) :=
  Affine.fromBytes coefficient isInSubgroup bytes

end G2

/-- The tower's nonresidue `9 + u`, by its limbs. -/
def Fq2.xi : Fq2 where
  c0 := Kernel.represented fqModulus
    [0xf60647ce410d7ff7, 0x2f3d6f4dd31bd011, 0x2943337e3940c6d1, 0x1d9598e8a7e39857]
  c1 := 1

namespace G2

theorem xi_c0 : Fq2.xi.c0 = (9 : ℕ) :=
  G1.represented_eq (by norm_num [FqOp.value, Nat.ofDigits, fqModulus])

theorem leValue_subgroupOrderLeBytes : leValue subgroupOrderLeBytes = frModulus := by
  rw [subgroupOrderLeBytes, (Kernel.leValue_flatMap Montgomery.inRange_modulus).2,
    Montgomery.value_modulus]

/-- The twist's constant is three over the nonresidue. -/
theorem coefficient_mul_xi : coefficient * Fq2.xi = (3 : ℕ) := by
  have first : coefficient.c0 =
      (19485874751759354771024239261021720505790618469301721065564631296452457478373 : ℕ) :=
    G1.represented_eq (by norm_num [FqOp.value, Nat.ofDigits, fqModulus])
  have second : coefficient.c1 =
      (266929791119991161246907387137283842545076965332900288569378510910307636690 : ℕ) :=
    G1.represented_eq (by norm_num [FqOp.value, Nat.ofDigits, fqModulus])
  ext
  · rw [Fq2.mul_c0, Fq2.natCast_c0, xi_c0, first, second, show Fq2.xi.c1 = 1 from rfl, mul_one,
      sub_eq_iff_eq_add, ← Nat.cast_mul, ← Nat.cast_add]
    exact (ZMod.natCast_eq_natCast_iff' _ _ _).mpr (by norm_num [fqModulus])
  · rw [Fq2.mul_c1, Fq2.natCast_c1, xi_c0, first, second, show Fq2.xi.c1 = 1 from rfl, mul_one,
      ← Nat.cast_mul, ← Nat.cast_add, ← Nat.cast_zero]
    exact (ZMod.natCast_eq_natCast_iff' _ _ _).mpr (by norm_num [fqModulus])

theorem coefficient_ne_zero : coefficient ≠ 0 := by
  intro zero
  have three := coefficient_mul_xi
  rw [zero, zero_mul] at three
  exact NeZero.ne (3 : Fq2) (by exact_mod_cast three.symm)

/-- The check is the point's own order, by the ladder. -/
theorem isInSubgroup_iff {p : Affine Fq2} {P : (mordell coefficient).Point}
    (stands : p.Stands P) : isInSubgroup p = true ↔ frModulus • P = 0 := by
  have onCurve := (Affine.exists_stands_iff coefficient_ne_zero p).mp ⟨P, stands⟩
  have multiple := Projective.mulLeBytes_stands (Projective.ofAffine_stands stands)
    subgroupOrderLeBytes
  rw [leValue_subgroupOrderLeBytes] at multiple
  rw [isInSubgroup, onCurve, Bool.true_and, Projective.isIdentity_iff,
    Projective.z_eq_zero_iff multiple]

end G2

/-- Both groups' arithmetic is the group law's, and both read exactly the canonical
bytes of the points that the order kills. -/
theorem groups_exact : ComputesGroup G1.coefficient ∧ ComputesGroup G2.coefficient ∧
    ReadsSubgroup G1.coefficient G1.isInSubgroup frModulus ∧
    ReadsSubgroup G2.coefficient G2.isInSubgroup frModulus ∧
    G1.coefficient = (3 : ℕ) ∧ G2.coefficient * ⟨(9 : ℕ), 1⟩ = (3 : ℕ) :=
  ⟨computesGroup _, computesGroup _, readsSubgroup G1.coefficient_ne_zero G1.isInSubgroup_iff,
    readsSubgroup G2.coefficient_ne_zero G2.isInSubgroup_iff, G1.coefficient_eq, by
      rw [← G2.xi_c0]
      exact G2.coefficient_mul_xi⟩

end Apogee.Curve
