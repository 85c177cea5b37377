import Apogee.Circuit.FqOp
import Apogee.Math.LimbChains

/-! # The base-field operation's arithmetic witness

What no event of a row carries: the multiplier, the new limbs' chunks, the
quotient's and the carries'. It is computed over nine 64-bit limbs, and stops
where the identity has no quotient.
-/

namespace Apogee.FqOp

/-- One row's arithmetic witness. -/
structure Witness where
  y : List ℕ
  dChunks : List (List ℕ)
  kChunks : List (List ℕ)
  carryChunks : List (List ℕ)
deriving DecidableEq

/-- The value of 64-bit limbs, low first. -/
abbrev value (limbs : List ℕ) : ℕ := Nat.ofDigits (2 ^ 64) limbs

/-- Limbs that fit their width. -/
def InRange (limbs : List ℕ) : Prop := ∀ limb ∈ limbs, limb < 2 ^ 64

/-- Nine limbs, wide enough for `a·y + z`. -/
def wide (x : List ℕ) : List ℕ := x ++ List.replicate (9 - x.length) 0

/-- A sum's limbs and the carry out of them. -/
def addFrom : List ℕ → List ℕ → ℕ → List ℕ × ℕ
  | x :: xs, y :: ys, carry =>
    let t := x + y + carry
    let (rest, out) := addFrom xs ys (t / 2 ^ 64)
    (t % 2 ^ 64 :: rest, out)
  | _, _, carry => ([], carry)

def addWide (x y : List ℕ) : Except String (List ℕ) :=
  let sum := addFrom x y 0
  if sum.2 = 0 then .ok sum.1 else .error "fq_op: a sum leaves 576 bits"

/-- A difference's limbs and the borrow out of them. -/
def subFrom : List ℕ → List ℕ → ℤ → List ℕ × ℤ
  | x :: xs, y :: ys, borrow =>
    let t : ℤ := x - y - borrow
    let (rest, out) := subFrom xs ys (if t < 0 then 1 else 0)
    ((t % 2 ^ 64).toNat :: rest, out)
  | _, _, borrow => ([], borrow)

def subWide (x y : List ℕ) : Except String (List ℕ) :=
  let difference := subFrom x y 0
  if difference.2 = 0 then .ok difference.1 else .error "fq_op: a difference goes negative"

/-- One row of a product: `scale` times the limbs added to the lanes, the carry
out of them dropped. -/
def mulRow (scale : ℕ) : List ℕ → List ℕ → ℕ → List ℕ
  | lane :: lanes, limb :: limbs, carry =>
    let t := lane + scale * limb + carry
    t % 2 ^ 64 :: mulRow scale lanes limbs (t / 2 ^ 64)
  | _, _, _ => []

/-- A product truncated to nine limbs. -/
def mulWide (x y : List ℕ) : List ℕ :=
  (List.range 9).foldl (fun out i => out.take i ++ mulRow (x.getD i 0) (out.drop i) y 0)
    (List.replicate 9 0)

/-- A wrapping difference of limbs, and whether it wrapped. -/
def overflowingSub (x y : ℕ) : ℕ × ℕ := ((x + 2 ^ 64 - y) % 2 ^ 64, if x < y then 1 else 0)

/-- A wrapping difference. -/
def subWrapping : List ℕ → List ℕ → ℕ → List ℕ
  | x :: xs, y :: ys, borrow =>
    let first := overflowingSub x y
    let second := overflowingSub first.1 borrow
    second.1 :: subWrapping xs ys (first.2 ||| second.2)
  | _, _, _ => []

/-- One step of the inverse's iteration, which doubles the bits that agree. -/
def inverseStep (x : List ℕ) : List ℕ :=
  mulWide x (subWrapping (wide [2]) (mulWide (wide q) x) 0)

/-- The modulus's inverse modulo `2^576`. -/
def qInverse : List ℕ := inverseStep^[10] (wide [1])

/-- The multiplier and the addend of an operation. -/
def operands (code : ℕ) (b dNew : List ℕ) : Except String (List ℕ × List ℕ) :=
  if code = mul ∨ code = muleq then .ok (b, wide [])
  else if code = add then .ok ([1, 0, 0, 0], wide b)
  else if code = sub then
    match subWide (mulWide (wide q) (wide [subMultiple])) (wide b) with
    | .ok z => .ok ([1, 0, 0, 0], z)
    | .error message => .error message
  else if code = from128 then .ok ([0, 0, 0, 0], wide dNew)
  else .error ("fq_op: no op " ++ toString code)

/-- The circuit's addend at a limb's place. -/
def zLimb (code : ℕ) (b dNew : List ℕ) (k : ℕ) : Fr :=
  if code = add then ((b.getD k 0 : ℕ) : Fr)
  else if code = sub then ((subMultiple : ℕ) : Fr) * ((qLimb k : ℕ) : Fr) - ((b.getD k 0 : ℕ) : Fr)
  else if code = from128 then ((dNew.getD k 0 : ℕ) : Fr)
  else 0

/-- The identity's terms at a limb's place. -/
def limbTerms (code : ℕ) (a b dNew y : List ℕ) (quotient : ℕ → Fr) (k : ℕ) : Fr :=
  ((List.range 4).map fun i =>
    if i ≤ k ∧ k - i < 4 then
      ((a.getD i 0 : ℕ) : Fr) * ((y.getD (k - i) 0 : ℕ) : Fr) -
        ((qLimb i : ℕ) : Fr) * quotient (k - i)
    else 0).sum +
  if k < 4 then zLimb code b dNew k - ((dNew.getD k 0 : ℕ) : Fr) else 0

/-- The chunks of a number. -/
def chunksOf (bits count n : ℕ) : List ℕ :=
  (List.range count).map fun c => n / 2 ^ (bits * c) % 2 ^ bits

/-- The carries' chunks, group by group, and the last carry. -/
def carriesFrom (terms : ℕ → Fr) : List ℕ → Fr → Except String (List (List ℕ) × Fr)
  | [], carry => .ok ([], carry)
  | g :: gs, carry =>
    let c := (terms (2 * g) + pow2 64 * terms (2 * g + 1) + carry) * (pow2 128)⁻¹
    let shifted := Math.limbs (2 ^ 64) 4 (c + pow2 carryOffsetBits).val
    if shifted.getD 1 0 / 2 ^ 12 = 0 ∧ ∀ v ∈ shifted.drop 2, v = 0 then
      match carriesFrom terms gs c with
      | .ok (chunks, last) =>
        .ok (chunksOf 19 4 (shifted.getD 0 0 + 2 ^ 64 * shifted.getD 1 0) :: chunks, last)
      | .error message => .error message
    else .error ("fq_op: carry " ++ toString g ++ " passes 2^75")

/-- The witness's columns once the quotient is known. -/
def witnessFor (code : ℕ) (a b dNew y k : List ℕ) : Except String Witness :=
  let k3 := k.getD 3 0 + 2 ^ 64 * k.getD 4 0
  let quotient (j : ℕ) : Fr :=
    if j < 3 then ((k.getD j 0 : ℕ) : Fr)
    else ((k.getD 3 0 : ℕ) : Fr) + pow2 64 * ((k.getD 4 0 : ℕ) : Fr)
  let terms := limbTerms code a b dNew y quotient
  (carriesFrom terms [0, 1, 2] 0).bind fun carries =>
    if terms 6 + carries.2 = 0 then
      .ok
        { y
          dChunks := dNew.map fun limb => [1, 2, 3].map fun c => limb / 2 ^ (16 * c) % 2 ^ 16
          kChunks := (List.range 4).map fun j =>
            chunksOf (kBits j) 4 (if j < 3 then k.getD j 0 else k3)
          carryChunks := carries.1 }
    else .error "fq_op: the top group does not close"

/-- A row's witness over `a`, `b` and the new `d`, every limb below `2^64`. -/
def witness (code : ℕ) (a b dNew : List ℕ) : Except String Witness :=
  match operands code b dNew with
  | .error message => .error message
  | .ok (y, z) =>
    match addWide (mulWide (wide a) (wide y)) z with
    | .error message => .error message
    | .ok x =>
      match subWide x (wide dNew) with
      | .error message => .error message
      | .ok rem =>
        let k := mulWide rem qInverse
        if mulWide k (wide q) ≠ rem then
          .error "fq_op: a·y + z − d′ is not a multiple of q"
        else if (∃ v ∈ k.drop 5, v ≠ 0) ∨ k.getD 4 0 / 2 ^ 12 ≠ 0 then
          .error "fq_op: the quotient passes 2^268"
        else witnessFor code a b dNew y k

end Apogee.FqOp
