import Apogee.Field.Montgomery
import Apogee.Math.BatchInverse
import Apogee.Math.Codec

/-! # The limb kernels

The two fields' arithmetic is one kernel over four 64-bit limbs, written out
twice with two sets of constants. A sum that leaves its machine word and a failed
debug assertion are `none`; the subtractions that may wrap are the ones the
source spells as wrapping.
-/

namespace Apogee

open Math FqOp

/-- The constants of one copy of the kernel. -/
structure Kernel where
  modulus : List ℕ
  modulusMinusTwo : List ℕ
  r : List ℕ
  r2 : List ℕ
  inv : ℕ

namespace Kernel

/-- A sum computed in a machine word. -/
def checked (bits t : ℕ) : Option ℕ := if t < 2 ^ bits then some t else none

/-- `acc + a * b + carry`, as its low limb and the carry out; no partial sum
exceeds the whole. -/
def mac (acc a b carry : ℕ) : Option (ℕ × ℕ) := do
  let t ← checked 128 (acc + a * b + carry)
  some (t % 2 ^ 64, t / 2 ^ 64 % 2 ^ 64)

def adc (a b carry : ℕ) : Option (ℕ × ℕ) := do
  let t ← checked 128 (a + b + carry)
  some (t % 2 ^ 64, t / 2 ^ 64 % 2 ^ 64)

/-- A difference that wraps at 128 bits. -/
def wrappingSub (a b : ℕ) : ℕ := (a + (2 ^ 128 - b)) % 2 ^ 128

/-- `a - b - borrow`, as its low limb and the borrow out. -/
def sbb (a b borrow : ℕ) : ℕ × ℕ :=
  let t := wrappingSub (wrappingSub a b) borrow
  (t % 2 ^ 64, t / 2 ^ 64 % 2)

/-- The loop of `adc` over two arrays. -/
def adcLoop : List ℕ → List ℕ → ℕ → Option (List ℕ × ℕ)
  | a :: as, b :: bs, carry => do
      let (s, c) ← adc a b carry
      let (rest, out) ← adcLoop as bs c
      some (s :: rest, out)
  | _, _, carry => some ([], carry)

/-- The loop of `sbb` over two arrays. -/
def sbbLoop : List ℕ → List ℕ → ℕ → List ℕ × ℕ
  | a :: as, b :: bs, borrow =>
    let (d, bw) := sbb a b borrow
    let (rest, out) := sbbLoop as bs bw
    (d :: rest, out)
  | _, _, borrow => ([], borrow)

/-- The loop of `mac` over an accumulator's lanes and an array. -/
def macLoop (scale : ℕ) : List ℕ → List ℕ → ℕ → Option (List ℕ × ℕ)
  | lane :: lanes, limb :: limbs, carry => do
      let (s, c) ← mac lane limb scale carry
      let (rest, out) ← macLoop scale lanes limbs c
      some (s :: rest, out)
  | _, _, carry => some ([], carry)

variable (k : Kernel)

def isGeModulus (a : List ℕ) : Bool := Montgomery.geFrom a.reverse k.modulus.reverse

/-- Subtract the modulus once where it can be; the difference must not borrow. -/
def reduceOnce (a : List ℕ) : Option (List ℕ) :=
  if k.isGeModulus a then
    let (d, borrow) := sbbLoop a k.modulus 0
    if borrow = 0 then some d else none
  else some a

def addLimbs (a b : List ℕ) : Option (List ℕ) := do
  let (r, carry) ← adcLoop a b 0
  if carry = 0 then k.reduceOnce r else none

/-- The modulus added back to a difference that borrowed, and the carry out. -/
def addBack (r : List ℕ) (borrow : ℕ) : Option (List ℕ × ℕ) :=
  if borrow = 1 then adcLoop r k.modulus 0 else some (r, 0)

def subLimbs (a b : List ℕ) : Option (List ℕ) := do
  let (r, borrow) := sbbLoop a b 0
  let (out, _) ← k.addBack r borrow
  some out

def negLimbs (a : List ℕ) : Option (List ℕ) :=
  if a = [0, 0, 0, 0] then some [0, 0, 0, 0] else k.subLimbs k.modulus a

/-- One round of the product over the six lanes of its accumulator. -/
def montRound (a t : List ℕ) (b : ℕ) : Option (List ℕ) := do
  let (row, carry) ← macLoop b (t.take 4) a 0
  let (top, t5) ← adc (t.getD 4 0) carry 0
  let m := row.getD 0 0 * k.inv % 2 ^ 64
  let (reduced, carry) ← macLoop m row k.modulus 0
  -- the low lane must cancel
  if reduced.getD 0 0 ≠ 0 then none else do
    let (t3, c) ← adc top carry 0
    let t4 ← checked 64 (t5 + c)
    some (reduced.drop 1 ++ [t3, t4, t5])

def montMul (a b : List ℕ) : Option (List ℕ) := do
  let t ← b.foldlM (k.montRound a) (List.replicate 6 0)
  if t.getD 4 0 ≠ 0 then none else k.reduceOnce (t.take 4)

def fromMontgomery (a : List ℕ) : Option (List ℕ) := k.montMul a [1, 0, 0, 0]

def square (a : List ℕ) : Option (List ℕ) := k.montMul a a

/-- One bit of an exponent. -/
def powBit (a : List ℕ) (limb : ℕ) (acc : List ℕ) (bit : ℕ) : Option (List ℕ) := do
  let acc ← k.square acc
  if limb / 2 ^ bit % 2 = 1 then k.montMul acc a else some acc

/-- A power by squaring, from the exponent's top bit down. -/
def pow (a exp : List ℕ) : Option (List ℕ) :=
  exp.reverse.foldlM (fun acc limb => (List.range 64).reverse.foldlM (k.powBit a limb) acc) k.r

/-- The inverse by Fermat; zero has none. -/
def inverse (a : List ℕ) : Option (Option (List ℕ)) :=
  if a = [0, 0, 0, 0] then some none else (k.pow a k.modulusMinusTwo).map some

def toBytes (a : List ℕ) : Option (List UInt8) := do
  let c ← k.fromMontgomery a
  some (c.flatMap (leBytes 8))

/-- The limbs of 32 bytes. -/
def byteLimbs (b : List UInt8) : List ℕ :=
  (List.range 4).map fun i => leValue ((b.drop (8 * i)).take 8)

/-- A value at or above the modulus is refused, not reduced. -/
def fromBytes (b : List UInt8) : Option (Option (List ℕ)) :=
  let limbs := byteLimbs b
  if k.isGeModulus limbs then some none else (k.montMul limbs k.r2).map some

/-- Every entry inverted in place, with one inversion in all. -/
def batchInverse (xs : List (List ℕ)) : Option (List (List ℕ)) :=
  Math.batchInverse k.montMul k.inverse [0, 0, 0, 0] k.r xs

/-- The scalar field's constants. -/
def fr : Kernel where
  modulus := Montgomery.modulus
  modulusMinusTwo := Montgomery.modulusMinusTwo
  r := Montgomery.radix
  r2 := [0x1bb8e645ae216da7, 0x53fe3ab1e35c59e3, 0x8c49833d53bb8085, 0x0216d0b17f4e44a5]
  inv := Montgomery.inv

/-- The base field's constants. -/
def fq : Kernel where
  modulus := [0x3c208c16d87cfd47, 0x97816a916871ca8d, 0xb85045b68181585d, 0x30644e72e131a029]
  modulusMinusTwo :=
    [0x3c208c16d87cfd45, 0x97816a916871ca8d, 0xb85045b68181585d, 0x30644e72e131a029]
  r := [0xd35d438dc58f0d9d, 0x0a78eb28f5c70b3d, 0x666ea36f7879462c, 0x0e0a77c19a07df2f]
  r2 := [0xf32cfc5b538afa89, 0xb5e71911d44501fb, 0x47ab1eff0a417ff6, 0x06d89f71cab8351f]
  inv := 0x87d20782e4866389

end Kernel

end Apogee
