import Apogee.Circuit.FrOp
import Apogee.Curve.Groups
import Apogee.Emulator.Alu
import Apogee.Trace.Log
import Apogee.Transcript.Duplex

/-! # The native reading of a tape

A tape's calls replayed over cells, without a machine. An access stamps its cell, in
the circuits' slot order, since a base-field element is read at one time: an element
whose cells were last accessed apart is refused.
-/

namespace Apogee.Recursion.Native

open Alu Math

/-- One call's frame. -/
inductive Op
  /-- A field operation: the code and three cells. -/
  | fr (code d a b : Word)
  /-- A duplex step: the number pending, the state, the pending cells, the next state. -/
  | duplex (n s x y d : Word)
  /-- A base-field operation: the operation word and three elements. -/
  | fq (word d a b : Word)
  /-- The eight words at an offset of the blob into a cell. -/
  | importCell (cell offset : Word)
deriving DecidableEq

section Arithmetic

/-- An element's integer, when it is below `2^128`. -/
def small (v : Fr) : Option ℕ :=
  if ((Curve.Fr.toBytes v).drop 16).any (· != 0) then none
  else some (leValue ((Curve.Fr.toBytes v).take 16))

/-- An element's integer, when it is a limb. -/
def limb (v : Fr) : Option ℕ :=
  if ((Curve.Fr.toBytes v).drop 8).any (· != 0) then none
  else some (leValue ((Curve.Fr.toBytes v).take 8))

/-- What an import makes of 32 bytes, the highest word first. -/
def imported (bytes : List UInt8) : Fr :=
  (List.range 8).reverse.foldl (fun v k =>
    v * ((2 ^ 32 : ℕ) : Fr) + ((leValue ((bytes.drop (4 * k)).take 4) : ℕ) : Fr)) 0

/-- Whether limbs are below the modulus, from the highest. -/
def belowQ (x : List ℕ) : Bool :=
  match (List.range 4).reverse.find? fun k => x.getD k 0 != FqOp.qLimb k with
  | some k => x.getD k 0 < FqOp.qLimb k
  | none => false

def minusQ (x : List ℕ) : List ℕ := FqOp.subWrapping x FqOp.q 0

/-- Limbs doubled, a bit shifted in below. -/
def doubleIn : List ℕ → ℕ → List ℕ
  | [], _ => []
  | limb :: limbs, carry => (limb * 2 % 2 ^ 64 + carry) :: doubleIn limbs (limb / 2 ^ 63)

/-- One bit of a reduction. -/
def reduceBit (x rem : List ℕ) (bit : ℕ) : List ℕ :=
  let doubled := doubleIn rem (x.getD (bit / 64) 0 / 2 ^ (bit % 64) % 2)
  if belowQ doubled then doubled else minusQ doubled

/-- The remainder by the modulus, bit by bit from the top. -/
def reduceQ (x : List ℕ) : List ℕ :=
  (List.range 512).reverse.foldl (reduceBit x) (List.replicate 4 0)

def canonical (x : List ℕ) : List ℕ := reduceQ (FqOp.wide x)

def mulModQ (x y : List ℕ) : List ℕ := reduceQ (FqOp.mulWide (FqOp.wide x) (FqOp.wide y))

def addModQ (x y : List ℕ) : Except String (List ℕ) :=
  (FqOp.addWide (FqOp.wide x) (FqOp.wide y)).map reduceQ

/-- `a − b`, as `a + 6q − b`. -/
def subModQ (x y : List ℕ) : Except String (List ℕ) := do
  let sixQ := FqOp.mulWide (FqOp.wide FqOp.q) (FqOp.wide [FqOp.subMultiple])
  let sum ← FqOp.addWide (FqOp.wide x) sixQ
  let difference ← FqOp.subWide sum (FqOp.wide y)
  pure (reduceQ difference)

end Arithmetic

/-- Each cell's value and when it was last accessed. -/
structure Memory where
  values : Word → Fr
  stamps : Word → ℕ
  clock : ℕ

namespace Memory

def touch (m : Memory) (c : Word) (time : ℕ) : Memory :=
  { m with stamps := Function.update m.stamps c time }

def write (m : Memory) (c : Word) (v : Fr) (time : ℕ) : Memory :=
  { m.touch c time with values := Function.update m.values c v }

/-- An access to consecutive cells. -/
def touchAll (m : Memory) (c : Word) (count time : ℕ) : Memory :=
  (List.range count).foldl (fun m k => m.touch (c + BitVec.ofNat 32 k) time) m

/-- Values into consecutive cells. -/
def writeAll (m : Memory) (c : Word) (values : List Fr) (time : ℕ) : Memory :=
  values.zipIdx.foldl (fun m entry => m.write (c + BitVec.ofNat 32 entry.2) entry.1 time) m

/-- Whether an element's cells were last accessed together. -/
def whole (m : Memory) (c : Word) : Bool :=
  [1, 2, 3].all fun k => m.stamps (c + BitVec.ofNat 32 k) == m.stamps (c + 0)

/-- An element's limbs. -/
def element (m : Memory) (c : Word) : Option (List ℕ) :=
  (List.range 4).mapM fun k => limb (m.values (c + BitVec.ofNat 32 k))

end Memory

/-- A call that is refused names itself; a panic of the arithmetic does not. -/
inductive Stop
  | refused
  | panicked
deriving DecidableEq

/-- A failure that refuses the call. -/
def orRefuse {α : Type} : Option α → Except Stop α
  | some x => .ok x
  | none => .error .refused

/-- A failed assertion of the arithmetic. -/
def orPanic {α : Type} : Except String α → Except Stop α
  | .ok x => .ok x
  | .error _ => .error .panicked

section Step

open Native.Memory

/-- A field operation's accesses to `a` and to `b`, which two of them leave out. -/
def frReads (m : Memory) (code a b : Word) : Memory :=
  if code.toNat = FrOp.imm ∨ code.toNat = FrOp.shl then m.touch a (m.clock + 1)
  else (m.touch a (m.clock + 1)).touch b (m.clock + 2)

/-- A field operation, its accesses to `a`, `b` and `d` in that order. -/
def frStep (m : Memory) (code d a b : Word) : Except Stop Memory :=
  let ts := m.clock
  let va := m.values a
  let vb := m.values b
  let vd := m.values d
  let read := frReads m code a b
  let imm : Fr := (b.toNat : Fr)
  if code.toNat = FrOp.mul then .ok (read.write d (va * vb) (ts + 3))
  else if code.toNat = FrOp.add then .ok (read.write d (va + vb) (ts + 3))
  else if code.toNat = FrOp.sub then .ok (read.write d (va - vb) (ts + 3))
  else if code.toNat = FrOp.mac then .ok (read.write d (vd + va * vb) (ts + 3))
  else if code.toNat = FrOp.inv then .ok (read.write d va⁻¹ (ts + 3))
  else if code.toNat = FrOp.eq then if va ≠ vb then .error .refused else .ok read
  else if code.toNat = FrOp.imm then .ok (read.write d imm (ts + 3))
  else if code.toNat = FrOp.shl then
    .ok (read.write d (va * ((2 ^ 32 : ℕ) : Fr) + imm) (ts + 3))
  else if code.toNat = FrOp.digit then
    -- the rest to `b` at its slot, then the digit to `d`
    let digit : Fr := ((va.val % 2 ^ FrOp.digitBits : ℕ) : Fr)
    let rest := (va - digit) * ((2 ^ FrOp.digitBits : ℕ) : Fr)⁻¹
    .ok ((read.write b rest (ts + 2)).write d digit (ts + 3))
  else .error .refused

/-- What a duplex step permutes. -/
def absorbedLanes (values : Word → Fr) (n s x y : Word) : Lanes :=
  ⟨if 1 ≤ n.toNat then values x else values s,
    if n.toNat = 2 then values y else if n.toNat = 1 then 0 else values (s + 1),
    values (s + 2) + (n.toNat : Fr)⟩

/-- A duplex step. -/
def duplexStep (permute : Lanes → Lanes) (m : Memory) (n s x y d : Word) : Memory :=
  let ts := m.clock
  let lanes := permute (absorbedLanes m.values n s x y)
  let read := m.touchAll s 3 ts
  let read := if 1 ≤ n.toNat then read.touch x (ts + 1) else read
  let read := if 2 ≤ n.toNat then read.touch y (ts + 2) else read
  read.writeAll d [lanes.first, lanes.second, lanes.capacity] (ts + 3)

/-- An operand's first cell: its word, or where the digit's bucket puts it. -/
def operandCell (word flag base : Word) (digit : ℕ) : Word :=
  if word &&& flag = 0 then base else base + BitVec.ofNat 32 (FqOp.bucketCells * digit)

/-- The elements a base-field operation works on; an element of two halves has none. -/
def fqOperands (m : Memory) (code : ℕ) (ac bc : Word) :
    Except Stop (Option (List ℕ × List ℕ)) :=
  if code = FqOp.from128 then .ok none
  else do
    let x ← orRefuse (m.element ac)
    let y ← orRefuse (m.element bc)
    .ok (some (x, y))

/-- The limbs a base-field operation leaves in `d`. -/
def fqOut (m : Memory) (code : ℕ) (lo hi : Fr) (dc : Word) :
    Option (List ℕ × List ℕ) → Except Stop (List ℕ)
  | none => do
      let lo ← orRefuse (small lo)
      let hi ← orRefuse (small hi)
      .ok [lo % 2 ^ 64, lo / 2 ^ 64 % 2 ^ 64, hi % 2 ^ 64, hi / 2 ^ 64 % 2 ^ 64]
  | some (x, y) =>
    if code = FqOp.mul then .ok (mulModQ x y)
    else if code = FqOp.add then orPanic (addModQ x y)
    else if code = FqOp.sub then orPanic (subModQ x y)
    else if code = FqOp.muleq then do
      let held ← orRefuse (m.element dc)
      if mulModQ x y ≠ canonical held then .error .refused else .ok held
    else .error .refused

/-- A base-field operation. -/
def fqStep (m : Memory) (word d a b : Word) : Except Stop Memory := do
  let ts := m.clock
  let g := word >>> FqOp.digitShift
  let wide ← orRefuse (small (m.values g))
  let digit := wide % 2 ^ 32
  let read := m.touch g ts
  let dc := operandCell word (BitVec.ofNat 32 FqOp.flagD) d digit
  let ac := operandCell word (BitVec.ofNat 32 FqOp.flagA) a digit
  let bc := operandCell word (BitVec.ofNat 32 FqOp.flagB) b digit
  let code := word.toNat % 2 ^ FqOp.codeBits
  let operands ← fqOperands read code ac bc
  let lo := read.values ac
  let hi := read.values (ac + 1)
  let readA := read.touchAll ac 4 (ts + 1)
  if !readA.whole bc then .error .refused
  else
    let readB := readA.touchAll bc 4 (ts + 2)
    if !readB.whole dc then .error .refused
    else
      let out ← fqOut readB code lo hi dc operands
      .ok (readB.writeAll dc (out.map fun limb => ((limb : ℕ) : Fr)) (ts + 3))

/-- One call, the clock a cycle on. -/
def step (permute : Lanes → Lanes) (blob : List UInt8) (m : Memory) (op : Op) :
    Except Stop Memory :=
  let m := { m with clock := m.clock + 4 }
  match op with
  | .fr code d a b => frStep m code d a b
  | .duplex n s x y d => .ok (duplexStep permute m n s x y d)
  | .fq word d a b => fqStep m word d a b
  | .importCell cell offset =>
    if offset.toNat + 32 ≤ blob.length then
      .ok (m.write cell (imported ((blob.drop offset.toNat).take 32)) (m.clock + 3))
    else .error .refused

end Step

/-- The calls from a position on; a failure names the call. -/
def runFrom (permute : Lanes → Lanes) (blob : List UInt8) :
    ℕ → List Op → Memory → Except (ℕ × Stop) Memory
  | _, [], m => .ok m
  | i, op :: ops, m =>
    match step permute blob m op with
    | .error stop => .error (i, stop)
    | .ok m => runFrom permute blob (i + 1) ops m

def run (permute : Lanes → Lanes) (blob : List UInt8) (ops : List Op) (m : Memory) :
    Except (ℕ × Stop) Memory :=
  runFrom permute blob 0 ops m

end Apogee.Recursion.Native
