import Apogee.Field.Montgomery

/-! # The delegation frame bounded by bits

The families too short for a halfword table bound their timestamp gaps and their
base bit by bit, and show a frame value below the scalar field's modulus by a
chain of borrows whose limbs are bits too.
-/

namespace Apogee.Delegation

open Gadgets

/-- The width of a timestamp gap. -/
def gapBits : ℕ := Clock.tsBits

/-- A bit of a frame word's timestamp gap. -/
def gapBit (j bit : ℕ) : PolyAddress := .witness (gapBits * j + bit)

/-- A bit of `(base − ramOrigin) / 4`. -/
def baseLowBit (words bit : ℕ) : PolyAddress := .witness (gapBits * words + bit)

/-- A bit of the room above the frame. -/
def baseRoomBit (words bit : ℕ) : PolyAddress :=
  .witness (gapBits * words + baseLowBits + bit)

/-- The witness columns a frame bounded by bits takes. -/
def frameWitness (words : ℕ) : ℕ := gapBits * words + baseLowBits + baseRoomBits

/-- Those columns' names. -/
def witnessNames (words : ℕ) : List String :=
  ((List.range words).flatMap fun j => (List.range gapBits).map fun i =>
    "gap" ++ toString j ++ "_" ++ toString i) ++
  ((List.range baseLowBits).map fun i => "base_low" ++ toString i) ++
  (List.range baseRoomBits).map fun i => "base_room" ++ toString i

/-- The terms that take the bits of a number away from a masked form. -/
def maskedBits (mask : PolyAddress) (count scale : ℕ) (bit : ℕ → PolyAddress) :
    List (Coeff × PolyAddress × PolyAddress) :=
  (List.range count).map fun i => (neg (scale * 2 ^ i), mask, bit i)

/-- The frame's own gates: the mask's and every bit's booleanity, the words'
addresses, the gaps as sums of bits, and the base's place in guest memory. -/
def frameGates (words frameBytes : ℕ) : List (String × GateDef) :=
  ("live_boolean", booleanity live) ::
  ((List.range words).flatMap fun j => (List.range gapBits).map fun i =>
    ("gap" ++ toString j ++ "_" ++ toString i ++ "_boolean", booleanity (gapBit j i))) ++
  ((List.range baseLowBits).map fun i =>
    ("base_low" ++ toString i ++ "_boolean", booleanity (baseLowBit words i))) ++
  ((List.range baseRoomBits).map fun i =>
    ("base_room" ++ toString i ++ "_boolean", booleanity (baseRoomBit words i))) ++
  ((List.range words).map fun j =>
    ("addr_w" ++ toString j, quadratic [(neg (4 * j), live)]
      [(lit 1, live, word j wordAddr), (neg 1, live, base)])) ++
  ((List.range words).map fun j =>
    ("gap_w" ++ toString j, .quadratic (lit 0) [(.literal ((frameDelta : Fr) - 1), live)]
      ([(lit Clock.tsStep, live, cycle), (neg 1, live, word j wordReadTs)] ++
        maskedBits live gapBits 1 (gapBit j)))) ++
  [("base_aligned", quadratic [(neg GuestMemory.ramOrigin, live)]
      ((lit 1, live, base) :: maskedBits live baseLowBits 4 (baseLowBit words))),
    ("base_in_window", quadratic [(lit (2 ^ 31 - frameBytes), live)]
      ((neg 1, live, base) :: maskedBits live baseRoomBits 1 (baseRoomBit words)))]

/-- A value's words: 32 bytes, little-endian. -/
def wordsPerValue : ℕ := 8

/-- A value's word bits. -/
def valueBits : ℕ := 32 * wordsPerValue

/-- A value's canonicity bits: its differences' and its borrows. -/
def canonicityBits : ℕ := 32 * wordsPerValue + wordsPerValue

/-- The modulus by 32-bit limbs. -/
def modulusLimbs : List ℕ :=
  Montgomery.modulus.flatMap fun limb => [limb % 2 ^ 32, limb / 2 ^ 32]

/-- The weight of a value's word. -/
def wordWeight (k : ℕ) : Fr := ((2 ^ 32 : ℕ) : Fr) ^ k

/-- The terms that recompose a frame value from its words. -/
def valueTerms (first field : ℕ) : List (Coeff × PolyAddress) :=
  (List.range wordsPerValue).map fun k => (.literal (wordWeight k), word (first + k) field)

/-- The bits of a number taken away from a form. -/
def minusBits (count : ℕ) (bit : ℕ → PolyAddress) : List (Coeff × PolyAddress) :=
  (List.range count).map fun t => (neg (2 ^ t), bit t)

/-- A frame value's gates: each word a sum of bits, and the value below the
modulus by a chain of borrows. -/
def canonicalGates (name : String) (first field bits canon : ℕ) : List (String × GateDef) :=
  let borrow (i : ℕ) : PolyAddress := .witness (canon + 32 * wordsPerValue + i)
  ((List.range wordsPerValue).flatMap fun k => (List.range 32).map fun t =>
    (name ++ "_bit" ++ toString k ++ "_" ++ toString t ++ "_boolean",
      booleanity (.witness (bits + 32 * k + t)))) ++
  ((List.range canonicityBits).map fun i =>
    let which := if i < 32 * wordsPerValue then "diff" ++ toString (i / 32) ++ "_" ++ toString (i % 32)
      else "borrow" ++ toString (i - 32 * wordsPerValue)
    (name ++ "_" ++ which ++ "_boolean", booleanity (.witness (canon + i)))) ++
  ((List.range wordsPerValue).map fun k => (name ++ "_word" ++ toString k,
    linear ((lit 1, word (first + k) field) ::
      minusBits 32 fun t => .witness (bits + 32 * k + t)))) ++
  (modulusLimbs.mapIdx fun i limb => (name ++ "_canonical" ++ toString i,
    quadratic
      ([(neg limb, live), (lit (2 ^ 32), borrow i)] ++
        (if 0 < i then [(neg 1, borrow (i - 1))] else []) ++
        minusBits 32 fun t => .witness (canon + 32 * i + t))
      [(lit 1, live, word (first + i) field)])) ++
  [(name ++ "_below_modulus", linear [(lit 1, live), (neg 1, borrow (wordsPerValue - 1))])]

end Apogee.Delegation

/-! ## The scalar field's arithmetic family

One operation on field elements a row, read in their representation in memory:
the sum, the Montgomery product or the inverse. Every bound is a sum of bits.
-/

namespace Apogee.FrArith

open Delegation Gadgets

def opcodeWord : ℕ := 0
def aWord : ℕ := 1
def bWord : ℕ := aWord + wordsPerValue
/-- The first word of the result, which alone the call writes. -/
def outWord : ℕ := bWord + wordsPerValue
def frameWords : ℕ := outWord + wordsPerValue
def frameBytes : ℕ := 4 * frameWords

def opAdd : ℕ := 1
def opMul : ℕ := 2
/-- The inverse, and 0 of 0. -/
def opInv : ℕ := 3
/-- The operation codes, in selector order. -/
def ops : List ℕ := [opAdd, opMul, opInv]

/-- The first of a value's word bits: 0 for `a`, 1 for `b`, 2 for the result. -/
def valueBitsAt (v : ℕ) : ℕ := frameWitness frameWords + v * (valueBits + canonicityBits)

/-- The first of a value's canonicity bits. -/
def valueCanonAt (v : ℕ) : ℕ := valueBitsAt v + valueBits

def scalars : ℕ := 3 * (valueBits + canonicityBits)

def w (i : ℕ) : PolyAddress := .witness i

/-- The operation's selectors. -/
def selector (i : ℕ) : PolyAddress := w (frameWitness frameWords + scalars + i)
/-- `a·b`. -/
def prod : PolyAddress := w (frameWitness frameWords + scalars + 3)
/-- The inverse of `a`, and 0 where `a` is 0. -/
def inv : PolyAddress := w (frameWitness frameWords + scalars + 4)
/-- 1 on an inverse row whose operand is 0. -/
def isZero : PolyAddress := w (frameWitness frameWords + scalars + 5)

def witnessColumns : ℕ := frameWitness frameWords + scalars + 6

/-- `2^256`, from the radix's limbs. -/
def rho : Fr := ((FqOp.value Montgomery.radix : ℕ) : Fr)

def aTerms : List (Coeff × PolyAddress) := valueTerms aWord wordReadValue
def bTerms : List (Coeff × PolyAddress) := valueTerms bWord wordReadValue
def outTerms : List (Coeff × PolyAddress) := valueTerms outWord wordWriteValue

/-- A literal's value; the source panics on a challenge. -/
def literalOf : Coeff → Fr
  | .literal value => value
  | .challenge _ => 0

/-- The three values: name, first word and the field their words are read from. -/
def values : List (String × ℕ × ℕ) :=
  [("a", aWord, wordReadValue), ("b", bWord, wordReadValue), ("out", outWord, wordWriteValue)]

/-- The selectors' gates: each boolean, the opcode as their sum, one a live row. -/
def selectorGates : List (String × GateDef) :=
  (ops.mapIdx fun i op => ("selector" ++ toString op ++ "_boolean", booleanity (selector i))) ++
  [("opcode_rule", linear ((lit 1, word opcodeWord wordReadValue) ::
      ops.mapIdx fun i op => (neg op, selector i))),
    ("one_op_a_live_row", linear ((ops.mapIdx fun i _ => (lit 1, selector i)) ++
      [(neg 1, live)]))]

/-- The operations' gates: the product, the inverse and its zero test, and the
result as the selected one. -/
def operationGates : List (String × GateDef) :=
  [("prod_rule", quadratic [(lit 1, prod)] (aTerms.flatMap fun a => bTerms.map fun b =>
      (.literal (-(literalOf a.1 * literalOf b.1)), a.2, b.2))),
    ("inv_is_an_inverse", quadratic [(lit 1, isZero), (neg 1, selector 2)]
      (aTerms.map fun a => (a.1, a.2, inv))),
    ("is_zero_at_nonzero", quadratic [] (aTerms.map fun a => (a.1, a.2, isZero))),
    ("inverse_of_zero_is_zero", quadratic [] [(lit 1, isZero, inv)]),
    ("out_rule", quadratic outTerms
      (((aTerms ++ bTerms).map fun term => (.literal (-literalOf term.1), selector 0, term.2)) ++
        [(.literal (-rho⁻¹), selector 1, prod), (.literal (-(rho * rho)), selector 2, inv)]))]

/-- Everything the family adds beside its frame. -/
def gates : List (String × GateDef) :=
  writesBack outWord ++ selectorGates ++
    (values.mapIdx fun v value =>
      canonicalGates value.1 value.2.1 value.2.2 (valueBitsAt v) (valueCanonAt v)).flatten ++
    operationGates

def familyNames : List String :=
  ((["a", "b", "out"].flatMap fun name =>
    ((List.range wordsPerValue).flatMap fun k => (List.range 32).map fun t =>
      name ++ "_bit" ++ toString k ++ "_" ++ toString t) ++
    ((List.range wordsPerValue).flatMap fun k => (List.range 32).map fun t =>
      name ++ "_diff" ++ toString k ++ "_" ++ toString t) ++
    (List.range wordsPerValue).map fun k => name ++ "_borrow" ++ toString k) ++
  (ops.map fun op => "selector" ++ toString op)) ++ ["prod", "inv", "is_zero"]

/-- The circuit before assembly. -/
def body : Frame.Body where
  memory := memoryNames frameWords
  witness := witnessNames frameWords ++ familyNames
  setup := []
  virtuals := []
  reads := leavesWith AddressSpace.delegationFrArith frameWords [] false
  writes := leavesWith AddressSpace.delegationFrArith frameWords [] true
  enforcing := frameGates frameWords frameBytes ++ gates
  lookups := []
  channels := []

end Apogee.FrArith
