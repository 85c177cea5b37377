import Apogee.Circuit.Delegation

/-! # The base-field operation family

One operation a row over elements of BN254's base field, each four field cells
of 64-bit limbs, lazily reduced. One identity `a·y + z = q·K + d'` serves every
operation, checked over groups of 128 bits with signed carries. An indirect
operand's element is chosen by the value of the digit cell.
-/

namespace Apogee.FqOp

open Delegation Gadgets

def opWord : ℕ := 0
def dWord : ℕ := 1
def aWord : ℕ := 2
def bWord : ℕ := 3

def frameWords : ℕ := 4
def frameBytes : ℕ := 4 * frameWords

/-- `d ≡ a·b`. -/
def mul : ℕ := 1
/-- `d ≡ a + b`. -/
def add : ℕ := 2
/-- `d ≡ a − b`. -/
def sub : ℕ := 3
/-- `a·b ≡ d`, `d` kept. -/
def muleq : ℕ := 4
/-- `d = a_0 + 2^128·a_1`, from two cells below `2^128`. -/
def from128 : ℕ := 5
/-- Every code, ascending. -/
def ops : List ℕ := [mul, add, sub, muleq, from128]

/-- The code's bits in the operation word. -/
def codeBits : ℕ := 3
/-- The flags that make an operand indirect. -/
def flagD : ℕ := 1 * 2 ^ codeBits
def flagA : ℕ := 2 * 2 ^ codeBits
def flagB : ℕ := 4 * 2 ^ codeBits
/-- The digit cell is the operation word shifted down by this much. -/
def digitShift : ℕ := codeBits + 3
/-- A bucket's cells. -/
def bucketCells : ℕ := 8
/-- An element's cells. -/
def elementCells : ℕ := 4

/-- The modulus, by its 64-bit limbs. -/
def q : List ℕ :=
  [0x3c208c16d87cfd47, 0x97816a916871ca8d, 0xb85045b68181585d, 0x30644e72e131a029]
/-- A limb of the modulus. -/
def qLimb (i : ℕ) : ℕ := q.getD i 0
/-- The multiple of the modulus a subtraction adds. -/
def subMultiple : ℕ := 6

/-- The in-cycle slots: the digit cell, then the operands. -/
def deltaG : ℕ := 0
def deltaA : ℕ := 1
def deltaB : ℕ := 2
def deltaD : ℕ := 3

/-- The frame's columns, which the family's own follow. -/
def frameMemory : ℕ := headColumns + 4 * frameWords
def frameWitness : ℕ := frameWitnessRange16 frameWords

def m (i : ℕ) : PolyAddress := .memory (frameMemory + i)
def w (i : ℕ) : PolyAddress := .witness (frameWitness + i)

/-- The digit cell. -/
def gAddr : PolyAddress := m 0
def gReadTs : PolyAddress := m 1
/-- Its value. -/
def digit : PolyAddress := m 2
/-- The cell of an operand's first limb. -/
def aAddr : PolyAddress := m 3
def bAddr : PolyAddress := m 12
def dAddr : PolyAddress := m 18
/-- The read timestamps: each cell of `a`'s its own, one for `b`'s, one for `d`'s. -/
def aReadTs (i : ℕ) : PolyAddress := m (4 + i)
def bReadTs : PolyAddress := m 13
def dReadTs : PolyAddress := m 19
/-- An operand's limbs. -/
def a (i : ℕ) : PolyAddress := m (8 + i)
def b (i : ℕ) : PolyAddress := m (14 + i)
/-- `d` before the row, and after it. -/
def dOld (i : ℕ) : PolyAddress := m (20 + i)
def dNew (i : ℕ) : PolyAddress := m (24 + i)

/-- The timestamp gaps: the digit cell's, `a`'s four, `b`'s and `d`'s. -/
def gaps : ℕ := 7
/-- A gap's high chunk. -/
def gapHi (k : ℕ) : PolyAddress := w k
/-- The selector of the operation of code `i + 1`. -/
def selector (i : ℕ) : PolyAddress := w (7 + i)
def indD : PolyAddress := w 12
def indA : PolyAddress := w 13
def indB : PolyAddress := w 14
/-- A limb of the multiplier. -/
def y (j : ℕ) : PolyAddress := w (15 + j)
/-- An upper chunk of a new limb, `c` from 1. -/
def dChunk (i c : ℕ) : PolyAddress := w (19 + 3 * i + c - 1)
/-- A chunk of the quotient's limb. -/
def kChunk (j c : ℕ) : PolyAddress := w (31 + 4 * j + c)
/-- A chunk of a carry over its offset. -/
def carryChunk (g c : ℕ) : PolyAddress := w (47 + 4 * g + c)
def multTimestamp : PolyAddress := w 59
def multRange16 : PolyAddress := w 60
def witnessColumns : ℕ := frameWitness + 61

/-- A carry's offset, as a power of two. -/
def carryOffsetBits : ℕ := 75

/-- The selector of an operation. -/
def sel (code : ℕ) : PolyAddress := selector (code - 1)

/-- A frame word's value. -/
def frame (j : ℕ) : PolyAddress := word j wordReadValue

/-- `2^n`. -/
def pow2 (n : ℕ) : Fr := ((2 ^ n : ℕ) : Fr)

/-- A term put into a sum: a multiple of a column, or of two columns' product. -/
inductive Item
  | lin (k : Fr) (x : PolyAddress)
  | prod (k : Fr) (x y : PolyAddress)

/-- `Σ k·x + Σ k·y·z`, with each column's linear coefficients merged. -/
structure Sum where
  lin : List (Fr × PolyAddress) := []
  prod : List (Fr × PolyAddress × PolyAddress) := []

namespace Sum

/-- A column's coefficient added to the one it has, or appended. -/
def merge (k : Fr) (x : PolyAddress) : List (Fr × PolyAddress) → List (Fr × PolyAddress)
  | [] => [(k, x)]
  | term :: terms =>
    if term.2 = x then (term.1 + k, term.2) :: terms else term :: merge k x terms

/-- A sum with one more term. -/
def push (sum : Sum) : Item → Sum
  | .lin k x => { sum with lin := merge k x sum.lin }
  | .prod k x y => { sum with prod := sum.prod ++ [(k, x, y)] }

/-- The sum as a gate, without the columns whose coefficients cancelled. -/
def gate (sum : Sum) : GateDef :=
  quadratic ((sum.lin.filter fun term => term.1 ≠ 0).map fun term => (.literal term.1, term.2))
    (sum.prod.map fun term => (.literal term.1, term.2))

end Sum

/-- A quotient limb's chunks' width. -/
def kBits (j : ℕ) : ℕ := if j < 3 then 16 else 19

/-- The weight of a chunk in the quotient's limb. -/
def kWeight (j c : ℕ) : Fr := pow2 (kBits j * c)

/-- A multiple of a carry: its chunks, less the offset on a live row. -/
def carry (g : ℕ) (k : Fr) : List Item :=
  ((List.range 4).map fun c => .lin (k * pow2 (19 * c)) (carryChunk g c)) ++
    [.lin (-k * pow2 carryOffsetBits) live]

/-- The identity's terms at a limb's place, under a scale. -/
def place (scale : Fr) (k : ℕ) : List Item :=
  ((List.range 4).flatMap fun i =>
    if i ≤ k ∧ k - i < 4 then
      .prod scale (a i) (y (k - i)) ::
        (List.range 4).map fun c =>
          .lin (-scale * ((qLimb i : ℕ) : Fr) * kWeight (k - i) c) (kChunk (k - i) c)
    else []) ++
  if k < 4 then
    [.prod scale (sel add) (b k), .prod (-scale) (sel sub) (b k),
      .lin (scale * ((subMultiple : ℕ) : Fr) * ((qLimb k : ℕ) : Fr)) (sel sub),
      .prod scale (sel from128) (dNew k), .lin (-scale) (dNew k)]
  else []

/-- The terms of a group's equation: its two places, the carry in, and the carry
out of every group but the last. -/
def groupItems (g : ℕ) : List Item :=
  place (pow2 0) (2 * g) ++ place (pow2 64) (2 * g + 1) ++
    (if 0 < g then carry (g - 1) 1 else []) ++ if g < 3 then carry g (-pow2 128) else []

/-- A group's equation. -/
def group (g : ℕ) : GateDef := ((groupItems g).foldl Sum.push {}).gate

/-- A gap's name, read timestamp and slot. -/
def gap (k : ℕ) : String × PolyAddress × ℕ :=
  if k = 0 then ("g", gReadTs, deltaG)
  else if k ≤ 4 then ("a" ++ toString (k - 1), aReadTs (k - 1), deltaA)
  else if k = 5 then ("b", bReadTs, deltaB)
  else ("d", dReadTs, deltaD)

/-- An access to a cell, at a gap's slot. -/
def access (name : String) (addr : PolyAddress) (offset k : ℕ) (read write : PolyAddress) :
    Access where
  name := name
  space := AddressSpace.field
  mask := live
  addr := addr
  offset := offset
  delta := (gap k).2.2
  readTs := (gap k).2.1
  read := read
  write := write
  gap := [gapHi k, gapHi k]

/-- The thirteen cells' accesses: the digit's, then the operands'. -/
def accesses : List Access :=
  access "g" gAddr 0 0 digit digit ::
    ((List.range elementCells).map fun i =>
      access ("a" ++ toString i) aAddr i (1 + i) (a i) (a i)) ++
    ((List.range elementCells).map fun i => access ("b" ++ toString i) bAddr i 5 (b i) (b i)) ++
    (List.range elementCells).map fun i => access ("d" ++ toString i) dAddr i 6 (dOld i) (dNew i)

/-- A chunk obligation of 19 bits. -/
def ts19 (name : String) (terms : List (Coeff × PolyAddress)) (constant : Coeff) : LookupExpr :=
  { name, channel := LookupChannel.timestamp, selector := live, tuple := [.linear terms constant] }

/-- A chunk obligation of 16 bits. -/
def r16 (name : String) (terms : List (Coeff × PolyAddress)) : LookupExpr :=
  range name live (linear terms)

/-- The gaps' obligations. -/
def gapLookups : List LookupExpr :=
  (List.range gaps).flatMap fun k =>
    [ts19 ("gap_" ++ (gap k).1 ++ "_hi_range") [(lit 1, gapHi k)] (lit 0),
      ts19 ("gap_" ++ (gap k).1 ++ "_lo_range")
        [(lit Clock.tsStep, cycle), (neg 1, (gap k).2.1), (neg (2 ^ 19), gapHi k)]
        (.literal (((gap k).2.2 : Fr) - 1))]

/-- The new limbs' obligations. -/
def limbLookups : List LookupExpr :=
  (List.range elementCells).flatMap fun i =>
    ([1, 2, 3].map fun c =>
      r16 ("n" ++ toString i ++ "_c" ++ toString c ++ "_range") [(lit 1, dChunk i c)]) ++
    [r16 ("n" ++ toString i ++ "_c0_range") ((lit 1, dNew i) ::
      [1, 2, 3].map fun c => (neg (2 ^ (16 * c)), dChunk i c))]

/-- The quotient's obligations. -/
def quotientLookups : List LookupExpr :=
  (List.range 4).flatMap fun j => (List.range 4).map fun c =>
    let name := "k" ++ toString j ++ "_c" ++ toString c ++ "_range"
    if j = 3 then ts19 name [(lit 1, kChunk j c)] (lit 0) else r16 name [(lit 1, kChunk j c)]

/-- The carries' obligations. -/
def carryLookups : List LookupExpr :=
  (List.range 3).flatMap fun g => (List.range 4).map fun c =>
    ts19 ("carry" ++ toString g ++ "_c" ++ toString c ++ "_range") [(lit 1, carryChunk g c)] (lit 0)

/-- Every obligation the family adds beside its frame's. -/
def lookups : List LookupExpr := gapLookups ++ limbLookups ++ quotientLookups ++ carryLookups

/-- The selectors' and the flags' gates: each boolean, one operation a live row,
and the word the frame holds. -/
def selectorGates : List (String × GateDef) :=
  (ops.map fun code => ("op" ++ toString code ++ "_boolean", booleanity (sel code))) ++
  ([("ind_d", indD), ("ind_a", indA), ("ind_b", indB)].map fun flag =>
    (flag.1 ++ "_boolean", booleanity flag.2)) ++
  [("one_op_a_live_row", linear ((neg 1, live) :: ops.map fun code => (lit 1, sel code))),
    ("op_word", linear ((neg 1, frame opWord) :: (ops.map fun code => (lit code, sel code)) ++
      [(lit flagD, indD), (lit flagA, indA), (lit flagB, indB), (lit (2 ^ digitShift), gAddr)]))]

/-- Each element's address. -/
def addressGates : List (String × GateDef) :=
  [("d", dAddr, dWord, indD), ("a", aAddr, aWord, indA), ("b", bAddr, bWord, indB)].map
    fun element => (element.1 ++ "_addr_rule",
      quadratic [(lit 1, element.2.1), (neg 1, frame element.2.2.1)]
        [(neg bucketCells, element.2.2.2, digit)])

/-- The multiplier: `b` on the products, 1 on the sums. -/
def yGates : List (String × GateDef) :=
  (List.range 4).map fun j => ("y" ++ toString j ++ "_rule",
    quadratic ((lit 1, y j) :: if j = 0 then [(neg 1, sel add), (neg 1, sel sub)] else [])
      [(neg 1, sel mul, b j), (neg 1, sel muleq, b j)])

/-- What an operation asks of `d` beside the identity. -/
def operationGates : List (String × GateDef) :=
  ((List.range elementCells).map fun i => ("muleq_keeps_d" ++ toString i,
    quadratic [] [(lit 1, sel muleq, dNew i), (neg 1, sel muleq, dOld i)])) ++
  [(0, 0, 1), (1, 2, 3)].map fun half : ℕ × ℕ × ℕ => ("from128_half" ++ toString half.1,
    quadratic [] [(lit 1, sel from128, dNew half.2.1), (lit (2 ^ 64), sel from128, dNew half.2.2),
      (neg 1, sel from128, a half.1)])

/-- Everything the family adds beside its frame. -/
def gates : List (String × GateDef) :=
  selectorGates ++ addressGates ++ yGates ++ operationGates ++
    (List.range 4).map fun g => ("group" ++ toString g, group g)

def memoryNames : List String :=
  Delegation.memoryNames frameWords ++ ["g_addr", "g_read_ts", "digit", "a_addr"] ++
    ((List.range elementCells).map fun i => "a_read_ts" ++ toString i) ++
    ((List.range elementCells).map fun i => "a" ++ toString i) ++ ["b_addr", "b_read_ts"] ++
    ((List.range elementCells).map fun i => "b" ++ toString i) ++ ["d_addr", "d_read_ts"] ++
    ((List.range elementCells).map fun i => "d" ++ toString i) ++
    (List.range elementCells).map fun i => "n" ++ toString i

def witnessNames : List String :=
  frameNamesRange16 frameWords ++ ((List.range gaps).map fun k => "gap_" ++ (gap k).1 ++ "_hi") ++
    (ops.map fun code => "op" ++ toString code) ++ ["ind_d", "ind_a", "ind_b"] ++
    ((List.range 4).map fun j => "y" ++ toString j) ++
    ((List.range elementCells).flatMap fun i =>
      [1, 2, 3].map fun c => "n" ++ toString i ++ "_c" ++ toString c) ++
    ((List.range 4).flatMap fun j =>
      (List.range 4).map fun c => "k" ++ toString j ++ "_c" ++ toString c) ++
    ((List.range 3).flatMap fun g =>
      (List.range 4).map fun c => "carry" ++ toString g ++ "_c" ++ toString c) ++
    ["mult_timestamp", "mult_range16"]

/-- The circuit before assembly. -/
def body : Frame.Body where
  memory := memoryNames
  witness := witnessNames
  setup := []
  virtuals := [(.range19, "range19"), (.range16, "range16")]
  reads := leavesWith AddressSpace.delegationFqOp frameWords accesses false
  writes := leavesWith AddressSpace.delegationFqOp frameWords accesses true
  enforcing := readOnlyGates frameWords frameBytes ++ gates
  lookups := frameLookupsRange16 frameWords ++ lookups
  channels := [⟨LookupChannel.timestamp, [.virtual .range19], multTimestamp⟩,
    ⟨LookupChannel.range16, [.virtual .range16], multRange16⟩]

example : body.memory.length = 48 ∧ body.witness.length = witnessColumns := by decide

end Apogee.FqOp
