import Apogee.Circuit.Delegation

/-! # The field-operation family

One field operation a row over cells of the field memory. The cells are the
frame's words, each access has a mask its operation's selector sets, and one
product serves every operation that multiplies.
-/

namespace Apogee.FrOp

open Delegation Gadgets

def opWord : ℕ := 0
def dWord : ℕ := 1
def aWord : ℕ := 2
/-- The second operand's cell, or the integer an immediate operation reads. -/
def bWord : ℕ := 3

def frameWords : ℕ := 4
def frameBytes : ℕ := 4 * frameWords

/-- `d = a·b`. -/
def mul : ℕ := 1
/-- `d = a + b`. -/
def add : ℕ := 2
/-- `d = a − b`. -/
def sub : ℕ := 3
/-- `d = d + a·b`. -/
def mac : ℕ := 4
/-- `d = a⁻¹`, and 0 at `a = 0`. -/
def inv : ℕ := 5
/-- `a = b`, writing nothing. -/
def eq : ℕ := 6
/-- `d` is the frame word. -/
def imm : ℕ := 7
/-- `d = a·2^32` plus the frame word. -/
def shl : ℕ := 8
/-- `a = d + 2^8·b` with `d` a byte, writing both. -/
def digit : ℕ := 9
/-- Every code, ascending. -/
def ops : List ℕ := [mul, add, sub, mac, inv, eq, imm, shl, digit]

/-- A digit's width. -/
def digitBits : ℕ := 8

/-- The accesses' in-cycle slots: distinct, so two may name one cell. -/
def deltaA : ℕ := 0
def deltaB : ℕ := 1
def deltaD : ℕ := 2

/-- The frame's memory columns, which the family's own follow. -/
def frameMemory : ℕ := headColumns + 4 * frameWords
/-- The frame's witness columns, which the family's own follow. -/
def frameWitness : ℕ := frameWitnessRange16 frameWords

def m (i : ℕ) : PolyAddress := .memory (frameMemory + i)
def w (i : ℕ) : PolyAddress := .witness (frameWitness + i)

/-- Whether the row reads `a`. -/
def aLive : PolyAddress := m 0
def aReadTs : PolyAddress := m 1
def a : PolyAddress := m 2
/-- Whether the row reads `b`. -/
def bLive : PolyAddress := m 3
def bReadTs : PolyAddress := m 4
def b : PolyAddress := m 5
/-- `b` after the row. -/
def bNew : PolyAddress := m 6
/-- Whether the row writes `d`. -/
def dLive : PolyAddress := m 7
def dReadTs : PolyAddress := m 8
def d : PolyAddress := m 9
/-- `d` after the row. -/
def dNew : PolyAddress := m 10

/-- A gap chunk of access `q`. -/
def gapChunk (q c : ℕ) : PolyAddress := w (gapChunks * q + c)
/-- The selector of the operation of code `i + 1`. -/
def selector (i : ℕ) : PolyAddress := w (6 + i)
/-- The multiplicand. -/
def x : PolyAddress := w 15
def prod : PolyAddress := w 16
/-- The zero flag of an inversion. -/
def z : PolyAddress := w 17
def multiplicity : PolyAddress := w 18
def witnessColumns : ℕ := frameWitness + 19

/-- The selector of an operation. -/
def sel (code : ℕ) : PolyAddress := selector (code - 1)

/-- A frame word's value. -/
def frame (j : ℕ) : PolyAddress := word j wordReadValue

/-- The operations that read `a`. -/
def aOps : List ℕ := [mul, add, sub, mac, inv, eq, shl, digit]
/-- The operations that read `b`. -/
def bOps : List ℕ := [mul, add, sub, mac, eq, digit]
/-- The operations that write `d`. -/
def dOps : List ℕ := [mul, add, sub, mac, inv, imm, shl, digit]

/-- Access `q` to the field cell that a frame word names. -/
def access (q : ℕ) (name : String) (mask : PolyAddress) (word delta : ℕ)
    (readTs read write : PolyAddress) : Access where
  name := name
  space := AddressSpace.field
  mask := mask
  addr := frame word
  offset := 0
  delta := delta
  readTs := readTs
  read := read
  write := write
  gap := [gapChunk q 0, gapChunk q 1]

def aAccess : Access := access 0 "a" aLive aWord deltaA aReadTs a a
def bAccess : Access := access 1 "b" bLive bWord deltaB bReadTs b bNew
def dAccess : Access := access 2 "d" dLive dWord deltaD dReadTs d dNew

/-- The three accesses. -/
def accesses : List Access := [aAccess, bAccess, dAccess]

/-- The selectors' gates: each boolean, one a live row, and the operation the
frame names. -/
def selectorGates : List (String × GateDef) :=
  (ops.map fun code => ("op" ++ toString code ++ "_boolean", booleanity (sel code))) ++
  [("one_op_a_live_row", linear ((neg 1, live) :: ops.map fun code => (lit 1, sel code))),
    ("op_word", linear ((neg 1, frame opWord) :: ops.map fun code => (lit code, sel code)))]

/-- An access's mask: boolean, and on exactly at the operations that make it. -/
def maskGates (name : String) (mask : PolyAddress) (codes : List ℕ) : List (String × GateDef) :=
  [(name ++ "_live_boolean", booleanity mask),
    (name ++ "_live_rule", linear ((lit 1, mask) :: codes.map fun code => (neg 1, sel code)))]

/-- An equation under its operation's selector. -/
def rule (code : ℕ) (terms : List (Coeff × PolyAddress)) : GateDef :=
  quadratic [] (terms.map fun term => (term.1, sel code, term.2))

/-- What each operation writes. -/
def operationGates : List (String × GateDef) :=
  [("x_rule", quadratic [(lit 1, x)]
      [(neg 1, sel mul, b), (neg 1, sel mac, b), (neg 1, sel inv, dNew)]),
    ("prod_rule", quadratic [(lit 1, prod)] [(neg 1, a, x)]),
    ("mul_rule", rule mul [(lit 1, dNew), (neg 1, prod)]),
    ("add_rule", rule add [(lit 1, dNew), (neg 1, a), (neg 1, b)]),
    ("sub_rule", rule sub [(lit 1, dNew), (neg 1, a), (lit 1, b)]),
    ("mac_rule", rule mac [(lit 1, dNew), (neg 1, d), (neg 1, prod)]),
    ("eq_rule", rule eq [(lit 1, a), (neg 1, b)]),
    ("imm_rule", rule imm [(lit 1, dNew), (neg 1, frame bWord)]),
    ("shl_rule", rule shl [(lit 1, dNew), (neg (2 ^ 32), a), (neg 1, frame bWord)]),
    ("inv_rule", quadratic [(neg 1, sel inv)] [(lit 1, sel inv, prod), (lit 1, sel inv, z)]),
    ("digit_rule", quadratic []
      [(lit 1, sel digit, a), (neg 1, sel digit, dNew), (neg (2 ^ digitBits), sel digit, bNew)]),
    ("b_kept", quadratic [(lit 1, bNew), (neg 1, b)]
      [(neg 1, sel digit, bNew), (lit 1, sel digit, b)]),
    ("z_boolean", booleanity z),
    ("z_kills_a", quadratic [] [(lit 1, z, a)]),
    ("z_kills_d", quadratic [] [(lit 1, z, dNew)]),
    ("z_only_inv", quadratic [(lit 1, z)] [(neg 1, z, sel inv)])]

/-- Everything the family adds beside its frame. -/
def gates : List (String × GateDef) :=
  selectorGates ++ maskGates "a" aLive aOps ++ maskGates "b" bLive bOps ++
    maskGates "d" dLive dOps ++ operationGates

/-- The digit's byte: a halfword, and a halfword once scaled. -/
def digitLookups : List LookupExpr := keyBound "digit" dNew digitBits (sel digit)

def memoryNames : List String :=
  Delegation.memoryNames frameWords ++
    ["a_live", "a_read_ts", "a", "b_live", "b_read_ts", "b", "b_new", "d_live", "d_read_ts", "d",
      "d_new"]

def witnessNames : List String :=
  frameNamesRange16 frameWords ++
    (["a", "b", "d"].flatMap fun q => (List.range gapChunks).map fun c =>
      "gap_" ++ q ++ "_c" ++ toString c) ++
    (ops.map fun code => "op" ++ toString code) ++ ["x", "prod", "z", "mult_range16"]

/-- The circuit before assembly. -/
def body : Frame.Body where
  memory := memoryNames
  witness := witnessNames
  setup := []
  virtuals := [(.range16, "range16")]
  reads := leavesWith AddressSpace.delegationFrOp frameWords accesses false
  writes := leavesWith AddressSpace.delegationFrOp frameWords accesses true
  enforcing := readOnlyGates frameWords frameBytes ++ gates
  lookups := frameLookupsRange16 frameWords ++ accesses.flatMap Access.gapLookups ++ digitLookups
  channels := [⟨LookupChannel.range16, [.virtual .range16], multiplicity⟩]

end Apogee.FrOp
