import Apogee.Circuit.Lookup
import Apogee.Constants

/-! # The shared gadgets

The witnessed-inverse zero test and the comparison that settles signed and
unsigned order in one degree-2 equation. Both are data; the families put them in
their own gate and lookup lists.
-/

namespace Apogee

/-- `Σ a·x + Σ b·y·z`, constant 0. -/
def quadratic (linear : List (Coeff × PolyAddress))
    (products : List (Coeff × PolyAddress × PolyAddress)) : GateDef :=
  .quadratic (lit 0) linear products

/-- `Σ a·x`, constant 0. -/
def linear (terms : List (Coeff × PolyAddress)) : GateDef := .linear terms (lit 0)

/-- `x − x·x`. -/
def booleanity (x : PolyAddress) : GateDef := quadratic [(lit 1, x)] [(neg 1, x, x)]

/-- `x` alone, a lookup expression. -/
def column (x : PolyAddress) : GateDef := linear [(lit 1, x)]

namespace Gadgets

/-- The zero test of the linear form `x`, with witness columns `inv` and `z`. -/
def isZero (x : List (Coeff × PolyAddress)) (inv z enable : PolyAddress) : List GateDef :=
  [.quadratic (lit 0) [(lit 1, z), (neg 1, enable)] (x.map fun term => (term.1, term.2, inv)),
    .quadratic (lit 0) [] (x.map fun term => (term.1, term.2, z))]

/-- One comparison `lhs < rhs`, signed or unsigned, by its columns. -/
structure Comparison where
  namePrefix : String
  selector : PolyAddress
  signed : List PolyAddress
  lhs : PolyAddress
  lhsHi : PolyAddress
  lhsSign : PolyAddress
  rhs : PolyAddress
  rhsHi : PolyAddress
  rhsSign : PolyAddress
  lt : PolyAddress
  gap : PolyAddress
  gapHi : PolyAddress

/-- `lhs − rhs − 2^w·sc·lhs_sign + 2^w·sc·rhs_sign + 2^w·lt − gap`. -/
def comparisonEquation (c : Comparison) (wordBits : ℕ) : GateDef :=
  .quadratic (lit 0)
    [(lit 1, c.lhs), (neg 1, c.rhs), (lit (2 ^ wordBits), c.lt), (neg 1, c.gap)]
    (c.signed.flatMap fun bit =>
      [(neg (2 ^ wordBits), bit, c.lhsSign), (lit (2 ^ wordBits), bit, c.rhsSign)])

/-- A halfword range obligation. -/
def range (name : String) (selector : PolyAddress) (expression : GateDef) : LookupExpr :=
  { name, channel := LookupChannel.range16, selector, tuple := [expression] }

/-- `value − 2^16·hi`, the low halfword of a 32-bit value. -/
def lowHalf (value hi : PolyAddress) : GateDef := linear [(lit 1, value), (neg (2 ^ 16), hi)]

/-- The two halfword obligations that bound a value to a word. -/
def range32 (name : String) (selector value hi : PolyAddress) : List LookupExpr :=
  [range (name ++ "_hi_range") selector (column hi),
    range (name ++ "_lo_range") selector (lowHalf value hi)]

/-- The two obligations that bound a key to `[0, 2^bits)`, `bits` below 16: a
halfword, and a halfword again once scaled. A scaled bound alone bounds nothing. -/
def keyBound (name : String) (x : PolyAddress) (bits : ℕ) (selector : PolyAddress) :
    List LookupExpr :=
  [range (name ++ "_range") selector (column x),
    range (name ++ "_scaled") selector (linear [(lit (2 ^ (16 - bits)), x)])]

/-- A lookup of the packed table, `(key + base, value, result)`. -/
def generic (name : String) (selector : PolyAddress) (base : ℕ) (key : PolyAddress)
    (value result : GateDef) : LookupExpr :=
  { name, channel := LookupChannel.generic, selector,
    tuple := [.linear [(lit 1, key)] (lit base), value, result] }

/-- A word's bytes' weights, low first. -/
def byteWeights : List ℕ := [1, 2 ^ 8, 2 ^ 16, 2 ^ 24]

/-- The bounds of a word's byte keys. -/
def byteKeyBounds (bytes : List PolyAddress) (selector : PolyAddress) : List LookupExpr :=
  (bytes.mapIdx fun j byte => keyBound ("byte_a" ++ toString j) byte 8 selector).flatten

/-- The lookups of the ANDs of two words' bytes. -/
def andBytes (bytesA bytesB bytesAnd : List PolyAddress) (selector : PolyAddress) :
    List LookupExpr :=
  (bytesA.zip (bytesB.zip bytesAnd)).mapIdx fun j byte =>
    generic ("and_byte_" ++ toString j) selector GenericTable.andBase byte.1 (column byte.2.1)
      (column byte.2.2)

/-- The sign lookup of a halfword: its key is the halfword over the sign base. -/
def getSign (name : String) (selector hi bit : PolyAddress) : LookupExpr :=
  { name, channel := LookupChannel.generic, selector,
    tuple := [.linear [(lit 1, hi)] (lit GenericTable.signBase), column bit, linear []] }

/-- The comparison at 32 bits: its gates and its lookups. -/
def comparison (c : Comparison) : List (String × GateDef) × List LookupExpr :=
  ([(c.namePrefix ++ "_order", comparisonEquation c 32),
    (c.namePrefix ++ "_lt_boolean", booleanity c.lt)],
   range32 (c.namePrefix ++ "_lhs") c.selector c.lhs c.lhsHi ++
   range32 (c.namePrefix ++ "_rhs") c.selector c.rhs c.rhsHi ++
   range32 (c.namePrefix ++ "_gap") c.selector c.gap c.gapHi ++
   [getSign (c.namePrefix ++ "_lhs_get_sign") c.selector c.lhsHi c.lhsSign,
    getSign (c.namePrefix ++ "_rhs_get_sign") c.selector c.rhsHi c.rhsSign])

end Gadgets

end Apogee

/-! ## The memory frame

An execution family's row carries one memory query for each role an instruction
of the family can play. The frame is the part of the circuit every such family
shares: the query columns, the multiset leaves, the booleanity, write-back and
x0 gates, and the timestamp-gap obligations.
-/

namespace Apogee

namespace Frame

/-- The row's cycle. -/
def cycle : PolyAddress := .memory 0

/-- A query's field: 1 exactly when the row is live and has the query. -/
def fieldMask : ℕ := 0
/-- A query's field: the address it reads and writes. -/
def fieldAddr : ℕ := 1
/-- A query's field: the timestamp of the write it reads. -/
def fieldReadTs : ℕ := 2
/-- A query's field: the value it reads. -/
def fieldReadValue : ℕ := 3
/-- A query's field: the value it writes. -/
def fieldWriteValue : ℕ := 4

/-- The query table's size. -/
def frameQueryCount : ℕ := 7

def pc : ℕ := 0
def rs1 : ℕ := 1
def rs2 : ℕ := 2
def load : ℕ := 3
def ram : ℕ := 4
def rd : ℕ := 5
def deleg : ℕ := 6

/-- Each query's name. -/
def frameNames : List String := ["pc", "rs1", "rs2", "load", "ram", "rd", "deleg"]

/-- The queries that write back what they read. -/
def frameReadOnly : List ℕ := [rs1, rs2, load]

/-- Each query's address space. The delegation mirror's is carried by a column. -/
def frameSpace : List ℕ :=
  [AddressSpace.pc, AddressSpace.reg, AddressSpace.reg, AddressSpace.ram, AddressSpace.ram,
    AddressSpace.reg, 0]

/-- Each query's in-cycle slot: its write is at `4·cycle + Δ`. -/
def frameDelta : List ℕ := [0, 1, 2, 2, 3, 3, 3]

/-- How far, at least, each query's write follows the write it reads. -/
def frameMinAdvance : List ℕ := [Clock.tsStep, 1, 1, 1, 1, 1, 1]

/-- One field of the query at a slot. -/
def frame (slot field : ℕ) : PolyAddress := .memory (1 + 5 * slot + field)

/-- The delegation type a request asks for, after a frame of `width` queries. -/
def delegSpace (width : ℕ) : PolyAddress := .memory (1 + 5 * width)

/-- The high chunk of a query's timestamp gap. -/
def gapHi (slot : ℕ) : PolyAddress := .witness slot

/-- The inverse of `rd`'s address. -/
def rdInv (width : ℕ) : PolyAddress := .witness width
/-- 1 exactly on a live `rd` query at address 0. -/
def rdIsZero (width : ℕ) : PolyAddress := .witness (width + 1)
/-- The value `rd` writes where its address is not 0. -/
def rdSelected (width : ℕ) : PolyAddress := .witness (width + 2)

/-- A query's tuple over the frame's columns, its terms grouped by part: space,
address, timestamp and value. -/
def tuple (query at' : ℕ) (write : Bool) (space : Option PolyAddress) : GateDef :=
  let mask := frame at' fieldMask
  let spaceTerms :=
    if query = deleg then [(lit 1, space.getD mask)]
    else [(lit (frameSpace.getD query 0), mask)]
  let addrTerms := [(Coeff.challenge ChallengeSlot.memAlphaAddr, frame at' fieldAddr)]
  let alphaTs := Coeff.challenge ChallengeSlot.memAlphaTs
  let tsTerms :=
    if write then
      List.replicate Clock.tsStep (alphaTs, cycle) ++
        List.replicate (frameDelta.getD query 0) (alphaTs, mask)
    else [(alphaTs, frame at' fieldReadTs)]
  let value := if write then fieldWriteValue else fieldReadValue
  let valueTerms := [(Coeff.challenge ChallengeSlot.memAlphaVal, frame at' value)]
  .linear (spaceTerms ++ addrTerms ++ tsTerms ++ valueTerms) (.challenge ChallengeSlot.memGamma)

/-- A product-tree leaf: the tuple where the mask is 1, and 1 where it is 0. A
term already on the mask enters once. The source panics on a non-linear tuple. -/
def leaf (tuple : GateDef) (mask : PolyAddress) : GateDef :=
  match tuple with
  | .linear terms constant =>
    .quadratic (lit 1)
      ([(constant, mask), (neg 1, mask)] ++ terms.filter fun term => term.2 = mask)
      ((terms.filter fun term => term.2 ≠ mask).map fun term => (term.1, term.2, mask))
  | other => other

/-- A read-only query writes back what it read. -/
def writeBack (at' : ℕ) : GateDef :=
  linear [(lit 1, frame at' fieldWriteValue), (neg 1, frame at' fieldReadValue)]

/-- The x0 rule on `rd`: the written value is the selected one, or zero at
address zero. -/
def x0Gates (at' width : ℕ) : List (String × GateDef) :=
  List.zip ["rd_is_zero_inverse", "rd_is_zero_at_nonzero"]
    (Gadgets.isZero [(lit 1, frame at' fieldAddr)] (rdInv width) (rdIsZero width)
      (frame at' fieldMask)) ++
  [("rd_is_zero_boolean", booleanity (rdIsZero width)),
    ("rd_write_masked",
      quadratic [(lit 1, frame at' fieldWriteValue), (neg 1, rdSelected width)]
        [(lit 1, rdIsZero width, rdSelected width)])]

/-- A query's two timestamp-gap obligations over its high chunk. -/
def gapLookups (query at' : ℕ) : List LookupExpr :=
  let name := frameNames.getD query ""
  let selector := frame at' fieldMask
  let chunk := 2 ^ LookupChannel.bits.getD LookupChannel.timestamp 0
  [{ name := "gap_hi_" ++ name, channel := LookupChannel.timestamp, selector,
     tuple := [linear [(lit 1, gapHi at')]] },
   { name := "gap_lo_" ++ name, channel := LookupChannel.timestamp, selector,
     tuple := [.linear
       [(lit Clock.tsStep, cycle), (neg 1, frame at' fieldReadTs), (neg chunk, gapHi at')]
       (.literal ((frameDelta.getD query 0 : ℕ) - (frameMinAdvance.getD query 0 : ℕ)))] }]

end Frame

/-- A family's own sub-circuit, beside its memory frame. -/
structure FamilySpec where
  witness : List String
  setup : List String
  virtuals : List (VirtualKind × String)
  enforcing : List (String × GateDef)
  lookups : List LookupExpr
  channels : List ChannelSpec

namespace Frame

/-- Everything a family's circuit is assembled from: its columns by subtree, the
two sides' product-tree leaves, its enforcing gates and its obligations. -/
structure Body where
  memory : List String
  witness : List String
  setup : List String
  virtuals : List (VirtualKind × String)
  reads : List (String × GateDef)
  writes : List (String × GateDef)
  enforcing : List (String × GateDef)
  lookups : List LookupExpr
  channels : List ChannelSpec

/-- The frame's own enforcing gates: booleanity of every mask, the read-only
queries' write-back, and the x0 rule. -/
def frameEnforcing (queries : List ℕ) : List (String × GateDef) :=
  (queries.mapIdx fun at' query =>
    (frameNames.getD query "" ++ "_mask_boolean", booleanity (frame at' fieldMask))) ++
  (queries.mapIdx fun at' query => (at', query)).filterMap (fun slot =>
    if slot.2 ∈ frameReadOnly then
      some (frameNames.getD slot.2 "" ++ "_writes_back", writeBack slot.1)
    else none) ++
  match queries.findIdx? (· = rd) with
  | some at' => x0Gates at' queries.length
  | none => []

/-- The frame's own obligations: two for each read. -/
def frameGaps (queries : List ℕ) : List LookupExpr :=
  (queries.mapIdx fun at' query => gapLookups query at').flatten

/-- One side's leaves, padded to a power of two with leaves that are 1. -/
def frameLeaves (queries : List ℕ) (write : Bool) : List (String × GateDef) :=
  let side := if write then "write" else "read"
  let space := if deleg ∈ queries then some (delegSpace queries.length) else none
  (queries.mapIdx fun at' query =>
    (side ++ "_" ++ frameNames.getD query "",
      leaf (tuple query at' write space) (frame at' fieldMask))) ++
  (List.range (Nat.nextPowerOfTwo queries.length - queries.length)).map fun i =>
    (side ++ "_pad_" ++ toString i, .linear [] (lit 1))

/-- A family's circuit before assembly: the frame over its queries, then its own
columns, gates and lookups. -/
def frameBody (queries : List ℕ) (spec : FamilySpec) : Body where
  memory := "cycle" :: queries.flatMap (fun query =>
    ["mask", "addr", "read_ts", "read_value", "write_value"].map fun field =>
      frameNames.getD query "" ++ "_" ++ field) ++
    if deleg ∈ queries then ["deleg_space"] else []
  witness := (queries.map fun query => frameNames.getD query "" ++ "_gap_hi") ++
    (if rd ∈ queries then ["rd_inv", "rd_is_zero", "rd_selected"] else []) ++ spec.witness
  setup := spec.setup
  virtuals := spec.virtuals
  reads := frameLeaves queries false
  writes := frameLeaves queries true
  enforcing := frameEnforcing queries ++ spec.enforcing
  lookups := frameGaps queries ++ spec.lookups
  channels := spec.channels

end Frame

end Apogee

/-! ## The families' shared vocabulary

The rules every execution family writes over its frame: which queries a live row
makes, at which addresses, what an absent operand reads, and how the packed mask
ties to its bits. A row satisfies a family's circuit when every enforcing gate
vanishes on it and every obligation of the channels at hand holds.
-/

namespace Apogee

open Frame Gadgets

namespace Family

/-- The row's liveness. -/
def pcMask : PolyAddress := frame 0 fieldMask

/-- `m_q − m_pc·Σ uses`: a query is present exactly on a live row that uses it. -/
def maskRule (mask : PolyAddress) (uses : List PolyAddress) : GateDef :=
  quadratic [(lit 1, mask)] (uses.map fun use => (neg 1, pcMask, use))

/-- `m_q·(a_q − decoded)`: a present query's address is the decoded one. -/
def addrRule (slot : ℕ) (decoded : PolyAddress) : GateDef :=
  quadratic [] [(lit 1, frame slot fieldMask, frame slot fieldAddr),
    (neg 1, frame slot fieldMask, decoded)]

/-- `m_q·(a_q − 4·word_index)`: a present memory query's address is a word's. -/
def wordAddrRule (slot : ℕ) (wordIndex : PolyAddress) : GateDef :=
  quadratic [] [(lit 1, frame slot fieldMask, frame slot fieldAddr),
    (neg 4, frame slot fieldMask, wordIndex)]

/-- `v_q − m_q·v_q`: an absent operand reads 0. -/
def valueMasked (slot : ℕ) : GateDef :=
  quadratic [(lit 1, frame slot fieldReadValue)]
    [(neg 1, frame slot fieldMask, frame slot fieldReadValue)]

/-- A halfword obligation under the row's liveness. -/
def range16 (name : String) (expression : GateDef) : LookupExpr := range name pcMask expression

/-- The booleanity of every kind bit. -/
def kindBooleans (names : List String) (kinds : List PolyAddress) : List (String × GateDef) :=
  (names.zip kinds).map fun kind => ("kind_" ++ kind.1 ++ "_boolean", booleanity kind.2)

/-- The packed mask is the sum of its bits. -/
def decodedMaskBits (kinds : List PolyAddress) (mask : PolyAddress) : GateDef :=
  linear ((kinds.mapIdx fun k bit => (lit (2 ^ k), bit)) ++ [(neg 1, mask)])

/-- The decoded row's lookup. -/
def decodeRow (columns : List PolyAddress) : LookupExpr :=
  { name := "decode_row", channel := LookupChannel.decoder, selector := pcMask,
    tuple := columns.map column }

/-- The multiplicity columns' names. -/
def multiplicityNames (channels : List ℕ) : List String :=
  channels.map fun channel => "mult_" ++ LookupChannel.names.getD channel ""

/-- The packed generic table's columns, after a decoded table of some width. -/
def genericTableAfter (tableWidth : ℕ) : List PolyAddress :=
  [.setup tableWidth, .setup (tableWidth + 1), .setup (tableWidth + 2)]

/-- The channels of a family that reads every table: the timestamp gaps, the
halfwords, the packed generic table and the decoded table. -/
def fourChannels (multiplicities : List PolyAddress) (tableWidth : ℕ) : List ChannelSpec :=
  let multiplicity := fun i => multiplicities.getD i (.witness 0)
  [⟨LookupChannel.timestamp, [.virtual .range19], multiplicity 0⟩,
    ⟨LookupChannel.range16, [.virtual .range16], multiplicity 1⟩,
    ⟨LookupChannel.generic, genericTableAfter tableWidth, multiplicity 2⟩,
    ⟨LookupChannel.decoder, (List.range tableWidth).map .setup, multiplicity 3⟩]

end Family

/-- A row satisfies a circuit's gates and its obligations on some channels. -/
structure RowSatisfies (challenges : ExternalChallenges) (decoded : List (List Fr)) (row : Row)
    (body : Body) (channels : List ℕ) : Prop where
  enforcing : ∀ gate ∈ body.enforcing, gate.2.value challenges row = 0
  lookups : ∀ lookup ∈ body.lookups, lookup.channel ∈ channels →
    lookup.Holds challenges decoded row

/-- A row of a family's circuit keeps the family's own gates and obligations. -/
theorem RowSatisfies.family {challenges : ExternalChallenges} {decoded : List (List Fr)} {row : Row}
    {queries channels : List ℕ} {spec : FamilySpec}
    (satisfied : RowSatisfies challenges decoded row (frameBody queries spec) channels) :
    (∀ gate ∈ spec.enforcing, gate.2.value challenges row = 0) ∧
      ∀ lookup ∈ spec.lookups, lookup.channel ∈ channels → lookup.Holds challenges decoded row :=
  ⟨fun gate member => satisfied.enforcing gate (List.mem_append_right _ member),
    fun lookup member => satisfied.lookups lookup (List.mem_append_right _ member)⟩

/-- A row by its memory and witness columns, every other address reading 0. The
witness columns listed apart hold inverses. -/
def Row.ofColumns (memory witness : List ℤ) (inverses : List (ℕ × ℤ)) : Row
  | .memory i => ((memory.getD i 0 : ℤ) : Fr)
  | .witness i => match inverses.lookup i with
    | some value => ((value : ℤ) : Fr)⁻¹
    | none => ((witness.getD i 0 : ℤ) : Fr)
  | _ => 0

/-- A row whose gates and obligations evaluate to what they should satisfies the
circuit. -/
theorem RowSatisfies.of_check {challenges : ExternalChallenges} {decoded : List (List Fr)}
    {row : Row} {body : Body} {channels : List ℕ}
    (gates : body.enforcing.all (fun gate => decide (gate.2.value challenges row = 0)) = true)
    (tables : body.lookups.all (fun lookup => !decide (lookup.channel ∈ channels) ||
      channelCheck decoded lookup.channel (lookup.gatedTuple challenges row)) = true) :
    RowSatisfies challenges decoded row body channels where
  enforcing := fun gate member => of_decide_eq_true (List.all_eq_true.mp gates gate member)
  lookups := by
    intro lookup member inside
    have check := List.all_eq_true.mp tables lookup member
    simp only [inside, decide_true, Bool.not_true, Bool.false_or] at check
    exact channelTable_of_check check

end Apogee
