import Apogee.Circuit.Frame

/-! # The jump, branch and set-less-than family

Twelve operations over one comparison: the branches and the set-less-than forms
read the same order bit, and the next pc is one of three sums reduced by one
wrap bit. The next pc's low halfword is looked up halved, which keeps it even.
-/

namespace Apogee.JumpBranchSlt

open Frame Gadgets Family

/-- The family's queries, in slot order. -/
def queries : List ℕ := [Frame.pc, rs1, rs2, rd]

def slotPc : ℕ := 0
def slotRs1 : ℕ := 1
def slotRs2 : ℕ := 2
def slotRd : ℕ := 3

/-- The frame's own witness columns. -/
def frameWitness : ℕ := 4 + 3

def w (i : ℕ) : PolyAddress := .witness (frameWitness + i)

/-- The claimed decoded row after its pc. -/
def decodedColumns : List PolyAddress := [w 0, w 1, w 2, w 3, w 4, w 5]

def seq : PolyAddress := w 0
def decodedRs1 : PolyAddress := w 1
def decodedRs2 : PolyAddress := w 2
def decodedRd : PolyAddress := w 3
def imm : PolyAddress := w 4
def decodedMask : PolyAddress := w 5

/-- The packed mask's bits, bit `k` at index `k`. -/
def kinds : List PolyAddress :=
  [w 6, w 7, w 8, w 9, w 10, w 11, w 12, w 13, w 14, w 15, w 16, w 17]

def slti : PolyAddress := w 6
def sltiu : PolyAddress := w 7
def slt : PolyAddress := w 8
def sltu : PolyAddress := w 9
def beq : PolyAddress := w 10
def bne : PolyAddress := w 11
def blt : PolyAddress := w 12
def bge : PolyAddress := w 13
def bltu : PolyAddress := w 14
def bgeu : PolyAddress := w 15
def jalr : PolyAddress := w 16
def jal : PolyAddress := w 17

/-- The comparison's right operand. -/
def cmpRhs : PolyAddress := w 18
def rs1Hi : PolyAddress := w 19
def rs1Sign : PolyAddress := w 20
def cmpRhsHi : PolyAddress := w 21
def cmpRhsSign : PolyAddress := w 22
/-- 1 exactly when `rs1 < cmp_rhs` in the order the row selects. -/
def lt : PolyAddress := w 23
def cmpGap : PolyAddress := w 24
def cmpGapHi : PolyAddress := w 25
/-- 1 exactly on a live row where `rs1 = cmp_rhs`. -/
def eq : PolyAddress := w 26
def eqInv : PolyAddress := w 27
/-- 1 exactly on a taken branch. -/
def taken : PolyAddress := w 28
/-- Bit 0 of `rs1 + imm` on a `jalr` row. -/
def jalrDrop : PolyAddress := w 29
/-- The wrap of whichever sum `next_pc` is. -/
def pcWrap : PolyAddress := w 30
def nextPcHi : PolyAddress := w 31
def rdHi : PolyAddress := w 32
/-- The channels' multiplicities. -/
def multiplicities : List PolyAddress := [w 33, w 34, w 35, w 36]

/-- The decoded table's width. -/
def tableWidth : ℕ := 7

/-- The decoded masks a live row of the family can carry. -/
def legalMasks : List ℕ :=
  [1 <<< 0, 1 <<< 1, 1 <<< 2, 1 <<< 3, 1 <<< 4, 1 <<< 5, 1 <<< 6, 1 <<< 7, 1 <<< 8, 1 <<< 9,
    1 <<< 10, 1 <<< 11]

/-- The kinds that compare signed. -/
def signed : List PolyAddress := [slti, slt, blt, bge]

def pc : PolyAddress := frame slotPc fieldReadValue
def nextPc : PolyAddress := frame slotPc fieldWriteValue
def vRs1 : PolyAddress := frame slotRs1 fieldReadValue
def vRs2 : PolyAddress := frame slotRs2 fieldReadValue
def sel : PolyAddress := rdSelected queries.length

/-- `(x − 2^16·hi)/2`, the low halfword halved. -/
def lowHalfHalved (x hi : PolyAddress) : GateDef :=
  linear [(.literal ((2 : ℕ) : Fr)⁻¹, x), (neg (2 ^ 15), hi)]

/-- The family's comparison, `rs1 < cmp_rhs`. -/
def theComparison : Comparison where
  namePrefix := "cmp"
  selector := pcMask
  signed := signed
  lhs := vRs1
  lhsHi := rs1Hi
  lhsSign := rs1Sign
  rhs := cmpRhs
  rhsHi := cmpRhsHi
  rhsSign := cmpRhsSign
  lt := lt
  gap := cmpGap
  gapHi := cmpGapHi

def kindNames : List String :=
  ["slti", "sltiu", "slt", "sltu", "beq", "bne", "blt", "bge", "bltu", "bgeu", "jalr", "jal"]

def branches : List PolyAddress := [beq, bne, blt, bge, bltu, bgeu]
def slts : List PolyAddress := [slti, sltiu, slt, sltu]
def rs1Uses : List PolyAddress := slts ++ branches ++ [jalr]
def rs2Uses : List PolyAddress := [slt, sltu] ++ branches
def rdUses : List PolyAddress := slts ++ [jalr, jal]

/-- The family's channels, in output order. -/
def channels : List ChannelSpec := fourChannels multiplicities tableWidth

/-- The gates that tie the mask to its bits and the queries to the kinds. -/
def operandGates : List (String × GateDef) :=
  [("decoded_mask_bits", decodedMaskBits kinds decodedMask),
    ("rs1_mask_rule", maskRule (frame slotRs1 fieldMask) rs1Uses),
    ("rs2_mask_rule", maskRule (frame slotRs2 fieldMask) rs2Uses),
    ("rd_mask_rule", maskRule (frame slotRd fieldMask) rdUses),
    ("rs1_addr_rule", addrRule slotRs1 decodedRs1),
    ("rs2_addr_rule", addrRule slotRs2 decodedRs2),
    ("rd_addr_rule", addrRule slotRd decodedRd),
    ("rs1_value_masked", valueMasked slotRs1),
    ("rs2_value_masked", valueMasked slotRs2)]

/-- The gates that compute the branch, the next pc and the written value. -/
def arithmeticGates : List (String × GateDef) :=
  [("cmp_rhs_rule", quadratic [(lit 1, cmpRhs), (neg 1, vRs2)]
      [(neg 1, slti, imm), (neg 1, sltiu, imm)])] ++
  (comparison theComparison).1 ++
  List.zip ["eq_inverse", "eq_at_nonzero"]
    (isZero [(lit 1, vRs1), (neg 1, cmpRhs)] eqInv eq pcMask) ++
  [("taken_rule", quadratic [(lit 1, taken), (neg 1, bne), (neg 1, bge), (neg 1, bgeu)]
      [(neg 1, beq, eq), (lit 1, bne, eq), (neg 1, blt, lt), (neg 1, bltu, lt), (lit 1, bge, lt),
        (lit 1, bgeu, lt)]),
    ("taken_boolean", booleanity taken),
    ("jalr_drop_boolean", booleanity jalrDrop),
    ("pc_wrap_boolean", booleanity pcWrap),
    -- The default arm of the next pc is the decoded fall-through.
    ("next_pc_rule", quadratic [(lit 1, nextPc), (lit (2 ^ 32), pcWrap), (neg 1, seq)]
      [(lit 1, taken, seq), (lit 1, jal, seq), (lit 1, jalr, seq), (neg 1, taken, pc),
        (neg 1, taken, imm), (neg 1, jal, pc), (neg 1, jal, imm), (neg 1, jalr, vRs1),
        (neg 1, jalr, imm), (lit 1, jalr, jalrDrop)]),
    ("rd_value_rule", quadratic [(lit 1, sel)]
      ([(neg 1, jal, seq), (neg 1, jalr, seq)] ++ slts.map fun b => (neg 1, b, lt)))]

/-- The family's sub-circuit: its columns, gates, lookups and channels. -/
def familySpec : FamilySpec where
  witness :=
    ["decoded_next_pc", "decoded_rs1", "decoded_rs2", "decoded_rd", "decoded_imm",
      "decoded_mask"] ++
    (kindNames.map fun kind => "kind_" ++ kind) ++
    ["cmp_rhs", "rs1_hi", "rs1_sign", "cmp_rhs_hi", "cmp_rhs_sign", "lt", "cmp_gap", "cmp_gap_hi",
      "eq", "eq_inv", "taken", "jalr_drop", "pc_wrap", "next_pc_hi", "rd_hi"] ++
    multiplicityNames [LookupChannel.timestamp, LookupChannel.range16, LookupChannel.generic,
      LookupChannel.decoder]
  setup :=
    ["table_pc", "table_next_pc", "table_rs1", "table_rs2", "table_rd", "table_imm",
      "table_extra_mask", "generic_key", "generic_value", "generic_result"]
  virtuals := [(.range19, "range19"), (.range16, "range16")]
  enforcing := kindBooleans kindNames kinds ++ operandGates ++ arithmeticGates
  lookups :=
    (comparison theComparison).2 ++ range32 "rd" pcMask sel rdHi ++
    range32 "next_pc" pcMask nextPc nextPcHi ++
    [range16 "next_pc_even" (lowHalfHalved nextPc nextPcHi),
      decodeRow (pc :: decodedColumns)]
  channels := channels

/-- The family's circuit over its frame. -/
def body : Body := frameBody queries familySpec

end Apogee.JumpBranchSlt
