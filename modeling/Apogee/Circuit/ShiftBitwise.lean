import Apogee.Circuit.Frame

/-! # The shift and bitwise family

Both shift directions share one product with a looked-up power of two: a left
shift discards the product's high word, a right shift recovers its operand from
the result and a residue below the power. The bitwise operations read one AND of
the operands' bytes, from which OR and XOR follow by linearity.
-/

namespace Apogee.ShiftBitwise

open Frame Gadgets Family

/-- The family's queries, in slot order. -/
def queries : List ℕ := [Frame.pc, rs1, rs2, rd]

def slotPc : ℕ := 0
def slotRs1 : ℕ := 1
def slotRs2 : ℕ := 2
def slotRd : ℕ := 3

/-- The frame's own witness columns. -/
def frameWitness : ℕ := 4 + 3

def w (i : ℕ) : PolyAddress := .witness (frameWitness + i)

/-- The claimed decoded row after its pc. -/
def decodedColumns : List PolyAddress := [w 0, w 1, w 2, w 3, w 4, w 5]

def seq : PolyAddress := w 0
def decodedRs1 : PolyAddress := w 1
def decodedRs2 : PolyAddress := w 2
def decodedRd : PolyAddress := w 3
def imm : PolyAddress := w 4
def decodedMask : PolyAddress := w 5

/-- The packed mask's bits, bit `k` at index `k`. -/
def kinds : List PolyAddress :=
  [w 6, w 7, w 8, w 9, w 10, w 11, w 12, w 13, w 14, w 15, w 16, w 17]

def slli : PolyAddress := w 6
def xori : PolyAddress := w 7
def srli : PolyAddress := w 8
def srai : PolyAddress := w 9
def ori : PolyAddress := w 10
def andi : PolyAddress := w 11
def sll : PolyAddress := w 12
def xor : PolyAddress := w 13
def srl : PolyAddress := w 14
def sra : PolyAddress := w 15
def or : PolyAddress := w 16
def and : PolyAddress := w 17

def shifts : List PolyAddress := [slli, srli, srai, sll, srl, sra]
def bitwise : List PolyAddress := [xori, ori, andi, xor, or, and]
def left : List PolyAddress := [slli, sll]
def right : List PolyAddress := [srli, srai, srl, sra]
/-- The only kinds whose sign extension can be 1. -/
def arithmetic : List PolyAddress := [srai, sra]
def readsRs2 : List PolyAddress := [sll, srl, sra, and, or, xor]

/-- 1 exactly on a live shift row, a lookup selector. -/
def fShift : PolyAddress := w 18
/-- 1 exactly on a live bitwise row, a lookup selector. -/
def fBitwise : PolyAddress := w 19
def rs1Hi : PolyAddress := w 20
def rs1Sign : PolyAddress := w 21
def src2Hi : PolyAddress := w 22
/-- The low five bits of the second operand. -/
def amount : PolyAddress := w 23
/-- `2^amount`. -/
def pow : PolyAddress := w 24
/-- `2^(31 − amount)`. -/
def copow : PolyAddress := w 25
/-- The second operand's bits above the amount. -/
def high : PolyAddress := w 26
def highHi : PolyAddress := w 27
/-- `rs1`'s sign on an arithmetic shift, 0 elsewhere. -/
def se : PolyAddress := w 28
/-- `rs1` on a left shift, the sign-adjusted result on a right one. -/
def shiftIn : PolyAddress := w 29
def shiftProd : PolyAddress := w 30
/-- A left shift's discarded high bits. -/
def ovf : PolyAddress := w 31
def ovfHi : PolyAddress := w 32
/-- A right shift's discarded low bits. -/
def residue : PolyAddress := w 33
def residueHi : PolyAddress := w 34
/-- `residue·2^(32 − amount)`, whose range holds the residue below `2^amount`. -/
def scaled : PolyAddress := w 35
def scaledHi : PolyAddress := w 36
/-- `rs1`'s bytes, low first. -/
def bytesA : List PolyAddress := [w 37, w 38, w 39, w 40]
/-- The second operand's bytes, low first. -/
def bytesB : List PolyAddress := [w 41, w 42, w 43, w 44]
/-- The bytes of the two operands' AND. -/
def bytesAnd : List PolyAddress := [w 45, w 46, w 47, w 48]
def rdHi : PolyAddress := w 49
/-- The channels' multiplicities. -/
def multiplicities : List PolyAddress := [w 50, w 51, w 52, w 53]

/-- The decoded table's width. -/
def tableWidth : ℕ := 7

/-- The decoded masks a live row of the family can carry. -/
def legalMasks : List ℕ :=
  [1 <<< 0, 1 <<< 1, 1 <<< 2, 1 <<< 3, 1 <<< 4, 1 <<< 5, 1 <<< 6, 1 <<< 7, 1 <<< 8, 1 <<< 9,
    1 <<< 10, 1 <<< 11]

def pc : PolyAddress := frame slotPc fieldReadValue
def nextPc : PolyAddress := frame slotPc fieldWriteValue
def vRs1 : PolyAddress := frame slotRs1 fieldReadValue
def vRs2 : PolyAddress := frame slotRs2 fieldReadValue
def sel : PolyAddress := rdSelected queries.length

/-- `flag − Σ bits`: a committed column equal to a sum of kind bits. -/
def flagRule (flag : PolyAddress) (bits : List PolyAddress) : GateDef :=
  linear ((lit 1, flag) :: bits.map fun bit => (neg 1, bit))

/-- The second operand of every kind, `rs2 + imm`. -/
def src2 : List (Coeff × PolyAddress) := [(lit 1, vRs2), (lit 1, imm)]

/-- `x − 2^16·hi` for an affine value `x`. -/
def lowHalf (terms : List (Coeff × PolyAddress)) (hi : PolyAddress) : GateDef :=
  linear (terms ++ [(neg (2 ^ 16), hi)])

/-- The pair that bounds an affine value to a word. -/
def range32 (name : String) (value : List (Coeff × PolyAddress)) (hi : PolyAddress) :
    List LookupExpr :=
  [range16 (name ++ "_hi_range") (column hi), range16 (name ++ "_lo_range") (lowHalf value hi)]

def kindNames : List String :=
  ["slli", "xori", "srli", "srai", "ori", "andi", "sll", "xor", "srl", "sra", "or", "and"]

/-- The family's channels, in output order. -/
def channels : List ChannelSpec := fourChannels multiplicities tableWidth

/-- The gates that tie the mask to its bits, the halves to the kinds and the
queries to both. -/
def operandGates : List (String × GateDef) :=
  [("decoded_mask_bits", decodedMaskBits kinds decodedMask),
    ("f_shift_rule", flagRule fShift shifts),
    ("f_shift_boolean", booleanity fShift),
    ("f_bitwise_rule", flagRule fBitwise bitwise),
    ("f_bitwise_boolean", booleanity fBitwise),
    ("rs1_mask_rule", maskRule (frame slotRs1 fieldMask) kinds),
    ("rs2_mask_rule", maskRule (frame slotRs2 fieldMask) readsRs2),
    ("rd_mask_rule", maskRule (frame slotRd fieldMask) kinds),
    ("rs1_addr_rule", addrRule slotRs1 decodedRs1),
    ("rs2_addr_rule", addrRule slotRs2 decodedRs2),
    ("rd_addr_rule", addrRule slotRd decodedRd),
    ("rs1_value_masked", valueMasked slotRs1),
    ("rs2_value_masked", valueMasked slotRs2),
    ("next_pc_rule", linear [(lit 1, nextPc), (neg 1, seq)])]

/-- The gates of the shift: its amount, its sign and the one shared product. -/
def shiftGates : List (String × GateDef) :=
  [("amount_split", linear (src2 ++ [(neg 32, high), (neg 1, amount)])),
    ("copower_rule", quadratic [(neg (2 ^ GenericTable.shiftCopowerBits), fShift)]
      [(lit 1, pow, copow)]),
    ("se_rule", quadratic [(lit 1, se)] (arithmetic.map fun b => (neg 1, b, rs1Sign))),
    ("rs1_sign_boolean", booleanity rs1Sign),
    ("se_boolean", booleanity se),
    ("shift_in_rule", quadratic [(lit 1, shiftIn)]
      ((left.map fun b => (neg 1, b, vRs1)) ++
        right.flatMap fun b => [(neg 1, b, sel), (lit (2 ^ 32), b, se)])),
    ("shift_prod_rule", quadratic [(lit 1, shiftProd)] [(neg 1, shiftIn, pow)]),
    -- left: `rs1·2^s = rd + 2^32·ovf`; right: `rs1 − 2^32·se = (rd − 2^32·se)·2^s + residue`
    ("shift_out_rule", quadratic []
      ((left.flatMap fun b => [(lit 1, b, shiftProd), (neg 1, b, sel), (neg (2 ^ 32), b, ovf)]) ++
        right.flatMap fun b => [(lit 1, b, shiftProd), (lit 1, b, residue), (neg 1, b, vRs1),
          (lit (2 ^ 32), b, se)])),
    -- The table stores half of `2^(32 − s)`, so the coefficient is 2.
    ("scaled_rule", quadratic [(lit 1, scaled)] [(neg 2, residue, copow)])]

/-- The gates of the bitwise operations: the operands' bytes and the written
combination of their sum and their AND. -/
def bitwiseGates : List (String × GateDef) :=
  [("rs1_bytes", linear ((lit 1, vRs1) ::
      (byteWeights.zip bytesA).map fun byte => (neg byte.1, byte.2))),
    ("src2_bytes", linear (src2 ++
      (byteWeights.zip bytesB).map fun byte => (neg byte.1, byte.2))),
    ("bitwise_out_rule", quadratic []
      ((lit 1, fBitwise, sel) ::
        ([or, ori, xor, xori].flatMap fun b => [vRs2, imm, vRs1].map fun x => (neg 1, b, x)) ++
        (byteWeights.zip bytesAnd).flatMap fun byte =>
          ([and, andi].map fun b => (neg byte.1, b, byte.2)) ++
          ([or, ori].map fun b => (lit byte.1, b, byte.2)) ++
          ([xor, xori].map fun b => (lit (2 * byte.1), b, byte.2))))]

/-- The words the family bounds. -/
def wordRanges : List LookupExpr :=
  range32 "rs1" [(lit 1, vRs1)] rs1Hi ++ range32 "src2" src2 src2Hi ++
  range32 "high" [(lit 1, high)] highHi ++ range32 "ovf" [(lit 1, ovf)] ovfHi ++
  range32 "residue" [(lit 1, residue)] residueHi ++
  range32 "scaled" [(lit 1, scaled)] scaledHi ++ range32 "rd" [(lit 1, sel)] rdHi

/-- Every key is bounded to its own sub-table's range before it is looked up:
`rs1Hi` by its range pair, the amount and `rs1`'s bytes here. -/
def keyBounds : List LookupExpr :=
  keyBound "amount" amount 5 fShift ++ byteKeyBounds bytesA fBitwise

/-- The lookups of the packed table's three sub-tables. -/
def tableLookups : List LookupExpr :=
  [generic "rs1_get_sign" pcMask GenericTable.signBase rs1Hi (column rs1Sign) (linear []),
    generic "shift_powers" fShift GenericTable.shiftBase amount (column pow) (column copow)] ++
  andBytes bytesA bytesB bytesAnd fBitwise

/-- The family's sub-circuit: its columns, gates, lookups and channels. -/
def familySpec : FamilySpec where
  witness :=
    ["decoded_next_pc", "decoded_rs1", "decoded_rs2", "decoded_rd", "decoded_imm",
      "decoded_mask"] ++
    (kindNames.map fun kind => "kind_" ++ kind) ++
    ["f_shift", "f_bitwise", "rs1_hi", "rs1_sign", "src2_hi", "amount", "pow", "copow", "high",
      "high_hi", "se", "shift_in", "shift_prod", "ovf", "ovf_hi", "residue", "residue_hi",
      "scaled", "scaled_hi", "byte_a0", "byte_a1", "byte_a2", "byte_a3", "byte_b0", "byte_b1",
      "byte_b2", "byte_b3", "byte_and0", "byte_and1", "byte_and2", "byte_and3", "rd_hi"] ++
    multiplicityNames [LookupChannel.timestamp, LookupChannel.range16, LookupChannel.generic,
      LookupChannel.decoder]
  setup :=
    ["table_pc", "table_next_pc", "table_rs1", "table_rs2", "table_rd", "table_imm",
      "table_extra_mask", "generic_key", "generic_value", "generic_result"]
  virtuals := [(.range19, "range19"), (.range16, "range16")]
  enforcing := kindBooleans kindNames kinds ++ operandGates ++ shiftGates ++ bitwiseGates
  lookups := wordRanges ++ keyBounds ++ tableLookups ++ [decodeRow (pc :: decodedColumns)]
  channels := channels

/-- The family's circuit over its frame. -/
def body : Body := frameBody queries familySpec

end Apogee.ShiftBitwise
