import Apogee.Circuit.Frame

/-! # The multiply and divide family

The eight operations of the M extension over one product identity: the operands'
signs, the product's two halves, the quotient and remainder with their sign
adjustments, and the gap that bounds the remainder below the divisor.
-/

namespace Apogee.MulDiv

open Frame Gadgets Family

/-- The family's queries, in slot order. -/
def queries : List ℕ := [pc, rs1, rs2, rd]

def slotPc : ℕ := 0
def slotRs1 : ℕ := 1
def slotRs2 : ℕ := 2
def slotRd : ℕ := 3

/-- The frame's own witness columns. -/
def frameWitness : ℕ := 4 + 3

/-- The word the family's arithmetic is over. -/
def wordBits : ℕ := 32

def w (i : ℕ) : PolyAddress := .witness (frameWitness + i)

/-- The claimed decoded row after its pc. -/
def decodedColumns : List PolyAddress := [w 0, w 1, w 2, w 3, w 4]

def seq : PolyAddress := w 0
def decodedRs1 : PolyAddress := w 1
def decodedRs2 : PolyAddress := w 2
def decodedRd : PolyAddress := w 3
def decodedMask : PolyAddress := w 4

/-- The packed mask's bits, bit `k` at index `k`. -/
def kinds : List PolyAddress := [w 5, w 6, w 7, w 8, w 9, w 10, w 11, w 12]

def mul : PolyAddress := w 5
def mulh : PolyAddress := w 6
def mulhsu : PolyAddress := w 7
def mulhu : PolyAddress := w 8
def div : PolyAddress := w 9
def divu : PolyAddress := w 10
def rem : PolyAddress := w 11
def remu : PolyAddress := w 12

/-- The four multiplies. -/
def muls : List PolyAddress := [mul, mulh, mulhsu, mulhu]
/-- The four divisions. -/
def divs : List PolyAddress := [div, divu, rem, remu]
/-- The kinds that read `rs1` signed. -/
def lhsSigned : List PolyAddress := [mul, mulh, mulhsu, div, rem]
/-- The kinds that read `rs2` signed. -/
def rhsSigned : List PolyAddress := [mul, mulh, div, rem]
/-- The kinds whose `rd` is the product's high half. -/
def takesHigh : List PolyAddress := [mulh, mulhsu, mulhu]
/-- The kinds whose `rd` is the quotient. -/
def takesQuotient : List PolyAddress := [div, divu]
/-- The kinds whose `rd` is the remainder. -/
def takesRemainder : List PolyAddress := [rem, remu]

/-- 1 exactly on a live division row. -/
def fDiv : PolyAddress := w 13
def rs1Hi : PolyAddress := w 14
def rs1Top : PolyAddress := w 15
def rs2Hi : PolyAddress := w 16
def rs2Top : PolyAddress := w 17
/-- `rs1`'s sign adjustment. -/
def s1 : PolyAddress := w 18
/-- `rs2`'s sign adjustment. -/
def s2 : PolyAddress := w 19
/-- The product's first multiplicand. -/
def mx : PolyAddress := w 20
/-- The product's second multiplicand. -/
def my : PolyAddress := w 21
def pLow : PolyAddress := w 22
def pLowHi : PolyAddress := w 23
def pHigh : PolyAddress := w 24
def pHighHi : PolyAddress := w 25
def pSign : PolyAddress := w 26
/-- The quotient word. -/
def q : PolyAddress := w 27
def qHi : PolyAddress := w 28
/-- The quotient's sign adjustment, a free boolean. -/
def qSign : PolyAddress := w 29
/-- The remainder word. -/
def r : PolyAddress := w 30
def rHi : PolyAddress := w 31
def rSign : PolyAddress := w 32
def rInv : PolyAddress := w 33
/-- 1 exactly on a division row whose remainder is zero. -/
def rz : PolyAddress := w 34
/-- The negative-dividend flag of a division row. -/
def d1 : PolyAddress := w 35
def dInv : PolyAddress := w 36
/-- 1 exactly on a division row whose divisor is zero. -/
def dz : PolyAddress := w 37
def absR : PolyAddress := w 38
def absD : PolyAddress := w 39
/-- `|divisor| − |rem| − 1`, corrected on a zero divisor. -/
def gap : PolyAddress := w 40
def gapHiCol : PolyAddress := w 41
def rdHi : PolyAddress := w 42
/-- The channels' multiplicities. -/
def multiplicities : List PolyAddress := [w 43, w 44, w 45, w 46]

/-- The decoded table's width. -/
def tableWidth : ℕ := 6

/-- The packed generic table's columns. -/
def genericTable : List PolyAddress := genericTableAfter tableWidth

/-- The decoded masks a live row of the family can carry. -/
def legalMasks : List ℕ := [1 <<< 0, 1 <<< 1, 1 <<< 2, 1 <<< 3, 1 <<< 4, 1 <<< 5, 1 <<< 6, 1 <<< 7]

def vRs1 : PolyAddress := frame slotRs1 fieldReadValue
def vRs2 : PolyAddress := frame slotRs2 fieldReadValue
def sel : PolyAddress := rdSelected queries.length
def nextPc : PolyAddress := frame slotPc fieldWriteValue

/-- The family's arithmetic over a `wordBits`-bit word. -/
def arithmeticGates (wordBits : ℕ) : List (String × GateDef) :=
  let word := 2 ^ wordBits
  let double := 2 ^ wordBits * 2 ^ wordBits
  [("f_div_rule", linear ((lit 1, fDiv) :: divs.map fun b => (neg 1, b))),
    ("f_div_boolean", booleanity fDiv),
    ("s1_rule", quadratic [(lit 1, s1)] (lhsSigned.map fun b => (neg 1, b, rs1Top))),
    ("s2_rule", quadratic [(lit 1, s2)] (rhsSigned.map fun b => (neg 1, b, rs2Top))),
    ("rs1_top_boolean", booleanity rs1Top),
    ("rs2_top_boolean", booleanity rs2Top),
    ("s1_boolean", booleanity s1),
    ("s2_boolean", booleanity s2),
    ("p_sign_boolean", booleanity pSign),
    ("q_sign_boolean", booleanity qSign),
    ("r_sign_boolean", booleanity rSign),
    -- The multiplicands: the adjusted operands on a multiply row, the adjusted
    -- divisor and quotient on a division row.
    ("mx_rule", quadratic [(lit 1, mx)]
      ((muls.flatMap fun b => [(neg 1, b, vRs1), (lit word, b, s1)]) ++
        [(neg 1, fDiv, vRs2), (lit word, fDiv, s2)])),
    ("my_rule", quadratic [(lit 1, my)]
      ((muls.flatMap fun b => [(neg 1, b, vRs2), (lit word, b, s2)]) ++
        [(neg 1, fDiv, q), (lit word, fDiv, qSign)])),
    ("product_rule", quadratic [(neg 1, pLow), (neg word, pHigh), (lit double, pSign)]
      [(lit 1, mx, my)]),
    ("division_rule", quadratic []
      [(lit 1, fDiv, pLow), (lit word, fDiv, pHigh), (neg double, fDiv, pSign), (lit 1, fDiv, r),
        (neg word, fDiv, rSign), (neg 1, fDiv, vRs1), (lit word, fDiv, s1)])] ++
  List.zip ["rz_inverse", "rz_at_nonzero"] (isZero [(lit 1, r)] rInv rz fDiv) ++
  List.zip ["dz_inverse", "dz_at_nonzero"] (isZero [(lit 1, vRs2)] dInv dz fDiv) ++
  [("d1_rule", quadratic [(lit 1, d1)] [(neg 1, fDiv, s1)]),
    ("r_sign_rule", quadratic [(lit 1, rSign), (neg 1, d1)] [(lit 1, d1, rz)]),
    ("abs_r_rule", quadratic [(lit 1, absR), (neg 1, r), (neg word, rSign)] [(lit 2, r, rSign)]),
    ("abs_d_rule", quadratic [(lit 1, absD), (neg 1, vRs2), (neg word, s2)] [(lit 2, vRs2, s2)]),
    ("gap_rule", quadratic [(lit 1, gap), (lit 1, fDiv), (neg word, dz)]
      [(neg 1, fDiv, absD), (lit 1, fDiv, absR)]),
    ("zero_divisor_quotient", quadratic [(.literal (1 - (word : ℕ)), dz)] [(lit 1, dz, q)]),
    ("rd_value_rule", quadratic [(lit 1, sel)]
      ((neg 1, mul, pLow) :: (takesHigh.map fun b => (neg 1, b, pHigh)) ++
        (takesQuotient.map fun b => (neg 1, b, q)) ++
        takesRemainder.map fun b => (neg 1, b, r)))]

def kindNames : List String := ["mul", "mulh", "mulhsu", "mulhu", "div", "divu", "rem", "remu"]

/-- The family's four channels, in output order. -/
def channels : List ChannelSpec := fourChannels multiplicities tableWidth

/-- The family's sub-circuit: its columns, gates, lookups and channels. -/
def familySpec : FamilySpec where
  witness :=
    ["decoded_next_pc", "decoded_rs1", "decoded_rs2", "decoded_rd", "decoded_mask"] ++
    (kindNames.map fun kind => "kind_" ++ kind) ++
    ["f_div", "rs1_hi", "rs1_top", "rs2_hi", "rs2_top", "s1", "s2", "mx", "my", "p_low",
      "p_low_hi", "p_high", "p_high_hi", "p_sign", "q", "q_hi", "q_sign", "r", "r_hi", "r_sign",
      "r_inv", "rz", "d1", "d_inv", "dz", "abs_r", "abs_d", "gap", "gap_hi", "rd_hi"] ++
    multiplicityNames [LookupChannel.timestamp, LookupChannel.range16, LookupChannel.generic,
      LookupChannel.decoder]
  setup :=
    ["table_pc", "table_next_pc", "table_rs1", "table_rs2", "table_rd", "table_extra_mask",
      "generic_key", "generic_value", "generic_result"]
  virtuals := [(.range19, "range19"), (.range16, "range16")]
  enforcing :=
    kindBooleans kindNames kinds ++
    [("decoded_mask_bits", decodedMaskBits kinds decodedMask),
      ("rs1_mask_rule", maskRule (frame slotRs1 fieldMask) kinds),
      ("rs2_mask_rule", maskRule (frame slotRs2 fieldMask) kinds),
      ("rd_mask_rule", maskRule (frame slotRd fieldMask) kinds),
      ("rs1_addr_rule", addrRule slotRs1 decodedRs1),
      ("rs2_addr_rule", addrRule slotRs2 decodedRs2),
      ("rd_addr_rule", addrRule slotRd decodedRd),
      ("rs1_value_masked", valueMasked slotRs1),
      ("rs2_value_masked", valueMasked slotRs2),
      ("next_pc_rule", linear [(lit 1, nextPc), (neg 1, seq)])] ++
    arithmeticGates wordBits
  lookups :=
    range32 "rs1" pcMask vRs1 rs1Hi ++ range32 "rs2" pcMask vRs2 rs2Hi ++
    range32 "p_low" pcMask pLow pLowHi ++ range32 "p_high" pcMask pHigh pHighHi ++
    range32 "q" pcMask q qHi ++ range32 "r" pcMask r rHi ++
    range32 "gap" pcMask gap gapHiCol ++ range32 "rd" pcMask sel rdHi ++
    [getSign "rs1_get_sign" pcMask rs1Hi rs1Top, getSign "rs2_get_sign" pcMask rs2Hi rs2Top,
      decodeRow (frame slotPc fieldReadValue :: decodedColumns)]
  channels := channels

/-- The family's circuit over its frame. -/
def body : Body := frameBody queries familySpec

end Apogee.MulDiv
