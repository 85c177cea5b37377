import Apogee.Circuit.Frame

/-! # The subword load and store family

Every row splices one memory word as `high·(w·p) + sub·p + low`, where `p` is the
power the address's offset selects and `w` the access width. A load reads `sub`
and extends its sign; a store replaces it. The halved copowers and the scaled
ranges hold each part inside its own bytes.
-/

namespace Apogee.MemSubword

open Frame Gadgets Family

def queries : List ℕ := [Frame.pc, rs1, rs2, Frame.load, ram, rd]

def slotPc : ℕ := 0
def slotRs1 : ℕ := 1
def slotRs2 : ℕ := 2
def slotLoad : ℕ := 3
def slotRam : ℕ := 4
def slotRd : ℕ := 5

/-- The frame's own witness columns. -/
def frameWitness : ℕ := 6 + 3

/-- Bits to a byte, from which the splice derives every literal. -/
def byteBits : ℕ := 8

def w (i : ℕ) : PolyAddress := .witness (frameWitness + i)

def decodedColumns : List PolyAddress := [w 0, w 1, w 2, w 3, w 4, w 5]

def seq : PolyAddress := w 0
def decodedRs1 : PolyAddress := w 1
def decodedRs2 : PolyAddress := w 2
def decodedRd : PolyAddress := w 3
def imm : PolyAddress := w 4
def decodedMask : PolyAddress := w 5

/-- The packed mask's bits, bit `k` at index `k`. -/
def kinds : List PolyAddress := [w 6, w 7, w 8, w 9, w 10, w 11]

def lb : PolyAddress := w 6
def lh : PolyAddress := w 7
def lbu : PolyAddress := w 8
def lhu : PolyAddress := w 9
def sb : PolyAddress := w 10
def sh : PolyAddress := w 11

def loads : List PolyAddress := [lb, lh, lbu, lhu]
def stores : List PolyAddress := [sb, sh]
def bytes : List PolyAddress := [lb, lbu, sb]
def halves : List PolyAddress := [lh, lhu, sh]
def signed : List PolyAddress := [lb, lh]

/-- The wrap of `rs1 + imm`. -/
def wrap : PolyAddress := w 12
def wordIndex : PolyAddress := w 13
def wordIndexHi : PolyAddress := w 14
def bit0 : PolyAddress := w 15
def bit1 : PolyAddress := w 16
/-- The splice power `2^(8·offset)`. -/
def p : PolyAddress := w 17
/-- The power's halved copower, `2^31/p`. -/
def pcopow : PolyAddress := w 18
/-- The high part's multiplier `w·p`, halved. -/
def wph : PolyAddress := w 19
/-- The power on a store row, 0 elsewhere. -/
def pRam : PolyAddress := w 20
def word : PolyAddress := w 21
def high : PolyAddress := w 22
def highHi : PolyAddress := w 23
def highScaled : PolyAddress := w 24
def highScaledHi : PolyAddress := w 25
def sub : PolyAddress := w 26
def subScaled : PolyAddress := w 27
def subScaledHi : PolyAddress := w 28
def low : PolyAddress := w 29
def lowHi : PolyAddress := w 30
def lowScaled : PolyAddress := w 31
def lowScaledHi : PolyAddress := w 32
/-- `rs2` truncated to the access width. -/
def srcSub : PolyAddress := w 33
def srcSubScaled : PolyAddress := w 34
def srcSubScaledHi : PolyAddress := w 35
def srcHigh : PolyAddress := w 36
def srcHighHi : PolyAddress := w 37
/-- The subword with its sign bit at bit 15. -/
def signIn : PolyAddress := w 38
def sign : PolyAddress := w 39
def se : PolyAddress := w 40
def rdHi : PolyAddress := w 41
def multiplicities : List PolyAddress := [w 42, w 43, w 44, w 45]

def tableWidth : ℕ := 7

def legalMasks : List ℕ := [1 <<< 0, 1 <<< 1, 1 <<< 2, 1 <<< 3, 1 <<< 4, 1 <<< 5]

def pc : PolyAddress := frame slotPc fieldReadValue
def nextPc : PolyAddress := frame slotPc fieldWriteValue
def vRs1 : PolyAddress := frame slotRs1 fieldReadValue
def vRs2 : PolyAddress := frame slotRs2 fieldReadValue
def vLoad : PolyAddress := frame slotLoad fieldReadValue
def vRam : PolyAddress := frame slotRam fieldReadValue
def newRam : PolyAddress := frame slotRam fieldWriteValue
def mRam : PolyAddress := frame slotRam fieldMask
def sel : PolyAddress := rdSelected queries.length

/-- `c·(Σ bits)·x`, one product for each bit. -/
def formTimes (c : Coeff) (bits : List PolyAddress) (x : PolyAddress) :
    List (Coeff × PolyAddress × PolyAddress) :=
  bits.map fun b => (c, b, x)

/-- The splice at `b` bits to a byte and `4·b` to a word. The source panics unless
`1 ≤ b ≤ 8`. -/
def spliceGates (b : ℕ) : List (String × GateDef) :=
  let byte := 2 ^ b
  let half := 2 ^ (2 * b)
  let cube := 2 ^ (3 * b)
  let whole := 2 ^ (4 * b)
  let k := cube - half - byte + 1
  -- The one degree-2 form over the offset bits that takes each to its power.
  [("p_rule", quadratic
      [(lit 1, p), (neg 1, pcMask), (neg (byte - 1), bit0), (neg (half - 1), bit1)]
      [(neg k, bit0, bit1)]),
    ("pcopow_rule", quadratic [(neg (whole / 2), pcMask)] [(lit 1, p, pcopow)]),
    ("wph_rule", quadratic [(lit 1, wph), (neg (half / 2), p)]
      (formTimes (lit ((half - byte) / 2)) bytes p)),
    ("splice_rule", quadratic [(lit 1, word), (neg 1, highScaled), (neg 1, low)] [(neg 1, sub, p)]),
    ("high_scaled_rule", quadratic [(lit 1, highScaled)] [(neg 2, high, wph)]),
    ("sub_scaled_rule", quadratic [(lit 1, subScaled), (neg (whole / half), sub)]
      (formTimes (neg (whole / byte - whole / half)) bytes sub)),
    ("low_scaled_rule", quadratic [(lit 1, lowScaled)] [(neg 2, low, pcopow)]),
    ("src_sub_rule", quadratic [(lit 1, vRs2), (neg 1, srcSub), (neg half, srcHigh)]
      (formTimes (lit (half - byte)) bytes srcHigh)),
    ("src_sub_scaled_rule", quadratic [(lit 1, srcSubScaled), (neg (whole / half), srcSub)]
      (formTimes (neg (whole / byte - whole / half)) bytes srcSub)),
    ("sign_in_rule", quadratic [(lit 1, signIn), (neg 1, sub)]
      (formTimes (neg (byte - 1)) bytes sub)),
    ("rd_value_rule", quadratic [(lit 1, sel), (neg (whole - half), se)]
      (formTimes (neg 1) loads sub ++ formTimes (neg (half - byte)) bytes se)),
    ("store_rule", quadratic [(lit 1, newRam)]
      [(neg 1, mRam, word), (neg 1, srcSub, pRam), (lit 1, sub, pRam)])]

def kindNames : List String := ["lb", "lh", "lbu", "lhu", "sb", "sh"]

def channels : List ChannelSpec := fourChannels multiplicities tableWidth

def operandGates : List (String × GateDef) :=
  [("decoded_mask_bits", decodedMaskBits kinds decodedMask),
    ("wrap_boolean", booleanity wrap),
    ("bit0_boolean", booleanity bit0),
    ("bit1_boolean", booleanity bit1),
    ("rs1_mask_rule", maskRule (frame slotRs1 fieldMask) (loads ++ stores)),
    ("rs2_mask_rule", maskRule (frame slotRs2 fieldMask) stores),
    ("load_mask_rule", maskRule (frame slotLoad fieldMask) loads),
    ("ram_mask_rule", maskRule (frame slotRam fieldMask) stores),
    ("rd_mask_rule", maskRule (frame slotRd fieldMask) loads),
    ("rs1_addr_rule", addrRule slotRs1 decodedRs1),
    ("rs2_addr_rule", addrRule slotRs2 decodedRs2),
    ("rd_addr_rule", addrRule slotRd decodedRd),
    ("load_addr_rule", wordAddrRule slotLoad wordIndex),
    ("ram_addr_rule", wordAddrRule slotRam wordIndex),
    ("rs1_value_masked", valueMasked slotRs1),
    ("rs2_value_masked", valueMasked slotRs2)]

def accessGates : List (String × GateDef) :=
  [("addr_split", linear [(lit 1, vRs1), (lit 1, imm), (neg (2 ^ 32), wrap), (neg 4, wordIndex),
      (neg 2, bit1), (neg 1, bit0)]),
    -- Without this a halfword at offset 3 would have a witness.
    ("half_aligned", quadratic [] (formTimes (lit 1) halves bit0)),
    ("word_rule", quadratic [(lit 1, word)]
      (formTimes (neg 1) loads vLoad ++ formTimes (neg 1) stores vRam)),
    ("p_ram_rule", quadratic [(lit 1, pRam)] [(neg 1, mRam, p)]),
    ("se_rule", quadratic [(lit 1, se)] (formTimes (neg 1) signed sign))]

def wordRanges : List LookupExpr :=
  range32 "word_index" pcMask wordIndex wordIndexHi ++
  [range16 "word_index_hi_scaled" (linear [(lit 4, wordIndexHi)])] ++
  range32 "high" pcMask high highHi ++ range32 "high_scaled" pcMask highScaled highScaledHi ++
  [range16 "sub_range" (column sub)] ++
  range32 "sub_scaled" pcMask subScaled subScaledHi ++ range32 "low" pcMask low lowHi ++
  range32 "low_scaled" pcMask lowScaled lowScaledHi ++
  [range16 "src_sub_range" (column srcSub)] ++
  range32 "src_sub_scaled" pcMask srcSubScaled srcSubScaledHi ++
  range32 "src_high" pcMask srcHigh srcHighHi ++
  -- The sign table's key is a whole halfword, so this one obligation bounds it.
  [range16 "sign_in_range" (column signIn)] ++ range32 "rd" pcMask sel rdHi

/-- The family's sub-circuit: its columns, gates, lookups and channels. -/
def familySpec : FamilySpec where
  witness :=
    ["decoded_next_pc", "decoded_rs1", "decoded_rs2", "decoded_rd", "decoded_imm",
      "decoded_mask"] ++
    (kindNames.map fun kind => "kind_" ++ kind) ++
    ["wrap", "word_index", "word_index_hi", "bit0", "bit1", "p", "pcopow", "wph", "p_ram", "word",
      "high", "high_hi", "high_scaled", "high_scaled_hi", "sub", "sub_scaled", "sub_scaled_hi",
      "low", "low_hi", "low_scaled", "low_scaled_hi", "src_sub", "src_sub_scaled",
      "src_sub_scaled_hi", "src_high", "src_high_hi", "sign_in", "sign", "se", "rd_hi"] ++
    multiplicityNames [LookupChannel.timestamp, LookupChannel.range16, LookupChannel.generic,
      LookupChannel.decoder]
  setup :=
    ["table_pc", "table_next_pc", "table_rs1", "table_rs2", "table_rd", "table_imm",
      "table_extra_mask", "generic_key", "generic_value", "generic_result"]
  virtuals := [(.range19, "range19"), (.range16, "range16")]
  enforcing := kindBooleans kindNames kinds ++ operandGates ++ accessGates ++
    spliceGates byteBits ++ [("next_pc_rule", linear [(lit 1, nextPc), (neg 1, seq)])]
  lookups := wordRanges ++ [getSign "sub_get_sign" pcMask signIn sign,
    decodeRow (pc :: decodedColumns)]
  channels := channels

/-- The family's circuit over its frame. -/
def body : Body := frameBody queries familySpec

end Apogee.MemSubword
