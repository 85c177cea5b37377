import Apogee.Circuit.Frame

/-! # The atomics family

An atomic rewrites the word at `rs1`, which is four times a bounded word index, so
a misaligned address has no row. One comparison, one AND of the bytes and one
reduced sum serve all eleven kinds: a maximum is `old + rs2 − lo`, and OR and XOR
follow from the AND.
-/

namespace Apogee.Atomics

open Frame Gadgets Family

def queries : List ℕ := [Frame.pc, rs1, rs2, ram, rd]

def slotPc : ℕ := 0
def slotRs1 : ℕ := 1
def slotRs2 : ℕ := 2
def slotRam : ℕ := 3
def slotRd : ℕ := 4

def frameWitness : ℕ := 5 + 3

def w (i : ℕ) : PolyAddress := .witness (frameWitness + i)

def decodedColumns : List PolyAddress := [w 0, w 1, w 2, w 3, w 4]

def seq : PolyAddress := w 0
def decodedRs1 : PolyAddress := w 1
def decodedRs2 : PolyAddress := w 2
def decodedRd : PolyAddress := w 3
def decodedMask : PolyAddress := w 4

def kinds : List PolyAddress := [w 5, w 6, w 7, w 8, w 9, w 10, w 11, w 12, w 13, w 14, w 15]

def amoadd : PolyAddress := w 5
def amoswap : PolyAddress := w 6
def lr : PolyAddress := w 7
def sc : PolyAddress := w 8
def amoxor : PolyAddress := w 9
def amoor : PolyAddress := w 10
def amoand : PolyAddress := w 11
def amomin : PolyAddress := w 12
def amomax : PolyAddress := w 13
def amominu : PolyAddress := w 14
def amomaxu : PolyAddress := w 15

/-- The kinds that compare signed. -/
def signed : List PolyAddress := [amomin, amomax]

def wordIndex : PolyAddress := w 16
def wordIndexHi : PolyAddress := w 17
/-- `old + rs2` reduced, on every live row. -/
def sum : PolyAddress := w 18
def sumHi : PolyAddress := w 19
def addWrap : PolyAddress := w 20
/-- 1 exactly on a live bitwise row, a lookup selector. -/
def fBitwise : PolyAddress := w 21
def bytesA : List PolyAddress := [w 22, w 23, w 24, w 25]
def bytesB : List PolyAddress := [w 26, w 27, w 28, w 29]
def bytesAnd : List PolyAddress := [w 30, w 31, w 32, w 33]
def oldHi : PolyAddress := w 34
def oldSign : PolyAddress := w 35
def srcHi : PolyAddress := w 36
def srcSign : PolyAddress := w 37
def lt : PolyAddress := w 38
def cmpGap : PolyAddress := w 39
def cmpGapHi : PolyAddress := w 40
/-- The smaller of the two under the order the row compares in. -/
def lo : PolyAddress := w 41
def multiplicities : List PolyAddress := [w 42, w 43, w 44, w 45]

def tableWidth : ℕ := 6

def legalMasks : List ℕ :=
  [1 <<< 0, 1 <<< 1, 1 <<< 2, 1 <<< 3, 1 <<< 4, 1 <<< 5, 1 <<< 6, 1 <<< 7, 1 <<< 8, 1 <<< 9,
    1 <<< 10]

def pc : PolyAddress := frame slotPc fieldReadValue
def nextPc : PolyAddress := frame slotPc fieldWriteValue
def vRs1 : PolyAddress := frame slotRs1 fieldReadValue
/-- `rs2`. -/
def src : PolyAddress := frame slotRs2 fieldReadValue
/-- The word read. -/
def old : PolyAddress := frame slotRam fieldReadValue
/-- The word written. -/
def new : PolyAddress := frame slotRam fieldWriteValue
def mRam : PolyAddress := frame slotRam fieldMask
def sel : PolyAddress := rdSelected queries.length

def theComparison : Comparison where
  namePrefix := "cmp"
  selector := pcMask
  signed := signed
  lhs := old
  lhsHi := oldHi
  lhsSign := oldSign
  rhs := src
  rhsHi := srcHi
  rhsSign := srcSign
  lt := lt
  gap := cmpGap
  gapHi := cmpGapHi

def kindNames : List String :=
  ["amoadd", "amoswap", "lr", "sc", "amoxor", "amoor", "amoand", "amomin", "amomax", "amominu",
    "amomaxu"]

def channels : List ChannelSpec := fourChannels multiplicities tableWidth

/-- A word and its bytes. -/
def byteTerms (x : PolyAddress) (bytes : List PolyAddress) : GateDef :=
  linear ((lit 1, x) :: (byteWeights.zip bytes).map fun byte => (neg byte.1, byte.2))

def operandGates : List (String × GateDef) :=
  [("decoded_mask_bits", decodedMaskBits kinds decodedMask),
    ("rs1_mask_rule", maskRule (frame slotRs1 fieldMask) kinds),
    -- The form of `lr.w` has no `rs2`.
    ("rs2_mask_rule", maskRule (frame slotRs2 fieldMask) (kinds.filter (· ≠ lr))),
    ("ram_mask_rule", maskRule mRam kinds),
    ("rd_mask_rule", maskRule (frame slotRd fieldMask) kinds),
    ("rs1_addr_rule", addrRule slotRs1 decodedRs1),
    ("rs2_addr_rule", addrRule slotRs2 decodedRs2),
    ("rd_addr_rule", addrRule slotRd decodedRd),
    ("ram_addr_rule", wordAddrRule slotRam wordIndex),
    ("rs1_value_masked", valueMasked slotRs1),
    ("rs2_value_masked", valueMasked slotRs2),
    ("addr_word", linear [(lit 1, vRs1), (neg 4, wordIndex)])]

def sharedGates : List (String × GateDef) :=
  [("add_wrap_boolean", booleanity addWrap),
    ("add_rule", linear [(lit 1, old), (lit 1, src), (neg 1, sum), (neg (2 ^ 32), addWrap)]),
    ("f_bitwise_boolean", booleanity fBitwise),
    ("f_bitwise_rule",
      linear [(lit 1, fBitwise), (neg 1, amoand), (neg 1, amoor), (neg 1, amoxor)]),
    ("old_bytes_rule", byteTerms old bytesA),
    ("src_bytes_rule", byteTerms src bytesB)]

def resultGates : List (String × GateDef) :=
  [("lo_rule", quadratic [(lit 1, lo), (neg 1, src)] [(neg 1, lt, old), (lit 1, lt, src)]),
    -- OR is `old + rs2 − A` and XOR `old + rs2 − 2·A`, `A` the AND's bytes inlined.
    ("ram_value_rule", quadratic [(lit 1, new)]
      ([(neg 1, lr, old), (neg 1, sc, src), (neg 1, amoswap, src), (neg 1, amoadd, sum),
        (neg 1, amoor, old), (neg 1, amoor, src), (neg 1, amoxor, old), (neg 1, amoxor, src),
        (neg 1, amomin, lo), (neg 1, amominu, lo), (neg 1, amomax, old), (neg 1, amomax, src),
        (lit 1, amomax, lo), (neg 1, amomaxu, old), (neg 1, amomaxu, src), (lit 1, amomaxu, lo)] ++
        (byteWeights.zip bytesAnd).flatMap fun byte =>
          [(neg byte.1, amoand, byte.2), (lit byte.1, amoor, byte.2),
            (lit (2 * byte.1), amoxor, byte.2)])),
    -- `sc.w` always succeeds and writes 0.
    ("rd_value_rule", quadratic [(lit 1, sel)]
      ((kinds.filter (· ≠ sc)).map fun b => (neg 1, b, old))),
    ("next_pc_rule", linear [(lit 1, nextPc), (neg 1, seq)])]

def wordRanges : List LookupExpr :=
  range32 "word_index" pcMask wordIndex wordIndexHi ++
  [range16 "word_index_hi_scaled" (linear [(lit 4, wordIndexHi)])] ++
  range32 "sum" pcMask sum sumHi

def familySpec : FamilySpec where
  witness :=
    ["decoded_next_pc", "decoded_rs1", "decoded_rs2", "decoded_rd", "decoded_mask"] ++
    (kindNames.map fun kind => "kind_" ++ kind) ++
    ["word_index", "word_index_hi", "sum", "sum_hi", "add_wrap", "f_bitwise", "byte_a0",
      "byte_a1", "byte_a2", "byte_a3", "byte_b0", "byte_b1", "byte_b2", "byte_b3", "byte_and0",
      "byte_and1", "byte_and2", "byte_and3", "old_hi", "old_sign", "src_hi", "src_sign", "lt",
      "cmp_gap", "cmp_gap_hi", "lo"] ++
    multiplicityNames [LookupChannel.timestamp, LookupChannel.range16, LookupChannel.generic,
      LookupChannel.decoder]
  setup :=
    ["table_pc", "table_next_pc", "table_rs1", "table_rs2", "table_rd", "table_extra_mask",
      "generic_key", "generic_value", "generic_result"]
  virtuals := [(.range19, "range19"), (.range16, "range16")]
  enforcing := kindBooleans kindNames kinds ++ operandGates ++ sharedGates ++
    (comparison theComparison).1 ++ resultGates
  lookups := (comparison theComparison).2 ++ wordRanges ++ byteKeyBounds bytesA fBitwise ++
    andBytes bytesA bytesB bytesAnd fBitwise ++ [decodeRow (pc :: decodedColumns)]
  channels := channels

/-- The family's circuit over its frame. -/
def body : Body := frameBody queries familySpec

end Apogee.Atomics
