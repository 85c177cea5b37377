import Apogee.Circuit.Frame

/-! # The word load and store family

A word access takes the whole word, so there is no splice: a load copies the word
it reads into `rd`, a store copies `rs2` into the word. The address splits as four
times a word index, with no room for a byte offset.
-/

namespace Apogee.MemWord

open Frame Gadgets Family

def queries : List ℕ := [Frame.pc, rs1, rs2, Frame.load, ram, rd]

def slotPc : ℕ := 0
def slotRs1 : ℕ := 1
def slotRs2 : ℕ := 2
def slotLoad : ℕ := 3
def slotRam : ℕ := 4
def slotRd : ℕ := 5

/-- The frame's own witness columns. -/
def frameWitness : ℕ := 6 + 3

def w (i : ℕ) : PolyAddress := .witness (frameWitness + i)

def decodedColumns : List PolyAddress := [w 0, w 1, w 2, w 3, w 4, w 5]

def seq : PolyAddress := w 0
def decodedRs1 : PolyAddress := w 1
def decodedRs2 : PolyAddress := w 2
def decodedRd : PolyAddress := w 3
def imm : PolyAddress := w 4
def decodedMask : PolyAddress := w 5

/-- The packed mask's bits, bit `k` at index `k`. -/
def kinds : List PolyAddress := [w 6, w 7]

def lw : PolyAddress := w 6
def sw : PolyAddress := w 7

/-- The wrap of `rs1 + imm`. -/
def wrap : PolyAddress := w 8
/-- The accessed word's index, a quarter of its address. -/
def wordIndex : PolyAddress := w 9
def wordIndexHi : PolyAddress := w 10
def rdHi : PolyAddress := w 11
def multiplicities : List PolyAddress := [w 12, w 13, w 14]

def tableWidth : ℕ := 7

def legalMasks : List ℕ := [1 <<< 0, 1 <<< 1]

def pc : PolyAddress := frame slotPc fieldReadValue
def nextPc : PolyAddress := frame slotPc fieldWriteValue
def vRs1 : PolyAddress := frame slotRs1 fieldReadValue
def vRs2 : PolyAddress := frame slotRs2 fieldReadValue
def loaded : PolyAddress := frame slotLoad fieldReadValue
def stored : PolyAddress := frame slotRam fieldWriteValue
def mRam : PolyAddress := frame slotRam fieldMask
def sel : PolyAddress := rdSelected queries.length

def kindNames : List String := ["lw", "sw"]

/-- The timestamp gaps, the halfwords and the decoded table: this family looks
nothing up in the packed table. -/
def channels : List ChannelSpec :=
  [⟨LookupChannel.timestamp, [.virtual .range19], w 12⟩,
    ⟨LookupChannel.range16, [.virtual .range16], w 13⟩,
    ⟨LookupChannel.decoder, (List.range tableWidth).map .setup, w 14⟩]

def operandGates : List (String × GateDef) :=
  [("decoded_mask_bits", decodedMaskBits kinds decodedMask),
    ("wrap_boolean", booleanity wrap),
    ("rs1_mask_rule", maskRule (frame slotRs1 fieldMask) [lw, sw]),
    ("rs2_mask_rule", maskRule (frame slotRs2 fieldMask) [sw]),
    ("load_mask_rule", maskRule (frame slotLoad fieldMask) [lw]),
    ("ram_mask_rule", maskRule (frame slotRam fieldMask) [sw]),
    ("rd_mask_rule", maskRule (frame slotRd fieldMask) [lw]),
    ("rs1_addr_rule", addrRule slotRs1 decodedRs1),
    ("rs2_addr_rule", addrRule slotRs2 decodedRs2),
    ("rd_addr_rule", addrRule slotRd decodedRd),
    ("load_addr_rule", wordAddrRule slotLoad wordIndex),
    ("ram_addr_rule", wordAddrRule slotRam wordIndex),
    ("rs1_value_masked", valueMasked slotRs1),
    ("rs2_value_masked", valueMasked slotRs2)]

def accessGates : List (String × GateDef) :=
  [("addr_split", linear [(lit 1, vRs1), (lit 1, imm), (neg (2 ^ 32), wrap), (neg 4, wordIndex)]),
    ("rd_value_rule", quadratic [(lit 1, sel)] [(neg 1, lw, loaded)]),
    ("store_value_rule", quadratic [(lit 1, stored)] [(neg 1, mRam, vRs2)]),
    ("next_pc_rule", linear [(lit 1, nextPc), (neg 1, seq)])]

def wordRanges : List LookupExpr :=
  range32 "word_index" pcMask wordIndex wordIndexHi ++
  -- What keeps four times the index a 32-bit address.
  [range16 "word_index_hi_scaled" (linear [(lit 4, wordIndexHi)])] ++
  range32 "rd" pcMask sel rdHi

/-- The family's sub-circuit: its columns, gates, lookups and channels. -/
def familySpec : FamilySpec where
  witness :=
    ["decoded_next_pc", "decoded_rs1", "decoded_rs2", "decoded_rd", "decoded_imm",
      "decoded_mask"] ++
    (kindNames.map fun kind => "kind_" ++ kind) ++
    ["wrap", "word_index", "word_index_hi", "rd_hi"] ++
    multiplicityNames [LookupChannel.timestamp, LookupChannel.range16, LookupChannel.decoder]
  setup :=
    ["table_pc", "table_next_pc", "table_rs1", "table_rs2", "table_rd", "table_imm",
      "table_extra_mask"]
  virtuals := [(.range19, "range19"), (.range16, "range16")]
  enforcing := kindBooleans kindNames kinds ++ operandGates ++ accessGates
  lookups := wordRanges ++ [decodeRow (pc :: decodedColumns)]
  channels := channels

/-- The family's circuit over its frame. -/
def body : Body := frameBody queries familySpec

end Apogee.MemWord
