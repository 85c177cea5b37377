import Apogee.Circuit.Frame

/-! # The add, sub, lui, auipc and system family

Arithmetic rows reduce one sum or difference by one wrap bit. A system row is a
fence or an ecall, and an ecall is an exit or a request of exactly one delegation
type: each type's request selector is a free boolean that its number gate ties
to `a7`, and what no selector claims is the exit. A circuit knows a prefix of the
delegation registry.
-/

namespace Apogee.AddSub

open Frame Gadgets Family

/-- Row `i` of the delegation registry: family, number, mirror space and words. -/
def delegation (i : ℕ) : ℕ × ℕ × ℕ × ℕ := Delegation.types.getD i (0, 0, 0, 0)

def delegationNumber (i : ℕ) : ℕ := (delegation i).2.1
def delegationTag (i : ℕ) : ℕ := (delegation i).2.2.1
def delegationWords (i : ℕ) : ℕ := (delegation i).2.2.2

def queries : List ℕ := [Frame.pc, rs1, rs2, rd, deleg]

def slotPc : ℕ := 0
def slotRs1 : ℕ := 1
def slotRs2 : ℕ := 2
def slotRd : ℕ := 3
def slotDeleg : ℕ := 4

/-- The frame's own witness columns. -/
def frameWitness : ℕ := 5 + 3

def w (i : ℕ) : PolyAddress := .witness i

def decodedColumns : List PolyAddress :=
  [w frameWitness, w (frameWitness + 1), w (frameWitness + 2), w (frameWitness + 3),
    w (frameWitness + 4), w (frameWitness + 5)]

def decodedNextPc : PolyAddress := w frameWitness
def decodedRs1 : PolyAddress := w (frameWitness + 1)
def decodedRs2 : PolyAddress := w (frameWitness + 2)
def decodedRd : PolyAddress := w (frameWitness + 3)
def decodedImm : PolyAddress := w (frameWitness + 4)
def decodedMask : PolyAddress := w (frameWitness + 5)

/-- The packed mask's bits, bit `k` at index `k`. -/
def kinds : List PolyAddress :=
  [w (frameWitness + 6), w (frameWitness + 7), w (frameWitness + 8), w (frameWitness + 9),
    w (frameWitness + 10), w (frameWitness + 11)]

def kindSystem : PolyAddress := w (frameWitness + 6)
def kindAddi : PolyAddress := w (frameWitness + 7)
def kindAuipc : PolyAddress := w (frameWitness + 8)
def kindAdd : PolyAddress := w (frameWitness + 9)
def kindSub : PolyAddress := w (frameWitness + 10)
def kindLui : PolyAddress := w (frameWitness + 11)

def isEcall : PolyAddress := w (frameWitness + 12)
def isFence : PolyAddress := w (frameWitness + 13)

/-- Delegation type `i`'s request selector. -/
def isDelegation (i : ℕ) : PolyAddress := w (frameWitness + 14 + i)

/-- Column `k` past a circuit's request selectors. -/
def after (types k : ℕ) : PolyAddress := w (frameWitness + 14 + types + k)

def wrap (types : ℕ) : PolyAddress := after types 0
def rdHi (types : ℕ) : PolyAddress := after types 1
def pcWrap (types : ℕ) : PolyAddress := after types 2
def nextPcHi (types : ℕ) : PolyAddress := after types 3
def multiplicities (types : ℕ) : List PolyAddress := [after types 4, after types 5, after types 6]

def tableWidth : ℕ := 7

/-- `a7`, which an ecall row reads as its `rs1`. -/
def a7 : ℕ := 17
/-- `a0`, which an ecall row reads as its `rs2` and writes as its `rd`. -/
def a0 : ℕ := 10

def pc : PolyAddress := frame slotPc fieldReadValue
def nextPc : PolyAddress := frame slotPc fieldWriteValue
def vRs1 : PolyAddress := frame slotRs1 fieldReadValue
def vRs2 : PolyAddress := frame slotRs2 fieldReadValue
def vRd : PolyAddress := frame slotRd fieldReadValue
def sel : PolyAddress := rdSelected queries.length
def mDeleg : PolyAddress := frame slotDeleg fieldMask

/-- The circuit's request selectors. -/
def isDeleg (types : ℕ) : List PolyAddress := (List.range types).map isDelegation

/-- `m_q·(a_q − decoded − register·is_ecall)`: a present query's address is the
decoded one, or an ecall's register. -/
def addrRule (slot : ℕ) (decoded : PolyAddress) (register : ℕ) : GateDef :=
  quadratic [] [(lit 1, frame slot fieldMask, frame slot fieldAddr),
    (neg 1, frame slot fieldMask, decoded), (neg register, frame slot fieldMask, isEcall)]

def kindNames : List String := ["system", "addi", "auipc", "add", "sub", "lui"]

def systemGates : List (String × GateDef) :=
  [("is_ecall_boolean", booleanity isEcall),
    ("is_fence_boolean", booleanity isFence),
    ("system_split", linear [(lit 1, isEcall), (lit 1, isFence), (neg 1, kindSystem)]),
    ("ecall_code", quadratic [] [(lit 1, isEcall, decodedImm)]),
    ("fence_code", quadratic [(neg SystemCode.fence, isFence)] [(lit 1, isFence, decodedImm)])]

/-- Type `i`'s three gates: its selector is boolean, an ecall's, and pins `a7`. -/
def numberGates (i : ℕ) : List (String × GateDef) :=
  let family := toString (delegation i).1
  [("is_deleg_" ++ family ++ "_boolean", booleanity (isDelegation i)),
    ("deleg_" ++ family ++ "_is_an_ecall",
      quadratic [(lit 1, isDelegation i)] [(neg 1, isDelegation i, isEcall)]),
    ("deleg_" ++ family ++ "_number",
      quadratic [(neg (delegationNumber i), isDelegation i)] [(lit 1, isDelegation i, vRs1)])]

/-- `is_exit·(a7 − EXIT)`, with `is_exit` the ecalls no selector claims. -/
def ecallIsExit (types : ℕ) : GateDef :=
  quadratic ((neg Ecall.exit, isEcall) :: (isDeleg types).map fun b => (lit Ecall.exit, b))
    ((lit 1, isEcall, vRs1) :: (isDeleg types).map fun b => (neg 1, b, vRs1))

def operandGates (types : ℕ) : List (String × GateDef) :=
  [("rs1_mask_rule", maskRule (frame slotRs1 fieldMask) [kindAdd, kindSub, kindAddi, isEcall]),
    ("rs2_mask_rule", maskRule (frame slotRs2 fieldMask) [kindAdd, kindSub, isEcall]),
    ("rd_mask_rule", maskRule (frame slotRd fieldMask)
      [kindAdd, kindSub, kindAddi, kindAuipc, kindLui, isEcall]),
    ("deleg_mask_rule", maskRule (frame slotDeleg fieldMask) (isDeleg types)),
    ("rs1_addr_rule", addrRule slotRs1 decodedRs1 a7),
    ("rs2_addr_rule", addrRule slotRs2 decodedRs2 a0),
    ("rd_addr_rule", addrRule slotRd decodedRd a0),
    ("rs1_value_masked", valueMasked slotRs1),
    ("rs2_value_masked", valueMasked slotRs2)]

def arithmeticGates (types : ℕ) : List (String × GateDef) :=
  [("add_addi_auipc", quadratic []
      (([kindAdd, kindAddi, kindAuipc].flatMap fun bit =>
        [(lit 1, bit, vRs1), (lit 1, bit, vRs2), (lit 1, bit, decodedImm), (neg 1, bit, sel),
          (neg (2 ^ 32), bit, wrap types)]) ++ [(lit 1, kindAuipc, pc)])),
    ("sub", quadratic []
      [(lit 1, kindSub, vRs1), (neg 1, kindSub, vRs2), (neg 1, kindSub, sel),
        (lit (2 ^ 32), kindSub, wrap types)]),
    ("lui", quadratic [] [(lit 1, kindLui, decodedImm), (neg 1, kindLui, sel)])]

/-- What a request writes to `a0`: zero in the base format, and in the recursion
format what the registry says. -/
def a0Rule (types : ℕ) : String × GateDef :=
  if types = Delegation.baseTypes then
    ("deleg_writes_no_register", quadratic [] [(lit 1, mDeleg, sel)])
  else
    ("deleg_a0_rule", quadratic
      ((List.range types).flatMap fun i =>
        if Delegation.baseTypes ≤ i then [(neg (4 * delegationWords i), isDelegation i)] else [])
      ((List.range types).flatMap fun i =>
        (lit 1, isDelegation i, sel) ::
          if Delegation.baseTypes ≤ i then [(neg 1, isDelegation i, vRs2)] else []))

def requestGates (types : ℕ) : List (String × GateDef) :=
  [("exit_status", quadratic []
      ([(lit 1, isEcall, vRd), (neg 1, isEcall, sel)] ++
        (isDeleg types).flatMap fun b => [(neg 1, b, vRd), (lit 1, b, sel)])),
    a0Rule types,
    ("deleg_read_ts_zero", quadratic [] [(lit 1, mDeleg, frame slotDeleg fieldReadTs)]),
    ("deleg_read_value_zero", quadratic [] [(lit 1, mDeleg, frame slotDeleg fieldReadValue)]),
    ("deleg_addr_rule", quadratic []
      [(lit 1, mDeleg, frame slotDeleg fieldAddr), (neg 1, mDeleg, vRs2)]),
    ("deleg_space_rule", linear ((lit 1, delegSpace queries.length) ::
      (List.range types).map fun i => (neg (delegationTag i), isDelegation i))),
    ("wrap_boolean", booleanity (wrap types)),
    ("pc_wrap_boolean", booleanity (pcWrap types)),
    ("next_pc_rule", quadratic
      ([(lit 1, nextPc), (lit (2 ^ 32), pcWrap types), (neg 1, decodedNextPc),
        (neg Clock.haltPc, isEcall)] ++ (isDeleg types).map fun b => (lit Clock.haltPc, b))
      ((lit 1, isEcall, decodedNextPc) :: (isDeleg types).map fun b => (neg 1, b, decodedNextPc)))]

/-- The family's three channels; it reads no packed table. -/
def channels (types : ℕ) : List ChannelSpec :=
  let multiplicity := fun i => (multiplicities types).getD i (.witness 0)
  [⟨LookupChannel.timestamp, [.virtual .range19], multiplicity 0⟩,
    ⟨LookupChannel.range16, [.virtual .range16], multiplicity 1⟩,
    ⟨LookupChannel.decoder, (List.range tableWidth).map .setup, multiplicity 2⟩]

/-- The sub-circuit that knows the registry's first `types` rows. -/
def build (types : ℕ) : FamilySpec where
  witness :=
    ["decoded_next_pc", "decoded_rs1", "decoded_rs2", "decoded_rd", "decoded_imm", "decoded_mask",
      "kind_system", "kind_addi", "kind_auipc", "kind_add", "kind_sub", "kind_lui", "is_ecall",
      "is_fence"] ++
    ((List.range types).map fun i => "is_deleg_" ++ toString (delegation i).1) ++
    ["wrap", "rd_hi", "pc_wrap", "next_pc_hi"] ++
    multiplicityNames [LookupChannel.timestamp, LookupChannel.range16, LookupChannel.decoder]
  setup :=
    ["table_pc", "table_next_pc", "table_rs1", "table_rs2", "table_rd", "table_imm",
      "table_extra_mask"]
  virtuals := [(.range19, "range19"), (.range16, "range16")]
  enforcing :=
    kindBooleans kindNames kinds ++ [("decoded_mask_bits", decodedMaskBits kinds decodedMask)] ++
    systemGates ++ (List.range types).flatMap numberGates ++
    [("ecall_is_exit", ecallIsExit types)] ++ operandGates types ++ arithmeticGates types ++
    requestGates types
  lookups := [
    range16 "rd_hi_range" (column (rdHi types)),
    range16 "rd_lo_range" (lowHalf sel (rdHi types)),
    range16 "next_pc_hi_range" (column (nextPcHi types)),
    range16 "next_pc_lo_range" (lowHalf nextPc (nextPcHi types)),
    decodeRow (pc :: decodedColumns)]
  channels := channels types

/-- The circuit over the family's frame. -/
def body (types : ℕ) : Body := frameBody queries (build types)

end Apogee.AddSub
