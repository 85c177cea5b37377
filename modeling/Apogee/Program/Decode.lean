import Apogee.Program.Row
import Mathlib.Tactic.IntervalCases

/-! # Decoding

Which instruction a 32-bit word is, or why it is none. The loader has expanded every
compressed halfword before a word comes here.
-/

namespace Apogee.Isa

/-- A refused word, and why. -/
structure DecodeError where
  word : BitVec 32
  reason : String
deriving DecidableEq

section Fields

variable (word : BitVec 32)

def rd : Reg := ((word >>> 7) &&& 0x1f).setWidth 8

def rs1 : Reg := ((word >>> 15) &&& 0x1f).setWidth 8

def rs2 : Reg := ((word >>> 20) &&& 0x1f).setWidth 8

def funct3 : ℕ := ((word >>> 12) &&& 0b111).toNat

def funct7 : ℕ := (word >>> 25).toNat

/-! An arithmetic shift of the whole word carries bit 31 down. -/

def immI : BitVec 32 := word.sshiftRight 20

def immS : BitVec 32 := (word.sshiftRight 25 <<< 5) ||| ((word >>> 7) &&& 0x1f)

def immB : BitVec 32 :=
  (word.sshiftRight 31 <<< 12) ||| (((word >>> 7) &&& 1) <<< 11) |||
    (((word >>> 25) &&& 0x3f) <<< 5) ||| (((word >>> 8) &&& 0xf) <<< 1)

def immU : BitVec 32 := word &&& 0xfffff000

def immJ : BitVec 32 :=
  (word.sshiftRight 31 <<< 20) ||| (word &&& 0x000ff000) ||| (((word >>> 20) &&& 1) <<< 11) |||
    (((word >>> 21) &&& 0x3ff) <<< 1)

def fm : BitVec 8 := (word >>> 28).setWidth 8

def pred : BitVec 8 := ((word >>> 24) &&& 0xf).setWidth 8

def succ : BitVec 8 := ((word >>> 20) &&& 0xf).setWidth 8

def funct5 : ℕ := (word >>> 27).toNat

def aq : Bool := (word >>> 26) &&& 1 = 1

def rl : Bool := (word >>> 25) &&& 1 = 1

end Fields

section Arms

variable (word : BitVec 32) (funct3 funct7 : ℕ) (rd rs1 rs2 : Reg) (imm : BitVec 32)

def refuse (reason : String) : Except DecodeError Instr := .error ⟨word, reason⟩

def jalrArm : Except DecodeError Instr :=
  match funct3 with
  | 0 => .ok (.jalr rd rs1 imm)
  | _ => refuse word "jalr: funct3 must be 000"

def branchArm : Except DecodeError Instr :=
  match funct3 with
  | 0b000 => .ok (.beq rs1 rs2 imm)
  | 0b001 => .ok (.bne rs1 rs2 imm)
  | 0b100 => .ok (.blt rs1 rs2 imm)
  | 0b101 => .ok (.bge rs1 rs2 imm)
  | 0b110 => .ok (.bltu rs1 rs2 imm)
  | 0b111 => .ok (.bgeu rs1 rs2 imm)
  | _ => refuse word "branch: funct3 010 and 011 are reserved"

def loadArm : Except DecodeError Instr :=
  match funct3 with
  | 0b000 => .ok (.lb rd rs1 imm)
  | 0b001 => .ok (.lh rd rs1 imm)
  | 0b010 => .ok (.lw rd rs1 imm)
  | 0b100 => .ok (.lbu rd rs1 imm)
  | 0b101 => .ok (.lhu rd rs1 imm)
  | _ => refuse word "load: funct3 011 and 110 are RV64's ld and lwu, 111 is reserved"

def storeArm : Except DecodeError Instr :=
  match funct3 with
  | 0b000 => .ok (.sb rs1 rs2 imm)
  | 0b001 => .ok (.sh rs1 rs2 imm)
  | 0b010 => .ok (.sw rs1 rs2 imm)
  | _ => refuse word "store: funct3 011 is RV64's sd, 1xx is reserved"

def opImmArm (shamt : Reg) : Except DecodeError Instr :=
  match funct3 with
  | 0b000 => .ok (.addi rd rs1 imm)
  | 0b010 => .ok (.slti rd rs1 imm)
  | 0b011 => .ok (.sltiu rd rs1 imm)
  | 0b100 => .ok (.xori rd rs1 imm)
  | 0b110 => .ok (.ori rd rs1 imm)
  | 0b111 => .ok (.andi rd rs1 imm)
  -- A shift keeps a funct7 in its immediate's top bits; bit 25 is RV64's shamt[5].
  | 0b001 =>
    match funct7 with
    | 0b0000000 => .ok (.slli rd rs1 shamt)
    | _ => refuse word "slli: funct7 must be 0000000 on RV32"
  | _ =>
    match funct7 with
    | 0b0000000 => .ok (.srli rd rs1 shamt)
    | 0b0100000 => .ok (.srai rd rs1 shamt)
    | _ => refuse word "srli/srai: funct7 must be 0000000 or 0100000 on RV32"

def opArm : Except DecodeError Instr :=
  match funct7, funct3 with
  | 0b0000000, 0b000 => .ok (.add rd rs1 rs2)
  | 0b0100000, 0b000 => .ok (.sub rd rs1 rs2)
  | 0b0000000, 0b001 => .ok (.sll rd rs1 rs2)
  | 0b0000000, 0b010 => .ok (.slt rd rs1 rs2)
  | 0b0000000, 0b011 => .ok (.sltu rd rs1 rs2)
  | 0b0000000, 0b100 => .ok (.xor rd rs1 rs2)
  | 0b0000000, 0b101 => .ok (.srl rd rs1 rs2)
  | 0b0100000, 0b101 => .ok (.sra rd rs1 rs2)
  | 0b0000000, 0b110 => .ok (.or rd rs1 rs2)
  | 0b0000000, 0b111 => .ok (.and rd rs1 rs2)
  | 0b0000001, 0b000 => .ok (.mul rd rs1 rs2)
  | 0b0000001, 0b001 => .ok (.mulh rd rs1 rs2)
  | 0b0000001, 0b010 => .ok (.mulhsu rd rs1 rs2)
  | 0b0000001, 0b011 => .ok (.mulhu rd rs1 rs2)
  | 0b0000001, 0b100 => .ok (.div rd rs1 rs2)
  | 0b0000001, 0b101 => .ok (.divu rd rs1 rs2)
  | 0b0000001, 0b110 => .ok (.rem rd rs1 rs2)
  | 0b0000001, 0b111 => .ok (.remu rd rs1 rs2)
  | _, _ => refuse word "register-register: no RV32IM operation has this funct7 and funct3"

def miscMemArm (fm pred succ : BitVec 8) : Except DecodeError Instr :=
  match funct3 with
  | 0b000 => .ok (.fence fm pred succ)
  | 0b001 =>
    refuse word "MISC-MEM: funct3 001 is fence.i (Zifencei), which RV32IMAC does not have"
  | _ => refuse word ("MISC-MEM: only funct3 000, fence, is RV32IMAC; " ++
      "the rest are other extensions or reserved")

def systemArm : Except DecodeError Instr :=
  match word.toNat with
  | 0x00000073 => .ok .ecall
  | 0x00100073 => .ok .ebreak
  | _ => refuse word ("SYSTEM: only ecall and ebreak; " ++
      "Zicsr and the privileged encodings are not RV32IMAC")

def amoArm (funct5 : ℕ) (aq rl : Bool) : Except DecodeError Instr :=
  if funct3 ≠ 0b010 then
    refuse word "AMO: funct3 must be 010, the .w width; 011 is RV64's .d"
  else
    match funct5 with
    | 0b00010 =>
      if rs2 = 0 then .ok (.lrW rd rs1 aq rl) else refuse word "lr.w: rs2 must be x0"
    | 0b00011 => .ok (.scW rd rs1 rs2 aq rl)
    | 0b00001 => .ok (.amoswapW rd rs1 rs2 aq rl)
    | 0b00000 => .ok (.amoaddW rd rs1 rs2 aq rl)
    | 0b00100 => .ok (.amoxorW rd rs1 rs2 aq rl)
    | 0b01100 => .ok (.amoandW rd rs1 rs2 aq rl)
    | 0b01000 => .ok (.amoorW rd rs1 rs2 aq rl)
    | 0b10000 => .ok (.amominW rd rs1 rs2 aq rl)
    | 0b10100 => .ok (.amomaxW rd rs1 rs2 aq rl)
    | 0b11000 => .ok (.amominuW rd rs1 rs2 aq rl)
    | 0b11100 => .ok (.amomaxuW rd rs1 rs2 aq rl)
    | _ => refuse word "AMO: no A-extension operation has this funct5"

end Arms

/-- Decode one expanded 32-bit instruction word. -/
def decode (word : BitVec 32) : Except DecodeError Instr :=
  if word &&& 0b11 ≠ 0b11 then
    refuse word "bits 1:0 are not 11: a compressed encoding, which the loader expands first"
  else
    match (word &&& 0x7f).toNat with
    | 0x37 => .ok (.lui (rd word) (immU word))
    | 0x17 => .ok (.auipc (rd word) (immU word))
    | 0x6f => .ok (.jal (rd word) (immJ word))
    | 0x67 => jalrArm word (funct3 word) (rd word) (rs1 word) (immI word)
    | 0x63 => branchArm word (funct3 word) (rs1 word) (rs2 word) (immB word)
    | 0x03 => loadArm word (funct3 word) (rd word) (rs1 word) (immI word)
    | 0x23 => storeArm word (funct3 word) (rs1 word) (rs2 word) (immS word)
    | 0x13 =>
      opImmArm word (funct3 word) (funct7 word) (rd word) (rs1 word) (immI word) (rs2 word)
    | 0x33 => opArm word (funct3 word) (funct7 word) (rd word) (rs1 word) (rs2 word)
    | 0x0f => miscMemArm word (funct3 word) (fm word) (pred word) (succ word)
    | 0x73 => systemArm word
    | 0x2f =>
      amoArm word (funct3 word) (rd word) (rs1 word) (rs2 word) (funct5 word) (aq word) (rl word)
    | _ => refuse word "an opcode RV32IMAC does not have"

/-! ## The encodings

The base formats over field values, and the words the RV32IMA listings give each
instruction: an operand field holds any value, and an immediate is the sign extension of
the bits its format scatters.
-/

section Formats

variable (rs2 rs1 rd : BitVec 5) (funct3 : BitVec 3) (opcode : BitVec 7)

def rWord (funct7 : BitVec 7) : BitVec 32 := funct7 ++ rs2 ++ rs1 ++ funct3 ++ rd ++ opcode

/-- The word of `imm[11:0]`. -/
def iWord (imm : BitVec 12) : BitVec 32 := imm ++ rs1 ++ funct3 ++ rd ++ opcode

/-- The word of `imm[11:0]`, as `imm[11:5]` and `imm[4:0]`. -/
def sWord (imm : BitVec 12) : BitVec 32 :=
  rWord rs2 rs1 (imm.extractLsb' 0 5) funct3 opcode (imm.extractLsb' 5 7)

/-- The word of `imm[12:1]`, as `imm[12|10:5]` and `imm[4:1|11]`. -/
def bWord (imm : BitVec 12) : BitVec 32 :=
  rWord rs2 rs1 (imm.extractLsb' 0 4 ++ imm.extractLsb' 10 1) funct3 opcode
    (imm.extractLsb' 11 1 ++ imm.extractLsb' 4 6)

/-- The word of `imm[31:12]`. -/
def uWord (imm : BitVec 20) : BitVec 32 := imm ++ rd ++ opcode

/-- The word of `imm[20:1]`, as `imm[20|10:1|11|19:12]`. -/
def jWord (imm : BitVec 20) : BitVec 32 :=
  uWord rd opcode
    (imm.extractLsb' 19 1 ++ imm.extractLsb' 0 10 ++ imm.extractLsb' 10 1 ++ imm.extractLsb' 11 8)

end Formats

/-- The word of an atomic: `funct5` and the two ordering bits in the place of `funct7`. -/
def amoWord (rs2 rs1 rd : BitVec 5) (aq rl : Bool) (funct5 : BitVec 5) : BitVec 32 :=
  rWord rs2 rs1 rd 0b010 0x2f (funct5 ++ BitVec.ofBool aq ++ BitVec.ofBool rl)

/-- A register field's number. -/
def reg (field : BitVec 5) : Reg := field.setWidth 8

/-- The value of an immediate of the I and S formats. -/
def signed (imm : BitVec 12) : BitVec 32 := imm.signExtend 32

/-- The value of a branch or jump immediate: its bit 0 is not encoded. -/
def signedEven {n : ℕ} (imm : BitVec n) : BitVec 32 := (imm ++ 0#1).signExtend 32

/-- The value of an upper immediate. -/
def upper (imm : BitVec 20) : BitVec 32 := imm ++ 0#12

/-- The words the listings give to an instruction. -/
inductive Encodes : BitVec 32 → Instr → Prop
  | lui (rd imm) : Encodes (uWord rd 0x37 imm) (.lui (reg rd) (upper imm))
  | auipc (rd imm) : Encodes (uWord rd 0x17 imm) (.auipc (reg rd) (upper imm))
  | jal (rd imm) : Encodes (jWord rd 0x6f imm) (.jal (reg rd) (signedEven imm))
  | jalr (rs1 rd imm) :
    Encodes (iWord rs1 rd 0b000 0x67 imm) (.jalr (reg rd) (reg rs1) (signed imm))
  | beq (rs2 rs1 imm) :
    Encodes (bWord rs2 rs1 0b000 0x63 imm) (.beq (reg rs1) (reg rs2) (signedEven imm))
  | bne (rs2 rs1 imm) :
    Encodes (bWord rs2 rs1 0b001 0x63 imm) (.bne (reg rs1) (reg rs2) (signedEven imm))
  | blt (rs2 rs1 imm) :
    Encodes (bWord rs2 rs1 0b100 0x63 imm) (.blt (reg rs1) (reg rs2) (signedEven imm))
  | bge (rs2 rs1 imm) :
    Encodes (bWord rs2 rs1 0b101 0x63 imm) (.bge (reg rs1) (reg rs2) (signedEven imm))
  | bltu (rs2 rs1 imm) :
    Encodes (bWord rs2 rs1 0b110 0x63 imm) (.bltu (reg rs1) (reg rs2) (signedEven imm))
  | bgeu (rs2 rs1 imm) :
    Encodes (bWord rs2 rs1 0b111 0x63 imm) (.bgeu (reg rs1) (reg rs2) (signedEven imm))
  | lb (rs1 rd imm) :
    Encodes (iWord rs1 rd 0b000 0x03 imm) (.lb (reg rd) (reg rs1) (signed imm))
  | lh (rs1 rd imm) :
    Encodes (iWord rs1 rd 0b001 0x03 imm) (.lh (reg rd) (reg rs1) (signed imm))
  | lw (rs1 rd imm) :
    Encodes (iWord rs1 rd 0b010 0x03 imm) (.lw (reg rd) (reg rs1) (signed imm))
  | lbu (rs1 rd imm) :
    Encodes (iWord rs1 rd 0b100 0x03 imm) (.lbu (reg rd) (reg rs1) (signed imm))
  | lhu (rs1 rd imm) :
    Encodes (iWord rs1 rd 0b101 0x03 imm) (.lhu (reg rd) (reg rs1) (signed imm))
  | sb (rs2 rs1 imm) :
    Encodes (sWord rs2 rs1 0b000 0x23 imm) (.sb (reg rs1) (reg rs2) (signed imm))
  | sh (rs2 rs1 imm) :
    Encodes (sWord rs2 rs1 0b001 0x23 imm) (.sh (reg rs1) (reg rs2) (signed imm))
  | sw (rs2 rs1 imm) :
    Encodes (sWord rs2 rs1 0b010 0x23 imm) (.sw (reg rs1) (reg rs2) (signed imm))
  | addi (rs1 rd imm) :
    Encodes (iWord rs1 rd 0b000 0x13 imm) (.addi (reg rd) (reg rs1) (signed imm))
  | slti (rs1 rd imm) :
    Encodes (iWord rs1 rd 0b010 0x13 imm) (.slti (reg rd) (reg rs1) (signed imm))
  | sltiu (rs1 rd imm) :
    Encodes (iWord rs1 rd 0b011 0x13 imm) (.sltiu (reg rd) (reg rs1) (signed imm))
  | xori (rs1 rd imm) :
    Encodes (iWord rs1 rd 0b100 0x13 imm) (.xori (reg rd) (reg rs1) (signed imm))
  | ori (rs1 rd imm) :
    Encodes (iWord rs1 rd 0b110 0x13 imm) (.ori (reg rd) (reg rs1) (signed imm))
  | andi (rs1 rd imm) :
    Encodes (iWord rs1 rd 0b111 0x13 imm) (.andi (reg rd) (reg rs1) (signed imm))
  | slli (shamt rs1 rd) :
    Encodes (rWord shamt rs1 rd 0b001 0x13 0b0000000) (.slli (reg rd) (reg rs1) (reg shamt))
  | srli (shamt rs1 rd) :
    Encodes (rWord shamt rs1 rd 0b101 0x13 0b0000000) (.srli (reg rd) (reg rs1) (reg shamt))
  | srai (shamt rs1 rd) :
    Encodes (rWord shamt rs1 rd 0b101 0x13 0b0100000) (.srai (reg rd) (reg rs1) (reg shamt))
  | add (rs2 rs1 rd) :
    Encodes (rWord rs2 rs1 rd 0b000 0x33 0b0000000) (.add (reg rd) (reg rs1) (reg rs2))
  | sub (rs2 rs1 rd) :
    Encodes (rWord rs2 rs1 rd 0b000 0x33 0b0100000) (.sub (reg rd) (reg rs1) (reg rs2))
  | sll (rs2 rs1 rd) :
    Encodes (rWord rs2 rs1 rd 0b001 0x33 0b0000000) (.sll (reg rd) (reg rs1) (reg rs2))
  | slt (rs2 rs1 rd) :
    Encodes (rWord rs2 rs1 rd 0b010 0x33 0b0000000) (.slt (reg rd) (reg rs1) (reg rs2))
  | sltu (rs2 rs1 rd) :
    Encodes (rWord rs2 rs1 rd 0b011 0x33 0b0000000) (.sltu (reg rd) (reg rs1) (reg rs2))
  | xor (rs2 rs1 rd) :
    Encodes (rWord rs2 rs1 rd 0b100 0x33 0b0000000) (.xor (reg rd) (reg rs1) (reg rs2))
  | srl (rs2 rs1 rd) :
    Encodes (rWord rs2 rs1 rd 0b101 0x33 0b0000000) (.srl (reg rd) (reg rs1) (reg rs2))
  | sra (rs2 rs1 rd) :
    Encodes (rWord rs2 rs1 rd 0b101 0x33 0b0100000) (.sra (reg rd) (reg rs1) (reg rs2))
  | or (rs2 rs1 rd) :
    Encodes (rWord rs2 rs1 rd 0b110 0x33 0b0000000) (.or (reg rd) (reg rs1) (reg rs2))
  | and (rs2 rs1 rd) :
    Encodes (rWord rs2 rs1 rd 0b111 0x33 0b0000000) (.and (reg rd) (reg rs1) (reg rs2))
  | fence (fm pred succ : BitVec 4) (rs1 rd) :
    Encodes (iWord rs1 rd 0b000 0x0f (fm ++ pred ++ succ))
      (.fence (fm.setWidth 8) (pred.setWidth 8) (succ.setWidth 8))
  | ecall : Encodes (iWord 0 0 0b000 0x73 0) .ecall
  | ebreak : Encodes (iWord 0 0 0b000 0x73 1) .ebreak
  | mul (rs2 rs1 rd) :
    Encodes (rWord rs2 rs1 rd 0b000 0x33 0b0000001) (.mul (reg rd) (reg rs1) (reg rs2))
  | mulh (rs2 rs1 rd) :
    Encodes (rWord rs2 rs1 rd 0b001 0x33 0b0000001) (.mulh (reg rd) (reg rs1) (reg rs2))
  | mulhsu (rs2 rs1 rd) :
    Encodes (rWord rs2 rs1 rd 0b010 0x33 0b0000001) (.mulhsu (reg rd) (reg rs1) (reg rs2))
  | mulhu (rs2 rs1 rd) :
    Encodes (rWord rs2 rs1 rd 0b011 0x33 0b0000001) (.mulhu (reg rd) (reg rs1) (reg rs2))
  | div (rs2 rs1 rd) :
    Encodes (rWord rs2 rs1 rd 0b100 0x33 0b0000001) (.div (reg rd) (reg rs1) (reg rs2))
  | divu (rs2 rs1 rd) :
    Encodes (rWord rs2 rs1 rd 0b101 0x33 0b0000001) (.divu (reg rd) (reg rs1) (reg rs2))
  | rem (rs2 rs1 rd) :
    Encodes (rWord rs2 rs1 rd 0b110 0x33 0b0000001) (.rem (reg rd) (reg rs1) (reg rs2))
  | remu (rs2 rs1 rd) :
    Encodes (rWord rs2 rs1 rd 0b111 0x33 0b0000001) (.remu (reg rd) (reg rs1) (reg rs2))
  | lrW (rs1 rd aq rl) :
    Encodes (amoWord 0 rs1 rd aq rl 0b00010) (.lrW (reg rd) (reg rs1) aq rl)
  | scW (rs2 rs1 rd aq rl) :
    Encodes (amoWord rs2 rs1 rd aq rl 0b00011) (.scW (reg rd) (reg rs1) (reg rs2) aq rl)
  | amoswapW (rs2 rs1 rd aq rl) :
    Encodes (amoWord rs2 rs1 rd aq rl 0b00001) (.amoswapW (reg rd) (reg rs1) (reg rs2) aq rl)
  | amoaddW (rs2 rs1 rd aq rl) :
    Encodes (amoWord rs2 rs1 rd aq rl 0b00000) (.amoaddW (reg rd) (reg rs1) (reg rs2) aq rl)
  | amoxorW (rs2 rs1 rd aq rl) :
    Encodes (amoWord rs2 rs1 rd aq rl 0b00100) (.amoxorW (reg rd) (reg rs1) (reg rs2) aq rl)
  | amoandW (rs2 rs1 rd aq rl) :
    Encodes (amoWord rs2 rs1 rd aq rl 0b01100) (.amoandW (reg rd) (reg rs1) (reg rs2) aq rl)
  | amoorW (rs2 rs1 rd aq rl) :
    Encodes (amoWord rs2 rs1 rd aq rl 0b01000) (.amoorW (reg rd) (reg rs1) (reg rs2) aq rl)
  | amominW (rs2 rs1 rd aq rl) :
    Encodes (amoWord rs2 rs1 rd aq rl 0b10000) (.amominW (reg rd) (reg rs1) (reg rs2) aq rl)
  | amomaxW (rs2 rs1 rd aq rl) :
    Encodes (amoWord rs2 rs1 rd aq rl 0b10100) (.amomaxW (reg rd) (reg rs1) (reg rs2) aq rl)
  | amominuW (rs2 rs1 rd aq rl) :
    Encodes (amoWord rs2 rs1 rd aq rl 0b11000) (.amominuW (reg rd) (reg rs1) (reg rs2) aq rl)
  | amomaxuW (rs2 rs1 rd aq rl) :
    Encodes (amoWord rs2 rs1 rd aq rl 0b11100) (.amomaxuW (reg rd) (reg rs1) (reg rs2) aq rl)

/-! ## The fields of a format's word -/

section Words

variable (src2 src1 dst : BitVec 5) (f3 : BitVec 3) (op f7 : BitVec 7)

theorem getLsbD_rWord (i : ℕ) : (rWord src2 src1 dst f3 op f7).getLsbD i =
    if i < 7 then op.getLsbD i
    else if i < 12 then dst.getLsbD (i - 7)
    else if i < 15 then f3.getLsbD (i - 12)
    else if i < 20 then src1.getLsbD (i - 15)
    else if i < 25 then src2.getLsbD (i - 20)
    else f7.getLsbD (i - 25) := by
  simp only [rWord, BitVec.getLsbD_append]
  grind

theorem getLsbD_uWord (imm : BitVec 20) (i : ℕ) : (uWord dst op imm).getLsbD i =
    if i < 7 then op.getLsbD i
    else if i < 12 then dst.getLsbD (i - 7)
    else imm.getLsbD (i - 12) := by
  simp only [uWord, BitVec.getLsbD_append]
  grind

/-- Every word has the fields of the register format. -/
theorem exists_rWord (word : BitVec 32) :
    ∃ rs2 rs1 rd funct3 opcode funct7, word = rWord rs2 rs1 rd funct3 opcode funct7 := by
  refine ⟨word.extractLsb' 20 5, word.extractLsb' 15 5, word.extractLsb' 7 5,
    word.extractLsb' 12 3, word.extractLsb' 0 7, word.extractLsb' 25 7, ?_⟩
  apply BitVec.eq_of_getLsbD_eq
  intro i below
  simp only [getLsbD_rWord, BitVec.getLsbD_extractLsb']
  interval_cases i <;> simp

theorem eq_append (imm : BitVec 12) : imm.extractLsb' 5 7 ++ imm.extractLsb' 0 5 = imm := by
  apply BitVec.eq_of_getLsbD_eq
  intro i below
  simp only [BitVec.getLsbD_append, BitVec.getLsbD_extractLsb']
  interval_cases i <;> simp

theorem iWord_eq (imm : BitVec 12) : iWord src1 dst f3 op imm =
      rWord (imm.extractLsb' 0 5) src1 dst f3 op (imm.extractLsb' 5 7) := by
  apply BitVec.eq_of_getLsbD_eq
  intro i below
  simp only [getLsbD_rWord, iWord, BitVec.getLsbD_append, BitVec.getLsbD_extractLsb']
  interval_cases i <;> simp

theorem rWord_eq_iWord : rWord src2 src1 dst f3 op f7 = iWord src1 dst f3 op (f7 ++ src2) := by
  rw [iWord_eq]
  congr 1
  · apply BitVec.eq_of_getLsbD_eq
    intro i below
    simp only [BitVec.getLsbD_append, BitVec.getLsbD_extractLsb']
    interval_cases i <;> simp
  · apply BitVec.eq_of_getLsbD_eq
    intro i below
    simp only [BitVec.getLsbD_append, BitVec.getLsbD_extractLsb']
    interval_cases i <;> simp

theorem rWord_eq_sWord : rWord src2 src1 dst f3 op f7 = sWord src2 src1 f3 op (f7 ++ dst) := by
  apply BitVec.eq_of_getLsbD_eq
  intro i below
  simp only [getLsbD_rWord, sWord, BitVec.getLsbD_append, BitVec.getLsbD_extractLsb']
  interval_cases i <;> simp

theorem rWord_eq_bWord : rWord src2 src1 dst f3 op f7 = bWord src2 src1 f3 op
      (f7.extractLsb' 6 1 ++ dst.extractLsb' 0 1 ++ f7.extractLsb' 0 6 ++ dst.extractLsb' 1 4) := by
  apply BitVec.eq_of_getLsbD_eq
  intro i below
  simp only [getLsbD_rWord, bWord, BitVec.getLsbD_append, BitVec.getLsbD_extractLsb']
  interval_cases i <;> simp

theorem rWord_eq_uWord : rWord src2 src1 dst f3 op f7 =
    uWord dst op (f7 ++ src2 ++ src1 ++ f3) := by
  apply BitVec.eq_of_getLsbD_eq
  intro i below
  simp only [getLsbD_rWord, getLsbD_uWord, BitVec.getLsbD_append]
  interval_cases i <;> simp

theorem uWord_eq_jWord (imm : BitVec 20) : uWord dst op imm =
    jWord dst op (imm.extractLsb' 19 1 ++ imm.extractLsb' 0 8 ++ imm.extractLsb' 8 1 ++
      imm.extractLsb' 9 10) := by
  apply BitVec.eq_of_getLsbD_eq
  intro i below
  simp only [getLsbD_uWord, jWord, BitVec.getLsbD_append, BitVec.getLsbD_extractLsb']
  interval_cases i <;> simp

theorem opcode_uWord (imm : BitVec 20) : uWord dst op imm &&& 0x7f = op.setWidth 32 := by
  apply BitVec.eq_of_getLsbD_eq
  intro i below
  simp only [BitVec.getLsbD_and, getLsbD_uWord]
  interval_cases i <;> simp

theorem opcode_rWord : rWord src2 src1 dst f3 op f7 &&& 0x7f = op.setWidth 32 := by
  rw [rWord_eq_uWord, opcode_uWord]

theorem opcode_iWord (imm : BitVec 12) : iWord src1 dst f3 op imm &&& 0x7f = op.setWidth 32 := by
  rw [iWord_eq, opcode_rWord]

theorem opcode_sWord (imm : BitVec 12) : sWord src2 src1 f3 op imm &&& 0x7f = op.setWidth 32 := by
  rw [sWord, opcode_rWord]

theorem opcode_bWord (imm : BitVec 12) : bWord src2 src1 f3 op imm &&& 0x7f = op.setWidth 32 := by
  rw [bWord, opcode_rWord]

theorem opcode_jWord (imm : BitVec 20) : jWord dst op imm &&& 0x7f = op.setWidth 32 := by
  rw [jWord, opcode_uWord]

theorem rd_uWord (imm : BitVec 20) : rd (uWord dst op imm) = reg dst := by
  apply BitVec.eq_of_getLsbD_eq
  intro i below
  simp only [rd, reg, BitVec.getLsbD_setWidth, BitVec.getLsbD_and, BitVec.getLsbD_ushiftRight,
    getLsbD_uWord]
  interval_cases i <;> simp

theorem rd_rWord : rd (rWord src2 src1 dst f3 op f7) = reg dst := by
  rw [rWord_eq_uWord, rd_uWord]

theorem rs1_rWord : rs1 (rWord src2 src1 dst f3 op f7) = reg src1 := by
  apply BitVec.eq_of_getLsbD_eq
  intro i below
  simp only [rs1, reg, BitVec.getLsbD_setWidth, BitVec.getLsbD_and, BitVec.getLsbD_ushiftRight,
    getLsbD_rWord]
  interval_cases i <;> simp

theorem rs2_rWord : rs2 (rWord src2 src1 dst f3 op f7) = reg src2 := by
  apply BitVec.eq_of_getLsbD_eq
  intro i below
  simp only [rs2, reg, BitVec.getLsbD_setWidth, BitVec.getLsbD_and, BitVec.getLsbD_ushiftRight,
    getLsbD_rWord]
  interval_cases i <;> simp

theorem funct3_rWord : funct3 (rWord src2 src1 dst f3 op f7) = f3.toNat := by
  have field : (rWord src2 src1 dst f3 op f7 >>> 12) &&& 0b111 = f3.setWidth 32 := by
    apply BitVec.eq_of_getLsbD_eq
    intro i below
    simp only [BitVec.getLsbD_and, BitVec.getLsbD_ushiftRight, getLsbD_rWord]
    interval_cases i <;> simp
  rw [funct3, field, BitVec.toNat_setWidth_of_le (by norm_num)]

theorem rd_iWord (imm : BitVec 12) : rd (iWord src1 dst f3 op imm) = reg dst := by
  rw [iWord_eq, rd_rWord]

theorem rs1_iWord (imm : BitVec 12) : rs1 (iWord src1 dst f3 op imm) = reg src1 := by
  rw [iWord_eq, rs1_rWord]

theorem funct3_iWord (imm : BitVec 12) : funct3 (iWord src1 dst f3 op imm) = f3.toNat := by
  rw [iWord_eq, funct3_rWord]

theorem funct7_rWord : funct7 (rWord src2 src1 dst f3 op f7) = f7.toNat := by
  have field : rWord src2 src1 dst f3 op f7 >>> 25 = f7.setWidth 32 := by
    apply BitVec.eq_of_getLsbD_eq
    intro i below
    simp only [BitVec.getLsbD_ushiftRight, getLsbD_rWord]
    interval_cases i <;> simp
  rw [funct7, field, BitVec.toNat_setWidth_of_le (by norm_num)]

theorem fm_iWord (mode prior later : BitVec 4) :
    fm (iWord src1 dst f3 op (mode ++ prior ++ later)) = mode.setWidth 8 := by
  apply BitVec.eq_of_getLsbD_eq
  intro i below
  simp only [fm, iWord, BitVec.getLsbD_setWidth, BitVec.getLsbD_ushiftRight, BitVec.getLsbD_append]
  interval_cases i <;> simp

theorem pred_iWord (mode prior later : BitVec 4) :
    pred (iWord src1 dst f3 op (mode ++ prior ++ later)) = prior.setWidth 8 := by
  apply BitVec.eq_of_getLsbD_eq
  intro i below
  simp only [pred, iWord, BitVec.getLsbD_setWidth, BitVec.getLsbD_and, BitVec.getLsbD_ushiftRight,
    BitVec.getLsbD_append]
  interval_cases i <;> simp

theorem succ_iWord (mode prior later : BitVec 4) :
    succ (iWord src1 dst f3 op (mode ++ prior ++ later)) = later.setWidth 8 := by
  apply BitVec.eq_of_getLsbD_eq
  intro i below
  simp only [succ, iWord, BitVec.getLsbD_setWidth, BitVec.getLsbD_and, BitVec.getLsbD_ushiftRight,
    BitVec.getLsbD_append]
  interval_cases i <;> simp

/-- Twelve bits are three fields of four. -/
theorem exists_fence (imm : BitVec 12) : ∃ mode prior later : BitVec 4,
    imm = mode ++ prior ++ later := by
  refine ⟨imm.extractLsb' 8 4, imm.extractLsb' 4 4, imm.extractLsb' 0 4, ?_⟩
  apply BitVec.eq_of_getLsbD_eq
  intro i below
  simp only [BitVec.getLsbD_append, BitVec.getLsbD_extractLsb']
  interval_cases i <;> simp

theorem immI_iWord (imm : BitVec 12) : immI (iWord src1 dst f3 op imm) = signed imm := by
  apply BitVec.eq_of_getLsbD_eq
  intro i below
  simp only [immI, signed, iWord, BitVec.getLsbD_sshiftRight, BitVec.getLsbD_append,
    BitVec.getLsbD_signExtend, BitVec.msb_eq_getLsbD_last]
  interval_cases i <;> simp

theorem immS_sWord (imm : BitVec 12) : immS (sWord src2 src1 f3 op imm) = signed imm := by
  apply BitVec.eq_of_getLsbD_eq
  intro i below
  simp only [immS, signed, sWord, BitVec.getLsbD_or, BitVec.getLsbD_and, BitVec.getLsbD_shiftLeft,
    BitVec.getLsbD_ushiftRight, BitVec.getLsbD_sshiftRight, getLsbD_rWord,
    BitVec.getLsbD_extractLsb', BitVec.getLsbD_signExtend, BitVec.msb_eq_getLsbD_last]
  interval_cases i <;> simp

theorem immB_bWord (imm : BitVec 12) : immB (bWord src2 src1 f3 op imm) = signedEven imm := by
  apply BitVec.eq_of_getLsbD_eq
  intro i below
  simp only [immB, signedEven, bWord, BitVec.getLsbD_or, BitVec.getLsbD_and,
    BitVec.getLsbD_shiftLeft, BitVec.getLsbD_ushiftRight, BitVec.getLsbD_sshiftRight,
    getLsbD_rWord, BitVec.getLsbD_append, BitVec.getLsbD_extractLsb', BitVec.getLsbD_signExtend,
    BitVec.msb_eq_getLsbD_last]
  interval_cases i <;> simp

theorem immU_uWord (imm : BitVec 20) : immU (uWord dst op imm) = upper imm := by
  apply BitVec.eq_of_getLsbD_eq
  intro i below
  simp only [immU, upper, BitVec.getLsbD_and, getLsbD_uWord, BitVec.getLsbD_append]
  interval_cases i <;> simp

theorem immJ_jWord (imm : BitVec 20) : immJ (jWord dst op imm) = signedEven imm := by
  apply BitVec.eq_of_getLsbD_eq
  intro i below
  simp only [immJ, signedEven, jWord, BitVec.getLsbD_or, BitVec.getLsbD_and,
    BitVec.getLsbD_shiftLeft, BitVec.getLsbD_ushiftRight, BitVec.getLsbD_sshiftRight,
    getLsbD_uWord, BitVec.getLsbD_append, BitVec.getLsbD_extractLsb', BitVec.getLsbD_signExtend,
    BitVec.msb_eq_getLsbD_last]
  interval_cases i <;> simp

end Words

/-! ## Decoding is the listings -/

section Atomics

variable (src2 src1 dst : BitVec 5) (funct : BitVec 5) (acquire release : Bool)

theorem rWord_eq_amoWord (f7 : BitVec 7) : rWord src2 src1 dst 0b010 0x2f f7 =
    amoWord src2 src1 dst (f7.getLsbD 1) (f7.getLsbD 0) (f7.extractLsb' 2 5) := by
  have fields : f7 = f7.extractLsb' 2 5 ++ BitVec.ofBool (f7.getLsbD 1) ++
      BitVec.ofBool (f7.getLsbD 0) := by
    apply BitVec.eq_of_getLsbD_eq
    intro i below
    simp only [BitVec.getLsbD_append, BitVec.getLsbD_extractLsb', BitVec.getLsbD_ofBool]
    interval_cases i <;> simp
  rw [amoWord, ← fields]

theorem getLsbD_amoWord (i : ℕ) (high : 25 ≤ i) :
    (amoWord src2 src1 dst acquire release funct).getLsbD i =
      (funct ++ BitVec.ofBool acquire ++ BitVec.ofBool release).getLsbD (i - 25) := by
  rw [amoWord, getLsbD_rWord, if_neg (by omega), if_neg (by omega), if_neg (by omega),
    if_neg (by omega), if_neg (by omega)]

theorem funct5_amoWord : funct5 (amoWord src2 src1 dst acquire release funct) = funct.toNat := by
  have field : amoWord src2 src1 dst acquire release funct >>> 27 = funct.setWidth 32 := by
    apply BitVec.eq_of_getLsbD_eq
    intro i below
    rw [BitVec.getLsbD_ushiftRight, getLsbD_amoWord _ _ _ _ _ _ _ (by omega)]
    simp only [BitVec.getLsbD_append, BitVec.getLsbD_ofBool]
    interval_cases i <;> simp
  rw [funct5, field, BitVec.toNat_setWidth_of_le (by norm_num)]

/-- A word's low bit once shifted is its bit at that place. -/
theorem shifted_bit (word : BitVec 32) (i : ℕ) :
    decide ((word >>> i) &&& 1 = 1) = word.getLsbD i := by
  have low : (word >>> i) &&& 1 = (BitVec.ofBool ((word >>> i).getLsbD 0)).setWidth 32 :=
    BitVec.and_one_eq_setWidth_ofBool_getLsbD
  rw [low, BitVec.getLsbD_ushiftRight, Nat.add_zero]
  cases word.getLsbD i <;> rfl

theorem aq_amoWord : aq (amoWord src2 src1 dst acquire release funct) = acquire := by
  rw [aq, shifted_bit, getLsbD_amoWord _ _ _ _ _ _ _ (by omega)]
  simp only [BitVec.getLsbD_append, BitVec.getLsbD_ofBool]
  simp

theorem rl_amoWord : rl (amoWord src2 src1 dst acquire release funct) = release := by
  rw [rl, shifted_bit, getLsbD_amoWord _ _ _ _ _ _ _ (by omega)]
  simp only [BitVec.getLsbD_append, BitVec.getLsbD_ofBool]
  simp

end Atomics

section Arms

variable (src2 src1 dst : BitVec 5) (f3 : BitVec 3) (f7 : BitVec 7)

/-- The opcode's low bits are the wodsts. -/
theorem low_of_opcode {word : BitVec 32} {op : BitVec 7} (opcode : word &&& 0x7f = op.setWidth 32)
    (low : op.setWidth 32 &&& (0b11 : BitVec 32) = 0b11) : ¬word &&& 0b11 ≠ 0b11 := by
  rw [← opcode, BitVec.and_assoc] at low
  exact not_not.mpr low

theorem decode_lui (imm : BitVec 20) :
    decode (uWord dst 0x37 imm) = .ok (.lui (reg dst) (upper imm)) := by
  rw [decode, if_neg (low_of_opcode (opcode_uWord ..) (by decide)), opcode_uWord, rd_uWord,
    immU_uWord]
  rfl

theorem decode_auipc (imm : BitVec 20) :
    decode (uWord dst 0x17 imm) = .ok (.auipc (reg dst) (upper imm)) := by
  rw [decode, if_neg (low_of_opcode (opcode_uWord ..) (by decide)), opcode_uWord, rd_uWord,
    immU_uWord]
  rfl

theorem decode_jal (imm : BitVec 20) :
    decode (jWord dst 0x6f imm) = .ok (.jal (reg dst) (signedEven imm)) := by
  rw [decode, if_neg (low_of_opcode (opcode_jWord ..) (by decide)), opcode_jWord, immJ_jWord,
    jWord, rd_uWord]
  rfl

theorem decode_jalr (imm : BitVec 12) : decode (iWord src1 dst f3 0x67 imm) =
      jalrArm (iWord src1 dst f3 0x67 imm) f3.toNat (reg dst) (reg src1) (signed imm) := by
  rw [decode, if_neg (low_of_opcode (opcode_iWord ..) (by decide)), opcode_iWord]
  change jalrArm _ _ _ _ _ = _
  rw [funct3_iWord, rd_iWord, rs1_iWord, immI_iWord]

theorem decode_branch (imm : BitVec 12) : decode (bWord src2 src1 f3 0x63 imm) =
      branchArm (bWord src2 src1 f3 0x63 imm) f3.toNat (reg src1) (reg src2) (signedEven imm) := by
  rw [decode, if_neg (low_of_opcode (opcode_bWord ..) (by decide)), opcode_bWord]
  change branchArm _ _ _ _ _ = _
  rw [immB_bWord, bWord, funct3_rWord, rs1_rWord, rs2_rWord]

theorem decode_load (imm : BitVec 12) : decode (iWord src1 dst f3 0x03 imm) =
      loadArm (iWord src1 dst f3 0x03 imm) f3.toNat (reg dst) (reg src1) (signed imm) := by
  rw [decode, if_neg (low_of_opcode (opcode_iWord ..) (by decide)), opcode_iWord]
  change loadArm _ _ _ _ _ = _
  rw [funct3_iWord, rd_iWord, rs1_iWord, immI_iWord]

theorem decode_store (imm : BitVec 12) : decode (sWord src2 src1 f3 0x23 imm) =
      storeArm (sWord src2 src1 f3 0x23 imm) f3.toNat (reg src1) (reg src2) (signed imm) := by
  rw [decode, if_neg (low_of_opcode (opcode_sWord ..) (by decide)), opcode_sWord]
  change storeArm _ _ _ _ _ = _
  rw [immS_sWord, sWord, funct3_rWord, rs1_rWord, rs2_rWord]

theorem decode_opImm : decode (rWord src2 src1 dst f3 0x13 f7) =
      opImmArm (rWord src2 src1 dst f3 0x13 f7) f3.toNat f7.toNat (reg dst) (reg src1)
        (signed (f7 ++ src2)) (reg src2) := by
  rw [decode, if_neg (low_of_opcode (opcode_rWord ..) (by decide)), opcode_rWord]
  change opImmArm _ _ _ _ _ _ _ = _
  rw [funct3_rWord, funct7_rWord, rd_rWord, rs1_rWord, rs2_rWord, rWord_eq_iWord, immI_iWord]

theorem decode_opImm_iWord (imm : BitVec 12) : decode (iWord src1 dst f3 0x13 imm) =
      opImmArm (iWord src1 dst f3 0x13 imm) f3.toNat (imm.extractLsb' 5 7).toNat (reg dst)
        (reg src1) (signed imm) (reg (imm.extractLsb' 0 5)) := by
  rw [iWord_eq, decode_opImm, eq_append]

theorem decode_op : decode (rWord src2 src1 dst f3 0x33 f7) =
      opArm (rWord src2 src1 dst f3 0x33 f7) f3.toNat f7.toNat (reg dst) (reg src1) (reg src2) := by
  rw [decode, if_neg (low_of_opcode (opcode_rWord ..) (by decide)), opcode_rWord]
  change opArm _ _ _ _ _ _ = _
  rw [funct3_rWord, funct7_rWord, rd_rWord, rs1_rWord, rs2_rWord]

theorem decode_miscMem (mode prior later : BitVec 4) :
    decode (iWord src1 dst f3 0x0f (mode ++ prior ++ later)) =
      miscMemArm (iWord src1 dst f3 0x0f (mode ++ prior ++ later)) f3.toNat (mode.setWidth 8)
        (prior.setWidth 8) (later.setWidth 8) := by
  rw [decode, if_neg (low_of_opcode (opcode_iWord ..) (by decide)), opcode_iWord]
  change miscMemArm _ _ _ _ _ = _
  rw [funct3_iWord, fm_iWord, pred_iWord, succ_iWord]

theorem decode_system (imm : BitVec 12) :
    decode (iWord src1 dst f3 0x73 imm) = systemArm (iWord src1 dst f3 0x73 imm) := by
  rw [decode, if_neg (low_of_opcode (opcode_iWord ..) (by decide)), opcode_iWord]
  rfl

theorem decode_amo (funct : BitVec 5) (acquire release : Bool) :
    decode (amoWord src2 src1 dst acquire release funct) =
      amoArm (amoWord src2 src1 dst acquire release funct) 0b010 (reg dst) (reg src1) (reg src2)
        funct.toNat acquire release := by
  have opcode : amoWord src2 src1 dst acquire release funct &&& 0x7f =
      (0x2f : BitVec 7).setWidth 32 := opcode_rWord ..
  rw [decode, if_neg (low_of_opcode opcode (by decide)), opcode]
  change amoArm _ _ _ _ _ _ _ _ = _
  rw [funct5_amoWord, aq_amoWord, rl_amoWord, amoWord, funct3_rWord, rd_rWord, rs1_rWord,
    rs2_rWord]
  rfl

theorem decode_amo_width {f3 : BitVec 3} (width : f3 ≠ 0b010) :
    decode (rWord src2 src1 dst f3 0x2f f7) = refuse (rWord src2 src1 dst f3 0x2f f7)
        "AMO: funct3 must be 010, the .w width; 011 is RV64's .d" := by
  have field : funct3 (rWord src2 src1 dst f3 0x2f f7) ≠ 0b010 := by
    rw [funct3_rWord]
    exact fun value => width (BitVec.eq_of_toNat_eq value)
  rw [decode, if_neg (low_of_opcode (opcode_rWord ..) (by decide)), opcode_rWord]
  exact if_pos field

end Arms

section Inversion

variable {src2 src1 dst : BitVec 5} {f3 : BitVec 3} {f7 : BitVec 7} {word : BitVec 32} {i : Instr}

theorem eq_of_toNat {n k : ℕ} {field : BitVec n} (value : field.toNat = k) :
    field = BitVec.ofNat n k := by
  rw [← value, BitVec.ofNat_toNat, BitVec.setWidth_eq]

theorem reg_eq_zero (zero : reg src2 = 0) : src2 = 0 := by
  have value := congrArg BitVec.toNat zero
  rw [reg, BitVec.toNat_setWidth_of_le (by norm_num)] at value
  exact BitVec.eq_of_toNat_eq value

theorem jalrArm_encodes {imm : BitVec 12}
    (h : jalrArm word f3.toNat (reg dst) (reg src1) (signed imm) = .ok i) :
    Encodes (iWord src1 dst f3 0x67 imm) i := by
  unfold jalrArm at h
  split at h
  case _ found =>
    obtain rfl := eq_of_toNat found
    cases h
    exact .jalr ..
  all_goals cases h

theorem branchArm_encodes {imm : BitVec 12}
    (h : branchArm word f3.toNat (reg src1) (reg src2) (signedEven imm) = .ok i) :
    Encodes (bWord src2 src1 f3 0x63 imm) i := by
  unfold branchArm at h
  split at h
  case _ found =>
    obtain rfl := eq_of_toNat found
    cases h
    exact .beq ..
  case _ found =>
    obtain rfl := eq_of_toNat found
    cases h
    exact .bne ..
  case _ found =>
    obtain rfl := eq_of_toNat found
    cases h
    exact .blt ..
  case _ found =>
    obtain rfl := eq_of_toNat found
    cases h
    exact .bge ..
  case _ found =>
    obtain rfl := eq_of_toNat found
    cases h
    exact .bltu ..
  case _ found =>
    obtain rfl := eq_of_toNat found
    cases h
    exact .bgeu ..
  all_goals cases h

theorem loadArm_encodes {imm : BitVec 12}
    (h : loadArm word f3.toNat (reg dst) (reg src1) (signed imm) = .ok i) :
    Encodes (iWord src1 dst f3 0x03 imm) i := by
  unfold loadArm at h
  split at h
  case _ found =>
    obtain rfl := eq_of_toNat found
    cases h
    exact .lb ..
  case _ found =>
    obtain rfl := eq_of_toNat found
    cases h
    exact .lh ..
  case _ found =>
    obtain rfl := eq_of_toNat found
    cases h
    exact .lw ..
  case _ found =>
    obtain rfl := eq_of_toNat found
    cases h
    exact .lbu ..
  case _ found =>
    obtain rfl := eq_of_toNat found
    cases h
    exact .lhu ..
  all_goals cases h

theorem storeArm_encodes {imm : BitVec 12}
    (h : storeArm word f3.toNat (reg src1) (reg src2) (signed imm) = .ok i) :
    Encodes (sWord src2 src1 f3 0x23 imm) i := by
  unfold storeArm at h
  split at h
  case _ found =>
    obtain rfl := eq_of_toNat found
    cases h
    exact .sb ..
  case _ found =>
    obtain rfl := eq_of_toNat found
    cases h
    exact .sh ..
  case _ found =>
    obtain rfl := eq_of_toNat found
    cases h
    exact .sw ..
  all_goals cases h

theorem opImmArm_encodes
    (h : opImmArm word f3.toNat f7.toNat (reg dst) (reg src1) (signed (f7 ++ src2)) (reg src2) =
      .ok i) :
    Encodes (rWord src2 src1 dst f3 0x13 f7) i := by
  unfold opImmArm at h
  split at h
  case _ found =>
    obtain rfl := eq_of_toNat found
    cases h
    rw [rWord_eq_iWord]
    exact .addi ..
  case _ found =>
    obtain rfl := eq_of_toNat found
    cases h
    rw [rWord_eq_iWord]
    exact .slti ..
  case _ found =>
    obtain rfl := eq_of_toNat found
    cases h
    rw [rWord_eq_iWord]
    exact .sltiu ..
  case _ found =>
    obtain rfl := eq_of_toNat found
    cases h
    rw [rWord_eq_iWord]
    exact .xori ..
  case _ found =>
    obtain rfl := eq_of_toNat found
    cases h
    rw [rWord_eq_iWord]
    exact .ori ..
  case _ found =>
    obtain rfl := eq_of_toNat found
    cases h
    rw [rWord_eq_iWord]
    exact .andi ..
  case _ found =>
    obtain rfl := eq_of_toNat found
    split at h
    case _ found =>
      obtain rfl := eq_of_toNat found
      cases h
      exact .slli ..
    case _ => cases h
  -- The one `funct3` left is the right shifts'.
  case _ no₀ no₂ no₃ no₄ no₆ no₇ no₁ =>
    have found : f3.toNat = 5 := by
      have := f3.isLt
      grind
    obtain rfl := eq_of_toNat found
    split at h
    case _ found =>
      obtain rfl := eq_of_toNat found
      cases h
      exact .srli ..
    case _ found =>
      obtain rfl := eq_of_toNat found
      cases h
      exact .srai ..
    case _ => cases h

theorem opArm_encodes (h : opArm word f3.toNat f7.toNat (reg dst) (reg src1) (reg src2) = .ok i) :
    Encodes (rWord src2 src1 dst f3 0x33 f7) i := by
  unfold opArm at h
  split at h
  case _ seven three =>
    obtain ⟨rfl, rfl⟩ := And.intro (eq_of_toNat seven) (eq_of_toNat three)
    cases h
    exact .add ..
  case _ seven three =>
    obtain ⟨rfl, rfl⟩ := And.intro (eq_of_toNat seven) (eq_of_toNat three)
    cases h
    exact .sub ..
  case _ seven three =>
    obtain ⟨rfl, rfl⟩ := And.intro (eq_of_toNat seven) (eq_of_toNat three)
    cases h
    exact .sll ..
  case _ seven three =>
    obtain ⟨rfl, rfl⟩ := And.intro (eq_of_toNat seven) (eq_of_toNat three)
    cases h
    exact .slt ..
  case _ seven three =>
    obtain ⟨rfl, rfl⟩ := And.intro (eq_of_toNat seven) (eq_of_toNat three)
    cases h
    exact .sltu ..
  case _ seven three =>
    obtain ⟨rfl, rfl⟩ := And.intro (eq_of_toNat seven) (eq_of_toNat three)
    cases h
    exact .xor ..
  case _ seven three =>
    obtain ⟨rfl, rfl⟩ := And.intro (eq_of_toNat seven) (eq_of_toNat three)
    cases h
    exact .srl ..
  case _ seven three =>
    obtain ⟨rfl, rfl⟩ := And.intro (eq_of_toNat seven) (eq_of_toNat three)
    cases h
    exact .sra ..
  case _ seven three =>
    obtain ⟨rfl, rfl⟩ := And.intro (eq_of_toNat seven) (eq_of_toNat three)
    cases h
    exact .or ..
  case _ seven three =>
    obtain ⟨rfl, rfl⟩ := And.intro (eq_of_toNat seven) (eq_of_toNat three)
    cases h
    exact .and ..
  case _ seven three =>
    obtain ⟨rfl, rfl⟩ := And.intro (eq_of_toNat seven) (eq_of_toNat three)
    cases h
    exact .mul ..
  case _ seven three =>
    obtain ⟨rfl, rfl⟩ := And.intro (eq_of_toNat seven) (eq_of_toNat three)
    cases h
    exact .mulh ..
  case _ seven three =>
    obtain ⟨rfl, rfl⟩ := And.intro (eq_of_toNat seven) (eq_of_toNat three)
    cases h
    exact .mulhsu ..
  case _ seven three =>
    obtain ⟨rfl, rfl⟩ := And.intro (eq_of_toNat seven) (eq_of_toNat three)
    cases h
    exact .mulhu ..
  case _ seven three =>
    obtain ⟨rfl, rfl⟩ := And.intro (eq_of_toNat seven) (eq_of_toNat three)
    cases h
    exact .div ..
  case _ seven three =>
    obtain ⟨rfl, rfl⟩ := And.intro (eq_of_toNat seven) (eq_of_toNat three)
    cases h
    exact .divu ..
  case _ seven three =>
    obtain ⟨rfl, rfl⟩ := And.intro (eq_of_toNat seven) (eq_of_toNat three)
    cases h
    exact .rem ..
  case _ seven three =>
    obtain ⟨rfl, rfl⟩ := And.intro (eq_of_toNat seven) (eq_of_toNat three)
    cases h
    exact .remu ..
  case _ => cases h

theorem miscMemArm_encodes {mode prior later : BitVec 4}
    (h : miscMemArm word f3.toNat (mode.setWidth 8) (prior.setWidth 8) (later.setWidth 8) = .ok i) :
    Encodes (iWord src1 dst f3 0x0f (mode ++ prior ++ later)) i := by
  unfold miscMemArm at h
  split at h
  case _ found =>
    obtain rfl := eq_of_toNat found
    cases h
    exact .fence ..
  all_goals cases h

theorem systemArm_encodes (h : systemArm word = .ok i) : Encodes word i := by
  unfold systemArm at h
  split at h
  case _ found =>
    obtain rfl := eq_of_toNat found
    cases h
    exact .ecall
  case _ found =>
    obtain rfl := eq_of_toNat found
    cases h
    exact .ebreak
  case _ => cases h

theorem amoArm_encodes {funct : BitVec 5} {acquire release : Bool}
    (h : amoArm word 0b010 (reg dst) (reg src1) (reg src2) funct.toNat acquire release = .ok i) :
    Encodes (amoWord src2 src1 dst acquire release funct) i := by
  unfold amoArm at h
  rw [if_neg (not_not.mpr rfl)] at h
  split at h
  case _ found =>
    obtain rfl := eq_of_toNat found
    split at h
    case isTrue zero =>
      obtain rfl := reg_eq_zero zero
      cases h
      exact .lrW ..
    case isFalse => cases h
  case _ found =>
    obtain rfl := eq_of_toNat found
    cases h
    exact .scW ..
  case _ found =>
    obtain rfl := eq_of_toNat found
    cases h
    exact .amoswapW ..
  case _ found =>
    obtain rfl := eq_of_toNat found
    cases h
    exact .amoaddW ..
  case _ found =>
    obtain rfl := eq_of_toNat found
    cases h
    exact .amoxorW ..
  case _ found =>
    obtain rfl := eq_of_toNat found
    cases h
    exact .amoandW ..
  case _ found =>
    obtain rfl := eq_of_toNat found
    cases h
    exact .amoorW ..
  case _ found =>
    obtain rfl := eq_of_toNat found
    cases h
    exact .amominW ..
  case _ found =>
    obtain rfl := eq_of_toNat found
    cases h
    exact .amomaxW ..
  case _ found =>
    obtain rfl := eq_of_toNat found
    cases h
    exact .amominuW ..
  case _ found =>
    obtain rfl := eq_of_toNat found
    cases h
    exact .amomaxuW ..
  case _ => cases h

theorem opcode_of_ok (h : decode word = .ok i) : (word &&& 0x7f).toNat ∈
    [0x37, 0x17, 0x6f, 0x67, 0x63, 0x03, 0x23, 0x13, 0x33, 0x0f, 0x73, 0x2f] := by
  rw [decode] at h
  split at h
  case isTrue => cases h
  case isFalse =>
    split at h
    case h_13 => cases h
    all_goals
      rename_i found
      rw [found]
      decide

/-- A decoded word is one the listings give the instruction. -/
theorem encodes_of_decode (h : decode word = .ok i) : Encodes word i := by
  have opcode := opcode_of_ok h
  obtain ⟨src2, src1, dst, f3, op, f7, rfl⟩ := exists_rWord word
  rw [opcode_rWord, BitVec.toNat_setWidth_of_le (by norm_num)] at opcode
  simp only [List.mem_cons, List.not_mem_nil, or_false] at opcode
  rcases opcode with lui | auipc | jal | jalr | branch | load | store | opImm | reg | miscMem |
    system | amo
  · obtain rfl : op = 0x37 := eq_of_toNat lui
    rw [rWord_eq_uWord] at h ⊢
    cases (decode_lui ..).symm.trans h
    exact .lui ..
  · obtain rfl : op = 0x17 := eq_of_toNat auipc
    rw [rWord_eq_uWord] at h ⊢
    cases (decode_auipc ..).symm.trans h
    exact .auipc ..
  · obtain rfl : op = 0x6f := eq_of_toNat jal
    rw [rWord_eq_uWord, uWord_eq_jWord] at h ⊢
    cases (decode_jal ..).symm.trans h
    exact .jal ..
  · obtain rfl : op = 0x67 := eq_of_toNat jalr
    rw [rWord_eq_iWord] at h ⊢
    exact jalrArm_encodes ((decode_jalr ..).symm.trans h)
  · obtain rfl : op = 0x63 := eq_of_toNat branch
    rw [rWord_eq_bWord] at h ⊢
    exact branchArm_encodes ((decode_branch ..).symm.trans h)
  · obtain rfl : op = 0x03 := eq_of_toNat load
    rw [rWord_eq_iWord] at h ⊢
    exact loadArm_encodes ((decode_load ..).symm.trans h)
  · obtain rfl : op = 0x23 := eq_of_toNat store
    rw [rWord_eq_sWord] at h ⊢
    exact storeArm_encodes ((decode_store ..).symm.trans h)
  · obtain rfl : op = 0x13 := eq_of_toNat opImm
    exact opImmArm_encodes ((decode_opImm ..).symm.trans h)
  · obtain rfl : op = 0x33 := eq_of_toNat reg
    exact opArm_encodes ((decode_op ..).symm.trans h)
  · obtain rfl : op = 0x0f := eq_of_toNat miscMem
    rw [rWord_eq_iWord] at h ⊢
    obtain ⟨mode, prior, later, fields⟩ := exists_fence (f7 ++ src2)
    rw [fields] at h ⊢
    exact miscMemArm_encodes ((decode_miscMem ..).symm.trans h)
  · obtain rfl : op = 0x73 := eq_of_toNat system
    rw [rWord_eq_iWord] at h ⊢
    exact systemArm_encodes ((decode_system ..).symm.trans h)
  · obtain rfl : op = 0x2f := eq_of_toNat amo
    by_cases width : f3 = 0b010
    · subst width
      rw [rWord_eq_amoWord] at h ⊢
      exact amoArm_encodes ((decode_amo ..).symm.trans h)
    · rw [decode_amo_width _ _ _ _ width] at h
      cases h

end Inversion

/-- The listings' words decode to their instructions. -/
theorem decode_of_encodes {word : BitVec 32} {i : Instr} (encodes : Encodes word i) :
    decode word = .ok i := by
  cases encodes with
  | lui => exact decode_lui ..
  | auipc => exact decode_auipc ..
  | jal => exact decode_jal ..
  | jalr => exact decode_jalr ..
  | beq | bne | blt | bge | bltu | bgeu => exact decode_branch ..
  | lb | lh | lw | lbu | lhu => exact decode_load ..
  | sb | sh | sw => exact decode_store ..
  | addi | slti | sltiu | xori | ori | andi =>
    exact decode_opImm_iWord ..
  | slli | srli | srai => exact decode_opImm ..
  | add | sub | sll | slt | sltu | xor | srl | sra | or | and => exact decode_op ..
  | mul | mulh | mulhsu | mulhu | div | divu | rem | remu => exact decode_op ..
  | fence => exact decode_miscMem ..
  | ecall | ebreak => exact decode_system ..
  | lrW | scW | amoswapW | amoaddW | amoxorW | amoandW | amoorW | amominW | amomaxW | amominuW |
    amomaxuW => exact decode_amo ..

end Apogee.Isa
