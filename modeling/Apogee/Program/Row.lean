import Apogee.Constants
import Mathlib.Data.BitVec

/-! # Instructions

The RV32IMA instruction set as the decoder names it, and the fields each form
carries. Registers are bytes and an immediate is its two's-complement word.
-/

namespace Apogee

/-- A register number, as the decoder stores it. -/
abbrev Reg := BitVec 8

inductive Instr
  | lui (rd : Reg) (imm : BitVec 32)
  | auipc (rd : Reg) (imm : BitVec 32)
  | jal (rd : Reg) (imm : BitVec 32)
  | jalr (rd rs1 : Reg) (imm : BitVec 32)
  | beq (rs1 rs2 : Reg) (imm : BitVec 32)
  | bne (rs1 rs2 : Reg) (imm : BitVec 32)
  | blt (rs1 rs2 : Reg) (imm : BitVec 32)
  | bge (rs1 rs2 : Reg) (imm : BitVec 32)
  | bltu (rs1 rs2 : Reg) (imm : BitVec 32)
  | bgeu (rs1 rs2 : Reg) (imm : BitVec 32)
  | lb (rd rs1 : Reg) (imm : BitVec 32)
  | lh (rd rs1 : Reg) (imm : BitVec 32)
  | lw (rd rs1 : Reg) (imm : BitVec 32)
  | lbu (rd rs1 : Reg) (imm : BitVec 32)
  | lhu (rd rs1 : Reg) (imm : BitVec 32)
  | sb (rs1 rs2 : Reg) (imm : BitVec 32)
  | sh (rs1 rs2 : Reg) (imm : BitVec 32)
  | sw (rs1 rs2 : Reg) (imm : BitVec 32)
  | addi (rd rs1 : Reg) (imm : BitVec 32)
  | slti (rd rs1 : Reg) (imm : BitVec 32)
  | sltiu (rd rs1 : Reg) (imm : BitVec 32)
  | xori (rd rs1 : Reg) (imm : BitVec 32)
  | ori (rd rs1 : Reg) (imm : BitVec 32)
  | andi (rd rs1 : Reg) (imm : BitVec 32)
  | slli (rd rs1 shamt : Reg)
  | srli (rd rs1 shamt : Reg)
  | srai (rd rs1 shamt : Reg)
  | add (rd rs1 rs2 : Reg)
  | sub (rd rs1 rs2 : Reg)
  | sll (rd rs1 rs2 : Reg)
  | slt (rd rs1 rs2 : Reg)
  | sltu (rd rs1 rs2 : Reg)
  | xor (rd rs1 rs2 : Reg)
  | srl (rd rs1 rs2 : Reg)
  | sra (rd rs1 rs2 : Reg)
  | or (rd rs1 rs2 : Reg)
  | and (rd rs1 rs2 : Reg)
  | fence (fm pred succ : BitVec 8)
  | ecall
  | ebreak
  | mul (rd rs1 rs2 : Reg)
  | mulh (rd rs1 rs2 : Reg)
  | mulhsu (rd rs1 rs2 : Reg)
  | mulhu (rd rs1 rs2 : Reg)
  | div (rd rs1 rs2 : Reg)
  | divu (rd rs1 rs2 : Reg)
  | rem (rd rs1 rs2 : Reg)
  | remu (rd rs1 rs2 : Reg)
  | lrW (rd rs1 : Reg) (aq rl : Bool)
  | scW (rd rs1 rs2 : Reg) (aq rl : Bool)
  | amoswapW (rd rs1 rs2 : Reg) (aq rl : Bool)
  | amoaddW (rd rs1 rs2 : Reg) (aq rl : Bool)
  | amoxorW (rd rs1 rs2 : Reg) (aq rl : Bool)
  | amoandW (rd rs1 rs2 : Reg) (aq rl : Bool)
  | amoorW (rd rs1 rs2 : Reg) (aq rl : Bool)
  | amominW (rd rs1 rs2 : Reg) (aq rl : Bool)
  | amomaxW (rd rs1 rs2 : Reg) (aq rl : Bool)
  | amominuW (rd rs1 rs2 : Reg) (aq rl : Bool)
  | amomaxuW (rd rs1 rs2 : Reg) (aq rl : Bool)
deriving DecidableEq

/-- An instruction's fields: absent where the form has none. -/
structure Fields where
  rd : Option Reg
  rs1 : Option Reg
  rs2 : Option Reg
  imm : Option (BitVec 32)
  funct3 : Option (BitVec 8)

namespace Fields

def u (rd : Reg) (imm : BitVec 32) : Fields := ⟨some rd, none, none, some imm, none⟩

def i (rd rs1 : Reg) (imm : BitVec 32) (funct3 : BitVec 8) : Fields :=
  ⟨some rd, some rs1, none, some imm, some funct3⟩

def s (rs1 rs2 : Reg) (imm : BitVec 32) (funct3 : BitVec 8) : Fields :=
  ⟨none, some rs1, some rs2, some imm, some funct3⟩

def r (rd rs1 rs2 : Reg) (funct3 : BitVec 8) : Fields :=
  ⟨some rd, some rs1, some rs2, none, some funct3⟩

def bare (funct3 : BitVec 8) : Fields := ⟨none, none, none, none, some funct3⟩

end Fields

/-- The fields of a form. -/
def Instr.fields : Instr → Fields
  | lui rd imm => .u rd imm
  | auipc rd imm => .u rd imm
  | jal rd imm => .u rd imm
  | jalr rd rs1 imm => .i rd rs1 imm 0b000
  | beq rs1 rs2 imm => .s rs1 rs2 imm 0b000
  | bne rs1 rs2 imm => .s rs1 rs2 imm 0b001
  | blt rs1 rs2 imm => .s rs1 rs2 imm 0b100
  | bge rs1 rs2 imm => .s rs1 rs2 imm 0b101
  | bltu rs1 rs2 imm => .s rs1 rs2 imm 0b110
  | bgeu rs1 rs2 imm => .s rs1 rs2 imm 0b111
  | lb rd rs1 imm => .i rd rs1 imm 0b000
  | lh rd rs1 imm => .i rd rs1 imm 0b001
  | lw rd rs1 imm => .i rd rs1 imm 0b010
  | lbu rd rs1 imm => .i rd rs1 imm 0b100
  | lhu rd rs1 imm => .i rd rs1 imm 0b101
  | sb rs1 rs2 imm => .s rs1 rs2 imm 0b000
  | sh rs1 rs2 imm => .s rs1 rs2 imm 0b001
  | sw rs1 rs2 imm => .s rs1 rs2 imm 0b010
  | addi rd rs1 imm => .i rd rs1 imm 0b000
  | slti rd rs1 imm => .i rd rs1 imm 0b010
  | sltiu rd rs1 imm => .i rd rs1 imm 0b011
  | xori rd rs1 imm => .i rd rs1 imm 0b100
  | ori rd rs1 imm => .i rd rs1 imm 0b110
  | andi rd rs1 imm => .i rd rs1 imm 0b111
  | slli rd rs1 shamt => .i rd rs1 (shamt.setWidth 32) 0b001
  | srli rd rs1 shamt => .i rd rs1 (shamt.setWidth 32) 0b101
  | srai rd rs1 shamt => .i rd rs1 (shamt.setWidth 32) 0b101
  | add rd rs1 rs2 => .r rd rs1 rs2 0b000
  | sub rd rs1 rs2 => .r rd rs1 rs2 0b000
  | sll rd rs1 rs2 => .r rd rs1 rs2 0b001
  | slt rd rs1 rs2 => .r rd rs1 rs2 0b010
  | sltu rd rs1 rs2 => .r rd rs1 rs2 0b011
  | xor rd rs1 rs2 => .r rd rs1 rs2 0b100
  | srl rd rs1 rs2 => .r rd rs1 rs2 0b101
  | sra rd rs1 rs2 => .r rd rs1 rs2 0b101
  | or rd rs1 rs2 => .r rd rs1 rs2 0b110
  | and rd rs1 rs2 => .r rd rs1 rs2 0b111
  | fence _ _ _ => .bare 0b000
  | ecall => .bare 0b000
  | ebreak => .bare 0b000
  | mul rd rs1 rs2 => .r rd rs1 rs2 0b000
  | mulh rd rs1 rs2 => .r rd rs1 rs2 0b001
  | mulhsu rd rs1 rs2 => .r rd rs1 rs2 0b010
  | mulhu rd rs1 rs2 => .r rd rs1 rs2 0b011
  | div rd rs1 rs2 => .r rd rs1 rs2 0b100
  | divu rd rs1 rs2 => .r rd rs1 rs2 0b101
  | rem rd rs1 rs2 => .r rd rs1 rs2 0b110
  | remu rd rs1 rs2 => .r rd rs1 rs2 0b111
  | lrW rd rs1 _ _ => ⟨some rd, some rs1, none, none, some 0b010⟩
  | scW rd rs1 rs2 _ _ => .r rd rs1 rs2 0b010
  | amoswapW rd rs1 rs2 _ _ => .r rd rs1 rs2 0b010
  | amoaddW rd rs1 rs2 _ _ => .r rd rs1 rs2 0b010
  | amoxorW rd rs1 rs2 _ _ => .r rd rs1 rs2 0b010
  | amoandW rd rs1 rs2 _ _ => .r rd rs1 rs2 0b010
  | amoorW rd rs1 rs2 _ _ => .r rd rs1 rs2 0b010
  | amominW rd rs1 rs2 _ _ => .r rd rs1 rs2 0b010
  | amomaxW rd rs1 rs2 _ _ => .r rd rs1 rs2 0b010
  | amominuW rd rs1 rs2 _ _ => .r rd rs1 rs2 0b010
  | amomaxuW rd rs1 rs2 _ _ => .r rd rs1 rs2 0b010

end Apogee

/-! ## Decoded rows

The row an instruction at a pc contributes to its family's decoded table: which
family claims it, which bit of the packed mask names it, and its fields in
column order.
-/

namespace Apogee

/-- The family that owns an instruction and the bit of its packed mask. -/
def rowKind : Instr → ℕ × ℕ
  | .ecall | .ebreak | .fence .. => (Family.addSubLuiAuipc, 0)
  | .addi .. => (Family.addSubLuiAuipc, 1)
  | .auipc .. => (Family.addSubLuiAuipc, 2)
  | .add .. => (Family.addSubLuiAuipc, 3)
  | .sub .. => (Family.addSubLuiAuipc, 4)
  | .lui .. => (Family.addSubLuiAuipc, 5)
  | .slti .. => (Family.jumpBranchSlt, 0)
  | .sltiu .. => (Family.jumpBranchSlt, 1)
  | .slt .. => (Family.jumpBranchSlt, 2)
  | .sltu .. => (Family.jumpBranchSlt, 3)
  | .beq .. => (Family.jumpBranchSlt, 4)
  | .bne .. => (Family.jumpBranchSlt, 5)
  | .blt .. => (Family.jumpBranchSlt, 6)
  | .bge .. => (Family.jumpBranchSlt, 7)
  | .bltu .. => (Family.jumpBranchSlt, 8)
  | .bgeu .. => (Family.jumpBranchSlt, 9)
  | .jalr .. => (Family.jumpBranchSlt, 10)
  | .jal .. => (Family.jumpBranchSlt, 11)
  | .slli .. => (Family.shiftBitwise, 0)
  | .xori .. => (Family.shiftBitwise, 1)
  | .srli .. => (Family.shiftBitwise, 2)
  | .srai .. => (Family.shiftBitwise, 3)
  | .ori .. => (Family.shiftBitwise, 4)
  | .andi .. => (Family.shiftBitwise, 5)
  | .sll .. => (Family.shiftBitwise, 6)
  | .xor .. => (Family.shiftBitwise, 7)
  | .srl .. => (Family.shiftBitwise, 8)
  | .sra .. => (Family.shiftBitwise, 9)
  | .or .. => (Family.shiftBitwise, 10)
  | .and .. => (Family.shiftBitwise, 11)
  | .mul .. => (Family.mulDiv, 0)
  | .mulh .. => (Family.mulDiv, 1)
  | .mulhsu .. => (Family.mulDiv, 2)
  | .mulhu .. => (Family.mulDiv, 3)
  | .div .. => (Family.mulDiv, 4)
  | .divu .. => (Family.mulDiv, 5)
  | .rem .. => (Family.mulDiv, 6)
  | .remu .. => (Family.mulDiv, 7)
  | .lw .. => (Family.memWord, 0)
  | .sw .. => (Family.memWord, 1)
  | .lb .. => (Family.memSubword, 0)
  | .lh .. => (Family.memSubword, 1)
  | .lbu .. => (Family.memSubword, 2)
  | .lhu .. => (Family.memSubword, 3)
  | .sb .. => (Family.memSubword, 4)
  | .sh .. => (Family.memSubword, 5)
  | .amoaddW .. => (Family.atomics, 0)
  | .amoswapW .. => (Family.atomics, 1)
  | .lrW .. => (Family.atomics, 2)
  | .scW .. => (Family.atomics, 3)
  | .amoxorW .. => (Family.atomics, 4)
  | .amoorW .. => (Family.atomics, 5)
  | .amoandW .. => (Family.atomics, 6)
  | .amominW .. => (Family.atomics, 7)
  | .amomaxW .. => (Family.atomics, 8)
  | .amominuW .. => (Family.atomics, 9)
  | .amomaxuW .. => (Family.atomics, 10)

/-- The row's immediate: the value the instruction uses, or the system code. -/
def rowImm : Instr → BitVec 32
  | .ecall => BitVec.ofNat 32 SystemCode.ecall
  | .ebreak => BitVec.ofNat 32 SystemCode.ebreak
  | .fence .. => BitVec.ofNat 32 SystemCode.fence
  | instr => instr.fields.imm.getD 0

/-- The eight fields of an instruction's row, in column order: pc, fall-through,
`rs1`, `rs2`, `rd`, immediate, `funct3` and packed mask. -/
def rowValues (instr : Instr) (pc : BitVec 32) (compressed : Bool) : List (BitVec 32) :=
  [pc, pc + (if compressed then 2 else 4),
    (instr.fields.rs1.getD 0).setWidth 32, (instr.fields.rs2.getD 0).setWidth 32,
    (instr.fields.rd.getD 0).setWidth 32, rowImm instr,
    (instr.fields.funct3.getD 0).setWidth 32, BitVec.ofNat 32 (1 <<< (rowKind instr).2)]

/-- The columns of a family's decoded table, by their places in a row. -/
def lookupTuple (family : ℕ) : List ℕ :=
  if family = Family.addSubLuiAuipc ∨ family = Family.jumpBranchSlt ∨
      family = Family.shiftBitwise ∨ family = Family.memWord ∨ family = Family.memSubword then
    [0, 1, 2, 3, 4, 5, 7]
  else if family = Family.mulDiv ∨ family = Family.atomics then [0, 1, 2, 3, 4, 7]
  else []

/-- An instruction's row in its family's decoded table. -/
def decodedTuple (instr : Instr) (pc : BitVec 32) (compressed : Bool) : List (BitVec 32) :=
  (lookupTuple (rowKind instr).1).map fun place => (rowValues instr pc compressed).getD place 0

end Apogee
