import Mathlib.Data.BitVec

/-! # Compressed instructions

The exact 32-bit instruction that each compressed halfword abbreviates, or which rule of
the encoding it breaks.
-/

namespace Apogee.Loader.Rvc

abbrev Word := BitVec 32

/-! ## Opcodes -/

def opImm : Word := 0b0010011
def op : Word := 0b0110011
def load : Word := 0b0000011
def store : Word := 0b0100011
def branch : Word := 0b1100011
def jal : Word := 0b1101111
def jalr : Word := 0b1100111
def lui : Word := 0b0110111
def ebreak : Word := 0x00100073

/-! ## Immediates -/

/-- The low bits of a word, sign extended. -/
def sext (v : Word) (bits : ℕ) : Word := (v <<< (32 - bits)).sshiftRight (32 - bits)

def ciwImm (c : Word) : Word :=
  ((c >>> 7) &&& 0b110000) ||| ((c >>> 1) &&& 0b1111000000) ||| ((c >>> 4) &&& 0b100) |||
    ((c >>> 2) &&& 0b1000)

def clCsImm (c : Word) : Word :=
  ((c >>> 7) &&& 0b111000) ||| ((c >>> 4) &&& 0b100) ||| ((c <<< 1) &&& 0b1000000)

def ciImm (c : Word) : Word := sext (((c >>> 7) &&& 0b100000) ||| ((c >>> 2) &&& 0b11111)) 6

def addi16spImm (c : Word) : Word :=
  sext (((c >>> 3) &&& 0b1000000000) ||| ((c >>> 2) &&& 0b10000) ||| ((c <<< 1) &&& 0b1000000) |||
    ((c <<< 4) &&& 0b110000000) ||| ((c <<< 3) &&& 0b100000)) 10

def lwspImm (c : Word) : Word :=
  ((c >>> 7) &&& 0b100000) ||| ((c >>> 2) &&& 0b11100) ||| ((c <<< 4) &&& 0b11000000)

def swspImm (c : Word) : Word := ((c >>> 7) &&& 0b111100) ||| ((c >>> 1) &&& 0b11000000)

def cjImm (c : Word) : Word :=
  sext (((c >>> 1) &&& 0b100000000000) ||| ((c >>> 7) &&& 0b10000) |||
    ((c >>> 1) &&& 0b1100000000) ||| ((c <<< 2) &&& 0b10000000000) ||| ((c >>> 1) &&& 0b1000000) |||
    ((c <<< 1) &&& 0b10000000) ||| ((c >>> 2) &&& 0b1110) ||| ((c <<< 3) &&& 0b100000)) 12

def cbImm (c : Word) : Word :=
  sext (((c >>> 4) &&& 0b100000000) ||| ((c >>> 7) &&& 0b11000) ||| ((c <<< 1) &&& 0b11000000) |||
    ((c >>> 2) &&& 0b110) ||| ((c <<< 3) &&& 0b100000)) 9

def rv32Shamt (c : Word) : Except String Word :=
  if (c >>> 12) &&& 1 ≠ 0 then
    .error "a compressed shift with shamt[5] set is reserved on RV32"
  else .ok ((c >>> 2) &&& 0b11111)

/-! ## Formats -/

def rType (funct7 rs2 rs1 funct3 rd opcode : Word) : Word :=
  (funct7 <<< 25) ||| (rs2 <<< 20) ||| (rs1 <<< 15) ||| (funct3 <<< 12) ||| (rd <<< 7) ||| opcode

def iType (imm rs1 funct3 rd opcode : Word) : Word :=
  ((imm &&& 0xfff) <<< 20) ||| (rs1 <<< 15) ||| (funct3 <<< 12) ||| (rd <<< 7) ||| opcode

def sType (imm rs2 rs1 funct3 opcode : Word) : Word :=
  (((imm >>> 5) &&& 0x7f) <<< 25) ||| (rs2 <<< 20) ||| (rs1 <<< 15) ||| (funct3 <<< 12) |||
    ((imm &&& 0x1f) <<< 7) ||| opcode

def bType (imm rs2 rs1 funct3 opcode : Word) : Word :=
  (((imm >>> 12) &&& 1) <<< 31) ||| (((imm >>> 5) &&& 0x3f) <<< 25) ||| (rs2 <<< 20) |||
    (rs1 <<< 15) ||| (funct3 <<< 12) ||| (((imm >>> 1) &&& 0xf) <<< 8) |||
    (((imm >>> 11) &&& 1) <<< 7) ||| opcode

def uType (imm3112 rd opcode : Word) : Word := (imm3112 <<< 12) ||| (rd <<< 7) ||| opcode

def jType (imm rd opcode : Word) : Word :=
  (((imm >>> 20) &&& 1) <<< 31) ||| (((imm >>> 1) &&& 0x3ff) <<< 21) |||
    (((imm >>> 11) &&& 1) <<< 20) ||| (((imm >>> 12) &&& 0xff) <<< 12) ||| (rd <<< 7) ||| opcode

/-! ## Fields -/

def funct3 (c : Word) : ℕ := ((c >>> 13) &&& 0b111).toNat

def rdRs1 (c : Word) : Word := (c >>> 7) &&& 0b11111

def rs2 (c : Word) : Word := (c >>> 2) &&& 0b11111

def rpHi (c : Word) : Word := 8 + ((c >>> 7) &&& 0b111)

def rpLo (c : Word) : Word := 8 + ((c >>> 2) &&& 0b111)

/-! ## Quadrants -/

def quadrant0 (c : Word) : Except String Word :=
  match funct3 c with
  | 0b000 =>
    if ciwImm c = 0 then .error "c.addi4spn with nzuimm = 0 is a reserved encoding"
    else .ok (iType (ciwImm c) 2 0b000 (rpLo c) opImm)
  | 0b001 => .error "c.fld: the D extension is not in RV32IMAC"
  | 0b010 => .ok (iType (clCsImm c) (rpHi c) 0b010 (rpLo c) load)
  | 0b011 => .error "c.flw: the F extension is not in RV32IMAC"
  | 0b100 => .error "quadrant 0 funct3 = 100 is reserved (the Zcb encoding space)"
  | 0b101 => .error "c.fsd: the D extension is not in RV32IMAC"
  | 0b110 => .ok (sType (clCsImm c) (rpLo c) (rpHi c) 0b010 store)
  | _ => .error "c.fsw: the F extension is not in RV32IMAC"

/-- The arithmetic forms on two of the eight popular registers. -/
def quadrant1Arithmetic (c : Word) : Except String Word :=
  match ((c >>> 12) &&& 1).toNat, ((c >>> 5) &&& 0b11).toNat with
  | 0, 0b00 => .ok (rType 0b0100000 (rpLo c) (rpHi c) 0b000 (rpHi c) op)
  | 0, 0b01 => .ok (rType 0 (rpLo c) (rpHi c) 0b100 (rpHi c) op)
  | 0, 0b10 => .ok (rType 0 (rpLo c) (rpHi c) 0b110 (rpHi c) op)
  | 0, _ => .ok (rType 0 (rpLo c) (rpHi c) 0b111 (rpHi c) op)
  | _, 0b00 => .error "c.subw is an RV64-only encoding"
  | _, 0b01 => .error "c.addw is an RV64-only encoding"
  | _, _ => .error "quadrant 1 funct3 = 100, bit 12 = 1, bits 6:5 = 1x is reserved"

def quadrant1 (c : Word) : Except String Word :=
  match funct3 c with
  | 0b000 => .ok (iType (ciImm c) (rdRs1 c) 0b000 (rdRs1 c) opImm)
  | 0b001 => .ok (jType (cjImm c) 1 jal)
  | 0b010 => .ok (iType (ciImm c) 0 0b000 (rdRs1 c) opImm)
  | 0b011 =>
    if rdRs1 c = 2 then
      if addi16spImm c = 0 then .error "c.addi16sp with nzimm = 0 is a reserved encoding"
      else .ok (iType (addi16spImm c) 2 0b000 2 opImm)
    else if ciImm c = 0 then .error "c.lui with nzimm = 0 is a reserved encoding"
    else .ok (uType (ciImm c &&& 0xfffff) (rdRs1 c) lui)
  | 0b100 =>
    match ((c >>> 10) &&& 0b11).toNat with
    | 0b00 => do
      let shamt ← rv32Shamt c
      .ok (iType shamt (rpHi c) 0b101 (rpHi c) opImm)
    | 0b01 => do
      let shamt ← rv32Shamt c
      .ok (iType (0b010000000000 ||| shamt) (rpHi c) 0b101 (rpHi c) opImm)
    | 0b10 => .ok (iType (ciImm c) (rpHi c) 0b111 (rpHi c) opImm)
    | _ => quadrant1Arithmetic c
  | 0b101 => .ok (jType (cjImm c) 0 jal)
  | 0b110 => .ok (bType (cbImm c) 0 (rpHi c) 0b000 branch)
  | _ => .ok (bType (cbImm c) 0 (rpHi c) 0b001 branch)

def quadrant2 (c : Word) : Except String Word :=
  match funct3 c with
  | 0b000 => do
    let shamt ← rv32Shamt c
    .ok (iType shamt (rdRs1 c) 0b001 (rdRs1 c) opImm)
  | 0b001 => .error "c.fldsp: the D extension is not in RV32IMAC"
  | 0b010 =>
    if rdRs1 c = 0 then .error "c.lwsp with rd = x0 is a reserved encoding"
    else .ok (iType (lwspImm c) 2 0b010 (rdRs1 c) load)
  | 0b011 => .error "c.flwsp: the F extension is not in RV32IMAC"
  | 0b100 =>
    match ((c >>> 12) &&& 1).toNat, (rs2 c).toNat with
    | 0, 0 =>
      if rdRs1 c = 0 then .error "c.jr with rs1 = x0 is a reserved encoding"
      else .ok (iType 0 (rdRs1 c) 0b000 0 jalr)
    | 0, _ => .ok (rType 0 (rs2 c) 0 0b000 (rdRs1 c) op)
    | _, 0 => if rdRs1 c = 0 then .ok ebreak else .ok (iType 0 (rdRs1 c) 0b000 1 jalr)
    | _, _ => .ok (rType 0 (rs2 c) (rdRs1 c) 0b000 (rdRs1 c) op)
  | 0b101 =>
    .error "c.fsdsp: the D extension is not in RV32IMAC (the Zcmp encoding space)"
  | 0b110 => .ok (sType (swspImm c) (rs2 c) 2 0b010 store)
  | _ => .error "c.fswsp: the F extension is not in RV32IMAC"

/-- The instruction that a halfword abbreviates. -/
def expand (half : BitVec 16) : Except String Word :=
  let c := half.setWidth 32
  if c = 0 then .error "the all-zero halfword is a defined-illegal encoding"
  else
    match (c &&& 0b11).toNat with
    | 0b00 => quadrant0 c
    | 0b01 => quadrant1 c
    | 0b10 => quadrant2 c
    | _ => .error "not a compressed encoding: bits 1:0 are 11"

end Apogee.Loader.Rvc
