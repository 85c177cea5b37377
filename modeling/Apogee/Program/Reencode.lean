import Apogee.Program.Decode

/-! # Re-encoding

The sweep's encoder: an instruction's row of the listings and its fields, shifted back into
their bits. It gives every decoded word again, outside the bits a fence ignores.
-/

namespace Apogee.Isa

/-- Formats: `h` a shift immediate, `a` an atomic, `f` the fence, `e` the environment. -/
inductive Format
  | u | j | i | h | s | b | r | a | f | e

/-- A row of the listings; `funct7` is an atomic's `funct5`. -/
structure Listing where
  format : Format
  opcode : BitVec 7
  funct3 : BitVec 3
  funct7 : BitVec 7

def table : Instr → Listing
  | .lui .. => ⟨.u, 0x37, 0, 0x00⟩
  | .auipc .. => ⟨.u, 0x17, 0, 0x00⟩
  | .jal .. => ⟨.j, 0x6f, 0, 0x00⟩
  | .jalr .. => ⟨.i, 0x67, 0, 0x00⟩
  | .beq .. => ⟨.b, 0x63, 0, 0x00⟩
  | .bne .. => ⟨.b, 0x63, 1, 0x00⟩
  | .blt .. => ⟨.b, 0x63, 4, 0x00⟩
  | .bge .. => ⟨.b, 0x63, 5, 0x00⟩
  | .bltu .. => ⟨.b, 0x63, 6, 0x00⟩
  | .bgeu .. => ⟨.b, 0x63, 7, 0x00⟩
  | .lb .. => ⟨.i, 0x03, 0, 0x00⟩
  | .lh .. => ⟨.i, 0x03, 1, 0x00⟩
  | .lw .. => ⟨.i, 0x03, 2, 0x00⟩
  | .lbu .. => ⟨.i, 0x03, 4, 0x00⟩
  | .lhu .. => ⟨.i, 0x03, 5, 0x00⟩
  | .sb .. => ⟨.s, 0x23, 0, 0x00⟩
  | .sh .. => ⟨.s, 0x23, 1, 0x00⟩
  | .sw .. => ⟨.s, 0x23, 2, 0x00⟩
  | .addi .. => ⟨.i, 0x13, 0, 0x00⟩
  | .slti .. => ⟨.i, 0x13, 2, 0x00⟩
  | .sltiu .. => ⟨.i, 0x13, 3, 0x00⟩
  | .xori .. => ⟨.i, 0x13, 4, 0x00⟩
  | .ori .. => ⟨.i, 0x13, 6, 0x00⟩
  | .andi .. => ⟨.i, 0x13, 7, 0x00⟩
  | .slli .. => ⟨.h, 0x13, 1, 0x00⟩
  | .srli .. => ⟨.h, 0x13, 5, 0x00⟩
  | .srai .. => ⟨.h, 0x13, 5, 0x20⟩
  | .add .. => ⟨.r, 0x33, 0, 0x00⟩
  | .sub .. => ⟨.r, 0x33, 0, 0x20⟩
  | .sll .. => ⟨.r, 0x33, 1, 0x00⟩
  | .slt .. => ⟨.r, 0x33, 2, 0x00⟩
  | .sltu .. => ⟨.r, 0x33, 3, 0x00⟩
  | .xor .. => ⟨.r, 0x33, 4, 0x00⟩
  | .srl .. => ⟨.r, 0x33, 5, 0x00⟩
  | .sra .. => ⟨.r, 0x33, 5, 0x20⟩
  | .or .. => ⟨.r, 0x33, 6, 0x00⟩
  | .and .. => ⟨.r, 0x33, 7, 0x00⟩
  | .fence .. => ⟨.f, 0x0f, 0, 0x00⟩
  | .ecall => ⟨.e, 0x73, 0, 0x00⟩
  | .ebreak => ⟨.e, 0x73, 0, 0x01⟩
  | .mul .. => ⟨.r, 0x33, 0, 0x01⟩
  | .mulh .. => ⟨.r, 0x33, 1, 0x01⟩
  | .mulhsu .. => ⟨.r, 0x33, 2, 0x01⟩
  | .mulhu .. => ⟨.r, 0x33, 3, 0x01⟩
  | .div .. => ⟨.r, 0x33, 4, 0x01⟩
  | .divu .. => ⟨.r, 0x33, 5, 0x01⟩
  | .rem .. => ⟨.r, 0x33, 6, 0x01⟩
  | .remu .. => ⟨.r, 0x33, 7, 0x01⟩
  | .lrW .. => ⟨.a, 0x2f, 2, 0b00010⟩
  | .scW .. => ⟨.a, 0x2f, 2, 0b00011⟩
  | .amoswapW .. => ⟨.a, 0x2f, 2, 0b00001⟩
  | .amoaddW .. => ⟨.a, 0x2f, 2, 0b00000⟩
  | .amoxorW .. => ⟨.a, 0x2f, 2, 0b00100⟩
  | .amoandW .. => ⟨.a, 0x2f, 2, 0b01100⟩
  | .amoorW .. => ⟨.a, 0x2f, 2, 0b01000⟩
  | .amominW .. => ⟨.a, 0x2f, 2, 0b10000⟩
  | .amomaxW .. => ⟨.a, 0x2f, 2, 0b10100⟩
  | .amominuW .. => ⟨.a, 0x2f, 2, 0b11000⟩
  | .amomaxuW .. => ⟨.a, 0x2f, 2, 0b11100⟩

/-- The ordering bits of the atomics. -/
def aqRl : Instr → Option (Bool × Bool)
  | .lrW _ _ aq rl | .scW _ _ _ aq rl | .amoswapW _ _ _ aq rl | .amoaddW _ _ _ aq rl
  | .amoxorW _ _ _ aq rl | .amoandW _ _ _ aq rl | .amoorW _ _ _ aq rl | .amominW _ _ _ aq rl
  | .amomaxW _ _ _ aq rl | .amominuW _ _ _ aq rl | .amomaxuW _ _ _ aq rl => some (aq, rl)
  | _ => none

section Reencode

variable (op : BitVec 7) (f3 : BitVec 3) (f7 : BitVec 7) (rd rs1 rs2 : Reg) (imm : BitVec 32)

/-- The bits below `funct7` that most formats share. -/
def reencodeLow : BitVec 32 :=
  (rs1.setWidth 32 <<< 15) ||| (f3.setWidth 32 <<< 12) ||| (rd.setWidth 32 <<< 7) |||
    op.setWidth 32

def reencodeU : BitVec 32 := (imm &&& 0xfffff000) ||| (rd.setWidth 32 <<< 7) ||| op.setWidth 32

def reencodeJ : BitVec 32 :=
  (((imm >>> 20) &&& 1) <<< 31) ||| (((imm >>> 1) &&& 0x3ff) <<< 21) |||
    (((imm >>> 11) &&& 1) <<< 20) ||| (((imm >>> 12) &&& 0xff) <<< 12) |||
    (rd.setWidth 32 <<< 7) ||| op.setWidth 32

def reencodeI : BitVec 32 := ((imm &&& 0xfff) <<< 20) ||| reencodeLow op f3 rd rs1

def reencodeH : BitVec 32 :=
  (f7.setWidth 32 <<< 25) ||| ((imm &&& 0x1f) <<< 20) ||| reencodeLow op f3 rd rs1

def reencodeS : BitVec 32 :=
  (((imm >>> 5) &&& 0x7f) <<< 25) ||| (rs2.setWidth 32 <<< 20) ||| (rs1.setWidth 32 <<< 15) |||
    (f3.setWidth 32 <<< 12) ||| ((imm &&& 0x1f) <<< 7) ||| op.setWidth 32

def reencodeB : BitVec 32 :=
  (((imm >>> 12) &&& 1) <<< 31) ||| (((imm >>> 5) &&& 0x3f) <<< 25) |||
    (rs2.setWidth 32 <<< 20) ||| (rs1.setWidth 32 <<< 15) ||| (f3.setWidth 32 <<< 12) |||
    (((imm >>> 1) &&& 0xf) <<< 8) ||| (((imm >>> 11) &&& 1) <<< 7) ||| op.setWidth 32

def reencodeR : BitVec 32 :=
  (f7.setWidth 32 <<< 25) ||| (rs2.setWidth 32 <<< 20) ||| reencodeLow op f3 rd rs1

def reencodeA (aq rl : Bool) : BitVec 32 :=
  (f7.setWidth 32 <<< 27) ||| ((BitVec.ofBool aq).setWidth 32 <<< 26) |||
    ((BitVec.ofBool rl).setWidth 32 <<< 25) ||| (rs2.setWidth 32 <<< 20) |||
    reencodeLow op f3 rd rs1

end Reencode

/-- Re-encode an instruction from its listing and its fields. -/
def reencode (instr : Instr) : BitVec 32 :=
  let ⟨format, op, f3, f7⟩ := table instr
  let rd := instr.fields.rd.getD 0
  let rs1 := instr.fields.rs1.getD 0
  let rs2 := instr.fields.rs2.getD 0
  let imm := instr.fields.imm.getD 0
  match format with
  | .u => reencodeU op rd imm
  | .j => reencodeJ op rd imm
  | .i => reencodeI op f3 rd rs1 imm
  | .h => reencodeH op f3 f7 rd rs1 imm
  | .s => reencodeS op f3 rs1 rs2 imm
  | .b => reencodeB op f3 rs1 rs2 imm
  | .r => reencodeR op f3 f7 rd rs1 rs2
  | .a =>
    let (aq, rl) := (aqRl instr).getD (false, false)
    reencodeA op f3 f7 rd rs1 rs2 aq rl
  | .f =>
    match instr with
    | .fence fm pred succ =>
      (fm.setWidth 32 <<< 28) ||| (pred.setWidth 32 <<< 24) ||| (succ.setWidth 32 <<< 20) |||
        op.setWidth 32
    | _ => 0
  | .e => (f7.setWidth 32 <<< 20) ||| op.setWidth 32

/-- The value of a wodsts low bits, sign extended, is the word. -/
def inSigned (imm : BitVec 32) (bits : ℕ) : Bool :=
  imm = (imm <<< (32 - bits)).sshiftRight (32 - bits)

/-- Whether the immediate is in its format's range: an upper one a multiple of 4096, I and S
twelve signed bits, B thirteen and even, J twenty-one and even, a shift amount below 32. -/
def canonical (instr : Instr) : Bool :=
  match instr.fields.imm with
  | none => true
  | some imm =>
    match (table instr).format with
    | .u => imm &&& 0xfff = 0
    | .i | .s => inSigned imm 12
    | .b => imm &&& 1 = 0 && inSigned imm 13
    | .j => imm &&& 1 = 0 && inSigned imm 21
    | .h => imm.toNat < 32
    | _ => false

/-- The bits a decoded instruction says nothing of: a fence's `rd` and `rs1`. -/
def ignored : Instr → BitVec 32
  | .fence .. => 0x000f8f80
  | _ => 0

section Reencode

variable (src2 src1 dst : BitVec 5) (f3 : BitVec 3) (op f7 : BitVec 7)

theorem getLsbD_reg (field : BitVec 5) (i : ℕ) : (reg field).getLsbD i = field.getLsbD i := by
  rw [reg, BitVec.getLsbD_setWidth]
  by_cases below : i < 8
  · rw [decide_eq_true below, Bool.true_and]
  · rw [BitVec.getLsbD_of_ge _ _ (by omega), Bool.and_false]

theorem getLsbD_reencodeLow (i : ℕ) : (reencodeLow op f3 (reg dst) (reg src1)).getLsbD i =
    if i < 7 then op.getLsbD i
    else if i < 12 then dst.getLsbD (i - 7)
    else if i < 15 then f3.getLsbD (i - 12)
    else if i < 20 then src1.getLsbD (i - 15)
    else false := by
  by_cases below : i < 32
  · simp only [reencodeLow, getLsbD_reg, BitVec.getLsbD_or, BitVec.getLsbD_shiftLeft,
      BitVec.getLsbD_setWidth]
    interval_cases i <;> simp
  · rw [BitVec.getLsbD_of_ge _ _ (not_lt.mp below)]
    grind

theorem reencodeU_upper (imm : BitVec 20) :
    reencodeU op (reg dst) (upper imm) = uWord dst op imm := by
  apply BitVec.eq_of_getLsbD_eq
  intro i below
  simp only [reencodeU, getLsbD_reg, upper, getLsbD_uWord, BitVec.getLsbD_or, BitVec.getLsbD_and,
    BitVec.getLsbD_shiftLeft, BitVec.getLsbD_setWidth, BitVec.getLsbD_append]
  interval_cases i <;> simp

theorem reencodeJ_signedEven (imm : BitVec 20) :
    reencodeJ op (reg dst) (signedEven imm) = jWord dst op imm := by
  apply BitVec.eq_of_getLsbD_eq
  intro i below
  simp only [reencodeJ, getLsbD_reg, signedEven, jWord, getLsbD_uWord, BitVec.getLsbD_or,
    BitVec.getLsbD_and, BitVec.getLsbD_shiftLeft, BitVec.getLsbD_ushiftRight,
    BitVec.getLsbD_setWidth, BitVec.getLsbD_append, BitVec.getLsbD_extractLsb',
    BitVec.getLsbD_signExtend, BitVec.msb_eq_getLsbD_last]
  interval_cases i <;> simp

theorem reencodeI_signed (imm : BitVec 12) :
    reencodeI op f3 (reg dst) (reg src1) (signed imm) = iWord src1 dst f3 op imm := by
  apply BitVec.eq_of_getLsbD_eq
  intro i below
  simp only [reencodeI, getLsbD_reencodeLow, signed, iWord_eq, getLsbD_rWord, BitVec.getLsbD_or,
    BitVec.getLsbD_and, BitVec.getLsbD_shiftLeft, BitVec.getLsbD_extractLsb',
    BitVec.getLsbD_signExtend, BitVec.msb_eq_getLsbD_last]
  interval_cases i <;> simp

theorem reencodeH_reg : reencodeH op f3 f7 (reg dst) (reg src1) ((reg src2).setWidth 32) =
      rWord src2 src1 dst f3 op f7 := by
  apply BitVec.eq_of_getLsbD_eq
  intro i below
  simp only [reencodeH, getLsbD_reencodeLow, getLsbD_reg, getLsbD_rWord, BitVec.getLsbD_or,
    BitVec.getLsbD_and, BitVec.getLsbD_shiftLeft, BitVec.getLsbD_setWidth]
  interval_cases i <;> simp

theorem reencodeS_signed (imm : BitVec 12) :
    reencodeS op f3 (reg src1) (reg src2) (signed imm) = sWord src2 src1 f3 op imm := by
  apply BitVec.eq_of_getLsbD_eq
  intro i below
  simp only [reencodeS, getLsbD_reg, signed, sWord, getLsbD_rWord, BitVec.getLsbD_or,
    BitVec.getLsbD_and, BitVec.getLsbD_shiftLeft, BitVec.getLsbD_ushiftRight,
    BitVec.getLsbD_setWidth, BitVec.getLsbD_extractLsb', BitVec.getLsbD_signExtend,
    BitVec.msb_eq_getLsbD_last]
  interval_cases i <;> simp

theorem reencodeB_signedEven (imm : BitVec 12) :
    reencodeB op f3 (reg src1) (reg src2) (signedEven imm) = bWord src2 src1 f3 op imm := by
  apply BitVec.eq_of_getLsbD_eq
  intro i below
  simp only [reencodeB, getLsbD_reg, signedEven, bWord, getLsbD_rWord, BitVec.getLsbD_or,
    BitVec.getLsbD_and, BitVec.getLsbD_shiftLeft, BitVec.getLsbD_ushiftRight,
    BitVec.getLsbD_setWidth, BitVec.getLsbD_append, BitVec.getLsbD_extractLsb',
    BitVec.getLsbD_signExtend, BitVec.msb_eq_getLsbD_last]
  interval_cases i <;> simp

theorem reencodeR_reg :
    reencodeR op f3 f7 (reg dst) (reg src1) (reg src2) = rWord src2 src1 dst f3 op f7 := by
  apply BitVec.eq_of_getLsbD_eq
  intro i below
  simp only [reencodeR, getLsbD_reencodeLow, getLsbD_reg, getLsbD_rWord, BitVec.getLsbD_or,
    BitVec.getLsbD_shiftLeft, BitVec.getLsbD_setWidth]
  interval_cases i <;> simp

theorem reencodeA_reg {funct : BitVec 5} (acquire release : Bool) (wide : f7 = funct.setWidth 7) :
    reencodeA 0x2f 0b010 f7 (reg dst) (reg src1) (reg src2) acquire release =
      amoWord src2 src1 dst acquire release funct := by
  subst wide
  apply BitVec.eq_of_getLsbD_eq
  intro i below
  simp only [reencodeA, getLsbD_reencodeLow, getLsbD_reg, amoWord, getLsbD_rWord,
    BitVec.getLsbD_ofBool, BitVec.getLsbD_or, BitVec.getLsbD_shiftLeft, BitVec.getLsbD_setWidth,
    BitVec.getLsbD_append]
  interval_cases i <;> simp

theorem reencodeA_zero {funct : BitVec 5} (acquire release : Bool) (wide : f7 = funct.setWidth 7) :
    reencodeA 0x2f 0b010 f7 (reg dst) (reg src1) 0 acquire release =
      amoWord 0 src1 dst acquire release funct :=
  reencodeA_reg 0 src1 dst f7 acquire release wide

theorem reencode_fence (mode prior later : BitVec 4) :
    reencode (.fence (mode.setWidth 8) (prior.setWidth 8) (later.setWidth 8)) &&& ~~~0x000f8f80 =
      iWord src1 dst 0b000 0x0f (mode ++ prior ++ later) &&& ~~~0x000f8f80 := by
  change ((mode.setWidth 8).setWidth 32 <<< 28 ||| (prior.setWidth 8).setWidth 32 <<< 24 |||
    (later.setWidth 8).setWidth 32 <<< 20 ||| (0x0f : BitVec 7).setWidth 32) &&& _ = _
  apply BitVec.eq_of_getLsbD_eq
  intro i below
  simp only [iWord, BitVec.getLsbD_or, BitVec.getLsbD_and, BitVec.getLsbD_shiftLeft,
    BitVec.getLsbD_setWidth, BitVec.getLsbD_append]
  interval_cases i <;> simp

/-- A listed word is its instruction's re-encoding, outside the bits a fence ignores. -/
theorem reencode_of_encodes {word : BitVec 32} {i : Instr} (encodes : Encodes word i) :
    reencode i &&& ~~~ignored i = word &&& ~~~ignored i := by
  cases encodes with
  | fence => exact reencode_fence ..
  | lui | auipc => exact congrArg (· &&& _) (reencodeU_upper ..)
  | jal => exact congrArg (· &&& _) (reencodeJ_signedEven ..)
  | jalr | lb | lh | lw | lbu | lhu | addi | slti | sltiu | xori | ori | andi =>
    exact congrArg (· &&& _) (reencodeI_signed ..)
  | beq | bne | blt | bge | bltu | bgeu => exact congrArg (· &&& _) (reencodeB_signedEven ..)
  | sb | sh | sw => exact congrArg (· &&& _) (reencodeS_signed ..)
  | slli | srli | srai => exact congrArg (· &&& _) (reencodeH_reg ..)
  | add | sub | sll | slt | sltu | xor | srl | sra | or | and =>
    exact congrArg (· &&& _) (reencodeR_reg ..)
  | mul | mulh | mulhsu | mulhu | div | divu | rem | remu =>
    exact congrArg (· &&& _) (reencodeR_reg ..)
  | ecall | ebreak => rfl
  | lrW => exact congrArg (· &&& _) (reencodeA_zero _ _ _ _ _ (by rfl))
  | scW | amoswapW | amoaddW | amoxorW | amoandW | amoorW | amominW | amomaxW | amominuW |
    amomaxuW => exact congrArg (· &&& _) (reencodeA_reg _ _ _ _ _ _ (by rfl))

end Reencode

section Canonical

theorem inSigned_signExtend {n : ℕ} (narrow : n ≤ 32) (imm : BitVec n) :
    inSigned (imm.signExtend 32) n = true := by
  apply decide_eq_true
  apply BitVec.eq_of_getLsbD_eq
  intro i below
  simp only [BitVec.getLsbD_sshiftRight, BitVec.getLsbD_shiftLeft, BitVec.getLsbD_signExtend,
    BitVec.msb_eq_getLsbD_last]
  by_cases inside : i < n
  · have placed : 32 - n + i < 32 := by omega
    simp [below, inside, placed]
  · have past : ¬32 - n + i < 32 := by omega
    rcases Nat.eq_zero_or_pos n with rfl | some
    · simp [BitVec.of_length_zero]
    · have top : 31 - (32 - n) = n - 1 := by omega
      have shifted : ¬31 < 32 - n := by omega
      simp [below, inside, past, top, shifted, not_le.mpr below]
      omega

theorem even_signedEven {n : ℕ} (imm : BitVec n) : signedEven imm &&& 1 = 0 := by
  apply BitVec.eq_of_getLsbD_eq
  intro i below
  simp only [signedEven, BitVec.getLsbD_and, BitVec.getLsbD_signExtend, BitVec.getLsbD_append]
  by_cases first : i = 0
  · subst first
    simp
  · simp [first]

theorem low_upper (imm : BitVec 20) : upper imm &&& 0xfff = 0 := by
  apply BitVec.eq_of_getLsbD_eq
  intro i below
  simp only [upper, BitVec.getLsbD_and, BitVec.getLsbD_append]
  interval_cases i <;> simp

theorem toNat_reg_lt (field : BitVec 5) : ((reg field).setWidth 32).toNat < 32 := by
  rw [reg, BitVec.toNat_setWidth_of_le (by norm_num), BitVec.toNat_setWidth_of_le (by norm_num)]
  exact field.isLt

theorem ignored_eq_zero {i : Instr} (notFence : ∀ fm pred succ, i ≠ .fence fm pred succ) :
    ignored i = 0 := by
  cases i with
  | fence fm pred succ => exact absurd rfl (notFence fm pred succ)
  | _ => rfl

/-- A decoded immediate is in its format's range. -/
theorem canonical_of_encodes {word : BitVec 32} {i : Instr} (encodes : Encodes word i) :
    canonical i = true := by
  cases encodes with
  | lui _ imm | auipc _ imm => exact decide_eq_true (low_upper imm)
  | jal _ imm =>
    exact (Bool.and_eq_true _ _).mpr
      ⟨decide_eq_true (even_signedEven imm), inSigned_signExtend (by norm_num) _⟩
  | beq _ _ imm | bne _ _ imm | blt _ _ imm | bge _ _ imm | bltu _ _ imm | bgeu _ _ imm =>
    exact (Bool.and_eq_true _ _).mpr
      ⟨decide_eq_true (even_signedEven imm), inSigned_signExtend (by norm_num) _⟩
  | jalr | lb | lh | lw | lbu | lhu | addi | slti | sltiu | xori | ori | andi =>
    exact inSigned_signExtend (by norm_num) _
  | sb | sh | sw => exact inSigned_signExtend (by norm_num) _
  | slli shamt | srli shamt | srai shamt => exact decide_eq_true (toNat_reg_lt shamt)
  | add | sub | sll | slt | sltu | xor | srl | sra | or | and => rfl
  | mul | mulh | mulhsu | mulhu | div | divu | rem | remu => rfl
  | fence | ecall | ebreak => rfl
  | lrW | scW | amoswapW | amoaddW | amoxorW | amoandW | amoorW | amominW | amomaxW | amominuW |
    amomaxuW => rfl

end Canonical

/-- Decoding is the listings: a word is accepted as an instruction exactly when they give it
that encoding. Its immediate is then in its format's range, and the fields determine the
word, up to what a fence ignores. -/
theorem decode_iff_encodes :
    (∀ word i, decode word = .ok i ↔ Encodes word i) ∧
    (∀ word i, decode word = .ok i →
      canonical i = true ∧ reencode i &&& ~~~ignored i = word &&& ~~~ignored i) ∧
    (∀ word i, decode word = .ok i → (∀ fm pred succ, i ≠ .fence fm pred succ) →
      reencode i = word) ∧
    ∀ word wodst i, decode word = .ok i → decode wodst = .ok i →
      (∀ fm pred succ, i ≠ .fence fm pred succ) → word = wodst := by
  have whole : ∀ word i, decode word = .ok i → (∀ fm pred succ, i ≠ .fence fm pred succ) →
      reencode i = word := by
    intro word i decoded notFence
    have back := reencode_of_encodes (encodes_of_decode decoded)
    rw [ignored_eq_zero notFence] at back
    change reencode i &&& ~~~0#32 = word &&& ~~~0#32 at back
    rwa [BitVec.not_zero, BitVec.and_allOnes, BitVec.and_allOnes] at back
  refine ⟨fun word i => ⟨encodes_of_decode, decode_of_encodes⟩, fun word i decoded => ?_, whole,
    fun word wodst i decoded decoded' notFence => ?_⟩
  · exact ⟨canonical_of_encodes (encodes_of_decode decoded),
      reencode_of_encodes (encodes_of_decode decoded)⟩
  · rw [← whole word i decoded notFence, whole wodst i decoded' notFence]

end Apogee.Isa
