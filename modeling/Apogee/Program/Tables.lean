import Apogee.Loader.Image
import Apogee.Program.Decode
import Apogee.Trace.Buffers
import Apogee.Verifier.Config
import Mathlib.Data.List.GetD
import Mathlib.Data.List.ReduceOption

/-! # Decoded tables

Every instruction of an image goes to the table of the one family that owns it, at the row
of its pc. Derivation is written with the indices, sums and assertions that could stop it.
-/

namespace Apogee.Program

open Loader (ProgramImage Segment Slot)

/-! ## Backings -/

/-- The small backings a decoded column may have, bits packed in 64-bit limbs. -/
inductive PolyBacking
  | u1 (limbs : List (BitVec 64)) (length : ℕ)
  | u8 (values : List (BitVec 8))
  | u16 (values : List (BitVec 16))
  | u32 (values : List (BitVec 32))
deriving DecidableEq

/-- An entry of a backing, as the integer it stores. -/
def read : PolyBacking → ℕ → Option (BitVec 32)
  | .u1 limbs _, i =>
    limbs[i / 64]?.map fun limb : BitVec 64 => ((limb >>> (i % 64)) &&& 1).setWidth 32
  | .u8 values, i => values[i]?.map (·.setWidth 32)
  | .u16 values, i => values[i]?.map (·.setWidth 32)
  | .u32 values, i => values[i]?

/-- One bit packed into its limb. -/
def packBit (limbs : List (BitVec 64)) (entry : BitVec 32 × ℕ) : List (BitVec 64) :=
  limbs.modify (entry.2 / 64) fun limb => limb ||| (entry.1.setWidth 64 <<< (entry.2 % 64))

/-- The values in the narrowest backing that holds the largest. -/
def narrowest (values : List (BitVec 32)) : PolyBacking :=
  let most := (values.map BitVec.toNat).foldr max 0
  if most ≤ 1 then
    .u1 (values.zipIdx.foldl packBit (List.replicate ((values.length + 63) / 64) 0)) values.length
  else if most ≤ 255 then .u8 (values.map (·.setWidth 8))
  else if most ≤ 65535 then .u16 (values.map (·.setWidth 16))
  else .u32 values

/-! ## Refusals -/

inductive ProgramError
  | unsupportedCodeVersion (version : BitVec 32)
  | heightNotOnMenu (family height : ℕ)
  | programTooLarge (words : ℕ) (bytecodeSizeWords : BitVec 32)
  | notAllOpcodesSupported (pc word : BitVec 32) (reason : String)
  | tableTooShort (family : ℕ) (pc : BitVec 32) (height : ℕ)
  | imageOutsideWindow (last : ℕ) (height : ℕ)
  | windowRule (rule : String)
  | unknownDelegation (addr number : BitVec 32)
deriving DecidableEq

/-- What keeps derivation from its tables: a refusal, or a panic. -/
inductive Stop
  | refused (error : ProgramError)
  | panic
deriving DecidableEq

abbrev Attempt (α : Type) := Except Stop α

def refuse {α : Type} (error : ProgramError) : Attempt α := .error (.refused error)

/-- A value that must be there. -/
def orPanic {α : Type} : Option α → Attempt α
  | some value => .ok value
  | none => .error .panic

/-- An assertion. -/
def ensure (holds : Prop) [Decidable holds] : Attempt Unit :=
  if holds then .ok () else .error .panic

/-! ## Tables -/

/-- A family's decoded table, column-major. A column is named by its place in a row. -/
structure FamilyTable where
  family : ℕ
  height : ℕ
  live : PolyBacking
  columns : List (ℕ × PolyBacking)
deriving DecidableEq

structure DecodedTables where
  codeVersion : BitVec 32
  families : List FamilyTable
deriving DecidableEq

namespace FamilyTable

variable (table : FamilyTable)

/-- Whether a row holds one of the family's instructions; none at or above the height does. -/
def isLive (row : ℕ) : Attempt Bool :=
  if row < table.height then do
    let bit ← orPanic (read table.live row)
    return decide (bit = 1)
  else .ok false

/-- A column's value at a row, if the row is live. -/
def get (column row : ℕ) : Attempt (Option (BitVec 32)) := do
  if ← table.isLive row then
    let values ← orPanic table.columns[column]?
    let value ← orPanic (read values.2 row)
    return some value
  else return none

/-- A column as the polynomial that is committed: the stored value on a live row, and minus
one on every other. -/
def columnPoly (column : ℕ) : Attempt (List Fr) := do
  let values ← orPanic table.columns[column]?
  (List.range table.height).mapM fun row => do
    if ← table.isLive row then
      let value ← orPanic (read values.2 row)
      return (value.toNat : Fr)
    else return -1

end FamilyTable

/-! ## Derivation -/

/-- Every family, ascending. -/
def families : List ℕ :=
  [Family.addSubLuiAuipc, Family.jumpBranchSlt, Family.shiftBitwise, Family.mulDiv,
    Family.memWord, Family.memSubword, Family.atomics, Family.initTeardown, Family.zeroWindows,
    Family.keccakF, Family.poseidon2, Family.frArith, Family.publicInput, Family.publicOutput,
    Family.adviceWindows, Family.modMul, Family.sha256Comp, Family.ecAdd, Family.fieldWindows,
    Family.frOp, Family.p2Field, Family.fieldIo, Family.fqOp]

/-- The version of the decoded-table construction. -/
def codeVersion : BitVec 32 := 0

/-- What derivation takes besides the image. -/
structure ProgramParams where
  bytecodeSizeWords : BitVec 32
  heights : List (BitVec 32)
  codeVersion : BitVec 32
  sized : heights.length = Family.count

/-- The height derivation gives a family: the caller's, but for the public windows. -/
def heightOf (family : ℕ) (params : ProgramParams) : Attempt ℕ :=
  if family = Family.publicInput ∨ family = Family.publicOutput then .ok Family.publicWindowHeight
  else do
    let height ← orPanic params.heights[family]?
    return height.toNat

/-- A family's field mask, one bit a field: what its lookup tuple holds, in column order. -/
def fieldMask (family : ℕ) : Attempt (BitVec 8) := do
  let tuple := lookupTuple family
  let mask := (List.range 8).foldl (fun (mask : BitVec 8) k =>
    if tuple.contains k then mask ||| (1 <<< k) else mask) 0
  ensure (((List.range 8).filter fun k => tuple.contains k).length = tuple.length)
  ensure ((tuple.zip tuple.tail).all fun pair => pair.1 < pair.2)
  ensure (Family.cycleOwning family → tuple.take 2 = [0, 1])
  return mask

/-- A claimed pc: its row, and the eight values of its instruction. -/
abbrev Claim := ℕ × List (BitVec 32)

/-- A value written at a row, which must be there. -/
def setAt {α : Type} (values : List α) (row : ℕ) (value : α) : Attempt (List α) :=
  if row < values.length then .ok (values.set row value) else .error .panic

/-- One column of a family's claims. -/
def columnOf (height : ℕ) (rows : List Claim) (k : ℕ) : Attempt (ℕ × PolyBacking) := do
  let values ← rows.foldlM (fun values row => do
    let value ← orPanic row.2[k]?
    setAt values row.1 value) (List.replicate height 0)
  return (k, narrowest values)

/-- A family's table from its claimed rows. -/
def buildTable (family height : ℕ) (rows : List Claim) : Attempt FamilyTable := do
  let live ← rows.foldlM (fun live row => setAt live row.1 1) (List.replicate height 0)
  let mask ← fieldMask family
  let columns ← ((List.range 8).filter fun k => mask.getLsbD k).mapM (columnOf height rows)
  return ⟨family, height, narrowest live, columns⟩

/-- What a slot claims: its family and row, if it starts an instruction. -/
def claimOf (slotBase : BitVec 32) (detached : List ℕ) (entry : Slot × ℕ) :
    Attempt (Option (ℕ × Claim)) :=
  match entry.1 with
  | .instruction word compressed => do
    ensure (slotBase.toNat + 2 * entry.2 < 2 ^ 32)
    let pc := slotBase + BitVec.ofNat 32 (2 * entry.2)
    match Isa.decode word with
    | .error e => refuse (.notAllOpcodesSupported pc word e.reason)
    | .ok instr =>
      let family := (rowKind instr).1
      if detached.contains family then
        refuse (.notAllOpcodesSupported pc word
          "the family that owns this instruction is detached")
      else do
        ensure (pc.toNat + (if compressed then 2 else 4) < 2 ^ 32)
        return some (family, pc.toNat / 2, rowValues instr pc compressed)
  | _ => .ok none

/-- The families that read and write the field memory. -/
def fieldDelegations : List ℕ := [Family.frOp, Family.p2Field, Family.fieldIo, Family.fqOp]

/-- The family that answers an ecall number. -/
def delegationFamily (number : ℕ) : Option ℕ :=
  (Delegation.types.find? fun type => type.2.1 = number).map Prod.fst

/-- The head of a declaration record. -/
def markerMagic : List UInt8 := [0x41, 0x50, 0x4f, 0x47, 0x44, 0x45, 0x4c, 0x31]

/-- A declaration record's length: the magic, then a 32-bit number. -/
def markerBytes : ℕ := 12

/-- The record at one place of a segment, if there is one, added to those found. -/
def recordAt (segment : Segment) (found : List ℕ) (place : ℕ) : Attempt (List ℕ) := do
  ensure (place + markerBytes ≤ segment.bytes.length)
  if (segment.bytes.drop place).take 8 ≠ markerMagic then return found
  else
    let number := Math.leValue ((segment.bytes.drop (place + 8)).take 4)
    match delegationFamily number with
    | none => refuse (.unknownDelegation (segment.vaddr + BitVec.ofNat 32 place)
        (BitVec.ofNat 32 number))
    | some family => return if found.contains family then found else found ++ [family]

/-- The delegation families the linked binary declares, ascending. -/
def declaredDelegations (image : ProgramImage) : Attempt (List ℕ) := do
  let segments := (image.segments.filter fun s => !s.bytes.isEmpty).insertionSort
    fun x y => x.vaddr.toNat ≤ y.vaddr.toNat
  let found ← segments.foldlM (fun found segment =>
    (List.range (segment.bytes.length - (markerBytes - 1))).foldlM (recordAt segment) found) []
  return found.insertionSort (· ≤ ·)

/-- One past the highest file-backed byte of the image. -/
def fileBytesEnd (image : ProgramImage) : Option ℕ :=
  ((image.segments.filter fun s => !s.bytes.isEmpty).map fun s =>
    s.vaddr.toNat + s.bytes.length).max?

/-- The rows a family claims, in address order. -/
def rowsOf (claims : List (ℕ × Claim)) (family : ℕ) : List Claim :=
  (claims.filter fun claim => claim.1 = family).map Prod.snd

/-- Whether a family is present without a claim: a window family, a declared delegation, and
the field memory's windows when a field family is declared. -/
def always (declared detached : List ℕ) (family : ℕ) : Bool :=
  (family = Family.initTeardown ∨ family = Family.zeroWindows ∨ family = Family.adviceWindows ∨
    family = Family.publicInput ∨ family = Family.publicOutput ∨
    (family = Family.fieldWindows ∧ declared.any fieldDelegations.contains) ∨
    declared.contains family) ∧ ¬detached.contains family

/-- A family's place in the config and its table, when it is present. -/
def familyEntry (params : ProgramParams) (detached declared : List ℕ)
    (claims : List (ℕ × Claim)) (family : ℕ) : Attempt (Option FamilyTable) :=
  let rows := rowsOf claims family
  if rows.isEmpty && !always declared detached family then .ok none
  else do
    let height ← heightOf family params
    match rows.getLast? with
    | some (last, values) =>
      if height ≤ last + 1 then do
        let pc ← orPanic values[0]?
        refuse (.tableTooShort family pc height)
      else do
        let table ← buildTable family height rows
        return some table
    | none => do
      let table ← buildTable family height rows
      return some table

/-- Every instruction slot is live in exactly one table, at its pc. -/
def slotOwned (slotBase : BitVec 32) (tables : List FamilyTable) (entry : Slot × ℕ) :
    Attempt Unit :=
  match entry.1 with
  | .instruction _ _ => do
    let row := slotBase.toNat / 2 + entry.2
    let owners ← tables.filterM fun table => table.isLive row
    ensure (owners.length = 1)
    let owner ← orPanic owners[0]?
    let pc ← owner.get 0 row
    ensure (2 * row < 2 ^ 32)
    ensure (pc = some (BitVec.ofNat 32 (2 * row)))
  | _ => .ok ()

/-- The family-partition assertion. -/
def checkPartition (image : ProgramImage) (tables : List FamilyTable) : Attempt Unit := do
  image.slots.zipIdx.forM (slotOwned image.slotBase tables)
  let live ← tables.mapM fun table => (List.range table.height).filterM fun row => table.isLive row
  ensure ((live.map List.length).sum = (image.slots.filter Slot.isInstruction).length)

/-- The window rules, as refusals. -/
def windowRules (image : ProgramImage) (config : VmConfig) : Attempt Unit :=
  match windowHeight config with
  | .error rule => refuse (.windowRule rule)
  | .ok height =>
    match fileBytesEnd image with
    | some last => if 4 * height < last then refuse (.imageOutsideWindow last height) else .ok ()
    | none => .ok ()

/-- A family's height is on the menu. -/
def heightRule (params : ProgramParams) (family : ℕ) : Attempt Unit := do
  let height ← heightOf family params
  if height ∈ Family.heightMenu then .ok () else refuse (.heightNotOnMenu family height)

/-- The bytecode ceiling. -/
def sizeRule (image : ProgramImage) (params : ProgramParams) : Attempt Unit :=
  let last := (fileBytesEnd image).getD GuestMemory.ramOrigin
  let words := (last - GuestMemory.ramOrigin + 3) / 4
  if params.bytecodeSizeWords.toNat < words then
    refuse (.programTooLarge words params.bytecodeSizeWords)
  else .ok ()

/-- Decode a program with some families unavailable to claim a pc. -/
def decodeProgramDetaching (image : ProgramImage) (params : ProgramParams) (detached : List ℕ) :
    Attempt (DecodedTables × VmConfig) := do
  if params.codeVersion ≠ codeVersion then
    refuse (.unsupportedCodeVersion params.codeVersion)
  else do
    families.forM (heightRule params)
    sizeRule image params
    let claims ← image.slots.zipIdx.mapM (claimOf image.slotBase detached)
    let declared ← declaredDelegations image
    let entries ← families.mapM (familyEntry params detached declared claims.reduceOption)
    let tables := entries.reduceOption
    let config : VmConfig :=
      ⟨tables.map fun table => (table.family, table.height), params.bytecodeSizeWords.toNat⟩
    windowRules image config
    checkPartition image tables
    return (⟨params.codeVersion, tables⟩, config)

/-- Decode a program into its family tables, and derive its config. -/
def decodeProgram (image : ProgramImage) (params : ProgramParams) :
    Attempt (DecodedTables × VmConfig) :=
  decodeProgramDetaching image params []

/-! ## What a row determines -/

section Instructions

/-- An instruction without what no table holds: an atomic's ordering bits and a fence's
fields. -/
def erase : Instr → Instr
  | .fence _ _ _ => .fence 0 0 0
  | .lrW rd rs1 _ _ => .lrW rd rs1 false false
  | .scW rd rs1 rs2 _ _ => .scW rd rs1 rs2 false false
  | .amoswapW rd rs1 rs2 _ _ => .amoswapW rd rs1 rs2 false false
  | .amoaddW rd rs1 rs2 _ _ => .amoaddW rd rs1 rs2 false false
  | .amoxorW rd rs1 rs2 _ _ => .amoxorW rd rs1 rs2 false false
  | .amoandW rd rs1 rs2 _ _ => .amoandW rd rs1 rs2 false false
  | .amoorW rd rs1 rs2 _ _ => .amoorW rd rs1 rs2 false false
  | .amominW rd rs1 rs2 _ _ => .amominW rd rs1 rs2 false false
  | .amomaxW rd rs1 rs2 _ _ => .amomaxW rd rs1 rs2 false false
  | .amominuW rd rs1 rs2 _ _ => .amominuW rd rs1 rs2 false false
  | .amomaxuW rd rs1 rs2 _ _ => .amomaxuW rd rs1 rs2 false false
  | instr => instr

/-- The instruction a family and a bit name, over a row's fields. -/
def formOf (rs1 rs2 rd : Reg) (imm : BitVec 32) : ℕ × ℕ → Option Instr
  | (0, 0) => some (if imm = 0 then .ecall else if imm = 1 then .ebreak else .fence 0 0 0)
  | (0, 1) => some (.addi rd rs1 imm)
  | (0, 2) => some (.auipc rd imm)
  | (0, 3) => some (.add rd rs1 rs2)
  | (0, 4) => some (.sub rd rs1 rs2)
  | (0, 5) => some (.lui rd imm)
  | (1, 0) => some (.slti rd rs1 imm)
  | (1, 1) => some (.sltiu rd rs1 imm)
  | (1, 2) => some (.slt rd rs1 rs2)
  | (1, 3) => some (.sltu rd rs1 rs2)
  | (1, 4) => some (.beq rs1 rs2 imm)
  | (1, 5) => some (.bne rs1 rs2 imm)
  | (1, 6) => some (.blt rs1 rs2 imm)
  | (1, 7) => some (.bge rs1 rs2 imm)
  | (1, 8) => some (.bltu rs1 rs2 imm)
  | (1, 9) => some (.bgeu rs1 rs2 imm)
  | (1, 10) => some (.jalr rd rs1 imm)
  | (1, 11) => some (.jal rd imm)
  | (2, 0) => some (.slli rd rs1 (imm.setWidth 8))
  | (2, 1) => some (.xori rd rs1 imm)
  | (2, 2) => some (.srli rd rs1 (imm.setWidth 8))
  | (2, 3) => some (.srai rd rs1 (imm.setWidth 8))
  | (2, 4) => some (.ori rd rs1 imm)
  | (2, 5) => some (.andi rd rs1 imm)
  | (2, 6) => some (.sll rd rs1 rs2)
  | (2, 7) => some (.xor rd rs1 rs2)
  | (2, 8) => some (.srl rd rs1 rs2)
  | (2, 9) => some (.sra rd rs1 rs2)
  | (2, 10) => some (.or rd rs1 rs2)
  | (2, 11) => some (.and rd rs1 rs2)
  | (3, 0) => some (.mul rd rs1 rs2)
  | (3, 1) => some (.mulh rd rs1 rs2)
  | (3, 2) => some (.mulhsu rd rs1 rs2)
  | (3, 3) => some (.mulhu rd rs1 rs2)
  | (3, 4) => some (.div rd rs1 rs2)
  | (3, 5) => some (.divu rd rs1 rs2)
  | (3, 6) => some (.rem rd rs1 rs2)
  | (3, 7) => some (.remu rd rs1 rs2)
  | (4, 0) => some (.lw rd rs1 imm)
  | (4, 1) => some (.sw rs1 rs2 imm)
  | (5, 0) => some (.lb rd rs1 imm)
  | (5, 1) => some (.lh rd rs1 imm)
  | (5, 2) => some (.lbu rd rs1 imm)
  | (5, 3) => some (.lhu rd rs1 imm)
  | (5, 4) => some (.sb rs1 rs2 imm)
  | (5, 5) => some (.sh rs1 rs2 imm)
  | (6, 0) => some (.amoaddW rd rs1 rs2 false false)
  | (6, 1) => some (.amoswapW rd rs1 rs2 false false)
  | (6, 2) => some (.lrW rd rs1 false false)
  | (6, 3) => some (.scW rd rs1 rs2 false false)
  | (6, 4) => some (.amoxorW rd rs1 rs2 false false)
  | (6, 5) => some (.amoorW rd rs1 rs2 false false)
  | (6, 6) => some (.amoandW rd rs1 rs2 false false)
  | (6, 7) => some (.amominW rd rs1 rs2 false false)
  | (6, 8) => some (.amomaxW rd rs1 rs2 false false)
  | (6, 9) => some (.amominuW rd rs1 rs2 false false)
  | (6, 10) => some (.amomaxuW rd rs1 rs2 false false)
  | _ => none

theorem rowKind_lt (instr : Instr) : (rowKind instr).1 < 7 ∧ (rowKind instr).2 < 12 := by
  cases instr <;> exact ⟨Nat.le_of_ble_eq_true rfl, Nat.le_of_ble_eq_true rfl⟩

/-- A register's row entry gives it back. -/
theorem setWidth_reg (x : Reg) : (x.setWidth 32).setWidth 8 = x := by
  rw [BitVec.setWidth_setWidth_of_le _ (by norm_num), BitVec.setWidth_eq]

/-- An instruction is told by its registers, its immediate, its family and its bit. -/
theorem formOf_fields (instr : Instr) :
    formOf (instr.fields.rs1.getD 0) (instr.fields.rs2.getD 0) (instr.fields.rd.getD 0)
      (rowImm instr) (rowKind instr) = some (erase instr) := by
  cases instr with
  | slli rd rs1 shamt => exact congrArg (fun x => some (Instr.slli rd rs1 x)) (setWidth_reg shamt)
  | srli rd rs1 shamt => exact congrArg (fun x => some (Instr.srli rd rs1 x)) (setWidth_reg shamt)
  | srai rd rs1 shamt => exact congrArg (fun x => some (Instr.srai rd rs1 x)) (setWidth_reg shamt)
  | _ => rfl

/-- The families of six columns need no immediate. -/
theorem formOf_bare {rs1 rs2 rd : Reg} {family kind : ℕ} (bare : family = 3 ∨ family = 6)
    (few : kind < 12) (imm imm' : BitVec 32) :
    formOf rs1 rs2 rd imm (family, kind) = formOf rs1 rs2 rd imm' (family, kind) := by
  rcases bare with rfl | rfl
  · interval_cases kind <;> rfl
  · interval_cases kind <;> rfl

/-- A packed mask has one bit. -/
theorem mask_injective {kind kind' : ℕ} (few : kind < 12) (few' : kind' < 12)
    (same : BitVec.ofNat 32 (1 <<< kind) = BitVec.ofNat 32 (1 <<< kind')) : kind = kind' := by
  have small {k : ℕ} (few : k < 12) : (BitVec.ofNat 32 (1 <<< k)).toNat = 2 ^ k := by
    rw [BitVec.toNat_ofNat, Nat.one_shiftLeft,
      Nat.mod_eq_of_lt (Nat.pow_lt_pow_right (by norm_num) (few.trans (by norm_num)))]
  have powers := congrArg BitVec.toNat same
  rw [small few, small few'] at powers
  exact Nat.pow_right_injective le_rfl powers

theorem reg_injective {x y : Reg} (same : x.setWidth 32 = y.setWidth 32) : x = y := by
  rw [← setWidth_reg x, same, setWidth_reg]

/-- A family and a tuple determine the instruction. -/
theorem erase_eq {instr other : Instr} {pc pc' : BitVec 32} {compressed compressed' : Bool}
    (family : (rowKind instr).1 = (rowKind other).1)
    (tuple : decodedTuple instr pc compressed = decodedTuple other pc' compressed') :
    erase instr = erase other := by
  rw [decodedTuple, decodedTuple, ← family, List.map_inj_left] at tuple
  obtain ⟨known, few⟩ := rowKind_lt instr
  have few' := (rowKind_lt other).2
  have common : ∀ place ∈ [2, 3, 4, 7], place ∈ lookupTuple (rowKind instr).1 := by
    interval_cases (rowKind instr).1 <;> decide
  have rs1 := reg_injective (tuple 2 (common 2 (by decide)))
  have rs2 := reg_injective (tuple 3 (common 3 (by decide)))
  have rd := reg_injective (tuple 4 (common 4 (by decide)))
  have kind := mask_injective few few' (tuple 7 (common 7 (by decide)))
  have both : rowKind other = ((rowKind instr).1, (rowKind instr).2) :=
    Prod.ext family.symm kind.symm
  apply Option.some_injective
  rw [← formOf_fields instr, ← formOf_fields other, rs1, rs2, rd, both]
  by_cases bare : (rowKind instr).1 = 3 ∨ (rowKind instr).1 = 6
  · exact formOf_bare bare few _ _
  · have held : 5 ∈ lookupTuple (rowKind instr).1 := by
      revert bare
      interval_cases (rowKind instr).1 <;> decide
    have imm : rowImm instr = rowImm other := tuple 5 held
    rw [imm]

end Instructions

/-! ## Backings read back -/

section Backings

/-- The packed bit of an entry. -/
def limbBit (limbs : List (BitVec 64)) (j : ℕ) : Bool :=
  (limbs[j / 64]?.getD 0).getLsbD (j % 64)

theorem length_packBit (limbs : List (BitVec 64)) (entry : BitVec 32 × ℕ) :
    (packBit limbs entry).length = limbs.length := by
  rw [packBit, List.length_modify]

theorem limbBit_packBit {limbs : List (BitVec 64)} {v : BitVec 32} {i : ℕ} (bit : v.toNat ≤ 1)
    (inside : i / 64 < limbs.length) (j : ℕ) :
    limbBit (packBit limbs (v, i)) j = (limbBit limbs j || (decide (i = j) && v.getLsbD 0)) := by
  have high (t : ℕ) (positive : 0 < t) : v.getLsbD t = false := by
    rw [← BitVec.testBit_toNat]
    exact Nat.testBit_lt_two_pow (lt_of_le_of_lt bit (Nat.one_lt_two_pow positive.ne'))
  rw [limbBit, packBit, List.getElem?_modify, limbBit]
  by_cases same : i / 64 = j / 64
  · obtain ⟨limb, found⟩ : ∃ limb, limbs[j / 64]? = some limb :=
      ⟨_, List.getElem?_eq_getElem (same ▸ inside)⟩
    simp only [found, same, if_true, Option.map_eq_map, Option.map_some, Option.getD_some,
      BitVec.getLsbD_or, BitVec.getLsbD_shiftLeft, BitVec.getLsbD_setWidth]
    congr 1
    have bound := Nat.mod_lt j (by norm_num : 64 > 0)
    by_cases equal : i = j
    · subst equal
      simp [bound]
    · have apart : i % 64 ≠ j % 64 := by omega
      rcases lt_or_gt_of_ne apart with below | above
      · rw [high _ (by omega)]
        simp [equal]
      · simp [equal, above]
  · have other : i ≠ j := fun equal => same (by rw [equal])
    simp [same, other]

/-- The bits packed one after another, over whatever the limbs held. -/
theorem limbBit_foldl (values : List (BitVec 32)) (bits : ∀ v ∈ values, v.toNat ≤ 1)
    (limbs : List (BitVec 64)) (n : ℕ) (room : n + values.length ≤ 64 * limbs.length) (j : ℕ) :
    limbBit ((values.zipIdx n).foldl packBit limbs) j =
      (limbBit limbs j || (decide (n ≤ j) && (values.getD (j - n) 0).getLsbD 0)) := by
  induction values generalizing limbs n with
  | nil => simp
  | cons v values ih =>
    rw [List.length_cons] at room
    rw [List.zipIdx_cons, List.foldl_cons,
      ih (fun other member => bits other (List.mem_cons_of_mem _ member)) _ (n + 1)
        (by rw [length_packBit]; omega),
      limbBit_packBit (bits v List.mem_cons_self) (by omega), Bool.or_assoc]
    congr 1
    by_cases here : n = j
    · subst here
      simp
    · by_cases later : n + 1 ≤ j
      · rw [show j - n = j - (n + 1) + 1 by omega, List.getD_cons_succ]
        simp [here, later, show n ≤ j by omega]
      · simp [here, later, show ¬n ≤ j by omega]

theorem length_foldl_packBit (entries : List (BitVec 32 × ℕ)) (limbs : List (BitVec 64)) :
    (entries.foldl packBit limbs).length = limbs.length := by
  induction entries generalizing limbs with
  | nil => rfl
  | cons entry entries ih => rw [List.foldl_cons, ih, length_packBit]

theorem le_most {values : List (BitVec 32)} {v : BitVec 32} (member : v ∈ values) :
    v.toNat ≤ (values.map BitVec.toNat).foldr max 0 := by
  induction values with
  | nil => exact absurd member List.not_mem_nil
  | cons first values ih =>
    rw [List.map_cons, List.foldr_cons]
    rcases List.mem_cons.mp member with rfl | later
    · exact le_max_left _ _
    · exact (ih later).trans (le_max_right _ _)

/-- A narrow backing gives its values back. -/
theorem read_narrow {w : ℕ} {values : List (BitVec 32)} (i : ℕ) (narrow : w ≤ 32)
    (small : ∀ v ∈ values, v.toNat < 2 ^ w) :
    (values.map fun v => v.setWidth w)[i]?.map (fun v => v.setWidth 32) = values[i]? := by
  rw [List.getElem?_map, Option.map_map]
  cases found : values[i]? with
  | none => rfl
  | some v =>
    rw [Option.map_some, Function.comp_apply]
    congr 1
    apply BitVec.eq_of_toNat_eq
    rw [BitVec.toNat_setWidth_of_le narrow, BitVec.toNat_setWidth,
      Nat.mod_eq_of_lt (small v (List.mem_of_getElem? found))]

/-- A column's backing gives its values back. -/
theorem read_narrowest {values : List (BitVec 32)} {i : ℕ} (inside : i < values.length) :
    read (narrowest values) i = values[i]? := by
  have bound {v : BitVec 32} (member : v ∈ values) := le_most member
  rw [narrowest]
  by_cases one : (values.map BitVec.toNat).foldr max 0 ≤ 1
  · have bits : ∀ v ∈ values, v.toNat ≤ 1 := fun v member => (bound member).trans one
    rw [if_pos one, read, List.getElem?_eq_getElem inside]
    generalize packed : values.zipIdx.foldl packBit
      (List.replicate ((values.length + 63) / 64) 0) = limbs
    have length : limbs.length = (values.length + 63) / 64 := by
      rw [← packed, length_foldl_packBit, List.length_replicate]
    obtain ⟨limb, found⟩ : ∃ limb, limbs[i / 64]? = some limb :=
      ⟨_, List.getElem?_eq_getElem (by omega)⟩
    have bit : limb.getLsbD (i % 64) = values[i].getLsbD 0 := by
      have all := limbBit_foldl values bits (List.replicate ((values.length + 63) / 64) 0) 0
        (by rw [List.length_replicate]; omega) i
      rw [packed, limbBit, found, Option.getD_some] at all
      rw [all, limbBit, List.getElem?_replicate]
      split <;> simp [inside]
    rw [found, Option.map_some]
    congr 1
    have small := bits values[i] (List.getElem_mem inside)
    apply BitVec.eq_of_getLsbD_eq
    intro t below
    by_cases first : t = 0
    · subst first
      simp [bit]
    · have high : values[i].getLsbD t = false := by
        rw [← BitVec.testBit_toNat]
        exact Nat.testBit_lt_two_pow (lt_of_le_of_lt small (Nat.one_lt_two_pow first))
      rw [high]
      simp [first]
  · rw [if_neg one]
    by_cases byte : (values.map BitVec.toNat).foldr max 0 ≤ 255
    · rw [if_pos byte]
      exact read_narrow i (by norm_num) fun v member =>
        lt_of_le_of_lt ((bound member).trans byte) (by norm_num)
    · rw [if_neg byte]
      by_cases half : (values.map BitVec.toNat).foldr max 0 ≤ 65535
      · rw [if_pos half]
        exact read_narrow i (by norm_num) fun v member =>
          lt_of_le_of_lt ((bound member).trans half) (by norm_num)
      · rw [if_neg half, read]

end Backings

/-! ## What a table holds -/

section Built

/-- A pass that succeeds at every entry with a known value. -/
theorem mapM_value {α β : Type} {step : α → Attempt β} {value : α → β} {list : List α}
    (each : ∀ entry ∈ list, step entry = .ok (value entry)) :
    list.mapM step = .ok (list.map value) := by
  induction list with
  | nil => rfl
  | cons entry list ih =>
    obtain ⟨first, others⟩ := List.forall_mem_cons.mp each
    rw [List.mapM_cons, first, ih others]
    rfl

/-- Values written at rows, over a start. -/
def written {ρ α : Type} (row : ρ → ℕ) (value : ρ → α) (rows : List ρ) (start : List α) : List α :=
  rows.foldl (fun values entry => values.set (row entry) (value entry)) start

variable {ρ α : Type} (row : ρ → ℕ) (value : ρ → α) {rows : List ρ} {start : List α}

theorem length_written : (written row value rows start).length = start.length := by
  rw [written]
  induction rows generalizing start with
  | nil => rfl
  | cons entry rows ih => rw [List.foldl_cons, ih, List.length_set]

theorem getElem?_written_of_not_mem {r : ℕ} (absent : r ∉ rows.map row) :
    (written row value rows start)[r]? = start[r]? := by
  rw [written]
  induction rows generalizing start with
  | nil => rfl
  | cons entry rows ih =>
    rw [List.map_cons, List.mem_cons, not_or] at absent
    rw [List.foldl_cons, ih absent.2, List.getElem?_set_ne (Ne.symm absent.1)]

theorem getElem?_written {entry : ρ} (distinct : (rows.map row).Nodup) (member : entry ∈ rows)
    (inside : row entry < start.length) :
    (written row value rows start)[row entry]? = some (value entry) := by
  rw [written]
  induction rows generalizing start with
  | nil => exact absurd member List.not_mem_nil
  | cons first rows ih =>
    obtain ⟨notLater, distinct⟩ := List.nodup_cons.mp distinct
    rw [List.foldl_cons]
    rcases List.mem_cons.mp member with rfl | later
    · have kept := @getElem?_written_of_not_mem _ _ row value _
        (start.set (row entry) (value entry)) _ notLater
      rw [written] at kept
      rw [kept, List.getElem?_set_self inside]
    · exact ih distinct later (by rwa [List.length_set])

/-- Writes inside the values succeed. -/
theorem foldlM_setAt {step : List α → ρ → Attempt (List α)}
    (each : ∀ values, ∀ entry ∈ rows, step values entry = setAt values (row entry) (value entry))
    (inside : ∀ entry ∈ rows, row entry < start.length) :
    rows.foldlM step start = .ok (written row value rows start) := by
  rw [written]
  induction rows generalizing start with
  | nil => rfl
  | cons entry rows ih =>
    rw [List.foldlM_cons, List.foldl_cons, each start entry List.mem_cons_self, setAt,
      if_pos (inside entry List.mem_cons_self)]
    refine ih (fun values other member => each values other (List.mem_cons_of_mem _ member))
      fun other member => ?_
    rw [List.length_set]
    exact inside other (List.mem_cons_of_mem _ member)

/-- The mask of a family is its lookup tuple. -/
theorem fieldMask_ok {family : ℕ} (known : family < Family.count) :
    ∃ mask, fieldMask family = .ok mask ∧
      (List.range 8).filter (fun k => mask.getLsbD k) = lookupTuple family := by
  rw [Family.count] at known
  interval_cases family <;> exact ⟨_, rfl, rfl⟩

end Built

/-- The rows a table is built from: each inside the height with its eight values, in order. -/
structure Rows (height : ℕ) (rows : List Claim) : Prop where
  ascending : (rows.map Prod.fst).Pairwise (· < ·)
  inside : ∀ row ∈ rows, row.1 < height
  eight : ∀ row ∈ rows, row.2.length = 8

namespace Rows

variable {height family : ℕ} {rows : List Claim}

theorem nodup (good : Rows height rows) : (rows.map Prod.fst).Nodup :=
  good.ascending.imp fun less => less.ne

/-- The liveness bits of a table. -/
def live (height : ℕ) (rows : List Claim) : List (BitVec 32) :=
  written Prod.fst (fun _ => 1) rows (List.replicate height 0)

/-- One column's values. -/
def column (height : ℕ) (rows : List Claim) (k : ℕ) : List (BitVec 32) :=
  written Prod.fst (fun row => row.2.getD k 0) rows (List.replicate height 0)

/-- The table a family's rows give. -/
def table (family height : ℕ) (rows : List Claim) : FamilyTable :=
  ⟨family, height, narrowest (live height rows),
    (lookupTuple family).map fun k => (k, narrowest (column height rows k))⟩

theorem columnOf_ok (good : Rows height rows) {k : ℕ} (few : k < 8) :
    columnOf height rows k = .ok (k, narrowest (column height rows k)) := by
  have stepped : rows.foldlM (fun values row => do
        let value ← orPanic row.2[k]?
        setAt values row.1 value) (List.replicate height 0) = .ok (column height rows k) := by
    refine foldlM_setAt Prod.fst (fun row : Claim => row.2.getD k 0) (fun values row member => ?_)
      fun row member => ?_
    · have wide : k < row.2.length := by
        rw [good.eight row member]
        exact few
      rw [List.getElem?_eq_getElem wide, List.getD_eq_getElem _ _ wide]
      rfl
    · rw [List.length_replicate]
      exact good.inside row member
  rw [columnOf, stepped]
  rfl

/-- A family's rows build its table. -/
theorem buildTable_ok (good : Rows height rows) (known : family < Family.count) :
    buildTable family height rows = .ok (table family height rows) := by
  obtain ⟨mask, masked, fields⟩ := fieldMask_ok known
  have lives : rows.foldlM (fun live row => setAt live row.1 1) (List.replicate height 0) =
      .ok (live height rows) :=
    foldlM_setAt Prod.fst (fun _ => 1) (fun _ _ _ => rfl) fun row member => by
      rw [List.length_replicate]
      exact good.inside row member
  have columns : (lookupTuple family).mapM (columnOf height rows) =
      .ok ((lookupTuple family).map fun k => (k, narrowest (column height rows k))) := by
    rw [← fields]
    refine mapM_value fun k member => columnOf_ok good ?_
    exact List.mem_range.mp (List.mem_filter.mp member).1
  rw [buildTable, lives, masked]
  change (do
    let columns ← ((List.range 8).filter fun k => mask.getLsbD k).mapM (columnOf height rows)
    return (⟨family, height, narrowest (live height rows), columns⟩ : FamilyTable)) = _
  rw [fields, columns]
  rfl

theorem length_live : (live height rows).length = height := by
  rw [live, length_written, List.length_replicate]

theorem length_column {k : ℕ} : (column height rows k).length = height := by
  rw [column, length_written, List.length_replicate]

/-- A built table is live at its rows and nowhere else. -/
theorem isLive_table (good : Rows height rows) (row : ℕ) :
    (table family height rows).isLive row = .ok (decide (row ∈ rows.map Prod.fst)) := by
  change (if row < height then do
      let bit ← orPanic (read (narrowest (live height rows)) row)
      return decide (bit = 1)
    else .ok false) = (.ok (decide (row ∈ rows.map Prod.fst)) : Attempt Bool)
  by_cases inside : row < height
  · have bit : (live height rows)[row]? = some (if row ∈ rows.map Prod.fst then 1 else 0) := by
      by_cases member : row ∈ rows.map Prod.fst
      · obtain ⟨entry, found, rfl⟩ := List.mem_map.mp member
        rw [if_pos member, live, getElem?_written _ _ good.nodup found
          (by rw [List.length_replicate]; exact inside)]
      · rw [if_neg member, live, getElem?_written_of_not_mem _ _ member,
          List.getElem?_replicate_of_lt inside]
    rw [if_pos inside, read_narrowest (by rw [length_live]; exact inside), bit]
    by_cases member : row ∈ rows.map Prod.fst
    · rw [if_pos member, decide_eq_true member]
      rfl
    · rw [if_neg member, decide_eq_false member]
      rfl
  · have absent : row ∉ rows.map Prod.fst := fun member => by
      obtain ⟨entry, found, rfl⟩ := List.mem_map.mp member
      exact inside (good.inside entry found)
    rw [if_neg inside, decide_eq_false absent]

/-- A column's value at a claimed row. -/
theorem column_at (good : Rows height rows) {claim : Claim} (member : claim ∈ rows) {k : ℕ}
    (few : k < 8) : (column height rows k)[claim.1]? = claim.2[k]? := by
  have wide : k < claim.2.length := by
    rw [good.eight claim member]
    exact few
  rw [column, getElem?_written _ _ good.nodup member
      (by rw [List.length_replicate]; exact good.inside claim member),
    List.getD_eq_getElem _ _ wide, List.getElem?_eq_getElem wide]

/-- An entry of a live row. -/
theorem get_live (good : Rows height rows) {row : ℕ} (live : row ∈ rows.map Prod.fst)
    {k place : ℕ} (stored : (lookupTuple family)[k]? = some place) :
    (table family height rows).get k row = .ok (column height rows place)[row]? := by
  obtain ⟨claim, member, rfl⟩ := List.mem_map.mp live
  have inside : claim.1 < (column height rows place).length := by
    rw [length_column]
    exact good.inside claim member
  have lives : (table family height rows).isLive claim.1 = .ok true := by
    rw [good.isLive_table, decide_eq_true live]
  have columns : (table family height rows).columns[k]? =
      some (place, narrowest (column height rows place)) := by
    rw [table, List.getElem?_map, stored]
    rfl
  rw [FamilyTable.get, lives]
  change (do
    let values ← orPanic (table family height rows).columns[k]?
    let value ← orPanic (read values.2 claim.1)
    return some value) = _
  rw [columns]
  change (do
    let value ← orPanic (read (narrowest (column height rows place)) claim.1)
    return some value) = _
  rw [read_narrowest inside, List.getElem?_eq_getElem inside]
  rfl

/-- A column's polynomial: its entries on live rows, and minus one on the others. -/
theorem columnPoly_table (good : Rows height rows) {k place : ℕ}
    (stored : (lookupTuple family)[k]? = some place) :
    (table family height rows).columnPoly k = .ok ((List.range height).map fun row =>
      if row ∈ rows.map Prod.fst then (((column height rows place).getD row 0).toNat : Fr)
      else -1) := by
  have columns : (table family height rows).columns[k]? =
      some (place, narrowest (column height rows place)) := by
    rw [table, List.getElem?_map, stored]
    rfl
  rw [FamilyTable.columnPoly, columns]
  change (List.range height).mapM (fun row => do
    if ← (table family height rows).isLive row then
      let value ← orPanic (read (narrowest (column height rows place)) row)
      return (value.toNat : Fr)
    else return -1) = _
  refine mapM_value fun row member => ?_
  have inside : row < (column height rows place).length := by
    rw [length_column]
    exact List.mem_range.mp member
  rw [good.isLive_table]
  by_cases live : row ∈ rows.map Prod.fst
  · rw [decide_eq_true live, if_pos live, read_narrowest inside, List.getElem?_eq_getElem inside,
      List.getD_eq_getElem _ _ inside]
    rfl
  · rw [decide_eq_false live, if_neg live]
    rfl

end Rows

end Apogee.Program
