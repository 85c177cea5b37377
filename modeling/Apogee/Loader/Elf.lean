import Apogee.Loader.Image
import Apogee.Math.Codec

/-! # Loading

An ELF file's segments, sorted, are the memory image; its executable ones are swept halfword
by halfword into slots, every compressed instruction expanded where it stands.
-/

namespace Apogee.Loader

open Math (leValue)

inductive LoaderError
  | notAnElf (reason : String)
  | truncated (what : String) (need have' : ℕ)
  | relocatableElf
  | dynamicElf (reason : String)
  | notRiscV (machine : ℕ)
  | unsupportedElfType (eType : ℕ)
  | badSegment (vaddr : BitVec 32) (reason : String)
  | noExecutableSegment
  | entryNotAnInstruction (entry : BitVec 32)
  | rvcIllegal (pc : BitVec 32) (encoding : BitVec 16) (reason : String)
  | instructionTooLong (pc : BitVec 32) (encoding : BitVec 16)
  | textTruncated (pc : BitVec 32)
deriving DecidableEq

namespace Elf

def magic : List UInt8 := [0x7f, 0x45, 0x4c, 0x46]
def class32 : UInt8 := 1
def data2Lsb : UInt8 := 1
def evCurrent : UInt8 := 1
def etRel : ℕ := 1
def etExec : ℕ := 2
def etDyn : ℕ := 3
def emRiscV : ℕ := 243
def ptLoad : ℕ := 1
def ptDynamic : ℕ := 2
def ptInterp : ℕ := 3
def ehdrLen : ℕ := 52
def phdrLen : ℕ := 32

/-- A machine's addresses are below this. -/
def usizeEnd : ℕ := 2 ^ 64

def u16le (bytes : List UInt8) (place : ℕ) : ℕ := leValue ((bytes.drop place).take 2)

def u32le (bytes : List UInt8) (place : ℕ) : ℕ := leValue ((bytes.drop place).take 4)

/-- What a load reads of the file's header. -/
structure Header where
  entry : BitVec 32
  phoff : ℕ
  phentsize : ℕ
  phnum : ℕ

/-- The checks of the identification bytes. -/
def identRules (bytes : List UInt8) : Except LoaderError Unit :=
  if bytes.length < ehdrLen then .error (.truncated "ELF header" ehdrLen bytes.length)
  else if bytes.take 4 ≠ magic then .error (.notAnElf "bad ELF magic")
  else if bytes[4]? ≠ some class32 then
    .error (.notAnElf "not ELFCLASS32: this VM is 32-bit")
  else if bytes[5]? ≠ some data2Lsb then
    .error (.notAnElf "not ELFDATA2LSB: RISC-V is little-endian here")
  else if bytes[6]? ≠ some evCurrent then
    .error (.notAnElf "e_ident version is not EV_CURRENT")
  else .ok ()

/-- A static executable for the machine. -/
def typeRules (bytes : List UInt8) : Except LoaderError Unit :=
  if u16le bytes 16 = etRel then .error .relocatableElf
  else if u16le bytes 16 = etDyn then
    .error (.dynamicElf "e_type is ET_DYN: a shared object or PIE, not a static executable")
  else if u16le bytes 16 ≠ etExec then .error (.unsupportedElfType (u16le bytes 16))
  else if u16le bytes 18 ≠ emRiscV then .error (.notRiscV (u16le bytes 18))
  else if u32le bytes 20 ≠ 1 then .error (.notAnElf "e_version is not 1")
  else .ok ()

def parseHeader (bytes : List UInt8) : Except LoaderError Header := do
  identRules bytes
  typeRules bytes
  let header : Header :=
    ⟨BitVec.ofNat 32 (u32le bytes 24), u32le bytes 28, u16le bytes 42, u16le bytes 44⟩
  if header.phentsize ≠ phdrLen then
    .error (.notAnElf "e_phentsize is not 32: not a 32-bit program header table")
  else if header.phnum = 0 then
    .error (.notAnElf "e_phnum is 0: no program headers, so nothing to load")
  else .ok header

/-- The segment of the header at a place, and whether it is executable, where it is one to
be loaded. -/
def readSegment (bytes : List UInt8) (place : ℕ) : Except LoaderError (Option (Segment × Bool)) :=
  let type := u32le bytes place
  if type = ptDynamic then
    .error (.dynamicElf "a PT_DYNAMIC segment: this program expects a dynamic linker")
  else if type = ptInterp then
    .error (.dynamicElf "a PT_INTERP segment: this program names an interpreter")
  else if type ≠ ptLoad then .ok none
  else
    let offset := u32le bytes (place + 4)
    let vaddr := BitVec.ofNat 32 (u32le bytes (place + 8))
    let filesz := u32le bytes (place + 16)
    let memsz := BitVec.ofNat 32 (u32le bytes (place + 20))
    let flags := u32le bytes (place + 24)
    if vaddr.toNat % 2 ≠ 0 then
      .error (.badSegment vaddr "an odd segment address cannot hold an instruction stream")
    else if memsz.toNat < filesz then .error (.badSegment vaddr "p_filesz above p_memsz")
    else if vaddr.toNat < GuestMemory.ramOrigin ∨ ramTop < vaddr.toNat + memsz.toNat then
      .error (.badSegment vaddr "segment lies outside the guest RAM window")
    else if usizeEnd ≤ offset + filesz then
      .error (.badSegment vaddr "p_offset + p_filesz overflows")
    else if bytes.length < offset + filesz then
      .error (.truncated "segment contents" (offset + filesz) bytes.length)
    else .ok (some (⟨vaddr, memsz, (bytes.drop offset).take filesz⟩, flags % 2 = 1))

/-- The segments to be loaded, in file order. -/
def readSegments (bytes : List UInt8) (header : Header) :
    Except LoaderError (List (Segment × Bool)) :=
  let tableEnd := header.phoff + header.phentsize * header.phnum
  if usizeEnd ≤ tableEnd then .error (.notAnElf "program header table offset overflows")
  else if bytes.length < tableEnd then
    .error (.truncated "program header table" tableEnd bytes.length)
  else do
    let read ← (List.range header.phnum).mapM fun i =>
      readSegment bytes (header.phoff + i * header.phentsize)
    .ok (read.filterMap id)

end Elf

/-! ## The sweep -/

/-- The slots of the bytes from an address on. -/
def sweepFrom (slotBase : ℕ) : ℕ → List UInt8 → List Slot → Except LoaderError (List Slot)
  | pc, b0 :: b1 :: rest, slots =>
    let half := BitVec.ofNat 16 (leValue [b0, b1])
    let index := (pc - slotBase) / 2
    if half &&& 0b11 = 0b11 then
      if half &&& 0b11100 = 0b11100 then .error (.instructionTooLong (BitVec.ofNat 32 pc) half)
      else
        match rest with
        | b2 :: b3 :: rest =>
          let word := BitVec.ofNat 32 (leValue [b0, b1, b2, b3])
          sweepFrom slotBase (pc + 4) rest
            ((slots.set index (.instruction word false)).set (index + 1) .midInstruction)
        | _ => .error (.textTruncated (BitVec.ofNat 32 pc))
    else if half = 0 then sweepFrom slotBase (pc + 2) rest (slots.set index .nonInstruction)
    else
      match Rvc.expand half with
      | .error reason => .error (.rvcIllegal (BitVec.ofNat 32 pc) half reason)
      | .ok word => sweepFrom slotBase (pc + 2) rest (slots.set index (.instruction word true))
  | _, _, slots => .ok slots

/-- The slots of an executable segment, off its file-backed bytes. -/
def sweep (segment : Segment) (slotBase : BitVec 32) (slots : List Slot) :
    Except LoaderError (List Slot) :=
  sweepFrom slotBase.toNat segment.vaddr.toNat segment.bytes slots

/-! ## The load -/

/-- Sorted segments do not overlap. -/
def overlapRules : List (Segment × Bool) → Except LoaderError Unit
  | first :: second :: rest =>
    if second.1.vaddr.toNat < first.1.top then
      .error (.badSegment second.1.vaddr "overlaps the segment below it")
    else overlapRules (second :: rest)
  | _ => .ok ()

/-- The end of the highest executable segment. -/
def codeEnd (loaded : List (Segment × Bool)) : ℕ :=
  ((loaded.filter Prod.snd).map fun entry => entry.1.top).foldr max 0

/-- Slots for the span of sorted segments up to the end of the code, none swept. -/
def emptySlots (slotBase : BitVec 32) (loaded : List (Segment × Bool)) : List Slot :=
  List.replicate (((codeEnd loaded + 1) / 2 * 2 - slotBase.toNat) / 2) .nonInstruction

/-- Load a static executable. -/
def loadElf (bytes : List UInt8) : Except LoaderError ProgramImage := do
  let header ← Elf.parseHeader bytes
  let read ← Elf.readSegments bytes header
  if ¬read.any Prod.snd then .error .noExecutableSegment
  else do
    -- Stable, so segments at one address keep their order.
    let loaded := read.insertionSort fun x y => x.1.vaddr.toNat ≤ y.1.vaddr.toNat
    overlapRules loaded
    let slotBase := (loaded.head?.map fun entry => entry.1.vaddr).getD 0
    let slots ← (loaded.filter Prod.snd).foldlM (fun slots entry => sweep entry.1 slotBase slots)
      (emptySlots slotBase loaded)
    let image : ProgramImage := ⟨header.entry, loaded.map Prod.fst, slotBase, slots⟩
    if (image.slotAt header.entry).any Slot.isInstruction then .ok image
    else .error (.entryNotAnInstruction header.entry)

end Apogee.Loader
