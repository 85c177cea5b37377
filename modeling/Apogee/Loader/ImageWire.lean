import Apogee.Circuit.Wire
import Apogee.Loader.Loaded

/-! # The image's wire form

An image is its four fields in a row, a slot a kind and a word. The reader takes no image
that breaks a rule, and reads back every image that is loaded.
-/

namespace Apogee.Loader

open Math

/-! ## Readers and writers -/

def readWord : Deserialize (BitVec 32) := convert (fun n => .ok (BitVec.ofNat 32 n)) Postcard.u32

def writeWord : Writer (BitVec 32) := fun x => Serialize.u32 x.toNat

def readBytes : Deserialize (List UInt8) := do
  let n ← Postcard.length
  takeBytes () n

def writeBytes : Writer (List UInt8) := fun bytes =>
  written [Serialize.length bytes.length, some bytes]

/-- A slot's kind and its word. -/
def slotWords : Slot → ℕ × BitVec 32
  | .instruction word false => (0, word)
  | .instruction word true => (1, word)
  | .midInstruction => (2, 0)
  | .nonInstruction => (3, 0)

/-- A slot that is no instruction has no word. -/
def slotOfWords : ℕ × BitVec 32 → Option Slot
  | (0, word) => some (.instruction word false)
  | (1, word) => some (.instruction word true)
  | (2, word) => if word = 0 then some .midInstruction else none
  | (3, word) => if word = 0 then some .nonInstruction else none
  | _ => none

def readSlotWords : Deserialize (ℕ × BitVec 32) := do
  let kind ← Postcard.byte
  let word ← readWord
  pure (kind, word)

def readSlot : Deserialize Slot := convert (orRefuse slotOfWords) readSlotWords

def writeSlotWords : Writer (ℕ × BitVec 32) := fun words =>
  written [Serialize.u8 words.1, writeWord words.2]

def writeSlot : Writer Slot := fun slot => writeSlotWords (slotWords slot)

/-- A segment's fields, as they are read. -/
def readSegmentFields : Deserialize Segment := do
  let vaddr ← readWord
  let memLen ← readWord
  let bytes ← readBytes
  pure ⟨vaddr, memLen, bytes⟩

/-- No segment has more file bytes than memory. -/
def readSegment : Deserialize Segment := convert (fun segment =>
  if segment.memLen.toNat < segment.bytes.length then .error () else .ok segment) readSegmentFields

def writeSegment : Writer Segment := fun segment =>
  written [writeWord segment.vaddr, writeWord segment.memLen, writeBytes segment.bytes]

def readImageFields : Deserialize ProgramImage := do
  let entry ← readWord
  let segments ← Postcard.seq readSegment
  let slotBase ← readWord
  let slots ← Postcard.seq readSlot
  pure ⟨entry, segments, slotBase, slots⟩

/-- An image that is read keeps every rule. -/
def readImage : Deserialize ProgramImage := convert (fun image =>
  match image.validate with
  | .error _ => .error ()
  | .ok _ => .ok image) readImageFields

def writeImage : Writer ProgramImage := fun image =>
  written [writeWord image.entry, Serialize.seq writeSegment image.segments,
    writeWord image.slotBase, Serialize.seq writeSlot image.slots]

/-! ## What is written is read back -/

theorem word_restores : Restores readWord (fun _ => True) writeWord :=
  Postcard.u32_restores.convert BitVec.toNat
    (fun x _ => by rw [BitVec.ofNat_toNat, BitVec.setWidth_eq]) fun x _ => x.isLt

theorem bytes_restores : Restores readBytes (fun bytes => bytes.length < 2 ^ 64) writeBytes := by
  intro bytes front rest short wrote
  obtain ⟨count, counted, back, same, rfl⟩ := written_pair_eq_some.mp wrote
  cases same
  rw [readBytes, reader_bind, List.append_assoc]
  exact ⟨_, _, Postcard.length_restores _ _ _ short counted,
    (takeBytes_inverts () _).restores _ _ _ rfl rfl⟩

theorem slot_restores : Restores readSlot (fun _ => True) writeSlot := by
  have words : Restores readSlotWords (fun x => x.1 < 256 ∧ True ∧ True) writeSlotWords := by
    unfold readSlotWords writeSlotWords
    apply Restores.first Prod.fst Postcard.u8_restores
    intro kind
    apply Restores.next Prod.snd word_restores
    intro word
    apply Restores.done
    rintro ⟨_, _⟩ ⟨rfl, rfl⟩
    rfl
  refine words.convert slotWords (fun slot _ => ?_) fun slot _ => ⟨?_, trivial, trivial⟩
  · rcases slot with ⟨word, _ | _⟩ | _ | _
    · rfl
    · rfl
    · rfl
    · rfl
  · rcases slot with ⟨word, _ | _⟩ | _ | _
    · exact Nat.zero_lt_succ _
    · exact Nat.one_lt_succ_succ _
    · exact Nat.lt_of_sub_pos (Nat.zero_lt_succ _)
    · exact Nat.lt_of_sub_pos (Nat.zero_lt_succ _)

theorem segment_restores : Restores readSegment
    (fun segment => segment.bytes.length ≤ segment.memLen.toNat) writeSegment := by
  have fields : Restores readSegmentFields
      (fun x => True ∧ True ∧ x.bytes.length < 2 ^ 64 ∧ True) writeSegment := by
    unfold readSegmentFields writeSegment
    apply Restores.first Segment.vaddr word_restores
    intro vaddr
    apply Restores.next Segment.memLen word_restores
    intro memLen
    apply Restores.next Segment.bytes bytes_restores
    intro bytes
    apply Restores.done
    rintro ⟨_, _, _⟩ ⟨⟨rfl, rfl⟩, rfl⟩
    rfl
  refine fields.convert id (fun segment backed => if_neg (not_lt.mpr backed)) fun segment backed => ?_
  refine ⟨trivial, trivial, backed.trans_lt ?_, trivial⟩
  exact segment.memLen.isLt.trans (by norm_num)

theorem image_restores : Restores readImage
    (fun image => image.WellFormed ∧ image.segments.length < 2 ^ 64) writeImage := by
  have fields : Restores readImageFields (fun x => True ∧ (x.segments.length < 2 ^ 64 ∧
      ∀ segment ∈ x.segments, segment.bytes.length ≤ segment.memLen.toNat) ∧ True ∧
        (x.slots.length < 2 ^ 64 ∧ ∀ slot ∈ x.slots, True) ∧ True) writeImage := by
    unfold readImageFields writeImage
    apply Restores.first ProgramImage.entry word_restores
    intro entry
    apply Restores.next ProgramImage.segments (Postcard.seq_restores segment_restores)
    intro segments
    apply Restores.next ProgramImage.slotBase word_restores
    intro slotBase
    apply Restores.next ProgramImage.slots (Postcard.seq_restores slot_restores)
    intro slots
    apply Restores.done
    rintro ⟨_, _, _, _⟩ ⟨⟨⟨rfl, rfl⟩, rfl⟩, rfl⟩
    rfl
  refine fields.convert id (fun image formed => ?_) fun image formed => ?_
  · rw [id_eq, ProgramImage.validate_ok.mpr formed.1]
  · have inside := formed.1.inside
    have top : ramTop < 2 ^ 64 := by decide
    refine ⟨trivial, ⟨formed.2, fun segment member => (formed.1.fits segment member).backed⟩, trivial,
      ⟨?_, fun slot _ => trivial⟩, trivial⟩
    rw [id_eq]
    omega

theorem writeImage_isSome (image : ProgramImage) : (writeImage image).isSome := by
  have segment : ∀ segment, (writeSegment segment).isSome := fun _ => rfl
  have slot : ∀ slot, (writeSlot slot).isSome := fun _ => rfl
  rw [writeImage, written_cons_isSome, written_cons_isSome, written_cons_isSome,
    written_singleton]
  exact ⟨rfl, Serialize.seq_isSome segment, rfl, Serialize.seq_isSome slot⟩

/-- What is loaded passes the reader's rules, and is read back from its wire form. -/
theorem loaded_valid {bytes : List UInt8} {image : ProgramImage} (loaded : loadElf bytes = .ok image) :
    image.validate = .ok () ∧ image.WellFormed ∧ image.segments.Pairwise Below ∧
      (∀ segment ∈ image.segments, image.slotBase.toNat ≤ segment.vaddr.toNat) ∧
      ∃ wire, writeImage image = some wire ∧ readImage wire = .ok (image, []) := by
  have formed := wellFormed_of_loadElf loaded
  have trans : IsTrans Segment Below := ⟨fun _ _ _ => below_trans⟩
  have apart := List.isChain_iff_pairwise.mp formed.apart
  refine ⟨ProgramImage.validate_ok.mpr formed, formed, apart, ?_, ?_⟩
  · obtain ⟨first, rest, listed, base⟩ := formed.lowest
    rw [listed] at apart ⊢
    rw [base]
    refine List.forall_mem_cons.mpr ⟨le_rfl, fun segment member => ?_⟩
    exact (Nat.le_add_right _ _).trans ((List.pairwise_cons.mp apart).1 segment member)
  · obtain ⟨wire, wrote⟩ := Option.isSome_iff_exists.mp (writeImage_isSome image)
    have short : image.segments.length < 2 ^ 64 :=
      (loadElf_segments loaded).trans (by norm_num)
    have read := image_restores image wire [] ⟨formed, short⟩ wrote
    rw [List.append_nil] at read
    exact ⟨wire, wrote, read⟩

def idleImage : ProgramImage :=
  ⟨0x10000, [⟨0x10000, 8, [0x13, 0, 0, 0, 0x01, 0]⟩], 0x10000,
    [.instruction 0x13 false, .midInstruction, .instruction 0x13 true, .nonInstruction]⟩

theorem loaded_valid_idle : idleImage.validate = .ok () ∧ idleImage.WellFormed ∧
    idleImage.segments.Pairwise Below ∧
      ∃ wire, writeImage idleImage = some wire ∧ readImage wire = .ok (idleImage, []) := by
  have loaded : loadElf idleElf = .ok idleImage := by decide
  obtain ⟨valid, formed, apart, -, wire⟩ := loaded_valid loaded
  exact ⟨valid, formed, apart, wire⟩

end Apogee.Loader
