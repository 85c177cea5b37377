import Apogee.Constants
import Apogee.Loader.Rvc
import Apogee.Math.Passes
import Mathlib.Data.List.Chain

/-! # Program images

A loaded program: the memory image, and what lives at each of its halfwords. A wire form is
untrusted, so `validate` checks again what a load establishes.
-/

namespace Apogee.Loader

open Math (then_ok forM_ok)

/-- One loaded segment. The bytes above its file-backed ones are zero. -/
structure Segment where
  vaddr : BitVec 32
  memLen : BitVec 32
  bytes : List UInt8
deriving DecidableEq

/-- What lives at one halfword. -/
inductive Slot
  /-- An instruction starts here; a compressed one is two bytes long. -/
  | instruction (word : BitVec 32) (compressed : Bool)
  /-- The second halfword of a 32-bit instruction. -/
  | midInstruction
  | nonInstruction
deriving DecidableEq

structure ProgramImage where
  entry : BitVec 32
  segments : List Segment
  /-- The address of the first slot. -/
  slotBase : BitVec 32
  slots : List Slot
deriving DecidableEq

/-- The first address past guest memory. -/
def ramTop : ℕ := GuestMemory.ramOrigin + GuestMemory.ramLength

/-- The first address past a segment. -/
def Segment.top (segment : Segment) : ℕ := segment.vaddr.toNat + segment.memLen.toNat

def Slot.isInstruction : Slot → Bool
  | .instruction _ _ => true
  | _ => false

/-- A 32-bit instruction. -/
def Slot.isWide : Slot → Bool
  | .instruction _ compressed => !compressed
  | _ => false

namespace ProgramImage

/-- The slot at an address, when it is even and inside the image. -/
def slotAt (image : ProgramImage) (pc : BitVec 32) : Option Slot :=
  if pc.toNat % 2 ≠ 0 ∨ pc.toNat < image.slotBase.toNat then none
  else image.slots[(pc.toNat - image.slotBase.toNat) / 2]?

/-- One segment's rules, `below` the one before it. -/
def segmentRule (below : Option Segment) (segment : Segment) : Except String Unit :=
  if segment.vaddr.toNat % 2 ≠ 0 then
    .error "malformed program image: a segment address is odd"
  else if segment.memLen.toNat < segment.bytes.length then
    .error "malformed program image: a segment has more file bytes than memory"
  else if segment.vaddr.toNat < GuestMemory.ramOrigin ∨ ramTop < segment.top then
    .error "malformed program image: a segment leaves the guest RAM window"
  else if below.any fun other => segment.vaddr.toNat < other.top then
    .error "malformed program image: segments are unsorted or overlap"
  else .ok ()

def segmentRules : Option Segment → List Segment → Except String Unit
  | _, [] => .ok ()
  | below, segment :: rest => do
    segmentRule below segment
    segmentRules (some segment) rest

/-- A 32-bit instruction and its second halfword come as a pair. -/
def slotRule (slots : List Slot) (entry : Slot × ℕ) : Except String Unit :=
  match entry.1 with
  | .instruction _ false =>
    if slots[entry.2 + 1]? ≠ some .midInstruction then
      .error "malformed program image: a 32-bit instruction with no second halfword"
    else .ok ()
  | .midInstruction =>
    if entry.2 = 0 ∨ ¬(slots[entry.2 - 1]?).any Slot.isWide then
      .error "malformed program image: a mid-instruction slot follows nothing"
    else .ok ()
  | _ => .ok ()

/-- Every rule of an image, checked again. -/
def validate (image : ProgramImage) : Except String Unit :=
  if image.slotBase.toNat % 2 ≠ 0 then .error "malformed program image: slot_base is odd"
  else
    match image.segments with
    | [] => .error "malformed program image: no segments"
    | first :: _ => do
      segmentRules none image.segments
      if image.slotBase ≠ first.vaddr then
        .error "malformed program image: slot_base is not the lowest loaded address"
      else if ramTop < image.slotBase.toNat + 2 * image.slots.length then
        .error "malformed program image: the slot vector leaves the guest RAM window"
      else do
        image.slots.zipIdx.forM (slotRule image.slots)
        if (image.slotAt image.entry).any Slot.isInstruction then .ok ()
        else .error "malformed program image: the entry is not the address of an instruction"

end ProgramImage

/-! ## What the rules say -/

/-- A segment that fits the memory map. -/
structure Segment.Fits (segment : Segment) : Prop where
  even : segment.vaddr.toNat % 2 = 0
  backed : segment.bytes.length ≤ segment.memLen.toNat
  inside : GuestMemory.ramOrigin ≤ segment.vaddr.toNat ∧ segment.top ≤ ramTop

/-- One segment ends before the other begins. -/
def Below (segment other : Segment) : Prop := segment.top ≤ other.vaddr.toNat

/-- 32-bit instructions are followed by their second halfword, and those follow one. -/
structure Paired (slots : List Slot) : Prop where
  wide : ∀ (i : ℕ) (word : BitVec 32), slots[i]? = some (.instruction word false) →
    slots[i + 1]? = some .midInstruction
  mid : ∀ i : ℕ, slots[i]? = some .midInstruction →
    ∃ j word, i = j + 1 ∧ slots[j]? = some (.instruction word false)

structure ProgramImage.WellFormed (image : ProgramImage) : Prop where
  fits : ∀ segment ∈ image.segments, segment.Fits
  /-- The segments ascend and do not overlap. -/
  apart : image.segments.IsChain Below
  lowest : ∃ first rest, image.segments = first :: rest ∧ image.slotBase = first.vaddr
  inside : image.slotBase.toNat + 2 * image.slots.length ≤ ramTop
  paired : Paired image.slots
  entry : ∃ word compressed, image.slotAt image.entry = some (.instruction word compressed)

namespace ProgramImage

theorem segmentRule_ok {below : Option Segment} {segment : Segment} :
    segmentRule below segment = .ok () ↔ segment.Fits ∧ ∀ other ∈ below, Below other segment := by
  unfold segmentRule
  constructor
  · intro passed
    by_cases odd : segment.vaddr.toNat % 2 ≠ 0
    · rw [if_pos odd] at passed
      cases passed
    by_cases long : segment.memLen.toNat < segment.bytes.length
    · rw [if_neg odd, if_pos long] at passed
      cases passed
    by_cases outside : segment.vaddr.toNat < GuestMemory.ramOrigin ∨ ramTop < segment.top
    · rw [if_neg odd, if_neg long, if_pos outside] at passed
      cases passed
    by_cases clash : below.any (fun other => segment.vaddr.toNat < other.top) = true
    · rw [if_neg odd, if_neg long, if_neg outside, if_pos clash] at passed
      cases passed
    refine ⟨⟨not_not.mp odd, not_lt.mp long, ?_⟩, fun other member => ?_⟩
    · rw [not_or, not_lt, not_lt] at outside
      exact outside
    · rw [Option.mem_def] at member
      rw [member, Option.any_some, decide_eq_true_eq, not_lt] at clash
      exact clash
  · rintro ⟨fits, above⟩
    have clear : ¬below.any (fun other => segment.vaddr.toNat < other.top) = true := by
      cases below with
      | none => exact Bool.false_ne_true
      | some other =>
        rw [Option.any_some, decide_eq_true_eq, not_lt]
        exact above other rfl
    rw [if_neg (not_not.mpr fits.even), if_neg (not_lt.mpr fits.backed),
      if_neg (not_or.mpr ⟨not_lt.mpr fits.inside.1, not_lt.mpr fits.inside.2⟩), if_neg clear]

theorem segmentRules_ok {below : Option Segment} {segments : List Segment} :
    segmentRules below segments = .ok () ↔ (∀ segment ∈ segments, segment.Fits) ∧
      (below.toList ++ segments).IsChain Below := by
  induction segments generalizing below with
  | nil =>
    refine iff_of_true rfl ⟨fun segment member => absurd member List.not_mem_nil, ?_⟩
    cases below with
    | none => exact List.isChain_nil
    | some other => exact List.isChain_singleton other
  | cons segment rest ih =>
    rw [segmentRules, then_ok, segmentRule_ok, ih, List.forall_mem_cons]
    have chain : (below.toList ++ segment :: rest).IsChain Below ↔
        (∀ other ∈ below, Below other segment) ∧ (segment :: rest).IsChain Below := by
      cases below with
      | none => exact ⟨fun chain => ⟨fun other member => (Option.not_mem_none other member).elim, chain⟩,
          fun both => both.2⟩
      | some other =>
        rw [Option.toList_some, List.singleton_append, List.isChain_cons_cons]
        refine and_congr_left' ⟨fun here found member => ?_, fun each => each other rfl⟩
        cases member
        exact here
    rw [chain, Option.toList_some, List.singleton_append]
    constructor
    · rintro ⟨⟨fits, above⟩, others, chain⟩
      exact ⟨⟨fits, others⟩, above, chain⟩
    · rintro ⟨⟨fits, others⟩, above, chain⟩
      exact ⟨⟨fits, above⟩, others, chain⟩

theorem slotRule_ok {slots : List Slot} {entry : Slot × ℕ} : slotRule slots entry = .ok () ↔
    (∀ word, entry.1 = .instruction word false → slots[entry.2 + 1]? = some .midInstruction) ∧
    (entry.1 = .midInstruction →
      ∃ j word, entry.2 = j + 1 ∧ slots[j]? = some (.instruction word false)) := by
  obtain ⟨slot, i⟩ := entry
  cases slot with
  | instruction word compressed =>
    cases compressed with
    | true => exact iff_of_true rfl ⟨fun other same => (by cases same), fun same => (by cases same)⟩
    | false =>
      rw [slotRule]
      dsimp only
      by_cases missing : slots[i + 1]? ≠ some .midInstruction
      · rw [if_pos missing]
        refine ⟨fun wrong => (by cases wrong), fun both => ?_⟩
        exact absurd (both.1 word rfl) missing
      · rw [if_neg missing]
        refine iff_of_true rfl ⟨fun other same => not_not.mp missing, fun same => (by cases same)⟩
  | midInstruction =>
    have wide : ¬(i = 0 ∨ ¬(slots[i - 1]?).any Slot.isWide) ↔
        ∃ j word, i = j + 1 ∧ slots[j]? = some (.instruction word false) := by
      rw [not_or, not_not]
      constructor
      · rintro ⟨positive, before⟩
        obtain ⟨j, rfl⟩ := Nat.exists_eq_add_one_of_ne_zero positive
        rw [Nat.add_sub_cancel] at before
        cases found : slots[j]? with
        | none =>
          rw [found] at before
          cases before
        | some slot =>
          rw [found, Option.any_some] at before
          cases slot with
          | instruction word compressed =>
            rw [Slot.isWide, Bool.not_eq_true'] at before
            subst before
            exact ⟨j, word, rfl, found⟩
          | midInstruction => cases before
          | nonInstruction => cases before
      · rintro ⟨j, word, rfl, found⟩
        refine ⟨Nat.succ_ne_zero j, ?_⟩
        rw [Nat.add_sub_cancel, found]
        rfl
    rw [slotRule]
    dsimp only
    by_cases wrong : i = 0 ∨ ¬(slots[i - 1]?).any Slot.isWide
    · rw [if_pos wrong]
      refine ⟨fun passed => (by cases passed), fun both => ?_⟩
      exact absurd wrong (wide.mpr (both.2 rfl))
    · rw [if_neg wrong]
      exact iff_of_true rfl ⟨fun word same => (by cases same), fun _ => wide.mp wrong⟩
  | nonInstruction =>
    exact iff_of_true rfl ⟨fun word same => (by cases same), fun same => (by cases same)⟩

theorem slotRules_ok {slots : List Slot} :
    slots.zipIdx.forM (slotRule slots) = .ok () ↔ Paired slots := by
  rw [forM_ok]
  constructor
  · intro each
    have rules := fun (i : ℕ) slot (found : slots[i]? = some slot) =>
      slotRule_ok.mp (each (slot, i) (List.mem_zipIdx_iff_getElem?.mpr found))
    exact ⟨fun i word found => (rules i _ found).1 word rfl, fun i found => (rules i _ found).2 rfl⟩
  · rintro paired ⟨slot, i⟩ member
    have found : slots[i]? = some slot := List.mem_zipIdx_iff_getElem?.mp member
    refine slotRule_ok.mpr ⟨fun word same => ?_, fun same => ?_⟩
    · cases same
      exact paired.wide i word found
    · cases same
      exact paired.mid i found

theorem isInstruction_iff {slot : Option Slot} : slot.any Slot.isInstruction = true ↔
    ∃ word compressed, slot = some (.instruction word compressed) := by
  constructor
  · intro any
    cases slot with
    | none => cases any
    | some slot =>
      cases slot with
      | instruction word compressed => exact ⟨word, compressed, rfl⟩
      | midInstruction => cases any
      | nonInstruction => cases any
  · rintro ⟨word, compressed, rfl⟩
    rfl

/-- The rules, checked, say that an image is well formed. -/
theorem validate_ok {image : ProgramImage} : image.validate = .ok () ↔ image.WellFormed := by
  unfold validate
  cases listed : image.segments with
  | nil =>
    refine iff_of_false (fun passed => ?_) fun formed => ?_
    · by_cases odd : image.slotBase.toNat % 2 ≠ 0
      · rw [if_pos odd] at passed
        cases passed
      · rw [if_neg odd] at passed
        cases passed
    · obtain ⟨first, rest, same, -⟩ := formed.lowest
      rw [listed] at same
      cases same
  | cons first rest =>
    dsimp only
    constructor
    · intro passed
      by_cases odd : image.slotBase.toNat % 2 ≠ 0
      · rw [if_pos odd] at passed
        cases passed
      rw [if_neg odd, then_ok, segmentRules_ok] at passed
      obtain ⟨⟨fits, apart⟩, passed⟩ := passed
      by_cases higher : image.slotBase ≠ first.vaddr
      · rw [if_pos higher] at passed
        cases passed
      by_cases long : ramTop < image.slotBase.toNat + 2 * image.slots.length
      · rw [if_neg higher, if_pos long] at passed
        cases passed
      rw [if_neg higher, if_neg long, then_ok, slotRules_ok] at passed
      obtain ⟨paired, passed⟩ := passed
      by_cases entry : (image.slotAt image.entry).any Slot.isInstruction = true
      · exact ⟨by rwa [listed], by rw [listed]; exact apart, ⟨first, rest, listed, not_not.mp higher⟩,
          not_lt.mp long, paired, isInstruction_iff.mp entry⟩
      · rw [if_neg entry] at passed
        cases passed
    · rintro ⟨fits, apart, ⟨other, others, same, lowest⟩, inside, paired, entry⟩
      rw [listed] at same fits apart
      obtain ⟨rfl, rfl⟩ := List.cons.inj same
      have even := (fits first List.mem_cons_self).even
      rw [← lowest] at even
      rw [if_neg (not_not.mpr even), then_ok, segmentRules_ok, if_neg (not_not.mpr lowest),
        if_neg (not_lt.mpr inside), then_ok, slotRules_ok, if_pos (isInstruction_iff.mpr entry)]
      exact ⟨⟨fits, apart⟩, paired, rfl⟩

end ProgramImage

end Apogee.Loader
