import Apogee.Loader.Loaded

/-! # The sweep's walk

The sweep walks a segment's bytes by the width each halfword announces. With every index
checked it is the same sweep, so none is out of range, and each step of the walk leaves its
own slots and no others.
-/

namespace Apogee.Loader

open Math (leValue bind_ok)

section Checked

/-- The slot of an address, not below the first. -/
def slotIndex (slotBase pc : ℕ) : Option ℕ :=
    if slotBase ≤ pc then some ((pc - slotBase) / 2) else none

/-- A slot written, where it exists. -/
def setSlot (slots : List Slot) (index : ℕ) (slot : Slot) : Option (List Slot) :=
  if index < slots.length then some (slots.set index slot) else none

/-- The sweep from an address on with its indices checked; `none` is an index out of range. -/
def sweepChecked (segment : Segment) (slotBase pc : ℕ) (slots : List Slot) :
    Option (Except LoaderError (List Slot)) :=
  let last := segment.vaddr.toNat + segment.bytes.length
  if pc + 2 ≤ last then
    let off := pc - segment.vaddr.toNat
    match segment.bytes[off]?, segment.bytes[off + 1]?, slotIndex slotBase pc with
    | some b0, some b1, some index =>
      let half := BitVec.ofNat 16 (leValue [b0, b1])
      if half &&& 0b11 = 0b11 then
        if half &&& 0b11100 = 0b11100 then
          some (.error (.instructionTooLong (BitVec.ofNat 32 pc) half))
        else if last < pc + 4 then some (.error (.textTruncated (BitVec.ofNat 32 pc)))
        else
          match segment.bytes[off + 2]?, segment.bytes[off + 3]? with
          | some b2, some b3 =>
            let word := BitVec.ofNat 32 (leValue [b0, b1, b2, b3])
            match (setSlot slots index (.instruction word false)).bind
                (setSlot · (index + 1) .midInstruction) with
            | some slots => sweepChecked segment slotBase (pc + 4) slots
            | none => none
          | _, _ => none
      else if half = 0 then
        match setSlot slots index .nonInstruction with
        | some slots => sweepChecked segment slotBase (pc + 2) slots
        | none => none
      else
        match Rvc.expand half with
        | .error reason => some (.error (.rvcIllegal (BitVec.ofNat 32 pc) half reason))
        | .ok word =>
          match setSlot slots index (.instruction word true) with
          | some slots => sweepChecked segment slotBase (pc + 2) slots
          | none => none
    | _, _, _ => none
  else some (.ok slots)
termination_by segment.vaddr.toNat + segment.bytes.length - pc
decreasing_by all_goals omega

variable {segment : Segment} {slotBase : ℕ}

theorem setSlot_inside {slots : List Slot} {index : ℕ} (inside : index < slots.length)
    (slot : Slot) : setSlot slots index slot = some (slots.set index slot) := if_pos inside

theorem setSlot_pair {slots : List Slot} {index : ℕ} (inside : index + 1 < slots.length)
    (first second : Slot) :
    (setSlot slots index first).bind (setSlot · (index + 1) second) =
      some ((slots.set index first).set (index + 1) second) := by
  rw [setSlot_inside (by omega), Option.bind_some,
    setSlot_inside (by rwa [List.length_set])]

/-- Inside the slots no index is out of range. -/
theorem sweepChecked_eq {k off : ℕ} {slots : List Slot} {bytes : List UInt8}
    (place : segment.vaddr.toNat + off = slotBase + 2 * k) (rest : segment.bytes.drop off = bytes)
    (inside : off ≤ segment.bytes.length) (room : 2 * k + bytes.length ≤ 2 * slots.length) :
    sweepChecked segment slotBase (slotBase + 2 * k) slots =
      some (sweepFrom slotBase (slotBase + 2 * k) bytes slots) := by
  induction many : bytes.length using Nat.strong_induction_on generalizing bytes k off slots with
  | _ n ih =>
    subst many
    have total : segment.bytes.length = off + bytes.length := by
      rw [← rest, List.length_drop]
      omega
    have byte (i : ℕ) : segment.bytes[off + i]? = bytes[i]? := by
      rw [← rest, List.getElem?_drop]
    have start : slotBase + 2 * k - segment.vaddr.toNat = off := by omega
    have index : slotIndex slotBase (slotBase + 2 * k) = some k := by
      rw [slotIndex, if_pos (Nat.le_add_right _ _), Nat.add_sub_cancel_left,
        Nat.mul_div_cancel_left k two_pos]
    have direct : (slotBase + 2 * k - slotBase) / 2 = k := by
      rw [Nat.add_sub_cancel_left, Nat.mul_div_cancel_left k two_pos]
    rw [sweepChecked]
    rcases bytes with _ | ⟨b0, _ | ⟨b1, tail⟩⟩
    · rw [if_neg (by rw [total, List.length_nil]; omega)]
      rfl
    · rw [if_neg (by rw [total, List.length_singleton]; omega)]
      rfl
    have zeroth : segment.bytes[off]? = some b0 := byte 0
    have first : segment.bytes[off + 1]? = some b1 := byte 1
    have long : (b0 :: b1 :: tail).length = tail.length + 2 := rfl
    rw [long] at total room
    rw [if_pos (by rw [total]; omega), start]
    dsimp only
    rw [zeroth, first, index]
    have narrow (slot : Slot) : sweepChecked segment slotBase (slotBase + 2 * k + 2)
        (slots.set k slot) =
          some (sweepFrom slotBase (slotBase + 2 * k + 2) tail (slots.set k slot)) := by
      have next : segment.vaddr.toNat + (off + 2) = slotBase + 2 * (k + 1) := by omega
      refine ih tail.length (by rw [long]; omega) next ?_ (by omega) ?_ rfl
      · rw [← List.drop_drop, rest]
        rfl
      · rw [List.length_set]
        omega
    rw [sweepFrom.eq_def]
    dsimp only
    rw [direct]
    by_cases wide : BitVec.ofNat 16 (leValue [b0, b1]) &&& 0b11 = 0b11
    · rw [if_pos wide, if_pos wide]
      by_cases tooLong : BitVec.ofNat 16 (leValue [b0, b1]) &&& 0b11100 = 0b11100
      · rw [if_pos tooLong, if_pos tooLong]
      rw [if_neg tooLong, if_neg tooLong]
      rcases tail with _ | ⟨b2, _ | ⟨b3, tail⟩⟩
      · rw [if_pos (by rw [total, List.length_nil]; omega)]
      · rw [if_pos (by rw [total, List.length_singleton]; omega)]
      have second : segment.bytes[off + 2]? = some b2 := byte 2
      have third : segment.bytes[off + 3]? = some b3 := byte 3
      have longer : (b2 :: b3 :: tail).length = tail.length + 2 := rfl
      rw [longer] at total room
      rw [if_neg (by rw [total]; omega), second, third]
      dsimp only
      rw [setSlot_pair (by omega)]
      have next : segment.vaddr.toNat + (off + 4) = slotBase + 2 * (k + 2) := by omega
      refine ih tail.length (by rw [long, longer]; omega) next ?_ (by omega) ?_ rfl
      · rw [← List.drop_drop, rest]
        rfl
      · rw [List.length_set, List.length_set]
        omega
    · rw [if_neg wide, if_neg wide]
      by_cases zero : BitVec.ofNat 16 (leValue [b0, b1]) = 0
      · rw [if_pos zero, if_pos zero, setSlot_inside (by omega)]
        exact narrow _
      · rw [if_neg zero, if_neg zero]
        cases expanded : Rvc.expand (BitVec.ofNat 16 (leValue [b0, b1])) with
        | error reason => rfl
        | ok word =>
          dsimp only
          rw [setSlot_inside (by omega)]
          exact narrow _

end Checked

section Walk

/-- One step of a walk: where it starts, and its bytes. -/
inductive Step
  | wide (pc : ℕ) (b0 b1 b2 b3 : UInt8)
  | narrow (pc : ℕ) (b0 b1 : UInt8)

/-- A walk over bytes: four of them where the low two bits of the halfword are 11, two
otherwise, to the end but for one trailing byte at most. -/
inductive Walk : ℕ → List UInt8 → List Step → Prop
  | stop {pc : ℕ} {tail : List UInt8} : tail.length ≤ 1 → Walk pc tail []
  | wide {pc : ℕ} {b0 b1 b2 b3 : UInt8} {tail : List UInt8} {steps : List Step} :
      BitVec.ofNat 16 (leValue [b0, b1]) &&& 0b11 = 0b11 → Walk (pc + 4) tail steps →
        Walk pc (b0 :: b1 :: b2 :: b3 :: tail) (.wide pc b0 b1 b2 b3 :: steps)
  | narrow {pc : ℕ} {b0 b1 : UInt8} {tail : List UInt8} {steps : List Step} :
      BitVec.ofNat 16 (leValue [b0, b1]) &&& 0b11 ≠ 0b11 → Walk (pc + 2) tail steps →
        Walk pc (b0 :: b1 :: tail) (.narrow pc b0 b1 :: steps)

/-- The slots of a step: a 32-bit instruction and its second halfword, the instruction that a
halfword abbreviates, or none for zeros. -/
def Recorded (slotBase : ℕ) (slots : List Slot) : Step → Prop
  | .wide pc b0 b1 b2 b3 =>
    slots[(pc - slotBase) / 2]? =
        some (.instruction (BitVec.ofNat 32 (leValue [b0, b1, b2, b3])) false) ∧
      slots[(pc - slotBase) / 2 + 1]? = some .midInstruction
  | .narrow pc b0 b1 =>
    if BitVec.ofNat 16 (leValue [b0, b1]) = 0 then
      slots[(pc - slotBase) / 2]? = some .nonInstruction
    else ∃ word, Rvc.expand (BitVec.ofNat 16 (leValue [b0, b1])) = .ok word ∧
      slots[(pc - slotBase) / 2]? = some (.instruction word true)

/-- A sweep walks its bytes, records each step, and keeps the slots that are not its bytes'. -/
theorem sweepFrom_walk {slotBase k : ℕ} {bytes : List UInt8} {slots after : List Slot}
    (room : 2 * k + bytes.length ≤ 2 * slots.length)
    (swept : sweepFrom slotBase (slotBase + 2 * k) bytes slots = .ok after) :
    after.length = slots.length ∧ (∃ steps, Walk (slotBase + 2 * k) bytes steps ∧ ∀ step ∈ steps,
        Recorded slotBase after step) ∧ ∀ j,
          j < k ∨ k + bytes.length / 2 ≤ j → after[j]? = slots[j]? := by
  induction many : bytes.length using Nat.strong_induction_on generalizing bytes k slots with
  | _ n ih =>
    subst many
    have direct : (slotBase + 2 * k - slotBase) / 2 = k := by
      rw [Nat.add_sub_cancel_left, Nat.mul_div_cancel_left k two_pos]
    rcases bytes with _ | ⟨b0, _ | ⟨b1, tail⟩⟩
    · cases swept
      exact ⟨rfl, ⟨[], .stop (Nat.zero_le _), nofun⟩, fun _ _ => rfl⟩
    · cases swept
      exact ⟨rfl, ⟨[], .stop le_rfl, nofun⟩, fun _ _ => rfl⟩
    have long : (b0 :: b1 :: tail).length = tail.length + 2 := rfl
    rw [long] at room ⊢
    rw [sweepFrom.eq_def] at swept
    dsimp only at swept
    rw [direct] at swept
    -- a step of two bytes, whose slot stands in what the rest leaves
    have narrow (slot : Slot) (wide : BitVec.ofNat 16 (leValue [b0, b1]) &&& 0b11 ≠ 0b11)
        (swept : sweepFrom slotBase (slotBase + 2 * k + 2) tail (slots.set k slot) = .ok after)
        (records : after[k]? = some slot → Recorded slotBase after (.narrow (slotBase + 2 * k) b0 b1)) :
        after.length = slots.length ∧ (∃ steps, Walk (slotBase + 2 * k) (b0 :: b1 :: tail) steps ∧
          ∀ step ∈ steps, Recorded slotBase after step) ∧
            ∀ j, j < k ∨ k + (tail.length + 2) / 2 ≤ j → after[j]? = slots[j]? := by
      obtain ⟨length, ⟨steps, walk, recorded⟩, kept⟩ := ih tail.length (by rw [long]; omega)
        (k := k + 1) (by rw [List.length_set]; omega) swept rfl
      rw [List.length_set] at length
      refine ⟨length, ⟨_, .narrow wide walk, List.forall_mem_cons.mpr ⟨records ?_, recorded⟩⟩,
        fun j outside => ?_⟩
      · rw [kept k (.inl (Nat.lt_succ_self k)), List.getElem?_set_self (by omega)]
      · rw [kept j (by omega), List.getElem?_set_ne (by omega)]
    by_cases wide : BitVec.ofNat 16 (leValue [b0, b1]) &&& 0b11 = 0b11
    · rw [if_pos wide] at swept
      by_cases tooLong : BitVec.ofNat 16 (leValue [b0, b1]) &&& 0b11100 = 0b11100
      · rw [if_pos tooLong] at swept
        cases swept
      rw [if_neg tooLong] at swept
      rcases tail with _ | ⟨b2, _ | ⟨b3, tail⟩⟩
      · cases swept
      · cases swept
      dsimp only at swept
      have longer : (b2 :: b3 :: tail).length = tail.length + 2 := rfl
      rw [longer] at room ⊢
      obtain ⟨length, ⟨steps, walk, recorded⟩, kept⟩ := ih tail.length (by rw [long, longer]; omega)
        (k := k + 2) (by rw [List.length_set, List.length_set]; omega) swept rfl
      rw [List.length_set, List.length_set] at length
      refine ⟨length, ⟨_, .wide wide walk, List.forall_mem_cons.mpr ⟨⟨?_, ?_⟩, recorded⟩⟩,
        fun j outside => ?_⟩
      · rw [direct, kept k (.inl (by omega)), List.getElem?_set_ne (by omega),
          List.getElem?_set_self (by omega)]
      · rw [direct, kept (k + 1) (.inl (by omega)),
          List.getElem?_set_self (by rw [List.length_set]; omega)]
      · rw [kept j (by omega), List.getElem?_set_ne (by omega), List.getElem?_set_ne (by omega)]
    · rw [if_neg wide] at swept
      by_cases zero : BitVec.ofNat 16 (leValue [b0, b1]) = 0
      · rw [if_pos zero] at swept
        refine narrow _ wide swept fun here => ?_
        rw [Recorded, if_pos zero, direct]
        exact here
      · rw [if_neg zero] at swept
        cases expanded : Rvc.expand (BitVec.ofNat 16 (leValue [b0, b1])) with
        | error reason =>
          rw [expanded] at swept
          cases swept
        | ok word =>
          rw [expanded] at swept
          refine narrow _ wide swept fun here => ?_
          rw [Recorded, if_neg zero, direct]
          exact ⟨word, expanded, here⟩

end Walk

section Load

/-- A segment and the slots that a load of a file passes to the sweep: the segments sorted and
apart, the executable ones before it swept. -/
def PassedToSweep (file : List UInt8) (segment : Segment) (slotBase : BitVec 32)
    (slots : List Slot) : Prop :=
  ∃ header read before after, Elf.parseHeader file = .ok header ∧
    Elf.readSegments file header = .ok read ∧
    let loaded := read.insertionSort fun x y => x.1.vaddr.toNat ≤ y.1.vaddr.toNat
    overlapRules loaded = .ok () ∧
      slotBase = (loaded.head?.map fun entry => entry.1.vaddr).getD 0 ∧
      loaded.filter Prod.snd = before ++ (segment, true) :: after ∧
        before.foldlM (fun slots entry => sweep entry.1 slotBase slots)
          (emptySlots slotBase loaded) = .ok slots

/-- What is passed to the sweep fits the slots. -/
theorem PassedToSweep.room {file : List UInt8} {segment : Segment} {slotBase : BitVec 32}
    {slots : List Slot} (passed : PassedToSweep file segment slotBase slots) :
    segment.Fits ∧ slotBase.toNat % 2 = 0 ∧ slotBase.toNat ≤ segment.vaddr.toNat ∧
      segment.top ≤ slotBase.toNat + 2 * slots.length := by
  obtain ⟨header, read, before, after, -, found, apart, base, executable, swept⟩ := passed
  have order := List.perm_insertionSort
    (fun x y : Segment × Bool => x.1.vaddr.toNat ≤ y.1.vaddr.toNat) read
  generalize read.insertionSort
    (fun x y : Segment × Bool => x.1.vaddr.toNat ≤ y.1.vaddr.toNat) = loaded
    at apart base executable swept order
  have fits : ∀ entry ∈ loaded, entry.1.Fits := fun entry member =>
    (readSegments_spec found).1 entry (order.mem_iff.mp member)
  have listed : (segment, true) ∈ loaded.filter Prod.snd := by
    rw [executable]
    exact List.mem_append_right _ List.mem_cons_self
  have own := List.mem_of_mem_filter listed
  obtain ⟨even, pairwise, low, reach, -⟩ := loaded_room fits apart (List.ne_nil_of_mem own) base
  have earlier : ∀ entry ∈ before, entry ∈ loaded.filter Prod.snd := fun entry member => by
    rw [executable]
    exact List.mem_append_left _ member
  have sublist : before.Sublist loaded := by
    refine List.Sublist.trans ?_ (List.filter_sublist (p := Prod.snd))
    rw [executable]
    exact List.sublist_append_left _ _
  have spec := sweeps_spec even (pairwise.sublist (sublist.map Prod.fst))
    (fun entry member => ⟨fits entry (List.mem_filter.mp (earlier entry member)).1,
      low entry (List.mem_filter.mp (earlier entry member)).1,
      (le_codeEnd (earlier entry member)).trans reach,
      fun i slot _ there => List.eq_of_mem_replicate (List.mem_of_getElem? there)⟩)
    (paired_replicate _) swept
  refine ⟨fits _ own, even, low _ own, ?_⟩
  rw [spec.1]
  exact (le_codeEnd listed).trans reach

/-- A sweep in a load reaches no index out of range, whatever it answers; and one that succeeds
walks the segment's bytes, records each step of the walk in its slots, and leaves every slot that
is not one of the bytes' halfwords as it was. -/
theorem sweep_walks {file : List UInt8} {segment : Segment} {slotBase : BitVec 32}
    {slots : List Slot} (passed : PassedToSweep file segment slotBase slots) :
    sweepChecked segment slotBase.toNat segment.vaddr.toNat slots =
        some (sweep segment slotBase slots) ∧
      ∀ after, sweep segment slotBase slots = .ok after →
        (∃ steps, Walk segment.vaddr.toNat segment.bytes steps ∧
          ∀ step ∈ steps, Recorded slotBase.toNat after step) ∧
        after.length = slots.length ∧
        ∀ j, j < (segment.vaddr.toNat - slotBase.toNat) / 2 ∨
            (segment.vaddr.toNat - slotBase.toNat) / 2 + segment.bytes.length / 2 ≤ j →
          after[j]? = slots[j]? := by
  obtain ⟨fits, even, low, high⟩ := passed.room
  have backed : segment.vaddr.toNat + segment.bytes.length ≤ segment.top :=
    Nat.add_le_add_left fits.backed _
  obtain ⟨k, start⟩ : ∃ k, segment.vaddr.toNat = slotBase.toNat + 2 * k := by
    have own := fits.even
    exact ⟨(segment.vaddr.toNat - slotBase.toNat) / 2, by omega⟩
  have place : (segment.vaddr.toNat - slotBase.toNat) / 2 = k := by omega
  have room : 2 * k + segment.bytes.length ≤ 2 * slots.length := by omega
  rw [sweep, place, start]
  refine ⟨sweepChecked_eq start rfl (Nat.zero_le _) room, fun after swept => ?_⟩
  obtain ⟨length, walked, kept⟩ := sweepFrom_walk room swept
  exact ⟨walked, length, kept⟩

theorem sweep_walks_idle :
    sweepChecked ⟨0x10000, 8, [0x13, 0, 0, 0, 0x01, 0]⟩ 0x10000 0x10000
        (List.replicate 4 .nonInstruction) =
      some (sweep ⟨0x10000, 8, [0x13, 0, 0, 0, 0x01, 0]⟩ 0x10000
        (List.replicate 4 .nonInstruction)) ∧
    ∃ steps, Walk 0x10000 [0x13, 0, 0, 0, 0x01, 0] steps ∧ ∀ step ∈ steps,
      Recorded 0x10000 [.instruction 0x13 false, .midInstruction, .instruction 0x13 true,
        .nonInstruction] step := by
  have passed : PassedToSweep idleElf ⟨0x10000, 8, [0x13, 0, 0, 0, 0x01, 0]⟩ 0x10000
      (List.replicate 4 .nonInstruction) :=
    ⟨⟨0x10000, 52, 32, 1⟩, [(⟨0x10000, 8, [0x13, 0, 0, 0, 0x01, 0]⟩, true)], [], [], rfl, by decide,
      rfl, rfl, rfl, rfl⟩
  obtain ⟨checked, walked⟩ := sweep_walks passed
  exact ⟨checked, (walked _ (by decide)).1⟩

end Load

end Apogee.Loader
