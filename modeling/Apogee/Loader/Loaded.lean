import Apogee.Loader.Elf

/-! # What a load establishes

The sweep goes up through segments that do not overlap, so each instruction is written where
nothing was, a 32-bit one together with its second halfword. What is loaded passes every
rule that the image's reader checks again.
-/

namespace Apogee.Loader

open Math (bind_ok then_ok mapM_ok exists_of_mapM_ok)

/-! ## Slots -/

/-- No instruction was written from a slot on. -/
def Fresh (slots : List Slot) (k : ℕ) : Prop :=
  ∀ i slot, k ≤ i → slots[i]? = some slot → slot = .nonInstruction

theorem Fresh.mono {slots : List Slot} {k j : ℕ} (fresh : Fresh slots k) (later : k ≤ j) :
    Fresh slots j :=
  fun i slot past => fresh i slot (later.trans past)

/-- A write below leaves what is fresh so. -/
theorem Fresh.modified {slots : List Slot} {k i : ℕ} (fresh : Fresh slots k) (below : i < k)
    (slot : Slot) : Fresh (slots.set i slot) k := by
  intro j other past found
  rw [List.getElem?_set_ne (below.trans_le past).ne] at found
  exact fresh j other past found

theorem paired_replicate (n : ℕ) : Paired (List.replicate n .nonInstruction) := by
  have only : ∀ (i : ℕ) slot, (List.replicate n Slot.nonInstruction)[i]? = some slot →
      slot = .nonInstruction := fun i slot found =>
    List.eq_of_mem_replicate (List.mem_of_getElem? found)
  refine ⟨fun i word found => ?_, fun i found => ?_⟩
  · cases only i _ found
  · cases only i _ found

/-- A slot that stands alone. -/
def Slot.Alone (slot : Slot) : Prop := slot.isWide = false ∧ slot ≠ .midInstruction

/-- A slot that stands alone is written where nothing was. -/
theorem Paired.alone {slots : List Slot} {k : ℕ} (paired : Paired slots) (fresh : Fresh slots k)
    {slot : Slot} (alone : slot.Alone) : Paired (slots.set k slot) := by
  have own : ∀ (i : ℕ) (other : Slot), (slots.set k slot)[i]? = some other →
      other = slot ∨ slots[i]? = some other := by
    intro i other found
    by_cases same : k = i
    · subst same
      rw [List.getElem?_set_self'] at found
      obtain ⟨-, -, rfl⟩ := Option.map_eq_some_iff.mp found
      exact Or.inl rfl
    · rw [List.getElem?_set_ne same] at found
      exact Or.inr found
  have kept : ∀ (i : ℕ) (other : Slot), slots[i]? = some other → other ≠ .nonInstruction →
      (slots.set k slot)[i]? = some other := by
    intro i other found filled
    have apart : k ≠ i := fun same => filled (fresh i other same.le found)
    rwa [List.getElem?_set_ne apart]
  refine ⟨fun i word found => ?_, fun i found => ?_⟩
  · rcases own i _ found with same | before
    · exact absurd alone.1 (by rw [← same]; exact Bool.noConfusion)
    · exact kept _ _ (paired.wide i word before) Slot.noConfusion
  · rcases own i _ found with same | before
    · exact absurd same.symm alone.2
    · obtain ⟨j, word, rfl, wide⟩ := paired.mid i before
      exact ⟨j, word, rfl, kept _ _ wide Slot.noConfusion⟩

/-- A 32-bit instruction is written with its second halfword, where nothing was. -/
theorem Paired.pair {slots : List Slot} {k : ℕ} (paired : Paired slots) (fresh : Fresh slots k)
    (inside : k + 1 < slots.length) (word : BitVec 32) :
    Paired ((slots.set k (.instruction word false)).set (k + 1) .midInstruction) := by
  have first : ((slots.set k (.instruction word false)).set (k + 1) .midInstruction)[k]? =
      some (.instruction word false) := by
    rw [List.getElem?_set_ne (Nat.succ_ne_self k), List.getElem?_set_self (Nat.lt_of_succ_lt inside)]
  have second : ((slots.set k (.instruction word false)).set (k + 1) .midInstruction)[k + 1]? =
      some .midInstruction := by
    rw [List.getElem?_set_self (by rwa [List.length_set])]
  have others : ∀ i, i ≠ k → i ≠ k + 1 →
      ((slots.set k (.instruction word false)).set (k + 1) .midInstruction)[i]? = slots[i]? := by
    intro i here next
    rw [List.getElem?_set_ne next.symm, List.getElem?_set_ne here.symm]
  have kept : ∀ (i : ℕ) (other : Slot), slots[i]? = some other → other ≠ .nonInstruction →
      ((slots.set k (.instruction word false)).set (k + 1) .midInstruction)[i]? = some other := by
    intro i other found filled
    have before : i < k := by
      by_contra past
      exact filled (fresh i other (not_lt.mp past) found)
    rw [others i before.ne (before.trans (Nat.lt_succ_self k)).ne, found]
  refine ⟨fun i other found => ?_, fun i found => ?_⟩
  · by_cases here : i = k
    · rw [here, second]
    · by_cases next : i = k + 1
      · rw [next, second] at found
        cases found
      · rw [others i here next] at found
        exact kept _ _ (paired.wide i other found) Slot.noConfusion
  · by_cases here : i = k
    · rw [here, first] at found
      cases found
    · by_cases next : i = k + 1
      · exact ⟨k, word, next, first⟩
      · rw [others i here next] at found
        obtain ⟨j, other, rfl, wide⟩ := paired.mid i found
        exact ⟨j, other, rfl, kept _ _ wide Slot.noConfusion⟩

/-! ## The sweep -/

/-- What a sweep leaves: as many slots, paired, and none written past its bytes. -/
structure Swept (slots after : List Slot) (stop : ℕ) : Prop where
  length : after.length = slots.length
  paired : Paired after
  fresh : ∀ j, stop ≤ 2 * j → Fresh after j

theorem sweepFrom_spec {slotBase k : ℕ} {bytes : List UInt8} {slots after : List Slot}
    (room : 2 * k + bytes.length ≤ 2 * slots.length) (paired : Paired slots) (fresh : Fresh slots k)
    (swept : sweepFrom slotBase (slotBase + 2 * k) bytes slots = .ok after) :
    Swept slots after (2 * k + bytes.length) := by
  induction many : bytes.length using Nat.strong_induction_on generalizing bytes k slots with
  | _ n ih =>
    subst many
    have stop : ∀ {bytes : List UInt8}, bytes.length < 2 →
        sweepFrom slotBase (slotBase + 2 * k) bytes slots = .ok after →
          Swept slots after (2 * k + bytes.length) := by
      intro bytes short swept
      have same : after = slots := by
        rcases bytes with _ | ⟨first, _ | ⟨second, rest⟩⟩
        · cases swept
          rfl
        · cases swept
          rfl
        · exact absurd short (by simp)
      subst same
      exact ⟨rfl, paired, fun j past => fresh.mono (by omega)⟩
    rcases bytes with _ | ⟨b0, _ | ⟨b1, rest⟩⟩
    · exact stop (by simp) swept
    · exact stop (by simp) swept
    have place : (slotBase + 2 * k - slotBase) / 2 = k := by omega
    rw [List.length_cons, List.length_cons] at room
    -- One slot is written, that stands alone, and the sweep goes on at the next.
    have narrow : ∀ slot : Slot, slot.Alone →
        sweepFrom slotBase (slotBase + 2 * k + 2) rest (slots.set k slot) = .ok after →
          Swept slots after (2 * k + (b0 :: b1 :: rest).length) := by
      intro slot alone onward
      have shorter : rest.length < (b0 :: b1 :: rest).length := by
        rw [List.length_cons, List.length_cons]
        omega
      have below : Swept (slots.set k slot) after (2 * (k + 1) + rest.length) :=
        ih rest.length shorter (by rw [List.length_set]; omega) (paired.alone fresh alone)
          ((fresh.mono (Nat.le_succ k)).modified (Nat.lt_succ_self k) slot) onward rfl
      refine ⟨by rw [below.length, List.length_set], below.paired, fun j past => ?_⟩
      rw [List.length_cons, List.length_cons] at past
      exact below.fresh j (by omega)
    rw [sweepFrom.eq_def] at swept
    dsimp only at swept
    rw [place] at swept
    by_cases wide : BitVec.ofNat 16 (Math.leValue [b0, b1]) &&& 0b11 = 0b11
    · rw [if_pos wide] at swept
      by_cases long : BitVec.ofNat 16 (Math.leValue [b0, b1]) &&& 0b11100 = 0b11100
      · rw [if_pos long] at swept
        cases swept
      rw [if_neg long] at swept
      rcases rest with _ | ⟨b2, _ | ⟨b3, rest⟩⟩
      · cases swept
      · cases swept
      dsimp only at swept
      rw [List.length_cons, List.length_cons] at room
      have shorter : rest.length < (b0 :: b1 :: b2 :: b3 :: rest).length := by
        rw [List.length_cons, List.length_cons, List.length_cons, List.length_cons]
        omega
      let word := BitVec.ofNat 32 (Math.leValue [b0, b1, b2, b3])
      have below : Swept ((slots.set k (.instruction word false)).set (k + 1) .midInstruction) after
          (2 * (k + 2) + rest.length) :=
        ih rest.length shorter (by rw [List.length_set, List.length_set]; omega)
          (paired.pair fresh (by omega) word)
          (((fresh.mono (Nat.le_add_right k 2)).modified (by omega) _).modified (by omega) _) swept rfl
      refine ⟨by rw [below.length, List.length_set, List.length_set], below.paired, fun j past => ?_⟩
      rw [List.length_cons, List.length_cons, List.length_cons, List.length_cons] at past
      exact below.fresh j (by omega)
    rw [if_neg wide] at swept
    by_cases zero : BitVec.ofNat 16 (Math.leValue [b0, b1]) = 0
    · rw [if_pos zero] at swept
      exact narrow _ ⟨rfl, Slot.noConfusion⟩ swept
    rw [if_neg zero] at swept
    cases expanded : Rvc.expand (BitVec.ofNat 16 (Math.leValue [b0, b1])) with
    | error reason =>
      rw [expanded] at swept
      cases swept
    | ok word =>
      rw [expanded] at swept
      exact narrow _ ⟨rfl, Slot.noConfusion⟩ swept

/-- The sweeps of segments that do not overlap, from the lowest up. -/
theorem sweeps_spec {slotBase : BitVec 32} {entries : List (Segment × Bool)} {slots after : List Slot}
    (even : slotBase.toNat % 2 = 0) (apart : (entries.map Prod.fst).Pairwise Below)
    (each : ∀ entry ∈ entries, entry.1.Fits ∧ slotBase.toNat ≤ entry.1.vaddr.toNat ∧
      entry.1.top ≤ slotBase.toNat + 2 * slots.length ∧
      Fresh slots ((entry.1.vaddr.toNat - slotBase.toNat) / 2))
    (paired : Paired slots)
    (swept : entries.foldlM (fun slots entry => sweep entry.1 slotBase slots) slots = .ok after) :
    after.length = slots.length ∧ Paired after := by
  induction entries generalizing slots with
  | nil =>
    cases swept
    exact ⟨rfl, paired⟩
  | cons entry entries ih =>
    rw [List.foldlM_cons] at swept
    obtain ⟨middle, first, others⟩ := bind_ok.mp swept
    rw [List.map_cons] at apart
    obtain ⟨above, apart⟩ := List.pairwise_cons.mp apart
    obtain ⟨⟨fits, low, high, fresh⟩, each⟩ := List.forall_mem_cons.mp each
    have start : entry.1.vaddr.toNat =
        slotBase.toNat + 2 * ((entry.1.vaddr.toNat - slotBase.toNat) / 2) := by
      have own := fits.even
      omega
    have backed : entry.1.vaddr.toNat + entry.1.bytes.length ≤ entry.1.top :=
      Nat.add_le_add_left fits.backed _
    rw [sweep, start] at first
    have here := sweepFrom_spec (by omega) paired fresh first
    have later : ∀ other ∈ entries, other.1.Fits ∧ slotBase.toNat ≤ other.1.vaddr.toNat ∧
        other.1.top ≤ slotBase.toNat + 2 * middle.length ∧
        Fresh middle ((other.1.vaddr.toNat - slotBase.toNat) / 2) := by
      intro other member
      obtain ⟨fits', low', high', -⟩ := each other member
      have past : entry.1.top ≤ other.1.vaddr.toNat :=
        above other.1 (List.mem_map.mpr ⟨other, member, rfl⟩)
      refine ⟨fits', low', by rwa [here.length], here.fresh _ ?_⟩
      have own := fits'.even
      omega
    obtain ⟨length, both⟩ := ih apart later here.paired others
    exact ⟨by rw [length, here.length], both⟩

/-! ## Segments -/

theorem readSegment_fits {bytes : List UInt8} {place : ℕ} {segment : Segment} {executable : Bool}
    (read : Elf.readSegment bytes place = .ok (some (segment, executable))) : segment.Fits := by
  unfold Elf.readSegment at read
  dsimp only at read
  by_cases dynamic : Elf.u32le bytes place = Elf.ptDynamic
  · rw [if_pos dynamic] at read
    cases read
  by_cases interp : Elf.u32le bytes place = Elf.ptInterp
  · rw [if_neg dynamic, if_pos interp] at read
    cases read
  by_cases other : Elf.u32le bytes place ≠ Elf.ptLoad
  · rw [if_neg dynamic, if_neg interp, if_pos other] at read
    cases read
  rw [if_neg dynamic, if_neg interp, if_neg other] at read
  by_cases odd : (BitVec.ofNat 32 (Elf.u32le bytes (place + 8))).toNat % 2 ≠ 0
  · rw [if_pos odd] at read
    cases read
  by_cases long : (BitVec.ofNat 32 (Elf.u32le bytes (place + 20))).toNat <
      Elf.u32le bytes (place + 16)
  · rw [if_neg odd, if_pos long] at read
    cases read
  by_cases outside : (BitVec.ofNat 32 (Elf.u32le bytes (place + 8))).toNat < GuestMemory.ramOrigin ∨
      ramTop < (BitVec.ofNat 32 (Elf.u32le bytes (place + 8))).toNat +
        (BitVec.ofNat 32 (Elf.u32le bytes (place + 20))).toNat
  · rw [if_neg odd, if_neg long, if_pos outside] at read
    cases read
  rw [if_neg odd, if_neg long, if_neg outside] at read
  by_cases overflows : Elf.usizeEnd ≤ Elf.u32le bytes (place + 4) + Elf.u32le bytes (place + 16)
  · rw [if_pos overflows] at read
    cases read
  by_cases short : bytes.length < Elf.u32le bytes (place + 4) + Elf.u32le bytes (place + 16)
  · rw [if_neg overflows, if_pos short] at read
    cases read
  rw [if_neg overflows, if_neg short] at read
  cases read
  rw [not_or, not_lt, not_lt] at outside
  exact ⟨not_not.mp odd, (List.length_take_le _ _).trans (not_lt.mp long), outside⟩

theorem readSegments_spec {bytes : List UInt8} {header : Elf.Header} {read : List (Segment × Bool)}
    (passed : Elf.readSegments bytes header = .ok read) :
    (∀ entry ∈ read, entry.1.Fits) ∧ read.length ≤ header.phnum := by
  unfold Elf.readSegments at passed
  dsimp only at passed
  by_cases overflows : Elf.usizeEnd ≤ header.phoff + header.phentsize * header.phnum
  · rw [if_pos overflows] at passed
    cases passed
  by_cases short : bytes.length < header.phoff + header.phentsize * header.phnum
  · rw [if_neg overflows, if_pos short] at passed
    cases passed
  rw [if_neg overflows, if_neg short] at passed
  obtain ⟨found, ran, same⟩ := bind_ok.mp passed
  cases same
  constructor
  · intro entry member
    obtain ⟨some, listed, same⟩ := List.mem_filterMap.mp member
    obtain ⟨i, -, segment⟩ := exists_of_mapM_ok ran some listed
    rw [id_eq] at same
    subst same
    exact readSegment_fits segment
  · refine (List.length_filterMap_le _ _).trans ?_
    rw [← (mapM_ok ran).length_eq, List.length_range]

theorem overlapRules_ok {loaded : List (Segment × Bool)} :
    overlapRules loaded = .ok () ↔ (loaded.map Prod.fst).IsChain Below := by
  induction loaded with
  | nil => exact iff_of_true rfl List.isChain_nil
  | cons first rest ih =>
    cases rest with
    | nil => exact iff_of_true rfl (List.isChain_singleton first.1)
    | cons second rest =>
      rw [overlapRules, List.map_cons, List.map_cons, List.isChain_cons_cons, ← List.map_cons, ← ih]
      by_cases clash : second.1.vaddr.toNat < first.1.top
      · rw [if_pos clash]
        exact iff_of_false (fun wrong => by cases wrong) fun both => not_lt.mpr both.1 clash
      · rw [if_neg clash]
        exact ⟨fun passed => ⟨not_lt.mp clash, passed⟩, fun both => both.2⟩

theorem below_trans : ∀ {first second third : Segment}, Below first second → Below second third →
    Below first third :=
  fun here there => here.trans ((Nat.le_add_right _ _).trans there)

theorem le_codeEnd {loaded : List (Segment × Bool)} {entry : Segment × Bool}
    (member : entry ∈ loaded.filter Prod.snd) : entry.1.top ≤ codeEnd loaded := by
  unfold codeEnd
  generalize loaded.filter Prod.snd = entries at member
  induction entries with
  | nil => exact absurd member List.not_mem_nil
  | cons first rest ih =>
    rw [List.map_cons, List.foldr_cons]
    rcases List.mem_cons.mp member with rfl | later
    · exact le_max_left _ _
    · exact (ih later).trans (le_max_right _ _)

theorem codeEnd_le {loaded : List (Segment × Bool)} {bound : ℕ}
    (each : ∀ entry ∈ loaded, entry.1.top ≤ bound) : codeEnd loaded ≤ bound := by
  unfold codeEnd
  have inside : ∀ entry ∈ loaded.filter Prod.snd, entry.1.top ≤ bound := fun entry member =>
    each entry (List.mem_filter.mp member).1
  generalize loaded.filter Prod.snd = entries at inside
  induction entries with
  | nil => exact Nat.zero_le _
  | cons first rest ih =>
    obtain ⟨here, later⟩ := List.forall_mem_cons.mp inside
    rw [List.map_cons, List.foldr_cons]
    exact max_le here (ih later)

/-! ## The load -/

/-- What a load goes through, from its segments in order. -/
theorem loadElf_ok {bytes : List UInt8} {image : ProgramImage} (passed : loadElf bytes = .ok image) :
    ∃ header read loaded, Elf.parseHeader bytes = .ok header ∧
      Elf.readSegments bytes header = .ok read ∧ loaded.Perm read ∧
      loaded.any Prod.snd = true ∧ overlapRules loaded = .ok () ∧
      image.segments = loaded.map Prod.fst ∧
      image.slotBase = (loaded.head?.map fun entry => entry.1.vaddr).getD 0 ∧
      (loaded.filter Prod.snd).foldlM (fun slots entry => sweep entry.1 image.slotBase slots)
        (emptySlots image.slotBase loaded) = .ok image.slots ∧
      (image.slotAt image.entry).any Slot.isInstruction = true := by
  unfold loadElf at passed
  obtain ⟨header, parsed, passed⟩ := bind_ok.mp passed
  obtain ⟨read, found, passed⟩ := bind_ok.mp passed
  by_cases executable : read.any Prod.snd = true
  · rw [if_neg (not_not.mpr executable)] at passed
    have order := List.perm_insertionSort
      (fun x y : Segment × Bool => x.1.vaddr.toNat ≤ y.1.vaddr.toNat) read
    generalize read.insertionSort
      (fun x y : Segment × Bool => x.1.vaddr.toNat ≤ y.1.vaddr.toNat) = loaded at passed order
    obtain ⟨apart, passed⟩ := then_ok.mp passed
    obtain ⟨slots, swept, passed⟩ := bind_ok.mp passed
    dsimp only at passed
    refine ⟨header, read, loaded, parsed, found, order, ?_, apart, ?_⟩
    · rw [List.any_eq_true] at executable ⊢
      obtain ⟨entry, member, holds⟩ := executable
      exact ⟨entry, order.mem_iff.mpr member, holds⟩
    · by_cases entry : ((⟨header.entry, loaded.map Prod.fst,
          (loaded.head?.map fun entry => entry.1.vaddr).getD 0, slots⟩ : ProgramImage).slotAt
            header.entry).any Slot.isInstruction = true
      · rw [if_pos entry] at passed
        cases passed
        exact ⟨rfl, rfl, swept, entry⟩
      · rw [if_neg entry] at passed
        cases passed
  · rw [if_pos executable] at passed
    cases passed

theorem ramTop_even : ramTop % 2 = 0 := by decide

/-- The slots reach past the end of every executable segment, and not past guest memory. -/
theorem emptySlots_length {slotBase : BitVec 32} {loaded : List (Segment × Bool)}
    (even : slotBase.toNat % 2 = 0) (low : slotBase.toNat ≤ ramTop)
    (high : codeEnd loaded ≤ ramTop) : codeEnd loaded ≤
        slotBase.toNat + 2 * (emptySlots slotBase loaded).length ∧
      slotBase.toNat + 2 * (emptySlots slotBase loaded).length ≤ ramTop := by
  have top := ramTop_even
  rw [emptySlots, List.length_replicate]
  omega

/-- Sorted segments that fit the memory map lie in the slots' span, executable ones in the
slots themselves. -/
theorem loaded_room {loaded : List (Segment × Bool)} {slotBase : BitVec 32}
    (fits : ∀ entry ∈ loaded, entry.1.Fits) (apart : overlapRules loaded = .ok ())
    (some : loaded ≠ []) (base : slotBase = (loaded.head?.map fun entry => entry.1.vaddr).getD 0) :
    slotBase.toNat % 2 = 0 ∧ (loaded.map Prod.fst).Pairwise Below ∧
      (∀ entry ∈ loaded, slotBase.toNat ≤ entry.1.vaddr.toNat) ∧
      codeEnd loaded ≤ slotBase.toNat + 2 * (emptySlots slotBase loaded).length ∧
        slotBase.toNat + 2 * (emptySlots slotBase loaded).length ≤ ramTop := by
  have trans : IsTrans Segment Below := ⟨fun _ _ _ => below_trans⟩
  have pairwise := List.isChain_iff_pairwise.mp (overlapRules_ok.mp apart)
  have high : codeEnd loaded ≤ ramTop := codeEnd_le fun entry member => (fits entry member).inside.2
  obtain ⟨first, rest, rfl⟩ := List.exists_cons_of_ne_nil some
  have own : slotBase = first.1.vaddr := base
  have firstFits := fits first List.mem_cons_self
  have even : slotBase.toNat % 2 = 0 := by rw [own]; exact firstFits.even
  have least : slotBase.toNat ≤ ramTop := by
    rw [own]
    exact (Nat.le_add_right _ _).trans firstFits.inside.2
  refine ⟨even, pairwise, fun entry member => ?_, emptySlots_length even least high⟩
  rw [own]
  rcases List.mem_cons.mp member with rfl | later
  · exact le_rfl
  · have above := (List.pairwise_cons.mp pairwise).1 entry.1 (List.mem_map.mpr ⟨entry, later, rfl⟩)
    exact (Nat.le_add_right _ _).trans above

/-- What is loaded is well formed. -/
theorem wellFormed_of_loadElf {bytes : List UInt8} {image : ProgramImage}
    (passed : loadElf bytes = .ok image) : image.WellFormed := by
  obtain ⟨header, read, loaded, -, found, order, executable, apart, segments, base, swept, entry⟩ :=
    loadElf_ok passed
  have fits : ∀ entry ∈ loaded, entry.1.Fits := fun entry member =>
    (readSegments_spec found).1 entry (order.mem_iff.mp member)
  have some : loaded ≠ [] := by
    rintro rfl
    cases executable
  obtain ⟨even, pairwise, low, reach, within⟩ := loaded_room fits apart some base
  have spec := sweeps_spec even (pairwise.sublist (List.filter_sublist.map Prod.fst))
    (fun entry member => ⟨fits entry (List.mem_filter.mp member).1,
      low entry (List.mem_filter.mp member).1, (le_codeEnd member).trans reach,
      fun i slot _ there => List.eq_of_mem_replicate (List.mem_of_getElem? there)⟩)
    (paired_replicate _) swept
  obtain ⟨first, rest, listed⟩ := List.exists_cons_of_ne_nil some
  refine ⟨?_, by rw [segments]; exact overlapRules_ok.mp apart,
    ⟨first.1, rest.map Prod.fst, by rw [segments, listed, List.map_cons], by rw [base, listed]; rfl⟩,
    ?_, spec.2, ProgramImage.isInstruction_iff.mp entry⟩
  · intro segment member
    rw [segments] at member
    obtain ⟨entry, inside, rfl⟩ := List.mem_map.mp member
    exact fits entry inside
  · rw [spec.1]
    exact within

theorem parseHeader_phnum {bytes : List UInt8} {header : Elf.Header}
    (parsed : Elf.parseHeader bytes = .ok header) : header.phnum < 2 ^ 16 := by
  unfold Elf.parseHeader at parsed
  obtain ⟨-, parsed⟩ := then_ok.mp parsed
  obtain ⟨-, parsed⟩ := then_ok.mp parsed
  dsimp only at parsed
  by_cases size : Elf.u16le bytes 42 ≠ Elf.phdrLen
  · rw [if_pos size] at parsed
    cases parsed
  by_cases none : Elf.u16le bytes 44 = 0
  · rw [if_neg size, if_pos none] at parsed
    cases parsed
  rw [if_neg size, if_neg none] at parsed
  cases parsed
  have small := Math.leValue_lt ((bytes.drop 44).take 2)
  exact small.trans_le (Nat.pow_le_pow_right (by decide) (List.length_take_le 2 _))

/-- A file names no more than some segments. -/
theorem loadElf_segments {bytes : List UInt8} {image : ProgramImage}
    (passed : loadElf bytes = .ok image) : image.segments.length < 2 ^ 16 := by
  obtain ⟨header, read, loaded, parsed, found, order, -, -, segments, -⟩ := loadElf_ok passed
  rw [segments, List.length_map, order.length_eq]
  exact (readSegments_spec found).2.trans_lt (parseHeader_phnum parsed)

/-- A file of one executable segment: a 32-bit instruction and a compressed one, both of
which do nothing, and two bytes of zeros above them. -/
def idleElf : List UInt8 :=
  [0x7f, 0x45, 0x4c, 0x46, 1, 1, 1, 0, 0, 0, 0, 0, 0, 0, 0, 0,
    2, 0, 243, 0, 1, 0, 0, 0, 0, 0, 1, 0, 52, 0, 0, 0, 0, 0, 0, 0, 0, 0, 0, 0,
    52, 0, 32, 0, 1, 0, 0, 0, 0, 0, 0, 0,
    1, 0, 0, 0, 84, 0, 0, 0, 0, 0, 1, 0, 0, 0, 1, 0, 6, 0, 0, 0, 8, 0, 0, 0, 5, 0, 0, 0, 4, 0, 0, 0,
    0x13, 0, 0, 0, 0x01, 0]

end Apogee.Loader
