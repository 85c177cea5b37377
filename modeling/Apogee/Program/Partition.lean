import Apogee.Program.Tables

/-! # The partition of a program

On an image that validates, derivation ends in a refusal or in tables that hold every
instruction once, at the row of its pc. What is proved of the tables is read off the claims
they are built from.
-/

namespace Apogee.Program

open Loader (ProgramImage Segment Slot)
open Math (Ends bind_ok then_ok forM_ok)

/-- A refusal, and no panic. -/
def Refused (stop : Stop) : Prop := stop ≠ .panic

theorem refuse_ends {α : Type} {post : α → Prop} (error : ProgramError) :
    Ends Refused post (refuse error : Attempt α) := by
  change Stop.refused error ≠ Stop.panic
  exact Stop.noConfusion

/-- An assertion that holds. -/
theorem ensure_ok {holds : Prop} [Decidable holds] (held : holds) : ensure holds = .ok () := by
  rw [ensure, if_pos held]

/-! ## What the slots claim -/

section Claims

/-- The claim of an instruction at a slot: its family, the row of its pc and its values. -/
def claimAt (slotBase : BitVec 32) (i : ℕ) (instr : Instr) (compressed : Bool) : ℕ × Claim :=
  ((rowKind instr).1, slotBase.toNat / 2 + i,
    rowValues instr (BitVec.ofNat 32 (slotBase.toNat + 2 * i)) compressed)

/-- What a slot claims when nothing refuses. -/
def claimed (slotBase : BitVec 32) (entry : Slot × ℕ) : Option (ℕ × Claim) :=
  match entry.1 with
  | .instruction word compressed =>
    match Isa.decode word with
    | .ok instr => some (claimAt slotBase entry.2 instr compressed)
    | .error _ => none
  | _ => none

theorem claimed_eq_some {slotBase : BitVec 32} {entry : Slot × ℕ} {claim : ℕ × Claim} :
    claimed slotBase entry = some claim ↔ ∃ word compressed instr,
      entry.1 = .instruction word compressed ∧ Isa.decode word = .ok instr ∧
        claim = claimAt slotBase entry.2 instr compressed := by
  obtain ⟨slot, i⟩ := entry
  constructor
  · intro value
    cases slot with
    | midInstruction => cases value
    | nonInstruction => cases value
    | instruction word compressed =>
      unfold claimed at value
      dsimp only at value
      cases decoded : Isa.decode word with
      | error e =>
        rw [decoded] at value
        cases value
      | ok instr =>
        rw [decoded] at value
        exact ⟨word, compressed, instr, rfl, decoded, (Option.some.inj value).symm⟩
  · rintro ⟨word, compressed, instr, rfl, decoded, rfl⟩
    unfold claimed
    dsimp only
    rw [decoded]

variable {image : ProgramImage}

/-- An instruction slot lies in the guest's memory, and so does the address after it. -/
theorem slot_inside (formed : image.WellFormed) {i : ℕ} {word : BitVec 32} {compressed : Bool}
    (found : image.slots[i]? = some (.instruction word compressed)) :
    image.slotBase.toNat + 2 * i + (if compressed then 2 else 4) ≤ 2 ^ 31 := by
  have top : Loader.ramTop = 2 ^ 31 := by decide
  have inside := formed.inside
  rw [top] at inside
  obtain ⟨here, -⟩ := List.getElem?_eq_some_iff.mp found
  cases compressed with
  | true =>
    rw [if_pos rfl]
    omega
  | false =>
    obtain ⟨next, -⟩ := List.getElem?_eq_some_iff.mp (formed.paired.wide i word found)
    rw [if_neg Bool.false_ne_true]
    omega

theorem even_slotBase (formed : image.WellFormed) : image.slotBase.toNat % 2 = 0 := by
  obtain ⟨first, rest, listed, base⟩ := formed.lowest
  rw [base]
  exact (formed.fits first (by rw [listed]; exact List.mem_cons_self)).even

/-- A slot's claim is its instruction's, or is refused. -/
theorem claimOf_ends (formed : image.WellFormed) {detached : List ℕ} {entry : Slot × ℕ}
    (member : entry ∈ image.slots.zipIdx) :
    Ends Refused (fun claim => claim = claimed image.slotBase entry ∧
        (entry.1.isInstruction → claim.isSome)) (claimOf image.slotBase detached entry) := by
  obtain ⟨slot, i⟩ := entry
  have found := List.mk_mem_zipIdx_iff_getElem?.mp member
  cases slot with
  | midInstruction => exact ⟨rfl, fun wrong => absurd wrong Bool.false_ne_true⟩
  | nonInstruction => exact ⟨rfl, fun wrong => absurd wrong Bool.false_ne_true⟩
  | instruction word compressed =>
    have inside := slot_inside formed found
    have even := even_slotBase formed
    have within : image.slotBase.toNat + 2 * i < 2 ^ 32 := by
      have := Nat.le_add_right (image.slotBase.toNat + 2 * i) (if compressed then 2 else 4)
      omega
    have pc : image.slotBase + BitVec.ofNat 32 (2 * i) =
        BitVec.ofNat 32 (image.slotBase.toNat + 2 * i) := by
      rw [BitVec.ofNat_add, BitVec.ofNat_toNat, BitVec.setWidth_eq]
    have value : (BitVec.ofNat 32 (image.slotBase.toNat + 2 * i)).toNat =
        image.slotBase.toNat + 2 * i := by
      rw [BitVec.toNat_ofNat, Nat.mod_eq_of_lt within]
    unfold claimOf claimed
    dsimp only
    rw [ensure_ok within, pc, value]
    dsimp only [bind, Except.bind]
    cases decoded : Isa.decode word with
    | error e => exact refuse_ends _
    | ok instr =>
      dsimp only
      by_cases gone : detached.contains (rowKind instr).1
      · rw [if_pos gone]
        exact refuse_ends _
      · rw [if_neg gone]
        rw [ensure_ok (by omega)]
        refine ⟨?_, fun _ => rfl⟩
        have row : (image.slotBase.toNat + 2 * i) / 2 = image.slotBase.toNat / 2 + i := by omega
        rw [claimAt, row]

/-- Every claim of an image. -/
def claimsOf (image : ProgramImage) : List (ℕ × Claim) :=
  image.slots.zipIdx.filterMap (claimed image.slotBase)

/-- Derivation claims every instruction, or refuses. -/
theorem claims_ends (formed : image.WellFormed) {detached : List ℕ} :
    Ends Refused (fun claims => claims.reduceOption = claimsOf image ∧
        ∀ entry ∈ image.slots.zipIdx, entry.1.isInstruction → (claimed image.slotBase entry).isSome)
      (image.slots.zipIdx.mapM (claimOf image.slotBase detached)) := by
  refine (Ends.mapM fun entry member => claimOf_ends formed member).imp fun claims each => ?_
  rw [claimsOf]
  generalize image.slots.zipIdx = slots at each ⊢
  have all : claims = slots.map (claimed image.slotBase) ∧
      ∀ entry ∈ slots, entry.1.isInstruction → (claimed image.slotBase entry).isSome := by
    induction each with
    | nil => exact ⟨rfl, fun entry member => absurd member List.not_mem_nil⟩
    | cons first rest ih =>
      obtain ⟨rfl, there⟩ := first
      obtain ⟨rfl, others⟩ := ih
      exact ⟨rfl, List.forall_mem_cons.mpr ⟨there, others⟩⟩
  rw [all.1]
  refine ⟨?_, all.2⟩
  rw [List.reduceOption, List.filterMap_map]
  rfl

/-- What a claim says: an instruction starts at its pc. -/
theorem mem_claimsOf {claim : ℕ × Claim} : claim ∈ claimsOf image ↔
    ∃ i word compressed instr, image.slots[i]? = some (.instruction word compressed) ∧
      Isa.decode word = .ok instr ∧ claim = claimAt image.slotBase i instr compressed := by
  rw [claimsOf, List.mem_filterMap]
  constructor
  · rintro ⟨⟨slot, i⟩, member, value⟩
    obtain ⟨word, compressed, instr, rfl, decoded, rfl⟩ := claimed_eq_some.mp value
    exact ⟨i, word, compressed, instr, List.mk_mem_zipIdx_iff_getElem?.mp member, decoded, rfl⟩
  · rintro ⟨i, word, compressed, instr, found, decoded, rfl⟩
    exact ⟨(.instruction word compressed, i), List.mk_mem_zipIdx_iff_getElem?.mpr found,
      claimed_eq_some.mpr ⟨word, compressed, instr, rfl, decoded, rfl⟩⟩

/-- Claims ascend with their slots. -/
theorem claimsOf_ascending : ((claimsOf image).map fun claim => claim.2.1).Pairwise (· < ·) := by
  have places : image.slots.zipIdx.Pairwise fun a b => a.2 < b.2 := by
    have all : (image.slots.zipIdx.map Prod.snd).Pairwise (· < ·) := by
      rw [List.zipIdx_map_snd]
      exact List.pairwise_lt_range'
    exact List.pairwise_map.mp all
  have row {entry : Slot × ℕ} {claim : ℕ × Claim}
      (value : claimed image.slotBase entry = some claim) :
      claim.2.1 = image.slotBase.toNat / 2 + entry.2 := by
    obtain ⟨word, compressed, instr, -, -, rfl⟩ := claimed_eq_some.mp value
    rfl
  rw [List.pairwise_map, claimsOf, List.pairwise_filterMap]
  refine places.imp fun {a b} less x first y second => ?_
  rw [row first, row second]
  exact Nat.add_lt_add_left less _

/-- As many claims as instructions, when each has one. -/
theorem length_claimsOf (each : ∀ entry ∈ image.slots.zipIdx, entry.1.isInstruction →
      (claimed image.slotBase entry).isSome) :
    (claimsOf image).length = (image.slots.filter Slot.isInstruction).length := by
  have counted : (image.slots.filter Slot.isInstruction).length =
      (image.slots.zipIdx.filter fun entry => entry.1.isInstruction).length := by
    have both : image.slots.countP Slot.isInstruction =
        (image.slots.zipIdx.map Prod.fst).countP Slot.isInstruction := by
      rw [List.zipIdx_map_fst]
    rw [← List.countP_eq_length_filter, ← List.countP_eq_length_filter, both, List.countP_map]
    rfl
  rw [counted, claimsOf, List.length_filterMap_eq_countP, ← List.countP_eq_length_filter]
  refine List.countP_congr fun entry member => ?_
  constructor
  · intro value
    obtain ⟨claim, some⟩ := Option.isSome_iff_exists.mp value
    obtain ⟨word, compressed, instr, same, -, -⟩ := claimed_eq_some.mp some
    rw [same]
    rfl
  · exact each entry member

end Claims

/-! ## The tables of all families -/

section Families

/-- The tables of some families, in their order: none for a family that claims nothing and
is not always present, and otherwise the one of its rows, the last of them below the last
row of the table. -/
inductive Built (claims : List (ℕ × Claim)) : List ℕ → List FamilyTable → Prop
  | nil : Built claims [] []
  | absent {family families tables} (none : rowsOf claims family = [])
    (others : Built claims families tables) : Built claims (family :: families) tables
  | present {family height families tables} (known : family < Family.count)
    (good : Rows height (rowsOf claims family))
    (below : ∀ row ∈ rowsOf claims family, row.1 + 1 < height)
    (others : Built claims families tables) :
    Built claims (family :: families) (Rows.table family height (rowsOf claims family) :: tables)

variable {claims : List (ℕ × Claim)}

/-- The rows of a family are apart when all claims are. -/
theorem ascending_rowsOf (ascending : (claims.map fun claim => claim.2.1).Pairwise (· < ·))
    (family : ℕ) : ((rowsOf claims family).map Prod.fst).Pairwise (· < ·) := by
  rw [rowsOf, List.map_map]
  exact ascending.sublist (List.filter_sublist.map _)

theorem mem_rowsOf {family : ℕ} {row : Claim} :
    row ∈ rowsOf claims family ↔ (family, row) ∈ claims := by
  rw [rowsOf, List.mem_map]
  constructor
  · rintro ⟨claim, member, rfl⟩
    obtain ⟨inside, same⟩ := List.mem_filter.mp member
    rw [decide_eq_true_eq] at same
    rw [← same]
    exact inside
  · intro member
    exact ⟨(family, row), List.mem_filter.mpr ⟨member, decide_eq_true rfl⟩, rfl⟩

theorem exists_heightOf (params : ProgramParams) {family : ℕ} (known : family < Family.count) :
    ∃ height, heightOf family params = .ok height := by
  rw [heightOf]
  by_cases pinned : family = Family.publicInput ∨ family = Family.publicOutput
  · rw [if_pos pinned]
    exact ⟨_, rfl⟩
  · rw [if_neg pinned, List.getElem?_eq_getElem (by rw [params.sized]; exact known)]
    exact ⟨_, rfl⟩

/-- The last of ascending rows is the highest. -/
theorem le_getLast {rows : List Claim} (ascending : (rows.map Prod.fst).Pairwise (· < ·))
    {last : Claim} (found : rows.getLast? = some last) : ∀ row ∈ rows, row.1 ≤ last.1 := by
  obtain ⟨front, rfl⟩ := List.getLast?_eq_some_iff.mp found
  rw [List.map_append, List.pairwise_append] at ascending
  intro row member
  rcases List.mem_append.mp member with before | here
  · exact (ascending.2.2 _ (List.mem_map_of_mem before) _ List.mem_cons_self).le
  · rw [List.mem_singleton.mp here]

/-- What a family's turn gives. -/
def Turn (claims : List (ℕ × Claim)) (family : ℕ) (table : Option FamilyTable) : Prop :=
  table = none ∧ rowsOf claims family = [] ∨
    ∃ height, Rows height (rowsOf claims family) ∧
      (∀ row ∈ rowsOf claims family, row.1 + 1 < height) ∧
      table = some (Rows.table family height (rowsOf claims family))

/-- A family that is present and whose rows fit has their table. -/
theorem familyEntry_ok {params : ProgramParams} {detached declared : List ℕ} {family height : ℕ}
    (known : family < Family.count) (sized : heightOf family params = .ok height)
    (good : Rows height (rowsOf claims family))
    (below : ∀ row ∈ rowsOf claims family, row.1 + 1 < height) :
    familyEntry params detached declared claims family =
      .ok (if (rowsOf claims family).isEmpty && !always declared detached family then none
        else some (Rows.table family height (rowsOf claims family))) := by
  rw [familyEntry]
  by_cases gone : ((rowsOf claims family).isEmpty && !always declared detached family) = true
  · rw [if_pos gone, if_pos gone]
  · rw [if_neg gone, if_neg gone, sized]
    dsimp only [bind, Except.bind]
    cases found : (rowsOf claims family).getLast? with
    | none =>
      dsimp only
      rw [good.buildTable_ok known]
      rfl
    | some last =>
      dsimp only
      rw [if_neg (not_le.mpr (below last (List.mem_of_getLast? found))), good.buildTable_ok known]
      rfl

theorem familyEntry_ends {params : ProgramParams} {detached declared : List ℕ} {family : ℕ}
    (known : family < Family.count)
    (ascending : (claims.map fun claim => claim.2.1).Pairwise (· < ·))
    (eight : ∀ claim ∈ claims, claim.2.2.length = 8) :
    Ends Refused (Turn claims family) (familyEntry params detached declared claims family) := by
  have ordered := ascending_rowsOf ascending family
  have values : ∀ row ∈ rowsOf claims family, row.2.length = 8 := fun row member =>
    eight _ (mem_rowsOf.mp member)
  obtain ⟨height, sized⟩ := exists_heightOf params known
  by_cases below : ∀ row ∈ rowsOf claims family, row.1 + 1 < height
  · have good : Rows height (rowsOf claims family) :=
      ⟨ordered, fun row member => (Nat.lt_succ_self _).trans (below row member), values⟩
    rw [familyEntry_ok known sized good below]
    by_cases gone : ((rowsOf claims family).isEmpty && !always declared detached family) = true
    · rw [if_pos gone]
      exact .inl ⟨rfl, List.isEmpty_iff.mp (Bool.and_eq_true _ _ ▸ gone).1⟩
    · rw [if_neg gone]
      exact .inr ⟨height, good, below, rfl⟩
  · push Not at below
    obtain ⟨row, member, high⟩ := below
    have full : ¬((rowsOf claims family).isEmpty && !always declared detached family) = true := by
      rw [List.isEmpty_eq_false_iff_exists_mem.mpr ⟨row, member⟩]
      exact Bool.false_ne_true
    have found := List.getLast?_eq_some_getLast (List.ne_nil_of_mem member)
    generalize (rowsOf claims family).getLast (List.ne_nil_of_mem member) = last at found
    have short : height ≤ last.1 + 1 :=
      high.trans (Nat.succ_le_succ (le_getLast ordered found row member))
    have length := values _ (List.mem_of_getLast? found)
    rw [familyEntry, if_neg full, sized]
    dsimp only [bind, Except.bind]
    rw [found]
    dsimp only
    rw [if_pos short, List.getElem?_eq_getElem (by rw [length]; norm_num)]
    exact refuse_ends _

theorem built_of_turns {families : List ℕ} {entries : List (Option FamilyTable)}
    (known : ∀ family ∈ families, family < Family.count)
    (turns : List.Forall₂ (Turn claims) families entries) :
    Built claims families entries.reduceOption := by
  induction turns with
  | nil => exact .nil
  | cons turn rest ih =>
    obtain ⟨here, others⟩ := List.forall_mem_cons.mp known
    rcases turn with ⟨rfl, none⟩ | ⟨height, good, below, rfl⟩
    · rw [List.reduceOption_cons_of_none]
      exact .absent none (ih others)
    · rw [List.reduceOption_cons_of_some]
      exact .present here good below (ih others)

namespace Built

variable {families : List ℕ} {tables : List FamilyTable}

/-- Each table is a family's. -/
theorem exists_of_mem (built : Built claims families tables) {table : FamilyTable}
    (member : table ∈ tables) : ∃ height, table.family ∈ families ∧
      Rows height (rowsOf claims table.family) ∧
      (∀ row ∈ rowsOf claims table.family, row.1 + 1 < height) ∧
      table = Rows.table table.family height (rowsOf claims table.family) := by
  induction built with
  | nil => exact absurd member List.not_mem_nil
  | absent none others ih =>
    obtain ⟨height, inside, rest⟩ := ih member
    exact ⟨height, List.mem_cons_of_mem _ inside, rest⟩
  | present known good below others ih =>
    rcases List.mem_cons.mp member with rfl | later
    · exact ⟨_, List.mem_cons_self, good, below, rfl⟩
    · obtain ⟨height, inside, rest⟩ := ih later
      exact ⟨height, List.mem_cons_of_mem _ inside, rest⟩

theorem sublist (built : Built claims families tables) :
    (tables.map FamilyTable.family).Sublist families := by
  induction built with
  | nil => exact List.Sublist.refl []
  | absent none others ih => exact ih.cons _
  | present known good below others ih => exact ih.cons_cons _

/-- A family with a claim has its table. -/
theorem exists_table (built : Built claims families tables) {claim : ℕ × Claim}
    (member : claim ∈ claims) (known : claim.1 ∈ families) :
    ∃ table ∈ tables, table.family = claim.1 := by
  have row : claim.2 ∈ rowsOf claims claim.1 := mem_rowsOf.mpr member
  induction built with
  | nil => exact absurd known List.not_mem_nil
  | absent none others ih =>
    rcases List.mem_cons.mp known with here | later
    · rw [here, none] at row
      exact absurd row List.not_mem_nil
    · exact ih later
  | present known' good below others ih =>
    rcases List.mem_cons.mp known with here | later
    · exact ⟨_, List.mem_cons_self, here.symm⟩
    · obtain ⟨table, inside, same⟩ := ih later
      exact ⟨table, List.mem_cons_of_mem _ inside, same⟩

/-- Whether a table is live at a row, read off the claims. -/
theorem isLive_eq (built : Built claims families tables) {table : FamilyTable}
    (member : table ∈ tables) (row : ℕ) :
    table.isLive row =
      .ok (decide (∃ claim ∈ claims, claim.1 = table.family ∧ claim.2.1 = row)) := by
  obtain ⟨height, -, good, -, same⟩ := built.exists_of_mem member
  rw [same, good.isLive_table]
  congr 1
  rw [decide_eq_decide, List.mem_map]
  constructor
  · rintro ⟨claim, inside, at_⟩
    exact ⟨_, mem_rowsOf.mp inside, rfl, at_⟩
  · rintro ⟨⟨family, claim⟩, inside, rfl, at_⟩
    exact ⟨claim, mem_rowsOf.mpr inside, at_⟩

end Built

end Families

/-! ## The finished tables are a partition -/

section Partition

/-- A filter whose test never fails. -/
theorem filterM_value {α : Type} {test : α → Attempt Bool} {value : α → Bool} {list : List α}
    (each : ∀ entry ∈ list, test entry = .ok (value entry)) :
    list.filterM test = .ok (list.filter value) := by
  have loop (acc : List α) :
      list.filterAuxM test acc = .ok ((list.filter value).reverse ++ acc) := by
    induction list generalizing acc with
    | nil => rfl
    | cons entry list ih =>
      obtain ⟨first, others⟩ := List.forall_mem_cons.mp each
      rw [List.filterAuxM, first]
      change list.filterAuxM test (cond (value entry) (entry :: acc) acc) = _
      rw [ih others]
      cases kept : value entry with
      | true => simp [kept]
      | false => simp [kept]
  rw [List.filterM, loop]
  change Except.ok ((list.filter value).reverse ++ []).reverse = _
  rw [List.append_nil, List.reverse_reverse]

/-- The table that claims a row owns it alone. -/
theorem length_filter_owner {tables : List FamilyTable} {owner : FamilyTable}
    (distinct : (tables.map FamilyTable.family).Nodup) (member : owner ∈ tables)
    {live : FamilyTable → Bool}
    (only : ∀ table ∈ tables, live table = true ↔ table.family = owner.family) :
    tables.filter live = [owner] := by
  induction tables with
  | nil => exact absurd member List.not_mem_nil
  | cons table tables ih =>
    obtain ⟨apart, distinct⟩ := List.nodup_cons.mp distinct
    obtain ⟨here, others⟩ := List.forall_mem_cons.mp only
    rcases List.mem_cons.mp member with rfl | later
    · rw [List.filter_cons_of_pos (here.mpr rfl), List.filter_eq_nil_iff.mpr]
      intro other inside lives
      exact apart (List.mem_map.mpr ⟨other, inside, (others other inside).mp lives⟩)
    · have dead : ¬live table = true := fun lives =>
      apart (List.mem_map.mpr ⟨owner, later, (here.mp lives).symm⟩)
      rw [List.filter_cons_of_neg dead, ih distinct later others]

/-- A row has at most one claim. -/
theorem claim_unique {claims : List (ℕ × Claim)}
    (ascending : (claims.map fun claim => claim.2.1).Pairwise (· < ·)) {claim other : ℕ × Claim}
    (member : claim ∈ claims) (inside : other ∈ claims) (same : claim.2.1 = other.2.1) :
    claim = other :=
  List.inj_on_of_nodup_map (ascending.imp fun less => less.ne) member inside same

/-- Every claim is its own family's. -/
theorem sum_length_rowsOf {families : List ℕ} {claims : List (ℕ × Claim)}
    (distinct : families.Nodup) (known : ∀ claim ∈ claims, claim.1 ∈ families) :
    (families.map fun family => (rowsOf claims family).length).sum = claims.length := by
  induction claims with
  | nil =>
    rw [List.sum_eq_zero fun n member => ?_]
    · rfl
    · obtain ⟨family, -, rfl⟩ := List.mem_map.mp member
      rfl
  | cons claim claims ih =>
    obtain ⟨here, others⟩ := List.forall_mem_cons.mp known
    have split (family : ℕ) : (rowsOf (claim :: claims) family).length =
        (if family = claim.1 then 1 else 0) + (rowsOf claims family).length := by
      rw [rowsOf, rowsOf, List.length_map, List.length_map, List.filter_cons]
      by_cases same : claim.1 = family
      · simp [same, Nat.add_comm]
      · simp [same, Ne.symm same]
    have once : (families.map fun family => if family = claim.1 then 1 else 0).sum = 1 := by
      rw [List.sum_map_eq_nsmul_single claim.1 _ fun other apart _ => if_neg apart,
        List.count_eq_one_of_mem distinct here, if_pos rfl]
      rfl
    simp only [split]
    rw [List.sum_map_add, once, ih others, List.length_cons, Nat.add_comm]

namespace Built

variable {claims : List (ℕ × Claim)} {families : List ℕ} {tables : List FamilyTable}

/-- The live rows of a table are its family's claims. -/
theorem live_rows (built : Built claims families tables)
    (ascending : (claims.map fun claim => claim.2.1).Pairwise (· < ·)) {table : FamilyTable}
    (member : table ∈ tables) : ∃ rows,
      (List.range table.height).filterM (fun row => table.isLive row) = .ok rows ∧
        rows.length = (rowsOf claims table.family).length := by
  obtain ⟨height, -, good, -, same⟩ := built.exists_of_mem member
  generalize table.family = family at good same
  subst same
  have apart := (ascending_rowsOf ascending family).imp fun {a b} (less : a < b) => less.ne
  refine ⟨_, filterM_value fun row _ => good.isLive_table row, ?_⟩
  have counted : ((rowsOf claims family).map Prod.fst).length = (rowsOf claims family).length :=
    List.length_map _
  rw [← counted]
  refine List.Perm.length_eq ((List.perm_ext_iff_of_nodup (List.nodup_range.filter _) apart).mpr ?_)
  intro row
  rw [List.mem_filter, List.mem_range, decide_eq_true_eq]
  refine ⟨fun both => both.2, fun inside => ⟨?_, inside⟩⟩
  obtain ⟨claim, found, rfl⟩ := List.mem_map.mp inside
  exact good.inside claim found

/-- As many rows live as there are claims. -/
theorem live_total (built : Built claims families tables)
    (ascending : (claims.map fun claim => claim.2.1).Pairwise (· < ·))
    (distinct : families.Nodup) (known : ∀ claim ∈ claims, claim.1 ∈ families) :
    ∃ live, tables.mapM (fun table => (List.range table.height).filterM fun row =>
        table.isLive row) = .ok live ∧ (live.map List.length).sum = claims.length := by
  have each : ∃ live, tables.mapM (fun table => (List.range table.height).filterM fun row =>
        table.isLive row) = .ok live ∧ (live.map List.length).sum =
          (families.map fun family => (rowsOf claims family).length).sum := by
    have rows : ∀ table ∈ tables, ∃ rows,
        (List.range table.height).filterM (fun row => table.isLive row) = .ok rows ∧
          rows.length = (rowsOf claims table.family).length :=
      fun table member => built.live_rows ascending member
    clear distinct known
    induction built with
    | nil => exact ⟨[], rfl, rfl⟩
    | absent none others ih =>
      obtain ⟨live, passed, total⟩ := ih rows
      refine ⟨live, passed, ?_⟩
      rw [total, List.map_cons, List.sum_cons, none, List.length_nil, Nat.zero_add]
    | present known good below others ih =>
      obtain ⟨first, later⟩ := List.forall_mem_cons.mp rows
      obtain ⟨live, passed, total⟩ := ih later
      obtain ⟨here, filtered, counted⟩ := first
      refine ⟨here :: live, ?_, ?_⟩
      · rw [List.mapM_cons, filtered, passed]
        rfl
      · rw [List.map_cons, List.sum_cons, total, counted, List.map_cons, List.sum_cons]
        rfl
  obtain ⟨live, passed, total⟩ := each
  exact ⟨live, passed, total.trans (sum_length_rowsOf distinct known)⟩

end Built

end Partition

/-! ## Derivation ends -/

section Derivation

variable {image : ProgramImage} {params : ProgramParams} {detached : List ℕ}

theorem mem_families : ∀ family ∈ families, family < Family.count := by decide

theorem nodup_families : families.Nodup := by decide

/-- A record found, or a refusal. -/
theorem recordAt_ends {segment : Segment} {found : List ℕ} {place : ℕ}
    (inside : place < segment.bytes.length - (markerBytes - 1)) :
    Ends Refused (fun _ => True) (recordAt segment found place) := by
  have room : place + markerBytes ≤ segment.bytes.length := by
    rw [markerBytes] at inside ⊢
    omega
  rw [recordAt, ensure_ok room]
  change Ends Refused (fun _ => True) (if (segment.bytes.drop place).take 8 ≠ markerMagic then
      .ok found else _)
  by_cases other : (segment.bytes.drop place).take 8 ≠ markerMagic
  · rw [if_pos other]
    trivial
  · rw [if_neg other]
    cases delegationFamily (Math.leValue ((segment.bytes.drop (place + 8)).take 4)) with
    | none => exact refuse_ends _
    | some family => trivial

theorem declaredDelegations_ends : Ends Refused (fun _ => True) (declaredDelegations image) := by
  rw [declaredDelegations]
  have scanned (segments : List Segment) : Ends Refused (fun _ => True)
      (segments.foldlM (fun found segment =>
        (List.range (segment.bytes.length - (markerBytes - 1))).foldlM (recordAt segment) found)
        []) := by
    refine Ends.foldlM trivial fun found _ segment _ => ?_
    exact Ends.foldlM trivial fun found _ place member => recordAt_ends (List.mem_range.mp member)
  exact (scanned _).bind fun _ _ => trivial

theorem heightRule_ends {family : ℕ} (known : family < Family.count) :
    Ends Refused (fun _ => True) (heightRule params family) := by
  obtain ⟨height, sized⟩ := exists_heightOf params known
  rw [heightRule, sized]
  change Ends Refused (fun _ => True) (if height ∈ Family.heightMenu then .ok ()
    else refuse (.heightNotOnMenu family height))
  by_cases offered : height ∈ Family.heightMenu
  · rw [if_pos offered]
    trivial
  · rw [if_neg offered]
    exact refuse_ends _

theorem sizeRule_ends : Ends Refused (fun _ => True) (sizeRule image params) := by
  rw [sizeRule]
  split
  · exact refuse_ends _
  · trivial

theorem windowRules_ends {config : VmConfig} :
    Ends Refused (fun _ => True) (windowRules image config) := by
  rw [windowRules]
  cases windowHeight config with
  | error rule => exact refuse_ends _
  | ok height =>
    dsimp only
    cases fileBytesEnd image with
    | none => trivial
    | some last =>
      dsimp only
      split
      · exact refuse_ends _
      · trivial

theorem place_lt_eight {family k place : ℕ} (column : (lookupTuple family)[k]? = some place) :
    place < 8 := by
  have all : ∀ place ∈ lookupTuple family, place < 8 := by
    rw [lookupTuple]
    split
    · decide
    · split
      · decide
      · exact fun place member => absurd member List.not_mem_nil
  exact all place (List.mem_of_getElem? column)

theorem mem_families_of_claim {claim : ℕ × Claim} (member : claim ∈ claimsOf image) :
    claim.1 ∈ families := by
  obtain ⟨i, word, compressed, instr, -, -, rfl⟩ := mem_claimsOf.mp member
  obtain ⟨known, -⟩ := rowKind_lt instr
  change (rowKind instr).1 ∈ families
  interval_cases (rowKind instr).1 <;> decide

/-- Every instruction slot is owned, in the finished tables. -/
theorem slotOwned_ok (formed : image.WellFormed) {tables : List FamilyTable}
    (built : Built (claimsOf image) families tables)
    (claims : ∀ entry ∈ image.slots.zipIdx, entry.1.isInstruction →
      (claimed image.slotBase entry).isSome) {entry : Slot × ℕ}
    (member : entry ∈ image.slots.zipIdx) :
    slotOwned image.slotBase tables entry = .ok () := by
  obtain ⟨slot, i⟩ := entry
  have found := List.mk_mem_zipIdx_iff_getElem?.mp member
  cases slot with
  | midInstruction => rfl
  | nonInstruction => rfl
  | instruction word compressed =>
    obtain ⟨claim, value⟩ := Option.isSome_iff_exists.mp (claims _ member rfl)
    obtain ⟨word', compressed', instr, same, decoded, rfl⟩ := claimed_eq_some.mp value
    cases same
    have inside : claimAt image.slotBase i instr compressed ∈ claimsOf image :=
      mem_claimsOf.mpr ⟨i, word, compressed, instr, found, decoded, rfl⟩
    obtain ⟨known, -⟩ := rowKind_lt instr
    obtain ⟨owner, held, owns⟩ := built.exists_table inside (mem_families_of_claim inside)
    have alone : tables.filter (fun table => decide (∃ claim ∈ claimsOf image,
        claim.1 = table.family ∧ claim.2.1 = image.slotBase.toNat / 2 + i)) = [owner] := by
      refine length_filter_owner (built.sublist.nodup nodup_families) held fun table _ => ?_
      rw [decide_eq_true_eq, owns]
      constructor
      · rintro ⟨other, listed, family, row⟩
        rw [← family, claim_unique claimsOf_ascending listed inside row]
      · intro family
        exact ⟨_, inside, family.symm, rfl⟩
    have bound := slot_inside formed found
    have even := even_slotBase formed
    have small : 2 * (image.slotBase.toNat / 2 + i) < 2 ^ 32 := by
      have := Nat.le_add_right (image.slotBase.toNat + 2 * i) (if compressed then 2 else 4)
      omega
    have pc : owner.get 0 (image.slotBase.toNat / 2 + i) =
        .ok (some (BitVec.ofNat 32 (2 * (image.slotBase.toNat / 2 + i)))) := by
      obtain ⟨height, -, good, -, shape⟩ := built.exists_of_mem held
      have first : (lookupTuple owner.family)[0]? = some 0 := by
        rw [owns]
        change (lookupTuple (rowKind instr).1)[0]? = some 0
        interval_cases (rowKind instr).1 <;> rfl
      have row : (claimAt image.slotBase i instr compressed).2 ∈
          rowsOf (claimsOf image) owner.family := by
        rw [owns]
        exact mem_rowsOf.mpr inside
      rw [shape]
      have live := List.mem_map_of_mem (f := Prod.fst) row
      refine (good.get_live live first).trans ?_
      rw [good.column_at row (by norm_num)]
      rw [show 2 * (image.slotBase.toNat / 2 + i) = image.slotBase.toNat + 2 * i by omega]
      rfl
    unfold slotOwned
    dsimp only
    rw [filterM_value fun table held => built.isLive_eq held _, alone]
    change (do
      let pc ← owner.get 0 (image.slotBase.toNat / 2 + i)
      ensure (2 * (image.slotBase.toNat / 2 + i) < 2 ^ 32)
      ensure (pc = some (BitVec.ofNat 32 (2 * (image.slotBase.toNat / 2 + i))))) = .ok ()
    rw [pc]
    change (do
      ensure (2 * (image.slotBase.toNat / 2 + i) < 2 ^ 32)
      ensure (some (BitVec.ofNat 32 (2 * (image.slotBase.toNat / 2 + i))) =
        some (BitVec.ofNat 32 (2 * (image.slotBase.toNat / 2 + i))))) = .ok ()
    exact then_ok.mpr ⟨ensure_ok small, ensure_ok rfl⟩

theorem checkPartition_ok (formed : image.WellFormed) {tables : List FamilyTable}
    (built : Built (claimsOf image) families tables)
    (claims : ∀ entry ∈ image.slots.zipIdx, entry.1.isInstruction →
      (claimed image.slotBase entry).isSome) :
    checkPartition image tables = .ok () := by
  obtain ⟨live, passed, total⟩ := built.live_total claimsOf_ascending nodup_families
    fun claim member => mem_families_of_claim member
  rw [checkPartition]
  refine then_ok.mpr ⟨forM_ok.mpr fun entry member => slotOwned_ok formed built claims member, ?_⟩
  rw [passed]
  exact ensure_ok (total.trans (length_claimsOf claims))

theorem entries_end (image : ProgramImage) (params : ProgramParams) (detached declared : List ℕ) :
    Ends Refused (List.Forall₂ (Turn (claimsOf image)) families)
      (families.mapM (familyEntry params detached declared (claimsOf image))) := by
  have eight : ∀ claim ∈ claimsOf image, claim.2.2.length = 8 := fun claim member => by
    obtain ⟨i, word, compressed, instr, -, -, rfl⟩ := mem_claimsOf.mp member
    rfl
  exact Ends.mapM fun family member =>
    familyEntry_ends (mem_families family member) claimsOf_ascending eight

/-- Derivation never panics on a valid image, and its tables are the claims'. -/
theorem decodeProgramDetaching_ends (formed : image.WellFormed) (params : ProgramParams)
    (detached : List ℕ) :
    Ends Refused (fun derived => Built (claimsOf image) families derived.1.families ∧
        ∀ entry ∈ image.slots.zipIdx, entry.1.isInstruction → (claimed image.slotBase entry).isSome)
      (decodeProgramDetaching image params detached) := by
  rw [decodeProgramDetaching]
  by_cases version : params.codeVersion ≠ codeVersion
  · rw [if_pos version]
    exact refuse_ends _
  rw [if_neg version]
  refine (Ends.forM fun family member => heightRule_ends (mem_families family member)).bind
    fun _ _ => ?_
  refine sizeRule_ends.bind fun _ _ => ?_
  refine (claims_ends formed).bind fun claims both => ?_
  obtain ⟨same, each⟩ := both
  refine declaredDelegations_ends.bind fun declared _ => ?_
  rw [same]
  refine (entries_end image params detached declared).bind fun entries turns => ?_
  have built := built_of_turns mem_families turns
  dsimp only
  refine windowRules_ends.bind fun _ _ => ?_
  rw [checkPartition_ok formed built each]
  exact ⟨built, each⟩

end Derivation

/-! ## A faithful partition -/

/-- The address of the halfword a pc lies in. -/
def halfword (pc : BitVec 32) : BitVec 32 := BitVec.ofNat 32 (2 * (pc.toNat / 2))

/-- Tables that hold each instruction of an image once, at its pc, and nothing else. -/
structure Partition (image : ProgramImage) (tables : List FamilyTable) : Prop where
  distinct : (tables.map FamilyTable.family).Nodup
  /-- At most one table is live at a pc. -/
  once : ∀ (pc : BitVec 32), ∀ table ∈ tables, ∀ other ∈ tables,
    table.isLive (pc.toNat / 2) = .ok true → other.isLive (pc.toNat / 2) = .ok true →
      table = other
  /-- One is exactly where an instruction starts. -/
  live : ∀ pc : BitVec 32, (∃ table ∈ tables, table.isLive (pc.toNat / 2) = .ok true) ↔
    ∃ word compressed, image.slotAt (halfword pc) = some (.instruction word compressed)
  /-- Its row is the tuple of the instruction that starts there. -/
  row : ∀ (pc : BitVec 32), ∀ table ∈ tables, table.isLive (pc.toNat / 2) = .ok true →
    ∃ word compressed instr, image.slotAt (halfword pc) = some (.instruction word compressed) ∧
      Isa.decode word = .ok instr ∧ table.family = (rowKind instr).1 ∧
      table.columns.map Prod.fst = lookupTuple table.family ∧
      (List.range table.columns.length).mapM (fun k => table.get k (pc.toNat / 2)) =
        .ok ((decodedTuple instr (halfword pc) compressed).map some)
  /-- A column's polynomial is its entries on live rows and minus one on the others, the last
  among them. -/
  padding : ∀ table ∈ tables, ∀ k < table.columns.length, ∃ values,
    table.columnPoly k = .ok values ∧ values.length = table.height ∧
      ∀ row < table.height, (∃ value, table.get k row = .ok (some value) ∧
          values[row]? = some (value.toNat : Fr)) ∧ table.isLive row = .ok true ∨
        table.isLive row = .ok false ∧ values[row]? = some (-1)
  last : ∀ table ∈ tables, ∀ row, table.height ≤ row + 1 → table.isLive row = .ok false

section Faithful

variable {image : ProgramImage}

/-- The slot at a row's address. -/
theorem slotAt_halfword (formed : image.WellFormed) {pc : BitVec 32} {i : ℕ}
    (row : image.slotBase.toNat / 2 + i = pc.toNat / 2) :
    image.slotAt (halfword pc) = image.slots[i]? := by
  have even := even_slotBase formed
  have value : (halfword pc).toNat = 2 * (pc.toNat / 2) := by
    rw [halfword, BitVec.toNat_ofNat, Nat.mod_eq_of_lt]
    have := pc.isLt
    omega
  rw [ProgramImage.slotAt, value, if_neg (by omega)]
  congr 1
  omega

theorem exists_slot (formed : image.WellFormed) {pc : BitVec 32} {slot : Slot}
    (found : image.slotAt (halfword pc) = some slot) :
    ∃ i, image.slotBase.toNat / 2 + i = pc.toNat / 2 ∧ image.slots[i]? = some slot := by
  have even := even_slotBase formed
  have value : (halfword pc).toNat = 2 * (pc.toNat / 2) := by
    rw [halfword, BitVec.toNat_ofNat, Nat.mod_eq_of_lt]
    have := pc.isLt
    omega
  rw [ProgramImage.slotAt, value] at found
  by_cases outside : 2 * (pc.toNat / 2) % 2 ≠ 0 ∨ 2 * (pc.toNat / 2) < image.slotBase.toNat
  · rw [if_pos outside] at found
    cases found
  · rw [if_neg outside] at found
    exact ⟨_, by omega, found⟩

theorem Built.partition (formed : image.WellFormed) {tables : List FamilyTable}
    (built : Built (claimsOf image) families tables)
    (claims : ∀ entry ∈ image.slots.zipIdx, entry.1.isInstruction →
      (claimed image.slotBase entry).isSome) : Partition image tables := by
  have distinct := built.sublist.nodup nodup_families
  have lives {table : FamilyTable} (member : table ∈ tables) {row : ℕ}
      (live : table.isLive row = .ok true) :
      ∃ claim ∈ claimsOf image, claim.1 = table.family ∧ claim.2.1 = row := by
    rw [built.isLive_eq member] at live
    exact of_decide_eq_true (Except.ok.inj live)
  refine ⟨distinct, ?_, ?_, ?_, ?_, ?_⟩
  · intro pc table member other inside first second
    obtain ⟨claim, listed, family, row⟩ := lives member first
    obtain ⟨claim', listed', family', row'⟩ := lives inside second
    have same := claim_unique claimsOf_ascending listed listed' (row.trans row'.symm)
    exact List.inj_on_of_nodup_map distinct member inside
      (family.symm.trans ((congrArg Prod.fst same).trans family'))
  · intro pc
    constructor
    · rintro ⟨table, member, live⟩
      obtain ⟨claim, listed, -, row⟩ := lives member live
      obtain ⟨i, word, compressed, instr, found, -, rfl⟩ := mem_claimsOf.mp listed
      exact ⟨word, compressed, (slotAt_halfword formed row).trans found⟩
    · rintro ⟨word, compressed, found⟩
      obtain ⟨i, row, listed⟩ := exists_slot formed found
      have member := List.mk_mem_zipIdx_iff_getElem?.mpr listed
      obtain ⟨claim, value⟩ := Option.isSome_iff_exists.mp (claims _ member rfl)
      obtain ⟨word', compressed', instr, same, decoded, rfl⟩ := claimed_eq_some.mp value
      cases same
      have inside : claimAt image.slotBase i instr compressed ∈ claimsOf image :=
        mem_claimsOf.mpr ⟨i, word, compressed, instr, listed, decoded, rfl⟩
      obtain ⟨owner, held, owns⟩ := built.exists_table inside (mem_families_of_claim inside)
      refine ⟨owner, held, ?_⟩
      rw [built.isLive_eq held, decide_eq_true ⟨_, inside, owns.symm, row⟩]
  · intro pc table member live
    obtain ⟨claim, listed, family, row⟩ := lives member live
    obtain ⟨i, word, compressed, instr, found, decoded, rfl⟩ := mem_claimsOf.mp listed
    obtain ⟨height, -, good, -, shape⟩ := built.exists_of_mem member
    have owns : (rowKind instr).1 = table.family := family
    have address : BitVec.ofNat 32 (image.slotBase.toNat + 2 * i) = halfword pc := by
      have even := even_slotBase formed
      have at_ : image.slotBase.toNat / 2 + i = pc.toNat / 2 := row
      rw [halfword, ← at_]
      congr 1
      omega
    have names : table.columns.map Prod.fst = lookupTuple table.family := by
      rw [shape]
      change List.map _ (List.map _ _) = lookupTuple table.family
      rw [List.map_map]
      exact List.map_id _
    have length : table.columns.length = (lookupTuple table.family).length := by
      rw [← names, List.length_map]
    refine ⟨word, compressed, instr, (slotAt_halfword formed row).trans found, decoded,
      family.symm, names, ?_⟩
    have each : ∀ k ∈ List.range table.columns.length, table.get k (pc.toNat / 2) =
        .ok ((decodedTuple instr (halfword pc) compressed)[k]?) := by
      intro k inside
      rw [List.mem_range, length] at inside
      have place := List.getElem?_eq_getElem inside
      have claimedRow : (claimAt image.slotBase i instr compressed).2 ∈
          rowsOf (claimsOf image) table.family := by
        rw [← family]
        exact mem_rowsOf.mpr listed
      have entry := good.get_live (List.mem_map_of_mem claimedRow) place
      rw [← shape, good.column_at claimedRow (place_lt_eight place)] at entry
      rw [← row, entry]
      have few := place_lt_eight place
      congr 1
      rw [decodedTuple, List.getElem?_map, ← address]
      rw [owns, place, Option.map_some]
      rw [List.getD_eq_getElem?_getD]
      have wide : (lookupTuple table.family)[k] <
          (rowValues instr (BitVec.ofNat 32 (image.slotBase.toNat + 2 * i))
            compressed).length := few
      change (rowValues instr _ compressed)[_]? = _
      rw [List.getElem?_eq_getElem wide, Option.getD_some]
    rw [mapM_value each]
    congr 1
    have tuple : table.columns.length = (decodedTuple instr (halfword pc) compressed).length := by
      rw [length, decodedTuple, List.length_map, owns]
    rw [tuple]
    exact List.ext_getElem (by simp) fun k left right => by simp
  · intro table member k inside
    obtain ⟨height, -, good, -, shape⟩ := built.exists_of_mem member
    generalize table.family = family at good shape
    subst shape
    have few : k < (lookupTuple family).length := by
      rwa [Rows.table, List.length_map] at inside
    have stored := List.getElem?_eq_getElem few
    refine ⟨_, good.columnPoly_table stored, ?_, fun row below => ?_⟩
    · rw [List.length_map, List.length_range]
      rfl
    have within : row < height := below
    have found (value : ℕ → Fr) : ((List.range height).map value)[row]? = some (value row) := by
      rw [List.getElem?_map, List.getElem?_range within]
      rfl
    rw [good.isLive_table, found]
    by_cases live : row ∈ (rowsOf (claimsOf image) family).map Prod.fst
    · have wide : row < (Rows.column height (rowsOf (claimsOf image) family)
          (lookupTuple family)[k]).length := by
        rw [Rows.length_column]
        exact within
      refine .inl ⟨⟨(Rows.column height (rowsOf (claimsOf image) family)
        (lookupTuple family)[k])[row], ?_, ?_⟩, ?_⟩
      · rw [good.get_live live stored, List.getElem?_eq_getElem wide]
      · rw [if_pos live, List.getD_eq_getElem _ _ wide]
      · rw [decide_eq_true live]
    · refine .inr ⟨?_, ?_⟩
      · rw [decide_eq_false live]
      · rw [if_neg live]
  · intro table member row beyond
    rw [built.isLive_eq member, decide_eq_false]
    rintro ⟨⟨family, claim⟩, listed, rfl, rfl⟩
    obtain ⟨height, -, good, below, shape⟩ := built.exists_of_mem member
    have less := below claim (mem_rowsOf.mpr listed)
    rw [shape] at beyond
    exact absurd less (not_lt.mpr beyond)

end Faithful

/-- Derivation never panics on an image that validates. The tables it gives hold each
instruction of the image once, at the row of its pc, and a family with its tuple is one
instruction, up to an atomic's ordering bits and a fence's fields. -/
theorem decoded_tables_partition (image : ProgramImage) (params : ProgramParams)
    (valid : image.validate = .ok ()) : decodeProgram image params ≠ .error .panic ∧
      (∀ tables config, decodeProgram image params = .ok (tables, config) →
        Partition image tables.families) ∧
      ∀ (instr other : Instr) (pc pc' : BitVec 32) (compressed compressed' : Bool),
        (rowKind instr).1 = (rowKind other).1 →
          decodedTuple instr pc compressed = decodedTuple other pc' compressed' →
            erase instr = erase other := by
  have formed := ProgramImage.validate_ok.mp valid
  have ends := decodeProgramDetaching_ends formed params []
  refine ⟨fun panicked => ?_, fun tables config derived => ?_,
    fun instr other pc pc' compressed compressed' family tuple => erase_eq family tuple⟩
  · rw [decodeProgram] at panicked
    rw [panicked] at ends
    exact ends rfl
  · obtain ⟨built, claims⟩ := ends.of_ok derived
    exact built.partition formed claims

/-- One `ecall` at the bottom of memory. -/
def ecallImage : ProgramImage :=
  ⟨0x10000, [⟨0x10000, 4, [0x73, 0, 0, 0]⟩], 0x10000,
    [.instruction 0x73 false, .midInstruction]⟩

/-- Every family at one height. -/
def uniformParams : ProgramParams := ⟨1, List.replicate Family.count (2 ^ 16), 0, rfl⟩

theorem ecallImage_valid : ecallImage.validate = .ok () := by decide

/-- The heights `uniformParams` gives. -/
def uniformHeight (family : ℕ) : ℕ :=
  if family = Family.publicInput ∨ family = Family.publicOutput then 2 ^ 12 else 2 ^ 16

/-- What a family has in the tables of `ecallImage`. -/
def ecallEntry (family : ℕ) : Option FamilyTable :=
  if (rowsOf (claimsOf ecallImage) family).isEmpty && !always [] [] family then none
  else some (Rows.table family (uniformHeight family) (rowsOf (claimsOf ecallImage) family))

theorem ecallImage_derives :
    ∃ tables config, decodeProgram ecallImage uniformParams = .ok (tables, config) := by
  have formed := ProgramImage.validate_ok.mp ecallImage_valid
  have claims : ecallImage.slots.zipIdx.mapM (claimOf ecallImage.slotBase []) =
      .ok [some (claimAt 0x10000 0 .ecall false), none] := rfl
  have listed : claimsOf ecallImage = [claimAt 0x10000 0 .ecall false] := rfl
  have sized : ∀ family ∈ families,
      heightOf family uniformParams = .ok (uniformHeight family) := by decide
  have rows : ∀ family, ∀ row ∈ rowsOf (claimsOf ecallImage) family,
      row.1 + 1 < uniformHeight family ∧ row.2.length = 8 := by
    intro family row member
    rw [mem_rowsOf, listed, List.mem_singleton] at member
    obtain ⟨rfl, rfl⟩ := Prod.mk.inj member
    refine ⟨?_, rfl⟩
    rw [uniformHeight, if_neg (by decide)]
    change 65536 / 2 + 0 + 1 < 2 ^ 16
    norm_num
  have good (family : ℕ) : Rows (uniformHeight family) (rowsOf (claimsOf ecallImage) family) :=
    ⟨ascending_rowsOf claimsOf_ascending family,
      fun row inside => (Nat.lt_succ_self _).trans (rows family row inside).1,
      fun row inside => (rows family row inside).2⟩
  have entries : families.mapM (familyEntry uniformParams [] [] (claimsOf ecallImage)) =
      .ok (families.map ecallEntry) :=
    mapM_value fun family member => familyEntry_ok (mem_families family member)
      (sized family member) (good family) fun row inside => (rows family row inside).1
  have built : Built (claimsOf ecallImage) families (families.map ecallEntry).reduceOption :=
    built_of_turns mem_families (Ends.of_ok (entries_end _ _ _ _) entries)
  have each : ∀ entry ∈ ecallImage.slots.zipIdx, entry.1.isInstruction →
      (claimed ecallImage.slotBase entry).isSome := by decide
  have heights : families.forM (heightRule uniformParams) = .ok () := rfl
  have fits : sizeRule ecallImage uniformParams = .ok () := by decide +kernel
  have declared : declaredDelegations ecallImage = .ok [] := rfl
  have config : (families.map ecallEntry).reduceOption.map (fun table =>
      (table.family, table.height)) = [(0, 2 ^ 16), (7, 2 ^ 16), (8, 2 ^ 16), (12, 2 ^ 12),
        (13, 2 ^ 12), (14, 2 ^ 16)] := by
    have each (family : ℕ) : (ecallEntry family).map (fun table => (table.family, table.height)) =
        if (rowsOf (claimsOf ecallImage) family).isEmpty && !always [] [] family then none
        else some (family, uniformHeight family) := by
      rw [ecallEntry]
      split <;> rfl
    rw [← List.reduceOption_map, List.map_map]
    simp only [Function.comp_def, each]
    rfl
  have windows : windowRules ecallImage ⟨(families.map ecallEntry).reduceOption.map
      fun table => (table.family, table.height), 1⟩ = .ok () := by
    rw [config]
    rfl
  rw [decodeProgram, decodeProgramDetaching, if_neg (by decide)]
  refine ⟨_, _, bind_ok.mpr ⟨(), heights, bind_ok.mpr ⟨(), fits, bind_ok.mpr ⟨_, claims,
    bind_ok.mpr ⟨_, declared, bind_ok.mpr ⟨_, entries, bind_ok.mpr ⟨(), windows, bind_ok.mpr
      ⟨(), checkPartition_ok formed built each, rfl⟩⟩⟩⟩⟩⟩⟩⟩

theorem decoded_tables_partition_ecall : ∃ tables config,
    decodeProgram ecallImage uniformParams = .ok (tables, config) ∧
      Partition ecallImage tables.families := by
  obtain ⟨tables, config, derived⟩ := ecallImage_derives
  have all := decoded_tables_partition ecallImage uniformParams ecallImage_valid
  exact ⟨tables, config, derived, all.2.1 tables config derived⟩

end Apogee.Program
