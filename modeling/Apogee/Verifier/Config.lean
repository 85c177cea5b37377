import Apogee.Constants
import Apogee.Math.Codec
import Mathlib.Data.List.Perm.Subperm

/-! # The static shape

The families a program needs and their heights, its wire form, and the one height
the window families share. What the decoder accepts is exactly what the encoder
writes of the configs derivation can produce.
-/

namespace Apogee

open Apogee.Math

/-- The static shape a program derives. -/
structure VmConfig where
  /-- Family and height, strictly ascending by family. -/
  families : List (ℕ × ℕ)
  bytecodeSizeWords : ℕ
deriving DecidableEq, Repr

namespace VmConfig

/-- The height of a family, if it is attached. -/
def height (config : VmConfig) (family : ℕ) : Option ℕ :=
  (config.families.find? fun entry => entry.1 == family).map Prod.snd

/-- The bytes of one family's entry. -/
def entryBytes (entry : ℕ × ℕ) : List UInt8 := leBytes 4 entry.1 ++ leBytes 4 entry.2

/-- The wire form. -/
def toBytes (config : VmConfig) : List UInt8 :=
  leBytes 4 config.families.length ++ config.families.flatMap entryBytes ++
    leBytes 4 config.bytecodeSizeWords

end VmConfig

/-- The one height of the three window families. -/
def windowFamiliesHeight (config : VmConfig) : Except String ℕ :=
  match config.height Family.initTeardown, config.height Family.zeroWindows,
      config.height Family.adviceWindows with
  | some init, some zeroes, some advice =>
    if init = zeroes ∧ init = advice then .ok init
    else .error "INIT_TEARDOWN, ZERO_WINDOWS and ADVICE_WINDOWS have one height"
  | _, _, _ => .error "INIT_TEARDOWN, ZERO_WINDOWS and ADVICE_WINDOWS are in every VmConfig"

/-- The pinned height of the two public value families. -/
def publicFamiliesHeight (config : VmConfig) : Except String Unit :=
  match config.height Family.publicInput, config.height Family.publicOutput with
  | some input, some output =>
    if input = Family.publicWindowHeight ∧ output = Family.publicWindowHeight then .ok ()
    else .error "the public value families are at family::PUBLIC_WINDOW_HEIGHT"
  | _, _ => .error "PUBLIC_INPUT and PUBLIC_OUTPUT are in every VmConfig"

/-- The window families' height, or the rule a config breaks. -/
def windowHeight (config : VmConfig) : Except String ℕ := do
  let height ← windowFamiliesHeight config
  publicFamiliesHeight config
  if 4 * height < GuestMemory.publicOutputOrigin + GuestMemory.publicWindowBytes then
    .error "the window height puts a public window outside RAM window 0"
  else .ok height

namespace VmConfig

/-- The `i`-th word of a byte string, if it has one. -/
def wordAt (bytes : List UInt8) (i : ℕ) : Option ℕ :=
  if 4 * i + 4 ≤ bytes.length then some (leValue ((bytes.drop (4 * i)).take 4)) else none

/-- Whether a family may follow the ones already read. -/
def follows (families : List (ℕ × ℕ)) (family : ℕ) : Bool :=
  match families.getLast? with
  | some previous => previous.1 < family
  | none => true

/-- One turn of the decoder's loop. -/
def readFamily (bytes : List UInt8) (families : List (ℕ × ℕ)) (j : ℕ) :
    Option (List (ℕ × ℕ)) := do
  let family ← wordAt bytes (1 + 2 * j)
  let height ← wordAt bytes (2 + 2 * j)
  if Family.count ≤ family ∨ height ∉ Family.heightMenu then none
  else if follows families family then some (families ++ [(family, height)])
  else none

/-- Decode, refusing what `toBytes` could not have written from a derived config. -/
def fromBytes (bytes : List UInt8) : Option VmConfig := do
  let k ← wordAt bytes 0
  if Family.count < k ∨ bytes.length ≠ 4 * (2 * k + 2) then none
  else
    let families ← (List.range k).foldlM (readFamily bytes) []
    let bytecodeSizeWords ← wordAt bytes (1 + 2 * k)
    let config : VmConfig := ⟨families, bytecodeSizeWords⟩
    match windowHeight config with
    | .ok _ => some config
    | .error _ => none

/-- The configs a derivation produces. -/
structure Derived (config : VmConfig) : Prop where
  ascending : config.families.Pairwise fun first second => first.1 < second.1
  known : ∀ entry ∈ config.families, entry.1 < Family.count
  menu : ∀ entry ∈ config.families, entry.2 ∈ Family.heightMenu
  ceiling : config.bytecodeSizeWords < 2 ^ 32
  windows : ∃ height, windowHeight config = .ok height

theorem wordAt_eq_some {front tail : List UInt8} {i word : ℕ} (before : front.length = 4 * i) :
    wordAt (front ++ tail) i = some word ↔
      ∃ rest, tail = leBytes 4 word ++ rest ∧ word < 2 ^ 32 := by
  have skipped : (front ++ tail).drop (4 * i) = tail := List.drop_left' before
  have long_iff : 4 * i + 4 ≤ (front ++ tail).length ↔ 4 ≤ tail.length := by
    rw [List.length_append, before, Nat.add_le_add_iff_left]
  rw [wordAt, skipped]
  by_cases long : 4 ≤ tail.length
  · have four : (tail.take 4).length = 4 := List.length_take_of_le long
    rw [if_pos (long_iff.mpr long), Option.some.injEq]
    constructor
    · rintro rfl
      have small := leValue_lt (tail.take 4)
      have written := leBytes_leValue (tail.take 4)
      rw [four] at small written
      refine ⟨tail.drop 4, ?_, small⟩
      rw [written, List.take_append_drop]
    · rintro ⟨rest, rfl, small⟩
      rw [List.take_left' (leBytes_length 4 word), leValue_leBytes small]
  · rw [if_neg (fun inside => long (long_iff.mp inside))]
    constructor
    · intro wrong
      cases wrong
    · rintro ⟨rest, rfl, -⟩
      rw [List.length_append, leBytes_length] at long
      exact absurd (Nat.le_add_right 4 _) long

theorem follows_iff {families : List (ℕ × ℕ)} {family : ℕ}
    (ascending : families.Pairwise fun first second => first.1 < second.1) :
    follows families family = true ↔ ∀ entry ∈ families, entry.1 < family := by
  rcases List.eq_nil_or_concat' families with rfl | ⟨before, last, rfl⟩
  · simp [follows]
  · obtain ⟨-, -, below⟩ := List.pairwise_append.mp ascending
    rw [follows, List.getLast?_concat, decide_eq_true_eq]
    constructor
    · intro next entry member
      rcases List.mem_append.mp member with earlier | here
      · exact (below entry earlier last (List.mem_singleton_self last)).trans next
      · rwa [List.mem_singleton.mp here]
    · intro all
      exact all last (List.mem_append_right _ (List.mem_singleton_self last))

theorem menu_lt {height : ℕ} (menu : height ∈ Family.heightMenu) : height < 2 ^ 32 := by
  have all : ∀ height ∈ Family.heightMenu, height < 2 ^ 32 := by decide
  exact all height menu

/-- What one turn of the decoder's loop accepts. -/
theorem readFamily_eq_some {front tail : List UInt8} {families next : List (ℕ × ℕ)} {j : ℕ}
    (before : front.length = 4 * (1 + 2 * j)) :
    readFamily (front ++ tail) families j = some next ↔
      ∃ entry rest, tail = entryBytes entry ++ rest ∧ entry.1 < Family.count ∧
        entry.2 ∈ Family.heightMenu ∧ follows families entry.1 = true ∧
        next = families ++ [entry] := by
  have second : ∀ family, (front ++ leBytes 4 family).length = 4 * (2 + 2 * j) := by
    intro family
    rw [List.length_append, before, leBytes_length]
    ring
  simp only [readFamily, Option.bind_eq_bind, Option.bind_eq_some_iff, wordAt_eq_some before]
  constructor
  · rintro ⟨family, ⟨after, rfl, -⟩, height, readHeight, accepted⟩
    rw [← List.append_assoc] at readHeight
    obtain ⟨rest, rfl, -⟩ := (wordAt_eq_some (second family)).mp readHeight
    split at accepted
    · cases accepted
    · next rules =>
      obtain ⟨known, menu⟩ := not_or.mp rules
      split at accepted
      · next ascends =>
        cases accepted
        refine ⟨(family, height), rest, ?_, Nat.lt_of_not_le known, not_not.mp menu, ascends, rfl⟩
        rw [entryBytes, List.append_assoc]
      · cases accepted
  · rintro ⟨⟨family, height⟩, rest, rfl, known, menu, ascends, rfl⟩
    refine ⟨family, ⟨leBytes 4 height ++ rest, ?_, ?_⟩, height, ?_, ?_⟩
    · rw [entryBytes, List.append_assoc]
    · exact known.trans (by decide)
    · rw [entryBytes, List.append_assoc, ← List.append_assoc]
      exact (wordAt_eq_some (second family)).mpr ⟨rest, rfl, menu_lt menu⟩
    · rw [if_neg (not_or.mpr ⟨Nat.not_le.mpr known, not_not.mpr menu⟩), if_pos ascends]

/-- What the decoder's whole loop accepts. -/
theorem readFamilies_eq_some (n : ℕ) {front tail : List UInt8} {families result : List (ℕ × ℕ)}
    {start : ℕ} (before : front.length = 4 * (1 + 2 * start))
    (ascending : families.Pairwise fun first second => first.1 < second.1) :
    (List.range' start n).foldlM (readFamily (front ++ tail)) families = some result ↔
      ∃ added rest, tail = added.flatMap entryBytes ++ rest ∧ added.length = n ∧
        result = families ++ added ∧
        result.Pairwise (fun first second => first.1 < second.1) ∧
        (∀ entry ∈ added, entry.1 < Family.count) ∧
        ∀ entry ∈ added, entry.2 ∈ Family.heightMenu := by
  induction n generalizing front tail families start with
  | zero =>
    simp only [List.range'_zero, List.foldlM_nil, Option.pure_def, Option.some.injEq,
      List.length_eq_zero_iff]
    constructor
    · rintro rfl
      exact ⟨[], tail, rfl, rfl, (List.append_nil _).symm, ascending, by simp, by simp⟩
    · rintro ⟨added, rest, -, rfl, rfl, -⟩
      exact (List.append_nil _).symm
  | succ n ih =>
    rw [List.range'_succ, List.foldlM_cons, Option.bind_eq_bind, Option.bind_eq_some_iff]
    have advance : ∀ entry : ℕ × ℕ,
        (front ++ entryBytes entry).length = 4 * (1 + 2 * (start + 1)) := by
      intro entry
      rw [List.length_append, before, entryBytes, List.length_append, leBytes_length,
        leBytes_length]
      ring
    have extends_ : ∀ entry : ℕ × ℕ, follows families entry.1 = true →
        (families ++ [entry]).Pairwise fun first second => first.1 < second.1 := by
      intro entry ascends
      refine List.pairwise_append.mpr ⟨ascending, List.pairwise_singleton _ _, ?_⟩
      intro earlier member last here
      rw [List.mem_singleton.mp here]
      exact (follows_iff ascending).mp ascends earlier member
    constructor
    · rintro ⟨next, step, others⟩
      obtain ⟨entry, after, rfl, known, menu, ascends, rfl⟩ := (readFamily_eq_some before).mp step
      rw [← List.append_assoc] at others
      obtain ⟨added, rest, rfl, length, rfl, sorted, allKnown, allMenu⟩ :=
        (ih (advance entry) (extends_ entry ascends)).mp others
      refine ⟨entry :: added, rest, ?_, ?_, ?_, sorted, ?_, ?_⟩
      · rw [List.flatMap_cons, List.append_assoc]
      · rw [List.length_cons, length]
      · rw [List.append_assoc, List.singleton_append]
      · exact List.forall_mem_cons.mpr ⟨known, allKnown⟩
      · exact List.forall_mem_cons.mpr ⟨menu, allMenu⟩
    · rintro ⟨added, rest, rfl, length, rfl, sorted, allKnown, allMenu⟩
      cases added with
      | nil => exact absurd length (Nat.succ_ne_zero n).symm
      | cons entry others =>
        obtain ⟨known, otherKnown⟩ := List.forall_mem_cons.mp allKnown
        obtain ⟨menu, otherMenu⟩ := List.forall_mem_cons.mp allMenu
        have ascends : follows families entry.1 = true := by
          refine (follows_iff ascending).mpr fun earlier member => ?_
          exact (List.pairwise_append.mp sorted).2.2 earlier member entry List.mem_cons_self
        refine ⟨families ++ [entry], (readFamily_eq_some before).mpr
          ⟨entry, others.flatMap entryBytes ++ rest, ?_, known, menu, ascends, rfl⟩, ?_⟩
        · rw [List.flatMap_cons, List.append_assoc]
        · rw [List.flatMap_cons, List.append_assoc, ← List.append_assoc front]
          refine (ih (advance entry) (extends_ entry ascends)).mpr
            ⟨others, rest, rfl, Nat.succ_injective length, ?_, sorted, otherKnown, otherMenu⟩
          rw [List.append_assoc, List.singleton_append]

@[simp]
theorem entryBytes_length (entry : ℕ × ℕ) : (entryBytes entry).length = 8 := by
  rw [entryBytes, List.length_append, leBytes_length, leBytes_length]

@[simp]
theorem flatMap_entryBytes_length (entries : List (ℕ × ℕ)) :
    (entries.flatMap entryBytes).length = 8 * entries.length := by
  induction entries with
  | nil => rfl
  | cons entry others ih =>
    rw [List.flatMap_cons, List.length_append, entryBytes_length, ih, List.length_cons]
    ring

theorem toBytes_length (config : VmConfig) :
    config.toBytes.length = 4 * (2 * config.families.length + 2) := by
  rw [toBytes, List.length_append, List.length_append, leBytes_length, leBytes_length,
    flatMap_entryBytes_length]
  ring

/-- A derived config attaches no more families than there are. -/
theorem Derived.length_le {config : VmConfig} (derived : config.Derived) :
    config.families.length ≤ Family.count := by
  have distinct : (config.families.map Prod.fst).Nodup := by
    refine List.pairwise_map.mpr (derived.ascending.imp ?_)
    intro first second ascends
    exact Nat.ne_of_lt ascends
  have inside : config.families.map Prod.fst ⊆ List.range Family.count := by
    intro family member
    obtain ⟨entry, present, rfl⟩ := List.mem_map.mp member
    exact List.mem_range.mpr (derived.known entry present)
  have bounded := (List.subperm_of_subset distinct inside).length_le
  rwa [List.length_map, List.length_range] at bounded

/-- The decoder accepts exactly what the encoder writes of the derived configs. -/
theorem fromBytes_eq_some {bytes : List UInt8} {config : VmConfig} :
    fromBytes bytes = some config ↔ config.toBytes = bytes ∧ config.Derived := by
  have first : ∀ k, (leBytes 4 k).length = 4 * (1 + 2 * 0) := fun k => leBytes_length 4 k
  have none_yet : ([] : List (ℕ × ℕ)).Pairwise fun first second => first.1 < second.1 :=
    List.Pairwise.nil
  have start : ∀ k, wordAt bytes 0 = some k ↔ ∃ rest, bytes = leBytes 4 k ++ rest ∧ k < 2 ^ 32 :=
    fun k => @wordAt_eq_some [] bytes 0 k rfl
  simp only [fromBytes, Option.bind_eq_bind, Option.bind_eq_some_iff, start]
  constructor
  · rintro ⟨k, ⟨tail, rfl, -⟩, accepted⟩
    split at accepted
    · cases accepted
    · next rules =>
      obtain ⟨-, length⟩ := not_or.mp rules
      rw [not_not, List.length_append, leBytes_length] at length
      obtain ⟨families, loop, remaining⟩ := Option.bind_eq_some_iff.mp accepted
      obtain ⟨bytecode, read, kept⟩ := Option.bind_eq_some_iff.mp remaining
      rw [List.range_eq_range'] at loop
      obtain ⟨_, rest, rfl, count, rfl, sorted, known, menu⟩ :=
        (readFamilies_eq_some k (first k) none_yet).mp loop
      have before : (leBytes 4 k ++ families.flatMap entryBytes).length = 4 * (1 + 2 * k) := by
        rw [List.length_append, leBytes_length, flatMap_entryBytes_length, count]
        ring
      rw [← List.append_assoc] at read
      obtain ⟨left, rfl, small⟩ := (wordAt_eq_some before).mp read
      rw [List.length_append, List.length_append, flatMap_entryBytes_length, leBytes_length,
        count] at length
      have nothing : left = [] := List.eq_nil_of_length_eq_zero (by omega)
      subst nothing
      split at kept
      · next height windows =>
        cases kept
        refine ⟨?_, sorted, known, menu, small, height, windows⟩
        rw [toBytes, count, List.append_nil, List.append_assoc]
      · cases kept
  · rintro ⟨rfl, derived⟩
    have bounded := derived.length_le
    obtain ⟨height, windows⟩ := derived.windows
    have written : config.toBytes = leBytes 4 config.families.length ++
        (config.families.flatMap entryBytes ++ leBytes 4 config.bytecodeSizeWords) := by
      rw [toBytes, List.append_assoc]
    have fits : ¬ (Family.count < config.families.length ∨
        config.toBytes.length ≠ 4 * (2 * config.families.length + 2)) :=
      not_or.mpr ⟨Nat.not_lt.mpr bounded, not_not.mpr config.toBytes_length⟩
    refine ⟨config.families.length, ⟨_, written, bounded.trans_lt (by decide)⟩, ?_⟩
    rw [if_neg fits, Option.bind_eq_some_iff]
    refine ⟨config.families, ?_, ?_⟩
    · rw [written, List.range_eq_range']
      exact (readFamilies_eq_some _ (first _) none_yet).mpr ⟨config.families, _, rfl, rfl,
        (List.nil_append _).symm, derived.ascending, derived.known, derived.menu⟩
    · have before : (leBytes 4 config.families.length ++ config.families.flatMap entryBytes).length =
          4 * (1 + 2 * config.families.length) := by
        rw [List.length_append, leBytes_length, flatMap_entryBytes_length]
        ring
      rw [Option.bind_eq_some_iff]
      refine ⟨config.bytecodeSizeWords, ?_, ?_⟩
      · exact (wordAt_eq_some before).mpr ⟨[], (List.append_nil _).symm, derived.ceiling⟩
      · rw [windows]

end VmConfig

end Apogee
