import Apogee.Circuit.Artifact
import Apogee.Soundness.Delegation

/-! # The halfword vocabulary

What the obligations over the halfword table say, and that they say no more: on a selected
row they hold for some values of their chunk columns exactly when the form they bound is an
integer in range, and then for one choice of those values. A scaled obligation bounds a
coset of the field; the pairing check is what makes it a bound on an integer.
-/

namespace Apogee

open Gadgets

namespace Delegation

/-- A 32-bit bound: the high halfword direct, the low one the remainder. -/
def bound32 (name : String) (x hi selector : PolyAddress) : List LookupExpr :=
  [range (name ++ "_hi_range") selector (linear [(lit 1, hi)]),
    range (name ++ "_lo_range") selector (linear [(lit 1, x), (neg (2 ^ chunkBits), hi)])]

end Delegation

namespace CircuitArtifact

variable (a : CircuitArtifact)

/-- Some halfword obligation under the selector is on exactly these terms, in any order, with
no constant. -/
def bounded (selector : PolyAddress) (terms : List (Coeff × PolyAddress)) : Bool :=
  a.lookups.any fun l =>
    match l.tuple with
    | [.linear got constant] =>
      l.channel == LookupChannel.range16 && l.selector == selector && constant == lit 0 &&
        got.length == terms.length && terms.all fun t => got.contains t
    | _ => false

/-- Some halfword obligation bounds a column directly: alone, or with a high chunk among the
witness columns. -/
def direct (x selector : PolyAddress) : Bool :=
  a.bounded selector [(lit 1, x)] ||
    ((List.range (a.witness.length % 2 ^ 32)).map .witness).any fun h =>
      a.bounded selector [(lit 1, h)] && a.bounded selector [(lit 1, x), (neg (2 ^ 16), h)]

/-- Every column a copower scales also carries a direct range check of its own, under the
same selector. -/
def checkCopowers : List (PolyAddress × PolyAddress) → Except String Unit
  | [] => .ok ()
  | (x, selector) :: scaled =>
    if a.direct x selector then checkCopowers scaled
    else
      .error ("copower pairing: " ++ x.display ++ " is copower-scaled under " ++
        selector.display ++ ", but no range16 obligation under that selector bounds it " ++
        "directly — neither alone nor as a high chunk and a remainder — and a scaled bound " ++
        "alone bounds nothing")

end CircuitArtifact

section Decides

variable {challenges : ExternalChallenges} {decoded : List (List Fr)} {row : Row}

/-- Every obligation of a list holds on a row. -/
def Obligations (challenges : ExternalChallenges) (decoded : List (List Fr)) (row : Row)
    (lookups : List LookupExpr) : Prop :=
  ∀ lookup ∈ lookups, lookup.Holds challenges decoded row

/-- Two rows agree but for some columns. -/
def Row.AgreesOff (columns : List PolyAddress) (other row : Row) : Prop :=
  ∀ address, address ∉ columns → other address = row address

/-- The obligations hold for some values of the columns exactly when the proposition does,
and then for one choice of them. -/
structure Decides (challenges : ExternalChallenges) (decoded : List (List Fr)) (row : Row)
    (columns : List PolyAddress) (lookups : List LookupExpr) (claim : Prop) : Prop where
  exact : (∃ other : Row, other.AgreesOff columns row ∧
    Obligations challenges decoded other lookups) ↔ claim
  unique : ∀ other other' : Row, other.AgreesOff columns row → other'.AgreesOff columns row →
    Obligations challenges decoded other lookups → Obligations challenges decoded other' lookups →
    other = other'

/-- Distinct columns of a row take any values. -/
theorem Row.exists_agreesOff (row : Row) {columns : List PolyAddress} (distinct : columns.Nodup)
    {values : List Fr} (length : values.length = columns.length) :
    ∃ other : Row, other.AgreesOff columns row ∧ columns.map other = values := by
  induction columns generalizing values with
  | nil => exact ⟨row, fun _ _ => rfl, (List.length_eq_zero_iff.mp length).symm⟩
  | cons column columns ih =>
    obtain ⟨value, values, rfl⟩ := List.exists_cons_of_length_eq_add_one length
    have notLater : column ∉ columns := (List.nodup_cons.mp distinct).1
    obtain ⟨other, agrees, same⟩ := ih (List.nodup_cons.mp distinct).2 (Nat.succ.inj length)
    refine ⟨Function.update other column value, fun address off => ?_, ?_⟩
    · rw [Function.update_of_ne fun equal : address = column =>
      off (equal ▸ List.mem_cons_self)]
      exact agrees address fun member => off (List.mem_cons_of_mem _ member)
    · rw [List.map_cons, Function.update_self, ← same]
      congr 1
      refine List.map_congr_left fun address member => ?_
      exact Function.update_of_ne (fun equal : address = column => notLater (equal ▸ member)) _ _

/-- Obligations that say a proposition and the values of distinct columns decide the
proposition. -/
theorem decides_of_iff {columns : List PolyAddress} {lookups : List LookupExpr} {claim : Prop}
    (values : List Fr) (distinct : columns.Nodup) (length : values.length = columns.length)
    (holds : ∀ other : Row, other.AgreesOff columns row →
      (Obligations challenges decoded other lookups ↔ claim ∧ columns.map other = values)) :
    Decides challenges decoded row columns lookups claim where
  exact := by
    constructor
    · intro given
      obtain ⟨other, agrees, obligations⟩ := given
      exact ((holds other agrees).mp obligations).1
    · intro given
      obtain ⟨other, agrees, same⟩ := row.exists_agreesOff distinct length
      exact ⟨other, agrees, (holds other agrees).mpr ⟨given, same⟩⟩
  unique := by
    intro other other' agrees agrees' obligations obligations'
    have same := ((holds other agrees).mp obligations).2.trans
      ((holds other' agrees').mp obligations').2.symm
    funext address
    by_cases column : address ∈ columns
    · exact List.map_inj_left.mp same address column
    · rw [agrees address column, agrees' address column]

end Decides

namespace Delegation

section Bounds

variable {challenges : ExternalChallenges} {decoded : List (List Fr)} {row : Row}
  {selector : PolyAddress} {name : String}

/-- A form's committed chunks: the limbs of its integer above the lowest. -/
def chunkValues (count : ℕ) (value : Fr) : List Fr :=
  (Math.limbs (2 ^ 16) count (value.val / 2 ^ 16)).map fun limb : ℕ => (limb : Fr)

/-- An element is a number in range exactly when its integer is. -/
theorem exists_number_iff {bits : ℕ} (narrow : bits ≤ 250) (value : Fr) (holds : ℕ → Prop) :
    (∃ n < 2 ^ bits, value = ((n : ℕ) : Fr) ∧ holds n) ↔
      value.val < 2 ^ bits ∧ holds value.val := by
  constructor
  · intro given
    obtain ⟨n, small, equal, given⟩ := given
    have same : value.val = n := by
      rw [equal]
      exact fr_val_natCast (lt_of_lt_of_le small (Nat.pow_le_pow_right (by norm_num) narrow))
    rw [same]
    exact ⟨small, given⟩
  · intro given
    exact ⟨value.val, given.1, (ZMod.natCast_zmod_val value).symm, given.2⟩

/-- Selected chunk obligations say the form's integer is in range and the chunks are its
limbs. -/
theorem boundChunked_val_iff {x : List (Coeff × PolyAddress)} {chunks : List PolyAddress}
    {bits : ℕ} {constant : Coeff} (selected : row selector = 1) (nonempty : chunks ≠ [])
    (lower : chunkBits * chunks.length < bits) (upper : bits < chunkBits * (chunks.length + 1))
    (narrow : chunkBits * (chunks.length + 1) ≤ 240) :
    Obligations challenges decoded row (boundChunked name x chunks bits selector constant) ↔
      ((GateDef.linear x constant).value challenges row).val < 2 ^ bits ∧ chunks.map row =
          chunkValues chunks.length ((GateDef.linear x constant).value challenges row) := by
  rw [Obligations, boundChunked_holds_iff selected nonempty lower upper,
    exists_number_iff (by omega) _ fun n => chunks.map row =
      (Math.limbs (2 ^ 16) chunks.length (n / 2 ^ 16)).map fun limb : ℕ => (limb : Fr)]
  rfl

/-- A form's value is that of the columns it reads. -/
theorem value_of_agreesOff {x : List (Coeff × PolyAddress)} {constant : Coeff}
    {columns : List PolyAddress} {other : Row} (agrees : other.AgreesOff columns row)
    (free : ∀ term ∈ x, term.2 ∉ columns) :
    (GateDef.linear x constant).value challenges other =
      (GateDef.linear x constant).value challenges row := by
  refine GateDef.value_congr fun address member => ?_
  obtain ⟨term, inside, rfl⟩ := List.mem_map.mp member
  exact agrees _ (free term inside)

/-- Over chunk columns of its own, a chunked bound decides the form's range. -/
theorem boundChunked_decides {x : List (Coeff × PolyAddress)} {chunks : List PolyAddress}
    {bits : ℕ} {constant : Coeff} (selected : row selector = 1) (nonempty : chunks ≠ [])
    (lower : chunkBits * chunks.length < bits) (upper : bits < chunkBits * (chunks.length + 1))
    (narrow : chunkBits * (chunks.length + 1) ≤ 240) (distinct : chunks.Nodup)
    (own : selector ∉ chunks) (free : ∀ term ∈ x, term.2 ∉ chunks) :
    Decides challenges decoded row chunks (boundChunked name x chunks bits selector constant)
      (((GateDef.linear x constant).value challenges row).val < 2 ^ bits) := by
  refine decides_of_iff
    (chunkValues chunks.length ((GateDef.linear x constant).value challenges row)) distinct ?_
    fun other agrees => ?_
  · rw [chunkValues, List.length_map, Math.length_limbs]
  · rw [boundChunked_val_iff ((agrees selector own).trans selected) nonempty lower upper narrow,
      value_of_agreesOff agrees free]

/-- A selected pair of halfword obligations says its value is below `2^32` and its column the
high halfword. -/
theorem bound32_iff {x hi : PolyAddress} (selected : row selector = 1) :
    Obligations challenges decoded row (bound32 name x hi selector) ↔
      (row x).val < 2 ^ 32 ∧ row hi = (((row x).val / 2 ^ 16 : ℕ) : Fr) := by
  rw [← exists_number_iff (by norm_num) _ fun n => row hi = ((n / 2 ^ 16 : ℕ) : Fr)]
  exact range32_holds_iff selected

/-- Over a high column of its own, the pair decides that the value is below `2^32`. -/
theorem bound32_decides {x hi : PolyAddress} (selected : row selector = 1) (other : hi ≠ x)
    (own : hi ≠ selector) :
    Decides challenges decoded row [hi] (bound32 name x hi selector) ((row x).val < 2 ^ 32) := by
  refine decides_of_iff [(((row x).val / 2 ^ 16 : ℕ) : Fr)] (List.nodup_singleton hi) rfl
    fun changed agrees => ?_
  have same : changed x = row x := agrees x fun member => other (List.mem_singleton.mp member).symm
  have on : changed selector = 1 :=
    (agrees selector fun member => own (List.mem_singleton.mp member).symm).trans selected
  rw [bound32_iff on, same, List.map_singleton, List.singleton_inj]

end Bounds

section Gaps

variable {challenges : ExternalChallenges} {decoded : List (List Fr)} {row : Row} {words : ℕ}
  {chunk : ℕ → ℕ → PolyAddress}

/-- The form a frame word's gap obligations bound: `4·cycle + FRAME_DELTA − 1 − read_ts`. -/
def gap (row : Row) (j : ℕ) : Fr :=
  (Clock.tsStep : Fr) * row cycle + (frameDelta : Fr) - 1 - row (word j wordReadTs)

/-- The chunk columns of a frame word. -/
def chunksOf (chunk : ℕ → ℕ → PolyAddress) (j : ℕ) : List PolyAddress :=
  (List.range gapChunks).map (chunk j)

/-- The chunk columns of all frame words. -/
def gapColumns (words : ℕ) (chunk : ℕ → ℕ → PolyAddress) : List PolyAddress :=
  (List.range words).flatMap (chunksOf chunk)

theorem value_gap (challenges : ExternalChallenges) (row : Row) (j : ℕ) :
    (GateDef.linear [(lit Clock.tsStep, cycle), (neg 1, word j wordReadTs)]
      (.literal ((frameDelta : Fr) - 1))).value challenges row = gap row j := by
  simp only [value_linear, List.map_cons, List.map_nil, List.sum_cons, List.sum_nil,
    coefficient_lit, coefficient_neg, coefficient_literal, gap]
  push_cast
  ring

/-- The gap obligations on every row: each gap's integer is in range, and its chunks are its
limbs. -/
theorem gapLookupsRange16_iff (selected : row live = 1) :
    Obligations challenges decoded row (gapLookupsRange16 words chunk) ↔
      ∀ j < words, (gap row j).val < 2 ^ Clock.tsBits ∧
        (chunksOf chunk j).map row = chunkValues gapChunks (gap row j) := by
  have each (j : ℕ) : Obligations challenges decoded row
      (boundChunked ("gap" ++ toString j) [(lit Clock.tsStep, cycle), (neg 1, word j wordReadTs)]
        (chunksOf chunk j) Clock.tsBits live (.literal ((frameDelta : Fr) - 1))) ↔
      (gap row j).val < 2 ^ Clock.tsBits ∧
        (chunksOf chunk j).map row = chunkValues gapChunks (gap row j) := by
    have count : (chunksOf chunk j).length = gapChunks := by
      rw [chunksOf, List.length_map, List.length_range]
    have nonempty : chunksOf chunk j ≠ [] :=
      List.ne_nil_of_length_pos (by rw [count]; norm_num [gapChunks])
    have lower : chunkBits * (chunksOf chunk j).length < Clock.tsBits := by
      rw [count]
      norm_num [chunkBits, gapChunks, Clock.tsBits]
    have upper : Clock.tsBits < chunkBits * ((chunksOf chunk j).length + 1) := by
      rw [count]
      norm_num [chunkBits, gapChunks, Clock.tsBits]
    have narrow : chunkBits * ((chunksOf chunk j).length + 1) ≤ 240 := by
      rw [count]
      norm_num [chunkBits, gapChunks]
    rw [boundChunked_val_iff selected nonempty lower upper narrow, value_gap, count]
  constructor
  · intro holds j inside
    refine (each j).mp fun lookup member => holds lookup ?_
    exact List.mem_flatMap.mpr ⟨j, List.mem_range.mpr inside, member⟩
  · intro holds lookup member
    obtain ⟨j, inside, member⟩ := List.mem_flatMap.mp member
    exact (each j).mpr (holds j (List.mem_range.mp inside)) lookup member

/-- Lists laid end to end agree when their parts do, the parts being of equal lengths. -/
theorem flatMap_eq_iff {ι β : Type*} {list : List ι} {f g : ι → List β}
    (length : ∀ i ∈ list, (f i).length = (g i).length) :
    list.flatMap f = list.flatMap g ↔ ∀ i ∈ list, f i = g i := by
  induction list with
  | nil => simp
  | cons i list ih =>
    have rest := ih fun other member => length other (List.mem_cons_of_mem i member)
    rw [List.flatMap_cons, List.flatMap_cons, List.forall_mem_cons, ← rest]
    constructor
    · intro same
      exact List.append_inj same (length i List.mem_cons_self)
    · intro same
      rw [same.1, same.2]

/-- Over chunk columns of its own, a frame's gap obligations decide the gaps' range. -/
theorem gapLookupsRange16_decides (selected : row live = 1)
    (distinct : (gapColumns words chunk).Nodup) (own : live ∉ gapColumns words chunk)
    (notCycle : cycle ∉ gapColumns words chunk)
    (notRead : ∀ j < words, word j wordReadTs ∉ gapColumns words chunk) :
    Decides challenges decoded row (gapColumns words chunk) (gapLookupsRange16 words chunk)
      (∀ j < words, (gap row j).val < 2 ^ Clock.tsBits) := by
  have lengths (j : ℕ) (value : Fr) : (chunkValues gapChunks value).length =
      (chunksOf chunk j).length := by
    rw [chunkValues, chunksOf, List.length_map, Math.length_limbs, List.length_map,
      List.length_range]
  refine decides_of_iff ((List.range words).flatMap fun j => chunkValues gapChunks (gap row j))
    distinct ?_ fun other agrees => ?_
  · rw [gapColumns, List.length_flatMap, List.length_flatMap]
    exact congrArg List.sum (List.map_congr_left fun j _ => lengths j _)
  · have same : ∀ j < words, gap other j = gap row j := fun j inside => by
      rw [gap, gap, agrees cycle notCycle, agrees _ (notRead j inside)]
    rw [gapLookupsRange16_iff ((agrees live own).trans selected), gapColumns, List.map_flatMap,
      flatMap_eq_iff fun j _ => by rw [List.length_map, lengths j]]
    constructor
    · intro holds
      refine ⟨fun j inside => ?_, fun j member => ?_⟩
      · rw [← same j inside]
        exact (holds j inside).1
      · rw [← same j (List.mem_range.mp member)]
        exact (holds j (List.mem_range.mp member)).2
    · intro given j inside
      rw [same j inside]
      exact ⟨given.1 j inside, given.2 j (List.mem_range.mpr inside)⟩

/-- Where neither side wraps, a gap's integer is in range exactly when the integers'
difference is. -/
theorem gap_val_iff {j : ℕ} (written : Clock.tsStep * (row cycle).val + frameDelta < frModulus)
    (read : (row (word j wordReadTs)).val + 2 ^ Clock.tsBits < frModulus) :
    (gap row j).val < 2 ^ Clock.tsBits ↔
      (row (word j wordReadTs)).val + 1 ≤ Clock.tsStep * (row cycle).val + frameDelta ∧
        Clock.tsStep * (row cycle).val + frameDelta - 1 - (row (word j wordReadTs)).val <
          2 ^ Clock.tsBits := by
  have value : gap row j = ((Clock.tsStep * (row cycle).val + frameDelta : ℕ) : Fr) - 1 -
      (((row (word j wordReadTs)).val : ℕ) : Fr) := by
    rw [gap]
    push_cast
    rw [ZMod.natCast_zmod_val, ZMod.natCast_zmod_val]
  generalize Clock.tsStep * (row cycle).val + frameDelta = late at written value ⊢
  generalize (row (word j wordReadTs)).val = early at read value ⊢
  constructor
  · intro small
    have sum : ((late : ℕ) : Fr) = ((early + 1 + (gap row j).val : ℕ) : Fr) := by
      push_cast
      rw [ZMod.natCast_zmod_val, value]
      ring
    have same : late = early + 1 + (gap row j).val := by
      rw [← ZMod.val_natCast_of_lt written, sum, ZMod.val_natCast_of_lt (by omega)]
    omega
  · intro given
    have difference : gap row j = ((late - 1 - early : ℕ) : Fr) := by
      rw [value, Nat.cast_sub (by omega), Nat.cast_sub (by omega), Nat.cast_one]
    rw [difference, ZMod.val_natCast_of_lt (by omega)]
    exact given.2

end Gaps

end Delegation

namespace CircuitArtifact

section Copowers

variable {a : CircuitArtifact} {challenges : ExternalChallenges} {decoded : List (List Fr)}
  {row : Row} {x selector : PolyAddress}

/-- The halfword obligations of a circuit hold on a row. -/
def HoldsRange16 (a : CircuitArtifact) (challenges : ExternalChallenges)
    (decoded : List (List Fr)) (row : Row) : Prop :=
  ∀ lookup ∈ a.lookups, lookup.channel = LookupChannel.range16 →
    lookup.Holds challenges decoded row

/-- Two distinct terms of a two-term form are its terms, in one order or the other. -/
theorem eq_pair_of_mem {α : Type*} {got : List α} {first second : α} (length : got.length = 2)
    (distinct : first ≠ second) (left : first ∈ got) (right : second ∈ got) :
    got = [first, second] ∨ got = [second, first] := by
  obtain ⟨one, two, rfl⟩ := List.length_eq_two.mp length
  simp only [List.mem_cons, List.not_mem_nil, or_false] at left right
  rcases left with rfl | rfl
  · rcases right with rfl | rfl
    · exact absurd rfl distinct
    · exact Or.inl rfl
  · rcases right with rfl | rfl
    · exact Or.inr rfl
    · exact absurd rfl distinct

/-- A matched obligation bounds the terms it is on. -/
theorem exists_half_of_bounded {terms : List (Coeff × PolyAddress)}
    (holds : a.HoldsRange16 challenges decoded row) (selected : row selector = 1)
    (found : a.bounded selector terms = true) :
    ∃ got : List (Coeff × PolyAddress), got.length = terms.length ∧ (∀ t ∈ terms, t ∈ got) ∧
      ∃ half < 2 ^ 16, (GateDef.linear got (lit 0)).value challenges row = ((half : ℕ) : Fr) := by
  obtain ⟨lookup, member, matched⟩ := List.any_eq_true.mp found
  obtain ⟨name, channel, on, tuple⟩ := lookup
  split at matched
  case h_1 got constant equal =>
    simp only [Bool.and_eq_true, beq_iff_eq, List.all_eq_true, List.contains_iff_mem] at matched
    obtain ⟨⟨⟨⟨onRange, same⟩, zero⟩, length⟩, all⟩ := matched
    subst onRange same zero equal
    exact ⟨got, length, all, range_bound selected (holds _ member rfl)⟩
  case h_2 => cases matched

theorem one_ne_neg_half : (lit 1 : Coeff) ≠ neg (2 ^ 16) := by
  intro same
  have equal : ((1 : ℕ) : Fr) = -((2 ^ 16 : ℕ) : Fr) := Coeff.literal.inj same
  have sum : ((2 ^ 16 + 1 : ℕ) : Fr) = 0 := by
    rw [Nat.cast_add, equal]
    ring
  exact fr_natCast_ne_zero (by norm_num) (by norm_num) sum

/-- A column alone in an obligation is a halfword. -/
theorem exists_half (holds : a.HoldsRange16 challenges decoded row) (selected : row selector = 1)
    (found : a.bounded selector [(lit 1, x)] = true) :
    ∃ half < 2 ^ 16, row x = ((half : ℕ) : Fr) := by
  obtain ⟨got, length, all, half, small, value⟩ := exists_half_of_bounded holds selected found
  obtain ⟨term, rfl⟩ := List.length_eq_one_iff.mp length
  obtain rfl : (lit 1, x) = term := List.mem_singleton.mp (all _ List.mem_cons_self)
  exact ⟨half, small, by simpa using value⟩

/-- A column less a column's shift in an obligation is that shift and a halfword. -/
theorem exists_low {h : PolyAddress} (holds : a.HoldsRange16 challenges decoded row)
    (selected : row selector = 1)
    (found : a.bounded selector [(lit 1, x), (neg (2 ^ 16), h)] = true) :
    ∃ low < 2 ^ 16, row x = ((low : ℕ) : Fr) + ((2 ^ 16 : ℕ) : Fr) * row h := by
  obtain ⟨got, length, all, low, small, value⟩ := exists_half_of_bounded holds selected found
  have distinct : ((lit 1, x) : Coeff × PolyAddress) ≠ (neg (2 ^ 16), h) := fun same =>
    one_ne_neg_half (congrArg Prod.fst same)
  refine ⟨low, small, ?_⟩
  rcases eq_pair_of_mem length distinct (all _ (by simp)) (all _ (by simp)) with rfl | rfl
  · simp only [value_linear, List.map_cons, List.map_nil, List.sum_cons, List.sum_nil,
      coefficient_lit, coefficient_neg, Nat.cast_one, Nat.cast_zero] at value
    linear_combination value
  · simp only [value_linear, List.map_cons, List.map_nil, List.sum_cons, List.sum_nil,
      coefficient_lit, coefficient_neg, Nat.cast_one, Nat.cast_zero] at value
    linear_combination value

/-- A column with a direct bound is below `2^32` on a selected row. -/
theorem lt_of_direct (holds : a.HoldsRange16 challenges decoded row) (selected : row selector = 1)
    (direct : a.direct x selector = true) : (row x).val < 2 ^ 32 := by
  rcases Bool.or_eq_true_iff.mp direct with alone | paired
  · obtain ⟨half, small, equal⟩ := exists_half holds selected alone
    rw [equal, fr_val_natCast (by omega)]
    omega
  · obtain ⟨h, -, pair⟩ := List.any_eq_true.mp paired
    obtain ⟨high, low⟩ := (Bool.and_eq_true _ _).mp pair
    obtain ⟨half, halfSmall, halfEq⟩ := exists_half holds selected high
    obtain ⟨rest, restSmall, restEq⟩ := exists_low holds selected low
    have whole : row x = ((rest + 2 ^ 16 * half : ℕ) : Fr) := by
      rw [restEq, halfEq, Nat.cast_add, Nat.cast_mul]
    rw [whole, fr_val_natCast (by omega)]
    omega

/-- Under the pairing check, every scaled column is below `2^32` where its selector is 1. -/
theorem lt_of_checkCopowers {scaled : List (PolyAddress × PolyAddress)}
    (accepted : a.checkCopowers scaled = .ok ()) (holds : a.HoldsRange16 challenges decoded row) :
    ∀ pair ∈ scaled, row pair.2 = 1 → (row pair.1).val < 2 ^ 32 := by
  induction scaled with
  | nil => exact List.forall_mem_nil _
  | cons pair scaled ih =>
    obtain ⟨x, selector⟩ := pair
    rw [checkCopowers] at accepted
    by_cases direct : a.direct x selector = true
    · rw [if_pos direct] at accepted
      exact List.forall_mem_cons.mpr
        ⟨fun selected => lt_of_direct holds selected direct, ih accepted⟩
    · rw [if_neg direct] at accepted
      cases accepted

end Copowers

end CircuitArtifact

/-- The halfword vocabulary is exact. On a selected row, and over chunk columns of its own, a
chunked bound holds for one choice of the chunks when its form's integer is below `2^bits`,
and for none otherwise; a 32-bit bound and a frame's timestamp gaps likewise. Whatever the
chunk columns are, those that pass are the integer's limbs. A circuit the pairing check
accepts holds every column it scales below `2^32`. -/
theorem range16_exact (challenges : ExternalChallenges) (decoded : List (List Fr)) :
    (∀ (row : Row) (name : String) (x : List (Coeff × PolyAddress)) (chunks : List PolyAddress)
        (bits : ℕ) (selector : PolyAddress) (constant : Coeff),
      row selector = 1 → chunks ≠ [] → 16 * chunks.length < bits →
      bits < 16 * (chunks.length + 1) → 16 * (chunks.length + 1) ≤ 240 →
      (Obligations challenges decoded row
          (Delegation.boundChunked name x chunks bits selector constant) ↔
        ((GateDef.linear x constant).value challenges row).val < 2 ^ bits ∧
          chunks.map row = Delegation.chunkValues chunks.length
            ((GateDef.linear x constant).value challenges row)) ∧
      (chunks.Nodup → selector ∉ chunks → (∀ term ∈ x, term.2 ∉ chunks) →
        Decides challenges decoded row chunks
          (Delegation.boundChunked name x chunks bits selector constant)
          (((GateDef.linear x constant).value challenges row).val < 2 ^ bits))) ∧
    (∀ (row : Row) (name : String) (x hi selector : PolyAddress), row selector = 1 →
      (Obligations challenges decoded row (Delegation.bound32 name x hi selector) ↔
        (row x).val < 2 ^ 32 ∧ row hi = (((row x).val / 2 ^ 16 : ℕ) : Fr)) ∧
      (hi ≠ x → hi ≠ selector →
        Decides challenges decoded row [hi] (Delegation.bound32 name x hi selector)
          ((row x).val < 2 ^ 32))) ∧
    (∀ (row : Row) (words : ℕ) (chunk : ℕ → ℕ → PolyAddress), row Delegation.live = 1 →
      (Obligations challenges decoded row (Delegation.gapLookupsRange16 words chunk) ↔
        ∀ j < words, (Delegation.gap row j).val < 2 ^ 38 ∧
          (Delegation.chunksOf chunk j).map row = Delegation.chunkValues 2 (Delegation.gap row j)) ∧
      ((Delegation.gapColumns words chunk).Nodup →
        Delegation.live ∉ Delegation.gapColumns words chunk →
        Delegation.cycle ∉ Delegation.gapColumns words chunk →
        (∀ j < words,
          Delegation.word j Delegation.wordReadTs ∉ Delegation.gapColumns words chunk) →
        Decides challenges decoded row (Delegation.gapColumns words chunk)
          (Delegation.gapLookupsRange16 words chunk)
          (∀ j < words, (Delegation.gap row j).val < 2 ^ 38))) ∧
    (∀ (row : Row) (j : ℕ),
      4 * (row Delegation.cycle).val + Delegation.frameDelta < frModulus →
      (row (Delegation.word j Delegation.wordReadTs)).val + 2 ^ 38 < frModulus →
      ((Delegation.gap row j).val < 2 ^ 38 ↔
        (row (Delegation.word j Delegation.wordReadTs)).val + 1 ≤
            4 * (row Delegation.cycle).val + Delegation.frameDelta ∧
          4 * (row Delegation.cycle).val + Delegation.frameDelta - 1 -
            (row (Delegation.word j Delegation.wordReadTs)).val < 2 ^ 38)) ∧
    ∀ (a : CircuitArtifact) (scaled : List (PolyAddress × PolyAddress)) (row : Row),
      a.checkCopowers scaled = .ok () → a.HoldsRange16 challenges decoded row →
      ∀ pair ∈ scaled, row pair.2 = 1 → (row pair.1).val < 2 ^ 32 := by
  refine ⟨?_, ?_, ?_, ?_, ?_⟩
  · intro row name x chunks bits selector constant selected nonempty lower upper narrow
    exact ⟨Delegation.boundChunked_val_iff selected nonempty lower upper narrow,
      Delegation.boundChunked_decides selected nonempty lower upper narrow⟩
  · intro row name x hi selector selected
    exact ⟨Delegation.bound32_iff selected, Delegation.bound32_decides selected⟩
  · intro row words chunk selected
    exact ⟨Delegation.gapLookupsRange16_iff selected,
      Delegation.gapLookupsRange16_decides selected⟩
  · intro row j written read
    exact Delegation.gap_val_iff written read
  · intro a scaled row accepted holds
    exact CircuitArtifact.lt_of_checkCopowers accepted holds

end Apogee
