import Apogee.Circuit.Delegation
import Apogee.Math.LimbChains
import Apogee.Soundness.Words

/-! # What the delegation frame says

On a selected row an obligation over the halfword table is a bound, in both
directions: the bound's chunks are the limbs of the number they bound, and a
number in range has chunks. On an unselected row it says nothing.
-/

namespace Apogee

open Gadgets

/-- A row with its witness columns replaced. -/
def Row.withWitness (row : Row) (columns : ℕ → Fr) : Row
  | .witness i => columns i
  | address => row address

/-- A row with the witness columns from `start` on, and below `stop`, replaced. -/
def Row.withColumns (start stop : ℕ) (row : Row) (columns : ℕ → Fr) : Row :=
  row.withWitness fun i => if start ≤ i ∧ i < stop then columns i else row (.witness i)

theorem Row.withColumns_of_mem {start stop i : ℕ} (row : Row) (columns : ℕ → Fr)
    (lower : start ≤ i) (upper : i < stop) :
    row.withColumns start stop columns (.witness i) = columns i := if_pos ⟨lower, upper⟩

theorem Row.withColumns_of_lt {start stop i : ℕ} (row : Row) (columns : ℕ → Fr)
    (below : i < start) :
    row.withColumns start stop columns (.witness i) = row (.witness i) :=
  if_neg fun inside => absurd inside.1 (Nat.not_le.mpr below)

/-- Every gate of a circuit vanishes on a row and every obligation holds. -/
@[mk_iff satisfies_iff_gates]
structure Satisfies (challenges : ExternalChallenges) (decoded : List (List Fr)) (row : Row)
    (body : Frame.Body) : Prop where
  gates : ∀ gate ∈ body.enforcing, gate.2.value challenges row = 0
  lookups : ∀ lookup ∈ body.lookups, lookup.Holds challenges decoded row

section Obligations

variable {challenges : ExternalChallenges} {decoded : List (List Fr)} {row : Row}
  {selector : PolyAddress} {name : String}

/-- A selected halfword obligation says its expression is a halfword. -/
theorem range_holds_iff {expression : GateDef} (selected : row selector = 1) :
    (range name selector expression).Holds challenges decoded row ↔
      ∃ half < 2 ^ 16, expression.value challenges row = ((half : ℕ) : Fr) := by
  refine ⟨range_bound selected, ?_⟩
  intro given
  obtain ⟨half, small, equal⟩ := given
  refine ⟨half, small, ?_⟩
  simp [range, LookupExpr.gatedTuple, gating, Gating.offset, Gating.neutral,
    LookupChannel.range16, LookupChannel.generic, LookupChannel.decoder, selected, equal]

/-- An unselected halfword obligation says nothing. -/
theorem range_holds_of_off {expression : GateDef} (off : row selector = 0) :
    (range name selector expression).Holds challenges decoded row := by
  refine ⟨0, by norm_num [LookupChannel.bits, range, LookupChannel.range16], ?_⟩
  simp [range, LookupExpr.gatedTuple, gating, Gating.offset, Gating.neutral,
    LookupChannel.range16, LookupChannel.generic, LookupChannel.decoder, off]

/-- A selected pair of halfword obligations says its value is a word and its
column the word's high half. -/
theorem range32_holds_iff {value hi : PolyAddress} (selected : row selector = 1) :
    (∀ lookup ∈ range32 name selector value hi, lookup.Holds challenges decoded row) ↔
      ∃ word < 2 ^ 32, row value = ((word : ℕ) : Fr) ∧ row hi = ((word / 2 ^ 16 : ℕ) : Fr) := by
  constructor
  · intro holds
    obtain ⟨word, valueEq, hiEq⟩ := range32_word selected holds
    exact ⟨word.toNat, word.isLt, valueEq, hiEq⟩
  · intro given
    obtain ⟨word, small, valueEq, hiEq⟩ := given
    refine List.forall_mem_cons.mpr ⟨?_, List.forall_mem_singleton.mpr ?_⟩
    · refine (range_holds_iff selected).mpr ⟨word / 2 ^ 16, by omega, ?_⟩
      simp [column, linear, hiEq]
    · refine (range_holds_iff selected).mpr ⟨word % 2 ^ 16, by omega, ?_⟩
      have parts : ((word : ℕ) : Fr) = ((word % 2 ^ 16 + 2 ^ 16 * (word / 2 ^ 16) : ℕ) : Fr) := by
        rw [Nat.mod_add_div]
      simp only [lowHalf, linear, value_linear, List.map_cons, List.map_nil, List.sum_cons,
        List.sum_nil, coefficient_lit, coefficient_neg, valueEq, hiEq, parts]
      push_cast
      ring

/-- The pair of obligations on a column that holds a number bounds the number. -/
theorem range32_number_iff {value hi : PolyAddress} {n : ℕ} (selected : row selector = 1)
    (valueEq : row value = ((n : ℕ) : Fr)) (canonical : n < frModulus) :
    (∀ lookup ∈ range32 name selector value hi, lookup.Holds challenges decoded row) ↔
      n < 2 ^ 32 ∧ row hi = ((n / 2 ^ 16 : ℕ) : Fr) := by
  rw [range32_holds_iff selected]
  constructor
  · intro given
    obtain ⟨word, small, equal, hiEq⟩ := given
    have same : n = word := by
      rw [← ZMod.val_natCast_of_lt canonical, ← valueEq, equal, fr_val_natCast (by omega)]
    rw [same]
    exact ⟨small, hiEq⟩
  · intro given
    exact ⟨n, given.1, valueEq, given.2⟩

/-- A booleanity gate on a column that holds a number bounds the number. -/
theorem booleanity_number_iff {x : PolyAddress} {n : ℕ} (equal : row x = ((n : ℕ) : Fr))
    (canonical : n < frModulus) : (booleanity x).value challenges row = 0 ↔ n ≤ 1 := by
  have value (small : ℕ) (few : small ≤ 1) : ((n : ℕ) : Fr) = ((small : ℕ) : Fr) ↔ n = small := by
    refine ⟨fun same => ?_, fun same => by rw [same]⟩
    rw [← ZMod.val_natCast_of_lt canonical, same, fr_val_natCast (by omega)]
  have zero := value 0 (by norm_num)
  have one := value 1 (by norm_num)
  rw [Nat.cast_zero] at zero
  rw [Nat.cast_one] at one
  rw [booleanity_iff, equal, zero, one]
  omega

/-- A selected key bound says its column is a number below the power. -/
theorem keyBound_holds_iff {x : PolyAddress} {bits : ℕ} (selected : row selector = 1)
    (narrow : bits ≤ 16) :
    (∀ lookup ∈ keyBound name x bits selector, lookup.Holds challenges decoded row) ↔
      ∃ key < 2 ^ bits, row x = ((key : ℕ) : Fr) := by
  refine ⟨keyBound_lt name x bits selected narrow, ?_⟩
  intro given
  obtain ⟨key, small, equal⟩ := given
  have whole : 2 ^ (16 - bits) * 2 ^ bits = 2 ^ 16 := by
    rw [← pow_add]
    congr 1
    omega
  refine List.forall_mem_cons.mpr ⟨?_, List.forall_mem_singleton.mpr ?_⟩
  · refine (range_holds_iff selected).mpr ⟨key, ?_, by simp [column, linear, equal]⟩
    exact lt_of_lt_of_le small (Nat.pow_le_pow_right (by norm_num) narrow)
  · refine (range_holds_iff selected).mpr ⟨2 ^ (16 - bits) * key, ?_, by simp [linear, equal]⟩
    rw [← whole]
    exact Nat.mul_lt_mul_of_pos_left small (Nat.two_pow_pos _)

/-- Bits that sum to 1 are one-hot. -/
theorem oneHot_of_sum {bits : List Fr} (boolean : ∀ bit ∈ bits, bit = 0 ∨ bit = 1)
    (short : bits.length < 2 ^ 249) (sum : bits.sum = 1) :
    ∃ hot < bits.length, ∀ k, bits.getD k 0 = if k = hot then 1 else 0 := by
  have count (list : List Fr) (each : ∀ bit ∈ list, bit = 0 ∨ bit = 1) :
      ∃ ones ≤ list.length, list.sum = ((ones : ℕ) : Fr) ∧ (ones = 0 → ∀ k, list.getD k 0 = 0) := by
    induction list with
    | nil => exact ⟨0, le_rfl, by simp, by simp⟩
    | cons bit list ih =>
      obtain ⟨ones, few, sumEq, allZero⟩ := ih fun other member =>
        each other (List.mem_cons_of_mem _ member)
      rcases each bit List.mem_cons_self with rfl | rfl
      · refine ⟨ones, by rw [List.length_cons]; omega, by simp [sumEq], ?_⟩
        intro zero k
        cases k with
        | zero => rfl
        | succ k => exact allZero zero k
      · refine ⟨ones + 1, by rw [List.length_cons]; omega, ?_, by omega⟩
        rw [List.sum_cons, sumEq]
        push_cast
        ring
  induction bits with
  | nil => simp at sum
  | cons bit bits ih =>
    have rest : ∀ other ∈ bits, other = 0 ∨ other = 1 := fun other member =>
      boolean other (List.mem_cons_of_mem _ member)
    rw [List.length_cons] at short
    rw [List.sum_cons] at sum
    rcases boolean bit List.mem_cons_self with rfl | rfl
    · obtain ⟨hot, inside, each⟩ := ih rest (by omega) (by simpa using sum)
      refine ⟨hot + 1, by rw [List.length_cons]; omega, ?_⟩
      intro k
      cases k with
      | zero => simp
      | succ k => simpa using each k
    · obtain ⟨ones, few, sumEq, allZero⟩ := count bits rest
      have zero : ones = 0 := by
        refine fr_natCast_inj (by omega) (by norm_num) ?_
        rw [← sumEq]
        push_cast
        linear_combination sum
      refine ⟨0, by simp, ?_⟩
      intro k
      cases k with
      | zero => simp
      | succ k => simpa using allZero zero k

/-- Selectors that are bits and sum to 1 select one. -/
theorem oneHot_iff {selector : ℕ → PolyAddress} {count : ℕ} (short : count < 2 ^ 249) :
    ((∀ i < count, row (selector i) = 0 ∨ row (selector i) = 1) ∧
        ((List.range count).map fun i => row (selector i)).sum = 1) ↔
      ∃ hot < count, ∀ i < count, row (selector i) = if i = hot then 1 else 0 := by
  have place {i : ℕ} (inside : i < count) :
      ((List.range count).map fun i => row (selector i)).getD i 0 = row (selector i) := by
    simp [inside]
  constructor
  · intro given
    have boolean : ∀ bit ∈ (List.range count).map fun i => row (selector i),
        bit = 0 ∨ bit = 1 := by
      intro bit member
      obtain ⟨i, inside, rfl⟩ := List.mem_map.mp member
      exact given.1 i (List.mem_range.mp inside)
    obtain ⟨hot, inside, each⟩ := oneHot_of_sum boolean (by simpa using short) given.2
    exact ⟨hot, by simpa using inside, fun i few => by rw [← place few, each]⟩
  · intro given
    obtain ⟨hot, inside, each⟩ := given
    refine ⟨fun i few => ?_, ?_⟩
    · rw [each i few]
      by_cases same : i = hot
      · exact Or.inr (if_pos same)
      · exact Or.inl (if_neg same)
    · rw [List.map_congr_left fun i member => each i (List.mem_range.mp member)]
      exact (Finset.sum_ite_eq' (Finset.range count) hot fun _ => 1).trans
        (if_pos (Finset.mem_range.mpr inside))

/-- A sum weighted by one-hot selectors is the selected weight. -/
theorem sum_oneHot {selector : ℕ → PolyAddress} {count hot : ℕ} (inside : hot < count)
    (each : ∀ i < count, row (selector i) = if i = hot then 1 else 0) (weight : ℕ → Fr) :
    ((List.range count).map fun i => weight i * row (selector i)).sum = weight hot := by
  rw [List.map_congr_left fun i member => by rw [each i (List.mem_range.mp member), mul_ite,
    mul_one, mul_zero]]
  exact (Finset.sum_ite_eq' (Finset.range count) hot weight).trans
    (if_pos (Finset.mem_range.mpr inside))

end Obligations

namespace Delegation

section Obligations

variable {challenges : ExternalChallenges} {decoded : List (List Fr)} {row : Row}
  {selector : PolyAddress} {name : String}

/-- The chunks' contribution to the remainder, by the digits they hold. -/
private theorem sum_chunks (challenges : ExternalChallenges) (chunks : List PolyAddress)
    (digits : List ℕ) (scale : ℕ)
    (same : chunks.map row = digits.map fun digit : ℕ => (digit : Fr)) :
    ((chunks.mapIdx fun c chunk => (neg (scale * 2 ^ (chunkBits * (c + 1))), chunk)).map
        fun term => coefficient challenges term.1 * row term.2).sum =
      -((scale * (2 ^ 16 * Nat.ofDigits (2 ^ 16) digits) : ℕ) : Fr) := by
  induction chunks generalizing digits scale with
  | nil =>
    cases digits with
    | nil => simp
    | cons digit digits => simp at same
  | cons chunk chunks ih =>
    cases digits with
    | nil => simp at same
    | cons digit digits =>
      simp only [List.map_cons, List.cons.injEq] at same
      have tail := ih digits (scale * 2 ^ 16) same.2
      have shift : (fun c (chunk : PolyAddress) =>
          (neg (scale * 2 ^ (chunkBits * (c + 1 + 1))), chunk)) =
          fun c chunk => (neg (scale * 2 ^ 16 * 2 ^ (chunkBits * (c + 1))), chunk) := by
        funext c chunk
        rw [mul_assoc, ← pow_add, show chunkBits * (c + 1 + 1) = 16 + chunkBits * (c + 1) by
          rw [chunkBits]; ring]
      have first : scale * 2 ^ (chunkBits * (0 + 1)) = scale * 2 ^ 16 := rfl
      generalize rest : Nat.ofDigits (2 ^ 16) digits = value at tail
      rw [List.mapIdx_cons, List.map_cons, List.sum_cons, shift, tail, same.1,
        Nat.ofDigits_cons, rest, first, coefficient_neg]
      push_cast
      ring

/-- The obligations' value, by the digits the chunks hold. -/
private theorem value_remainder (x : List (Coeff × PolyAddress)) (constant : Coeff)
    {chunks : List PolyAddress} {digits : List ℕ}
    (same : chunks.map row = digits.map fun digit : ℕ => (digit : Fr)) :
    (GateDef.linear (x ++ chunks.mapIdx fun c chunk => (neg (2 ^ (chunkBits * (c + 1))), chunk))
        constant).value challenges row =
      (GateDef.linear x constant).value challenges row -
        ((2 ^ 16 * Nat.ofDigits (2 ^ 16) digits : ℕ) : Fr) := by
  have sum := sum_chunks challenges chunks digits 1 same
  simp only [one_mul] at sum
  simp only [value_linear, List.map_append, List.sum_append, sum]
  ring

/-- Columns that each hold a halfword hold a list of them. -/
private theorem exists_digits {chunks : List PolyAddress}
    (each : ∀ chunk ∈ chunks, ∃ half < 2 ^ 16, row chunk = ((half : ℕ) : Fr)) :
    ∃ digits : List ℕ, (∀ digit ∈ digits, digit < 2 ^ 16) ∧
      chunks.map row = digits.map fun digit : ℕ => (digit : Fr) := by
  induction chunks with
  | nil => exact ⟨[], by simp, rfl⟩
  | cons chunk chunks ih =>
    obtain ⟨half, small, equal⟩ := each chunk List.mem_cons_self
    obtain ⟨digits, smalls, equals⟩ := ih fun other member =>
      each other (List.mem_cons_of_mem _ member)
    exact ⟨half :: digits, List.forall_mem_cons.mpr ⟨small, smalls⟩,
      by rw [List.map_cons, List.map_cons, equal, equals]⟩

/-- Selected chunk obligations say the form is a number in range and the chunks
its limbs above the lowest. -/
theorem boundChunked_holds_iff {x : List (Coeff × PolyAddress)} {chunks : List PolyAddress}
    {bits : ℕ} {constant : Coeff} (selected : row selector = 1) (nonempty : chunks ≠ [])
    (lower : chunkBits * chunks.length < bits) (upper : bits < chunkBits * (chunks.length + 1)) :
    (∀ lookup ∈ boundChunked name x chunks bits selector constant,
        lookup.Holds challenges decoded row) ↔
      ∃ n < 2 ^ bits, (GateDef.linear x constant).value challenges row = ((n : ℕ) : Fr) ∧
        chunks.map row = (Math.limbs (2 ^ 16) chunks.length (n / 2 ^ 16)).map
          fun limb : ℕ => (limb : Fr) := by
  obtain ⟨start, top, rfl⟩ : ∃ start top, chunks = start ++ [top] :=
    ⟨chunks.dropLast, chunks.getLast nonempty, (List.dropLast_append_getLast nonempty).symm⟩
  have lastEq : (start ++ [top]).getLastD live = top := by simp
  have lengthEq : (start ++ [top]).length = start.length + 1 := by simp
  rw [lengthEq, chunkBits] at lower upper
  have powers : 2 ^ bits = (2 ^ 16) ^ (start.length + 1) *
      2 ^ (bits - 16 * (start.length + 1)) := by
    rw [← pow_mul, ← pow_add]
    congr 1
    omega
  constructor
  · intro holds
    simp only [boundChunked, List.forall_mem_append, List.forall_mem_cons, List.not_mem_nil,
      IsEmpty.forall_iff, implies_true, and_true] at holds
    obtain ⟨direct, scaled, remainder⟩ := holds
    have digit : ∀ chunk ∈ start ++ [top], ∃ half < 2 ^ 16, row chunk = ((half : ℕ) : Fr) := by
      intro chunk member
      obtain ⟨c, inside, rfl⟩ := List.getElem_of_mem member
      obtain ⟨half, small, equal⟩ := range_bound selected
        (direct _ (List.mem_mapIdx.mpr ⟨c, inside, rfl⟩))
      exact ⟨half, small, by simpa [column, linear] using equal⟩
    obtain ⟨digits, smalls, startEq⟩ := exists_digits fun chunk member =>
      digit chunk (List.mem_append_left _ member)
    obtain ⟨half, halfSmall, topEq⟩ := digit top (List.mem_append_right _ List.mem_cons_self)
    have same : (start ++ [top]).map row = (digits ++ [half]).map fun digit : ℕ => (digit : Fr) := by
      rw [List.map_append, List.map_append, startEq, List.map_singleton, topEq, List.map_singleton]
    have count : digits.length = start.length := by
      simpa using (congrArg List.length startEq).symm
    obtain ⟨image, imageSmall, imageEq⟩ := range_bound selected scaled
    have topSmall : half < 2 ^ (bits - 16 * (start.length + 1)) := by
      refine lt_of_scaled (by omega) halfSmall imageSmall ?_
      rw [← imageEq, lastEq, lengthEq]
      simp [linear, topEq, chunkBits]
    obtain ⟨low, lowSmall, lowEq⟩ := range_bound selected remainder
    rw [value_remainder x constant same] at lowEq
    have inRange : ∀ limb ∈ low :: digits, limb < 2 ^ 16 :=
      List.forall_mem_cons.mpr ⟨lowSmall, smalls⟩
    refine ⟨low + 2 ^ 16 * Nat.ofDigits (2 ^ 16) (digits ++ [half]), ?_, ?_, ?_⟩
    · have bound := Math.ofDigits_concat_lt inRange topSmall
      rw [List.length_cons, count, ← powers, List.cons_append, Nat.ofDigits_cons] at bound
      exact bound
    · rw [Nat.cast_add, ← lowEq]
      ring
    · rw [Nat.add_mul_div_left _ _ (by norm_num), Nat.div_eq_of_lt lowSmall, zero_add, same,
        lengthEq, ← count, show digits.length + 1 = (digits ++ [half]).length by simp,
        Math.limbs_ofDigits]
      exact List.forall_mem_append.mpr ⟨smalls, List.forall_mem_singleton.mpr halfSmall⟩
  · intro given
    obtain ⟨n, small, valueEq, same⟩ := given
    rw [lengthEq] at same
    have whole : Nat.ofDigits (2 ^ 16) (Math.limbs (2 ^ 16) (start.length + 1) (n / 2 ^ 16)) =
        n / 2 ^ 16 := by
      refine Math.ofDigits_limbs_of_lt ?_
      refine (Nat.div_lt_iff_lt_mul (by norm_num)).mpr (lt_of_lt_of_le small ?_)
      rw [← pow_mul, ← pow_add]
      exact Nat.pow_le_pow_right (by norm_num) (by omega)
    have topEq : row top = ((n / 2 ^ 16 / (2 ^ 16) ^ start.length % 2 ^ 16 : ℕ) : Fr) := by
      rw [Math.limbs_succ_concat, List.map_append, List.map_append] at same
      have last := (List.append_inj' same rfl).2
      simpa using last
    simp only [boundChunked, List.forall_mem_append, List.forall_mem_cons, List.not_mem_nil,
      IsEmpty.forall_iff, implies_true, and_true]
    refine ⟨?_, ?_, ?_⟩
    · intro lookup member
      obtain ⟨c, inside, rfl⟩ := List.mem_mapIdx.mp member
      have inMap : row (start ++ [top])[c] ∈ (start ++ [top]).map row :=
        List.mem_map_of_mem (List.getElem_mem inside)
      rw [same] at inMap
      obtain ⟨limb, limbMember, limbEq⟩ := List.mem_map.mp inMap
      refine (range_holds_iff selected).mpr
        ⟨limb, Math.limbs_lt (by norm_num) _ _ limb limbMember, ?_⟩
      simp [column, linear, ← limbEq]
    · have narrow : n / 2 ^ 16 / (2 ^ 16) ^ start.length < 2 ^ (bits - 16 * (start.length + 1)) := by
        rw [Nat.div_div_eq_div_mul, ← pow_succ']
        refine (Nat.div_lt_iff_lt_mul (by positivity)).mpr ?_
        rw [mul_comm, ← powers]
        exact small
      have half : 2 ^ (bits - 16 * (start.length + 1)) ≤ 2 ^ 16 :=
        Nat.pow_le_pow_right (by norm_num) (by omega)
      rw [Nat.mod_eq_of_lt (lt_of_lt_of_le narrow half)] at topEq
      refine (range_holds_iff selected).mpr ⟨2 ^ (16 - (bits - 16 * (start.length + 1))) *
        (n / 2 ^ 16 / (2 ^ 16) ^ start.length), ?_, ?_⟩
      · calc _ < 2 ^ (16 - (bits - 16 * (start.length + 1))) *
              2 ^ (bits - 16 * (start.length + 1)) :=
            Nat.mul_lt_mul_of_pos_left narrow (Nat.two_pow_pos _)
          _ = 2 ^ 16 := by
            rw [← pow_add]
            congr 1
            omega
      · rw [lastEq, lengthEq]
        simp only [linear, value_linear, List.map_cons, List.map_nil, List.sum_cons,
          List.sum_nil, coefficient_lit, topEq, chunkBits, Nat.cast_zero, Nat.cast_mul]
        ring
    · refine (range_holds_iff selected).mpr ⟨n % 2 ^ 16, Nat.mod_lt _ (by norm_num), ?_⟩
      have parts : ((n : ℕ) : Fr) = ((n % 2 ^ 16 + 2 ^ 16 * (n / 2 ^ 16) : ℕ) : Fr) := by
        rw [Nat.mod_add_div]
      rw [value_remainder x constant same, whole, valueEq, parts, Nat.cast_add]
      ring

end Obligations

section Frame

variable {challenges : ExternalChallenges} {decoded : List (List Fr)} {row : Row}

/-- A read at a timestamp strictly precedes the row's write at its slot, by less
than the clock's width. -/
def Follows (row : Row) (readTs : PolyAddress) (delta : ℕ) : Prop :=
  ∃ gap < 2 ^ Clock.tsBits,
    (Clock.tsStep : Fr) * row cycle + (delta : Fr) = row readTs + 1 + ((gap : ℕ) : Fr)

/-- What a live row's frame says of its memory columns: the words are where the
base puts them, each read precedes its write, and the base is a word's address
with the frame inside guest memory. -/
structure FrameOk (row : Row) (words frameBytes : ℕ) : Prop where
  addr : ∀ j < words, row (word j wordAddr) = row base + ((4 * j : ℕ) : Fr)
  follows : ∀ j < words, Follows row (word j wordReadTs) frameDelta
  aligned : ∃ low < 2 ^ baseLowBits, row base = ((GuestMemory.ramOrigin + 4 * low : ℕ) : Fr)
  inWindow : ∃ room < 2 ^ baseRoomBits, row base + ((room : ℕ) : Fr) = ((2 ^ 31 - frameBytes : ℕ) : Fr)

/-- The gap of an access. -/
def gapOf (row : Row) (readTs : PolyAddress) (delta : ℕ) : ℕ :=
  ((Clock.tsStep : Fr) * row cycle + (delta : Fr) - row readTs - 1).val

/-- The committed chunk of a bounded number. -/
def chunkOf (n c : ℕ) : Fr := ((n / 2 ^ 16 / (2 ^ 16) ^ c % 2 ^ 16 : ℕ) : Fr)

/-- A frame's own witness columns over a row's memory columns. -/
def frameColumns (words frameBytes : ℕ) (row : Row) (i : ℕ) : Fr :=
  let low := (row base - (GuestMemory.ramOrigin : Fr)) / ((4 : ℕ) : Fr)
  let room := ((2 ^ 31 - frameBytes : ℕ) : Fr) - row base
  if i < gapChunks * words then
    chunkOf (gapOf row (word (i / gapChunks) wordReadTs) frameDelta) (i % gapChunks)
  else [low, chunkOf low.val 0, room, chunkOf room.val 0].getD (i - gapChunks * words) 0

theorem gapOf_of_follows {readTs : PolyAddress} {delta : ℕ} (follows : Follows row readTs delta) :
    gapOf row readTs delta < 2 ^ Clock.tsBits ∧
      (Clock.tsStep : Fr) * row cycle + (delta : Fr) = row readTs + 1 +
        ((gapOf row readTs delta : ℕ) : Fr) := by
  obtain ⟨gap, small, equal⟩ := follows
  have value : (Clock.tsStep : Fr) * row cycle + (delta : Fr) - row readTs - 1 = (gap : Fr) := by
    rw [equal]
    ring
  have same : gapOf row readTs delta = gap := by
    rw [gapOf, value]
    exact fr_val_natCast (lt_trans small (by norm_num [Clock.tsBits]))
  rw [same]
  exact ⟨small, equal⟩

/-- The gap obligations of an access say that its read precedes its write. -/
theorem gap_holds_iff {name : String} {readTs mask high higher : PolyAddress} {delta : ℕ}
    (selected : row mask = 1) :
    (∀ lookup ∈ boundChunked name [(lit Clock.tsStep, cycle), (neg 1, readTs)] [high, higher]
        Clock.tsBits mask (.literal ((delta : Fr) - 1)), lookup.Holds challenges decoded row) ↔
      Follows row readTs delta ∧ row high = chunkOf (gapOf row readTs delta) 0 ∧
        row higher = chunkOf (gapOf row readTs delta) 1 := by
  rw [boundChunked_holds_iff selected (List.cons_ne_nil _ _) (by norm_num [chunkBits, Clock.tsBits])
    (by norm_num [chunkBits, Clock.tsBits])]
  simp only [value_linear, List.map_cons, List.map_nil, List.sum_cons, List.sum_nil,
    coefficient_lit, coefficient_neg, coefficient_literal, List.length_cons, List.length_nil,
    Math.limbs, List.cons.injEq, and_true]
  constructor
  · intro given
    obtain ⟨gap, small, equal, highEq, higherEq⟩ := given
    have follows : (Clock.tsStep : Fr) * row cycle + (delta : Fr) =
        row readTs + 1 + ((gap : ℕ) : Fr) := by
      rw [← equal]
      push_cast
      ring
    have same : gapOf row readTs delta = gap := by
      rw [gapOf, follows, show row readTs + 1 + (gap : Fr) - row readTs - 1 = (gap : Fr) by ring]
      exact fr_val_natCast (lt_trans small (by norm_num [Clock.tsBits]))
    refine ⟨⟨gap, small, follows⟩, ?_, ?_⟩
    · rw [same, highEq, chunkOf, pow_zero, Nat.div_one]
    · rw [same, higherEq, chunkOf, pow_one]
  · intro given
    obtain ⟨follows, highEq, higherEq⟩ := given
    obtain ⟨small, equal⟩ := gapOf_of_follows follows
    refine ⟨gapOf row readTs delta, small, ?_, ?_, ?_⟩
    · push_cast at equal ⊢
      linear_combination equal
    · rw [highEq, chunkOf, pow_zero, Nat.div_one]
    · rw [higherEq, chunkOf, pow_one]

/-- The obligations on a column with one chunk say it is a number in range. -/
theorem chunk_holds_iff {name : String} {x hi selector : PolyAddress} (bits : ℕ)
    (selected : row selector = 1) (lower : 16 < bits) (upper : bits < 32) :
    (∀ lookup ∈ boundChunked name [(lit 1, x)] [hi] bits selector (lit 0),
        lookup.Holds challenges decoded row) ↔
      (∃ n < 2 ^ bits, row x = ((n : ℕ) : Fr)) ∧ row hi = chunkOf (row x).val 0 := by
  rw [boundChunked_holds_iff selected (List.cons_ne_nil _ _) (by simpa [chunkBits] using lower)
    (by simpa [chunkBits] using upper)]
  simp only [value_linear, List.map_cons, List.map_nil, List.sum_cons, List.sum_nil,
    coefficient_lit, List.length_cons, List.length_nil, Math.limbs, List.cons.injEq, and_true]
  have canonical {n : ℕ} (small : n < 2 ^ bits) : ((n : ℕ) : Fr).val = n :=
    fr_val_natCast (lt_trans small (Nat.pow_lt_pow_right (by norm_num) (by omega)))
  constructor
  · intro given
    obtain ⟨n, small, equal, hiEq⟩ := given
    have same : row x = (n : Fr) := by
      rw [← equal]
      push_cast
      ring
    refine ⟨⟨n, small, same⟩, ?_⟩
    rw [hiEq, same, canonical small, chunkOf, pow_zero, Nat.div_one]
  · intro given
    obtain ⟨⟨n, small, equal⟩, hiEq⟩ := given
    refine ⟨n, small, ?_, ?_⟩
    · rw [equal]
      push_cast
      ring
    · rw [hiEq, equal, canonical small, chunkOf, pow_zero, Nat.div_one]

/-- The obligations on a column that holds a number, with its chunks, bound the
number. -/
theorem chunks_number_iff {name : String} {x selector : PolyAddress} {chunk : ℕ → PolyAddress}
    {count bits n : ℕ} (selected : row selector = 1) (equal : row x = ((n : ℕ) : Fr))
    (canonical : n < frModulus) (some : 0 < count) (lower : 16 * count < bits)
    (upper : bits < 16 * (count + 1)) (small : bits ≤ 250) :
    (∀ lookup ∈ boundChunked name [(lit 1, x)] ((List.range count).map chunk) bits selector (lit 0),
        lookup.Holds challenges decoded row) ↔
      n < 2 ^ bits ∧ ∀ c < count, row (chunk c) = chunkOf n c := by
  have nonempty : (List.range count).map chunk ≠ [] := by
    intro empty
    simpa [some.ne'] using congrArg List.length empty
  rw [boundChunked_holds_iff selected nonempty (by simpa [chunkBits] using lower)
    (by simpa [chunkBits] using upper)]
  simp only [value_linear, List.map_cons, List.map_nil, List.sum_cons, List.sum_nil,
    coefficient_lit, List.length_map, List.length_range, Nat.cast_one, one_mul, Nat.cast_zero,
    add_zero, zero_add, equal]
  have pointwise (m : ℕ) :
      (((List.range count).map chunk).map row = (Math.limbs (2 ^ 16) count (m / 2 ^ 16)).map
          fun limb : ℕ => (limb : Fr)) ↔ ∀ c < count, row (chunk c) = chunkOf m c := by
    rw [List.ext_get_iff]
    simp only [List.length_map, List.length_range, Math.length_limbs, List.get_eq_getElem,
      List.getElem_map, List.getElem_range, true_and]
    refine forall_congr' fun c => ⟨fun each inside => ?_, fun each inside _ => ?_⟩
    · rw [each inside inside, chunkOf, ← @Math.getD_limbs (2 ^ 16) count _ c inside]
      simp [inside]
    · rw [each inside, chunkOf, ← @Math.getD_limbs (2 ^ 16) count _ c inside]
      simp [inside]
  constructor
  · intro given
    obtain ⟨m, few, same, chunks⟩ := given
    have number : n = m := by
      rw [← ZMod.val_natCast_of_lt canonical, same,
        fr_val_natCast (lt_of_lt_of_le few (Nat.pow_le_pow_right (by norm_num) small))]
    rw [number]
    exact ⟨few, (pointwise m).mp chunks⟩
  · intro given
    exact ⟨n, given.1, rfl, (pointwise n).mpr given.2⟩

/-- Unselected chunk obligations say nothing. -/
theorem boundChunked_holds_of_off {name : String} {x : List (Coeff × PolyAddress)}
    {chunks : List PolyAddress} {bits : ℕ} {selector : PolyAddress} {constant : Coeff}
    (off : row selector = 0) :
    ∀ lookup ∈ boundChunked name x chunks bits selector constant,
      lookup.Holds challenges decoded row := by
  intro lookup member
  rcases List.mem_append.mp member with direct | rest
  · obtain ⟨c, inside, rfl⟩ := List.mem_mapIdx.mp direct
    exact range_holds_of_off off
  · simp only [List.mem_cons, List.not_mem_nil, or_false] at rest
    rcases rest with rfl | rfl
    · exact range_holds_of_off off
    · exact range_holds_of_off off

/-- The gap obligations of a masked access bind where the mask is 1. -/
theorem access_holds_iff {access : Access} {high higher : PolyAddress}
    (chunks : access.gap = [high, higher]) (boolean : row access.mask = 0 ∨ row access.mask = 1) :
    (∀ lookup ∈ access.gapLookups, lookup.Holds challenges decoded row) ↔
      (row access.mask = 1 → Follows row access.readTs access.delta ∧
        row high = chunkOf (gapOf row access.readTs access.delta) 0 ∧
        row higher = chunkOf (gapOf row access.readTs access.delta) 1) := by
  rw [Access.gapLookups, chunks]
  rcases boolean with off | selected
  · refine ⟨fun _ selected => ?_, fun _ => boundChunked_holds_of_off off⟩
    rw [off] at selected
    exact absurd selected zero_ne_one
  · rw [gap_holds_iff selected]
    exact ⟨fun holds _ => holds, fun holds => holds selected⟩

/-- The frame's gates and obligations hold on a live row. -/
@[mk_iff frameHolds_iff_gates]
structure FrameHolds (challenges : ExternalChallenges) (decoded : List (List Fr)) (row : Row)
    (words frameBytes : ℕ) : Prop where
  gates : ∀ gate ∈ frameGatesRange16 words frameBytes (.witness (gapChunks * words))
    (.witness (gapChunks * words + 2)), gate.2.value challenges row = 0
  lookups : ∀ lookup ∈ frameLookupsRange16 words, lookup.Holds challenges decoded row

/-- The frame's gates on a live row. -/
private theorem frameGates_iff {words frameBytes : ℕ} {baseLow baseRoom : PolyAddress}
    (selected : row live = 1) :
    (∀ gate ∈ frameGatesRange16 words frameBytes baseLow baseRoom,
        gate.2.value challenges row = 0) ↔
      (∀ j < words, row (word j wordAddr) = row base + ((4 * j : ℕ) : Fr)) ∧
        row baseLow = (row base - (GuestMemory.ramOrigin : Fr)) / ((4 : ℕ) : Fr) ∧
        row baseRoom = ((2 ^ 31 - frameBytes : ℕ) : Fr) - row base := by
  have four : ((4 : ℕ) : Fr) ≠ 0 := @fr_natCast_ne_zero 4 (by norm_num) (by norm_num)
  simp only [frameGatesRange16, List.cons_append, List.forall_mem_cons, List.forall_mem_append,
    List.forall_mem_map, List.mem_range, List.not_mem_nil, IsEmpty.forall_iff, implies_true,
    and_true, booleanity, quadratic, value_quadratic, List.map_cons, List.map_nil, List.sum_cons,
    List.sum_nil, coefficient_lit, coefficient_neg, selected, eq_div_iff four]
  constructor
  · intro given
    obtain ⟨_, addr, aligned, inWindow⟩ := given
    refine ⟨fun j inside => ?_, ?_, ?_⟩
    · have gate := addr j inside
      push_cast at gate ⊢
      linear_combination gate
    · push_cast at aligned ⊢
      linear_combination -aligned
    · linear_combination -inWindow
  · intro given
    obtain ⟨addr, aligned, inWindow⟩ := given
    refine ⟨by push_cast; ring, fun j inside => ?_, ?_, ?_⟩
    · have equal := addr j inside
      push_cast at equal ⊢
      linear_combination equal
    · push_cast at aligned ⊢
      linear_combination -aligned
    · linear_combination -inWindow

/-- A gap chunk's column tells its word and its place. -/
theorem gapChunk_index (j : ℕ) {c : ℕ} (few : c < 2) :
    (gapChunks * j + c) / gapChunks = j ∧ (gapChunks * j + c) % gapChunks = c := by
  unfold gapChunks
  omega

/-- A live row's frame holds exactly when its memory columns are a frame's and
its own witness columns are the frame's. -/
theorem frameHolds_iff {words frameBytes : ℕ} (selected : row live = 1) :
    FrameHolds challenges decoded row words frameBytes ↔
      FrameOk row words frameBytes ∧ ∀ i < frameWitnessRange16 words,
        row (.witness i) = frameColumns words frameBytes row i := by
  have four : ((4 : ℕ) : Fr) ≠ 0 := @fr_natCast_ne_zero 4 (by norm_num) (by norm_num)
  have gaps : (∀ lookup ∈ gapLookupsRange16 words gapChunk, lookup.Holds challenges decoded row) ↔
      ∀ j < words, Follows row (word j wordReadTs) frameDelta ∧
        row (gapChunk j 0) = chunkOf (gapOf row (word j wordReadTs) frameDelta) 0 ∧
        row (gapChunk j 1) = chunkOf (gapOf row (word j wordReadTs) frameDelta) 1 := by
    simp only [gapLookupsRange16, List.mem_flatMap, List.mem_range, forall_exists_index, and_imp]
    exact ⟨fun holds j inside => (gap_holds_iff selected).mp fun lookup member =>
        holds lookup j inside member,
      fun each lookup j inside member => (gap_holds_iff selected).mpr (each j inside) lookup member⟩
  have parts : FrameHolds challenges decoded row words frameBytes ↔
      (∀ gate ∈ frameGatesRange16 words frameBytes (.witness (gapChunks * words))
        (.witness (gapChunks * words + 2)), gate.2.value challenges row = 0) ∧
      ∀ lookup ∈ frameLookupsRange16 words, lookup.Holds challenges decoded row :=
    ⟨fun holds => ⟨holds.gates, holds.lookups⟩, fun holds => ⟨holds.1, holds.2⟩⟩
  rw [parts, frameGates_iff selected]
  simp only [frameLookupsRange16, baseLookupsRange16, List.forall_mem_append, gaps,
    chunk_holds_iff baseLowBits selected (by norm_num [baseLowBits]) (by norm_num [baseLowBits]),
    chunk_holds_iff baseRoomBits selected (by norm_num [baseRoomBits]) (by norm_num [baseRoomBits])]
  constructor
  · intro given
    obtain ⟨⟨addr, lowEq, roomEq⟩, gap, ⟨⟨low, lowSmall, lowIs⟩, lowHi⟩,
      ⟨room, roomSmall, roomIs⟩, roomHi⟩ := given
    refine ⟨⟨addr, fun j inside => (gap j inside).1, ⟨low, lowSmall, ?_⟩, ⟨room, roomSmall, ?_⟩⟩, ?_⟩
    · rw [lowIs, eq_div_iff four] at lowEq
      push_cast
      linear_combination -lowEq
    · rw [roomIs] at roomEq
      linear_combination roomEq
    · intro i inside
      rw [frameWitnessRange16] at inside
      rw [frameColumns]
      split_ifs with isGap
      · obtain ⟨j, c, few, rfl⟩ : ∃ j c, c < 2 ∧ i = gapChunks * j + c :=
          ⟨i / 2, i % 2, Nat.mod_lt _ (by norm_num), (Nat.div_add_mod i 2).symm⟩
        rw [gapChunks] at isGap
        have inWords : j < words := by omega
        rw [(gapChunk_index j few).1, (gapChunk_index j few).2]
        have both := (gap j inWords).2
        have bit : c = 0 ∨ c = 1 := by omega
        rcases bit with rfl | rfl
        · exact both.1
        · exact both.2
      · obtain ⟨k, rfl⟩ : ∃ k, i = gapChunks * words + k :=
          ⟨i - gapChunks * words, by omega⟩
        have few : k < 4 := by omega
        rw [Nat.add_sub_cancel_left]
        interval_cases k
        · exact lowEq
        · rw [← lowEq]; exact lowHi
        · exact roomEq
        · rw [← roomEq]; exact roomHi
  · intro given
    obtain ⟨⟨addr, follows, ⟨low, lowSmall, lowIs⟩, ⟨room, roomSmall, roomIs⟩⟩, columns⟩ := given
    have gap (j c : ℕ) (inside : j < words) (few : c < 2) :
        row (gapChunk j c) = chunkOf (gapOf row (word j wordReadTs) frameDelta) c := by
      have column := columns (gapChunks * j + c) (by rw [frameWitnessRange16, gapChunks]; omega)
      rw [frameColumns, if_pos (by rw [gapChunks]; omega), (gapChunk_index j few).1,
        (gapChunk_index j few).2] at column
      exact column
    have after (k : ℕ) (few : k < 4) : row (.witness (gapChunks * words + k)) = _ :=
      columns (gapChunks * words + k) (by rw [frameWitnessRange16]; omega)
    simp only [frameColumns, Nat.not_lt.mpr (Nat.le_add_right _ _), ↓reduceIte,
      Nat.add_sub_cancel_left] at after
    have lowEq := after 0 (by norm_num)
    have lowHi := after 1 (by norm_num)
    have roomEq := after 2 (by norm_num)
    have roomHi := after 3 (by norm_num)
    simp only [List.getD_cons_zero, List.getD_cons_succ, add_zero] at lowEq lowHi roomEq roomHi
    refine ⟨⟨addr, lowEq, roomEq⟩, fun j inside => ⟨follows j inside, gap j 0 inside (by norm_num),
      gap j 1 inside (by norm_num)⟩, ⟨⟨low, lowSmall, ?_⟩, ?_⟩, ⟨room, roomSmall, ?_⟩, ?_⟩
    · rw [lowEq, div_eq_iff four, lowIs]
      push_cast
      ring
    · rw [lowHi, lowEq]
    · rw [roomEq, ← roomIs]
      ring
    · rw [roomHi, roomEq]

/-- A frame holds of its memory columns and its own witness columns alone. -/
theorem frameHolds_withColumns {words frameBytes start stop : ℕ} {columns : ℕ → Fr}
    (selected : row live = 1) (after : frameWitnessRange16 words ≤ start) :
    FrameHolds challenges decoded (row.withColumns start stop columns) words frameBytes ↔
      FrameHolds challenges decoded row words frameBytes := by
  rw [frameHolds_iff selected,
    @frameHolds_iff challenges decoded (row.withColumns start stop columns) _ _ selected]
  refine and_congr ⟨fun ok => ⟨ok.addr, ok.follows, ok.aligned, ok.inWindow⟩,
    fun ok => ⟨ok.addr, ok.follows, ok.aligned, ok.inWindow⟩⟩
    (forall₂_congr fun i inside => ?_)
  rw [Row.withColumns_of_lt row columns (lt_of_lt_of_le inside after)]
  rfl

/-- The write-back gates of a read-only frame keep every word. -/
theorem writesBack_iff {words : ℕ} : (∀ gate ∈ writesBack words, gate.2.value challenges row = 0) ↔
      ∀ j < words, row (word j wordWriteValue) = row (word j wordReadValue) := by
  simp only [writesBack, List.forall_mem_map, List.mem_range, linear, value_linear,
    List.map_cons, List.map_nil, List.sum_cons, List.sum_nil, coefficient_lit, coefficient_neg]
  refine forall₂_congr fun j _ => ?_
  rw [← @sub_eq_zero _ _ _ (row (word j wordReadValue))]
  push_cast
  ring_nf

/-- A row under the frame's own witness columns, then a family's. -/
def withFrame (words frameBytes : ℕ) (row : Row) (family : ℕ → Fr) : Row :=
  row.withWitness fun i =>
    if i < frameWitnessRange16 words then frameColumns words frameBytes row i
    else family (i - frameWitnessRange16 words)

@[simp]
theorem withFrame_witness (words frameBytes : ℕ) (family : ℕ → Fr) (i : ℕ) :
    withFrame words frameBytes row family (.witness (frameWitnessRange16 words + i)) = family i := by
  rw [withFrame, Row.withWitness, if_neg (by omega), Nat.add_sub_cancel_left]

/-- A frame's memory columns have witness columns. -/
theorem frameHolds_withFrame {words frameBytes : ℕ} (family : ℕ → Fr) (selected : row live = 1)
    (ok : FrameOk row words frameBytes) :
    FrameHolds challenges decoded (withFrame words frameBytes row family) words frameBytes := by
  refine (@frameHolds_iff challenges decoded (withFrame words frameBytes row family) words frameBytes
    selected).mpr
    ⟨⟨ok.addr, ok.follows, ok.aligned, ok.inWindow⟩, ?_⟩
  intro i inside
  exact if_pos inside

end Frame

end Delegation

end Apogee
