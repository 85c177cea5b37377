import Apogee.Circuit.Wire

/-! # The artifacts that are stored

What the reader accepts has numbers of their types and a gate's split that is a 32-bit
count. So an artifact is read back from its encoding exactly when it fits: past a split of
32 bits the writer's count wraps, and the bytes are those of another artifact.
-/

namespace Apogee

open Apogee.Math

namespace Postcard

/-! ## Numbers, names and lists -/

theorem varint_yields {groups last : ℕ} :
    Yields (varint last (groups + 1)) fun n => n < 128 ^ groups * (last + 1) := by
  induction groups with
  | zero =>
    intro bytes value rest ran
    obtain ⟨group, middle, -, ran⟩ := reader_bind.mp ran
    by_cases short : group < 128
    · rw [if_pos short] at ran
      by_cases wide : last < group
      · rw [if_pos ⟨rfl, wide⟩] at ran
        cases ran
      · rw [if_neg fun both => wide both.2] at ran
        cases reader_pure.mp ran
        omega
    · rw [if_neg short] at ran
      obtain ⟨high, after, none, -⟩ := reader_bind.mp ran
      cases none
  | succ groups ih =>
    intro bytes value rest ran
    have unit : 128 ≤ 128 ^ (groups + 1) * (last + 1) := by
      rw [pow_succ, Nat.mul_right_comm]
      exact Nat.le_mul_of_pos_left _ (Nat.mul_pos (Nat.pow_pos (by decide)) (Nat.succ_pos _))
    have scaled : 128 ^ (groups + 1) * (last + 1) = 128 * (128 ^ groups * (last + 1)) := by ring
    obtain ⟨group, middle, read, ran⟩ := reader_bind.mp ran
    have small : group < 256 := by
      cases bytes with
      | nil => cases read
      | cons first others =>
        cases read
        exact first.toNat_lt
    by_cases short : group < 128
    · rw [if_pos short, if_neg fun both => absurd both.1 (Nat.succ_ne_zero groups)] at ran
      cases reader_pure.mp ran
      omega
    · rw [if_neg short] at ran
      obtain ⟨high, after, above, ran⟩ := reader_bind.mp ran
      have bound := ih _ _ _ above
      cases reader_pure.mp ran
      omega

theorem u32_yields : Yields u32 fun n => n < 2 ^ 32 := varint_yields

theorem length_yields : Yields length fun n => n < 2 ^ 64 := varint_yields

theorem seq_yields {α : Type} {item : Deserialize α} {fits : α → Prop} (items : Yields item fits) :
    Yields (seq item) (allFit fits) :=
  length_yields.bind fun n small => (items.repeatRead n).mono fun _ read => ⟨read.1 ▸ small, read.2⟩

theorem name_yields : Yields name nameFits := by
  have bytes : Yields (do
      let n ← length
      takeBytes () n) fun bytes : List UInt8 => bytes.length < 2 ^ 64 :=
    length_yields.bind fun n small => (takeBytes_yields () n).mono fun _ exact => exact ▸ small
  refine bytes.convert fun bytes name small converted => ?_
  rw [nameOfBytes, String.fromUTF8?] at converted
  by_cases valid : (ByteArray.mk bytes.toArray).IsValidUTF8
  · rw [dif_pos valid] at converted
    cases converted
    exact small
  · rw [dif_neg valid] at converted
    cases converted

theorem option_yields {α : Type} {item : Deserialize α} {fits : α → Prop} (items : Yields item fits) :
    Yields (option item) fun value => ∀ inner, value = some inner → fits inner := by
  intro bytes value rest ran
  obtain ⟨tag, middle, -, ran⟩ := reader_bind.mp ran
  by_cases none : tag = 0
  · rw [if_pos none] at ran
    cases reader_pure.mp ran
    exact fun inner held => by cases held
  rw [if_neg none] at ran
  by_cases one : tag = 1
  · rw [if_pos one] at ran
    obtain ⟨inner, after, read, ran⟩ := reader_bind.mp ran
    cases reader_pure.mp ran
    exact fun other held => by cases held; exact items _ _ _ read
  · rw [if_neg one] at ran
    cases ran

/-! ## Addresses and coefficients -/

theorem convert_orRefuse {α β : Type} {f : α → Option β} {value : α} {x : β}
    (converted : orRefuse f value = .ok x) : f value = some x := by
  rw [orRefuse] at converted
  cases found : f value with
  | none =>
    rw [found] at converted
    cases converted
  | some other =>
    rw [found] at converted
    cases converted
    rfl

theorem words_of_addressOfWords {x : ℕ × ℕ × ℕ} {a : PolyAddress} (found : addressOfWords x = some a) :
    Serialize.addressWords a = x := by
  unfold addressOfWords at found
  split at found
  · cases found; rfl
  · cases found; rfl
  · cases found; rfl
  · rename_i tag
    obtain ⟨kind, same, rfl⟩ := Option.map_eq_some_iff.mp found
    rw [Serialize.addressWords, VirtualKind.tag_of_ofTag same]
  · cases found; rfl
  · cases found; rfl
  · cases found; rfl
  · cases found

theorem address_yields : Yields address PolyAddress.Fits := by
  have fields : Yields words fun x => x.2.1 < 2 ^ 32 ∧ x.2.2 < 2 ^ 32 := by
    refine Yields.after fun tag => ?_
    exact u32_yields.bind fun a first => u32_yields.bind fun b second => .pure ⟨first, second⟩
  refine fields.convert fun x a fits converted => ?_
  rwa [PolyAddress.Fits, words_of_addressOfWords (convert_orRefuse converted)]

theorem words_of_coeffOfWords {x : ℕ × ℕ × Fr} {c : Coeff} (found : coeffOfWords x = some c) :
    Serialize.coeffWords c = x := by
  unfold coeffOfWords at found
  split at found
  · cases found; rfl
  · rename_i slot v
    by_cases zero : v = 0
    · rw [if_pos zero] at found
      cases found
      rw [zero]
      rfl
    · rw [if_neg zero] at found
      cases found
  · cases found

theorem coeff_yields : Yields coeff Coeff.Fits := by
  have fields : Yields coeffWords fun x => x.2.1 < 2 ^ 32 := by
    refine Yields.after fun tag => u32_yields.bind fun slot small => ?_
    exact Yields.after fun v => .pure small
  refine fields.convert fun x c small converted => ?_
  rwa [Coeff.Fits, words_of_coeffOfWords (convert_orRefuse converted)]

/-! ## Gates -/

theorem exists_cut {α : Type} {values : List α} {n : ℕ} (enough : n ≤ values.length) :
    ∃ front back, values = front ++ back ∧ front.length = n :=
  ⟨values.take n, values.drop n, (List.take_append_drop n values).symm, List.length_take_of_le enough⟩

theorem exists_concat {α : Type} {values : List α} {n : ℕ} (long : values.length = n + 1) :
    ∃ front last, values = front ++ [last] ∧ front.length = n := by
  obtain ⟨front, back, rfl, exact⟩ := exists_cut (long ▸ Nat.le_succ n : n ≤ values.length)
  rw [List.length_append, exact] at long
  obtain ⟨last, rfl⟩ := List.length_eq_one_iff.mp (Nat.add_left_cancel long)
  exact ⟨front, last, rfl, exact⟩

/-- Two lists of one length are the halves of a list of pairs. -/
theorem exists_entries {α β : Type} {first : List α} {second : List β}
    (same : first.length = second.length) :
    ∃ entries : List (α × β), first = entries.map Prod.fst ∧ second = entries.map Prod.snd :=
  ⟨first.zip second, (List.map_fst_zip same.le).symm, (List.map_snd_zip same.ge).symm⟩

theorem linear_of_words {c : List Coeff} {o : List PolyAddress} {g : GateDef}
    (found : linearOfWords c o = some g) : g.split = 0 ∧ g.coefficients = c ∧ g.operands = o := by
  obtain ⟨counts, -⟩ := Option.ite_none_right_eq_some.mp found
  obtain ⟨front, constant, rfl, long⟩ := exists_concat counts
  obtain ⟨terms, rfl, rfl⟩ := exists_entries long
  rw [linearOfWords_words] at found
  cases found
  exact ⟨rfl, rfl, rfl⟩

theorem affine_of_words {t : ℕ} {c : List Coeff} {o : List PolyAddress} {g : GateDef}
    (found : affineOfWords t c o = some g) : g.split = t ∧ g.coefficients = c ∧ g.operands = o := by
  obtain ⟨⟨inside, counts⟩, -⟩ := Option.ite_none_right_eq_some.mp found
  obtain ⟨leftOperands, rightOperands, rfl, leftLong⟩ := exists_cut inside
  rw [List.length_append, leftLong] at counts
  obtain ⟨first, rest, rfl, firstLong⟩ := exists_cut (by omega : t + 1 ≤ c.length)
  obtain ⟨leftCoeffs, leftConstant, rfl, leftSame⟩ := exists_concat firstLong
  rw [List.length_append, firstLong] at counts
  obtain ⟨rightCoeffs, rightConstant, rfl, rightSame⟩ :=
    exists_concat (by omega : rest.length = rightOperands.length + 1)
  obtain ⟨left, rfl, rfl⟩ := exists_entries (leftSame.trans leftLong.symm)
  obtain ⟨right, rfl, rfl⟩ := exists_entries rightSame
  rw [List.length_map] at leftLong
  rw [← leftLong, ← List.map_append, affineOfWords_words] at found
  cases found
  exact ⟨leftLong, rfl, List.map_append⟩

theorem flatMap_pairs {o : List PolyAddress} (even : o.length % 2 = 0) :
    ((pairs o).flatMap fun pair => [pair.1, pair.2]) = o ∧ (pairs o).length = o.length / 2 := by
  induction o using pairs.induct with
  | case1 left right rest ih =>
    rw [List.length_cons, List.length_cons] at even
    obtain ⟨same, half⟩ := ih (by omega)
    refine ⟨?_, ?_⟩
    · rw [pairs, List.flatMap_cons, same]
      rfl
    · rw [pairs, List.length_cons, half, List.length_cons, List.length_cons]
      omega
  | case2 o short =>
    cases o with
    | nil => exact ⟨rfl, rfl⟩
    | cons first others =>
      cases others with
      | nil => exact absurd even (by simp)
      | cons second others => exact absurd rfl (short first second others)

theorem quadratic_of_words {t : ℕ} {c : List Coeff} {o : List PolyAddress} {g : GateDef}
    (found : quadraticOfWords t c o = some g) : g.split = t ∧ g.coefficients = c ∧ g.operands = o := by
  obtain ⟨⟨inside, even, counts⟩, -⟩ := Option.ite_none_right_eq_some.mp found
  obtain ⟨operands, factors, rfl, long⟩ := exists_cut inside
  rw [List.length_append, long, Nat.add_sub_cancel_left] at even counts
  obtain ⟨whole, half⟩ := flatMap_pairs even
  cases c with
  | nil =>
    rw [List.length_nil] at counts
    omega
  | cons constant others =>
    rw [List.length_cons] at counts
    obtain ⟨coeffs, scales, rfl, coeffsLong⟩ := exists_cut (by omega : t ≤ others.length)
    rw [List.length_append, coeffsLong] at counts
    obtain ⟨terms, rfl, rfl⟩ := exists_entries (coeffsLong.trans long.symm)
    obtain ⟨products, rfl, both⟩ := exists_entries (by omega : scales.length = (pairs factors).length)
    have flat : factors = products.flatMap fun term => [term.2.1, term.2.2] := by
      rw [← whole, both, List.flatMap_map]
    rw [List.length_map] at long
    rw [flat, ← long, quadraticOfWords_words] at found
    cases found
    exact ⟨long, rfl, flat ▸ rfl⟩

/-- A gate that is read is the one that its words are of. -/
theorem gate_of_words {x : GateWords} {g : GateDef} (found : gateOfWords x = some g) :
    g.split = x.split ∧ g.coefficients = x.coefficients ∧ g.operands = x.operands := by
  obtain ⟨tag, split, coefficients, operands⟩ := x
  unfold gateOfWords at found
  split at found
  · rename_i _ none
    rw [none]
    exact linear_of_words found
  · rename_i _ none one two
    cases found
    exact ⟨Eq.symm none, Eq.symm one, Eq.symm two⟩
  · rename_i _ none one two
    cases found
    exact ⟨Eq.symm none, Eq.symm one, Eq.symm two⟩
  · exact affine_of_words found
  · rename_i _ none one two
    cases found
    exact ⟨Eq.symm none, Eq.symm one, Eq.symm two⟩
  · exact quadratic_of_words found
  · rename_i _ none one two
    cases found
    exact ⟨Eq.symm none, Eq.symm one, Eq.symm two⟩
  · cases found

theorem gate_yields : Yields gate GateDef.Fits := by
  have fields : Yields gateWords fun x => x.split < 2 ^ 32 ∧ allFit Coeff.Fits x.coefficients ∧
      allFit PolyAddress.Fits x.operands := by
    refine Yields.after fun tag => u32_yields.bind fun split small => ?_
    refine (seq_yields coeff_yields).bind fun coefficients each => ?_
    exact (seq_yields address_yields).bind fun operands others => .pure ⟨small, each, others⟩
  refine fields.convert fun x g fits converted => ?_
  obtain ⟨small, coefficients, operands⟩ := fits
  obtain ⟨split, first, second⟩ := gate_of_words (convert_orRefuse converted)
  rw [← split] at small
  rw [← first] at coefficients
  rw [← second] at operands
  exact ⟨small, ⟨coefficients.1, operands.1⟩, coefficients.2, operands.2⟩

/-! ## Structures -/

theorem cachedEntry_yields : Yields cachedEntry CachedEntry.Fits :=
  name_yields.bind fun _ named => address_yields.bind fun _ addressed =>
    gate_yields.bind fun _ fits => .pure ⟨named, addressed, fits⟩

theorem producingEntry_yields : Yields producingEntry ProducingEntry.Fits :=
  u32_yields.bind fun _ small => address_yields.bind fun _ addressed =>
    gate_yields.bind fun _ fits => .pure ⟨small, addressed, fits⟩

theorem enforcingEntry_yields : Yields enforcingEntry EnforcingEntry.Fits :=
  u32_yields.bind fun _ small => gate_yields.bind fun _ fits => .pure ⟨small, fits⟩

theorem layerSpec_yields : Yields layerSpec LayerSpec.Fits :=
  Yields.after fun _ => u32_yields.bind fun _ vars => u32_yields.bind fun _ width =>
    (seq_yields cachedEntry_yields).bind fun _ cached =>
      (seq_yields producingEntry_yields).bind fun _ producing =>
        (seq_yields enforcingEntry_yields).bind fun _ enforcing =>
          .pure ⟨vars, width, cached, producing, enforcing⟩

theorem relation_yields : Yields relation Relation.Fits :=
  name_yields.bind fun _ named => (option_yields u32_yields).bind fun _ output =>
    gate_yields.bind fun _ fits => .pure ⟨named, output, fits⟩

theorem lookupExpr_yields : Yields lookupExpr LookupExpr.Fits :=
  name_yields.bind fun _ named => u32_yields.bind fun _ channel => address_yields.bind fun _ selector =>
    (seq_yields gate_yields).bind fun _ tuple => .pure ⟨named, channel, selector, tuple⟩

theorem scratchSlot_yields : Yields scratchSlot ScratchSlot.Fits :=
  name_yields.bind fun _ named => address_yields.bind fun _ addressed => .pure ⟨named, addressed⟩

theorem virtualTable_yields : Yields virtualTable fun entry => nameFits entry.2 :=
  Yields.after fun _ => name_yields.bind fun _ named => .pure named

theorem padding_yields : Yields padding fun x => x.row.length < 2 ^ 64 := by
  have field : Yields fr fun _ => True := fun _ _ _ _ => trivial
  exact (seq_yields field).bind fun _ row => Yields.after fun _ => .pure row.1

/-- An artifact that is read fits. -/
theorem artifact_yields : Yields artifact CircuitArtifact.Fits :=
  u32_yields.bind fun _ formatVersion => u32_yields.bind fun _ coefficientEncoding =>
    u32_yields.bind fun _ traceVars => (seq_yields name_yields).bind fun _ memory =>
      (seq_yields name_yields).bind fun _ witness => (seq_yields name_yields).bind fun _ setup =>
        (seq_yields virtualTable_yields).bind fun _ virtuals =>
          (seq_yields layerSpec_yields).bind fun _ layers =>
            (seq_yields relation_yields).bind fun _ relations =>
              (seq_yields lookupExpr_yields).bind fun _ lookups =>
                (seq_yields scratchSlot_yields).bind fun _ scratch =>
                  (seq_yields address_yields).bind fun _ outputs =>
                    padding_yields.bind fun _ padding =>
                      .pure ⟨formatVersion, coefficientEncoding, traceVars, memory, witness, setup,
                        virtuals, layers, relations, lookups, scratch, outputs, padding⟩

end Postcard

namespace CircuitArtifact

theorem fits_of_fromBytes {bytes : List UInt8} {x : CircuitArtifact}
    (decoded : fromBytes bytes = .ok x) : x.formatVersion = FORMAT_VERSION ∧ x.Fits := by
  simp only [fromBytes, bind_ok] at decoded
  obtain ⟨⟨version, after⟩, first, decoded⟩ := decoded
  by_cases foreign : version ≠ FORMAT_VERSION
  · rw [if_pos foreign] at decoded
    cases decoded
  rw [if_neg foreign, bind_ok] at decoded
  obtain ⟨found, read, decoded⟩ := decoded
  by_cases same : found.1.toBytes = some bytes
  · rw [if_pos same] at decoded
    cases decoded
    refine ⟨?_, Postcard.artifact_yields _ _ _ read⟩
    obtain ⟨number, middle, again, others⟩ := reader_bind.mp read
    cases first.symm.trans again
    refine Eq.trans ?_ (not_not.mp foreign)
    -- the version that is checked is the first of the artifact's own numbers
    refine @Yields.after _ _ _ _ _ (fun x => x.formatVersion = version) (fun _ => ?_) _ _ _ others
    exact Yields.after fun _ => Yields.after fun _ => Yields.after fun _ => Yields.after fun _ =>
      Yields.after fun _ => Yields.after fun _ => Yields.after fun _ => Yields.after fun _ =>
        Yields.after fun _ => Yields.after fun _ => Yields.after fun _ => .pure rfl
  · rw [if_neg same] at decoded
    cases decoded

/-- An artifact is read back from its encoding exactly when it is of this format, its numbers
and lists are of their types, and each of its gates splits its operands at a 32-bit count;
and what is read has the bytes that it was read from as its encoding. -/
theorem decodes_iff_fits (x : CircuitArtifact) :
    (x.Decodes ↔ x.formatVersion = FORMAT_VERSION ∧ x.Fits) ∧
      ∀ bytes, fromBytes bytes = .ok x → x.toBytes = some bytes := by
  refine ⟨⟨fun ⟨bytes, _, decoded⟩ => fits_of_fromBytes decoded,
    fun ⟨version, fits⟩ => decodes_of_fits fits version⟩, fun bytes decoded => ?_⟩
  exact (fromBytes_ok.mp decoded).2

/-- A gate of so many terms on the left and on the right, all alike. -/
def lopsidedGate (left right : ℕ) : GateDef :=
  .affineProduct (List.replicate left (lit 0, .memory 0)) (lit 0)
    (List.replicate right (lit 0, .memory 0)) (lit 0)

/-- An artifact of one relation. -/
def lopsided (left right : ℕ) : CircuitArtifact where
  formatVersion := FORMAT_VERSION
  coefficientEncoding := COEFFICIENT_ENCODING_CANONICAL_LE
  traceVars := 0
  memory := []
  witness := []
  setup := []
  virtuals := []
  layers := []
  relations := [⟨"", none, lopsidedGate left right⟩]
  lookups := []
  scratch := []
  outputs := []
  padding := ⟨[], true⟩

theorem lopsidedGate_words (left right : ℕ) :
    (lopsidedGate left right).coefficients = List.replicate (left + right + 2) (lit 0) ∧
      (lopsidedGate left right).operands = List.replicate (left + right) (.memory 0) := by
  refine ⟨?_, ?_⟩
  · rw [lopsidedGate, GateDef.coefficients, List.map_replicate, List.map_replicate, List.append_assoc,
      ← List.replicate_one, ← List.replicate_add, ← List.replicate_add, ← List.replicate_add]
    congr 1
    omega
  · rw [lopsidedGate, GateDef.operands, ← List.replicate_add, List.map_replicate]

theorem lopsidedGate_fits {left right : ℕ} (split : left < 2 ^ 32) (counts : left + right + 2 < 2 ^ 64) :
    (lopsidedGate left right).Fits := by
  obtain ⟨coefficients, operands⟩ := lopsidedGate_words left right
  refine ⟨?_, ?_, ?_, ?_⟩
  · rwa [lopsidedGate, GateDef.split, List.length_replicate]
  · rw [coefficients, operands, List.length_replicate, List.length_replicate]
    omega
  · intro c member
    rw [coefficients] at member
    rw [List.eq_of_mem_replicate member]
    exact Nat.two_pow_pos 32
  · intro a member
    rw [operands] at member
    rw [List.eq_of_mem_replicate member]
    exact ⟨Nat.two_pow_pos 32, Nat.two_pow_pos 32⟩

theorem lopsided_fits {left right : ℕ} (split : left < 2 ^ 32) (counts : left + right + 2 < 2 ^ 64) :
    (lopsided left right).Fits := by
  have empty : ∀ {α : Type} {fits : α → Prop}, allFit fits [] :=
    ⟨Nat.two_pow_pos 64, fun value member => absurd member List.not_mem_nil⟩
  have relations : allFit Relation.Fits (lopsided left right).relations := by
    refine ⟨Nat.one_lt_two_pow (by decide), List.forall_mem_singleton.mpr ?_⟩
    refine ⟨Nat.two_pow_pos 64, fun slot held => ?_, lopsidedGate_fits split counts⟩
    cases held
  exact ⟨Nat.one_lt_two_pow (by decide), Nat.two_pow_pos 32, Nat.two_pow_pos 32, empty, empty, empty,
    empty, empty, relations, empty, empty, empty, Nat.two_pow_pos 64⟩

theorem lopsided_inj {left right left' right' : ℕ} (same : lopsided left right = lopsided left' right') :
    left = left' := by
  have splits := congrArg (fun x : CircuitArtifact => x.relations.map fun r => r.gate.split) same
  simpa [lopsided, lopsidedGate, GateDef.split] using splits

theorem toBytes_lopsided {left right left' right' : ℕ}
    (same : Serialize.gate (lopsidedGate left right) = Serialize.gate (lopsidedGate left' right')) :
    (lopsided left right).toBytes = (lopsided left' right').toBytes := by
  simp only [toBytes, Serialize.artifact, lopsided, Serialize.seq, writeEach, List.map_cons, List.map_nil,
    Serialize.relation, same, List.length_cons, List.length_nil]

/-- Two artifacts have one encoding: that of 2^32 terms on the left is read as the one of as
many on the right. -/
theorem lopsided_collides : ∃ x y bytes, x ≠ y ∧ x.formatVersion = FORMAT_VERSION ∧
    x.toBytes = some bytes ∧ fromBytes bytes = .ok y := by
  have gates : Serialize.gate (lopsidedGate (2 ^ 32) 0) = Serialize.gate (lopsidedGate 0 (2 ^ 32)) := by
    obtain ⟨coefficients, operands⟩ := lopsidedGate_words (2 ^ 32) 0
    obtain ⟨coefficients', operands'⟩ := lopsidedGate_words 0 (2 ^ 32)
    have tags : Serialize.gateTag (lopsidedGate (2 ^ 32) 0) =
        Serialize.gateTag (lopsidedGate 0 (2 ^ 32)) := by
      rw [lopsidedGate, lopsidedGate, Serialize.gateTag, Serialize.gateTag, List.length_replicate,
        List.length_replicate, Nat.mod_self, Nat.zero_mod]
    rw [Serialize.gate, Serialize.gate, tags, coefficients, operands, coefficients', operands',
      Nat.add_comm (2 ^ 32) 0]
  obtain ⟨bytes, wrote, decoded⟩ :=
    decodes_of_fits (lopsided_fits (Nat.two_pow_pos 32) (by norm_num) : (lopsided 0 (2 ^ 32)).Fits) rfl
  refine ⟨lopsided (2 ^ 32) 0, lopsided 0 (2 ^ 32), bytes, fun equal => ?_, rfl,
    (toBytes_lopsided gates).trans wrote, decoded⟩
  exact absurd (lopsided_inj equal) (Nat.two_pow_pos 32).ne'

end CircuitArtifact

end Apogee
