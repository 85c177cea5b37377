import Apogee.Verifier.Absorb
import Apogee.Verifier.Coverage

/-! # What a transcript binds

A statement's stream is a concatenation of framed messages, so it is read back
message by message: equal streams are equal statements.
-/

namespace Apogee

open Apogee.Math Apogee.Memory Duplex

/-- A config whose numbers are their types' and whose list fits in memory. -/
structure VmConfig.InRange (config : VmConfig) : Prop where
  families : ∀ entry ∈ config.families, entry.1 < 2 ^ 32 ∧ entry.2 < 2 ^ 32
  ceiling : config.bytecodeSizeWords < 2 ^ 32
  held : Allocated 8 config.families

/-- Finals whose numbers are their types'. -/
structure FinalsInRange (finals : BoundaryFinals) : Prop where
  regTs : ∀ r, finals.regTs r < 2 ^ 64
  pcTs : finals.pcTs < 2 ^ 64
  regValues : ∀ r, finals.regValues r < 2 ^ 32

/-- A statement whose numbers are their types' and whose lists fit in memory. -/
structure PublicInputs.InRange (statement : PublicInputs) : Prop where
  input : Allocated 1 statement.input
  output : Allocated 1 statement.output
  shardCounts : (∀ count ∈ statement.shardCounts, count < 2 ^ 32) ∧
    Allocated 4 statement.shardCounts
  windows : (∀ window ∈ statement.windows, window < 2 ^ 32) ∧ Allocated 4 statement.windows
  boundary : FinalsInRange statement.boundary
  memoryCommitments : ∀ list ∈ statement.memoryCommitments, Allocated 64 list

/-- An accepted config is in range. -/
theorem VmConfig.Derived.inRange {config : VmConfig} (derived : config.Derived) :
    config.InRange where
  families entry member :=
    ⟨(derived.known entry member).trans (by decide), menu_lt (derived.menu entry member)⟩
  ceiling := derived.ceiling
  held := by
    have few := derived.length_le
    calc 8 * config.families.length ≤ 8 * Family.count := Nat.mul_le_mul_left 8 few
      _ < 2 ^ 63 := by decide

section Messages

theorem Allocated.short {α : Type} {itemBytes : ℕ} {values : List α}
    (held : Allocated itemBytes values) (positive : 0 < itemBytes) : values.length < 2 ^ 250 :=
  (held.length_lt positive).trans (by decide)

/-- Small numbers are told apart by their elements. -/
theorem map_natCast_inj {xs ys : List ℕ} (smallX : ∀ x ∈ xs, x < 2 ^ 64)
    (smallY : ∀ y ∈ ys, y < 2 ^ 64)
    (same : xs.map (fun x : ℕ => (x : Fr)) = ys.map fun y : ℕ => (y : Fr)) : xs = ys := by
  induction xs generalizing ys with
  | nil => exact (List.map_eq_nil_iff.mp same.symm).symm
  | cons x xs ih =>
    cases ys with
    | nil => cases same
    | cons y ys =>
      obtain ⟨heads, tails⟩ := List.cons.inj same
      have values : x = y := fr_natCast_inj ((smallX x List.mem_cons_self).trans (by decide))
        ((smallY y List.mem_cons_self).trans (by decide)) heads
      rw [values, ih (fun z member => smallX z (List.mem_cons_of_mem x member))
        (fun z member => smallY z (List.mem_cons_of_mem y member)) tails]

/-- A message of numbers. -/
theorem numbers_framed (tag : ℕ) : Framed
    (fun xs : List ℕ => (∀ x ∈ xs, x < 2 ^ 32) ∧ Allocated 4 xs)
    fun xs => message tag (xs.map fun x : ℕ => (x : Fr)) := by
  rintro xs ys rest rest' ⟨smallX, heldX⟩ ⟨smallY, heldY⟩ same
  have room : 2 ^ 32 ≤ 2 ^ 64 := by decide
  have short : ∀ {zs : List ℕ}, Allocated 4 zs →
      (zs.map fun z : ℕ => (z : Fr)).length < 2 ^ 250 := by
    intro zs held
    rw [List.length_map]
    exact held.short (by decide)
  obtain ⟨elements, rests⟩ :=
    message_framed tag _ _ rest rest' (short heldX) (short heldY) same
  exact ⟨map_natCast_inj (fun x member => (smallX x member).trans_le room)
    (fun y member => (smallY y member).trans_le room) elements, rests⟩

/-- A message of one scalar. -/
theorem scalar_framed (tag : ℕ) : Framed (fun _ : Fr => True) fun x => message tag [x] := by
  intro x y rest rest' _ _ same
  have single : 1 < 2 ^ 250 := by decide
  obtain ⟨elements, rests⟩ := message_framed tag [x] [y] rest rest' single single same
  exact ⟨(List.cons.inj elements).1, rests⟩

/-- A message of one number. -/
theorem number_framed (tag : ℕ) :
    Framed (fun x : ℕ => x < 2 ^ 64) fun x => message tag [(x : Fr)] := by
  intro x y rest rest' smallX smallY same
  obtain ⟨elements, rests⟩ := scalar_framed tag (x : Fr) y rest rest' trivial trivial same
  exact ⟨fr_natCast_inj (smallX.trans (by decide)) (smallY.trans (by decide)) elements, rests⟩

theorem config_scalars_length (config : VmConfig) :
    config.scalars.length = 2 * config.families.length + 1 := by
  simp only [VmConfig.scalars, List.length_append, List.length_map, List.length_singleton]
  omega

/-- A config's message: its length fixes the number of families. -/
theorem config_framed (tag : ℕ) :
    Framed VmConfig.InRange fun config => message tag config.scalars := by
  intro x y rest rest' rangeX rangeY same
  have short : ∀ {config : VmConfig}, config.InRange → config.scalars.length < 2 ^ 250 := by
    intro config range
    rw [config_scalars_length]
    have few := range.held.length_lt (by decide)
    omega
  obtain ⟨elements, rests⟩ :=
    message_framed tag _ _ rest rest' (short rangeX) (short rangeY) same
  refine ⟨?_, rests⟩
  have lengths := congrArg List.length elements
  rw [config_scalars_length, config_scalars_length, Nat.add_right_cancel_iff] at lengths
  have families : x.families.length = y.families.length :=
    Nat.eq_of_mul_eq_mul_left (by decide) lengths
  obtain ⟨pairs, last⟩ := List.append_inj' elements rfl
  obtain ⟨ids, heights⟩ := List.append_inj pairs (by rw [List.length_map, List.length_map, families])
  have room : 2 ^ 32 ≤ 2 ^ 64 := by decide
  have firsts : x.families.map Prod.fst = y.families.map Prod.fst := by
    apply map_natCast_inj _ _ (by rw [List.map_map, List.map_map]; exact ids)
    · rintro _ member
      obtain ⟨entry, listed, rfl⟩ := List.mem_map.mp member
      exact (rangeX.families entry listed).1.trans_le room
    · rintro _ member
      obtain ⟨entry, listed, rfl⟩ := List.mem_map.mp member
      exact (rangeY.families entry listed).1.trans_le room
  have seconds : x.families.map Prod.snd = y.families.map Prod.snd := by
    apply map_natCast_inj _ _ (by rw [List.map_map, List.map_map]; exact heights)
    · rintro _ member
      obtain ⟨entry, listed, rfl⟩ := List.mem_map.mp member
      exact (rangeX.families entry listed).2.trans_le room
    · rintro _ member
      obtain ⟨entry, listed, rfl⟩ := List.mem_map.mp member
      exact (rangeY.families entry listed).2.trans_le room
  have entries : x.families = y.families := by
    rw [← List.zip_unzip x.families, ← List.zip_unzip y.families, List.unzip_eq_map,
      List.unzip_eq_map, firsts, seconds]
  have ceilings : x.bytecodeSizeWords = y.bytecodeSizeWords :=
    fr_natCast_inj (rangeX.ceiling.trans (by decide)) (rangeY.ceiling.trans (by decide))
      (List.cons.inj last).1
  cases x
  cases y
  dsimp only at entries ceilings
  rw [entries, ceilings]

/-- The boundary's scalars are its finals. -/
theorem boundaryScalars_inj {x y : BoundaryFinals} (rangeX : FinalsInRange x)
    (rangeY : FinalsInRange y) (same : boundaryScalars x = boundaryScalars y) : x = y := by
  have fixed : ∀ {n : ℕ} (f g : Fin n → Fr), (List.ofFn f).length = (List.ofFn g).length := by
    intro n f g
    rw [List.length_ofFn, List.length_ofFn]
  obtain ⟨front, values⟩ := List.append_inj' same (fixed _ _)
  obtain ⟨times, pcs⟩ := List.append_inj' front rfl
  have regTs : x.regTs = y.regTs := by
    funext r
    exact fr_natCast_inj ((rangeX.regTs r).trans (by decide)) ((rangeY.regTs r).trans (by decide))
      (congrFun (List.ofFn_injective times) r)
  have regValues : x.regValues = y.regValues := by
    funext r
    exact fr_natCast_inj ((rangeX.regValues r).trans (by decide))
      ((rangeY.regValues r).trans (by decide)) (congrFun (List.ofFn_injective values) r)
  have pcTs : x.pcTs = y.pcTs := fr_natCast_inj (rangeX.pcTs.trans (by decide))
    (rangeY.pcTs.trans (by decide)) (List.cons.inj pcs).1
  cases x
  cases y
  dsimp only at regTs regValues pcTs
  rw [regTs, regValues, pcTs]

theorem boundaryScalars_length (finals : BoundaryFinals) : (boundaryScalars finals).length = 64 := by
  rw [boundaryScalars, List.length_append, List.length_append, List.length_ofFn, List.length_ofFn]
  rfl

theorem boundary_framed (tag : ℕ) :
    Framed FinalsInRange fun finals => message tag (boundaryScalars finals) := by
  have short : ∀ finals, (boundaryScalars finals).length < 2 ^ 250 := by
    intro finals
    rw [boundaryScalars_length]
    decide
  intro x y rest rest' rangeX rangeY same
  obtain ⟨elements, rests⟩ := message_framed tag _ _ rest rest' (short x) (short y) same
  exact ⟨boundaryScalars_inj rangeX rangeY elements, rests⟩

/-- A digest's bytes, as a message. -/
theorem digest_framed (tag : ℕ) :
    Framed (fun _ : Fr => True) fun x => bytesMessage tag (leBytes 32 x.val) := by
  have short : ∀ x : Fr, (leBytes 32 x.val).length < 2 ^ 250 := by
    intro x
    rw [leBytes_length]
    decide
  have small : ∀ x : Fr, x.val < 256 ^ 32 := by
    intro x
    exact x.val_lt.trans (by norm_num [frModulus])
  intro x y rest rest' _ _ same
  obtain ⟨encodings, rests⟩ := bytesMessage_framed tag _ _ rest rest' (short x) (short y) same
  refine ⟨ZMod.val_injective _ ?_, rests⟩
  rw [← leValue_leBytes (small x), ← leValue_leBytes (small y), encodings]

end Messages

section Streams

variable (permute : Lanes → Lanes)

/-- The groups' stream: each group's header, then its shards' lists. -/
def groupsStream : List (ℕ × ℕ) → List (List (FixedBytes 64)) → List Fr
  | [], _ => []
  | (family, count) :: others, lists =>
    message TranscriptTag.memoryGroup [(family : Fr), (count : Fr)] ++
      ((lists.take count).flatMap (pointsMessage TranscriptTag.commitment) ++
        groupsStream others (lists.drop count))

theorem absorbLists_eq_some {count : ℕ} {lists left : List (List (FixedBytes 64))} {t after : Duplex}
    (absorbed : absorbLists permute count lists t = some (left, after)) :
    count ≤ lists.length ∧ left = lists.drop count ∧ after.observed = t.observed ++
      (lists.take count).flatMap (pointsMessage TranscriptTag.commitment) := by
  induction count generalizing lists t with
  | zero =>
    cases absorbed
    exact ⟨Nat.zero_le _, rfl, (List.append_nil _).symm⟩
  | succ count ih =>
    cases lists with
    | nil => cases absorbed
    | cons list lists =>
      obtain ⟨enough, dropped, stream⟩ := ih absorbed
      refine ⟨Nat.succ_le_succ enough, dropped, ?_⟩
      rw [stream, appendG1Points_observed, List.take_succ_cons, List.flatMap_cons,
        List.append_assoc]

/-- How many lists the groups take. -/
def shardTotal (groups : List (ℕ × ℕ)) : ℕ := (groups.map Prod.snd).sum

theorem absorbGroups_eq_some {groups : List (ℕ × ℕ)} {lists left : List (List (FixedBytes 64))}
    {t after : Duplex} (absorbed : absorbGroups permute groups lists t = some (left, after)) :
    shardTotal groups ≤ lists.length ∧ left = lists.drop (shardTotal groups) ∧
      after.observed = t.observed ++ groupsStream groups lists := by
  induction groups generalizing lists t with
  | nil =>
    cases absorbed
    exact ⟨Nat.zero_le _, rfl, (List.append_nil _).symm⟩
  | cons group groups ih =>
    obtain ⟨family, count⟩ := group
    obtain ⟨⟨rest, t'⟩, taken, others⟩ := Option.bind_eq_some_iff.mp absorbed
    obtain ⟨enough, rfl, stream⟩ := absorbLists_eq_some permute taken
    obtain ⟨enoughOthers, rfl, streamOthers⟩ := ih others
    rw [List.length_drop] at enoughOthers
    have total : shardTotal ((family, count) :: groups) = count + shardTotal groups := by
      rw [shardTotal, List.map_cons, List.sum_cons, shardTotal]
    refine ⟨?_, ?_, ?_⟩
    · rw [total]
      omega
    · rw [total, List.drop_drop]
    · rw [streamOthers, stream, appendScalars_observed, groupsStream, List.append_assoc,
        List.append_assoc]

/-- Under one list of groups, equal streams are equal lists. -/
theorem groupsStream_inj {groups : List (ℕ × ℕ)} {xs ys : List (List (FixedBytes 64))}
    {rest rest' : List Fr} (lengthX : xs.length = shardTotal groups)
    (lengthY : ys.length = shardTotal groups) (heldX : ∀ x ∈ xs, Allocated 64 x)
    (heldY : ∀ y ∈ ys, Allocated 64 y)
    (same : groupsStream groups xs ++ rest = groupsStream groups ys ++ rest') :
    xs = ys ∧ rest = rest' := by
  induction groups generalizing xs ys with
  | nil =>
    rw [List.length_eq_zero_iff.mp lengthX, List.length_eq_zero_iff.mp lengthY]
    exact ⟨rfl, same⟩
  | cons group groups ih =>
    obtain ⟨family, count⟩ := group
    have total : shardTotal ((family, count) :: groups) = count + shardTotal groups := by
      rw [shardTotal, List.map_cons, List.sum_cons, shardTotal]
    rw [total] at lengthX lengthY
    rw [groupsStream, groupsStream, List.append_assoc, List.append_assoc, List.append_assoc,
      List.append_assoc] at same
    have lists := List.append_cancel_left same
    obtain ⟨taken, tails⟩ := (pointsMessage_framed TranscriptTag.commitment).flatMap
      (xs.take count) (ys.take count) _ _
      (by rw [List.length_take, List.length_take, lengthX, lengthY])
      (fun x member => heldX x (List.mem_of_mem_take member))
      (fun y member => heldY y (List.mem_of_mem_take member)) lists
    obtain ⟨dropped, rests⟩ := @ih (xs.drop count) (ys.drop count)
      (by rw [List.length_drop, lengthX, Nat.add_sub_cancel_left])
      (by rw [List.length_drop, lengthY, Nat.add_sub_cancel_left])
      (fun x member => heldX x (List.mem_of_mem_drop member))
      (fun y member => heldY y (List.mem_of_mem_drop member)) tails
    refine ⟨?_, rests⟩
    rw [← List.take_append_drop count xs, ← List.take_append_drop count ys, taken, dropped]

/-- The global transcript's stream. -/
def globalStream (srsDigest : Fr) (config : VmConfig) (identity io : Fr)
    (statement : PublicInputs) : List Fr :=
  message TranscriptTag.protocolSuite [(protocolVersion : Fr)] ++
    (message TranscriptTag.srsDigest [srsDigest] ++
    (message TranscriptTag.vmConfig config.scalars ++
    (message TranscriptTag.shardCounts (statement.shardCounts.map fun count : ℕ => (count : Fr)) ++
    (message TranscriptTag.memoryWindows (statement.windows.map fun window : ℕ => (window : Fr)) ++
    (message TranscriptTag.programIdentity [identity] ++
    (bytesMessage TranscriptTag.publicInputs (leBytes 32 io.val) ++
    (groupsStream (groups config statement.shardCounts) statement.memoryCommitments ++
    (message TranscriptTag.memoryBoundary (boundaryScalars statement.boundary) ++
    (List.replicate 4 (TranscriptTag.memoryChallenge : Fr) ++
      [(TranscriptTag.globalStateDigest : Fr)])))))))))

theorem globalTranscript_eq_some {srsDigest identity : Fr} {config : VmConfig}
    {statement : PublicInputs} {global : GlobalTranscript}
    (ran : globalTranscript permute srsDigest config identity statement = some global) :
    statement.memoryCommitments.length = shardTotal (groups config statement.shardCounts) ∧
      global.transcript.observed = globalStream srsDigest config identity
        (ioDigest permute statement.input statement.output) statement := by
  unfold globalTranscript at ran
  obtain ⟨described, descriptor, ran⟩ := Option.bind_eq_some_iff.mp ran
  obtain ⟨⟨left, t⟩, absorbed, ran⟩ := Option.bind_eq_some_iff.mp ran
  obtain ⟨enough, rfl, stream⟩ := absorbGroups_eq_some permute absorbed
  dsimp only at ran
  by_cases all : statement.memoryCommitments.drop
      (shardTotal (groups config statement.shardCounts)) = []
  · rw [if_pos all] at ran
    rw [← Option.some.inj ran]
    refine ⟨le_antisymm (List.drop_eq_nil_iff.mp all) enough, ?_⟩
    unfold absorbStatementDescriptor at descriptor
    by_cases counted : statement.shardCounts.length = config.families.length
    · rw [if_pos counted] at descriptor
      cases descriptor
      simp only [challengeScalar_observed, challengeScalars_observed, appendScalars_observed,
        stream, appendBytes_observed, appendScalar_observed, absorbVmConfig, globalStream,
        List.append_assoc]
      rfl
    · rw [if_neg counted] at descriptor
      cases descriptor
  · rw [if_neg all] at ran
    cases ran

/-- As many lists as the groups count are all taken. -/
theorem absorbGroups_total {groups : List (ℕ × ℕ)} {lists : List (List (FixedBytes 64))}
    (t : Duplex) (counted : lists.length = shardTotal groups) :
    ∃ after, absorbGroups permute groups lists t = some ([], after) := by
  have taken : ∀ (count : ℕ) (lists : List (List (FixedBytes 64))) (t : Duplex),
      count ≤ lists.length →
      ∃ after, absorbLists permute count lists t = some (lists.drop count, after) := by
    intro count
    induction count with
    | zero => exact fun lists t _ => ⟨t, rfl⟩
    | succ count ih =>
      intro lists t enough
      cases lists with
      | nil => exact absurd enough (Nat.not_succ_le_zero count)
      | cons list lists => exact ih lists _ (Nat.le_of_succ_le_succ enough)
  induction groups generalizing lists t with
  | nil =>
    rw [List.length_eq_zero_iff.mp counted]
    exact ⟨t, rfl⟩
  | cons group groups ih =>
    obtain ⟨family, count⟩ := group
    rw [shardTotal, List.map_cons, List.sum_cons] at counted
    obtain ⟨middle, first⟩ := taken count lists
      (t.appendScalars permute TranscriptTag.memoryGroup [(family : Fr), (count : Fr)])
      (counted ▸ Nat.le_add_right _ _)
    obtain ⟨after, others⟩ := @ih (lists.drop count) middle
      (by rw [List.length_drop, counted, Nat.add_sub_cancel_left, shardTotal])
    exact ⟨after, Option.bind_eq_some_iff.mpr ⟨_, first, others⟩⟩

/-- The global transcript runs over every statement consistent with its config. -/
theorem globalTranscript_total (srsDigest identity : Fr) {config : VmConfig}
    {statement : PublicInputs} (counts : statement.shardCounts.length = config.families.length)
    (lists : statement.memoryCommitments.length =
      shardTotal (groups config statement.shardCounts)) :
    ∃ global, globalTranscript permute srsDigest config identity statement = some global := by
  have absorbed := fun t => absorbGroups_total permute t lists
  choose after absorbed using absorbed
  exact ⟨_, Option.bind_eq_some_iff.mpr ⟨_, if_pos counts,
    Option.bind_eq_some_iff.mpr ⟨_, absorbed _, rfl⟩⟩⟩

theorem foldl_points_observed (lists : List (List (FixedBytes 64))) (t : Duplex) :
    (lists.foldl (fun t points => t.appendG1Points permute TranscriptTag.commitment points)
      t).observed = t.observed ++ lists.flatMap (pointsMessage TranscriptTag.commitment) := by
  induction lists generalizing t with
  | nil => exact (List.append_nil _).symm
  | cons list lists ih =>
    rw [List.foldl_cons, ih, appendG1Points_observed, List.flatMap_cons, List.append_assoc]

theorem identitySponge_eq_some {codeVersion entryPc : ℕ} {config : VmConfig}
    {commitments : List (List (FixedBytes 64))} {t : Duplex}
    (ran : identitySponge permute codeVersion config entryPc commitments = some t) :
    commitments.length = config.families.length ∧ t.observed =
      message TranscriptTag.programIdentity [(codeVersion : Fr)] ++
        (message TranscriptTag.vmConfig config.scalars ++
        (message TranscriptTag.programEntry [(entryPc : Fr)] ++
          commitments.flatMap (pointsMessage TranscriptTag.commitment))) := by
  unfold identitySponge at ran
  by_cases counted : commitments.length = config.families.length
  · rw [if_pos counted] at ran
    cases ran
    refine ⟨counted, ?_⟩
    simp only [foldl_points_observed, appendScalar_observed, absorbVmConfig,
      appendScalars_observed, List.append_assoc]
    rfl
  · rw [if_neg counted] at ran
    cases ran

end Streams

section Binding

variable (permute : Lanes → Lanes)

/-- Equal streams of the global transcript are equal keys and statements. -/
theorem global_binds {srs srs' identity identity' : Fr} {config config' : VmConfig}
    {statement statement' : PublicInputs} {global global' : GlobalTranscript}
    (derived : config.Derived) (derived' : config'.Derived) (range : statement.InRange)
    (range' : statement'.InRange)
    (ran : globalTranscript permute srs config identity statement = some global)
    (ran' : globalTranscript permute srs' config' identity' statement' = some global')
    (same : global.transcript.observed = global'.transcript.observed) :
    srs = srs' ∧ config = config' ∧ statement.shardCounts = statement'.shardCounts ∧
      statement.windows = statement'.windows ∧ identity = identity' ∧
      ioDigest permute statement.input statement.output =
        ioDigest permute statement'.input statement'.output ∧
      statement.memoryCommitments = statement'.memoryCommitments ∧
      statement.boundary = statement'.boundary := by
  obtain ⟨lists, stream⟩ := globalTranscript_eq_some permute ran
  obtain ⟨lists', stream'⟩ := globalTranscript_eq_some permute ran'
  rw [stream, stream', globalStream, globalStream] at same
  have suite := List.append_cancel_left same
  obtain ⟨digests, afterSrs⟩ := scalar_framed _ _ _ _ _ trivial trivial suite
  obtain ⟨rfl, afterConfig⟩ :=
    config_framed _ _ _ _ _ derived.inRange derived'.inRange afterSrs
  obtain ⟨counts, afterCounts⟩ :=
    numbers_framed _ _ _ _ _ range.shardCounts range'.shardCounts afterConfig
  obtain ⟨windows, afterWindows⟩ :=
    numbers_framed _ _ _ _ _ range.windows range'.windows afterCounts
  obtain ⟨identities, afterIdentity⟩ := scalar_framed _ _ _ _ _ trivial trivial afterWindows
  obtain ⟨ios, afterIo⟩ := digest_framed _ _ _ _ _ trivial trivial afterIdentity
  rw [counts] at afterIo lists
  obtain ⟨commitments, afterGroups⟩ := groupsStream_inj lists lists' range.memoryCommitments
    range'.memoryCommitments afterIo
  obtain ⟨boundaries, -⟩ := boundary_framed _ _ _ _ _ range.boundary range'.boundary afterGroups
  exact ⟨digests, rfl, counts, windows, identities, ios, commitments, boundaries⟩

/-- Equal streams of the identity's sponge are equal inputs. -/
theorem identity_binds {codeVersion codeVersion' entryPc entryPc' : ℕ} {config config' : VmConfig}
    {commitments commitments' : List (List (FixedBytes 64))} {t t' : Duplex}
    (versions : codeVersion < 2 ^ 32 ∧ codeVersion' < 2 ^ 32)
    (entries : entryPc < 2 ^ 32 ∧ entryPc' < 2 ^ 32) (range : config.InRange)
    (range' : config'.InRange) (held : ∀ list ∈ commitments, Allocated 64 list)
    (held' : ∀ list ∈ commitments', Allocated 64 list)
    (ran : identitySponge permute codeVersion config entryPc commitments = some t)
    (ran' : identitySponge permute codeVersion' config' entryPc' commitments' = some t')
    (same : t.observed = t'.observed) :
    codeVersion = codeVersion' ∧ config = config' ∧ entryPc = entryPc' ∧
      commitments = commitments' := by
  obtain ⟨lists, stream⟩ := identitySponge_eq_some permute ran
  obtain ⟨lists', stream'⟩ := identitySponge_eq_some permute ran'
  have room : 2 ^ 32 ≤ 2 ^ 64 := by decide
  rw [stream, stream'] at same
  obtain ⟨codes, afterCode⟩ := number_framed _ _ _ _ _ (versions.1.trans_le room)
    (versions.2.trans_le room) same
  obtain ⟨rfl, afterConfig⟩ := config_framed _ _ _ _ _ range range' afterCode
  obtain ⟨pcs, afterEntry⟩ := number_framed _ _ _ _ _ (entries.1.trans_le room)
    (entries.2.trans_le room) afterConfig
  rw [← List.append_nil (commitments.flatMap _), ← List.append_nil (commitments'.flatMap _)]
    at afterEntry
  obtain ⟨points, -⟩ := (pointsMessage_framed TranscriptTag.commitment).flatMap _ _ _ _
    (lists.trans lists'.symm) held held' afterEntry
  exact ⟨codes, rfl, pcs, points⟩

/-- Equal streams of the I/O sponge are equal byte strings. -/
theorem io_binds {publicInput publicInput' publicOutput publicOutput' : List UInt8}
    (held : Allocated 1 publicInput ∧ Allocated 1 publicInput')
    (held' : Allocated 1 publicOutput ∧ Allocated 1 publicOutput')
    (same : (ioSponge permute publicInput publicOutput).observed =
      (ioSponge permute publicInput' publicOutput').observed) :
    publicInput = publicInput' ∧ publicOutput = publicOutput' := by
  simp only [ioSponge, appendBytes_observed, List.append_assoc] at same
  have streams := List.append_cancel_left same
  obtain ⟨inputs, afterInput⟩ := bytesMessage_framed _ _ _ _ _ (held.1.short (by decide))
    (held.2.short (by decide)) streams
  exact ⟨inputs, (bytesMessage_framed _).injective (held'.1.short (by decide))
    (held'.2.short (by decide)) afterInput⟩

theorem shardTranscript_observed (digest : Fr) (family index : ℕ) (tsWindow : ℕ × ℕ)
    (witnessCommitments : List (FixedBytes 64)) :
    (shardTranscript permute digest family index tsWindow witnessCommitments).1.observed =
      message TranscriptTag.shardSeed [digest, (family : Fr), (index : Fr)] ++
        (message TranscriptTag.shardTsWindow [(tsWindow.1 : Fr), (tsWindow.2 : Fr)] ++
        (pointsMessage TranscriptTag.commitment witnessCommitments ++
        ([(TranscriptTag.lookupChallenge : Fr)] ++ [(TranscriptTag.lookupChallenge : Fr)]))) := by
  simp only [shardTranscript, challengeScalar_observed, appendG1Points_observed,
    appendScalars_observed, List.append_assoc]
  rfl

/-- Equal streams of a shard transcript are equal inputs. -/
theorem shard_binds {digest digest' : Fr} {family family' index index' : ℕ}
    {tsWindow tsWindow' : ℕ × ℕ} {points points' : List (FixedBytes 64)}
    (families : family < 2 ^ 32 ∧ family' < 2 ^ 32) (indices : index < 2 ^ 32 ∧ index' < 2 ^ 32)
    (window : tsWindow.1 < 2 ^ 64 ∧ tsWindow.2 < 2 ^ 64)
    (window' : tsWindow'.1 < 2 ^ 64 ∧ tsWindow'.2 < 2 ^ 64)
    (held : Allocated 64 points ∧ Allocated 64 points')
    (same : (shardTranscript permute digest family index tsWindow points).1.observed =
      (shardTranscript permute digest' family' index' tsWindow' points').1.observed) :
    digest = digest' ∧ family = family' ∧ index = index' ∧ tsWindow = tsWindow' ∧
      points = points' := by
  have room : 2 ^ 32 ≤ 2 ^ 250 := by decide
  have room' : 2 ^ 64 ≤ 2 ^ 250 := by decide
  have three : ∀ x y z : Fr, [x, y, z].length < 2 ^ 250 := fun _ _ _ =>
    room.trans_lt' (by decide : 3 < 2 ^ 32)
  have two : ∀ x y : Fr, [x, y].length < 2 ^ 250 := fun _ _ =>
    room.trans_lt' (by decide : 2 < 2 ^ 32)
  rw [shardTranscript_observed, shardTranscript_observed] at same
  obtain ⟨seeds, afterSeed⟩ := message_framed _ _ _ _ _ (three _ _ _) (three _ _ _) same
  obtain ⟨times, afterTimes⟩ := message_framed _ _ _ _ _ (two _ _) (two _ _) afterSeed
  obtain ⟨lists, -⟩ := pointsMessage_framed _ _ _ _ _ held.1 held.2 afterTimes
  simp only [List.cons.injEq, and_true] at seeds times
  refine ⟨seeds.1, fr_natCast_inj (families.1.trans_le room) (families.2.trans_le room) seeds.2.1,
    fr_natCast_inj (indices.1.trans_le room) (indices.2.trans_le room) seeds.2.2,
    Prod.ext ?_ ?_, lists⟩
  · exact fr_natCast_inj (window.1.trans_le room') (window'.1.trans_le room') times.1
  · exact fr_natCast_inj (window.2.trans_le room') (window'.2.trans_le room') times.2

/-- What the transcripts over a permutation bind. -/
structure TranscriptsBind : Prop where
  /-- Two runs of the global transcript that observe the same sequence. -/
  global : ∀ {srs srs' identity identity' : Fr} {bytes bytes' : List UInt8}
    {config config' : VmConfig} {statement statement' : PublicInputs}
    {global global' : GlobalTranscript},
    VmConfig.fromBytes bytes = some config → VmConfig.fromBytes bytes' = some config' →
    statement.InRange → statement'.InRange →
    globalTranscript permute srs config identity statement = some global →
    globalTranscript permute srs' config' identity' statement' = some global' →
    global.transcript.observed = global'.transcript.observed →
    srs = srs' ∧ config = config' ∧ statement.shardCounts = statement'.shardCounts ∧
      statement.windows = statement'.windows ∧ identity = identity' ∧
      ioDigest permute statement.input statement.output =
        ioDigest permute statement'.input statement'.output ∧
      statement.memoryCommitments = statement'.memoryCommitments ∧
      statement.boundary = statement'.boundary
  identity : ∀ {codeVersion codeVersion' entryPc entryPc' : ℕ} {config config' : VmConfig}
    {commitments commitments' : List (List (FixedBytes 64))} {t t' : Duplex},
    codeVersion < 2 ^ 32 ∧ codeVersion' < 2 ^ 32 → entryPc < 2 ^ 32 ∧ entryPc' < 2 ^ 32 →
    config.InRange → config'.InRange → (∀ list ∈ commitments, Allocated 64 list) →
    (∀ list ∈ commitments', Allocated 64 list) →
    identitySponge permute codeVersion config entryPc commitments = some t →
    identitySponge permute codeVersion' config' entryPc' commitments' = some t' →
    t.observed = t'.observed →
    codeVersion = codeVersion' ∧ config = config' ∧ entryPc = entryPc' ∧
      commitments = commitments'
  io : ∀ {publicInput publicInput' publicOutput publicOutput' : List UInt8},
    Allocated 1 publicInput ∧ Allocated 1 publicInput' →
    Allocated 1 publicOutput ∧ Allocated 1 publicOutput' →
    (ioSponge permute publicInput publicOutput).observed =
      (ioSponge permute publicInput' publicOutput').observed →
    publicInput = publicInput' ∧ publicOutput = publicOutput'
  shard : ∀ {digest digest' : Fr} {family family' index index' : ℕ} {tsWindow tsWindow' : ℕ × ℕ}
    {points points' : List (FixedBytes 64)},
    family < 2 ^ 32 ∧ family' < 2 ^ 32 → index < 2 ^ 32 ∧ index' < 2 ^ 32 →
    tsWindow.1 < 2 ^ 64 ∧ tsWindow.2 < 2 ^ 64 → tsWindow'.1 < 2 ^ 64 ∧ tsWindow'.2 < 2 ^ 64 →
    Allocated 64 points ∧ Allocated 64 points' →
    (shardTranscript permute digest family index tsWindow points).1.observed =
      (shardTranscript permute digest' family' index' tsWindow' points').1.observed →
    digest = digest' ∧ family = family' ∧ index = index' ∧ tsWindow = tsWindow' ∧
      points = points'
  /-- Two scripts of the duplex that observe different things before their sample `j`. -/
  duplex : ∀ {s t : List Op} {j : ℕ}, j < (asked s).length → j < (asked t).length →
    (asked s)[j]? ≠ (asked t)[j]? →
    ∃ i ≤ j, (run permute (through i s) new).permuted ≠ (run permute (through i t) new).permuted

/-- A transcript binds all it was given, whatever the permutation. -/
theorem transcripts_bind : TranscriptsBind permute where
  global accepted accepted' range range' ran ran' same :=
    global_binds permute (VmConfig.fromBytes_eq_some.mp accepted).2
      (VmConfig.fromBytes_eq_some.mp accepted').2 range range' ran ran' same
  identity versions entries range range' held held' ran ran' same :=
    identity_binds permute versions entries range range' held held' ran ran' same
  io held held' same := io_binds permute held held' same
  shard families indices window window' held same :=
    shard_binds permute families indices window window' held same
  duplex here there differ := exists_permuted_ne permute here there differ

/-- One shard of each window family but the zero and field windows, no columns. -/
private def emptyStatement : PublicInputs where
  input := []
  output := []
  exitStatus := 0
  shardCounts := [1, 0, 1, 1, 0, 0]
  windows := []
  boundary := ⟨fun _ => 0, 0, fun _ => 0⟩
  memoryCommitments := [[], [], []]
  memoryRoots := []

private theorem emptyStatement_inRange : emptyStatement.InRange where
  input := by decide
  output := by decide
  shardCounts := by decide
  windows := by decide
  boundary := ⟨by decide, by decide, by decide⟩
  memoryCommitments := by decide

theorem transcripts_bind_windowsConfig :
    (∃ global, globalTranscript id 7 windowsConfig 9 emptyStatement = some global ∧
      ∀ srs identity global', globalTranscript id srs windowsConfig identity emptyStatement =
        some global' → global.transcript.observed = global'.transcript.observed →
        srs = 7 ∧ identity = 9) ∧
      ∃ i ≤ 0, (run id (through i [.observe 1, .sample]) new).permuted ≠
        (run id (through i [.observe 1, .observe 0, .sample]) new).permuted := by
  have accepted : VmConfig.fromBytes windowsConfig.toBytes = some windowsConfig := by
    decide
  obtain ⟨global, ran⟩ := @globalTranscript_total id 7 9 windowsConfig emptyStatement (by decide)
    (by decide)
  refine ⟨⟨global, ran, ?_⟩, ?_⟩
  · intro srs identity global' ran' same
    have equal := (transcripts_bind id).global accepted accepted emptyStatement_inRange
      emptyStatement_inRange ran ran' same
    exact ⟨equal.1.symm, equal.2.2.2.2.1.symm⟩
  · apply (transcripts_bind id).duplex (by decide) (by decide)
    intro same
    exact List.cons_ne_nil _ _ (List.cons.inj (Option.some.inj same)).2.symm

end Binding

end Apogee
