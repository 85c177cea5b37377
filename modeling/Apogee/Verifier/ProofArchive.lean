import Apogee.Curve.Groups
import Apogee.Math.Hex
import Apogee.Verifier.RoundTrip

/-! # The proof archive

The four files a proving run leaves behind, and their reader. Each file goes through its
own type's decoder, and a refusal names the file; the identity is text, two digits a byte.
-/

namespace Apogee.ProofArchive

open Apogee.Math Curve

/-- One thing for each of the four files: its path, or its bytes. -/
structure Archive (α : Type) where
  vk : α
  identity : α
  publicInputs : α
  block : α

/-! ## Loading a key -/

/-- The verifier's three points, each through its validating decoder. -/
def decodeSrsVerifier (bytes : FixedBytes 320) : Option (Affine Fq × Affine Fq2 × Affine Fq2) := do
  let g1Gen ← G1.fromBytes (bytes.1.take 64)
  let g2Gen ← G2.fromBytes ((bytes.1.drop 64).take 128)
  let g2Tau ← G2.fromBytes (bytes.1.drop 192)
  some (g1Gen, g2Gen, g2Tau)

def isPoint (bytes : FixedBytes 64) : Bool := (G1.fromBytes bytes.1).isSome

section Read

variable (permute : Lanes → Lanes) (rules : CircuitRules)

/-- A key that keeps the load rules, and whose points are all ones. -/
def loadVerifyingKey (bytes : List UInt8) : Except KeyError VerifyingKey := do
  let vk ← VerifyingKey.fromBytes permute rules bytes
  VerifyingKey.require (decodeSrsVerifier vk.srsVerifier).isSome
    "the key's SrsVerifier holds a point that is not one"
  VerifyingKey.require (vk.setupCommitments.flatten.all isPoint)
    "a setup commitment is not a point"
  VerifyingKey.require ((List.ofFn vk.genericTable).all isPoint)
    "a generic-table commitment is not a point"
  .ok vk

/-! ## The identity's text -/

/-- A program identity's digits. -/
def identityHex (vk : VerifyingKey) : List Char := hexText (Fr.toBytes vk.identity)

/-- A byte's two digits of the text, at their byte offset. -/
def readByte (text : List Char) (i : ℕ) : Except KeyError UInt8 :=
  match slice text (2 * i) (2 * i + 2) with
  | none => .error .panicked
  | some pair =>
    match fromStrRadix pair with
    | none => .error (.refused ("byte " ++ toString i ++ " is not hex"))
    | some byte => .ok byte

/-- So many bytes of the text, from the `i`-th on. -/
def readBytes (text : List Char) (i : ℕ) : ℕ → Except KeyError (List UInt8)
  | 0 => .ok []
  | n + 1 => do
    let byte ← readByte text i
    let others ← readBytes text (i + 1) n
    .ok (byte :: others)

/-- The 64 digits, with white space around them. -/
def parseIdentity (bytes : List UInt8) : Except KeyError (List UInt8) :=
  match fromUtf8 bytes with
  | none => .error (.refused "not UTF-8")
  | some text =>
    if byteLength (trim text) ≠ 64 then
      .error (.refused (toString (byteLength (trim text)) ++ " hex digits, not 64"))
    else readBytes (trim text) 0 32

/-! ## The four files -/

/-- A reader's refusal, with its file's path. -/
def named {α : Type} (path : String) : Except KeyError α → Except KeyError α
  | .ok value => .ok value
  | .error (.refused why) => .error (.refused (path ++ ": " ++ why))
  | .error .panicked => .error .panicked

/-- The four files of a proof, unless an encoder's assertion fails. -/
def writeProof (vk : VerifyingKey) (block : BlockProof) : Option (Archive (List UInt8)) := do
  let key ← vk.toBytes
  let statement ← block.statement.toBytes
  let proof ← block.toBytes
  some ⟨key, asBytes (identityHex vk ++ ['\n']), statement, proof⟩

/-- The four files' values, each through its own decoder. -/
def readProof (paths : Archive String) (files : Archive (List UInt8)) :
    Except KeyError (VerifyingKey × List UInt8 × PublicInputs × BlockProof) := do
  let vk ← named paths.vk (loadVerifyingKey permute rules files.vk)
  let identity ← named paths.identity (parseIdentity files.identity)
  let statement ← named paths.publicInputs
    ((PublicInputs.fromBytes files.publicInputs).mapError .refused)
  let block ← named paths.block ((BlockProof.fromBytes files.block).mapError .refused)
  .ok (vk, identity, statement, block)

end Read

/-! ## The command line's identity -/

namespace Cli

/-- A lowercase digit's value. -/
def nibble (c : UInt8) : Option UInt8 :=
  if 48 ≤ c ∧ c ≤ 57 then some (c - 48) else if 97 ≤ c ∧ c ≤ 102 then some (c - 97 + 10) else none

/-- The bytes of pairs of digits. A single digit at the end is not reached: there are 64. -/
def pairs : List UInt8 → Option (List UInt8)
  | high :: low :: rest => do
    let high ← nibble high
    let low ← nibble low
    let others ← pairs rest
    some ((high <<< 4 ||| low) :: others)
  | _ => some []

def parseIdentity (hex : List Char) : Option (List UInt8) :=
  if (asBytes hex).length ≠ 64 then none else pairs (asBytes hex)

end Cli

/-! ## Reading back -/

section Loads

variable {permute : Lanes → Lanes} {rules : CircuitRules}

theorem named_ok {α : Type} {path : String} {read : Except KeyError α} {value : α} :
    named path read = .ok value ↔ read = .ok value := by
  rcases read with (_ | _) | _ <;> simp [named]

theorem total_named {α : Type} {path : String} {read : Except KeyError α}
    (total : VerifyingKey.Total read) : VerifyingKey.Total (named path read) := by
  rcases read with (_ | _) | _
  · exact fun wrong => nomatch wrong
  · exact absurd rfl total
  · exact fun wrong => nomatch wrong

theorem total_bind {α β : Type} {step : Except KeyError α} {rest : α → Except KeyError β}
    (total : VerifyingKey.Total step) (next : ∀ value, step = .ok value →
      VerifyingKey.Total (rest value)) : VerifyingKey.Total (step >>= rest) := by
  cases step with
  | error e => exact fun wrong => total (congrArg _ (Except.error.inj wrong))
  | ok value => exact next value rfl

/-- A loaded key is what the bytes' decoder returns. -/
theorem fromBytes_of_load {bytes : List UInt8} {key : VerifyingKey}
    (loaded : loadVerifyingKey permute rules bytes = .ok key) :
    VerifyingKey.fromBytes permute rules bytes = .ok key := by
  obtain ⟨vk, decoded, loaded⟩ := bind_ok.mp loaded
  obtain ⟨-, loaded⟩ := then_ok.mp loaded
  obtain ⟨-, loaded⟩ := then_ok.mp loaded
  obtain ⟨-, loaded⟩ := then_ok.mp loaded
  cases loaded
  exact decoded

theorem total_load (bytes : List UInt8) :
    VerifyingKey.Total (loadVerifyingKey permute rules bytes) := by
  refine total_bind (VerifyingKey.total_fromBytes permute rules bytes) fun vk _ => ?_
  refine (VerifyingKey.total_require _ _).andThen fun _ => ?_
  refine (VerifyingKey.total_require _ _).andThen fun _ => ?_
  exact (VerifyingKey.total_require _ _).andThen fun _ => fun wrong => nomatch wrong

end Loads

section Text

variable {text : List Char}

/-- The text's bytes come in pairs that cut no character, none of which begins with a sign. A
pair that cuts a character panics, and a sign before a digit is read as nothing. -/
def Paired (text : List Char) : Prop :=
  ∀ i < 32, ∃ pair, slice text (2 * i) (2 * i + 2) = some pair ∧ pair.head? ≠ some '+'

/-- The identity file's 64 bytes of text, if it holds as many, come in whole unsigned pairs. -/
def Readable (bytes : List UInt8) : Prop :=
  ∀ text, fromUtf8 bytes = some text → byteLength (trim text) = 64 → Paired (trim text)

theorem readByte_ok {i : ℕ} {byte : UInt8} : readByte text i = .ok byte ↔
    ∃ pair, slice text (2 * i) (2 * i + 2) = some pair ∧ fromStrRadix pair = some byte := by
  unfold readByte
  cases slice text (2 * i) (2 * i + 2) with
  | none => exact iff_of_false (fun wrong => nomatch wrong) fun ⟨_, wrong, _⟩ => nomatch wrong
  | some pair =>
    dsimp only
    cases parsed : fromStrRadix pair with
    | none =>
      refine iff_of_false (fun wrong => nomatch wrong) ?_
      rintro ⟨_, ⟨⟩, found⟩
      rw [parsed] at found
      cases found
    | some found =>
      constructor
      · rintro ⟨⟩
        exact ⟨pair, rfl, parsed⟩
      · rintro ⟨_, ⟨⟩, same⟩
        cases parsed.symm.trans same
        rfl

/-- What is read from a place of a text on is what the text spells there. -/
theorem readBytes_ok {i n : ℕ} {bytes : List UInt8} {front rest : List Char}
    (paired : ∀ j, i ≤ j → j < i + n →
      ∃ pair, slice (front ++ rest) (2 * j) (2 * j + 2) = some pair ∧ pair.head? ≠ some '+')
    (start : byteLength front = 2 * i) (read : readBytes (front ++ rest) i n = .ok bytes) :
    bytes.length = n ∧
      ∃ digits back, rest = digits ++ back ∧ byteLength digits = 2 * n ∧ Spells digits bytes := by
  induction n generalizing i bytes front rest with
  | zero =>
    cases read
    exact ⟨rfl, [], rest, rfl, rfl, rfl, fun _ none => absurd none List.not_mem_nil⟩
  | succ n ih =>
    obtain ⟨byte, first, onwards⟩ := bind_ok.mp read
    obtain ⟨others, following, same⟩ := bind_ok.mp onwards
    cases same
    obtain ⟨pair, here, unsigned⟩ := paired i le_rfl (by omega)
    obtain ⟨_, found, parsed⟩ := readByte_ok.mp first
    cases here.symm.trans found
    obtain ⟨before, back, split, size, two⟩ := slice_eq_some here
    -- The slice starts where the part before it ends.
    have starts := splitBytes_append front rest
    rw [split, start, ← size, splitBytes_append] at starts
    cases starts
    rw [← List.append_assoc] at paired following
    have wide : byteLength pair = 2 := two.trans (Nat.add_sub_cancel_left _ _)
    obtain ⟨counted, digits, rest, rfl, size, spelled⟩ := ih
      (fun j least most => paired j (by omega) (by omega))
      (by rw [byteLength_append, start, wide]; omega) following
    refine ⟨congrArg (· + 1) counted, pair ++ digits, rest, (List.append_assoc _ _ _).symm, ?_, ?_⟩
    · rw [byteLength_append, wide, size]
      omega
    · exact (fromStrRadix_pair wide unsigned parsed).append spelled

theorem total_readBytes {i n : ℕ}
    (paired : ∀ j, i ≤ j → j < i + n → (slice text (2 * j) (2 * j + 2)).isSome) :
    VerifyingKey.Total (readBytes text i n) := by
  induction n generalizing i with
  | zero => exact fun wrong => nomatch wrong
  | succ n ih =>
    obtain ⟨pair, here⟩ := Option.isSome_iff_exists.mp (paired i le_rfl (by omega))
    have byte : VerifyingKey.Total (readByte text i) := by
      unfold readByte
      rw [here]
      dsimp only
      cases fromStrRadix pair with
      | none => exact fun wrong => nomatch wrong
      | some byte => exact fun wrong => nomatch wrong
    have others := ih (i := i + 1) fun j least most => paired j (by omega) (by omega)
    exact total_bind byte fun _ _ => total_bind others fun _ _ => fun wrong => nomatch wrong

/-- Digits are read back as their bytes. -/
theorem readBytes_hexText {i : ℕ} {bytes : List UInt8} (front : List Char)
    (start : byteLength front = 2 * i) :
    readBytes (front ++ hexText bytes) i bytes.length = .ok bytes := by
  induction bytes generalizing i front with
  | nil => rfl
  | cons byte rest ih =>
    have split : hexText (byte :: rest) = hexPair byte ++ hexText rest := List.flatMap_cons
    have here := slice_append front (hexPair byte) (hexText rest)
    rw [start, byteLength_hexPair] at here
    have others := @ih (i + 1) (front ++ hexPair byte)
      (by rw [byteLength_append, start, byteLength_hexPair]; omega)
    rw [List.append_assoc] at others
    rw [split]
    exact bind_ok.mpr ⟨byte, readByte_ok.mpr ⟨_, here, fromStrRadix_hexPair byte⟩,
      bind_ok.mpr ⟨rest, others, rfl⟩⟩

/-- The identity file's text: what the reader takes of it is 64 digits. -/
theorem parseIdentity_ok {bytes identity : List UInt8}
    (readable : Readable bytes) (parsed : parseIdentity bytes = .ok identity) :
    identity.length = 32 ∧ ∃ text, fromUtf8 bytes = some text ∧ Spells (trim text) identity := by
  unfold parseIdentity at parsed
  cases decoded : fromUtf8 bytes with
  | none =>
    rw [decoded] at parsed
    cases parsed
  | some text =>
    rw [decoded] at parsed
    dsimp only at parsed
    by_cases size : byteLength (trim text) = 64
    · rw [if_neg (not_not.mpr size)] at parsed
      obtain ⟨counted, digits, back, whole, inner, spelled⟩ := @readBytes_ok 0 32 identity []
        (trim text) (fun j _ most => readable text decoded size j (by omega)) rfl parsed
      have split := congrArg byteLength whole
      rw [size, byteLength_append, inner] at split
      have none : back = [] := by
        cases back with
        | nil => rfl
        | cons c rest =>
          have wide := c.utf8Size_pos
          rw [byteLength_cons] at split
          omega
      rw [none, List.append_nil] at whole
      exact ⟨counted, text, rfl, whole ▸ spelled⟩
    · rw [if_pos size] at parsed
      cases parsed

theorem total_parseIdentity {bytes : List UInt8} (readable : Readable bytes) :
    VerifyingKey.Total (parseIdentity bytes) := by
  unfold parseIdentity
  cases decoded : fromUtf8 bytes with
  | none => exact fun wrong => nomatch wrong
  | some text =>
    dsimp only
    by_cases size : byteLength (trim text) = 64
    · rw [if_neg (not_not.mpr size)]
      refine total_readBytes fun j _ most => ?_
      obtain ⟨pair, here, -⟩ := readable text decoded size j (by omega)
      exact Option.isSome_of_mem here
    · rw [if_pos size]
      exact fun wrong => nomatch wrong

/-- What a written identity file's text is once trimmed. -/
theorem trim_written {identity : List UInt8} (counted : identity.length = 32) :
    trim (hexText identity ++ ['\n']) = hexText identity := by
  have isWord : IsWord (hexText identity) := by
    refine ⟨fun none => ?_, fun c member => plain_hexText member⟩
    have length := length_hexText identity
    rw [none, counted] at length
    cases length
  refine trim_append isWord fun c member => ?_
  rw [List.mem_singleton.mp member]
  rfl

/-- The identity file is read back as the bytes it was written from. -/
theorem parseIdentity_written {identity : List UInt8} (counted : identity.length = 32) :
    parseIdentity (asBytes (hexText identity ++ ['\n'])) = .ok identity := by
  have size : byteLength (hexText identity) = 64 := by rw [byteLength_hexText, counted]
  unfold parseIdentity
  rw [fromUtf8_eq_some.mpr rfl]
  dsimp only
  rw [trim_written counted, if_neg (not_not.mpr size), ← counted]
  exact readBytes_hexText [] rfl

/-- The digits of bytes are whole unsigned pairs. -/
theorem paired_hexText {identity : List UInt8} (counted : identity.length = 32) :
    Paired (hexText identity) := by
  intro i inside
  have place : i < identity.length := counted.symm ▸ inside
  have split : identity = identity.take i ++ identity[i] :: identity.drop (i + 1) := by
    rw [← List.drop_eq_getElem_cons place, List.take_append_drop]
  have here := slice_append (hexText (identity.take i)) (hexPair identity[i])
    (hexText (identity.drop (i + 1)))
  rw [byteLength_hexText, byteLength_hexPair, List.length_take_of_le place.le] at here
  refine ⟨hexPair identity[i], ?_, unsigned_hexPair identity[i]⟩
  rw [← here, hexText, hexText, hexText, ← List.flatMap_cons, ← List.flatMap_append, ← split]

theorem readable_written {identity : List UInt8} (counted : identity.length = 32) :
    Readable (asBytes (hexText identity ++ ['\n'])) := by
  intro text decoded _
  rw [fromUtf8_eq_some.mpr rfl] at decoded
  cases decoded
  rw [trim_written counted]
  exact paired_hexText counted

/-- The command line reads an identity's lowercase digits as its bytes. -/
theorem Cli.parseIdentity_hexText {identity : List UInt8} (counted : identity.length = 32) :
    Cli.parseIdentity (hexText identity) = some identity := by
  have digit : ∀ {x : ℕ}, x < 16 → ∃ c, String.utf8EncodeChar (Nat.digitChar x) = [c] ∧
      nibble c = some (UInt8.ofNat x) := by
    intro x small
    interval_cases x <;> exact ⟨_, rfl, rfl⟩
  have joined : ∀ x < 16, ∀ y < 16,
      (UInt8.ofNat x <<< 4 ||| UInt8.ofNat y) = UInt8.ofNat (x * 16 + y) := by
    decide
  have read : ∀ bytes, pairs (asBytes (hexText bytes)) = some bytes := by
    intro bytes
    induction bytes with
    | nil => rfl
    | cons byte rest ih =>
      have whole := byte.toNat_lt
      obtain ⟨high, encodesHigh, readsHigh⟩ := digit (x := byte.toNat / 16) (by omega)
      obtain ⟨low, encodesLow, readsLow⟩ := digit (x := byte.toNat % 16) (by omega)
      have bytes : asBytes (hexText (byte :: rest)) = high :: low :: asBytes (hexText rest) := by
        rw [hexText, List.flatMap_cons, ← hexText, hexPair, asBytes, List.cons_append,
          List.cons_append, List.flatMap_cons, List.flatMap_cons, encodesHigh, encodesLow]
        rfl
      have together := joined (byte.toNat / 16) (by omega) (byte.toNat % 16) (by omega)
      rw [Nat.div_add_mod', UInt8.ofNat_toNat] at together
      rw [bytes, pairs, readsHigh, readsLow, ih]
      exact congrArg (fun first => some (first :: rest)) together
  unfold Cli.parseIdentity
  rw [if_neg (not_not.mpr (by rw [length_asBytes, byteLength_hexText, counted])), read]

end Text

section Archives

variable {permute : Lanes → Lanes} {rules : CircuitRules} {paths : Archive String}

theorem mapError_ok {α : Type} {read : Except String α} {value : α} :
    read.mapError KeyError.refused = .ok value ↔ read = .ok value := by
  cases read <;> simp [Except.mapError]

theorem total_mapError {α : Type} (read : Except String α) :
    VerifyingKey.Total (read.mapError KeyError.refused) := by
  cases read <;> exact fun wrong => nomatch wrong

/-- The reader accepts what each file's decoder accepts. -/
theorem readProof_ok {files : Archive (List UInt8)} {key : VerifyingKey} {identity : List UInt8}
    {statement : PublicInputs} {block : BlockProof} :
    readProof permute rules paths files = .ok (key, identity, statement, block) ↔
      loadVerifyingKey permute rules files.vk = .ok key ∧
        parseIdentity files.identity = .ok identity ∧
        PublicInputs.fromBytes files.publicInputs = .ok statement ∧
        BlockProof.fromBytes files.block = .ok block := by
  simp only [readProof, bind_ok, named_ok, mapError_ok, Except.ok.injEq, Prod.mk.injEq]
  constructor
  · rintro ⟨_, loaded, _, parsed, _, stated, _, proved, rfl, rfl, rfl, rfl⟩
    exact ⟨loaded, parsed, stated, proved⟩
  · rintro ⟨loaded, parsed, stated, proved⟩
    exact ⟨_, loaded, _, parsed, _, stated, _, proved, rfl, rfl, rfl, rfl⟩

/-- A key the load rules accept, and the loader from its own encoding. -/
structure Loads (permute : Lanes → Lanes) (rules : CircuitRules) (key : VerifyingKey) : Prop where
  range : key.InRange
  checked : key.check permute rules = .ok ()
  points : ∀ bytes, key.toBytes = some bytes →
    ∃ loaded, loadVerifyingKey permute rules bytes = .ok loaded

theorem Loads.load {key : VerifyingKey} (loads : Loads permute rules key) {bytes : List UInt8}
    (wrote : key.toBytes = some bytes) : loadVerifyingKey permute rules bytes = .ok key := by
  obtain ⟨loaded, found⟩ := loads.points bytes wrote
  have decoded := (VerifyingKey.fromBytes_ok permute rules).mpr
    ⟨VerifyingKey.encodable_of_check permute rules loads.range loads.checked, wrote, loads.checked⟩
  cases decoded.symm.trans (fromBytes_of_load found)
  exact found

theorem writeProof_eq_some {key : VerifyingKey} {block : BlockProof}
    {files : Archive (List UInt8)} : writeProof key block = some files ↔
      key.toBytes = some files.vk ∧ files.identity = asBytes (identityHex key ++ ['\n']) ∧
        block.statement.toBytes = some files.publicInputs ∧ block.toBytes = some files.block := by
  simp only [writeProof, Option.bind_eq_bind, Option.bind_eq_some_iff, Option.some.injEq]
  constructor
  · rintro ⟨_, key, _, statement, _, block, rfl⟩
    exact ⟨key, rfl, statement, block⟩
  · rintro ⟨key, identity, statement, block⟩
    refine ⟨_, key, _, statement, _, block, ?_⟩
    rw [← identity]

/-- What holds of an archive and its reader. -/
structure ReadsBack (permute : Lanes → Lanes) (rules : CircuitRules) (paths : Archive String) :
    Prop where
  writes : ∀ key block, Loads permute rules key → block.Fits →
    ((writeProof key block).isSome ↔ key.Short ∧ block.Short)
  restores : ∀ key block files, Loads permute rules key → block.Fits →
    writeProof key block = some files →
    readProof permute rules paths files =
      .ok (key, Fr.toBytes key.identity, block.statement, block)
  total : ∀ files, Readable files.identity →
    readProof permute rules paths files ≠ .error .panicked
  canonical : ∀ files key identity statement block, Readable files.identity →
    readProof permute rules paths files = .ok (key, identity, statement, block) →
    key.toBytes = some files.vk ∧ statement.toBytes = some files.publicInputs ∧
      block.toBytes = some files.block ∧ ∃ text, fromUtf8 files.identity = some text ∧
        (trim text).length = 64 ∧ (∀ c ∈ trim text, (hexDigit c).isSome) ∧
        Cli.parseIdentity ((trim text).map Char.toLower) = some identity

/-- A written archive is read back, and a read one is the canonical encodings' and 64 digits. -/
theorem archive_reads_back (permute : Lanes → Lanes) (rules : CircuitRules)
    (paths : Archive String) : ReadsBack permute rules paths where
  writes key block loads fits := by
    have encodable := VerifyingKey.encodable_of_check permute rules loads.range loads.checked
    rw [← VerifyingKey.toBytes_isSome encodable,
      ← BlockProof.toBytes_isSome fits.config]
    simp only [Option.isSome_iff_exists, writeProof_eq_some]
    constructor
    · rintro ⟨files, key, -, -, block⟩
      exact ⟨⟨_, key⟩, _, block⟩
    · rintro ⟨⟨vk, key⟩, proof, block⟩
      obtain ⟨statement, stated, -⟩ :=
        ((BlockProof.toBytes_isSome fits.config).mp (Option.isSome_of_mem block)).statement
      exact ⟨⟨vk, _, statement, proof⟩, key, rfl, stated, block⟩
  restores key block files loads fits wrote := by
    obtain ⟨vk, identity, statement, proof⟩ := writeProof_eq_some.mp wrote
    refine readProof_ok.mpr ⟨loads.load vk, ?_, PublicInputs.fromBytes_ok.mpr
      ⟨fits.statement, statement⟩, BlockProof.fromBytes_ok.mpr ⟨fits, proof⟩⟩
    rw [identity]
    exact parseIdentity_written (leBytes_length 32 _)
  total files readable := by
    refine total_bind (total_named (total_load files.vk)) fun _ _ => ?_
    refine total_bind (total_named (total_parseIdentity readable)) fun _ _ => ?_
    refine total_bind (total_named (total_mapError _)) fun _ _ => ?_
    exact total_bind (total_named (total_mapError _)) fun _ _ => fun wrong => nomatch wrong
  canonical files key identity statement block readable read := by
    obtain ⟨loaded, parsed, stated, proved⟩ := readProof_ok.mp read
    obtain ⟨counted, text, decoded, spelled⟩ := parseIdentity_ok readable parsed
    refine ⟨((VerifyingKey.fromBytes_ok permute rules).mp (fromBytes_of_load loaded)).2.1,
      (PublicInputs.fromBytes_ok.mp stated).2, (BlockProof.fromBytes_ok.mp proved).2, text, decoded,
      ?_, spelled.digits, ?_⟩
    · have count := congrArg List.length spelled.lower
      rw [List.length_map, length_hexText, counted] at count
      exact count
    · rw [spelled.lower]
      exact Cli.parseIdentity_hexText counted

end Archives

/-! ## A key of empty circuits -/

/-- A circuit of one layer of nothing. -/
def emptyCircuit : CircuitArtifact where
  formatVersion := 1
  coefficientEncoding := 0
  traceVars := 0
  memory := []
  witness := []
  setup := []
  virtuals := []
  layers := [⟨false, 0, 0, [], [], []⟩]
  relations := []
  lookups := []
  scratch := []
  outputs := []
  padding := ⟨[], true⟩

def emptyRules : CircuitRules := ⟨fun _ _ _ => emptyCircuit, fun _ => .ok (), fun _ _ => .ok ()⟩

/-- The key of a config of windows alone, all of whose points are at infinity. -/
def windowsKey (identity digest : Fr) : VerifyingKey where
  codeVersion := Apogee.codeVersion
  config := windowsConfig
  entryPc := 0
  identity
  setupCommitments := List.replicate 6 []
  srsVerifier := default
  genericTable := fun _ => default
  srsDigest := digest
  circuits := windowsConfig.families.map fun entry => ⟨entry.1, emptyCircuit, []⟩

theorem emptyCircuit_fits : emptyCircuit.Fits := by
  have empty : ∀ {α : Type} {fits : α → Prop}, allFit fits [] :=
    ⟨Nat.two_pow_pos 64, fun value member => absurd member List.not_mem_nil⟩
  have layers : allFit LayerSpec.Fits emptyCircuit.layers :=
    ⟨Nat.one_lt_two_pow (by norm_num), List.forall_mem_singleton.mpr
      ⟨Nat.two_pow_pos 32, Nat.two_pow_pos 32, empty, empty, empty⟩⟩
  exact ⟨Nat.one_lt_two_pow (by norm_num), Nat.two_pow_pos 32, Nat.two_pow_pos 32, empty, empty,
    empty, empty, layers, empty, empty, empty, empty, Nat.two_pow_pos 64⟩

theorem emptyCircuit_accepted : emptyCircuit.validate = .ok () := by
  decide +kernel

variable {permute : Lanes → Lanes} {identity digest : Fr}

open VerifyingKey in
theorem windowsKey_checked
    (own : identityDigest permute Apogee.codeVersion windowsConfig 0 (List.replicate 6 []) =
      some identity) (srs : Apogee.srsDigest permute default (fun _ => default) = digest) :
    (windowsKey identity digest).check permute emptyRules = .ok () := by
  have held : ∀ entry ∈ windowsConfig.families,
      windowsConfig.circuit emptyRules entry.1 (trailingZeros entry.2) =
        some ⟨entry.1, emptyCircuit, []⟩ := by
    decide +kernel
  have each : ∀ entry ∈ windowsConfig.families,
      checkCircuit emptyRules windowsConfig (⟨entry.1, emptyCircuit, []⟩, entry, []) = .ok () := by
    intro entry member
    unfold checkCircuit
    refine then_ok.mpr ⟨require_ok.mpr (beq_self_eq_true _), ?_⟩
    dsimp only
    rw [held entry member]
    exact then_ok.mpr ⟨require_ok.mpr (beq_self_eq_true _), then_ok.mpr
      ⟨checked_ok.mpr emptyCircuit_accepted, then_ok.mpr ⟨rfl, then_ok.mpr ⟨rfl, then_ok.mpr
        ⟨require_ok.mpr rfl, require_ok.mpr rfl⟩⟩⟩⟩⟩
  have config : VmConfig.fromBytes windowsConfig.toBytes = some windowsConfig := by
    decide
  have paired : (windowsKey identity digest).circuits.zip
      ((windowsKey identity digest).config.families.zip
        (windowsKey identity digest).setupCommitments) =
      windowsConfig.families.map fun entry => (⟨entry.1, emptyCircuit, []⟩, entry, []) := rfl
  unfold check
  rw [paired]
  dsimp only [windowsKey]
  rw [own, srs]
  refine then_ok.mpr ⟨require_ok.mpr (beq_iff_eq.mpr config), then_ok.mpr ⟨require_ok.mpr rfl,
    then_ok.mpr ⟨require_ok.mpr rfl, ?_⟩⟩⟩
  refine then_ok.mpr ⟨require_ok.mpr (beq_self_eq_true _), then_ok.mpr
    ⟨require_ok.mpr (beq_self_eq_true _), then_ok.mpr ⟨require_ok.mpr rfl, ?_⟩⟩⟩
  refine checkEach_ok.mpr fun entry member => ?_
  obtain ⟨family, listed, rfl⟩ := List.mem_map.mp member
  exact each family listed

open CoordinateBytes in
/-- Zeros are the point at infinity. -/
theorem fromBytes_zeros {F : Type*} [Field F] [DecidableEq F] [Coordinate F] [CoordinateBytes F]
    {b : F} {isInSubgroup : Affine F → Bool} {bytes : List UInt8}
    (zeros : bytes = List.replicate (2 * width F) 0) :
    (Affine.fromBytes b isInSubgroup bytes).isSome = true := by
  rw [Affine.fromBytes, if_pos zeros]
  rfl

theorem zeros_decode : (decodeSrsVerifier default).isSome = true := by
  have g1 : ∃ p, G1.fromBytes ((default : FixedBytes 320).1.take 64) = some p :=
    Option.isSome_iff_exists.mp (fromBytes_zeros rfl)
  have g2 : ∃ p, G2.fromBytes (((default : FixedBytes 320).1.drop 64).take 128) = some p :=
    Option.isSome_iff_exists.mp (fromBytes_zeros rfl)
  have tau : ∃ p, G2.fromBytes ((default : FixedBytes 320).1.drop 192) = some p :=
    Option.isSome_iff_exists.mp (fromBytes_zeros rfl)
  obtain ⟨g1Gen, g1⟩ := g1
  obtain ⟨g2Gen, g2⟩ := g2
  obtain ⟨g2Tau, tau⟩ := tau
  rw [decodeSrsVerifier, g1, g2, tau]
  rfl

theorem windowsKey_loads
    (own : identityDigest permute Apogee.codeVersion windowsConfig 0 (List.replicate 6 []) =
      some identity) (srs : Apogee.srsDigest permute default (fun _ => default) = digest) :
    Loads permute emptyRules (windowsKey identity digest) := by
  have checked := windowsKey_checked own srs
  have range : (windowsKey identity digest).InRange := by
    refine ⟨Nat.two_pow_pos 32, fun c member => ?_⟩
    obtain ⟨family, -, rfl⟩ := List.mem_map.mp member
    exact emptyCircuit_fits
  refine ⟨range, checked, fun bytes wrote => ⟨windowsKey identity digest, ?_⟩⟩
  have decoded := (VerifyingKey.fromBytes_ok permute emptyRules).mpr
    ⟨VerifyingKey.encodable_of_check permute emptyRules range checked, wrote, checked⟩
  have table : (List.ofFn (windowsKey identity digest).genericTable).all isPoint = true := by
    refine List.all_eq_true.mpr fun point member => ?_
    obtain ⟨i, rfl⟩ := List.mem_ofFn.mp member
    exact fromBytes_zeros rfl
  exact bind_ok.mpr ⟨_, decoded, then_ok.mpr ⟨VerifyingKey.require_ok.mpr zeros_decode,
    then_ok.mpr ⟨VerifyingKey.require_ok.mpr rfl,
      then_ok.mpr ⟨VerifyingKey.require_ok.mpr table, rfl⟩⟩⟩⟩

theorem windowsKey_short : (windowsKey identity digest).Short := by
  have artifact : ∃ bytes, emptyCircuit.toBytes = some bytes ∧ bytes.length < 2 ^ 32 :=
    ⟨_, rfl, by decide⟩
  refine ⟨⟨by norm_num [windowsKey], fun list member => ?_⟩,
    by norm_num [windowsKey, windowsConfig], fun c member => ?_⟩
  · rw [List.eq_of_mem_replicate member]
    exact Nat.two_pow_pos 32
  · obtain ⟨family, -, rfl⟩ := List.mem_map.mp member
    exact ⟨artifact, Nat.two_pow_pos 32, fun _ none => absurd none List.not_mem_nil⟩

theorem windowsBlock_short : (windowsBlock 0).Short := by
  have statement : ((windowsBlock 0).statement.toBytes.any fun bytes =>
      decide (bytes.length < 2 ^ 32)) = true := by
    decide +kernel
  have shards : ((windowsBlock 0).shards.all fun shard => shard.toBytes.any fun bytes =>
      decide (bytes.length < 2 ^ 32)) = true := by
    decide +kernel
  refine ⟨?_, by norm_num [windowsBlock], fun shard member => ?_⟩
  · obtain ⟨bytes, wrote, short⟩ := (Option.any_eq_true _ _).mp statement
    exact ⟨bytes, wrote, of_decide_eq_true short⟩
  · obtain ⟨bytes, wrote, short⟩ := (Option.any_eq_true _ _).mp
      (List.all_eq_true.mp shards shard member)
    exact ⟨bytes, wrote, of_decide_eq_true short⟩

/-- The archive of a block of windows is written and read back, its identity as 64 digits. -/
theorem archive_reads_back_windows : ∃ key files, Loads id emptyRules key ∧
    writeProof key (windowsBlock 0) = some files ∧
    readProof id emptyRules ⟨"a.vk", "a.identity", "a.public", "a.block"⟩ files =
      .ok (key, Fr.toBytes key.identity, (windowsBlock 0).statement, windowsBlock 0) ∧
    ∃ text, fromUtf8 files.identity = some text ∧ (trim text).length = 64 := by
  obtain ⟨identity, own⟩ := @VerifyingKey.identityDigest_isSome id Apogee.codeVersion 0
    windowsConfig (List.replicate 6 []) rfl
  have loads := windowsKey_loads own rfl
  have archives := archive_reads_back id emptyRules ⟨"a.vk", "a.identity", "a.public", "a.block"⟩
  obtain ⟨files, wrote⟩ := Option.isSome_iff_exists.mp
    ((archives.writes _ _ loads (windowsBlock_fits 0)).mpr ⟨windowsKey_short, windowsBlock_short⟩)
  have read := archives.restores _ _ files loads (windowsBlock_fits 0) wrote
  have readable : Readable files.identity :=
    (writeProof_eq_some.mp wrote).2.1 ▸ readable_written (leBytes_length 32 _)
  obtain ⟨-, -, -, text, decoded, digits, -⟩ := archives.canonical files _ _ _ _ readable read
  exact ⟨_, files, loads, wrote, read, text, decoded, digits⟩

/-- A block of windows, a register of which was last written at a time its format cannot hold. -/
def lateBlock : BlockProof :=
  { windowsBlock 0 with
    statement := { (windowsBlock 0).statement with boundary := ⟨fun _ => 2 ^ 38, 0, fun _ => 0⟩ } }

/-- A block of the right shape need not be read back: its statement's decoder refuses the time. -/
theorem late_block_not_restored : ¬∀ permute rules paths key (block : BlockProof),
    Loads permute rules key → block.shape = .ok () →
    ∃ files, writeProof key block = some files ∧ readProof permute rules paths files =
      .ok (key, Fr.toBytes key.identity, block.statement, block) := by
  intro claimed
  obtain ⟨identity, own⟩ := @VerifyingKey.identityDigest_isSome id Apogee.codeVersion 0
    windowsConfig (List.replicate 6 []) rfl
  obtain ⟨files, -, read⟩ := claimed id emptyRules ⟨"a.vk", "a.identity", "a.public", "a.block"⟩
    _ lateBlock (windowsKey_loads own rfl) rfl
  have stated := (readProof_ok.mp read).2.2.1
  have early := (PublicInputs.fromBytes_ok.mp stated).1.boundary.regTs 0
  exact absurd early (lt_irrefl _)

end Apogee.ProofArchive
