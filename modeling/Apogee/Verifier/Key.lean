import Apogee.Circuit.Registry
import Apogee.Circuit.Wire
import Apogee.Verifier.Block

/-! # The verifying key

A key's wire form and its load rules. A loaded key re-encodes to the bytes it came
from, so its decoder accepts one encoding of each key that keeps the rules.
-/

namespace Apogee

open Apogee.Math

/-- `constants::family::CODE_VERSION`. -/
def codeVersion : ℕ := 0

instance (n : ℕ) : Inhabited (FixedBytes n) := ⟨⟨List.replicate n 0, List.length_replicate⟩⟩

/-- Everything `verify_shard` needs beyond a proof and its public inputs. -/
structure VerifyingKey where
  codeVersion : ℕ
  config : VmConfig
  entryPc : ℕ
  identity : Fr
  /-- Program identity's commitment lists, one per config family. -/
  setupCommitments : List (List (FixedBytes 64))
  srsVerifier : FixedBytes 320
  /-- The packed generic table's commitments, key column first. -/
  genericTable : Fin 3 → FixedBytes 64
  srsDigest : Fr
  /-- One per config family, in its order. -/
  circuits : List FamilyCircuit

/-- Why a key is not loaded: a rule it breaks, or an assertion of the loader that fails. -/
inductive KeyError
  | refused (why : String)
  | panicked
deriving DecidableEq

/-- What the load rules take from the circuits: the families' constructors and the two
checks of an artifact's memory and lookup arguments, whatever they compute. -/
structure CircuitRules where
  build : Bool → ℕ → ℕ → CircuitArtifact
  checkMemory : CircuitArtifact → Except String Unit
  checkDischarge : CircuitArtifact → List ChannelSpec → Except String Unit

namespace VmConfig

/-- A statement under this config is in the recursion format. -/
def isRecursion (config : VmConfig) : Bool := (config.height Family.fieldWindows).isSome

/-- A family's circuit, from the config's format's registry. -/
def circuit (rules : CircuitRules) (config : VmConfig) (family traceVars : ℕ) :
    Option FamilyCircuit :=
  Registry.circuit rules.build config.isRecursion family traceVars

end VmConfig

/-- The text of a refused artifact. -/
def ConstraintError.display : ConstraintError → String
  | locality layer gate operand =>
    "law 1 (locality): `" ++ gate ++ "` in gate list " ++ toString layer ++ " reads " ++
      operand.display
  | derivedWidth layer detail =>
    "law 2 (derived width): layer " ++ toString layer ++ ": " ++ detail
  | topLayer detail => "law 3 (top layer): " ++ detail
  | singleSource detail => "law 4 (single source of truth): " ++ detail
  | degree gate found =>
    "`" ++ gate ++ "` is degree " ++ toString found ++
      " in the layer it reads; the ceiling is 2"
  | notInlinable gate =>
    "`" ++ gate ++ "` names a cached entry the cache-free compilation cannot inline"
  | malformed detail => "malformed circuit: " ++ detail

namespace VerifyingKey

section Encoding

/-- The tag and index of an address a channel spec names. -/
def addressWords : PolyAddress → Option (ℕ × ℕ)
  | .memory i => some (0, i)
  | .witness i => some (1, i)
  | .setup i => some (2, i)
  | .virtual kind => some (3, kind.tag)
  | _ => none

/-- A tag and an index. The source panics on an address of another kind. -/
def writeAddress : Writer PolyAddress := fun a => addressWords a >>= fun x =>
  written [Write.u8 x.1, Write.u32 x.2]

def addressOfWords : ℕ × ℕ → Except String PolyAddress
  | (0, i) => .ok (.memory i)
  | (1, i) => .ok (.witness i)
  | (2, i) => .ok (.setup i)
  | (3, i) =>
    match VirtualKind.ofTag i with
    | some kind => .ok (.virtual kind)
    | none => .error "an unknown virtual table"
  | _ => .error "an unknown address tag"

def readAddress : Read PolyAddress := convert addressOfWords (do
  let tag ← Wire.u8
  let index ← Wire.u32
  pure (tag, index))

def writeSpec : Writer ChannelSpec := fun x =>
  written [Write.u32 x.channel, Write.list writeAddress x.table, writeAddress x.multiplicity]

def readSpec : Read ChannelSpec := do
  let channel ← Wire.u32
  let table ← Wire.list 5 readAddress
  let multiplicity ← readAddress
  pure ⟨channel, table, multiplicity⟩

def decodeArtifact (bytes : List UInt8) : Except String CircuitArtifact :=
  match CircuitArtifact.fromBytes bytes with
  | .ok artifact => .ok artifact
  | .error _ => .error "a circuit artifact does not decode"

def readArtifact : Read CircuitArtifact := convert decodeArtifact Wire.bytes

def writeArtifact : Writer CircuitArtifact := fun x => x.toBytes >>= Write.bytes

def writeCircuit : Writer FamilyCircuit := fun x =>
  written [Write.u32 x.family, writeArtifact x.artifact, Write.list writeSpec x.channels]

def readCircuit : Read FamilyCircuit := do
  let family ← Wire.u32
  let artifact ← readArtifact
  let channels ← Wire.list (4 + 4 + 5) readSpec
  pure ⟨family, artifact, channels⟩

def write : Writer VerifyingKey := fun x =>
  written [Write.u32 x.codeVersion, writeConfig x.config, Write.u32 x.entryPc,
    Write.fr x.identity, Write.list Write.g1s x.setupCommitments, Write.raw x.srsVerifier,
    writeEach Write.raw (List.ofFn x.genericTable), Write.fr x.srsDigest,
    Write.list writeCircuit x.circuits]

def read : Read VerifyingKey := do
  let codeVersion ← Wire.u32
  let config ← readConfig "the VmConfig does not decode"
  let entryPc ← Wire.u32
  let identity ← Wire.fr
  let setupCommitments ← Wire.list 4 Wire.g1s
  let srsVerifier ← Wire.raw 320
  let genericTable ← array 3 Wire.g1
  let srsDigest ← Wire.fr
  let circuits ← Wire.list 12 readCircuit
  pure ⟨codeVersion, config, entryPc, identity, setupCommitments, srsVerifier, genericTable,
    srsDigest, circuits⟩

/-- The encoding, unless an assertion of the encoder fails. -/
def toBytes (x : VerifyingKey) : Option (List UInt8) := write x

def decode (bytes : List UInt8) : Except String VerifyingKey := Wire.whole read bytes

end Encoding

section Load

variable (permute : Lanes → Lanes) (rules : CircuitRules)

def refuse (why : String) : Except KeyError Unit := .error (.refused why)

/-- A rule that refuses with a text. -/
def require (rule : Bool) (why : String) : Except KeyError Unit :=
  if rule then .ok () else refuse why

/-- A check of the circuit's own, its refusal prefixed with the family's name. -/
def checked {ε : Type} (name : String) (display : ε → String) :
    Except ε Unit → Except KeyError Unit
  | .ok () => .ok ()
  | .error e => refuse (name ++ ": " ++ display e)

/-- The rules of one family's circuit. -/
def checkCircuit (config : VmConfig) (entry : FamilyCircuit × (ℕ × ℕ) × List (FixedBytes 64)) :
    Except KeyError Unit := do
  let (c, (family, height), setup) := entry
  let name := "family " ++ toString family
  require (c.family == family) (name ++ ": the key's circuits are not its config's families")
  match config.circuit rules family (trailingZeros height) with
  | none => refuse (name ++ ": no circuit proves it at height " ++ toString height)
  | some canonical =>
    require (c == canonical) (name ++ ": the circuit is not the protocol's")
    checked name ConstraintError.display c.artifact.validate
    checked name id (rules.checkMemory c.artifact)
    checked name id (rules.checkDischarge c.artifact c.channels)
    let generic := if c.readsGenericTable then GenericTable.width else 0
    require (setup.length + generic == c.artifact.setup.length)
      (name ++ ": " ++ toString setup.length ++ " setup commitments and " ++ toString generic ++
        " of the generic table for " ++ toString c.artifact.setup.length ++ " setup columns")
    let afterIdentity := (List.range generic).map fun j => PolyAddress.setup (setup.length + j)
    require ((c.channels.filter fun spec => spec.channel == LookupChannel.generic).all
        fun spec => spec.table == afterIdentity)
      (name ++ ": the circuit does not name the generic table as its last setup columns")

/-- Each entry in turn, up to the first that fails. -/
def checkEach {α : Type} (check : α → Except KeyError Unit) : List α → Except KeyError Unit
  | [] => .ok ()
  | entry :: others => do
    check entry
    checkEach check others

/-- The load rules, everything but the curve points. -/
def check (key : VerifyingKey) : Except KeyError Unit := do
  require (VmConfig.fromBytes key.config.toBytes == some key.config)
    "the key's VmConfig is not one a program derives"
  require (key.codeVersion == Apogee.codeVersion)
    ("code version " ++ toString key.codeVersion ++ " is not " ++ toString Apogee.codeVersion)
  require (key.setupCommitments.length == key.config.families.length)
    "the key has not one setup list per config family"
  match identityDigest permute key.codeVersion key.config key.entryPc key.setupCommitments with
  | none => .error .panicked
  | some identity =>
    require (identity == key.identity)
      "the identity is not the digest of the key's setup commitments"
    require (Apogee.srsDigest permute key.srsVerifier key.genericTable == key.srsDigest)
      "the SRS digest is not the digest of the key's SrsVerifier and generic table"
    require (key.circuits.length == key.config.families.length)
      "the key has not one circuit per config family"
    checkEach (checkCircuit rules key.config)
      (key.circuits.zip (key.config.families.zip key.setupCommitments))

/-- Decode, refuse another encoding, then check. -/
def fromBytes (bytes : List UInt8) : Except KeyError VerifyingKey :=
  match decode bytes with
  | .error why => .error (.refused why)
  | .ok key =>
    match key.toBytes with
    | none => .error .panicked
    | some encoded => do
      require (encoded == bytes) "the key is not the canonical encoding of itself"
      key.check permute rules
      .ok key

end Load

section Inversion

/-- A channel spec's address: committed or virtual, its index 32-bit. -/
def addressFits (a : PolyAddress) : Bool :=
  (addressWords a).any fun words => decide (words.2 < 2 ^ 32)

theorem addressFits_iff {a : PolyAddress} :
    addressFits a = true ↔ ∃ words, addressWords a = some words ∧ words.2 < 2 ^ 32 := by
  rw [addressFits, Option.any_eq_true]
  simp only [decide_eq_true_eq]

theorem addressOfWords_ok {words : ℕ × ℕ} {a : PolyAddress} :
    addressOfWords words = .ok a ↔ addressWords a = some words := by
  obtain ⟨tag, i⟩ := words
  constructor
  · intro converted
    match tag with
    | 0 | 1 | 2 =>
      cases converted
      rfl
    | 3 =>
      rw [addressOfWords] at converted
      cases known : VirtualKind.ofTag i with
      | none =>
        rw [known] at converted
        cases converted
      | some kind =>
        rw [known] at converted
        cases converted
        rw [addressWords, VirtualKind.tag_of_ofTag known]
    | _ + 4 => cases converted
  · intro words
    cases a with
    | memory | witness | setup =>
      cases words
      rfl
    | «virtual» kind =>
      cases words
      rw [addressOfWords, Postcard.ofTag_tag]
    | inner | scratch | cached => cases words

theorem address_inverts : Inverts readAddress (fun a => addressFits a) writeAddress := by
  have words : Inverts (do
      let tag ← Wire.u8
      let index ← Wire.u32
      pure (tag, index)) (fun x : ℕ × ℕ => x.1 < 2 ^ 8 ∧ x.2 < 2 ^ 32 ∧ True)
      fun x => written [Write.u8 x.1, Write.u32 x.2] := by
    apply Inverts.first Prod.fst Wire.u8_inverts
    intro tag
    apply Inverts.next (fun x : ℕ × ℕ => x.2) Wire.u32_inverts
    intro index
    apply Inverts.done
    rintro ⟨_, _⟩
    simp only [Prod.mk.injEq]
  refine Inverts.convert _ addressWords words ?_ ?_
  · rintro value a ⟨-, small, -⟩
    rw [addressOfWords_ok, addressFits_iff]
    exact ⟨fun converted => ⟨⟨value, converted, small⟩, converted⟩, fun both => both.2⟩
  · intro a value fits converted
    obtain ⟨words, same, small⟩ := addressFits_iff.mp fits
    rw [converted] at same
    cases same
    refine ⟨?_, small, trivial⟩
    cases a with
    | memory | witness | setup | «virtual» =>
      cases converted
      norm_num
    | inner | scratch | cached => cases converted

/-- An address is a tag and a word. -/
theorem address_length {a : PolyAddress} {bytes : List UInt8}
    (wrote : writeAddress a = some bytes) : bytes.length = 5 := by
  obtain ⟨words, -, wrote⟩ := Option.bind_eq_some_iff.mp wrote
  cases wrote
  simp only [List.length_append, leBytes_length, List.length_nil]

theorem spec_length {x : ChannelSpec} {bytes : List UInt8} (wrote : writeSpec x = some bytes) :
    4 + 4 + 5 ≤ bytes.length := by
  obtain ⟨channel, wroteChannel, others, rest, rfl⟩ := written_cons_eq_some.mp wrote
  obtain ⟨table, wroteTable, multiplicity, wroteMultiplicity, rfl⟩ := written_pair_eq_some.mp rest
  cases wroteChannel
  have counted := counted_length wroteTable
  have five := address_length wroteMultiplicity
  simp only [List.length_append, leBytes_length]
  omega

theorem circuit_length {x : FamilyCircuit} {bytes : List UInt8}
    (wrote : writeCircuit x = some bytes) : 12 ≤ bytes.length := by
  obtain ⟨family, wroteFamily, others, rest, rfl⟩ := written_cons_eq_some.mp wrote
  obtain ⟨artifact, wroteArtifact, channels, wroteChannels, rfl⟩ := written_pair_eq_some.mp rest
  cases wroteFamily
  obtain ⟨inner, -, embedded⟩ := Option.bind_eq_some_iff.mp wroteArtifact
  have prefixed := prefixed_length embedded
  have counted := counted_length wroteChannels
  simp only [List.length_append, leBytes_length]
  omega

/-- A spec's channel is 32-bit and its addresses fit. -/
def specFits (x : ChannelSpec) : Bool :=
  decide (x.channel < 2 ^ 32) && x.table.all addressFits && addressFits x.multiplicity

theorem spec_inverts : Inverts readSpec (fun x => specFits x) writeSpec := by
  have table : Inverts (Wire.list 5 readAddress) (fun table => ∀ a ∈ table, addressFits a = true)
      (Write.list writeAddress) := Wire.list_inverts address_inverts fun _ _ _ wrote =>
    (address_length wrote).ge
  have fields : Inverts readSpec (fun x => x.channel < 2 ^ 32 ∧
      (∀ a ∈ x.table, addressFits a = true) ∧ addressFits x.multiplicity = true ∧ True)
      writeSpec := by
    unfold readSpec writeSpec
    apply Inverts.first ChannelSpec.channel Wire.u32_inverts
    intro channel
    apply Inverts.next ChannelSpec.table table
    intro table
    apply Inverts.next ChannelSpec.multiplicity address_inverts
    intro multiplicity
    apply Inverts.done
    rintro ⟨⟩
    simp only [ChannelSpec.mk.injEq, and_assoc]
  refine fields.congr (fun x => ?_) fun _ => rfl
  simp only [specFits, Bool.and_eq_true, decide_eq_true_eq, List.all_eq_true, and_assoc, and_true]

theorem artifact_inverts : Inverts readArtifact CircuitArtifact.Decodes writeArtifact := by
  refine Inverts.convert _ CircuitArtifact.toBytes Wire.bytes_inverts ?_ fun _ _ _ _ => trivial
  intro bytes x _
  rw [← CircuitArtifact.fromBytes_ok, decodeArtifact]
  cases CircuitArtifact.fromBytes bytes with
  | error e => exact iff_of_false (fun wrong => nomatch wrong) fun wrong => nomatch wrong
  | ok found => rw [Except.ok.injEq, Except.ok.injEq]

/-- A circuit's numbers fit and its artifact decodes. -/
structure CircuitFits (x : FamilyCircuit) : Prop where
  family : x.family < 2 ^ 32
  artifact : x.artifact.Decodes
  channels : ∀ spec ∈ x.channels, specFits spec = true

theorem circuit_inverts : Inverts readCircuit CircuitFits writeCircuit := by
  have channels : Inverts (Wire.list (4 + 4 + 5) readSpec)
      (fun specs => ∀ spec ∈ specs, specFits spec = true) (Write.list writeSpec) :=
    Wire.list_inverts spec_inverts fun _ _ _ wrote => spec_length wrote
  have fields : Inverts readCircuit (fun x => x.family < 2 ^ 32 ∧ x.artifact.Decodes ∧
      (∀ spec ∈ x.channels, specFits spec = true) ∧ True) writeCircuit := by
    unfold readCircuit writeCircuit
    apply Inverts.first FamilyCircuit.family Wire.u32_inverts
    intro family
    apply Inverts.next FamilyCircuit.artifact artifact_inverts
    intro artifact
    apply Inverts.next FamilyCircuit.channels channels
    intro specs
    apply Inverts.done
    rintro ⟨⟩
    simp only [FamilyCircuit.mk.injEq, and_assoc]
  refine fields.congr (fun x => ⟨?_, ?_⟩) fun _ => rfl
  · rintro ⟨family, artifact, specs⟩
    exact ⟨family, artifact, specs, trivial⟩
  · rintro ⟨family, artifact, specs, -⟩
    exact ⟨family, artifact, specs⟩

/-- A key whose encoding its decoder reads. -/
structure Encodable (x : VerifyingKey) : Prop where
  codeVersion : x.codeVersion < 2 ^ 32
  config : x.config.Derived
  entryPc : x.entryPc < 2 ^ 32
  circuits : ∀ c ∈ x.circuits, CircuitFits c

theorem read_inverts : Inverts read Encodable write := by
  have lists : Inverts (Wire.list 4 Wire.g1s) (fun _ => True) (Write.list Write.g1s) :=
    Wire.freeList_inverts Wire.g1s_inverts (fun _ => trivial) fun _ _ => counted_length
  have circuits : Inverts (Wire.list 12 readCircuit) (fun circuits => ∀ c ∈ circuits, CircuitFits c)
      (Write.list writeCircuit) :=
    Wire.list_inverts circuit_inverts fun _ _ _ wrote => circuit_length wrote
  have table : Inverts (array 3 Wire.g1) (fun _ => True) fun points : Fin 3 → FixedBytes 64 =>
      writeEach Write.raw (List.ofFn points) :=
    ((Wire.raw_inverts 64).array 3).congr (fun _ => ⟨fun _ _ => trivial, fun _ => trivial⟩)
      fun _ => rfl
  have fields : Inverts read (fun x => x.codeVersion < 2 ^ 32 ∧ x.config.Derived ∧
      x.entryPc < 2 ^ 32 ∧ True ∧ True ∧ True ∧ True ∧ True ∧ (∀ c ∈ x.circuits, CircuitFits c) ∧
      True) write := by
    unfold read write
    apply Inverts.first VerifyingKey.codeVersion Wire.u32_inverts
    intro codeVersion
    apply Inverts.next VerifyingKey.config (BlockProof.config_inverts _)
    intro config
    apply Inverts.next VerifyingKey.entryPc Wire.u32_inverts
    intro entryPc
    apply Inverts.next VerifyingKey.identity Wire.fr_inverts
    intro identity
    apply Inverts.next VerifyingKey.setupCommitments lists
    intro setupCommitments
    apply Inverts.next VerifyingKey.srsVerifier (Wire.raw_inverts 320)
    intro srsVerifier
    apply Inverts.next VerifyingKey.genericTable table
    intro genericTable
    apply Inverts.next VerifyingKey.srsDigest Wire.fr_inverts
    intro srsDigest
    apply Inverts.next VerifyingKey.circuits circuits
    intro circuits
    apply Inverts.done
    rintro ⟨⟩
    simp only [VerifyingKey.mk.injEq, and_assoc]
  refine fields.congr (fun x => ⟨?_, ?_⟩) fun _ => rfl
  · rintro ⟨codeVersion, config, entryPc, circuits⟩
    exact ⟨codeVersion, config, entryPc, trivial, trivial, trivial, trivial, trivial, circuits,
      trivial⟩
  · rintro ⟨codeVersion, config, entryPc, -, -, -, -, -, circuits, -⟩
    exact ⟨codeVersion, config, entryPc, circuits⟩

end Inversion

section Loaded

variable (permute : Lanes → Lanes) (rules : CircuitRules)

theorem require_ok {rule : Bool} {why : String} : require rule why = .ok () ↔ rule = true := by
  cases rule with
  | false => exact iff_of_false (fun wrong => nomatch wrong) Bool.false_ne_true
  | true => exact iff_of_true rfl rfl

theorem checked_ok {ε : Type} {name : String} {display : ε → String} {found : Except ε Unit} :
    checked name display found = .ok () ↔ found = .ok () := by
  cases found with
  | error e => exact iff_of_false (fun wrong => nomatch wrong) fun wrong => nomatch wrong
  | ok done => exact iff_of_true rfl rfl

theorem checkEach_ok {α : Type} {rule : α → Except KeyError Unit} {entries : List α} :
    checkEach rule entries = .ok () ↔ ∀ entry ∈ entries, rule entry = .ok () := by
  induction entries with
  | nil => exact iff_of_true rfl fun _ member => absurd member List.not_mem_nil
  | cons entry others ih => rw [checkEach, then_ok, ih, List.forall_mem_cons]

/-- A check that never fails by an assertion. -/
def Total {α : Type} (step : Except KeyError α) : Prop := step ≠ .error .panicked

theorem total_require (rule : Bool) (why : String) : Total (require rule why) := by
  cases rule with
  | false => exact fun wrong => nomatch wrong
  | true => exact fun wrong => nomatch wrong

theorem total_checked {ε : Type} (name : String) (display : ε → String) (found : Except ε Unit) :
    Total (checked name display found) := by
  cases found with
  | error e => exact fun wrong => nomatch wrong
  | ok done => exact fun wrong => nomatch wrong

/-- A step, then what runs only when it passed. -/
theorem Total.andThen {β : Type} {step : Except KeyError Unit} {rest : Except KeyError β}
    (first : Total step) (second : step = .ok () → Total rest) :
    Total (do step; rest) := by
  cases step with
  | error e => exact fun wrong => first (by cases wrong; rfl)
  | ok done => exact second rfl

theorem total_checkEach {α : Type} {rule : α → Except KeyError Unit} (entries : List α)
    (total : ∀ entry, Total (rule entry)) : Total (checkEach rule entries) := by
  induction entries with
  | nil => exact fun wrong => nomatch wrong
  | cons entry others ih => exact (total entry).andThen fun _ => ih

theorem total_checkCircuit (config : VmConfig)
    (entry : FamilyCircuit × (ℕ × ℕ) × List (FixedBytes 64)) :
    Total (checkCircuit rules config entry) := by
  obtain ⟨c, ⟨family, height⟩, setup⟩ := entry
  refine (total_require _ _).andThen fun _ => ?_
  dsimp only
  cases config.circuit rules family (trailingZeros height) with
  | none => exact fun wrong => nomatch wrong
  | some canonical =>
    refine (total_require _ _).andThen fun _ => ?_
    refine (total_checked _ _ _).andThen fun _ => ?_
    refine (total_checked _ _ _).andThen fun _ => ?_
    refine (total_checked _ _ _).andThen fun _ => ?_
    exact (total_require _ _).andThen fun _ => total_require _ _

/-- The identity's sponge panics only on a list too few or too many. -/
theorem identityDigest_isSome {codeVersion entryPc : ℕ} {config : VmConfig}
    {commitments : List (List (FixedBytes 64))}
    (counted : commitments.length = config.families.length) :
    ∃ identity, identityDigest permute codeVersion config entryPc commitments = some identity := by
  unfold identityDigest identitySponge
  rw [if_pos counted]
  exact ⟨_, rfl⟩

theorem total_check (key : VerifyingKey) : Total (key.check permute rules) := by
  refine (total_require _ _).andThen fun _ => ?_
  refine (total_require _ _).andThen fun _ => ?_
  refine (total_require _ _).andThen fun counted => ?_
  obtain ⟨identity, digest⟩ := @identityDigest_isSome permute key.codeVersion key.entryPc
    key.config key.setupCommitments (eq_of_beq (require_ok.mp counted))
  rw [digest]
  refine (total_require _ _).andThen fun _ => ?_
  refine (total_require _ _).andThen fun _ => ?_
  refine (total_require _ _).andThen fun _ => ?_
  exact total_checkEach _ fun entry => total_checkCircuit rules key.config entry

/-- No byte string makes the loader panic. -/
theorem total_fromBytes (bytes : List UInt8) : Total (fromBytes permute rules bytes) := by
  unfold fromBytes
  cases decoded : decode bytes with
  | error why => exact fun wrong => nomatch wrong
  | ok key =>
    have encoded : key.toBytes = some bytes := ((Wire.whole_ok read_inverts).mp decoded).2
    dsimp only
    rw [encoded]
    refine (total_require _ _).andThen fun _ => ?_
    exact (total_check permute rules key).andThen fun _ => fun wrong => nomatch wrong

/-- The loader accepts exactly the encodings of the keys that keep the rules. -/
theorem fromBytes_ok {bytes : List UInt8} {x : VerifyingKey} :
    fromBytes permute rules bytes = .ok x ↔
      x.Encodable ∧ x.toBytes = some bytes ∧ x.check permute rules = .ok () := by
  unfold fromBytes
  cases decoded : decode bytes with
  | error why =>
    refine iff_of_false (fun wrong => nomatch wrong) ?_
    rintro ⟨encodable, wrote, -⟩
    have found : decode bytes = .ok x := (Wire.whole_ok read_inverts).mpr ⟨encodable, wrote⟩
    rw [decoded] at found
    cases found
  | ok key =>
    obtain ⟨encodable, encoded⟩ := (Wire.whole_ok read_inverts).mp decoded
    have wrote : key.toBytes = some bytes := encoded
    dsimp only
    rw [wrote]
    dsimp only
    rw [then_ok, then_ok, require_ok, Except.ok.injEq]
    constructor
    · rintro ⟨-, passed, rfl⟩
      exact ⟨encodable, wrote, passed⟩
    · rintro ⟨encodable, wroteX, passed⟩
      have found : decode bytes = .ok x := (Wire.whole_ok read_inverts).mpr ⟨encodable, wroteX⟩
      rw [decoded] at found
      cases found
      exact ⟨beq_self_eq_true bytes, passed, rfl⟩

/-- A key whose numbers are their types' and whose artifacts' lists are countable. -/
structure InRange (x : VerifyingKey) : Prop where
  entryPc : x.entryPc < 2 ^ 32
  artifacts : ∀ c ∈ x.circuits, c.artifact.Fits

/-- Every list, and every encoding embedded in the key's, is shorter than a wire count. -/
structure Short (x : VerifyingKey) : Prop where
  setupCommitments : x.setupCommitments.length < 2 ^ 32 ∧
    ∀ list ∈ x.setupCommitments, list.length < 2 ^ 32
  circuits : x.circuits.length < 2 ^ 32 ∧ ∀ c ∈ x.circuits,
    (∃ bytes, c.artifact.toBytes = some bytes ∧ bytes.length < 2 ^ 32) ∧
      c.channels.length < 2 ^ 32 ∧ ∀ spec ∈ c.channels, spec.table.length < 2 ^ 32

/-- The registry's specs are ones a key can write. -/
theorem registry_fits {recursion : Bool} {family : ℕ} {specs : List ChannelSpec}
    (held : Registry.channels recursion family = some specs) :
    family < Family.count ∧ ∀ spec ∈ specs, specFits spec = true := by
  have all : ∀ recursion, ∀ entry ∈ Registry.families recursion,
      entry.1 < Family.count ∧ ∀ spec ∈ entry.2, specFits spec = true := by
    decide
  obtain ⟨front, back, listed, -⟩ := List.lookup_eq_some_iff.mp held
  apply all recursion (family, specs)
  rw [listed]
  exact List.mem_append_right front List.mem_cons_self

/-- What the rules leave of one circuit. -/
theorem checkCircuit_ok {config : VmConfig} {c : FamilyCircuit} {family height : ℕ}
    {setup : List (FixedBytes 64)}
    (passed : checkCircuit rules config (c, (family, height), setup) = .ok ()) :
    c.family < Family.count ∧ c.artifact.formatVersion = CircuitArtifact.FORMAT_VERSION ∧
      ∀ spec ∈ c.channels, specFits spec = true := by
  unfold checkCircuit at passed
  dsimp only at passed
  obtain ⟨-, passed⟩ := then_ok.mp passed
  cases held : config.circuit rules family (trailingZeros height) with
  | none =>
    rw [held] at passed
    cases passed
  | some canonical =>
    rw [held] at passed
    obtain ⟨same, passed⟩ := then_ok.mp passed
    obtain ⟨valid, -⟩ := then_ok.mp passed
    obtain rfl : c = canonical := eq_of_beq (require_ok.mp same)
    have version : c.artifact.formatVersion = CircuitArtifact.FORMAT_VERSION :=
      CircuitArtifact.header_version (CircuitArtifact.validate_ok.mp (checked_ok.mp valid)).1
    unfold VmConfig.circuit Registry.circuit at held
    by_cases tall : CircuitArtifact.MAX_TRACE_VARS < trailingZeros height
    · rw [if_pos tall] at held
      cases held
    · rw [if_neg tall] at held
      cases named : Registry.channels config.isRecursion family with
      | none =>
        rw [named] at held
        cases held
      | some specs =>
        rw [named] at held
        dsimp only at held
        obtain ⟨known, fits⟩ := registry_fits named
        by_cases low : trailingZeros height < Registry.minimumTraceVars specs
        · rw [if_pos low] at held
          cases held
        · rw [if_neg low] at held
          cases held
          exact ⟨known, version, fits⟩

/-- A key that keeps the rules and whose numbers are their types' is encodable. -/
theorem encodable_of_check {x : VerifyingKey} (range : x.InRange)
    (passed : x.check permute rules = .ok ()) : x.Encodable := by
  unfold check at passed
  obtain ⟨configs, passed⟩ := then_ok.mp passed
  obtain ⟨versions, passed⟩ := then_ok.mp passed
  obtain ⟨setups, passed⟩ := then_ok.mp passed
  have lists : x.setupCommitments.length = x.config.families.length :=
    eq_of_beq (require_ok.mp setups)
  obtain ⟨identity, digest⟩ := @identityDigest_isSome permute x.codeVersion x.entryPc x.config
    x.setupCommitments lists
  rw [digest] at passed
  obtain ⟨-, passed⟩ := then_ok.mp passed
  obtain ⟨-, passed⟩ := then_ok.mp passed
  obtain ⟨counted, passed⟩ := then_ok.mp passed
  have circuits : x.circuits.length = x.config.families.length := eq_of_beq (require_ok.mp counted)
  have derived := (VmConfig.fromBytes_eq_some.mp (eq_of_beq (require_ok.mp configs))).2
  have version : x.codeVersion = Apogee.codeVersion := eq_of_beq (require_ok.mp versions)
  refine ⟨?_, derived, range.entryPc, ?_⟩
  · rw [version]
    decide
  · intro c member
    obtain ⟨i, inside, rfl⟩ := List.getElem_of_mem member
    have place : i < (x.circuits.zip (x.config.families.zip x.setupCommitments)).length := by
      rw [List.length_zip, List.length_zip, lists, circuits, min_self, min_self, ← circuits]
      exact inside
    have entry := checkEach_ok.mp passed _ (List.getElem_mem place)
    rw [List.getElem_zip, List.getElem_zip] at entry
    obtain ⟨known, format, specs⟩ := checkCircuit_ok rules entry
    exact ⟨known.trans (by decide), CircuitArtifact.decodes_of_fits
      (range.artifacts _ member) format, specs⟩

/-- The encoder returns exactly on the short keys. -/
theorem toBytes_isSome {x : VerifyingKey} (encodable : x.Encodable) :
    x.toBytes.isSome ↔ x.Short := by
  have address : ∀ {a}, addressFits a = true → (writeAddress a).isSome := by
    intro a fits
    obtain ⟨words, named, -⟩ := addressFits_iff.mp fits
    rw [writeAddress, named]
    rfl
  have circuit : ∀ c ∈ x.circuits, ((writeCircuit c).isSome ↔
      (∃ bytes, c.artifact.toBytes = some bytes ∧ bytes.length < 2 ^ 32) ∧
        c.channels.length < 2 ^ 32 ∧ ∀ spec ∈ c.channels, spec.table.length < 2 ^ 32) := by
    intro c member
    have fits := encodable.circuits c member
    have spec : ∀ spec ∈ c.channels,
        ((writeSpec spec).isSome ↔ spec.table.length < 2 ^ 32) := by
      intro spec inside
      have own := fits.channels spec inside
      simp only [specFits, Bool.and_eq_true, List.all_eq_true] at own
      simp only [writeSpec, written_cons_isSome, written_nil_isSome, Write.list_isSome, and_true,
        address own.2]
      exact ⟨fun both => both.2.1, fun short => ⟨rfl, short, fun a named => address (own.1.2 a named)⟩⟩
    simp only [writeCircuit, written_cons_isSome, written_nil_isSome, Write.list_isSome, and_true,
      writeArtifact, Write.embedded_isSome]
    constructor
    · rintro ⟨-, artifact, channels, specs⟩
      exact ⟨artifact, channels, fun entry inside => (spec entry inside).mp (specs entry inside)⟩
    · rintro ⟨artifact, channels, specs⟩
      exact ⟨rfl, artifact, channels,
        fun entry inside => (spec entry inside).mpr (specs entry inside)⟩
  have points : (writeEach Write.raw (List.ofFn x.genericTable)).isSome :=
    writeEach_isSome.mpr fun _ _ => rfl
  simp only [toBytes, write, written_cons_isSome, written_nil_isSome, Write.list_isSome,
    Write.g1s_isSome, and_true, points, BlockProof.config_isSome encodable.config]
  constructor
  · rintro ⟨-, -, -, -, setup, -, -, -, circuits, each⟩
    exact ⟨setup, circuits, fun c member => (circuit c member).mp (each c member)⟩
  · rintro ⟨setup, circuits, each⟩
    exact ⟨rfl, trivial, rfl, rfl, setup, rfl, trivial, rfl, circuits,
      fun c member => (circuit c member).mpr (each c member)⟩

end Loaded

end VerifyingKey

end Apogee
