import Apogee.Trace.Parts

/-! # The trace archive

The self-contained post-execution snapshot, in the container every later prover phase
appends to. The filled phases are a prefix and a phase is timed exactly when it is
filled; the reader takes exactly what the writer writes, so an archive goes through a
file unchanged, but for what the log keeps beside its events.
-/

namespace Apogee.Trace

/-- A prover phase boundary. -/
inductive Phase
  | postExecution
  | postCommit
  | postGkr
  | postOpening
  | final
deriving DecidableEq

namespace Phase

def index : Phase → Fin 5
  | postExecution => 0
  | postCommit => 1
  | postGkr => 2
  | postOpening => 3
  | final => 4

/-- The five boundaries, in order. -/
def phases : Fin 5 → Phase := ![postExecution, postCommit, postGkr, postOpening, final]

def name : Phase → String
  | postExecution => "PostExecution"
  | postCommit => "PostCommit"
  | postGkr => "PostGkr"
  | postOpening => "PostOpening"
  | final => "Final"

theorem phases_index (phase : Phase) : phases phase.index = phase := by
  cases phase <;> rfl

theorem index_phases (i : Fin 5) : (phases i).index = i := by
  fin_cases i <;> rfl

end Phase

/-- An execution's public values. -/
structure IoStreams where
  input : List UInt8
  output : List UInt8
deriving DecidableEq

/-- The snapshot. Post-execution's section is its parts; the table holds the later ones'
bytes. -/
structure TraceArchive where
  traces : FamilyTraces
  log : MemoryEventLog
  profile : CycleProfile
  io : IoStreams
  advice : List UInt8
  /-- A later phase's content, none until a prover phase fills it. -/
  later : Fin 5 → Option (List UInt8)
  /-- A filled phase's wall clock, in nanoseconds. -/
  timing : Fin 5 → Option UInt64

/-- One delegation buffer as a file holds it: without its accesses. -/
structure DelegationWire where
  family : UInt32
  height : UInt32
  cycle : List UInt64
  base : List UInt32
  words : List QueryColumns
deriving DecidableEq

/-- One event as a file holds it. -/
structure EventWire where
  tag : UInt8
  addr : UInt32
  ts : UInt64
  readTs : UInt64
  readValue : UInt32
  writeValue : UInt32
deriving DecidableEq

/-- Post-execution's content. -/
structure PostExecutionWire where
  families : List FamilyTrace
  delegations : List DelegationWire
  events : List EventWire
  counts : List (UInt32 × UInt64)
  input : List UInt8
  output : List UInt8
  advice : List UInt8
deriving DecidableEq

/-- One type's serialization: a value's bytes, and a value off the front of a string. -/
structure Codec (α : Type) where
  encode : α → List UInt8
  takeFromBytes : List UInt8 → Except String (α × List UInt8)

/-- What is relied on: a value's bytes read back to it, whatever follows. -/
def Codec.Lawful {α : Type} (codec : Codec α) : Prop :=
  ∀ value rest, codec.takeFromBytes (codec.encode value ++ rest) = .ok (value, rest)

abbrev SectionTable := Fin 5 → UInt8 × Option (List UInt8)

abbrev TimingTable := Fin 5 → UInt8 × Option UInt64

/-- The serializer, at the three types a file is made of. -/
structure Postcard where
  sections : Codec SectionTable
  timings : Codec TimingTable
  postExecution : Codec PostExecutionWire

structure Postcard.Lawful (postcard : Postcard) : Prop where
  sections : postcard.sections.Lawful
  timings : postcard.timings.Lawful
  postExecution : postcard.postExecution.Lawful

namespace TraceArchive

/-- The post-execution archive of one run. Parts that disagree panic. -/
def fromExecution (traces : FamilyTraces) (log : MemoryEventLog) (profile : CycleProfile)
    (io : IoStreams) (advice : List UInt8) (timing : UInt64) : Option TraceArchive :=
  match checkParts traces log.events profile with
  | .ok () => some ⟨traces, log, profile, io, advice, fun _ => none,
      fun i => if i = 0 then some timing else none⟩
  | .error _ => none

/-- Whether a phase has content. -/
def isFilled (a : TraceArchive) (phase : Phase) : Bool :=
  phase = .postExecution || (a.later phase.index).isSome

/-- Fill a later phase: in order, once each. -/
def fill (a : TraceArchive) (phase : Phase) (content : List UInt8) (timing : UInt64) :
    Except String TraceArchive :=
  let name := phase.name
  let before := Phase.phases (phase.index - 1)
  let beforeName := before.name
  if phase = .postExecution then
    .error "the post-execution phase is the archive's own, filled at construction"
  else if (a.later phase.index).isSome then .error s!"{name} is already filled"
  else if ¬ a.isFilled before then
    .error s!"{name} cannot be filled before {beforeName}: phases fill in order"
  else
    .ok { a with
      later := Function.update a.later phase.index (some content)
      timing := Function.update a.timing phase.index (some timing) }

def delegationWire (t : DelegationTrace) : DelegationWire :=
  ⟨t.family, t.height, t.cycle, t.base, t.words⟩

def eventWire (e : MemoryEvent) : EventWire :=
  ⟨UInt8.ofNat e.space.tag, e.addr, e.ts, e.readTs, e.readValue, e.writeValue⟩

def postExecutionWire (a : TraceArchive) : PostExecutionWire where
  families := a.traces.families
  delegations := a.traces.delegations.map delegationWire
  events := a.log.events.map eventWire
  counts := a.profile.counts
  input := a.io.input
  output := a.io.output
  advice := a.advice

variable (postcard : Postcard)

/-- Post-execution's content. Field accesses have no archive form: an assertion. -/
def postExecutionBytes (a : TraceArchive) : Option (List UInt8) :=
  if a.traces.delegations.all fun t => t.accesses.isEmpty then
    some (postcard.postExecution.encode a.postExecutionWire)
  else none

/-- The sections' table, post-execution's content first. -/
def sectionTable (a : TraceArchive) (post : List UInt8) : SectionTable := fun i =>
  (UInt8.ofNat i, if i = 0 then some post else a.later i)

def timingTable (a : TraceArchive) : TimingTable := fun i => (UInt8.ofNat i, a.timing i)

/-- The payload section, then the timing section. -/
def exportBytes (a : TraceArchive) : Option (List UInt8) := do
  let post ← a.postExecutionBytes postcard
  some (postcard.sections.encode (a.sectionTable post) ++ postcard.timings.encode a.timingTable)

/-- The two tables list the five phases in order, each timed exactly when filled. -/
def checkTables (sections : SectionTable) (timings : TimingTable) : Except String Unit :=
  checkAll (fun i : Fin 5 => do
    let tag := (sections i).1.toNat
    let timingTag := (timings i).1.toNat
    let place := i.1
    let phase := (Phase.phases i).name
    let content := if (sections i).2.isSome then "content" else "no content"
    let timed := if (timings i).2.isSome then "a timing" else "no timing"
    ensure (tag = place && timingTag = place)
      s!"section {place} is tagged {tag} and its timing {timingTag}: the table lists the five phases in order"
    ensure ((sections i).2.isSome == (timings i).2.isSome)
      s!"{phase} has {content} but {timed}: a phase is timed exactly when it is filled")
    (List.finRange 5)

/-- The filled phases are a prefix. -/
def checkPrefix (sections : SectionTable) : Except String Unit :=
  checkAll (fun i : Fin 4 =>
    let phase := (Phase.phases i.succ).name
    let before := (Phase.phases i.castSucc).name
    ensure (!((sections i.succ).2.isSome && (sections i.castSucc).2.isNone))
      s!"{phase} is filled but {before} before it is not: phases fill in order")
    (List.finRange 4)

/-- An event read back. -/
def readEvent (e : EventWire) : Except String MemoryEvent :=
  let tag := e.tag.toNat
  match Space.fromTag tag with
  | some space => .ok ⟨space, e.addr, e.ts, e.readTs, e.readValue, e.writeValue⟩
  | none => .error s!"an event names address-space tag {tag}"

/-- A refusal in the reader. -/
def refusing {α : Type} : Except String α → Except (Fault String) α :=
  Except.mapError .refused

/-- The parts of a post-execution snapshot. A delegation buffer's accesses are empty. -/
def readTraces (wire : PostExecutionWire) : FamilyTraces where
  families := wire.families
  delegations := wire.delegations.map fun t =>
    ⟨t.family, t.height, t.cycle, t.base, t.words, []⟩

/-- A file's parts, with no later phase. -/
def decodePostExecution (bytes : List UInt8) : Except (Fault String) TraceArchive := do
  let (wire, rest) ← refusing ((postcard.postExecution.takeFromBytes bytes).mapError fun e =>
    "the post-execution payload does not decode: " ++ e)
  refusing (ensure rest.isEmpty "bytes follow the post-execution payload")
  let events ← refusing (wire.events.mapM readEvent)
  let profile : CycleProfile := ⟨wire.counts⟩
  refusing (checkParts (readTraces wire) events profile)
  match MemoryEventLog.fromEvents events with
  | none => .error .panicked
  | some log => .ok ⟨readTraces wire, log, profile, ⟨wire.input, wire.output⟩, wire.advice,
      fun _ => none, fun _ => none⟩

/-- Read an archive back, refusing what `export` does not write. -/
def importBytes (bytes : List UInt8) : Except (Fault String) TraceArchive := do
  let (sections, rest) ← refusing ((postcard.sections.takeFromBytes bytes).mapError fun e =>
    "the payload section does not decode: " ++ e)
  let (timings, rest) ← refusing ((postcard.timings.takeFromBytes rest).mapError fun e =>
    "the timing section does not decode: " ++ e)
  let left := rest.length
  refusing (ensure rest.isEmpty s!"{left} bytes follow the timing section")
  refusing (checkTables sections timings)
  refusing (checkPrefix sections)
  let post ← refusing (match (sections 0).2 with
    | some post => .ok post
    | none => .error "the post-execution phase is empty")
  let parts ← decodePostExecution postcard post
  let a := { parts with
    later := fun i => if i = 0 then none else (sections i).2
    timing := fun i => (timings i).2 }
  match a.exportBytes postcard with
  | none => .error .panicked
  | some canonical =>
    if canonical = bytes then .ok a
    else .error (.refused "the file is not the canonical encoding of the archive it decodes to")

/-- Write an archive out and read it back. -/
def roundTrip (a : TraceArchive) : Except (Fault String) TraceArchive :=
  match a.exportBytes postcard with
  | none => .error .panicked
  | some bytes => importBytes postcard bytes

/-- What every archive built by the constructor and filled in order keeps. -/
structure Kept (a : TraceArchive) : Prop where
  parts : checkParts a.traces a.log.events a.profile = .ok ()
  first : a.later 0 = none
  timed : ∀ i, (a.timing i).isSome = (decide (i = 0) || (a.later i).isSome)
  filled : ∀ i : Fin 4, (a.later i.succ).isSome → i.castSucc = 0 ∨ (a.later i.castSucc).isSome

/-- What a prover phase reads of post-execution: the parts, the log by its events and tables. -/
structure Execution where
  traces : FamilyTraces
  events : List MemoryEvent
  tables : LastAccess
  profile : CycleProfile
  io : IoStreams
  advice : List UInt8

def execution (a : TraceArchive) : Execution :=
  ⟨a.traces, a.log.events, a.log.state.toLastAccess, a.profile, a.io, a.advice⟩

/-- An execution with an archive form: no delegation buffer carries field accesses and the
log recorded no field cell. -/
structure Archived (x : Execution) : Prop where
  accesses : ∀ t ∈ x.traces.delegations, t.accesses = []
  field : x.tables.field = []

section RoundTrip

theorem fromExecution_some {traces : FamilyTraces} {log : MemoryEventLog} {profile : CycleProfile}
    {io : IoStreams} {advice : List UInt8} {timing : UInt64} {a : TraceArchive}
    (built : fromExecution traces log profile io advice timing = some a) :
    a.Kept ∧ a.later = fun _ => none := by
  unfold fromExecution at built
  cases checked : checkParts traces log.events profile with
  | error e =>
    rw [checked] at built
    cases built
  | ok accepted =>
    rw [checked] at built
    cases built
    refine ⟨⟨checked, rfl, fun i => ?_, fun i filled => nomatch filled⟩, rfl⟩
    by_cases first : i = 0
    · simp only [first, if_true, decide_true, Bool.true_or, Option.isSome_some]
    · simp only [first, if_false, decide_false, Option.isSome_none, Bool.or_self]

/-- Filling a phase whose predecessor is filled. -/
theorem fill_ok {a : TraceArchive} {phase : Phase} (content : List UInt8) (timing : UInt64)
    (later : phase ≠ .postExecution) (empty : a.later phase.index = none)
    (before : a.isFilled (Phase.phases (phase.index - 1)) = true) :
    a.fill phase content timing = .ok { a with
      later := Function.update a.later phase.index (some content)
      timing := Function.update a.timing phase.index (some timing) } := by
  have vacant : ¬ (a.later phase.index).isSome := by rw [empty]; exact nofun
  rw [fill, if_neg later, if_neg vacant, if_neg (not_not.mpr before)]

/-- Filling keeps what the archive keeps, its execution and what was filled before. -/
theorem Kept.fill {a after : TraceArchive} (kept : a.Kept) {phase : Phase} {content : List UInt8}
    {timing : UInt64} (ran : a.fill phase content timing = .ok after) :
    after.Kept ∧ after.execution = a.execution ∧
      ∀ i, (a.later i).isSome → (after.later i).isSome := by
  unfold TraceArchive.fill at ran
  dsimp only at ran
  split_ifs at ran with first empty before
  cases ran
  have grows : ∀ i, (a.later i).isSome →
      (Function.update a.later phase.index (some content) i).isSome := by
    intro i held
    rcases eq_or_ne i phase.index with rfl | apart
    · rw [Function.update_self]
      rfl
    · rwa [Function.update_of_ne apart]
  refine ⟨⟨kept.parts, ?_, fun i => ?_, fun i held => ?_⟩, rfl, grows⟩
  · refine (Function.update_of_ne (fun same => first ?_) _ _).trans kept.first
    exact (Phase.phases_index phase).symm.trans (congrArg Phase.phases same.symm)
  · rcases eq_or_ne i phase.index with rfl | apart
    · simp only [Function.update_self, Option.isSome_some, Bool.or_true]
    · simp only [Function.update_of_ne apart]
      exact kept.timed i
  · rcases eq_or_ne i.succ phase.index with same | apart
    · have previous : phase.index - 1 = i.castSucc := by
        rw [← same]
        fin_cases i <;> rfl
      rw [previous, isFilled, Phase.index_phases, Bool.or_eq_true, decide_eq_true_eq] at before
      refine before.imp (fun first => ?_) (grows _)
      rw [← Phase.index_phases i.castSucc, first]
      rfl
    · dsimp only at held
      rw [Function.update_of_ne apart] at held
      exact (kept.filled i held).imp_right (grows _)

theorem readEvent_eventWire (e : MemoryEvent) : readEvent (eventWire e) = .ok e := by
  have tagged : (UInt8.ofNat e.space.tag).toNat = e.space.tag := by
    cases e.space <;> rfl
  simp only [readEvent, eventWire, tagged, Space.fromTag_tag]

theorem readEvents_eventWire (events : List MemoryEvent) :
    (events.map eventWire).mapM readEvent = .ok events := by
  induction events with
  | nil => rfl
  | cons e events ih =>
    rw [List.map_cons, List.mapM_cons, readEvent_eventWire, ih]
    rfl

theorem readTraces_postExecutionWire {a : TraceArchive} (archived : Archived a.execution) :
    readTraces a.postExecutionWire = a.traces := by
  have buffers : (a.traces.delegations.map delegationWire).map (fun t => (⟨t.family, t.height,
      t.cycle, t.base, t.words, []⟩ : DelegationTrace)) = a.traces.delegations := by
    rw [List.map_map]
    refine (List.map_congr_left fun t member => ?_).trans (List.map_id _)
    rw [id_eq, Function.comp_apply, delegationWire, ← archived.accesses t member]
  rw [readTraces, postExecutionWire, buffers]

/-- A kept archive's post-execution content decodes to its parts. -/
theorem decodePostExecution_ok (lawful : postcard.Lawful) {a : TraceArchive} (kept : a.Kept)
    (archived : Archived a.execution) {log : MemoryEventLog}
    (rebuilt : MemoryEventLog.fromEvents a.log.events = some log) :
    decodePostExecution postcard (postcard.postExecution.encode a.postExecutionWire) =
      .ok ⟨a.traces, log, a.profile, a.io, a.advice, fun _ => none, fun _ => none⟩ := by
  have decoded := lawful.postExecution a.postExecutionWire []
  rw [List.append_nil] at decoded
  have events : a.postExecutionWire.events.mapM readEvent = .ok a.log.events :=
    readEvents_eventWire a.log.events
  have profile : (⟨a.postExecutionWire.counts⟩ : CycleProfile) = a.profile := rfl
  have spent : ensure ([] : List UInt8).isEmpty "bytes follow the post-execution payload" =
      .ok () := rfl
  simp only [decodePostExecution, decoded, Except.mapError, refusing, spent, events, profile,
    readTraces_postExecutionWire archived, kept.parts, rebuilt, bind, Except.bind]
  rfl

/-- The two tables a kept archive writes pass the reader's rules. -/
theorem checkTables_ok {a : TraceArchive} (kept : a.Kept) (post : List UInt8) :
    checkTables (a.sectionTable post) a.timingTable = .ok () := by
  rw [checkTables, checkAll_ok]
  intro i _
  have tagged : (UInt8.ofNat i).toNat = (i : ℕ) := by fin_cases i <;> rfl
  have timed : (a.sectionTable post i).2.isSome = (a.timing i).isSome := by
    rw [kept.timed i, sectionTable]
    by_cases first : i = 0
    · simp only [first, if_true, decide_true, Bool.true_or, Option.isSome_some]
    · simp only [first, if_false, decide_false, Bool.false_or]
  rw [andThen_ok, ensure_ok, ensure_ok]
  refine ⟨?_, ?_⟩
  · simp only [sectionTable, timingTable, tagged, decide_true, Bool.and_self]
  · rw [timed, timingTable, beq_self_eq_true]

theorem checkPrefix_ok {a : TraceArchive} (kept : a.Kept) (post : List UInt8) :
    checkPrefix (a.sectionTable post) = .ok () := by
  rw [checkPrefix, checkAll_ok]
  intro i _
  have later : i.succ ≠ 0 := Fin.succ_ne_zero i
  rw [ensure_ok, Bool.not_eq_true', Bool.and_eq_false_iff]
  simp only [sectionTable, if_neg later]
  by_cases filled : (a.later i.succ).isSome = true
  · right
    rcases kept.filled i filled with first | before
    · rw [if_pos first]
      rfl
    · by_cases first : i.castSucc = 0
      · rw [if_pos first]
        rfl
      · rw [if_neg first]
        exact Option.isNone_eq_false_iff.mpr before
  · left
    exact Bool.not_eq_true _ ▸ filled

/-- A kept archive of an execution with an archive form goes through a file unchanged, but
for what the log keeps beside its events. -/
theorem roundTrip_ok (lawful : postcard.Lawful) {a : TraceArchive} (kept : a.Kept)
    (archived : Archived a.execution) :
    ∃ b, a.roundTrip postcard = .ok b ∧ b.execution = a.execution ∧ b.later = a.later ∧
      b.timing = a.timing := by
  have holds := fun e member => (events_of_checkParts kept.parts e member).1
  obtain ⟨log, rebuilt, events, tables⟩ := MemoryEventLog.fromEvents_some holds
  have fieldless : (a.traces.delegations.all fun t => t.accesses.isEmpty) = true :=
    List.all_eq_true.mpr fun t member => List.isEmpty_iff.mpr (archived.accesses t member)
  have post : a.postExecutionBytes postcard =
      some (postcard.postExecution.encode a.postExecutionWire) := if_pos fieldless
  let content := postcard.postExecution.encode a.postExecutionWire
  let b : TraceArchive := ⟨a.traces, log, a.profile, a.io, a.advice, a.later, a.timing⟩
  have wrote : a.exportBytes postcard = some (postcard.sections.encode (a.sectionTable content) ++
      postcard.timings.encode a.timingTable) := by
    rw [exportBytes, post]
    rfl
  have again : b.exportBytes postcard = a.exportBytes postcard := by
    have wire : b.postExecutionWire = a.postExecutionWire := by
      simp only [postExecutionWire, b, events]
    simp only [exportBytes, postExecutionBytes, wire]
    rfl
  have sections := lawful.sections (a.sectionTable content) (postcard.timings.encode a.timingTable)
  have timings := lawful.timings a.timingTable []
  rw [List.append_nil] at timings
  have table : ∀ i, (if i = 0 then none else (a.sectionTable content i).2) = a.later i := by
    intro i
    by_cases first : i = 0
    · rw [if_pos first, first, kept.first]
    · rw [if_neg first, sectionTable, if_neg first]
  have found : (a.sectionTable content 0).2 = some content := rfl
  have parts := decodePostExecution_ok postcard lawful kept archived rebuilt
  refine ⟨b, ?_, ?_, rfl, rfl⟩
  · rw [roundTrip, wrote]
    simp only [importBytes, sections, timings, Except.mapError, refusing, ensure, List.isEmpty_nil,
      if_true, checkTables_ok kept, checkPrefix_ok kept, found, bind, Except.bind, table]
    rw [show decodePostExecution postcard content = _ from parts]
    dsimp only
    have same : (⟨a.traces, log, a.profile, a.io, a.advice, fun i => a.later i,
        fun i => (a.timingTable i).2⟩ : TraceArchive) = b := rfl
    rw [same, again, wrote]
    exact if_pos rfl
  · rw [execution, execution, MemoryEventLog.tables_eq archived.field, ← tables, ← events]

/-- Phases filled one after another, each with its content and timing. -/
def fillAll (a : TraceArchive) (fills : List (Phase × List UInt8 × UInt64)) :
    Except String TraceArchive :=
  fills.foldlM (fun a fill => a.fill fill.1 fill.2.1 fill.2.2) a

theorem Kept.fillAll {a after : TraceArchive} (kept : a.Kept)
    {fills : List (Phase × List UInt8 × UInt64)} (ran : a.fillAll fills = .ok after) :
    after.Kept ∧ after.execution = a.execution := by
  induction fills generalizing a with
  | nil => exact Except.ok.inj ran ▸ ⟨kept, rfl⟩
  | cons fill fills ih =>
    rw [TraceArchive.fillAll, List.foldlM_cons] at ran
    cases filled : a.fill fill.1 fill.2.1 fill.2.2 with
    | error e =>
      rw [filled] at ran
      cases ran
    | ok next =>
      rw [filled] at ran
      obtain ⟨keeps, same, -⟩ := kept.fill filled
      exact (ih keeps ran).imp_right fun later => later.trans same

/-- **An archive survives its file**, whatever phases were filled since its construction. -/
theorem fillAll_roundTrip (lawful : postcard.Lawful) {traces : FamilyTraces}
    {log : MemoryEventLog} {profile : CycleProfile} {io : IoStreams} {advice : List UInt8}
    {timing : UInt64} {a filled : TraceArchive}
    (built : fromExecution traces log profile io advice timing = some a)
    (archived : Archived a.execution) (fills : List (Phase × List UInt8 × UInt64))
    (ran : a.fillAll fills = .ok filled) :
    ∃ b, filled.roundTrip postcard = .ok b ∧ b.execution = a.execution ∧
      b.later = filled.later ∧ b.timing = filled.timing := by
  obtain ⟨kept, same⟩ := (fromExecution_some built).1.fillAll ran
  rw [← same] at archived ⊢
  exact roundTrip_ok postcard lawful kept archived

end RoundTrip

end TraceArchive

end Apogee.Trace
