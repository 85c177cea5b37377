import Apogee.Circuit.Delegation

/-! # The memory event log

Every memory query of one execution, in order, beside the last-access tables that fill
each query's read side. The tables follow from the events, but for the field cells: a
field access is not an event. Outside the log only the tables are read.
-/

namespace Apogee.Trace

/-- What an assertion of the source that fails, or a refusal with its error, leaves. -/
inductive Fault (ε : Type)
  | panicked
  | refused (error : ε)
deriving DecidableEq

/-- The address space a query names. -/
inductive Space
  | reg
  | ram
  | pc
  | keccakF
  | poseidon2
  | frArith
  | modMul
  | sha256Comp
  | ecAdd
  | frOp
  | p2Field
  | fieldIo
  | fqOp
deriving DecidableEq

/-- Ordinary RAM. -/
def inRam (addr : UInt32) : Bool :=
  GuestMemory.ramOrigin ≤ addr.toNat && addr.toNat - GuestMemory.ramOrigin < 0x7FFF0000

/-- A region some family initializes: ordinary RAM, a public window, or the advice region. -/
def addressable (addr : UInt32) : Bool :=
  inRam addr || (GuestMemory.publicInputOrigin ≤ addr.toNat &&
      addr.toNat - GuestMemory.publicInputOrigin < 2 * GuestMemory.publicWindowBytes) ||
    GuestMemory.adviceOrigin ≤ addr.toNat

namespace Space

def all : List Space :=
  [reg, ram, pc, keccakF, poseidon2, frArith, modMul, sha256Comp, ecAdd, frOp, p2Field, fieldIo,
    fqOp]

def tag : Space → ℕ
  | reg => AddressSpace.reg
  | ram => AddressSpace.ram
  | pc => AddressSpace.pc
  | keccakF => AddressSpace.delegationKeccakF
  | poseidon2 => AddressSpace.delegationPoseidon2
  | frArith => AddressSpace.delegationFrArith
  | modMul => AddressSpace.delegationModMul
  | sha256Comp => AddressSpace.delegationSha256Comp
  | ecAdd => AddressSpace.delegationEcAdd
  | frOp => AddressSpace.delegationFrOp
  | p2Field => AddressSpace.delegationP2Field
  | fieldIo => AddressSpace.delegationFieldIo
  | fqOp => AddressSpace.delegationFqOp

/-- The space a tag names, if it names one. -/
def fromTag (tag : ℕ) : Option Space := all.find? fun space => space.tag == tag

theorem fromTag_tag (space : Space) : fromTag space.tag = some space := by
  cases space <;> rfl

/-- An address the space has. A delegation space's are frame bases. -/
def holds (space : Space) (addr : UInt32) : Bool :=
  match space with
  | reg => addr.toNat < 32
  | ram => addr.toNat % 4 = 0 && addressable addr
  | pc => addr.toNat = 0
  | _ => addr.toNat % 4 = 0 && inRam addr

/-- A query's read is the last write at its address. -/
def chains : Space → Bool
  | reg => true
  | ram => true
  | pc => true
  | _ => false

/-- The name a refusal shows. -/
def name : Space → String
  | reg => "Reg"
  | ram => "Ram"
  | pc => "Pc"
  | keccakF => "KeccakF"
  | poseidon2 => "Poseidon2"
  | frArith => "FrArith"
  | modMul => "ModMul"
  | sha256Comp => "Sha256Comp"
  | ecAdd => "EcAdd"
  | frOp => "FrOp"
  | p2Field => "P2Field"
  | fieldIo => "FieldIo"
  | fqOp => "FqOp"

end Space

/-- One memory query: a read and a write at one address. -/
structure MemoryEvent where
  space : Space
  addr : UInt32
  ts : UInt64
  /-- When the value read was written, or zero for an initial value. -/
  readTs : UInt64
  readValue : UInt32
  writeValue : UInt32
deriving DecidableEq

/-- A table kept as its entries, one a key. -/
abbrev Table (κ ν : Type) := List (κ × ν)

namespace Table

variable {κ ν : Type} [DecidableEq κ]

def get (table : Table κ ν) (key : κ) : Option ν :=
  (List.find? (fun entry => entry.1 == key) table).map Prod.snd

def insert (table : Table κ ν) (key : κ) (value : ν) : Table κ ν :=
  (key, value) :: List.filter (fun entry => entry.1 != key) table

end Table

/-- The last-access tables: what every touched address last held, and when. -/
structure LastAccess where
  regs : Fin 32 → Option (UInt64 × UInt32)
  pc : Option (UInt64 × UInt32)
  ram : Table UInt32 (UInt64 × UInt32)
  /-- A field cell's last write; not an event. -/
  field : Table UInt32 (UInt64 × Fr)

namespace LastAccess

def new : LastAccess := ⟨fun _ => none, none, [], []⟩

/-- A register past the last indexes past the table; `holds` rules it out. -/
def register (addr : UInt32) : Option (Fin 32) :=
  if inside : addr.toNat < 32 then some ⟨addr.toNat, inside⟩ else none

def last (state : LastAccess) (space : Space) (addr : UInt32) : Option (UInt64 × UInt32) :=
  match space with
  | .reg => register addr >>= state.regs
  | .pc => state.pc
  | .ram => state.ram.get addr
  | _ => none

/-- An unchained space keeps no last write. -/
def remember (state : LastAccess) (e : MemoryEvent) : LastAccess :=
  match e.space with
  | .reg =>
    match register e.addr with
    | some r => { state with regs := Function.update state.regs r (some (e.ts, e.writeValue)) }
    | none => state
  | .pc => { state with pc := some (e.ts, e.writeValue) }
  | .ram => { state with ram := state.ram.insert e.addr (e.ts, e.writeValue) }
  | _ => state

/-- The tables the events leave. -/
def ofEvents (events : List MemoryEvent) : LastAccess := events.foldl remember new

/-- The ordinary RAM windows touched, ascending. -/
def touchedRamWindows (state : LastAccess) (height : ℕ) : List ℕ :=
  (((state.ram.filter fun entry => inRam entry.1).map fun entry =>
    entry.1.toNat / (4 * height)).mergeSort).dedup

/-- The field windows through the highest cell touched. -/
def fieldWindows (state : LastAccess) (height : ℕ) : ℕ :=
  match (state.field.map fun entry => entry.1.toNat).max? with
  | some top => (top / height % 2 ^ 32 + 1) % 2 ^ 32
  | none => 0

theorem remember_field (state : LastAccess) (e : MemoryEvent) :
    (state.remember e).field = state.field := by
  unfold remember
  cases e.space with
  | reg =>
    dsimp only
    cases register e.addr <;> rfl
  | _ => rfl

/-- Remembering an event does not see the field cells. -/
theorem remember_withField (state : LastAccess) (e : MemoryEvent) (field : Table UInt32 (UInt64 × Fr)) :
    { state.remember e with field } = ({ state with field } : LastAccess).remember e := by
  unfold remember
  cases e.space with
  | reg =>
    dsimp only
    cases register e.addr <;> rfl
  | _ => rfl

theorem ofEvents_append (events : List MemoryEvent) (e : MemoryEvent) :
    ofEvents (events ++ [e]) = (ofEvents events).remember e := by
  rw [ofEvents, List.foldl_append]
  rfl

end LastAccess

/-- The tables and the last timestamp recorded, which only recording reads. -/
structure MemoryState extends LastAccess where
  lastTs : Option UInt64

namespace MemoryState

def new : MemoryState := ⟨.new, none⟩

/-- What a query's read side must be: the last write, or at a first query the initial value,
read at 0. An unchained space answers at 0. -/
def lastRead (state : MemoryState) (space : Space) (addr readValue : UInt32) : UInt64 × UInt32 :=
  if space.chains then (state.last space addr).getD (0, readValue) else (0, 0)

/-- Record one query, its read side filled from the tables. A broken rule panics. -/
def record (state : MemoryState) (space : Space) (addr : UInt32) (ts : UInt64)
    (readValue writeValue : UInt32) : Option (MemoryEvent × MemoryState) :=
  let last := state.lastRead space addr readValue
  let event : MemoryEvent := ⟨space, addr, ts, last.1, readValue, writeValue⟩
  if space.holds addr ∧ ts.toNat < 2 ^ Clock.tsBits ∧ state.lastTs.all (fun before => before ≤ ts) ∧
      last.2 = readValue ∧ last.1 < ts then
    some (event, ⟨state.remember event, some ts⟩)
  else none

/-- Record one access to a field cell: when it was last written, and the state after. -/
def recordField (state : MemoryState) (cell : UInt32) (ts : UInt64) (read write : Fr) :
    Option (UInt64 × MemoryState) :=
  let last := (state.field.get cell).getD (0, 0)
  if last.2 = read ∧ last.1 < ts then
    some (last.1, { state with field := state.field.insert cell (ts, write) })
  else none

theorem record_some {state after : MemoryState} {space : Space} {addr : UInt32} {ts : UInt64}
    {readValue writeValue : UInt32} {e : MemoryEvent}
    (recorded : state.record space addr ts readValue writeValue = some (e, after)) :
    after.toLastAccess = state.remember e := by
  obtain ⟨-, same⟩ := Option.ite_none_right_eq_some.mp recorded
  cases same
  rfl

theorem recordField_some {state after : MemoryState} {cell : UInt32} {ts readTs : UInt64}
    {read write : Fr} (recorded : state.recordField cell ts read write = some (readTs, after)) :
    { after.toLastAccess with field := [] } = { state.toLastAccess with field := [] } := by
  obtain ⟨-, same⟩ := Option.ite_none_right_eq_some.mp recorded
  cases same
  rfl

end MemoryState

/-- The events, and a state whose tables are theirs but for the field cells. -/
structure MemoryEventLog where
  events : List MemoryEvent
  state : MemoryState
  follows : { state.toLastAccess with field := [] } = LastAccess.ofEvents events

namespace MemoryEventLog

def new : MemoryEventLog := ⟨[], .new, rfl⟩

def record (log : MemoryEventLog) (space : Space) (addr : UInt32) (ts : UInt64)
    (readValue writeValue : UInt32) : Option (MemoryEvent × MemoryEventLog) :=
  match recorded : log.state.record space addr ts readValue writeValue with
  | none => none
  | some (event, state) => some (event,
    { events := log.events ++ [event]
      state
      follows := by
        rw [MemoryState.record_some recorded, LastAccess.ofEvents_append, ← log.follows]
        exact LastAccess.remember_withField _ _ _ })

def recordField (log : MemoryEventLog) (cell : UInt32) (ts : UInt64) (read write : Fr) :
    Option (UInt64 × MemoryEventLog) :=
  match recorded : log.state.recordField cell ts read write with
  | none => none
  | some (readTs, state) => some (readTs,
    { events := log.events
      state
      follows := (MemoryState.recordField_some recorded).trans log.follows })

/-- A log holding exactly these events, its state rebuilt from them. An address its space
lacks panics. -/
def fromEvents (events : List MemoryEvent) : Option MemoryEventLog :=
  if events.all fun e => e.space.holds e.addr then
    some
      { events
        state := ⟨.ofEvents events, none⟩
        follows := by
          have fresh : (LastAccess.ofEvents events).field = [] := by
            induction events using List.reverseRecOn with
            | nil => rfl
            | append_singleton events e ih =>
              rw [LastAccess.ofEvents_append, LastAccess.remember_field, ih]
          rw [← fresh] }
  else none

theorem fromEvents_some {events : List MemoryEvent}
    (held : ∀ e ∈ events, e.space.holds e.addr = true) : ∃ log, fromEvents events = some log ∧
      log.events = events ∧ log.state.toLastAccess = .ofEvents events := by
  have all : (events.all fun e => e.space.holds e.addr) = true := List.all_eq_true.mpr held
  rw [fromEvents, if_pos all]
  exact ⟨_, rfl, rfl, rfl⟩

/-- A log with no field cell has the tables its events leave. -/
theorem tables_eq {log : MemoryEventLog} (fieldless : log.state.field = []) :
    log.state.toLastAccess = LastAccess.ofEvents log.events := by
  rw [← log.follows, ← fieldless]

end MemoryEventLog

end Apogee.Trace
