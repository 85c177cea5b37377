import Apogee.Loader.ImageWire
import Apogee.Math.LastWrite
import Apogee.Trace.Log

/-! # The log's self-check

The memory argument at the trace's own level: the timestamp rules, and then that
what is written is what is read, the initial writes and the teardown reads included.
A check that fails names the first query at the unbalanced address that does not
read the write before it.
-/

namespace Apogee.Trace

open Math

section InitialMemory

/-- Guest memory before the first cycle, by its three sources. -/
structure InitialMemory where
  image : Loader.ProgramImage
  publicInput : List UInt8
  advice : List UInt8

/-- The byte at an address, out of the first segment that has one there. -/
def imageByte (image : Loader.ProgramImage) (position : ℕ) : ℕ :=
  match image.segments.find? fun s =>
      s.vaddr.toNat ≤ position && position < s.vaddr.toNat + s.bytes.length with
  | some s => (s.bytes.getD (position - s.vaddr.toNat) 0).toNat
  | none => 0

/-- The image's word at an address. -/
def imageWord (image : Loader.ProgramImage) (addr : UInt32) : UInt32 :=
  UInt32.ofNat ((List.range 4).foldl (fun word i =>
    word ||| imageByte image (addr.toNat + i) * 2 ^ (8 * i)) 0)

/-- A word of the advice region: the length, then the payload, then zeros. -/
def adviceWord (advice : List UInt8) : ℕ → UInt32
  | 0 => UInt32.ofNat advice.length
  | i + 1 => UInt32.ofNat (leValue ((List.range 4).map fun k => advice.getD (4 * i + k) 0))

/-- A public window's words: the length, then the payload; none for one too long. -/
def publicIoWords (bytes : List UInt8) : Option (List UInt32) :=
  if bytes.length ≤ GuestMemory.publicWindowBytes - 4 then
    some ((List.range Family.publicWindowHeight).map fun y =>
      match y with
      | 0 => UInt32.ofNat bytes.length
      | i + 1 => UInt32.ofNat (leValue ((bytes.drop (4 * i)).take 4)))
  else none

/-- The word at an aligned address before the first cycle. -/
def InitialMemory.word (initial : InitialMemory) (addr : UInt32) : Option UInt32 :=
  if inRam addr then some (imageWord initial.image addr)
  else if GuestMemory.adviceOrigin ≤ addr.toNat then
    some (adviceWord initial.advice ((addr.toNat - GuestMemory.adviceOrigin) / 4))
  else if GuestMemory.publicInputOrigin ≤ addr.toNat ∧
      addr.toNat - GuestMemory.publicInputOrigin < GuestMemory.publicWindowBytes then do
    let words ← publicIoWords initial.publicInput
    words[(addr.toNat - GuestMemory.publicInputOrigin) / 4]?
  else some 0

/-- An address's value before the first cycle. -/
def initialValue (initial : InitialMemory) (space : Space) (addr : UInt32) : Option UInt32 :=
  match space with
  | .reg => some 0
  | .pc => some (UInt32.ofBitVec initial.image.entry)
  | .ram => initial.word addr
  | _ => some 0

end InitialMemory

/-- Why a log is refused. -/
inductive Refusal
  | notAnAddress
  | pastTheClock
  | outOfOrder
  | negativeGap (readTs ts : UInt64)
  | secondQuery
  /-- The tuple's value and timestamp, how many more times it is written than read,
  and the query named. -/
  | unbalanced (value : UInt32) (ts : UInt64) (count : ℤ) (query : Option MemoryEvent)
deriving DecidableEq

structure SelfCheckError where
  space : Space
  addr : UInt32
  ts : UInt64
  reason : Refusal
deriving DecidableEq

namespace MemoryEvent

def address (e : MemoryEvent) : Space × UInt32 := (e.space, e.addr)

/-- The timestamp and the value that a query reads. -/
def read (e : MemoryEvent) : UInt64 × UInt32 := (e.readTs, e.readValue)

/-- The timestamp and the value that a query writes. -/
def write (e : MemoryEvent) : UInt64 × UInt32 := (e.ts, e.writeValue)

/-- A refusal of this query. -/
def refuse (e : MemoryEvent) (reason : Refusal) : Fault SelfCheckError :=
  .refused ⟨e.space, e.addr, e.ts, reason⟩

end MemoryEvent

section Check

/-- A tuple that the multisets count: an address, a timestamp and a value. -/
abbrev MemoryTuple := (Space × UInt32) × UInt64 × UInt32

/-- What a touched address adds: its initial write and its teardown's read. -/
def teardown (initial : InitialMemory) (entry : (Space × UInt32) × UInt64 × UInt32) :
    Option (List (MemoryTuple × ℤ)) :=
  (initialValue initial entry.1.1 entry.1.2).map fun init =>
    [((entry.1, (0, init)), 1), ((entry.1, entry.2), -1)]

/-- A tuple's place in the map's order: by space, address, timestamp and value. -/
def rank (key : MemoryTuple) : ℕ :=
  ((Space.all.idxOf key.1.1 * 2 ^ 32 + key.1.2.toNat) * 2 ^ 64 + key.2.1.toNat) * 2 ^ 32 +
    key.2.2.toNat

/-- An address' queries, in order. -/
def queriesAt (events : List MemoryEvent) (address : Space × UInt32) : List MemoryEvent :=
  events.filter fun e => e.address == address

end Check

section Described

/-- The rules on addresses and timestamps. -/
structure Rules (events : List MemoryEvent) : Prop where
  held : ∀ e ∈ events,
    e.space.holds e.addr = true ∧ e.ts.toNat < 2 ^ Clock.tsBits ∧ e.readTs < e.ts
  ordered : events.Pairwise fun e other => e.ts ≤ other.ts
  distinct : events.Pairwise fun e other => (e.address, e.ts) ≠ (other.address, other.ts)

/-- An address' queries read what they must: the write before, the initial value at
first, and in an unchained space the answer. -/
def ReadsAs (initial : InitialMemory) (events : List MemoryEvent) (address : Space × UInt32) :
    Prop :=
  if address.1.chains then
    ∃ init, initialValue initial address.1 address.2 = some init ∧
      ReadsLast MemoryEvent.read MemoryEvent.write (0, init) (queriesAt events address)
  else ∀ e ∈ queriesAt events address, e.read = (0, 0)

/-- A log that the memory argument describes. -/
structure Described (initial : InitialMemory) (events : List MemoryEvent) : Prop where
  rules : Rules events
  reads : ∀ e ∈ events, ReadsAs initial events e.address

end Described

section Rules

end Rules

section Tables

variable {κ ν : Type} [DecidableEq κ]

theorem Table.get_cons (entry : κ × ν) (table : Table κ ν) (key : κ) :
    Table.get (entry :: table) key = if entry.1 = key then some entry.2 else table.get key := by
  rw [get, List.find?_cons]
  by_cases same : entry.1 = key
  · rw [beq_iff_eq.mpr same, if_pos same]
    rfl
  · rw [beq_eq_false_iff_ne.mpr same, if_neg same]
    rfl

theorem Table.get_insert (table : Table κ ν) (key other : κ) (value : ν) :
    (table.insert key value).get other = if other = key then some value else table.get other := by
  rw [insert, get_cons]
  by_cases same : key = other
  · rw [if_pos same, if_pos same.symm]
  · rw [if_neg same, if_neg (Ne.symm same), get, List.find?_filter]
    refine congrArg (Option.map Prod.snd) (List.find?_congr fun entry _ => ?_)
    by_cases here : entry.1 = other
    · rw [here, beq_self_eq_true, bne_iff_ne.mpr (Ne.symm same)]
      rfl
    · rw [beq_eq_false_iff_ne.mpr here]
      exact decide_eq_false fun both => Bool.false_ne_true both.2

theorem Table.exists_get {table : Table κ ν} {entry : κ × ν} (member : entry ∈ table) :
    ∃ value, table.get entry.1 = some value := by
  induction table with
  | nil => exact absurd member List.not_mem_nil
  | cons first rest ih =>
    rw [get_cons]
    by_cases same : first.1 = entry.1
    · exact ⟨first.2, if_pos same⟩
    · rw [if_neg same]
      rcases List.mem_cons.mp member with here | there
      · exact absurd (congrArg Prod.fst here).symm same
      · exact ih there

end Tables

section Balance

theorem queriesAt_append (events : List MemoryEvent) (e : MemoryEvent)
    (address : Space × UInt32) : queriesAt (events ++ [e]) address =
      queriesAt events address ++ if e.address = address then [e] else [] := by
  rw [queriesAt, List.filter_append, queriesAt, List.filter_cons, List.filter_nil]
  congr 1
  by_cases same : e.address = address
  · rw [if_pos same, if_pos (beq_iff_eq.mpr same)]
  · rw [if_neg same, if_neg (by simpa using same)]

/-- What the queries at an address write, or the answers that they are given. -/
def answers (address : Space × UInt32) (queries : List MemoryEvent) : List (UInt64 × UInt32) :=
  queries.map fun e => if address.1.chains then e.write else (0, 0)

end Balance

section Balanced

variable {initial : InitialMemory} {events : List MemoryEvent}

theorem mem_queriesAt {address : Space × UInt32} {e : MemoryEvent} :
    e ∈ queriesAt events address ↔ e ∈ events ∧ e.address = address := by
  rw [queriesAt, List.mem_filter, beq_iff_eq]

/-- The queries at one address are written at ascending timestamps, each after it reads. -/
theorem Rules.ascending (rules : Rules events) (address : Space × UInt32) :
    (queriesAt events address).Pairwise (fun x y => x.write.1.toNat < y.write.1.toNat) ∧
    ∀ e ∈ queriesAt events address, e.read.1.toNat < e.write.1.toNat := by
  constructor
  · have both := (rules.ordered.and rules.distinct).filter fun e => e.address == address
    refine both.imp_of_mem fun {x y} left right apart => ?_
    have here := (mem_queriesAt.mp left).2.trans (mem_queriesAt.mp right).2.symm
    have differ : x.ts ≠ y.ts := fun same => apart.2 (Prod.ext here same)
    exact lt_of_le_of_ne (UInt64.le_iff_toNat_le.mp apart.1)
      fun same => differ (UInt64.toNat_inj.mp same)
  · intro e member
    exact UInt64.lt_iff_toNat_lt.mp (rules.held e (mem_queriesAt.mp member).1).2.2

/-- Every touched address of a chained space has a value before the first cycle. -/
def Defined (initial : InitialMemory) (events : List MemoryEvent) : Prop :=
  ∀ e ∈ events, e.space.chains = true → ∃ init, initialValue initial e.space e.addr = some init

end Balanced

section First

/-- An address' place in the map's order. -/
def addressRank (address : Space × UInt32) : ℕ :=
  Space.all.idxOf address.1 * 2 ^ 32 + address.2.toNat

end First

section Exact

variable {initial : InitialMemory} {events : List MemoryEvent}

/-- No two queries share an address and a timestamp. -/
theorem Rules.unique (rules : Rules events) {e other : MemoryEvent} (left : e ∈ events)
    (right : other ∈ events) (address : e.address = other.address) (ts : e.ts = other.ts) :
    e = other := by
  by_contra differ
  have apart : Std.Symm fun e other : MemoryEvent => (e.address, e.ts) ≠ (other.address,
    other.ts) :=
    ⟨fun _ _ apart => apart.symm⟩
  exact rules.distinct.forall left right differ (Prod.ext address ts)

theorem Described.defined (described : Described initial events) : Defined initial events := by
  intro e member chained
  have reads := described.reads e member
  rw [ReadsAs, if_pos (show e.address.1.chains = true from chained)] at reads
  obtain ⟨init, value, -⟩ := reads
  exact ⟨init, value⟩

end Exact

end Apogee.Trace
