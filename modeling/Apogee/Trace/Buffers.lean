import Apogee.Trace.Log

/-! # The trace buffers

One row per executed cycle of a family, column-major, and one row per invocation of a
delegation family. The parts of one run agree: every buffer is well formed, the
profile counts the buffers, and the log is exactly the one the rows rebuild.
-/

namespace Apogee

/-- Whether a family's rows are cycles. -/
def Family.cycleOwning (family : ℕ) : Bool := family < Family.initTeardown

/-- A family's name, as the constants spell it. -/
def Family.name (family : ℕ) : String :=
  ["ADD_SUB_LUI_AUIPC", "JUMP_BRANCH_SLT", "SHIFT_BITWISE", "MUL_DIV", "MEM_WORD", "MEM_SUBWORD",
    "ATOMICS", "INIT_TEARDOWN", "ZERO_WINDOWS", "KECCAK_F", "POSEIDON2", "FR_ARITH",
    "PUBLIC_INPUT", "PUBLIC_OUTPUT", "ADVICE_WINDOWS", "MOD_MUL", "SHA256_COMP", "EC_ADD",
    "FIELD_WINDOWS", "FR_OP", "P2_FIELD", "FIELD_IO", "FQ_OP"].getD family ""

namespace Trace

/-- What a query does in its cycle. -/
inductive Role
  | rs1
  | rs2
  | load
  | ram
  | rd
  | delegate
deriving DecidableEq

namespace Role

/-- Every role, in the order of a cycle's events. -/
def roles : List Role := [rs1, rs2, load, ram, rd, delegate]

/-- A role's place among a row's eight slots. -/
def index : Role → Fin 8
  | rs1 => 0
  | rs2 => 1
  | load => 2
  | ram => 3
  | rd => 4
  | delegate => 5

/-- The in-cycle slot. -/
def delta : Role → UInt64
  | rs1 => 1
  | rs2 => 2
  | load => 2
  | ram => 3
  | rd => 3
  | delegate => 3

/-- The address space. A delegation's is the row's; a row without one panics. -/
def space (role : Role) (delegation : Option Space) : Option Space :=
  match role with
  | load => some .ram
  | ram => some .ram
  | delegate => delegation
  | _ => some .reg

def name : Role → String
  | rs1 => "Rs1"
  | rs2 => "Rs2"
  | load => "Load"
  | ram => "Ram"
  | rd => "Rd"
  | delegate => "Delegate"

end Role

/-- One query as a row holds it. -/
structure Query where
  addr : UInt32
  readTs : UInt64
  readValue : UInt32
  writeValue : UInt32
deriving DecidableEq

/-- What a row holds for a role it does not have. -/
def Query.absent : Query := ⟨0, 0, 0, 0⟩

/-- One executed cycle. -/
structure Row where
  cycle : UInt64
  pc : UInt32
  nextPc : UInt32
  /-- Bit `r` is set exactly when the cycle has a query in role `r`. -/
  present : UInt8
  queries : Fin 8 → Query

/-- The query in a role, if the cycle has one. -/
def Row.query (row : Row) (role : Role) : Option Query :=
  if row.present.toNat.testBit role.index then some (row.queries role.index) else none

/-- One role's four columns. -/
structure QueryColumns where
  addr : List UInt32
  readTs : List UInt64
  readValue : List UInt32
  writeValue : List UInt32
deriving DecidableEq

namespace QueryColumns

def empty : QueryColumns := ⟨[], [], [], []⟩

def length (columns : QueryColumns) (n : ℕ) : Bool :=
  columns.addr.length = n && columns.readTs.length = n && columns.readValue.length = n &&
    columns.writeValue.length = n

/-- Entry `i`. The columns have one length by then. -/
def query (columns : QueryColumns) (i : ℕ) : Query :=
  ⟨columns.addr.getD i 0, columns.readTs.getD i 0, columns.readValue.getD i 0,
    columns.writeValue.getD i 0⟩

/-- Some entries of each column. -/
def cut (columns : QueryColumns) (start len : ℕ) : QueryColumns :=
  ⟨(columns.addr.drop start).take len, (columns.readTs.drop start).take len,
    (columns.readValue.drop start).take len, (columns.writeValue.drop start).take len⟩

end QueryColumns

/-- One family's rows, column-major. -/
structure FamilyTrace where
  family : UInt32
  height : UInt32
  cycle : List UInt64
  pc : List UInt32
  nextPc : List UInt32
  present : List UInt8
  queries : Fin 8 → QueryColumns
deriving DecidableEq

namespace FamilyTrace

def new (family height : UInt32) : FamilyTrace :=
  ⟨family, height, [], [], [], [], fun _ => .empty⟩

def length (t : FamilyTrace) : ℕ := t.cycle.length

/-- Row `i`, gathered out of the columns. -/
def row (t : FamilyTrace) (i : ℕ) : Row :=
  ⟨t.cycle.getD i 0, t.pc.getD i 0, t.nextPc.getD i 0, t.present.getD i 0,
    fun role => (t.queries role).query i⟩

def rows (t : FamilyTrace) : List Row := (List.range t.length).map t.row

/-- Some rows of a buffer. -/
def cut (t : FamilyTrace) (start len : ℕ) : FamilyTrace where
  family := t.family
  height := t.height
  cycle := (t.cycle.drop start).take len
  pc := (t.pc.drop start).take len
  nextPc := (t.nextPc.drop start).take len
  present := (t.present.drop start).take len
  queries role := (t.queries role).cut start len

end FamilyTrace

/-- A shard's window into so many rows: where it starts and how many it shows. -/
def window (index height rows : ℕ) : ℕ × ℕ :=
  let start := min (index * height) rows
  (start, min (start + height) rows - start)

/-- Shard `index`'s rows, as the buffer its window shows. -/
def RowSlice.shard (t : FamilyTrace) (index height : ℕ) : FamilyTrace :=
  t.cut (window index height t.length).1 (window index height t.length).2

/-- One access's columns over a family's invocations. -/
structure AccessColumns where
  live : List Bool
  addr : List UInt32
  readTs : List UInt64
  read : List Fr
  write : List Fr
deriving DecidableEq

def AccessColumns.empty : AccessColumns := ⟨[], [], [], [], []⟩

/-- Some entries of each column. -/
def AccessColumns.cut (columns : AccessColumns) (start len : ℕ) : AccessColumns :=
  ⟨(columns.live.drop start).take len, (columns.addr.drop start).take len,
    (columns.readTs.drop start).take len, (columns.read.drop start).take len,
    (columns.write.drop start).take len⟩

/-- One delegation family's rows: one per invocation. -/
structure DelegationTrace where
  family : UInt32
  height : UInt32
  /-- The requesting cycle. -/
  cycle : List UInt64
  base : List UInt32
  /-- The frame's word queries, in frame order. -/
  words : List QueryColumns
  /-- What a row makes besides its frame: nothing for a base family. -/
  accesses : List AccessColumns
deriving DecidableEq

/-- How many accesses a family's row makes besides its frame. -/
def delegationAccesses (family : ℕ) : ℕ :=
  if family = Family.frOp then 3
  else if family = Family.p2Field then 8
  else if family = Family.fieldIo then 9
  else if family = Family.fqOp then 13
  else 0

/-- A family's memory frame in words, if it is a delegation family. -/
def delegationFrameWords (family : ℕ) : Option ℕ :=
  (Delegation.types.find? fun type => type.1 == family).map fun type => type.2.2.2

/-- A family's anchor address space, if it is a delegation family. -/
def delegationSpace (family : ℕ) : Option Space :=
  (Delegation.types.find? fun type => type.1 == family).bind fun type => Space.fromTag type.2.2.1

namespace DelegationTrace

/-- An empty buffer, with the frame's words and the family's own accesses. -/
def new (family height : UInt32) (width : ℕ) : DelegationTrace :=
  ⟨family, height, [], [], List.replicate width .empty,
    List.replicate (delegationAccesses family.toNat) .empty⟩

def length (t : DelegationTrace) : ℕ := t.cycle.length

/-- Some invocations of a buffer. -/
def cut (t : DelegationTrace) (start len : ℕ) : DelegationTrace where
  family := t.family
  height := t.height
  cycle := (t.cycle.drop start).take len
  base := (t.base.drop start).take len
  words := t.words.map fun columns => columns.cut start len
  accesses := t.accesses.map fun columns => columns.cut start len

end DelegationTrace

/-- Shard `index`'s invocations, as the buffer its window shows. -/
def FrameSlice.shard (t : DelegationTrace) (index height : ℕ) : DelegationTrace :=
  t.cut (window index height t.length).1 (window index height t.length).2

/-- Every family's buffer. -/
structure FamilyTraces where
  families : List FamilyTrace
  delegations : List DelegationTrace
deriving DecidableEq

namespace FamilyTraces

/-- Every buffer's row count, ascending by family. -/
def rowCounts (traces : FamilyTraces) : List (UInt32 × UInt64) :=
  (traces.families.map (fun t => (t.family, UInt64.ofNat t.length)) ++
    traces.delegations.map fun t => (t.family, UInt64.ofNat t.length)).mergeSort
      fun first second => first.1 ≤ second.1

def family (traces : FamilyTraces) (family : ℕ) : Option FamilyTrace :=
  traces.families.find? fun t => t.family.toNat == family

def delegation (traces : FamilyTraces) (family : ℕ) : Option DelegationTrace :=
  traces.delegations.find? fun t => t.family.toNat == family

end FamilyTraces

/-- How many rows each family filled. -/
structure CycleProfile where
  counts : List (UInt32 × UInt64)
deriving DecidableEq

end Trace

end Apogee
