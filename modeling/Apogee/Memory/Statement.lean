import Apogee.Math.Walk
import Apogee.Soundness.Family

/-! # Memory queries

A query reads the tuple one write left at an address and leaves its own there. The
frame's gap obligations put every write after the write it reads; a read-only
query writes back what it read.
-/

namespace Apogee.Memory

open Frame

/-- What one write left at an address: its timestamp and its value. -/
structure Tuple where
  space : ℕ
  addr : Fr
  ts : ℕ
  value : Fr
deriving DecidableEq

/-- Where a tuple lies. -/
def Tuple.address (tuple : Tuple) : ℕ × Fr := (tuple.space, tuple.addr)

/-- The address spaces of the delegation anchors. -/
def delegationSpaces : List ℕ := Delegation.types.map fun type => type.2.2.1

/-- Whether a query takes a memory event in a space at an in-cycle slot. -/
def frameQueryTakes (query space delta : ℕ) : Bool :=
  frameDelta.getD query 0 = delta &&
    if query = deleg then space ∈ delegationSpaces else frameSpace.getD query 0 = space

/-- A present query of a live row, by its place in the query table. -/
structure Query where
  query : ℕ
  space : ℕ
  addr : Fr
  cycle : ℕ
  readTs : ℕ
  readValue : Fr
  writeValue : Fr
  known : query < frameQueryCount
  takes : frameQueryTakes query space (frameDelta.getD query 0) = true
  /-- The gap obligations over the integers. -/
  advances : readTs + frameMinAdvance.getD query 0 ≤
    Clock.tsStep * cycle + frameDelta.getD query 0
  writesBack : query ∈ frameReadOnly → writeValue = readValue

namespace Query

variable (query : Query)

def writeTs : ℕ := Clock.tsStep * query.cycle + frameDelta.getD query.query 0

/-- The tuple a query reads. -/
def read : Tuple := ⟨query.space, query.addr, query.readTs, query.readValue⟩

/-- The tuple a query leaves. -/
def write : Tuple := ⟨query.space, query.addr, query.writeTs, query.writeValue⟩

def address : ℕ × Fr := (query.space, query.addr)

@[simp]
theorem write_address : query.write.address = query.address := rfl

/-- Every query advances the clock. -/
theorem readTs_lt : query.read.ts < query.write.ts := by
  have advances := query.advances
  have least : 1 ≤ frameMinAdvance.getD query.query 0 :=
    (by decide : ∀ q < frameQueryCount, 1 ≤ frameMinAdvance.getD q 0) query.query query.known
  show query.readTs < Clock.tsStep * query.cycle + frameDelta.getD query.query 0
  omega

/-- Only the pc's query is in the pc's space. -/
theorem space_eq_pc : query.space = AddressSpace.pc ↔ query.query = Frame.pc := by
  have takes := query.takes
  simp only [frameQueryTakes, decide_true, Bool.true_and] at takes
  constructor
  · intro inPc
    rw [inPc] at takes
    exact (by decide : ∀ q < frameQueryCount,
      (if q = deleg then decide (AddressSpace.pc ∈ delegationSpaces)
        else decide (frameSpace.getD q 0 = AddressSpace.pc)) = true → q = Frame.pc)
      query.query query.known takes
  · intro isPc
    rw [isPc] at takes
    exact (of_decide_eq_true takes).symm

end Query

end Apogee.Memory

/-! ## A statement's memory is consistent

A statement's live rows, its windows and its boundary. Where the tuples read and
the finals are the tuples written and the initial ones, every address's queries
are one walk through time from its initial tuple to its final one, and the live
rows are one walk of the pc from the entry to the exit.
-/

namespace Apogee.Memory

open Frame

/-- A live row's queries; `exits` marks the exit ecall. -/
structure LiveRow where
  pc : Query
  others : List Query
  exits : Bool
  isPc : pc.query = Frame.pc
  noPc : ∀ query ∈ others, query.query ≠ Frame.pc
  oneCycle : ∀ query ∈ others, query.cycle = pc.cycle

def LiveRow.queries (row : LiveRow) : List Query := row.pc :: row.others

/-- A window's row: one address's initial value and what it is left with. -/
structure WindowRow where
  space : ℕ
  addr : Fr
  initValue : Fr
  teardownTs : ℕ
  teardownValue : Fr

namespace WindowRow

def init (row : WindowRow) : Tuple := ⟨row.space, row.addr, 0, row.initValue⟩

def teardown (row : WindowRow) : Tuple :=
  ⟨row.space, row.addr, row.teardownTs, row.teardownValue⟩

end WindowRow

/-- The register and pc finals a proof carries. -/
structure BoundaryFinals where
  regTs : Fin 32 → ℕ
  pcTs : ℕ
  regValues : Fin 31 → ℕ

/-- A register's final value: `x0`'s is the constant 0. -/
def BoundaryFinals.value (finals : BoundaryFinals) (r : Fin 32) : ℕ :=
  if nonzero : r = 0 then 0 else finals.regValues (r.pred nonzero)

/-- The pc's initial tuple. -/
def pcInit (entryPc : ℕ) : Tuple := ⟨AddressSpace.pc, 0, 0, entryPc⟩

/-- The pc's final tuple. -/
def pcFinal (finals : BoundaryFinals) : Tuple :=
  ⟨AddressSpace.pc, 0, finals.pcTs, (Clock.haltPc : ℕ)⟩

def regInit (r : Fin 32) : Tuple := ⟨AddressSpace.reg, (r : ℕ), 0, 0⟩

def regFinal (finals : BoundaryFinals) (r : Fin 32) : Tuple :=
  ⟨AddressSpace.reg, (r : ℕ), finals.regTs r, finals.value r⟩

/-- The boundary's write tuples, in the source's order. -/
def boundaryInits (entryPc : ℕ) : List Tuple :=
  pcInit entryPc :: (List.finRange 32).map regInit

/-- The boundary's read tuples, in the source's order. -/
def boundaryFinals (finals : BoundaryFinals) : List Tuple :=
  pcFinal finals :: (List.finRange 32).map (regFinal finals)

/-- A statement: its execution shards' live rows, its window rows and its boundary.
No address of a window has two rows. -/
structure Statement where
  shards : List (List LiveRow)
  windows : List WindowRow
  entryPc : ℕ
  finals : BoundaryFinals
  outside : ∀ row ∈ windows, row.space ≠ AddressSpace.pc ∧ row.space ≠ AddressSpace.reg
  distinct : (windows.map fun row => row.init.address).Nodup

namespace Statement

variable (statement : Statement)

def rows : List LiveRow := statement.shards.flatten

def queries : List Query := statement.rows.flatMap LiveRow.queries

def inits : List Tuple := boundaryInits statement.entryPc ++ statement.windows.map WindowRow.init

def finalTuples : List Tuple :=
  boundaryFinals statement.finals ++ statement.windows.map WindowRow.teardown

/-- The tuples read and the finals are the tuples written and the initial ones. -/
def Balanced : Prop :=
  (↑(statement.queries.map Query.read ++ statement.finalTuples) : Multiset Tuple) =
    ↑(statement.queries.map Query.write ++ statement.inits)

/-- A query reads what the write just before it at its address left, or the
address's initial tuple if no write is before it. -/
def Current (query : Query) : Prop :=
  (query.read ∈ statement.inits ∧ ∀ other ∈ statement.queries, other.address = query.address →
      query.writeTs ≤ other.writeTs) ∨
    ∃ previous ∈ statement.queries, query.read = previous.write ∧
      previous.writeTs < query.writeTs ∧
      ∀ other ∈ statement.queries, other.address = query.address →
        other.writeTs < query.writeTs → other.writeTs ≤ previous.writeTs

/-- A tuple is what the last write at its address left, or the address's initial
tuple if there is no write. -/
def Last (tuple : Tuple) : Prop :=
  (tuple ∈ statement.inits ∧ ∀ other ∈ statement.queries, other.address ≠ tuple.address) ∨
    ∃ last ∈ statement.queries, tuple = last.write ∧
      ∀ other ∈ statement.queries, other.address = tuple.address → other.writeTs ≤ last.writeTs

/-- The live rows in an order in which each reads the pc the one before it wrote,
from the entry to the halting sentinel. -/
def PcPath (path : List LiveRow) : Prop :=
  path.Perm statement.rows ∧
    Math.Walk (fun row => row.pc.read) (fun row => row.pc.write) (pcInit statement.entryPc) path
      (pcFinal statement.finals)

end Statement

/-- The registers' initial tuples are at distinct addresses. -/
private theorem regInit_inj {r s : Fin 32} (same : (regInit r).address = (regInit s).address) :
    r = s := by
  have addrEq : ((r : ℕ) : Fr) = ((s : ℕ) : Fr) := congrArg Prod.snd same
  exact Fin.ext (fr_natCast_inj (by omega) (by omega) addrEq)

/-- No address has two initial tuples. -/
theorem Statement.inits_distinct (statement : Statement) :
    (statement.inits.map Tuple.address).Nodup := by
  rw [inits, List.map_append, List.nodup_append']
  refine ⟨?_, ?_, ?_⟩
  · rw [boundaryInits, List.map_cons, List.nodup_cons, List.map_map]
    constructor
    · intro member
      obtain ⟨r, -, same⟩ := List.mem_map.mp member
      exact absurd (show AddressSpace.reg = AddressSpace.pc from congrArg Prod.fst same) (by decide)
    · exact (List.nodup_finRange 32).map fun r s same => regInit_inj same
  · rw [List.map_map]
    exact statement.distinct
  · rw [List.disjoint_left]
    intro address boundary window
    obtain ⟨tuple, tupleMember, rfl⟩ := List.mem_map.mp boundary
    rw [List.map_map] at window
    obtain ⟨row, rowMember, same⟩ := List.mem_map.mp window
    have outside := statement.outside row rowMember
    have spaceEq : row.space = tuple.space := congrArg Prod.fst same
    rw [spaceEq] at outside
    rcases List.mem_cons.mp tupleMember with rfl | register
    · exact outside.1 rfl
    · obtain ⟨r, -, rfl⟩ := List.mem_map.mp register
      exact outside.2 rfl

namespace Statement

variable {statement : Statement}

/-- The balance in the form of edges between tuples. -/
private theorem balanced_edges (balanced : statement.Balanced) :
    (↑statement.queries : Multiset Query).map Query.read + ↑statement.finalTuples =
      (↑statement.queries : Multiset Query).map Query.write + ↑statement.inits := by
  rw [Multiset.map_coe, Multiset.map_coe, Multiset.coe_add, Multiset.coe_add]
  exact balanced

/-- Every query's address has an initial tuple. -/
theorem exists_init (balanced : statement.Balanced) {query : Query}
    (member : query ∈ statement.queries) :
    ∃ init ∈ statement.inits, init.address = query.address :=
  Math.exists_start Query.read Query.write Tuple.ts Tuple.address
    (fun query _ => query.readTs_lt) (fun _ _ => rfl) (balanced_edges balanced) query member

/-- One address's queries are a walk from its initial tuple to its final one. -/
theorem exists_address_walk (balanced : statement.Balanced) {init : Tuple}
    (listed : init ∈ statement.inits) :
    ∃ (path : List Query) (final : Tuple),
      (∀ query, query ∈ path ↔ query ∈ statement.queries ∧ query.address = init.address) ∧
        (∀ tuple ∈ statement.finalTuples, tuple.address = init.address → tuple = final) ∧
          Math.Walk Query.read Query.write init path final := by
  obtain ⟨path, final, isFilter, only, walk⟩ := Math.exists_keyed_walk
    Query.read Query.write Tuple.ts Tuple.address (fun query _ => query.readTs_lt) (fun _ _ => rfl)
    (balanced_edges balanced) (by
      rw [Multiset.map_coe]
      exact Multiset.coe_nodup.mpr statement.inits_distinct) (Multiset.mem_coe.mpr listed)
  refine ⟨path, final, fun query => ?_, fun tuple member same => ?_, walk⟩
  · rw [← Multiset.mem_coe, isFilter, Multiset.mem_filter, Multiset.mem_coe, Query.write_address]
  · have inside : tuple ∈ (↑statement.finalTuples : Multiset Tuple).filter
        (Tuple.address · = init.address) :=
      Multiset.mem_filter.mpr ⟨Multiset.mem_coe.mpr member, same⟩
    rw [only] at inside
    exact Multiset.mem_singleton.mp inside

/-- Every query reads what is current at its address. -/
theorem current_of_balanced (balanced : statement.Balanced) {query : Query}
    (member : query ∈ statement.queries) : statement.Current query := by
  obtain ⟨init, listed, sameAddress⟩ := exists_init balanced member
  obtain ⟨path, final, onPath, -, walk⟩ := exists_address_walk balanced listed
  have inside : query ∈ path := (onPath query).mpr ⟨member, sameAddress.symm⟩
  have here {other : Query} (listed : other ∈ statement.queries)
      (same : other.address = query.address) : other ∈ path :=
    (onPath other).mpr ⟨listed, same.trans sameAddress.symm⟩
  rcases walk.src_eq Tuple.ts (fun edge _ => edge.readTs_lt) inside with
    ⟨isInit, first⟩ | ⟨previous, before, isPrevious, earlier, latest⟩
  · refine Or.inl ⟨?_, fun other listed same => first other (here listed same)⟩
    rw [isInit]
    exact listed
  · exact Or.inr ⟨previous, ((onPath previous).mp before).1, isPrevious, earlier,
      fun other listed same => latest other (here listed same)⟩

/-- Every final tuple is its address's last write. -/
theorem last_of_balanced (balanced : statement.Balanced) {tuple : Tuple}
    (member : tuple ∈ statement.finalTuples) : statement.Last tuple := by
  obtain ⟨init, listed, sameAddress⟩ := Math.exists_start_of_finish Query.read Query.write
    Tuple.address (fun _ _ => rfl) (balanced_edges balanced) tuple (Multiset.mem_coe.mpr member)
  obtain ⟨path, final, onPath, only, walk⟩ :=
    exists_address_walk balanced (Multiset.mem_coe.mp listed)
  obtain rfl := only tuple member sameAddress.symm
  have here {other : Query} (listed : other ∈ statement.queries)
      (same : other.address = tuple.address) : other ∈ path :=
    (onPath other).mpr ⟨listed, same.trans sameAddress.symm⟩
  rcases walk.le_finish Tuple.ts (fun edge _ => edge.readTs_lt) with
    ⟨empty, isInit⟩ | ⟨last, inside, arrives, highest⟩
  · refine Or.inl ⟨isInit ▸ Multiset.mem_coe.mp listed, fun other listed same => ?_⟩
    have inside := here listed same
    rw [empty] at inside
    exact List.not_mem_nil inside
  · exact Or.inr ⟨last, ((onPath last).mp inside).1, arrives.symm,
      fun other listed same => highest other (here listed same)⟩

/-- An address whose every query writes back what it read, or the initial value, has its
initial value always. -/
theorem constant_of_unwritten (balanced : statement.Balanced) {init : Tuple}
    (listed : init ∈ statement.inits)
    (unwritten : ∀ query ∈ statement.queries, query.address = init.address →
      query.writeValue = query.readValue ∨ query.writeValue = init.value) :
    (∀ query ∈ statement.queries, query.address = init.address →
        query.readValue = init.value ∧ query.writeValue = init.value) ∧
      ∀ tuple ∈ statement.finalTuples, tuple.address = init.address → tuple.value = init.value := by
  obtain ⟨path, final, onPath, only, walk⟩ := exists_address_walk balanced listed
  obtain ⟨inside, last⟩ := walk.preserves (P := fun tuple => tuple.value = init.value) rfl
    fun query member reads => by
      obtain ⟨listed, same⟩ := (onPath query).mp member
      exact (unwritten query listed same).elim (fun back => back.trans reads) id
  refine ⟨fun query listed same => inside query ((onPath query).mpr ⟨listed, same⟩), ?_⟩
  intro tuple member same
  rw [only tuple member same]
  exact last

/-- No two queries write an address at one timestamp. -/
theorem writes_nodup (balanced : statement.Balanced) :
    (statement.queries.map fun query => (query.address, query.writeTs)).Nodup := by
  have distinct := Math.arrivals_nodup Query.read Query.write Tuple.ts Tuple.address
    (fun query _ => query.readTs_lt) (fun _ _ => rfl) (balanced_edges balanced) (by
      rw [Multiset.map_coe]
      exact Multiset.coe_nodup.mpr statement.inits_distinct)
  rw [Multiset.map_coe] at distinct
  exact Multiset.coe_nodup.mp distinct

/-- The queries at the pc's address are the live rows' pc queries. -/
private theorem pc_queries (balanced : statement.Balanced) :
    (statement.queries.filter fun query => query.write.address = (pcInit statement.entryPc).address) =
      statement.rows.map LiveRow.pc := by
  have isPc : ∀ query ∈ statement.queries,
      decide (query.write.address = (pcInit statement.entryPc).address) =
        decide (query.query = Frame.pc) := by
    intro query member
    refine decide_eq_decide.mpr ⟨fun same => query.space_eq_pc.mp (congrArg Prod.fst same), ?_⟩
    intro isPc
    obtain ⟨init, listed, same⟩ := exists_init balanced member
    have inPc : init.space = AddressSpace.pc :=
      (congrArg Prod.fst same).trans (query.space_eq_pc.mpr isPc)
    suffices init = pcInit statement.entryPc by rw [← this, same, Query.write_address]
    rcases List.mem_append.mp listed with boundary | window
    · rcases List.mem_cons.mp boundary with first | register
      · exact first
      · obtain ⟨r, -, rfl⟩ := List.mem_map.mp register
        exact absurd (show AddressSpace.reg = AddressSpace.pc from inPc) (by decide)
    · obtain ⟨row, rowMember, rfl⟩ := List.mem_map.mp window
      exact absurd inPc (statement.outside row rowMember).1
  rw [List.filter_congr isPc, queries]
  induction statement.rows with
  | nil => rfl
  | cons row rows ih =>
    have others : row.others.filter (fun query => decide (query.query = Frame.pc)) = [] :=
      List.filter_eq_nil_iff.mpr fun query member => by simpa using row.noPc query member
    rw [List.flatMap_cons, List.filter_append, ih, LiveRow.queries,
      List.filter_cons_of_pos (by simpa using row.isPc), others]
    rfl

/-- The live rows are one walk of the pc. -/
theorem exists_pcPath (balanced : statement.Balanced) : ∃ path, statement.PcPath path := by
  have distinct : ((↑statement.inits : Multiset Tuple).map Tuple.address).Nodup := by
    rw [Multiset.map_coe]
    exact Multiset.coe_nodup.mpr statement.inits_distinct
  have initOnly := Math.filter_start Tuple.address distinct
    (show pcInit statement.entryPc ∈ (↑statement.inits : Multiset Tuple) from List.mem_cons_self)
  have finalCard := (Math.card_finishes Query.read Query.write Tuple.address (fun _ _ => rfl)
    (balanced_edges balanced) (pcInit statement.entryPc).address).trans
    (congrArg Multiset.card initOnly)
  obtain ⟨final, finalOnly⟩ := Multiset.card_eq_one.mp finalCard
  obtain rfl : pcFinal statement.finals = final := by
    have inside : pcFinal statement.finals ∈ (↑statement.finalTuples : Multiset Tuple).filter
        (Tuple.address · = (pcInit statement.entryPc).address) :=
      Multiset.mem_filter.mpr ⟨List.mem_cons_self, rfl⟩
    rw [finalOnly] at inside
    exact Multiset.mem_singleton.mp inside
  have between := Math.balanced_filter Query.read Query.write Tuple.address (fun _ _ => rfl)
    (balanced_edges balanced) (pcInit statement.entryPc).address
  rw [initOnly, finalOnly, Multiset.filter_coe, pc_queries balanced, Multiset.map_coe,
    Multiset.map_coe, List.map_map, List.map_map] at between
  obtain ⟨path, isRows, walk⟩ := Math.exists_walk (Query.read ∘ LiveRow.pc)
    (Query.write ∘ LiveRow.pc) Tuple.ts (show ∀ row ∈ (↑statement.rows : Multiset LiveRow), _ from
    fun row _ => row.pc.readTs_lt) between
  exact ⟨path, Multiset.coe_eq_coe.mp isRows, walk⟩

/-- The pc's walk is the live rows ordered by their pc writes. -/
theorem PcPath.sorted {path : List LiveRow} (isPath : statement.PcPath path) :
    path.Pairwise fun left right => left.pc.writeTs < right.pc.writeTs :=
  isPath.2.sorted Tuple.ts fun row _ => row.pc.readTs_lt

theorem PcPath.unique {path other : List LiveRow} (isPath : statement.PcPath path)
    (isOther : statement.PcPath other) : other = path :=
  isPath.2.unique Tuple.ts (fun row _ => row.pc.readTs_lt) isOther.2 (isOther.1.trans isPath.1.symm)

/-- The live rows, by their pc writes, lead from the entry to the exit row: the one
row that writes the halting sentinel is the last. No row at all is the run of an
entry that is the sentinel itself. -/
structure ExitPath (statement : Statement) (path : List LiveRow) : Prop where
  isPath : statement.PcPath path
  only : ∀ other, statement.PcPath other → other = path
  sorted : path.Pairwise fun left right => left.pc.writeTs < right.pc.writeTs
  exits : ∀ last, path.getLast? = some last →
    last.exits = true ∧ last.pc.writeValue = (Clock.haltPc : ℕ)
  continues : ∀ row ∈ path.dropLast, row.pc.writeValue ≠ (Clock.haltPc : ℕ)
  empty : path = [] ↔ (statement.entryPc : Fr) = (Clock.haltPc : ℕ)

/-- A row that is not the path's last writes the pc a later row reads. -/
private theorem read_of_dropLast {path : List LiveRow} {start finish : Tuple}
    (walk : Math.Walk (fun row : LiveRow => row.pc.read) (fun row => row.pc.write) start path
      finish) {row : LiveRow} (member : row ∈ path.dropLast) :
    ∃ next ∈ path, next.pc.readValue = row.pc.writeValue := by
  obtain ⟨before, after, split⟩ := List.append_of_mem member
  have nonempty : path ≠ [] := by
    rintro rfl
    exact List.not_mem_nil member
  have whole : path = before ++ row :: (after ++ [path.getLast nonempty]) := by
    conv_lhs => rw [← List.dropLast_append_getLast nonempty, split]
    simp
  rw [whole] at walk
  cases tail : after ++ [path.getLast nonempty] with
  | nil => simp at tail
  | cons next rest =>
    have arrives := walk.split.2
    rw [tail] at arrives
    refine ⟨next, ?_, congrArg Tuple.value arrives.1⟩
    rw [whole, tail]
    simp

/-- The path of a statement whose exit row alone writes the sentinel, which no row
reads. -/
theorem PcPath.exitPath {path : List LiveRow} (isPath : statement.PcPath path)
    (onlyExits : ∀ row ∈ statement.rows,
      row.pc.writeValue = (Clock.haltPc : ℕ) → row.exits = true)
    (noneReads : ∀ row ∈ statement.rows, row.pc.readValue ≠ (Clock.haltPc : ℕ)) :
    statement.ExitPath path where
  isPath := isPath
  only := fun _ isOther => isPath.unique isOther
  sorted := isPath.sorted
  exits := by
    intro last isLast
    have halts : last.pc.writeValue = (Clock.haltPc : ℕ) :=
      congrArg Tuple.value (isPath.2.finish_eq isLast)
    exact ⟨onlyExits last (isPath.1.mem_iff.mp (List.mem_of_getLast? isLast)) halts, halts⟩
  continues := by
    intro row member
    obtain ⟨next, listed, readEq⟩ := read_of_dropLast isPath.2 member
    rw [← readEq]
    exact noneReads next (isPath.1.mem_iff.mp listed)
  empty := by
    constructor
    · rintro rfl
      exact congrArg Tuple.value isPath.2
    · intro halted
      cases path with
      | nil => rfl
      | cons first path =>
        have readEq : first.pc.readValue = statement.entryPc := congrArg Tuple.value isPath.2.1
        exact absurd (readEq.trans halted)
          (noneReads first (isPath.1.mem_iff.mp List.mem_cons_self))

end Statement

/-- **Consistency.** In a balanced statement every query is at an initialized address
and reads what is current there, no two queries write an address at one timestamp,
every final tuple is its address's last write, and the live rows are one path of
the pc from the entry to the exit row. -/
theorem statement_consistent (statement : Statement) (balanced : statement.Balanced)
    (onlyExits : ∀ row ∈ statement.rows,
      row.pc.writeValue = (Clock.haltPc : ℕ) → row.exits = true)
    (noneReads : ∀ row ∈ statement.rows, row.pc.readValue ≠ (Clock.haltPc : ℕ)) :
    (∀ query ∈ statement.queries, (∃ init ∈ statement.inits, init.address = query.address) ∧
        statement.Current query) ∧
      (statement.queries.map fun query => (query.address, query.writeTs)).Nodup ∧
      (∀ tuple ∈ statement.finalTuples, statement.Last tuple) ∧
      ∃ path, statement.ExitPath path := by
  obtain ⟨path, isPath⟩ := Statement.exists_pcPath balanced
  exact ⟨fun query member => ⟨Statement.exists_init balanced member,
      Statement.current_of_balanced balanced member⟩,
    Statement.writes_nodup balanced, fun tuple member => Statement.last_of_balanced balanced member,
    path, isPath.exitPath onlyExits noneReads⟩

/-- Two cycles: one writes 93 to `a7`, the next reads it and exits. -/
private def exitStatement : Statement where
  shards :=
    [[⟨⟨Frame.pc, AddressSpace.pc, 0, 2, 4, 65540, 1, by decide, by decide, by decide, by decide⟩,
        [⟨Frame.rs1, AddressSpace.reg, 17, 2, 7, 93, 93, by decide, by decide, by decide,
          fun _ => rfl⟩], true, rfl, by decide, by decide⟩],
      [⟨⟨Frame.pc, AddressSpace.pc, 0, 1, 0, 65536, 65540, by decide, by decide, by decide,
          by decide⟩,
        [⟨Frame.rd, AddressSpace.reg, 17, 1, 0, 0, 93, by decide, by decide, by decide,
          by decide⟩], false, rfl, by decide, by decide⟩]]
  windows := [⟨AddressSpace.ram, 65536, 7, 0, 7⟩]
  entryPc := 65536
  finals := ⟨fun r => if r = 17 then 9 else 0, 8, fun i => if i = 16 then 93 else 0⟩
  outside := by decide
  distinct := by decide

theorem statement_consistent_exitStatement :
    (∀ query ∈ exitStatement.queries,
        (∃ init ∈ exitStatement.inits, init.address = query.address) ∧
          exitStatement.Current query) ∧
      (exitStatement.queries.map fun query => (query.address, query.writeTs)).Nodup ∧
      (∀ tuple ∈ exitStatement.finalTuples, exitStatement.Last tuple) ∧
      ∃ path, exitStatement.ExitPath path :=
  statement_consistent exitStatement (Multiset.coe_eq_coe.mpr (by decide +kernel))
    (by decide +kernel) (by decide +kernel)

section RegisterZero

/-- The row an `rd` query stands on keeps the frame's x0 rule. -/
def Query.Masked (query : Query) : Prop :=
  query.query = rd → ∃ (challenges : ExternalChallenges) (row : Row) (at' width : ℕ),
    (∀ gate ∈ x0Gates at' width, gate.2.value challenges row = 0) ∧
      row (frame at' fieldMask) = 1 ∧ row (frame at' fieldAddr) = query.addr ∧
        row (frame at' fieldWriteValue) = query.writeValue

/-- A query at `x0` writes back what it read, or zero: a register's other queries are
read-only. -/
theorem Query.Masked.unwritten {query : Query} (masked : query.Masked)
    (atZero : query.address = (AddressSpace.reg, 0)) :
    query.writeValue = query.readValue ∨ query.writeValue = 0 := by
  obtain ⟨space, addr⟩ := Prod.mk.inj atZero
  have kind : query.query = rd ∨ query.query ∈ frameReadOnly := by
    have takes := query.takes
    simp only [frameQueryTakes, decide_true, Bool.true_and, space] at takes
    exact (by decide : ∀ q < frameQueryCount,
      (if q = deleg then decide (AddressSpace.reg ∈ delegationSpaces)
        else decide (frameSpace.getD q 0 = AddressSpace.reg)) = true → q = rd ∨ q ∈ frameReadOnly)
      query.query query.known takes
  rcases kind with isRd | readOnly
  · obtain ⟨challenges, row, at', width, gates, present, addrEq, written⟩ := masked isRd
    exact Or.inr (written.symm.trans (zero_of_x0Gates gates (addrEq.trans addr) present))
  · exact Or.inl (query.writesBack readOnly)

/-- Every query at `x0` reads and writes zero. -/
def Statement.X0Zero (statement : Statement) : Prop :=
  ∀ query ∈ statement.queries, query.address = (AddressSpace.reg, 0) →
    query.readValue = 0 ∧ query.writeValue = 0

/-- **`x0` is zero**, over any shards and rows in any order. -/
theorem Statement.x0_zero (statement : Statement) (balanced : statement.Balanced)
    (masked : ∀ query ∈ statement.queries, query.Masked) : statement.X0Zero := by
  have listed : regInit 0 ∈ statement.inits := List.mem_append_left _
    (List.mem_cons_of_mem _ (List.mem_map_of_mem (List.mem_finRange 0)))
  have here : (regInit 0).address = (AddressSpace.reg, 0) := by simp [regInit, Tuple.address]
  intro query member atZero
  exact (constant_of_unwritten balanced listed fun other listed same =>
    (masked other listed).unwritten (same.trans here)).1 query member (atZero.trans here.symm)

/-- One row: it selects 1 for `x0`, and exits. -/
def exitRow : Statement where
  shards := [[⟨⟨Frame.pc, AddressSpace.pc, 0, 1, 0, 65536, 1, by decide, by decide, by decide,
    by decide⟩, [⟨rd, AddressSpace.reg, 0, 1, 0, 0, 0, by decide, by decide, by decide,
      by decide⟩], true, rfl, by decide, by decide⟩]]
  windows := []
  entryPc := 65536
  finals := ⟨fun r => if r = 0 then 7 else 0, 4, fun _ => 0⟩
  outside := by decide
  distinct := by decide

theorem x0_zero_exitRow : exitRow.X0Zero := by
  refine exitRow.x0_zero (Multiset.coe_eq_coe.mpr (by decide +kernel)) fun query member isRd => ?_
  have masked : ∀ query ∈ exitRow.queries, query.query = rd →
      query.addr = 0 ∧ query.writeValue = 0 := by decide +kernel
  obtain ⟨addr, written⟩ := masked query member isRd
  rw [addr, written]
  exact ⟨.empty, fun column => if column ∈ [frame 0 fieldMask, rdIsZero 1, rdSelected 1]
    then 1 else 0, 0, 1, by decide +kernel⟩

end RegisterZero

end Apogee.Memory
