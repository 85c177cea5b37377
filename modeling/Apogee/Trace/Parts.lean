import Apogee.Trace.Buffers

/-! # The parts of one run

The one rule the archive's constructor and its reader share: every buffer is well
formed, the profile counts the buffers row for row, the cycles are exactly one to
their count, and the log is the one the rows rebuild, event for event.
-/

namespace Apogee.Trace

/-- A number as `{:#x}` shows it. -/
def hex (n : ℕ) : String := "0x" ++ String.ofList (Nat.toDigits 16 n)

/-- Refuse unless a rule holds. -/
def ensure (rule : Bool) (refusal : String) : Except String Unit :=
  if rule then .ok () else .error refusal

/-- Every entry keeps a rule; the first that does not is refused. -/
def checkAll {α : Type} (check : α → Except String Unit) : List α → Except String Unit
  | [] => .ok ()
  | first :: others => do
    check first
    checkAll check others

/-- The ids of a list of buffers ascend. -/
def ascends (families : List UInt32) : ℕ → Bool
  | 0 => true
  | i + 1 => families.getD i 0 < families.getD (i + 1) 0

/-- One family row: no role past the sixth, and nothing in a role it does not have. -/
def checkRow (t : FamilyTrace) (r : ℕ) : Except String Unit := do
  let row := t.row r
  let family := t.family.toNat
  ensure (row.present.toNat < 2 ^ Role.roles.length)
    s!"family {family} row {r}'s present mask names a role that does not exist"
  checkAll (fun role : Role => ensure
    ((row.query role).isSome || row.queries role.index == Query.absent)
    s!"family {family} row {r} holds a {role.name} query its present mask does not name") Role.roles

def checkFamily (families : List FamilyTrace) (i : ℕ) (t : FamilyTrace) : Except String Unit := do
  let n := t.length
  let family := t.family.toNat
  let height := t.height.toNat
  let name := Family.name family
  ensure (family < Family.count) s!"family {family} is not in constants::family"
  ensure (Family.cycleOwning family || n = 0)
    s!"{name} claims no pc, yet its buffer holds {n} rows"
  ensure (t.pc.length = n && t.nextPc.length = n && t.present.length = n &&
      (List.finRange 8).all fun role => (t.queries role).length n)
    s!"family {family}'s columns differ in length"
  ensure (Family.heightMenu.contains height)
    s!"family {family}'s height {height} is not on the menu"
  ensure (ascends (families.map FamilyTrace.family) i)
    "the family buffers are not in ascending family order"
  checkAll (checkRow t) (List.range n)

/-- One invocation: frame word `j` is at byte offset `4j`. -/
def checkInvocation (t : DelegationTrace) (r : ℕ) : Except String Unit :=
  checkAll (fun entry : QueryColumns × ℕ =>
    let at' := (entry.1.addr.getD r 0).toNat
    let want := (t.base.getD r 0).toNat + 4 * entry.2
    let name := Family.name t.family.toNat
    let word := entry.2
    let found := hex at'
    let expected := hex want
    ensure (at' = want) s!"{name} invocation {r}: frame word {word} is at {found}, not {expected}")
    t.words.zipIdx

def checkDelegation (delegations : List DelegationTrace) (i : ℕ) (t : DelegationTrace) :
    Except String Unit := do
  let n := t.length
  let family := t.family.toNat
  let height := t.height.toNat
  let name := Family.name family
  let held := t.words.length
  let width ← match delegationFrameWords family with
    | some width => .ok width
    | none => .error s!"family {family} has a delegation buffer but is not a delegation family"
  ensure (Family.heightMenu.contains height)
    s!"family {family}'s height {height} is not on the menu"
  ensure (ascends (delegations.map DelegationTrace.family) i)
    "the delegation buffers are not in ascending family order"
  ensure (held = width) s!"{name}'s frame is {width} words, and its buffer holds {held}"
  ensure (t.base.length = n && t.words.all fun columns => columns.length n)
    s!"family {family}'s columns differ in length"
  checkAll (checkInvocation t) (List.range n)

/-- An invocation and its cycle. -/
structure Invocation where
  cycle : UInt64
  trace : DelegationTrace
  index : ℕ

/-- Every invocation, ascending by cycle. -/
def invocations (traces : FamilyTraces) : List Invocation :=
  (traces.delegations.flatMap fun t =>
    (List.range t.length).map fun r => ⟨t.cycle.getD r 0, t, r⟩).mergeSort
      fun first second => first.cycle ≤ second.cycle

/-- Every row of every family, ascending by cycle. -/
def cycleRows (traces : FamilyTraces) : List Row :=
  (traces.families.flatMap FamilyTrace.rows).mergeSort
    fun first second => first.cycle ≤ second.cycle

/-- The profile counts exactly the buffers' families, in order, row for row. -/
def consistent (traces : FamilyTraces) (profile : CycleProfile) : Except String Unit :=
  let counts := profile.counts.map fun entry => (entry.1.toNat, entry.2.toNat)
  let shown := toString counts
  ensure (traces.rowCounts == profile.counts)
    s!"the cycle profile {shown} does not count the family buffers"

/-- An event is at an address its space has, on the clock, and reads before it writes. -/
def checkEvent (e : MemoryEvent) : Except String Unit := do
  let space := e.space.name
  let addr := hex e.addr.toNat
  let ts := e.ts.toNat
  let readTs := e.readTs.toNat
  ensure (e.space.holds e.addr) s!"an event names {space} address {addr}"
  ensure (ts < 2 ^ Clock.tsBits && readTs < ts)
    s!"an event at ts {ts} reading ts {readTs} is off the clock or reads no earlier than it writes"

/-- The pc query of a row. -/
def pcEvent (row : Row) : MemoryEvent :=
  ⟨.pc, 0, 4 * row.cycle, 4 * row.cycle - 4, row.pc, row.nextPc⟩

/-- An invocation's frame accesses, at the frame's slot of the requesting cycle. -/
def frameEvents (row : Row) (invocation : Invocation) : List MemoryEvent :=
  invocation.trace.words.map fun columns =>
    let q := columns.query invocation.index
    ⟨.ram, q.addr, 4 * row.cycle + UInt64.ofNat Delegation.frameDelta, q.readTs, q.readValue, q.writeValue⟩

/-- A row's present roles, in order. -/
def roleEvents (row : Row) (delegation : Option Space) : List MemoryEvent :=
  Role.roles.filterMap fun role => do
    let q ← row.query role
    let space ← role.space delegation
    some ⟨space, q.addr, 4 * row.cycle + role.delta, q.readTs, q.readValue, q.writeValue⟩

/-- The log is the one the rows rebuild. Invocations left behind ride no row. -/
def matchLog (events : List MemoryEvent) : List Row → List Invocation → ℕ → Except String Unit
  | [], _, next =>
    let left := events.length - next
    ensure (next = events.length) s!"the log has {left} events no row accounts for"
  | row :: rows, pending, next => do
    let cycle := row.cycle.toNat
    let (riding, pending) := match pending with
      | invocation :: others =>
        if invocation.cycle = row.cycle then (some invocation, others)
        else (none, invocation :: others)
      | [] => (none, [])
    let frame := match riding with
      | some invocation => frameEvents row invocation
      | none => []
    let delegation := riding.bind fun invocation => delegationSpace invocation.trace.family.toNat
    ensure (delegation.isSome || (row.query .delegate).isNone)
      s!"cycle {cycle} claims a delegation request and no invocation rides it"
    let wanted := pcEvent row :: frame ++ roleEvents row delegation
    let agreed := ((events.drop next).zip wanted).findIdx fun pair => pair.1 != pair.2
    let stop := next + agreed
    ensure ((events.drop next).take wanted.length == wanted)
      s!"the log disagrees with the row of cycle {cycle} at event {stop}"
    matchLog events rows pending (next + wanted.length)

/-- The parts of a post-execution snapshot agree. -/
def checkParts (traces : FamilyTraces) (events : List MemoryEvent) (profile : CycleProfile) :
    Except String Unit := do
  checkAll (fun entry : FamilyTrace × ℕ => checkFamily traces.families entry.2 entry.1)
    traces.families.zipIdx
  checkAll (fun entry : DelegationTrace × ℕ => checkDelegation traces.delegations entry.2 entry.1)
    traces.delegations.zipIdx
  let called := invocations traces
  ensure (called.Pairwise fun first second => first.cycle ≠ second.cycle)
    "two delegation invocations claim one cycle"
  consistent traces profile
  let rows := cycleRows traces
  ensure (rows.zipIdx.all fun entry => entry.1.cycle.toNat = entry.2 + 1)
    "the rows' cycles are not 1 to their count, each once"
  ensure (match called.getLast? with
    | some last => last.cycle.toNat ≤ rows.length
    | none => true) "a delegation invocation claims a cycle the execution never ran"
  checkAll checkEvent events
  matchLog events rows called 0

theorem ensure_ok {rule : Bool} {refusal : String} :
    ensure rule refusal = .ok () ↔ rule = true := by
  cases rule with
  | false => exact iff_of_false (fun wrong => nomatch wrong) fun wrong => nomatch wrong
  | true => exact iff_of_true rfl rfl

theorem andThen_ok {α : Type} {first : Except String Unit} {rest : Except String α} {value : α} :
    (first >>= fun _ => rest) = .ok value ↔ first = .ok () ∧ rest = .ok value := by
  cases first with
  | error e => exact iff_of_false (fun wrong => nomatch wrong) fun wrong => nomatch wrong.1
  | ok _ => exact ⟨fun same => ⟨rfl, same⟩, fun both => both.2⟩

theorem checkAll_ok {α : Type} {check : α → Except String Unit} {entries : List α} :
    checkAll check entries = .ok () ↔ ∀ entry ∈ entries, check entry = .ok () := by
  induction entries with
  | nil => exact iff_of_true rfl fun _ member => absurd member List.not_mem_nil
  | cons first others ih => rw [checkAll, andThen_ok, ih, List.forall_mem_cons]

/-- An accepted snapshot's events are at addresses their spaces have, on the clock. -/
theorem events_of_checkParts {traces : FamilyTraces} {events : List MemoryEvent}
    {profile : CycleProfile} (accepted : checkParts traces events profile = .ok ()) :
    ∀ e ∈ events, e.space.holds e.addr = true ∧ e.ts.toNat < 2 ^ Clock.tsBits := by
  unfold checkParts at accepted
  simp only [andThen_ok, checkAll_ok] at accepted
  obtain ⟨-, -, -, -, -, -, checked, -⟩ := accepted
  intro e member
  have passed := checked e member
  unfold checkEvent at passed
  simp only [andThen_ok, ensure_ok, Bool.and_eq_true, decide_eq_true_eq] at passed
  exact ⟨passed.1, passed.2.1⟩

end Apogee.Trace
