import Apogee.Circuit.Validated
import Apogee.Gkr.Virtual
import Apogee.Verifier.Config

/-! # The window rules

Every word of memory takes its initial value from one row of one window. The
window families have three height rules and their ids are a constant, a list or a
count; under the rules a statement is held to, the region a word lies in names
the one family that may initialize it.
-/

namespace Apogee

open Math (bind_ok)

/-- The first advice window at a window height. -/
def adviceFirstWindow (height : ℕ) : ℕ := GuestMemory.adviceOrigin / (4 * height) % 2 ^ 32

/-- How many shards a family has. The source panics on one the config lacks. -/
def VmConfig.count (config : VmConfig) (counts : List ℕ) (family : ℕ) : ℕ :=
  counts.getD (config.families.findIdx fun entry => entry.1 == family) 0

/-- The field windows lie within the cells. -/
def checkFieldWindows (config : VmConfig) (counts : List ℕ) : Except String Unit :=
  match config.height Family.fieldWindows with
  | some height =>
    if 2 ^ 32 < config.count counts Family.fieldWindows * height then
      .error "the field windows do not fit the 2^32 cells"
    else .ok ()
  | none => .ok ()

/-- The rules on the counts and the window list, at the window height. -/
def checkCounts (config : VmConfig) (counts windows : List ℕ) (height : ℕ) : Except String Unit :=
  if config.count counts Family.initTeardown ≠ 1 then
    .error "INIT_TEARDOWN proves exactly one shard"
  else if windows.length ≠ config.count counts Family.zeroWindows then
    .error "the window list has one id per ZERO_WINDOWS shard"
  else if ¬ windows.IsChain (· < ·) then
    .error "the window ids are strictly increasing"
  else if windows.any fun window => window = 0 ∨ 2 ^ 29 / height ≤ window then
    .error "every window id is in [1, 2^29 / h - 1]"
  else if config.count counts Family.publicInput ≠ 1 then
    .error "PUBLIC_INPUT proves exactly one shard"
  else if config.count counts Family.publicOutput ≠ 1 then
    .error "PUBLIC_OUTPUT proves exactly one shard"
  else if 2 ^ 30 / height < adviceFirstWindow height + config.count counts Family.adviceWindows then
    .error "the advice windows do not fit below the top of the address space"
  else checkFieldWindows config counts

/-- The window rules over a statement. The first is an assertion. -/
def checkMemoryWindows (config : VmConfig) (counts windows : List ℕ) : Except String Unit :=
  if counts.length ≠ config.families.length then
    .error "check_memory_windows: one shard count per family in the VmConfig"
  else do
    let height ← windowHeight config
    checkCounts config counts windows height

/-- Why the source panics. -/
inductive Panic
  | indexOutOfBounds
  | shiftOverflow
  | addOverflow
deriving DecidableEq

/-- The window a shard initializes, if its family's rows are a window. -/
def shardWindow (family index : ℕ) (windows : List ℕ) (traceVars : ℕ) :
    Except Panic (Option ℕ) :=
  if family = Family.initTeardown then .ok (some 0)
  else if family = Family.zeroWindows then
    match windows[index]? with
    | some window => .ok (some window)
    | none => .error .indexOutOfBounds
  else if family = Family.publicInput then .ok (some Family.publicInputWindow)
  else if family = Family.publicOutput then .ok (some Family.publicOutputWindow)
  else if family = Family.adviceWindows then
    if 32 ≤ traceVars then .error .shiftOverflow
    else if 2 ^ 32 ≤ adviceFirstWindow (2 ^ traceVars) + index then .error .addOverflow
    else .ok (some (adviceFirstWindow (2 ^ traceVars) + index))
  else if family = Family.fieldWindows then .ok (some index)
  else .ok none

/-- The lowest set bit of a 32-bit number, or 32. -/
def trailingZeros (x : ℕ) : ℕ := (List.range 32).findIdx fun i => x.testBit i

/-- The cell a row of a window is: its address space and its address. -/
def windowCell (family traceVars window row : ℕ) : ℕ × ℕ :=
  if family = Family.fieldWindows then (AddressSpace.field, 2 ^ traceVars * window + row)
  else (AddressSpace.ram, 4 * (2 ^ traceVars * window + row))

/-- A family and a shard's index in it. -/
structure ShardId where
  family : ℕ
  index : ℕ
deriving DecidableEq, Repr

/-- A shard of a statement, at its family's height. -/
structure IsShard (config : VmConfig) (counts : List ℕ) (shard : ShardId) (height : ℕ) : Prop where
  attached : config.height shard.family = some height
  counted : shard.index < config.count counts shard.family

/-- A row of a shard initializes a cell. -/
def Initializes (config : VmConfig) (counts windows : List ℕ) (shard : ShardId) (row : ℕ)
    (cell : ℕ × ℕ) : Prop :=
  ∃ height window, IsShard config counts shard height ∧
    shardWindow shard.family shard.index windows (trailingZeros height) = .ok (some window) ∧
    row < 2 ^ trailingZeros height ∧
    (shard.family = Family.initTeardown → virtualAtRow .ramLive row = 1) ∧
    cell = windowCell shard.family (trailingZeros height) window row

section Rules

theorem refuse_ok {ε α : Type} {rule : Prop} [Decidable rule] {error : ε} {next : Except ε α}
    {result : α} : (if rule then .error error else next) = .ok result ↔
      ¬ rule ∧ next = .ok result := by
  by_cases broken : rule
  · simp [broken]
  · simp [broken]

variable {config : VmConfig} {counts windows : List ℕ}

/-- What the window height rules leave. -/
structure WindowHeights (config : VmConfig) (height : ℕ) : Prop where
  initTeardown : config.height Family.initTeardown = some height
  zeroWindows : config.height Family.zeroWindows = some height
  adviceWindows : config.height Family.adviceWindows = some height
  publicInput : config.height Family.publicInput = some Family.publicWindowHeight
  publicOutput : config.height Family.publicOutput = some Family.publicWindowHeight
  holdsPublic : 2 ^ 14 ≤ height

/-- What the rules on the counts and the window list leave. -/
structure CheckedCounts (config : VmConfig) (counts windows : List ℕ) (height : ℕ) : Prop where
  initTeardown : config.count counts Family.initTeardown = 1
  listed : windows.length = config.count counts Family.zeroWindows
  ascending : windows.Pairwise (· < ·)
  inside : ∀ window ∈ windows, 0 < window ∧ window < 2 ^ 29 / height
  publicInput : config.count counts Family.publicInput = 1
  publicOutput : config.count counts Family.publicOutput = 1
  advice : adviceFirstWindow height + config.count counts Family.adviceWindows ≤ 2 ^ 30 / height
  field : ∀ cells, config.height Family.fieldWindows = some cells →
    config.count counts Family.fieldWindows * cells ≤ 2 ^ 32

theorem windowFamiliesHeight_ok {height : ℕ} (found : windowFamiliesHeight config = .ok height) :
    config.height Family.initTeardown = some height ∧
      config.height Family.zeroWindows = some height ∧
      config.height Family.adviceWindows = some height := by
  unfold windowFamiliesHeight at found
  split at found
  · next init zeroes advice hasInit hasZeroes hasAdvice =>
    split at found
    · next same =>
      obtain ⟨rfl, rfl⟩ := same
      cases found
      exact ⟨hasInit, hasZeroes, hasAdvice⟩
    · cases found
  · cases found

theorem publicFamiliesHeight_ok (found : publicFamiliesHeight config = .ok ()) :
    config.height Family.publicInput = some Family.publicWindowHeight ∧
      config.height Family.publicOutput = some Family.publicWindowHeight := by
  unfold publicFamiliesHeight at found
  split at found
  · next input output hasInput hasOutput =>
    split at found
    · next pinned => exact ⟨hasInput.trans (congrArg some pinned.1),
        hasOutput.trans (congrArg some pinned.2)⟩
    · cases found
  · cases found

theorem windowHeight_ok {height : ℕ} (found : windowHeight config = .ok height) :
    WindowHeights config height := by
  simp only [windowHeight, bind_ok, refuse_ok, Except.ok.injEq] at found
  obtain ⟨shared, families, _, pinned, high, rfl⟩ := found
  obtain ⟨init, zeroes, advice⟩ := windowFamiliesHeight_ok families
  obtain ⟨input, output⟩ := publicFamiliesHeight_ok pinned
  refine ⟨init, zeroes, advice, input, output, ?_⟩
  have reach : GuestMemory.publicOutputOrigin + GuestMemory.publicWindowBytes = 2 ^ 16 := by decide
  omega

theorem checkFieldWindows_ok (accepted : checkFieldWindows config counts = .ok ()) (cells : ℕ)
    (attached : config.height Family.fieldWindows = some cells) :
    config.count counts Family.fieldWindows * cells ≤ 2 ^ 32 := by
  rw [checkFieldWindows, attached] at accepted
  exact Nat.not_lt.mp (refuse_ok.mp accepted).1

theorem checkCounts_ok {height : ℕ} (accepted : checkCounts config counts windows height = .ok ()) :
    CheckedCounts config counts windows height := by
  simp only [checkCounts, refuse_ok, not_not] at accepted
  obtain ⟨init, listed, chain, inside, input, output, advice, field⟩ := accepted
  refine ⟨init, listed, List.isChain_iff_pairwise.mp chain, ?_, input, output, Nat.not_lt.mp advice,
    checkFieldWindows_ok field⟩
  intro window member
  rw [List.any_eq_true, not_exists] at inside
  have fine := not_and.mp (inside window) member
  rw [decide_eq_true_eq, not_or] at fine
  exact ⟨Nat.pos_of_ne_zero fine.1, Nat.not_le.mp fine.2⟩

theorem checkMemoryWindows_ok (accepted : checkMemoryWindows config counts windows = .ok ()) :
    counts.length = config.families.length ∧
      ∃ height, WindowHeights config height ∧ CheckedCounts config counts windows height := by
  simp only [checkMemoryWindows, refuse_ok, bind_ok, not_not] at accepted
  obtain ⟨aligned, height, found, rules⟩ := accepted
  exact ⟨aligned, height, windowHeight_ok found, checkCounts_ok rules⟩

end Rules

end Apogee
