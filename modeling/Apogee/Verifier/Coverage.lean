import Apogee.Verifier.Windows

/-! # Initialization coverage

Under the window rules no word has two initial values: the region a word lies in
names its family, a family's windows are distinct, and a window's rows are.
-/

namespace Apogee

open VmConfig

section Heights

theorem menu_power {height : ℕ} (menu : height ∈ Family.heightMenu) :
    2 ^ trailingZeros height = height ∧ trailingZeros height < 32 := by
  have all : ∀ height ∈ Family.heightMenu,
      2 ^ trailingZeros height = height ∧ trailingZeros height < 32 := by decide
  exact all height menu

/-- A window of a height that holds the public windows starts at its own multiple. -/
theorem menu_windows {height : ℕ} (menu : height ∈ Family.heightMenu) (high : 2 ^ 14 ≤ height) :
    height * adviceFirstWindow height = 2 ^ 29 ∧ height * (2 ^ 29 / height) = 2 ^ 29 ∧
      height * (2 ^ 30 / height) = 2 ^ 30 := by
  have all : ∀ height ∈ Family.heightMenu, 2 ^ 14 ≤ height →
      height * adviceFirstWindow height = 2 ^ 29 ∧ height * (2 ^ 29 / height) = 2 ^ 29 ∧
        height * (2 ^ 30 / height) = 2 ^ 30 := by decide
  exact all height menu high

theorem height_menu {config : VmConfig} (derived : config.Derived) {family height : ℕ}
    (attached : config.height family = some height) : height ∈ Family.heightMenu := by
  obtain ⟨entry, found, rfl⟩ := Option.map_eq_some_iff.mp attached
  exact derived.menu entry (List.mem_of_find?_eq_some found)

theorem same_height {config : VmConfig} {family other height own : ℕ}
    (attached : config.height family = some own) (named : family = other)
    (known : config.height other = some height) : own = height := by
  rw [named, known] at attached
  exact (Option.some.inj attached).symm

/-- A row of a window, and the row of another of the same size, at one place. -/
theorem window_unique {size window other row place : ℕ} (inside : row < size) (below : place < size)
    (same : size * window + row = size * other + place) : window = other ∧ row = place := by
  have positive : 0 < size := Nat.zero_lt_of_lt inside
  have quotients := congrArg (· / size) same
  have remainders := congrArg (· % size) same
  simp only [Nat.mul_add_div positive, Nat.div_eq_of_lt inside, Nat.div_eq_of_lt below,
    Nat.add_zero] at quotients
  simp only [Nat.mul_add_mod, Nat.mod_eq_of_lt inside, Nat.mod_eq_of_lt below] at remainders
  exact ⟨quotients, remainders⟩

end Heights

section Windows

variable {family index traceVars window : ℕ} {windows : List ℕ}

/-- The six ways a shard has a window. -/
theorem shardWindow_some (found : shardWindow family index windows traceVars = .ok (some window)) :
    family = Family.initTeardown ∧ window = 0 ∨
      family = Family.zeroWindows ∧ windows[index]? = some window ∨
      family = Family.publicInput ∧ window = Family.publicInputWindow ∨
      family = Family.publicOutput ∧ window = Family.publicOutputWindow ∨
      family = Family.adviceWindows ∧ window = adviceFirstWindow (2 ^ traceVars) + index ∨
      family = Family.fieldWindows ∧ window = index := by
  unfold shardWindow at found
  by_cases init : family = Family.initTeardown
  · rw [if_pos init] at found
    cases found
    exact Or.inl ⟨init, rfl⟩
  rw [if_neg init] at found
  by_cases zeroes : family = Family.zeroWindows
  · rw [if_pos zeroes] at found
    split at found
    · next listed =>
      cases found
      exact Or.inr (Or.inl ⟨zeroes, listed⟩)
    · cases found
  rw [if_neg zeroes] at found
  by_cases input : family = Family.publicInput
  · rw [if_pos input] at found
    cases found
    exact Or.inr (Or.inr (Or.inl ⟨input, rfl⟩))
  rw [if_neg input] at found
  by_cases output : family = Family.publicOutput
  · rw [if_pos output] at found
    cases found
    exact Or.inr (Or.inr (Or.inr (Or.inl ⟨output, rfl⟩)))
  rw [if_neg output] at found
  by_cases advice : family = Family.adviceWindows
  · rw [if_pos advice, refuse_ok, refuse_ok] at found
    obtain ⟨-, -, same⟩ := found
    cases same
    exact Or.inr (Or.inr (Or.inr (Or.inr (Or.inl ⟨advice, rfl⟩))))
  rw [if_neg advice] at found
  by_cases field : family = Family.fieldWindows
  · rw [if_pos field] at found
    cases found
    exact Or.inr (Or.inr (Or.inr (Or.inr (Or.inr ⟨field, rfl⟩))))
  rw [if_neg field] at found
  cases found

end Windows

/-- The family that may initialize a word of memory, at a window height. -/
def wordOwner (height word : ℕ) : ℕ :=
  if word < 2 ^ 13 + 2 ^ 12 then Family.publicInput
  else if word < 2 ^ 14 then Family.publicOutput
  else if word < height then Family.initTeardown
  else if word < 2 ^ 29 then Family.zeroWindows
  else Family.adviceWindows

/-- What the decoder and the window rules leave of a statement. -/
structure Accepted (config : VmConfig) (counts windows : List ℕ) (height : ℕ) : Prop where
  derived : config.Derived
  heights : WindowHeights config height
  counted : CheckedCounts config counts windows height

namespace Accepted

variable {config : VmConfig} {counts windows : List ℕ} {height : ℕ}

theorem menu (accepted : Accepted config counts windows height) : height ∈ Family.heightMenu :=
  height_menu accepted.derived accepted.heights.initTeardown

/-- No shard's window makes the source panic. -/
theorem shardWindow_total (accepted : Accepted config counts windows height) {shard : ShardId}
    {own : ℕ} (isShard : IsShard config counts shard own) :
    ∃ window, shardWindow shard.family shard.index windows (trailingZeros own) = .ok window := by
  obtain ⟨family, index⟩ := shard
  obtain ⟨attached, counted⟩ := isShard
  dsimp only at attached counted ⊢
  unfold shardWindow
  by_cases zeroes : family = Family.zeroWindows
  · subst zeroes
    have inside : index < windows.length := accepted.counted.listed ▸ counted
    rw [if_neg (by decide), if_pos rfl, List.getElem?_eq_getElem inside]
    exact ⟨_, rfl⟩
  by_cases advice : family = Family.adviceWindows
  · subst advice
    obtain rfl : own = height := same_height attached rfl accepted.heights.adviceWindows
    obtain ⟨power, small⟩ := menu_power accepted.menu
    have fits := accepted.counted.advice
    have below : 2 ^ 30 / own ≤ 2 ^ 30 := Nat.div_le_self _ _
    rw [if_neg (by decide), if_neg (by decide), if_neg (by decide), if_neg (by decide), if_pos rfl,
      if_neg (Nat.not_le.mpr small), power, if_neg (by omega)]
    exact ⟨_, rfl⟩
  rw [if_neg zeroes, if_neg advice]
  repeat' split
  all_goals exact ⟨_, rfl⟩

/-- Where a row's cell lies: the word's region names the shard's family. -/
theorem initializes_cell (accepted : Accepted config counts windows height) {shard : ShardId}
    {row : ℕ} {cell : ℕ × ℕ} (writes : Initializes config counts windows shard row cell) :
    (∃ word, cell = (AddressSpace.ram, 4 * word) ∧ shard.family = wordOwner height word ∧
        2 ^ 13 ≤ word ∧ word < 2 ^ 30) ∨
      shard.family = Family.fieldWindows ∧ ∃ place, cell = (AddressSpace.field, place) ∧
        place < 2 ^ 32 := by
  obtain ⟨own, window, ⟨attached, counted⟩, found, inside, live, rfl⟩ := writes
  obtain ⟨power, -⟩ := menu_power (height_menu accepted.derived attached)
  obtain ⟨advice_start, zero_end, advice_end⟩ := menu_windows accepted.menu
    accepted.heights.holdsPublic
  have high := accepted.heights.holdsPublic
  have low : height ≤ 2 ^ 22 := by
    have all : ∀ height ∈ Family.heightMenu, height ≤ 2 ^ 22 := by decide
    exact all height accepted.menu
  have ram : shard.family ≠ Family.fieldWindows →
      windowCell shard.family (trailingZeros own) window row =
        (AddressSpace.ram, 4 * (own * window + row)) := by
    intro other
    rw [windowCell, if_neg other, power]
  rw [power] at inside
  rcases shardWindow_some found with ⟨family, rfl⟩ | ⟨family, listed⟩ | ⟨family, rfl⟩ |
    ⟨family, rfl⟩ | ⟨family, rfl⟩ | ⟨family, rfl⟩
  · obtain rfl : own = height := same_height attached family accepted.heights.initTeardown
    have above : 2 ^ RAM_LIVE_BIT ≤ row := by
      by_contra masked
      have off := live family
      rw [virtualAtRow, if_neg masked] at off
      exact zero_ne_one off
    rw [RAM_LIVE_BIT] at above
    refine Or.inl ⟨own * 0 + row, ram (by rw [family]; decide), ?_, by omega, by omega⟩
    rw [family, wordOwner, if_neg (by omega), if_neg (by omega), if_pos (by omega)]
  · obtain rfl : own = height := same_height attached family accepted.heights.zeroWindows
    obtain ⟨positive, below⟩ := accepted.counted.inside window (List.mem_of_getElem? listed)
    have first : own * 1 ≤ own * window := Nat.mul_le_mul_left own positive
    have last : own * (window + 1) ≤ own * (2 ^ 29 / own) := Nat.mul_le_mul_left own below
    rw [zero_end, Nat.mul_succ] at last
    refine Or.inl ⟨own * window + row, ram (by rw [family]; decide), ?_, by omega, by omega⟩
    rw [family, wordOwner, if_neg (by omega), if_neg (by omega), if_neg (by omega),
      if_pos (by omega)]
  · obtain rfl : own = 2 ^ 12 := same_height attached family accepted.heights.publicInput
    have start : 2 ^ 12 * Family.publicInputWindow = 2 ^ 13 := by decide
    refine Or.inl ⟨2 ^ 12 * Family.publicInputWindow + row, ram (by rw [family]; decide), ?_,
      by omega, by omega⟩
    rw [family, wordOwner, if_pos (by omega)]
  · obtain rfl : own = 2 ^ 12 := same_height attached family accepted.heights.publicOutput
    have start : 2 ^ 12 * Family.publicOutputWindow = 2 ^ 13 + 2 ^ 12 := by decide
    refine Or.inl ⟨2 ^ 12 * Family.publicOutputWindow + row, ram (by rw [family]; decide), ?_,
      by omega, by omega⟩
    rw [family, wordOwner, if_neg (by omega), if_pos (by omega)]
  · obtain rfl : own = height := same_height attached family accepted.heights.adviceWindows
    rw [family] at counted
    have fits := accepted.counted.advice
    have last : own * (adviceFirstWindow own + shard.index + 1) ≤ own * (2 ^ 30 / own) :=
      Nat.mul_le_mul_left own (by omega)
    rw [advice_end, Nat.mul_succ, Nat.mul_add, advice_start] at last
    refine Or.inl ⟨own * (adviceFirstWindow (2 ^ trailingZeros own) + shard.index) + row,
      ram (by rw [family]; decide), ?_, ?_, ?_⟩
    · rw [power, Nat.mul_add, advice_start, family, wordOwner, if_neg (by omega), if_neg (by omega),
        if_neg (by omega), if_neg (by omega)]
    · rw [power, Nat.mul_add, advice_start]
      omega
    · rw [power, Nat.mul_add, advice_start]
      omega
  · rw [family] at attached counted
    have fits := accepted.counted.field own attached
    have last : (shard.index + 1) * own ≤ config.count counts Family.fieldWindows * own :=
      Nat.mul_le_mul_right own counted
    refine Or.inr ⟨family, own * shard.index + row, ?_, ?_⟩
    · rw [windowCell, if_pos family, power]
    · rw [Nat.succ_mul, Nat.mul_comm] at last
      omega

/-- A family's windows are distinct. -/
theorem shardWindow_unique (accepted : Accepted config counts windows height)
    {family first second own window : ℕ}
    (firstShard : IsShard config counts ⟨family, first⟩ own)
    (secondShard : IsShard config counts ⟨family, second⟩ own)
    (firstFound : shardWindow family first windows (trailingZeros own) = .ok (some window))
    (secondFound : shardWindow family second windows (trailingZeros own) = .ok (some window)) :
    first = second := by
  have single : config.count counts family = 1 → first = second := by
    intro one
    have firstZero : first < 1 := one ▸ firstShard.counted
    have secondZero : second < 1 := one ▸ secondShard.counted
    rw [Nat.lt_one_iff.mp firstZero, Nat.lt_one_iff.mp secondZero]
  by_cases zeroes : family = Family.zeroWindows
  · subst zeroes
    have listed : ∀ {index}, shardWindow Family.zeroWindows index windows (trailingZeros own) =
        .ok (some window) → windows[index]? = some window := by
      intro index found
      rcases shardWindow_some found with ⟨wrong, -⟩ | ⟨-, here⟩ | ⟨wrong, -⟩ | ⟨wrong, -⟩ |
        ⟨wrong, -⟩ | ⟨wrong, -⟩
      · exact absurd wrong (by decide)
      · exact here
      all_goals exact absurd wrong (by decide)
    have distinct : windows.Nodup := accepted.counted.ascending.imp Nat.ne_of_lt
    have inside : first < windows.length := accepted.counted.listed ▸ firstShard.counted
    exact (List.getElem?_inj inside distinct).mp
      ((listed firstFound).trans (listed secondFound).symm)
  rcases shardWindow_some firstFound with ⟨rfl, -⟩ | ⟨wrong, -⟩ | ⟨rfl, -⟩ | ⟨rfl, -⟩ |
    ⟨rfl, firstWindow⟩ | ⟨rfl, firstWindow⟩
  · exact single accepted.counted.initTeardown
  · exact absurd wrong zeroes
  · exact single accepted.counted.publicInput
  · exact single accepted.counted.publicOutput
  · rcases shardWindow_some secondFound with ⟨wrong, -⟩ | ⟨wrong, -⟩ | ⟨wrong, -⟩ | ⟨wrong, -⟩ |
      ⟨-, secondWindow⟩ | ⟨wrong, -⟩
    case inr.inr.inr.inr.inl => exact Nat.add_left_cancel (firstWindow.symm.trans secondWindow)
    all_goals exact absurd wrong (by decide)
  · rcases shardWindow_some secondFound with ⟨wrong, -⟩ | ⟨wrong, -⟩ | ⟨wrong, -⟩ | ⟨wrong, -⟩ |
      ⟨wrong, -⟩ | ⟨-, secondWindow⟩
    case inr.inr.inr.inr.inr => exact firstWindow.symm.trans secondWindow
    all_goals exact absurd wrong (by decide)

theorem ram_ne_field : AddressSpace.ram ≠ AddressSpace.field := by decide

/-- No two rows initialize one cell. -/
theorem initializes_unique (accepted : Accepted config counts windows height)
    {first second : ShardId} {row other : ℕ} {cell : ℕ × ℕ}
    (writes : Initializes config counts windows first row cell)
    (rewrites : Initializes config counts windows second other cell) :
    first = second ∧ row = other := by
  have families : first.family = second.family := by
    rcases initializes_cell accepted writes with ⟨word, rfl, owner, -⟩ | ⟨field, place, rfl, -⟩
    · rcases initializes_cell accepted rewrites with ⟨again, same, owned, -⟩ | ⟨-, place, wrong, -⟩
      · have words : 4 * word = 4 * again := congrArg Prod.snd same
        rw [owner, owned, Nat.eq_of_mul_eq_mul_left (by decide) words]
      · exact absurd (congrArg Prod.fst wrong) ram_ne_field
    · rcases initializes_cell accepted rewrites with ⟨again, wrong, -⟩ | ⟨named, -⟩
      · exact absurd (congrArg Prod.fst wrong) ram_ne_field.symm
      · rw [field, named]
  obtain ⟨own, window, firstShard, firstFound, inside, -, placed⟩ := writes
  obtain ⟨theirs, again, secondShard, secondFound, below, -, replaced⟩ := rewrites
  obtain ⟨family, index⟩ := first
  obtain ⟨_, index'⟩ := second
  dsimp only at families firstFound secondFound placed replaced
  subst families
  obtain rfl : theirs = own := same_height secondShard.attached rfl firstShard.attached
  have places : 2 ^ trailingZeros theirs * window + row = 2 ^ trailingZeros theirs * again + other := by
    have cells := placed.symm.trans replaced
    unfold windowCell at cells
    by_cases field : family = Family.fieldWindows
    · rw [if_pos field, if_pos field] at cells
      exact congrArg Prod.snd cells
    · rw [if_neg field, if_neg field] at cells
      exact Nat.eq_of_mul_eq_mul_left (by decide) (congrArg Prod.snd cells)
  obtain ⟨rfl, rfl⟩ := window_unique inside below places
  rw [shardWindow_unique accepted firstShard secondShard firstFound secondFound]
  exact ⟨rfl, rfl⟩

/-- A public family initializes every word of its window. -/
theorem public_covered {family origin : ℕ}
    (attached : config.height family = some Family.publicWindowHeight)
    (counted : config.count counts family = 1)
    (found : shardWindow family 0 windows 12 =
      .ok (some (origin / (4 * Family.publicWindowHeight))))
    (unmasked : family ≠ Family.initTeardown) (ram : family ≠ Family.fieldWindows)
    (aligned : 4 * Family.publicWindowHeight ∣ origin) {row : ℕ}
    (inside : row < Family.publicWindowHeight) :
    Initializes config counts windows ⟨family, 0⟩ row (AddressSpace.ram, origin + 4 * row) := by
  have vars : trailingZeros Family.publicWindowHeight = 12 := by decide
  obtain ⟨window, rfl⟩ := aligned
  refine ⟨Family.publicWindowHeight, window, ⟨attached, ?_⟩, ?_, ?_, ?_, ?_⟩
  · rw [counted]
    exact Nat.one_pos
  · rw [vars]
    rwa [Nat.mul_div_cancel_left window (by decide)] at found
  · rwa [vars]
  · exact fun masked => absurd masked unmasked
  · rw [windowCell, if_neg ram, vars, Family.publicWindowHeight]
    ring_nf

end Accepted

/-- **Initialization coverage.** Under a decoded config and the window rules no
shard's window panics, no cell is initialized twice, every initialized address is
a word's and none lies in the hole below the public windows, and each word of a
public window is initialized once, by its own family. -/
theorem initialization_coverage {bytes : List UInt8} {config : VmConfig} {counts windows : List ℕ}
    (decoded : fromBytes bytes = some config)
    (accepted : checkMemoryWindows config counts windows = .ok ()) :
    (∀ shard height, IsShard config counts shard height → ∃ window,
      shardWindow shard.family shard.index windows (trailingZeros height) = .ok window) ∧
    (∀ first second row other cell, Initializes config counts windows first row cell →
      Initializes config counts windows second other cell → first = second ∧ row = other) ∧
    (∀ shard row address,
      Initializes config counts windows shard row (AddressSpace.ram, address) →
      4 ∣ address ∧ 0x8000 ≤ address ∧ address < 2 ^ 32) ∧
    ∀ family origin, (family, origin) ∈ [(Family.publicInput, GuestMemory.publicInputOrigin),
        (Family.publicOutput, GuestMemory.publicOutputOrigin)] →
      ∀ row < Family.publicWindowHeight,
        Initializes config counts windows ⟨family, 0⟩ row (AddressSpace.ram, origin + 4 * row) ∧
        ∀ shard other,
          Initializes config counts windows shard other (AddressSpace.ram, origin + 4 * row) →
          shard = ⟨family, 0⟩ ∧ other = row := by
  obtain ⟨-, height, heights, counted⟩ := checkMemoryWindows_ok accepted
  have rules : Accepted config counts windows height :=
    ⟨(fromBytes_eq_some.mp decoded).2, heights, counted⟩
  refine ⟨fun shard own isShard => rules.shardWindow_total isShard,
    fun first second row other cell => rules.initializes_unique, ?_, ?_⟩
  · intro shard row address writes
    rcases rules.initializes_cell writes with ⟨word, same, -, above, below⟩ | ⟨-, place, same, -⟩
    · obtain rfl : address = 4 * word := congrArg Prod.snd same
      exact ⟨Nat.dvd_mul_right 4 word, by omega, by omega⟩
    · exact absurd (congrArg Prod.fst same) Accepted.ram_ne_field
  · intro family origin member row inside
    have covered : Initializes config counts windows ⟨family, 0⟩ row
        (AddressSpace.ram, origin + 4 * row) := by
      rcases List.mem_cons.mp member with input | others
      · cases input
        exact Accepted.public_covered heights.publicInput counted.publicInput rfl (by decide)
          (by decide) (by decide) inside
      · cases List.mem_singleton.mp others
        exact Accepted.public_covered heights.publicOutput counted.publicOutput rfl (by decide)
          (by decide) (by decide) inside
    exact ⟨covered, fun shard other writes => rules.initializes_unique writes covered⟩

/-- A recursion-format config: the six window families. -/
def windowsConfig : VmConfig where
  families := [(Family.initTeardown, 2 ^ 16), (Family.zeroWindows, 2 ^ 16),
    (Family.publicInput, 2 ^ 12), (Family.publicOutput, 2 ^ 12), (Family.adviceWindows, 2 ^ 16),
    (Family.fieldWindows, 2 ^ 20)]
  bytecodeSizeWords := 2 ^ 20

theorem initialization_coverage_windowsConfig :
    Initializes windowsConfig [1, 2, 1, 1, 3, 1] [1, 5] ⟨Family.publicOutput, 0⟩ 7
      (AddressSpace.ram, GuestMemory.publicOutputOrigin + 4 * 7) :=
  ((@initialization_coverage windowsConfig.toBytes windowsConfig [1, 2, 1, 1, 3, 1] [1, 5]
    (by decide) (by decide)).2.2.2 Family.publicOutput _
      (List.mem_cons_of_mem _ List.mem_cons_self) 7 (by decide)).1

end Apogee
