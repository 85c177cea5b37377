import Apogee.Field

/-! # The duplex

The raw transcript over a width-three permutation: elements are absorbed two at
a time by overwriting the rate, the capacity counts how many, and challenges are
popped from the end of the rate. The permutation is any function of the state.
-/

namespace Apogee

/-- The three lanes a permutation works on. -/
structure Lanes where
  first : Fr
  second : Fr
  capacity : Fr
deriving DecidableEq

/-- The sponge and its buffers. The last two fields are a record of what was done
and feed nothing: what was observed, and what was permuted. -/
structure Duplex where
  state : Lanes
  input : List Fr
  output : List Fr
  observed : List Fr
  permuted : List Lanes

namespace Duplex

/-- How many lanes are absorbed into and squeezed from. -/
def rate : ℕ := 2

def new : Duplex := ⟨⟨0, 0, 0⟩, [], [], [], []⟩

/-- The pending elements replace the rate and their number is added to the capacity. -/
def overwrite (state : Lanes) (input : List Fr) : Lanes :=
  if 0 < input.length then
    ⟨input.getD 0 0, input.getD 1 0, state.capacity + (input.length : Fr)⟩
  else state

variable (permute : Lanes → Lanes)

/-- Absorb what is pending, permute, refill the output. -/
def duplex (t : Duplex) : Duplex :=
  let absorbed := overwrite t.state t.input
  let state := permute absorbed
  { t with
    state
    input := []
    output := [state.first, state.second]
    permuted := t.permuted ++ [absorbed] }

def observe (x : Fr) (t : Duplex) : Duplex :=
  let pending :=
    { t with output := [], input := t.input ++ [x], observed := t.observed ++ [x] }
  if pending.input.length = rate then pending.duplex permute else pending

def sample (t : Duplex) : Fr × Duplex :=
  let ready := if 0 < t.input.length ∨ t.output.length = 0 then t.duplex permute else t
  (ready.output.getLastD 0, { ready with output := ready.output.dropLast })

/-- One operation of a script. -/
inductive Op
  | observe (x : Fr)
  | sample
deriving DecidableEq

def step (t : Duplex) : Op → Duplex
  | .observe x => t.observe permute x
  | .sample => (t.sample permute).2

def run (script : List Op) (t : Duplex) : Duplex := script.foldl (step permute) t

/-- What a script observes before each of its samples, since the one before. -/
def asked : List Op → List (List Fr)
  | [] => []
  | .sample :: script => [] :: asked script
  | .observe x :: script =>
    match asked script with
    | [] => []
    | block :: blocks => (x :: block) :: blocks

/-- A script up to and including its sample number `i`. -/
def through : ℕ → List Op → List Op
  | _, [] => []
  | i, .observe x :: script => .observe x :: through i script
  | 0, .sample :: _ => [.sample]
  | i + 1, .sample :: script => .sample :: through i script

/-- Observe a block, then sample. -/
def ask (block : List Fr) : List Op := block.map .observe ++ [.sample]

section Observed

@[simp]
theorem observe_observed (x : Fr) (t : Duplex) :
    (t.observe permute x).observed = t.observed ++ [x] := by
  unfold observe
  dsimp only
  split <;> rfl

@[simp]
theorem sample_observed (t : Duplex) : (t.sample permute).2.observed = t.observed := by
  unfold sample
  dsimp only
  split <;> rfl

theorem foldl_observe_observed (xs : List Fr) (t : Duplex) :
    (xs.foldl (fun t x => t.observe permute x) t).observed = t.observed ++ xs := by
  induction xs generalizing t with
  | nil => rw [List.foldl_nil, List.append_nil]
  | cons x xs ih => rw [List.foldl_cons, ih, observe_observed, List.append_assoc,
      List.singleton_append]

end Observed

section Script

theorem run_append (first second : List Op) (t : Duplex) :
    run permute (first ++ second) t = run permute second (run permute first t) :=
  List.foldl_append

/-- A script up to a sample is its blocks up to there. -/
theorem through_eq : ∀ (script : List Op) (i : ℕ), i < (asked script).length →
    through i script = ((asked script).take (i + 1)).flatMap ask
  | [], i, inside => absurd inside (Nat.not_lt_zero i)
  | .sample :: script, 0, _ => rfl
  | .sample :: script, i + 1, inside => by
    rw [through, through_eq script i (Nat.lt_of_succ_lt_succ inside)]
    rfl
  | .observe x :: script, i, inside => by
    rw [asked] at inside ⊢
    cases blocks : asked script with
    | nil =>
      rw [blocks] at inside
      exact absurd inside (Nat.not_lt_zero i)
    | cons block others =>
      rw [blocks] at inside
      rw [through, through_eq script i (by rw [blocks]; exact inside), blocks]
      rfl

end Script

section Separation

/-- The permutation's inputs for a block absorbed by a sponge with nothing pending. -/
def absorptions : Lanes → List Fr → List Lanes
  | _, [] => []
  | state, [x] => [overwrite state [x]]
  | state, x :: y :: rest =>
    overwrite state [x, y] :: absorptions (permute (overwrite state [x, y])) rest

/-- Two pending elements are absorbed at once. -/
theorem observe_pair {t : Duplex} (x y : Fr) (empty : t.input = []) :
    (t.observe permute x).observe permute y =
      { state := permute (overwrite t.state [x, y])
        input := []
        output := [(permute (overwrite t.state [x, y])).first,
          (permute (overwrite t.state [x, y])).second]
        observed := t.observed ++ [x] ++ [y]
        permuted := t.permuted ++ [overwrite t.state [x, y]] } := by
  simp only [observe, empty, List.nil_append, rate, OfNat.one_ne_ofNat, if_false, List.cons_append,
    List.length_cons, List.length_nil, Nat.reduceAdd, if_true, duplex]

/-- The sample after a block that leaves nothing pending. -/
theorem sample_permuted {t : Duplex} (empty : t.input = []) : (t.sample permute).2.permuted =
      t.permuted ++ (if t.output.length = 0 then [t.state] else []) := by
  unfold sample
  simp only [empty, List.length_nil, lt_irrefl, false_or]
  by_cases spent : t.output.length = 0
  · rw [if_pos spent, if_pos spent]
    simp only [duplex, empty, overwrite, List.length_nil, lt_irrefl, if_false]
  · rw [if_neg spent, if_neg spent, List.append_nil]

theorem sample_input {t : Duplex} : (t.sample permute).2.input = [] := by
  unfold sample
  dsimp only
  by_cases flush : 0 < t.input.length ∨ t.output.length = 0
  · rw [if_pos flush]
    rfl
  · rw [if_neg flush]
    exact List.length_eq_zero_iff.mp (Nat.eq_zero_of_not_pos fun pending => flush (Or.inl pending))

theorem run_ask_input (block : List Fr) (t : Duplex) : (run permute (ask block) t).input = [] := by
  rw [ask, run_append]
  exact sample_input permute

/-- What asking permutes: the block's absorptions, or a squeeze of the state as it is when
nothing was observed and no output is left. -/
theorem run_ask_permuted (block : List Fr) : ∀ t : Duplex, t.input = [] →
    (run permute (ask block) t).permuted = t.permuted ++ absorptions permute t.state block ++
      (if block = [] ∧ t.output.length = 0 then [t.state] else []) := by
  suffices pairs : ∀ (state : Lanes) (t : Duplex), t.state = state → t.input = [] →
      (run permute (ask block) t).permuted = t.permuted ++ absorptions permute state block ++
        (if block = [] ∧ t.output.length = 0 then [state] else []) from
    fun t empty => pairs t.state t rfl empty
  intro state
  induction state, block using absorptions.induct permute with
  | case1 state =>
    rintro t rfl empty
    simp only [absorptions, List.append_nil, true_and]
    exact sample_permuted permute empty
  | case2 state x =>
    rintro t rfl empty
    have step : run permute (ask [x]) t = ((t.observe permute x).sample permute).2 := rfl
    simp only [step, absorptions, List.cons_ne_nil, false_and, if_false, List.append_nil, observe,
      sample, empty, List.nil_append, List.length_singleton, rate, OfNat.one_ne_ofNat, zero_lt_one,
      true_or, if_true, duplex]
  | case3 state x y rest ih =>
    rintro t rfl empty
    have step : run permute (ask (x :: y :: rest)) t =
        run permute (ask rest) ((t.observe permute x).observe permute y) := rfl
    rw [step, observe_pair permute x y empty, ih _ rfl rfl]
    simp only [absorptions, List.length_cons, List.length_nil, Nat.reduceAdd, OfNat.ofNat_ne_zero,
      and_false, if_false, List.append_nil, List.cons_ne_nil, false_and, List.append_assoc,
      List.singleton_append]

theorem overwrite_capacity (state : Lanes) (input : List Fr) :
    (overwrite state input).capacity = state.capacity + (input.length : Fr) := by
  unfold overwrite
  by_cases pending : 0 < input.length
  · rw [if_pos pending]
  · rw [if_neg pending, Nat.eq_zero_of_not_pos pending, Nat.cast_zero, add_zero]

/-- One state's overwrites tell apart what was pending: `[a]` from `[a, 0]` by the capacity. -/
theorem overwrite_inj {state : Lanes} {xs ys : List Fr} (shortX : xs.length ≤ rate)
    (shortY : ys.length ≤ rate) (same : overwrite state xs = overwrite state ys) : xs = ys := by
  have small : rate < 2 ^ 250 := by decide
  have lengths : xs.length = ys.length := by
    apply fr_natCast_inj (shortX.trans_lt small) (shortY.trans_lt small)
    apply add_left_cancel (a := state.capacity)
    rw [← overwrite_capacity, ← overwrite_capacity, same]
  match xs, ys, lengths with
  | [], [], _ => rfl
  | [x], [y], _ =>
    cases same
    rfl
  | [x, x'], [y, y'], _ =>
    cases same
    rfl
  | _ :: _ :: _ :: _, _, _ => exact absurd shortX (by simp [rate])

theorem absorptions_cons (state : Lanes) (x : Fr) (rest : List Fr) :
    ∃ others, absorptions permute state (x :: rest) =
      overwrite state ((x :: rest).take rate) :: others := by
  cases rest with
  | nil => exact ⟨[], rfl⟩
  | cons y rest => exact ⟨_, rfl⟩

theorem absorptions_inj : ∀ (state : Lanes) (xs ys : List Fr),
    absorptions permute state xs = absorptions permute state ys → xs = ys := by
  intro state xs
  induction state, xs using absorptions.induct permute with
  | case1 state =>
    intro ys same
    cases ys with
    | nil => rfl
    | cons y ys =>
      obtain ⟨others, listed⟩ := absorptions_cons permute state y ys
      rw [listed] at same
      cases same
  | case2 state x =>
    intro ys same
    match ys with
    | [] => cases same
    | [y] => exact overwrite_inj (Nat.le_succ 1) (Nat.le_succ 1) (List.cons.inj same).1
    | y :: y' :: ys =>
      have heads : [x] = [y, y'] :=
        overwrite_inj (Nat.le_succ 1) le_rfl (List.cons.inj same).1
      cases heads
  | case3 state x x' rest ih =>
    intro ys same
    match ys with
    | [] => cases same
    | [y] =>
      have heads : [x, x'] = [y] :=
        overwrite_inj le_rfl (Nat.le_succ 1) (List.cons.inj same).1
      cases heads
    | y :: y' :: ys =>
      obtain ⟨head, tail⟩ := List.cons.inj same
      have heads : [x, x'] = [y, y'] := overwrite_inj le_rfl le_rfl head
      cases heads
      rw [ih ys tail]

/-- Absorbing something never permutes what an idle sample permutes. -/
theorem absorptions_ne_idle {state : Lanes} {block : List Fr} {idle : List Lanes} (some : block ≠ [])
    (idles : idle = [] ∨ idle = [state]) : absorptions permute state block ≠ idle := by
  intro same
  cases block with
  | nil => exact some rfl
  | cons x rest =>
    obtain ⟨others, listed⟩ := absorptions_cons permute state x rest
    rw [listed] at same
    rcases idles with rfl | rfl
    · cases same
    · have squeezed : overwrite state ((x :: rest).take rate) = overwrite state [] :=
        (List.cons.inj same).1
      have none := overwrite_inj (List.length_take_le _ _) (Nat.zero_le _) squeezed
      cases none

/-- From one state, blocks that differ are told apart by what is permuted. -/
theorem run_ask_inj {t : Duplex} (empty : t.input = []) {xs ys : List Fr}
    (same : (run permute (ask xs) t).permuted = (run permute (ask ys) t).permuted) : xs = ys := by
  rw [run_ask_permuted permute xs t empty, run_ask_permuted permute ys t empty, List.append_assoc,
    List.append_assoc] at same
  have blocks := List.append_cancel_left same
  have idles : (if t.output.length = 0 then [t.state] else []) = [] ∨
      (if t.output.length = 0 then [t.state] else []) = [t.state] := by
    by_cases spent : t.output.length = 0
    · exact Or.inr (if_pos spent)
    · exact Or.inl (if_neg spent)
  by_cases noneX : xs = []
  · by_cases noneY : ys = []
    · rw [noneX, noneY]
    · simp only [noneX, noneY, absorptions, true_and, false_and, if_false, List.nil_append,
        List.append_nil] at blocks
      exact absurd blocks.symm (absorptions_ne_idle permute noneY idles)
  · by_cases noneY : ys = []
    · simp only [noneX, noneY, absorptions, true_and, false_and, if_false, List.nil_append,
        List.append_nil] at blocks
      exact absurd blocks (absorptions_ne_idle permute noneX idles)
    · simp only [noneX, noneY, false_and, if_false, List.append_nil] at blocks
      exact absorptions_inj permute t.state xs ys blocks

theorem run_asks_input (blocks : List (List Fr)) {t : Duplex} (empty : t.input = []) :
    (run permute (blocks.flatMap ask) t).input = [] := by
  induction blocks generalizing t with
  | nil => exact empty
  | cons block blocks ih =>
    rw [List.flatMap_cons, run_append]
    exact ih (run_ask_input permute block t)

/-- Two scripts that permute the same things through every sample up to one observed the
same before each. -/
theorem asked_eq_of_permuted {s t : List Op} : ∀ j, j < (asked s).length → j < (asked t).length →
    (∀ i, i ≤ j → (run permute (through i s) new).permuted =
      (run permute (through i t) new).permuted) →
    (asked s).take (j + 1) = (asked t).take (j + 1) := by
  intro j
  induction j with
  | zero =>
    intro insideS insideT same
    have first := same 0 le_rfl
    rw [through_eq s 0 insideS, through_eq t 0 insideT] at first
    obtain ⟨x, xs, blocksS⟩ := List.exists_cons_of_length_pos insideS
    obtain ⟨y, ys, blocksT⟩ := List.exists_cons_of_length_pos insideT
    simp only [blocksS, blocksT, zero_add, List.take_succ_cons, List.take_zero,
      List.flatMap_cons, List.flatMap_nil, List.append_nil] at first ⊢
    rw [run_ask_inj permute rfl first]
  | succ j ih =>
    intro insideS insideT same
    have before := ih (Nat.lt_of_succ_lt insideS) (Nat.lt_of_succ_lt insideT)
      fun i upTo => same i (Nat.le_succ_of_le upTo)
    have last := same (j + 1) le_rfl
    rw [through_eq s _ insideS, through_eq t _ insideT, List.take_succ_eq_append_getElem insideS,
      List.take_succ_eq_append_getElem insideT, before, List.flatMap_append, List.flatMap_append,
      run_append, run_append, List.flatMap_singleton, List.flatMap_singleton] at last
    rw [List.take_succ_eq_append_getElem insideS, List.take_succ_eq_append_getElem insideT, before,
      run_ask_inj permute (run_asks_input permute _ rfl) last]

/-- Scripts that observe different things before some sample permute different things at or
before it. -/
theorem exists_permuted_ne {s t : List Op} {j : ℕ} (insideS : j < (asked s).length)
    (insideT : j < (asked t).length) (differ : (asked s)[j]? ≠ (asked t)[j]?) :
    ∃ i ≤ j, (run permute (through i s) new).permuted ≠
      (run permute (through i t) new).permuted := by
  by_contra none
  have same := asked_eq_of_permuted permute j insideS insideT fun i upTo =>
    not_not.mp fun separate => none ⟨i, upTo, separate⟩
  apply differ
  calc (asked s)[j]? = ((asked s).take (j + 1))[j]? := List.getElem?_take_of_succ.symm
    _ = ((asked t).take (j + 1))[j]? := by rw [same]
    _ = (asked t)[j]? := List.getElem?_take_of_succ

end Separation

end Duplex

end Apogee
