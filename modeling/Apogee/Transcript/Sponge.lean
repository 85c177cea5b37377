import Apogee.Transcript.Typed

/-! # The transcript in its buffers

The transcript as the source keeps it: two fixed buffers with a length each, and a
record of the typed operations that feeds nothing. A snapshot is everything but the
record. What a transcript does is the duplex with its buffers padded by zeros, so a
restored transcript goes on as the one it was taken from.
-/

namespace Apogee

/-- One typed operation as a transcript records it: the payload's elements, or a draw. -/
inductive LoggedEvent
  | absorb (tag count : ℕ)
  | challenge (tag : ℕ)
deriving DecidableEq

/-- A rate's worth of lanes. -/
abbrev RateLanes := Fin 2 → Fr

/-- A transcript's complete sponge state. The lengths are bytes. -/
structure TranscriptSnapshot where
  state : Lanes
  input : RateLanes
  inputLen : ℕ
  output : RateLanes
  outputLen : ℕ
deriving DecidableEq

/-- The Poseidon2 duplex transcript, its events last. -/
structure Sponge where
  state : Lanes
  /-- Absorbed but not yet permuted. -/
  input : RateLanes
  inputLen : ℕ
  /-- Squeezed but not yet handed out; challenges leave from the end. -/
  output : RateLanes
  outputLen : ℕ
  events : List LoggedEvent

namespace Sponge

def new : Sponge := ⟨⟨0, 0, 0⟩, fun _ => 0, 0, fun _ => 0, 0, []⟩

/-- The lane an index names. The source panics past the rate. -/
def lane (i : ℕ) : Option (Fin 2) := if inside : i < 2 then some ⟨i, inside⟩ else none

/-- What `n` pending elements leave of the state: the rate is theirs, zero-filled, and the
capacity counts them. A pure squeeze leaves the state alone. -/
def overwrite (state : Lanes) (input : RateLanes) (n : ℕ) : Lanes :=
  if 0 < n then
    ⟨if 0 < n then input 0 else 0, if 1 < n then input 1 else 0, state.capacity + (n : Fr)⟩
  else state

variable (permute : Lanes → Lanes)

/-- One duplex step. More pending elements than lanes index past the state. -/
def duplex (t : Sponge) : Option Sponge :=
  if t.inputLen ≤ Duplex.rate then
    let state := permute (overwrite t.state t.input t.inputLen)
    some { t with
      state
      input := fun i => if (i : ℕ) < t.inputLen then 0 else t.input i
      inputLen := 0
      output := ![state.first, state.second]
      outputLen := Duplex.rate }
  else none

def observe (x : Fr) (t : Sponge) : Option Sponge := do
  let i ← lane t.inputLen
  let t := { t with
    input := Function.update t.input i x
    inputLen := t.inputLen + 1
    output := fun _ => 0
    outputLen := 0 }
  if t.inputLen = Duplex.rate then t.duplex permute else some t

def sample (t : Sponge) : Option (Fr × Sponge) := do
  let t ← if 0 < t.inputLen ∨ t.outputLen = 0 then t.duplex permute else some t
  let i ← lane (t.outputLen - 1)
  some (t.output i, { t with output := Function.update t.output i 0, outputLen := t.outputLen - 1 })

def observeEach (xs : List Fr) (t : Sponge) : Option Sponge :=
  xs.foldlM (fun t x => t.observe permute x) t

def record (event : LoggedEvent) (t : Sponge) : Sponge := { t with events := t.events ++ [event] }

/-- The framing and the payload of one message, recorded. -/
def append (tag length : ℕ) (xs : List Fr) (t : Sponge) : Option Sponge := do
  let t ← t.observe permute (tag : Fr)
  let t ← t.observe permute (length : Fr)
  let t ← t.observeEach permute xs
  some (t.record (.absorb tag xs.length))

def appendScalars (tag : ℕ) (xs : List Fr) (t : Sponge) : Option Sponge :=
  t.append permute tag xs.length xs

def appendScalar (tag : ℕ) (x : Fr) (t : Sponge) : Option Sponge := t.appendScalars permute tag [x]

/-- The bytes in chunks of 31, little-endian. -/
def appendBytes (tag : ℕ) (bytes : List UInt8) (t : Sponge) : Option Sponge :=
  t.append permute tag bytes.length
    ((Math.chunks 31 bytes).map fun chunk => (Math.leValue chunk : Fr))

def challengeScalar (tag : ℕ) (t : Sponge) : Option (Fr × Sponge) := do
  let t ← t.observe permute (tag : Fr)
  let (c, t) ← t.sample permute
  some (c, t.record (.challenge tag))

/-- Several challenges under one tag, in order. -/
def challengeScalars (tag : ℕ) : ℕ → Sponge → Option (List Fr × Sponge)
  | 0, t => some ([], t)
  | count + 1, t => do
    let (c, t) ← t.challengeScalar permute tag
    let (others, t) ← challengeScalars tag count t
    some (c :: others, t)

/-- Capture the sponge state and both buffers; a length is cast to a byte. -/
def snapshot (t : Sponge) : TranscriptSnapshot :=
  ⟨t.state, t.input, t.inputLen % 2 ^ 8, t.output, t.outputLen % 2 ^ 8⟩

/-- Rebuild a transcript from a snapshot, its record empty. -/
def restore (s : TranscriptSnapshot) : Sponge :=
  ⟨s.state, s.input, s.inputLen, s.output, s.outputLen, []⟩

/-- One operation on a transcript. -/
inductive Op
  | observe (x : Fr)
  | sample
  | appendScalar (tag : ℕ) (x : Fr)
  | appendScalars (tag : ℕ) (xs : List Fr)
  | appendBytes (tag : ℕ) (bytes : List UInt8)
  | challengeScalar (tag : ℕ)
deriving DecidableEq

/-- An operation's result, beside what it hands out. -/
def step : Op → Sponge → Option (List Fr × Sponge)
  | .observe x, t => (t.observe permute x).map ([], ·)
  | .sample, t => (t.sample permute).map fun drawn => ([drawn.1], drawn.2)
  | .appendScalar tag x, t => (t.appendScalar permute tag x).map ([], ·)
  | .appendScalars tag xs, t => (t.appendScalars permute tag xs).map ([], ·)
  | .appendBytes tag bytes, t => (t.appendBytes permute tag bytes).map ([], ·)
  | .challengeScalar tag, t => (t.challengeScalar permute tag).map fun drawn => ([drawn.1], drawn.2)

/-- A sequence of operations: everything handed out, and the transcript after. -/
def run : List Op → Sponge → Option (List Fr × Sponge)
  | [], t => some ([], t)
  | op :: ops, t => do
    let (first, t) ← t.step permute op
    let (others, t) ← run ops t
    some (first ++ others, t)

end Sponge

namespace Duplex

variable (permute : Lanes → Lanes)

/-- What is true between operations: fewer pending elements than lanes. -/
structure AtRest (d : Duplex) : Prop where
  input : d.input.length < rate
  output : d.output.length ≤ rate

theorem new_atRest : AtRest new := ⟨Nat.zero_lt_succ 1, Nat.zero_le rate⟩

theorem duplex_atRest (d : Duplex) : (d.duplex permute).AtRest := ⟨Nat.zero_lt_succ 1, le_rfl⟩

theorem observe_atRest {d : Duplex} (rest : d.AtRest) (x : Fr) : (d.observe permute x).AtRest := by
  unfold observe
  dsimp only
  by_cases full : (d.input ++ [x]).length = rate
  · rw [if_pos full]
    exact duplex_atRest permute _
  · rw [if_neg full]
    refine ⟨?_, Nat.zero_le rate⟩
    have pending := rest.input
    rw [List.length_append, List.length_singleton] at full
    change (d.input ++ [x]).length < rate
    rw [List.length_append, List.length_singleton]
    exact lt_of_le_of_ne pending full

theorem sample_atRest {d : Duplex} (rest : d.AtRest) : (d.sample permute).2.AtRest := by
  unfold sample
  dsimp only
  by_cases flush : 0 < d.input.length ∨ d.output.length = 0
  · rw [if_pos flush]
    exact ⟨Nat.zero_lt_succ 1, (List.dropLast_sublist _).length_le⟩
  · rw [if_neg flush]
    exact ⟨rest.input, (List.dropLast_sublist _).length_le.trans rest.output⟩

theorem foldl_observe_atRest (xs : List Fr) {d : Duplex} (rest : d.AtRest) :
    (xs.foldl (fun t x => t.observe permute x) d).AtRest := by
  induction xs generalizing d with
  | nil => exact rest
  | cons x xs ih => exact ih (observe_atRest permute rest x)

/-- An operation on the duplex: what it hands out, and the duplex after. -/
def perform : Sponge.Op → Duplex → List Fr × Duplex
  | .observe x, d => ([], d.observe permute x)
  | .sample, d => ([(d.sample permute).1], (d.sample permute).2)
  | .appendScalar tag x, d => ([], d.appendScalar permute tag x)
  | .appendScalars tag xs, d => ([], d.appendScalars permute tag xs)
  | .appendBytes tag bytes, d => ([], d.appendBytes permute tag bytes)
  | .challengeScalar tag, d =>
    ([(d.challengeScalar permute tag).1], (d.challengeScalar permute tag).2)

/-- A sequence of operations on the duplex. -/
def performs : List Sponge.Op → Duplex → List Fr × Duplex
  | [], d => ([], d)
  | op :: ops, d =>
    let first := d.perform permute op
    let others := performs ops first.2
    (first.1 ++ others.1, others.2)

end Duplex

namespace Sponge

/-- What an operation records. -/
def logged : Op → List LoggedEvent
  | .observe _ => []
  | .sample => []
  | .appendScalar tag _ => [.absorb tag 1]
  | .appendScalars tag xs => [.absorb tag xs.length]
  | .appendBytes tag bytes => [.absorb tag (Math.chunks 31 bytes).length]
  | .challengeScalar tag => [.challenge tag]

/-- A buffer's lanes: its elements, then zeros. -/
def lanes (xs : List Fr) : RateLanes := fun i => xs.getD i 0

/-- The transcript a duplex describes, with a record. -/
def of (events : List LoggedEvent) (d : Duplex) : Sponge :=
  ⟨d.state, lanes d.input, d.input.length, lanes d.output, d.output.length, events⟩

theorem new_eq : new = of [] Duplex.new := rfl

section Buffers

theorem lanes_nil : lanes [] = fun _ => 0 := rfl

/-- Writing at a buffer's length appends to it. -/
theorem update_lanes_append {xs : List Fr} (room : xs.length < 2) (x : Fr) :
    Function.update (lanes xs) ⟨xs.length, room⟩ x = lanes (xs ++ [x]) := by
  funext i
  by_cases here : i = ⟨xs.length, room⟩
  · subst here
    rw [Function.update_self]
    simp only [lanes, List.getD_eq_getElem?_getD, List.getElem?_concat_length, Option.getD_some]
  · rw [Function.update_of_ne here]
    have elsewhere : (i : ℕ) ≠ xs.length := fun same => here (Fin.ext same)
    simp only [lanes, List.getD_eq_getElem?_getD]
    by_cases inside : (i : ℕ) < xs.length
    · rw [List.getElem?_append_left inside]
    · have outside : xs.length + 1 ≤ (i : ℕ) :=
        lt_of_le_of_ne (Nat.not_lt.mp inside) elsewhere.symm
      rw [List.getElem?_eq_none (Nat.not_lt.mp inside), List.getElem?_eq_none]
      rw [List.length_append, List.length_singleton]
      exact outside

/-- Zeroing a buffer's last lane drops its last element. -/
theorem update_lanes_dropLast {xs : List Fr} (room : xs.length - 1 < 2) :
    Function.update (lanes xs) ⟨xs.length - 1, room⟩ 0 = lanes xs.dropLast := by
  funext i
  by_cases here : i = ⟨xs.length - 1, room⟩
  · subst here
    rw [Function.update_self]
    simp only [lanes, List.getD_eq_getElem?_getD, List.getElem?_dropLast, lt_irrefl, if_false,
      Option.getD_none]
  · rw [Function.update_of_ne here]
    have elsewhere : (i : ℕ) ≠ xs.length - 1 := fun same => here (Fin.ext same)
    simp only [lanes, List.getD_eq_getElem?_getD, List.getElem?_dropLast]
    by_cases inside : (i : ℕ) < xs.length - 1
    · rw [if_pos inside]
    · rw [if_neg inside, List.getElem?_eq_none (by omega)]

theorem overwrite_lanes (state : Lanes) (xs : List Fr) :
    overwrite state (lanes xs) xs.length = Duplex.overwrite state xs := by
  unfold overwrite Duplex.overwrite
  by_cases pending : 0 < xs.length
  · rw [if_pos pending, if_pos pending, if_pos pending]
    by_cases two : 1 < xs.length
    · rw [if_pos two]
      rfl
    · have absent : xs.getD 1 0 = 0 := by
        rw [List.getD_eq_getElem?_getD, List.getElem?_eq_none (Nat.not_lt.mp two), Option.getD_none]
      rw [if_neg two, absent]
      rfl
  · rw [if_neg pending, if_neg pending]

end Buffers

section Simulation

variable (permute : Lanes → Lanes) (events : List LoggedEvent)

theorem duplex_of {d : Duplex} (room : d.input.length ≤ Duplex.rate) :
    (of events d).duplex permute = some (of events (d.duplex permute)) := by
  have cleared : (fun i : Fin 2 => if (i : ℕ) < d.input.length then 0 else lanes d.input i) =
      lanes [] := by
    funext i
    by_cases inside : (i : ℕ) < d.input.length
    · rw [if_pos inside, lanes_nil]
    · rw [if_neg inside, lanes_nil, lanes, List.getD_eq_getElem?_getD,
        List.getElem?_eq_none (Nat.not_lt.mp inside), Option.getD_none]
  have squeezed : ∀ x y : Fr, (![x, y] : RateLanes) = lanes [x, y] := by
    intro x y
    funext i
    fin_cases i <;> rfl
  have same : overwrite d.state (lanes d.input) d.input.length = Duplex.overwrite d.state d.input :=
    overwrite_lanes d.state d.input
  simp only [duplex, of, if_pos room, same, Option.some.injEq, Sponge.mk.injEq]
  exact ⟨rfl, cleared, rfl, squeezed _ _, rfl, trivial⟩

theorem observe_of {d : Duplex} (rest : d.AtRest) (x : Fr) :
    (of events d).observe permute x = some (of events (d.observe permute x)) := by
  have found : lane (of events d).inputLen = some ⟨d.input.length, rest.input⟩ := dif_pos rest.input
  rw [observe, found, Option.bind_eq_bind, Option.bind_some]
  have pending : ({ of events d with
      input := Function.update (of events d).input ⟨d.input.length, rest.input⟩ x
      inputLen := (of events d).inputLen + 1
      output := fun _ => 0
      outputLen := 0 } : Sponge) = of events
        { d with output := [], input := d.input ++ [x], observed := d.observed ++ [x] } := by
    simp only [of, update_lanes_append rest.input, List.length_append, List.length_singleton,
      List.length_nil, lanes_nil]
  simp only [pending]
  unfold Duplex.observe
  dsimp only
  have length : (of events d).inputLen + 1 = (d.input ++ [x]).length :=
    (@List.length_append _ d.input [x]).symm
  rw [length]
  by_cases full : (d.input ++ [x]).length = Duplex.rate
  · rw [if_pos full, if_pos full]
    exact duplex_of permute events full.le
  · rw [if_neg full, if_neg full]

/-- What a sample hands out once its buffer is ready. -/
theorem pop_of {d : Duplex} (rest : d.AtRest) (some_ : d.output.length ≠ 0) :
    (lane ((of events d).outputLen - 1) >>= fun i => some ((of events d).output i,
      { of events d with
        output := Function.update (of events d).output i 0
        outputLen := (of events d).outputLen - 1 })) =
      some (d.output.getLastD 0, of events { d with output := d.output.dropLast }) := by
  have inside : d.output.length - 1 < 2 :=
    (Nat.sub_one_lt some_).trans_le rest.output
  have found : lane ((of events d).outputLen - 1) = some ⟨d.output.length - 1, inside⟩ :=
    dif_pos inside
  have last : lanes d.output ⟨d.output.length - 1, inside⟩ = d.output.getLastD 0 := by
    rw [lanes, List.getD_eq_getElem?_getD, ← List.getLast?_eq_getElem?, List.getLastD_eq_getLast?]
  rw [found, Option.bind_eq_bind, Option.bind_some]
  simp only [of, update_lanes_dropLast inside, last, List.length_dropLast]

theorem sample_of {d : Duplex} (rest : d.AtRest) : (of events d).sample permute =
    some ((d.sample permute).1, of events (d.sample permute).2) := by
  unfold sample Duplex.sample
  by_cases flush : 0 < d.input.length ∨ d.output.length = 0
  · have flushes : 0 < (of events d).inputLen ∨ (of events d).outputLen = 0 := flush
    simp only [if_pos flush, if_pos flushes, duplex_of permute events rest.input.le]
    exact pop_of events (Duplex.duplex_atRest permute d) (Nat.succ_ne_zero 1)
  · have keeps : ¬(0 < (of events d).inputLen ∨ (of events d).outputLen = 0) := flush
    simp only [if_neg flush, if_neg keeps]
    exact pop_of events rest fun empty => flush (Or.inr empty)

theorem observeEach_of (xs : List Fr) {d : Duplex} (rest : d.AtRest) :
    (of events d).observeEach permute xs =
      some (of events (xs.foldl (fun t x => t.observe permute x) d)) := by
  induction xs generalizing d with
  | nil => rfl
  | cons x xs ih =>
    rw [observeEach, List.foldlM_cons, observe_of permute events rest x, Option.bind_eq_bind,
      Option.bind_some]
    exact ih (Duplex.observe_atRest permute rest x)

theorem append_of (tag length : ℕ) (xs : List Fr) {d : Duplex} (rest : d.AtRest) :
    (of events d).append permute tag length xs =
      some (of (events ++ [.absorb tag xs.length]) (xs.foldl (fun t x => t.observe permute x)
        ((d.observe permute (tag : Fr)).observe permute (length : Fr)))) := by
  have tagged := Duplex.observe_atRest permute rest (tag : Fr)
  have framed := Duplex.observe_atRest permute tagged (length : Fr)
  simp only [append, observe_of permute events rest, observe_of permute events tagged,
    observeEach_of permute events xs framed, Option.bind_eq_bind, Option.bind_some]
  rfl

theorem challengeScalar_of (tag : ℕ) {d : Duplex} (rest : d.AtRest) :
    (of events d).challengeScalar permute tag = some ((d.challengeScalar permute tag).1,
        of (events ++ [.challenge tag]) (d.challengeScalar permute tag).2) := by
  have tagged := Duplex.observe_atRest permute rest (tag : Fr)
  simp only [challengeScalar, observe_of permute events rest, sample_of permute events tagged,
    Option.bind_eq_bind, Option.bind_some]
  rfl

theorem perform_atRest (op : Op) {d : Duplex} (rest : d.AtRest) :
    (d.perform permute op).2.AtRest := by
  have framed : ∀ (tag length : ℕ) (xs : List Fr), (xs.foldl (fun t x => t.observe permute x)
      ((d.observe permute (tag : Fr)).observe permute (length : Fr))).AtRest := fun tag length xs =>
    Duplex.foldl_observe_atRest permute xs
      (Duplex.observe_atRest permute (Duplex.observe_atRest permute rest _) _)
  cases op with
  | observe x => exact Duplex.observe_atRest permute rest x
  | sample => exact Duplex.sample_atRest permute rest
  | appendScalar tag x => exact framed tag 1 [x]
  | appendScalars tag xs => exact framed tag xs.length xs
  | appendBytes tag bytes => exact framed tag bytes.length _
  | challengeScalar tag =>
    exact Duplex.sample_atRest permute (Duplex.observe_atRest permute rest _)

/-- One operation on a transcript is the duplex's, whatever its record. -/
theorem step_of (op : Op) {d : Duplex} (rest : d.AtRest) : (of events d).step permute op =
    some ((d.perform permute op).1, of (events ++ logged op) (d.perform permute op).2) := by
  cases op with
  | observe x =>
    simp only [step, observe_of permute events rest, Option.map_some, Duplex.perform, logged,
      List.append_nil]
  | sample =>
    simp only [step, sample_of permute events rest, Option.map_some, Duplex.perform, logged,
      List.append_nil]
  | appendScalar tag x =>
    simp only [step, appendScalar, appendScalars, append_of permute events tag _ [x] rest,
      Option.map_some]
    rfl
  | appendScalars tag xs =>
    simp only [step, appendScalars, append_of permute events tag _ xs rest, Option.map_some]
    rfl
  | appendBytes tag bytes =>
    simp only [step, appendBytes, append_of permute events tag _ _ rest, Option.map_some,
      List.length_map]
    rfl
  | challengeScalar tag =>
    simp only [step, challengeScalar_of permute events tag rest, Option.map_some]
    rfl

theorem performs_atRest (ops : List Op) {d : Duplex} (rest : d.AtRest) :
    (d.performs permute ops).2.AtRest := by
  induction ops generalizing d with
  | nil => exact rest
  | cons op ops ih => exact ih (perform_atRest permute op rest)

/-- A sequence of operations on a transcript is the duplex's: it never panics, and its
record feeds nothing. -/
theorem run_of (ops : List Op) {d : Duplex} (rest : d.AtRest) : (of events d).run permute ops =
    some ((d.performs permute ops).1,
      of (events ++ ops.flatMap logged) (d.performs permute ops).2) := by
  induction ops generalizing d events with
  | nil => rw [run, Duplex.performs, List.flatMap_nil, List.append_nil]
  | cons op ops ih =>
    rw [run, step_of permute events op rest, Option.bind_eq_bind, Option.bind_some]
    dsimp only
    rw [ih (events ++ logged op) (perform_atRest permute op rest), Option.bind_some,
      List.flatMap_cons, ← List.append_assoc]
    rfl

end Simulation

section Resume

variable (permute : Lanes → Lanes)

/-- A snapshot holds everything but the record. -/
theorem restore_snapshot_of (events : List LoggedEvent) {d : Duplex} (rest : d.AtRest) :
    restore (of events d).snapshot = of [] d := by
  have short : d.input.length < 2 ^ 8 := rest.input.trans (by decide)
  have ready : d.output.length < 2 ^ 8 := rest.output.trans_lt (by decide)
  simp only [restore, snapshot, of, Nat.mod_eq_of_lt short, Nat.mod_eq_of_lt ready]

/-- A transcript restored from a snapshot taken after any operations hands out, on any
operations after it, what the original does, and its snapshots are the original's. -/
theorem run_restore (before after : List Op) : ∃ drawn t, run permute before new = some (drawn, t) ∧
    ∃ challenges original resumed, run permute after t = some (challenges, original) ∧
      run permute after (restore t.snapshot) = some (challenges, resumed) ∧
      resumed.snapshot = original.snapshot := by
  have rest := performs_atRest permute before Duplex.new_atRest
  have resumed := run_of permute [] after rest
  rw [← restore_snapshot_of ([] ++ before.flatMap logged) rest] at resumed
  exact ⟨_, _, run_of permute [] before Duplex.new_atRest, _, _, _, run_of permute _ after rest,
    resumed, rfl⟩

end Resume

end Sponge

end Apogee
