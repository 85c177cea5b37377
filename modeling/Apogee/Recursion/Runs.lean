import Apogee.Math.LimbChains
import Apogee.Recursion.Tape

/-! # What a builder's calls do

A builder's calls run from any memory the tape is valid for, and leave every cell
below a mark alone. The rules compose as the builders do: a fresh result, a call
in place on a cell no constant names, and one builder after another.
-/

namespace Apogee.Recursion

open Math

section Run

variable {permute : Lanes → Lanes}

theorem run_append (ops rest : List Op) (m : FieldMemory) :
    run permute (ops ++ rest) m = (run permute ops m).bind (run permute rest) :=
  List.foldlM_append

theorem run_singleton (op : Op) (m : FieldMemory) : run permute [op] m = op.step permute m := by
  rw [run, List.foldlM_cons]
  exact Option.bind_fun_some _

end Run

/-- The number a constant's words make. -/
def wordsValue (w : List ℕ) : ℕ := limbSum (2 ^ 32) (fun k => w.getD k 0) 8

namespace Tape

/-- What a memory holds for a tape: zeros where a transcript starts, and every
constant in its cell. -/
structure Valid (t : Tape) (m : FieldMemory) : Prop where
  room : 3 ≤ t.next
  zeros : ∀ c < 3, m c = 0
  constants : ∀ entry ∈ t.constants, entry.2 < t.next ∧ m entry.2 = ((wordsValue entry.1 : ℕ) : Fr)

/-- A cell that a call in place may write. -/
structure Free (t : Tape) (c : ℕ) : Prop where
  low : 3 ≤ c
  below : c < t.next
  apart : ∀ entry ∈ t.constants, entry.2 ≠ c

/-- A tape's memory runs its further calls, keeping the cells below a mark. -/
structure Advances (permute : Lanes → Lanes) (mark : ℕ) (t : Tape) (m : FieldMemory) (t' : Tape)
    (m' : FieldMemory) : Prop where
  runs : ∃ ops, t'.ops = t.ops ++ ops ∧ run permute ops m = some m'
  grows : t.next ≤ t'.next
  kept : ∀ c < mark, m' c = m c
  valid : t'.Valid m'

theorem valid_new {first : ℕ} {m : FieldMemory} (room : 3 ≤ first) (zeros : ∀ c < 3, m c = 0) :
    (new first).Valid m :=
  ⟨room, zeros, fun _ member => absurd member List.not_mem_nil⟩

namespace Advances

variable {permute : Lanes → Lanes} {mark : ℕ} {t t' t'' : Tape} {m m' m'' : FieldMemory}

theorem refl (valid : t.Valid m) : Advances permute mark t m t m :=
  ⟨⟨[], (List.append_nil _).symm, rfl⟩, le_rfl, fun _ _ => rfl, valid⟩

theorem trans (first : Advances permute mark t m t' m')
    (second : Advances permute mark t' m' t'' m'') : Advances permute mark t m t'' m'' := by
  obtain ⟨ops, opsEq, opsRun⟩ := first.runs
  obtain ⟨rest, restEq, restRun⟩ := second.runs
  refine ⟨⟨ops ++ rest, ?_, ?_⟩, first.grows.trans second.grows, fun c below => ?_, second.valid⟩
  · rw [restEq, opsEq, List.append_assoc]
  · rw [run_append, opsRun, Option.bind_some, restRun]
  · rw [second.kept c below, first.kept c below]

theorem weaken {low : ℕ} (advances : Advances permute mark t m t' m') (below : low ≤ mark) :
    Advances permute low t m t' m' :=
  ⟨advances.runs, advances.grows, fun c under => advances.kept c (lt_of_lt_of_le under below),
    advances.valid⟩

end Advances

end Tape

open Tape

/-- A builder's calls run from a memory, and what they answer is as the
postcondition says. -/
def Build.Runs {α : Type} (permute : Lanes → Lanes) (mark : ℕ) (t : Tape) (m : FieldMemory)
    (build : Build α) (post : α → Tape → FieldMemory → Prop) : Prop :=
  ∃ m', Advances permute mark t m (build t).2 m' ∧ post (build t).1 (build t).2 m'

namespace Build.Runs

variable {permute : Lanes → Lanes} {mark : ℕ} {t : Tape} {m : FieldMemory} {α β : Type}
  {build : Build α} {post : α → Tape → FieldMemory → Prop}

theorem pure {a : α} (valid : t.Valid m) (holds : post a t m) :
    Build.Runs permute mark t m (Pure.pure a) post :=
  ⟨m, Advances.refl valid, holds⟩

theorem bind {f : α → Build β} {next : β → Tape → FieldMemory → Prop}
    (first : Build.Runs permute mark t m build post)
    (rest : ∀ a t' m', Advances permute mark t m t' m' → post a t' m' →
      Build.Runs permute mark t' m' (f a) next) :
    Build.Runs permute mark t m (build >>= f) next := by
  obtain ⟨m', advances, holds⟩ := first
  obtain ⟨m'', further, answers⟩ := rest _ _ m' advances holds
  exact ⟨m'', advances.trans further, answers⟩

theorem mono {next : α → Tape → FieldMemory → Prop} (first : Build.Runs permute mark t m build post)
    (implies : ∀ a t' m', Advances permute mark t m t' m' → post a t' m' → next a t' m') :
    Build.Runs permute mark t m build next := by
  obtain ⟨m', advances, holds⟩ := first
  exact ⟨m', advances, implies _ _ _ advances holds⟩

theorem weaken {low : ℕ} (first : Build.Runs permute mark t m build post) (below : low ≤ mark) :
    Build.Runs permute low t m build post := by
  obtain ⟨m', advances, holds⟩ := first
  exact ⟨m', advances.weaken below, holds⟩

/-- One builder, which keeps every cell used so far, and then the rest. -/
theorem keep {f : α → Build β} {next : β → Tape → FieldMemory → Prop} (low : mark ≤ t.next)
    (first : Build.Runs permute t.next t m build post)
    (rest : ∀ a t' m', Advances permute t.next t m t' m' → post a t' m' →
      Build.Runs permute mark t' m' (f a) next) :
    Build.Runs permute mark t m (build >>= f) next := by
  obtain ⟨m', advances, holds⟩ := first
  obtain ⟨m'', further, answers⟩ := rest _ _ m' advances holds
  exact ⟨m'', (advances.weaken low).trans further, answers⟩

end Build.Runs

namespace Tape

section Rules

variable {permute : Lanes → Lanes} {mark : ℕ} {t : Tape} {m m' : FieldMemory}

/-- Fresh cells. -/
theorem runs_fresh (n : ℕ) (valid : t.Valid m) :
    Build.Runs permute mark t m (fresh n) fun c t' after =>
      c = t.next ∧ t' = { t with next := t.next + n } ∧ after = m := by
  refine ⟨m, ⟨⟨[], (List.append_nil _).symm, rfl⟩, Nat.le_add_right _ _, fun _ _ => rfl, ?_⟩,
    rfl, rfl, rfl⟩
  exact ⟨valid.room.trans (Nat.le_add_right _ _), valid.zeros, fun entry member =>
    ⟨lt_of_lt_of_le (valid.constants entry member).1 (Nat.le_add_right _ _),
      (valid.constants entry member).2⟩⟩

/-- One call, which leaves the cells below a mark and the constants alone. -/
theorem runs_push {op : Op} (valid : t.Valid m) (step : op.step permute m = some m')
    (zeros : ∀ c < 3, m' c = m c) (kept : ∀ c < mark, m' c = m c)
    (constants : ∀ entry ∈ t.constants, m' entry.2 = m entry.2) :
    Build.Runs permute mark t m (push op) fun _ t' after =>
      t'.next = t.next ∧ t'.constants = t.constants ∧ after = m' := by
  refine ⟨m', ⟨⟨[op], rfl, ?_⟩, le_rfl, kept, ⟨valid.room, fun c low => ?_, fun entry member => ?_⟩⟩,
    rfl, rfl, rfl⟩
  · rw [run_singleton, step]
  · rw [zeros c low, valid.zeros c low]
  · rw [constants entry member]
    exact valid.constants entry member

/-- A call that writes one cell in place. -/
theorem runs_inPlace {code d a b : ℕ} {v : Fr} (valid : t.Valid m) (free : t.Free d)
    (above : mark ≤ d) (step : Op.step permute m (.fr code d a b) = some (Function.update m d v)) :
    Build.Runs permute mark t m (fr code d a b) fun _ t' after =>
      t'.next = t.next ∧ t'.constants = t.constants ∧ after = Function.update m d v := by
  have other {c : ℕ} (apart : c ≠ d) : Function.update m d v c = m c :=
    Function.update_of_ne apart v m
  have low := free.low
  exact runs_push valid step (fun c below => other (by omega)) (fun c below => other (by omega))
    fun entry member => other (free.apart entry member)

/-- A tape's next cell is free once allocated. -/
theorem Valid.free_allocated {t' : Tape} (valid : t.Valid m) (grows : t.next < t'.next)
    (constants : t'.constants = t.constants) : t'.Free t.next := by
  refine ⟨valid.room, grows, fun entry member => ?_⟩
  rw [constants] at member
  exact (valid.constants entry member).1.ne

/-- A fresh cell is free. -/
theorem Valid.free_next (valid : t.Valid m) (n : ℕ) (positive : 0 < n) :
    Free { t with next := t.next + n } t.next :=
  valid.free_allocated (Nat.lt_add_of_pos_right positive) rfl

/-- A free cell stays free as further cells are allocated. -/
theorem Free.grow {t' : Tape} {c : ℕ} (free : t.Free c) (grows : t.next ≤ t'.next)
    (constants : t'.constants = t.constants) : t'.Free c :=
  ⟨free.low, lt_of_lt_of_le free.below grows, by rw [constants]; exact free.apart⟩

/-- A field operation into a fresh cell. -/
theorem runs_result {code a b : ℕ} {v : Fr} (valid : t.Valid m)
    (step : ∀ d, Op.step permute m (.fr code d a b) = some (Function.update m d v)) :
    Build.Runs permute t.next t m (result code a b) fun c t' after =>
      c = t.next ∧ t'.next = t.next + 1 ∧ t'.constants = t.constants ∧
        after = Function.update m t.next v := by
  refine Build.Runs.bind (runs_fresh 1 valid) fun c t' m' advances fresh => ?_
  obtain ⟨rfl, rfl, rfl⟩ := fresh
  refine Build.Runs.bind (runs_inPlace advances.valid (valid.free_next 1 one_pos) le_rfl (step _))
    fun _ t' after advances wrote => ?_
  obtain ⟨following, constants, rfl⟩ := wrote
  exact Build.Runs.pure advances.valid ⟨rfl, following, constants, rfl⟩

/-- What a builder's answer holds. -/
def Holds (v : Fr) (c : ℕ) (t : Tape) (m : FieldMemory) : Prop := c < t.next ∧ m c = v

/-- A cell used so far keeps what it holds. -/
theorem Holds.later {v : Fr} {c : ℕ} {t' : Tape} (holds : Holds v c t m)
    (advances : Advances permute t.next t m t' m') : Holds v c t' m' :=
  ⟨lt_of_lt_of_le holds.1 advances.grows, (advances.kept c holds.1).trans holds.2⟩

theorem runs_sub (valid : t.Valid m) (a b : ℕ) :
    Build.Runs permute t.next t m (sub a b) (Holds (m a - m b)) := by
  refine (runs_result valid fun d => rfl).mono fun c t' m' _ made => ?_
  obtain ⟨rfl, following, _, rfl⟩ := made
  exact ⟨by omega, Function.update_self _ _ _⟩

/-- A copy, in the next cell. -/
theorem runs_copy (valid : t.Valid m) (a : ℕ) :
    Build.Runs permute t.next t m (copy a) fun c t' after =>
      c = t.next ∧ t'.next = t.next + 1 ∧ t'.constants = t.constants ∧
        after = Function.update m t.next (m a) := by
  refine runs_result valid fun d => ?_
  have sum : Op.step permute m (.fr FrOp.add d a zero) =
      some (Function.update m d (m a + m zero)) := rfl
  rw [sum, valid.zeros zero (by decide), add_zero]

/-- An assertion that holds. -/
theorem runs_assertEq (valid : t.Valid m) {a b : ℕ} (same : m a = m b) :
    Build.Runs permute mark t m (assertEq a b) fun _ t' after =>
      t'.next = t.next ∧ t'.constants = t.constants ∧ after = m := by
  refine runs_push valid ?_ (fun _ _ => rfl) (fun _ _ => rfl) fun _ _ => rfl
  exact if_pos same

end Rules

section Constants

variable {permute : Lanes → Lanes} {mark : ℕ} {t : Tape} {m : FieldMemory}

/-- Without a top word every word is zero. -/
theorem getD_of_topWord_none {w : List ℕ} {count : ℕ} (none : topWord w count = none) :
    ∀ k < count, w.getD k 0 = 0 := by
  induction count with
  | zero => exact fun k below => absurd below (Nat.not_lt_zero k)
  | succ count ih =>
    rw [topWord] at none
    by_cases nonzero : w.getD count 0 ≠ 0
    · rw [if_pos nonzero] at none
      exact absurd none (Option.some_ne_none count)
    · rw [if_neg nonzero] at none
      intro k below
      by_cases inside : k < count
      · exact ih none k inside
      · rw [show k = count by omega, not_not.mp nonzero]

/-- The words above the top one are zero. -/
theorem getD_of_topWord_some {w : List ℕ} {count top : ℕ} (found : topWord w count = some top) :
    top < count ∧ ∀ k < count, top < k → w.getD k 0 = 0 := by
  induction count with
  | zero => cases found
  | succ count ih =>
    rw [topWord] at found
    by_cases nonzero : w.getD count 0 ≠ 0
    · rw [if_pos nonzero, Option.some.injEq] at found
      rw [← found]
      exact ⟨Nat.lt_succ_self count, fun k below above => by omega⟩
    · rw [if_neg nonzero] at found
      obtain ⟨inside, zeros⟩ := ih found
      refine ⟨Nat.lt_succ_of_lt inside, fun k below above => ?_⟩
      by_cases lower : k < count
      · exact zeros k lower above
      · rw [show k = count by omega, not_not.mp nonzero]

theorem wordsValue_eq {w : List ℕ} {top : ℕ} (inside : top < 8)
    (zeros : ∀ k < 8, top < k → w.getD k 0 = 0) :
    wordsValue w = limbSum (2 ^ 32) (fun k => w.getD k 0) (top + 1) := by
  have extend (count : ℕ) (few : top + 1 + count ≤ 8) :
      limbSum (2 ^ 32) (fun k => w.getD k 0) (top + 1 + count) =
        limbSum (2 ^ 32) (fun k => w.getD k 0) (top + 1) := by
    induction count with
    | zero => rfl
    | succ count ih =>
      rw [← Nat.add_assoc, limbSum_succ, ih (by omega), zeros _ (by omega) (by omega), mul_zero,
        add_zero]
  have whole := extend (8 - (top + 1)) (by omega)
  rwa [show top + 1 + (8 - (top + 1)) = 8 by omega] at whole

/-- Shifting words in below a value. -/
theorem runs_shiftWords (w : List ℕ) {c : ℕ} (valid : t.Valid m) (free : t.Free c) (above : mark ≤ c)
    (k : ℕ) : Build.Runs permute mark t m (shiftWords w c k) fun _ t' after =>
      t'.next = t.next ∧ t'.constants = t.constants ∧
        after = Function.update m c (m c * (((2 ^ 32) ^ k : ℕ) : Fr) +
          ((limbSum (2 ^ 32) (fun i => w.getD i 0) k : ℕ) : Fr)) := by
  induction k generalizing t m with
  | zero =>
    refine Build.Runs.pure valid ⟨rfl, rfl, ?_⟩
    simp [limbSum_zero]
  | succ k ih =>
    refine Build.Runs.bind (runs_inPlace valid free above rfl) fun _ t' m' advances wrote => ?_
    obtain ⟨following, constants, rfl⟩ := wrote
    have stays : t'.Free c := ⟨free.low, by rw [following]; exact free.below,
      by rw [constants]; exact free.apart⟩
    refine (ih advances.valid stays).mono fun _ t'' m'' _ wrote => ?_
    obtain ⟨following', constants', rfl⟩ := wrote
    refine ⟨following'.trans following, constants'.trans constants, ?_⟩
    rw [Function.update_idem, Function.update_self]
    congr 1
    rw [limbSum_succ]
    push_cast
    ring

/-- A constant's cell holds its value. -/
theorem runs_words (w : List ℕ) (valid : t.Valid m) :
    Build.Runs permute t.next t m (words w) (Holds ((wordsValue w : ℕ) : Fr)) := by
  cases found : topWord w 8 with
  | none =>
    have value : wordsValue w = 0 := by
      rw [wordsValue, limbSum]
      refine Finset.sum_eq_zero fun k member => ?_
      rw [getD_of_topWord_none found k (Finset.mem_range.mp member), mul_zero]
    have built : words w t = (zero, t) := by rw [words, found]
    rw [Build.Runs, built, value, Nat.cast_zero]
    exact ⟨m, Advances.refl valid, lt_of_lt_of_le (show zero < 3 by decide) valid.room,
      valid.zeros zero (by decide)⟩
  | some place =>
    obtain ⟨inside, zeros⟩ := getD_of_topWord_some found
    cases known : t.constants.lookup w with
    | some c =>
      have built : words w t = (c, t) := by rw [words, found, known]
      rw [Build.Runs, built]
      obtain ⟨before, after, split, _⟩ := List.lookup_eq_some_iff.mp known
      exact ⟨m, Advances.refl valid, valid.constants (w, c) (by
        rw [split]
        exact List.mem_append_right _ List.mem_cons_self)⟩
    | none =>
      have made : Build.Runs permute t.next t m (do
          let c ← fresh 1
          fr FrOp.imm c zero (w.getD place 0)
          shiftWords w c place
          insert w c
          pure c) (Holds ((wordsValue w : ℕ) : Fr)) := by
        refine Build.Runs.bind (runs_fresh 1 valid) fun c t' m' advances fresh => ?_
        obtain ⟨rfl, rfl, same⟩ := fresh
        have free := valid.free_next 1 one_pos
        refine Build.Runs.bind (runs_inPlace advances.valid free le_rfl rfl)
          fun _ t' m'' advances wrote => ?_
        obtain ⟨following, constants, rfl⟩ := wrote
        have stays : t'.Free t.next := ⟨free.low, by rw [following]; exact free.below,
          by rw [constants]; exact free.apart⟩
        refine Build.Runs.bind (runs_shiftWords w advances.valid stays le_rfl place)
          fun _ t'' m'' advances wrote => ?_
        obtain ⟨following', constants', rfl⟩ := wrote
        have value : Function.update (Function.update m' t.next ((w.getD place 0 : ℕ) : Fr)) t.next
              (Function.update m' t.next ((w.getD place 0 : ℕ) : Fr) t.next *
                (((2 ^ 32) ^ place : ℕ) : Fr) +
                  ((limbSum (2 ^ 32) (fun i => w.getD i 0) place : ℕ) : Fr)) t.next =
            ((wordsValue w : ℕ) : Fr) := by
          rw [Function.update_self, Function.update_self, wordsValue_eq inside zeros,
            limbSum_succ]
          push_cast
          ring
        have below : t.next < t''.next := by
          rw [following', following]
          exact Nat.lt_succ_self _
        refine ⟨_, ⟨⟨[], (List.append_nil _).symm, rfl⟩, le_rfl, fun _ _ => rfl,
          ⟨advances.valid.room, advances.valid.zeros, fun entry member => ?_⟩⟩, below, value⟩
        rcases List.mem_cons.mp member with rfl | old
        · exact ⟨below, value⟩
        · exact advances.valid.constants entry old
      have built : words w t = (do
          let c ← fresh 1
          fr FrOp.imm c zero (w.getD place 0)
          shiftWords w c place
          insert w c
          pure c : Build ℕ) t := by rw [words, found, known]
      rw [Build.Runs, built]
      exact made

/-- A 64-bit number's cell. -/
theorem runs_small {v : ℕ} (valid : t.Valid m) (narrow : v < 2 ^ 64) :
    Build.Runs permute t.next t m (small v) (Holds ((v : ℕ) : Fr)) := by
  have value : wordsValue [v % 2 ^ 32, v / 2 ^ 32 % 2 ^ 32, 0, 0, 0, 0, 0, 0] = v := by
    simp only [wordsValue, limbSum, Finset.sum_range_succ, Finset.sum_range_zero, List.getD_cons_zero,
      List.getD_cons_succ]
    omega
  have built := @runs_words permute t m [v % 2 ^ 32, v / 2 ^ 32 % 2 ^ 32, 0, 0, 0, 0, 0, 0] valid
  rwa [value] at built

end Constants

section InPlace

variable {permute : Lanes → Lanes} {mark : ℕ} {t : Tape} {m : FieldMemory}

/-- An element is its low byte, and a byte's shift of the rest. -/
theorem digit_rest (x : Fr) :
    (x - ((x.val % 2 ^ FrOp.digitBits : ℕ) : Fr)) * ((2 ^ FrOp.digitBits : ℕ) : Fr)⁻¹ =
      ((x.val / 2 ^ FrOp.digitBits : ℕ) : Fr) := by
  have unit : ((2 ^ FrOp.digitBits : ℕ) : Fr) ≠ 0 :=
    fr_natCast_ne_zero (by norm_num) (by norm_num [FrOp.digitBits])
  have parts := congrArg (Nat.cast (R := Fr)) (Nat.mod_add_div x.val (2 ^ FrOp.digitBits))
  rw [ZMod.natCast_zmod_val] at parts
  rw [mul_inv_eq_iff_eq_mul₀ unit]
  push_cast at parts ⊢
  linear_combination -parts

/-- A digit off a cell: the byte in one cell, the rest in place. -/
theorem runs_digit {d rest : ℕ} (valid : t.Valid m) (dFree : t.Free d) (restFree : t.Free rest)
    (dAbove : mark ≤ d) (restAbove : mark ≤ rest) :
    Build.Runs permute mark t m (fr FrOp.digit d rest rest) fun _ t' after =>
      t'.next = t.next ∧ t'.constants = t.constants ∧ after = Function.update
          (Function.update m rest (((m rest).val / 2 ^ FrOp.digitBits : ℕ) : Fr)) d
            (((m rest).val % 2 ^ FrOp.digitBits : ℕ) : Fr) := by
  have other {c : ℕ} (left : c ≠ d) (right : c ≠ rest) (x y : Fr) :
      Function.update (Function.update m rest x) d y c = m c := by
    rw [Function.update_of_ne left, Function.update_of_ne right]
  have dLow := dFree.low
  have restLow := restFree.low
  refine runs_push valid ?_ (fun c below => other (by omega) (by omega) _ _)
    (fun c below => other (by omega) (by omega) _ _)
    fun entry member => other (dFree.apart entry member) (restFree.apart entry member) _ _
  rw [← digit_rest]
  rfl

/-- A tape's next cells and constants are another's. -/
theorem Free.congr {t' : Tape} {c : ℕ} (free : t.Free c) (following : t'.next = t.next)
    (constants : t'.constants = t.constants) : t'.Free c :=
  free.grow following.ge constants

end InPlace

end Tape

end Apogee.Recursion
