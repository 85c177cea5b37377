import Apogee.Recursion.Runs

/-! # Range checks by digits

A digit's circuit asserts only that an element is a byte and 256 times a rest; the
prover picks both. A chain of digits is still a range check, since it is short and
ends in an assertion. Here a run is any choice of digits, what every choice forces
is composed as builders are, and the honest run is one choice.
-/

namespace Apogee.Recursion

open Tape Math

/-! ## The checks -/

section Checks

/-- Digits taken off a cell, each into one cell. -/
def digits (digit rest : ℕ) : ℕ → Build Unit
  | 0 => pure ()
  | count + 1 => do
      fr FrOp.digit digit rest rest
      digits digit rest count

/-- `x < 2^bits`, consuming a copy of `x`: a digit a byte, then a part byte held
below its power from both sides. -/
def below (x bits : ℕ) : Build Unit := do
  let rest ← copy x
  let digit ← fresh 1
  digits digit rest (bits / 8)
  if 0 < bits % 8 then do
    let shifted ← Tape.small (256 - 2 ^ (bits % 8))
    let lifted ← add rest shifted
    fr FrOp.digit digit rest rest
    assertEq rest zero
    fr FrOp.digit digit lifted lifted
    assertEq lifted zero
  else assertEq rest zero

/-- A word's bytes by their digits, each past the length held to 0. -/
def digitBytes (len rest : ℕ) : ℕ → ℕ → Build (List ℕ)
  | _, 0 => pure []
  | place, count + 1 => do
      let byte ← fresh 1
      fr FrOp.digit byte rest rest
      if place < len then do
        let others ← digitBytes len rest (place + 1) count
        pure (byte :: others)
      else do
        assertEq byte zero
        digitBytes len rest (place + 1) count

/-- Payload words' bytes, from a place on. -/
def payloadBytes (len : ℕ) : ℕ → List ℕ → Build (List ℕ)
  | _, [] => pure []
  | place, word :: words => do
      let rest ← copy word
      let first ← digitBytes len rest place 4
      assertEq rest zero
      let others ← payloadBytes len (place + 4) words
      pure (first ++ others)

/-- A public window's bytes from its words: word 0 held to the length, then each
payload word's four bytes. `none` is the source's assertion of one word a four
bytes. -/
def windowBytes (words : List ℕ) (len : ℕ) : Option (Build (List ℕ)) :=
  if words.length = 1 + (len + 3) / 4 then
    some do
      let length ← Tape.small len
      assertEq (words.getD 0 zero) length
      payloadBytes len 0 words.tail
  else none

end Checks

section Choices

variable (permute : Lanes → Lanes)

/-- One call as its circuit asserts it. -/
inductive Op.Chosen (m : FieldMemory) : Op → FieldMemory → Prop
  | digit {d a b : ℕ} (byte : ℕ) (rest : Fr) (small : byte < 2 ^ FrOp.digitBits)
      (splits : m a = (byte : Fr) + ((2 ^ FrOp.digitBits : ℕ) : Fr) * rest) :
      Op.Chosen m (.fr FrOp.digit d a b)
        (Function.update (Function.update m b rest) d (byte : Fr))
  | other {op : Op} {m' : FieldMemory} (plain : ∀ d a b, op ≠ .fr FrOp.digit d a b)
      (ran : op.step permute m = some m') : Op.Chosen m op m'

/-- A tape's calls under some choice of digits. -/
def Choices : List Op → FieldMemory → FieldMemory → Prop
  | [], m, m' => m' = m
  | op :: ops, m, m'' => ∃ m', op.Chosen permute m m' ∧ Choices ops m' m''

/-- A builder's calls under some choice of digits. -/
def Build.Chosen {α : Type} (t : Tape) (m : FieldMemory) (build : Build α) (m' : FieldMemory) :
    Prop :=
  ∃ ops, (build t).2.ops = t.ops ++ ops ∧ Choices permute ops m m'

/-- Some choice of digits passes a builder's assertions. -/
def Build.Passes {α : Type} (t : Tape) (m : FieldMemory) (build : Build α) : Prop :=
  ∃ m', build.Chosen permute t m m'

variable {permute}

theorem choices_append {ops rest : List Op} {m m'' : FieldMemory} :
    Choices permute (ops ++ rest) m m'' ↔
      ∃ m', Choices permute ops m m' ∧ Choices permute rest m' m'' := by
  induction ops generalizing m with
  | nil =>
    constructor
    · intro chosen
      exact ⟨m, rfl, chosen⟩
    · rintro ⟨m', rfl, chosen⟩
      exact chosen
  | cons op ops ih =>
    constructor
    · rintro ⟨m₁, first, chosen⟩
      obtain ⟨m', before, after⟩ := ih.mp chosen
      exact ⟨m', ⟨m₁, first, before⟩, after⟩
    · rintro ⟨m', ⟨m₁, first, before⟩, after⟩
      exact ⟨m₁, first, ih.mpr ⟨m', before, after⟩⟩

theorem choices_singleton {op : Op} {m m' : FieldMemory} :
    Choices permute [op] m m' ↔ op.Chosen permute m m' := by
  constructor
  · rintro ⟨m₁, chosen, rfl⟩
    exact chosen
  · intro chosen
    exact ⟨m', chosen, rfl⟩

/-- The honest call is a choice. -/
theorem chosen_of_step {op : Op} {m m' : FieldMemory} (ran : op.step permute m = some m') :
    op.Chosen permute m m' := by
  by_cases digit : ∃ d a b, op = .fr FrOp.digit d a b
  · obtain ⟨d, a, b, rfl⟩ := digit
    cases ran
    refine .digit _ _ (Nat.mod_lt _ (by norm_num)) ?_
    have unit : ((2 ^ FrOp.digitBits : ℕ) : Fr) ≠ 0 :=
      fr_natCast_ne_zero (by norm_num) (by norm_num [FrOp.digitBits])
    rw [mul_comm, inv_mul_cancel_right₀ unit, add_sub_cancel]
  · exact .other (fun d a b same => digit ⟨d, a, b, same⟩) ran

theorem choices_of_run {ops : List Op} {m m' : FieldMemory} (ran : run permute ops m = some m') :
    Choices permute ops m m' := by
  induction ops generalizing m with
  | nil =>
    cases ran
    rfl
  | cons op ops ih =>
    rw [run, List.foldlM_cons, Option.bind_eq_bind, Option.bind_eq_some_iff] at ran
    obtain ⟨m₁, first, rest⟩ := ran
    exact ⟨m₁, chosen_of_step first, ih rest⟩

/-- An honest run passes. -/
theorem Build.Runs.passes {α : Type} {mark : ℕ} {t : Tape} {m : FieldMemory} {build : Build α}
    {post : α → Tape → FieldMemory → Prop} (runs : Build.Runs permute mark t m build post) :
    build.Passes permute t m := by
  obtain ⟨m', advances, -⟩ := runs
  obtain ⟨ops, opsEq, ran⟩ := advances.runs
  exact ⟨m', ops, opsEq, choices_of_run ran⟩

/-- Calls without a digit have one run. -/
theorem run_of_choices {ops : List Op} {m m' : FieldMemory}
    (plain : ∀ op ∈ ops, ∀ d a b, op ≠ .fr FrOp.digit d a b)
    (chosen : Choices permute ops m m') : run permute ops m = some m' := by
  induction ops generalizing m with
  | nil =>
    cases chosen
    rfl
  | cons op ops ih =>
    obtain ⟨m₁, first, rest⟩ := chosen
    obtain ⟨opPlain, opsPlain⟩ := List.forall_mem_cons.mp plain
    cases first with
    | digit byte rest small splits => exact absurd rfl (opPlain _ _ _)
    | other plain ran =>
      rw [run, List.foldlM_cons, ran]
      exact ih opsPlain rest

end Choices

section Emits

/-- A builder only appends calls, each of a kind. -/
def Build.Emits {α : Type} (kind : Op → Prop) (build : Build α) : Prop :=
  ∀ t, ∃ ops, (build t).2.ops = t.ops ++ ops ∧ ∀ op ∈ ops, kind op

/-- Any call but a digit. -/
def Op.Plain (op : Op) : Prop := ∀ d a b, op ≠ .fr FrOp.digit d a b

/-- Any call. -/
def Op.Any (_ : Op) : Prop := True

namespace Build.Emits

variable {kind : Op → Prop} {α β : Type}

theorem pure (a : α) : Emits kind (Pure.pure a : Build α) :=
  fun _ => ⟨[], (List.append_nil _).symm, nofun⟩

theorem bind {build : Build α} {f : α → Build β} (first : Emits kind build)
    (rest : ∀ a, Emits kind (f a)) : Emits kind (build >>= f) := by
  intro t
  obtain ⟨ops, opsEq, opsKind⟩ := first t
  obtain ⟨more, moreEq, moreKind⟩ := rest (build t).1 (build t).2
  refine ⟨ops ++ more, ?_, List.forall_mem_append.mpr ⟨opsKind, moreKind⟩⟩
  rw [← List.append_assoc, ← opsEq]
  exact moreEq

theorem push {op : Op} (ofKind : kind op) : Emits kind (push op) :=
  fun _ => ⟨[op], rfl, List.forall_mem_singleton.mpr ofKind⟩

theorem fresh (n : ℕ) : Emits kind (fresh n) :=
  fun _ => ⟨[], (List.append_nil _).symm, nofun⟩

theorem insert (w : List ℕ) (c : ℕ) : Emits kind (insert w c) :=
  fun _ => ⟨[], (List.append_nil _).symm, nofun⟩

theorem any {build : Build α} (emits : Emits kind build) : Emits Op.Any build := by
  intro t
  obtain ⟨ops, opsEq, -⟩ := emits t
  exact ⟨ops, opsEq, fun _ _ => trivial⟩

end Build.Emits

open Build

theorem plain_fr {code : ℕ} (other : code ≠ FrOp.digit) (d a b : ℕ) :
    Op.Plain (.fr code d a b) := by
  intro d' a' b' same
  exact other (Op.fr.inj same).1

theorem emits_fr {code : ℕ} (other : code ≠ FrOp.digit) (d a b : ℕ) :
    Emits Op.Plain (fr code d a b) :=
  Emits.push (plain_fr other d a b)

theorem emits_result {code : ℕ} (other : code ≠ FrOp.digit) (a b : ℕ) :
    Emits Op.Plain (result code a b) :=
  (Emits.fresh 1).bind fun d => (emits_fr other d a b).bind fun _ => Emits.pure d

theorem emits_add (a b : ℕ) : Emits Op.Plain (add a b) := emits_result (by decide) a b

theorem emits_sub (a b : ℕ) : Emits Op.Plain (sub a b) := emits_result (by decide) a b

theorem emits_copy (a : ℕ) : Emits Op.Plain (copy a) := emits_add a zero

theorem emits_assertEq (a b : ℕ) : Emits Op.Plain (assertEq a b) := emits_fr (by decide) 0 a b

theorem emits_shiftWords (w : List ℕ) (c k : ℕ) : Emits Op.Plain (shiftWords w c k) := by
  induction k with
  | zero => exact Emits.pure ()
  | succ k ih => exact (emits_fr (by decide) c c _).bind fun _ => ih

theorem emits_words (w : List ℕ) : Emits Op.Plain (words w) := by
  intro t
  cases found : topWord w 8 with
  | none =>
    rw [words, found]
    exact ⟨[], (List.append_nil _).symm, List.forall_mem_nil _⟩
  | some top =>
    cases known : t.constants.lookup w with
    | some c =>
      rw [words, found, known]
      exact ⟨[], (List.append_nil _).symm, List.forall_mem_nil _⟩
    | none =>
      rw [words, found, known]
      exact ((Emits.fresh 1).bind fun c => (emits_fr (by decide) c zero _).bind fun _ =>
        (emits_shiftWords w c top).bind fun _ =>
          (Emits.insert w c).bind fun _ => Emits.pure c) t

theorem emits_small (v : ℕ) : Emits Op.Plain (Tape.small v) := emits_words _

theorem emits_digit (d a b : ℕ) : Emits Op.Any (fr FrOp.digit d a b) := Emits.push trivial

theorem emits_digits (digit rest count : ℕ) : Emits Op.Any (digits digit rest count) := by
  induction count with
  | zero => exact Emits.pure ()
  | succ count ih => exact (emits_digit digit rest rest).bind fun _ => ih

/-- The last digit of a cell, which leaves nothing. -/
def lastDigit (digit c : ℕ) : Build Unit := do
  fr FrOp.digit digit c c
  assertEq c zero

/-- The end of a range check: the part byte held below its power, and nothing left. -/
def belowEnd (digit rest part : ℕ) : Build Unit :=
  if 0 < part then do
    let shifted ← Tape.small (256 - 2 ^ part)
    let lifted ← add rest shifted
    lastDigit digit rest
    lastDigit digit lifted
  else assertEq rest zero

theorem below_eq (x bits : ℕ) : below x bits = (do
    let rest ← copy x
    let digit ← fresh 1
    digits digit rest (bits / 8)
    belowEnd digit rest (bits % 8)) := rfl

theorem emits_lastDigit (digit c : ℕ) : Emits Op.Any (lastDigit digit c) :=
  (emits_digit digit c c).bind fun _ => (emits_assertEq c zero).any

theorem emits_belowEnd (digit rest part : ℕ) : Emits Op.Any (belowEnd digit rest part) := by
  rw [belowEnd]
  split
  · exact (emits_small _).any.bind fun shifted => (emits_add rest shifted).any.bind fun lifted =>
    (emits_lastDigit digit rest).bind fun _ => emits_lastDigit digit lifted
  · exact (emits_assertEq rest zero).any

theorem emits_below (x bits : ℕ) : Emits Op.Any (below x bits) := by
  rw [below_eq]
  exact (emits_copy x).any.bind fun rest => (Emits.fresh 1).bind fun digit =>
    (emits_digits digit rest _).bind fun _ => emits_belowEnd digit rest _

end Emits

namespace Tape

/-- What a memory keeps of an earlier one. -/
structure Follows (mark : ℕ) (t : Tape) (m : FieldMemory) (t' : Tape) (m' : FieldMemory) :
    Prop where
  grows : t.next ≤ t'.next
  kept : ∀ c < mark, m' c = m c
  valid : t'.Valid m'

namespace Follows

variable {mark : ℕ} {t t' t'' : Tape} {m m' m'' : FieldMemory}

theorem trans (first : Follows mark t m t' m') (second : Follows mark t' m' t'' m'') :
    Follows mark t m t'' m'' :=
  ⟨first.grows.trans second.grows,
    fun c below => (second.kept c below).trans (first.kept c below), second.valid⟩

theorem weaken {low : ℕ} (follows : Follows mark t m t' m') (below : low ≤ mark) :
    Follows low t m t' m' :=
  ⟨follows.grows, fun c under => follows.kept c (lt_of_lt_of_le under below), follows.valid⟩

/-- A cell used so far keeps what it holds. -/
theorem holds {v : Fr} {c : ℕ} (follows : Follows t.next t m t' m') (holds : Holds v c t m) :
    Holds v c t' m' :=
  ⟨lt_of_lt_of_le holds.1 follows.grows, (follows.kept c holds.1).trans holds.2⟩

end Follows

end Tape

/-- What every choice of digits that passes leaves. -/
def Build.Forces {α : Type} (permute : Lanes → Lanes) (mark : ℕ) (t : Tape) (m : FieldMemory)
    (build : Build α) (post : α → Tape → FieldMemory → Prop) : Prop :=
  ∀ m', build.Chosen permute t m m' →
    Follows mark t m (build t).2 m' ∧ post (build t).1 (build t).2 m'

namespace Build.Forces

variable {permute : Lanes → Lanes} {mark : ℕ} {t : Tape} {m : FieldMemory} {α β : Type}
  {build : Build α} {post : α → Tape → FieldMemory → Prop}

theorem pure {a : α} (valid : t.Valid m) (holds : post a t m) :
    Build.Forces permute mark t m (Pure.pure a) post := by
  rintro m' ⟨ops, opsEq, chosen⟩
  have none : ops = [] := List.append_right_eq_self.mp opsEq.symm
  subst none
  cases chosen
  exact ⟨⟨le_rfl, fun _ _ => rfl, valid⟩, holds⟩

theorem bind {f : α → Build β} {next : β → Tape → FieldMemory → Prop}
    (emits : Emits Op.Any build) (more : ∀ a, Emits Op.Any (f a))
    (first : Build.Forces permute mark t m build post)
    (rest : ∀ a t' m', Follows mark t m t' m' → post a t' m' →
      Build.Forces permute mark t' m' (f a) next) :
    Build.Forces permute mark t m (build >>= f) next := by
  rintro m'' ⟨ops, opsEq, chosen⟩
  obtain ⟨before, beforeEq, -⟩ := emits t
  obtain ⟨after, afterEq, -⟩ := more (build t).1 (build t).2
  have split : ops = before ++ after := by
    have whole : (f (build t).1 (build t).2).2.ops = t.ops ++ ops := opsEq
    rw [afterEq, beforeEq, List.append_assoc] at whole
    exact (List.append_cancel_left whole).symm
  rw [split] at chosen
  obtain ⟨m', early, late⟩ := choices_append.mp chosen
  obtain ⟨follows, holds⟩ := first m' ⟨before, beforeEq, early⟩
  obtain ⟨further, answers⟩ := rest _ _ m' follows holds m'' ⟨after, afterEq, late⟩
  exact ⟨follows.trans further, answers⟩

theorem mono {next : α → Tape → FieldMemory → Prop}
    (first : Build.Forces permute mark t m build post)
    (implies : ∀ a t' m', Follows mark t m t' m' → post a t' m' → next a t' m') :
    Build.Forces permute mark t m build next := by
  intro m' chosen
  obtain ⟨follows, holds⟩ := first m' chosen
  exact ⟨follows, implies _ _ _ follows holds⟩

theorem weaken {low : ℕ} (first : Build.Forces permute mark t m build post) (below : low ≤ mark) :
    Build.Forces permute low t m build post := by
  intro m' chosen
  obtain ⟨follows, holds⟩ := first m' chosen
  exact ⟨follows.weaken below, holds⟩

/-- One builder, which keeps every cell used so far, and then the rest. -/
theorem step {f : α → Build β} {next : β → Tape → FieldMemory → Prop} (low : mark ≤ t.next)
    (emits : Emits Op.Any build) (more : ∀ a, Emits Op.Any (f a))
    (first : Build.Forces permute t.next t m build post)
    (rest : ∀ a t' m', Follows t.next t m t' m' → post a t' m' →
      Build.Forces permute mark t' m' (f a) next) :
    Build.Forces permute mark t m (build >>= f) next := by
  have kept := first.mono fun a t' m' follows holds =>
    (show Follows t.next t m t' m' ∧ post a t' m' from ⟨follows, holds⟩)
  exact bind emits more (kept.weaken low) fun a t' m' _ holds => rest a t' m' holds.1 holds.2

/-- A builder without digits leaves what its run leaves. -/
theorem of_runs (emits : Emits Op.Plain build) (runs : Build.Runs permute mark t m build post) :
    Build.Forces permute mark t m build post := by
  rintro m' ⟨ops, opsEq, chosen⟩
  obtain ⟨after, advances, holds⟩ := runs
  obtain ⟨ran, ranEq, ranRun⟩ := advances.runs
  obtain ⟨made, madeEq, plain⟩ := emits t
  have same : ops = made := List.append_cancel_left (opsEq.symm.trans madeEq)
  have same' : ran = made := List.append_cancel_left (ranEq.symm.trans madeEq)
  subst same same'
  have unique : m' = after := by
    have both := (run_of_choices plain chosen).symm.trans ranRun
    exact Option.some.inj both
  rw [unique]
  exact ⟨⟨advances.grows, advances.kept, advances.valid⟩, holds⟩

end Build.Forces

section Rules

variable {permute : Lanes → Lanes} {mark : ℕ} {t : Tape} {m : FieldMemory}

theorem forces_fresh (n : ℕ) (valid : t.Valid m) :
    Build.Forces permute mark t m (fresh n) fun c t' after =>
      c = t.next ∧ t' = { t with next := t.next + n } ∧ after = m :=
  .of_runs (Build.Emits.fresh n) (runs_fresh n valid)

theorem forces_copy (valid : t.Valid m) (a : ℕ) :
    Build.Forces permute t.next t m (copy a) fun c t' after =>
      c = t.next ∧ t'.next = t.next + 1 ∧ t'.constants = t.constants ∧
        after = Function.update m t.next (m a) :=
  .of_runs (emits_copy a) (runs_copy valid a)

/-- What a call leaves, where it leaves the cells below a mark and the constants
alone. -/
theorem forces_push {op : Op} {post : Unit → Tape → FieldMemory → Prop} (valid : t.Valid m)
    (chosen : ∀ m', op.Chosen permute m m' → (∀ c < 3, m' c = m c) ∧ (∀ c < mark, m' c = m c) ∧
      (∀ entry ∈ t.constants, m' entry.2 = m entry.2) ∧
        post () { t with ops := t.ops ++ [op] } m') :
    Build.Forces permute mark t m (push op) post := by
  rintro m' ⟨ops, opsEq, ran⟩
  have single : [op] = ops := List.append_cancel_left opsEq
  subst single
  obtain ⟨zeros, kept, constants, holds⟩ := chosen m' (choices_singleton.mp ran)
  refine ⟨⟨le_rfl, kept, ⟨valid.room, fun c low => ?_, fun entry member => ?_⟩⟩, holds⟩
  · rw [zeros c low, valid.zeros c low]
  · rw [constants entry member]
    exact valid.constants entry member

/-- An assertion that passes held. -/
theorem forces_assertEq (valid : t.Valid m) (a b : ℕ) :
    Build.Forces permute mark t m (assertEq a b) fun _ t' after =>
      t'.next = t.next ∧ t'.constants = t.constants ∧ after = m ∧ m a = m b := by
  refine forces_push valid fun m' chosen => ?_
  cases chosen with
  | other plain ran =>
    by_cases same : m a = m b
    · rw [show Op.step permute m (.fr FrOp.eq 0 a b) = some m from if_pos same] at ran
      cases ran
      exact ⟨fun _ _ => rfl, fun _ _ => rfl, fun _ _ => rfl, rfl, rfl, rfl, same⟩
    · rw [show Op.step permute m (.fr FrOp.eq 0 a b) = none from if_neg same] at ran
      cases ran

/-- A digit is a byte in one cell and any rest in the other that makes up the sum. -/
theorem forces_digit {d rest : ℕ} (valid : t.Valid m) (dFree : t.Free d) (restFree : t.Free rest)
    (dAbove : mark ≤ d) (restAbove : mark ≤ rest) :
    Build.Forces permute mark t m (fr FrOp.digit d rest rest) fun _ t' after =>
      t'.next = t.next ∧ t'.constants = t.constants ∧ ∃ (byte : ℕ) (left : Fr), byte < 256 ∧
        m rest = (byte : Fr) + ((256 : ℕ) : Fr) * left ∧
          after = Function.update (Function.update m rest left) d (byte : Fr) := by
  have dLow := dFree.low
  have restLow := restFree.low
  have other {c : ℕ} (left : c ≠ d) (right : c ≠ rest) (x y : Fr) :
      Function.update (Function.update m rest x) d y c = m c := by
    rw [Function.update_of_ne left, Function.update_of_ne right]
  refine forces_push valid fun m' chosen => ?_
  cases chosen with
  | other plain ran => exact absurd rfl (plain _ _ _)
  | digit byte left small splits =>
    exact ⟨fun c below => other (by omega) (by omega) _ _,
      fun c below => other (by omega) (by omega) _ _,
      fun entry member => other (dFree.apart entry member) (restFree.apart entry member) _ _,
      rfl, rfl, byte, left, small, splits, rfl⟩

/-- Digits off a cell leave what makes up the sum with some low part. -/
theorem forces_digits {digit rest : ℕ} (valid : t.Valid m) (dFree : t.Free digit)
    (restFree : t.Free rest) (dAbove : mark ≤ digit) (restAbove : mark ≤ rest)
    (apart : rest ≠ digit) (count : ℕ) :
    Build.Forces permute mark t m (digits digit rest count) fun _ t' after =>
      t'.next = t.next ∧ t'.constants = t.constants ∧ ∃ low : ℕ, low < 256 ^ count ∧
        m rest = (low : Fr) + ((256 ^ count : ℕ) : Fr) * after rest := by
  induction count generalizing t m with
  | zero =>
    refine Build.Forces.pure valid ⟨rfl, rfl, 0, by norm_num, ?_⟩
    rw [pow_zero, Nat.cast_zero, Nat.cast_one, zero_add, one_mul]
  | succ count ih =>
    refine Build.Forces.bind (emits_digit digit rest rest) (fun _ => emits_digits digit rest count)
      (forces_digit valid dFree restFree dAbove restAbove) fun _ t' m' follows wrote => ?_
    obtain ⟨following, constants, byte, left, small, splits, rfl⟩ := wrote
    refine (ih follows.valid (dFree.congr following constants)
      (restFree.congr following constants)).mono fun _ t'' m'' _ shifted => ?_
    obtain ⟨following', constants', low, lowSmall, sum⟩ := shifted
    rw [Function.update_of_ne apart, Function.update_self] at sum
    refine ⟨following'.trans following, constants'.trans constants, byte + 256 * low, ?_, ?_⟩
    · rw [pow_succ']
      omega
    · rw [splits, sum, pow_succ']
      push_cast
      ring

theorem shiftWords_keeps (w : List ℕ) (c k : ℕ) (t : Tape) :
    (shiftWords w c k t).2.next = t.next ∧ (shiftWords w c k t).2.constants = t.constants := by
  induction k generalizing t with
  | zero => exact ⟨rfl, rfl⟩
  | succ k ih => exact ih _

/-- A constant's cell is none that a call in place writes. -/
theorem Tape.Free.words {c : ℕ} (free : t.Free c) (w : List ℕ) : (words w t).2.Free c := by
  cases found : topWord w 8 with
  | none =>
    rw [Tape.words, found]
    exact free
  | some top =>
    cases known : t.constants.lookup w with
    | some old =>
      rw [Tape.words, found, known]
      exact free
    | none =>
      rw [Tape.words, found, known]
      obtain ⟨next, constants⟩ := shiftWords_keeps w t.next top
        (fr FrOp.imm t.next zero (w.getD top 0) { t with next := t.next + 1 }).2
      refine ⟨free.low, ?_, ?_⟩
      · exact free.below.trans_le ((Nat.le_succ _).trans_eq next.symm)
      · intro entry member
        rcases List.mem_cons.mp member with rfl | old
        · exact free.below.ne'
        · exact free.apart entry ((congrArg (entry ∈ ·) constants).mp old)

/-- A small number's cell, and the cells still free. -/
theorem runs_smallFree {v : ℕ} (valid : t.Valid m) (narrow : v < 2 ^ 64) :
    Build.Runs permute t.next t m (Tape.small v) fun c t' after =>
      Holds ((v : ℕ) : Fr) c t' after ∧ ∀ k, t.Free k → t'.Free k := by
  obtain ⟨after, advances, holds⟩ := @runs_small permute t m v valid narrow
  exact ⟨after, advances, holds, fun k free => free.words _⟩

/-- A sum, in the next cell. -/
theorem runs_sum (valid : t.Valid m) (a b : ℕ) :
    Build.Runs permute t.next t m (add a b) fun c t' after =>
      c = t.next ∧ t'.next = t.next + 1 ∧ t'.constants = t.constants ∧
        after = Function.update m t.next (m a + m b) :=
  runs_result valid fun _ => rfl

end Rules

section Below

variable {permute : Lanes → Lanes} {mark : ℕ} {t : Tape} {m : FieldMemory}

theorem val_natCast_div (x : Fr) (k : ℕ) : (((x.val / k : ℕ) : Fr)).val = x.val / k :=
  ZMod.val_natCast_of_lt (lt_of_le_of_lt (Nat.div_le_self _ _) (ZMod.val_lt x))

/-- Digits off a cell shift it down a byte each. -/
theorem runs_digits {digit rest : ℕ} (valid : t.Valid m) (dFree : t.Free digit)
    (restFree : t.Free rest) (dAbove : mark ≤ digit) (restAbove : mark ≤ rest)
      (apart : rest ≠ digit)
    (count : ℕ) :
    Build.Runs permute mark t m (digits digit rest count) fun _ t' after =>
      t'.next = t.next ∧ t'.constants = t.constants ∧
        after rest = (((m rest).val / 256 ^ count : ℕ) : Fr) := by
  induction count generalizing t m with
  | zero =>
    refine Build.Runs.pure valid ⟨rfl, rfl, ?_⟩
    rw [pow_zero, Nat.div_one, ZMod.natCast_zmod_val]
  | succ count ih =>
    refine Build.Runs.bind (runs_digit valid dFree restFree dAbove restAbove)
      fun _ t' m' advances wrote => ?_
    obtain ⟨following, constants, rfl⟩ := wrote
    refine (ih advances.valid (dFree.congr following constants)
      (restFree.congr following constants)).mono fun _ t'' m'' _ shifted => ?_
    obtain ⟨following', constants', value⟩ := shifted
    refine ⟨following'.trans following, constants'.trans constants, ?_⟩
    rw [value, Function.update_of_ne apart, Function.update_self, val_natCast_div,
      Nat.div_div_eq_div_mul, pow_succ']
    rfl

/-- A byte that is still one when lifted is below the power. -/
theorem lifted_small {byte lifted part : ℕ} (low : part ≤ 8) (byteSmall : byte < 256)
    (liftedSmall : lifted < 256)
    (sum : (byte : Fr) + ((256 - 2 ^ part : ℕ) : Fr) = (lifted : Fr)) : byte < 2 ^ part := by
  have bound : 2 ^ part ≤ 256 := Nat.pow_le_pow_right (by norm_num) low
  generalize 2 ^ part = power at bound sum
  rw [← Nat.cast_add] at sum
  have same := congrArg ZMod.val sum
  rw [fr_val_natCast (by omega), fr_val_natCast (by omega)] at same
  omega

/-- The last digit of a cell that passes is the cell. -/
theorem forces_lastDigit {digit c : ℕ} (valid : t.Valid m) (digitFree : t.Free digit)
    (free : t.Free c) (digitAbove : mark ≤ digit) (above : mark ≤ c) (apart : c ≠ digit) :
    Build.Forces permute mark t m (lastDigit digit c)
      fun _ t' after => t'.next = t.next ∧ t'.constants = t.constants ∧
        (∀ k, k ≠ c → k ≠ digit → after k = m k) ∧ ∃ byte < 256, m c = ((byte : ℕ) : Fr) := by
  refine Build.Forces.bind (emits_digit digit c c) (fun _ => (emits_assertEq c zero).any)
    (forces_digit valid digitFree free digitAbove above) fun _ t₁ m₁ follows wrote => ?_
  obtain ⟨following, constants, byte, left, small, splits, rfl⟩ := wrote
  refine (forces_assertEq follows.valid c zero).mono fun _ t₂ m₂ _ made => ?_
  obtain ⟨following', constants', rfl, none⟩ := made
  rw [follows.valid.zeros zero (by decide), Function.update_of_ne apart,
    Function.update_self] at none
  refine ⟨following'.trans following, constants'.trans constants, fun k other third => ?_,
    byte, small, ?_⟩
  · rw [Function.update_of_ne third, Function.update_of_ne other]
  · rw [splits, none, mul_zero, add_zero]

/-- What the end of a range check forces. -/
theorem forces_belowEnd {digit rest part : ℕ} (valid : t.Valid m) (digitFree : t.Free digit)
    (restFree : t.Free rest) (digitAbove : mark ≤ digit) (restAbove : mark ≤ rest)
    (apart : rest ≠ digit) (low : part ≤ 8) :
    Build.Forces permute mark t m (belowEnd digit rest part)
      fun _ _ _ => ∃ byte < 2 ^ part, m rest = ((byte : ℕ) : Fr) := by
  rw [belowEnd]
  split
  · have under := restAbove.trans restFree.below.le
    refine Build.Forces.step under (emits_small _).any
      (fun shifted => (emits_add rest shifted).any.bind fun lifted =>
        (emits_lastDigit digit rest).bind fun _ => emits_lastDigit digit lifted)
      (.of_runs (emits_small _) (runs_smallFree valid ((Nat.sub_le _ _).trans_lt (by norm_num))))
      fun shifted t₁ m₁ made holds => ?_
    obtain ⟨shiftedHolds, stillFree⟩ := holds
    have restKept : m₁ rest = m rest := made.kept rest restFree.below
    refine Build.Forces.step (under.trans made.grows) (emits_add rest shifted).any
      (fun lifted => (emits_lastDigit digit rest).bind fun _ => emits_lastDigit digit lifted)
      (.of_runs (emits_add rest shifted) (runs_sum made.valid rest shifted))
      fun lifted t₂ m₂ summed holds => ?_
    obtain ⟨rfl, following₂, constants₂, rfl⟩ := holds
    have free₂ {k : ℕ} (free : t₁.Free k) : t₂.Free k := free.grow (by omega) constants₂
    have liftedFree : t₂.Free t₁.next := made.valid.free_allocated (by omega) constants₂
    have restFree₁ := stillFree rest restFree
    have digitFree₁ := stillFree digit digitFree
    have restBelow := restFree₁.below
    have digitBelow := digitFree₁.below
    refine Build.Forces.bind (emits_lastDigit digit rest) (fun _ => emits_lastDigit digit t₁.next)
      (forces_lastDigit summed.valid (free₂ digitFree₁)
        (free₂ restFree₁) digitAbove restAbove apart)
      fun _ t₃ m₃ follows first => ?_
    obtain ⟨following₃, constants₃, others, byte, byteSmall, byteIs⟩ := first
    refine (forces_lastDigit follows.valid ((free₂ digitFree₁).congr following₃ constants₃)
      (liftedFree.congr following₃ constants₃) digitAbove (under.trans made.grows)
      digitBelow.ne').mono fun _ _ _ _ last => ?_
    obtain ⟨-, -, -, lifted, liftedSmall, liftedIs⟩ := last
    rw [others _ restBelow.ne' digitBelow.ne', Function.update_self, shiftedHolds.2] at liftedIs
    rw [Function.update_of_ne restBelow.ne] at byteIs
    refine ⟨byte, lifted_small low byteSmall liftedSmall ?_, restKept.symm.trans byteIs⟩
    rw [← byteIs, liftedIs]
  · refine (forces_assertEq valid rest zero).mono fun _ _ _ _ made => ?_
    obtain ⟨-, -, -, none⟩ := made
    exact ⟨0, by positivity, by rw [none, valid.zeros zero (by decide), Nat.cast_zero]⟩

/-- A power of two as whole bytes and what is over. -/
theorem whole_bytes (bits : ℕ) : 256 ^ (bits / 8) * 2 ^ (bits % 8) = 2 ^ bits := by
  rw [show (256 : ℕ) = 2 ^ 8 by norm_num, ← pow_mul, ← pow_add, Nat.div_add_mod]

/-- Whatever digits are chosen, a cell that passes is below the power. -/
theorem forces_below {bits : ℕ} (valid : t.Valid m) (x : ℕ) (few : bits ≤ 240) :
    Build.Forces permute t.next t m (below x bits) fun _ _ _ => (m x).val < 2 ^ bits := by
  have fits : 2 ^ bits < 2 ^ 250 := Nat.pow_lt_pow_right (by norm_num) (by omega)
  rw [below_eq]
  refine Build.Forces.bind (emits_copy x).any (fun rest => (Build.Emits.fresh 1).bind fun digit =>
    (emits_digits digit rest _).bind fun _ => emits_belowEnd digit rest _) (forces_copy valid x)
    fun rest t₁ m₁ copied made => ?_
  obtain ⟨rfl, following₁, constants₁, rfl⟩ := made
  refine Build.Forces.bind (Build.Emits.fresh 1) (fun digit =>
    (emits_digits digit t.next _).bind fun _ => emits_belowEnd digit t.next _)
    (forces_fresh 1 copied.valid) fun digit t₂ m₂ allocated made => ?_
  obtain ⟨rfl, rfl, rfl⟩ := made
  have restFree : Free { t₁ with next := t₁.next + 1 } t.next :=
    valid.free_allocated (Nat.lt_succ_of_le (by omega)) constants₁
  have digitFree := copied.valid.free_next 1 one_pos
  have apart : t.next ≠ t₁.next := by omega
  refine Build.Forces.bind (emits_digits _ _ _) (fun _ => emits_belowEnd _ _ _)
    (forces_digits allocated.valid digitFree restFree (by omega) le_rfl apart (bits / 8))
    fun _ t₃ m₃ shifted made => ?_
  obtain ⟨following₃, constants₃, low, lowSmall, sum⟩ := made
  rw [Function.update_self] at sum
  refine (forces_belowEnd shifted.valid (digitFree.congr following₃ constants₃)
    (restFree.congr following₃ constants₃) (by omega) le_rfl apart
    (Nat.mod_lt bits (by norm_num)).le).mono fun _ _ _ _ last => ?_
  obtain ⟨byte, byteSmall, byteIs⟩ := last
  have total : low + 256 ^ (bits / 8) * byte < 2 ^ bits := by
    rw [← whole_bytes]
    calc low + 256 ^ (bits / 8) * byte < 256 ^ (bits / 8) * (byte + 1) := by
          rw [mul_add, mul_one]
          omega
      _ ≤ 256 ^ (bits / 8) * 2 ^ (bits % 8) := Nat.mul_le_mul_left _ byteSmall
  have value : m x = ((low + 256 ^ (bits / 8) * byte : ℕ) : Fr) := by
    rw [sum, byteIs]
    push_cast
    ring
  rw [value, fr_val_natCast (total.trans fits)]
  exact total

/-- The honest last digit. -/
theorem runs_lastDigit {digit c : ℕ} (valid : t.Valid m) (digitFree : t.Free digit)
    (free : t.Free c) (digitAbove : mark ≤ digit) (above : mark ≤ c) (apart : c ≠ digit)
    (small : (m c).val < 256) :
    Build.Runs permute mark t m (lastDigit digit c) fun _ t' after =>
      t'.next = t.next ∧ t'.constants = t.constants ∧ ∀ k, k ≠ c → k ≠ digit → after k = m k := by
  refine Build.Runs.bind (runs_digit valid digitFree free digitAbove above)
    fun _ t₁ m₁ advances wrote => ?_
  obtain ⟨following, constants, rfl⟩ := wrote
  have none : (m c).val / 2 ^ FrOp.digitBits = 0 := Nat.div_eq_of_lt small
  refine (runs_assertEq advances.valid ?_).mono fun _ t₂ m₂ _ made => ?_
  · rw [advances.valid.zeros zero (by decide), Function.update_of_ne apart, Function.update_self,
      none, Nat.cast_zero]
  · obtain ⟨following', constants', rfl⟩ := made
    refine ⟨following'.trans following, constants'.trans constants, fun k other third => ?_⟩
    rw [Function.update_of_ne third, Function.update_of_ne other]

/-- The honest end of a range check. -/
theorem runs_belowEnd {digit rest part : ℕ} (valid : t.Valid m) (digitFree : t.Free digit)
    (restFree : t.Free rest) (digitAbove : mark ≤ digit) (restAbove : mark ≤ rest)
    (apart : rest ≠ digit) (low : part < 8) (small : (m rest).val < 2 ^ part) :
    Build.Runs permute mark t m (belowEnd digit rest part) fun _ _ _ => True := by
  have bound : 2 ^ part < 256 :=
    (Nat.pow_lt_pow_right (by norm_num) low).trans_eq (by norm_num)
  rw [belowEnd]
  split
  · have under := restAbove.trans restFree.below.le
    refine Build.Runs.keep under (runs_smallFree valid ((Nat.sub_le _ _).trans_lt (by norm_num)))
      fun shifted t₁ m₁ made holds => ?_
    obtain ⟨shiftedHolds, stillFree⟩ := holds
    have restKept : m₁ rest = m rest := made.kept rest restFree.below
    refine Build.Runs.keep (under.trans made.grows) (runs_sum made.valid rest shifted)
      fun lifted t₂ m₂ summed holds => ?_
    obtain ⟨rfl, following₂, constants₂, rfl⟩ := holds
    have free₂ {k : ℕ} (free : t₁.Free k) : t₂.Free k := free.grow (by omega) constants₂
    have liftedFree : t₂.Free t₁.next := made.valid.free_allocated (by omega) constants₂
    have restFree₁ := stillFree rest restFree
    have digitFree₁ := stillFree digit digitFree
    have restBelow := restFree₁.below
    have digitBelow := digitFree₁.below
    have restSmall : (Function.update m₁ t₁.next (m₁ rest + m₁ shifted) rest).val < 256 := by
      rw [Function.update_of_ne restBelow.ne, restKept]
      exact small.trans bound
    refine Build.Runs.bind (runs_lastDigit summed.valid (free₂ digitFree₁) (free₂ restFree₁)
      digitAbove restAbove apart restSmall) fun _ t₃ m₃ advances first => ?_
    obtain ⟨following₃, constants₃, others⟩ := first
    refine (runs_lastDigit advances.valid ((free₂ digitFree₁).congr following₃ constants₃)
      (liftedFree.congr following₃ constants₃) digitAbove (under.trans made.grows) digitBelow.ne'
      ?_).mono fun _ _ _ _ _ => trivial
    rw [others _ restBelow.ne' digitBelow.ne', Function.update_self, shiftedHolds.2, restKept,
      ← ZMod.natCast_zmod_val (m rest), ← Nat.cast_add]
    generalize 2 ^ part = power at small bound
    rw [fr_val_natCast (by omega)]
    omega
  · have none : part = 0 := by omega
    refine (runs_assertEq valid ?_).mono fun _ _ _ _ _ => trivial
    rw [none, pow_zero, Nat.lt_one_iff] at small
    rw [valid.zeros zero (by decide), (ZMod.val_eq_zero _).mp small]

/-- The honest range check. -/
theorem runs_below {x bits : ℕ} (valid : t.Valid m) (small : (m x).val < 2 ^ bits) :
    Build.Runs permute t.next t m (below x bits) fun _ _ _ => True := by
  rw [below_eq]
  refine Build.Runs.bind (runs_copy valid x) fun rest t₁ m₁ copied made => ?_
  obtain ⟨rfl, following₁, constants₁, rfl⟩ := made
  refine Build.Runs.bind (runs_fresh 1 copied.valid) fun digit t₂ m₂ allocated made => ?_
  obtain ⟨rfl, rfl, rfl⟩ := made
  have restFree : Free { t₁ with next := t₁.next + 1 } t.next :=
    valid.free_allocated (Nat.lt_succ_of_le (by omega)) constants₁
  have digitFree := copied.valid.free_next 1 one_pos
  have apart : t.next ≠ t₁.next := by omega
  refine Build.Runs.bind (runs_digits allocated.valid digitFree restFree (by omega) le_rfl apart
    (bits / 8)) fun _ t₃ m₃ shifted made => ?_
  obtain ⟨following₃, constants₃, value⟩ := made
  rw [Function.update_self] at value
  refine runs_belowEnd shifted.valid (digitFree.congr following₃ constants₃)
    (restFree.congr following₃ constants₃)
      (by omega) le_rfl apart (Nat.mod_lt bits (by norm_num)) ?_
  rw [value, val_natCast_div]
  exact Nat.div_lt_of_lt_mul (small.trans_eq (whole_bytes bits).symm)

/-- Some digits pass a range check exactly when the element is below the power. -/
theorem passes_below {bits : ℕ} (valid : t.Valid m) (x : ℕ) (few : bits ≤ 240) :
    (below x bits).Passes permute t m ↔ (m x).val < 2 ^ bits := by
  constructor
  · rintro ⟨m', chosen⟩
    exact (forces_below valid x few m' chosen).2
  · intro small
    exact (runs_below valid small).passes

end Below

section WindowBytes

open Build

variable {permute : Lanes → Lanes} {mark : ℕ} {t : Tape} {m : FieldMemory}

theorem emits_digitBytes (len rest place count : ℕ) :
    Emits Op.Any (digitBytes len rest place count) := by
  induction count generalizing place with
  | zero => exact Emits.pure []
  | succ count ih =>
    refine (Emits.fresh 1).bind fun byte => (emits_digit byte rest rest).bind fun _ => ?_
    split
    · exact (ih _).bind fun bytes => Emits.pure _
    · exact (emits_assertEq byte zero).any.bind fun _ => ih _

theorem emits_payloadBytes (len place : ℕ) (words : List ℕ) :
    Emits Op.Any (payloadBytes len place words) := by
  induction words generalizing place with
  | nil => exact Emits.pure []
  | cons word words ih =>
    exact (emits_copy word).any.bind fun rest => (emits_digitBytes len rest place 4).bind
      fun bytes => (emits_assertEq rest zero).any.bind fun _ => (ih _).bind
        fun others => Emits.pure _

/-- What the cells of bytes hold. -/
def HoldsBytes (bytes : List UInt8) (cells : List ℕ) (t : Tape) (m : FieldMemory) : Prop :=
  (∀ c ∈ cells, c < t.next) ∧ cells.map m = bytes.map fun b => ((b.toNat : ℕ) : Fr)

theorem HoldsBytes.later {bytes : List UInt8} {cells : List ℕ} {t' : Tape} {m' : FieldMemory}
    (holds : HoldsBytes bytes cells t m) (follows : Follows t.next t m t' m') :
    HoldsBytes bytes cells t' m' := by
  obtain ⟨below, values⟩ := holds
  refine ⟨fun c member => (below c member).trans_le follows.grows, ?_⟩
  rw [← values]
  exact List.map_congr_left fun c member => follows.kept c (below c member)

/-- Whatever digits are chosen, a word's bytes and what is left make it up. -/
theorem forces_digitBytes {len rest place : ℕ} (valid : t.Valid m) (restFree : t.Free rest)
    (restAbove : mark ≤ rest) (count : ℕ) :
    Build.Forces permute mark t m (digitBytes len rest place count) fun cells t' after =>
      t'.Free rest ∧ (∀ k < t.next, k ≠ rest → after k = m k) ∧ (∀ c ∈ cells, rest < c) ∧
        ∃ bytes : List UInt8, bytes.length = count ∧
          m rest = ((leValue bytes : ℕ) : Fr) + ((256 ^ count : ℕ) : Fr) * after rest ∧
          HoldsBytes (bytes.take (len - place)) cells t' after ∧
          ∀ b ∈ bytes.drop (len - place), b = 0 := by
  induction count generalizing t m place with
  | zero =>
    refine Build.Forces.pure valid ⟨restFree, fun _ _ _ => rfl, nofun, [], rfl, ?_, ?_, by simp⟩
    · simp [leValue]
    · exact ⟨nofun, by simp⟩
  | succ count ih =>
    have room := valid.room
    have restBelow := restFree.below
    have more (byte : ℕ) : Emits Op.Any (if place < len then do
        let others ← digitBytes len rest (place + 1) count
        pure (byte :: others)
      else do
        assertEq byte zero
        digitBytes len rest (place + 1) count : Build (List ℕ)) := by
      split
      · exact (emits_digitBytes _ _ _ _).bind fun bytes => Emits.pure _
      · exact (emits_assertEq byte zero).any.bind fun _ => emits_digitBytes _ _ _ _
    refine Build.Forces.bind (Emits.fresh 1)
      (fun byte => (emits_digit byte rest rest).bind fun _ => more byte)
      (forces_fresh 1 valid) fun byte t₁ m₁ allocated made => ?_
    obtain ⟨rfl, rfl, rfl⟩ := made
    have restFree₁ : Free { t with next := t.next + 1 } rest :=
      ⟨restFree.low, Nat.lt_succ_of_lt restBelow, restFree.apart⟩
    refine Build.Forces.bind (emits_digit _ _ _) (fun _ => more t.next)
      (forces_digit allocated.valid (valid.free_next 1 one_pos) restFree₁
        (restAbove.trans restBelow.le) restAbove) fun _ t₂ m₂ digit made => ?_
    obtain ⟨following₂, constants₂, byte, left, small, splits, rfl⟩ := made
    have restFree₂ := restFree₁.congr following₂ constants₂
    have following₂ : t₂.next = t.next + 1 := following₂
    have byteIs : (UInt8.ofNat byte).toNat = byte := by
      rw [UInt8.toNat_ofNat', Nat.mod_eq_of_lt small]
    split
    case isTrue inside =>
      have next : len - place = len - (place + 1) + 1 := by omega
      refine Build.Forces.bind (emits_digitBytes _ _ _ _) (fun _ => Emits.pure _)
        (ih digit.valid restFree₂) fun cells t₃ m₃ follows made => ?_
      obtain ⟨restFree₃, others, above, bytes, length, sum, ⟨below, values⟩, past⟩ := made
      refine Build.Forces.pure follows.valid ⟨restFree₃, fun k low apart => ?_, ?_,
        UInt8.ofNat byte :: bytes, by rw [List.length_cons, length], ?_, ⟨?_, ?_⟩, ?_⟩
      · rw [others k (by omega) apart, Function.update_of_ne (by omega),
        Function.update_of_ne apart]
      · exact List.forall_mem_cons.mpr ⟨restBelow, above⟩
      · rw [Function.update_of_ne restBelow.ne, Function.update_self] at sum
        rw [splits, sum, leValue, byteIs, pow_succ']
        push_cast
        ring
      · have grows := follows.grows
        exact List.forall_mem_cons.mpr ⟨by omega, below⟩
      · rw [next, List.take_succ_cons, List.map_cons, List.map_cons, values, byteIs,
          others t.next (by omega) restBelow.ne', Function.update_self]
      · rw [next, List.drop_succ_cons]
        exact past
    case isFalse outside =>
      have none : len - place = 0 := by omega
      have none' : len - (place + 1) = 0 := by omega
      refine Build.Forces.bind (emits_assertEq _ _).any (fun _ => emits_digitBytes _ _ _ _)
        (forces_assertEq digit.valid t.next zero) fun _ t₃ m₃ asserted made => ?_
      obtain ⟨following₃, constants₃, rfl, same⟩ := made
      rw [digit.valid.zeros zero (by decide), Function.update_self] at same
      refine (ih asserted.valid (restFree₂.congr following₃ constants₃)).mono
        fun cells t₄ m₄ follows made => ?_
      obtain ⟨restFree₄, others, above, bytes, length, sum, ⟨below, values⟩, past⟩ := made
      have byteZero : byte = 0 := by
        have value := @fr_val_natCast byte (by omega)
        rw [same, ZMod.val_zero] at value
        exact value.symm
      subst byteZero
      rw [none', List.drop_zero] at past
      rw [none', List.take_zero] at values
      refine ⟨restFree₄, fun k low apart => ?_, above, 0 :: bytes,
        by rw [List.length_cons, length], ?_, ⟨below, ?_⟩, ?_⟩
      · rw [others k (by omega) apart, Function.update_of_ne (by omega),
        Function.update_of_ne apart]
      · rw [Function.update_of_ne restBelow.ne, Function.update_self] at sum
        rw [splits, sum, leValue, UInt8.toNat_zero, pow_succ']
        push_cast
        ring
      · rw [none, List.take_zero]
        exact values
      · rw [none, List.drop_zero]
        exact List.forall_mem_cons.mpr ⟨rfl, past⟩

/-- The words' little-endian bytes. -/
def bytesOf (m : FieldMemory) (words : List ℕ) : List UInt8 :=
  words.flatMap fun w => leBytes 4 (m w).val

/-- Whatever digits are chosen, the payload's words are 32-bit integers, and the cells
answered hold their bytes inside the length; those past it are zero. -/
theorem forces_payloadBytes {len place : ℕ} {words : List ℕ} (valid : t.Valid m)
    (allocated : ∀ w ∈ words, w < t.next) :
    Build.Forces permute t.next t m (payloadBytes len place words) fun cells t' after =>
      (∀ w ∈ words, (m w).val < 2 ^ 32) ∧
        HoldsBytes ((bytesOf m words).take (len - place)) cells t' after ∧
        ∀ b ∈ (bytesOf m words).drop (len - place), b = 0 := by
  induction words generalizing t m place with
  | nil =>
    refine Build.Forces.pure valid ⟨nofun, ⟨nofun, ?_⟩, ?_⟩
    · simp [bytesOf]
    · simp [bytesOf]
  | cons word words ih =>
    obtain ⟨wordBelow, wordsBelow⟩ := List.forall_mem_cons.mp allocated
    refine Build.Forces.step le_rfl (emits_copy word).any
      (fun rest => (emits_digitBytes len rest place 4).bind fun bytes =>
        (emits_assertEq rest zero).any.bind fun _ => (emits_payloadBytes _ _ _).bind
          fun others => Emits.pure _) (forces_copy valid word) fun rest t₁ m₁ copied made => ?_
    obtain ⟨rfl, following₁, constants₁, rfl⟩ := made
    have restFree : t₁.Free t.next := valid.free_allocated (by omega) constants₁
    refine Build.Forces.bind (emits_digitBytes _ _ _ _)
      (fun bytes => (emits_assertEq _ _).any.bind fun _ => (emits_payloadBytes _ _ _).bind
        fun others => Emits.pure _) (forces_digitBytes copied.valid restFree le_rfl 4)
      fun cells t₂ m₂ split made => ?_
    obtain ⟨restFree₂, others, above, bytes, length, sum, holds, past⟩ := made
    refine Build.Forces.bind (emits_assertEq _ _).any
      (fun _ => (emits_payloadBytes _ _ _).bind fun others => Emits.pure _)
      (forces_assertEq split.valid t.next zero) fun _ t₃ m₃ asserted made => ?_
    obtain ⟨following₃, constants₃, rfl, same⟩ := made
    have under : t.next ≤ t₃.next := by
      have grows := split.grows
      omega
    have kept {w : ℕ} (below : w < t.next) : m₃ w = m w := by
      rw [split.kept w below, Function.update_of_ne below.ne]
    refine Build.Forces.step under (emits_payloadBytes _ _ _) (fun _ => Emits.pure _)
      (ih asserted.valid fun w member => (wordsBelow w member).trans_le under)
      fun cells' t₄ m₄ follows made => ?_
    obtain ⟨small', ⟨below', values'⟩, past'⟩ := made
    have rest : bytesOf m₃ words = bytesOf m words := by
      rw [bytesOf, bytesOf]
      exact List.flatMap_congr fun w member => by rw [kept (wordsBelow w member)]
    have value : m word = ((leValue bytes : ℕ) : Fr) := by
      rw [same, split.valid.zeros zero (by decide), mul_zero, add_zero,
        Function.update_self] at sum
      exact sum
    have bound := leValue_lt bytes
    rw [length] at bound
    have wordIs : (m word).val = leValue bytes := by
      rw [value, fr_val_natCast (bound.trans (by norm_num))]
    have whole : bytesOf m (word :: words) = bytes ++ bytesOf m words := by
      have four := leBytes_leValue bytes
      rw [length] at four
      rw [bytesOf, List.flatMap_cons, wordIs, four]
      rfl
    have later : len - place - bytes.length = len - (place + 4) := by omega
    obtain ⟨below₄, values₄⟩ := HoldsBytes.later ⟨fun c member =>
      (holds.1 c member).trans_eq following₃.symm, holds.2⟩ follows
    refine Build.Forces.pure follows.valid ⟨?_, ⟨?_, ?_⟩, ?_⟩
    · refine List.forall_mem_cons.mpr ⟨?_, fun w member => ?_⟩
      · rw [wordIs]
        exact bound.trans_eq (by norm_num)
      · rw [← kept (wordsBelow w member)]
        exact small' w member
    · exact List.forall_mem_append.mpr ⟨below₄, below'⟩
    · rw [whole, List.take_append, List.map_append, List.map_append, later, values₄, values',
      rest]
    · rw [whole, List.drop_append, later]
      rw [rest] at past'
      exact List.forall_mem_append.mpr ⟨past, past'⟩

/-- The honest bytes of a word, which are zero past the length. -/
theorem runs_digitBytes {len rest place : ℕ} (valid : t.Valid m) (restFree : t.Free rest)
    (restAbove : mark ≤ rest) (count : ℕ)
    (past : ∀ b ∈ (leBytes count (m rest).val).drop (len - place), b = 0) :
    Build.Runs permute mark t m (digitBytes len rest place count) fun _ t' after =>
      t'.Free rest ∧ after rest = (((m rest).val / 256 ^ count : ℕ) : Fr) := by
  induction count generalizing t m place with
  | zero =>
    refine Build.Runs.pure valid ⟨restFree, ?_⟩
    rw [pow_zero, Nat.div_one, ZMod.natCast_zmod_val]
  | succ count ih =>
    have restBelow := restFree.below
    refine Build.Runs.bind (runs_fresh 1 valid) fun byte t₁ m₁ allocated made => ?_
    obtain ⟨rfl, rfl, rfl⟩ := made
    have restFree₁ : Free { t with next := t.next + 1 } rest :=
      ⟨restFree.low, Nat.lt_succ_of_lt restBelow, restFree.apart⟩
    refine Build.Runs.bind (runs_digit allocated.valid (valid.free_next 1 one_pos) restFree₁
      (restAbove.trans restBelow.le) restAbove) fun _ t₂ m₂ digit made => ?_
    obtain ⟨following₂, constants₂, rfl⟩ := made
    have restFree₂ := restFree₁.congr following₂ constants₂
    have left : Function.update (Function.update m₁ rest
        (((m₁ rest).val / 2 ^ FrOp.digitBits : ℕ) : Fr)) t.next
          (((m₁ rest).val % 2 ^ FrOp.digitBits : ℕ) : Fr) rest =
        (((m₁ rest).val / 256 : ℕ) : Fr) := by
      rw [Function.update_of_ne restBelow.ne, Function.update_self]
      rfl
    have shifted : (m₁ rest).val / 256 / 256 ^ count = (m₁ rest).val / 256 ^ (count + 1) := by
      rw [Nat.div_div_eq_div_mul, pow_succ']
    rw [leBytes] at past
    split
    case isTrue inside =>
      have next : len - place = len - (place + 1) + 1 := by omega
      rw [next, List.drop_succ_cons] at past
      refine Build.Runs.bind (ih digit.valid restFree₂ ?_) fun cells t₃ m₃ follows made => ?_
      · rw [left, val_natCast_div]
        exact past
      · rw [left, val_natCast_div, shifted] at made
        exact Build.Runs.pure follows.valid made
    case isFalse outside =>
      have none : len - place = 0 := by omega
      have none' : len - (place + 1) = 0 := by omega
      rw [none, List.drop_zero] at past
      obtain ⟨byteZero, past⟩ := List.forall_mem_cons.mp past
      have low : (m₁ rest).val % 256 = 0 := by
        rw [← UInt8.toNat_ofNat', byteZero]
        rfl
      refine Build.Runs.bind (runs_assertEq digit.valid ?_) fun _ t₃ m₃ asserted made => ?_
      · rw [digit.valid.zeros zero (by decide), Function.update_self]
        exact (congrArg Nat.cast low).trans Nat.cast_zero
      · obtain ⟨following₃, constants₃, rfl⟩ := made
        refine (ih asserted.valid (restFree₂.congr following₃ constants₃) ?_).mono
          fun cells t₄ m₄ _ made => ?_
        · rw [left, val_natCast_div, none', List.drop_zero]
          exact past
        · rw [left, val_natCast_div, shifted] at made
          exact made

/-- The honest bytes of a payload of 32-bit words, which are zero past the length. -/
theorem runs_payloadBytes {len place : ℕ} {words : List ℕ} (valid : t.Valid m)
    (allocated : ∀ w ∈ words, w < t.next) (small : ∀ w ∈ words, (m w).val < 2 ^ 32)
    (past : ∀ b ∈ (bytesOf m words).drop (len - place), b = 0) :
    Build.Runs permute t.next t m (payloadBytes len place words) fun _ _ _ => True := by
  induction words generalizing t m place with
  | nil => exact Build.Runs.pure valid trivial
  | cons word words ih =>
    obtain ⟨wordBelow, wordsBelow⟩ := List.forall_mem_cons.mp allocated
    obtain ⟨wordSmall, wordsSmall⟩ := List.forall_mem_cons.mp small
    rw [bytesOf, List.flatMap_cons, List.drop_append, leBytes_length] at past
    obtain ⟨pastWord, pastWords⟩ := List.forall_mem_append.mp past
    refine Build.Runs.keep le_rfl (runs_copy valid word) fun rest t₁ m₁ copied made => ?_
    obtain ⟨rfl, following₁, constants₁, rfl⟩ := made
    have restFree : t₁.Free t.next := valid.free_allocated (by omega) constants₁
    refine Build.Runs.bind (runs_digitBytes copied.valid restFree le_rfl 4 ?_)
      fun cells t₂ m₂ split made => ?_
    · rw [Function.update_self]
      exact pastWord
    obtain ⟨restFree₂, left⟩ := made
    rw [Function.update_self] at left
    refine Build.Runs.bind (runs_assertEq split.valid ?_) fun _ t₃ m₃ asserted made => ?_
    · rw [left, split.valid.zeros zero (by decide),
        Nat.div_eq_of_lt (wordSmall.trans_eq (by norm_num)), Nat.cast_zero]
    obtain ⟨following₃, constants₃, rfl⟩ := made
    have under : t.next ≤ t₃.next := by
      have grows := split.grows
      omega
    have kept {w : ℕ} (below : w < t.next) : m₃ w = m w := by
      rw [split.kept w below, Function.update_of_ne below.ne]
    have rest : bytesOf m₃ words = bytesOf m words := by
      rw [bytesOf, bytesOf]
      exact List.flatMap_congr fun w member => by rw [kept (wordsBelow w member)]
    refine Build.Runs.keep under (ih asserted.valid
      (fun w member => (wordsBelow w member).trans_le under)
      (fun w member => by rw [kept (wordsBelow w member)]; exact wordsSmall w member) ?_)
      fun cells' t₄ m₄ follows made => Build.Runs.pure follows.valid trivial
    rw [rest, show len - (place + 4) = len - place - 4 by omega]
    exact pastWords

/-- Some digits pass a window's bytes exactly when the words spell the length and a
payload of that many bytes, and the cells answered hold the payload. -/
theorem passes_windowBytes {len : ℕ} {words : List ℕ} {build : Build (List ℕ)}
    (valid : t.Valid m) (allocated : ∀ w ∈ words, w < t.next) (narrow : len < 2 ^ 64)
    (built : windowBytes words len = some build) :
    (build.Passes permute t m ↔ (m (words.getD 0 zero)).val = len ∧
      (∀ w ∈ words.tail, (m w).val < 2 ^ 32) ∧ ∀ b ∈ (bytesOf m words.tail).drop len, b = 0) ∧
    ∀ m', build.Chosen permute t m m' → (build t).1.map m' =
      ((bytesOf m words.tail).take len).map fun b => ((b.toNat : ℕ) : Fr) := by
  rw [windowBytes] at built
  split at built
  case isFalse => cases built
  case isTrue length =>
    cases built
    have payload : ∀ w ∈ words.tail, w < t.next := fun w member =>
      allocated w (List.mem_of_mem_tail member)
    have first : words.getD 0 zero < t.next := by
      cases words with
      | nil =>
        rw [List.length_nil] at length
        omega
      | cons word rest => exact allocated word List.mem_cons_self
    have forces : Build.Forces permute t.next t m (do
        let length ← Tape.small len
        assertEq (words.getD 0 zero) length
        payloadBytes len 0 words.tail) fun cells _ after =>
          (m (words.getD 0 zero)).val = len ∧ (∀ w ∈ words.tail, (m w).val < 2 ^ 32) ∧
            cells.map after =
              ((bytesOf m words.tail).take len).map (fun b => ((b.toNat : ℕ) : Fr)) ∧
            ∀ b ∈ (bytesOf m words.tail).drop len, b = 0 := by
      refine Build.Forces.step le_rfl (emits_small len).any
        (fun length => (emits_assertEq _ length).any.bind fun _ => emits_payloadBytes _ _ _)
        (.of_runs (emits_small len) (runs_small valid narrow)) fun length t₁ m₁ made holds => ?_
      refine Build.Forces.bind (emits_assertEq _ _).any (fun _ => emits_payloadBytes _ _ _)
        (forces_assertEq made.valid _ length) fun _ t₂ m₂ asserted same => ?_
      obtain ⟨following, constants, rfl, same⟩ := same
      have under : t.next ≤ t₂.next := made.grows.trans_eq following.symm
      refine ((forces_payloadBytes asserted.valid fun w member =>
        (payload w member).trans_le under).weaken under).mono fun cells t₃ m₃ _ made' => ?_
      obtain ⟨small, ⟨-, values⟩, past⟩ := made'
      have rest : bytesOf m₂ words.tail = bytesOf m words.tail := by
        rw [bytesOf, bytesOf]
        exact List.flatMap_congr fun w member => by rw [made.kept w (payload w member)]
      rw [rest, Nat.sub_zero] at values past
      refine ⟨?_, fun w member => ?_, values, past⟩
      · rw [← made.kept _ first, same, holds.2, fr_val_natCast (narrow.trans (by norm_num))]
      · rw [← made.kept w (payload w member)]
        exact small w member
    refine ⟨⟨?_, ?_⟩, fun m' chosen => (forces m' chosen).2.2.2.1⟩
    · rintro ⟨m', chosen⟩
      obtain ⟨-, firstIs, small, -, past⟩ := forces m' chosen
      exact ⟨firstIs, small, past⟩
    · rintro ⟨firstIs, small, past⟩
      suffices runs : Build.Runs permute t.next t m (do
          let length ← Tape.small len
          assertEq (words.getD 0 zero) length
          payloadBytes len 0 words.tail) fun _ _ _ => True from runs.passes
      refine Build.Runs.keep le_rfl (runs_small valid narrow) fun length t₁ m₁ made holds => ?_
      refine Build.Runs.bind (runs_assertEq made.valid ?_) fun _ t₂ m₂ asserted same => ?_
      · rw [made.kept _ first, holds.2, ← firstIs, ZMod.natCast_zmod_val]
      obtain ⟨following, constants, rfl⟩ := same
      have under : t.next ≤ t₂.next := made.grows.trans_eq following.symm
      have rest : bytesOf m₂ words.tail = bytesOf m words.tail := by
        rw [bytesOf, bytesOf]
        exact List.flatMap_congr fun w member => by rw [made.kept w (payload w member)]
      refine ((runs_payloadBytes asserted.valid (fun w member => (payload w member).trans_le under)
        (fun w member => ?_) ?_).weaken under).mono fun _ _ _ _ _ => trivial
      · rw [made.kept w (payload w member)]
        exact small w member
      · rw [rest, Nat.sub_zero]
        exact past

end WindowBytes

section WindowOrder

open Build

/-- The fourth step of a shard's tape: its window's start, its span and the room above it
all within the clock and a bit more. -/
def windowOrder (start finish : ℕ) : Build Unit := do
  let span ← sub finish start
  let top ← Tape.small (2 ^ Clock.tsBits)
  let room ← sub top finish
  below start (Clock.tsBits + 1)
  below span (Clock.tsBits + 1)
  below room (Clock.tsBits + 1)

variable {permute : Lanes → Lanes} {t : Tape} {m : FieldMemory}

/-- Three differences in range order their ends: none of them is a negative. -/
theorem window_order_iff (start finish : Fr) :
    (start.val < 2 ^ (Clock.tsBits + 1) ∧ (finish - start).val < 2 ^ (Clock.tsBits + 1) ∧
      (((2 ^ Clock.tsBits : ℕ) : Fr) - finish).val < 2 ^ (Clock.tsBits + 1)) ↔
        start.val ≤ finish.val ∧ finish.val ≤ 2 ^ Clock.tsBits := by
  have clock : 2 ^ (Clock.tsBits + 1) = 2 * 2 ^ Clock.tsBits := pow_succ' 2 _
  have room : 2 ^ Clock.tsBits < 2 ^ 64 := by norm_num [Clock.tsBits]
  have positive : 0 < 2 ^ Clock.tsBits := by positivity
  have wide : 2 ^ 64 * 8 < 2 ^ 250 := by norm_num
  rw [clock]
  generalize 2 ^ Clock.tsBits = top at room positive
  constructor
  · rintro ⟨low, span, above⟩
    have sum : finish = ((start.val + (finish - start).val : ℕ) : Fr) := by
      rw [Nat.cast_add, ZMod.natCast_zmod_val, ZMod.natCast_zmod_val, add_sub_cancel]
    have finishIs : finish.val = start.val + (finish - start).val := by
      conv_lhs => rw [sum]
      exact fr_val_natCast (by omega)
    have total : ((finish.val + ((top : Fr) - finish).val : ℕ) : Fr) = (top : Fr) := by
      rw [Nat.cast_add, ZMod.natCast_zmod_val, ZMod.natCast_zmod_val, add_sub_cancel]
    have same := congrArg ZMod.val total
    rw [fr_val_natCast (by omega), fr_val_natCast (by omega)] at same
    omega
  · rintro ⟨order, high⟩
    have span : finish - start = ((finish.val - start.val : ℕ) : Fr) := by
      rw [Nat.cast_sub order, ZMod.natCast_zmod_val, ZMod.natCast_zmod_val]
    have above : (top : Fr) - finish = ((top - finish.val : ℕ) : Fr) := by
      rw [Nat.cast_sub high, ZMod.natCast_zmod_val]
    rw [span, above, fr_val_natCast (by omega), fr_val_natCast (by omega)]
    omega

/-- Whatever digits are chosen, the three cells are in range. -/
theorem forces_windowOrder (valid : t.Valid m) {start finish : ℕ} (startBelow : start < t.next)
    (finishBelow : finish < t.next) :
    Build.Forces permute t.next t m (windowOrder start finish) fun _ _ _ =>
      (m start).val < 2 ^ (Clock.tsBits + 1) ∧ (m finish - m start).val < 2 ^ (Clock.tsBits + 1) ∧
          (((2 ^ Clock.tsBits : ℕ) : Fr) - m finish).val < 2 ^ (Clock.tsBits + 1) := by
  have few : Clock.tsBits + 1 ≤ 240 := by norm_num [Clock.tsBits]
  have checks (span room : ℕ) : Emits Op.Any (do
      below start (Clock.tsBits + 1)
      below span (Clock.tsBits + 1)
      below room (Clock.tsBits + 1) : Build Unit) :=
    (emits_below _ _).bind fun _ => (emits_below _ _).bind fun _ => emits_below _ _
  refine Build.Forces.step le_rfl (emits_sub _ _).any
    (fun span => (emits_small _).any.bind fun top => (emits_sub _ _).any.bind fun room =>
      checks span room) (.of_runs (emits_sub _ _) (runs_sub valid finish start))
    fun span t₁ m₁ made₁ spanHolds => ?_
  refine Build.Forces.step made₁.grows (emits_small _).any
    (fun top => (emits_sub _ _).any.bind fun room => checks span room)
    (.of_runs (emits_small _) (runs_small made₁.valid (by norm_num [Clock.tsBits])))
    fun top t₂ m₂ made₂ topHolds => ?_
  refine Build.Forces.step (made₁.grows.trans made₂.grows) (emits_sub _ _).any
    (fun room => checks span room)
    (.of_runs (emits_sub _ _)
      (runs_sub made₂.valid top finish)) fun room t₃ m₃ made₃ roomHolds => ?_
  have spanLater := made₃.holds (made₂.holds spanHolds)
  have startLater := made₃.holds (made₂.holds (made₁.holds ⟨startBelow, rfl⟩))
  have finishIs : m₂ finish = m finish := by
    exact (made₂.holds (made₁.holds ⟨finishBelow, rfl⟩)).2
  rw [topHolds.2, finishIs] at roomHolds
  refine Build.Forces.step (made₁.grows.trans (made₂.grows.trans made₃.grows)) (emits_below _ _)
    (fun _ => (emits_below _ _).bind fun _ => emits_below _ _) (forces_below made₃.valid start few)
    fun _ t₄ m₄ made₄ startSmall => ?_
  refine Build.Forces.step (made₁.grows.trans (made₂.grows.trans (made₃.grows.trans made₄.grows)))
    (emits_below _ _) (fun _ => emits_below _ _) (forces_below made₄.valid span few)
    fun _ t₅ m₅ made₅ spanSmall => ?_
  refine ((forces_below made₅.valid room few).weaken (made₁.grows.trans (made₂.grows.trans
    (made₃.grows.trans (made₄.grows.trans made₅.grows))))).mono fun _ _ _ _ roomSmall => ?_
  rw [startLater.2] at startSmall
  rw [(made₄.holds spanLater).2] at spanSmall
  rw [(made₅.holds (made₄.holds roomHolds)).2] at roomSmall
  exact ⟨startSmall, spanSmall, roomSmall⟩

/-- The honest order check. -/
theorem runs_windowOrder (valid : t.Valid m) {start finish : ℕ} (startBelow : start < t.next)
    (finishBelow : finish < t.next) (low : (m start).val < 2 ^ (Clock.tsBits + 1))
    (span : (m finish - m start).val < 2 ^ (Clock.tsBits + 1))
    (room : (((2 ^ Clock.tsBits : ℕ) : Fr) - m finish).val < 2 ^ (Clock.tsBits + 1)) :
    Build.Runs permute t.next t m (windowOrder start finish) fun _ _ _ => True := by
  refine Build.Runs.keep le_rfl (runs_sub valid finish start) fun spanCell t₁ m₁ made₁ spanHolds => ?_
  refine Build.Runs.keep made₁.grows (runs_small made₁.valid (by norm_num [Clock.tsBits]))
    fun top t₂ m₂ made₂ topHolds => ?_
  refine Build.Runs.keep (made₁.grows.trans made₂.grows) (runs_sub made₂.valid top finish)
    fun roomCell t₃ m₃ made₃ roomHolds => ?_
  have spanLater := (spanHolds.later made₂).later made₃
  have start₁ : Holds (m start) start t₁ m₁ := Holds.later ⟨startBelow, rfl⟩ made₁
  have finish₁ : Holds (m finish) finish t₁ m₁ := Holds.later ⟨finishBelow, rfl⟩ made₁
  have startLater := (start₁.later made₂).later made₃
  rw [topHolds.2, (finish₁.later made₂).2] at roomHolds
  rw [← startLater.2] at low
  refine Build.Runs.keep (made₁.grows.trans (made₂.grows.trans made₃.grows))
    (runs_below made₃.valid low) fun _ t₄ m₄ made₄ _ => ?_
  rw [← (spanLater.later made₄).2] at span
  refine Build.Runs.keep (made₁.grows.trans (made₂.grows.trans (made₃.grows.trans made₄.grows)))
    (runs_below made₄.valid span) fun _ t₅ m₅ made₅ _ => ?_
  rw [← ((roomHolds.later made₄).later made₅).2] at room
  exact (runs_below made₅.valid room).weaken (made₁.grows.trans (made₂.grows.trans
    (made₃.grows.trans (made₄.grows.trans made₅.grows))))

/-- Some digits pass the order check exactly when the window is ordered within the clock. -/
theorem passes_windowOrder (valid : t.Valid m) {start finish : ℕ} (startBelow : start < t.next)
    (finishBelow : finish < t.next) :
    (windowOrder start finish).Passes permute t m ↔
      (m start).val ≤ (m finish).val ∧ (m finish).val ≤ 2 ^ Clock.tsBits := by
  rw [← window_order_iff]
  constructor
  · rintro ⟨m', chosen⟩
    exact (forces_windowOrder valid startBelow finishBelow m' chosen).2
  · rintro ⟨low, span, room⟩
    exact (runs_windowOrder valid startBelow finishBelow low span room).passes

end WindowOrder

/-- Against any choice of digits, the three kinds of check are exact: a cell below a
power, a window's words and bytes, and a timestamp window's order. -/
theorem range_checks_exact {permute : Lanes → Lanes} {t : Tape} {m : FieldMemory}
    (valid : t.Valid m) :
    (∀ x bits, bits ≤ 240 → ((below x bits).Passes permute t m ↔ (m x).val < 2 ^ bits)) ∧
    (∀ words len, (∀ w ∈ words, w < t.next) → len < 2 ^ 64 →
      (windowBytes words len = none ↔ words.length ≠ 1 + (len + 3) / 4) ∧
      ∀ build, windowBytes words len = some build →
        (build.Passes permute t m ↔ (m (words.getD 0 zero)).val = len ∧
          (∀ w ∈ words.tail, (m w).val < 2 ^ 32) ∧
            ∀ b ∈ (bytesOf m words.tail).drop len, b = 0) ∧
        ∀ m', build.Chosen permute t m m' → (build t).1.map m' =
          ((bytesOf m words.tail).take len).map fun b => ((b.toNat : ℕ) : Fr)) ∧
    ∀ start finish, start < t.next → finish < t.next →
      ((windowOrder start finish).Passes permute t m ↔
        (m start).val ≤ (m finish).val ∧ (m finish).val ≤ 2 ^ Clock.tsBits) := by
  refine ⟨fun x bits few => passes_below valid x few, fun words len allocated narrow => ⟨?_, ?_⟩,
    fun start finish startBelow finishBelow => passes_windowOrder valid startBelow finishBelow⟩
  · rw [windowBytes]
    split
    case isTrue length => exact iff_of_false nofun (not_not.mpr length)
    case isFalse length => exact iff_of_true rfl length
  · exact fun build built => passes_windowBytes valid allocated narrow built

/-- A memory of two scratch cells, 1 and 200. -/
def twoCells : FieldMemory := fun c => if c = 3 then 1 else if c = 4 then ((200 : ℕ) : Fr) else 0

theorem range_checks_exact_twoCells :
    (below 4 8).Passes id (Tape.new 5) twoCells ∧ ¬(below 4 7).Passes id (Tape.new 5) twoCells ∧
      (∃ build, windowBytes [3, 4] 1 = some build ∧ build.Passes id (Tape.new 5) twoCells) ∧
      (windowOrder 3 4).Passes id (Tape.new 5) twoCells ∧
        ¬(windowOrder 4 3).Passes id (Tape.new 5) twoCells := by
  have low : (twoCells 3).val = 1 := ZMod.val_one _
  have high : (twoCells 4).val = 200 := fr_val_natCast (by norm_num)
  have valid : (Tape.new 5).Valid twoCells := valid_new (by decide) fun c below => by
    rw [twoCells, if_neg (by omega), if_neg (by omega)]
  obtain ⟨belows, windows, orders⟩ := @range_checks_exact id (Tape.new 5) twoCells valid
  refine ⟨(belows 4 8 (by decide)).mpr ?_, fun passes => ?_, ⟨_, rfl, ?_⟩,
    (orders 3 4 (by decide) (by decide)).mpr ?_, fun passes => ?_⟩
  · rw [high]
    decide
  · have small := (belows 4 7 (by decide)).mp passes
    rw [high] at small
    exact absurd small (by decide)
  · refine (((windows [3, 4] 1 (by decide) (by decide)).2 _ rfl).1).mpr ⟨low, ?_, ?_⟩
    · intro w member
      rw [List.mem_singleton.mp member, high]
      decide
    · rw [bytesOf, List.tail_cons, List.flatMap_singleton, high]
      have bytes : (leBytes 4 200).drop 1 = List.replicate 3 0 := rfl
      rw [bytes]
      exact fun b member => List.eq_of_mem_replicate member
  · exact ⟨by omega, high.trans_le (by norm_num [Clock.tsBits])⟩
  · have order := (orders 4 3 (by decide) (by decide)).mp passes
    rw [low, high] at order
    exact absurd order.1 (by decide)

end Apogee.Recursion
