import Mathlib.Data.List.Basic

/-! # Questions and answers

A client that asks one question after another: what it asks next and what it comes to
depend on the answers alone. A server answers, or refuses and ends the run. Servers that
give the same answers to the questions that are asked are served the same questions.
-/

namespace Apogee.Math

/-- A client: done, or asking a question and going on with its answer. -/
inductive Dialogue (Q : Type) (A : Q → Type) (R : Type)
  | done (result : R)
  | ask (query : Q) (next : A query → Dialogue Q A R)

namespace Dialogue

variable {Q : Type} {A : Q → Type} {R S T ε δ : Type}

/-- A run from a server's state: the result or the refusal that ended it, the questions that
were answered with their answers, and the state that is left. -/
def run (serve : S → (query : Q) → Except ε (A query) × S) :
    Dialogue Q A R → S → Except ε R × List (Sigma A) × S
  | done result, state => (.ok result, [], state)
  | ask query next, state =>
    match serve state query with
    | (.error refusal, after) => (.error refusal, [], after)
    | (.ok answer, after) =>
      let rest := run serve (next answer) after
      (rest.1, ⟨query, answer⟩ :: rest.2.1, rest.2.2)

/-- A server that keeps nothing between questions. -/
def fixed (answer : (query : Q) → Except ε (A query)) :
    Unit → (query : Q) → Except ε (A query) × Unit := fun _ query => (answer query, ())

/-- The questions that are answered in a run against a server without a state. -/
def asked (answer : (query : Q) → Except ε (A query)) (dialogue : Dialogue Q A R) : List Q :=
  (dialogue.run (fixed answer) ()).2.1.map Sigma.fst

section Runs

variable {serve : S → (query : Q) → Except ε (A query) × S}

/-- A run that ends with a result had its first question answered. -/
theorem run_ask_ok {query : Q} {next : A query → Dialogue Q A R} {state last : S} {result : R}
    {calls : List (Sigma A)} (ran : run serve (ask query next) state = (.ok result, calls, last)) :
    ∃ answer after others, serve state query = (.ok answer, after) ∧
      run serve (next answer) after = (.ok result, others, last) ∧ calls = ⟨query, answer⟩ :: others := by
  rw [run] at ran
  cases served : serve state query with
  | mk outcome after =>
    rw [served] at ran
    cases outcome with
    | error refusal => cases ran
    | ok answer =>
      cases rest : run serve (next answer) after with
      | mk others tail =>
        dsimp only at ran
        rw [rest] at ran
        cases ran
        exact ⟨answer, after, _, rfl, rest, rfl⟩

/-- What a question leaves holds of the state, and of every question answered before it. -/
structure Keeps (serve : S → (query : Q) → Except ε (A query) × S) (holds : S → Prop)
    (kept : Sigma A → S → Prop) : Prop where
  step : ∀ {state query answer after}, holds state → serve state query = (.ok answer, after) →
    holds after
  here : ∀ {state query answer after}, holds state → serve state query = (.ok answer, after) →
    kept ⟨query, answer⟩ after
  later : ∀ {call state query answer after}, holds state → kept call state →
    serve state query = (.ok answer, after) → kept call after

/-- So it does after a run. -/
theorem Keeps.run {holds : S → Prop} {kept : Sigma A → S → Prop} (keeps : Keeps serve holds kept)
    {dialogue : Dialogue Q A R} {state last : S} {result : R} {calls : List (Sigma A)}
    (start : holds state) (ran : run serve dialogue state = (.ok result, calls, last)) :
    holds last ∧ (∀ call ∈ calls, kept call last) ∧ ∀ call, kept call state → kept call last := by
  induction dialogue generalizing state calls with
  | done other =>
    cases ran
    exact ⟨start, fun call member => absurd member List.not_mem_nil, fun call held => held⟩
  | ask query next ih =>
    obtain ⟨answer, after, others, served, rest, rfl⟩ := run_ask_ok ran
    obtain ⟨final, each, old⟩ := ih answer (keeps.step start served) rest
    refine ⟨final, List.forall_mem_cons.mpr ⟨old _ (keeps.here start served), each⟩, ?_⟩
    exact fun call held => old call (keeps.later start held served)

/-- A server without a state serves a run again exactly when it gives each of its answers. -/
theorem run_fixed_iff {answer : (query : Q) → Except δ (A query)} {dialogue : Dialogue Q A R}
    {state last : S} {result : R} {calls : List (Sigma A)}
    (ran : run serve dialogue state = (.ok result, calls, last)) :
    run (fixed answer) dialogue () = (.ok result, calls, ()) ↔
      ∀ call ∈ calls, answer call.1 = .ok call.2 := by
  induction dialogue generalizing state calls with
  | done other =>
    cases ran
    exact iff_of_true rfl fun call member => absurd member List.not_mem_nil
  | ask query next ih =>
    obtain ⟨reply, after, others, -, rest, rfl⟩ := run_ask_ok ran
    rw [List.forall_mem_cons]
    constructor
    · intro again
      obtain ⟨first, _, later, served, going, same⟩ := run_ask_ok again
      cases same
      exact ⟨congrArg Prod.fst served, (ih _ rest).mp going⟩
    · rintro ⟨first, each⟩
      have served : fixed answer () query = (.ok reply, ()) := by rw [fixed, first]
      rw [run, served]
      dsimp only
      rw [(ih _ rest).mpr each]

end Runs

end Dialogue

end Apogee.Math
