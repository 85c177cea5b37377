import Apogee.Zerocheck.Rounds

/-! # The zerocheck is complete and sound

A proof of a gate that vanishes is accepted, with the columns' values at the bound point.
A proof accepted over a gate that does not vanish, its final values true, has drawn a
root: of the gate's own multilinear polynomial, or of the difference between a round's
message and the honest one.
-/

namespace Apogee.Zerocheck

open Apogee.Math Finset

/-! ## Events -/

/-- What the rounds add to a transcript. -/
def roundEvents (rounds : List RoundPoly) (point : List Fr) : List TranscriptEvent :=
  (rounds.zip point).flatMap fun pair => [.absorb TranscriptTag.sumcheckRound pair.1.scalars,
    .challenge TranscriptTag.sumcheckChallenge pair.2]

/-- Challenges drawn one after another. -/
def drawEvents (values : List Fr) : List TranscriptEvent :=
  values.map (.challenge TranscriptTag.sumcheckChallenge)

theorem challengeScalars_events (count : ℕ) (t : Transcript) :
    (t.challengeScalars TranscriptTag.sumcheckChallenge count).2.events =
      t.events ++ drawEvents (t.challengeScalars TranscriptTag.sumcheckChallenge count).1 := by
  induction count generalizing t with
  | zero => exact (List.append_nil _).symm
  | succ count ih =>
    rw [Transcript.challengeScalars]
    simp only [ih, Transcript.drawn, drawEvents, List.map_cons, List.append_assoc,
      List.singleton_append]

/-- The challenges among some events, in order. -/
def challengesOf (events : List TranscriptEvent) : List Fr :=
  events.filterMap fun event => match event with
    | .challenge _ value => some value
    | .absorb _ _ => none

/-- The scalars absorbed last. -/
def lastMessage (events : List TranscriptEvent) : List Fr :=
  match events.getLast? with
  | some (.absorb _ scalars) => scalars
  | _ => []

/-- The polynomial whose roots a round's challenge must avoid, from the columns and the events
before the challenge: the message sent, less the honest one. -/
def roundEscape (gate : Gate) (tables : List (ℕ → Fr)) (n : ℕ) (before : List TranscriptEvent) :
    List Fr :=
  let r := (challengesOf before).take n
  let bound := (challengesOf before).drop n
  List.zipWith (· - ·) (lastMessage before)
    (honestMessage gate tables r bound (n - bound.length - 1)).scalars

/-- Some round's challenge is a root of the polynomial fixed before it was drawn, which is not
zero and a cubic at most. -/
def RoundEscapes (gate : Gate) (tables : List (ℕ → Fr)) (n : ℕ)
    (start events : List TranscriptEvent) : Prop :=
  ∃ before c later, events =
      start ++ before ++ .challenge TranscriptTag.sumcheckChallenge c :: later ∧
    let polynomial := ofCoeffs (roundEscape gate tables n before)
    polynomial ≠ 0 ∧ polynomial.natDegree ≤ 3 ∧ polynomial.IsRoot c

/-! ## Rounds -/

section Rounds

variable {gate : Gate} {tables : List (ℕ → Fr)} {r : List Fr}

/-- What accepted rounds say. -/
theorem verifyRounds_cons {round : ℕ} {claim last : Fr} {g : RoundPoly} {rounds : List RoundPoly}
    {point : List Fr} {t t' : Transcript}
    (accepted : verifyRounds round claim (g :: rounds) t = .ok (point, last, t')) :
    let absorbed := t.appendScalars TranscriptTag.sumcheckRound g.scalars
    let c := absorbed.draw TranscriptTag.sumcheckChallenge
    cubic g 0 + cubic g 1 = claim ∧ ∃ rest, point = c :: rest ∧
      verifyRounds (round + 1) (cubic g c) rounds
        (absorbed.drawn TranscriptTag.sumcheckChallenge) = .ok (rest, last, t') := by
  intro absorbed c
  by_cases sum : cubic g 0 + cubic g 1 = claim
  · rw [verifyRounds, if_neg (not_not_intro sum)] at accepted
    cases found : verifyRounds (round + 1) (cubic g c) rounds
        (absorbed.drawn TranscriptTag.sumcheckChallenge) with
    | error e =>
      simp only [absorbed, c] at found
      simp only [found] at accepted
      cases accepted
    | ok rest =>
      obtain ⟨later, lastClaim, t''⟩ := rest
      simp only [absorbed, c] at found
      simp only [found, Except.ok.injEq, Prod.mk.injEq] at accepted
      obtain ⟨rfl, rfl, rfl⟩ := accepted
      exact ⟨sum, later, rfl, rfl⟩
  · rw [verifyRounds, if_pos sum] at accepted
    cases accepted

/-- The rounds add their messages and challenges, and nothing else. -/
theorem verifyRounds_events {round : ℕ} {claim last : Fr} {rounds : List RoundPoly}
    {point : List Fr} {t t' : Transcript}
    (accepted : verifyRounds round claim rounds t = .ok (point, last, t')) :
    point.length = rounds.length ∧ t'.events = t.events ++ roundEvents rounds point := by
  induction rounds generalizing round claim point t with
  | nil =>
    rw [verifyRounds, Except.ok.injEq, Prod.mk.injEq, Prod.mk.injEq] at accepted
    obtain ⟨rfl, -, rfl⟩ := accepted
    exact ⟨rfl, (List.append_nil _).symm⟩
  | cons g rounds ih =>
    obtain ⟨-, rest, rfl, later⟩ := verifyRounds_cons accepted
    obtain ⟨length, events⟩ := ih later
    refine ⟨by rw [List.length_cons, List.length_cons, length], ?_⟩
    rw [events, Transcript.drawn, Transcript.appendScalars, roundEvents, roundEvents,
      List.zip_cons_cons, List.flatMap_cons]
    simp only [List.append_assoc, List.cons_append, List.nil_append]

/-- The honest rounds pass the verifier's, and leave the same transcript. -/
theorem proveRounds_accepted (formed : gate.WellFormed) {rest : ℕ} (round : ℕ)
    {polys : List Poly.MultilinearPoly} {eq : Poly.MultilinearPoly} {bound : List Fr}
    (held : Bound polys tables bound rest) (arity : polys.length = gate.inputs.length)
    (weights : Poly.Holds eq rest (bindAll bound (eqWeight r))) (t : Transcript) :
    ∃ rounds left t' point, proveRounds gate rest polys eq t = some (rounds, left, t') ∧
      rounds.length = rest ∧ Bound left tables (bound ++ point) 0 ∧
      verifyRounds round (boundSum gate tables r bound rest) rounds t =
        .ok (point, boundSum gate tables r (bound ++ point) 0, t') := by
  induction rest generalizing round polys eq bound t with
  | zero => exact ⟨[], polys, t, [], rfl, rfl, by rwa [List.append_nil], by
      rw [List.append_nil]
      rfl⟩
  | succ rest ih =>
    set g := honestMessage gate tables r bound rest with message
    set absorbed := t.appendScalars TranscriptTag.sumcheckRound g.scalars with absorbedEq
    set c := absorbed.draw TranscriptTag.sumcheckChallenge with draw
    obtain ⟨later, polysBound, heldLater⟩ := held.bind c
    obtain ⟨eqLater, eqBound, weightsLater⟩ := weights.bind c
    rw [← bindAll_concat] at weightsLater
    have arityLater : later.length = gate.inputs.length := by
      rw [heldLater.length, ← held.length, arity]
    obtain ⟨rounds, left, t', point, proved, length, heldEnd, accepted⟩ :=
      ih (round + 1) heldLater arityLater weightsLater
        (absorbed.drawn TranscriptTag.sumcheckChallenge)
    rw [List.append_assoc, List.singleton_append] at heldEnd accepted
    refine ⟨g :: rounds, left, t', c :: point, ?_, by rw [List.length_cons, length], heldEnd, ?_⟩
    · rw [proveRounds, roundMessage_eq formed held arity weights]
      simp only [Option.bind_eq_bind, Option.bind_some, ← message, ← absorbedEq, ← draw,
        polysBound, eqBound, proved]
      rfl
    · have sum := honestMessage_sum gate tables r bound rest
      have next := honestMessage_next gate tables r bound rest c
      rw [← message] at sum next
      rw [verifyRounds, if_neg (not_not_intro sum), ← absorbedEq]
      simp only [← draw, next, accepted]

/-- Rounds accepted from a false claim to a true one escape. -/
theorem roundEscapes_of_false {n round : ℕ} {claim last : Fr} {rounds : List RoundPoly}
    {bound point : List Fr} {start before : List TranscriptEvent} {t t' : Transcript}
    (accepted : verifyRounds round claim rounds t = .ok (point, last, t'))
    (events : t.events = start ++ before) (drawn : challengesOf before = r ++ bound)
    (randomizers : r.length = n) (left : bound.length + rounds.length = n)
    (true_ : last = boundSum gate tables r (bound ++ point) 0)
    (false_ : claim ≠ boundSum gate tables r bound rounds.length) :
    RoundEscapes gate tables n start t'.events := by
  induction rounds generalizing round claim bound point before t with
  | nil =>
    rw [verifyRounds, Except.ok.injEq, Prod.mk.injEq, Prod.mk.injEq] at accepted
    obtain ⟨rfl, rfl, -⟩ := accepted
    rw [List.append_nil] at true_
    exact absurd true_ false_
  | cons g rounds ih =>
    obtain ⟨sum, rest, rfl, later⟩ := verifyRounds_cons accepted
    set absorbed := t.appendScalars TranscriptTag.sumcheckRound g.scalars with absorbedEq
    set c := absorbed.draw TranscriptTag.sumcheckChallenge with draw
    have sentEvents : absorbed.events =
        start ++ (before ++ [.absorb TranscriptTag.sumcheckRound g.scalars]) := by
      rw [absorbedEq, Transcript.appendScalars, events, List.append_assoc]
    have sentDrawn : challengesOf (before ++ [.absorb TranscriptTag.sumcheckRound g.scalars]) =
        r ++ bound := by
      rw [← drawn, challengesOf, List.filterMap_append]
      exact List.append_nil _
    by_cases next : cubic g c = boundSum gate tables r (bound ++ [c]) rounds.length
    · -- The false claim came true at this challenge.
      obtain ⟨-, end_⟩ := verifyRounds_events later
      refine ⟨before ++ [.absorb TranscriptTag.sumcheckRound g.scalars], c,
        roundEvents rounds rest, ?_, ?_⟩
      · rw [end_, Transcript.drawn, sentEvents, ← draw]
        simp only [List.append_assoc, List.cons_append, List.nil_append]
      · have rows : n - bound.length - 1 = rounds.length := by
          rw [List.length_cons] at left
          omega
        have escape : roundEscape gate tables n
            (before ++ [.absorb TranscriptTag.sumcheckRound g.scalars]) =
            List.zipWith (· - ·) g.scalars
              (honestMessage gate tables r bound rounds.length).scalars := by
          rw [roundEscape]
          simp only [sentDrawn, List.take_left' randomizers, List.drop_left' randomizers, rows,
            lastMessage, List.getLast?_concat]
        intro polynomial
        simp only [polynomial, escape]
        refine ⟨?_, ofCoeffs_natDegree (by simp [RoundPoly.scalars]), ?_⟩
        · intro zero
          apply false_
          have at0 := scalars_sub_eval g (honestMessage gate tables r bound rounds.length) 0
          have at1 := scalars_sub_eval g (honestMessage gate tables r bound rounds.length) 1
          rw [zero, Polynomial.eval_zero] at at0 at1
          rw [List.length_cons, ← honestMessage_sum, ← sum]
          linear_combination -at0 - at1
        · rw [Polynomial.IsRoot, scalars_sub_eval, honestMessage_next, next, sub_self]
    · have drawnEvents : (absorbed.drawn TranscriptTag.sumcheckChallenge).events =
          start ++ (before ++ [.absorb TranscriptTag.sumcheckRound g.scalars] ++
            [.challenge TranscriptTag.sumcheckChallenge c]) := by
        rw [Transcript.drawn, sentEvents, ← draw, List.append_assoc]
      refine ih later drawnEvents ?_ ?_ ?_ next
      · rw [challengesOf, List.filterMap_append, ← challengesOf, sentDrawn, List.append_assoc]
        rfl
      · rw [List.length_append, List.length_singleton]
        rw [List.length_cons] at left
        omega
      · rw [List.append_assoc, List.singleton_append]
        exact true_

end Rounds

/-! ## The theorem -/

section Columns

variable {gate : Gate} {columns : List Poly.MultilinearPoly} {n : ℕ}

/-- The lifted values of the columns. -/
def columnTables (columns : List Poly.MultilinearPoly) : List (ℕ → Fr) :=
  columns.map fun column => column.backing.lifted

/-- A gate's row values over the columns. -/
def rowValue (gate : Gate) (columns : List Poly.MultilinearPoly) (row : ℕ) : Fr :=
  gate.value fun c => cells (columnTables columns) c row

/-- The value of a column's multilinear polynomial. -/
noncomputable def columnAt (point : List Fr) (column : Poly.MultilinearPoly) : Fr :=
  valueAt (multilinearOf column.numVars column.backing.lifted) point

/-- Columns of one variable count, each as its constructor makes it. -/
structure Columns (gate : Gate) (columns : List Poly.MultilinearPoly) (n : ℕ) : Prop where
  arity : columns.length = gate.inputs.length
  vars : ∀ column ∈ columns, column.numVars = n
  built : ∀ column ∈ columns, Poly.MultilinearPoly.new column.backing = some column

theorem Columns.bound (given : Columns gate columns n) :
    Bound columns (columnTables columns) [] n := by
  have each : ∀ column ∈ columns, Poly.Holds column n column.backing.lifted := by
    intro column member
    have holds := Poly.holds_new (given.built column member)
    rwa [given.vars column member] at holds
  clear given
  induction columns with
  | nil => exact List.Forall₂.nil
  | cons column columns ih =>
    exact List.Forall₂.cons (each column List.mem_cons_self)
      (ih fun other member => each other (List.mem_cons_of_mem column member))

/-- The values of the columns at a point, as their extensions. -/
theorem Columns.values (given : Columns gate columns n) {point : List Fr}
    (length : point.length = n) : columns.map (columnAt point) =
      (columnTables columns).map fun table => bindAll point table 0 := by
  rw [columnTables, List.map_map]
  apply List.map_congr_left
  intro column member
  rw [columnAt, Function.comp_apply, bindAll_zero, valueAt_multilinearOf]
  rw [length, given.vars column member]

/-- A gate's value on a row of the columns. -/
theorem Columns.evaluate_row (given : Columns gate columns n) (formed : gate.WellFormed)
    {row : ℕ} (inside : row < 2 ^ n) : (do
      let values ← columns.mapM fun column => column.get row
      gate.evaluate values) = some (rowValue gate columns row) := by
  rw [given.bound.get inside]
  simp only [Option.bind_eq_bind, Option.bind_some, bindAll_nil]
  rw [gate.evaluate_eq formed]
  · rfl
  · rw [List.length_map, columnTables, List.length_map, given.arity]

/-- With nothing bound the sum is the rows' extension at the eq-randomizers. -/
theorem boundSum_start (gate : Gate) (columns : List Poly.MultilinearPoly) (r : List Fr) :
    boundSum gate (columnTables columns) r [] r.length =
      valueAt (multilinearOf r.length (rowValue gate columns)) r := by
  rw [valueAt_multilinearOf _ rfl]
  exact cubeSum_eqWeight _ _ r

/-- With everything bound one weighted row is left. -/
theorem boundSum_end (gate : Gate) (columns : List Poly.MultilinearPoly) {r point : List Fr}
    (same : r.length = point.length) : boundSum gate (columnTables columns) r point 0 =
      eqProduct r point * gate.value fun c =>
        ((columnTables columns).map fun table => bindAll point table 0).getD c 0 := by
  rw [boundSum, cubeSum_zero, bindAll_eqWeight r point same]
  simp only [cells_bind]

end Columns

section Theorem

variable {gate : Gate} {columns : List Poly.MultilinearPoly} {n : ℕ}

/-- The gate is not zero on some row of the columns, or is on each: its value as the source
computes it. -/
def onRow (gate : Gate) (columns : List Poly.MultilinearPoly) (row : ℕ) : Option Fr := do
  let values ← columns.mapM fun column => column.get row
  gate.evaluate values

theorem Columns.length_values (given : Columns gate columns n) (point : List Fr) :
    (columns.map (columnAt point)).length = gate.inputs.length := by
  rw [List.length_map, given.arity]

/-- The prover's run, where the gate vanishes, and the verifier's on its proof. -/
theorem zerocheck_complete (formed : gate.WellFormed) (given : Columns gate columns n)
    (t : Transcript) (vanishes : ∀ row < 2 ^ n, onRow gate columns row = some 0) :
    ∃ proof left t' r point, proveZerocheck gate columns t = some (proof, left, t') ∧
      r.length = n ∧ point.length = n ∧
      t'.events = t.events ++ drawEvents r ++ roundEvents proof.rounds point ++
        [.absorb TranscriptTag.sumcheckFinalEvals proof.finalEvals] ∧
      left.mapM (fun column => column.get 0) = some proof.finalEvals ∧
      proof.finalEvals = columns.map (columnAt point) ∧
      verifyZerocheck gate n proof t = some (.ok (⟨point, proof.finalEvals⟩, t')) := by
  obtain ⟨r, randomizers⟩ : ∃ r, r =
      (t.challengeScalars TranscriptTag.sumcheckChallenge n).1 := ⟨_, rfl⟩
  have rLength : r.length = n := by rw [randomizers, Transcript.challengeScalars_length]
  have rEvents := challengeScalars_events n t
  rw [← randomizers] at rEvents
  have zero : boundSum gate (columnTables columns) r [] n = 0 := by
    have polynomial : multilinearOf n (rowValue gate columns) = 0 :=
      multilinearOf_eq_zero_iff.mpr fun row inside => by
        have here := vanishes row inside
        rw [onRow, given.evaluate_row formed inside] at here
        exact Option.some.inj here
    rw [← rLength, boundSum_start, rLength, polynomial, valueAt, map_zero]
  have weights : Poly.Holds ⟨.fr (Apogee.eqTable r), n⟩ n (bindAll [] (eqWeight r)) := by
    have holds := Poly.holds_fr n (eqWeight r)
    rw [bindAll_nil]
    rwa [← rLength, ← Apogee.eqTable_eq, rLength] at holds
  have eqBuilt : Poly.MultilinearPoly.new (.fr (Apogee.eqTable r)) =
      some ⟨.fr (Apogee.eqTable r), n⟩ := by
    refine @Poly.MultilinearPoly.new_column (.fr (Apogee.eqTable r)) n ?_
    rw [← rLength]
    exact eqTable_length r
  obtain ⟨rounds, left, t', point, proved, length, held, accepted⟩ :=
    proveRounds_accepted formed 0 given.bound given.arity weights
      (t.challengeScalars TranscriptTag.sumcheckChallenge n).2
  obtain ⟨pointLength, events⟩ := verifyRounds_events accepted
  have pointN : point.length = n := pointLength.trans length
  rw [List.nil_append] at held accepted
  rw [zero] at accepted
  have finals := held.get (show 0 < 2 ^ 0 by norm_num)
  rw [← given.values pointN] at finals
  obtain ⟨head, first, headVars⟩ : ∃ head, columns[0]? = some head ∧ head.numVars = n := by
    have inside : 0 < columns.length := by
      rw [given.arity]
      exact List.length_pos_of_ne_nil formed.nonempty
    exact ⟨columns[0], List.getElem?_eq_getElem inside, given.vars _ (List.getElem_mem inside)⟩
  refine ⟨⟨rounds, columns.map (columnAt point)⟩, left,
    t'.appendScalars TranscriptTag.sumcheckFinalEvals (columns.map (columnAt point)), r, point, ?_,
    rLength, pointN, ?_, finals, rfl, ?_⟩
  · rw [proveZerocheck]
    simp only [guard, if_pos given.arity, first, headVars, Option.bind_eq_bind, Option.bind_some,
      Option.pure_def]
    rw [if_pos given.vars]
    simp only [Option.bind_some, ← randomizers, Poly.eqTable_eq, eqBuilt, proved, finals]
  · rw [Transcript.appendScalars]
    simp only [events, rEvents]
  · rw [verifyZerocheck, if_neg (not_not_intro length),
      if_neg (not_not_intro (given.length_values point))]
    simp only [accepted, ← randomizers]
    rw [Poly.eqEval_eq (rLength.trans pointN.symm),
      gate.evaluate_eq formed (given.length_values point),
      boundSum_end gate columns (rLength.trans pointN.symm), ← given.values pointN]
    simp only [Option.bind_eq_bind, Option.bind_some, ne_eq, not_true_eq_false, if_false]
    rfl

/-- What an accepting run has checked. -/
theorem verifyZerocheck_ok {proof : SumcheckProof} {claim : SumcheckClaim} {t t' : Transcript}
    (formed : gate.WellFormed)
    (accepted : verifyZerocheck gate n proof t = some (.ok (claim, t'))) :
    let drawn := t.challengeScalars TranscriptTag.sumcheckChallenge n
    ∃ last t₁, claim.finalEvals = proof.finalEvals ∧ proof.rounds.length = n ∧
      verifyRounds 0 0 proof.rounds drawn.2 = .ok (claim.point, last, t₁) ∧
      last = eqProduct drawn.1 claim.point * gate.value (fun c => claim.finalEvals.getD c 0) ∧
      t' = t₁.appendScalars TranscriptTag.sumcheckFinalEvals proof.finalEvals := by
  intro drawn
  rw [verifyZerocheck] at accepted
  by_cases rounds : proof.rounds.length = n
  swap
  · rw [if_pos rounds] at accepted
    cases accepted
  by_cases arity : proof.finalEvals.length = gate.inputs.length
  swap
  · rw [if_neg (not_not_intro rounds), if_pos arity] at accepted
    cases accepted
  rw [if_neg (not_not_intro rounds), if_neg (not_not_intro arity)] at accepted
  cases ran : verifyRounds 0 0 proof.rounds drawn.2 with
  | error e =>
    simp only [drawn] at ran
    simp only [ran] at accepted
    cases accepted
  | ok result =>
    obtain ⟨point, last, t₁⟩ := result
    have pointN : point.length = n := (verifyRounds_events ran).1.trans rounds
    have same : drawn.1.length = point.length := by
      rw [pointN]
      exact Transcript.challengeScalars_length _ _ _
    simp only [drawn] at ran same
    simp only [ran] at accepted
    rw [Poly.eqEval_eq same, gate.evaluate_eq formed arity] at accepted
    simp only [Option.bind_eq_bind, Option.bind_some] at accepted
    by_cases check : eqProduct drawn.1 point *
        gate.value (fun c => proof.finalEvals.getD c 0) = last
    · simp only [drawn] at check
      rw [if_neg (not_not_intro check)] at accepted
      have kept := Option.some.inj accepted
      rw [Except.ok.injEq, Prod.mk.injEq] at kept
      obtain ⟨rfl, rfl⟩ := kept
      exact ⟨last, t₁, rfl, rounds, rfl, check.symm, rfl⟩
    · simp only [drawn] at check
      rw [if_pos check] at accepted
      cases accepted

/-- An accepted proof with true final values, over a gate that is not zero on some row. -/
theorem zerocheck_sound (formed : gate.WellFormed) (given : Columns gate columns n)
    {proof : SumcheckProof} {claim : SumcheckClaim} {t t' : Transcript}
    (accepted : verifyZerocheck gate n proof t = some (.ok (claim, t')))
    (finals : claim.finalEvals = columns.map (columnAt claim.point))
    (nonzero : ∃ row < 2 ^ n, onRow gate columns row ≠ some 0) :
    (∃ r later, r.length = n ∧ t'.events = t.events ++ drawEvents r ++ later ∧
      let polynomial := multilinearOf n (rowValue gate columns)
      polynomial ≠ 0 ∧ IsMultilinear polynomial ∧ valueAt polynomial r = 0) ∨
    RoundEscapes gate (columnTables columns) n t.events t'.events := by
  obtain ⟨r, randomizers⟩ : ∃ r, r =
      (t.challengeScalars TranscriptTag.sumcheckChallenge n).1 := ⟨_, rfl⟩
  have rLength : r.length = n := by rw [randomizers, Transcript.challengeScalars_length]
  have rEvents := challengeScalars_events n t
  rw [← randomizers] at rEvents
  obtain ⟨last, t₁, -, rounds, ran, check, rfl⟩ := verifyZerocheck_ok formed accepted
  rw [← randomizers] at check
  obtain ⟨pointLength, events⟩ := verifyRounds_events ran
  have pointN : claim.point.length = n := pointLength.trans rounds
  obtain ⟨row, inside, notZero⟩ := nonzero
  rw [onRow, given.evaluate_row formed inside] at notZero
  have holds : last = boundSum gate (columnTables columns) r ([] ++ claim.point) 0 := by
    rw [List.nil_append, boundSum_end gate columns (rLength.trans pointN.symm),
      ← given.values pointN, ← finals]
    exact check
  by_cases root : boundSum gate (columnTables columns) r [] n = 0
  · refine Or.inl ⟨r, roundEvents proof.rounds claim.point ++
      [.absorb TranscriptTag.sumcheckFinalEvals proof.finalEvals], rLength, ?_, ?_,
      multilinearOf_isMultilinear n _, ?_⟩
    · rw [Transcript.appendScalars]
      simp only [events, rEvents, List.append_assoc]
    · intro zero
      apply notZero
      rw [multilinearOf_eq_zero_iff.mp zero row inside]
    · rw [← rLength, boundSum_start, rLength] at root
      exact root
  · right
    have drawn : challengesOf (drawEvents r) = r ++ [] := by
      rw [List.append_nil, challengesOf, drawEvents, List.filterMap_map]
      exact List.filterMap_some
    have count : ([] : List Fr).length + proof.rounds.length = n := by
      rw [List.length_nil, zero_add, rounds]
    have false_ : (0 : Fr) ≠ boundSum gate (columnTables columns) r [] proof.rounds.length := by
      rw [rounds]
      exact fun zero => root zero.symm
    obtain ⟨before, c, later, same, hits⟩ :=
      roundEscapes_of_false ran rEvents drawn rLength count holds false_
    refine ⟨before, c, later ++ [.absorb TranscriptTag.sumcheckFinalEvals proof.finalEvals], ?_,
      hits⟩
    rw [Transcript.appendScalars]
    simp only [same, List.append_assoc, List.cons_append]

end Theorem

/-- The proof of a gate that vanishes is accepted: at the point the prover bound, with the
columns' values there, and with one transcript on both sides. And where a proof is accepted,
its final values the columns', over a gate that does not vanish, the eq-randomizers are a root
of the gate's own polynomial over the columns, or a round's challenge is a root of a polynomial
fixed before it. -/
theorem zerocheck_exact {inputs : List PolyAddress} {terms : List GateTerm} {gate : Gate}
    (declared : Gate.new inputs terms = .ok gate) {columns : List Poly.MultilinearPoly} {n : ℕ}
    (given : Columns gate columns n) (t : Transcript) :
    ((∀ row < 2 ^ n, onRow gate columns row = some 0) →
      ∃ proof left t' r point, proveZerocheck gate columns t = some (proof, left, t') ∧
        r.length = n ∧ point.length = n ∧
        t'.events = t.events ++ drawEvents r ++ roundEvents proof.rounds point ++
          [.absorb TranscriptTag.sumcheckFinalEvals proof.finalEvals] ∧
        left.mapM (fun column => column.get 0) = some proof.finalEvals ∧
        proof.finalEvals = columns.map (columnAt point) ∧
        verifyZerocheck gate n proof t = some (.ok (⟨point, proof.finalEvals⟩, t'))) ∧
    ∀ proof claim t', verifyZerocheck gate n proof t = some (.ok (claim, t')) →
      claim.finalEvals = columns.map (columnAt claim.point) →
      (∃ row < 2 ^ n, onRow gate columns row ≠ some 0) →
      (∃ r later, r.length = n ∧ t'.events = t.events ++ drawEvents r ++ later ∧
        let polynomial := multilinearOf n (rowValue gate columns)
        polynomial ≠ 0 ∧ IsMultilinear polynomial ∧ valueAt polynomial r = 0) ∨
      RoundEscapes gate (columnTables columns) n t.events t'.events := by
  have formed := Gate.wellFormed_of_new declared
  exact ⟨zerocheck_complete formed given t, fun _ _ _ accepted finals nonzero =>
    zerocheck_sound formed given accepted finals nonzero⟩

/-- A gate that reads one column of zeros. -/
theorem zerocheck_exact_zeros : ∃ proof left t' r point,
    proveZerocheck ⟨[⟨0⟩], [⟨1, 0, some 0⟩]⟩
      [⟨(Poly.Column.u8 [0, 0]).backing, 1⟩] ⟨fun _ _ => 1, []⟩ = some (proof, left, t') ∧
    r.length = 1 ∧ point.length = 1 ∧
    t'.events = [] ++ drawEvents r ++ roundEvents proof.rounds point ++
      [.absorb TranscriptTag.sumcheckFinalEvals proof.finalEvals] ∧
    left.mapM (fun column => column.get 0) = some proof.finalEvals ∧
    proof.finalEvals = [⟨(Poly.Column.u8 [0, 0]).backing, 1⟩].map (columnAt point) ∧
    verifyZerocheck ⟨[⟨0⟩], [⟨1, 0, some 0⟩]⟩ 1 proof ⟨fun _ _ => 1, []⟩ =
      some (.ok (⟨point, proof.finalEvals⟩, t')) := by
  refine (@zerocheck_exact [⟨0⟩] [⟨1, 0, some 0⟩] ⟨[⟨0⟩], [⟨1, 0, some 0⟩]⟩ rfl
    [⟨(Poly.Column.u8 [0, 0]).backing, 1⟩] 1 ⟨rfl, ?_, ?_⟩ ⟨fun _ _ => 1, []⟩).1 ?_
  · intro column member
    rw [List.mem_singleton.mp member]
  · intro column member
    rw [List.mem_singleton.mp member]
    exact @Poly.MultilinearPoly.new_column (.u8 [0, 0]) 1 rfl
  · decide +kernel

end Apogee.Zerocheck
