import Apogee.Recursion.Schedule

/-! # A schedule keeps every value

Without base-field calls a run's values depend on values alone: a call computes its
outputs from the cells it reads and writes them. Calls that do not clash commute, so
every order that keeps the clashing ones ends with the same values.
-/

namespace Apogee.Recursion.Native

open Alu Math

section Values

/-- What a call writes, in order; `none` where it is refused. -/
def outputs (permute : Lanes → Lanes) (blob : List UInt8) (v : Word → Fr) :
    Op → Option (List (Word × Fr))
  | .fr code d a b =>
    if code.toNat = FrOp.mul then some [(d, v a * v b)]
    else if code.toNat = FrOp.add then some [(d, v a + v b)]
    else if code.toNat = FrOp.sub then some [(d, v a - v b)]
    else if code.toNat = FrOp.mac then some [(d, v d + v a * v b)]
    else if code.toNat = FrOp.inv then some [(d, (v a)⁻¹)]
    else if code.toNat = FrOp.eq then if v a ≠ v b then none else some []
    else if code.toNat = FrOp.imm then some [(d, (b.toNat : Fr))]
    else if code.toNat = FrOp.shl then
      some [(d, v a * ((2 ^ 32 : ℕ) : Fr) + (b.toNat : Fr))]
    else if code.toNat = FrOp.digit then
      let digit : Fr := (((v a).val % 2 ^ FrOp.digitBits : ℕ) : Fr)
      some [(b, (v a - digit) * ((2 ^ FrOp.digitBits : ℕ) : Fr)⁻¹), (d, digit)]
    else none
  | .duplex n s x y d =>
    let lanes := permute (absorbedLanes v n s x y)
    some [(d, lanes.first), (d + 1, lanes.second), (d + 2, lanes.capacity)]
  | .fq _ _ _ _ => none
  | .importCell cell offset =>
    if offset.toNat + 32 ≤ blob.length then
      some [(cell, imported ((blob.drop offset.toNat).take 32))]
    else none

/-- Values written one after the other. -/
def writeCells (v : Word → Fr) (written : List (Word × Fr)) : Word → Fr :=
  written.foldl (fun v entry => Function.update v entry.1 entry.2) v

/-- One call over the values alone. -/
def valueStep (permute : Lanes → Lanes) (blob : List UInt8) (v : Word → Fr) (op : Op) :
    Option (Word → Fr) :=
  (outputs permute blob v op).map (writeCells v)

variable {permute : Lanes → Lanes} {blob : List UInt8}

@[simp]
theorem touch_values (m : Memory) (c : Word) (time : ℕ) : (m.touch c time).values = m.values := rfl

@[simp]
theorem write_values (m : Memory) (c : Word) (v : Fr) (time : ℕ) :
    (m.write c v time).values = Function.update m.values c v := rfl

theorem touchAll_values (m : Memory) (c : Word) (count time : ℕ) :
    (m.touchAll c count time).values = m.values := by
  rw [Memory.touchAll]
  induction count with
  | zero => rfl
  | succ count ih => rw [List.range_succ, List.foldl_append, List.foldl_cons, List.foldl_nil,
      touch_values, ih]

@[simp]
theorem frReads_values (m : Memory) (code a b : Word) : (frReads m code a b).values = m.values := by
  rw [frReads]
  split <;> rfl

/-- A memory a call leaves holds what its outputs write. -/
def Leaves (v : Word → Fr) (left : Except Stop Memory) (written : Option (List (Word × Fr))) :
    Prop :=
  left.toOption.map Memory.values = written.map (writeCells v)

theorem Leaves.ite {v : Word → Fr} {cond : Prop} [Decidable cond] {yes no : Except Stop Memory}
    {yes' no' : Option (List (Word × Fr))} (holds : Leaves v yes yes') (fails : Leaves v no no') :
    Leaves v (if cond then yes else no) (if cond then yes' else no') := by
  split
  · exact holds
  · exact fails

theorem Leaves.refused (v : Word → Fr) : Leaves v (.error .refused) none := rfl

/-- One cell written over the values. -/
theorem leaves_write (m read : Memory) (same : read.values = m.values) (c : Word) (x : Fr)
    (time : ℕ) : Leaves m.values (.ok (read.write c x time)) (some [(c, x)]) := by
  rw [Leaves, Except.toOption, Option.map_some, write_values, same]
  rfl

theorem frStep_leaves (m : Memory) (code d a b : Word) :
    Leaves m.values (frStep m code d a b) (outputs permute blob m.values (.fr code d a b)) := by
  have same := frReads_values m code a b
  have one (x : Fr) := leaves_write m (frReads m code a b) same d x (m.clock + 3)
  refine .ite (one _) (.ite (one _) (.ite (one _) (.ite (one _) (.ite (one _) (.ite
    (.ite (.refused _) ?_) (.ite (one _) (.ite (one _) (.ite ?_ (.refused _)))))))))
  · exact congrArg some same
  · rw [Leaves, Except.toOption, Option.map_some, write_values, write_values, same]
    rfl

theorem step_leaves (m : Memory) {op : Op} (plain : op.isFq = false) :
    Leaves m.values (step permute blob m op) (outputs permute blob m.values op) := by
  cases op with
  | fr code d a b => exact frStep_leaves { m with clock := m.clock + 4 } code d a b
  | fq word d a b => cases plain
  | importCell cell offset =>
    exact .ite (leaves_write m { m with clock := m.clock + 4 } rfl cell _ _) (.refused _)
  | duplex n s x y d =>
    have reads : ∀ read : Memory, read.values = m.values → ∀ lanes : Lanes, ∀ time,
        Leaves m.values (.ok (read.writeAll d [lanes.first, lanes.second, lanes.capacity] time))
          (some [(d, lanes.first), (d + 1, lanes.second), (d + 2, lanes.capacity)]) := by
      intro read same lanes time
      have zeroth : d + BitVec.ofNat 32 0 = d := BitVec.add_zero d
      rw [Leaves, Except.toOption, Option.map_some, Option.map_some, Memory.writeAll]
      simp only [List.zipIdx_cons, List.zipIdx_nil, List.foldl_cons, List.foldl_nil, write_values,
        same, zeroth]
      rfl
    refine reads _ ?_ _ _
    dsimp only
    split_ifs <;> simp only [touch_values, touchAll_values]

/-- A run's values, when it succeeds. -/
theorem runFrom_values {ops : List Op} (plain : ∀ op ∈ ops, op.isFq = false) (i : ℕ) (m : Memory) :
    (runFrom permute blob i ops m).toOption.map Memory.values =
      ops.foldlM (valueStep permute blob) m.values := by
  induction ops generalizing i m with
  | nil => rfl
  | cons op ops ih =>
    obtain ⟨first, rest⟩ := List.forall_mem_cons.mp plain
    have leaves := @step_leaves permute blob m op first
    rw [List.foldlM_cons, valueStep, ← show _ = _ from leaves, runFrom]
    cases step permute blob m op with
    | error stop => rfl
    | ok m' => exact ih rest (i + 1) m'

end Values

section Footprints

variable {permute : Lanes → Lanes} {blob : List UInt8}

/-- Values that agree on the cells a call reads give it the same outputs. -/
theorem outputs_congr {op : Op} {v w : Word → Fr} (agree : ∀ c ∈ (cellsOf op).1, v c = w c) :
    outputs permute blob v op = outputs permute blob w op := by
  cases op with
  | fq word d a b => rfl
  | importCell cell offset => rfl
  | duplex n s x y d =>
    have state : v s = w s ∧ v (s + 1) = w (s + 1) ∧ v (s + 2) = w (s + 2) :=
      ⟨agree _ (by simp [cellsOf]), agree _ (by simp [cellsOf]), agree _ (by simp [cellsOf])⟩
    have first (some_ : 1 ≤ n.toNat) : v x = w x := agree x (by simp [cellsOf, some_])
    have second (two : n.toNat = 2) : v y = w y := agree y (by simp [cellsOf, two])
    have same : absorbedLanes v n s x y = absorbedLanes w n s x y := by
      rw [absorbedLanes, absorbedLanes, state.1, state.2.1, state.2.2]
      congr 1
      · split
        · rename_i some_
          exact first some_
        · rfl
      · split
        · rename_i two
          exact second two
        · rfl
    rw [outputs, outputs, same]
  | fr code d a b =>
    have readsA (reads : code.toNat ≠ FrOp.imm) : v a = w a := by
      refine agree a ?_
      rw [cellsOf, if_neg reads]
      split_ifs <;> simp
    have readsB (reads : code.toNat ≠ FrOp.imm ∧ code.toNat ≠ FrOp.shl ∧ code.toNat ≠ FrOp.inv ∧
        code.toNat ≠ FrOp.digit) : v b = w b := by
      refine agree b ?_
      rw [cellsOf, if_neg reads.1, if_neg (not_or.mpr ⟨reads.2.1, reads.2.2.1⟩),
        if_neg reads.2.2.2]
      split_ifs <;> simp
    have readsD (mac : code.toNat = FrOp.mac) : v d = w d := by
      refine agree d ?_
      rw [cellsOf, mac, if_neg (by decide), if_neg (by decide), if_pos rfl]
      exact List.mem_cons_self
    rw [outputs, outputs]
    split_ifs with mul add sub mac inv eq differ differ' differ' imm shl digit
    · rw [readsA (by rw [mul]; decide), readsB (by rw [mul]; decide)]
    · rw [readsA (by rw [add]; decide), readsB (by rw [add]; decide)]
    · rw [readsA (by rw [sub]; decide), readsB (by rw [sub]; decide)]
    · rw [readsA (by rw [mac]; decide), readsB (by rw [mac]; decide), readsD mac]
    · rw [readsA (by rw [inv]; decide)]
    · rfl
    · rw [readsA (by rw [eq]; decide), readsB (by rw [eq]; decide)] at differ
      exact absurd differ differ'
    · rw [readsA (by rw [eq]; decide), readsB (by rw [eq]; decide)] at differ
      exact absurd differ' differ
    · rfl
    · rfl
    · rw [readsA (by rw [shl]; decide)]
    · rw [readsA (by rw [digit]; decide)]
    · rfl

/-- A call writes the cells it names. -/
theorem outputs_cells {op : Op} {v : Word → Fr} {written : List (Word × Fr)}
    (wrote : outputs permute blob v op = some written) (c : Word) :
    c ∈ (cellsOf op).2 ↔ c ∈ written.map Prod.fst := by
  cases op with
  | fq word d a b => cases wrote
  | importCell cell offset =>
    rw [outputs] at wrote
    split at wrote
    · cases wrote
      rfl
    · cases wrote
  | duplex n s x y d =>
    cases wrote
    rfl
  | fr code d a b =>
    have one (left : code.toNat ≠ FrOp.eq) (left' : code.toNat ≠ FrOp.digit) :
        (cellsOf (.fr code d a b)).2 = [d] := by
      rw [cellsOf]
      split_ifs
      · rfl
      · rfl
      · rfl
      · rfl
    rw [outputs] at wrote
    split_ifs at wrote with mul add sub mac inv eq differ imm shl digit
    · cases wrote
      rw [one (by rw [mul]; decide) (by rw [mul]; decide)]
      rfl
    · cases wrote
      rw [one (by rw [add]; decide) (by rw [add]; decide)]
      rfl
    · cases wrote
      rw [one (by rw [sub]; decide) (by rw [sub]; decide)]
      rfl
    · cases wrote
      rw [one (by rw [mac]; decide) (by rw [mac]; decide)]
      rfl
    · cases wrote
      rw [one (by rw [inv]; decide) (by rw [inv]; decide)]
      rfl
    · cases wrote
      rw [cellsOf, eq]
      rfl
    · cases wrote
      rw [one (by rw [imm]; decide) (by rw [imm]; decide)]
      rfl
    · cases wrote
      rw [one (by rw [shl]; decide) (by rw [shl]; decide)]
      rfl
    · cases wrote
      have both : (cellsOf (.fr code d a b)).2 = [d, b] := by
        rw [cellsOf, digit]
        rfl
      rw [both]
      exact (List.Perm.swap b d []).mem_iff

theorem writeCells_of_notMem {v : Word → Fr} {written : List (Word × Fr)} {c : Word}
    (apart : c ∉ written.map Prod.fst) : writeCells v written c = v c := by
  induction written generalizing v with
  | nil => rfl
  | cons entry written ih =>
    rw [List.map_cons, List.mem_cons, not_or] at apart
    exact (ih apart.2).trans (Function.update_of_ne apart.1 _ _)

theorem writeCells_congr {v w : Word → Fr} {written : List (Word × Fr)} {c : Word}
    (member : c ∈ written.map Prod.fst) : writeCells v written c = writeCells w written c := by
  induction written generalizing v w with
  | nil => cases member
  | cons entry written ih =>
    by_cases later : c ∈ written.map Prod.fst
    · exact ih later
    · have here : c = entry.1 := (List.mem_cons.mp member).resolve_right later
      have first (u : Word → Fr) : writeCells u (entry :: written) c = entry.2 := by
        refine (writeCells_of_notMem later).trans ?_
        rw [here]
        exact Function.update_self _ _ _
      rw [first, first]

/-- A call reads and writes the cells it names. -/
theorem valueStep_footprint (op : Op) : Footprint (valueStep permute blob · op)
    {c | c ∈ (cellsOf op).1} {c | c ∈ (cellsOf op).2} := by
  constructor
  · intro v v' ran c apart
    obtain ⟨written, wrote, rfl⟩ := Option.map_eq_some_iff.mp ran
    exact writeCells_of_notMem fun member => apart ((outputs_cells wrote c).mpr member)
  · intro v w agree
    have same := @outputs_congr permute blob op v w agree
    cases wrote : outputs permute blob v op with
    | none =>
      refine .inl ⟨?_, ?_⟩
      · rw [valueStep, wrote]
        rfl
      · rw [valueStep, ← same, wrote]
        rfl
    | some written =>
      refine .inr ⟨writeCells v written, writeCells w written, ?_, ?_, fun c member => ?_⟩
      · rw [valueStep, wrote]
        rfl
      · rw [valueStep, ← same, wrote]
        rfl
      · exact writeCells_congr ((outputs_cells wrote c).mp member)

theorem callAt_eq {ops : List Op} {i : ℕ} (inside : i < ops.length) :
    ops[i]? = some (callAt ops i) := by
  rw [callAt, List.getD_eq_getElem?_getD, List.getElem?_eq_getElem inside, Option.getD_some]

/-- Calls that do not clash commute. -/
theorem commutes_of_not_clash {ops : List Op} {i j : ℕ} (iInside : i < ops.length)
    (jInside : j < ops.length) (apart : ¬Clash ops i j) :
    Commutes (fun v i => valueStep permute blob v (callAt ops i)) i j := by
  have iHere := callAt_eq iInside
  have jHere := callAt_eq jInside
  refine Footprint.commutes (valueStep_footprint (callAt ops i))
    (valueStep_footprint (callAt ops j))
    (fun c written => ⟨fun read => apart ?_, fun wrote => apart ?_⟩)
    (fun c written => ⟨fun read => apart ?_, fun wrote => apart ?_⟩)
  · exact ⟨c, .inl ⟨⟨_, iHere, written⟩, .inl ⟨_, jHere, read⟩⟩⟩
  · exact ⟨c, .inl ⟨⟨_, iHere, written⟩, .inr ⟨_, jHere, wrote⟩⟩⟩
  · exact ⟨c, .inr ⟨⟨_, jHere, written⟩, .inl ⟨_, iHere, read⟩⟩⟩
  · exact ⟨c, .inr ⟨⟨_, jHere, written⟩, .inr ⟨_, iHere, wrote⟩⟩⟩

/-- Calls in an order that keeps every clash end with the values of the calls in theirs. -/
theorem values_of_order {ops : List Op} {order : List ℕ} (perm : order.Perm (List.range ops.length))
    (turned : order.Pairwise fun x y => y < x → ¬Clash ops y x) (v : Word → Fr) :
    (order.map (callAt ops)).foldlM (valueStep permute blob) v =
      ops.foldlM (valueStep permute blob) v := by
  have inside : ∀ i ∈ order, i < ops.length := fun i member =>
    List.mem_range.mp (perm.subset member)
  have reorder := @foldlM_reorder _ _ _ (fun v i => valueStep permute blob v (callAt ops i))
    (List.range ops.length) order List.pairwise_lt_range perm
    (turned.imp_of_mem fun {x y} xMember yMember keep before =>
      (commutes_of_not_clash (inside y yMember) (inside x xMember) (keep before)).symm) v
  rw [List.foldlM_map, reorder, ← List.foldlM_map, map_callAt]

end Footprints

section Groups

/-- A run: its call number and its calls. -/
abbrev Group := ℕ × List Op

/-- A run's words. -/
def groupWords (group : Group) : List Word :=
  [BitVec.ofNat 32 group.1, BitVec.ofNat 32 group.2.length] ++
    group.2.flatMap fun op => (op.frame.map Prod.snd).getD []

/-- A run of one family's calls. -/
def Uniform (group : Group) : Prop := ∀ op ∈ group.2, ∃ frame, op.frame = some (group.1, frame)

/-- What an encoder has written: the runs, the one it is in last. -/
structure Wrote (s : Encoder) (groups : List Group) : Prop where
  body : s.encoded.body = groups.flatMap groupWords
  uniform : ∀ group ∈ groups, Uniform group
  filled : ∀ group ∈ groups, group.2 ≠ []
  run : s.run = groups.getLast?.map fun group =>
    (group.1, (groups.dropLast.flatMap groupWords).length)

/-- The second word of what follows is the one modified. -/
theorem modify_count (before rest : List Word) (number count : Word) (f : Word → Word) :
    (before ++ number :: count :: rest).modify (before.length + 1) f =
      before ++ number :: f count :: rest := by
  induction before with
  | nil => rfl
  | cons word before ih => exact congrArg (word :: ·) ih

/-- A frame more. -/
theorem Wrote.push {s : Encoder} {groups : List Group} (wrote : Wrote s groups) {op : Op}
    {number : ℕ} {frame : List Word} (framed : op.frame = some (number, frame)) :
    ∃ groups', Wrote (s.push number frame) groups' ∧
      groups'.flatMap Prod.snd = groups.flatMap Prod.snd ++ [op] := by
  have words : (op.frame.map Prod.snd).getD [] = frame := by rw [framed]; rfl
  have fresh : Wrote ⟨{ s.encoded with
      body := s.encoded.body ++ [BitVec.ofNat 32 number, 1] ++ frame },
      some (number, s.encoded.body.length)⟩ (groups ++ [(number, [op])]) := by
    refine ⟨?_, List.forall_mem_append.mpr ⟨wrote.uniform, ?_⟩,
      List.forall_mem_append.mpr ⟨wrote.filled, List.forall_mem_singleton.mpr nofun⟩, ?_⟩
    · rw [List.flatMap_append, List.flatMap_singleton, groupWords, List.flatMap_singleton, words,
        ← wrote.body]
      exact List.append_assoc _ _ _
    · refine List.forall_mem_singleton.mpr (List.forall_mem_singleton.mpr ⟨frame, framed⟩)
    · rw [List.getLast?_concat, List.dropLast_concat, ← wrote.body]
      rfl
  have freshCalls : (groups ++ [(number, [op])]).flatMap Prod.snd =
      groups.flatMap Prod.snd ++ [op] := by
    rw [List.flatMap_append, List.flatMap_singleton]
  rw [Encoder.push]
  cases groups using List.reverseRecOn with
  | nil =>
    rw [wrote.run]
    exact ⟨_, fresh, freshCalls⟩
  | append_singleton before last =>
    rw [wrote.run, List.getLast?_concat, List.dropLast_concat]
    dsimp only [Option.map_some]
    by_cases same : last.1 = number
    · rw [if_pos same]
      refine ⟨before ++ [(number, last.2 ++ [op])], ⟨?_, ?_, ?_, ?_⟩, ?_⟩
      · dsimp only
        have counted : BitVec.ofNat 32 last.2.length + 1 =
            BitVec.ofNat 32 (last.2 ++ [op]).length := by
          rw [List.length_append, List.length_singleton, BitVec.ofNat_add]
          rfl
        rw [wrote.body, List.flatMap_append, List.flatMap_append, List.flatMap_singleton,
          List.flatMap_singleton, groupWords, groupWords, ← counted, List.flatMap_append,
          List.flatMap_singleton, words, same]
        simp only [List.cons_append, List.nil_append, modify_count, List.append_assoc]
      · obtain ⟨older, lastUniform⟩ := List.forall_mem_append.mp wrote.uniform
        refine List.forall_mem_append.mpr ⟨older, List.forall_mem_singleton.mpr ?_⟩
        refine List.forall_mem_append.mpr ⟨fun call member => ?_,
          List.forall_mem_singleton.mpr ⟨frame, framed⟩⟩
        rw [← same]
        exact List.forall_mem_singleton.mp lastUniform call member
      · exact List.forall_mem_append.mpr ⟨(List.forall_mem_append.mp wrote.filled).1,
          List.forall_mem_singleton.mpr (by simp)⟩
      · rw [List.getLast?_concat, List.dropLast_concat]
        dsimp only [Option.map_some]
        rw [same]
      · rw [List.flatMap_append, List.flatMap_append, List.flatMap_singleton,
          List.flatMap_singleton, List.append_assoc]
    · rw [if_neg same]
      exact ⟨_, fresh, freshCalls⟩

/-- An import in the blob's order, or a frame more. -/
theorem encodeStep_spec {s : Encoder} {groups : List Group} (wrote : Wrote s groups) (op : Op) :
    (∃ cell offset, op = .importCell cell offset ∧
      encodeStep s op = if offset.toNat = 32 * s.encoded.imports.length then
        some { s with encoded := { s.encoded with imports := s.encoded.imports ++ [cell] } }
      else none) ∨
    ∃ s' groups', op.family ≠ 0 ∧ encodeStep s op = some s' ∧ Wrote s' groups' ∧
      s'.encoded.imports = s.encoded.imports ∧
        groups'.flatMap Prod.snd = groups.flatMap Prod.snd ++ [op] := by
  have imports (number : ℕ) (frame : List Word) :
      (s.push number frame).encoded.imports = s.encoded.imports := by
    rw [Encoder.push]
    split
    · split
      · rfl
      · rfl
    · rfl
  cases op with
  | importCell cell offset => exact .inl ⟨cell, offset, rfl, rfl⟩
  | fr code d a b =>
    obtain ⟨groups', wrote', calls⟩ := wrote.push (show (Op.fr code d a b).frame = _ from rfl)
    exact .inr ⟨_, groups', Nat.succ_ne_zero _, rfl, wrote', imports _ _, calls⟩
  | duplex n s' x y d =>
    obtain ⟨groups', wrote', calls⟩ := wrote.push (show (Op.duplex n s' x y d).frame = _ from rfl)
    exact .inr ⟨_, groups', Nat.succ_ne_zero _, rfl, wrote', imports _ _, calls⟩
  | fq word d a b =>
    obtain ⟨groups', wrote', calls⟩ := wrote.push (show (Op.fq word d a b).frame = _ from rfl)
    exact .inr ⟨_, groups', Nat.succ_ne_zero _, rfl, wrote', imports _ _, calls⟩

/-- A tape's imports: their cells and their offsets. -/
def importsOf (ops : List Op) : List (Word × Word) :=
  ops.filterMap fun
    | .importCell cell offset => some (cell, offset)
    | _ => none

/-- Imports that read a blob's words in order, from a place on. -/
def InBlobOrder (place : ℕ) (ops : List Op) : Prop :=
  ∀ k entry, (importsOf ops)[k]? = some entry → entry.2.toNat = 32 * (place + k)

/-- Not an import. -/
def Op.isCall (op : Op) : Bool := op.family != 0

/-- An encoder takes imports in the blob's order, and writes every other call. -/
theorem encode_steps {ops : List Op} {s : Encoder} {groups : List Group} (wrote : Wrote s groups)
    (ordered : InBlobOrder s.encoded.imports.length ops) :
    ∃ s' groups', ops.foldlM encodeStep s = some s' ∧ Wrote s' groups' ∧
      s'.encoded.imports = s.encoded.imports ++ (importsOf ops).map Prod.fst ∧
        groups'.flatMap Prod.snd = groups.flatMap Prod.snd ++ ops.filter Op.isCall := by
  induction ops generalizing s groups with
  | nil => exact ⟨s, groups, rfl, wrote, (List.append_nil _).symm, (List.append_nil _).symm⟩
  | cons op ops ih =>
    rcases encodeStep_spec wrote op with ⟨cell, offset, rfl, stepped⟩ |
      ⟨s₁, groups₁, call, stepped, wrote₁, imports, calls⟩
    · have first : offset.toNat = 32 * s.encoded.imports.length := ordered 0 (cell, offset) rfl
      rw [if_pos first] at stepped
      have wrote₁ : Wrote { s with encoded :=
          { s.encoded with imports := s.encoded.imports ++ [cell] } } groups :=
        ⟨wrote.body, wrote.uniform, wrote.filled, wrote.run⟩
      obtain ⟨s', groups', ran, wrote', imports, calls⟩ := ih wrote₁ (fun k entry found => by
        have here := ordered (k + 1) entry found
        rw [List.length_append, List.length_singleton]
        omega)
      refine ⟨s', groups', ?_, wrote', ?_, calls⟩
      · rw [List.foldlM_cons, stepped]
        exact ran
      · rw [imports, List.append_assoc]
        rfl
    · have none : importsOf (op :: ops) = importsOf ops := by
        rw [importsOf, List.filterMap_cons_none]
        · rfl
        · cases op with
          | importCell cell offset => exact absurd rfl call
          | _ => rfl
      rw [InBlobOrder, none, ← imports] at ordered
      obtain ⟨s', groups', ran, wrote', imports', calls'⟩ := ih wrote₁ ordered
      refine ⟨s', groups', ?_, wrote', ?_, ?_⟩
      · rw [List.foldlM_cons, stepped]
        exact ran
      · rw [imports', imports, none]
      · have kept : op.isCall = true := bne_iff_ne.mpr call
        rw [calls', calls, List.filter_cons_of_pos kept, List.append_assoc]
        rfl

/-- A frame is decoded as its call. -/
theorem decodeFrame_frame {op : Op} {number : ℕ} {frame : List Word}
    (framed : op.frame = some (number, frame)) :
    frameWidth (BitVec.ofNat 32 number) = some frame.length ∧
      decodeFrame (BitVec.ofNat 32 number) frame = some op := by
  cases op with
  | importCell cell offset => cases framed
  | fr code d a b =>
    cases framed
    exact ⟨rfl, rfl⟩
  | duplex n s x y d =>
    cases framed
    exact ⟨rfl, rfl⟩
  | fq word d a b =>
    cases framed
    exact ⟨rfl, rfl⟩

/-- A run's frames are decoded as its calls. -/
theorem decodeFrames_group {number width : ℕ} {ops : List Op} (uniform : Uniform (number, ops))
    (wide : frameWidth (BitVec.ofNat 32 number) = some width) (rest : List Word) :
    decodeFrames (BitVec.ofNat 32 number) width ops.length
      ((ops.flatMap fun op => (op.frame.map Prod.snd).getD []) ++ rest) = some (ops, rest) := by
  induction ops with
  | nil => rfl
  | cons op ops ih =>
    obtain ⟨⟨frame, framed⟩, others⟩ := List.forall_mem_cons.mp uniform
    obtain ⟨width', decoded⟩ := decodeFrame_frame framed
    have length : frame.length = width := Option.some.inj (width'.symm.trans wide)
    have words : (op.frame.map Prod.snd).getD [] = frame := by rw [framed]; rfl
    rw [List.length_cons, decodeFrames, List.flatMap_cons, words, List.append_assoc, ← length,
      if_neg (by rw [List.length_append]; omega), List.take_left, List.drop_left, decoded]
    rw [← length] at ih
    simp only [Option.bind_eq_bind, Option.bind_some, ih others]

/-- Runs are decoded as their calls. -/
theorem decodeRuns_groups {groups : List Group} (uniform : ∀ group ∈ groups, Uniform group)
    (filled : ∀ group ∈ groups, group.2 ≠ [])
    (few : ∀ group ∈ groups, group.2.length < 2 ^ 32) {fuel : ℕ} (enough : groups.length ≤ fuel) :
    decodeRuns fuel (groups.flatMap groupWords) = some (groups.flatMap Prod.snd) := by
  induction groups generalizing fuel with
  | nil => cases fuel <;> rfl
  | cons group groups ih =>
    obtain ⟨groupUniform, uniform⟩ := List.forall_mem_cons.mp uniform
    obtain ⟨groupFilled, filled⟩ := List.forall_mem_cons.mp filled
    obtain ⟨groupFew, few⟩ := List.forall_mem_cons.mp few
    obtain ⟨op, ops, calls⟩ := List.exists_cons_of_ne_nil groupFilled
    obtain ⟨frame, framed⟩ := groupUniform op (by rw [calls]; exact List.mem_cons_self)
    obtain ⟨wide, -⟩ := decodeFrame_frame framed
    cases fuel with
    | zero => exact absurd enough (by simp)
    | succ fuel =>
      have count : (BitVec.ofNat 32 group.2.length).toNat = group.2.length := by
        rw [BitVec.toNat_ofNat, Nat.mod_eq_of_lt groupFew]
      have frames := decodeFrames_group groupUniform wide (groups.flatMap groupWords)
      have shape : (group :: groups).flatMap groupWords =
          BitVec.ofNat 32 group.1 :: BitVec.ofNat 32 group.2.length ::
            ((group.2.flatMap fun op => (op.frame.map Prod.snd).getD []) ++
              groups.flatMap groupWords) := by
        rw [List.flatMap_cons, groupWords]
        rfl
      have others := ih uniform filled few (Nat.succ_le_succ_iff.mp enough)
      rw [shape, decodeRuns, wide, Option.bind_eq_bind, Option.bind_some, count, frames]
      simp only [Option.bind_eq_bind, Option.bind_some, others]
      rfl

/-- A form is encoded when its imports are in the blob's order, and its body is decoded
as its other calls. -/
theorem encode_spec {ops : List Op} (ordered : InBlobOrder 0 ops) (few : ops.length < 2 ^ 32) :
    ∃ e, encode ops = some e ∧ e.imports = (importsOf ops).map Prod.fst ∧
      decode e.body = some (ops.filter Op.isCall) := by
  have start : Wrote ⟨⟨[], []⟩, none⟩ [] := ⟨rfl, nofun, nofun, rfl⟩
  obtain ⟨s, groups, ran, wrote, imports, calls⟩ := encode_steps start ordered
  rw [List.flatMap_nil, List.nil_append] at calls
  refine ⟨s.encoded, ?_, ?_, ?_⟩
  · rw [encode, ran]
    rfl
  · rw [imports]
    rfl
  · have long (group : Group) (member : group ∈ groups) : group.2.length < 2 ^ 32 := by
      have part := List.sublist_flatten_of_mem (List.mem_map_of_mem (f := Prod.snd) member)
      have length := part.length_le
      rw [← List.flatMap_def, calls] at length
      exact (length.trans (List.length_filter_le _ _)).trans_lt few
    have enough : groups.length ≤ s.encoded.body.length := by
      rw [wrote.body]
      clear wrote calls long imports ran
      induction groups with
      | nil => exact Nat.zero_le _
      | cons group groups ih =>
        rw [List.flatMap_cons, List.length_append, List.length_cons]
        have two : 1 ≤ (groupWords group).length := by
          rw [groupWords]
          exact Nat.succ_le_succ (Nat.zero_le _)
        omega
    rw [decode]
    conv_lhs => arg 2; rw [wrote.body]
    rw [decodeRuns_groups wrote.uniform wrote.filled long enough, calls]

end Groups

section Hoisting

/-- Neither run succeeds, or both do and leave the same values. -/
def SameValues (left right : Except (ℕ × Stop) Memory) : Prop :=
  left.toOption.map Memory.values = right.toOption.map Memory.values

variable {permute : Lanes → Lanes} {blob : List UInt8} {ops : List Op}

/-- A tape's imports, in its order. -/
def importCalls (ops : List Op) : List Op := ops.filter fun op => !op.isCall

theorem importsOf_importCalls (ops : List Op) : importsOf (importCalls ops) = importsOf ops := by
  rw [importCalls, importsOf, importsOf, List.filterMap_filter]
  congr 1
  funext op
  cases op <;> rfl

/-- An import fills a cell that no earlier call accesses, so the two do not clash. -/
theorem ImportsFresh.not_clash (fresh : ImportsFresh ops) {x y : ℕ} (import_ : OfFamily ops x 0)
    (before : y < x) : ¬Clash ops y x := by
  intro clash
  obtain ⟨op, found, family⟩ := import_
  cases op with
  | fr code d a b => cases family
  | duplex n s x y d => cases family
  | fq word d a b => cases family
  | importCell cell offset =>
    have filled {c : Word} (access : Reads ops x c ∨ Writes ops x c) : c = cell := by
      rcases access with ⟨op, found', member⟩ | ⟨op, found', member⟩
      · rw [found] at found'
        cases found'
        cases member
      · rw [found] at found'
        cases found'
        exact List.mem_singleton.mp member
    obtain ⟨c, ⟨there, here⟩ | ⟨here, there⟩⟩ := clash
    · rw [filled here] at there
      exact fresh x cell offset found y before (.inr there)
    · rw [filled (.inr here)] at there
      exact fresh x cell offset found y before there

theorem callAt_import {i : ℕ} (inside : i < ops.length) :
    (!(callAt ops i).isCall) = true ↔ OfFamily ops i 0 := by
  rw [Op.isCall, OfFamily, Bool.not_eq_true', bne_eq_false_iff_eq]
  constructor
  · intro family
    exact ⟨_, callAt_eq inside, family⟩
  · rintro ⟨op, found, family⟩
    rw [callAt_eq inside] at found
    cases found
    exact family

/-- The places of an order's imports, then those of its other calls. -/
def hoistedOrder (ops : List Op) (order : List ℕ) : List ℕ :=
  (order.filter fun i => !(callAt ops i).isCall) ++ order.filter fun i => (callAt ops i).isCall

theorem map_hoistedOrder (order : List ℕ) : (hoistedOrder ops order).map (callAt ops) =
    importCalls (order.map (callAt ops)) ++ (order.map (callAt ops)).filter Op.isCall := by
  rw [hoistedOrder, List.map_append, importCalls, List.filter_map, List.filter_map]
  rfl

theorem hoistedOrder_perm (ops : List Op) (order : List ℕ) :
    (hoistedOrder ops order).Perm order := by
  have split := List.filter_append_perm (fun i => !(callAt ops i).isCall) order
  simp only [Bool.not_not] at split
  exact split

/-- Hoisting the imports keeps every value. -/
theorem values_of_hoisted (fresh : ImportsFresh ops) {order : List ℕ}
    (perm : order.Perm (List.range ops.length))
    (turned : order.Pairwise fun x y => y < x → ¬Clash ops y x) (v : Word → Fr) :
    ((hoistedOrder ops order).map (callAt ops)).foldlM (valueStep permute blob) v =
      ops.foldlM (valueStep permute blob) v := by
  refine values_of_order ((hoistedOrder_perm ops order).trans perm) (List.pairwise_append.mpr
    ⟨turned.filter _, turned.filter _, fun x import_ y _ before => ?_⟩) v
  obtain ⟨member, isImport⟩ := List.mem_filter.mp import_
  exact fresh.not_clash ((callAt_import (List.mem_range.mp (perm.subset member))).mp isImport)
    before

/-- A guest's imports are the form's. -/
theorem hoisted_eq {e : Encoded} (imports : e.imports = (importsOf ops).map Prod.fst)
    (ordered : InBlobOrder 0 ops) : e.hoisted = importCalls ops := by
  have calls : importCalls ops = (importsOf ops).map fun entry => .importCell entry.1 entry.2 := by
    rw [importCalls, importsOf, List.map_filterMap, ← List.filterMap_eq_filter]
    congr 1
    funext op
    cases op <;> rfl
  rw [calls, Encoded.hoisted, imports]
  refine List.ext_getElem (by simp) fun k left right => ?_
  have inside : k < (importsOf ops).length := by simpa using right
  have offset : (importsOf ops)[k].2.toNat = 32 * k := by
    have place := ordered k _ (List.getElem?_eq_getElem inside)
    rwa [zero_add] at place
  rw [List.getElem_map, List.getElem_map, List.getElem_zipIdx, List.getElem_map]
  dsimp only
  rw [zero_add, ← offset, BitVec.ofNat_toNat, BitVec.setWidth_eq]

/-- A form whose imports are in the blob's order, encoded, decoded and run with its imports
up front, leaves the values the calls leave. -/
theorem encoded_values (plain : ∀ op ∈ ops, op.isFq = false) (fresh : ImportsFresh ops)
    {order : List ℕ} (perm : order.Perm (List.range ops.length))
    (turned : order.Pairwise fun x y => y < x → ¬Clash ops y x) {form : List Op}
    (formed : form = order.map (callAt ops)) (ordered : InBlobOrder 0 form)
    (few : ops.length < 2 ^ 32) (m : Memory) :
    ∃ e decoded, encode form = some e ∧ decode e.body = some decoded ∧
      SameValues (run permute blob (e.hoisted ++ decoded) m) (run permute blob ops m) := by
  have length : form.length = ops.length := by
    rw [formed, List.length_map, perm.length_eq, List.length_range]
  obtain ⟨e, encoded, imports, decoded⟩ := encode_spec ordered (length ▸ few)
  refine ⟨e, _, encoded, decoded, ?_⟩
  have hoisted : e.hoisted ++ form.filter Op.isCall =
      (hoistedOrder ops order).map (callAt ops) := by
    rw [map_hoistedOrder, hoisted_eq imports ordered, formed]
  have calls : ∀ op ∈ e.hoisted ++ form.filter Op.isCall, op.isFq = false := by
    intro op member
    rw [hoisted] at member
    obtain ⟨i, place, rfl⟩ := List.mem_map.mp member
    have inside : i < ops.length := by
      rcases List.mem_append.mp place with import_ | call
      · exact List.mem_range.mp (perm.subset (List.mem_filter.mp import_).1)
      · exact List.mem_range.mp (perm.subset (List.mem_filter.mp call).1)
    exact plain _ (List.mem_of_getElem? (callAt_eq inside))
  rw [SameValues, run, run, runFrom_values calls, runFrom_values plain, hoisted]
  exact values_of_hoisted fresh perm turned m.values

/-- An order that keeps the imports' order keeps the imports. -/
theorem importCalls_of_order {order : List ℕ} (perm : order.Perm (List.range ops.length))
    (first : order.Pairwise fun x y => OfFamily ops y 0 → OfFamily ops x 0 ∧ x < y) :
    importCalls (order.map (callAt ops)) = importCalls ops := by
  have inside {i : ℕ} (member : i ∈ order) : i < ops.length :=
    List.mem_range.mp (perm.subset member)
  have increasing : (order.filter fun i => !(callAt ops i).isCall).Pairwise (· < ·) := by
    refine (first.filter _).imp_of_mem fun {x y} _ yMember keeps => ?_
    obtain ⟨member, import_⟩ := List.mem_filter.mp yMember
    exact (keeps ((callAt_import (inside member)).mp import_)).2
  have same : (order.filter fun i => !(callAt ops i).isCall) =
      (List.range ops.length).filter fun i => !(callAt ops i).isCall :=
    List.Perm.eq_of_pairwise (fun x y _ _ left right => absurd left right.asymm) increasing
      (List.pairwise_lt_range.filter _) (perm.filter _)
  conv_rhs => rw [← map_callAt ops]
  rw [importCalls, importCalls, List.filter_map, List.filter_map]
  exact congrArg (List.map (callAt ops)) same

/-- Without base-field calls a schedule permutes the calls and keeps the imports' order and
every value; and where the imports are in the blob's order and the calls fewer than `2^32`,
either form can be encoded, decoded and run with its imports up front. -/
theorem schedule_keeps_values (plain : ∀ op ∈ ops, op.isFq = false) (fresh : ImportsFresh ops) :
    ∃ scheduled, schedule ops = some scheduled ∧ scheduled.Perm ops ∧
      importCalls scheduled = importCalls ops ∧
      ∀ (permute : Lanes → Lanes) (blob : List UInt8) (m : Memory),
        SameValues (run permute blob scheduled m) (run permute blob ops m) ∧
        (InBlobOrder 0 ops → ops.length < 2 ^ 32 → ∀ form ∈ [ops, scheduled],
          ∃ e decoded, encode form = some e ∧ decode e.body = some decoded ∧
            SameValues (run permute blob (e.hoisted ++ decoded) m) (run permute blob ops m)) := by
  obtain ⟨order, scheduled, perm, turned, first⟩ := schedule_spec plain fresh
  have imports := importCalls_of_order perm first
  have permutes : (order.map (callAt ops)).Perm ops := by
    have mapped := perm.map (callAt ops)
    rwa [map_callAt] at mapped
  refine ⟨_, scheduled, permutes, imports, fun permute blob m =>
    ⟨?_, fun ordered few form member => ?_⟩⟩
  · rw [SameValues, run, run,
      runFrom_values fun op member => plain op (permutes.subset member), runFrom_values plain]
    exact values_of_order perm turned m.values
  · rcases List.mem_cons.mp member with rfl | later
    · have increasing : (List.range form.length).Pairwise fun x y => y < x → ¬Clash form y x :=
        List.pairwise_lt_range.imp fun {x y} less before => absurd before less.asymm
      exact encoded_values plain fresh (List.Perm.refl _) increasing (map_callAt form).symm ordered
        few m
    · cases List.mem_singleton.mp later
      have ordered' : InBlobOrder 0 (order.map (callAt ops)) := by
        rw [InBlobOrder, ← importsOf_importCalls, imports, importsOf_importCalls]
        exact ordered
      exact encoded_values plain fresh perm turned rfl ordered' few m

theorem schedule_keeps_values_addThenImport :
    ∃ scheduled, schedule [.fr 2 9 8 8, .importCell 1 0, .fr 1 9 1 9] = some scheduled ∧
      scheduled.Perm [.fr 2 9 8 8, .importCell 1 0, .fr 1 9 1 9] ∧
      importCalls scheduled = [.importCell 1 0] ∧
      ∀ (permute : Lanes → Lanes) (blob : List UInt8) (m : Memory),
        SameValues (run permute blob scheduled m)
          (run permute blob [.fr 2 9 8 8, .importCell 1 0, .fr 1 9 1 9] m) ∧
        (InBlobOrder 0 [.fr 2 9 8 8, .importCell 1 0, .fr 1 9 1 9] →
          [Op.fr 2 9 8 8, .importCell 1 0, .fr 1 9 1 9].length < 2 ^ 32 →
          ∀ form ∈ [[.fr 2 9 8 8, .importCell 1 0, .fr 1 9 1 9], scheduled],
            ∃ e decoded, encode form = some e ∧ decode e.body = some decoded ∧
              SameValues (run permute blob (e.hoisted ++ decoded) m)
                (run permute blob [.fr 2 9 8 8, .importCell 1 0, .fr 1 9 1 9] m)) := by
  refine schedule_keeps_values (by simp [Op.isFq]) fun i cell offset found j before access => ?_
  rcases i with _ | _ | _ | i
  · cases found
  · cases found
    obtain rfl : j = 0 := by omega
    obtain ⟨op, here, member⟩ | ⟨op, here, member⟩ := access
    · cases here
      revert member
      decide
    · cases here
      revert member
      decide
  · cases found
  · cases found

/-- A form whose first import is not the blob's first words is not encoded, though it runs. -/
theorem encode_laterWords_refused :
    ¬∀ ops : List Op, (∀ op ∈ ops, op.isFq = false) → ImportsFresh ops →
      ∃ e decoded, encode ops = some e ∧ decode e.body = some decoded ∧
        ∀ (permute : Lanes → Lanes) (blob : List UInt8) (m : Memory),
          SameValues (run permute blob (e.hoisted ++ decoded) m) (run permute blob ops m) := by
  intro holds
  obtain ⟨e, decoded, encoded, -⟩ := holds [.importCell 5 64] (by simp [Op.isFq])
    fun i cell offset found j before access => by
      rcases i with _ | i
      · exact absurd before (Nat.not_lt_zero j)
      · cases found
  revert encoded
  exact nofun

end Hoisting

end Apogee.Recursion.Native
