import Mathlib.Data.List.Basic
import Mathlib.Tactic.Ring

/-! # Readers that invert writers

A reader takes a value off the front of a byte string; a writer gives a value's
bytes, or none where it cannot. A reader inverts a writer when what it accepts is
exactly what the writer writes of the values that fit: then every accepted string
has one value and every value that fits one string. It restores a writer when it
reads back what the writer writes, whatever else it accepts.
-/

namespace Apogee.Math

variable {ε α β : Type}

/-- A value off the front of a byte string, or why there is none. -/
abbrev Reader (ε α : Type) := StateT (List UInt8) (Except ε) α

/-- The bytes of a value, if it has any. -/
abbrev Writer (α : Type) := α → Option (List UInt8)

theorem reader_bind {read : Reader ε α} {next : α → Reader ε β} {bytes : List UInt8}
    {result : β × List UInt8} : (read >>= next) bytes = .ok result ↔
      ∃ value rest, read bytes = .ok (value, rest) ∧ next value rest = .ok result := by
  change (read bytes >>= fun pair => next pair.1 pair.2) = .ok result ↔ _
  cases read bytes with
  | error e =>
    constructor
    · intro wrong
      cases wrong
    · rintro ⟨value, rest, wrong, -⟩
      cases wrong
  | ok pair =>
    constructor
    · intro accepted
      exact ⟨pair.1, pair.2, rfl, accepted⟩
    · rintro ⟨value, rest, same, accepted⟩
      cases same
      exact accepted

theorem reader_pure {value : α} {bytes : List UInt8} {result : α × List UInt8} :
    (pure value : Reader ε α) bytes = .ok result ↔ result = (value, bytes) := by
  change Except.ok (value, bytes) = .ok result ↔ _
  rw [Except.ok.injEq, eq_comm]

/-- One piece of an encoding after another. -/
def written : List (Option (List UInt8)) → Option (List UInt8)
  | [] => some []
  | part :: parts => do
    let front ← part
    let others ← written parts
    some (front ++ others)

theorem written_cons_eq_some {part : Option (List UInt8)} {parts : List (Option (List UInt8))}
    {bytes : List UInt8} : written (part :: parts) = some bytes ↔
      ∃ front, part = some front ∧ ∃ others, written parts = some others ∧
        bytes = front ++ others := by
  simp only [written, Option.bind_eq_bind, Option.bind_eq_some_iff, Option.some.injEq,
    @eq_comm _ _ bytes]

theorem written_singleton (part : Option (List UInt8)) : written [part] = part := by
  cases part with
  | none => rfl
  | some bytes =>
    change some (bytes ++ []) = some bytes
    rw [List.append_nil]

theorem written_pair_eq_some {first second : Option (List UInt8)} {bytes : List UInt8} :
    written [first, second] = some bytes ↔
      ∃ front, first = some front ∧ ∃ back, second = some back ∧ bytes = front ++ back := by
  rw [written_cons_eq_some, written_singleton]

theorem written_nil_isSome : (written []).isSome ↔ True := iff_of_true rfl trivial

theorem written_cons_isSome {part : Option (List UInt8)} {parts : List (Option (List UInt8))} :
    (written (part :: parts)).isSome ↔ part.isSome ∧ (written parts).isSome := by
  rw [written]
  cases part with
  | none => exact iff_of_false (fun wrong => nomatch wrong) fun both => nomatch both.1
  | some front =>
    cases written parts with
    | none => exact iff_of_false (fun wrong => nomatch wrong) fun both => nomatch both.2
    | some back => exact iff_of_true rfl ⟨rfl, rfl⟩

/-- An encoding is at least as long as any of its pieces. -/
theorem length_le_of_written {parts : List (Option (List UInt8))} {part : Option (List UInt8)}
    {bytes : List UInt8} (wrote : written parts = some bytes) (member : part ∈ parts) :
    ∃ front, part = some front ∧ front.length ≤ bytes.length := by
  induction parts generalizing bytes with
  | nil => exact absurd member List.not_mem_nil
  | cons first others ih =>
    obtain ⟨front, here, back, later, rfl⟩ := written_cons_eq_some.mp wrote
    rw [List.length_append]
    rcases List.mem_cons.mp member with rfl | inside
    · exact ⟨front, here, Nat.le_add_right _ _⟩
    · obtain ⟨piece, same, short⟩ := ih later inside
      exact ⟨piece, same, short.trans (Nat.le_add_left _ _)⟩

/-- A reader accepts exactly what a writer writes of the values that fit. -/
def Inverts (read : Reader ε α) (fits : α → Prop) (write : Writer α) : Prop :=
  ∀ bytes value rest, read bytes = .ok (value, rest) ↔
    fits value ∧ ∃ front, write value = some front ∧ bytes = front ++ rest

/-- A reader reads back what a writer writes of the values that fit. -/
def Restores (read : Reader ε α) (fits : α → Prop) (write : Writer α) : Prop :=
  ∀ value front rest, fits value → write value = some front →
    read (front ++ rest) = .ok (value, rest)

/-- The next bytes. -/
def takeBytes (refusal : ε) (n : ℕ) : Reader ε (List UInt8) := fun bytes =>
  if n ≤ bytes.length then .ok (bytes.take n, bytes.drop n) else .error refusal

theorem takeBytes_inverts (refusal : ε) (n : ℕ) :
    Inverts (takeBytes refusal n) (fun value => value.length = n) some := by
  intro bytes value rest
  unfold takeBytes
  by_cases long : n ≤ bytes.length
  · rw [if_pos long, Except.ok.injEq, Prod.mk.injEq]
    constructor
    · rintro ⟨rfl, rfl⟩
      exact ⟨List.length_take_of_le long, _, rfl, (List.take_append_drop n bytes).symm⟩
    · rintro ⟨length, front, same, rfl⟩
      cases same
      exact ⟨List.take_left' length, List.drop_left' length⟩
  · rw [if_neg long]
    constructor
    · intro wrong
      cases wrong
    · rintro ⟨length, front, same, rfl⟩
      cases same
      rw [List.length_append, length] at long
      exact absurd (Nat.le_add_right n _) long

/-- What a reader accepts holds of every value it gives. -/
def Yields (read : Reader ε α) (holds : α → Prop) : Prop :=
  ∀ bytes value rest, read bytes = .ok (value, rest) → holds value

theorem Yields.pure {holds : α → Prop} {value : α} (here : holds value) :
    Yields (Pure.pure value : Reader ε α) holds := by
  intro bytes other rest read
  cases reader_pure.mp read
  exact here

theorem Yields.bind {read : Reader ε α} {next : α → Reader ε β} {first : α → Prop} {holds : β → Prop}
    (yields : Yields read first) (others : ∀ value, first value → Yields (next value) holds) :
    Yields (read >>= next) holds := by
  intro bytes value rest ran
  obtain ⟨front, middle, here, there⟩ := reader_bind.mp ran
  exact others front (yields _ _ _ here) _ _ _ there

theorem Yields.after {read : Reader ε α} {next : α → Reader ε β} {holds : β → Prop}
    (others : ∀ value, Yields (next value) holds) : Yields (read >>= next) holds := by
  intro bytes value rest ran
  obtain ⟨front, middle, -, there⟩ := reader_bind.mp ran
  exact others front _ _ _ there

theorem Yields.mono {read : Reader ε α} {first holds : α → Prop} (yields : Yields read first)
    (weaker : ∀ value, first value → holds value) : Yields read holds :=
  fun bytes value rest read => weaker value (yields bytes value rest read)

theorem takeBytes_yields (refusal : ε) (n : ℕ) :
    Yields (takeBytes refusal n) fun value => value.length = n :=
  fun bytes value rest ran => ((takeBytes_inverts refusal n bytes value rest).mp ran).1

section Sequence

variable {read : Reader ε β} {onward : β → Reader ε α} {fits : β → Prop} {write : Writer β}
  {known rest : α → Prop} {parts : α → List (Option (List UInt8))}

theorem Inverts.restores (inverts : Inverts read fits write) : Restores read fits write :=
  fun value front rest fit wrote => (inverts _ value rest).mpr ⟨fit, front, wrote, rfl⟩

theorem Inverts.congr {fits' : β → Prop} {write' : Writer β} (inverts : Inverts read fits write)
    (sameFits : ∀ value, fits' value ↔ fits value) (sameWrite : ∀ value, write' value = write value) :
    Inverts read fits' write' := by
  intro bytes value rest
  rw [inverts bytes value rest, sameFits, sameWrite]

/-- Nothing is left to read of a value that is known. -/
theorem Inverts.done {value : α} (same : ∀ other, known other ↔ other = value) :
    Inverts (pure value : Reader ε α) (fun other => known other ∧ True) fun _ => written [] := by
  intro bytes other left
  dsimp only
  rw [reader_pure, same, and_true]
  constructor
  · intro read
    cases read
    exact ⟨rfl, [], rfl, rfl⟩
  · rintro ⟨rfl, front, wrote, rfl⟩
    cases wrote
    rfl

/-- One field is read, then the others. -/
theorem Inverts.next (field : α → β) (first : Inverts read fits write)
    (others : ∀ value, Inverts (onward value) (fun x => (known x ∧ field x = value) ∧ rest x)
      fun x => written (parts x)) :
    Inverts (read >>= onward) (fun x => known x ∧ fits (field x) ∧ rest x)
      fun x => written (write (field x) :: parts x) := by
  intro bytes x left
  rw [reader_bind]
  constructor
  · rintro ⟨value, middle, readFirst, readOthers⟩
    obtain ⟨fit, front, wrote, rfl⟩ := (first _ _ _).mp readFirst
    obtain ⟨⟨⟨knows, rfl⟩, fine⟩, back, wroteOthers, rfl⟩ := (others value _ _ _).mp readOthers
    refine ⟨⟨knows, fit, fine⟩, front ++ back, ?_, (List.append_assoc _ _ _).symm⟩
    exact written_cons_eq_some.mpr ⟨front, wrote, back, wroteOthers, rfl⟩
  · rintro ⟨⟨knows, fit, fine⟩, all, wrote, rfl⟩
    obtain ⟨front, wroteFirst, back, wroteOthers, rfl⟩ := written_cons_eq_some.mp wrote
    refine ⟨field x, back ++ left, (first _ _ _).mpr ⟨fit, front, wroteFirst, ?_⟩,
      (others _ _ _ _).mpr ⟨⟨⟨knows, rfl⟩, fine⟩, back, wroteOthers, rfl⟩⟩
    exact List.append_assoc _ _ _

/-- The first field is read, then the others. -/
theorem Inverts.first (field : α → β) (first : Inverts read fits write)
    (others : ∀ value, Inverts (onward value) (fun x => field x = value ∧ rest x)
      fun x => written (parts x)) :
    Inverts (read >>= onward) (fun x => fits (field x) ∧ rest x)
      fun x => written (write (field x) :: parts x) := by
  refine (Inverts.next field first fun value => (others value).congr (fun x => ?_) fun _ => rfl).congr
    (fun _ => (and_iff_right trivial).symm) fun _ => rfl
  rw [true_and]

theorem Restores.done {value : α} (same : ∀ other, known other → other = value) :
    Restores (pure value : Reader ε α) (fun other => known other ∧ True) fun _ => written [] := by
  rintro other front rest ⟨knows, -⟩ wrote
  cases wrote
  rw [reader_pure, same other knows]
  rfl

theorem Restores.next (field : α → β) (first : Restores read fits write)
    (others : ∀ value, Restores (onward value) (fun x => (known x ∧ field x = value) ∧ rest x)
      fun x => written (parts x)) :
    Restores (read >>= onward) (fun x => known x ∧ fits (field x) ∧ rest x)
      fun x => written (write (field x) :: parts x) := by
  rintro x all left ⟨knows, fit, fine⟩ wrote
  obtain ⟨front, wroteFirst, back, wroteOthers, rfl⟩ := written_cons_eq_some.mp wrote
  rw [reader_bind, List.append_assoc]
  exact ⟨field x, back ++ left, first _ _ _ fit wroteFirst,
    others (field x) x back left ⟨⟨knows, rfl⟩, fine⟩ wroteOthers⟩

theorem Restores.first (field : α → β) (first : Restores read fits write)
    (others : ∀ value, Restores (onward value) (fun x => field x = value ∧ rest x)
      fun x => written (parts x)) :
    Restores (read >>= onward) (fun x => fits (field x) ∧ rest x)
      fun x => written (write (field x) :: parts x) := by
  have whole := @Restores.next ε α β read onward fits write (fun _ => True) rest parts field
    first fun value x front left fit =>
    others value x front left ⟨fit.1.2, fit.2⟩
  exact fun x front left fit => whole x front left ⟨trivial, fit⟩

/-- A value is read, then checked and converted. -/
def convert (converts : β → Except ε α) (read : Reader ε β) : Reader ε α := fun bytes => do
  let (value, rest) ← read bytes
  let converted ← converts value
  pure (converted, rest)

theorem convert_ok {converts : β → Except ε α} {bytes : List UInt8} {result : α × List UInt8} :
    convert converts read bytes = .ok result ↔
      ∃ value, read bytes = .ok (value, result.2) ∧ converts value = .ok result.1 := by
  unfold convert
  cases read bytes with
  | error e =>
    constructor
    · intro wrong
      cases wrong
    · rintro ⟨value, wrong, -⟩
      cases wrong
  | ok pair =>
    change ((converts pair.1) >>= fun x => Except.ok (x, pair.2)) = .ok result ↔ _
    cases converted : converts pair.1 with
    | error e =>
      constructor
      · intro wrong
        cases wrong
      · rintro ⟨value, same, wrong⟩
        cases same
        rw [converted] at wrong
        cases wrong
    | ok x =>
      constructor
      · intro same
        cases same
        exact ⟨pair.1, rfl, converted⟩
      · rintro ⟨value, same, converts'⟩
        cases same
        rw [converted] at converts'
        cases converts'
        rfl

theorem Yields.convert {converts : β → Except ε α} {first : β → Prop} {holds : α → Prop}
    (yields : Yields read first) (converted : ∀ value x, first value → converts value = .ok x → holds x) :
    Yields (convert converts read) holds := by
  intro bytes x rest ran
  obtain ⟨value, here, there⟩ := convert_ok.mp ran
  exact converted value x (yields _ _ _ here) there

/-- A conversion that inverts an encoding inverts it behind a reader too. -/
theorem Inverts.convert {converts : β → Except ε α} (accepts : α → Prop) (encode : α → Option β)
    (inverts : Inverts read fits write)
    (exact_ : ∀ value x, fits value → (converts value = .ok x ↔ accepts x ∧ encode x = some value))
    (encodes : ∀ x value, accepts x → encode x = some value → fits value) :
    Inverts (convert converts read) accepts fun x => encode x >>= write := by
  intro bytes x rest
  simp only [convert_ok, inverts _ _ _, Option.bind_eq_bind, Option.bind_eq_some_iff]
  constructor
  · rintro ⟨value, ⟨fit, front, wrote, rfl⟩, converted⟩
    obtain ⟨accepted, encoded⟩ := (exact_ value x fit).mp converted
    exact ⟨accepted, front, ⟨value, encoded, wrote⟩, rfl⟩
  · rintro ⟨accepted, front, ⟨value, encoded, wrote⟩, rfl⟩
    have fit := encodes x value accepted encoded
    exact ⟨value, ⟨fit, front, wrote, rfl⟩, (exact_ value x fit).mpr ⟨accepted, encoded⟩⟩

theorem Restores.convert {converts : β → Except ε α} {accepts : α → Prop} (encode : α → β)
    (restores : Restores read fits write) (converted : ∀ x, accepts x → converts (encode x) = .ok x)
    (encodes : ∀ x, accepts x → fits (encode x)) :
    Restores (convert converts read) accepts fun x => write (encode x) := by
  intro x front rest accepted wrote
  exact convert_ok.mpr ⟨encode x, restores _ _ _ (encodes x accepted) wrote, converted x accepted⟩

end Sequence

section Lists

variable {read : Reader ε α} {fits : α → Prop} {write : Writer α}

/-- Read one value after another. -/
def repeatRead (read : Reader ε α) : ℕ → Reader ε (List α)
  | 0 => pure []
  | n + 1 => do
    let first ← read
    let others ← repeatRead read n
    pure (first :: others)

theorem Yields.repeatRead {holds : α → Prop} (yields : Yields read holds) (n : ℕ) :
    Yields (repeatRead read n) fun values => values.length = n ∧ ∀ value ∈ values, holds value := by
  induction n with
  | zero => exact .pure ⟨rfl, fun value member => absurd member List.not_mem_nil⟩
  | succ n ih =>
    refine yields.bind fun first here => ih.bind fun others there => .pure ?_
    exact ⟨congrArg Nat.succ there.1, List.forall_mem_cons.mpr ⟨here, there.2⟩⟩

/-- The values' bytes, one after another. -/
def writeEach (write : Writer α) (values : List α) : Option (List UInt8) :=
  written (values.map write)

theorem writeEach_isSome {values : List α} :
    (writeEach write values).isSome ↔ ∀ value ∈ values, (write value).isSome := by
  rw [writeEach]
  induction values with
  | nil => exact iff_of_true rfl fun _ member => absurd member List.not_mem_nil
  | cons first others ih =>
    rw [List.map_cons, written_cons_isSome, ih, List.forall_mem_cons]

theorem writeEach_cons {first : α} {others : List α} {bytes : List UInt8} :
    writeEach write (first :: others) = some bytes ↔
      ∃ front, write first = some front ∧ ∃ back, writeEach write others = some back ∧
        bytes = front ++ back := written_cons_eq_some

theorem Inverts.repeatRead (inverts : Inverts read fits write) (n : ℕ) :
    Inverts (repeatRead read n) (fun values => values.length = n ∧ ∀ value ∈ values, fits value)
      (writeEach write) := by
  induction n with
  | zero =>
    intro bytes values rest
    rw [Math.repeatRead, reader_pure, Prod.mk.injEq]
    constructor
    · rintro ⟨rfl, rfl⟩
      exact ⟨⟨rfl, fun value member => absurd member List.not_mem_nil⟩, [], rfl, rfl⟩
    · rintro ⟨⟨length, -⟩, front, wrote, rfl⟩
      obtain rfl := List.eq_nil_of_length_eq_zero length
      cases wrote
      exact ⟨rfl, rfl⟩
  | succ n ih =>
    intro bytes values rest
    simp only [Math.repeatRead, reader_bind, reader_pure, inverts _ _ _, ih _ _ _, Prod.mk.injEq]
    constructor
    · rintro ⟨first, after, ⟨firstFits, front, wrote, rfl⟩, others, _,
        ⟨⟨rfl, otherFits⟩, back, wroteOthers, rfl⟩, rfl, rfl⟩
      refine ⟨⟨rfl, List.forall_mem_cons.mpr ⟨firstFits, otherFits⟩⟩, front ++ back,
        writeEach_cons.mpr ⟨front, wrote, back, wroteOthers, rfl⟩, ?_⟩
      exact (List.append_assoc _ _ _).symm
    · rintro ⟨⟨length, allFit⟩, bytes, wrote, rfl⟩
      cases values with
      | nil => exact absurd length (Nat.succ_ne_zero n).symm
      | cons first others =>
        obtain ⟨firstFits, otherFits⟩ := List.forall_mem_cons.mp allFit
        obtain ⟨front, wroteFirst, back, wroteOthers, rfl⟩ := writeEach_cons.mp wrote
        refine ⟨first, back ++ rest, ⟨firstFits, front, wroteFirst, ?_⟩, others, rest,
          ⟨⟨Nat.succ_injective length, otherFits⟩, back, wroteOthers, rfl⟩, rfl, rfl⟩
        exact List.append_assoc _ _ _

theorem Restores.repeatRead (restores : Restores read fits write) (n : ℕ) :
    Restores (repeatRead read n) (fun values => values.length = n ∧ ∀ value ∈ values, fits value)
      (writeEach write) := by
  induction n with
  | zero =>
    rintro values front rest ⟨length, -⟩ wrote
    obtain rfl := List.eq_nil_of_length_eq_zero length
    cases wrote
    rfl
  | succ n ih =>
    rintro values bytes rest ⟨length, allFit⟩ wrote
    cases values with
    | nil => exact absurd length (Nat.succ_ne_zero n).symm
    | cons first others =>
      obtain ⟨firstFits, otherFits⟩ := List.forall_mem_cons.mp allFit
      obtain ⟨front, wroteFirst, back, wroteOthers, rfl⟩ := writeEach_cons.mp wrote
      rw [Math.repeatRead, reader_bind, List.append_assoc]
      refine ⟨first, back ++ rest, restores _ _ _ firstFits wroteFirst, ?_⟩
      rw [reader_bind]
      exact ⟨others, rest, ih _ _ _ ⟨Nat.succ_injective length, otherFits⟩ wroteOthers, rfl⟩

theorem writeEach_append {first second : List α} {bytes : List UInt8} :
    writeEach write (first ++ second) = some bytes ↔
      ∃ front, writeEach write first = some front ∧ ∃ back, writeEach write second = some back ∧
        bytes = front ++ back := by
  induction first generalizing bytes with
  | nil =>
    constructor
    · intro wrote
      exact ⟨[], rfl, bytes, wrote, rfl⟩
    · rintro ⟨front, none_, back, wrote, rfl⟩
      cases none_
      exact wrote
  | cons head tail ih =>
    rw [List.cons_append]
    simp only [writeEach_cons, ih]
    constructor
    · rintro ⟨front, wroteHead, _, ⟨middle, wroteTail, back, wroteSecond, rfl⟩, rfl⟩
      exact ⟨front ++ middle, ⟨front, wroteHead, middle, wroteTail, rfl⟩, back, wroteSecond,
        (List.append_assoc _ _ _).symm⟩
    · rintro ⟨_, ⟨front, wroteHead, middle, wroteTail, rfl⟩, back, wroteSecond, rfl⟩
      exact ⟨front, wroteHead, middle ++ back, ⟨middle, wroteTail, back, wroteSecond, rfl⟩,
        List.append_assoc _ _ _⟩

/-- Read a fixed number of values. -/
def array [Inhabited α] (n : ℕ) (read : Reader ε α) : Reader ε (Fin n → α) :=
  convert (fun values => .ok fun i => values.getD i default) (repeatRead read n)

theorem Inverts.array [Inhabited α] (inverts : Inverts read fits write) (n : ℕ) :
    Inverts (array n read) (fun values => ∀ i, fits (values i))
      fun values => writeEach write (List.ofFn values) := by
  refine (Inverts.convert _ (fun values : Fin n → α => some (List.ofFn values))
    (inverts.repeatRead n) ?_ ?_).congr (fun _ => Iff.rfl) fun _ => rfl
  · rintro list values ⟨length, fit⟩
    rw [Except.ok.injEq, Option.some.injEq]
    constructor
    · rintro rfl
      subst length
      have same : (List.ofFn fun i : Fin list.length => list.getD i default) = list := by
        simp [List.getD_eq_getElem?_getD, List.ofFn_getElem]
      refine ⟨fun i => ?_, same⟩
      rw [← same] at fit
      exact fit _ (List.mem_ofFn.mpr ⟨i, rfl⟩)
    · rintro ⟨-, rfl⟩
      funext i
      simp [List.getD_eq_getElem?_getD]
  · intro values list fit encoded
    cases encoded
    refine ⟨List.length_ofFn, fun value member => ?_⟩
    obtain ⟨i, rfl⟩ := List.mem_ofFn.mp member
    exact fit i

theorem Restores.array [Inhabited α] (restores : Restores read fits write) (n : ℕ) :
    Restores (Math.array n read) (fun values => ∀ i, fits (values i))
      fun values => writeEach write (List.ofFn values) := by
  refine Restores.convert (fun values : Fin n → α => List.ofFn values) (restores.repeatRead n) ?_ ?_
  · intro values _
    rw [Except.ok.injEq]
    funext i
    simp [List.getD_eq_getElem?_getD]
  · intro values fit
    refine ⟨List.length_ofFn, fun value member => ?_⟩
    obtain ⟨i, rfl⟩ := List.mem_ofFn.mp member
    exact fit i

/-- What is written of values of at least some size each. -/
theorem length_writeEach_ge {least : ℕ} {values : List α} {bytes : List UInt8}
    (sized : ∀ value ∈ values, ∀ front, write value = some front → least ≤ front.length)
    (wrote : writeEach write values = some bytes) : values.length * least ≤ bytes.length := by
  induction values generalizing bytes with
  | nil => simp
  | cons first others ih =>
    obtain ⟨here, later⟩ := List.forall_mem_cons.mp sized
    obtain ⟨front, wroteFirst, back, wroteOthers, rfl⟩ := writeEach_cons.mp wrote
    have long := here front wroteFirst
    have longer := ih later wroteOthers
    rw [List.length_cons, List.length_append, Nat.succ_mul]
    omega

end Lists

section LittleEndian

/-- The low bytes of a number, low first. -/
def leBytes : ℕ → ℕ → List UInt8
  | 0, _ => []
  | n + 1, x => UInt8.ofNat x :: leBytes n (x / 256)

/-- The number of a byte string, low first. -/
def leValue : List UInt8 → ℕ
  | [] => 0
  | byte :: rest => byte.toNat + 256 * leValue rest

@[simp]
theorem leBytes_length (n x : ℕ) : (leBytes n x).length = n := by
  induction n generalizing x with
  | zero => rfl
  | succ n ih => rw [leBytes, List.length_cons, ih]

theorem leBytes_zero (n : ℕ) : leBytes n 0 = List.replicate n 0 := by
  induction n with
  | zero => rfl
  | succ n ih => exact congrArg (0 :: ·) ih

theorem leValue_lt (bytes : List UInt8) : leValue bytes < 256 ^ bytes.length := by
  induction bytes with
  | nil => exact Nat.one_pos
  | cons byte rest ih =>
    have small := byte.toNat_lt
    rw [leValue, List.length_cons, pow_succ]
    omega

theorem leValue_leBytes {n x : ℕ} (small : x < 256 ^ n) : leValue (leBytes n x) = x := by
  induction n generalizing x with
  | zero =>
    rw [pow_zero, Nat.lt_one_iff] at small
    rw [small]
    rfl
  | succ n ih =>
    have high : x / 256 < 256 ^ n := by
      rw [pow_succ] at small
      omega
    rw [leBytes, leValue, ih high, UInt8.toNat_ofNat']
    omega

theorem leBytes_leValue (bytes : List UInt8) : leBytes bytes.length (leValue bytes) = bytes := by
  induction bytes with
  | nil => rfl
  | cons byte rest ih =>
    have small := byte.toNat_lt
    have high : (byte.toNat + 256 * leValue rest) / 256 = leValue rest := by omega
    rw [List.length_cons, leValue, leBytes, high, ih]
    congr 1
    apply UInt8.toNat_inj.mp
    rw [UInt8.toNat_ofNat']
    omega

theorem leValue_append (xs ys : List UInt8) :
    leValue (xs ++ ys) = leValue xs + 256 ^ xs.length * leValue ys := by
  induction xs with
  | nil => simp [leValue]
  | cons byte xs ih =>
    rw [List.cons_append, leValue, leValue, ih, List.length_cons, pow_succ]
    ring

theorem leBytes_add (m n x : ℕ) : leBytes (m + n) x = leBytes m x ++ leBytes n (x / 256 ^ m) := by
  induction m generalizing x with
  | zero => simp [leBytes]
  | succ m ih =>
    rw [Nat.succ_add, leBytes, ih, leBytes, List.cons_append, pow_succ', Nat.div_div_eq_div_mul]

/-- Little-endian bytes and numbers below the power are one to one. -/
theorem leBytes_inj {n x : ℕ} {bytes : List UInt8} (small : x < 256 ^ n) :
    leBytes n x = bytes ↔ bytes.length = n ∧ leValue bytes = x := by
  constructor
  · rintro rfl
    exact ⟨leBytes_length n x, leValue_leBytes small⟩
  · rintro ⟨rfl, rfl⟩
    exact leBytes_leValue bytes

end LittleEndian

end Apogee.Math
