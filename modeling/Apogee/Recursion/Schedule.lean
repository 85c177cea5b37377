import Apogee.Math.Passes
import Apogee.Recursion.Native

/-! # A tape's guest form

A guest replays a tape as runs of one family's calls, its imports first. Scheduling
reorders the calls so that runs are long: every call still follows the calls whose
cells it reads or overwrites, and those that read what it overwrites.
-/

namespace Apogee.Recursion.Native

open Alu Math

section Encode

/-- The family's call number and the frame's words; an import has none. -/
def Op.frame : Op → Option (ℕ × List Word)
  | .fr code d a b => some (Ecall.precompileFrOp, [code, d, a, b])
  | .duplex n s x y d => some (Ecall.precompileP2Field, [n, s, x, y, d])
  | .fq word d a b => some (Ecall.precompileFqOp, [word, d, a, b])
  | .importCell _ _ => none

/-- A tape as the guest replays it: the cells its imports fill, and its body's runs,
each a call number, a count and the frames. -/
structure Encoded where
  imports : List Word
  body : List Word

/-- An encoder's state: what is written, and the run it is in with the run's place. -/
structure Encoder where
  encoded : Encoded
  run : Option (ℕ × ℕ)

/-- A frame into the run it continues, or into a run of its own. -/
def Encoder.push (s : Encoder) (number : ℕ) (frame : List Word) : Encoder :=
  let body := s.encoded.body
  match s.run with
  | some (n, place) =>
    if n = number then
      { s with encoded := { s.encoded with body := body.modify (place + 1) (· + 1) ++ frame } }
    else ⟨{ s.encoded with body := body ++ [BitVec.ofNat 32 number, 1] ++ frame },
      some (number, body.length)⟩
  | none => ⟨{ s.encoded with body := body ++ [BitVec.ofNat 32 number, 1] ++ frame },
      some (number, body.length)⟩

/-- `none` is the source's assertion that the imports are in the blob's order. -/
def encodeStep (s : Encoder) (op : Op) : Option Encoder :=
  match op.frame with
  | some (number, frame) => some (s.push number frame)
  | none =>
    match op with
    | .importCell cell offset =>
      if offset.toNat = 32 * s.encoded.imports.length then
        some { s with encoded := { s.encoded with imports := s.encoded.imports ++ [cell] } }
      else none
    | _ => none

def encode (ops : List Op) : Option Encoded :=
  (ops.foldlM encodeStep ⟨⟨[], []⟩, none⟩).map Encoder.encoded

/-- The imports of a guest's form, which it makes up front. -/
def Encoded.hoisted (e : Encoded) : List Op :=
  e.imports.zipIdx.map fun entry => .importCell entry.1 (BitVec.ofNat 32 (32 * entry.2))

/-- A family's frame words, when it is a field family. -/
def frameWidth (number : Word) : Option ℕ :=
  if number.toNat = Ecall.precompileP2Field then some 5
  else if number.toNat = Ecall.precompileFrOp ∨ number.toNat = Ecall.precompileFqOp then some 4
  else none

/-- A frame as a call. -/
def decodeFrame (number : Word) (frame : List Word) : Option Op :=
  if number.toNat = Ecall.precompileFrOp then
    match frame with
    | [code, d, a, b] => some (.fr code d a b)
    | _ => none
  else if number.toNat = Ecall.precompileFqOp then
    match frame with
    | [word, d, a, b] => some (.fq word d a b)
    | _ => none
  else
    match frame with
    | [n, s, x, y, d] => some (.duplex n s x y d)
    | _ => none

/-- A run's frames, and what follows them. -/
def decodeFrames (number : Word) (width : ℕ) : ℕ → List Word → Option (List Op × List Word)
  | 0, body => some ([], body)
  | count + 1, body =>
    if body.length < width then none
    else do
      let op ← decodeFrame number (body.take width)
      let (ops, rest) ← decodeFrames number width count (body.drop width)
      some (op :: ops, rest)

/-- The runs of a body. Each takes two words or more, so the body's length is enough. -/
def decodeRuns : ℕ → List Word → Option (List Op)
  | 0, [] => some []
  | 0, _ :: _ => none
  | _ + 1, [] => some []
  | _ + 1, [_] => none
  | fuel + 1, number :: count :: body => do
      let width ← frameWidth number
      let (ops, rest) ← decodeFrames number width count.toNat body
      let others ← decodeRuns fuel rest
      some (ops ++ others)

/-- An encoded body's frames as calls again. -/
def decode (body : List Word) : Option (List Op) := decodeRuns body.length body

end Encode

section Schedule

/-- The cells a call reads and those it writes, an indirect operand aside. -/
def cellsOf : Op → List Word × List Word
  | .fr code d a b =>
    if code.toNat = FrOp.imm then ([], [d])
    else if code.toNat = FrOp.shl ∨ code.toNat = FrOp.inv then ([a], [d])
    else if code.toNat = FrOp.mac then ([d, a, b], [d])
    else if code.toNat = FrOp.eq then ([a, b], [])
    else if code.toNat = FrOp.digit then ([a], [d, b])
    else ([a, b], [d])
  | .duplex n s x y d =>
    ([s, s + 1, s + 2] ++ (if 1 ≤ n.toNat then [x] else []) ++ (if 2 ≤ n.toNat then [y] else []),
      [d, d + 1, d + 2])
  | .fq _ d a b =>
    let element (c : Word) := [c, c + 1, c + 2, c + 3]
    (element a ++ element b ++ element d, element d)
  | .importCell cell _ => ([], [cell])

/-- What orders the calls seen so far: each one's followers, how many orderings each
waits for, each cell's last writer and its readers since. -/
structure Hazards where
  after : ℕ → List ℕ
  waiting : ℕ → ℕ
  last : Word → Option ℕ
  readers : Word → List ℕ

namespace Hazards

/-- A call ordered after another. -/
def edge (i : ℕ) (h : Hazards) (j : ℕ) : Hazards :=
  if j ≠ i then
    { h with
      after := Function.update h.after j (h.after j ++ [i])
      waiting := Function.update h.waiting i (h.waiting i + 1) }
  else h

/-- A call ordered after a cell's last writer. -/
def afterLast (i : ℕ) (h : Hazards) (c : Word) : Hazards :=
  match h.last c with
  | some j => h.edge i j
  | none => h

def readCell (i : ℕ) (h : Hazards) (c : Word) : Hazards :=
  let h := h.afterLast i c
  { h with readers := Function.update h.readers c (h.readers c ++ [i]) }

def writeCell (i : ℕ) (h : Hazards) (c : Word) : Hazards :=
  let h := h.afterLast i c
  let h := (h.readers c).foldl (edge i) h
  { h with
    readers := Function.update h.readers c []
    last := Function.update h.last c (some i) }

/-- A call's cells, the reads before the writes. -/
def addCall (h : Hazards) (entry : Op × ℕ) : Hazards :=
  (cellsOf entry.1).2.foldl (writeCell entry.2) ((cellsOf entry.1).1.foldl (readCell entry.2) h)

def none : Hazards := ⟨fun _ => [], fun _ => 0, fun _ => Option.none, fun _ => []⟩

end Hazards

/-- The calls' orderings. -/
def hazards (ops : List Op) : Hazards := ops.zipIdx.foldl Hazards.addCall .none

/-- A heap a family: imports, then field operations, then duplexes. -/
def Op.family : Op → ℕ
  | .importCell _ _ => 0
  | .fr _ _ _ _ => 1
  | _ => 2

/-- The scheduler's state: the orderings left, the heaps of calls ready, the family
running, and the calls' places so far. -/
structure Queue where
  after : ℕ → List ℕ
  waiting : ℕ → ℕ
  ready : ℕ → List ℕ
  running : ℕ
  out : List ℕ

namespace Queue

/-- A call into its family's heap. -/
def makeReady (ops : List Op) (q : Queue) (k : ℕ) : Option Queue :=
  ops[k]?.map fun op =>
    { q with ready := Function.update q.ready op.family (k :: q.ready op.family) }

/-- A follower that waits for one ordering less. -/
def release (ops : List Op) (q : Queue) (k : ℕ) : Option Queue :=
  if q.waiting k = 0 then none
  else
    let left := q.waiting k - 1
    let q := { q with waiting := Function.update q.waiting k left }
    if left = 0 then q.makeReady ops k else some q

/-- The family to run next when the one running has no call ready: the one with the
earliest call. -/
def nextFamily (q : Queue) : Option ℕ :=
  match (q.ready 1).min?, (q.ready 2).min? with
  | some i, some j => if i ≤ j then some 1 else some 2
  | some _, none => some 1
  | none, some _ => some 2
  | none, none => none

/-- The family of the next call: imports first. -/
def choose (q : Queue) : Option Queue :=
  if q.ready 0 = [] ∧ q.ready q.running = [] then
    q.nextFamily.map fun running => { q with running := running }
  else some q

/-- One call scheduled, the earliest of its family. `none` is a failed assertion. -/
def scheduleStep (ops : List Op) (q : Queue) : Option Queue := do
  let q ← q.choose
  let family := if q.ready 0 = [] then q.running else 0
  let i ← (q.ready family).min?
  let followers := q.after i
  let q := { q with
    ready := Function.update q.ready family ((q.ready family).erase i)
    out := q.out ++ [i]
    after := Function.update q.after i [] }
  followers.foldlM (release ops) q

/-- A call apiece. -/
def schedules (ops : List Op) : ℕ → Queue → Option Queue
  | 0, q => some q
  | count + 1, q => (q.scheduleStep ops).bind (schedules ops count)

end Queue

/-- The heaps at the start: every call that waits for none. -/
def startQueue (ops : List Op) : Option Queue :=
  let h := hazards ops
  ((List.range ops.length).filter fun i => h.waiting i = 0).foldlM (Queue.makeReady ops)
    ⟨h.after, h.waiting, fun _ => [], 0, []⟩

/-- A base-field call. -/
def Op.isFq : Op → Bool
  | .fq _ _ _ _ => true
  | _ => false

/-- The calls reordered. `none` is a failed assertion: a tape with a base-field call is
not scheduled. -/
def schedule (ops : List Op) : Option (List Op) :=
  if ops.any Op.isFq then none
  else do
    let q ← startQueue ops
    let q ← q.schedules ops ops.length
    q.out.mapM fun i => ops[i]?

end Schedule

section Orderings

open Finset

namespace Hazards

/-- One call is directly ordered before another. -/
def Edge (h : Hazards) (j i : ℕ) : Prop := i ∈ h.after j

/-- One call is ordered before another, through others or not. -/
abbrev Reach (h : Hazards) : ℕ → ℕ → Prop := Relation.TransGen h.Edge

/-- Every ordering is kept. -/
def Grows (h h' : Hazards) : Prop := ∀ j i, h.Edge j i → h'.Edge j i

theorem Grows.reach {h h' : Hazards} (grows : Grows h h') {j i : ℕ} (reach : h.Reach j i) :
    h'.Reach j i := Relation.TransGen.mono grows _ _ reach

/-- What is known of the orderings when the calls up to a place are being added: `reads`
and `writes` are the accesses added so far, and `cells` every access there is. -/
structure Tracks (h : Hazards) (i : ℕ) (cells reads writes : ℕ → Word → Prop) : Prop where
  read : ∀ x c, reads x c →
    x ∈ h.readers c ∨ ∃ w, h.last c = some w ∧ (x = w ∨ h.Reach x w)
  write : ∀ x c, writes x c → ∃ w, h.last c = some w ∧ (x = w ∨ h.Reach x w)
  readers : ∀ c, ∀ x ∈ h.readers c, reads x c
  last : ∀ c w, h.last c = some w → writes w c
  inside : ∀ x c, reads x c ∨ writes x c → x ≤ i ∧ cells x c
  forward : ∀ j k, h.Edge j k → j < k ∧ k ≤ i
  clash : ∀ j k, h.Edge j k → ∃ c, cells k c ∧ cells j c
  waiting : ∀ k, h.waiting k = ∑ j ∈ range (i + 1), (h.after j).count k

variable {h : Hazards} {i : ℕ} {cells reads writes : ℕ → Word → Prop}

@[simp]
theorem edge_last (j : ℕ) : (h.edge i j).last = h.last := by
  rw [edge]
  split <;> rfl

@[simp]
theorem edge_readers (j : ℕ) : (h.edge i j).readers = h.readers := by
  rw [edge]
  split <;> rfl

theorem edge_iff {j x y : ℕ} : (h.edge i j).Edge x y ↔ h.Edge x y ∨ (x = j ∧ y = i ∧ j ≠ i) := by
  rw [edge]
  split
  case isTrue apart =>
    simp only [Edge]
    by_cases same : x = j
    · subst same
      rw [Function.update_self, List.mem_append, List.mem_singleton]
      exact or_congr_right ⟨fun here => ⟨rfl, here, apart⟩, fun here => here.2.1⟩
    · rw [Function.update_of_ne same]
      exact ⟨.inl, fun either => either.resolve_right fun here => same here.1⟩
  case isFalse same =>
    exact ⟨.inl, fun either => either.resolve_right fun here => same here.2.2⟩

theorem grows_edge (j : ℕ) : Grows h (h.edge i j) := fun _ _ old => edge_iff.mpr (.inl old)

/-- An ordering after an earlier call that shares a cell. -/
theorem Tracks.edge (tracks : h.Tracks i cells reads writes) {j : ℕ} (earlier : j ≤ i)
    (clash : ∃ c, cells i c ∧ cells j c) : (h.edge i j).Tracks i cells reads writes := by
  refine ⟨fun x c member => ?_, fun x c member => ?_, ?_, ?_, tracks.inside, ?_, ?_, ?_⟩
  · rw [edge_last, edge_readers]
    rcases tracks.read x c member with here | ⟨w, last, behind⟩
    · exact .inl here
    · exact .inr ⟨w, last, behind.imp_right (grows_edge j).reach⟩
  · rw [edge_last]
    obtain ⟨w, last, behind⟩ := tracks.write x c member
    exact ⟨w, last, behind.imp_right (grows_edge j).reach⟩
  · rw [edge_readers]
    exact tracks.readers
  · rw [edge_last]
    exact tracks.last
  · intro x y ordered
    rcases edge_iff.mp ordered with old | ⟨rfl, rfl, apart⟩
    · exact tracks.forward x y old
    · exact ⟨lt_of_le_of_ne earlier apart, le_rfl⟩
  · intro x y ordered
    rcases edge_iff.mp ordered with old | ⟨rfl, rfl, -⟩
    · exact tracks.clash x y old
    · exact clash
  · intro k
    rw [Hazards.edge]
    split
    case isFalse => exact tracks.waiting k
    case isTrue apart =>
      have each (x : ℕ) : ((Function.update h.after j (h.after j ++ [i])) x).count k =
          (h.after x).count k + if x = j then if k = i then 1 else 0 else 0 := by
        by_cases same : x = j
        · subst same
          rw [Function.update_self, List.count_append, if_pos rfl]
          by_cases here : k = i
          · rw [here, List.count_singleton_self, if_pos rfl]
          · rw [List.count_singleton, if_neg here, if_neg (by simpa using Ne.symm here)]
        · rw [Function.update_of_ne same, if_neg same, add_zero]
      simp only [each]
      rw [sum_add_distrib, sum_ite_eq' (range (i + 1)) j, if_pos (mem_range.mpr (by omega)),
        ← tracks.waiting k]
      by_cases same : k = i
      · subst same
        rw [Function.update_self, if_pos rfl]
      · rw [Function.update_of_ne same, if_neg same, add_zero]

@[simp]
theorem afterLast_last (c : Word) : (h.afterLast i c).last = h.last := by
  rw [afterLast]
  split
  · exact edge_last _
  · rfl

@[simp]
theorem afterLast_readers (c : Word) : (h.afterLast i c).readers = h.readers := by
  rw [afterLast]
  split
  · exact edge_readers _
  · rfl

theorem grows_afterLast (c : Word) : Grows h (h.afterLast i c) := by
  rw [afterLast]
  split
  · exact grows_edge _
  · exact fun _ _ old => old

theorem Tracks.afterLast (tracks : h.Tracks i cells reads writes) {c : Word} (here : cells i c) :
    (h.afterLast i c).Tracks i cells reads writes := by
  rw [Hazards.afterLast]
  split
  case h_1 j found =>
    obtain ⟨earlier, cell⟩ := tracks.inside j c (.inr (tracks.last c j found))
    exact tracks.edge earlier ⟨c, here, cell⟩
  case h_2 => exact tracks

/-- After a cell's last writer come all its writers. -/
theorem Tracks.afterLast_reach (tracks : h.Tracks i cells reads writes) {c : Word} {x w : ℕ}
    (found : h.last c = some w) (behind : x = w ∨ h.Reach x w) (apart : x ≠ i) :
    (h.afterLast i c).Reach x i := by
  have grows : Grows h (h.afterLast i c) := grows_afterLast c
  by_cases same : w = i
  · subst same
    exact grows.reach (behind.resolve_left apart)
  · have direct : (h.afterLast i c).Edge w i := by
      rw [Hazards.afterLast, found]
      exact edge_iff.mpr (.inr ⟨rfl, rfl, same⟩)
    rcases behind with rfl | reach
    · exact .single direct
    · exact .tail (grows.reach reach) direct

theorem grows_readCell (c : Word) : Grows h (h.readCell i c) := grows_afterLast c

/-- A read is ordered after the cell's writers. -/
theorem Tracks.readCell (tracks : h.Tracks i cells reads writes) {c : Word} (here : cells i c) :
    (h.readCell i c).Tracks i cells (fun x c' => reads x c' ∨ (x = i ∧ c' = c)) writes ∧
      ∀ x, x ≠ i → writes x c → (h.readCell i c).Reach x i := by
  have after := tracks.afterLast here
  have readersHere : (h.readCell i c).readers =
      Function.update (h.afterLast i c).readers c ((h.afterLast i c).readers c ++ [i]) := rfl
  constructor
  · refine ⟨fun x c' member => ?_, after.write, fun c' x member => ?_, after.last,
      fun x c' member => ?_, after.forward, after.clash, after.waiting⟩
    · rw [readersHere]
      by_cases same : c' = c
      · subst same
        rw [Function.update_self]
        rcases member with old | ⟨rfl, -⟩
        · exact (after.read x c' old).imp_left fun listed => List.mem_append_left _ listed
        · exact .inl (List.mem_append_right _ (List.mem_singleton_self x))
      · rw [Function.update_of_ne same]
        exact after.read x c' (member.resolve_right fun new => same new.2)
    · rw [readersHere] at member
      by_cases same : c' = c
      · subst same
        rw [Function.update_self] at member
        rcases List.mem_append.mp member with old | new
        · exact .inl (after.readers c' x old)
        · exact .inr ⟨List.mem_singleton.mp new, rfl⟩
      · rw [Function.update_of_ne same] at member
        exact .inl (after.readers c' x member)
    · rcases member with (old | ⟨rfl, rfl⟩) | old
      · exact after.inside x c' (.inl old)
      · exact ⟨le_rfl, here⟩
      · exact after.inside x c' (.inr old)
  · intro x apart member
    obtain ⟨w, found, behind⟩ := tracks.write x c member
    exact tracks.afterLast_reach found behind apart

/-- Orderings after several earlier calls that share a cell. -/
theorem Tracks.edges (tracks : h.Tracks i cells reads writes) {c : Word} (here : cells i c)
    {xs : List ℕ} (each : ∀ x ∈ xs, x ≤ i ∧ cells x c) :
    (xs.foldl (Hazards.edge i) h).Tracks i cells reads writes ∧
      Grows h (xs.foldl (Hazards.edge i) h) ∧ (xs.foldl (Hazards.edge i) h).last = h.last ∧
        (xs.foldl (Hazards.edge i) h).readers = h.readers ∧
          ∀ x ∈ xs, x ≠ i → (xs.foldl (Hazards.edge i) h).Edge x i := by
  induction xs generalizing h with
  | nil => exact ⟨tracks, fun _ _ old => old, rfl, rfl, nofun⟩
  | cons x xs ih =>
    obtain ⟨⟨earlier, cell⟩, rest⟩ := List.forall_mem_cons.mp each
    obtain ⟨after, grows, last, readers, edges⟩ :=
      ih (tracks.edge earlier ⟨c, here, cell⟩) rest
    refine ⟨after, fun _ _ old => grows _ _ (grows_edge x _ _ old), last.trans (edge_last x),
      readers.trans (edge_readers x), ?_⟩
    intro y member apart
    rcases List.mem_cons.mp member with rfl | later
    · exact grows _ _ (edge_iff.mpr (.inr ⟨rfl, rfl, apart⟩))
    · exact edges y later apart

/-- A write is ordered after the cell's readers and writers. -/
theorem Tracks.writeCell (tracks : h.Tracks i cells reads writes) {c : Word} (here : cells i c) :
    (h.writeCell i c).Tracks i cells reads (fun x c' => writes x c' ∨ (x = i ∧ c' = c)) ∧
      Grows h (h.writeCell i c) ∧
        ∀ x, x ≠ i → reads x c ∨ writes x c → (h.writeCell i c).Reach x i := by
  have before := tracks.afterLast here
  have listed : ∀ x ∈ (h.afterLast i c).readers c, x ≤ i ∧ cells x c := fun x member =>
    before.inside x c (.inl (before.readers c x member))
  obtain ⟨after, grows, last, readers, edges⟩ := before.edges here listed
  have whole : Grows h (h.writeCell i c) := fun j k old =>
    grows j k (grows_afterLast c j k old)
  have reaches : ∀ x, x ≠ i → reads x c ∨ writes x c → (h.writeCell i c).Reach x i := by
    intro x apart member
    have through {w : ℕ} (found : h.last c = some w) (behind : x = w ∨ h.Reach x w) :
        (h.writeCell i c).Reach x i :=
      Grows.reach grows (tracks.afterLast_reach found behind apart)
    rcases member with read | written
    · rcases tracks.read x c read with listed | ⟨w, found, behind⟩
      · exact .single (edges x (by rwa [afterLast_readers]) apart)
      · exact through found behind
    · obtain ⟨w, found, behind⟩ := tracks.write x c written
      exact through found behind
  have lastHere : (h.writeCell i c).last = Function.update h.last c (some i) := by
    rw [Hazards.writeCell]
    dsimp only
    rw [last, afterLast_last]
  have readersHere : (h.writeCell i c).readers = Function.update h.readers c [] := by
    rw [Hazards.writeCell]
    dsimp only
    rw [readers, afterLast_readers]
  have onto {x : ℕ} (member : reads x c ∨ writes x c ∨ x = i) :
      x = i ∨ (h.writeCell i c).Reach x i := by
    by_cases same : x = i
    · exact .inl same
    · exact .inr (reaches x same (member.imp_right fun either => either.resolve_right same))
  refine ⟨⟨fun x c' member => ?_, fun x c' member => ?_, fun c' x member => ?_,
    fun c' w found => ?_, fun x c' member => ?_, after.forward, after.clash, after.waiting⟩,
    whole, reaches⟩
  · rw [lastHere, readersHere]
    by_cases same : c' = c
    · subst same
      rw [Function.update_self, Function.update_self]
      exact .inr ⟨i, rfl, onto (.inl member)⟩
    · rw [Function.update_of_ne same, Function.update_of_ne same]
      rcases tracks.read x c' member with listed | ⟨w, found, behind⟩
      · exact .inl listed
      · exact .inr ⟨w, found, behind.imp_right whole.reach⟩
  · rw [lastHere]
    by_cases same : c' = c
    · subst same
      rw [Function.update_self]
      exact ⟨i, rfl, onto (.inr (member.imp_right fun new => new.1))⟩
    · rw [Function.update_of_ne same]
      obtain ⟨w, found, behind⟩ := tracks.write x c' (member.resolve_right fun new => same new.2)
      exact ⟨w, found, behind.imp_right whole.reach⟩
  · rw [readersHere] at member
    by_cases same : c' = c
    · subst same
      rw [Function.update_self] at member
      cases member
    · rw [Function.update_of_ne same] at member
      exact tracks.readers c' x member
  · rw [lastHere] at found
    by_cases same : c' = c
    · subst same
      rw [Function.update_self] at found
      exact .inr ⟨(Option.some.inj found).symm, rfl⟩
    · rw [Function.update_of_ne same] at found
      exact .inl (tracks.last c' w found)
  · rcases member with old | old | ⟨rfl, rfl⟩
    · exact tracks.inside x c' (.inl old)
    · exact tracks.inside x c' (.inr old)
    · exact ⟨le_rfl, here⟩

/-- A call's reads. -/
theorem Tracks.readCells (tracks : h.Tracks i cells reads writes) {cs : List Word}
    (here : ∀ c ∈ cs, cells i c) :
    (cs.foldl (Hazards.readCell i) h).Tracks i cells
        (fun x c => reads x c ∨ (x = i ∧ c ∈ cs)) writes ∧
      Grows h (cs.foldl (Hazards.readCell i) h) ∧
        ∀ c ∈ cs, ∀ x, x ≠ i → writes x c → (cs.foldl (Hazards.readCell i) h).Reach x i := by
  induction cs generalizing h reads with
  | nil =>
    refine ⟨?_, fun _ _ old => old, nofun⟩
    simpa using tracks
  | cons c cs ih =>
    obtain ⟨first, rest⟩ := List.forall_mem_cons.mp here
    obtain ⟨after, reaches⟩ := tracks.readCell first
    obtain ⟨done, grows, others⟩ := ih after rest
    refine ⟨?_, fun j k old => grows j k (grows_readCell c j k old), ?_⟩
    · have same : (fun x c' => reads x c' ∨ (x = i ∧ c' ∈ c :: cs)) =
          fun x c' => (reads x c' ∨ (x = i ∧ c' = c)) ∨ (x = i ∧ c' ∈ cs) := by
        funext x c'
        rw [List.mem_cons, and_or_left, or_assoc]
      rw [same]
      exact done
    · intro c' member x apart written
      rcases List.mem_cons.mp member with rfl | later
      · exact grows.reach (reaches x apart written)
      · exact others c' later x apart written

/-- A call's writes. -/
theorem Tracks.writeCells (tracks : h.Tracks i cells reads writes) {cs : List Word}
    (here : ∀ c ∈ cs, cells i c) :
    (cs.foldl (Hazards.writeCell i) h).Tracks i cells reads
        (fun x c => writes x c ∨ (x = i ∧ c ∈ cs)) ∧
      Grows h (cs.foldl (Hazards.writeCell i) h) ∧ ∀ c ∈ cs, ∀ x, x ≠ i → reads x c ∨ writes x c →
          (cs.foldl (Hazards.writeCell i) h).Reach x i := by
  induction cs generalizing h writes with
  | nil =>
    refine ⟨?_, fun _ _ old => old, nofun⟩
    simpa using tracks
  | cons c cs ih =>
    obtain ⟨first, rest⟩ := List.forall_mem_cons.mp here
    obtain ⟨after, growsFirst, reaches⟩ := tracks.writeCell first
    obtain ⟨done, grows, others⟩ := ih after rest
    refine ⟨?_, fun j k old => grows j k (growsFirst j k old), ?_⟩
    · have same : (fun x c' => writes x c' ∨ (x = i ∧ c' ∈ c :: cs)) =
          fun x c' => (writes x c' ∨ (x = i ∧ c' = c)) ∨ (x = i ∧ c' ∈ cs) := by
        funext x c'
        rw [List.mem_cons, and_or_left, or_assoc]
      rw [same]
      exact done
    · intro c' member x apart accessed
      rcases List.mem_cons.mp member with rfl | later
      · exact grows.reach (reaches x apart accessed)
      · exact others c' later x apart (accessed.imp_right .inl)

/-- More accesses there are. -/
theorem Tracks.widen {cells' : ℕ → Word → Prop} (tracks : h.Tracks i cells reads writes)
    (wider : ∀ x c, cells x c → cells' x c) : h.Tracks i cells' reads writes := by
  refine ⟨tracks.read, tracks.write, tracks.readers, tracks.last, fun x c member => ?_,
    tracks.forward, fun j k ordered => ?_, tracks.waiting⟩
  · exact (tracks.inside x c member).imp_right (wider x c)
  · obtain ⟨c, later, earlier⟩ := tracks.clash j k ordered
    exact ⟨c, wider k c later, wider j c earlier⟩

/-- The next call's place. -/
theorem Tracks.next (tracks : h.Tracks i cells reads writes) :
    h.Tracks (i + 1) cells reads writes := by
  refine ⟨tracks.read, tracks.write, tracks.readers, tracks.last, fun x c member => ?_,
    fun j k ordered => ?_, tracks.clash, fun k => ?_⟩
  · obtain ⟨earlier, cell⟩ := tracks.inside x c member
    exact ⟨earlier.trans (Nat.le_succ i), cell⟩
  · obtain ⟨before, earlier⟩ := tracks.forward j k ordered
    exact ⟨before, earlier.trans (Nat.le_succ i)⟩
  · have none : (h.after (i + 1)).count k = 0 := by
      refine List.count_eq_zero.mpr fun member => ?_
      obtain ⟨before, earlier⟩ := tracks.forward (i + 1) k member
      omega
    rw [sum_range_succ, none, add_zero]
    exact tracks.waiting k

/-- Nothing is ordered at the start. -/
theorem tracks_none (cells : ℕ → Word → Prop) :
    none.Tracks 0 cells (fun _ _ => False) (fun _ _ => False) :=
  ⟨nofun, nofun, fun _ _ member => (List.not_mem_nil member).elim,
    fun _ _ found => (Option.some_ne_none _ found.symm).elim,
    fun _ _ member => (or_self False ▸ member).elim,
      fun _ _ member => (List.not_mem_nil member).elim,
    fun _ _ member => (List.not_mem_nil member).elim, fun _ => by simp [none]⟩

end Hazards

/-- A call's cells by its place. -/
def Reads (ops : List Op) (i : ℕ) (c : Word) : Prop := ∃ op, ops[i]? = some op ∧ c ∈ (cellsOf op).1

def Writes (ops : List Op) (i : ℕ) (c : Word) : Prop := ∃ op, ops[i]? = some op ∧ c ∈ (cellsOf op).2

/-- One call writes what the other reads or writes. -/
def Clash (ops : List Op) (i j : ℕ) : Prop :=
  ∃ c, (Writes ops i c ∧ (Reads ops j c ∨ Writes ops j c)) ∨
    (Writes ops j c ∧ (Reads ops i c ∨ Writes ops i c))

theorem getElem?_concat_iff {ops : List Op} {op call : Op} {i : ℕ} :
    (ops ++ [op])[i]? = some call ↔ ops[i]? = some call ∨ (i = ops.length ∧ call = op) := by
  by_cases inside : i < ops.length
  · rw [List.getElem?_append_left inside]
    exact ⟨.inl, fun either => either.resolve_right fun here => inside.ne here.1⟩
  · rw [List.getElem?_append_right (by omega), List.getElem?_eq_none (l := ops) (by omega)]
    by_cases here : i = ops.length
    · subst here
      rw [Nat.sub_self, List.getElem?_cons_zero, Option.some.injEq]
      exact ⟨fun same => .inr ⟨rfl, same.symm⟩, fun either => (either.resolve_left nofun).2.symm⟩
    · rw [List.getElem?_eq_none (by rw [List.length_singleton]; omega)]
      exact ⟨nofun, fun either => absurd (either.resolve_left nofun).1 here⟩

/-- What holds of some call of a longer list, by its place. -/
theorem exists_concat_iff {holds : Op → Prop} {ops : List Op} {op : Op} {i : ℕ} :
    (∃ call, (ops ++ [op])[i]? = some call ∧ holds call) ↔
      (∃ call, ops[i]? = some call ∧ holds call) ∨ (i = ops.length ∧ holds op) := by
  constructor
  · rintro ⟨call, found, member⟩
    rcases getElem?_concat_iff.mp found with old | ⟨here, rfl⟩
    · exact .inl ⟨call, old, member⟩
    · exact .inr ⟨here, member⟩
  · rintro (⟨call, old, member⟩ | ⟨here, member⟩)
    · exact ⟨call, getElem?_concat_iff.mpr (.inl old), member⟩
    · exact ⟨op, getElem?_concat_iff.mpr (.inr ⟨here, rfl⟩), member⟩

theorem reads_concat {ops : List Op} {op : Op} {i : ℕ} {c : Word} :
    Reads (ops ++ [op]) i c ↔ Reads ops i c ∨ (i = ops.length ∧ c ∈ (cellsOf op).1) :=
  exists_concat_iff

theorem writes_concat {ops : List Op} {op : Op} {i : ℕ} {c : Word} :
    Writes (ops ++ [op]) i c ↔ Writes ops i c ∨ (i = ops.length ∧ c ∈ (cellsOf op).2) :=
  exists_concat_iff

/-- A call accesses a cell. -/
def Accesses (ops : List Op) (i : ℕ) (c : Word) : Prop := Reads ops i c ∨ Writes ops i c

theorem Accesses.lt {ops : List Op} {i : ℕ} {c : Word} (access : Accesses ops i c) :
    i < ops.length := by
  rcases access with ⟨op, found, -⟩ | ⟨op, found, -⟩
  · exact (List.getElem?_eq_some_iff.mp found).1
  · exact (List.getElem?_eq_some_iff.mp found).1

/-- The orderings cover every clash: of two calls one of which writes what the other
accesses, the later is ordered after the earlier. -/
theorem hazards_spec (ops : List Op) :
    (hazards ops).Tracks ops.length (Accesses ops) (Reads ops) (Writes ops) ∧
      ∀ j i, j < i → Clash ops j i → (hazards ops).Reach j i := by
  induction ops using List.reverseRecOn with
  | nil =>
    have empty (i : ℕ) (c : Word) : Reads [] i c = False ∧ Writes [] i c = False :=
      ⟨eq_false (by rintro ⟨op, found, -⟩; cases found),
        eq_false (by rintro ⟨op, found, -⟩; cases found)⟩
    refine ⟨?_, fun j i _ clash => ?_⟩
    · have reads : Reads [] = fun _ _ => False := funext₂ fun i c => (empty i c).1
      have writes : Writes [] = fun _ _ => False := funext₂ fun i c => (empty i c).2
      rw [reads, writes]
      exact Hazards.tracks_none (Accesses [])
    · obtain ⟨c, ⟨written, -⟩ | ⟨written, -⟩⟩ := clash
      · exact ((empty j c).2 ▸ written).elim
      · exact ((empty i c).2 ▸ written).elim
  | append_singleton ops op ih =>
    obtain ⟨tracks, ordered⟩ := ih
    have added : hazards (ops ++ [op]) = (hazards ops).addCall (op, ops.length) := by
      rw [hazards, List.zipIdx_append, List.foldl_append, Nat.zero_add]
      rfl
    have wider : ∀ x c, Accesses ops x c → Accesses (ops ++ [op]) x c := fun x c access =>
      access.imp (fun read => reads_concat.mpr (.inl read))
        fun written => writes_concat.mpr (.inl written)
    have readHere : ∀ c ∈ (cellsOf op).1, Accesses (ops ++ [op]) ops.length c :=
      fun c member => .inl (reads_concat.mpr (.inr ⟨rfl, member⟩))
    have writeHere : ∀ c ∈ (cellsOf op).2, Accesses (ops ++ [op]) ops.length c :=
      fun c member => .inr (writes_concat.mpr (.inr ⟨rfl, member⟩))
    obtain ⟨read, growsRead, afterRead⟩ := (tracks.widen wider).readCells readHere
    obtain ⟨written, growsWrite, afterWrite⟩ := read.writeCells writeHere
    have reads : (fun x c => Reads ops x c ∨ (x = ops.length ∧ c ∈ (cellsOf op).1)) =
        Reads (ops ++ [op]) := funext₂ fun x c => propext reads_concat.symm
    have writes : (fun x c => Writes ops x c ∨ (x = ops.length ∧ c ∈ (cellsOf op).2)) =
        Writes (ops ++ [op]) := funext₂ fun x c => propext writes_concat.symm
    rw [reads] at written
    rw [writes] at written
    rw [added, List.length_append, List.length_singleton]
    refine ⟨written.next, fun j i before clash => ?_⟩
    by_cases last : i = ops.length
    · subst last
      have apart : j ≠ ops.length := before.ne
      have old {c : Word} (access : Writes (ops ++ [op]) j c) : Writes ops j c :=
        (writes_concat.mp access).resolve_right fun here => apart here.1
      obtain ⟨c, ⟨wrote, read | write⟩ | ⟨write, access⟩⟩ := clash
      · obtain ⟨-, member⟩ := (reads_concat.mp read).resolve_left
          fun old => (Accesses.lt (.inl old)).ne rfl
        exact growsWrite.reach (afterRead c member j apart (old wrote))
      · obtain ⟨-, member⟩ := (writes_concat.mp write).resolve_left
          fun old => (Accesses.lt (.inr old)).ne rfl
        exact afterWrite c member j apart (.inr (old wrote))
      · obtain ⟨-, member⟩ := (writes_concat.mp write).resolve_left
          fun old => (Accesses.lt (.inr old)).ne rfl
        exact afterWrite c member j apart (access.imp reads_concat.mp old)
    · refine Hazards.Grows.reach (fun x y edge => growsWrite x y (growsRead x y edge))
        (ordered j i before ?_)
      have inside : i < ops.length := by
        obtain ⟨c, ⟨-, access⟩ | ⟨written, -⟩⟩ := clash
        · have below := Accesses.lt access
          rw [List.length_append, List.length_singleton] at below
          omega
        · have below := Accesses.lt (.inr written)
          rw [List.length_append, List.length_singleton] at below
          omega
      have oldRead {x : ℕ} {c : Word} (below : x < ops.length) :
          Reads (ops ++ [op]) x c ↔ Reads ops x c := reads_concat.trans
        ⟨fun either => either.resolve_right fun here => below.ne here.1, .inl⟩
      have oldWrite {x : ℕ} {c : Word} (below : x < ops.length) :
          Writes (ops ++ [op]) x c ↔ Writes ops x c := writes_concat.trans
        ⟨fun either => either.resolve_right fun here => below.ne here.1, .inl⟩
      obtain ⟨c, clash⟩ := clash
      rw [oldWrite inside, oldWrite (before.trans inside), oldRead inside,
        oldRead (before.trans inside)] at clash
      exact ⟨c, clash⟩

end Orderings

section Serves

open Finset

/-- A call of a family. -/
def OfFamily (ops : List Op) (k family : ℕ) : Prop := ∃ op, ops[k]? = some op ∧ op.family = family

namespace Queue

/-- A scheduler's state, with followers of the last call still to be released: what is
scheduled keeps every ordering, and the heaps hold the calls that wait for none. -/
structure Serves (q : Queue) (ops : List Op) (rest : List ℕ) : Prop where
  nodup : q.out.Nodup
  inside : ∀ i ∈ q.out, i < ops.length
  after : ∀ j, q.after j = if j ∈ q.out then [] else (hazards ops).after j
  waiting : ∀ k, q.waiting k =
    ∑ j ∈ range (ops.length + 1), (q.after j).count k + rest.count k
  ready : ∀ family k, k ∈ q.ready family ↔
    OfFamily ops k family ∧ k ∉ q.out ∧ q.waiting k = 0
  heaps : ∀ family, (q.ready family).Nodup
  closed : ∀ j i, (hazards ops).Edge j i → i ∈ q.out → j ∈ q.out
  turned : q.out.Pairwise fun x y => ¬(hazards ops).Reach y x

variable {ops : List Op} {q : Queue} {rest : List ℕ}

theorem edge_inside {j k : ℕ} (edge : (hazards ops).Edge j k) : j < k ∧ k < ops.length := by
  obtain ⟨tracks, -⟩ := hazards_spec ops
  obtain ⟨c, access, -⟩ := tracks.clash j k edge
  exact ⟨(tracks.forward j k edge).1, access.lt⟩

theorem Serves.closed_reach (serves : q.Serves ops rest) {j i : ℕ}
    (reach : (hazards ops).Reach j i) (scheduled : i ∈ q.out) : j ∈ q.out := by
  induction reach with
  | single edge => exact serves.closed _ _ edge scheduled
  | tail _ edge ih => exact ih (serves.closed _ _ edge scheduled)

/-- Releasing a follower. -/
theorem Serves.release {k : ℕ} (serves : q.Serves ops (k :: rest)) (inside : k < ops.length)
    (fresh : k ∉ q.out) :
    ∃ q', q.release ops k = some q' ∧ q'.Serves ops rest ∧ q'.out = q.out := by
  have waits : q.waiting k ≠ 0 := by
    rw [serves.waiting, List.count_cons_self]
    omega
  have counted (x : ℕ) : (Function.update q.waiting k (q.waiting k - 1)) x =
      ∑ j ∈ range (ops.length + 1), (q.after j).count x + rest.count x := by
    have before := serves.waiting x
    by_cases same : x = k
    · subst same
      rw [List.count_cons_self] at before
      rw [Function.update_self]
      omega
    · rw [List.count_cons_of_ne (Ne.symm same)] at before
      rw [Function.update_of_ne same, before]
  obtain ⟨op, found⟩ : ∃ op, ops[k]? = some op := ⟨_, List.getElem?_eq_getElem inside⟩
  rw [Queue.release, if_neg waits]
  by_cases last : q.waiting k - 1 = 0
  · rw [if_pos last, makeReady, found, Option.map_some]
    refine ⟨_, rfl, ⟨serves.nodup, serves.inside, serves.after, counted, ?_, ?_, serves.closed,
      serves.turned⟩, rfl⟩
    · intro family x
      dsimp only
      by_cases here : family = op.family
      · subst here
        rw [Function.update_self, List.mem_cons, serves.ready]
        by_cases same : x = k
        · subst same
          rw [Function.update_self]
          exact iff_of_true (.inl rfl) ⟨⟨op, found, rfl⟩, fresh, last⟩
        · rw [Function.update_of_ne same]
          exact ⟨fun either => either.resolve_left same, .inr⟩
      · rw [Function.update_of_ne here, serves.ready]
        by_cases same : x = k
        · subst same
          have other : ¬OfFamily ops x family := by
            rintro ⟨op', found', rfl⟩
            rw [found] at found'
            cases found'
            exact here rfl
          exact iff_of_false (fun of => other of.1) fun of => other of.1
        · rw [Function.update_of_ne same]
    · intro family
      dsimp only
      by_cases here : family = op.family
      · subst here
        rw [Function.update_self]
        refine List.nodup_cons.mpr ⟨fun member => ?_, serves.heaps _⟩
        exact waits ((serves.ready _ _).mp member).2.2
      · rw [Function.update_of_ne here]
        exact serves.heaps family
  · rw [if_neg last]
    refine ⟨_, rfl, ⟨serves.nodup, serves.inside, serves.after, counted, ?_, serves.heaps,
      serves.closed, serves.turned⟩, rfl⟩
    intro family x
    dsimp only
    rw [serves.ready]
    by_cases same : x = k
    · subst same
      rw [Function.update_self]
      exact iff_of_false (fun of => waits of.2.2) fun of => last of.2.2
    · rw [Function.update_of_ne same]

/-- Releasing every follower. -/
theorem Serves.releases (serves : q.Serves ops rest)
    (each : ∀ k ∈ rest, k < ops.length ∧ k ∉ q.out) :
    ∃ q', rest.foldlM (Queue.release ops) q = some q' ∧ q'.Serves ops [] ∧ q'.out = q.out := by
  induction rest generalizing q with
  | nil => exact ⟨q, rfl, serves, rfl⟩
  | cons k rest ih =>
    obtain ⟨⟨inside, fresh⟩, others⟩ := List.forall_mem_cons.mp each
    obtain ⟨q₁, ran, serves₁, out⟩ := serves.release inside fresh
    obtain ⟨q', rans, serves', out'⟩ := ih serves₁ (by rwa [out])
    refine ⟨q', ?_, serves', out'.trans out⟩
    rw [List.foldlM_cons, ran]
    exact rans

/-- The state once a ready call is scheduled, its followers still to be released. -/
theorem Serves.takes {family i : ℕ} (serves : q.Serves ops []) (member : i ∈ q.ready family) :
    Queue.Serves { q with
      ready := Function.update q.ready family ((q.ready family).erase i)
      out := q.out ++ [i]
      after := Function.update q.after i [] } ops (q.after i) := by
  obtain ⟨ofFamily, fresh, free⟩ := (serves.ready family i).mp member
  obtain ⟨op, found, isFamily⟩ := ofFamily
  have inside : i < ops.length := (List.getElem?_eq_some_iff.mp found).1
  have before : ∀ j, (hazards ops).Edge j i → j ∈ q.out := by
    intro j edge
    by_contra unscheduled
    have none := serves.waiting i
    rw [free, List.count_nil, add_zero, eq_comm, sum_eq_zero_iff] at none
    have early := none j (mem_range.mpr (by have := edge_inside edge; omega))
    rw [serves.after, if_neg unscheduled] at early
    exact List.count_eq_zero.mp early edge
  refine ⟨?_, ?_, fun j => ?_, fun k => ?_, fun other k => ?_, fun other => ?_, ?_, ?_⟩
  · exact List.nodup_append.mpr ⟨serves.nodup, List.nodup_singleton i, fun x old y new same => by
      rw [List.mem_singleton.mp new] at same
      exact fresh (same ▸ old)⟩
  · exact List.forall_mem_append.mpr ⟨serves.inside, List.forall_mem_singleton.mpr inside⟩
  · dsimp only
    by_cases same : j = i
    · subst same
      rw [Function.update_self, if_pos (List.mem_append_right _ (List.mem_singleton_self j))]
    · rw [Function.update_of_ne same, serves.after]
      refine if_congr ?_ rfl rfl
      rw [List.mem_append, List.mem_singleton]
      exact ⟨.inl, fun either => either.resolve_right same⟩
  · dsimp only
    have each (j : ℕ) : (q.after j).count k =
        ((Function.update q.after i []) j).count k + if j = i then (q.after i).count k else 0 := by
      by_cases same : j = i
      · subst same
        rw [Function.update_self, if_pos rfl, List.count_nil, zero_add]
      · rw [Function.update_of_ne same, if_neg same, add_zero]
    rw [serves.waiting, List.count_nil, add_zero, sum_congr rfl fun j _ => each j,
      sum_add_distrib, sum_ite_eq' (range (ops.length + 1)) i,
      if_pos (mem_range.mpr (by omega))]
  · dsimp only
    have out : k ∉ q.out ++ [i] ↔ k ∉ q.out ∧ k ≠ i := by
      rw [List.mem_append, List.mem_singleton, not_or]
    rw [out]
    by_cases here : other = family
    · subst here
      rw [Function.update_self, (serves.heaps other).mem_erase_iff, serves.ready]
      constructor
      · rintro ⟨apart, of, unscheduled, free⟩
        exact ⟨of, ⟨unscheduled, apart⟩, free⟩
      · rintro ⟨of, ⟨unscheduled, apart⟩, free⟩
        exact ⟨apart, of, unscheduled, free⟩
    · rw [Function.update_of_ne here, serves.ready]
      refine and_congr_right fun of => and_congr_left fun _ => ⟨fun old => ⟨old, ?_⟩, And.left⟩
      rintro rfl
      obtain ⟨op', found', rfl⟩ := of
      rw [found] at found'
      cases found'
      exact here isFamily
  · dsimp only
    by_cases here : other = family
    · subst here
      rw [Function.update_self]
      exact (serves.heaps other).erase i
    · rw [Function.update_of_ne here]
      exact serves.heaps other
  · intro j k edge scheduled
    rcases List.mem_append.mp scheduled with old | new
    · exact List.mem_append_left _ (serves.closed j k edge old)
    · rw [List.mem_singleton.mp new] at edge
      exact List.mem_append_left _ (before j edge)
  · refine List.pairwise_append.mpr ⟨serves.turned, List.pairwise_singleton _ i, ?_⟩
    intro x old y new reach
    rw [List.mem_singleton.mp new] at reach
    exact fresh (serves.closed_reach reach old)

/-- While a call is left, one is ready. -/
theorem Serves.progress (serves : q.Serves ops []) (left : q.out.length < ops.length) :
    ∃ k family, k ∈ q.ready family ∧ family < 3 := by
  have missing : ∃ k, k < ops.length ∧ k ∉ q.out := by
    by_contra all
    have covered : List.range ops.length ⊆ q.out := fun k member => by
      by_contra absent
      exact all ⟨k, List.mem_range.mp member, absent⟩
    have many := (List.nodup_range.subperm covered).length_le
    rw [List.length_range] at many
    omega
  let k := Nat.find missing
  obtain ⟨inside, absent⟩ : k < ops.length ∧ k ∉ q.out := Nat.find_spec missing
  have earlier : ∀ j < k, j ∈ q.out := fun j before => by
    by_contra gone
    exact Nat.find_min missing before ⟨before.trans inside, gone⟩
  have free : q.waiting k = 0 := by
    rw [serves.waiting, List.count_nil, add_zero, sum_eq_zero_iff]
    intro j _
    rw [serves.after]
    split
    · rfl
    · rename_i unscheduled
      refine List.count_eq_zero.mpr fun edge => unscheduled (earlier j ?_)
      exact (edge_inside edge).1
  refine ⟨k, (ops[k]).family, (serves.ready _ k).mpr
    ⟨⟨ops[k], List.getElem?_eq_getElem inside, rfl⟩, absent, free⟩, ?_⟩
  cases ops[k] <;> norm_num [Op.family]

/-- A heap that is not empty has an earliest call. -/
theorem exists_min {heap : List ℕ} (some_ : heap ≠ []) :
    ∃ i, heap.min? = some i ∧ i ∈ heap ∧ ∀ k ∈ heap, i ≤ k := by
  cases found : heap.min? with
  | none => exact absurd (List.min?_eq_none_iff.mp found) some_
  | some i =>
    obtain ⟨member, least⟩ := List.min?_eq_some_iff.mp found
    exact ⟨i, rfl, member, least⟩

/-- The family chosen has a call ready. -/
theorem Serves.chooses (serves : q.Serves ops []) (left : q.out.length < ops.length) :
    ∃ running, q.choose = some { q with running := running } ∧
      q.ready (if q.ready 0 = [] then running else 0) ≠ [] := by
  obtain ⟨k, family, member, few⟩ := serves.progress left
  rw [choose]
  by_cases imports : q.ready 0 = []
  · by_cases idle : q.ready q.running = []
    · rw [if_pos ⟨imports, idle⟩, nextFamily]
      simp only [if_pos imports]
      by_cases fields : q.ready 1 = []
      · have duplexes : q.ready 2 ≠ [] := by
          intro none
          have positive : family ≠ 0 := by
            rintro rfl
            rw [imports] at member
            cases member
          have other : family ≠ 1 := by
            rintro rfl
            rw [fields] at member
            cases member
          have two : family = 2 := by omega
          rw [two, none] at member
          cases member
        obtain ⟨j, least, -⟩ := exists_min duplexes
        rw [fields, least]
        exact ⟨2, rfl, duplexes⟩
      · obtain ⟨i, least, -⟩ := exists_min fields
        rw [least]
        by_cases duplexes : q.ready 2 = []
        · rw [duplexes]
          exact ⟨1, rfl, fields⟩
        · obtain ⟨j, least', -⟩ := exists_min duplexes
          rw [least']
          dsimp only
          by_cases earlier : i ≤ j
          · rw [if_pos earlier]
            exact ⟨1, rfl, fields⟩
          · rw [if_neg earlier]
            exact ⟨2, rfl, duplexes⟩
    · rw [if_neg fun both => idle both.2]
      refine ⟨q.running, rfl, ?_⟩
      rw [if_pos imports]
      exact idle
  · rw [if_neg fun both => imports both.1]
    refine ⟨q.running, rfl, ?_⟩
    rw [if_neg imports]
    exact imports

/-- One call scheduled: an import while there is one, and then the earliest. -/
theorem Serves.step (serves : q.Serves ops []) (left : q.out.length < ops.length) :
    ∃ q' i, q.scheduleStep ops = some q' ∧ q'.Serves ops [] ∧ q'.out = q.out ++ [i] ∧
      i ∉ q.out ∧ ∀ k ∈ q.ready 0, OfFamily ops i 0 ∧ i ≤ k := by
  obtain ⟨running, chosen, some_⟩ := serves.chooses left
  obtain ⟨i, least, member, below⟩ := exists_min some_
  have chosenServes : Serves { q with running := running } ops [] :=
    ⟨serves.nodup, serves.inside, serves.after, serves.waiting, serves.ready, serves.heaps,
      serves.closed, serves.turned⟩
  obtain ⟨ofFamily, fresh, -⟩ := (serves.ready _ i).mp member
  have followers : ∀ k ∈ q.after i, k < ops.length ∧ k ∉ q.out ++ [i] := by
    intro k later
    rw [serves.after, if_neg fresh] at later
    obtain ⟨before, inside⟩ := edge_inside later
    refine ⟨inside, fun scheduled => ?_⟩
    rcases List.mem_append.mp scheduled with old | new
    · exact fresh (serves.closed i k later old)
    · exact before.ne (List.mem_singleton.mp new).symm
  obtain ⟨q', ran, serves', out⟩ := (chosenServes.takes member).releases followers
  refine ⟨q', i, ?_, serves', out, fresh, fun k ready => ?_⟩
  · rw [scheduleStep, chosen]
    simp only [Option.bind_eq_bind, Option.bind_some, least]
    exact ran
  · have imports : q.ready 0 ≠ [] := List.ne_nil_of_mem ready
    rw [if_neg imports] at ofFamily below
    exact ⟨ofFamily, below k ready⟩

end Queue

/-- Each import fills a cell that no earlier call accesses. -/
def ImportsFresh (ops : List Op) : Prop :=
  ∀ i cell offset, ops[i]? = some (.importCell cell offset) → ∀ j < i, ¬Accesses ops j cell

/-- An import waits for no call. -/
theorem ImportsFresh.no_edge {ops : List Op} (fresh : ImportsFresh ops) {j i : ℕ}
    (import_ : OfFamily ops i 0) : ¬(hazards ops).Edge j i := by
  intro edge
  obtain ⟨op, found, family⟩ := import_
  cases op with
  | fr code d a b => cases family
  | duplex n s x y d => cases family
  | fq word d a b => cases family
  | importCell cell offset =>
    obtain ⟨c, here, there⟩ := (hazards_spec ops).1.clash j i edge
    have same : c = cell := by
      rcases here with ⟨op, found', member⟩ | ⟨op, found', member⟩
      · rw [found] at found'
        cases found'
        cases member
      · rw [found] at found'
        cases found'
        exact List.mem_singleton.mp member
    subst same
    exact fresh i c offset found j (Queue.edge_inside edge).1 there

namespace Queue

variable {ops : List Op} {q : Queue}

/-- Only imports are scheduled while there is one left, in their order. -/
structure ImportsFirst (q : Queue) (ops : List Op) : Prop where
  first : ∀ x ∈ q.out, ∀ y, OfFamily ops y 0 → y ∉ q.out → OfFamily ops x 0 ∧ x < y
  order : q.out.Pairwise fun x y => OfFamily ops y 0 → OfFamily ops x 0 ∧ x < y

/-- Every call is scheduled. -/
theorem Serves.schedules (fresh : ImportsFresh ops) (count : ℕ) (serves : q.Serves ops [])
    (imports : q.ImportsFirst ops) (left : q.out.length + count = ops.length) :
    ∃ q', q.schedules ops count = some q' ∧ q'.Serves ops [] ∧ q'.ImportsFirst ops ∧
      q'.out.length = ops.length := by
  induction count generalizing q with
  | zero => exact ⟨q, rfl, serves, imports, left⟩
  | succ count ih =>
    obtain ⟨q₁, i, ran, serves₁, out, unscheduled, before⟩ := serves.step (by omega)
    have ready {y : ℕ} (import_ : OfFamily ops y 0) (absent : y ∉ q.out) : y ∈ q.ready 0 := by
      refine (serves.ready 0 y).mpr ⟨import_, absent, ?_⟩
      rw [serves.waiting, List.count_nil, add_zero, sum_eq_zero_iff]
      intro j _
      rw [serves.after]
      split
      · rfl
      · exact List.count_eq_zero.mpr (fresh.no_edge import_)
    have imports₁ : q₁.ImportsFirst ops := by
      constructor
      · rw [out]
        intro x scheduled y import_ absent
        have old : y ∉ q.out := fun member => absent (List.mem_append_left _ member)
        rcases List.mem_append.mp scheduled with earlier | new
        · exact imports.first x earlier y import_ old
        · obtain ⟨family, below⟩ := before y (ready import_ old)
          rw [List.mem_singleton.mp new]
          refine ⟨family, lt_of_le_of_ne below fun same => absent ?_⟩
          rw [same]
          exact List.mem_append_right _ (List.mem_singleton_self y)
      · rw [out]
        refine List.pairwise_append.mpr ⟨imports.order, List.pairwise_singleton _ i, ?_⟩
        intro x earlier y new
        rw [List.mem_singleton.mp new]
        exact fun import_ => imports.first x earlier i import_ unscheduled
    obtain ⟨q', rans, done⟩ := ih serves₁ imports₁ (by
      rw [out, List.length_append, List.length_singleton]
      omega)
    refine ⟨q', ?_, done⟩
    rw [Queue.schedules, ran]
    exact rans

/-- Calls put into their families' heaps. -/
theorem makeReady_all {ks : List ℕ} (inside : ∀ k ∈ ks, k < ops.length) (nodup : ks.Nodup)
    (fresh : ∀ family, ∀ k ∈ ks, k ∉ q.ready family) (heaps : ∀ family, (q.ready family).Nodup) :
    ∃ ready, ks.foldlM (makeReady ops) q = some { q with ready := ready } ∧
      (∀ family k, k ∈ ready family ↔ k ∈ q.ready family ∨ (k ∈ ks ∧ OfFamily ops k family)) ∧
        ∀ family, (ready family).Nodup := by
  induction ks generalizing q with
  | nil => exact ⟨q.ready, rfl, fun family k => by simp, heaps⟩
  | cons k ks ih =>
    obtain ⟨kInside, rest⟩ := List.forall_mem_cons.mp inside
    obtain ⟨kFresh, distinct⟩ := List.nodup_cons.mp nodup
    obtain ⟨op, found⟩ : ∃ op, ops[k]? = some op := ⟨_, List.getElem?_eq_getElem kInside⟩
    have one : q.makeReady ops k = some
        { q with ready := Function.update q.ready op.family (k :: q.ready op.family) } := by
      rw [makeReady, found]
      rfl
    have listed (family x : ℕ) :
        x ∈ (Function.update q.ready op.family (k :: q.ready op.family)) family ↔
          x ∈ q.ready family ∨ (x = k ∧ OfFamily ops k family) := by
      by_cases here : family = op.family
      · subst here
        rw [Function.update_self, List.mem_cons, or_comm]
        exact or_congr_right ⟨fun same => ⟨same, op, found, rfl⟩, And.left⟩
      · rw [Function.update_of_ne here]
        refine ⟨.inl, fun either => either.resolve_right ?_⟩
        rintro ⟨-, op', found', rfl⟩
        rw [found] at found'
        cases found'
        exact here rfl
    obtain ⟨ready, ran, members, heaps'⟩ := @ih
      { q with ready := Function.update q.ready op.family (k :: q.ready op.family) } rest distinct
      (fun family x member => by
        rw [listed, not_or]
        refine ⟨fresh family x (List.mem_cons_of_mem _ member), ?_⟩
        rintro ⟨rfl, -⟩
        exact kFresh member)
      (fun family => by
        dsimp only
        by_cases here : family = op.family
        · subst here
          rw [Function.update_self]
          exact List.nodup_cons.mpr ⟨fresh _ k List.mem_cons_self, heaps _⟩
        · rw [Function.update_of_ne here]
          exact heaps family)
    refine ⟨ready, ?_, fun family x => ?_, heaps'⟩
    · rw [List.foldlM_cons, one]
      exact ran
    · rw [members, listed, List.mem_cons, or_assoc, or_and_right]
      refine or_congr_right (or_congr_left (and_congr_right ?_))
      rintro rfl
      exact Iff.rfl

end Queue

/-- The heaps at the start serve. -/
theorem startQueue_spec (ops : List Op) :
    ∃ q, startQueue ops = some q ∧ q.Serves ops [] ∧ q.out = [] := by
  obtain ⟨ready, ran, members, heaps⟩ := @Queue.makeReady_all ops
    ⟨(hazards ops).after, (hazards ops).waiting, fun _ => [], 0, []⟩
    ((List.range ops.length).filter fun i => (hazards ops).waiting i = 0)
    (fun k member => List.mem_range.mp (List.mem_of_mem_filter member))
    (List.nodup_range.filter _) (fun _ _ _ => List.not_mem_nil) (fun _ => List.nodup_nil)
  refine ⟨_, ran, ⟨List.nodup_nil, nofun, fun j => ?_, fun k => ?_, fun family k => ?_, heaps,
    fun _ _ _ member => (List.not_mem_nil member).elim, List.Pairwise.nil⟩, rfl⟩
  · rw [if_neg List.not_mem_nil]
  · rw [List.count_nil, add_zero]
    exact (hazards_spec ops).1.waiting k
  · dsimp only
    rw [members, List.mem_filter, List.mem_range, decide_eq_true_eq]
    constructor
    · rintro (none | ⟨⟨-, free⟩, family⟩)
      · cases none
      · exact ⟨family, List.not_mem_nil, free⟩
    · rintro ⟨⟨op, found, family⟩, -, free⟩
      exact .inr ⟨⟨(List.getElem?_eq_some_iff.mp found).1, free⟩, op, found, family⟩

/-- The call at a place. -/
def callAt (ops : List Op) (i : ℕ) : Op := ops.getD i (.importCell 0 0)

theorem map_callAt (ops : List Op) : (List.range ops.length).map (callAt ops) = ops := by
  refine List.ext_getElem (by rw [List.length_map, List.length_range]) fun i _ inside => ?_
  rw [List.getElem_map, List.getElem_range, callAt, List.getD_eq_getElem?_getD, List.getElem?_eq_getElem inside, Option.getD_some]

/-- A schedule orders the calls' places: clashing calls keep their order, and the
imports come first, in theirs. -/
theorem schedule_spec {ops : List Op} (plain : ∀ op ∈ ops, op.isFq = false)
    (fresh : ImportsFresh ops) :
    ∃ order : List ℕ, schedule ops = some (order.map (callAt ops)) ∧
      order.Perm (List.range ops.length) ∧
      (order.Pairwise fun x y => y < x → ¬Clash ops y x) ∧
        order.Pairwise fun x y => OfFamily ops y 0 → OfFamily ops x 0 ∧ x < y := by
  obtain ⟨q, start, serves, empty⟩ := startQueue_spec ops
  have imports : q.ImportsFirst ops := by
    constructor
    · rw [empty]
      exact nofun
    · rw [empty]
      exact List.Pairwise.nil
  obtain ⟨q', ran, serves', imports', length⟩ := serves.schedules fresh ops.length imports (by
    rw [empty, List.length_nil, zero_add])
  have calls : q'.out.mapM (fun i => ops[i]?) = some (q'.out.map (callAt ops)) := by
    refine mapM_some fun i member => ?_
    rw [callAt, List.getD_eq_getElem?_getD, List.getElem?_eq_getElem (serves'.inside i member), Option.getD_some]
  refine ⟨q'.out, ?_, ?_, ?_, imports'.order⟩
  · have none : ops.any Op.isFq = false := List.any_eq_false.mpr fun op member => by
      rw [plain op member]
      exact Bool.false_ne_true
    rw [schedule, none]
    simp only [Bool.false_eq_true, if_false, Option.bind_eq_bind, start, Option.bind_some, ran]
    exact calls
  · refine List.Subperm.perm_of_length_le (serves'.nodup.subperm fun i member =>
    List.mem_range.mpr (serves'.inside i member)) ?_
    rw [List.length_range, length]
  · refine serves'.turned.imp fun {x y} unordered before clash => unordered ?_
    exact (hazards_spec ops).2 y x before clash

end Serves

end Apogee.Recursion.Native
