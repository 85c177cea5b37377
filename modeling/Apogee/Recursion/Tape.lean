import Apogee.Circuit.FrOp
import Apogee.Transcript.Typed

/-! # The tape

The recursion verifier's checks are written as a straight-line program of
coprocessor calls over cells of the field memory. A builder appends calls to a
tape and answers the cells that will hold what it computes; a constant is made
once per tape. Running a tape stops at an assertion that fails.
-/

namespace Apogee.Recursion

open Math

/-- The field memory, by its cells. -/
abbrev FieldMemory := ℕ → Fr

/-- Never written, so always 0. Cells 0 to 2 are the zero state every transcript
starts from. -/
def zero : ℕ := 0

/-- One coprocessor call. -/
inductive Op
  /-- A field operation's frame. -/
  | fr (code d a b : ℕ)
  /-- A duplex step's frame: the number pending, the state, the two pending
  cells and the next state. -/
  | duplex (n s x y d : ℕ)
deriving DecidableEq

/-- What a duplex step permutes. -/
def absorbed (m : FieldMemory) (n s x y : ℕ) : Lanes :=
  ⟨if 1 ≤ n then m x else m s,
    if n = 2 then m y else if n = 1 then 0 else m (s + 1),
    m (s + 2) + (n : Fr)⟩

/-- One call over a memory. -/
def Op.step (permute : Lanes → Lanes) (m : FieldMemory) : Op → Option FieldMemory
  | .fr code d a b =>
    if code = FrOp.mul then some (Function.update m d (m a * m b))
    else if code = FrOp.add then some (Function.update m d (m a + m b))
    else if code = FrOp.sub then some (Function.update m d (m a - m b))
    else if code = FrOp.mac then some (Function.update m d (m d + m a * m b))
    else if code = FrOp.inv then some (Function.update m d (m a)⁻¹)
    else if code = FrOp.eq then if m a = m b then some m else none
    else if code = FrOp.imm then some (Function.update m d (b : Fr))
    else if code = FrOp.shl then
      some (Function.update m d (m a * ((2 ^ 32 : ℕ) : Fr) + (b : Fr)))
    else if code = FrOp.digit then
      -- the rest to `b` at its slot, then the digit to `d`
      let digit : Fr := ((m a).val % 2 ^ FrOp.digitBits : ℕ)
      let rest := (m a - digit) * ((2 ^ FrOp.digitBits : ℕ) : Fr)⁻¹
      some (Function.update (Function.update m b rest) d digit)
    else none
  | .duplex n s x y d =>
    let state := permute (absorbed m n s x y)
    some (Function.update (Function.update (Function.update m d state.first) (d + 1) state.second)
      (d + 2) state.capacity)

/-- A tape's calls, one after the other. -/
def run (permute : Lanes → Lanes) (ops : List Op) (m : FieldMemory) : Option FieldMemory :=
  ops.foldlM (Op.step permute) m

/-- A tape under construction: its calls, the next free cell, and each constant's
cell by its canonical 32-bit words. -/
structure Tape where
  ops : List Op
  next : ℕ
  constants : List (List ℕ × ℕ)

/-- A builder: it appends to a tape and answers. -/
abbrev Build := StateM Tape

namespace Tape

/-- An empty tape whose scratch starts at a cell. -/
def new (first : ℕ) : Tape := ⟨[], first, []⟩

/-- Fresh, consecutive cells. -/
def fresh (n : ℕ) : Build ℕ := fun t => (t.next, { t with next := t.next + n })

/-- A call appended. -/
def push (op : Op) : Build Unit := fun t => ((), { t with ops := t.ops ++ [op] })

def fr (code d a b : ℕ) : Build Unit := push (.fr code d a b)

/-- A constant's cell kept for the next time. -/
def insert (w : List ℕ) (c : ℕ) : Build Unit := fun t =>
  ((), { t with constants := (w, c) :: t.constants })

/-- The highest nonzero word below a place. -/
def topWord (w : List ℕ) : ℕ → Option ℕ
  | 0 => none
  | k + 1 => if w.getD k 0 ≠ 0 then some k else topWord w k

/-- The lower words shifted in, from the top. -/
def shiftWords (w : List ℕ) (c : ℕ) : ℕ → Build Unit
  | 0 => pure ()
  | k + 1 => do
      fr FrOp.shl c c (w.getD k 0)
      shiftWords w c k

/-- A cell holding the value whose words are given, made once per tape, a word at
a time from its top nonzero one. -/
def words (w : List ℕ) : Build ℕ := fun t =>
  match topWord w 8 with
  | none => (zero, t)
  | some top =>
    match t.constants.lookup w with
    | some c => (c, t)
    | none => (do
        let c ← fresh 1
        fr FrOp.imm c zero (w.getD top 0)
        shiftWords w c top
        insert w c
        pure c) t

/-- A cell holding a 64-bit number. -/
def small (v : ℕ) : Build ℕ := words [v % 2 ^ 32, v / 2 ^ 32 % 2 ^ 32, 0, 0, 0, 0, 0, 0]

/-- A field operation into a fresh cell. -/
def result (code a b : ℕ) : Build ℕ := do
  let d ← fresh 1
  fr code d a b
  pure d

def add (a b : ℕ) : Build ℕ := result FrOp.add a b

def sub (a b : ℕ) : Build ℕ := result FrOp.sub a b

/-- `a = b`, or the tape has no run. -/
def assertEq (a b : ℕ) : Build Unit := fr FrOp.eq 0 a b

/-- A copy in a fresh cell. -/
def copy (a : ℕ) : Build ℕ := add a zero

end Tape

end Apogee.Recursion
