import Apogee.Circuit.FieldIo
import Apogee.Circuit.FrOp
import Apogee.Circuit.ModMul
import Apogee.Curve.Groups
import Apogee.Emulator.Alu
import Apogee.Emulator.Wide
import Apogee.Transcript.Duplex
import Mathlib.Data.List.GetD

/-! # The machine's field memory

Field cells hold whole elements, and a cell never written holds 0. A recursion
call reads its frame, works on cells and data words, and reports every access it
made besides the frame, in the circuit's order.
-/

namespace Apogee.Emulator

open Alu

/-- Why a call stops the run. -/
inductive EmuError
  | misaligned (pc addr : Word) (width : ℕ)
  | outOfBounds (pc addr : Word)
  | delegationFrame (pc : Word) (detail : String)
deriving DecidableEq

/-- What the calls work on: the words of memory by address, the end of the
supplied advice, and the field cells. -/
structure Machine where
  ram : Word → Word
  adviceEnd : ℕ
  field : Word → Fr

/-- One access a call makes besides its frame. -/
inductive Extra
  | cell (cell : Word) (delta : ℕ) (old new : Fr)
  | word (addr old new : Word)

/-- Whether an address lies in ordinary guest memory. -/
def inRam (addr : Word) : Bool :=
  GuestMemory.ramOrigin ≤ addr.toNat && addr.toNat - GuestMemory.ramOrigin < 0x7FFF0000

/-- Whether an address is in a region some family initializes: ordinary memory,
a public window, or the advice. -/
def addressable (addr : Word) : Bool :=
  let isPublic := GuestMemory.publicInputOrigin ≤ addr.toNat &&
    addr.toNat - GuestMemory.publicInputOrigin < 2 * GuestMemory.publicWindowBytes
  inRam addr || isPublic || GuestMemory.adviceOrigin ≤ addr.toNat

namespace Machine

/-- The word an access touches. -/
def dataWord (machine : Machine) (pc addr : Word) (width : ℕ) : Except EmuError Word :=
  if addr.toNat % width ≠ 0 then .error (.misaligned pc addr width)
  else
    let word := addr &&& ~~~3
    if addressable word &&
        (word.toNat < GuestMemory.adviceOrigin || word.toNat < machine.adviceEnd) then .ok word
    else .error (.outOfBounds pc addr)

/-- The machine with a cell written. -/
def insert (machine : Machine) (cell : Word) (value : Fr) : Machine :=
  { machine with field := Function.update machine.field cell value }

/-- The machine with a word written. -/
def setWord (machine : Machine) (addr value : Word) : Machine :=
  { machine with ram := Function.update machine.ram addr value }

/-- The low byte of an element's canonical encoding. -/
def lowByte (value : Fr) : ℕ := value.val % 2 ^ 8

/-- The inverse, and zero's is zero. -/
def inverseOrZero (value : Fr) : Fr := if value = 0 then 0 else value⁻¹

/-- The end of a field operation that leaves `b` as it is: `d` written where there
is a new value, and the accesses made. -/
def finishOp (machine : Machine) (frame : List Word) (readsA readsB : Bool) (new : Option Fr) :
    Machine × List (Option Extra) :=
  let dc := frame.getD FrOp.dWord 0
  let ac := frame.getD FrOp.aWord 0
  let bc := frame.getD FrOp.bWord 0
  (match new with
    | some v => machine.insert dc v
    | none => machine,
   [if readsA then some (.cell ac FrOp.deltaA (machine.field ac) (machine.field ac)) else none,
     if readsB then some (.cell bc FrOp.deltaB (machine.field bc) (machine.field bc)) else none,
     new.map fun v => .cell dc FrOp.deltaD (machine.field dc) v])

/-- The digit operation: the low byte of `a` to `d`, and the rest to `b`. The
destination is read after the rest is written, so it may be `b`'s cell. -/
def digitOp (machine : Machine) (frame : List Word) : Machine × List (Option Extra) :=
  let dc := frame.getD FrOp.dWord 0
  let ac := frame.getD FrOp.aWord 0
  let bc := frame.getD FrOp.bWord 0
  let a := machine.field ac
  let digit : Fr := (lowByte a : Fr)
  let rest := (a - digit) * ((2 ^ FrOp.digitBits : ℕ) : Fr)⁻¹
  let after := machine.insert bc rest
  (after.insert dc digit,
    [some (.cell ac FrOp.deltaA a a), some (.cell bc FrOp.deltaB (machine.field bc) rest),
      some (.cell dc FrOp.deltaD (after.field dc) digit)])

/-- A field operation over the frame `[op, d, a, b]`: the accesses to `a`, `b`
and `d`, each absent where the operation makes none. -/
def frOp (machine : Machine) (pc : Word) (frame : List Word) :
    Except EmuError (Machine × List (Option Extra)) :=
  let op := (frame.getD FrOp.opWord 0).toNat
  let a := machine.field (frame.getD FrOp.aWord 0)
  let b := machine.field (frame.getD FrOp.bWord 0)
  let d := machine.field (frame.getD FrOp.dWord 0)
  let imm : Fr := ((frame.getD FrOp.bWord 0).toNat : Fr)
  if op = FrOp.mul then .ok (machine.finishOp frame true true (some (a * b)))
  else if op = FrOp.add then .ok (machine.finishOp frame true true (some (a + b)))
  else if op = FrOp.sub then .ok (machine.finishOp frame true true (some (a - b)))
  else if op = FrOp.mac then .ok (machine.finishOp frame true true (some (d + a * b)))
  else if op = FrOp.inv then
    .ok (machine.finishOp frame true false (some (inverseOrZero a)))
  else if op = FrOp.eq then
    if a = b then .ok (machine.finishOp frame true true none)
    else .error (.delegationFrame pc "EQ's two cells hold different values")
  else if op = FrOp.imm then .ok (machine.finishOp frame false false (some imm))
  else if op = FrOp.shl then
    .ok (machine.finishOp frame true false (some (a * ((2 ^ 32 : ℕ) : Fr) + imm)))
  else if op = FrOp.digit then .ok (machine.digitOp frame)
  else .error (.delegationFrame pc "the op is not one FR_OP answers")

/-- The addresses of the data words at a pointer. -/
def dataAddrs (machine : Machine) (pc ptr : Word) : Except EmuError (List Word) :=
  (List.range FieldIo.dataWords).mapM fun k =>
    if ptr.toNat + 4 * k < 2 ^ 32 then
      machine.dataWord pc (BitVec.ofNat 32 (ptr.toNat + 4 * k)) 4
    else .error (.outOfBounds pc ptr)

/-- The `k`-th word of an element's canonical encoding. -/
def limbWord (value : Fr) (k : ℕ) : Word := BitVec.ofNat 32 (value.val / 2 ^ (32 * k))

/-- The words' value, the highest word first. -/
def packWords (words : List Word) : Fr :=
  words.reverse.foldl (fun v word => v * ((2 ^ 32 : ℕ) : Fr) + (word.toNat : Fr)) 0

/-- A move over the frame `[op, cell, ptr]`: the eight data words' accesses, then
the cell's. -/
def fieldIo (machine : Machine) (pc : Word) (frame : List Word) :
    Except EmuError (Machine × List (Option Extra)) := do
  let op := (frame.getD FieldIo.opWord 0).toNat
  let cell := frame.getD FieldIo.cellWord 0
  let ptr := frame.getD FieldIo.ptrWord 0
  let addrs ← machine.dataAddrs pc ptr
  let words := addrs.map machine.ram
  let old := machine.field cell
  let finish (new : Fr) (written : List Word) :=
    let after := (addrs.zip written).foldl (fun m entry => m.setWord entry.1 entry.2) machine
    (after.insert cell new,
      (addrs.zip (words.zip written)).map (fun entry =>
        some (Extra.word entry.1 entry.2.1 entry.2.2)) ++
      [some (Extra.cell cell FieldIo.cellDelta old new)])
  if op = FieldIo.importCode then pure (finish (packWords words) words)
  else if op = FieldIo.exportCode then
    pure (finish old ((List.range FieldIo.dataWords).map (limbWord old)))
  else .error (.delegationFrame pc "the op is not one FIELD_IO answers")

end Machine

end Apogee.Emulator

/-! ## The executor's frame functions

A frame delegation reads its frame's words and returns the frame it leaves.
-/

namespace Apogee.Emulator

open Alu Wide

/-- A frame value's eight limbs. -/
def limbsAt (frame : List Word) (first : ℕ) : List ℕ :=
  (List.range 8).map fun k => (frame.getD (first + k) 0).toNat

/-- A frame with a value's eight limbs written. -/
def withLimbs (frame : List Word) (first : ℕ) (limbs : List ℕ) : List Word :=
  (List.range 8).foldl (fun frame k => frame.set (first + k) (BitVec.ofNat 32 (limbs.getD k 0)))
    frame

/-- The modular multiplication's frame: `out = a·b mod m`, `m` the modulus the
first word selects. -/
def modMulFrame (pc : Word) (old : List Word) : Except EmuError (List Word) :=
  match ModMul.modulus (old.getD ModMul.selectorWord 0).toNat with
  | none => .error (.delegationFrame pc "the modulus selector names no field")
  | some m =>
    let a := limbsAt old ModMul.aWord
    let b := limbsAt old ModMul.bWord
    if ¬Wide.lessThan a m then .error (.delegationFrame pc "operand a is not below the modulus")
    else if ¬Wide.lessThan b m then
      .error (.delegationFrame pc "operand b is not below the modulus")
    else .ok (withLimbs old ModMul.outWord (reduce (Wide.product a b) m))

section Limbs

@[simp]
theorem length_limbsAt (frame : List Word) (first : ℕ) : (limbsAt frame first).length = 8 := by
  simp [limbsAt]

theorem inRange_limbsAt (frame : List Word) (first : ℕ) : InRange (limbsAt frame first) := by
  intro limb member
  obtain ⟨k, _, rfl⟩ := List.mem_map.mp member
  exact BitVec.isLt _

/-- A frame value is the sum of its words over their places. -/
theorem value_limbsAt (frame : List Word) (first : ℕ) : value (limbsAt frame first) =
      ((List.range 8).map fun k => base ^ k * (frame.getD (first + k) 0).toNat).sum := by
  rw [value, ← Nat.cast_id (Nat.ofDigits base _), ← Nat.cast_id base, Math.ofDigits_eq_sum,
    length_limbsAt]
  refine congrArg List.sum (List.map_congr_left fun k member => ?_)
  simp [limbsAt, List.mem_range.mp member]

/-- What a frame holds after a value is written. -/
theorem getD_withLimbs (frame : List Word) {first : ℕ} (limbs : List ℕ)
    (fits : first + 8 ≤ frame.length) (j : ℕ) :
    (withLimbs frame first limbs).getD j 0 =
      if first ≤ j ∧ j < first + 8 then BitVec.ofNat 32 (limbs.getD (j - first) 0)
      else frame.getD j 0 := by
  have steps (count : ℕ) (few : count ≤ 8) :
      let written := (List.range count).foldl
        (fun frame k => frame.set (first + k) (BitVec.ofNat 32 (limbs.getD k 0))) frame
      written.length = frame.length ∧ written.getD j 0 =
        if first ≤ j ∧ j < first + count then BitVec.ofNat 32 (limbs.getD (j - first) 0)
        else frame.getD j 0 := by
    induction count with
    | zero => exact ⟨rfl, (if_neg (by omega)).symm⟩
    | succ count ih =>
      obtain ⟨length, each⟩ := ih (by omega)
      rw [List.range_succ, List.foldl_append, List.foldl_cons, List.foldl_nil]
      refine ⟨by rw [List.length_set, length], ?_⟩
      by_cases here : j = first + count
      · subst here
        rw [if_pos ⟨by omega, by omega⟩, List.getD_eq_getElem?_getD,
          List.getElem?_set_self (by omega), Option.getD_some, Nat.add_sub_cancel_left]
      · rw [List.getD_eq_getElem?_getD, List.getElem?_set_ne (Ne.symm here),
          ← List.getD_eq_getElem?_getD, each]
        refine if_congr ?_ rfl rfl
        omega
  exact (steps 8 le_rfl).2

@[simp]
theorem length_withLimbs (frame : List Word) (first : ℕ) (limbs : List ℕ) :
    (withLimbs frame first limbs).length = frame.length := by
  have steps (count : ℕ) : ((List.range count).foldl
      (fun frame k => frame.set (first + k) (BitVec.ofNat 32 (limbs.getD k 0))) frame).length =
        frame.length := by
    induction count with
    | zero => rfl
    | succ count ih =>
      rw [List.range_succ, List.foldl_append, List.foldl_cons, List.foldl_nil, List.length_set,
        ih]
  exact steps 8

end Limbs

end Apogee.Emulator

/-! ## The machine's duplex and base-field calls

A duplex step permutes three consecutive cells into three others. A base-field
operation reads elements of four limbs each, where its words or the digit cell put
them, and writes the reduced result.
-/

namespace Apogee.P2Field

def nWord : ℕ := 0
def sWord : ℕ := 1
def xWord : ℕ := 2
def yWord : ℕ := 3
def dWord : ℕ := 4

/-- The cells a state takes. -/
def stateCells : ℕ := 3

def deltaState : ℕ := 0
def deltaX : ℕ := 1
def deltaY : ℕ := 2
def deltaNext : ℕ := 3

end Apogee.P2Field

namespace Apogee.Emulator

open Alu Math

/-- A field element's integer, when it is below `2^128`. -/
def small (v : Fr) : Option ℕ :=
  if ((Curve.Fr.toBytes v).drop 16).any (· != 0) then none
  else some (leValue ((Curve.Fr.toBytes v).take 16))

/-- Four 64-bit limbs as eight 32-bit ones. -/
def wideOf (x : List ℕ) : List ℕ :=
  (List.range 8).map fun k => x.getD (k / 2) 0 / 2 ^ (32 * (k % 2)) % 2 ^ 32

/-- Eight 32-bit limbs as four 64-bit ones. -/
def limbsOf (x : List ℕ) : List ℕ :=
  (List.range 4).map fun k => x.getD (2 * k) 0 ||| x.getD (2 * k + 1) 0 <<< 32

/-- The modulus, in 32-bit limbs. -/
def wideQ : List ℕ := wideOf FqOp.q

/-- An element modulo `q`. -/
def reduced (x : List ℕ) : List ℕ := Wide.reduce (wideOf x ++ List.replicate 8 0) wideQ

/-- The result of two elements, the product's for every code but the sum's and the difference's. -/
def fqResult (code : ℕ) (a b : List ℕ) : List ℕ :=
  if code = FqOp.add then Wide.addMod (reduced a) (reduced b) wideQ
  else if code = FqOp.sub then Wide.subMod (reduced a) (reduced b) wideQ
  else Wide.mulMod (wideOf a) (wideOf b) wideQ

/-- A frame a coprocessor refuses. -/
def require {α : Type} (pc : Word) (detail : String) : Option α → Except EmuError α
  | some x => .ok x
  | none => .error (.delegationFrame pc detail)

/-- Where an operand's element starts: its word, or the digit's bucket from there. -/
def elementAt (pc word : Word) (digit flag : ℕ) (base : Word) : Except EmuError Word :=
  let offset := if word &&& BitVec.ofNat 32 flag ≠ 0 then FqOp.bucketCells * digit else 0
  require pc "an element leaves the cells"
    (if base.toNat + offset < 2 ^ 32 ∧ base.toNat + offset ≤ 2 ^ 32 - 1 - FqOp.elementCells then
      some (BitVec.ofNat 32 (base.toNat + offset))
    else none)

/-- An element's limbs. -/
def elementLimbs (pc : Word) (values : List Fr) : Except EmuError (List ℕ) :=
  values.mapM fun x =>
    require pc "an operand is not an element" ((small x).filter fun l => l / 2 ^ 64 == 0)

/-- A duplex step over the frame `[n, s, x, y, d]`: the accesses to the state, to the pending
cells and to the next state. -/
def Machine.p2Field (permute : Lanes → Lanes) (machine : Machine) (pc : Word)
    (frame : List Word) : Except EmuError (Machine × List (Option Extra)) :=
  let n := (frame.getD P2Field.nWord 0).toNat
  let s := frame.getD P2Field.sWord 0
  let x := frame.getD P2Field.xWord 0
  let y := frame.getD P2Field.yWord 0
  let d := frame.getD P2Field.dWord 0
  if 2 < n ∨ 2 ^ 32 - 1 - P2Field.stateCells < s.toNat ∨
      2 ^ 32 - 1 - P2Field.stateCells < d.toNat then
    .error (.delegationFrame pc "absorbs more than the rate, or its states leave the cells")
  else
    let state := [machine.field s, machine.field (s + 1), machine.field (s + 2)]
    let xv := machine.field x
    let yv := machine.field y
    let lanes := permute
      ⟨if 1 ≤ n then xv else state.getD 0 0,
        if n = 2 then yv else if n = 1 then 0 else state.getD 1 0,
        state.getD 2 0 + (n : Fr)⟩
    let out := [lanes.first, lanes.second, lanes.capacity]
    let written := out.zipIdx.foldl (fun (after : Machine × List (Option Extra)) entry =>
      let cell := d + BitVec.ofNat 32 entry.2
      (after.1.insert cell entry.1,
        after.2 ++ [some (.cell cell P2Field.deltaNext (after.1.field cell) entry.1)]))
      (machine, [])
    .ok (written.1,
      state.zipIdx.map (fun entry =>
        some (.cell (s + BitVec.ofNat 32 entry.2) P2Field.deltaState entry.1 entry.1)) ++
      [if 1 ≤ n then some (.cell x P2Field.deltaX xv xv) else none,
        if n = 2 then some (.cell y P2Field.deltaY yv yv) else none] ++ written.2)

/-- The limbs a base-field operation leaves in `d`. -/
def fqNew (pc : Word) (code : ℕ) (av bv dv : List Fr) : Except EmuError (List ℕ) :=
  if code = FqOp.from128 then do
    let lo ← require pc "FROM128's cells pass 2^128" (small (av.getD 0 0))
    let hi ← require pc "FROM128's cells pass 2^128" (small (av.getD 1 0))
    .ok [lo % 2 ^ 64, lo / 2 ^ 64 % 2 ^ 64, hi % 2 ^ 64, hi / 2 ^ 64 % 2 ^ 64]
  else if code = FqOp.mul ∨ code = FqOp.add ∨ code = FqOp.sub ∨ code = FqOp.muleq then do
    let a ← elementLimbs pc av
    let b ← elementLimbs pc bv
    let r := fqResult code a b
    if code = FqOp.muleq then do
      let d ← elementLimbs pc dv
      if reduced d ≠ r then .error (.delegationFrame pc "MULEQ's product is not d") else .ok d
    else .ok (limbsOf r)
  else .error (.delegationFrame pc "the op is not one FQ_OP answers")

/-- A base-field operation over the frame `[op, d, a, b]`: the accesses to the digit cell, then
to the elements of `a`, `b` and `d`. -/
def Machine.fqOp (machine : Machine) (pc : Word) (frame : List Word) :
    Except EmuError (Machine × List (Option Extra)) := do
  let word := frame.getD FqOp.opWord 0
  let code := word.toNat % 2 ^ FqOp.codeBits
  let g := word >>> FqOp.digitShift
  let digitValue := machine.field g
  let digit ← require pc "the digit cell holds no digit"
    ((small digitValue).filter fun v => v < 2 ^ 24)
  let dc ← elementAt pc word digit FqOp.flagD (frame.getD FqOp.dWord 0)
  let ac ← elementAt pc word digit FqOp.flagA (frame.getD FqOp.aWord 0)
  let bc ← elementAt pc word digit FqOp.flagB (frame.getD FqOp.bWord 0)
  let cells (c : Word) := (List.range 4).map fun k => machine.field (c + BitVec.ofNat 32 k)
  let new ← fqNew pc code (cells ac) (cells bc) (cells dc)
  let written := new.zipIdx.foldl (fun (after : Machine) entry =>
    after.insert (dc + BitVec.ofNat 32 entry.2) ((entry.1 : ℕ) : Fr)) machine
  let reads (c : Word) (delta : ℕ) := (cells c).zipIdx.map fun entry =>
    some (Extra.cell (c + BitVec.ofNat 32 entry.2) delta entry.1 entry.1)
  .ok (written,
    [some (.cell g FqOp.deltaG digitValue digitValue)] ++ reads ac FqOp.deltaA ++
      reads bc FqOp.deltaB ++ ((cells dc).zip new).zipIdx.map fun entry =>
        some (.cell (dc + BitVec.ofNat 32 entry.2) FqOp.deltaD entry.1.1 ((entry.1.2 : ℕ) : Fr)))

section Values

/-- What fits half an element's bytes. -/
theorem small_eq (v : Fr) : small v = if v.val < 2 ^ 128 then some v.val else none := by
  have bytes := @Curve.Fr.any_drop_toBytes 16 (by norm_num) v
  rw [small]
  by_cases below : v.val < 2 ^ 128
  · have fits : v.val < 256 ^ 16 := by rwa [show (256 : ℕ) ^ 16 = 2 ^ 128 by norm_num]
    rw [bytes.mpr fits, if_neg Bool.false_ne_true, if_pos below,
      Curve.Fr.take_toBytes (by norm_num), leValue_leBytes fits]
  · have high : ((Curve.Fr.toBytes v).drop 16).any (· != 0) = true := by
      rw [← Bool.not_eq_false, bytes, show (256 : ℕ) ^ 16 = 2 ^ 128 by norm_num]
      exact below
    rw [if_pos high, if_neg below]

/-- A value's limbs, regrouped. -/
theorem wideOf_spec {x : List ℕ} (length : x.length = 4) (inside : ∀ limb ∈ x, limb < 2 ^ 64) :
    (wideOf x).length = 8 ∧ Wide.InRange (wideOf x) ∧
      Wide.value (wideOf x) = Nat.ofDigits (2 ^ 64) x := by
  obtain ⟨a, b, c, d, rfl⟩ := List.length_eq_four.mp length
  refine ⟨by rw [wideOf, List.length_map, List.length_range], fun limb member => ?_, ?_⟩
  · obtain ⟨k, -, rfl⟩ := List.mem_map.mp member
    exact Nat.mod_lt _ (by norm_num)
  · simp only [List.forall_mem_cons] at inside
    obtain ⟨aSmall, bSmall, cSmall, dSmall, -⟩ := inside
    have eight : List.range 8 = [0, 1, 2, 3, 4, 5, 6, 7] := rfl
    have parts {limb : ℕ} (small : limb < 2 ^ 64) :
        limb % 2 ^ 32 + 2 ^ 32 * (limb / 2 ^ 32 % 2 ^ 32) = limb := by omega
    simp only [Wide.value, Wide.base, wideOf, eight, List.map_cons, List.map_nil,
      Nat.ofDigits_cons, Nat.ofDigits_nil]
    norm_num only [List.getD_cons_zero, List.getD_cons_succ, Nat.pow_zero, Nat.div_one]
    have first := parts aSmall
    have second := parts bSmall
    have third := parts cSmall
    have fourth := parts dSmall
    linear_combination first + 2 ^ 64 * second + 2 ^ 128 * third + 2 ^ 192 * fourth

theorem limbsOf_spec {x : List ℕ} (length : x.length = 8) (inside : Wide.InRange x) :
    (limbsOf x).length = 4 ∧ (∀ limb ∈ limbsOf x, limb < 2 ^ 64) ∧
      Nat.ofDigits (2 ^ 64) (limbsOf x) = Wide.value x := by
  have pair (k : ℕ) (k' : 2 * k + 1 < 8) : x.getD (2 * k) 0 < 2 ^ 32 ∧
      x.getD (2 * k + 1) 0 < 2 ^ 32 := by
    refine ⟨?_, ?_⟩
    · rw [List.getD_eq_getElem x 0 (by omega)]
      exact inside _ (List.getElem_mem _)
    · rw [List.getD_eq_getElem x 0 (by omega)]
      exact inside _ (List.getElem_mem _)
  have joined (k : ℕ) (k' : 2 * k + 1 < 8) : x.getD (2 * k) 0 ||| x.getD (2 * k + 1) 0 <<< 32 =
      x.getD (2 * k) 0 + 2 ^ 32 * x.getD (2 * k + 1) 0 := by
    rw [Nat.or_comm, ← Nat.shiftLeft_add_eq_or_of_lt (pair k k').1, Nat.shiftLeft_eq]
    ring
  refine ⟨by rw [limbsOf, List.length_map, List.length_range], fun limb member => ?_, ?_⟩
  · obtain ⟨k, few, rfl⟩ := List.mem_map.mp member
    have k' : 2 * k + 1 < 8 := by
      have := List.mem_range.mp few
      omega
    have small := pair k k'
    rw [joined k k']
    omega
  · have shape : limbsOf x = (List.range 4).map fun k =>
        x.getD (2 * k) 0 + 2 ^ 32 * x.getD (2 * k + 1) 0 :=
      List.map_congr_left fun k few => joined k (by
        have := List.mem_range.mp few
        omega)
    have limbs : x = (List.range 8).map fun k => x.getD k 0 := by
      refine List.ext_getElem (by simp [length]) fun k left right => ?_
      rw [List.getElem_map, List.getElem_range, List.getD_eq_getElem x 0 left]
    rw [shape]
    conv_rhs => rw [limbs]
    have eight : List.range 8 = [0, 1, 2, 3, 4, 5, 6, 7] := rfl
    have four : List.range 4 = [0, 1, 2, 3] := rfl
    simp only [Wide.value, Wide.base, eight, four, List.map_cons, List.map_nil,
      Nat.ofDigits_cons, Nat.ofDigits_nil, Nat.mul_zero, Nat.zero_add, Nat.reduceMul,
      Nat.reduceAdd]
    omega

end Values

end Apogee.Emulator
