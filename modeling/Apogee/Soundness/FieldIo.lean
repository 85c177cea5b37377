import Apogee.Circuit.FieldIo
import Apogee.Soundness.Delegation

/-! # The field import and export row

A live row's gates and obligations have a witness exactly when the frame is one,
every access reads the past, and the row makes the one move its operation's word
names: an import or an export.
-/

namespace Apogee.FieldIo

open Delegation Gadgets

/-- The value of eight words, low first. -/
def packedValue (row : Row) (x : ℕ → PolyAddress) : Fr :=
  ((List.range dataWords).map fun k => ((2 ^ (32 * k) : ℕ) : Fr) * row (x k)).sum

/-- One move. -/
inductive Move
  | imports
  | exports
deriving DecidableEq

namespace Move

/-- The move's code. -/
def code : Move → ℕ
  | imports => importCode
  | exports => exportCode

/-- What a move relates. An import makes the words' value of the cell and keeps
the words; an export keeps the cell and writes words whose value is congruent to
it. -/
def Relates (row : Row) : Move → Prop
  | imports => row cellNew = packedValue row dataRead ∧
      ∀ k < dataWords, row (dataWrite k) = row (dataRead k)
  | exports => row cellNew = row cellOld ∧
      (∀ k < dataWords, ∃ value < 2 ^ 32, row (dataWrite k) = ((value : ℕ) : Fr)) ∧
      packedValue row dataWrite = row cellOld

end Move

/-- A row's columns make one move, the one its frame names. -/
def Computes (row : Row) : Prop :=
  ∃! move : Move, row (frame opWord) = ((move.code : ℕ) : Fr) ∧ move.Relates row

/-- What a live row's memory columns say. -/
structure RowOk (row : Row) : Prop where
  frame : FrameOk row frameWords frameBytes
  kept : ∀ j < frameWords, row (word j wordWriteValue) = row (word j wordReadValue)
  follows : ∀ access ∈ accesses, Follows row access.readTs access.delta
  computes : Computes row

/-- A word names one move. -/
theorem code_inj {left right : Move} (same : ((left.code : ℕ) : Fr) = ((right.code : ℕ) : Fr)) :
    left = right := by
  have small (move : Move) : move.code < 2 ^ 250 := by
    cases move <;> norm_num [Move.code, importCode, exportCode]
  have codes := fr_natCast_inj (small left) (small right) same
  cases left <;> cases right <;> first | rfl | exact absurd codes (by decide)

variable {challenges : ExternalChallenges} {decoded : List (List Fr)} {row : Row}

/-- The packed words' contribution to a rule. -/
private theorem sum_packed (challenges : ExternalChallenges) (selector : PolyAddress)
    (x : ℕ → PolyAddress) :
    ((packed selector x).map fun term =>
        coefficient challenges term.1 * row term.2.1 * row term.2.2).sum =
      -(row selector * packedValue row x) := by
  rw [packed, packedValue, List.map_map, ← neg_mul, ← List.sum_map_mul_left]
  refine congrArg List.sum (List.map_congr_left fun k _ => ?_)
  simp only [Function.comp_apply, coefficient_neg]
  push_cast
  ring

/-- The family's gates on a row with its flags. -/
theorem gates_iff (selected : row live = 1) : (∀ gate ∈ gates, gate.2.value challenges row = 0) ↔
      ∃ move : Move, row importFlag = bitFr (move = .imports) ∧
        row exportFlag = bitFr (move = .exports) ∧ row (frame opWord) = ((move.code : ℕ) : Fr) ∧
        (move = .imports → row cellNew = packedValue row dataRead ∧
          ∀ k < dataWords, row (dataWrite k) = row (dataRead k)) ∧
        (move = .exports → row cellNew = row cellOld ∧
          packedValue row dataWrite = row cellOld) := by
  simp only [gates, List.forall_mem_append, List.forall_mem_cons, List.forall_mem_map,
    List.not_mem_nil, IsEmpty.forall_iff, implies_true, and_true, List.mem_range, linear,
    quadratic, value_linear, value_quadratic, List.map_cons, List.map_nil, List.map_append,
    List.sum_append, List.sum_cons, List.sum_nil, sum_packed, coefficient_lit, coefficient_neg,
    selected]
  constructor
  · intro given
    obtain ⟨⟨⟨importBit, exportBit, one, named, importRule⟩, keeps⟩, keepsCell, exportRule⟩ := given
    obtain ⟨flag, small, flagEq⟩ := bit_of_booleanity importBit
    have cases : flag = 0 ∨ flag = 1 := by omega
    rcases cases with rfl | rfl
    · have off : row importFlag = 0 := by simpa using flagEq
      have on : row exportFlag = 1 := by
        rw [off] at one
        push_cast at one
        linear_combination one
      rw [off, on] at named
      rw [on] at keepsCell exportRule
      push_cast at named keepsCell exportRule
      refine ⟨.exports, by simp [off], by simp [on], ?_, by simp, fun _ => ⟨?_, ?_⟩⟩
      · rw [Move.code]
        linear_combination -named
      · linear_combination keepsCell
      · linear_combination -exportRule
    · have on : row importFlag = 1 := by simpa using flagEq
      have off : row exportFlag = 0 := by
        rw [on] at one
        push_cast at one
        linear_combination one
      rw [on, off] at named
      rw [on] at importRule
      push_cast at named importRule
      refine ⟨.imports, by simp [on], by simp [off], ?_, fun _ => ⟨?_, fun k inside => ?_⟩, by simp⟩
      · rw [Move.code]
        linear_combination -named
      · linear_combination importRule
      · have keep := keeps k inside
        rw [on] at keep
        push_cast at keep
        linear_combination keep
  · intro given
    obtain ⟨move, importEq, exportEq, named, importRule, exportRule⟩ := given
    rw [booleanity, quadratic, booleanity, quadratic]
    simp only [value_quadratic, List.map_cons, List.map_nil, List.sum_cons, List.sum_nil,
      coefficient_lit, coefficient_neg, importEq, exportEq, named]
    cases move with
    | imports =>
      obtain ⟨cellEq, keeps⟩ := importRule rfl
      simp [Move.code, importCode, exportCode, cellEq]
      intro k inside
      rw [keeps k inside]
      ring
    | exports =>
      obtain ⟨cellEq, valueEq⟩ := exportRule rfl
      simp [Move.code, importCode, exportCode, cellEq, valueEq]

/-- What is said of every access is said of the data words' and the cell's. -/
theorem forall_accesses {property : Access → Prop} : (∀ access ∈ accesses, property access) ↔
      (∀ k < dataWords, property (dataAccess k)) ∧ property cellAccess := by
  simp only [accesses, List.forall_mem_append, List.forall_mem_map, List.mem_range,
    List.forall_mem_singleton]

/-- The witness columns of a move, after the frame's. -/
def columns (row : Row) (move : Move) (i : ℕ) : Fr :=
  if i < gapChunks * dataWords then
    chunkOf (gapOf row (dataReadTs (i / gapChunks)) dataDelta) (i % gapChunks)
  else if i < gapChunks * (dataWords + 1) then
    chunkOf (gapOf row cellReadTs cellDelta) (i % gapChunks)
  else if i = gapChunks * (dataWords + 1) then bitFr (move = .imports)
  else if i = gapChunks * (dataWords + 1) + 1 then bitFr (move = .exports)
  else (((row (dataWrite (i - (gapChunks * (dataWords + 1) + 2)))).val / 2 ^ 16 : ℕ) : Fr)

/-- A data word's gap chunks are where its obligations read them. -/
private theorem columns_data {move : Move} {k c : ℕ} (inside : k < dataWords) (few : c < 2) :
    columns row move (gapChunks * k + c) = chunkOf (gapOf row (dataReadTs k) dataDelta) c := by
  have bound : gapChunks * k + c < gapChunks * dataWords := by
    unfold gapChunks
    omega
  rw [columns, if_pos bound, (gapChunk_index k few).1, (gapChunk_index k few).2]

/-- An exported word's high half is where its obligations read it. -/
private theorem columns_word {move : Move} (k : ℕ) :
    columns row move (2 * (dataWords + 1) + 2 + k) =
      (((row (dataWrite k)).val / 2 ^ 16 : ℕ) : Fr) := by
  have two : gapChunks = 2 := rfl
  rw [columns, two, if_neg (by omega), if_neg (by omega), if_neg (by omega), if_neg (by omega),
    Nat.add_sub_cancel_left]

/-- The row of a move. -/
def rowOf (row : Row) (move : Move) : Row :=
  withFrame frameWords frameBytes row (columns row move)

/-- A live row's gates and obligations say what its memory columns are. -/
theorem rowOk_of_satisfies (selected : row live = 1)
    (holds : Satisfies challenges decoded row body) : RowOk row := by
  obtain ⟨gates, lookups⟩ := holds
  simp only [body, readOnlyGates, List.forall_mem_append, List.mem_flatMap, forall_exists_index,
    and_imp] at gates lookups
  obtain ⟨⟨frameGates, written⟩, own⟩ := gates
  obtain ⟨⟨frameLookups, gaps⟩, words⟩ := lookups
  obtain ⟨move, importEq, exportEq, named, importRule, exportRule⟩ := (gates_iff selected).mp own
  refine ⟨((frameHolds_iff selected).mp ⟨frameGates, frameLookups⟩).1,
    writesBack_iff.mp written, ?_, move, ⟨named, ?_⟩, ?_⟩
  · have each : ∀ access ∈ accesses, ∀ lookup ∈ access.gapLookups,
        lookup.Holds challenges decoded row :=
      fun access member lookup inside => gaps lookup access member inside
    obtain ⟨data, cell⟩ := forall_accesses.mp each
    refine forall_accesses.mpr ⟨fun k inside => ?_, ?_⟩
    · exact ((access_holds_iff rfl (Or.inr selected)).mp (data k inside) selected).1
    · exact ((access_holds_iff rfl (Or.inr selected)).mp cell selected).1
  · cases move with
    | imports => exact importRule rfl
    | exports =>
      obtain ⟨cellEq, valueEq⟩ := exportRule rfl
      refine ⟨cellEq, fun k inside => ?_, valueEq⟩
      obtain ⟨value, small, equal, -⟩ := (range32_holds_iff exportEq).mp
        fun lookup member => words lookup (List.mem_flatMap.mpr
          ⟨k, List.mem_range.mpr inside, member⟩)
      exact ⟨value, small, equal⟩
  · intro other given
    obtain ⟨otherNamed, _⟩ := given
    exact code_inj (otherNamed.symm.trans named)

/-- A row whose memory columns are a move's has witness columns. -/
theorem satisfies_of_rowOk (selected : row live = 1) (ok : RowOk row) :
    ∃ columns, Satisfies challenges decoded (row.withWitness columns) body := by
  obtain ⟨move, ⟨named, relates⟩, -⟩ := ok.computes
  have framed := @frameHolds_withFrame challenges decoded row frameWords frameBytes
    (columns row move) selected ok.frame
  have witness (i : ℕ) : rowOf row move (w i) = columns row move i := withFrame_witness _ _ _ _
  refine ⟨fun i => rowOf row move (.witness i), ?_⟩
  have same : row.withWitness (fun i => rowOf row move (.witness i)) = rowOf row move := by
    funext address
    cases address <;> rfl
  rw [same]
  refine ⟨?_, ?_⟩
  · simp only [body, readOnlyGates, List.forall_mem_append]
    refine ⟨⟨framed.gates, writesBack_iff.mpr ok.kept⟩, ?_⟩
    refine (@gates_iff challenges (rowOf row move) selected).mpr
      ⟨move, witness _, witness _, named, ?_, ?_⟩
    · intro isImport
      subst isImport
      exact relates
    · intro isExport
      subst isExport
      exact ⟨relates.1, relates.2.2⟩
  · simp only [body, List.forall_mem_append, List.mem_flatMap, forall_exists_index, and_imp]
    refine ⟨⟨framed.lookups, ?_⟩, ?_⟩
    · have gaps : ∀ access ∈ accesses, ∀ lookup ∈ access.gapLookups,
          lookup.Holds challenges decoded (rowOf row move) := by
        obtain ⟨data, cell⟩ := forall_accesses.mp ok.follows
        have on : rowOf row move live = 1 := selected
        refine forall_accesses.mpr ⟨fun k inside => ?_, ?_⟩
        · refine (access_holds_iff rfl (Or.inr on)).mpr fun _ => ⟨data k inside, ?_, ?_⟩
          · exact (witness _).trans (columns_data inside (by norm_num))
          · exact (witness _).trans (columns_data inside (by norm_num))
        · exact (access_holds_iff rfl (Or.inr on)).mpr fun _ => ⟨cell, witness _, witness _⟩
      exact fun lookup access member inside => gaps access member lookup inside
    · intro lookup member
      obtain ⟨k, inside, among⟩ := List.mem_flatMap.mp member
      cases move with
      | imports =>
        have off : rowOf row .imports exportFlag = 0 := witness _
        rcases List.mem_cons.mp among with rfl | last
        · exact range_holds_of_off off
        · rw [List.mem_singleton.mp last]
          exact range_holds_of_off off
      | exports =>
        have on : rowOf row .exports exportFlag = 1 := witness _
        obtain ⟨value, small, equal⟩ := relates.2.1 k (List.mem_range.mp inside)
        refine (range32_holds_iff on).mpr
          ⟨value, small, show rowOf row .exports (dataWrite k) = _ from equal, ?_⟩ lookup among
        refine (witness _).trans ((columns_word k).trans ?_)
        rw [equal, fr_val_natCast (lt_trans small (by norm_num))]

/-- **The import and export circuit.** A live row's gates and obligations hold
for some witness columns exactly when its memory columns are a move's. -/
theorem satisfies_iff (selected : row live = 1) :
    (∃ columns, Satisfies challenges decoded (row.withWitness columns) body) ↔ RowOk row := by
  constructor
  · intro given
    obtain ⟨columns, holds⟩ := given
    have ok := @rowOk_of_satisfies challenges decoded (row.withWitness columns) selected holds
    exact ⟨⟨ok.frame.addr, ok.frame.follows, ok.frame.aligned, ok.frame.inWindow⟩, ok.kept,
      forall_accesses.mpr (forall_accesses.mp ok.follows), ok.computes⟩
  · exact satisfies_of_rowOk selected

end Apogee.FieldIo
