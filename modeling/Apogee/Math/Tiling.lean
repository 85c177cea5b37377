import Mathlib.Algebra.Order.Ring.Nat

/-! # Cutting a line into runs

Consecutive ranges that tile a segment. Where every part of an admitted range is admitted,
taking the longest admitted range each time uses the fewest.
-/

namespace Apogee.Math

/-- Consecutive ranges, none empty, from `start` to `stop`. -/
inductive Tiles (stop : ℕ) : ℕ → List (ℕ × ℕ) → Prop
  | done : Tiles stop stop []
  | next {start cut : ℕ} {rest : List (ℕ × ℕ)} (some : start < cut) (tiled : Tiles stop cut rest) :
      Tiles stop start ((start, cut) :: rest)

/-- An admitted range that cannot be longer. -/
def Longest (admits : ℕ → ℕ → Prop) (stop : ℕ) (range : ℕ × ℕ) : Prop :=
  admits range.1 range.2 ∧ (range.2 = stop ∨ ¬ admits range.1 (range.2 + 1))

/-- Every part of an admitted range is admitted. -/
def Hereditary (admits : ℕ → ℕ → Prop) : Prop :=
  ∀ {a b c d : ℕ}, admits a d → a ≤ b → b < c → c ≤ d → admits b c

variable {admits : ℕ → ℕ → Prop} {start stop : ℕ} {ranges : List (ℕ × ℕ)}

theorem Tiles.le (tiled : Tiles stop start ranges) : start ≤ stop := by
  induction tiled with
  | done => exact le_rfl
  | next some _ ih => exact some.le.trans ih

/-- There are no more ranges than places. -/
theorem Tiles.length_add_le (tiled : Tiles stop start ranges) : start + ranges.length ≤ stop := by
  induction tiled with
  | done => exact le_rfl
  | next some _ ih =>
    rw [List.length_cons]
    omega

/-- A range lies inside the segment. -/
theorem Tiles.range_le (tiled : Tiles stop start ranges) :
    ∀ range ∈ ranges, range.1 < range.2 ∧ range.2 ≤ stop := by
  induction tiled with
  | done => exact fun range member => absurd member List.not_mem_nil
  | next some tiled ih => exact List.forall_mem_cons.mpr ⟨⟨some, tiled.le⟩, ih⟩

/-- One more range at the end. -/
theorem Tiles.snoc {further : ℕ} (tiled : Tiles stop start ranges) (more : stop < further) :
    Tiles further start (ranges ++ [(stop, further)]) := by
  induction tiled with
  | done => exact Tiles.next more Tiles.done
  | next some _ ih => exact Tiles.next some ih

/-- The longest ranges stay ahead of any others that began no later. -/
theorem Tiles.length_le (hereditary : Hereditary admits) (tiled : Tiles stop start ranges)
    (longest : ∀ range ∈ ranges, Longest admits stop range) {earlier : ℕ} {others : List (ℕ × ℕ)}
    (before : earlier ≤ start) (other : Tiles stop earlier others)
    (each : ∀ range ∈ others, admits range.1 range.2) : ranges.length ≤ others.length := by
  induction tiled generalizing earlier others with
  | done => exact Nat.zero_le _
  | @next start cut rest some tiled ih =>
    obtain ⟨⟨-, first⟩, longest⟩ := List.forall_mem_cons.mp longest
    cases other with
    | done => exact absurd (some.trans_le tiled.le) (Nat.not_lt.mpr before)
    | @next _ far others _ other =>
      obtain ⟨admitted, each⟩ := List.forall_mem_cons.mp each
      refine Nat.succ_le_succ (ih longest ?_ other each)
      -- past the cut, the other range would admit what is longer than the longest
      by_contra past
      have beyond : cut < far := Nat.not_le.mp past
      rcases first with last | stuck
      · exact absurd (other.le.trans last.ge) (Nat.not_le.mpr beyond)
      · exact stuck (hereditary admitted before (some.trans (Nat.lt_succ_self cut)) beyond)

end Apogee.Math
