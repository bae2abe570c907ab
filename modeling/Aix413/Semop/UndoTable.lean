import Mathlib.Data.List.TakeWhile
import Aix413.Semop.Sem

namespace Aix413.Semop.UndoTable

open Sem

/-- A semaphore number that is not negative as the `short` of `semaoe`. -/
def Narrow (num : BitVec 16) : Prop := num.toNat < 32768

instance (num : BitVec 16) : Decidable (Narrow num) := inferInstanceAs (Decidable (_ < _))

/-- The order in which `semaoe` searches the entries of set `id`. -/
def Ahead (id : Int) (a b : Undo) : Prop :=
  a.unId < b.unId ∨ (a.unId = b.unId ∧ (a.unId = id → a.unNum.toNat < b.unNum.toNat))

/-- The undo table of a process as `semaoe` keeps it: in order as far as set
`id` goes, each value within its range and not zero, and not too long. -/
structure Kept (id : Int) (ents : List Undo) : Prop where
  ordered : ents.Pairwise (Ahead id)
  bounded : ∀ e ∈ ents, e.unAoe ≠ 0 ∧ -semaem ≤ e.unAoe.toInt ∧ e.unAoe.toInt ≤ semaem
  length_le : ents.length ≤ semume

/-- What the process's entries for one semaphore add up to: the value by which
its exit adjusts it. -/
def total (id : Int) (num : BitVec 16) (ents : List Undo) : Int :=
  (ents.map fun e => if e.unId = id ∧ e.unNum = num then e.unAoe.toInt else 0).sum

variable {id : Int} {num val : BitVec 16} {ents ents' lo hi : List Undo} {e : Undo}

theorem total_cons (e : Undo) (l : List Undo) : total id num (e :: l) =
    (if e.unId = id ∧ e.unNum = num then e.unAoe.toInt else 0) + total id num l := by
  simp [total]

end Aix413.Semop.UndoTable
