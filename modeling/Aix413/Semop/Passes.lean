import Aix413.Semop.UndoChain

namespace Aix413.Semop.Passes

open Lib.Rollback Sem UndoTable Operations AllOrNothing Sets UndoChain

variable {c : Caller} {op : Sembuf} {s s' t : State} {q : Int → BitVec 16 → Prop} {r : Verdict}

/-- All values are within `semvmx`. -/
def InRange (s : State) : Prop := ∀ n, ((s.sem n).semval.toNat : Int) ≤ semvmx

/-- The table of the process has taken in the operations. -/
def Charged (c : Caller) (ops : List Sembuf) (s t : State) : Prop :=
  ∀ id num, total id num t.entries = total id num s.entries - undoSum c id num ops

theorem Charged.cons {ops : List Sembuf} {u : State} (h : Charged c [op] s t)
    (h' : Charged c ops t u) : Charged c (op :: ops) s u := by
  intro id num
  rw [h' id num, h id num]
  simp [undoSum]
  ring

theorem InRange.view (h : InRange s) (hv : view c t = view c s) : InRange t := by
  intro n
  have heq : (t.sem n).semval = (s.sem n).semval := congrFun (congrArg View.vals hv) n
  rw [heq]
  exact h n

theorem vals_undoEntry {v v' : View} {d : BitVec 16} (h : undoEntry c.semid op d v = some v')
    (hz : d ≠ 0) : v'.vals = v.vals := by
  unfold undoEntry at h
  split at h
  next =>
    obtain ⟨-, -, -, ents, -, rfl⟩ := adjustView_cases h hz
    rfl
  next =>
    cases h
    rfl

/-- The sum that a pass has tested does not wrap around. -/
theorem toNat_add_op (v d : BitVec 16) (h0 : 0 ≤ (v.toNat : Int) + d.toInt)
    (h1 : (v.toNat : Int) + d.toInt ≤ semvmx) : ((v + d).toNat : Int) = v.toNat + d.toInt := by
  have hadd := BitVec.toNat_add v d
  have hcond := BitVec.toInt_eq_toNat_cond d
  have hlt := v.isLt
  have hlt' := d.isLt
  have hmx : semvmx = 32767 := rfl
  split at hcond <;> omega

end Aix413.Semop.Passes
