import Aix413.Semop.UndoTable

namespace Aix413.Semop.Operations

open Lib.Rollback Sem UndoTable

/-- What a rollback has to restore: the values and the undo entries. `room`
says whether an undo structure is there or memory for one, which a pass does
not change. -/
@[ext]
structure View where
  vals : Nat → BitVec 16
  ents : List Undo
  room : Bool

def view (c : Caller) (s : State) : View :=
  ⟨fun n => (s.sem n).semval, s.entries, s.semundo.isSome || c.mem⟩

def View.add (v : View) (n : Nat) (d : BitVec 16) : View :=
  { v with vals := Function.update v.vals n (v.vals n + d) }

/-- `semaoe` as `view` sees it, `none` for an error. -/
def adjustView (id : Int) (val num : BitVec 16) (v : View) : Option View :=
  if val = 0 then some v
  else if val.toInt > semaem ∨ val.toInt < -semaem then none
  else if v.room then
    match adjustTable val id num v.ents with
    | .error _ => none
    | .ok ents => some { v with ents := ents }
  else none

variable {c : Caller} {op : Sembuf} {s s' t : State} {val num : BitVec 16} {v v' : View}

theorem view_setSem (n : Nat) (x : Semaphore) :
    view c (s.setSem n x) = { view c s with vals := Function.update (view c s).vals n x.semval } := by
  ext m
  · simp only [view, State.setSem, Function.update_apply]
    split <;> rfl
  · rfl
  · rfl

@[simp] theorem semval_wakeN (x : Semaphore) : (wakeN x).semval = x.semval := by
  unfold wakeN
  split <;> rfl

@[simp] theorem semval_wakeZ (x : Semaphore) : (wakeZ x).semval = x.semval := by
  unfold wakeZ
  split <;> rfl

theorem adjustView_cases (h : adjustView c.semid val num v = some v') (hz : val ≠ 0) :
    -semaem ≤ val.toInt ∧ val.toInt ≤ semaem ∧ v.room = true ∧
      ∃ ents, adjustTable val c.semid num v.ents = .ok ents ∧ v' = { v with ents := ents } := by
  unfold adjustView at h
  rw [if_neg hz] at h
  split at h
  next => cases h
  next hr =>
    split at h
    next hroom =>
      split at h
      next => cases h
      next ents he => exact ⟨by omega, by omega, hroom, ents, he, (Option.some.inj h).symm⟩
    next => cases h

/-- An error of `semaoe` changes no entry. -/
theorem view_semaoe (c : Caller) (val num : BitVec 16) (s : State) :
    (semaoe c val num s).2 = (adjustView c.semid val num (view c s)).isNone ∧
    view c (semaoe c val num s).1 = (adjustView c.semid val num (view c s)).getD (view c s) ∧
    (semaoe c val num s).1.sem = s.sem := by
  unfold semaoe adjustView
  by_cases hz : val = 0
  · simp [hz]
  · rw [if_neg hz, if_neg hz]
    by_cases hr : val.toInt > semaem ∨ val.toInt < -semaem
    · rw [if_pos hr, if_pos hr]
      exact ⟨rfl, rfl, rfl⟩
    · rw [if_neg hr, if_neg hr]
      by_cases hm : s.semundo = none ∧ c.mem = false
      · have hroom : (view c s).room = false := by simp [view, hm]
        rw [if_pos hm, hroom]
        exact ⟨rfl, rfl, rfl⟩
      · have hroom : (view c s).room = true := by
          cases hu : s.semundo <;> cases hc : c.mem <;> simp_all [view]
        have hents : (view c s).ents = s.entries := rfl
        rw [if_neg hm, if_pos hroom, hents]
        cases adjustTable val c.semid num s.entries with
        | error e =>
          refine ⟨rfl, View.ext rfl rfl ?_, rfl⟩
          rw [Option.getD_none, hroom]
          rfl
        | ok ents =>
          refine ⟨rfl, View.ext rfl rfl ?_, rfl⟩
          rw [Option.getD_some, hroom]
          rfl

/-- The undo entry of one operation, as `view` sees it. -/
def undoEntry (id : Int) (op : Sembuf) (d : BitVec 16) (v : View) : Option View :=
  if op.semUndo then adjustView id d op.semNum v else some v

theorem carryOut_cases (c : Caller) (op : Sembuf) (s : State) {wake : Semaphore → Semaphore}
    (hw : ∀ x, (wake x).semval = x.semval) :
    (∃ v s', undoEntry c.semid op op.semOp (view c s) = some v ∧
      carryOut c op wake s = (s', .next) ∧ view c s' = v.add op.semNum.toNat op.semOp) ∨
    (∃ s', carryOut c op wake s = (s', .fail) ∧ view c s' = view c s) := by
  unfold carryOut undoEntry
  by_cases hu : op.semUndo = true
  · obtain ⟨h1, h2, h3⟩ := view_semaoe c op.semOp op.semNum s
    rw [if_pos hu, if_pos hu]
    cases hv : adjustView c.semid op.semOp op.semNum (view c s) with
    | none =>
      rw [hv] at h1 h2
      right
      generalize semaoe c op.semOp op.semNum s = p at h1 h2
      obtain ⟨s', b⟩ := p
      obtain rfl : b = true := h1
      exact ⟨s', rfl, h2⟩
    | some v =>
      rw [hv] at h1 h2
      left
      generalize semaoe c op.semOp op.semNum s = p at h1 h2
      obtain ⟨s', b⟩ := p
      obtain rfl : b = false := h1
      refine ⟨v, _, rfl, rfl, ?_⟩
      obtain rfl : view c s' = v := h2
      rw [view_setSem, hw]
      rfl
  · rw [if_neg hu, if_neg hu]
    refine .inl ⟨_, _, rfl, rfl, ?_⟩
    rw [view_setSem, hw]
    rfl

/-- All that one operation can do to the values and the entries. -/
theorem doOp_cases (c : Caller) (op : Sembuf) (s : State) :
    (op.semOp = 0 ∧ doOp c op s = (s, .next)) ∨
    (∃ v s', op.semOp ≠ 0 ∧ doOp c op s = (s', .next) ∧
      (((view c s).vals op.semNum.toNat + op.semOp).toNat : Int) =
        ((view c s).vals op.semNum.toNat).toNat + op.semOp.toInt ∧
      undoEntry c.semid op op.semOp (view c s) = some v ∧
      view c s' = v.add op.semNum.toNat op.semOp) ∨
    (∃ s' r, r ≠ .next ∧ doOp c op s = (s', r) ∧ view c s' = view c s) := by
  have hval : (view c s).vals op.semNum.toNat = (s.sem op.semNum.toNat).semval := rfl
  have hadd := BitVec.toNat_add (s.sem op.semNum.toNat).semval op.semOp
  have hcond := BitVec.toInt_eq_toNat_cond op.semOp
  have hlt := (s.sem op.semNum.toNat).semval.isLt
  have hlt' := op.semOp.isLt
  have hmx : semvmx = 32767 := rfl
  rw [hval]
  unfold doOp
  simp only
  by_cases hpos : 0 < op.semOp.toInt
  · rw [if_pos hpos]
    have hne : op.semOp ≠ 0 := by
      rintro h
      simp [h] at hpos
    by_cases hr : op.semOp.toInt + (s.sem op.semNum.toNat).semval.toNat > semvmx
    · rw [if_pos hr]
      exact .inr (.inr ⟨s, .fail, by decide, rfl, rfl⟩)
    · rw [if_neg hr]
      rcases carryOut_cases c op s semval_wakeN with
        ⟨v, s', hv, hc, hs⟩ | ⟨s', hc, hs⟩
      · refine .inr (.inl ⟨v, s', hne, hc, ?_, hv, hs⟩)
        split at hcond <;> omega
      · exact .inr (.inr ⟨s', .fail, by decide, hc, hs⟩)
  · rw [if_neg hpos]
    by_cases hneg : op.semOp.toInt < 0
    · rw [if_pos hneg]
      have hne : op.semOp ≠ 0 := by
        rintro h
        simp [h] at hneg
      by_cases hle : -op.semOp.toInt ≤ (s.sem op.semNum.toNat).semval.toNat
      · rw [if_pos hle]
        by_cases hr : -op.semOp.toInt > semvmx
        · rw [if_pos hr]
          exact .inr (.inr ⟨s, .fail, by decide, rfl, rfl⟩)
        · rw [if_neg hr]
          rcases carryOut_cases c op s semval_wakeZ with
            ⟨v, s', hv, hc, hs⟩ | ⟨s', hc, hs⟩
          · refine .inr (.inl ⟨v, s', hne, hc, ?_, hv, hs⟩)
            split at hcond <;> omega
          · exact .inr (.inr ⟨s', .fail, by decide, hc, hs⟩)
      · rw [if_neg hle]
        exact .inr (.inr ⟨s, .wait false, by decide, rfl, rfl⟩)
    · rw [if_neg hneg]
      have hz : op.semOp = 0 := by
        apply BitVec.eq_of_toInt_eq
        simp
        omega
      by_cases hv : (s.sem op.semNum.toNat).semval ≠ 0
      · rw [if_pos hv]
        exact .inr (.inr ⟨s, .wait true, by decide, rfl, rfl⟩)
      · rw [if_neg hv]
        exact .inl ⟨hz, rfl⟩

/-- One operation of the loop, where it is done and the loop goes on. -/
def doneBy (c : Caller) (op : Sembuf) (s : State) : Option State :=
  match doOp c op s with
  | (s', .next) => some s'
  | _ => none

theorem doneBy_eq_some (h : doneBy c op s = some s') : doOp c op s = (s', .next) := by
  unfold doneBy at h
  split at h
  next h' =>
    cases h
    exact h'
  next => cases h

theorem doneBy_cases (h : doneBy c op s = some s') :
    (op.semOp = 0 ∧ s' = s) ∨
    (∃ v, op.semOp ≠ 0 ∧
      (((view c s).vals op.semNum.toNat + op.semOp).toNat : Int) =
        ((view c s).vals op.semNum.toNat).toNat + op.semOp.toInt ∧
      undoEntry c.semid op op.semOp (view c s) = some v ∧
      view c s' = v.add op.semNum.toNat op.semOp) := by
  have hd := doneBy_eq_some h
  rcases doOp_cases c op s with ⟨h0, h1⟩ | ⟨v, t, h0, h1, h2⟩ | ⟨t, r, h0, h1, -⟩
  · rw [h1] at hd
    exact .inl ⟨h0, (Prod.mk.inj hd).1.symm⟩
  · rw [h1] at hd
    obtain rfl := (Prod.mk.inj hd).1
    exact .inr ⟨v, h0, h2⟩
  · rw [h1] at hd
    exact absurd (Prod.mk.inj hd).2 h0

/-! ## One operation taken back -/

/-- The operation has an undo entry for a number that is negative as a `short`. -/
def WideUndo (op : Sembuf) : Prop := op.semUndo = true ∧ op.semOp ≠ 0 ∧ ¬Narrow op.semNum

/-- The operations' sum for semaphore `n`. -/
def opSum (n : Nat) (ops : List Sembuf) : Int :=
  (ops.map fun op => if op.semNum.toNat = n then op.semOp.toInt else 0).sum

/-- The sum of the operations of the list that have `SEM_UNDO`, for the
semaphore `num` of set `id`. -/
def undoSum (c : Caller) (id : Int) (num : BitVec 16) (ops : List Sembuf) : Int :=
  (ops.map fun op =>
    if op.semUndo ∧ c.semid = id ∧ op.semNum = num then op.semOp.toInt else 0).sum

def Bounded (ents : List Undo) : Prop :=
  ∀ e ∈ ents, e.unAoe ≠ 0 ∧ -semaem ≤ e.unAoe.toInt ∧ e.unAoe.toInt ≤ semaem

theorem val_doneBy (n : Nat) (h : doneBy c op s = some s') :
    (((view c s').vals n).toNat : Int) =
      ((view c s).vals n).toNat + if op.semNum.toNat = n then op.semOp.toInt else 0 := by
  rcases doneBy_cases h with ⟨hz, rfl⟩ | ⟨v, hz, hsum, hv, hs⟩
  · simp [hz]
  · have hvals : v.vals = (view c s).vals := by
      unfold undoEntry at hv
      split at hv
      next =>
        obtain ⟨-, -, -, ents, -, rfl⟩ := adjustView_cases hv hz
        rfl
      next =>
        cases hv
        rfl
    rw [hs]
    unfold View.add
    simp only [hvals]
    by_cases hn : op.semNum.toNat = n
    · subst hn
      rw [Function.update_self, if_pos rfl, hsum]
    · rw [Function.update_of_ne (Ne.symm hn), if_neg hn, add_zero]

end Aix413.Semop.Operations
