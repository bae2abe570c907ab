import Aix413.Semop.Passes

namespace Aix413.Semop.WaitLists

open Lib.Rollback Sem Operations AllOrNothing Sets

variable {c : Caller} {op : Sembuf} {s s₀ t : State} {v v' x : Semaphore} {w : Sleeper}

/-- Threads sleep only behind a count that is not zero. -/
structure Counted (v : Semaphore) : Prop where
  ncnt : v.semnwait ≠ [] → v.semncnt ≠ 0
  zcnt : v.semzwait ≠ [] → v.semzcnt ≠ 0

/-- Of either list the threads have all been woken, or it is as it was and the value is not
nearer to what they wait for. -/
structure Served (v v' : Semaphore) : Prop where
  nwait : (v'.semnwait = [] ∧ v'.semncnt = 0) ∨
    v'.semnwait = v.semnwait ∧ v'.semncnt = v.semncnt ∧ v'.semval.toNat ≤ v.semval.toNat
  zwait : (v'.semzwait = [] ∧ v'.semzcnt = 0) ∨
    v'.semzwait = v.semzwait ∧ v'.semzcnt = v.semzcnt ∧ (v'.semval = 0 → v.semval = 0)

theorem Served.refl (v : Semaphore) : Served v v :=
  ⟨.inr ⟨rfl, rfl, le_rfl⟩, .inr ⟨rfl, rfl, id⟩⟩

theorem Served.trans (h : Served v v') (h' : Served v' x) : Served v x where
  nwait := by
    rcases h'.nwait with hnil | ⟨h1, h2, h3⟩
    · exact .inl hnil
    · rcases h.nwait with hnil | ⟨g1, g2, g3⟩
      · exact .inl ⟨h1.trans hnil.1, h2.trans hnil.2⟩
      · exact .inr ⟨h1.trans g1, h2.trans g2, h3.trans g3⟩
  zwait := by
    rcases h'.zwait with hnil | ⟨h1, h2, h3⟩
    · exact .inl hnil
    · rcases h.zwait with hnil | ⟨g1, g2, g3⟩
      · exact .inl ⟨h1.trans hnil.1, h2.trans hnil.2⟩
      · exact .inr ⟨h1.trans g1, h2.trans g2, fun h0 => g3 (h3 h0)⟩

theorem Served.counted (h : Served v v') (hc : Counted v) : Counted v' where
  ncnt := fun hne => by
    obtain ⟨h1, h2, -⟩ := h.nwait.resolve_left fun hnil => hne hnil.1
    rw [h2]
    exact hc.ncnt (h1 ▸ hne)
  zcnt := fun hne => by
    obtain ⟨h1, h2, -⟩ := h.zwait.resolve_left fun hnil => hne hnil.1
    rw [h2]
    exact hc.zcnt (h1 ▸ hne)

/-- Another value behind the same lists and counts. -/
theorem Served.revalue (h : Served v v') (hx : x.semnwait = v'.semnwait ∧ x.semncnt = v'.semncnt ∧
    x.semzwait = v'.semzwait ∧ x.semzcnt = v'.semzcnt) (hv : x.semval = v.semval) :
    Served v x where
  nwait := by
    rcases h.nwait with hnil | ⟨h1, h2, -⟩
    · exact .inl ⟨hx.1.trans hnil.1, hx.2.1.trans hnil.2⟩
    · exact .inr ⟨hx.1.trans h1, hx.2.1.trans h2, by rw [hv]⟩
  zwait := by
    rcases h.zwait with hnil | ⟨h1, h2, -⟩
    · exact .inl ⟨hx.2.2.1.trans hnil.1, hx.2.2.2.trans hnil.2⟩
    · exact .inr ⟨hx.2.2.1.trans h1, hx.2.2.2.trans h2, fun h0 => hv ▸ h0⟩

theorem npart_wakeN (hc : Counted v) : (wakeN v).semnwait = [] ∧ (wakeN v).semncnt = 0 := by
  unfold wakeN
  split
  next => exact ⟨rfl, rfl⟩
  next hz =>
    refine ⟨?_, not_not.mp hz⟩
    by_contra hne
    exact hz (hc.ncnt hne)

theorem zpart_wakeZ (hc : Counted v) (h0 : v.semval = 0) :
    (wakeZ v).semzwait = [] ∧ (wakeZ v).semzcnt = 0 := by
  unfold wakeZ
  split
  next => exact ⟨rfl, rfl⟩
  next hz =>
    have hz' : v.semzcnt = 0 := not_not.mp fun hne => hz ⟨h0, hne⟩
    refine ⟨?_, hz'⟩
    by_contra hne
    exact hc.zcnt hne hz'

/-- `wakeN` leaves the list of those that wait for zero alone. -/
theorem zpart_wakeN (v : Semaphore) :
    (wakeN v).semzwait = v.semzwait ∧ (wakeN v).semzcnt = v.semzcnt := by
  unfold wakeN
  split <;> exact ⟨rfl, rfl⟩

theorem npart_wakeZ (v : Semaphore) :
    (wakeZ v).semnwait = v.semnwait ∧ (wakeZ v).semncnt = v.semncnt := by
  unfold wakeZ
  split <;> exact ⟨rfl, rfl⟩

/-- A value other than zero is stored, and those that wait for more are woken. -/
theorem served_wakeN (hc : Counted v) (hx : x.semnwait = v.semnwait ∧ x.semncnt = v.semncnt ∧
    x.semzwait = v.semzwait ∧ x.semzcnt = v.semzcnt) (hv : x.semval = 0 → v.semval = 0) :
    Served v (wakeN x) where
  nwait := .inl (npart_wakeN ⟨by rw [hx.1, hx.2.1]; exact hc.ncnt,
    by rw [hx.2.2.1, hx.2.2.2]; exact hc.zcnt⟩)
  zwait := .inr ⟨(zpart_wakeN x).1.trans hx.2.2.1, (zpart_wakeN x).2.trans hx.2.2.2,
    by rw [semval_wakeN]; exact hv⟩

/-- A value not above the one before is stored, and if it is zero those that wait for zero are
woken. -/
theorem served_wakeZ (hc : Counted v) (hx : x.semnwait = v.semnwait ∧ x.semncnt = v.semncnt ∧
    x.semzwait = v.semzwait ∧ x.semzcnt = v.semzcnt) (hv : x.semval.toNat ≤ v.semval.toNat) :
    Served v (wakeZ x) where
  nwait := .inr ⟨(npart_wakeZ x).1.trans hx.1, (npart_wakeZ x).2.trans hx.2.1,
    by rw [semval_wakeZ]; exact hv⟩
  zwait := by
    have hcx : Counted x := ⟨by rw [hx.1, hx.2.1]; exact hc.ncnt,
      by rw [hx.2.2.1, hx.2.2.2]; exact hc.zcnt⟩
    by_cases h0 : x.semval = 0
    · exact .inl (zpart_wakeZ hcx h0)
    · have hsame : wakeZ x = x := by
        unfold wakeZ
        rw [if_neg fun hh => h0 hh.1]
      rw [hsame]
      exact .inr ⟨hx.2.2.1, hx.2.2.2, fun hz => absurd hz h0⟩

/-! ## One operation -/

def AllServed (s t : State) : Prop := ∀ n, Served (s.sem n) (t.sem n)

def AllCounted (s : State) : Prop := ∀ n, Counted (s.sem n)

theorem AllServed.refl (h : t.sem = s.sem) : AllServed s t := by
  intro n
  rw [h]
  exact .refl _

theorem AllServed.trans {u : State} (h : AllServed s t) (h' : AllServed t u) : AllServed s u :=
  fun n => (h n).trans (h' n)

theorem AllServed.counted (h : AllServed s t) (hc : AllCounted s) : AllCounted t :=
  fun n => (h n).counted (hc n)

theorem allServed_setSem {n : Nat} (h : Served (s.sem n) x) : AllServed s (s.setSem n x) := by
  intro m
  by_cases hm : m = n
  · subst hm
    simp only [State.setSem, Function.update_self]
    exact h
  · simp only [State.setSem, Function.update_of_ne hm]
    exact .refl _

theorem allServed_setPid (c : Caller) (op : Sembuf) (s : State) : AllServed s (setPid c op s) :=
  allServed_setSem ⟨.inr ⟨rfl, rfl, le_rfl⟩, .inr ⟨rfl, rfl, id⟩⟩

theorem allServed_setPids (c : Caller) (ops : List Sembuf) (s : State) :
    AllServed s (ops.foldl (fun s op => setPid c op s) s) := by
  induction ops generalizing s with
  | nil => exact .refl rfl
  | cons op ops ih => exact (allServed_setPid c op s).trans (ih _)

/-- An operation that is carried out serves the sleepers of its semaphore; one that fails changes
nothing. -/
theorem carryOut_served {wake : Semaphore → Semaphore} {r : Verdict}
    (hw : Served (s.sem op.semNum.toNat) (wake (addVal (s.sem op.semNum.toNat) op.semOp)))
    (h : carryOut c op wake s = (t, r)) : AllServed s t := by
  have hsem : (if op.semUndo then semaoe c op.semOp op.semNum s else (s, false)).1.sem = s.sem := by
    split
    next => exact (view_semaoe c op.semOp op.semNum s).2.2
    next => rfl
  unfold carryOut at h
  split at h
  next u hu =>
    rw [hu] at hsem
    cases h
    exact .refl hsem
  next u hu =>
    rw [hu] at hsem
    cases h
    refine (AllServed.refl hsem).trans (allServed_setSem ?_)
    simp only at hsem
    rw [hsem]
    exact hw

theorem served_raise (hc : Counted v) {d : BitVec 16} (hd : 0 < d.toInt)
    (hr : d.toInt + v.semval.toNat ≤ semvmx) : Served v (wakeN (addVal v d)) := by
  refine served_wakeN hc ⟨rfl, rfl, rfl, rfl⟩ fun h0 => ?_
  have hsum := Passes.toNat_add_op v.semval d (by omega) (by omega)
  have hz : v.semval + d = 0 := h0
  have hz' : (v.semval + d).toNat = 0 := by
    rw [hz]
    rfl
  apply BitVec.eq_of_toNat_eq
  change v.semval.toNat = 0
  omega

theorem served_lower (hc : Counted v) {d : BitVec 16} (hd : d.toInt < 0)
    (hr : -d.toInt ≤ v.semval.toNat) : Served v (wakeZ (addVal v d)) := by
  refine served_wakeZ hc ⟨rfl, rfl, rfl, rfl⟩ ?_
  have hadd := BitVec.toNat_add v.semval d
  have hcond := BitVec.toInt_eq_toNat_cond d
  have hlt := v.semval.isLt
  have hlt' := d.isLt
  change (v.semval + d).toNat ≤ v.semval.toNat
  split at hcond <;> omega

/-- The operation is one that waits for the value to become zero, or to become higher, and the
value `m` that it finds is not what it waits for. -/
def Blocks (zero : Bool) (op : Sembuf) (m : Int) : Prop :=
  if zero then op.semOp = 0 ∧ m ≠ 0 else op.semOp.toInt < 0 ∧ m < -op.semOp.toInt

theorem doOp_served (hc : AllCounted s) : AllServed s (doOp c op s).1 := by
  have hcop := hc op.semNum.toNat
  unfold doOp
  simp only
  by_cases hpos : 0 < op.semOp.toInt
  · rw [if_pos hpos]
    split
    next => exact .refl rfl
    next hr => exact carryOut_served (served_raise hcop hpos (not_lt.mp hr)) rfl
  rw [if_neg hpos]
  by_cases hneg : op.semOp.toInt < 0
  · rw [if_pos hneg]
    split
    next hle =>
      split
      next => exact .refl rfl
      next => exact carryOut_served (served_lower hcop hneg hle) rfl
    next => exact .refl rfl
  · rw [if_neg hneg]
    split <;> exact .refl rfl

theorem carryOut_verdict {wake : Semaphore → Semaphore} {zero : Bool} :
    (carryOut c op wake s).2 ≠ .wait zero := by
  unfold carryOut
  split <;> simp

theorem carryOut_fail {wake : Semaphore → Semaphore} (h : carryOut c op wake s = (t, .fail)) :
    t.sem = s.sem := by
  have hsem : (if op.semUndo then semaoe c op.semOp op.semNum s else (s, false)).1.sem = s.sem := by
    split
    next => exact (view_semaoe c op.semOp op.semNum s).2.2
    next => rfl
  unfold carryOut at h
  split at h
  next u hu =>
    rw [hu] at hsem
    cases h
    exact hsem
  next => cases h

theorem doOp_fail (h : doOp c op s = (t, .fail)) : t.sem = s.sem := by
  unfold doOp at h
  simp only at h
  split_ifs at h <;> first | exact carryOut_fail h | cases h <;> rfl

theorem semOp_zero (hpos : ¬0 < op.semOp.toInt) (hneg : ¬op.semOp.toInt < 0) : op.semOp = 0 := by
  apply BitVec.eq_of_toInt_eq
  simp
  omega

theorem doOp_wait {zero : Bool} (h : doOp c op s = (t, .wait zero)) :
    t = s ∧ Blocks zero op (s.sem op.semNum.toNat).semval.toNat := by
  unfold doOp at h
  simp only at h
  by_cases hpos : 0 < op.semOp.toInt
  · rw [if_pos hpos] at h
    split at h
    next => cases h
    next => exact absurd (congrArg Prod.snd h) carryOut_verdict
  rw [if_neg hpos] at h
  by_cases hneg : op.semOp.toInt < 0
  · rw [if_pos hneg] at h
    split at h
    next =>
      split at h
      next => cases h
      next => exact absurd (congrArg Prod.snd h) carryOut_verdict
    next hle =>
      cases h
      exact ⟨rfl, hneg, not_le.mp hle⟩
  · rw [if_neg hneg] at h
    split at h
    next hv =>
      cases h
      refine ⟨rfl, semOp_zero hpos hneg, fun h0 => hv ?_⟩
      apply BitVec.eq_of_toNat_eq
      simpa using h0
    next => cases h

theorem sem_undoOp (c : Caller) (op : Sembuf) (s : State) :
    (undoOp c op s).sem = if op.semOp = 0 then s.sem
      else Function.update s.sem op.semNum.toNat
        (addVal (s.sem op.semNum.toNat) (-op.semOp)) := by
  unfold undoOp
  by_cases hz : op.semOp = 0
  · rw [if_pos hz, if_pos hz]
  · rw [if_neg hz, if_neg hz]
    simp only
    split
    next => exact (view_semaoe c (-op.semOp) op.semNum _).2.2
    next => rfl


/-! ## Passes -/

theorem vals_undoOp_congr (op : Sembuf) (s t : State)
    (h : (fun n => (s.sem n).semval) = fun n => (t.sem n).semval) :
    (fun n => ((undoOp c op s).sem n).semval) = fun n => ((undoOp c op t).sem n).semval := by
  funext n
  rw [sem_undoOp, sem_undoOp]
  split
  next => exact congrFun h n
  next =>
    by_cases hn : n = op.semNum.toNat
    · subst hn
      simp only [Function.update_self]
      exact congrArg (· + -op.semOp) (congrFun h _)
    · simp only [Function.update_of_ne hn]
      exact congrFun h n

/-- An operation taken back gives the value from before it. -/
theorem vals_undoOp_doneBy (h : doneBy c op s = some t) :
    (fun n => ((undoOp c op t).sem n).semval) = fun n => (s.sem n).semval := by
  rcases doneBy_cases h with ⟨hz, rfl⟩ | ⟨v, hz, -, hv, hs⟩
  · rw [sem_undoOp, if_pos hz]
  · have hvals : ∀ n, (t.sem n).semval =
        Function.update (view c s).vals op.semNum.toNat
          ((view c s).vals op.semNum.toNat + op.semOp) n := by
      intro n
      rw [← Passes.vals_undoEntry hv hz]
      exact congrFun (congrArg View.vals hs) n
    funext n
    rw [sem_undoOp, if_neg hz]
    by_cases hn : n = op.semNum.toNat
    · subst hn
      simp only [Function.update_self]
      change (t.sem op.semNum.toNat).semval + -op.semOp = _
      rw [hvals, Function.update_self, BitVec.add_assoc, BitVec.add_right_neg]
      exact BitVec.add_zero _
    · simp only [Function.update_of_ne hn]
      rw [hvals, Function.update_of_ne hn]
      rfl

theorem lists_rollback (c : Caller) (ops : List Sembuf) (s : State) (n : Nat) :
    let x := (rollback (undoOp c) ops s).sem n
    x.semnwait = (s.sem n).semnwait ∧ x.semncnt = (s.sem n).semncnt ∧
      x.semzwait = (s.sem n).semzwait ∧ x.semzcnt = (s.sem n).semzcnt := by
  induction ops generalizing s with
  | nil => exact ⟨rfl, rfl, rfl, rfl⟩
  | cons op ops ih =>
    obtain ⟨h1, h2, h3, h4⟩ := ih (undoOp c op s)
    have hstep : let x := (undoOp c op s).sem n
        x.semnwait = (s.sem n).semnwait ∧ x.semncnt = (s.sem n).semncnt ∧
          x.semzwait = (s.sem n).semzwait ∧ x.semzcnt = (s.sem n).semzcnt := by
      rw [sem_undoOp]
      split
      next => exact ⟨rfl, rfl, rfl, rfl⟩
      next =>
        by_cases hn : n = op.semNum.toNat
        · subst hn
          simp only [Function.update_self]
          exact ⟨rfl, rfl, rfl, rfl⟩
        · simp only [Function.update_of_ne hn]
          exact ⟨trivial, trivial, trivial, trivial⟩
    obtain ⟨g1, g2, g3, g4⟩ := hstep
    exact ⟨h1.trans g1, h2.trans g2, h3.trans g3, h4.trans g4⟩

/-- A thread goes to sleep on the operation after those of `pre`. What the pass did before has
served the sleepers. -/
structure Sleeps (c : Caller) (s t : State) (pre : List Sembuf) (op : Sembuf) (zero : Bool)
    (u : State) : Prop where
  served : AllServed s u
  vals : ∀ n, (u.sem n).semval = (s.sem n).semval
  blocks : Blocks zero op ((s.sem op.semNum.toNat).semval.toNat + opSum op.semNum.toNat pre)
  state : t = semsleep c zero op.semNum.toNat u

theorem opSum_cons (n : Nat) (op : Sembuf) (ops : List Sembuf) :
    opSum n (op :: ops) = (if op.semNum.toNat = n then op.semOp.toInt else 0) + opSum n ops := by
  simp [opSum]

/-- The loop of `atomic` with the operations of `done` carried out since `s₀`. -/
theorem atomicLoop_served (done ops : List Sembuf) (hc : AllCounted s₀) (hs : AllServed s₀ s)
    (hr : (fun n => ((rollback (undoOp c) done s).sem n).semval) = fun n => (s₀.sem n).semval)
    (hsum : ∀ n, ((s.sem n).semval.toNat : Int) = (s₀.sem n).semval.toNat + opSum n done) :
    ((atomicLoop c done ops s).2 ≠ .asleep ∧ AllServed s₀ (atomicLoop c done ops s).1) ∨
    ∃ pre op zero u, (atomicLoop c done ops s).2 = .asleep ∧ reached c ops s = pre ++ [op] ∧
      Sleeps c s₀ (atomicLoop c done ops s).1 (done ++ pre) op zero u := by
  have hback : ∀ e, AllServed s₀ { rollback (undoOp c) done s with uError := e } := by
    intro e n
    exact (hs n).revalue (lists_rollback c done s n) (congrFun hr n)
  induction ops generalizing done s with
  | nil => exact .inl ⟨by simp [atomicLoop], hs.trans (allServed_setPids c _ s)⟩
  | cons op ops ih =>
    have hdo : AllServed s (doOp c op s).1 := doOp_served (hs.counted hc)
    cases hd : doOp c op s with
    | mk t r =>
      rw [hd] at hdo
      cases r with
      | next =>
        have hby : doneBy c op s = some t := by
          unfold doneBy
          rw [hd]
        have hloop : atomicLoop c done (op :: ops) s = atomicLoop c (op :: done) ops t := by
          rw [atomicLoop, hd]
        have hr' : (fun n => ((rollback (undoOp c) (op :: done) t).sem n).semval) =
            fun n => (s₀.sem n).semval :=
          (rollback_congr vals_undoOp_congr done (vals_undoOp_doneBy hby)).trans hr
        have hst := hs.trans hdo
        have hsum' : ∀ n, ((t.sem n).semval.toNat : Int) =
            (s₀.sem n).semval.toNat + opSum n (op :: done) := by
          intro n
          have hv : ((t.sem n).semval.toNat : Int) = (s.sem n).semval.toNat +
              if op.semNum.toNat = n then op.semOp.toInt else 0 := val_doneBy n hby
          rw [hv, hsum, opSum_cons]
          ring
        have hop : reached c (op :: ops) s = op :: reached c ops t := by
          rw [reached, hd]
        rw [hloop, hop]
        rcases ih (op :: done) hst hr' hsum' (fun e n => (hst n).revalue (lists_rollback c _ t n)
          (congrFun hr' n)) with h | ⟨pre, o, zero, u, he, hre, hsl⟩
        · exact .inl h
        · refine .inr ⟨op :: pre, o, zero, u, he, by simp [hre], hsl.served, hsl.vals, ?_, hsl.state⟩
          have hb := hsl.blocks
          have hperm : ∀ n, opSum n (op :: done ++ pre) = opSum n (done ++ op :: pre) := by
            intro n
            simp only [opSum, List.cons_append, List.map_cons, List.map_append, List.sum_cons,
              List.sum_append]
            ring
          rw [hperm] at hb
          exact hb
      | fail =>
        obtain ⟨x, hx, hloop⟩ : ∃ x : State, x.sem = s.sem ∧
            atomicLoop c done (op :: ops) s = (rollback (undoOp c) done x, .failed) := by
          rw [atomicLoop, hd]
          exact ⟨{ t with uError := some (t.uError.getD .erange) }, (doOp_fail hd : t.sem = s.sem), rfl⟩
        have hvals : (fun n => (x.sem n).semval) = fun n => (s.sem n).semval := by rw [hx]
        rw [hloop]
        refine .inl ⟨by simp, fun n => (hs n).revalue ?_ ?_⟩
        · rw [← hx]
          exact lists_rollback c done x n
        · exact congrFun ((rollback_congr vals_undoOp_congr done hvals).trans hr) n
      | wait zero =>
        obtain ⟨rfl, hb⟩ := doOp_wait hd
        rw [hsum] at hb
        have hop : reached c (op :: ops) t = [op] := by
          rw [reached, hd]
        rw [atomicLoop, hd, hop]
        simp only
        split
        next => exact .inl ⟨by simp, hback _⟩
        next =>
          refine .inr ⟨[], op, zero, rollback (undoOp c) done t, rfl, rfl, ?_, congrFun hr, ?_, rfl⟩
          · exact fun n => (hs n).revalue (lists_rollback c done t n) (congrFun hr n)
          · rw [List.append_nil]
            exact hb


theorem orderOp_served (hc : AllCounted s) : AllServed s (orderOp c op s).1 := by
  have hcop := hc op.semNum.toNat
  have hcarry : ∀ wake, Served (s.sem op.semNum.toNat)
        (wake (addVal (s.sem op.semNum.toNat) op.semOp)) →
      AllServed s (followUp c op (carryOut c op wake s)).1 := by
    intro wake hw
    unfold followUp
    split
    next u heq => exact (carryOut_served hw heq).trans (allServed_setPid c op u)
    next => exact carryOut_served hw rfl
  unfold orderOp
  simp only
  by_cases hz : op.semOp = 0
  · rw [if_pos hz]
    split
    next => exact .refl rfl
    next => exact allServed_setPid c op s
  rw [if_neg hz]
  by_cases hpos : 0 < op.semOp.toInt
  · rw [if_pos hpos]
    split
    next => exact .refl rfl
    next hr => exact hcarry wakeN (served_raise hcop hpos (not_lt.mp hr))
  rw [if_neg hpos]
  split
  next => exact .refl rfl
  next =>
    split
    next => exact .refl rfl
    next hle =>
      have hneg : op.semOp.toInt < 0 := by
        by_contra hneg
        exact hz (semOp_zero hpos hneg)
      exact hcarry wakeZ (served_lower hcop hneg (not_lt.mp hle))

theorem orderOp_wait {zero : Bool} (h : orderOp c op s = (t, .wait zero)) :
    t = s ∧ Blocks zero op (s.sem op.semNum.toNat).semval.toNat := by
  have hcarry : ∀ wake, (followUp c op (carryOut c op wake s)).2 ≠ .wait zero := by
    intro wake
    unfold followUp
    split
    next => simp
    next => exact carryOut_verdict
  unfold orderOp at h
  simp only at h
  by_cases hz : op.semOp = 0
  · rw [if_pos hz] at h
    split at h
    next hv =>
      cases h
      refine ⟨rfl, hz, fun h0 => hv ?_⟩
      apply BitVec.eq_of_toNat_eq
      simpa using h0
    next => cases h
  rw [if_neg hz] at h
  by_cases hpos : 0 < op.semOp.toInt
  · rw [if_pos hpos] at h
    split at h
    next => cases h
    next => exact absurd (congrArg Prod.snd h) (hcarry _)
  rw [if_neg hpos] at h
  split at h
  next => cases h
  next =>
    split at h
    next hlt =>
      cases h
      have hneg : op.semOp.toInt < 0 := by
        by_contra hneg
        exact hz (semOp_zero hpos hneg)
      exact ⟨rfl, hneg, hlt⟩
    next => exact absurd (congrArg Prod.snd h) (hcarry _)

/-- The operations that a pass carries out before the one that it comes to rest at. -/
def ahead (c : Caller) (w : Sleeper) (s : State) : List Sembuf :=
  match w with
  | .atomic sops => (reached c sops s).dropLast
  | .order _ => []

/-- What a pass does for the threads that sleep on the semaphores of its set. -/
structure PassServed (c : Caller) (w : Sleeper) (s : State) : Prop where
  awake : (pass c w s).ending ≠ .asleep → AllServed s (pass c w s).state
  asleep : (pass c w s).ending = .asleep → ∃ op zero u, (pass c w s).stop = some op ∧
    AllServed s u ∧ Blocks zero op
      ((u.sem op.semNum.toNat).semval.toNat + opSum op.semNum.toNat (ahead c w s)) ∧
    (pass c w s).state = semsleep c zero op.semNum.toNat u

theorem passServed_atomic (hc : AllCounted s) (sops : List Sembuf) :
    PassServed c (.atomic sops) s := by
  have hsum : ∀ n, ((s.sem n).semval.toNat : Int) = (s.sem n).semval.toNat + opSum n [] := by
    intro n
    simp [opSum]
  rcases atomicLoop_served (c := c) [] sops hc (.refl rfl) rfl hsum with
    ⟨hend, hs⟩ | ⟨pre, op, zero, u, hend, hre, hsl⟩
  · exact ⟨fun _ => hs, fun he => absurd he hend⟩
  · refine ⟨fun he => absurd hend he, fun _ => ⟨op, zero, u, ?_, hsl.served, ?_, hsl.state⟩⟩
    · change (reached c sops s).getLast? = some op
      rw [hre, List.getLast?_concat]
    · change Blocks zero op (_ + opSum op.semNum.toNat (reached c sops s).dropLast)
      rw [hre, List.dropLast_concat, hsl.vals]
      exact hsl.blocks

theorem passServed_order (hc : AllCounted s) (ops : List Sembuf) :
    PassServed c (.order ops) s := by
  induction ops generalizing s with
  | nil => exact ⟨fun _ => .refl rfl, fun he => by cases he⟩
  | cons op ops ih =>
    have hop : AllServed s (orderOp c op s).1 := orderOp_served hc
    cases ho : orderOp c op s with
    | mk t r =>
      rw [ho] at hop
      cases r with
      | next =>
        have hrest := ih (hop.counted hc)
        have hp : orderPass c (op :: ops) s =
            { orderPass c ops t with done := op :: (orderPass c ops t).done } := by
          rw [orderPass, ho]
        refine ⟨fun he => ?_, fun he => ?_⟩
        · change (orderPass c (op :: ops) s).ending ≠ .asleep at he
          change AllServed s (orderPass c (op :: ops) s).state
          rw [hp] at he ⊢
          exact hop.trans (hrest.awake he)
        · change (orderPass c (op :: ops) s).ending = .asleep at he
          rw [hp] at he
          obtain ⟨o, zero, u, hstop, hs, hb, hst⟩ := hrest.asleep he
          refine ⟨o, zero, u, ?_, hop.trans hs, hb, ?_⟩
          · change (orderPass c (op :: ops) s).stop = some o
            rw [hp]
            exact hstop
          · change (orderPass c (op :: ops) s).state = _
            rw [hp]
            exact hst
      | fail =>
        have hp : orderPass c (op :: ops) s = ⟨t, .failed, [], some op, .order (op :: ops)⟩ := by
          rw [orderPass, ho]
        refine ⟨fun _ => ?_, fun he => ?_⟩
        · change AllServed s (orderPass c (op :: ops) s).state
          rw [hp]
          exact hop
        · change (orderPass c (op :: ops) s).ending = .asleep at he
          rw [hp] at he
          cases he
      | wait zero =>
        obtain ⟨rfl, hb⟩ := orderOp_wait ho
        by_cases hnw : op.ipcNowait = true
        · have hp : orderPass c (op :: ops) t =
              ⟨{ t with uError := some .eagain }, .failed, [], some op, .order (op :: ops)⟩ := by
            rw [orderPass, ho]
            exact if_pos hnw
          refine ⟨fun _ => ?_, fun he => ?_⟩
          · change AllServed t (orderPass c (op :: ops) t).state
            rw [hp]
            exact .refl rfl
          · change (orderPass c (op :: ops) t).ending = .asleep at he
            rw [hp] at he
            cases he
        · have hp : orderPass c (op :: ops) t =
              ⟨semsleep c zero op.semNum.toNat t, .asleep, [], some op, .order (op :: ops)⟩ := by
            rw [orderPass, ho]
            exact if_neg hnw
          refine ⟨fun he => ?_, fun _ => ⟨op, zero, t, ?_, .refl rfl, ?_, ?_⟩⟩
          · change (orderPass c (op :: ops) t).ending ≠ .asleep at he
            rw [hp] at he
            exact absurd rfl he
          · change (orderPass c (op :: ops) t).stop = some op
            rw [hp]
          · have h0 : opSum op.semNum.toNat (ahead c (.order (op :: ops)) t) = 0 := rfl
            rw [h0, add_zero]
            exact hb
          · change (orderPass c (op :: ops) t).state = _
            rw [hp]

/-- A pass of either kind. -/
theorem passServed (hc : AllCounted s) (w : Sleeper) : PassServed c w s := by
  cases w with
  | atomic sops => exact passServed_atomic hc sops
  | order rest => exact passServed_order hc rest


/-! ## A list by what its threads wait for -/

def waitList (zero : Bool) (v : Semaphore) : List Nat := if zero then v.semzwait else v.semnwait

def waitCount (zero : Bool) (v : Semaphore) : BitVec 16 := if zero then v.semzcnt else v.semncnt

theorem counted_iff : Counted v ↔ ∀ zero, waitList zero v ≠ [] → waitCount zero v ≠ 0 := by
  constructor
  · intro h zero
    cases zero with
    | true => exact h.zcnt
    | false => exact h.ncnt
  · exact fun h => ⟨h false, h true⟩

theorem Served.waitList (h : Served v v') (zero : Bool) :
    waitList zero v' = [] ∧ waitCount zero v' = 0 ∨
      waitList zero v' = waitList zero v ∧ waitCount zero v' = waitCount zero v := by
  cases zero with
  | true => exact h.zwait.imp id fun hs => ⟨hs.1, hs.2.1⟩
  | false => exact h.nwait.imp id fun hs => ⟨hs.1, hs.2.1⟩

/-- A sleeper that has not been woken is still blocked, unless it waits for zero behind operations
that lower the value. -/
theorem Served.blocks (h : Served v v') {zero : Bool} {t : Nat} {d : Int}
    (ht : t ∈ WaitLists.waitList zero v') (hd : zero = true → 0 ≤ d)
    (hb : Blocks zero op (v.semval.toNat + d)) : Blocks zero op (v'.semval.toNat + d) := by
  cases zero with
  | true =>
    obtain ⟨-, -, hz⟩ := h.zwait.resolve_left fun hnil => List.ne_nil_of_mem ht hnil.1
    obtain ⟨hop, hne⟩ := hb
    refine ⟨hop, fun h0 => hne ?_⟩
    have hd := hd rfl
    have hv' : v'.semval = 0 := by
      apply BitVec.eq_of_toNat_eq
      change v'.semval.toNat = 0
      omega
    have hv : v.semval.toNat = 0 := by
      rw [hz hv']
      rfl
    omega
  | false =>
    obtain ⟨-, -, hle⟩ := h.nwait.resolve_left fun hnil => List.ne_nil_of_mem ht hnil.1
    obtain ⟨hop, hlt⟩ := hb
    exact ⟨hop, by omega⟩

/-- A thread is put on a list. -/
def asleep (tid : Nat) (zero : Bool) (v : Semaphore) : Semaphore :=
  if zero then { v with semzcnt := v.semzcnt + 1, semzwait := tid :: v.semzwait }
  else { v with semncnt := v.semncnt + 1, semnwait := tid :: v.semnwait }

theorem waitList_asleep (tid : Nat) (zero z : Bool) (v : Semaphore) :
    waitList z (asleep tid zero v) = if z = zero then tid :: waitList z v else waitList z v := by
  cases zero <;> cases z <;> rfl

theorem waitCount_asleep (tid : Nat) (zero z : Bool) (v : Semaphore) :
    waitCount z (asleep tid zero v) = if z = zero then waitCount z v + 1 else waitCount z v := by
  cases zero <;> cases z <;> rfl

theorem semval_asleep (tid : Nat) (zero : Bool) (v : Semaphore) :
    (asleep tid zero v).semval = v.semval := by
  cases zero <;> rfl

/-- A sleeper that leaves takes all with it when it counts as the last, else only itself. -/
theorem leave_cases (tid : Nat) (zero : Bool) (v : Semaphore) :
    (waitList zero (leave tid zero v) = [] ∨
      waitList zero (leave tid zero v) = (waitList zero v).erase tid ∧
        waitCount zero (leave tid zero v) ≠ 0) ∧
    waitList (!zero) (leave tid zero v) = waitList (!zero) v ∧
    waitCount (!zero) (leave tid zero v) = waitCount (!zero) v := by
  have hsub : ∀ x : BitVec 16, ¬x.toNat ≤ 1 → x - 1 ≠ 0 := by
    intro x hx h0
    have hone : x = 1 := by
      rw [← BitVec.sub_add_cancel x 1, h0]
      rfl
    rw [hone] at hx
    exact hx le_rfl
  unfold leave
  cases zero with
  | true =>
    rw [if_pos rfl]
    split
    next => exact ⟨.inl rfl, rfl, rfl⟩
    next hx => exact ⟨.inr ⟨rfl, hsub _ hx⟩, rfl, rfl⟩
  | false =>
    rw [if_neg (by simp)]
    split
    next => exact ⟨.inl rfl, rfl, rfl⟩
    next hx => exact ⟨.inr ⟨rfl, hsub _ hx⟩, rfl, rfl⟩

end Aix413.Semop.WaitLists
