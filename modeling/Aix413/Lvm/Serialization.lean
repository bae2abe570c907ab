import Aix413.Lvm.WorkQueue

namespace Aix413.Lvm.Strategy

variable {s s' : State} {lb : Lb}

theorem inv_initiate (hi : Inv s.workQ [] s) (reqs : List Buf)
    (hr : ∀ b ∈ reqs, b.bError ≠ elbblocked) :
    Inv (hdInitiate reqs s).workQ [] (hdInitiate reqs s) := by
  unfold hdInitiate
  induction reqs generalizing s with
  | nil => exact hi
  | cons b reqs ih =>
    apply ih (hi.initiateOne b (hr b List.mem_cons_self))
    exact fun c hc => hr c (List.mem_cons_of_mem b hc)

theorem inv_schedule (hi : Inv s.workQ [] s) (succeeds : Bool) :
    Inv (hdSchedule succeeds s).workQ [] (hdSchedule succeeds s) := by
  unfold hdSchedule
  split
  next => exact hi
  next lb rest hp =>
    split
    next =>
      apply hi.congr
      · exact fun _ => rfl
      · exact fun _ => Iff.rfl
      · rfl
      · rfl
      · rfl
      · rw [hp, ← List.append_assoc]
        exact (List.perm_append_singleton _ _)
    next => exact hi

theorem inv_requeue (hi : Inv s.workQ [] s) (ha : lb ∈ s.active) (atHead : Bool) :
    Inv (requeue lb atHead s).workQ [] (requeue lb atHead s) := by
  have hactive := List.perm_cons_erase ha
  apply hi.congr
  · exact fun _ => rfl
  · exact fun _ => Iff.rfl
  · rfl
  · rfl
  · rfl
  · cases atHead with
    | true =>
      change (lb :: s.pendingQ ++ s.active.erase lb).Perm _
      exact List.perm_middle.symm.trans (hactive.symm.append_left _)
    | false =>
      change ((s.pendingQ ++ [lb]) ++ s.active.erase lb).Perm _
      rw [List.append_assoc]
      exact hactive.symm.append_left _

theorem inv_quiet (hi : Inv s.workQ [] s) (dev : Nat) (l : List Lb) :
    Inv (hdQuiet dev l s).workQ [] (hdQuiet dev l s) := by
  unfold hdQuiet
  induction l generalizing s with
  | nil => exact hi
  | cons lb l ih =>
    apply ih
    apply hi.congr
    · intro i
      by_cases he : i = lb
      · subst he
        simp [State.setBuf, Buf.key]
      · simp [State.setBuf, Function.update_of_ne he]
    · intro _ _ i _
      by_cases he : i = lb
      · subst he
        simp [State.setBuf]
      · simp [State.setBuf, Function.update_of_ne he]
    · rfl
    · rfl
    · rfl
    · exact List.Perm.refl _

/-- A request that was released is on its chain until it terminates. -/
theorem Inv.mem_chain (hi : Inv s.workQ [] s) (ha : lb ∈ s.pendingQ ++ s.active) :
    lb ∈ s.chain lb := by
  obtain ⟨hr, hd⟩ := (hi.held lb).mp ha
  obtain ⟨d, h, hm⟩ := hi.queued lb (hi.old lb (.inl hr)) hd (by simp)
  obtain ⟨rfl, rfl⟩ := hi.home hm
  exact hm

theorem chain_setResult (error : Bool) (errno : Nat) (resid : BitVec 32) :
    (setResult lb error errno resid s).chain lb = s.chain lb := by
  simp [setResult, State.chain, State.setBuf, hdHash]

theorem inv_terminate (hi : Inv s.workQ [] s) (ha : lb ∈ s.active) (error : Bool) (errno : Nat)
    (resid : BitVec 32) (h : hdTerminate lb (setResult lb error errno resid s) = some s') :
    Inv s'.workQ [] s' := by
  have hm := hi.mem_chain (List.mem_append_right _ ha)
  have hsplit := split_chain hm
  unfold hdTerminate at h
  rw [chain_setResult, if_pos hm] at h
  generalize (s.chain lb).takeWhile (· ≠ lb) = older at h hsplit
  generalize ((s.chain lb).dropWhile (· ≠ lb)).tail = newer at h hsplit
  have hbuf : (setResult lb error errno resid s).buf lb =
      { s.buf lb with error := error, bError := errno, bResid := resid } :=
    Function.update_self _ _ _
  -- off its chain, with its result
  have h0 : Inv (putChain s.workQ (s.buf lb).bDev (hdHash (s.buf lb)) (older ++ lb :: newer)) [] s := by
    rw [hsplit]
    exact putChain_eq.symm ▸ hi
  obtain ⟨hbefore, hafter⟩ := h0.lt_of_mem
  have hno : ∀ l, l.Sublist (older ++ newer) → ∀ d c,
      lb ∉ putChain s.workQ (s.buf lb).bDev (hdHash (s.buf lb)) l d c := by
    intro l hl d c hin
    by_cases he : d = (s.buf lb).bDev ∧ c = hdHash (s.buf lb)
    · obtain ⟨rfl, rfl⟩ := he
      rw [putChain_self] at hin
      rcases List.mem_append.mp (hl.mem hin) with hin | hin
      · exact (hbefore lb hin).false
      · exact (hafter lb hin).false
    · have hq : lb ∈ s.workQ d c := by simpa [putChain, he] using hin
      obtain ⟨rfl, rfl⟩ := hi.home hq
      exact he ⟨rfl, rfl⟩
  have h1 : Inv _ (newer ++ [lb]) s := (h0.unlink_mid (x := lb) (by simp)).weaken (by simp)
  have h2 : Inv _ (newer ++ [lb]) (setResult lb error errno resid s) :=
    h1.setBuf rfl (hno _ (List.Sublist.refl _))
  have h3 := (h2.clearInflight lb).unblockNewer
  have hsub := unblockNewer_sublist older newer (clearInflight lb (setResult lb error errno resid s))
  obtain ⟨hq, hact, -⟩ :=
    unblockNewer_frame older newer (clearInflight lb (setResult lb error errno resid s))
  obtain ⟨-, -, -, hq0, -, -, -, hact0⟩ := clearInflight_frame lb (setResult lb error errno resid s)
  generalize unblockNewer older newer (clearInflight lb (setResult lb error errno resid s)) = w
    at h h3 hsub hq hact
  obtain ⟨t, l⟩ := w
  simp only [hbuf, Option.some.injEq] at h
  subst h
  have hchain : (t.setChain (s.buf lb).bDev (hdHash (s.buf lb)) l).workQ =
      putChain s.workQ (s.buf lb).bDev (hdHash (s.buf lb)) l := by
    change putChain t.workQ _ _ _ = _
    rw [hq, hq0]
    rfl
  have hactive : lb ∈ t.active := by
    rw [hact, hact0]
    exact ha
  rw [giveBack_workQ]
  change Inv (t.setChain (s.buf lb).bDev (hdHash (s.buf lb)) l).workQ []
    (giveBack lb (t.setChain (s.buf lb).bDev (hdHash (s.buf lb)) l))
  rw [hchain]
  exact (h3.setChain _ _ _).giveBack (hno l hsub) hactive

theorem inv_step (hi : Inv s.workQ [] s) (h : Step s s') : Inv s'.workQ [] s' := by
  cases h with
  | initiate reqs hr => exact inv_initiate hi reqs hr
  | schedule succeeds => exact inv_schedule hi succeeds
  | requeue lb atHead ha => exact inv_requeue hi ha atHead
  | terminate lb error errno resid ha h => exact inv_terminate hi ha error errno resid h
  | quiet dev l _ => exact inv_quiet hi dev l
  | environment vg =>
    exact hi.congr (fun _ => rfl) (fun _ => Iff.rfl) rfl rfl rfl (List.Perm.refl _)

/-! ## Runs -/

/-- Nothing has arrived yet. -/
def start (vg : Volgrp) : State where
  vg := vg
  buf := fun _ => ⟨0, 0, 0, false, false, false, false, false, 0, 0, 0⟩
  next := 0
  workQ := fun _ _ => []
  pendingQ := []
  active := []
  complcnt := fun _ => 0
  released := []
  done := []

def Reachable (s : State) : Prop := ∃ vg, Relation.ReflTransGen Step (start vg) s

theorem Reachable.inv (h : Reachable s) : Inv s.workQ [] s := by
  obtain ⟨vg, h⟩ := h
  induction h with
  | refl => constructor <;> simp [start]
  | tail _ hstep ih => exact inv_step ih hstep

/-- Released and not terminated: on the pending queue, with the disks, or parked. -/
def State.InService (s : State) (lb : Lb) : Prop := lb ∈ s.pendingQ ++ s.active

structure Serialized (s : State) : Prop where
  /-- The work queue has the unterminated requests. -/
  queued_iff : ∀ lb, lb ∈ s.chain lb ↔ lb < s.next ∧ lb ∉ s.done
  inService_iff : ∀ lb, s.InService lb ↔ lb ∈ s.released ∧ lb ∉ s.done
  exclusive : ∀ i j, i ≠ j → s.InService i → s.InService j → ¬(s.buf i).Conflict (s.buf j)
  inOrder : s.released.Pairwise fun i j => (s.buf i).Conflict (s.buf j) → i < j
  blocked_iff : ∀ lb, lb ∈ s.chain lb → ((s.buf lb).bError = elbblocked ↔
    ∃ i ∈ s.chain lb, i < lb ∧ (s.buf i).Conflict (s.buf lb))
  waiting_iff : ∀ lb, lb ∈ s.chain lb → ((s.buf lb).bError = elbblocked ↔ lb ∉ s.released)

theorem Inv.blocked_iff (hi : Inv s.workQ [] s) (hm : lb ∈ s.chain lb) :
    (s.buf lb).bError = elbblocked ↔ ∃ i ∈ s.chain lb, i < lb ∧ (s.buf i).Conflict (s.buf lb) := by
  constructor
  · exact fun hb => hi.reason hm hb (by simp)
  · rintro ⟨i, hin, hlt, hc⟩
    rw [hi.mark hm]
    exact fun hr => hi.ahead hin hr hlt hc

/-- Requests that touch a common page of a track group are in service one at a
time and in the order of their arrival, and one waits only for older ones. -/
theorem requests_serialized (h : Reachable s) : Serialized s := by
  have hi := h.inv
  have hexcl : ∀ i j, i < j → s.InService i → s.InService j →
      ¬(s.buf i).Conflict (s.buf j) := by
    intro i j hlt hin hjn
    exact hi.ahead (hi.mem_chain hin) ((hi.held j).mp hjn).1 hlt
  refine ⟨?_, hi.held, ?_, hi.order, fun _ => hi.blocked_iff, fun _ => hi.mark⟩
  · intro lb
    constructor
    · exact fun hm => ⟨hi.arrived hm, hi.undone hm⟩
    · rintro ⟨hn, hd⟩
      obtain ⟨d, c, hm⟩ := hi.queued lb hn hd (by simp)
      obtain ⟨rfl, rfl⟩ := hi.home hm
      exact hm
  · intro i j hne hin hjn hc
    rcases lt_or_gt_of_ne hne with hlt | hlt
    · exact hexcl i j hlt hin hjn hc
    · exact hexcl j i hlt hjn hin hc.symm

/-- One open volume of 1024 blocks in partitions of 1024. -/
def smallVg : Volgrp :=
  ⟨10, false, fun d => if d = 1 then some ⟨true, false, 1, 1024, fun _ _ => { pvol := some 0 }⟩ else none⟩

/-- Two writes of the first page. -/
def twoWrites : State :=
  hdInitiate [⟨1, 0, 4096, false, false, false, false, false, 0, 0, 0⟩,
    ⟨1, 4, 512, false, false, false, false, false, 0, 0, 0⟩] (start smallVg)

theorem requests_serialized_two :
    twoWrites.released = [0] ∧ (twoWrites.buf 1).bError = elbblocked ∧ Serialized twoWrites := by
  refine ⟨by decide, by decide, requests_serialized ⟨smallVg, ?_⟩⟩
  exact Relation.ReflTransGen.single (.initiate _ (by decide))

end Aix413.Lvm.Strategy
