import Aix413.Dispatch.Queues

namespace Aix413.Dispatch.Sys

variable {s s' : Sys} {Q : Nat → List Nat} {t u l l' cpu : Nat} {w : Place} {p : Bool} {prio : Int}
variable {f : Thread → Thread}

/-- The levels list exactly the threads that wait for the processor with their priority. -/
structure Ready (s : Sys) (Q : Nat → List Nat) : Prop where
  linked : Linked s Q
  mem : ∀ l t, t ∈ Q l ↔ (s.thread t).tWtype = .twcpu ∧ (s.thread t).lvl = l

theorem mem_update_put :
    u ∈ Function.update Q l (put w t (Q l)) l' ↔ u ∈ Q l' ∨ u = t ∧ l' = l := by
  by_cases hl : l' = l
  · subst hl
    rw [Function.update_self, mem_put]
    tauto
  · rw [Function.update_of_ne hl]
    tauto

theorem Linked.mem_update_erase (h : Linked s Q) (ht : t ∈ Q l) :
    u ∈ Function.update Q l ((Q l).erase t) l' ↔ u ∈ Q l' ∧ u ≠ t := by
  by_cases hl : l' = l
  · subst hl
    rw [Function.update_self, (h.ring l').nodup.mem_erase_iff]
    exact and_comm
  · rw [Function.update_of_ne hl]
    refine (and_iff_left_of_imp ?_).symm
    rintro hu rfl
    exact hl (h.apart l' l u hu ht)

theorem Linked.setRunrun (h : Linked s Q) (l : Nat) (p : Bool) : Linked (s.setRunrun l p) Q := by
  obtain ⟨n, hn⟩ := setRunrun_frame (s := s) l p
  rw [hn]
  exact h.congr (fun _ _ _ => rfl) (fun _ _ _ => rfl) rfl rfl rfl rfl rfl

theorem setRunrun_thread (l : Nat) (p : Bool) : (s.setRunrun l p).thread = s.thread := by
  obtain ⟨n, hn⟩ := setRunrun_frame (s := s) l p
  rw [hn]

namespace Ready

theorem notMem (h : Ready s Q) (ht : (s.thread t).tWtype ≠ .twcpu) (l : Nat) : t ∉ Q l :=
  fun hm => ht ((h.mem l t).mp hm).1

/-- A thread off the queues changes, and stays off. -/
theorem modify (h : Ready s Q) (ht : (s.thread t).tWtype ≠ .twcpu)
    (hf : (f (s.thread t)).tWtype ≠ .twcpu)
    (hn : (f (s.thread t)).tNext = (s.thread t).tNext)
    (hp : (f (s.thread t)).tPrior = (s.thread t).tPrior) : Ready (s.modify t f) Q := by
  refine ⟨h.linked.modify hn hp, ?_⟩
  intro l u
  by_cases hu : u = t
  · subst hu
    rw [thread_modify_self]
    exact iff_of_false (h.notMem ht l) fun hc => hf hc.1
  · rw [thread_modify_of_ne hu]
    exact h.mem l u

/-- A thread changes that keeps its place in the queues. -/
theorem modify_same (h : Ready s Q) (hw : (f (s.thread t)).tWtype = (s.thread t).tWtype)
    (hl : (f (s.thread t)).lvl = (s.thread t).lvl)
    (hn : (f (s.thread t)).tNext = (s.thread t).tNext)
    (hp : (f (s.thread t)).tPrior = (s.thread t).tPrior) : Ready (s.modify t f) Q := by
  refine ⟨h.linked.modify hn hp, ?_⟩
  intro l u
  by_cases hu : u = t
  · subst hu
    rw [thread_modify_self, hw, hl]
    exact h.mem l u
  · rw [thread_modify_of_ne hu]
    exact h.mem l u

/-- A thread begins to wait for the processor. -/
theorem enter (h : Ready s Q) (ht : (s.thread t).tWtype ≠ .twcpu) (w : Place) :
    let l := (s.thread t).lvl
    Ready ((s.modify t fun th => { th with tWtype := .twcpu }).link t l w)
      (Function.update Q l (put w t (Q l))) := by
  intro l
  have hlinked := h.linked.modify (t := t) (f := fun th => { th with tWtype := .twcpu }) rfl rfl
  refine ⟨hlinked.link (h.notMem ht) l w, ?_⟩
  intro l' u
  have hb := congrFun (link_bare (s.modify t fun th => { th with tWtype := .twcpu }) t l w) u
  rw [mem_update_put, wtype_of_bare hb, lvl_of_bare hb]
  by_cases hu : u = t
  · subst hu
    rw [thread_modify_self]
    have hnot := h.notMem ht l'
    constructor
    · rintro (hm | ⟨-, rfl⟩)
      · exact absurd hm hnot
      · exact ⟨rfl, rfl⟩
    · rintro ⟨-, rfl⟩
      exact .inr ⟨rfl, rfl⟩
  · rw [thread_modify_of_ne hu, ← h.mem l' u]
    tauto

theorem setrq (h : Ready s Q) (ht : (s.thread t).tWtype ≠ .twcpu) (p : Bool) (w : Place) :
    let l := (s.thread t).lvl
    Ready (s.setrq t p w) (if (s.thread t).tpmreqstop ∧ (s.thread t).tSuspend = 0 then Q
      else Function.update Q l (put w t (Q l))) := by
  intro l
  have h1 : Ready (s.modify t fun th => { th with tState := .tsrun }) Q := h.modify_same rfl rfl rfl rfl
  unfold Sys.setrq
  dsimp only
  rw [thread_modify_self]
  by_cases hpm : (s.thread t).tpmreqstop ∧ (s.thread t).tSuspend = 0
  · rw [if_pos hpm, if_pos hpm]
    apply h1.modify
    · rw [thread_modify_self]
      exact ht
    · exact WType.noConfusion
    · rfl
    · rfl
  · rw [if_neg hpm, if_neg hpm, thread_modify_self, thread_modify_self]
    have h2 := h1.enter (t := t) (by rw [thread_modify_self]; exact ht) w
    rw [thread_modify_self] at h2
    refine ⟨h2.linked.setRunrun _ p, ?_⟩
    rw [setRunrun_thread]
    exact h2.mem

/-- A thread is taken out, and its wait ends. -/
theorem leave (h : Ready s Q) (ht : t ∈ Q l) :
    Ready ((s.unlink t l).modify t fun th => { th with tWtype := .tnowait })
      (Function.update Q l ((Q l).erase t)) := by
  refine ⟨(h.linked.unlink ht).modify rfl rfl, ?_⟩
  intro l' u
  rw [h.linked.mem_update_erase ht]
  by_cases hu : u = t
  · subst hu
    rw [thread_modify_self]
    exact iff_of_false (fun hc => hc.2 rfl) fun hc => WType.noConfusion hc.1
  · have hb := congrFun (unlink_bare s t l) u
    rw [thread_modify_of_ne hu, wtype_of_bare hb, lvl_of_bare hb, ← h.mem l' u]
    exact and_iff_left hu

theorem remrq (h : Ready s Q) (t : Nat) :
    let l := (s.thread t).lvl
    Ready (s.remrq t) (Function.update Q l ((Q l).erase t)) := by
  intro l
  unfold Sys.remrq
  by_cases ht : (s.thread t).tWtype = .twcpu
  · rw [if_pos ht]
    dsimp only
    rw [thread_modify_self]
    change Ready ((s.modify t fun th => { th with tWtype := .tnowait }).unlink t l) _
    have hin : t ∈ Q l := (h.mem l t).mpr ⟨ht, rfl⟩
    have hlinked := h.linked.modify (t := t) (f := fun th => { th with tWtype := .tnowait }) rfl rfl
    refine ⟨hlinked.unlink hin, ?_⟩
    intro l' u
    rw [h.linked.mem_update_erase hin]
    have hb := congrFun (unlink_bare (s.modify t fun th => { th with tWtype := .tnowait }) t l) u
    rw [wtype_of_bare hb, lvl_of_bare hb]
    by_cases hu : u = t
    · subst hu
      rw [thread_modify_self]
      exact iff_of_false (fun hc => hc.2 rfl) fun hc => WType.noConfusion hc.1
    · rw [thread_modify_of_ne hu, ← h.mem l' u]
      exact and_iff_left hu
  · rw [if_neg ht, List.erase_of_not_mem (h.notMem ht l), Function.update_eq_self]
    exact h

end Ready

theorem remrq_wtype (ht : (s.thread t).tWtype = .twcpu) :
    ((s.remrq t).thread t).tWtype = .tnowait := by
  unfold Sys.remrq
  rw [if_pos ht]
  dsimp only
  have hb := congrFun (unlink_bare (s.modify t fun th => { th with tWtype := .tnowait }) t
    ((s.modify t fun th => { th with tWtype := .tnowait }).thread t).lvl) t
  rw [wtype_of_bare hb, thread_modify_self]

theorem remrq_bare_of_ne (hu : u ≠ t) : (s.remrq t).bare u = s.bare u := by
  unfold Sys.remrq
  split
  · rw [unlink_bare]
    exact bare_modify_of_ne hu
  · rfl

theorem setrq_bare_of_ne (hu : u ≠ t) : (s.setrq t p w).bare u = s.bare u := by
  unfold Sys.setrq
  dsimp only
  split
  · rw [bare_modify_of_ne hu, bare_modify_of_ne hu]
  · rw [bare, setRunrun_thread]
    exact ((congrFun (link_bare _ t _ w) u).trans (bare_modify_of_ne hu)).trans
      (bare_modify_of_ne hu)

theorem prioRequeue_bare_of_ne (hu : u ≠ t) : (s.prioRequeue t prio).bare u = s.bare u := by
  have hset : ∀ s' : Sys, (s'.setPri t prio).bare u = s'.bare u := fun s' => bare_modify_of_ne hu
  unfold Sys.prioRequeue
  split
  · split
    · rw [setrq_bare_of_ne hu, hset, remrq_bare_of_ne hu]
    · split
      · rw [setrq_bare_of_ne hu, hset, remrq_bare_of_ne hu]
      · rfl
  · dsimp only
    rw [hset]
    split <;> rfl
  · dsimp only
    rw [hset]
    split
    · split <;> rfl
    · rfl
  · exact hset s

namespace Ready

/-- A queued thread goes to the queue of another priority. -/
theorem requeue (h : Ready s Q) (ht : (s.thread t).tWtype = .twcpu) (prio : Int) (w : Place) :
    ∃ Q', Ready (((s.remrq t).setPri t prio).setrq t true w) Q' := by
  have hoff : ((s.remrq t).thread t).tWtype ≠ .twcpu := by
    rw [remrq_wtype ht]
    exact WType.noConfusion
  have h1 : Ready ((s.remrq t).setPri t prio) _ := (h.remrq t).modify hoff hoff rfl rfl
  have hoff1 : (((s.remrq t).setPri t prio).thread t).tWtype ≠ .twcpu := by
    unfold setPri
    rw [thread_modify_self]
    exact hoff
  exact ⟨_, h1.setrq hoff1 true w⟩

theorem congr (h : Ready s Q) (ht : s'.thread = s.thread) (hr : s'.threadRun = s.threadRun)
    (hm : s'.runMask = s.runMask) (hc : s'.clock = s.clock) (ha : s'.arrived = s.arrived)
    (hw : s'.place = s.place) : Ready s' Q := by
  refine ⟨h.linked.congr ?_ ?_ hr hm hc ha hw, fun l t => ht ▸ h.mem l t⟩
  · intro l t _
    rw [Sys.next, ht]
    rfl
  · intro l t _
    rw [Sys.prior, ht]
    rfl

theorem prioRequeue (h : Ready s Q) (t : Nat) (prio : Int) :
    ∃ Q', Ready (s.prioRequeue t prio) Q' := by
  have hset : (s.thread t).tWtype ≠ .twcpu → ∀ s' : Sys, s'.thread = s.thread → Ready s' Q →
      Ready (s'.setPri t prio) Q := by
    intro ht s' hs h'
    have hoff : (s'.thread t).tWtype ≠ .twcpu := hs ▸ ht
    exact h'.modify hoff hoff rfl rfl
  unfold Sys.prioRequeue
  cases hw : (s.thread t).tWtype with
  | twcpu =>
    dsimp only
    split
    · exact h.requeue hw prio .rqhead
    · split
      · exact h.requeue hw prio .rqtail
      · exact ⟨Q, h⟩
  | twmem =>
    refine ⟨Q, hset (by simp [hw]) _ ?_ ?_⟩
    · split <;> rfl
    · split
      · exact h.congr rfl rfl rfl rfl rfl rfl
      · exact h
  | tnowait =>
    refine ⟨Q, hset (by simp [hw]) _ ?_ ?_⟩
    · split
      · split <;> rfl
      · rfl
    · split
      · split
        · exact h.congr rfl rfl rfl rfl rfl rfl
        · exact h
      · exact h
  | _ => exact ⟨Q, hset (by simp [hw]) s rfl h⟩

end Ready

end Aix413.Dispatch.Sys
