import Aix413.Events.EventLists

namespace Aix413.Events

open Dispatch (TState WType)

/-! ## Where the threads are -/

/-- A thread runs, is ready, sleeps or is stopped on an event, or is stopped or not there. -/
inductive Situation (th : Thread) (current ready locked : Prop) : Prop
  | running (hc : current) (hr : ¬ready) (hs : th.tState = .tsrun) (hw : th.tWtype = .tnowait)
  | switching (hc : current) (hr : ¬ready) (hs : th.tState = .tsrun) (hw : th.tWtype = .twevent)
      (hp : th.pc = .switching) (hl : th.twakeonsig = true → locked)
  | ready (hc : ¬current) (hr : ready) (hs : th.tState = .tsrun) (hw : th.tWtype = .twcpu)
  | asleep (hc : ¬current) (hr : ¬ready) (hs : th.tState = .tssleep ∨ th.tState = .tsstop)
      (hw : th.tWtype = .twevent) (hp : th.pc = .blocked)
  | stopped (hc : ¬current) (hr : ¬ready) (hs : th.tState ≠ .tsrun ∧ th.tState ≠ .tssleep)
      (hw : th.tWtype = .tnowait)

theorem Situation.congr {th th' : Thread} {c r k : Prop} (h : Situation th c r k)
    (hs : th'.tState = th.tState) (hw : th'.tWtype = th.tWtype) (hp : th'.pc = th.pc)
    (hk : th'.twakeonsig = true → th.twakeonsig = true) : Situation th' c r k := by
  cases h with
  | running hc hr h1 h2 => exact .running hc hr (hs.trans h1) (hw.trans h2)
  | switching hc hr h1 h2 h3 hl =>
    exact .switching hc hr (hs.trans h1) (hw.trans h2) (hp.trans h3) fun hf => hl (hk hf)
  | ready hc hr h1 h2 => exact .ready hc hr (hs.trans h1) (hw.trans h2)
  | asleep hc hr h1 h2 h3 => exact .asleep hc hr (hs ▸ h1) (hw.trans h2) (hp.trans h3)
  | stopped hc hr h1 h2 => exact .stopped hc hr (hs ▸ h1) (hw.trans h2)

namespace Sys

variable {s s' : Sys} {t u cpu : Nat} {f : Thread → Thread}

def Current (s : Sys) (t : Nat) : Prop := ∃ c, s.curthread c = t

structure Sched (s : Sys) : Prop where
  nodup : s.ready.Nodup
  single : ∀ c c', s.curthread c = s.curthread c' → c = c'
  place : ∀ t, Situation (s.thread t) (s.Current t) (t ∈ s.ready) (s.lock = some t)
  lock : ∀ t, s.lock = some t → s.Current t ∧ (s.thread t).pc = .switching

theorem thread_modify_of_ne (h : u ≠ t) : (s.modify t f).thread u = s.thread u :=
  Function.update_of_ne h _ _

@[simp] theorem thread_modify_self : (s.modify t f).thread t = f (s.thread t) :=
  Function.update_self _ _ _

theorem setrq_thread (s : Sys) (t : Nat) : (s.setrq t).thread =
    (s.modify t fun th => { th with tState := .tsrun, tWtype := .twcpu }).thread := rfl

theorem setrq_self (s : Sys) (t : Nat) : (s.setrq t).thread t =
    { s.thread t with tState := .tsrun, tWtype := .twcpu } := by
  rw [setrq_thread, thread_modify_self]

theorem setrq_of_ne (h : u ≠ t) : (s.setrq t).thread u = s.thread u := by
  rw [setrq_thread, thread_modify_of_ne h]

namespace Sched

/-- The scheduling is told by a few fields. -/
theorem congr (h : Sched s) (hr : s'.ready = s.ready) (hc : s'.curthread = s.curthread)
    (hl : s'.lock = s.lock) (ht : ∀ t, (s'.thread t).tState = (s.thread t).tState ∧
      (s'.thread t).tWtype = (s.thread t).tWtype ∧ (s'.thread t).pc = (s.thread t).pc ∧
      ((s'.thread t).twakeonsig = true → (s.thread t).twakeonsig = true)) : Sched s' := by
  refine ⟨hr ▸ h.nodup, hc ▸ h.single, fun t => ?_, fun t hk => ?_⟩
  · obtain ⟨h1, h2, h3, h4⟩ := ht t
    have hp := (h.place t).congr h1 h2 h3 h4
    unfold Current
    rw [hr, hc, hl]
    exact hp
  · obtain ⟨hcur, hp⟩ := h.lock t (hl ▸ hk)
    refine ⟨?_, (ht t).2.2.1.trans hp⟩
    unfold Current
    rw [hc]
    exact hcur

/-- One thread changes and stays where it is. -/
theorem modify (h : Sched s) (hp : Situation (f (s.thread t)) (s.Current t) (t ∈ s.ready)
    (s.lock = some t)) (hk : s.lock = some t → (f (s.thread t)).pc = .switching) :
    Sched (s.modify t f) := by
  refine ⟨h.nodup, h.single, fun u => ?_, fun u hu => ?_⟩
  · by_cases hut : u = t
    · subst hut
      rw [thread_modify_self]
      exact hp
    · rw [thread_modify_of_ne hut]
      exact h.place u
  · refine ⟨(h.lock u hu).1, ?_⟩
    by_cases hut : u = t
    · subst hut
      rw [thread_modify_self]
      exact hk hu
    · rw [thread_modify_of_ne hut]
      exact (h.lock u hu).2

theorem modify_same (h : Sched s) (h1 : (f (s.thread t)).tState = (s.thread t).tState)
    (h2 : (f (s.thread t)).tWtype = (s.thread t).tWtype) (h3 : (f (s.thread t)).pc = (s.thread t).pc)
    (h4 : (f (s.thread t)).twakeonsig = true → (s.thread t).twakeonsig = true) :
    Sched (s.modify t f) :=
  h.modify ((h.place t).congr h1 h2 h3 h4) fun hk => h3.trans (h.lock t hk).2

/-- A thread that neither runs nor is ready is made ready. -/
theorem setrq (h : Sched s) (hc : ¬s.Current t) (hr : t ∉ s.ready) : Sched (s.setrq t) := by
  have hmem : ∀ u, u ∈ s.ready ++ [t] ↔ u ∈ s.ready ∨ u = t := fun u => by simp
  refine ⟨?_, h.single, fun u => ?_, fun u hu => ?_⟩
  · refine List.nodup_append.mpr ⟨h.nodup, List.nodup_singleton t, ?_⟩
    intro u hu v hv
    rw [List.mem_singleton.mp hv]
    exact fun he => hr (he ▸ hu)
  · by_cases hut : u = t
    · subst hut
      refine .ready hc ((hmem u).mpr (.inr rfl)) ?_ ?_
      · rw [setrq_thread, thread_modify_self]
      · rw [setrq_thread, thread_modify_self]
    · have hrdy : u ∈ s.ready ++ [t] ↔ u ∈ s.ready := by rw [hmem, or_iff_left hut]
      have hp := h.place u
      rw [setrq_of_ne hut]
      change Situation _ (s.Current u) (u ∈ s.ready ++ [t]) (s.lock = some u)
      rw [hrdy]
      exact hp
  · obtain ⟨hcur, hp⟩ := h.lock u hu
    have hut : u ≠ t := fun he => hc (he ▸ hcur)
    exact ⟨hcur, (congrArg Thread.pc (setrq_of_ne hut)).trans hp⟩

/-- The wakers' switch. -/
theorem post (h : Sched s) (t : Nat) : Sched (s.post t) := by
  unfold Sys.post
  by_cases hw : (s.thread t).tWtype = .twevent
  · rw [if_pos hw]
    cases h.place t with
    | running _ _ _ hw' => rw [hw] at hw'; cases hw'
    | ready _ _ _ hw' => rw [hw] at hw'; cases hw'
    | stopped _ _ _ hw' => rw [hw] at hw'; cases hw'
    | switching hc hr hs _ hp hl =>
      rw [hs]
      exact h.modify (.running hc hr hs rfl) fun _ => hp
    | asleep hc hr hs _ hp =>
      rcases hs with hs | hs
      · rw [hs]
        exact h.setrq hc hr
      · rw [hs]
        refine h.modify (.stopped hc hr ?_ rfl) fun _ => ?_
        · change (s.thread t).tState ≠ .tsrun ∧ (s.thread t).tState ≠ .tssleep
          rw [hs]
          exact ⟨TState.noConfusion, TState.noConfusion⟩
        · exact absurd (h.lock t ‹_›).1 hc
  · rw [if_neg hw]
    exact h

end Sched

/-! ## The dispatcher -/

theorem switched_eq (s : Sys) (old : Nat) : s.switched old =
    { if (s.thread old).pc = .switching then s.setPc old .blocked else s with
      lock := if s.lock = some old then none else s.lock } := by
  have hlock : (if (s.thread old).pc = .switching then s.setPc old .blocked else s).lock = s.lock := by
    split <;> rfl
  unfold switched
  dsimp only
  rw [hlock]
  by_cases hl : s.lock = some old
  · rw [if_pos hl, if_pos hl]
  · rw [if_neg hl, if_neg hl, ← hlock]

theorem switched_frame (s : Sys) (old : Nat) : (s.switched old).ready = s.ready ∧
    (s.switched old).curthread = s.curthread ∧
    (s.switched old).lock = if s.lock = some old then none else s.lock := by
  rw [switched_eq]
  split <;> exact ⟨rfl, rfl, rfl⟩

theorem switched_of_ne (s : Sys) {old : Nat} (hu : u ≠ old) :
    (s.switched old).thread u = s.thread u := by
  rw [switched_eq]
  split
  · change (s.setPc old .blocked).thread u = _
    exact thread_modify_of_ne hu
  · rfl

theorem switched_old (s : Sys) (old : Nat) :
    ((s.switched old).thread old).tState = (s.thread old).tState ∧
    ((s.switched old).thread old).tWtype = (s.thread old).tWtype ∧
    ((s.thread old).pc = .switching → ((s.switched old).thread old).pc = .blocked) := by
  have hset : (s.setPc old .blocked).thread old = { s.thread old with pc := .blocked } :=
    thread_modify_self
  rw [switched_eq]
  split
  · dsimp only
    rw [hset]
    exact ⟨rfl, rfl, fun _ => rfl⟩
  · exact ⟨rfl, rfl, fun h => absurd h ‹_›⟩

/-- What the processor left behind: `old` is off it, and is ready exactly where `r` says. -/
theorem Sched.handOver (h : Sched s) {s₁ : Sys} {old t : Nat} (hold : s.curthread cpu = old)
    (hcur : s₁.curthread = s.curthread) (hothers : ∀ u, u ≠ old → s₁.thread u = s.thread u)
    (hnd : s₁.ready.Nodup) (hready : ∀ u, u ≠ old → (u ∈ s₁.ready ↔ u ∈ s.ready))
    (hplace : Situation (s₁.thread old) False (old ∈ s₁.ready) False)
    (hlock : s₁.lock = if s.lock = some old then none else s.lock) (ht : t ∈ s₁.ready) :
    Sched (s₁.take cpu t) := by
  have hcurrent : ∀ u, (s₁.take cpu t).Current u ↔ u = t ∨ u ≠ old ∧ s.Current u := by
    intro u
    constructor
    · rintro ⟨c, hc⟩
      change Function.update s₁.curthread cpu t c = u at hc
      by_cases hcc : c = cpu
      · subst hcc
        rw [Function.update_self] at hc
        exact .inl hc.symm
      · rw [Function.update_of_ne hcc, hcur] at hc
        refine .inr ⟨?_, c, hc⟩
        rintro rfl
        exact hcc (h.single c cpu (hc.trans hold.symm))
    · rintro (rfl | ⟨hu, c, hc⟩)
      · exact ⟨cpu, Function.update_self _ _ _⟩
      · refine ⟨c, ?_⟩
        have hcc : c ≠ cpu := by
          rintro rfl
          exact hu (hc.symm.trans hold)
        change Function.update s₁.curthread cpu t c = u
        rw [Function.update_of_ne hcc, hcur]
        exact hc
  have hmem : ∀ u, u ∈ (s₁.take cpu t).ready ↔ u ∈ s₁.ready ∧ u ≠ t := by
    intro u
    change u ∈ s₁.ready.erase t ↔ _
    rw [hnd.mem_erase_iff]
    exact and_comm
  have hthread : (s₁.take cpu t).thread = (s₁.modify t fun th => { th with tWtype := .tnowait }).thread :=
    rfl
  have hlock' : ∀ u, (s₁.take cpu t).lock = some u ↔ u ≠ old ∧ s.lock = some u := by
    intro u
    change s₁.lock = some u ↔ _
    rw [hlock]
    split
    next hl =>
      rw [hl]
      simp only [reduceCtorEq, Option.some_inj, false_iff, not_and]
      exact fun hu he => hu he.symm
    next hl =>
      refine (and_iff_right_of_imp ?_).symm
      rintro hu rfl
      exact hl hu
  -- a thread that was ready has run to here
  have hrun : (s₁.thread t).tState = .tsrun ∧ (t ≠ old → ¬s.Current t) := by
    by_cases hto : t = old
    · subst hto
      refine ⟨?_, fun hne => absurd rfl hne⟩
      cases hplace with
      | running hc => exact hc.elim
      | switching hc => exact hc.elim
      | ready _ _ hs => exact hs
      | asleep _ hr => exact absurd ht hr
      | stopped _ hr => exact absurd ht hr
    · rw [hothers t hto]
      cases h.place t with
      | running _ hr => exact absurd ((hready t hto).mp ht) hr
      | switching _ hr => exact absurd ((hready t hto).mp ht) hr
      | ready hc _ hs => exact ⟨hs, fun _ => hc⟩
      | asleep _ hr => exact absurd ((hready t hto).mp ht) hr
      | stopped _ hr => exact absurd ((hready t hto).mp ht) hr
  refine ⟨hnd.erase t, ?_, fun u => ?_, fun u hu => ?_⟩
  · intro c c' hcc
    change Function.update s₁.curthread cpu t c = Function.update s₁.curthread cpu t c' at hcc
    rw [hcur] at hcc
    have hne : ∀ c, c ≠ cpu → s.curthread c ≠ t := by
      intro c hc he
      by_cases hto : t = old
      · exact hc (h.single c cpu ((he.trans hto).trans hold.symm))
      · exact hrun.2 hto ⟨c, he⟩
    by_cases h1 : c = cpu <;> by_cases h2 : c' = cpu
    · rw [h1, h2]
    · rw [h1, Function.update_self, Function.update_of_ne h2] at hcc
      exact absurd hcc.symm (hne c' h2)
    · rw [h2, Function.update_self, Function.update_of_ne h1] at hcc
      exact absurd hcc (hne c h1)
    · rw [Function.update_of_ne h1, Function.update_of_ne h2] at hcc
      exact h.single c c' hcc
  · rw [hthread]
    by_cases hut : u = t
    · subst hut
      rw [thread_modify_self]
      exact .running ((hcurrent u).mpr (.inl rfl)) (fun hr => ((hmem u).mp hr).2 rfl) hrun.1 rfl
    · rw [thread_modify_of_ne hut]
      have hr : (u ∈ (s₁.take cpu t).ready) = (u ∈ s₁.ready) := by
        rw [hmem, and_iff_left hut]
      rw [hr]
      by_cases huo : u = old
      · subst huo
        have hc : (s₁.take cpu t).Current u = False := by
          rw [hcurrent]
          simp [hut]
        have hl : ((s₁.take cpu t).lock = some u) = False := by
          rw [hlock']
          simp
        rw [hc, hl]
        exact hplace
      · have hc : (s₁.take cpu t).Current u = s.Current u := by
          rw [hcurrent]
          simp [hut, huo]
        have hl : ((s₁.take cpu t).lock = some u) = (s.lock = some u) := by
          rw [hlock']
          simp [huo]
        rw [hc, hl, hready u huo, hothers u huo]
        exact h.place u
  · obtain ⟨huo, hl⟩ := (hlock' u).mp hu
    obtain ⟨hc, hp⟩ := h.lock u hl
    have hut : u ≠ t := by
      rintro rfl
      exact hrun.2 huo hc
    refine ⟨(hcurrent u).mpr (.inr ⟨huo, hc⟩), ?_⟩
    rw [hthread, thread_modify_of_ne hut, hothers u huo]
    exact hp

theorem putAway_of_ne (s : Sys) {old : Nat} (hu : u ≠ old) :
    (s.putAway old).thread u = s.thread u := by
  unfold putAway
  split
  · split
    · exact thread_modify_of_ne hu
    · change (s.modify old fun th => { th with tWtype := .twcpu }).thread u = _
      exact thread_modify_of_ne hu
  · rfl

namespace Sched

theorem dispatchTo (h : Sched s) (ht : t ∈ (s.putAway (s.curthread cpu)).ready) :
    Sched (s.dispatchTo cpu t) := by
  unfold Sys.dispatchTo
  dsimp only
  generalize hold : s.curthread cpu = old at ht ⊢
  obtain ⟨hr, hc, hl⟩ := switched_frame (s.putAway old) old
  obtain ⟨h1, h2, h3⟩ := switched_old (s.putAway old) old
  have hothers : ∀ u, u ≠ old → ((s.putAway old).switched old).thread u = s.thread u :=
    fun u hu => (switched_of_ne _ hu).trans (putAway_of_ne s hu)
  have hframe : (s.putAway old).curthread = s.curthread ∧ (s.putAway old).lock = s.lock := by
    unfold putAway
    split
    · split <;> exact ⟨rfl, rfl⟩
    · exact ⟨rfl, rfl⟩
  rw [hframe.2] at hl
  cases h.place old with
  | running _ hrd hs hw =>
    have hput : s.putAway old = { s.modify old fun th => { th with tWtype := .twcpu } with
        ready := s.ready ++ [old] } := by
      unfold putAway
      rw [if_pos hs, if_neg (not_not_intro hw)]
      rfl
    have hready : (s.putAway old).ready = s.ready ++ [old] := by rw [hput]
    have hth : (s.putAway old).thread old = { s.thread old with tWtype := .twcpu } := by
      rw [hput]
      change (s.modify old fun th => { th with tWtype := .twcpu }).thread old = _
      exact thread_modify_self
    refine h.handOver hold (hc.trans hframe.1) hothers ?_ ?_ ?_ hl (hr ▸ ht)
    · rw [hr, hready]
      refine List.nodup_append.mpr ⟨h.nodup, List.nodup_singleton _, ?_⟩
      intro u hu v hv
      rw [List.mem_singleton.mp hv]
      exact fun he => hrd (he ▸ hu)
    · intro u hu
      rw [hr, hready]
      simp [hu]
    · refine .ready id ?_ ?_ ?_
      · rw [hr, hready]
        simp
      · rw [h1, hth]
        exact hs
      · rw [h2, hth]
  | switching _ hrd hs hw hp _ =>
    have hput : s.putAway old = s.modify old fun th => { th with tState := .tssleep } := by
      unfold putAway
      rw [if_pos hs, if_pos (by simp [hw])]
    have hready : (s.putAway old).ready = s.ready := by rw [hput]; rfl
    have hth : (s.putAway old).thread old = { s.thread old with tState := .tssleep } := by
      rw [hput]
      exact thread_modify_self
    refine h.handOver hold (hc.trans hframe.1) hothers ?_ ?_ ?_ hl (hr ▸ ht)
    · rw [hr, hready]
      exact h.nodup
    · intro u _
      rw [hr, hready]
    · refine .asleep id ?_ (.inl ?_) ?_ ?_
      · rw [hr, hready]
        exact hrd
      · rw [h1, hth]
      · rw [h2, hth]
        exact hw
      · apply h3
        rw [hth]
        exact hp
  | ready hcur => exact absurd ⟨cpu, hold⟩ hcur
  | asleep hcur => exact absurd ⟨cpu, hold⟩ hcur
  | stopped hcur => exact absurd ⟨cpu, hold⟩ hcur

/-- The dispatcher resumes a thread that runs with interrupts disabled. -/
theorem switched (h : Sched s) (hc : s.Current t) (hw : (s.thread t).tWtype = .tnowait) :
    Sched (s.switched t) := by
  obtain ⟨hr, hcur, hl⟩ := switched_frame s t
  obtain ⟨h1, h2, -⟩ := switched_old s t
  have hlock : ∀ u, (s.switched t).lock = some u → u ≠ t ∧ s.lock = some u := by
    intro u hu
    rw [hl] at hu
    split at hu
    · cases hu
    · refine ⟨?_, hu⟩
      rintro rfl
      exact ‹¬_› hu
  have hcurrent : ∀ u, (s.switched t).Current u = s.Current u := by
    intro u
    unfold Current
    rw [hcur]
  refine ⟨hr ▸ h.nodup, hcur ▸ h.single, fun u => ?_, fun u hu => ?_⟩
  · rw [hcurrent, hr]
    by_cases hut : u = t
    · subst hut
      cases h.place u with
      | running _ hrd hs _ => exact .running hc hrd (h1.trans hs) (h2.trans hw)
      | switching _ _ _ hw' => rw [hw] at hw'; cases hw'
      | ready hcn => exact absurd hc hcn
      | asleep hcn => exact absurd hc hcn
      | stopped hcn => exact absurd hc hcn
    · rw [switched_of_ne s hut, hl]
      have hp := h.place u
      split
      next hlt =>
        rw [hlt] at hp
        have hne : (some t = some u) = (none = some u) := by
          simp [Ne.symm hut]
        rw [hne] at hp
        exact hp
      next => exact hp
  · obtain ⟨hut, hul⟩ := hlock u hu
    rw [hcurrent, switched_of_ne s hut]
    exact h.lock u hul

/-! ## Signals -/

/-- A sleeping thread is made ready, or a stopped one no longer waits. -/
theorem interrupt (h : Sched s) (hw : (s.thread t).tWtype = .twevent) :
    Sched (if (s.thread t).tState = .tssleep then s.setrq t
      else s.modify t fun th => { th with tWtype := .tnowait }) := by
  have hpost := h.post t
  unfold Sys.post at hpost
  rw [if_pos hw] at hpost
  cases h.place t with
  | running _ _ _ hw' => rw [hw] at hw'; cases hw'
  | ready _ _ _ hw' => rw [hw] at hw'; cases hw'
  | stopped _ _ _ hw' => rw [hw] at hw'; cases hw'
  | switching _ _ hs =>
    rw [hs] at hpost ⊢
    exact hpost
  | asleep _ _ hs =>
    rcases hs with hs | hs
    · rw [hs] at hpost ⊢
      exact hpost
    · rw [hs] at hpost ⊢
      exact hpost

theorem signal (h : Sched s) (t : Nat) : Sched (s.signal t) := by
  unfold Sys.signal
  cases h.place t with
  | running _ _ _ hw => rw [hw]; exact h
  | ready _ _ _ hw => rw [hw]; exact h
  | stopped _ _ _ hw => rw [hw]; exact h
  | switching _ _ _ hw =>
    rw [hw]
    dsimp only
    split
    · exact h.interrupt hw
    · exact h
  | asleep _ _ _ hw =>
    rw [hw]
    dsimp only
    split
    · exact h.interrupt hw
    · exact h

theorem stop (h : Sched s) (hl : s.lock = none) (t : Nat) (usermode : Bool) :
    Sched (s.stop t usermode) := by
  unfold Sys.stop
  cases h.place t with
  | running _ _ _ hw => rw [hw]; exact h
  | stopped _ _ _ hw => rw [hw]; exact h
  | switching _ _ _ hw _ hk =>
    rw [hw]
    dsimp only
    rw [hl] at hk
    split
    next hc => cases hk hc.1
    next => exact h
  | asleep hc hr _ hw hp =>
    rw [hw]
    dsimp only
    split
    · exact h.modify (.asleep hc hr (.inr rfl) hw hp) fun hk => (h.lock t hk).2
    · exact h
  | ready hc hr _ hw =>
    rw [hw]
    dsimp only
    split
    · have hmem : ∀ u, u ∈ s.ready.erase t ↔ u ∈ s.ready ∧ u ≠ t := fun u => by
        rw [h.nodup.mem_erase_iff]
        exact and_comm
      have hth : ∀ u, u ≠ t → (((s.modify t fun th => { th with tWtype := .tnowait }).modify t
          fun th => { th with tState := .tsstop }).thread u) = s.thread u := fun u hu =>
        (thread_modify_of_ne hu).trans (thread_modify_of_ne hu)
      refine ⟨h.nodup.erase t, h.single, fun u => ?_, fun u hu => ?_⟩
      · change Situation (((s.modify t fun th => { th with tWtype := .tnowait }).modify t
          fun th => { th with tState := .tsstop }).thread u) (s.Current u) (u ∈ s.ready.erase t)
          (s.lock = some u)
        by_cases hut : u = t
        · subst hut
          rw [thread_modify_self, thread_modify_self]
          refine .stopped hc (fun hm => ((hmem u).mp hm).2 rfl) ?_ rfl
          exact ⟨TState.noConfusion, TState.noConfusion⟩
        · have hr' : (u ∈ s.ready.erase t) = (u ∈ s.ready) := by
            rw [hmem, and_iff_left hut]
          rw [hth u hut, hr']
          exact h.place u
      · have hn : none = some u := hl.symm.trans hu
        cases hn
    · exact h

theorem cont (h : Sched s) (t : Nat) (sig : Bool) : Sched (s.cont t sig) := by
  have hlock : ¬s.Current t → ∀ p : Pc, s.lock = some t → p = .switching := fun hc p hk =>
    absurd (h.lock t hk).1 hc
  unfold Sys.cont
  by_cases hs : (s.thread t).tState = .tsstop
  · rw [if_pos hs]
    cases h.place t with
    | running _ _ hs' => rw [hs] at hs'; cases hs'
    | switching _ _ hs' => rw [hs] at hs'; cases hs'
    | ready _ _ hs' => rw [hs] at hs'; cases hs'
    | stopped hc hr _ hw =>
      rw [if_pos hw]
      exact h.setrq hc hr
    | asleep hc hr _ hw hp =>
      rw [if_neg (by simp [hw])]
      split
      · split
        · exact h.setrq hc hr
        · exact h.modify (.asleep hc hr (.inl rfl) hw hp) (hlock hc _)
      · exact h.modify (.asleep hc hr (.inl rfl) hw hp) (hlock hc _)
  · rw [if_neg hs]
    exact h

theorem stopThread (h : Sched s) (hl : s.lock = none)
    (hw : (s.thread (s.curthread cpu)).tWtype = .tnowait) (ht : t ∈ s.ready) :
    Sched (s.stopThread cpu t) := by
  unfold Sys.stopThread
  generalize hold : s.curthread cpu = old at hw ⊢
  refine h.handOver hold rfl (fun u hu => thread_modify_of_ne hu) h.nodup (fun _ _ => Iff.rfl) ?_ ?_ ht
  · rw [thread_modify_self]
    refine .stopped id ?_ ⟨TState.noConfusion, TState.noConfusion⟩ hw
    cases h.place old with
    | running _ hr => exact hr
    | switching _ hr => exact hr
    | ready hc => exact absurd ⟨cpu, hold⟩ hc
    | asleep hc => exact absurd ⟨cpu, hold⟩ hc
    | stopped hc => exact absurd ⟨cpu, hold⟩ hc
  · rw [hl]
    exact hl

end Sched

end Sys

end Aix413.Events
