import Aix413.Dispatch.Preparing
import Aix413.Dispatch.Scans

namespace Aix413.Dispatch.Sys

open Lib.LinkedRing

variable {s s' : Sys} {Q : Nat → List Nat} {t u l cpu old : Nat}

/-! ## One call of dispatch -/

/-- The wait thread of a processor: of the lowest priority, never waiting, and no owner of a lock. -/
structure Waiter (s : Sys) (cpu w : Nat) : Prop where
  mayRun : s.mayRun cpu w
  lvl : (s.thread w).lvl = pidle
  ready : (s.thread w).tWtype = .twcpu ∨
    s.curthread cpu = w ∧ (s.thread w).tState = .tsrun ∧ (s.thread w).tWtype = .tnowait
  owner : ∀ t, s.WaitsForLock t → (s.thread t).tLockowner ≠ w

/-- A ready thread that may run on the processor. -/
def ReadyOn (s : Sys) (cpu t : Nat) : Prop := (s.thread t).tWtype = .twcpu ∧ s.mayRun cpu t

/-- The current thread is interrupted with interrupts disabled. -/
def Disabled (s : Sys) (cpu : Nat) : Prop :=
  (s.thread (s.curthread cpu)).tState = .tsrun ∧ (s.thread (s.curthread cpu)).tWtype = .tnowait ∧
    (s.thread (s.curthread cpu)).intpri ≠ intbase

/-- With enough rounds for its scans, dispatch gives this. -/
def Returns (s : Sys) (cpu : Nat) (s' : Sys) (t : Nat) : Prop :=
  ∃ N, ∀ n, N ≤ n → s.dispatch n cpu = some (s', t)

theorem Returns.unique {s₁ s₂ : Sys} {t₁ t₂ : Nat} (h₁ : s.Returns cpu s₁ t₁)
    (h₂ : s.Returns cpu s₂ t₂) : s₁ = s₂ ∧ t₁ = t₂ := by
  obtain ⟨N₁, h₁⟩ := h₁
  obtain ⟨N₂, h₂⟩ := h₂
  have he := (h₁ (max N₁ N₂) (Nat.le_max_left _ _)).symm.trans (h₂ _ (Nat.le_max_right _ _))
  exact Prod.mk.inj (Option.some_inj.mp he)

theorem prepare_none (h : s.prepare (s.curthread cpu) = none) : s.Disabled cpu := by
  unfold prepare at h
  split at h
  · split at h
    · cases h
    · split at h
      · exact ⟨‹_›, not_not.mp ‹_›, ‹_›⟩
      · cases h
  · cases h

/-- What the ready queue is before the choice. -/
theorem Ready.prepare (h : Ready s Q) (hs : s.prepare old = some s') :
    (∃ Q', Ready s' Q') ∧ s'.fixed = s.fixed ∧
    ∀ u, (s'.thread u).tWtype = .twcpu → (s.thread u).tWtype = .twcpu ∨
      u = old ∧ (s.thread u).tState = .tsrun ∧ (s.thread u).tWtype = .tnowait := by
  unfold Sys.prepare at hs
  split at hs
  · rename_i hrun
    split at hs
    · obtain rfl := Option.some_inj.mp hs
      exact ⟨h.goToSleep old, goToSleep_fixed s old, fun u hu => .inl (goToSleep_queued hu)⟩
    · rename_i hw
      have hw := not_not.mp hw
      split at hs
      · cases hs
      · obtain rfl := Option.some_inj.mp hs
        refine ⟨h.putBack (by simp [hw]), putBack_fixed s old, fun u hu => ?_⟩
        rw [putBack_wtype] at hu
        by_cases huo : u = old
        · subst huo
          exact .inr ⟨rfl, hrun, hw⟩
        · rw [if_neg huo] at hu
          exact .inl hu
  · obtain rfl := Option.some_inj.mp hs
    exact ⟨⟨Q, h⟩, rfl, fun u hu => .inl hu⟩

theorem Waiter.prepare {w : Nat} (hw : s.Waiter cpu w) (hs : s.prepare (s.curthread cpu) = some s') :
    (s'.thread w).tWtype = .twcpu ∧ (s'.thread w).lvl = pidle := by
  unfold Sys.prepare at hs
  split at hs
  · split at hs
    · rename_i hrun hno
      obtain rfl := Option.some_inj.mp hs
      obtain ⟨hk, hl⟩ := goToSleep_keeps (hw.owner (s.curthread cpu))
      rw [hk, hl]
      refine ⟨hw.ready.resolve_right ?_, hw.lvl⟩
      rintro ⟨rfl, -, hn⟩
      exact hno hn
    · split at hs
      · cases hs
      · obtain rfl := Option.some_inj.mp hs
        rw [putBack_wtype, putBack_lvl]
        refine ⟨?_, hw.lvl⟩
        by_cases ho : w = s.curthread cpu
        · rw [if_pos ho]
        · rw [if_neg ho]
          exact hw.ready.resolve_right fun hc => ho hc.1.symm
  · rename_i hrun
    obtain rfl := Option.some_inj.mp hs
    refine ⟨hw.ready.resolve_right ?_, hw.lvl⟩
    rintro ⟨rfl, hr, -⟩
    exact hrun hr

/-- The chosen thread leaves its queue. -/
theorem Ready.take (h : Ready s Q) (ht : t ∈ Q l) :
    Ready (s.take cpu l t) (Function.update Q l ((Q l).erase t)) := by
  have h1 : Ready (s.modify t fun th => { th with tAffinity := some cpu }) Q :=
    h.modify_same rfl rfl rfl rfl
  exact (h1.leave ht).congr rfl rfl rfl rfl rfl rfl

theorem take_bare_of_ne (s : Sys) (cpu l : Nat) (hu : u ≠ t) : (s.take cpu l t).bare u = s.bare u := by
  have h1 : (s.modify t fun th => { th with tAffinity := some cpu }).bare u = s.bare u :=
    bare_modify_of_ne hu
  have h2 := congrFun (unlink_bare (s.modify t fun th => { th with tAffinity := some cpu }) t l) u
  have h3 : (s.take cpu l t).bare u = (((s.modify t fun th =>
      { th with tAffinity := some cpu }).unlink t l).modify t fun th =>
      { th with tWtype := .tnowait }).bare u := rfl
  rw [h3, bare_modify_of_ne hu, h2, h1]

theorem take_fields (s : Sys) (cpu l t : Nat) : (s.take cpu l t).curthread cpu = t ∧
    ((s.take cpu l t).thread t).tWtype = .tnowait ∧
    ((s.take cpu l t).thread t).lvl = (s.thread t).lvl ∧
    ((s.take cpu l t).thread t).tCpuid = (s.thread t).tCpuid ∧
    (s.take cpu l t).Before = s.Before := by
  have hb := congrFun (unlink_bare (s.modify t fun th => { th with tAffinity := some cpu }) t l) t
  have h3 : (s.take cpu l t).thread t = (((s.modify t fun th =>
      { th with tAffinity := some cpu }).unlink t l).modify t fun th =>
      { th with tWtype := .tnowait }).thread t := rfl
  have hf := unlink_fixed (s.modify t fun th => { th with tAffinity := some cpu }) t l
  obtain ⟨-, ha, hp⟩ := unlink_stamp (s.modify t fun th => { th with tAffinity := some cpu }) t l
  refine ⟨Function.update_self _ _ _, ?_, ?_, ?_, ?_⟩
  · rw [h3, thread_modify_self]
  · rw [h3, modify_lvl rfl, lvl_of_bare hb, modify_lvl rfl]
  · have hc := fixed_cpuid hf t
    rw [thread_modify_self] at hc
    rw [h3, thread_modify_self]
    exact hc
  · funext u v
    exact propext (Linked.before_congr ⟨congrFun ha u, congrFun hp u⟩ ⟨congrFun ha v, congrFun hp v⟩)

/-- How the chosen thread stands to the other ready threads. -/
def Favoured (s s' : Sys) (cpu t : Nat) : Prop :=
  (∀ u, s'.ReadyOn cpu u → (s'.thread t).lvl ≤ (s'.thread u).lvl ∧
    ((s'.thread u).lvl = (s'.thread t).lvl → s'.Before t u)) ∨
  (s.thread t).tAffinity = some cpu ∧ ∀ u, s'.ReadyOn cpu u →
    ((s'.thread t).lvl : Int) ≤ (s'.thread u).lvl + s.affinityPriodelta

theorem find?_before {R : Nat → Nat → Prop} {P : Nat → Bool} {q : List Nat} (hq : q.Pairwise R)
    (ht : q.find? P = some t) (hu : u ∈ q) (hP : P u = true) (hne : u ≠ t) : R t u := by
  obtain ⟨-, l₁, l₂, rfl, hl₁⟩ := List.find?_eq_some_iff_append.mp ht
  rcases List.mem_append.mp hu with h | h
  · have hn := hl₁ u h
    rw [hP] at hn
    cases hn
  · have h := (List.mem_cons.mp h).resolve_left hne
    exact (List.pairwise_cons.mp (List.pairwise_append.mp hq).2.1).1 u h

theorem Ready.take_favoured (h : Ready s Q) (hc : Choice s Q cpu l t) :
    (s.take cpu l t).mayRun cpu t ∧ Favoured s (s.take cpu l t) cpu t := by
  obtain ⟨-, hw, hl, hcpu, hbe⟩ := take_fields s cpu l t
  have hlt : (s.thread t).lvl = l := ((h.mem l t).mp hc.candidate.1).2
  have hother : ∀ u, (s.take cpu l t).ReadyOn cpu u →
      u ≠ t ∧ s.Candidate Q cpu ((s.take cpu l t).thread u).lvl u := by
    intro u hu
    have hne : u ≠ t := by
      rintro rfl
      have hno := hw.symm.trans hu.1
      cases hno
    have hb := take_bare_of_ne s cpu l hne
    refine ⟨hne, (h.mem _ u).mpr ⟨(wtype_of_bare hb).symm.trans hu.1, (lvl_of_bare hb).symm⟩,
      (mayRun_of_bare hb).mp hu.2⟩
  constructor
  · unfold mayRun
    rw [hcpu]
    exact hc.candidate.2
  · rcases hc.favoured with ⟨hfirst, hhead⟩ | ⟨ha, hdelta⟩
    · refine .inl fun u hu => ?_
      obtain ⟨hne, hcand⟩ := hother u hu
      rw [hl, hlt]
      refine ⟨hfirst _ u hcand, fun he => ?_⟩
      rw [he] at hcand
      rw [hbe]
      exact find?_before (h.linked.order l) hhead hcand.1 (decide_eq_true hcand.2) hne
    · refine .inr ⟨ha, fun u hu => ?_⟩
      obtain ⟨hne, hcand⟩ := hother u hu
      rw [hl, hlt]
      exact hdelta _ u hcand

/-- A call of dispatch where the wait thread is ready. -/
theorem Ready.dispatch (h : Ready s Q) {w : Nat} (hw : s.Waiter cpu w) :
    ∃ s' t, s.Returns cpu s' t ∧ (∃ Q', Ready s' Q') ∧ s'.curthread cpu = t ∧
      (s.Disabled cpu ∧ s' = s ∧ t = s.curthread cpu ∨
        ((s.thread t).tWtype = .twcpu ∨ t = s.curthread cpu ∧ (s.thread t).tState = .tsrun ∧
          (s.thread t).tWtype = .tnowait) ∧ s'.mayRun cpu t ∧ Favoured s s' cpu t) := by
  cases hp : s.prepare (s.curthread cpu) with
  | none =>
    refine ⟨s, s.curthread cpu, ⟨0, fun n _ => ?_⟩, ⟨Q, h⟩, rfl, .inl ⟨prepare_none hp, rfl, rfl⟩⟩
    unfold Sys.dispatch
    rw [hp]
  | some s₁ =>
    obtain ⟨⟨Q', h'⟩, hfix, hq⟩ := h.prepare hp
    obtain ⟨hwq, hwl⟩ := hw.prepare hp
    have hcand : s₁.Candidate Q' cpu pidle w := by
      refine ⟨(h'.mem pidle w).mpr ⟨hwq, hwl⟩, ?_⟩
      unfold mayRun
      rw [fixed_cpuid hfix]
      exact hw.mayRun
    obtain ⟨l, t, hc, N, hN⟩ := h'.linked.select hcand
    obtain ⟨hmay, hfav⟩ := h'.take_favoured hc
    have hready : (s₁.thread t).tWtype = .twcpu := ((h'.mem l t).mp hc.candidate.1).1
    refine ⟨s₁.take cpu l t, t, ⟨N, fun n hn => ?_⟩, ⟨_, h'.take hc.candidate.1⟩,
      (take_fields s₁ cpu l t).1, .inr ⟨hq t hready, hmay, ?_⟩⟩
    · unfold Sys.dispatch
      rw [hp]
      dsimp only
      rw [hN n hn]
      rfl
    · unfold Favoured at hfav ⊢
      rw [fixed_affinity hfix, fixed_delta hfix] at hfav
      exact hfav

/-! ## Runs -/

/-- What happens outside the four routines: a queued thread keeps its priority, its links and its
place, and nothing else comes into the queues. -/
structure Elsewhere (s s' : Sys) : Prop where
  threadRun : s'.threadRun = s.threadRun
  runMask : s'.runMask = s.runMask
  queued : ∀ t, (s'.thread t).tWtype = .twcpu ↔ (s.thread t).tWtype = .twcpu
  kept : ∀ t, (s.thread t).tWtype = .twcpu → (s'.thread t).tPri = (s.thread t).tPri ∧
    s'.next t = s.next t ∧ s'.prior t = s.prior t
  ghost : s'.clock = s.clock ∧ s'.arrived = s.arrived ∧ s'.place = s.place

inductive Step (s : Sys) : Sys → Prop
  | setrq (t : Nat) (p : Bool) (w : Place) (h : (s.thread t).tWtype ≠ .twcpu) : Step s (s.setrq t p w)
  | remrq (t : Nat) : Step s (s.remrq t)
  | prioRequeue (t : Nat) (prio : Int) : Step s (s.prioRequeue t prio)
  | dispatch (cpu w t : Nat) (s' : Sys) (hw : s.Waiter cpu w) (h : s.Returns cpu s' t) : Step s s'
  | elsewhere (s' : Sys) (h : Elsewhere s s') : Step s s'

/-- No thread is ready yet. -/
structure Start (s : Sys) : Prop where
  threadRun : ∀ l, s.threadRun l = none
  runMask : ∀ l, s.runMask l = false
  thread : ∀ t, (s.thread t).tWtype ≠ .twcpu

inductive Reaches : Sys → Prop
  | start {s : Sys} (h : Start s) : Reaches s
  | step {s s' : Sys} (hr : Reaches s) (h : Step s s') : Reaches s'

theorem Ready.elsewhere (h : Ready s Q) (he : Elsewhere s s') : Ready s' Q := by
  obtain ⟨hc, ha, hp⟩ := he.ghost
  refine ⟨h.linked.congr ?_ ?_ he.threadRun he.runMask hc ha hp, ?_⟩
  · exact fun l t ht => (he.kept t ((h.mem l t).mp ht).1).2.1
  · exact fun l t ht => (he.kept t ((h.mem l t).mp ht).1).2.2
  · intro l t
    rw [h.mem l t, he.queued t]
    apply and_congr_right
    intro hw
    have hpri := (he.kept t hw).1
    unfold Thread.lvl
    rw [hpri]

theorem Ready.step (h : Ready s Q) (hs : Step s s') : ∃ Q', Ready s' Q' := by
  cases hs with
  | setrq t p w ht => exact ⟨_, h.setrq ht p w⟩
  | remrq t => exact ⟨_, h.remrq t⟩
  | prioRequeue t prio => exact h.prioRequeue t prio
  | dispatch cpu w t _ hw hr =>
    obtain ⟨s₁, t₁, h₁, hQ, -⟩ := h.dispatch hw
    obtain ⟨rfl, -⟩ := hr.unique h₁
    exact hQ
  | elsewhere _ he => exact ⟨Q, h.elsewhere he⟩

theorem Start.ready (h : Start s) : Ready s fun _ => [] := by
  refine ⟨⟨fun l => ⟨List.nodup_nil, List.isChain_nil⟩, h.threadRun, ?_, ?_, ?_, ?_⟩, ?_⟩
  · intro l
    simp [h.runMask l]
  · intro l l' t ht
    cases ht
  · exact fun l => List.Pairwise.nil
  · intro l t ht
    cases ht
  · exact fun l t => iff_of_false List.not_mem_nil fun hc => h.thread t hc.1

theorem Reaches.ready (h : Reaches s) : ∃ Q, Ready s Q := by
  induction h with
  | start h => exact ⟨_, h.ready⟩
  | step _ hs ih =>
    obtain ⟨Q, hQ⟩ := ih
    exact hQ.step hs

/-- In every run each level's queue is a ring of exactly the threads that wait with its priority,
and a call of dispatch ends with the most favoured thread, or resumes the current thread where it
runs with interrupts disabled. -/
theorem dispatch_most_favoured (h : Reaches s) :
    (∃ Q : Nat → List Nat, ∀ l, IsRing s.next s.prior (Q l) ∧ s.threadRun l = (Q l).getLast? ∧
      (s.runMask l = true ↔ Q l ≠ []) ∧
      ∀ t, t ∈ Q l ↔ (s.thread t).tWtype = .twcpu ∧ (s.thread t).lvl = l) ∧
    ∀ cpu w, s.Waiter cpu w → ∃ s' t, s.Returns cpu s' t ∧ Reaches s' ∧ s'.curthread cpu = t ∧
      (s.Disabled cpu ∧ s' = s ∧ t = s.curthread cpu ∨
        ((s.thread t).tWtype = .twcpu ∨ t = s.curthread cpu ∧ (s.thread t).tState = .tsrun ∧
          (s.thread t).tWtype = .tnowait) ∧ s'.mayRun cpu t ∧ Favoured s s' cpu t) := by
  obtain ⟨Q, hQ⟩ := h.ready
  refine ⟨⟨Q, fun l => ⟨hQ.linked.ring l, hQ.linked.tail l, hQ.linked.mask l, hQ.mem l⟩⟩, ?_⟩
  intro cpu w hw
  obtain ⟨s', t, hret, -, hcur, hres⟩ := hQ.dispatch hw
  exact ⟨s', t, hret, h.step (.dispatch cpu w t s' hw hret), hcur, hres⟩

/-! ## Three threads on one processor -/

/-- Thread 0 runs, with interrupts disabled where `off` is set. Thread 1 is more favoured, and thread 2 is the wait
thread. -/
def three (off : Bool) : Sys where
  thread t :=
    { tState := .tsrun, tWtype := .tnowait, tSuspend := 0, tpmreqstop := false, tpmstop := false,
      tProcp := t, tTicks := 0, tPrior := 0, tNext := 0, tCpuid := none, tAffinity := none,
      tPri := if t = 0 then 60 else if t = 1 then 10 else 127, tPolicy := .schedOther, tLockpri := 0,
      tLockowner := 0, tBoosted := 0, utyield := false, intpri := if off then 0 else intbase }
  threadRun _ := none
  runMask _ := false
  pSchedPri _ := 127
  curthread _ := 0
  ficd _ := false
  runrun := 0
  ncpus := 1
  affinityPriodelta := 0
  affinityScandelta := 3
  affinitySkipboosted := false
  timeslice := 1
  clock := 0
  arrived _ := 0
  place _ := .rqtail

def threeReady (off : Bool) : Sys := ((three off).setrq 1 true .rqtail).setrq 2 false .rqtail

theorem threeReady_wtype (off : Bool) (t : Nat) : ((threeReady off).thread t).tWtype =
    if t = 1 ∨ t = 2 then .twcpu else .tnowait := by
  by_cases h2 : t = 2
  · subst h2
    cases off <;> rfl
  · have hb := setrq_bare_of_ne (s := (three off).setrq 1 true .rqtail) (p := false)
      (w := .rqtail) h2
    rw [threeReady, wtype_of_bare hb]
    by_cases h1 : t = 1
    · subst h1
      cases off <;> rfl
    · rw [wtype_of_bare (setrq_bare_of_ne h1), if_neg (by tauto)]
      rfl

theorem threeReady_reaches (off : Bool) : Reaches (threeReady off) := by
  have h0 : Reaches (three off) := .start ⟨fun _ => rfl, fun _ => rfl, fun _ => WType.noConfusion⟩
  have h1 := h0.step (.setrq 1 true .rqtail WType.noConfusion)
  exact h1.step (.setrq 2 false .rqtail (by cases off <;> decide))

theorem threeReady_waiter (off : Bool) : (threeReady off).Waiter 0 2 := by
  refine ⟨by cases off <;> exact .inl rfl, by cases off <;> rfl, .inl (threeReady_wtype off 2), ?_⟩
  intro t ht
  unfold WaitsForLock at ht
  rw [threeReady_wtype] at ht
  exfalso
  split at ht <;> rcases ht with h | h <;> cases h

theorem dispatch_most_favoured_three : ∃ s' t, (threeReady false).Returns 0 s' t ∧
    s'.mayRun 0 t ∧ Favoured (threeReady false) s' 0 t := by
  obtain ⟨s', t, hret, -, -, hres⟩ := (dispatch_most_favoured (threeReady_reaches false)).2 0 2
    (threeReady_waiter false)
  rcases hres with ⟨⟨-, -, hoff⟩, -⟩ | ⟨-, hmay, hfav⟩
  · exact absurd rfl hoff
  · exact ⟨s', t, hret, hmay, hfav⟩

/-- Thread 0 is resumed, though thread 1 is ready and more favoured. -/
theorem disabled_thread_resumed : ∃ s cpu w s' t u, Reaches s ∧ s.Waiter cpu w ∧
    s.Returns cpu s' t ∧ s'.ReadyOn cpu u ∧
    ((s'.thread u).lvl : Int) + s.affinityPriodelta < (s'.thread t).lvl := by
  refine ⟨threeReady true, 0, 2, threeReady true, 0, 1, threeReady_reaches true, threeReady_waiter true,
    ⟨0, fun n _ => rfl⟩, ⟨rfl, .inl rfl⟩, ?_⟩
  decide

end Aix413.Dispatch.Sys
