import Aix413.Events.Blocking

namespace Aix413.Events

open Dispatch (TState WType)

/-- The critical sections. A processor number comes before the thread that it takes. -/
inductive Act
  | assertWait (t e : Nat) (interruptible : Bool)
  | block (t : Nat) (sig sig' : Bool)
  | resume (t : Nat) (sig : Bool)
  | remove (t : Nat)
  | leave (t : Nat)
  | wakeup (e : Nat) (result : Int)
  | wakeupOne (e : Nat)
  | clearWait (t : Nat) (result : Int)
  | clearEnd (c : Clear)
  | dispatch (cpu t : Nat)
  | resumeDisabled (cpu : Nat)
  | stopThread (cpu t : Nat)
  | signal (t : Nat)
  | stop (t : Nat) (usermode : Bool)
  | cont (t : Nat) (sig : Bool)
  | setPri (t : Nat) (pri : UInt8)

namespace Sys

variable {s s' s₀ : Sys} {g : Waits} {t u e cpu : Nat} {r : Int} {a : Act}

/-- No event list is longer than the thread table, so its loops get that many turns. -/
def act (s : Sys) : Act → Option Sys
  | .assertWait t e interruptible => some (s.eAssertWait t e interruptible)
  | .block t sig sig' => s.eBlockThread t sig sig'
  | .resume t sig => s.blockResume t sig
  | .remove t => s.blockRemove t
  | .leave t => some (s.setPc t .outside)
  | .wakeup e result => s.kwakeup nthread e result
  | .wakeupOne e => (s.eWakeupOne nthread e).map Prod.fst
  | .clearWait t result => s.eClearWait t result
  | .clearEnd c => s.clearEnd c
  | .dispatch cpu t => some (s.dispatchTo cpu t)
  | .resumeDisabled cpu => some (s.switched (s.curthread cpu))
  | .stopThread cpu t => some (s.stopThread cpu t)
  | .signal t => some (s.signal t)
  | .stop t usermode => some (s.stop t usermode)
  | .cont t sig => some (s.cont t sig)
  | .setPri t pri => some (s.modify t fun th => { th with tPri := pri })

/-- Who may do it, and when. All but the dispatcher take `proc_base_lock`. -/
def Allowed (s : Sys) : Act → Prop
  | .assertWait t _ _ => s.Runs t ∧ (s.thread t).pc = .outside ∧ (s.thread t).tEventlist = none ∧
      t < nthread
  | .block t _ _ => s.Runs t ∧ (s.thread t).pc = .outside
  | .resume t _ => s.Runs t ∧ (s.thread t).pc = .blocked
  | .remove t => s.Runs t ∧ ∃ e sig, (s.thread t).pc = .removing e sig
  | .leave t => (s.thread t).pc = .leaving
  | .wakeup _ _ | .wakeupOne _ | .clearWait _ _ | .signal _ | .stop _ _ | .cont _ _ => s.lock = none
  | .clearEnd c => s.lock = none ∧ c ∈ s.clears
  | .dispatch cpu t => t ∈ (s.putAway (s.curthread cpu)).ready
  | .resumeDisabled cpu => (s.thread (s.curthread cpu)).tWtype = .tnowait
  | .stopThread cpu t => s.lock = none ∧ (s.thread (s.curthread cpu)).tWtype = .tnowait ∧
      ((s.thread (s.curthread cpu)).pc = .outside ∨ (s.thread (s.curthread cpu)).pc = .blocked) ∧
      t ∈ s.ready
  | .setPri _ _ => True

/-- A look finds no signal for a thread that is off its list with another result, and a thread that
`e_clear_wait` takes off a list is still there. -/
def Meets (s : Sys) : Act → Prop
  | .block t sig sig' => (s.thread t).tEventlist = none → (s.thread t).tassertsig = true →
      sig = true ∨ sig' = true → (s.thread t).tResult = threadInterrupted
  | .resume t sig => (s.thread t).tEventlist = none → (s.thread t).tassertsig = true →
      sig = true → (s.thread t).tResult = threadInterrupted
  | .clearEnd c => (s.thread c.t).tEventlist ≠ none ∧ (s.thread c.t).tWchan = some c.e
  | _ => True

end Sys

namespace Waits

/-- Which waits begin and end, and with what result. -/
def after (g : Waits) (s : Sys) : Act → Waits
  | .assertWait t e _ => g.asserted t e
  | .remove t =>
    match (s.thread t).pc with
    | .removing _ sig => if g.wait t = none then g else g.ended t (interrupted sig)
    | _ => g
  | .wakeup e result => g.endedAll e result
  | .wakeupOne e =>
    match s.eWakeupOne nthread e with
    | some (_, some w) => g.ended w threadAwakened
    | _ => g
  | .clearEnd c => if g.wait c.t = some c.e then g.ended c.t c.result else g
  | _ => g

def start (s : Sys) : Waits := ⟨fun _ => none, fun t => (s.thread t).tResult⟩

end Waits

namespace Sys

variable {s s' s₀ : Sys} {g : Waits} {t u e cpu : Nat} {r : Int} {a : Act}

/-- Nobody waits for an event. -/
structure Start (s : Sys) : Prop where
  sched : Sched s
  word : ∀ e, s.word e = none
  off : ∀ t, (s.thread t).tEventlist = none
  pc : ∀ t, (s.thread t).pc = .outside
  clears : s.clears = []

/-- Every interleaving of critical sections that meet a condition. -/
inductive Reaches (C : Sys → Act → Prop) (s₀ : Sys) : Sys → Waits → Prop
  | start : Reaches C s₀ s₀ (Waits.start s₀)
  | step {s s' : Sys} {g : Waits} {a : Act} (h : Reaches C s₀ s g) (ha : s.Allowed a) (hc : C s a)
      (hs : s.act a = some s') : Reaches C s₀ s' (g.after s a)

/-- No event wait is lost. -/
structure Kept (s : Sys) (g : Waits) : Prop where
  lists : ∃ L, Lists s L ∧ ∀ e t, t ∈ L e ↔ g.wait t = some e
  awake : ∀ t, g.wait t = none → (s.thread t).tState ≠ .tssleep ∧ (s.thread t).tWtype ≠ .twevent
  runs : ∀ t, (s.thread t).tState = .tsrun → s.Current t ∨ t ∈ s.ready
  left : ∀ t, (s.thread t).pc = .leaving →
    (s.thread t).tEventlist = none ∧ (s.thread t).tResult = g.due t
  ready : s.ready.Nodup ∧ ∀ t ∈ s.ready, ¬s.Current t ∧ (s.thread t).tWtype = .twcpu

theorem Start.sound (h : Start s) : Sound s (Waits.start s) := by
  refine ⟨h.sched, ⟨fun _ => [], ⟨fun _ => trivial, h.word, nofun, fun t _ => h.off t, nofun, nofun⟩, ?_⟩,
    fun t => ⟨fun _ => rfl, fun hn => absurd rfl hn, fun _ _ _ => .inl rfl, fun _ => rfl, ?_⟩⟩
  · intro e t
    exact ⟨nofun, nofun⟩
  · intro hw
    have hp := h.pc t
    cases h.sched.place t with
    | running _ _ _ hw' => cases hw.symm.trans hw'
    | ready _ _ _ hw' => cases hw.symm.trans hw'
    | stopped _ _ _ hw' => cases hw.symm.trans hw'
    | switching _ _ _ _ hp' => cases hp.symm.trans hp'
    | asleep _ _ _ _ hp' => cases hp.symm.trans hp'

theorem Sound.kept (h : Sound s g) : Kept s g := by
  refine ⟨h.lists, fun t hw => ?_, fun t hr => ?_, fun t hp => ?_, h.sched.nodup, fun t ht => ?_⟩
  · have hne : (s.thread t).tWtype ≠ .twevent := fun he => (h.fine t).asleep he hw
    refine ⟨fun hs => ?_, hne⟩
    cases h.sched.place t with
    | running _ _ hs' => cases hs.symm.trans hs'
    | switching _ _ hs' => cases hs.symm.trans hs'
    | ready _ _ hs' => cases hs.symm.trans hs'
    | asleep _ _ _ hw' => exact hne hw'
    | stopped _ _ hs' => exact hs'.2 hs
  · cases h.sched.place t with
    | running hc => exact .inl hc
    | switching hc => exact .inl hc
    | ready _ hm => exact .inr hm
    | asleep _ _ hs => rcases hs with hs | hs <;> cases hr.symm.trans hs
    | stopped _ _ hs => exact absurd hr hs.1
  · have hw := (h.fine t).leaving hp
    exact ⟨(h.on_list t).mpr hw, (h.fine t).result hw⟩
  · cases h.sched.place t with
    | running _ hn => exact absurd ht hn
    | switching _ hn => exact absurd ht hn
    | ready hc _ _ hw => exact ⟨hc, hw⟩
    | asleep _ hn => exact absurd ht hn
    | stopped _ hn => exact absurd ht hn

theorem Sound.leave (h : Sound s g) (hp : (s.thread t).pc = .leaving) :
    Sound (s.setPc t .outside) g := by
  have hw := (h.fine t).leaving hp
  have hsched : Sched (s.setPc t .outside) := by
    refine h.sched.modify ?_ fun hl => ?_
    · cases h.sched.place t with
      | running hc hr hs hw => exact .running hc hr hs hw
      | ready hc hr hs hw => exact .ready hc hr hs hw
      | stopped hc hr hs hw => exact .stopped hc hr hs hw
      | switching _ _ _ _ hp' => cases hp.symm.trans hp'
      | asleep _ _ _ _ hp' => cases hp.symm.trans hp'
    · cases hp.symm.trans (h.sched.lock t hl).2
  refine h.modify (f := fun th => { th with pc := .outside }) hsched rfl rfl rfl ?_
  rw [hw]
  exact Fine.awake (fun he => (h.fine t).asleep he hw) ((h.fine t).result hw)

/-- Each critical section that meets the condition comes to an end. -/
theorem Sound.act (h : Sound s g) (ha : s.Allowed a) (hm : s.Meets a) :
    ∃ s', s.act a = some s' ∧ Sound s' (g.after s a) := by
  cases a with
  | assertWait t e i =>
    obtain ⟨hr, hp, hn, ht⟩ := ha
    exact ⟨_, rfl, h.eAssertWait hr hp hn ht e i⟩
  | block t sig sig' => exact h.eBlockThread ha.1 ha.2 hm
  | resume t sig => exact h.blockResume ha.1 ha.2 hm
  | remove t =>
    obtain ⟨hr, e, sig, hp⟩ := ha
    have hg : g.after s (.remove t) = if g.wait t = none then g else g.ended t (interrupted sig) := by
      unfold Waits.after
      dsimp only
      rw [hp]
    rw [hg]
    exact h.blockRemove hr hp
  | leave t => exact ⟨_, rfl, h.leave ha⟩
  | wakeup e r => exact h.kwakeup e r
  | wakeupOne e =>
    unfold Sys.act Waits.after
    dsimp only
    rcases h.eWakeupOne e with ⟨w, s', hcall, -, -, hs⟩ | ⟨hcall, -⟩
    · rw [hcall]
      exact ⟨s', rfl, hs⟩
    · rw [hcall]
      exact ⟨s, rfl, h⟩
  | clearWait t r => exact h.eClearWait t r
  | clearEnd c =>
    have hw : g.wait c.t = some c.e := by
      cases hw : g.wait c.t with
      | none => exact absurd ((h.on_list c.t).mpr hw) hm.1
      | some e => exact (h.chan hw).symm.trans hm.2
    obtain ⟨s', hcall, hs⟩ := h.clearEnd hw
    refine ⟨s', hcall, ?_⟩
    change Sound s' (if g.wait c.t = some c.e then g.ended c.t c.result else g)
    rwa [if_pos hw]
  | dispatch cpu t => exact ⟨_, rfl, h.quiet (h.sched.dispatchTo ha) (.dispatchTo s cpu t)⟩
  | resumeDisabled cpu =>
    exact ⟨_, rfl, h.quiet (h.sched.switched ⟨cpu, rfl⟩ ha) (.switched s _)⟩
  | stopThread cpu t =>
    obtain ⟨hl, hw, -, ht⟩ := ha
    exact ⟨_, rfl, h.quiet (h.sched.stopThread hl hw ht) (.stopThread s cpu t)⟩
  | signal t => exact ⟨_, rfl, h.quiet (h.sched.signal t) (.signal s t)⟩
  | stop t usermode => exact ⟨_, rfl, h.quiet (h.sched.stop ha t usermode) (.stop s t usermode)⟩
  | cont t sig => exact ⟨_, rfl, h.quiet (h.sched.cont t sig) (.cont s t sig)⟩
  | setPri t pri =>
    exact ⟨_, rfl, h.quiet (h.sched.modify_same rfl rfl rfl id) (.modify ⟨rfl, rfl, rfl, .inl rfl, id⟩)⟩

theorem Reaches.sound (h₀ : Start s₀) (h : Reaches Meets s₀ s g) : Sound s g := by
  induction h with
  | start => exact h₀.sound
  | step h ha hm hs ih =>
    obtain ⟨s', hs', hsound⟩ := ih.act ha hm
    obtain rfl := Option.some_inj.mp (hs.symm.trans hs')
    exact hsound

/-! ## Runs on two processors -/

end Sys

end Aix413.Events
