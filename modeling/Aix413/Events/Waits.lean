import Aix413.Events.Removal

namespace Aix413.Events

open Dispatch (TState WType)

/-! ## The waits there are -/

/-- `wait t` is the event that `t` waits for, and `due t` the result that it has to return. -/
structure Waits where
  wait : Nat → Option Nat
  due : Nat → Int

namespace Waits

variable (g : Waits)

def asserted (t e : Nat) : Waits :=
  ⟨Function.update g.wait t (some e), Function.update g.due t 0⟩

def ended (t : Nat) (result : Int) : Waits :=
  ⟨Function.update g.wait t none, Function.update g.due t result⟩

def endedAll (e : Nat) (result : Int) : Waits :=
  ⟨fun t => if g.wait t = some e then none else g.wait t,
    fun t => if g.wait t = some e then result else g.due t⟩

variable {g} {t u e : Nat} {r : Int}

theorem asserted_of_ne (h : u ≠ t) :
    (g.asserted t e).wait u = g.wait u ∧ (g.asserted t e).due u = g.due u :=
  ⟨Function.update_of_ne h _ _, Function.update_of_ne h _ _⟩

theorem asserted_self : (g.asserted t e).wait t = some e := Function.update_self _ _ _

theorem ended_of_ne (h : u ≠ t) : (g.ended t r).wait u = g.wait u ∧ (g.ended t r).due u = g.due u :=
  ⟨Function.update_of_ne h _ _, Function.update_of_ne h _ _⟩

theorem ended_self : (g.ended t r).wait t = none ∧ (g.ended t r).due t = r :=
  ⟨Function.update_self _ _ _, Function.update_self _ _ _⟩

end Waits

/-- What a signal leaves in `t_result` of a thread that takes itself off its list. -/
def interrupted (sig : Bool) : Int := if sig then threadInterrupted else 0

def Pc.result : Pc → Int
  | .removing _ sig => interrupted sig
  | _ => 0

/-- A thread knows the result that is due, and does not sleep for nothing. -/
structure Fine (th : Thread) (w : Option Nat) (d : Int) : Prop where
  result : w = none → th.tResult = d
  waiting : w ≠ none → th.tResult = th.pc.result
  removing : ∀ e sig, th.pc = .removing e sig → w = none ∨ w = some e
  leaving : th.pc = .leaving → w = none
  asleep : th.tWtype = .twevent → w ≠ none

/-- What the scheduling changes of a thread. -/
structure Keeps (th th' : Thread) : Prop where
  link : th'.tEventlist = th.tEventlist
  chan : th'.tWchan = th.tWchan
  result : th'.tResult = th.tResult
  pc : th'.pc = th.pc ∨ th.pc = .switching ∧ th'.pc = .blocked
  wtype : th'.tWtype = .twevent → th.tWtype = .twevent

namespace Keeps

variable {th th' th'' : Thread} {w : Option Nat} {d : Int}

theorem refl (th : Thread) : Keeps th th := ⟨rfl, rfl, rfl, .inl rfl, id⟩

theorem trans (h : Keeps th th') (h' : Keeps th' th'') : Keeps th th'' := by
  refine ⟨h'.link.trans h.link, h'.chan.trans h.chan, h'.result.trans h.result, ?_, h.wtype ∘ h'.wtype⟩
  rcases h.pc with hp | ⟨hp, hp'⟩
  · rw [← hp]
    exact h'.pc
  · rcases h'.pc with hq | ⟨hq, -⟩
    · exact .inr ⟨hp, hq.trans hp'⟩
    · rw [hp'] at hq
      cases hq

theorem fine (h : Keeps th th') (hf : Fine th w d) : Fine th' w d := by
  refine ⟨fun hw => h.result.trans (hf.result hw), fun hw => ?_, fun e sig hp => ?_, fun hp => ?_,
    fun hw => hf.asleep (h.wtype hw)⟩
  · rw [h.result, hf.waiting hw]
    rcases h.pc with hp | ⟨hp, hp'⟩
    · rw [hp]
    · rw [hp, hp']
      rfl
  · rcases h.pc with hq | ⟨-, hq⟩
    · exact hf.removing e sig (hq ▸ hp)
    · rw [hq] at hp
      cases hp
  · rcases h.pc with hq | ⟨-, hq⟩
    · exact hf.leaving (hq ▸ hp)
    · rw [hq] at hp
      cases hp

end Keeps

namespace Sys

variable {s s' s'' : Sys} {g : Waits} {L : Nat → List Nat} {t u e cpu : Nat} {r : Int}
  {f : Thread → Thread}

/-! ## Operations that leave the lists alone -/

/-- The event lists and the results stay. -/
structure Quiet (s s' : Sys) : Prop where
  word : s'.word = s.word
  thread : ∀ t, Keeps (s.thread t) (s'.thread t)

namespace Quiet

theorem refl (s : Sys) : Quiet s s := ⟨rfl, fun _ => .refl _⟩

theorem trans (h : Quiet s s') (h' : Quiet s' s'') : Quiet s s'' :=
  ⟨h'.word.trans h.word, fun t => (h.thread t).trans (h'.thread t)⟩

theorem modify (h : Keeps (s.thread t) (f (s.thread t))) : Quiet s (s.modify t f) := by
  refine ⟨rfl, fun u => ?_⟩
  by_cases hu : u = t
  · subst hu
    rw [thread_modify_self]
    exact h
  · rw [thread_modify_of_ne hu]
    exact .refl _

theorem setrq (s : Sys) (t : Nat) : Quiet s (s.setrq t) :=
  let h : Quiet s (s.modify t fun th => { th with tState := .tsrun, tWtype := .twcpu }) :=
    .modify ⟨rfl, rfl, rfl, .inl rfl, nofun⟩
  ⟨h.word, h.thread⟩

theorem setState (s : Sys) (t : Nat) (st : TState) :
    Quiet s (s.modify t fun th => { th with tState := st }) :=
  .modify ⟨rfl, rfl, rfl, .inl rfl, id⟩

theorem setWtype (s : Sys) (t : Nat) {w : WType} (hw : w ≠ .twevent) :
    Quiet s (s.modify t fun th => { th with tWtype := w }) :=
  .modify ⟨rfl, rfl, rfl, .inl rfl, fun he => absurd he hw⟩

theorem switched (s : Sys) (old : Nat) : Quiet s (s.switched old) := by
  rw [switched_eq]
  split
  · have h : Quiet s (s.setPc old .blocked) := .modify ⟨rfl, rfl, rfl, .inr ⟨‹_›, rfl⟩, id⟩
    exact ⟨h.word, h.thread⟩
  · exact ⟨rfl, fun _ => .refl _⟩

theorem putAway (s : Sys) (old : Nat) : Quiet s (s.putAway old) := by
  unfold Sys.putAway
  split
  · split
    · exact setState s old _
    · have h := setWtype s old (w := .twcpu) (by simp)
      exact ⟨h.word, h.thread⟩
  · exact refl s

theorem take (s : Sys) (cpu t : Nat) : Quiet s (s.take cpu t) :=
  let h := setWtype { s with ready := s.ready.erase t } t (w := .tnowait) (by simp)
  ⟨h.word, h.thread⟩

theorem dispatchTo (s : Sys) (cpu t : Nat) : Quiet s (s.dispatchTo cpu t) :=
  ((putAway s _).trans (switched _ _)).trans (take _ cpu t)

theorem stopThread (s : Sys) (cpu t : Nat) : Quiet s (s.stopThread cpu t) :=
  (setState s _ _).trans (take _ cpu t)

theorem signal (s : Sys) (t : Nat) : Quiet s (s.signal t) := by
  unfold Sys.signal
  split
  · exact refl s
  · exact refl s
  · exact refl s
  · split
    · split
      · exact setrq s t
      · exact setWtype s t (by simp)
    · exact refl s

theorem stop (s : Sys) (t : Nat) (usermode : Bool) : Quiet s (s.stop t usermode) := by
  unfold Sys.stop
  split
  · exact refl s
  · split
    · have h := setWtype s t (w := .tnowait) (by simp)
      have h' : Quiet s { s.modify t fun th => { th with tWtype := .tnowait } with
        ready := s.ready.erase t } := ⟨h.word, h.thread⟩
      exact h'.trans (setState _ t _)
    · exact refl s
  · split
    · exact setState s t _
    · exact refl s

theorem cont (s : Sys) (t : Nat) (sig : Bool) : Quiet s (s.cont t sig) := by
  unfold Sys.cont
  split
  · split
    · exact setrq s t
    · split
      · split
        · exact setrq s t
        · exact setState s t _
      · exact setState s t _
  · exact refl s

end Quiet

/-! ## The invariant -/

/-- The scheduling is sound, and the event lists are those of the threads that wait. -/
structure Sound (s : Sys) (g : Waits) : Prop where
  sched : Sched s
  lists : ∃ L, Lists s L ∧ ∀ e t, t ∈ L e ↔ g.wait t = some e
  fine : ∀ t, Fine (s.thread t) (g.wait t) (g.due t)

/-- A thread that runs in a critical section under `proc_base_lock`. -/
structure Runs (s : Sys) (t : Nat) : Prop where
  current : s.Current t
  state : (s.thread t).tState = .tsrun
  wtype : (s.thread t).tWtype = .tnowait
  lock : s.lock = none

theorem Lists.congr (h : Lists s L) (hl : s'.links = s.links) (hw : s'.word = s.word)
    (hc : ∀ t, (s'.thread t).tWchan = (s.thread t).tWchan) : Lists s' L := by
  refine ⟨fun e => ?_, fun e => ?_, h.apart, ?_, fun e t ht => ?_, h.slot⟩
  · rw [hl]
    exact h.ring e
  · rw [hw]
    exact h.word e
  · rw [hl]
    exact h.off
  · exact (hc t).trans (h.chan e t ht)

namespace Sound

theorem quiet (h : Sound s g) (hs : Sched s') (hq : Quiet s s') : Sound s' g := by
  obtain ⟨L, hL, hm⟩ := h.lists
  refine ⟨hs, ⟨L, hL.congr ?_ hq.word fun t => (hq.thread t).chan, hm⟩, fun t => ?_⟩
  · exact funext fun t => (hq.thread t).link
  · exact (hq.thread t).fine (h.fine t)

/-- A thread goes on, without a change to its list. -/
theorem modify (h : Sound s g) (hs : Sched { s.modify t f with lock := s'.lock })
    (hs' : s' = { s.modify t f with lock := s'.lock })
    (hl : (f (s.thread t)).tEventlist = (s.thread t).tEventlist)
    (hc : (f (s.thread t)).tWchan = (s.thread t).tWchan)
    (hf : Fine (f (s.thread t)) (g.wait t) (g.due t)) : Sound s' g := by
  obtain ⟨L, hL, hm⟩ := h.lists
  rw [hs']
  refine ⟨hs, ⟨L, hL.congr (links_keep hl) rfl fun u => ?_, hm⟩, fun u => ?_⟩
  · change ((s.modify t f).thread u).tWchan = _
    by_cases hu : u = t
    · subst hu
      rw [thread_modify_self, hc]
    · rw [thread_modify_of_ne hu]
  · change Fine ((s.modify t f).thread u) _ _
    by_cases hu : u = t
    · subst hu
      rw [thread_modify_self]
      exact hf
    · rw [thread_modify_of_ne hu]
      exact h.fine u

theorem on_list (h : Sound s g) (t : Nat) : (s.thread t).tEventlist = none ↔ g.wait t = none := by
  obtain ⟨L, hL, hm⟩ := h.lists
  constructor
  · intro hn
    cases hw : g.wait t with
    | none => rfl
    | some e =>
      obtain ⟨u, hu⟩ := (hL.ring e).next_isSome ((hm e t).mpr hw)
      have hno := hn.symm.trans hu
      cases hno
  · intro hn
    refine hL.off t fun e ht => ?_
    have hno := hn.symm.trans ((hm e t).mp ht)
    cases hno

theorem chan (h : Sound s g) (hw : g.wait t = some e) : (s.thread t).tWchan = some e := by
  obtain ⟨L, hL, hm⟩ := h.lists
  exact hL.chan e t ((hm e t).mpr hw)

end Sound

end Sys

end Aix413.Events
