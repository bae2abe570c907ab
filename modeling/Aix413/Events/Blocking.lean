import Aix413.Events.Waits

namespace Aix413.Events

open Dispatch (TState WType)

namespace Sys

variable {s s' : Sys} {g : Waits} {L : Nat → List Nat} {t u e : Nat} {r : Int} {f f' : Thread → Thread}

theorem modify_modify : (s.modify t f).modify t f' = s.modify t fun th => f' (f th) := by
  unfold modify
  dsimp only
  rw [Function.update_idem, Function.update_self]

theorem modify_congr (h : f (s.thread t) = f' (s.thread t)) : s.modify t f = s.modify t f' := by
  unfold modify
  rw [h]

theorem modify_lock (l : Option Nat) : ({ s.modify t f with lock := l } : Sys).modify t f' =
    { s.modify t fun th => f' (f th) with lock := l } :=
  congrArg (fun s' : Sys => { s' with lock := l }) (modify_modify (s := s) (t := t) (f := f))

theorem Runs.not_ready (hr : Runs s t) (h : Sched s) : t ∉ s.ready := by
  cases h.place t with
  | running _ hn => exact hn
  | switching _ hn => exact hn
  | ready hc => exact absurd hr.current hc
  | asleep hc => exact absurd hr.current hc
  | stopped hc => exact absurd hr.current hc

/-- The running thread does something, and nobody holds `proc_base_lock` then. -/
theorem Runs.modify (hr : Runs s t) (h : Sched s) (hs : (f (s.thread t)).tState = (s.thread t).tState)
    (hw : (f (s.thread t)).tWtype = (s.thread t).tWtype) : Sched (s.modify t f) := by
  refine h.modify (.running hr.current (hr.not_ready h) (hs.trans hr.state) (hw.trans hr.wtype)) ?_
  intro hl
  have hno := hr.lock.symm.trans hl
  cases hno

/-- The running thread goes into the switch, with the lock where the sleep is interruptible. -/
theorem Runs.sleep (hr : Runs s t) (h : Sched s) (hs : (f (s.thread t)).tState = (s.thread t).tState)
    (hw : (f (s.thread t)).tWtype = .twevent) (hp : (f (s.thread t)).pc = .switching) :
    Sched { s.modify t f with lock := if (f (s.thread t)).twakeonsig then some t else none } := by
  refine ⟨h.nodup, h.single, fun u => ?_, fun u hu => ?_⟩
  · change Situation ((s.modify t f).thread u) (s.Current u) (u ∈ s.ready)
      ((if (f (s.thread t)).twakeonsig then some t else none) = some u)
    by_cases hut : u = t
    · subst hut
      rw [thread_modify_self]
      exact .switching hr.current (hr.not_ready h) (hs.trans hr.state) hw hp fun hk => if_pos hk
    · have hl : ((if (f (s.thread t)).twakeonsig then some t else none) = some u) =
          (s.lock = some u) := by
        rw [hr.lock]
        split <;> simp [Ne.symm hut]
      rw [thread_modify_of_ne hut, hl]
      exact h.place u
  · change (if (f (s.thread t)).twakeonsig then some t else none) = some u at hu
    split at hu
    · obtain rfl := Option.some_inj.mp hu
      refine ⟨hr.current, ?_⟩
      change ((s.modify t f).thread t).pc = _
      rw [thread_modify_self]
      exact hp
    · cases hu

/-! ## The waiting threads -/

theorem mem_added (hm : ∀ e t, t ∈ L e ↔ g.wait t = some e) (ht : g.wait t = none) (e' u : Nat) :
    u ∈ Function.update L e (L e ++ [t]) e' ↔ (g.asserted t e).wait u = some e' := by
  by_cases hu : u = t
  · subst hu
    rw [Waits.asserted_self]
    by_cases he : e' = e
    · subst he
      simp
    · rw [Function.update_of_ne he, hm, ht]
      simp [Ne.symm he]
  · rw [Waits.asserted_of_ne hu |>.1, ← hm]
    by_cases he : e' = e
    · subst he
      rw [Function.update_self, List.mem_append, List.mem_singleton, or_iff_left hu]
    · rw [Function.update_of_ne he]

theorem mem_removed (hm : ∀ e t, t ∈ L e ↔ g.wait t = some e) (hnd : (L e).Nodup)
    (ht : g.wait t = some e) (e' u : Nat) :
    u ∈ Function.update L e ((L e).erase t) e' ↔ (g.ended t r).wait u = some e' := by
  by_cases hu : u = t
  · subst hu
    rw [Waits.ended_self.1]
    by_cases he : e' = e
    · subst he
      rw [Function.update_self]
      simp [hnd.not_mem_erase]
    · rw [Function.update_of_ne he, hm, ht]
      simp [Ne.symm he]
  · rw [(Waits.ended_of_ne hu).1, ← hm]
    by_cases he : e' = e
    · subst he
      rw [Function.update_self, List.mem_erase_of_ne hu]
    · rw [Function.update_of_ne he]

theorem mem_emptied (hm : ∀ e t, t ∈ L e ↔ g.wait t = some e) (e' u : Nat) :
    u ∈ Function.update L e [] e' ↔ (g.endedAll e r).wait u = some e' := by
  change _ ↔ (if g.wait u = some e then none else g.wait u) = some e'
  by_cases he : e' = e
  · subst he
    rw [Function.update_self]
    by_cases hw : g.wait u = some e'
    · rw [if_pos hw]
      simp
    · rw [if_neg hw]
      simp [hw]
  · rw [Function.update_of_ne he, hm]
    by_cases hw : g.wait u = some e
    · rw [if_pos hw, hw]
      simp [Ne.symm he]
    · rw [if_neg hw]

theorem Fine.link {th : Thread} {w : Option Nat} {d : Int} (h : Fine th w d) (k : Option Nat) :
    Fine { th with tEventlist := k } w d :=
  ⟨h.result, h.waiting, h.removing, h.leaving, h.asleep⟩

/-- A thread that has been taken off its list with the result that is due. -/
theorem Fine.awake {th : Thread} (hw : th.tWtype ≠ .twevent) (hr : th.tResult = r) : Fine th none r :=
  ⟨fun _ => hr, fun h => absurd rfl h, fun _ _ _ => .inl rfl, fun _ => rfl, fun h => absurd h hw⟩

namespace Sound

/-! ## A wait is asserted -/

theorem eAssertWait (h : Sound s g) (hr : Runs s t) (hp : (s.thread t).pc = .outside)
    (hn : (s.thread t).tEventlist = none) (ht : t < nthread) (e : Nat) (i : Bool) :
    Sound (s.eAssertWait t e i) (g.asserted t e) := by
  have hw := (h.on_list t).mp hn
  obtain ⟨L, hL, hm⟩ := h.lists
  have hoff : ∀ e, t ∉ L e := by
    intro e' he
    have hno := hw.symm.trans ((hm e' t).mp he)
    cases hno
  obtain ⟨k, hself⟩ := Lists.eAssertWait_self s t e i
  obtain ⟨-, hrdy, hcur, -, hlock⟩ := Lists.eAssertWait_rest s t e i
  refine ⟨h.sched.congr hrdy hcur hlock fun u => ?_, ⟨_, hL.eAssertWait hoff ht e i, ?_⟩, fun u => ?_⟩
  · by_cases hu : u = t
    · subst hu
      rw [hself]
      exact ⟨rfl, rfl, rfl, id⟩
    · obtain ⟨k, hk⟩ := Lists.eAssertWait_of_ne s e i hu
      rw [hk]
      exact ⟨rfl, rfl, rfl, id⟩
  · exact mem_added hm hw
  · by_cases hu : u = t
    · subst hu
      rw [hself, Waits.asserted_self]
      refine ⟨nofun, fun _ => ?_, fun e' sig hp' => ?_, fun hp' => ?_, fun _ => nofun⟩
      · change 0 = (s.thread u).pc.result
        rw [hp]
        rfl
      · cases hp.symm.trans hp'
      · cases hp.symm.trans hp'
    · obtain ⟨k, hk⟩ := Lists.eAssertWait_of_ne s e i hu
      obtain ⟨h1, h2⟩ := g.asserted_of_ne (e := e) hu
      rw [hk, h1, h2]
      exact Fine.link (h.fine u) k

/-! ## Wake-ups -/

theorem kwakeup (h : Sound s g) (e : Nat) (r : Int) :
    ∃ s', s.kwakeup nthread e r = some s' ∧ Sound s' (g.endedAll e r) := by
  obtain ⟨L, hL, hm⟩ := h.lists
  have hsched : Sched (s.setWord e none) := h.sched.congr rfl rfl rfl fun _ => ⟨rfl, rfl, rfl, id⟩
  refine ⟨_, hL.kwakeup (Lists.length_le (hL.ring e).nodup (hL.slot e)), hsched.awakenAll r (L e),
    ⟨_, hL.awakenAll h.sched e r, mem_emptied hm⟩, fun u => ?_⟩
  change Fine _ (if g.wait u = some e then none else g.wait u) (if g.wait u = some e then r else g.due u)
  by_cases hu : g.wait u = some e
  · rw [if_pos hu, if_pos hu]
    obtain ⟨⟨st, w, hth⟩, hw⟩ := awakenAll_of_mem (r := r) hsched ((hm e u).mpr hu) (hL.ring e).nodup
    exact Fine.awake hw (by rw [hth])
  · rw [if_neg hu, if_neg hu, awakenAll_of_notMem fun hu' => hu ((hm e u).mp hu')]
    exact h.fine u

theorem eWakeupOne (h : Sound s g) (e : Nat) :
    (∃ w s', s.eWakeupOne nthread e = some (s', some w) ∧ g.wait w = some e ∧
      (∀ u, g.wait u = some e → (s.thread w).tPri ≤ (s.thread u).tPri) ∧
      Sound s' (g.ended w threadAwakened)) ∨
    s.eWakeupOne nthread e = some (s, none) ∧ ∀ u, g.wait u ≠ some e := by
  obtain ⟨L, hL, hm⟩ := h.lists
  rcases hL.eWakeupOne h.sched e with ⟨hnil, hcall⟩ | ⟨w, s', hone, hcall⟩
  · refine .inr ⟨hcall _, fun u hu => ?_⟩
    have hu := (hm e u).mpr hu
    rw [hnil] at hu
    cases hu
  · have hw := (hm e w).mp hone.mem
    have hlen := Lists.length_le (hL.ring e).nodup (hL.slot e)
    refine .inl ⟨w, s', hcall _ hlen, hw, fun u hu => hone.most u ((hm e u).mpr hu), hone.sched,
      ⟨_, hone.lists, mem_removed hm (hL.ring e).nodup hw⟩, fun u => ?_⟩
    by_cases hu : u = w
    · subst hu
      rw [Waits.ended_self.1, Waits.ended_self.2]
      obtain ⟨st, wt, hself⟩ := hone.self
      exact Fine.awake hone.awake (by rw [hself])
    · obtain ⟨k, hk⟩ := hone.other u hu
      obtain ⟨h1, h2⟩ := g.ended_of_ne (r := threadAwakened) hu
      rw [h1, h2, hk]
      exact Fine.link (h.fine u) k

/-! ## A thread is taken off its list -/

theorem removeEList (h : Sound s g) (hw : g.wait t = some e) : ∃ s', s.removeEList t e = some s' ∧
    Off s s' t ∧ ∃ L, Lists s' L ∧ ∀ e' u, u ∈ L e' ↔ (g.ended t r).wait u = some e' := by
  obtain ⟨L, hL, hm⟩ := h.lists
  obtain ⟨s', hcall, hL', hoff⟩ := hL.removeEList ((hm e t).mpr hw)
  exact ⟨s', hcall, hoff, _, hL', mem_removed hm (hL.ring e).nodup hw⟩

theorem blockRemove (h : Sound s g) (hr : Runs s t) {sig : Bool}
    (hp : (s.thread t).pc = .removing e sig) : ∃ s', s.blockRemove t = some s' ∧
    Sound s' (if g.wait t = none then g else g.ended t (interrupted sig)) := by
  have hcall : s.blockRemove t = (s.removeEList t e).bind fun s => some (s.setPc t .leaving) := by
    unfold Sys.blockRemove
    rw [hp]
    rfl
  have hset : ∀ {s' : Sys}, Off s s' t → Sched (s'.setPc t .leaving) ∧
      (s'.setPc t .leaving).thread t =
        { s.thread t with tEventlist := none, tWchan := none, pc := .leaving } ∧
      (s'.setPc t .leaving).links = s'.links ∧
      (∀ u, ((s'.setPc t .leaving).thread u).tWchan = (s'.thread u).tWchan) ∧
      ∀ u, u ≠ t → (s'.setPc t .leaving).thread u = s'.thread u := by
    intro s' hoff
    have hr' : Runs s' t := by
      obtain ⟨-, hcur, -, hlock⟩ := hoff.rest
      obtain ⟨c, hc⟩ := hr.current
      refine ⟨⟨c, (congrFun hcur c).trans hc⟩, ?_, ?_, hlock.trans hr.lock⟩
      · rw [hoff.self]
        exact hr.state
      · rw [hoff.self]
        exact hr.wtype
    refine ⟨hr'.modify (hoff.sched h.sched) rfl rfl, ?_, links_keep rfl, fun u => ?_,
      fun u hu => thread_modify_of_ne hu⟩
    · rw [setPc, thread_modify_self, hoff.self]
    · by_cases hu : u = t
      · subst hu
        rw [setPc, thread_modify_self]
      · rw [setPc, thread_modify_of_ne hu]
  have hfine : ∀ {s' : Sys} {u : Nat} {w : Option Nat} {d : Int}, Off s s' t → u ≠ t → Fine (s.thread u) w d →
      Fine (s'.thread u) w d := by
    intro s' u w d hoff hu hf
    obtain ⟨k, hk⟩ := hoff.other u hu
    rw [hk]
    exact Fine.link hf k
  have hawake : (s.thread t).tWtype ≠ .twevent := by
    rw [hr.wtype]
    nofun
  rcases (h.fine t).removing e sig hp with hw | hw
  · rw [if_pos hw]
    obtain ⟨L, hL, hm⟩ := h.lists
    obtain ⟨s', hs', hL', hoff⟩ := hL.removeEList_off (t := t) (fun e' he => by
      have hno := hw.symm.trans ((hm e' t).mp he)
      cases hno) e
    obtain ⟨h1, h2, h3, h4, h5⟩ := hset hoff
    refine ⟨s'.setPc t .leaving, by rw [hcall, hs']; rfl, h1, ⟨L, hL'.congr h3 rfl h4, hm⟩, fun u => ?_⟩
    by_cases hu : u = t
    · subst hu
      rw [h2, hw]
      exact Fine.awake hawake ((h.fine u).result hw)
    · rw [h5 u hu]
      exact hfine hoff hu (h.fine u)
  · rw [if_neg (by simp [hw])]
    obtain ⟨s', hs', hoff, L, hL', hm⟩ := h.removeEList (r := interrupted sig) hw
    obtain ⟨h1, h2, h3, h4, h5⟩ := hset hoff
    refine ⟨s'.setPc t .leaving, by rw [hcall, hs']; rfl, h1, ⟨L, hL'.congr h3 rfl h4, hm⟩, fun u => ?_⟩
    by_cases hu : u = t
    · subst hu
      rw [h2, Waits.ended_self.1, Waits.ended_self.2]
      refine Fine.awake hawake ?_
      change (s.thread u).tResult = _
      rw [(h.fine u).waiting (by simp [hw]), hp]
      rfl
    · obtain ⟨h6, h7⟩ := g.ended_of_ne (r := interrupted sig) hu
      rw [h5 u hu, h6, h7]
      exact hfine hoff hu (h.fine u)

/-! ## e_clear_wait -/

theorem clearEnd (h : Sound s g) {c : Clear} (hw : g.wait c.t = some c.e) :
    ∃ s', s.clearEnd c = some s' ∧ Sound s' (g.ended c.t c.result) := by
  have h₀ : Sound { s with clears := s.clears.erase c } g :=
    h.quiet (h.sched.congr rfl rfl rfl fun _ => ⟨rfl, rfl, rfl, id⟩) ⟨rfl, fun _ => .refl _⟩
  obtain ⟨s₁, hcall, hoff, L, hL, hm⟩ := h₀.removeEList (r := c.result) hw
  refine ⟨((s₁.modify c.t fun th => { th with tResult := c.result }).clearFlags c.t).post c.t, ?_, ?_⟩
  · unfold Sys.clearEnd
    rw [hcall]
    rfl
  have hcleared : (s₁.modify c.t fun th => { th with tResult := c.result }).clearFlags c.t =
      s₁.modify c.t fun th =>
        { th with tResult := c.result, twakeonsig := false, tassertsig := false } := by
    unfold clearFlags
    rw [modify_modify]
  rw [hcleared]
  have hsched : Sched (s₁.modify c.t fun th =>
      { th with tResult := c.result, twakeonsig := false, tassertsig := false }) :=
    (hoff.sched h₀.sched).modify_same rfl rfl rfl nofun
  obtain ⟨st, w, hself⟩ := post_self (s₁.modify c.t fun th =>
    { th with tResult := c.result, twakeonsig := false, tassertsig := false }) c.t
  have hne : ∀ u, u ≠ c.t → ((s₁.modify c.t fun th =>
      { th with tResult := c.result, twakeonsig := false, tassertsig := false }).post c.t).thread u =
      s₁.thread u := fun u hu => (post_of_ne hu).trans (thread_modify_of_ne hu)
  rw [thread_modify_self] at hself
  refine ⟨hsched.post c.t, ⟨L, hL.congr ?_ (post_word _ _) fun u => ?_, hm⟩, fun u => ?_⟩
  · funext u
    by_cases hu : u = c.t
    · rw [hu, links, hself]
      rfl
    · rw [links, hne u hu]
      rfl
  · by_cases hu : u = c.t
    · rw [hu, hself]
    · rw [hne u hu]
  · by_cases hu : u = c.t
    · rw [hu, Waits.ended_self.1, Waits.ended_self.2]
      exact Fine.awake (post_wtype hsched c.t) (by rw [hself])
    · obtain ⟨k, hk⟩ := hoff.other u hu
      obtain ⟨h1, h2⟩ := g.ended_of_ne (r := c.result) hu
      rw [hne u hu, hk, h1, h2]
      exact Fine.link (h.fine u) k

/-- The word of the list comes from `t_wchan`, and that is there. -/
theorem eClearWait (h : Sound s g) (t : Nat) (r : Int) : ∃ s', s.eClearWait t r = some s' ∧
    Sound s' g := by
  unfold Sys.eClearWait
  cases hw : g.wait t with
  | none =>
    rw [if_pos ((h.on_list t).mpr hw)]
    exact ⟨s, rfl, h⟩
  | some e =>
    rw [if_neg fun hn => by simp [(h.on_list t).mp hn] at hw, h.chan hw]
    refine ⟨_, rfl, h.quiet ?_ ⟨rfl, fun _ => .refl _⟩⟩
    exact h.sched.congr rfl rfl rfl fun _ => ⟨rfl, rfl, rfl, id⟩

/-! ## e_block_thread -/

/-- The thread after its looks for signals. -/
def looked (sig : Bool) (pc : Pc) (th : Thread) : Thread :=
  { th with tResult := if sig then threadInterrupted else th.tResult
            twakeonsig := false, tassertsig := false, pc := pc }

theorem finish_off (sig : Bool) (hn : (s.thread t).tEventlist = none) :
    s.finish t sig = some (s.modify t (looked sig .leaving)) := by
  unfold Sys.finish
  cases sig with
  | false =>
    simp only [Bool.false_eq_true, if_false, clearFlags, thread_modify_self, setPc, modify_modify]
    exact if_pos hn
  | true =>
    simp only [if_true, clearFlags, thread_modify_self, setPc, modify_modify]
    exact if_pos hn

theorem finish_on (sig : Bool) (hn : (s.thread t).tEventlist ≠ none)
    (hc : (s.thread t).tWchan = some e) :
    s.finish t sig = some (s.modify t (looked sig (.removing e sig))) := by
  unfold Sys.finish
  cases sig with
  | false =>
    simp only [Bool.false_eq_true, if_false, clearFlags, thread_modify_self, setPc, modify_modify, hc]
    exact if_neg hn
  | true =>
    simp only [if_true, clearFlags, thread_modify_self, setPc, modify_modify, hc]
    exact if_neg hn

/-- The thread as it goes into the switch. -/
def toSleep (th : Thread) : Thread :=
  { th with twakeonsig := th.tassertsig || th.twakeonsig, tWtype := .twevent, pc := .switching }

theorem eBlockThread_sleep {sig sig' : Bool} (h : ¬((s.thread t).tassertsig ∧ sig))
    (hn : (s.thread t).tEventlist ≠ none) : s.eBlockThread t sig sig' = some { s.modify t toSleep with
      lock := if (toSleep (s.thread t)).twakeonsig then some t else s.lock } := by
  have hf : ∀ th : Thread, th.tassertsig = false →
      { th with tWtype := .twevent, pc := .switching } = toSleep th := by
    intro th ha
    rw [toSleep, ha, Bool.false_or]
  unfold Sys.eBlockThread
  rw [if_neg h, if_neg hn]
  cases ha : (s.thread t).tassertsig with
  | false =>
    have hto := hf _ ha
    simp only [Bool.false_eq_true, if_false, thread_modify_self]
    rw [← hto]
    cases hk : (s.thread t).twakeonsig with
    | false =>
      simp only [Bool.false_eq_true, if_false, setPc, modify_modify]
      exact congrArg some (modify_congr hto)
    | true =>
      simp only [if_true, setPc, modify_lock]
      exact congrArg some (congrArg (fun s' : Sys => { s' with lock := some t }) (modify_congr hto))
  | true =>
    have hto : toSleep (s.thread t) =
        { s.thread t with twakeonsig := true, tWtype := .twevent, pc := .switching } := by
      simp [toSleep, ha]
    simp only [if_true, thread_modify_self, setPc, modify_lock, modify_modify]
    rw [hto]
    exact congrArg some (congrArg (fun s' : Sys => { s' with lock := some t })
      (modify_congr hto.symm))

/-- Behind the looks for signals. A signal is found only where it spoils no result. -/
theorem finish (h : Sound s g) (hr : Runs s t) (hp : (s.thread t).pc.result = 0) {sig : Bool}
    (hs : (s.thread t).tEventlist = none → sig = true → (s.thread t).tResult = threadInterrupted) :
    ∃ s', s.finish t sig = some s' ∧ Sound s' g := by
  have hawake : (s.thread t).tWtype ≠ .twevent := by
    rw [hr.wtype]
    nofun
  have hsched : ∀ pc, Sched (s.modify t (looked sig pc)) := fun _ => hr.modify h.sched rfl rfl
  cases hw : g.wait t with
  | none =>
    have hn := (h.on_list t).mpr hw
    refine ⟨_, finish_off sig hn, h.modify (hsched _) rfl rfl rfl ?_⟩
    rw [hw]
    refine Fine.awake hawake ?_
    change (if sig then threadInterrupted else (s.thread t).tResult) = _
    rw [← (h.fine t).result hw]
    split
    · exact (hs hn ‹_›).symm
    · rfl
  | some e =>
    have hn : (s.thread t).tEventlist ≠ none := fun hn => by simp [(h.on_list t).mp hn] at hw
    refine ⟨_, finish_on sig hn (h.chan hw), h.modify (hsched _) rfl rfl rfl ?_⟩
    rw [hw]
    refine ⟨nofun, fun _ => ?_, fun e' sig' he => ?_, nofun, fun he => absurd he hawake⟩
    · change (if sig then threadInterrupted else (s.thread t).tResult) = interrupted sig
      rw [(h.fine t).waiting (by simp [hw]), hp]
      rfl
    · cases he
      exact .inr rfl

theorem eBlockThread (h : Sound s g) (hr : Runs s t) (hp : (s.thread t).pc = .outside)
    {sig sig' : Bool} (hs : (s.thread t).tEventlist = none → (s.thread t).tassertsig = true →
      sig = true ∨ sig' = true → (s.thread t).tResult = threadInterrupted) :
    ∃ s', s.eBlockThread t sig sig' = some s' ∧ Sound s' g := by
  have hpr : (s.thread t).pc.result = 0 := by
    rw [hp]
    rfl
  unfold Sys.eBlockThread
  by_cases h1 : (s.thread t).tassertsig ∧ sig
  · rw [if_pos h1]
    exact h.finish hr hpr fun hn _ => hs hn h1.1 (.inl h1.2)
  · rw [if_neg h1]
    by_cases hn : (s.thread t).tEventlist = none
    · rw [if_pos hn]
      refine h.finish hr hpr fun _ hf => ?_
      rw [Bool.and_eq_true] at hf
      exact hs hn hf.1 (.inr hf.2)
    · rw [if_neg hn]
      have hsleep := @eBlockThread_sleep s t sig sig' h1 hn
      unfold Sys.eBlockThread at hsleep
      rw [if_neg h1, if_neg hn] at hsleep
      rw [hr.lock] at hsleep
      refine ⟨_, hsleep, h.modify (hr.sleep h.sched rfl rfl rfl) rfl rfl rfl ?_⟩
      have hw : g.wait t ≠ none := fun hw => hn ((h.on_list t).mpr hw)
      refine ⟨fun he => absurd he hw, fun _ => ?_, nofun, nofun, fun _ => hw⟩
      exact ((h.fine t).waiting hw).trans hpr

theorem blockResume (h : Sound s g) (hr : Runs s t) (hp : (s.thread t).pc = .blocked) {sig : Bool}
    (hs : (s.thread t).tEventlist = none → (s.thread t).tassertsig = true → sig = true →
      (s.thread t).tResult = threadInterrupted) :
    ∃ s', s.blockResume t sig = some s' ∧ Sound s' g := by
  refine h.finish hr ?_ fun hn hf => ?_
  · rw [hp]
    rfl
  · rw [Bool.and_eq_true] at hf
    exact hs hn hf.1 hf.2

end Sound

end Sys

end Aix413.Events
