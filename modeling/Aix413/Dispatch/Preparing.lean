import Aix413.Dispatch.Operations

namespace Aix413.Dispatch.Sys

variable {s s' : Sys} {Q : Nat → List Nat} {t u l cpu old : Nat} {w : Place} {p : Bool} {prio : Int}
variable {f : Thread → Thread}

/-! ## What is fixed before the choice -/

/-- The bindings of the threads, and the allowance for affinity. -/
def fixed (s : Sys) : (Nat → Option Nat × Option Nat) × Int :=
  (fun t => ((s.thread t).tCpuid, (s.thread t).tAffinity), s.affinityPriodelta)

theorem fixed_cpuid (h : s'.fixed = s.fixed) (t : Nat) :
    (s'.thread t).tCpuid = (s.thread t).tCpuid :=
  congrArg Prod.fst (congrFun (congrArg Prod.fst h) t)

theorem fixed_affinity (h : s'.fixed = s.fixed) (t : Nat) :
    (s'.thread t).tAffinity = (s.thread t).tAffinity :=
  congrArg Prod.snd (congrFun (congrArg Prod.fst h) t)

theorem fixed_delta (h : s'.fixed = s.fixed) : s'.affinityPriodelta = s.affinityPriodelta :=
  congrArg Prod.snd h

theorem fixed_modify (hc : (f (s.thread t)).tCpuid = (s.thread t).tCpuid)
    (ha : (f (s.thread t)).tAffinity = (s.thread t).tAffinity) : (s.modify t f).fixed = s.fixed := by
  refine Prod.ext ?_ rfl
  funext u
  by_cases hu : u = t
  · subst hu
    change (((s.modify u f).thread u).tCpuid, ((s.modify u f).thread u).tAffinity) = _
    rw [thread_modify_self, hc, ha]
    rfl
  · change (((s.modify t f).thread u).tCpuid, ((s.modify t f).thread u).tAffinity) = _
    rw [thread_modify_of_ne hu]
    rfl

theorem fixed_of_bare (hb : s'.bare = s.bare) (hd : s'.affinityPriodelta = s.affinityPriodelta) :
    s'.fixed = s.fixed := by
  refine Prod.ext ?_ hd
  funext t
  have hc := congrArg Thread.tCpuid (congrFun hb t)
  have ha := congrArg Thread.tAffinity (congrFun hb t)
  exact Prod.ext hc ha

theorem link_fixed (s : Sys) (t l : Nat) (w : Place) : (s.link t l w).fixed = s.fixed := by
  apply fixed_of_bare (link_bare s t l w)
  unfold link
  cases s.threadRun l with
  | none => rfl
  | some r => cases w <;> rfl

theorem unlink_fixed (s : Sys) (t l : Nat) : (s.unlink t l).fixed = s.fixed := by
  apply fixed_of_bare (unlink_bare s t l)
  unfold unlink
  dsimp only
  split
  · rfl
  · split <;> rfl

theorem setRunrun_fixed (s : Sys) (l : Nat) (p : Bool) : (s.setRunrun l p).fixed = s.fixed := by
  obtain ⟨n, hn⟩ := setRunrun_frame (s := s) l p
  rw [hn]
  rfl

theorem setrq_fixed (s : Sys) (t : Nat) (p : Bool) (w : Place) : (s.setrq t p w).fixed = s.fixed := by
  have h1 : (s.modify t fun th => { th with tState := .tsrun }).fixed = s.fixed := fixed_modify rfl rfl
  unfold Sys.setrq
  dsimp only
  split
  · exact (fixed_modify rfl rfl).trans h1
  · rw [setRunrun_fixed]
    exact (link_fixed _ t _ w).trans ((fixed_modify rfl rfl).trans h1)

theorem remrq_fixed (s : Sys) (t : Nat) : (s.remrq t).fixed = s.fixed := by
  unfold Sys.remrq
  split
  · exact (unlink_fixed _ t _).trans (fixed_modify rfl rfl)
  · rfl

theorem prioRequeue_fixed (s : Sys) (t : Nat) (prio : Int) : (s.prioRequeue t prio).fixed = s.fixed := by
  have hset : ∀ s' : Sys, (s'.setPri t prio).fixed = s'.fixed := fun s' => fixed_modify rfl rfl
  unfold Sys.prioRequeue
  split
  · split
    · rw [setrq_fixed, hset, remrq_fixed]
    · split
      · rw [setrq_fixed, hset, remrq_fixed]
      · rfl
  · dsimp only
    rw [hset]
    split <;> rfl
  · dsimp only
    rw [hset]
    split
    · split <;> rfl
    · rfl
  · exact hset s

/-- No other thread comes to the ready queue by a change of priority. -/
theorem prioRequeue_queued (h : ((s.prioRequeue t prio).thread u).tWtype = .twcpu) :
    (s.thread u).tWtype = .twcpu := by
  by_cases hu : u = t
  · subst hu
    by_contra hw
    have hset : ∀ s' : Sys, s'.thread = s.thread →
        ((s'.setPri u prio).thread u).tWtype ≠ .twcpu := by
      intro s' hs
      unfold setPri
      rw [thread_modify_self, hs]
      exact hw
    revert h
    unfold Sys.prioRequeue
    cases hc : (s.thread u).tWtype with
    | twcpu => exact absurd hc hw
    | twmem =>
      apply hset
      split <;> rfl
    | tnowait =>
      apply hset
      split
      · split <;> rfl
      · rfl
    | _ => exact hset s rfl
  · exact (wtype_of_bare (prioRequeue_bare_of_ne hu)).symm.trans h

/-! ## Going to sleep -/

/-- The thread waits for a lock, and dispatch looks for its owner. -/
def WaitsForLock (s : Sys) (t : Nat) : Prop :=
  (s.thread t).tWtype = .twlock ∨ (s.thread t).tWtype = .twlockread

/-- The boost of the lock's owner. -/
def boost (s : Sys) (old ownt : Nat) : Sys :=
  let boosting := (s.thread old).tPri < (s.thread ownt).tPri
  let s := s.modify ownt fun th => { th with tBoosted := th.tBoosted + 1 }
  let s := s.modify ownt fun th => { th with tLockpri := (s.thread old).tPri }
  let s := s.prioRequeue ownt (s.thread old).tPri.toNat
  if boosting then s else s.modify ownt fun th => { th with tBoosted := th.tBoosted - 1 }

theorem goToSleep_cases (s : Sys) (old : Nat) :
    s.goToSleep old = s.modify old (fun th => { th with tState := .tssleep }) ∨
    s.WaitsForLock old ∧ s.goToSleep old = (s.boost old (s.thread old).tLockowner).modify old
      fun th => { th with tState := .tssleep } := by
  unfold goToSleep
  by_cases hw : (s.thread old).tWtype = .twlock ∨ (s.thread old).tWtype = .twlockread
  · by_cases hp : (s.thread old).tPri ≤ (s.thread (s.thread old).tLockowner).tPri
    · right
      refine ⟨hw, ?_⟩
      rw [if_pos hw]
      dsimp only
      rw [if_pos hp]
      rfl
    · left
      rw [if_pos hw]
      dsimp only
      rw [if_neg hp]
  · left
    rw [if_neg hw]

theorem modify_wtype (hf : (f (s.thread t)).tWtype = (s.thread t).tWtype) (u : Nat) :
    ((s.modify t f).thread u).tWtype = (s.thread u).tWtype := by
  by_cases hu : u = t
  · subst hu
    rw [thread_modify_self, hf]
  · rw [thread_modify_of_ne hu]

theorem modify_lvl (hf : (f (s.thread t)).lvl = (s.thread t).lvl) (u : Nat) :
    ((s.modify t f).thread u).lvl = (s.thread u).lvl := by
  by_cases hu : u = t
  · subst hu
    rw [thread_modify_self, hf]
  · rw [thread_modify_of_ne hu]

/-- The owner's new counts. -/
def raise (s : Sys) (ownt : Nat) (lockpri : UInt8) : Sys :=
  (s.modify ownt fun th => { th with tBoosted := th.tBoosted + 1 }).modify ownt
    fun th => { th with tLockpri := lockpri }

theorem boost_cases (s : Sys) (old ownt : Nat) : ∃ (lockpri : UInt8) (prio : Int),
    s.boost old ownt = (s.raise ownt lockpri).prioRequeue ownt prio ∨
    s.boost old ownt = ((s.raise ownt lockpri).prioRequeue ownt prio).modify ownt
      fun th => { th with tBoosted := th.tBoosted - 1 } := by
  unfold boost
  dsimp only
  split
  · exact ⟨_, _, .inl rfl⟩
  · exact ⟨_, _, .inr rfl⟩

theorem boost_fixed (s : Sys) (old ownt : Nat) : (s.boost old ownt).fixed = s.fixed := by
  have hraise : ∀ lockpri, (s.raise ownt lockpri).fixed = s.fixed := fun lockpri =>
    (fixed_modify rfl rfl).trans (fixed_modify rfl rfl)
  obtain ⟨lockpri, prio, h | h⟩ := boost_cases s old ownt
  · rw [h, prioRequeue_fixed, hraise]
  · rw [h, fixed_modify rfl rfl, prioRequeue_fixed, hraise]

theorem boost_bare_of_ne (s : Sys) (old : Nat) {ownt : Nat} (hu : u ≠ ownt) : (s.boost old ownt).bare u = s.bare u := by
  have hraise : ∀ lockpri, (s.raise ownt lockpri).bare u = s.bare u := fun lockpri =>
    (bare_modify_of_ne hu).trans (bare_modify_of_ne hu)
  obtain ⟨lockpri, prio, h | h⟩ := boost_cases s old ownt
  · rw [h, prioRequeue_bare_of_ne hu, hraise]
  · rw [h, bare_modify_of_ne hu, prioRequeue_bare_of_ne hu, hraise]

theorem boost_queued {ownt : Nat} (h : ((s.boost old ownt).thread u).tWtype = .twcpu) :
    (s.thread u).tWtype = .twcpu := by
  have hraise : ∀ lockpri, ((s.raise ownt lockpri).thread u).tWtype = (s.thread u).tWtype :=
    fun lockpri => (modify_wtype rfl u).trans (modify_wtype rfl u)
  obtain ⟨lockpri, prio, hb | hb⟩ := boost_cases s old ownt
  · rw [hb] at h
    exact (hraise lockpri).symm.trans (prioRequeue_queued h)
  · rw [hb, modify_wtype rfl] at h
    exact (hraise lockpri).symm.trans (prioRequeue_queued h)

namespace Ready

theorem boost (h : Ready s Q) (old ownt : Nat) : ∃ Q', Ready (s.boost old ownt) Q' := by
  obtain ⟨lockpri, prio, hb⟩ := boost_cases s old ownt
  have h1 : Ready (s.raise ownt lockpri) Q :=
    (h.modify_same rfl rfl rfl rfl).modify_same rfl rfl rfl rfl
  obtain ⟨Q', h2⟩ := h1.prioRequeue ownt prio
  refine ⟨Q', ?_⟩
  rcases hb with hb | hb
  · rw [hb]
    exact h2
  · rw [hb]
    exact h2.modify_same rfl rfl rfl rfl

theorem goToSleep (h : Ready s Q) (old : Nat) : ∃ Q', Ready (s.goToSleep old) Q' := by
  rcases goToSleep_cases s old with hs | ⟨-, hs⟩
  · rw [hs]
    exact ⟨Q, h.modify_same rfl rfl rfl rfl⟩
  · obtain ⟨Q', h'⟩ := h.boost old (s.thread old).tLockowner
    rw [hs]
    exact ⟨Q', h'.modify_same rfl rfl rfl rfl⟩

theorem putBack (h : Ready s Q) (ho : (s.thread old).tWtype ≠ .twcpu) :
    ∃ Q', Ready (s.putBack old) Q' := by
  unfold Sys.putBack
  dsimp only
  rw [thread_modify_self]
  split
  · exact ⟨_, (h.enter ho .rqtail).modify_same rfl rfl rfl rfl⟩
  · exact ⟨_, h.enter ho .rqhead⟩

end Ready

theorem goToSleep_fixed (s : Sys) (old : Nat) : (s.goToSleep old).fixed = s.fixed := by
  rcases goToSleep_cases s old with hs | ⟨-, hs⟩
  · rw [hs, fixed_modify rfl rfl]
  · rw [hs, fixed_modify rfl rfl, boost_fixed]

theorem goToSleep_queued (h : ((s.goToSleep old).thread u).tWtype = .twcpu) :
    (s.thread u).tWtype = .twcpu := by
  rcases goToSleep_cases s old with hs | ⟨-, hs⟩
  · rwa [hs, modify_wtype rfl] at h
  · rw [hs, modify_wtype rfl] at h
    exact boost_queued h

/-- A thread that owns no lock keeps its place. -/
theorem goToSleep_keeps (hu : s.WaitsForLock old → (s.thread old).tLockowner ≠ u) :
    ((s.goToSleep old).thread u).tWtype = (s.thread u).tWtype ∧
    ((s.goToSleep old).thread u).lvl = (s.thread u).lvl := by
  rcases goToSleep_cases s old with hs | ⟨hw, hs⟩
  · rw [hs]
    exact ⟨modify_wtype rfl u, modify_lvl rfl u⟩
  · have hb := boost_bare_of_ne s old (hu hw).symm
    rw [hs]
    exact ⟨(modify_wtype rfl u).trans (wtype_of_bare hb), (modify_lvl rfl u).trans (lvl_of_bare hb)⟩

/-! ## Going back to the ready queue -/

theorem putBack_cases (s : Sys) (old : Nat) : ∃ l w,
    s.putBack old = (s.modify old fun th => { th with tWtype := .twcpu }).link old l w ∨
    s.putBack old = ((s.modify old fun th => { th with tWtype := .twcpu }).link old l w).modify old
      fun th => { th with tTicks := 0, utyield := false } := by
  unfold Sys.putBack
  dsimp only
  split
  · exact ⟨_, _, .inr rfl⟩
  · exact ⟨_, _, .inl rfl⟩

theorem putBack_fixed (s : Sys) (old : Nat) : (s.putBack old).fixed = s.fixed := by
  obtain ⟨l, w, h | h⟩ := putBack_cases s old
  · rw [h, link_fixed, fixed_modify rfl rfl]
  · rw [h, fixed_modify rfl rfl, link_fixed, fixed_modify rfl rfl]

theorem putBack_wtype (s : Sys) (old u : Nat) : ((s.putBack old).thread u).tWtype =
    if u = old then .twcpu else (s.thread u).tWtype := by
  have hlink : ∀ l w, (((s.modify old fun th => { th with tWtype := .twcpu }).link old l w).thread
      u).tWtype = if u = old then .twcpu else (s.thread u).tWtype := by
    intro l w
    rw [wtype_of_bare (congrFun (link_bare _ old l w) u)]
    by_cases hu : u = old
    · subst hu
      rw [thread_modify_self, if_pos rfl]
    · rw [thread_modify_of_ne hu, if_neg hu]
  obtain ⟨l, w, h | h⟩ := putBack_cases s old
  · rw [h, hlink]
  · rw [h, modify_wtype rfl, hlink]

theorem putBack_lvl (s : Sys) (old u : Nat) :
    ((s.putBack old).thread u).lvl = (s.thread u).lvl := by
  obtain ⟨l, w, h | h⟩ := putBack_cases s old
  · rw [h, lvl_of_bare (congrFun (link_bare _ old l w) u), modify_lvl rfl]
  · rw [h, modify_lvl rfl, lvl_of_bare (congrFun (link_bare _ old l w) u), modify_lvl rfl]

end Aix413.Dispatch.Sys
