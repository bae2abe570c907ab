import Aix413.Lib.WaitGraph
import Aix413.Lockctl.SleepList
import Aix413.Lockctl.Turns

namespace Aix413.Lockctl.Deadlock

open LockTable Flckadj LockMap LockPool Edits Granting Reclock Turns SleepList
open Aix413.Lib.WaitGraph
open Relation (ReflTransGen)

/-- A waits for B when a request of A is asleep on a lock of B that blocks it. -/
def WaitsFor (st : State) (a b : Owner) : Prop :=
  ∃ t ∈ st.mem.sleepers, t.awake = false ∧ t.call.lckdat.owner = a ∧
    ∃ f ∈ st.gnodes t.call.gp, f.addr = t.event ∧ Blocks t.call.lckdat f.set ∧ f.set.owner = b

/-- The same relation as the sleep list records it. -/
def Recorded (sl : List Filock) (a b : Owner) : Prop :=
  ∃ sf ∈ sl, sf.blocked = true ∧ sf.set.owner = a ∧ blockerOwner sf = b

theorem recorded_eq {st : State} (h : Sound st.mem st.gnodes) :
    Recorded st.mem.sleeplcks = WaitsFor st := by
  funext a b
  apply propext
  constructor
  · rintro ⟨sf, hsf, hb, rfl, rfl⟩
    have hm : sf.addr ∈ st.mem.sleepers.map Sleeper.sf := h.asleep.own.symm.subset (mem_addrs hsf)
    obtain ⟨t, ht, hta⟩ := List.mem_map.mp hm
    obtain ⟨sf', hsf', he⟩ := h.asleep.entries t ht
    have heq : sf' = sf := eq_of_addr_eq h.tables.nodup_sleeplcks hsf' hsf (he.addr.trans hta)
    subst heq
    have hawake : t.awake = false := by
      have := he.blocked
      rw [hb] at this
      simpa using this.symm
    obtain ⟨f, hf, h1, _, h3, h4⟩ := he.lock hawake
    exact ⟨t, ht, hawake, by rw [he.set], f, hf, h1, h3, h4.symm⟩
  · rintro ⟨t, ht, hawake, rfl, f, hf, h1, _, rfl⟩
    obtain ⟨sf, hsf, he⟩ := h.asleep.entries t ht
    obtain ⟨g, hg, hg1, _, _, hg4⟩ := he.lock hawake
    have hfg : g = f := (h.tables.unique hg hf (hg1.trans h1.symm)).2
    refine ⟨sf, hsf, by rw [he.blocked, hawake]; rfl, by rw [he.set], ?_⟩
    rw [hg4, hfg]

def nextOwner (sl : List Filock) (a : Owner) : Option Owner :=
  (sleepingEntry sl a).map blockerOwner

theorem nextOwner_recorded {sl : List Filock} {a b : Owner} (h : nextOwner sl a = some b) :
    Recorded sl a b := by
  obtain ⟨sf, hsf, hb⟩ := Option.map_eq_some_iff.mp h
  have hp := List.find?_some hsf
  simp only [Bool.and_eq_true, beq_iff_eq] at hp
  exact ⟨sf, List.mem_of_find?_eq_some hsf, hp.2, hp.1, hb⟩

theorem nextOwner_isSome {sl : List Filock} {a b : Owner} (h : Recorded sl a b) :
    (nextOwner sl a).isSome := by
  obtain ⟨sf, hsf, hb, ha, _⟩ := h
  simp only [nextOwner, Option.isSome_map, sleepingEntry, List.find?_isSome]
  exact ⟨sf, hsf, by simp [ha, hb]⟩

theorem deadwalk_eq_walk (n : Nat) (sl : List Filock) (a o : Owner) :
    deadwalk n sl a o = walk (nextOwner sl) o n a := by
  induction n generalizing a with
  | zero => rfl
  | succ n ih =>
    rw [deadwalk, walk, nextOwner]
    split
    · rfl
    · cases sleepingEntry sl a with
      | none => rfl
      | some sf => exact ih (blockerOwner sf)

/-- An owner that waits for one owner only. -/
def OneBlocker (R : Owner → Owner → Prop) (x : Owner) : Prop := ∀ y z, R x y → R x z → y = z

/-- When `deadflck` finds nothing there is nothing, as long as the owners on
the way wait for one owner each. -/
theorem deadflck_false {m : Mem} {n : Nat} {f : Filock} {r : Eflock} (hv : InRange f.set)
    (ho : ∀ x, ReflTransGen (Recorded m.sleeplcks) f.set.owner x → x ≠ r.owner →
      OneBlocker (Recorded m.sleeplcks) x)
    (h : deadflck n m f r = some false) :
    ¬ ReflTransGen (Recorded m.sleeplcks) f.set.owner r.owner := by
  rw [deadflck, deadwalk_eq_walk, toUshort_eq hv.1 hv.2] at h
  refine walk_false (fun x hx hne y hy => ?_) h
  obtain ⟨z, hz⟩ := Option.isSome_iff_exists.mp (nextOwner_isSome hy)
  rw [hz, ho x hx hne y z hy (nextOwner_recorded hz)]

theorem recorded_lockWakeup {m : Mem} {flp : Filock} {a b : Owner}
    (h : Recorded (lockWakeup m flp).sleeplcks a b) : Recorded m.sleeplcks a b := by
  unfold lockWakeup at h
  split at h
  next =>
    obtain ⟨sf, hsf, hb, ha, ho⟩ := h
    obtain ⟨s, hs, rfl⟩ := List.mem_map.mp hsf
    have hs' := (List.mem_filter.mp hs).1
    unfold release at hb ha ho
    split at hb
    · simp at hb
    next hne =>
      rw [if_neg hne] at ha ho
      exact ⟨s, hs', hb, ha, ho⟩
  next => exact h

/-- Edits add no edge. -/
theorem recorded_edited {o a b : Owner} {p q : Mem × List Filock} (h : Edited o p q)
    (hr : Recorded q.1.sleeplcks a b) : Recorded p.1.sleeplcks a b := by
  induction h with
  | refl => exact hr
  | tail _ hstep ih =>
    apply ih
    cases hstep with
    | drop => exact recorded_lockWakeup hr
    | trim => exact recorded_lockWakeup hr
    | link ha =>
      rw [← (takeFree_sleep ha).1]
      exact hr

/-- Edits add locks of the requesting owner only. -/
theorem owner_edited {o : Owner} {p q : Mem × List Filock} (h : Edited o p q) :
    ∀ f ∈ q.2, f.set.owner = o ∨ ∃ g ∈ p.2, g.set.owner = f.set.owner := by
  induction h with
  | refl => exact fun f hf => Or.inr ⟨f, hf, rfl⟩
  | tail _ hstep ih =>
    intro f hf
    cases hstep with
    | drop ho =>
      refine ih f ?_
      rcases List.mem_append.mp hf with hf | hf <;> simp [hf]
    | trim m' hm ho =>
      rcases List.mem_append.mp hf with hf | hf
      · exact ih f (by simp [hf])
      · rcases List.mem_cons.mp hf with rfl | hf
        · left
          rw [trimEnd, ← ho]
          simp only [wokenLock_set]
          rfl
        · exact ih f (by simp [hf])
    | link ha ho =>
      rcases List.mem_append.mp hf with hf | hf
      · exact ih f (by simp [hf])
      · rcases List.mem_cons.mp hf with rfl | hf
        · exact Or.inl ho
        · exact ih f (by simp [hf])

/-- A call of `fcntl`: without the retry function of the NFS lock daemon. -/
structure Local (c : Call) : Prop where
  retryFcn : c.retryFcn = none
  retryId : c.retryId = 0

def LocalAction : Action → Prop
  | .reclock c => Local c
  | _ => True

/-- The request does not lose sight of an edge: its `l_vfs` keeps its value in
the fields of `deadflck`; if it sleeps, its entry is its own, and of the owners
it would come to wait for each waits for one owner only. -/
structure ClearCall (st : State) (c : Call) : Prop where
  inRange : InRange c.lckdat
  own : c.cmd.slpflck = true → c.lckdat.lVfs = mntNfs →
    ∀ sf ∈ st.mem.sleeplcks, repeats c.lckdat sf = false
  oneBlocker : c.cmd.slpflck = true → ∀ f, (blocked (st.gnodes c.gp) c.lckdat).1 = some f →
    ∀ x, ReflTransGen (WaitsFor st) f.set.owner x → x ≠ c.lckdat.owner → OneBlocker (WaitsFor st) x

/-- The condition on one action, on the state before it. -/
def Clear (st : State) : Action → Prop
  | .reclock c => ∀ c', convert c = .ok c' → ClearCall st c'
  | .resume t => ClearCall (leave st t) t.call
  | .interrupt _ => True

/-- The invariant of a run. -/
structure Good (st : State) : Prop where
  sound : Sound st.mem st.gnodes
  lists : ∀ gp, LockList (st.gnodes gp)
  inRange : ∀ gp, ∀ f ∈ st.gnodes gp, InRange f.set
  calls : ∀ t ∈ st.mem.sleepers, Converted t.call ∧ Local t.call
  acyclic : Acyclic (Recorded st.mem.sleeplcks)

theorem call_lockWakeup {m : Mem} {flp : Filock} {t : Sleeper}
    (h : t ∈ (lockWakeup m flp).sleepers) : ∃ u ∈ m.sleepers, t.call = u.call := by
  unfold lockWakeup at h
  split at h
  next =>
    obtain ⟨u, hu, rfl⟩ := List.mem_map.mp h
    exact ⟨u, hu, wakeEvent_call _ _⟩
  next => exact ⟨t, h, rfl⟩

theorem call_edited {o : Owner} {p q : Mem × List Filock} (h : Edited o p q) :
    ∀ t ∈ q.1.sleepers, ∃ u ∈ p.1.sleepers, t.call = u.call := by
  induction h with
  | refl => exact fun t ht => ⟨t, ht, rfl⟩
  | tail _ hstep ih =>
    intro t ht
    cases hstep with
    | drop =>
      obtain ⟨u, hu, he⟩ := call_lockWakeup ht
      obtain ⟨v, hv, he'⟩ := ih u hu
      exact ⟨v, hv, he.trans he'⟩
    | trim =>
      obtain ⟨u, hu, he⟩ := call_lockWakeup ht
      obtain ⟨v, hv, he'⟩ := ih u hu
      exact ⟨v, hv, he.trans he'⟩
    | link ha =>
      rw [(takeFree_sleep ha).2] at ht
      exact ih t ht

theorem inRange_of_owner {e e' : Eflock} (h : InRange e) (he : e'.owner = e.owner) : InRange e' := by
  have hv : e'.lVfs = e.lVfs := congrArg (fun o : Owner => o.2.2) he
  unfold InRange
  rw [hv]
  exact h

theorem forall_update {P : Nat → List Filock → Prop} {gn : Nat → List Filock} {gp : Nat}
    {l : List Filock} (h : ∀ x, P x (gn x)) (hl : P gp l) : ∀ x, P x (Function.update gn gp l x) := by
  intro x
  by_cases hx : x = gp
  · subst hx
    rwa [Function.update_self]
  · rw [Function.update_of_ne hx]
    exact h x

section Serve

variable {st st' : State} {c : Call}

theorem good_edited (h : Good st) (hv : InRange c.lckdat) {m : Mem} {l : List Filock}
    (hed : Edited c.lckdat.owner (st.mem, st.gnodes c.gp) (m, l)) (hl : LockList l) :
    Good ⟨m, Function.update st.gnodes c.gp l⟩ := by
  refine ⟨?_, forall_update (P := fun _ l => LockList l) h.lists hl, ?_, ?_, ?_⟩
  · refine edited_sound c.gp hed ?_
    rw [Function.update_eq_self]
    exact h.sound
  · refine forall_update (P := fun _ l => ∀ f ∈ l, InRange f.set) h.inRange fun f hf => ?_
    rcases owner_edited hed f hf with ho | ⟨g, hg, ho⟩
    · exact inRange_of_owner hv ho
    · exact inRange_of_owner (h.inRange c.gp g hg) ho.symm
  · intro t ht
    obtain ⟨u, hu, he⟩ := call_edited hed t ht
    rw [he]
    exact h.calls u hu
  · exact h.acyclic.mono fun a b => recorded_edited hed

/-- A request that `deadflck` lets sleep closes no cycle. -/
theorem good_sleep (h : Good st) (hc : Converted c) (hloc : Local c) (hcl : ClearCall st c)
    (hs : c.cmd.slpflck = true) {n : Nat} {f : Filock} {w : Whence} {m' : Mem} {l' : List Filock}
    {a : Nat} (hb : (blocked (st.gnodes c.gp) c.lckdat).1 = some f)
    (hd : deadflck n st.mem f c.lckdat = some false)
    (hq : enqueue st.mem (st.gnodes c.gp) c.lckdat f none = some (m', l', a)) :
    Good ⟨{ m' with sleepers := ⟨f.addr, a, c, w, false⟩ :: m'.sleepers },
      Function.update st.gnodes c.gp l'⟩ := by
  obtain ⟨hf, hblk⟩ := blocked_some hc.start_le_end hb
  have hfv := h.inRange c.gp f hf
  obtain ⟨m₁, ht, rfl, rfl⟩ := enqueue_eq
    (fun b m₁ hb => takeFree_fresh (h.sound.tables.pools c.gp) hb) (hcl.own hs) hq
  have hset : ∀ x, (markBlocker f.addr x).set = x.set := by
    intro x
    unfold markBlocker
    split <;> rfl
  have hsets : ((st.gnodes c.gp).map (markBlocker f.addr)).map Filock.set =
      (st.gnodes c.gp).map Filock.set := by
    rw [List.map_map]
    exact List.map_congr_left fun x _ => hset x
  have hrec := recorded_eq h.sound
  have hnew : ∀ x y, Recorded (sleepEntry a c.lckdat f :: st.mem.sleeplcks) x y →
      insertEdge (Recorded st.mem.sleeplcks) c.lckdat.owner f.set.owner x y := by
    rintro x y ⟨sf, hsf, hbl, rfl, rfl⟩
    rcases List.mem_cons.mp hsf with rfl | hsf
    · right
      exact ⟨by simp [sleepEntry, setBlocked], blockerOwner_sleepEntry hfv⟩
    · exact Or.inl ⟨sf, hsf, hbl, rfl, rfl⟩
  have hpath : ¬ ReflTransGen (Recorded st.mem.sleeplcks) f.set.owner c.lckdat.owner := by
    refine deadflck_false hfv (fun x hx hne => ?_) hd
    rw [hrec] at hx ⊢
    exact hcl.oneBlocker hs f hb x hx hne
  have hsound := sleep_sound (w := w) h.sound hf hblk hfv ht
  refine ⟨hsound, ?_, ?_, ?_, ?_⟩
  · exact forall_update (P := fun _ l => LockList l) h.lists
      (lockList_of_sets (h.lists c.gp) hsets)
  · refine forall_update (P := fun _ l => ∀ f ∈ l, InRange f.set) h.inRange fun g hg => ?_
    obtain ⟨x, hx, rfl⟩ := List.mem_map.mp hg
    rw [hset]
    exact h.inRange c.gp x hx
  · intro t hts
    rcases List.mem_cons.mp hts with rfl | hts
    · exact ⟨hc, hloc⟩
    · have hts' : t ∈ m₁.sleepers := hts
      rw [(takeFree_sleep ht).2] at hts'
      exact h.calls t hts'
  · exact (acyclic_insertEdge h.acyclic hpath).mono hnew

theorem serve_good (h : Good st) (hc : Converted c) (hloc : Local c) (hcl : ClearCall st c)
    {n : Nat} {w : Whence} {r : Reply} (hs : serve n st c w = some (st', r)) : Good st' := by
  unfold serve at hs
  cases ht : turn n st.mem (st.gnodes c.gp) c w with
  | none => simp [ht] at hs
  | some x =>
    have hturn := turn_turned (h.lists c.gp) hc ht
    rw [ht] at hs
    cases hturn with
    | idle =>
      simp only [Option.some.injEq, Prod.mk.injEq] at hs
      rw [← hs.1, Function.update_eq_self]
      exact h
    | @adjust i hr ha =>
      simp only [adjustTurn, Option.some.injEq, Prod.mk.injEq] at hs
      have hd := flckadj_done (h.sound.tables.pools c.gp) (h.lists c.gp) hr ha
      rw [← hs.1]
      exact good_edited h hcl.inRange hd.edited hd.wf
    | cancel _ hcan => exact absurd hloc.retryId hcan.2.2
    | retry hr => simp [hloc.retryFcn] at hr
    | sleep _ hslp _ hb hd hq =>
      simp only [Option.some.injEq, Prod.mk.injEq] at hs
      rw [← hs.1]
      exact good_sleep h hc hloc hcl hslp hb hd hq

end Serve

theorem good_leave {st : State} {t : Sleeper} (h : Good st) (ht : t ∈ st.mem.sleepers) :
    Good (leave st t) := by
  refine ⟨leave_sound h.sound ht, h.lists, h.inRange, ?_, ?_⟩
  · intro u hu
    exact h.calls u (List.mem_of_mem_erase hu)
  · refine h.acyclic.mono fun a b hab => ?_
    obtain ⟨sf, hsf, hrest⟩ := hab
    exact ⟨sf, (List.mem_filter.mp hsf).1, hrest⟩

theorem flckinit_good : Good flckinit := by
  have hp : pool flckinit.mem [] = (List.range nfloxMin).reverse := by simp [pool, flckinit]
  refine ⟨⟨⟨fun gp => ⟨?_, ?_, ?_⟩, ?_⟩, ⟨?_, ?_, ?_⟩⟩, ?_, ?_, ?_, ?_⟩
  · exact hp ▸ List.nodup_reverse.mpr List.nodup_range
  · intro a ha
    have ha' : a ∈ (List.range nfloxMin).reverse := hp ▸ ha
    exact List.mem_range.mp (List.mem_reverse.mp ha')
  · simp [flckinit, nfloxMin, nfloxMax]
  · intro gp gp' _ a ha
    simp [flckinit] at ha
  · exact List.Perm.refl _
  · simp [flckinit]
  · simp [flckinit]
  · exact fun gp => lockList_nil
  · simp [flckinit]
  · simp [flckinit]
  · intro a ha
    obtain ⟨b, hb, _⟩ := Relation.TransGen.head'_iff.mp ha
    obtain ⟨sf, hsf, _⟩ := hb
    simp [flckinit] at hsf

/-- One clear action keeps the invariant. -/
theorem step_good {st st' : State} {a : Action} {r : Reply} (h : Good st) (hl : LocalAction a)
    (hc : Clear st a) (hs : Step st a st' r) : Good st' := by
  obtain ⟨n, hs⟩ := hs
  cases a with
  | reclock c =>
    simp only [step, commonReclock] at hs
    cases hcv : convert c with
    | error e =>
      rw [hcv] at hs
      simp only [Option.some.injEq, Prod.mk.injEq] at hs
      exact hs.1 ▸ h
    | ok c' =>
      rw [hcv] at hs
      obtain ⟨_, _, hf, hid, _⟩ := convert_eq hcv
      exact serve_good h (convert_converted hcv) ⟨hf.trans hl.retryFcn, hid.trans hl.retryId⟩
        (hc c' hcv) hs
  | resume t =>
    simp only [step] at hs
    split at hs
    next ht =>
      have hcall := h.calls t ht.1
      exact serve_good (good_leave h ht.1) hcall.1 hcall.2 hc hs
    next => simp at hs
  | interrupt t =>
    simp only [step] at hs
    split at hs
    next ht =>
      simp only [interrupt, Option.some.injEq, Prod.mk.injEq] at hs
      exact hs.1 ▸ good_leave h ht
    next => simp at hs

instance (st : State) (a b : Owner) : Decidable (WaitsFor st a b) := by
  unfold WaitsFor; infer_instance

/-- A write lock or an unlock of a whole file, by process `pid`. -/
def wholeFile (t : LockType) (gp : Nat) (pid : Int) (slp : Bool) : Action :=
  .reclock ⟨gp, 0, 0, ⟨t, .seekSet, 0, pid, 3, 0, 0⟩, ⟨false, true, slp⟩, none, 0⟩

def after (st : State) (a : Action) : State := ((step 4 st a).map Prod.fst).getD st

theorem step_after {st : State} {a : Action} {r : Reply}
    (h : (step 4 st a).map Prod.snd = some r) : Step st a (after st a) r := by
  cases hs : step 4 st a with
  | none => simp [hs] at h
  | some p =>
    obtain ⟨st', r'⟩ := p
    have hr : r' = r := by simpa [hs] using h
    refine ⟨4, ?_⟩
    rw [hs, after, hs, ← hr]
    rfl

/-- Process 1 holds file 0, and a thread of process 2 sleeps on it. -/
def oneAsleep : State :=
  after (after flckinit (wholeFile .wrlck 0 1 false)) (wholeFile .wrlck 0 2 true)

/-- Process 1 holds file 0, process 2 file 1, process 3 file 2. Two threads of
process 1 sleep, the first on file 1, the second on file 2. -/
def twoAsleep : State :=
  [wholeFile .wrlck 0 1 false, wholeFile .wrlck 1 2 false, wholeFile .wrlck 2 3 false,
    wholeFile .wrlck 1 1 true, wholeFile .wrlck 2 1 true].foldl after flckinit

/-- Process 2 asks for file 0. -/
def closed : State := after twoAsleep (wholeFile .wrlck 0 2 true)

end Aix413.Lockctl.Deadlock
