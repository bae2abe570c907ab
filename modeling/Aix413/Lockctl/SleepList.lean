import Aix413.Lockctl.Edits
import Aix413.Lockctl.Granting
import Aix413.Lockctl.Reclock

namespace Aix413.Lockctl.SleepList

open LockTable Flckadj LockPool Edits Granting Reclock

variable {m m' : Mem} {gn : Nat → List Filock} {gp : Nat} {l l' : List Filock}

/-- Every entry of the table is in one place, over all gnodes. -/
structure Tables (m : Mem) (gn : Nat → List Filock) : Prop where
  pools : ∀ gp, Pool m (gn gp)
  apart : ∀ gp gp', gp ≠ gp' → List.Disjoint (addrs (gn gp)) (addrs (gn gp'))

theorem Tables.unique (h : Tables m gn) {gp gp' : Nat} {f g : Filock} (hf : f ∈ gn gp)
    (hg : g ∈ gn gp') (he : f.addr = g.addr) : gp = gp' ∧ f = g := by
  have hgp : gp = gp' := by
    by_contra hne
    exact h.apart gp gp' hne (mem_addrs hf) (he ▸ mem_addrs hg)
  subst hgp
  exact ⟨rfl, eq_of_addr_eq (h.pools gp).nodup_list hf hg he⟩

/-- The entries of another gnode are not touched by a step on one gnode. -/
theorem pool_other {l₂ : List Filock} (hp : Pool m l) (h₂ : Pool m l₂)
    (hd : List.Disjoint (addrs l) (addrs l₂)) (h : Grown m l m' l') :
    Pool m' l₂ ∧ List.Disjoint (addrs l') (addrs l₂) := by
  have hp' : Pool m' l' := hp.grown h
  obtain ⟨hn, k, hk, _, hperm⟩ := h
  have hout : ∀ a ∈ pool m' l', a ∉ addrs l₂ := by
    intro a ha ha₂
    have hb := h₂.bound a (List.mem_append_right _ (List.mem_append_right _ ha₂))
    rcases List.mem_append.mp (hperm.subset ha) with ha | ha
    · have hnd := h₂.nodup
      rw [pool, ← List.append_assoc, List.nodup_append] at hnd
      rw [pool, ← List.append_assoc, List.mem_append] at ha
      rcases ha with ha | ha
      · exact hnd.2.2 a ha a ha₂ rfl
      · exact hd ha ha₂
    · have := (List.mem_range'_1.mp ha).1
      omega
  refine ⟨⟨?_, ?_, hp'.limit⟩, fun a ha => hout a (by simp [pool, ha])⟩
  · rw [pool, ← List.append_assoc, List.nodup_append]
    refine ⟨?_, h₂.nodup_list, ?_⟩
    · have hnd := hp'.nodup
      rw [pool, ← List.append_assoc] at hnd
      exact hnd.of_append_left
    · rintro a ha b hb rfl
      refine hout a ?_ hb
      rw [pool, ← List.append_assoc]
      exact List.mem_append_left _ ha
  · intro a ha
    rw [pool, ← List.append_assoc, List.mem_append] at ha
    rcases ha with ha | ha
    · refine hp'.bound a ?_
      rw [pool, ← List.append_assoc]
      exact List.mem_append_left _ ha
    · have hb := h₂.bound a (List.mem_append_right _ (List.mem_append_right _ ha))
      omega

theorem Tables.grown (h : Tables m gn) (hg : Grown m (gn gp) m' l') :
    Tables m' (Function.update gn gp l') := by
  constructor
  · intro x
    by_cases hx : x = gp
    · subst hx
      rw [Function.update_self]
      exact (h.pools x).grown hg
    · rw [Function.update_of_ne hx]
      exact (pool_other (h.pools gp) (h.pools x) (h.apart gp x (Ne.symm hx)) hg).1
  · intro x y hxy
    by_cases hx : x = gp
    · subst hx
      rw [Function.update_self, Function.update_of_ne hxy.symm]
      exact (pool_other (h.pools x) (h.pools y) (h.apart x y hxy) hg).2
    · rw [Function.update_of_ne hx]
      by_cases hy : y = gp
      · subst hy
        rw [Function.update_self]
        exact (pool_other (h.pools y) (h.pools x) (h.apart y x hxy.symm) hg).2.symm
      · rw [Function.update_of_ne hy]
        exact h.apart x y hxy

/-- The entry on the sleep list of a thread that sleeps on a lock of the list `l`. -/
structure Entry (l : List Filock) (t : Sleeper) (sf : Filock) : Prop where
  addr : sf.addr = t.sf
  set : sf.set = t.call.lckdat
  names : sf.filockp = some t.event
  blocked : sf.blocked = !t.awake
  lock : t.awake = false → ∃ f ∈ l, f.addr = t.event ∧ f.blocker = true ∧
    Blocks t.call.lckdat f.set ∧ blockerOwner sf = f.set.owner

/-- The sleep list and the threads asleep belong together. -/
structure Asleep (m : Mem) (gn : Nat → List Filock) : Prop where
  own : (m.sleepers.map Sleeper.sf).Perm (addrs m.sleeplcks)
  noRetry : ∀ sf ∈ m.sleeplcks, sf.retryFcn = none
  entries : ∀ t ∈ m.sleepers, ∃ sf ∈ m.sleeplcks, Entry (gn t.call.gp) t sf

/-- No thread still sleeps on the lock at `a`. -/
def Quiet (m : Mem) (a : Nat) : Prop := ∀ t ∈ m.sleepers, t.awake = false → t.event ≠ a

theorem lockWakeup_eq (h : ∀ sf ∈ m.sleeplcks, sf.retryFcn = none) (flp : Filock) :
    lockWakeup m flp = if flp.blocker then
      { m with
        sleeplcks := m.sleeplcks.map (release flp.addr)
        sleepers := m.sleepers.map (wakeEvent flp.addr) } else m := by
  unfold lockWakeup wakeAll
  have hnone : m.sleeplcks.filter (fun s => s.filockp = some flp.addr ∧ s.retryFcn.isSome) = [] := by
    refine List.filter_eq_nil_iff.mpr fun s hs => ?_
    simp [h s hs]
  have hall : m.sleeplcks.filter (fun s => ¬ (s.filockp = some flp.addr ∧ s.retryFcn.isSome)) =
      m.sleeplcks := by
    refine List.filter_eq_self.mpr fun s hs => ?_
    simp [h s hs]
  rw [hnone, hall]
  simp

@[simp] theorem release_addr (a : Nat) (s : Filock) : (release a s).addr = s.addr := by
  unfold release; split <;> rfl

@[simp] theorem release_set (a : Nat) (s : Filock) : (release a s).set = s.set := by
  unfold release; split <;> rfl

@[simp] theorem release_retryFcn (a : Nat) (s : Filock) : (release a s).retryFcn = s.retryFcn := by
  unfold release; split <;> rfl

@[simp] theorem release_filockp (a : Nat) (s : Filock) : (release a s).filockp = s.filockp := by
  unfold release; split <;> rfl

@[simp] theorem blockerOwner_release (a : Nat) (s : Filock) :
    blockerOwner (release a s) = blockerOwner s := by
  unfold release; split <;> rfl

@[simp] theorem wakeEvent_sf (a : Nat) (t : Sleeper) : (wakeEvent a t).sf = t.sf := by
  unfold wakeEvent; split <;> rfl

@[simp] theorem wakeEvent_event (a : Nat) (t : Sleeper) : (wakeEvent a t).event = t.event := by
  unfold wakeEvent; split <;> rfl

@[simp] theorem wakeEvent_call (a : Nat) (t : Sleeper) : (wakeEvent a t).call = t.call := by
  unfold wakeEvent; split <;> rfl

theorem wakeEvent_asleep {a : Nat} {t : Sleeper} (h : (wakeEvent a t).awake = false) :
    t.awake = false ∧ t.event ≠ a := by
  unfold wakeEvent at h
  split at h
  · simp at h
  next he => exact ⟨h, he⟩

/-- A thread and its entry are woken together. -/
theorem Entry.wake {t : Sleeper} {sf : Filock} (h : Entry l t sf) (a : Nat) :
    Entry l (wakeEvent a t) (release a sf) := by
  refine ⟨by simp [h.addr], by simp [h.set], by simp [h.names], ?_, ?_⟩
  · have hn := h.names
    have hb := h.blocked
    unfold release wakeEvent
    by_cases he : t.event = a
    · simp [hn, he]
    · simp [hn, he, hb]
  · intro ht
    obtain ⟨f, hf, h1, h2, h3, h4⟩ := h.lock (wakeEvent_asleep ht).1
    exact ⟨f, hf, by simpa using h1, h2, by simpa using h3, by simpa using h4⟩

theorem Asleep.wakeup (h : Asleep m gn) (flp : Filock) : Asleep (lockWakeup m flp) gn := by
  rw [lockWakeup_eq h.noRetry]
  split
  next =>
    refine ⟨?_, ?_, ?_⟩
    · rw [addrs_map_release, List.map_map]
      have hsf : Sleeper.sf ∘ wakeEvent flp.addr = Sleeper.sf := by
        funext t
        simp
      rw [hsf]
      exact h.own
    · intro sf hsf
      obtain ⟨s, hs, rfl⟩ := List.mem_map.mp hsf
      simpa using h.noRetry s hs
    · intro t ht
      obtain ⟨u, hu, rfl⟩ := List.mem_map.mp ht
      obtain ⟨sf, hsf, he⟩ := h.entries u hu
      rw [wakeEvent_call]
      exact ⟨release flp.addr sf, List.mem_map_of_mem hsf, he.wake flp.addr⟩
  next => exact h

/-- After `LOCK_WAKEUP` on a lock of a list no thread sleeps on it. -/
theorem quiet_wakeup (h : Asleep m gn) (ht : Tables m gn) {flp : Filock} (hf : flp ∈ gn gp) :
    Quiet (lockWakeup m flp) flp.addr := by
  rw [lockWakeup_eq h.noRetry]
  split
  next =>
    intro t ht hawake
    obtain ⟨u, _, rfl⟩ := List.mem_map.mp ht
    rw [wakeEvent_event]
    exact (wakeEvent_asleep hawake).2
  next hb =>
    intro t hts hawake he
    obtain ⟨sf, _, hentry⟩ := h.entries t hts
    obtain ⟨f, hfl, haddr, hbl, _, _⟩ := hentry.lock hawake
    have hff := (ht.unique hfl hf (haddr.trans he)).2
    exact hb (hff ▸ hbl)

/-- The list of a gnode may change as long as the locks slept on stay. -/
theorem Asleep.relist (h : Asleep m gn) (gp : Nat) (l' : List Filock) (a : Nat → Prop)
    (hq : ∀ t ∈ m.sleepers, t.awake = false → ¬ a t.event)
    (hl : ∀ f ∈ gn gp, ¬ a f.addr → ∃ f' ∈ l', f'.addr = f.addr ∧ f'.set = f.set ∧
      (f.blocker = true → f'.blocker = true)) : Asleep m (Function.update gn gp l') := by
  refine ⟨h.own, h.noRetry, fun t ht => ?_⟩
  obtain ⟨sf, hsf, he⟩ := h.entries t ht
  refine ⟨sf, hsf, he.addr, he.set, he.names, he.blocked, fun hawake => ?_⟩
  obtain ⟨f, hf, h1, h2, h3, h4⟩ := he.lock hawake
  by_cases hgp : t.call.gp = gp
  · subst hgp
    obtain ⟨f', hf', ha, hs, hb⟩ := hl f hf (h1 ▸ hq t ht hawake)
    rw [Function.update_self]
    exact ⟨f', hf', ha.trans h1, hb h2, hs ▸ h3, hs ▸ h4⟩
  · rw [Function.update_of_ne hgp]
    exact ⟨f, hf, h1, h2, h3, h4⟩

theorem Asleep.congr (h : Asleep m gn) (hs : m'.sleeplcks = m.sleeplcks)
    (ht : m'.sleepers = m.sleepers) : Asleep m' gn := by
  refine ⟨?_, ?_, ?_⟩
  · rw [hs, ht]
    exact h.own
  · rw [hs]
    exact h.noRetry
  · rw [hs, ht]
    exact h.entries

theorem takeFree_sleep {a : Nat} (h : takeFree m = some (a, m')) :
    m'.sleeplcks = m.sleeplcks ∧ m'.sleepers = m.sleepers := by
  have hg : ∀ n : Mem, n = (if m.frlock = [] then flockGrow m else m) →
      n.sleeplcks = m.sleeplcks ∧ n.sleepers = m.sleepers := by
    rintro n rfl
    split <;> exact ⟨rfl, rfl⟩
  simp only [takeFree] at h
  generalize hn : (if m.frlock = [] then flockGrow m else m) = n at h
  obtain ⟨h1, h2⟩ := hg n hn.symm
  cases hfr : n.frlock with
  | nil => simp [hfr] at h
  | cons b rest =>
    simp only [hfr, Option.some.injEq, Prod.mk.injEq] at h
    obtain ⟨_, rfl⟩ := h
    exact ⟨h1, h2⟩

/-- What holds between two calls of `common_reclock`, but for the lock lists. -/
structure Sound (m : Mem) (gn : Nat → List Filock) : Prop where
  tables : Tables m gn
  asleep : Asleep m gn

theorem edit_sound {o : Owner} {p q : Mem × List Filock} (gp : Nat) (h : Edit o p q)
    (hs : Sound p.1 (Function.update gn gp p.2)) : Sound q.1 (Function.update gn gp q.2) := by
  have hg := edit_grown h ((hs.tables.pools gp).limit)
  have htab : Tables q.1 (Function.update gn gp q.2) := by
    have hg' : Grown p.1 (Function.update gn gp p.2 gp) q.1 q.2 := by
      rw [Function.update_self]
      exact hg
    have ht := hs.tables.grown hg'
    rwa [Function.update_idem] at ht
  refine ⟨htab, ?_⟩
  cases h with
  | @drop m A B flp ho =>
    have hf : flp ∈ Function.update gn gp (A ++ flp :: B) gp := by simp
    have hq := quiet_wakeup hs.asleep hs.tables hf
    have hre := (hs.asleep.wakeup flp).relist gp (A ++ B) (fun a => a = flp.addr)
      (fun t ht ha => hq t ht ha) (fun f hfm hne => ?_)
    · rw [Function.update_idem] at hre
      exact hre.congr rfl rfl
    · rw [Function.update_self] at hfm
      have hfne : f ≠ flp := fun he => hne (congrArg Filock.addr he)
      exact ⟨f, by simpa [hfne] using hfm, rfl, rfl, id⟩
  | @trim m A B flp e m' hm ho =>
    have hf : flp ∈ Function.update gn gp (A ++ flp :: B) gp := by simp
    have hq := quiet_wakeup hs.asleep hs.tables hf
    have hre := (hs.asleep.wakeup flp).relist gp
      (A ++ trimEnd (wokenLock m' flp) e :: B) (fun a => a = flp.addr)
      (fun t ht ha => hq t ht ha) (fun f hfm hne => ?_)
    · rwa [Function.update_idem] at hre
    · rw [Function.update_self] at hfm
      have hfne : f ≠ flp := fun he => hne (congrArg Filock.addr he)
      refine ⟨f, ?_, rfl, rfl, id⟩
      have hfm' : f ∈ A ++ B := by simpa [hfne] using hfm
      rcases List.mem_append.mp hfm' with hA | hB
      · exact List.mem_append_left _ hA
      · exact List.mem_append_right _ (List.mem_cons_of_mem _ hB)
  | @link m m' A B a e ha ho =>
    obtain ⟨h1, h2⟩ := takeFree_sleep ha
    have hre := hs.asleep.relist gp (A ++ freshFilock a e :: B) (fun _ => False)
      (fun _ _ _ => id) (fun f hfm _ => ?_)
    · rw [Function.update_idem] at hre
      exact hre.congr h1 h2
    · rw [Function.update_self] at hfm
      refine ⟨f, ?_, rfl, rfl, id⟩
      rcases List.mem_append.mp hfm with hA | hB
      · exact List.mem_append_left _ hA
      · exact List.mem_append_right _ (List.mem_cons_of_mem _ hB)

theorem edited_sound {o : Owner} {p q : Mem × List Filock} (gp : Nat) (h : Edited o p q)
    (hs : Sound p.1 (Function.update gn gp p.2)) : Sound q.1 (Function.update gn gp q.2) := by
  induction h with
  | refl => exact hs
  | tail _ hstep ih => exact edit_sound gp hstep ih

theorem remove_perm {a : Nat} {l : List Filock} (hn : (addrs l).Nodup) (ha : a ∈ addrs l) :
    (addrs l).Perm (a :: addrs (remove a l)) := by
  have hr : addrs (remove a l) = (addrs l).erase a := by
    rw [hn.erase_eq_filter, remove, addrs, addrs, List.filter_map]
    rfl
  rw [hr]
  exact List.perm_cons_erase ha

theorem grown_delflckSleep {a : Nat} (hn : (addrs m.sleeplcks).Nodup) (ha : a ∈ addrs m.sleeplcks)
    (l : List Filock) : Grown m l (delflckSleep m a) l := by
  have hq : (pool (delflckSleep m a) l).Perm (pool m l) := by
    simp only [pool, delflckSleep, List.cons_append]
    refine List.perm_middle.symm.trans (List.Perm.append_left _ ?_)
    exact ((remove_perm hn ha).symm).append_right _
  exact Grown.of_perm rfl rfl hq

theorem Tables.nodup_sleeplcks (h : Tables m gn) : (addrs m.sleeplcks).Nodup :=
  (h.pools 0).nodup.of_append_right.of_append_left

/-- A thread that goes on takes its own entry with it. -/
theorem leave_sound {st : State} {t : Sleeper} (h : Sound st.mem st.gnodes)
    (ht : t ∈ st.mem.sleepers) : Sound (leave st t).mem (leave st t).gnodes := by
  have hn := h.tables.nodup_sleeplcks
  have hown := h.asleep.own
  have hmem : t.sf ∈ addrs st.mem.sleeplcks := hown.subset (List.mem_map_of_mem ht)
  have hsleep : (st.mem.sleepers.map Sleeper.sf).Nodup := hown.nodup_iff.mpr hn
  have hperm := List.perm_cons_erase ht
  constructor
  · have hg : ∀ gp, Grown st.mem (st.gnodes gp) (leave st t).mem (st.gnodes gp) := fun gp =>
      (grown_delflckSleep hn hmem (st.gnodes gp)).trans
        (Grown.of_perm rfl rfl (List.Perm.refl _))
    have h0 := h.tables.grown (hg 0)
    rwa [Function.update_eq_self] at h0
  · refine ⟨?_, ?_, ?_⟩
    · have h1 := ((hperm.map Sleeper.sf).symm.trans hown).trans (remove_perm hn hmem)
      exact h1.cons_inv
    · intro sf hsf
      exact h.asleep.noRetry sf (List.mem_filter.mp hsf).1
    · intro u hu
      obtain ⟨sf, hsf, he⟩ := h.asleep.entries u (List.mem_of_mem_erase hu)
      refine ⟨sf, List.mem_filter.mpr ⟨hsf, ?_⟩, he⟩
      have hne : u.sf ≠ t.sf := by
        intro heq
        have hnd := (hperm.map Sleeper.sf).nodup_iff.mp hsleep
        rw [List.map_cons, List.nodup_cons] at hnd
        exact hnd.1 (heq ▸ List.mem_map_of_mem hu)
      rw [he.addr]
      simpa using hne

/-- `l_vfs` survives the `short` of a sleeping entry and the `ushort` of
`deadflck`. -/
def InRange (e : Eflock) : Prop := 0 ≤ e.lVfs ∧ e.lVfs < 2 ^ 16

theorem toUshort_eq {x : Int} (h0 : 0 ≤ x) (h1 : x < 2 ^ 16) : toUshort x = x := by
  unfold toUshort
  omega

theorem toUshort_toShort {x : Int} (h0 : 0 ≤ x) (h1 : x < 2 ^ 16) : toUshort (toShort x) = x := by
  have he : Int.bmod x (2 ^ 16) % ((2 ^ 16 : Nat) : Int) = x % ((2 ^ 16 : Nat) : Int) :=
    Int.bmod_emod
  simp only [Nat.cast_pow, Nat.cast_ofNat] at he
  rw [toUshort, toShort, he]
  omega

/-- The entry that a request gets when it goes to sleep on `f`. -/
def sleepEntry (a : Nat) (r : Eflock) (f : Filock) : Filock :=
  setBlocked a f none (freshFilock a r)

theorem blockerOwner_sleepEntry {a : Nat} {r : Eflock} {f : Filock} (hf : InRange f.set) :
    blockerOwner (sleepEntry a r f) = f.set.owner := by
  simp [sleepEntry, setBlocked, blockerOwner, toUshort_toShort hf.1 hf.2, Eflock.owner]

/-- A request that repeats no other gets an entry of its own at the head of
the sleep list. -/
theorem enqueue_eq {r : Eflock} {f : Filock} {a : Nat}
    (hfree : ∀ b m₁, takeFree m = some (b, m₁) → b ∉ addrs m.sleeplcks)
    (hrep : r.lVfs = mntNfs → ∀ sf ∈ m.sleeplcks, repeats r sf = false)
    (h : enqueue m l r f none = some (m', l', a)) :
    ∃ m₁, takeFree m = some (a, m₁) ∧ l' = l.map (markBlocker f.addr) ∧
      m' = { m₁ with sleeplcks := sleepEntry a r f :: m.sleeplcks } := by
  have hfind : (if r.lVfs = mntNfs then m.sleeplcks.find? (repeats r) else none) = none := by
    split
    next hv =>
      refine List.find?_eq_none.mpr fun sf hsf => ?_
      simp [hrep hv sf hsf]
    next => rfl
  unfold enqueue insflckSleep at h
  rw [hfind] at h
  cases ht : takeFree m with
  | none => simp [ht] at h
  | some p =>
    obtain ⟨b, m₁⟩ := p
    rw [ht] at h
    simp only [Option.some.injEq, Prod.mk.injEq] at h
    obtain ⟨rfl, rfl, rfl⟩ := h
    obtain ⟨hsl, _⟩ := takeFree_sleep ht
    have hid : m.sleeplcks.map (setBlocked b f none) = m.sleeplcks := by
      refine (List.map_congr_left fun s hs => ?_).trans (List.map_id _)
      have hne : s.addr ≠ b := fun he => hfree b m₁ ht (he ▸ mem_addrs hs)
      simp [setBlocked, hne]
    refine ⟨m₁, rfl, rfl, ?_⟩
    rw [List.map_cons, hsl, hid]
    rfl

theorem takeFree_fresh {a : Nat} (hp : Pool m l) (h : takeFree m = some (a, m')) :
    a ∉ addrs m.sleeplcks := by
  have hg := grown_takeFree hp.limit h [] l (freshFilock a ⟨.unlck, .seekSet, 0, 0, 0, 0, 0⟩) rfl
  have hp' := hp.grown hg
  rw [← (takeFree_sleep h).1]
  intro ha
  have hnd := hp'.nodup.of_append_right
  rw [List.nodup_append] at hnd
  exact hnd.2.2 a ha a (by simp) rfl

/-- A request goes to sleep on the lock that blocks it. -/
theorem sleep_sound {c : Call} {w : Whence} {f : Filock} {a : Nat} (h : Sound m gn)
    (hf : f ∈ gn c.gp) (hb : Blocks c.lckdat f.set) (hv : InRange f.set) {m₁ : Mem}
    (ht : takeFree m = some (a, m₁)) :
    Sound { m₁ with
        sleeplcks := sleepEntry a c.lckdat f :: m.sleeplcks
        sleepers := ⟨f.addr, a, c, w, false⟩ :: m₁.sleepers }
      (Function.update gn c.gp ((gn c.gp).map (markBlocker f.addr))) := by
  obtain ⟨hsl, hsp⟩ := takeFree_sleep ht
  have haddr : ∀ x, (markBlocker f.addr x).addr = x.addr := by
    intro x
    unfold markBlocker
    split <;> rfl
  have hset : ∀ x, (markBlocker f.addr x).set = x.set := by
    intro x
    unfold markBlocker
    split <;> rfl
  have hmark : addrs ((gn c.gp).map (markBlocker f.addr)) = addrs (gn c.gp) := by
    simp only [addrs, List.map_map]
    exact List.map_congr_left fun x _ => haddr x
  have hentry : (sleepEntry a c.lckdat f).addr = a := by simp [sleepEntry, setBlocked]
  constructor
  · refine h.tables.grown ?_
    refine (grown_takeFree (h.tables.pools c.gp).limit ht [] (gn c.gp) (freshFilock a c.lckdat)
      rfl).trans (Grown.of_perm rfl rfl ?_)
    simp only [pool, hmark, hsl, addrs_cons, hentry, List.nil_append, freshFilock_addr,
      List.cons_append]
    exact List.Perm.append_left _ List.perm_middle.symm
  · have hre : Asleep m (Function.update gn c.gp ((gn c.gp).map (markBlocker f.addr))) := by
      refine h.asleep.relist c.gp _ (fun _ => False) (fun _ _ _ => id) (fun x hx _ => ?_)
      refine ⟨markBlocker f.addr x, List.mem_map_of_mem hx, haddr x, hset x, fun hbl => ?_⟩
      unfold markBlocker
      split
      · rfl
      · exact hbl
    refine ⟨?_, ?_, ?_⟩
    · simp only [List.map_cons, addrs_cons, hsp, hentry]
      exact hre.own.cons a
    · intro sf hsf
      rcases List.mem_cons.mp hsf with rfl | hsf
      · simp [sleepEntry, setBlocked]
      · exact hre.noRetry sf hsf
    · intro t hts
      rcases List.mem_cons.mp hts with rfl | hts
      · refine ⟨sleepEntry a c.lckdat f, by simp, hentry, by simp [sleepEntry, setBlocked],
          by simp [sleepEntry, setBlocked], by simp [sleepEntry, setBlocked], fun _ => ?_⟩
        refine ⟨markBlocker f.addr f, ?_, haddr f, by simp [markBlocker], ?_, ?_⟩
        · rw [Function.update_self]
          exact List.mem_map_of_mem hf
        · rw [hset]
          exact hb
        · rw [hset]
          exact blockerOwner_sleepEntry hv
      · rw [hsp] at hts
        obtain ⟨sf, hsf, he⟩ := hre.entries t hts
        exact ⟨sf, List.mem_cons_of_mem _ hsf, he⟩

end Aix413.Lockctl.SleepList
