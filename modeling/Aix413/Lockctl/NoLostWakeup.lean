import Aix413.Lockctl.Deadlock

namespace Aix413.Lockctl.NoLostWakeup

open LockTable Flckadj LockMap LockPool Placement ScanLemmas Adjust Edits Granting Reclock
open SleepList Turns Deadlock

variable {m m' : Mem} {gn : Nat → List Filock} {gp : Nat} {l l' : List Filock} {flp : Filock}

/-- The entry of the sleep list names a lock of some gnode that is in its way. -/
def Named (gn : Nat → List Filock) (sf : Filock) : Prop :=
  ∃ gp, ∃ f ∈ gn gp, sf.filockp = some f.addr ∧ f.blocker = true ∧ Blocks sf.set f.set

/-- The entry of a thread asleep. -/
structure Own (t : Sleeper) (sf : Filock) : Prop where
  addr : sf.addr = t.sf
  retryFcn : sf.retryFcn = none
  set : sf.set = t.call.lckdat
  names : sf.filockp = some t.event
  blocked : sf.blocked = !t.awake

/-- The sleep list holds an entry for each thread asleep and those of the lock
daemon's requests, which leave the list when they are awakened. -/
structure Waiting (m : Mem) (gn : Nat → List Filock) : Prop where
  own : (m.sleepers.map Sleeper.sf).Perm
    (addrs (m.sleeplcks.filter fun sf => sf.retryFcn.isNone))
  threads : ∀ t ∈ m.sleepers, ∃ sf ∈ m.sleeplcks, Own t sf
  daemon : ∀ sf ∈ m.sleeplcks, sf.retryFcn.isSome = true → sf.blocked = true
  named : ∀ sf ∈ m.sleeplcks, sf.blocked = true → Named gn sf

/-- Nothing on the sleep list waits for the lock at `a`. -/
def Unnamed (m : Mem) (a : Nat) : Prop :=
  ∀ sf ∈ m.sleeplcks, sf.blocked = true → sf.filockp ≠ some a

theorem Waiting.congr (h : Waiting m gn) (hs : m'.sleeplcks = m.sleeplcks)
    (ht : m'.sleepers = m.sleepers) : Waiting m' gn := by
  refine ⟨?_, ?_, ?_, ?_⟩
  · rw [hs, ht]
    exact h.own
  · rw [hs, ht]
    exact h.threads
  · rw [hs]
    exact h.daemon
  · rw [hs]
    exact h.named

/-! ## A wakeup -/

/-- What is left on the sleep list after a wakeup for the lock at `a`. -/
theorem mem_wakeAll {a : Nat} {sf : Filock} : sf ∈ (wakeAll m a).sleeplcks ↔
    ∃ s ∈ m.sleeplcks, ¬(s.filockp = some a ∧ s.retryFcn.isSome = true) ∧ release a s = sf := by
  simp only [wakeAll, List.mem_map, List.mem_filter, decide_eq_true_eq, and_assoc]

theorem release_blocked {a : Nat} {s : Filock} (h : (release a s).blocked = true) :
    s.filockp ≠ some a ∧ release a s = s := by
  unfold release at h ⊢
  split at h
  · simp at h
  next hne => exact ⟨hne, if_neg hne⟩

theorem Own.wake {t : Sleeper} {sf : Filock} (h : Own t sf) (a : Nat) :
    Own (wakeEvent a t) (release a sf) := by
  refine ⟨by simp [h.addr], by simp [h.retryFcn], by simp [h.set], by simp [h.names], ?_⟩
  have hn := h.names
  have hb := h.blocked
  unfold release wakeEvent
  by_cases he : t.event = a
  · simp [hn, he]
  · simp [hn, he, hb]

theorem own_wakeAll (h : Waiting m gn) (a : Nat) : ((wakeAll m a).sleepers.map Sleeper.sf).Perm
    (addrs ((wakeAll m a).sleeplcks.filter fun sf => sf.retryFcn.isNone)) := by
  have hsf : (wakeAll m a).sleepers.map Sleeper.sf = m.sleepers.map Sleeper.sf := by
    simp only [wakeAll, List.map_map]
    exact List.map_congr_left fun t _ => wakeEvent_sf a t
  have hnone : (fun sf : Filock => sf.retryFcn.isNone) ∘ release a = fun sf => sf.retryFcn.isNone := by
    funext sf
    simp
  have hkeep : (m.sleeplcks.filter fun s => ¬(s.filockp = some a ∧ s.retryFcn.isSome)).filter
      (fun sf => sf.retryFcn.isNone) = m.sleeplcks.filter fun sf => sf.retryFcn.isNone := by
    rw [List.filter_filter]
    refine List.filter_congr fun s _ => ?_
    cases s.retryFcn <;> simp
  rw [hsf]
  simp only [wakeAll]
  rw [List.filter_map, hnone, hkeep, addrs_map_release]
  exact h.own

theorem Waiting.wakeup (h : Waiting m gn) (flp : Filock) : Waiting (lockWakeup m flp) gn := by
  unfold lockWakeup
  split
  next =>
    refine ⟨own_wakeAll h flp.addr, fun t ht => ?_, fun sf hsf hr => ?_, fun sf hsf hb => ?_⟩
    · obtain ⟨u, hu, rfl⟩ := List.mem_map.mp ht
      obtain ⟨sf, hsf, he⟩ := h.threads u hu
      exact ⟨release flp.addr sf, mem_wakeAll.mpr ⟨sf, hsf, by simp [he.retryFcn], rfl⟩, he.wake _⟩
    · obtain ⟨s, hs, hgone, rfl⟩ := mem_wakeAll.mp hsf
      rw [release_retryFcn] at hr
      have hne : s.filockp ≠ some flp.addr := fun he => hgone ⟨he, hr⟩
      rw [release, if_neg hne]
      exact h.daemon s hs hr
    · obtain ⟨s, hs, -, rfl⟩ := mem_wakeAll.mp hsf
      obtain ⟨-, he⟩ := release_blocked hb
      rw [he] at hb ⊢
      exact h.named s hs hb
  next => exact h

/-- A wakeup leaves nothing that waits for the lock. -/
theorem unnamed_wakeup (h : Waiting m gn) (ht : Tables m gn) (hf : flp ∈ gn gp) :
    Unnamed (lockWakeup m flp) flp.addr := by
  unfold lockWakeup
  split
  next =>
    intro sf hsf hb
    obtain ⟨s, -, -, rfl⟩ := mem_wakeAll.mp hsf
    rw [release_filockp]
    exact (release_blocked hb).1
  next hbl =>
    intro sf hsf hb he
    obtain ⟨gp', f, hfl, hname, hblk, -⟩ := h.named sf hsf hb
    have hsame := (ht.unique hfl hf (Option.some.inj (hname.symm.trans he))).2
    exact hbl (hsame ▸ hblk)

/-- The list of a gnode may change as long as the locks waited for stay. -/
theorem Waiting.relist (h : Waiting m gn) (gp : Nat) (l' : List Filock) (a : Nat → Prop)
    (hq : ∀ b, a b → Unnamed m b)
    (hl : ∀ f ∈ gn gp, ¬a f.addr → ∃ f' ∈ l', f'.addr = f.addr ∧ f'.set = f.set ∧
      (f.blocker = true → f'.blocker = true)) : Waiting m (Function.update gn gp l') := by
  refine ⟨h.own, h.threads, h.daemon, fun sf hsf hb => ?_⟩
  obtain ⟨gp', f, hf, hname, hblk, hblocks⟩ := h.named sf hsf hb
  by_cases hgp : gp' = gp
  · subst hgp
    obtain ⟨f', hf', ha, hs, hbl⟩ := hl f hf fun hfa => hq _ hfa sf hsf hb hname
    refine ⟨gp', f', ?_, by rw [ha, hname], hbl hblk, hs ▸ hblocks⟩
    rwa [Function.update_self]
  · refine ⟨gp', f, ?_, hname, hblk, hblocks⟩
    rwa [Function.update_of_ne hgp]

/-! ## The edits of flckadj -/

theorem edit_waiting {o : Owner} {p q : Mem × List Filock} (gp : Nat) (h : Edit o p q)
    (ht : Tables p.1 (Function.update gn gp p.2)) (hs : Waiting p.1 (Function.update gn gp p.2)) :
    Waiting q.1 (Function.update gn gp q.2) := by
  cases h with
  | @drop m A B flp ho =>
    have hf : flp ∈ Function.update gn gp (A ++ flp :: B) gp := by simp
    have hre := (hs.wakeup flp).relist gp (A ++ B) (fun a => a = flp.addr)
      (fun b hb => hb ▸ unnamed_wakeup hs ht hf) (fun f hfm hne => ?_)
    · rw [Function.update_idem] at hre
      exact hre.congr rfl rfl
    · rw [Function.update_self] at hfm
      have hfne : f ≠ flp := fun he => hne (congrArg Filock.addr he)
      exact ⟨f, by simpa [hfne] using hfm, rfl, rfl, id⟩
  | @trim m A B flp e m' hm ho =>
    have hf : flp ∈ Function.update gn gp (A ++ flp :: B) gp := by simp
    have hre := (hs.wakeup flp).relist gp (A ++ trimEnd (wokenLock m' flp) e :: B)
      (fun a => a = flp.addr) (fun b hb => hb ▸ unnamed_wakeup hs ht hf) (fun f hfm hne => ?_)
    · rwa [Function.update_idem] at hre
    · rw [Function.update_self] at hfm
      have hfne : f ≠ flp := fun he => hne (congrArg Filock.addr he)
      have hfm' : f ∈ A ++ B := by simpa [hfne] using hfm
      refine ⟨f, ?_, rfl, rfl, id⟩
      rcases List.mem_append.mp hfm' with hA | hB
      · exact List.mem_append_left _ hA
      · exact List.mem_append_right _ (List.mem_cons_of_mem _ hB)
  | @link m m' A B a e ha ho =>
    obtain ⟨h1, h2⟩ := takeFree_sleep ha
    have hre := hs.relist gp (A ++ freshFilock a e :: B) (fun _ => False)
      (fun _ => False.elim) (fun f hfm _ => ?_)
    · rw [Function.update_idem] at hre
      exact hre.congr h1 h2
    · rw [Function.update_self] at hfm
      refine ⟨f, ?_, rfl, rfl, id⟩
      rcases List.mem_append.mp hfm with hA | hB
      · exact List.mem_append_left _ hA
      · exact List.mem_append_right _ (List.mem_cons_of_mem _ hB)

theorem edit_tables {o : Owner} {p q : Mem × List Filock} (gp : Nat) (h : Edit o p q)
    (ht : Tables p.1 (Function.update gn gp p.2)) : Tables q.1 (Function.update gn gp q.2) := by
  have hg : Grown p.1 (Function.update gn gp p.2 gp) q.1 q.2 := by
    rw [Function.update_self]
    exact edit_grown h (ht.pools gp).limit
  have hgrown := ht.grown hg
  rwa [Function.update_idem] at hgrown

theorem edited_waiting {o : Owner} {p q : Mem × List Filock} (gp : Nat) (h : Edited o p q)
    (ht : Tables p.1 (Function.update gn gp p.2)) (hs : Waiting p.1 (Function.update gn gp p.2)) :
    Tables q.1 (Function.update gn gp q.2) ∧ Waiting q.1 (Function.update gn gp q.2) := by
  induction h with
  | refl => exact ⟨ht, hs⟩
  | tail _ hstep ih => exact ⟨edit_tables gp hstep ih.1, edit_waiting gp hstep ih.1 ih.2⟩

/-! ## A request goes on the sleep list -/

/-- The entry of a request that repeats no other. -/
def queuedEntry (a : Nat) (r : Eflock) (f : Filock) (rf : Option Nat) : Filock :=
  setBlocked a f rf (freshFilock a r)

@[simp] theorem queuedEntry_addr (a : Nat) (r : Eflock) (f : Filock) (rf : Option Nat) :
    (queuedEntry a r f rf).addr = a := by simp [queuedEntry, setBlocked]

@[simp] theorem queuedEntry_set (a : Nat) (r : Eflock) (f : Filock) (rf : Option Nat) :
    (queuedEntry a r f rf).set = r := by simp [queuedEntry, setBlocked]

@[simp] theorem queuedEntry_retryFcn (a : Nat) (r : Eflock) (f : Filock) (rf : Option Nat) :
    (queuedEntry a r f rf).retryFcn = rf := by simp [queuedEntry, setBlocked]

@[simp] theorem queuedEntry_blocked (a : Nat) (r : Eflock) (f : Filock) (rf : Option Nat) :
    (queuedEntry a r f rf).blocked = true := by simp [queuedEntry, setBlocked]

@[simp] theorem queuedEntry_filockp (a : Nat) (r : Eflock) (f : Filock) (rf : Option Nat) :
    (queuedEntry a r f rf).filockp = some f.addr := by simp [queuedEntry, setBlocked]

@[simp] theorem setBlocked_addr (a : Nat) (f : Filock) (rf : Option Nat) (s : Filock) :
    (setBlocked a f rf s).addr = s.addr := by
  unfold setBlocked
  split <;> rfl

@[simp] theorem markBlocker_addr (a : Nat) (f : Filock) : (markBlocker a f).addr = f.addr := by
  unfold markBlocker
  split <;> rfl

@[simp] theorem markBlocker_set (a : Nat) (f : Filock) : (markBlocker a f).set = f.set := by
  unfold markBlocker
  split <;> rfl

theorem addrs_map_markBlocker (a : Nat) (l : List Filock) :
    addrs (l.map (markBlocker a)) = addrs l := by
  simp only [addrs, List.map_map]
  exact List.map_congr_left fun f _ => markBlocker_addr a f

/-- The entry on the sleep list that the request repeats. -/
def repeated (m : Mem) (r : Eflock) : Option Filock :=
  if r.lVfs = mntNfs then m.sleeplcks.find? (repeats r) else none

/-- A request gets the entry it repeats, or else an entry of its own. -/
theorem enqueue_cases {r : Eflock} {f : Filock} {rf : Option Nat} {a : Nat} (hp : Pool m l)
    (h : enqueue m l r f rf = some (m', l', a)) : l' = l.map (markBlocker f.addr) ∧
      ((∃ sf, repeated m r = some sf ∧ a = sf.addr ∧
        m' = { m with sleeplcks := m.sleeplcks.map (setBlocked a f rf) }) ∨
      (repeated m r = none ∧ ∃ n, takeFree m = some (a, n) ∧
        m' = { n with sleeplcks := queuedEntry a r f rf :: m.sleeplcks })) := by
  unfold enqueue insflckSleep at h
  unfold repeated
  cases hr : (if r.lVfs = mntNfs then m.sleeplcks.find? (repeats r) else none) with
  | some sf =>
    simp only [hr, Option.some.injEq, Prod.mk.injEq] at h
    obtain ⟨rfl, rfl, rfl⟩ := h
    exact ⟨rfl, Or.inl ⟨sf, rfl, rfl, rfl⟩⟩
  | none =>
    cases ht : takeFree m with
    | none => simp [hr, ht] at h
    | some p =>
      obtain ⟨b, n⟩ := p
      simp only [hr, ht, Option.some.injEq, Prod.mk.injEq] at h
      obtain ⟨rfl, rfl, rfl⟩ := h
      have hid : m.sleeplcks.map (setBlocked b f rf) = m.sleeplcks := by
        refine (List.map_congr_left fun s hs => ?_).trans (List.map_id _)
        have hne : s.addr ≠ b := fun he => takeFree_fresh hp ht (he ▸ mem_addrs hs)
        simp [setBlocked, hne]
      refine ⟨rfl, Or.inr ⟨rfl, n, rfl, ?_⟩⟩
      rw [List.map_cons, (takeFree_sleep ht).1, hid]
      rfl

theorem Waiting.mark (h : Waiting m gn) (gp a : Nat) :
    Waiting m (Function.update gn gp ((gn gp).map (markBlocker a))) := by
  refine h.relist gp _ (fun _ => False) (fun _ => False.elim) fun f hf _ => ?_
  refine ⟨markBlocker a f, List.mem_map_of_mem hf, by simp, by simp, fun hb => ?_⟩
  unfold markBlocker
  split
  · rfl
  · exact hb

/-- What an entry names that is filled in for the lock `f`. -/
theorem named_marked {f sf : Filock} (hf : f ∈ gn gp) (hn : sf.filockp = some f.addr)
    (hb : Blocks sf.set f.set) :
    Named (Function.update gn gp ((gn gp).map (markBlocker f.addr))) sf := by
  refine ⟨gp, markBlocker f.addr f, ?_, by simpa using hn, by simp [markBlocker], by simpa using hb⟩
  rw [Function.update_self]
  exact List.mem_map_of_mem hf

theorem queued_tables {r : Eflock} {f : Filock} {rf : Option Nat} {a : Nat} (h : Tables m gn)
    (ht : takeFree m = some (a, m')) (s : List Sleeper) :
    Tables { m' with sleeplcks := queuedEntry a r f rf :: m.sleeplcks, sleepers := s }
      (Function.update gn gp ((gn gp).map (markBlocker f.addr))) := by
  refine h.grown ((grown_takeFree (h.pools gp).limit ht [] (gn gp) (freshFilock a r) rfl).trans
    (Grown.of_perm rfl rfl ?_))
  simp only [pool, addrs_map_markBlocker, (takeFree_sleep ht).1, addrs_cons, queuedEntry_addr,
    List.nil_append, freshFilock_addr, List.cons_append]
  exact List.Perm.append_left _ List.perm_middle.symm

/-- A request of the lock daemon goes on the sleep list. -/
theorem queued_daemon {r : Eflock} {f : Filock} {rf : Option Nat} {a : Nat} (h : Waiting m gn)
    (hf : f ∈ gn gp) (hb : Blocks r f.set) (hr : rf.isSome = true)
    (ht : takeFree m = some (a, m')) :
    Waiting { m' with sleeplcks := queuedEntry a r f rf :: m.sleeplcks }
      (Function.update gn gp ((gn gp).map (markBlocker f.addr))) := by
  have hm := h.mark gp f.addr
  have hr' : rf.isNone = false := by simpa using hr
  refine ⟨?_, fun t hts => ?_, fun sf hsf hs => ?_, fun sf hsf hbl => ?_⟩
  · simpa [hr', (takeFree_sleep ht).2] using hm.own
  · have hts' : t ∈ m'.sleepers := hts
    rw [(takeFree_sleep ht).2] at hts'
    obtain ⟨sf, hsf, he⟩ := hm.threads t hts'
    exact ⟨sf, List.mem_cons_of_mem _ hsf, he⟩
  · rcases List.mem_cons.mp hsf with rfl | hsf
    · simp
    · exact hm.daemon sf hsf hs
  · rcases List.mem_cons.mp hsf with rfl | hsf
    · exact named_marked hf (by simp) (by simpa using hb)
    · exact hm.named sf hsf hbl

/-- A thread goes to sleep. -/
theorem queued_thread {c : Call} {w : Whence} {f : Filock} {a : Nat} (h : Waiting m gn)
    (hf : f ∈ gn gp) (hb : Blocks c.lckdat f.set) (ht : takeFree m = some (a, m')) :
    Waiting { m' with
        sleeplcks := queuedEntry a c.lckdat f none :: m.sleeplcks
        sleepers := ⟨f.addr, a, c, w, false⟩ :: m'.sleepers }
      (Function.update gn gp ((gn gp).map (markBlocker f.addr))) := by
  have hm := h.mark gp f.addr
  refine ⟨?_, fun t hts => ?_, fun sf hsf hs => ?_, fun sf hsf hbl => ?_⟩
  · simpa [(takeFree_sleep ht).2] using hm.own
  · rcases List.mem_cons.mp hts with rfl | hts
    · exact ⟨queuedEntry a c.lckdat f none, by simp, by simp, by simp, by simp, by simp, by simp⟩
    · rw [(takeFree_sleep ht).2] at hts
      obtain ⟨sf, hsf, he⟩ := hm.threads t hts
      exact ⟨sf, List.mem_cons_of_mem _ hsf, he⟩
  · rcases List.mem_cons.mp hsf with rfl | hsf
    · simp at hs
    · exact hm.daemon sf hsf hs
  · rcases List.mem_cons.mp hsf with rfl | hsf
    · exact named_marked hf (by simp) (by simpa using hb)
    · exact hm.named sf hsf hbl

theorem mem_of_repeated {r : Eflock} {sf : Filock} (h : repeated m r = some sf) :
    sf ∈ m.sleeplcks ∧ sf.set.owner = r.owner ∧ sf.set.lStart = r.lStart ∧
      sf.set.lEnd = r.lEnd := by
  unfold repeated at h
  split at h
  · have hmem := List.mem_of_find?_eq_some h
    have hrep := List.find?_some h
    simp only [repeats, Bool.and_eq_true, beq_iff_eq, sameOwner_iff] at hrep
    exact ⟨hmem, hrep.2, hrep.1.1, hrep.1.2⟩
  · simp at h

/-- The lock daemon repeats a request of its own, and the lock found is in the
way of the request first made. -/
theorem repeated_daemon {r : Eflock} {f sf : Filock} {rf : Option Nat} (h : Waiting m gn)
    (hn : (addrs m.sleeplcks).Nodup) (hf : f ∈ gn gp) (hb : Blocks r f.set)
    (hrep : repeated m r = some sf) (hr : rf.isSome = true) (hs : sf.retryFcn.isSome = true)
    (hc : conflicts f.set sf.set = true) :
    Waiting { m with sleeplcks := m.sleeplcks.map (setBlocked sf.addr f rf) }
      (Function.update gn gp ((gn gp).map (markBlocker f.addr))) := by
  have hm := h.mark gp f.addr
  obtain ⟨hsf, ho, hst, hen⟩ := mem_of_repeated hrep
  have hsame : ∀ s ∈ m.sleeplcks, s.addr = sf.addr → s = sf := fun s hs' he =>
    eq_of_addr_eq hn hs' hsf he
  have hkeep : ∀ s ∈ m.sleeplcks, s.retryFcn = none → setBlocked sf.addr f rf s = s := by
    intro s hs' hnone
    have hne : s.addr ≠ sf.addr := by
      intro he
      rw [← hsame s hs' he, hnone] at hs
      exact Bool.noConfusion hs
    exact if_neg hne
  have hnone : ∀ s ∈ m.sleeplcks,
      (setBlocked sf.addr f rf s).retryFcn.isNone = s.retryFcn.isNone := by
    intro s hs'
    unfold setBlocked
    split
    next he =>
      rw [hsame s hs' he]
      cases hrf : rf <;> cases hsr : sf.retryFcn <;> simp_all
    next => rfl
  refine ⟨?_, fun t hts => ?_, fun s hs' hret => ?_, fun s hs' hbl => ?_⟩
  · have heq : addrs ((m.sleeplcks.map (setBlocked sf.addr f rf)).filter
        fun s => s.retryFcn.isNone) = addrs (m.sleeplcks.filter fun s => s.retryFcn.isNone) := by
      have hfilter : m.sleeplcks.filter ((fun s => s.retryFcn.isNone) ∘ setBlocked sf.addr f rf) =
          m.sleeplcks.filter fun s => s.retryFcn.isNone :=
        List.filter_congr fun s hs' => hnone s hs'
      rw [List.filter_map, hfilter, addrs, addrs, List.map_map]
      exact List.map_congr_left fun s _ => setBlocked_addr _ _ _ s
    exact heq ▸ hm.own
  · obtain ⟨s, hs', he⟩ := hm.threads t hts
    exact ⟨s, List.mem_map.mpr ⟨s, hs', hkeep s hs' he.retryFcn⟩, he⟩
  · obtain ⟨u, hu, rfl⟩ := List.mem_map.mp hs'
    unfold setBlocked at hret ⊢
    split
    · rfl
    next hne =>
      rw [if_neg hne] at hret
      exact hm.daemon u hu hret
  · obtain ⟨u, hu, rfl⟩ := List.mem_map.mp hs'
    by_cases he : u.addr = sf.addr
    · obtain rfl := hsame u hu he
      refine named_marked hf (by simp [setBlocked]) ?_
      simp only [setBlocked, if_true]
      exact ⟨ho ▸ hb.1, hen ▸ hb.2.1, hst ▸ hb.2.2.1, hc⟩
    · have hne : setBlocked sf.addr f rf u = u := if_neg he
      rw [hne] at hbl ⊢
      exact hm.named u hu hbl

theorem repeated_tables {f : Filock} {rf : Option Nat} (h : Tables m gn) (a : Nat) :
    Tables { m with sleeplcks := m.sleeplcks.map (setBlocked a f rf) }
      (Function.update gn gp ((gn gp).map (markBlocker f.addr))) := by
  have hmap : addrs (m.sleeplcks.map (setBlocked a f rf)) = addrs m.sleeplcks := by
    simp only [addrs, List.map_map]
    exact List.map_congr_left fun s _ => setBlocked_addr _ _ _ s
  refine h.grown (Grown.of_perm rfl rfl ?_)
  simp only [pool, hmap, addrs_map_markBlocker]
  exact List.Perm.refl _

/-! ## Entries leave the sleep list -/

theorem gone_tables {a : Nat} (h : Tables m gn) (ha : a ∈ addrs m.sleeplcks) :
    Tables (delflckSleep m a) gn := by
  have hg := h.grown (grown_delflckSleep h.nodup_sleeplcks ha (gn 0))
  rwa [Function.update_eq_self] at hg

/-- An entry of the lock daemon is taken off the sleep list. -/
theorem Waiting.gone {sf : Filock} (h : Waiting m gn) (hn : (addrs m.sleeplcks).Nodup)
    (hsf : sf ∈ m.sleeplcks) (hs : sf.retryFcn.isSome = true) :
    Waiting (delflckSleep m sf.addr) gn := by
  have hkept : ∀ s ∈ m.sleeplcks, s.retryFcn = none → s ∈ remove sf.addr m.sleeplcks := by
    intro s hs' hnone
    refine List.mem_filter.mpr ⟨hs', ?_⟩
    have hne : s.addr ≠ sf.addr := by
      intro he
      rw [← eq_of_addr_eq hn hs' hsf he, hnone] at hs
      exact Bool.noConfusion hs
    simpa using hne
  refine ⟨?_, fun t hts => ?_, fun s hs' => ?_, fun s hs' => ?_⟩
  · have heq : (remove sf.addr m.sleeplcks).filter (fun s => s.retryFcn.isNone) =
        m.sleeplcks.filter fun s => s.retryFcn.isNone := by
      unfold remove
      rw [List.filter_filter]
      refine List.filter_congr fun s hs' => ?_
      cases hret : s.retryFcn with
      | none => simpa using (List.mem_filter.mp (hkept s hs' hret)).2
      | some _ => simp
    change (m.sleepers.map Sleeper.sf).Perm (addrs ((remove sf.addr m.sleeplcks).filter _))
    rw [heq]
    exact h.own
  · obtain ⟨s, hs', he⟩ := h.threads t hts
    exact ⟨s, hkept s hs' he.retryFcn, he⟩
  · exact h.daemon s (List.mem_filter.mp hs').1
  · exact h.named s (List.mem_filter.mp hs').1

theorem gone_all (s : List Filock) : ∀ m : Mem, Tables m gn → Waiting m gn →
    (addrs s).Nodup → (∀ sf ∈ s, sf ∈ m.sleeplcks ∧ sf.retryFcn.isSome = true) →
    Tables (s.foldl (fun m sf => delflckSleep m sf.addr) m) gn ∧
      Waiting (s.foldl (fun m sf => delflckSleep m sf.addr) m) gn := by
  induction s with
  | nil => exact fun m ht hw _ _ => ⟨ht, hw⟩
  | cons sf s ih =>
    intro m ht hw hn hs
    obtain ⟨hsf, hret⟩ := hs sf (List.mem_cons_self ..)
    rw [addrs_cons, List.nodup_cons] at hn
    refine ih _ (gone_tables ht (mem_addrs hsf)) (hw.gone ht.nodup_sleeplcks hsf hret) hn.2 ?_
    intro u hu
    obtain ⟨hmem, hur⟩ := hs u (List.mem_cons_of_mem _ hu)
    refine ⟨List.mem_filter.mpr ⟨hmem, ?_⟩, hur⟩
    have hne : u.addr ≠ sf.addr := fun he => hn.1 (he ▸ mem_addrs hu)
    simpa using hne

/-- The request of the lock daemon that an `F_UNLCK` takes back. -/
def takenBack (lckdat : Eflock) (sf : Filock) : Bool :=
  sf.set.lVfs = mntNfs ∧ sf.set.lSysid = lckdat.lSysid ∧ sf.set.lPid = lckdat.lPid ∧
    sf.set.lEnd = lckdat.lEnd ∧ sf.set.lStart = lckdat.lStart

/-- The entries that an `F_UNLCK` of the lock daemon takes off the sleep list. -/
def cancelled (m : Mem) (lckdat : Eflock) : List Filock :=
  if lckdat.lSysid = 2 ^ 32 - 1 then m.sleeplcks.filter (fun sf => sf.set.lVfs = mntNfs)
  else (m.sleeplcks.find? (takenBack lckdat)).toList

theorem cancelNfs_eq (m : Mem) (lckdat : Eflock) :
    cancelNfs m lckdat = (cancelled m lckdat).foldl (fun m sf => delflckSleep m sf.addr) m := by
  unfold cancelNfs cancelled
  split
  · rfl
  · unfold takenBack
    split
    next hf =>
      rw [hf]
      rfl
    next sf hf =>
      rw [hf]
      rfl

theorem cancelled_sublist (m : Mem) (lckdat : Eflock) :
    (cancelled m lckdat).Sublist m.sleeplcks := by
  unfold cancelled
  split
  · exact List.filter_sublist
  · cases h : m.sleeplcks.find? (takenBack lckdat) with
    | none => exact List.nil_sublist _
    | some sf => exact List.singleton_sublist.mpr (List.mem_of_find?_eq_some h)

theorem cancel_waiting {r : Eflock} (ht : Tables m gn) (hw : Waiting m gn)
    (hs : ∀ sf ∈ cancelled m r, sf.retryFcn.isSome = true) :
    Tables (cancelNfs m r) gn ∧ Waiting (cancelNfs m r) gn := by
  rw [cancelNfs_eq]
  have hsub := cancelled_sublist m r
  exact gone_all _ m ht hw (ht.nodup_sleeplcks.sublist (hsub.map _)) fun sf hsf =>
    ⟨hsub.subset hsf, hs sf hsf⟩

/-- A thread that goes on takes its own entry with it. -/
theorem leave_waiting {st : State} {t : Sleeper} (htab : Tables st.mem st.gnodes)
    (h : Waiting st.mem st.gnodes) (ht : t ∈ st.mem.sleepers) :
    Tables (leave st t).mem (leave st t).gnodes ∧ Waiting (leave st t).mem (leave st t).gnodes := by
  have hn := htab.nodup_sleeplcks
  have hown := h.own
  have hnone : (addrs (st.mem.sleeplcks.filter fun sf => sf.retryFcn.isNone)).Nodup :=
    hn.sublist (List.filter_sublist.map _)
  have hmem : t.sf ∈ addrs (st.mem.sleeplcks.filter fun sf => sf.retryFcn.isNone) :=
    hown.subset (List.mem_map_of_mem ht)
  have hmem' : t.sf ∈ addrs st.mem.sleeplcks := (List.filter_sublist.map _).subset hmem
  have hsleep : (st.mem.sleepers.map Sleeper.sf).Nodup := hown.nodup_iff.mpr hnone
  have hperm := List.perm_cons_erase ht
  have htab' : Tables (delflckSleep st.mem t.sf) st.gnodes := gone_tables htab hmem'
  refine ⟨?_, ?_, fun u hu => ?_, fun sf hsf => ?_, fun sf hsf => ?_⟩
  · have hsame : Grown (delflckSleep st.mem t.sf) (st.gnodes 0) (leave st t).mem (st.gnodes 0) :=
      Grown.of_perm rfl rfl (List.Perm.refl _)
    have hg := htab'.grown hsame
    rwa [Function.update_eq_self] at hg
  · have h1 := ((hperm.map Sleeper.sf).symm.trans hown).trans (remove_perm hnone hmem)
    have h2 : remove t.sf (st.mem.sleeplcks.filter fun sf => sf.retryFcn.isNone) =
        (remove t.sf st.mem.sleeplcks).filter fun sf => sf.retryFcn.isNone := by
      simp only [remove, List.filter_filter, Bool.and_comm]
    rw [h2] at h1
    exact h1.cons_inv
  · obtain ⟨sf, hsf, he⟩ := h.threads u (List.mem_of_mem_erase hu)
    refine ⟨sf, List.mem_filter.mpr ⟨hsf, ?_⟩, he⟩
    have hne : u.sf ≠ t.sf := by
      intro heq
      have hnd := (hperm.map Sleeper.sf).nodup_iff.mp hsleep
      rw [List.map_cons, List.nodup_cons] at hnd
      exact hnd.1 (heq ▸ List.mem_map_of_mem hu)
    rw [he.addr]
    simpa using hne
  · exact h.daemon sf (List.mem_filter.mp hsf).1
  · exact h.named sf (List.mem_filter.mp hsf).1

/-! ## Runs -/

/-- The request does not take an entry of the sleep list from a thread, nor one
whose own request the lock found does not block. -/
structure CarefulCall (st : State) (c : Call) : Prop where
  repeats : (c.lckdat.lType = .rdlck ∨ c.lckdat.lType = .wrlck) →
    (c.retryFcn.isSome = true ∨ c.cmd.slpflck = true) →
    ∀ f, (blocked (st.gnodes c.gp) c.lckdat).1 = some f →
    (∃ n, deadflck n st.mem f c.lckdat = some false) →
    ∀ sf, repeated st.mem c.lckdat = some sf →
      c.retryFcn.isSome = true ∧ sf.retryFcn.isSome = true ∧ conflicts f.set sf.set = true
  cancels : c.cmd.setflck = true → Cancels c →
    ∀ sf ∈ cancelled st.mem c.lckdat, sf.retryFcn.isSome = true

/-- The condition on one action, on the state before it. -/
def Careful (st : State) : Action → Prop
  | .reclock c => ∀ c', convert c = .ok c' → CarefulCall st c'
  | .resume t => CarefulCall (leave st t) t.call
  | .interrupt _ => True

/-- The states that threads and the lock daemon reach from the start, each
action allowed by `P`. -/
inductive Run (P : State → Action → Prop) : State → Prop
  | init : Run P flckinit
  | step {st st' : State} {a : Action} {r : Reply} (h : Run P st) (hp : P st a)
      (hs : Step st a st' r) : Run P st'

/-- The invariant of a run. -/
structure Alive (st : State) : Prop where
  tables : Tables st.mem st.gnodes
  waiting : Waiting st.mem st.gnodes
  lists : ∀ gp, LockList (st.gnodes gp)
  calls : ∀ t ∈ st.mem.sleepers, Converted t.call ∧ t.call.retryFcn = none

section Serve

variable {st st' : State} {c : Call}

theorem alive_edited (h : Alive st) {m : Mem} {l : List Filock}
    (hed : Edited c.lckdat.owner (st.mem, st.gnodes c.gp) (m, l)) (hl : LockList l) :
    Alive ⟨m, Function.update st.gnodes c.gp l⟩ := by
  have hw : Tables m (Function.update st.gnodes c.gp l) ∧
      Waiting m (Function.update st.gnodes c.gp l) := by
    refine edited_waiting c.gp hed ?_ ?_
    · rw [Function.update_eq_self]
      exact h.tables
    · rw [Function.update_eq_self]
      exact h.waiting
  refine ⟨hw.1, hw.2, forall_update (P := fun _ l => LockList l) h.lists hl, fun t ht => ?_⟩
  obtain ⟨u, hu, he⟩ := call_edited hed t ht
  rw [he]
  exact h.calls u hu

theorem marked_lists (h : Alive st) (f : Filock) :
    ∀ gp, LockList (Function.update st.gnodes c.gp
      ((st.gnodes c.gp).map (markBlocker f.addr)) gp) := by
  refine forall_update (P := fun _ l => LockList l) h.lists (lockList_of_sets (h.lists c.gp) ?_)
  rw [List.map_map]
  exact List.map_congr_left fun x _ => markBlocker_set _ x

/-- The lock daemon is told to try again later. -/
theorem alive_retry (h : Alive st) (hc : Converted c) (hcare : CarefulCall st c)
    (hr : c.retryFcn.isSome = true) (ht : c.lckdat.lType = .rdlck ∨ c.lckdat.lType = .wrlck)
    {n : Nat} {f : Filock} {m' : Mem} {l' : List Filock} {a : Nat}
    (hb : (blocked (st.gnodes c.gp) c.lckdat).1 = some f)
    (hd : deadflck n st.mem f c.lckdat = some false)
    (hq : enqueue st.mem (st.gnodes c.gp) c.lckdat f c.retryFcn = some (m', l', a)) :
    Alive ⟨m', Function.update st.gnodes c.gp l'⟩ := by
  obtain ⟨hf, hblk⟩ := blocked_some hc.start_le_end hb
  obtain ⟨rfl, ⟨sf, hrep, rfl, rfl⟩ | ⟨_, m₁, hfree, rfl⟩⟩ := enqueue_cases (h.tables.pools c.gp) hq
  · obtain ⟨_, hs, hcon⟩ := hcare.repeats ht (Or.inl hr) f hb ⟨n, hd⟩ sf hrep
    exact ⟨repeated_tables h.tables _, repeated_daemon h.waiting h.tables.nodup_sleeplcks hf hblk
      hrep hr hs hcon, marked_lists h f, h.calls⟩
  · refine ⟨queued_tables h.tables hfree _, queued_daemon h.waiting hf hblk hr hfree,
      marked_lists h f, fun t hts => ?_⟩
    have hts' : t ∈ m₁.sleepers := hts
    rw [(takeFree_sleep hfree).2] at hts'
    exact h.calls t hts'

/-- A thread goes to sleep. -/
theorem alive_sleep (h : Alive st) (hc : Converted c) (hcare : CarefulCall st c)
    (hr : c.retryFcn = none) (hslp : c.cmd.slpflck = true)
    (ht : c.lckdat.lType = .rdlck ∨ c.lckdat.lType = .wrlck)
    {n : Nat} {f : Filock} {w : Whence} {m' : Mem} {l' : List Filock} {a : Nat}
    (hb : (blocked (st.gnodes c.gp) c.lckdat).1 = some f)
    (hd : deadflck n st.mem f c.lckdat = some false)
    (hq : enqueue st.mem (st.gnodes c.gp) c.lckdat f none = some (m', l', a)) :
    Alive ⟨{ m' with sleepers := ⟨f.addr, a, c, w, false⟩ :: m'.sleepers },
      Function.update st.gnodes c.gp l'⟩ := by
  obtain ⟨hf, hblk⟩ := blocked_some hc.start_le_end hb
  obtain ⟨rfl, ⟨sf, hrep, rfl, rfl⟩ | ⟨_, m₁, hfree, rfl⟩⟩ := enqueue_cases (h.tables.pools c.gp) hq
  · have hno := (hcare.repeats ht (Or.inr hslp) f hb ⟨n, hd⟩ sf hrep).1
    rw [hr] at hno
    exact Bool.noConfusion hno
  · have hw := queued_thread (w := w) h.waiting hf hblk hfree
    refine ⟨queued_tables h.tables hfree _, hw, marked_lists h f, fun t hts => ?_⟩
    rcases List.mem_cons.mp hts with rfl | hts
    · exact ⟨hc, hr⟩
    · have hts' : t ∈ m₁.sleepers := hts
      rw [(takeFree_sleep hfree).2] at hts'
      exact h.calls t hts'

theorem sleepers_cancelNfs (m : Mem) (r : Eflock) : (cancelNfs m r).sleepers = m.sleepers := by
  have hfold : ∀ (s : List Filock) (m : Mem),
      (s.foldl (fun m sf => delflckSleep m sf.addr) m).sleepers = m.sleepers := by
    intro s
    induction s with
    | nil => exact fun _ => rfl
    | cons sf s ih => exact fun m => ih _
  rw [cancelNfs_eq]
  exact hfold _ m

theorem serve_alive (h : Alive st) (hc : Converted c) (hcare : CarefulCall st c)
    {n : Nat} {w : Whence} {r : Reply} (hs : serve n st c w = some (st', r)) : Alive st' := by
  unfold serve at hs
  cases ht : turn n st.mem (st.gnodes c.gp) c w with
  | none => simp [ht] at hs
  | some x =>
    have hturn := turn_turned (h.lists c.gp) hc ht
    rw [ht] at hs
    cases hturn with
    | idle =>
      simp only [Option.some.injEq, Prod.mk.injEq] at hs
      rw [← hs.1, Function.update_eq_self]
      exact h
    | @adjust i hr ha =>
      simp only [adjustTurn, Option.some.injEq, Prod.mk.injEq] at hs
      have hd := flckadj_done (h.tables.pools c.gp) (h.lists c.gp) hr ha
      rw [← hs.1]
      exact alive_edited h hd.edited hd.wf
    | cancel hset hcan =>
      simp only [Option.some.injEq, Prod.mk.injEq] at hs
      obtain ⟨ht', hw'⟩ := cancel_waiting h.tables h.waiting (hcare.cancels hset hcan)
      rw [← hs.1, Function.update_eq_self]
      exact ⟨ht', hw', h.lists, fun t hts => h.calls t (sleepers_cancelNfs _ _ ▸ hts)⟩
    | retry hr htype hb hd hq =>
      simp only [Option.some.injEq, Prod.mk.injEq] at hs
      rw [← hs.1]
      exact alive_retry h hc hcare hr htype hb hd hq
    | sleep hr hslp htype hb hd hq =>
      simp only [Option.some.injEq, Prod.mk.injEq] at hs
      rw [← hs.1]
      exact alive_sleep h hc hcare hr hslp htype hb hd hq

end Serve

theorem leave_alive {st : State} {t : Sleeper} (h : Alive st) (ht : t ∈ st.mem.sleepers) :
    Alive (leave st t) := by
  obtain ⟨htab, hw⟩ := leave_waiting h.tables h.waiting ht
  exact ⟨htab, hw, h.lists, fun u hu => h.calls u (List.mem_of_mem_erase hu)⟩

/-- One careful action keeps the invariant. -/
theorem step_alive {st st' : State} {a : Action} {r : Reply} (h : Alive st) (hcare : Careful st a)
    (hs : Step st a st' r) : Alive st' := by
  obtain ⟨n, hs⟩ := hs
  cases a with
  | reclock c =>
    simp only [step, commonReclock] at hs
    cases hcv : convert c with
    | error e =>
      rw [hcv] at hs
      simp only [Option.some.injEq, Prod.mk.injEq] at hs
      exact hs.1 ▸ h
    | ok c' =>
      rw [hcv] at hs
      exact serve_alive h (convert_converted hcv) (hcare c' hcv) hs
  | resume t =>
    simp only [step] at hs
    split at hs
    next ht => exact serve_alive (leave_alive h ht.1) (h.calls t ht.1).1 hcare hs
    next => simp at hs
  | interrupt t =>
    simp only [step] at hs
    split at hs
    next ht =>
      simp only [interrupt, Option.some.injEq, Prod.mk.injEq] at hs
      exact hs.1 ▸ leave_alive h ht
    next => simp at hs

theorem flckinit_alive : Alive flckinit := by
  have hg := flckinit_good
  refine ⟨hg.sound.tables, ⟨List.Perm.refl _, ?_, ?_, ?_⟩, hg.lists, ?_⟩
  all_goals simp [flckinit]

theorem run_alive {st : State} (h : Run Careful st) : Alive st := by
  induction h with
  | init => exact flckinit_alive
  | step _ hp hs ih => exact step_alive ih hp hs

/-- What the sleep list is for: an entry that is not yet awakened names a lock
that is on the list of a gnode and in the way of its request, an entry of the
lock daemon leaves the list when it is awakened, and a thread sleeps as long
as its entry does. -/
structure NoneForgotten (st : State) : Prop where
  names : ∀ sf ∈ st.mem.sleeplcks, sf.blocked = true →
    ∃ gp, ∃ f ∈ st.gnodes gp, sf.filockp = some f.addr ∧ Blocks sf.set f.set
  daemon : ∀ sf ∈ st.mem.sleeplcks, sf.retryFcn.isSome = true → sf.blocked = true
  asleep : ∀ t ∈ st.mem.sleepers, t.awake = false → ∃ sf ∈ st.mem.sleeplcks, sf.addr = t.sf ∧
    sf.blocked = true ∧ sf.set = t.call.lckdat ∧ sf.filockp = some t.event
  awakened : ∀ t ∈ st.mem.sleepers,
    (∀ gp, ∀ f ∈ st.gnodes gp, f.addr = t.event → ¬ Blocks t.call.lckdat f.set) → t.awake = true

theorem Alive.noneForgotten {st : State} (h : Alive st) : NoneForgotten st := by
  have hnames : ∀ sf ∈ st.mem.sleeplcks, sf.blocked = true →
      ∃ gp, ∃ f ∈ st.gnodes gp, sf.filockp = some f.addr ∧ Blocks sf.set f.set := by
    intro sf hsf hb
    obtain ⟨gp, f, hf, hn, _, hblk⟩ := h.waiting.named sf hsf hb
    exact ⟨gp, f, hf, hn, hblk⟩
  refine ⟨hnames, h.waiting.daemon, fun t ht ha => ?_, fun t ht hno => ?_⟩
  · obtain ⟨sf, hsf, ho⟩ := h.waiting.threads t ht
    exact ⟨sf, hsf, ho.addr, by simp [ho.blocked, ha], ho.set, ho.names⟩
  · by_contra ha
    obtain ⟨sf, hsf, ho⟩ := h.waiting.threads t ht
    obtain ⟨gp, f, hf, hn, hblk⟩ := hnames sf hsf (by simp [ho.blocked, ha])
    have he : f.addr = t.event := (Option.some.inj (ho.names.symm.trans hn)).symm
    exact hno gp f hf he (ho.set ▸ hblk)

/-- In a run of careful actions no wakeup is lost, in any state. -/
theorem no_lost_wakeup {st : State} (h : Run Careful st) : NoneForgotten st :=
  (run_alive h).noneForgotten

/-- A request that is not from an NFS client is careful. -/
theorem careful_of_vfs {st : State} {c : Call} (h : c.lckdat.lVfs ≠ mntNfs) :
    Careful st (.reclock c) := by
  intro c' hc'
  have ho := (convert_eq hc').2.2.2.2
  have hv : c'.lckdat.lVfs = c.lckdat.lVfs := congrArg (fun o : Owner => o.2.2) ho
  refine ⟨fun _ _ f _ _ sf hsf => ?_, fun _ hcan => ?_⟩
  · rw [repeated, if_neg (hv ▸ h)] at hsf
    exact nomatch hsf
  · exact absurd (hv ▸ hcan.2.1) h

theorem Run.act {P : State → Action → Prop} {st : State} {a : Action} (h : Run P st)
    (hp : P st a) (hs : (Reclock.step 4 st a).isSome = true) : Run P (after st a) := by
  obtain ⟨p, hp'⟩ := Option.isSome_iff_exists.mp hs
  exact Run.step h hp (step_after (r := p.2) (by rw [hp']; rfl))

theorem no_lost_wakeup_one :
    NoneForgotten oneAsleep ∧ oneAsleep.mem.sleepers.map Sleeper.awake = [false] := by
  have h1 := (Run.init.act (a := wholeFile .wrlck 0 1 false)
    (careful_of_vfs (by decide)) (by decide))
  have h2 := h1.act (a := wholeFile .wrlck 0 2 true) (careful_of_vfs (by decide)) (by decide)
  exact ⟨no_lost_wakeup h2, by decide⟩

/-- A request for a range of file 0. -/
def rangeLock (t : LockType) (sysid : Nat) (pid vfs start len : Int) (rf : Option Nat) : Action :=
  .reclock ⟨0, 0, 0, ⟨t, .seekSet, sysid, pid, vfs, start, len⟩, ⟨false, true, false⟩, rf, 0⟩

/-- Process 2 has a write lock on bytes 5 to 9 and process 3 a read lock on 0 to 3.
The lock daemon asks for a read lock on 0 to 9, then for a write lock on them. -/
def repointed : State :=
  [rangeLock .wrlck 0 2 3 5 5 none, rangeLock .rdlck 0 3 3 0 4 none,
    rangeLock .rdlck 7 1 2 0 10 (some 1), rangeLock .wrlck 7 1 2 0 10 (some 1)].foldl
    after flckinit

theorem repointed_run : Run (fun _ _ => True) repointed := by
  have h1 := (Run.init (P := fun _ _ => True)).act (a := rangeLock .wrlck 0 2 3 5 5 none)
    trivial (by decide)
  have h2 := h1.act (a := rangeLock .rdlck 0 3 3 0 4 none) trivial (by decide)
  have h3 := h2.act (a := rangeLock .rdlck 7 1 2 0 10 (some 1)) trivial (by decide)
  exact h3.act (a := rangeLock .wrlck 7 1 2 0 10 (some 1)) trivial (by decide)

/-- A call on one gnode leaves the lists of the others. -/
theorem after_gnodes {st : State} {c : Call} {gp : Nat} (h : gp ≠ c.gp) :
    (after st (.reclock c)).gnodes gp = st.gnodes gp := by
  unfold after
  cases hs : step 4 st (.reclock c) with
  | none => rfl
  | some p =>
    simp only [step, commonReclock] at hs
    cases hcv : convert c with
    | error e =>
      rw [hcv] at hs
      rw [← Option.some.inj hs]
      rfl
    | ok c' =>
      rw [hcv] at hs
      have hne : gp ≠ c'.gp := (convert_eq hcv).1 ▸ h
      simp only [serve] at hs
      cases ht : turn 4 st.mem (st.gnodes c'.gp) c' c.lckdat.lWhence with
      | none => simp [ht] at hs
      | some x =>
        rw [ht] at hs
        cases x <;> simp only at hs <;> rw [← Option.some.inj hs] <;>
          exact Function.update_of_ne hne _ _

/-- The entry of the read request is left naming the read lock of process 3, so
that it stays asleep when process 2 gives its lock back. -/
theorem wakeup_lost : ∃ st, Run (fun _ _ => True) st ∧
    (∃ sf ∈ st.mem.sleeplcks, sf.blocked = true ∧
      ¬ ∃ gp, ∃ f ∈ st.gnodes gp, sf.filockp = some f.addr ∧ Blocks sf.set f.set) ∧
    ∃ sf ∈ (after st (rangeLock .unlck 0 2 3 5 5 none)).mem.sleeplcks, sf.blocked = true ∧
      (blocked ((after st (rangeLock .unlck 0 2 3 5 5 none)).gnodes 0) sf.set).1 = none := by
  have hone : ∀ sf ∈ repointed.mem.sleeplcks, sf.blocked = true ∧
      ∀ f ∈ repointed.gnodes 0, sf.filockp = some f.addr → ¬ Blocks sf.set f.set := by
    decide +kernel
  have hother : ∀ gp, gp ≠ 0 → repointed.gnodes gp = [] := by
    intro gp hgp
    unfold repointed
    simp only [List.foldl_cons, List.foldl_nil, rangeLock]
    rw [after_gnodes hgp, after_gnodes hgp, after_gnodes hgp, after_gnodes hgp]
    rfl
  have hne : repointed.mem.sleeplcks ≠ [] := by decide +kernel
  obtain ⟨sf, hsf⟩ := List.exists_mem_of_ne_nil _ hne
  refine ⟨repointed, repointed_run, ⟨sf, hsf, (hone sf hsf).1, ?_⟩, by decide +kernel⟩
  rintro ⟨gp, f, hf, hn, hb⟩
  by_cases hgp : gp = 0
  · subst hgp
    exact (hone sf hsf).2 f hf hn hb
  · rw [hother gp hgp] at hf
    exact List.not_mem_nil hf

end Aix413.Lockctl.NoLostWakeup
