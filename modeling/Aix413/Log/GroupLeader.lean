import Aix413.Log.GroupCommit

namespace Aix413.Log.Committing

open Format Writer Reader

variable {s s' s'' : State} {v v' : View} {x : Option Nat} {b : Blk} {rest : List Blk} {t l : Nat}

/-! ## The leader at work -/

theorem wakeWriter_enqueue {c : WriterPc} (h : State.wakeWriter b c = .enqueue t) :
    c = .enqueue t := by
  unfold State.wakeWriter at h
  split at h
  · split at h <;> cases h
  · exact h

theorem wake_of_awake {c : WriterPc} {wait : Bool} (h : ∀ own k, c ≠ .asleep own k) :
    (if wait then State.wakeWriter b c else c) = c := by
  split
  · cases c with
    | asleep own k => exact absurd rfl (h own k)
    | _ => rfl
  · rfl

/-- A marker at the head is taken off. -/
theorem eopmDequeue_eq (hcq : s.cq = b :: rest) : s.eopmDequeue =
    { s with
      cq := rest
      tblk := Function.update s.tblk b (s.tblk b).freed
      writer := if (s.tblk b).wait then State.wakeWriter b s.writer else s.writer } := by
  unfold State.eopmDequeue
  rw [hcq]

theorem Offsets.pop (h : Offsets s v) (hcq : s.cq = b :: rest) (hip : s'.ip = s.ip)
    (hcq' : s'.cq = rest) (heopm : s'.eopm = s.eopm)
    (hcpn : ∀ b, (s'.tblk b).cpn = (s.tblk b).cpn)
    (hceor : ∀ b, (s'.tblk b).ceor = (s.tblk b).ceor)
    (hw : ∀ t, s'.writer = .enqueue t → s.writer = .enqueue t) : Offsets s' v.pop := by
  have hcur : v.pop.curBlocks s'.eopm ⊆ v.curBlocks s.eopm := heopm ▸ curBlocks_pop v s.eopm
  have horder := h.order
  rw [hcq, List.pairwise_cons] at horder
  refine ⟨hip ▸ h.dvd, hip ▸ h.hi, fun c hc => ?_, fun t ht => ?_, ?_⟩
  · rw [hceor, hip]
    exact h.cur c (hcur hc)
  · rw [hip]
    obtain ⟨h1, h2⟩ := h.fresh t (hw t ht)
    exact ⟨h1, fun c hc => by rw [hceor]; exact h2 c (hcur hc)⟩
  · rw [hcq']
    refine horder.2.imp fun hab => ?_
    unfold InOrder
    rw [hcpn, hcpn, hceor, hceor]
    exact hab

section Dequeue

variable {k : Bool}

theorem eopmDequeue_same (hcq : s.cq = .eopm k :: rest) : SameTrans s s.eopmDequeue := by
  rw [eopmDequeue_eq hcq]
  refine ⟨rfl, fun t => ?_, rfl, rfl, [], rfl, by simp⟩
  have ht : Function.update s.tblk (.eopm k) (s.tblk (.eopm k)).freed (.tran t) =
      s.tblk (.tran t) := Function.update_of_ne (by simp) _ _
  change Alike _ (Function.update s.tblk (.eopm k) (s.tblk (.eopm k)).freed (.tran t))
  rw [ht]
  exact .refl _

/-- A block that is left is as before. -/
theorem eopmDequeue_tblk (hcq : s.cq = .eopm k :: rest) (hb : b ≠ .eopm k) :
    s.eopmDequeue.tblk b = s.tblk b := by
  rw [eopmDequeue_eq hcq]
  exact Function.update_of_ne hb _ _

theorem Base.dequeue (h : Base s v x) (hcq : s.cq = .eopm k :: rest) :
    Base s.eopmDequeue v.pop x := by
  have hsame := eopmDequeue_same hcq
  have htb : ∀ b, (s.eopmDequeue.tblk b).cpn = (s.tblk b).cpn ∧
      (s.eopmDequeue.tblk b).ceor = (s.tblk b).ceor := by
    intro b
    by_cases hb : b = .eopm k
    · rw [eopmDequeue_eq hcq, hb]
      simp [Tblock.freed, Tblock.queued]
    · rw [eopmDequeue_tblk hcq hb]
      exact ⟨rfl, rfl⟩
  have hw : ∀ t, s.eopmDequeue.writer = .enqueue t → s.writer = .enqueue t := by
    intro t ht
    rw [eopmDequeue_eq hcq] at ht
    dsimp only at ht
    split at ht
    · exact wakeWriter_enqueue ht
    · exact ht
  refine h.same hsame (View.trans_pop_eopm (h.shape.cq ▸ hcq)) ?_ ?_ ?_
  · refine h.shape.pop hcq ?_ ?_ ?_ ?_ (fun j => ?_) fun b => (htb b).1
    all_goals rw [eopmDequeue_eq hcq]
    by_cases hj : k = j
    · simp [hj, Tblock.freed]
    · simp [hj, Ne.symm hj]
  · refine h.offsets.pop hcq ?_ ?_ ?_ (fun b => (htb b).1) (fun b => (htb b).2) hw
    all_goals rw [eopmDequeue_eq hcq]
  · refine h.pending.frame ?_ hsame.pc hw
    rw [eopmDequeue_eq hcq]

theorem Stage.dequeue (h : Stage s v) (hv : s.cq = v.blocks s.eopm)
    (hcq : s.cq = .eopm k :: rest) : Stage s.eopmDequeue v.pop := by
  have hhead := View.head_eopm (hv ▸ hcq)
  rw [eopmDequeue_eq hcq]
  unfold Stage at h ⊢
  dsimp only
  rcases hhead with ⟨hsome, hk, hp⟩ | ⟨hnone, -, htrue, hp⟩
  · -- the page left is through, and the writer may wait for that
    rw [hp]
    cases hw : s.writer with
    | asleep own j =>
      rw [hw] at h
      obtain ⟨hl, hold, rfl, hwait, hown, hcur⟩ := h
      rw [hk, if_pos hwait, State.wakeWriter, if_pos rfl]
      exact ⟨hl, rfl, fun hf => hcur.mp (hown.trans hf), fun hf => hown ▸ hf⟩
    | woken own =>
      rw [hw] at h
      rw [h.2.1] at hsome
      cases hsome
    | ready | enqueue | full | make =>
      rw [hw] at h
      rw [wake_of_awake (by simp)]
      exact h
  · -- nothing but the marker of the current page is there
    rw [hp]
    cases hw : s.writer with
    | asleep own j =>
      rw [hw] at h
      exact absurd hnone h.2.1
    | woken own =>
      rw [hw] at h
      rw [wake_of_awake (by simp)]
      exact ⟨h.1, rfl, fun _ => rfl, fun _ => rfl⟩
    | ready | enqueue | full =>
      rw [hw] at h
      exact absurd (htrue.symm.trans h.2) Bool.noConfusion
    | make lpage =>
      rw [hw] at h
      exact absurd (htrue.symm.trans h.2.1) Bool.noConfusion

end Dequeue

/-- The leader has taken the transaction `u` off the queue, with the outcome `rc`. -/
structure Served (s s' : State) (u rc : Nat) (rest : List Blk) : Prop where
  cq : s'.cq = rest
  ip : s'.ip = s.ip
  eopm : s'.eopm = s.eopm
  writer : s'.writer = s.writer
  todo : s'.todo = s.todo
  csn : s'.csn = s.csn
  lcrt : s'.lcrt = s.lcrt
  gcpageout : s'.gcpageout = s.gcpageout
  trace : s'.trace = s.trace
  tblk : ∀ b, b ≠ .tran u → s'.tblk b = s.tblk b
  cpn : (s'.tblk (.tran u)).cpn = (s.tblk (.tran u)).cpn
  ceor : (s'.tblk (.tran u)).ceor = (s.tblk (.tran u)).ceor
  committed : (s'.tblk (.tran u)).committed = true
  good : rc = 0 → (s'.tblk (.tran u)).error = (s.tblk (.tran u)).error
  bad : rc ≠ 0 → (s'.tblk (.tran u)).error = true ∧ (s'.tblk (.tran u)).csn = rc
  pc : ∀ t, t ≠ u → s'.pc t = s.pc t
  woken : s'.pc u = if (s.tblk (.tran u)).ready then .woken else s.pc u
  crtc : s'.crtc = s.crtc - if (s.tblk (.tran u)).ready then 1 else 0

theorem commitHead_served (s : State) (u rc : Nat) (rest : List Blk) :
    Served s (s.commitHead rc (.tran u) rest) u rc rest := by
  unfold State.commitHead
  dsimp only
  by_cases hrc : rc = 0
  · rw [if_pos hrc]
    split
    next hr =>
      dsimp only at hr
      constructor <;> simp +contextual [State.setPc, State.setTblk, hr, hrc]
    next hr =>
      dsimp only at hr
      constructor <;> simp +contextual [State.setTblk, hr, hrc]
  · rw [if_neg hrc]
    split
    next hr =>
      dsimp only at hr
      constructor <;> simp +contextual [State.setPc, State.setTblk, hr, hrc]
    next hr =>
      dsimp only at hr
      constructor <;> simp +contextual [State.setTblk, hr, hrc]

section Served

variable {u rc : Nat}

theorem Served.apart (h : Served s s' u rc rest) : Apart s s' u :=
  ⟨h.pc, fun _ ht => h.tblk _ fun he => ht (Blk.tran.inj he)⟩

theorem Served.members (h : Served s s' u rc rest) (hm : Members s v x)
    (htr : v.trans = u :: v.pop.trans) (hu : u ∉ v.pop.trans) : Members s' v.pop x := by
  have hmem : ∀ t ∈ v.pop.trans, t ∈ v.trans := fun t ht => htr ▸ List.mem_cons_of_mem u ht
  have htb : ∀ t ∈ v.pop.trans, s'.tblk (.tran t) = s.tblk (.tran t) := fun t ht =>
    h.apart.tblk t fun he => hu (he ▸ ht)
  have hcsn := hm.csn
  rw [htr, List.pairwise_cons] at hcsn
  refine hm.apart h.apart (fun t ht => ?_) (fun _ _ => Iff.rfl) (fun hp => absurd hp hu)
    (fun _ => .inr h.committed) (fun hp => absurd hp hu) (fun hp => ?_) (fun g w hp => ?_) ?_
    (fun t ht => ?_) ?_
  · rw [htr, List.mem_cons, or_iff_right ht]
  · rw [h.woken] at hp
    split at hp
    · cases hp
    next hr =>
      -- nobody sleeps who is not ready
      obtain ⟨hmt, hx⟩ := hm.asleep u hp
      rcases hm.others u hmt hx with ⟨hl, -⟩ | ⟨-, hr'⟩
      · rw [hl] at hp
        cases hp
      · exact absurd hr' hr
  · rw [h.woken] at hp
    split at hp
    · cases hp
    · exact hm.waiting u g w hp
  · refine hcsn.2.imp_of_mem fun {a b} ha hb hab => ?_
    rw [htb a ha, htb b hb]
    exact hab
  · rw [htb t ht, h.csn]
    exact hm.csn_le t (hmem t ht)
  · have hcount : v.pop.trans.countP (fun t => (s'.tblk (.tran t)).ready) =
        v.pop.trans.countP fun t => (s.tblk (.tran t)).ready :=
      List.countP_congr fun t ht => by rw [htb t ht]
    have hcrtc := hm.crtc
    rw [htr, List.countP_cons] at hcrtc
    rw [h.crtc, hcount, hcrtc]
    split <;> push_cast <;> omega

theorem Served.recorded (h : Served s s' u rc rest) (hr : Recorded s)
    (he : (s.tblk (.tran u)).error = false) (hne : s.pc u ≠ .idle)
    (hd : rc = 0 → Durable u s.trace) : Recorded s' := by
  have htb := h.apart.tblk
  refine ⟨fun t ht => ?_, fun t ht hc hf => ?_, fun t ht hc hf => ?_, h.trace ▸ hr.honest⟩
  · rw [h.trace]
    by_cases htu : t = u
    · rw [htu, h.cpn, h.ceor]
      exact hr.logged u hne
    · rw [htb t htu]
      exact hr.logged t (h.pc t htu ▸ ht)
  · rw [h.trace]
    by_cases htu : t = u
    · rw [htu] at hf ⊢
      refine hd (by_contra fun hrc => ?_)
      rw [(h.bad hrc).1] at hf
      cases hf
    · rw [htb t htu] at hc hf
      exact hr.durable t (h.pc t htu ▸ ht) hc hf
  · by_cases htu : t = u
    · rw [htu] at hf ⊢
      by_cases hrc : rc = 0
      · rw [h.good hrc, he] at hf
        cases hf
      · rw [(h.bad hrc).2]
        exact hrc
    · rw [htb t htu] at hc hf ⊢
      exact hr.error t (h.pc t htu ▸ ht) hc hf

theorem Base.served (h : Base s v x) (hs : Served s s' u rc rest) (hcq : s.cq = .tran u :: rest)
    (hd : rc = 0 → Durable u s.trace) : Base s' v.pop x := by
  have htr := View.trans_pop_tran (h.shape.cq ▸ hcq)
  have hmem : u ∈ v.trans := htr ▸ List.mem_cons_self
  have hnd := h.shape.nodup
  rw [htr, List.nodup_cons] at hnd
  obtain ⟨hne, -, he⟩ := h.members.on u hmem
  have hpage : ∀ b, (s'.tblk b).cpn = (s.tblk b).cpn ∧ (s'.tblk b).ceor = (s.tblk b).ceor := by
    intro b
    by_cases hb : b = .tran u
    · exact hb ▸ ⟨hs.cpn, hs.ceor⟩
    · rw [hs.tblk b hb]
      exact ⟨rfl, rfl⟩
  refine ⟨h.shape.pop hcq (by rw [hs.ip]) (by rw [hs.ip]) hs.cq hs.eopm (fun k => ?_)
      fun b => (hpage b).1,
    h.offsets.pop hcq hs.ip hs.cq hs.eopm (fun b => (hpage b).1) (fun b => (hpage b).2)
      fun t ht => hs.writer ▸ ht, ?_,
    hs.members h.members htr hnd.1, hs.recorded h.recorded he hne hd⟩
  · rw [hs.tblk _ Blk.noConfusion, if_neg Blk.noConfusion]
  · refine ⟨hs.todo ▸ h.pending.words, hs.todo ▸ h.pending.last, fun p hp t hf => ?_,
      fun t ht => ?_⟩
    · have hidle := h.pending.idle p (hs.todo ▸ hp) t hf
      rw [hs.pc t fun htu => hne (htu ▸ hidle)]
      exact hidle
    · obtain ⟨hidle, htodo⟩ := h.pending.enqueue t (hs.writer ▸ ht)
      rw [hs.pc t fun htu => hne (htu ▸ hidle), hs.todo]
      exact ⟨hidle, htodo⟩

theorem Stage.served (h : Stage s v) (hs : Served s s' u rc rest) (hv : s.cq = v.blocks s.eopm)
    (hcq : s.cq = .tran u :: rest) : Stage s' v.pop := by
  have hhead := View.head_tran (hv ▸ hcq)
  unfold Stage at h ⊢
  rw [hs.writer, hs.ip]
  cases hw : s.writer with
  | ready | enqueue | full =>
    rw [hw] at h
    rcases hhead with ⟨l, -, hp⟩ | ⟨c, -, -, hp⟩ <;> exact hp ▸ h
  | asleep own k =>
    rw [hw] at h
    obtain ⟨hl, hold, rfl, hwait, hown, hcur⟩ := h
    rcases hhead with ⟨l, -, hp⟩ | ⟨c, hnone, -⟩
    · rw [hp, hs.eopm]
      refine ⟨hl, Option.some_ne_none l, rfl, ?_, hown, hcur⟩
      rw [hs.tblk _ Blk.noConfusion]
      exact hwait
    · exact absurd hnone hold
  | woken own =>
    rw [hw] at h
    obtain ⟨hl, hold, hcur, hown⟩ := h
    rcases hhead with ⟨l, hsome, -⟩ | ⟨c, -, hc, hp⟩
    · rw [hold] at hsome
      cases hsome
    · rw [hp]
      refine ⟨hl, rfl, fun hf => ?_, hown⟩
      rw [hcur hf] at hc
      cases hc
  | make lpage =>
    rw [hw] at h
    obtain ⟨hl, hown, hcur⟩ := h
    rcases hhead with ⟨l, -, hp⟩ | ⟨c, -, hc, -⟩
    · rw [hp]
      exact ⟨hl, hown, hcur⟩
    · rw [hcur] at hc
      cases hc

end Served

/-! ### The group comes off the queue -/

/-- The blocks of the group are off the queue and committed, the others as before. -/
structure Drained (s s' : State) (group rest : List Blk) : Prop where
  cq : s'.cq = rest
  lcrt : s'.lcrt = s.lcrt
  gcpageout : s'.gcpageout = s.gcpageout
  trace : s'.trace = s.trace
  tblk : ∀ b, b ∉ group → s'.tblk b = s.tblk b
  pc : ∀ t, .tran t ∉ group → s'.pc t = s.pc t
  committed : ∀ t, .tran t ∈ group → (s'.tblk (.tran t)).committed = true

theorem Drained.cons {group : List Blk} (h₁ : s'.lcrt = s.lcrt ∧ s'.gcpageout = s.gcpageout ∧
      s'.trace = s.trace) (hb : ∀ c, c ≠ b → s'.tblk c = s.tblk c)
    (hp : ∀ t, .tran t ≠ b → s'.pc t = s.pc t)
    (hc : ∀ t, b = .tran t → (s'.tblk b).committed = true) (hn : b ∉ group)
    (h : Drained s' s'' group rest) : Drained s s'' (b :: group) rest where
  cq := h.cq
  lcrt := h.lcrt.trans h₁.1
  gcpageout := h.gcpageout.trans h₁.2.1
  trace := h.trace.trans h₁.2.2
  tblk := fun c hm => by
    rw [List.mem_cons, not_or] at hm
    rw [h.tblk c hm.2, hb c hm.1]
  pc := fun t hm => by
    rw [List.mem_cons, not_or] at hm
    rw [h.pc t hm.2, hp t hm.1]
  committed := fun t hm => by
    rcases List.mem_cons.mp hm with rfl | hm
    · rw [h.tblk _ hn]
      exact hc t rfl
    · exact h.committed t hm

theorem dequeueGroup_spec {rc : Nat} {group : List Blk} : ∀ {fuel : Nat} {s : State} {v : View},
    Base s v x → Stage s v → s.cq = group ++ rest → (∀ b ∈ group, (s.tblk b).commit = true) →
    (∀ b ∈ rest, (s.tblk b).commit = false) →
    (rc = 0 → ∀ t, .tran t ∈ group → Durable t s.trace) → group.length ≤ fuel →
    ∃ v', Base (State.dequeueGroup rc fuel s) v' x ∧ Stage (State.dequeueGroup rc fuel s) v' ∧
      Drained s (State.dequeueGroup rc fuel s) group rest := by
  induction group with
  | nil =>
    intro fuel s v h hst hcq _ hrest _ _
    have heq : State.dequeueGroup rc fuel s = s := by
      cases fuel with
      | zero => rfl
      | succ fuel =>
        rw [State.dequeueGroup, hcq, List.nil_append]
        cases rest with
        | nil => rfl
        | cons b rest =>
          dsimp only
          rw [hrest b List.mem_cons_self]
          rfl
    rw [heq]
    exact ⟨v, h, hst, hcq, rfl, rfl, rfl, fun _ _ => rfl, fun _ _ => rfl,
      fun t ht => absurd ht List.not_mem_nil⟩
  | cons b group ih =>
    intro fuel s v h hst hcq hcommit hrest hd hf
    obtain ⟨fuel, rfl⟩ := Nat.exists_eq_add_of_lt (Nat.lt_of_lt_of_le (Nat.succ_pos _) hf)
    rw [Nat.zero_add] at hf ⊢
    have hnd := View.nodup_blocks (e := s.eopm) h.shape.nodup
    rw [← h.shape.cq, hcq, List.cons_append, List.nodup_cons] at hnd
    have heq : State.dequeueGroup rc (fuel + 1) s =
        State.dequeueGroup rc fuel (s.commitHead rc b (group ++ rest)) := by
      rw [State.dequeueGroup, hcq, List.cons_append]
      dsimp only
      rw [if_pos (hcommit b List.mem_cons_self)]
    rw [heq]
    have hng : b ∉ group := fun hm => hnd.1 (List.mem_append_left _ hm)
    have hne : ∀ c ∈ group, c ≠ b := by
      rintro c hc rfl
      exact hng hc
    have hner : ∀ c ∈ rest, c ≠ b := by
      rintro c hc rfl
      exact hnd.1 (List.mem_append_right _ hc)
    rw [List.cons_append] at hcq
    rw [List.length_cons] at hf
    cases b with
    | eopm k =>
      have hhead : s.commitHead rc (.eopm k) (group ++ rest) = s.eopmDequeue := by
        rw [State.commitHead, eopmDequeue_eq (s := s.setTblk (.eopm k) _) hcq, eopmDequeue_eq hcq]
        simp [State.setTblk, Tblock.freed, Tblock.queued]
      rw [hhead]
      have htb : ∀ c, c ≠ .eopm k → s.eopmDequeue.tblk c = s.tblk c := fun c hc =>
        eopmDequeue_tblk hcq hc
      have hsame := eopmDequeue_same hcq
      have hrestq : s.eopmDequeue.cq = group ++ rest ∧ s.eopmDequeue.lcrt = s.lcrt ∧
          s.eopmDequeue.gcpageout = s.gcpageout ∧ s.eopmDequeue.trace = s.trace := by
        rw [eopmDequeue_eq hcq]
        exact ⟨rfl, rfl, rfl, rfl⟩
      obtain ⟨v', hb', hst', hdr⟩ := ih (h.dequeue hcq) (hst.dequeue h.shape.cq hcq) hrestq.1
        (fun c hc => by rw [htb c (hne c hc)]; exact hcommit c (List.mem_cons_of_mem _ hc))
        (fun c hc => by rw [htb c (hner c hc)]; exact hrest c hc)
        (fun hrc t ht => by rw [hrestq.2.2.2]; exact hd hrc t (List.mem_cons_of_mem _ ht))
        (Nat.le_of_succ_le_succ hf)
      exact ⟨v', hb', hst', Drained.cons hrestq.2 htb (fun t _ => congrFun hsame.pc t)
        (fun t ht => by cases ht) hng hdr⟩
    | tran u =>
      have hs := commitHead_served s u rc (group ++ rest)
      obtain ⟨v', hb', hst', hdr⟩ := ih
        (h.served hs hcq fun hrc => hd hrc u List.mem_cons_self)
        (hst.served hs h.shape.cq hcq) hs.cq
        (fun c hc => by rw [hs.tblk c (hne c hc)]; exact hcommit c (List.mem_cons_of_mem _ hc))
        (fun c hc => by rw [hs.tblk c (hner c hc)]; exact hrest c hc)
        (fun hrc t ht => by rw [hs.trace]; exact hd hrc t (List.mem_cons_of_mem _ ht))
        (Nat.le_of_succ_le_succ hf)
      refine ⟨v', hb', hst', Drained.cons ⟨hs.lcrt, hs.gcpageout, hs.trace⟩ hs.tblk
        (fun t ht => hs.pc t fun he => ht (he ▸ rfl)) (fun t ht => ?_) hng hdr⟩
      exact hs.committed

/-! ### The next group -/

theorem scanGroup_mark {tblk : Blk → Tblock} {p : Nat} {k : Bool} (ts : List Nat)
    (hp : ∀ b ∈ ts.map Blk.tran ++ [.eopm k], (tblk b).cpn = p) :
    State.scanGroup tblk p (ts.map Blk.tran ++ .eopm k :: rest) =
      ts.map Blk.tran ++ [.eopm k] := by
  induction ts with
  | nil => simp [State.scanGroup, hp (.eopm k) (by simp), Blk.isTran]
  | cons t ts ih =>
    rw [List.map_cons, List.cons_append, State.scanGroup, if_pos (hp (.tran t) (by simp)),
      if_pos (show (Blk.tran t).isTran = true from rfl),
      ih fun b hb => hp b (List.mem_cons_of_mem _ hb)]
    rfl

theorem scanGroup_all {tblk : Blk → Tblock} {p : Nat} (ts : List Nat)
    (hp : ∀ b ∈ ts.map Blk.tran, (tblk b).cpn = p) :
    State.scanGroup tblk p (ts.map Blk.tran) = ts.map Blk.tran := by
  induction ts with
  | nil => rfl
  | cons t ts ih =>
    rw [List.map_cons, State.scanGroup, if_pos (hp (.tran t) (by simp)),
      if_pos (show (Blk.tran t).isTran = true from rfl),
      ih fun b hb => hp b (List.mem_cons_of_mem _ hb)]

/-- What is in front for the page of the head: all there is for that page. -/
structure Scanned (s : State) (v : View) (b : Blk) (group rest : List Blk) : Prop where
  cq : s.cq = group ++ rest
  page : ∀ c ∈ group, (s.tblk c).cpn = (s.tblk b).cpn
  all : ∀ t ∈ v.trans, (s.tblk (.tran t)).cpn = (s.tblk b).cpn → .tran t ∈ group
  lone : group.countP Blk.isTran = 0 → ∃ k, b = .eopm k ∧ group = [.eopm k]
  ne_nil : group ≠ []

theorem Shape.scan (h : Shape s v) (hcq : s.cq = b :: rest) :
    ∃ rest', Scanned s v b (State.scanGroup s.tblk (s.tblk b).cpn s.cq) rest' := by
  have hhead : v.blocks s.eopm = b :: rest := h.cq ▸ hcq
  have hcount : ∀ ts : List Nat, (ts.map Blk.tran).countP Blk.isTran = 0 → ts = [] := by
    intro ts h0
    cases ts with
    | nil => rfl
    | cons t ts => simp [Blk.isTran] at h0
  cases hold : v.old with
  | some ts =>
    -- the page left goes first
    have hob : v.oldBlocks s.eopm = ts.map .tran ++ [.eopm (v.oldMark s.eopm)] := by
      rw [View.oldBlocks, hold]
    have hb : b ∈ v.oldBlocks s.eopm := by
      rw [View.blocks, hob] at hhead
      rw [hob]
      cases ts with
      | nil =>
        rw [← (List.cons.inj hhead).1]
        exact List.mem_singleton_self _
      | cons t ts =>
        rw [← (List.cons.inj hhead).1]
        exact List.mem_cons_self
    have hpage := h.old
    have hbp := hpage b hb
    have hscan : State.scanGroup s.tblk (s.tblk b).cpn s.cq =
        ts.map .tran ++ [.eopm (v.oldMark s.eopm)] := by
      rw [h.cq, View.blocks, hob, List.append_assoc, List.singleton_append]
      exact scanGroup_mark ts fun c hc => (hpage c (hob ▸ hc)).trans hbp.symm
    rw [hscan]
    refine ⟨v.curBlocks s.eopm, by rw [h.cq, View.blocks, hob], fun c hc =>
      (hpage c (hob ▸ hc)).trans hbp.symm, fun t ht hp => ?_, fun h0 => ?_, by simp⟩
    · rw [hbp] at hp
      have hmem : .tran t ∈ s.cq := h.cq ▸ View.mem_trans.mpr ht
      rw [h.cq, View.blocks, hob, List.mem_append] at hmem
      refine hmem.resolve_right fun hc => ?_
      rw [h.cur _ hc] at hp
      exact prev_page_ne h.size h.page hp.symm
    · have hts : ts = [] := hcount ts (by simpa [Blk.isTran] using h0)
      subst hts
      rw [View.blocks, hob] at hhead
      exact ⟨_, (List.cons.inj hhead).1.symm, rfl⟩
  | none =>
    have hob : v.oldBlocks s.eopm = [] := by rw [View.oldBlocks, hold]
    have hall : s.cq = v.curBlocks s.eopm := by rw [h.cq, View.blocks, hob, List.nil_append]
    have hpage : ∀ c ∈ s.cq, (s.tblk c).cpn = (s.tblk b).cpn := by
      intro c hc
      have hb : b ∈ s.cq := hcq ▸ List.mem_cons_self
      rw [hall] at hb hc
      rw [h.cur c hc, h.cur b hb]
    have hscan : State.scanGroup s.tblk (s.tblk b).cpn s.cq = s.cq := by
      cases hown : v.own with
      | false =>
        have hc : s.cq = v.cur.map .tran := by rw [hall, View.curBlocks, hown]; simp
        rw [hc] at hpage ⊢
        exact scanGroup_all _ hpage
      | true =>
        have hc : s.cq = v.cur.map .tran ++ [.eopm !s.eopm] := by
          rw [hall, View.curBlocks, hown]
          rfl
        rw [hc] at hpage ⊢
        exact scanGroup_mark _ hpage
    rw [hscan]
    refine ⟨[], (List.append_nil _).symm, hpage, fun t ht _ => h.cq ▸ View.mem_trans.mpr ht,
      fun h0 => ?_, hcq ▸ List.cons_ne_nil _ _⟩
    have hcur : v.cur = [] := by
      apply hcount
      rw [hall, View.curBlocks, List.countP_append] at h0
      omega
    rw [hall, View.curBlocks, hcur] at hcq ⊢
    cases hown : v.own with
    | false =>
      rw [hown] at hcq
      cases hcq
    | true =>
      rw [hown] at hcq
      exact ⟨_, (List.cons.inj hcq).1.symm, rfl⟩

theorem Stage.frame (h : Stage s v) (hend : s'.ip.logend = s.ip.logend)
    (hw : s'.writer = s.writer) (heopm : s'.eopm = s.eopm)
    (hwait : ∀ k, (s'.tblk (.eopm k)).wait = (s.tblk (.eopm k)).wait) : Stage s' v := by
  unfold Stage at h ⊢
  simp only [hend, hw, heopm, hwait]
  exact h

section NextPage

variable {group : List Blk}

theorem markCommit_tblk (group : List Blk) (b : Blk) : (s.markCommit group).tblk b =
    if b ∈ group then { s.tblk b with commit := true } else s.tblk b := rfl

theorem markCommit_eq (group : List Blk) (b : Blk) :
    ((s.markCommit group).tblk b).queue = (s.tblk b).queue ∧
      ((s.markCommit group).tblk b).cpn = (s.tblk b).cpn ∧
      ((s.markCommit group).tblk b).ceor = (s.tblk b).ceor ∧
      ((s.markCommit group).tblk b).wait = (s.tblk b).wait := by
  rw [markCommit_tblk]
  split <;> exact ⟨rfl, rfl, rfl, rfl⟩

theorem markCommit_same (group : List Blk) : SameTrans s (s.markCommit group) := by
  refine ⟨rfl, fun t => ?_, rfl, rfl, [], rfl, by simp⟩
  rw [markCommit_tblk]
  split
  · exact ⟨rfl, rfl, rfl, rfl, rfl, rfl⟩
  · exact .refl _

theorem Base.mark (h : Base s v x) (group : List Blk) : Base (s.markCommit group) v x :=
  h.same (markCommit_same group) rfl
    (h.shape.frame rfl rfl rfl rfl (fun _ => (markCommit_eq group _).1)
      fun b => (markCommit_eq group b).2.1)
    (h.offsets.frame rfl rfl rfl (List.Subset.refl _) (fun b => (markCommit_eq group b).2.1)
      (fun b => (markCommit_eq group b).2.2.1) fun _ => id)
    (h.pending.frame rfl rfl fun _ => id)

/-- Nobody in front of the last one of the group ends behind it. -/
theorem ceor_le_last {p : Nat} (hord : group.Pairwise (InOrder s))
    (hp : ∀ c ∈ group, (s.tblk c).cpn = p) (d : Blk) {c : Blk} (hc : c ∈ group) :
    (s.tblk c).ceor ≤ (s.tblk (group.getLast?.getD d)).ceor := by
  have hne : group ≠ [] := List.ne_nil_of_mem hc
  have hlast : group.getLast?.getD d = group.getLast hne := by
    rw [List.getLast?_eq_some_getLast hne]
    rfl
  rw [hlast]
  have hsplit := List.dropLast_append_getLast hne
  rw [← hsplit, List.pairwise_append] at hord
  rw [← hsplit, List.mem_append, List.mem_singleton] at hc
  rcases hc with hc | hc
  · have hmem : c ∈ group := hsplit ▸ List.mem_append_left _ hc
    exact (hord.2.2 c hc _ (List.mem_singleton_self _)
      ((hp c hmem).trans (hp _ (List.getLast_mem hne)).symm)).2.1
  · rw [hc]

theorem nextPage_succ {g fuel : Nat} (hcq : s.cq = b :: rest) :
    State.nextPage l g (fuel + 1) s =
      let group := State.scanGroup s.tblk (s.tblk b).cpn s.cq
      let last := group.getLast?.getD b
      let s₁ := s.markCommit group
      if group.countP Blk.isTran = 0 then
        State.nextPage l g fuel (s₁.logwrite (s₁.tblk last).cpn (s₁.tblk last).ceor
          (s₁.tblk last).cxor false).eopmDequeue
      else
        some ((s₁.logwrite (s.tblk b).cpn (s₁.tblk last).ceor (s₁.tblk last).cxor
          last.isTran).setPc l (.waiting g (s₁.written (s.tblk b).cpn (s₁.tblk last).ceor
            (s₁.tblk last).cxor last.isTran))) := by
  rw [State.nextPage]
  split
  next heq =>
    rw [hcq] at heq
    cases heq
  next c r heq =>
    rw [hcq] at heq
    obtain ⟨rfl, rfl⟩ := List.cons.inj heq
    rfl

/-- A step that changes places of transactions and some of their flags. -/
theorem Base.change {y : Option Nat} (h : Base s v x) (hip : s'.ip = s.ip) (hcq : s'.cq = s.cq)
    (heopm : s'.eopm = s.eopm) (hwriter : s'.writer = s.writer) (htodo : s'.todo = s.todo)
    (htrace : s'.trace = s.trace)
    (hq : ∀ k, (s'.tblk (.eopm k)).queue = (s.tblk (.eopm k)).queue)
    (hpage : ∀ b, (s'.tblk b).cpn = (s.tblk b).cpn ∧ (s'.tblk b).ceor = (s.tblk b).ceor)
    (hres : ∀ u, (s'.tblk (.tran u)).committed = (s.tblk (.tran u)).committed ∧
      (s'.tblk (.tran u)).error = (s.tblk (.tran u)).error ∧
      (s'.tblk (.tran u)).csn = (s.tblk (.tran u)).csn)
    (hpc : ∀ u, s.pc u = .idle → s'.pc u = .idle) (hm : Members s' v y) : Base s' v y := by
  refine ⟨h.shape.frame (by rw [hip]) (by rw [hip]) hcq heopm hq fun b => (hpage b).1,
    h.offsets.frame (by rw [hip]) (by rw [hip]) hcq (by rw [heopm]; exact List.Subset.refl _)
      (fun b => (hpage b).1) (fun b => (hpage b).2) fun t ht => hwriter ▸ ht,
    ⟨htodo ▸ h.pending.words, htodo ▸ h.pending.last, fun p hp u hf => ?_, fun u hu => ?_⟩, hm,
    fun u hu => ?_, fun u hu hc he => ?_, fun u hu hc he => ?_, htrace ▸ h.recorded.honest⟩
  · exact hpc u (h.pending.idle p (htodo ▸ hp) u hf)
  · obtain ⟨hidle, hnil⟩ := h.pending.enqueue u (hwriter ▸ hu)
    exact ⟨hpc u hidle, htodo.trans hnil⟩
  · rw [htrace, (hpage _).1, (hpage _).2]
    exact h.recorded.logged u fun h0 => hu (hpc u h0)
  · rw [(hres u).1] at hc
    rw [(hres u).2.1] at he
    rw [htrace]
    exact h.recorded.durable u (fun h0 => hu (hpc u h0)) hc he
  · rw [(hres u).1] at hc
    rw [(hres u).2.1] at he
    rw [(hres u).2.2]
    exact h.recorded.error u (fun h0 => hu (hpc u h0)) hc he

/-- Only the place of a transaction in `groupcommit` changes. -/
theorem Base.setPc {c : TranPc} {y : Option Nat} (h : Base s v x) (hpc : s.pc t ≠ .idle)
    (hm : Members (s.setPc t c) v y) : Base (s.setPc t c) v y := by
  refine h.change rfl rfl rfl rfl rfl rfl (fun _ => rfl) (fun _ => ⟨rfl, rfl⟩)
    (fun _ => ⟨rfl, rfl, rfl⟩) (fun u hu => ?_) hm
  have hne : u ≠ t := by
    rintro rfl
    exact hpc hu
  exact (Function.update_of_ne hne _ _).trans hu

/-- The leader waits for its page. -/
theorem Members.wait {g : Nat} {w : LogWrite} (h : Members s v (some l)) (hl : l ∈ v.trans) :
    Members (s.setPc l (.waiting g w)) v (some l) :=
  h.setPc (fun _ _ => Iff.rfl) (fun _ => TranPc.noConfusion) (fun hm => absurd hl hm)
    (fun _ => rfl) TranPc.noConfusion fun _ _ _ => rfl

theorem nextPage_spec {g : Nat} : ∀ {fuel : Nat} {s : State} {v : View}, Base s v (some l) →
    Stage s v → Leader s v l → (s.tblk (.tran l)).ready = false →
    (∀ b ∈ s.cq, (s.tblk b).commit = false) → g = (s.tblk (.tran l)).cpn → s.cq.length ≤ fuel →
    ∃ s' v', State.nextPage l g fuel s = some s' ∧ Inv s' v' (some l) := by
  intro fuel
  induction fuel with
  | zero =>
    intro s v h _ hl _ _ _ hf
    have hmem : .tran l ∈ s.cq := h.shape.cq ▸ View.mem_trans.mpr hl.mem
    rw [List.eq_nil_of_length_eq_zero (Nat.le_zero.mp hf)] at hmem
    cases hmem
  | succ fuel ih =>
    intro s v h hst hl hr hcommit hg hf
    have hmem : .tran l ∈ s.cq := h.shape.cq ▸ View.mem_trans.mpr hl.mem
    obtain ⟨b, rest, hcq⟩ := List.exists_cons_of_ne_nil (List.ne_nil_of_mem hmem)
    obtain ⟨rest', hsc⟩ := h.shape.scan hcq
    rw [nextPage_succ hcq]
    generalize State.scanGroup s.tblk (s.tblk b).cpn s.cq = group at hsc
    have hnd := View.nodup_blocks (e := s.eopm) h.shape.nodup
    rw [← h.shape.cq] at hnd
    have hmark := h.mark group
    have hsame := markCommit_same (s := s) group
    have hmeq := markCommit_eq (s := s) group
    have hstm : Stage (s.markCommit group) v :=
      hst.frame rfl rfl rfl fun k => (hmeq (.eopm k)).2.2.2
    dsimp only
    by_cases h0 : group.countP Blk.isTran = 0
    · -- only the marker is left for the page, which is written on the way
      rw [if_pos h0]
      obtain ⟨k, rfl, rfl⟩ := hsc.lone h0
      set s₁ := (s.markCommit [.eopm k]).logwrite
        ((s.markCommit [.eopm k]).tblk ([Blk.eopm k].getLast?.getD (.eopm k))).cpn
        ((s.markCommit [.eopm k]).tblk ([Blk.eopm k].getLast?.getD (.eopm k))).ceor
        ((s.markCommit [.eopm k]).tblk ([Blk.eopm k].getLast?.getD (.eopm k))).cxor false with hs₁
      have hcq₁ : s₁.cq = .eopm k :: rest := hcq
      have h₁ : Base s₁ v (some l) := hmark.logwrite _ _ _ _
      have hst₁ : Stage s₁ v := hstm.frame rfl rfl rfl fun _ => rfl
      have hsame₁ : SameTrans s s₁ := hsame.trans (logwrite_same _ _ _ _)
      have hsame₂ := hsame₁.trans (eopmDequeue_same hcq₁)
      have hv := View.trans_pop_eopm (h.shape.cq ▸ hcq)
      have hfields : s₁.eopmDequeue.cq = rest ∧ s₁.eopmDequeue.gcpageout = s.gcpageout ∧
          s₁.eopmDequeue.lcrt = s.lcrt := by
        rw [eopmDequeue_eq hcq₁]
        exact ⟨rfl, rfl, rfl⟩
      rw [hcq, List.nodup_cons] at hnd
      refine ih (h₁.dequeue hcq₁) (hst₁.dequeue h₁.shape.cq hcq₁)
        (hl.same hsame₂ hv hfields.2.1 hfields.2.2) ((hsame₂.tblk l).ready.trans hr)
        (fun c hc => ?_) (hg.trans (hsame₂.tblk l).cpn.symm) ?_
      · rw [hfields.1] at hc
        have hne : c ≠ .eopm k := by
          rintro rfl
          exact hnd.1 hc
        rw [eopmDequeue_tblk hcq₁ hne]
        change ((s.markCommit [.eopm k]).tblk c).commit = false
        rw [markCommit_tblk, if_neg fun hm => hne (List.mem_singleton.mp hm)]
        exact hcommit c (hcq ▸ List.mem_cons_of_mem _ hc)
      · rw [hfields.1]
        rw [hcq, List.length_cons] at hf
        omega
    · -- the leader waits for the page of the group
      rw [if_neg h0]
      set last := group.getLast?.getD b
      set w := (s.markCommit group).written (s.tblk b).cpn ((s.markCommit group).tblk last).ceor
        ((s.markCommit group).tblk last).cxor last.isTran with hw
      have hord := h.offsets.order
      rw [hsc.cq, List.pairwise_append] at hord
      rw [hsc.cq, List.nodup_append] at hnd
      have hsame₁ := hsame.trans (logwrite_same (s := s.markCommit group) (s.tblk b).cpn
        ((s.markCommit group).tblk last).ceor ((s.markCommit group).tblk last).cxor last.isTran)
      have hl₁ : Leader _ v l := hl.same hsame₁ rfl rfl rfl
      refine ⟨_, v, rfl, ⟨(hmark.logwrite _ _ _ _).setPc ?_ ((hmark.logwrite _ _ _ _).members.wait
        hl.mem), hstm.frame rfl rfl rfl fun _ => rfl, ?_⟩⟩
      · exact (hmark.members.on l hl.mem).1
      refine .leads ⟨hl₁.gcpageout, hl₁.mem, hl₁.lcrt, hl₁.sleeper, hl₁.csn_le, hl₁.latest⟩
        ?_ ((hsame.tblk l).ready.trans hr) (w := w) ⟨hsc.cq, fun c hc => ?_, fun c hc => ?_,
          fun c hc => ?_, fun he => ?_, fun c hc => ?_, fun t ht => ?_⟩
      · rw [hg]
        exact (Function.update_self _ _ _).trans
          (congrArg (TranPc.waiting · _) (hsame.tblk l).cpn.symm)
      · change ((s.markCommit group).tblk c).commit = true
        rw [markCommit_tblk, if_pos hc]
      · change ((s.markCommit group).tblk c).commit = false
        rw [markCommit_tblk, if_neg fun hm => hnd.2.2 c hm c hc rfl]
        exact hcommit c (hsc.cq ▸ List.mem_append_right _ hc)
      · exact (hmeq c).2.1.trans (hsc.page c hc)
      · exact hsc.all l hl.mem ((hmeq (.tran l)).2.1.symm.trans he.symm)
      · change ((s.markCommit group).tblk c).ceor ≤ ((s.markCommit group).tblk last).ceor
        rw [(hmeq c).2.2.1, (hmeq last).2.2.1]
        exact ceor_le_last hord.1 hsc.page b hc
      · have htrace : since t (.write w :: s.trace) = .write w :: since t s.trace := since_cons rfl
        exact htrace ▸ List.mem_cons_self

/-- A transaction becomes the leader. -/
theorem lead_spec (h : Base s v (some l)) (hst : Stage s v) (hl : Leader s v l)
    (hr : (s.tblk (.tran l)).ready = false) (hc : ∀ b ∈ s.cq, (s.tblk b).commit = false) :
    ∃ s' v', s.lead l = some s' ∧ Inv s' v' (some l) := by
  have htb : ∀ b, (s.setTblk (.tran l) { s.tblk (.tran l) with leader := true }).tblk b =
      if b = .tran l then { s.tblk b with leader := true } else s.tblk b := by
    intro b
    by_cases hb : b = .tran l
    · subst hb
      simp [State.setTblk]
    · simp [State.setTblk, hb]
  have hsame : SameTrans s (s.setTblk (.tran l) { s.tblk (.tran l) with leader := true }) := by
    refine ⟨rfl, fun t => ?_, rfl, rfl, [], rfl, by simp⟩
    rw [htb]
    split <;> exact ⟨rfl, rfl, rfl, rfl, rfl, rfl⟩
  have hcpn : ∀ b, ((s.setTblk (.tran l) { s.tblk (.tran l) with leader := true }).tblk b).cpn =
      (s.tblk b).cpn := fun b => by rw [htb]; split <;> rfl
  have hceor : ∀ b, ((s.setTblk (.tran l) { s.tblk (.tran l) with leader := true }).tblk b).ceor =
      (s.tblk b).ceor := fun b => by rw [htb]; split <;> rfl
  refine nextPage_spec (h.same hsame rfl
    (h.shape.frame rfl rfl rfl rfl (fun k => by rw [htb]; rfl) hcpn)
    (h.offsets.frame rfl rfl rfl (List.Subset.refl _) hcpn hceor fun _ => id)
    (h.pending.frame rfl rfl fun _ => id)) (hst.frame rfl rfl rfl fun k => by rw [htb]; rfl)
    (hl.same hsame rfl rfl rfl) ((hsame.tblk l).ready.trans hr) (fun b hb => ?_) rfl
    (Nat.le_succ _)
  rw [htb]
  split
  · exact hc b hb
  · exact hc b hb

end NextPage

/-! ## `groupcommit` -/

theorem Base.note {e : Event} (h : Base s v x) (he : ∀ u, e.logged? u = none)
    (hk : Kept e s.trace) : Base (s.note e) v x := by
  refine ⟨h.shape.frame rfl rfl rfl rfl (fun _ => rfl) fun _ => rfl,
    h.offsets.frame rfl rfl rfl (List.Subset.refl _) (fun _ => rfl) (fun _ => rfl) fun _ => id,
    h.pending.frame rfl rfl fun _ => id, ⟨h.members.on, h.members.off, h.members.others,
      h.members.asleep, h.members.waiting, h.members.csn, h.members.csn_le, h.members.crtc⟩,
    fun u hu => ?_, fun u hu hc hr => (h.recorded.durable u hu hc hr).cons (he u),
    h.recorded.error, hk, h.recorded.honest⟩
  exact (lastLogged_cons (he u)).trans (h.recorded.logged u hu)

/-- A committed transaction is through. -/
theorem Members.leave {y : Option Nat} (h : Members s v x) (ht : t ∉ v.trans)
    (hy : ∀ u, u ≠ t → (x = some u ↔ y = some u)) : Members (s.setPc t .idle) v y :=
  h.setPc hy (fun hm => absurd hm ht) (fun _ => rfl) (fun hm => absurd hm ht)
    TranPc.noConfusion fun _ _ => TranPc.noConfusion

theorem Base.ret {rc : Nat} {y : Option Nat} (h : Base s v x) (ht : t ∉ v.trans)
    (hy : ∀ u, u ≠ t → (x = some u ↔ y = some u))
    (hk : Kept (.returned t rc (s.tblk (.tran t)).committed) s.trace) : Base (s.ret t rc) v y := by
  have hb : Base (s.setPc t .idle) v y := by
    refine h.change rfl rfl rfl rfl rfl rfl (fun _ => rfl) (fun _ => ⟨rfl, rfl⟩)
      (fun _ => ⟨rfl, rfl, rfl⟩) (fun u hu => ?_) (h.members.leave ht hy)
    by_cases hut : u = t
    · rw [hut]
      exact Function.update_self _ _ _
    · exact (Function.update_of_ne hut _ _).trans hu
  exact hb.note (fun _ => rfl) hk

/-- Whoever finds his block committed returns what the leader left there. -/
theorem Inv.leave (h : Inv s v x) (hpc : s.pc t ≠ .idle)
    (hc : (s.tblk (.tran t)).committed = true) : Inv (s.ret t (s.committedRc t)) v x := by
  have ht : t ∉ v.trans := by
    intro hm
    rw [(h.members.on t hm).2.1] at hc
    cases hc
  have hne : ∀ u ∈ v.trans, u ≠ t := fun u hu he => ht (he ▸ hu)
  have hpcu : ∀ u, u ≠ t → (s.ret t (s.committedRc t)).pc u = s.pc u := fun u hu =>
    Function.update_of_ne hu _ _
  refine ⟨h.toBase.ret ht (fun _ _ => Iff.rfl) ⟨hc, fun hrc => ?_⟩,
    h.stage.frame rfl rfl rfl fun _ => rfl, ?_⟩
  · unfold State.committedRc at hrc
    split at hrc
    next he => exact absurd hrc (h.recorded.error t hpc hc he)
    next he => exact h.recorded.durable t hpc hc (Bool.eq_false_iff.mpr he)
  · cases h.phase with
    | free hgc hr hc hm => exact .free hgc hr hc hm
    | elect hl hp hr hc =>
      exact .elect ⟨hl.gcpageout, hl.mem, hl.lcrt, hl.sleeper, hl.csn_le, hl.latest⟩
        ((hpcu _ (hne _ hl.mem)).trans hp) hr hc
    | leads hl hp hr hg =>
      refine .leads ⟨hl.gcpageout, hl.mem, hl.lcrt, hl.sleeper, hl.csn_le, hl.latest⟩
        ((hpcu _ (hne _ hl.mem)).trans hp) hr
        ⟨hg.cq, hg.commit, hg.rest, hg.page, hg.leader, hg.eor, fun u hu => ?_⟩
      have hs : since u (s.ret t (s.committedRc t)).trace = _ :: since u s.trace := since_cons rfl
      exact hs ▸ List.mem_cons_of_mem _ (hg.written u hu)

theorem Members.mem (h : Members s v x) (hpc : s.pc t ≠ .idle)
    (hc : (s.tblk (.tran t)).committed ≠ true) : t ∈ v.trans := by
  by_contra hm
  exact (h.off t hm).elim hpc hc

/-- One transaction more is ready. -/
theorem countP_raise {p q : Nat → Bool} {ts : List Nat} (hnd : ts.Nodup) (ht : t ∈ ts)
    (hp : p t = false) (hp' : q t = true) (heq : ∀ u, u ≠ t → q u = p u) :
    ts.countP q = ts.countP p + 1 := by
  obtain ⟨l₁, l₂, rfl⟩ := List.append_of_mem ht
  have hperm := List.nodup_middle.mp hnd
  rw [List.nodup_cons, List.mem_append, not_or] at hperm
  have h₁ : l₁.countP q = l₁.countP p :=
    List.countP_congr fun u hu => by rw [heq u fun he => hperm.1.1 (he ▸ hu)]
  have h₂ : l₂.countP q = l₂.countP p :=
    List.countP_congr fun u hu => by rw [heq u fun he => hperm.1.2 (he ▸ hu)]
  simp only [List.countP_append, List.countP_cons, h₁, h₂, hp, hp', if_true, Bool.false_eq_true,
    if_false]
  omega

section Enter

/-- `GC_READY` of a transaction changes, and nothing else of its block. -/
theorem setReady (s : State) (t : Nat) (r : Bool) :
    let s' := s.setTblk (.tran t) { s.tblk (.tran t) with ready := r }
    (∀ b, s'.tblk b = { s.tblk b with ready := (s'.tblk b).ready }) ∧
      (∀ u, u ≠ t → s'.tblk (.tran u) = s.tblk (.tran u)) ∧ (s'.tblk (.tran t)).ready = r := by
  intro s'
  have htt : s'.tblk (.tran t) = { s.tblk (.tran t) with ready := r } := Function.update_self _ _ _
  refine ⟨fun b => ?_, fun u hu => Function.update_of_ne (fun he => hu (Blk.tran.inj he)) _ _, ?_⟩
  · by_cases hb : b = .tran t
    · rw [hb, htt]
    · have htb : s'.tblk b = s.tblk b := Function.update_of_ne hb _ _
      rw [htb]
  · rw [htt]

/-- A page-out is under way, and the transaction goes to sleep. -/
theorem Inv.sleep (h : Inv s v x) (hpc : s.pc t = .logged)
    (hc : (s.tblk (.tran t)).committed ≠ true) (hgc : s.gcpageout = true) :
    ∃ s', s.enter t = some s' ∧ Inv s' v x := by
  have hidle : s.pc t ≠ .idle := by rw [hpc]; exact TranPc.noConfusion
  have hmem : t ∈ v.trans := h.members.mem hidle hc
  unfold State.enter
  rw [if_neg hc, if_pos hgc]
  refine ⟨_, rfl, ?_⟩
  generalize hlc : (if (s.tblk (.tran t)).csn > (s.tblk (.tran s.lcrt)).csn then t else s.lcrt) = c
  set s' := ({ s with crtc := s.crtc + 1, lcrt := c }.setTblk (.tran t)
    { s.tblk (.tran t) with ready := true }).setPc t .asleep with hs'
  have hpcu : ∀ u, u ≠ t → s'.pc u = s.pc u := fun u hu => Function.update_of_ne hu _ _
  have hpt : s'.pc t = .asleep := Function.update_self _ _ _
  obtain ⟨hsame, htu, htt⟩ :
      (∀ b, s'.tblk b = { s.tblk b with ready := (s'.tblk b).ready }) ∧
        (∀ u, u ≠ t → s'.tblk (.tran u) = s.tblk (.tran u)) ∧ (s'.tblk (.tran t)).ready = true :=
    setReady { s with crtc := s.crtc + 1, lcrt := c } t true
  have hxt : x ≠ some t := by
    rintro rfl
    cases h.phase with
    | elect _ hp => rw [hpc] at hp; cases hp
    | leads _ hp => rw [hpc] at hp; cases hp
  have hrt : (s.tblk (.tran t)).ready = false := by
    rcases h.members.others t hmem hxt with ⟨-, hr⟩ | ⟨hp, -⟩
    · exact hr
    · rw [hpc] at hp
      cases hp
  have hcsn : ∀ u, (s'.tblk (.tran u)).csn = (s.tblk (.tran u)).csn := fun u => by rw [hsame]
  have hmembers : Members s' v x := by
    refine h.members.apart ⟨hpcu, htu⟩ (fun _ _ => Iff.rfl) (fun _ _ => Iff.rfl) (fun hm => ?_)
      (fun hm => absurd hmem hm) (fun _ _ => .inr ⟨hpt, htt⟩) (fun _ => ⟨hmem, hxt⟩)
      (fun g w hp => ?_) ?_ (fun u hu => ?_) ?_
    · rw [hsame, hpt]
      exact ⟨TranPc.noConfusion, (h.members.on t hm).2⟩
    · rw [hpt] at hp
      cases hp
    · simp only [hcsn]
      exact h.members.csn
    · rw [hcsn]
      exact h.members.csn_le u hu
    · have hcount := countP_raise (p := fun u => (s.tblk (.tran u)).ready)
        (q := fun u => (s'.tblk (.tran u)).ready) h.shape.nodup hmem hrt htt
        fun u hu => by rw [htu u hu]
      rw [hcount]
      change s.crtc + 1 = _
      rw [h.members.crtc]
      push_cast
      rfl
  refine ⟨h.toBase.change rfl rfl rfl rfl rfl rfl (fun k => by rw [hsame])
    (fun b => by rw [hsame b]; exact ⟨rfl, rfl⟩)
    (fun u => by rw [hsame]; exact ⟨rfl, rfl, rfl⟩) (fun u hu => ?_) hmembers,
    h.stage.frame rfl rfl rfl fun k => by rw [hsame], ?_⟩
  · rw [hpcu u fun he => hidle (he ▸ hu)]
    exact hu
  have hleader : ∀ l, Leader s v l → Leader s' v l := by
    intro l hl
    have hlcrt : s'.lcrt = c := rfl
    have hcases : (c = t ∧ (s.tblk (.tran s.lcrt)).csn < (s.tblk (.tran t)).csn) ∨
        (c = s.lcrt ∧ (s.tblk (.tran t)).csn ≤ (s.tblk (.tran s.lcrt)).csn) := by
      rw [← hlc]
      split
      next hlt => exact .inl ⟨rfl, hlt⟩
      next hlt => exact .inr ⟨rfl, not_lt.mp hlt⟩
    refine ⟨hl.gcpageout, hl.mem, ?_, ?_, ?_, fun u hu hr => ?_⟩
    · rw [hlcrt]
      rcases hcases with ⟨rfl, -⟩ | ⟨rfl, -⟩
      · exact hmem
      · exact hl.lcrt
    · rw [hlcrt]
      by_cases hct : c = t
      · exact .inr (hct ▸ htt)
      · rw [htu c hct]
        rcases hcases with ⟨he, -⟩ | ⟨rfl, -⟩
        · exact absurd he hct
        · exact hl.sleeper
    · rw [hlcrt, hcsn, hcsn]
      rcases hcases with ⟨rfl, hlt⟩ | ⟨rfl, -⟩
      · exact hl.csn_le.trans hlt.le
      · exact hl.csn_le
    · rw [hlcrt, hcsn, hcsn]
      by_cases hut : u = t
      · rw [hut]
        rcases hcases with ⟨rfl, -⟩ | ⟨rfl, hle⟩
        · exact le_rfl
        · exact hle
      · rw [htu u hut] at hr
        rcases hcases with ⟨rfl, hlt⟩ | ⟨rfl, -⟩
        · exact (hl.latest u hu hr).trans hlt.le
        · exact hl.latest u hu hr
  have hcommit : ∀ b, (s'.tblk b).commit = (s.tblk b).commit := fun b => by rw [hsame]
  have hne : ∀ l, x = some l → l ≠ t := fun l hl he => hxt (he ▸ hl)
  cases h.phase with
  | free hgc' _ _ =>
    rw [hgc] at hgc'
    cases hgc'
  | elect hl hp hr hc' =>
    refine .elect (hleader _ hl) ?_ ?_ fun b hb => (hcommit b).trans (hc' b hb)
    · rw [hpcu _ (hne _ rfl)]
      exact hp
    · rw [htu _ (hne _ rfl)]
      exact hr
  | leads hl hp hr hg =>
    have hfront : SameFront s s' := ⟨⟨[], (List.append_nil _).symm, by simp⟩,
      fun b _ => hcommit b, fun b _ => by rw [hsame], fun b _ => by rw [hsame], fun _ => id⟩
    obtain ⟨rest', hg'⟩ := hg.front hfront (by rw [hsame]) hg.written
    refine .leads (hleader _ hl) ?_ ?_ hg'
    · rw [hpcu _ (hne _ rfl), hsame]
      exact hp
    · rw [htu _ (hne _ rfl)]
      exact hr

theorem Inv.enter (h : Inv s v x) (hpc : s.pc t = .logged) :
    ∃ s' v' y, s.enter t = some s' ∧ Inv s' v' y := by
  have hidle : s.pc t ≠ .idle := by rw [hpc]; exact TranPc.noConfusion
  by_cases hc : (s.tblk (.tran t)).committed = true
  · refine ⟨_, v, x, ?_, h.leave hidle hc⟩
    unfold State.enter
    rw [if_pos hc]
  by_cases hgc : s.gcpageout = true
  · obtain ⟨s', he, hi⟩ := h.sleep hpc hc hgc
    exact ⟨s', v, x, he, hi⟩
  -- nobody leads
  have hmem : t ∈ v.trans := h.members.mem hidle hc
  have heq : s.enter t = State.lead { s with gcpageout := true, lcrt := t } t := by
    unfold State.enter
    rw [if_neg hc, if_neg hgc]
  rw [heq]
  cases h.phase with
  | elect hl => exact absurd hl.gcpageout hgc
  | leads hl => exact absurd hl.gcpageout hgc
  | free _ hr hcommit =>
    have hm := h.members
    have hlog : ∀ u ∈ v.trans, s.pc u = .logged := by
      intro u hu
      rcases hm.others u hu (Option.some_ne_none u).symm with ⟨hl, -⟩ | ⟨-, hr'⟩
      · exact hl
      · rw [hr u hu] at hr'
        cases hr'
    have hm' : Members { s with gcpageout := true, lcrt := t } v (some t) := by
      refine ⟨hm.on, hm.off, fun u hu _ => .inl ⟨hlog u hu, hr u hu⟩, fun u hu => ?_,
        fun u g w hu => ?_, hm.csn, hm.csn_le, hm.crtc⟩
      · have hasleep := hlog u (hm.asleep u hu).1
        rw [show s.pc u = .asleep from hu] at hasleep
        cases hasleep
      · cases hm.waiting u g w hu
    set s₁ : State := { s with gcpageout := true, lcrt := t } with hs₁
    have hb : Base s₁ v (some t) := h.toBase.change rfl rfl rfl rfl rfl rfl (fun _ => rfl)
      (fun _ => ⟨rfl, rfl⟩) (fun _ => ⟨rfl, rfl, rfl⟩) (fun _ => id) hm'
    have hst : Stage s₁ v := h.stage.frame rfl rfl rfl fun _ => rfl
    have hl : Leader s₁ v t := by
      refine ⟨rfl, hmem, hmem, .inl rfl, le_rfl, fun u hu hr' => ?_⟩
      rw [show (s₁.tblk (.tran u)).ready = false from hr u hu] at hr'
      cases hr'
    obtain ⟨s', v', hs', hi⟩ := lead_spec hb hst hl (hr t hmem) hcommit
    exact ⟨s', v', some t, hs', hi⟩

theorem Inv.awake (h : Inv s v x) (hpc : s.pc t = .woken) :
    ∃ s' v' y, s.awake t = some s' ∧ Inv s' v' y := by
  have hidle : s.pc t ≠ .idle := by rw [hpc]; exact TranPc.noConfusion
  by_cases hc : (s.tblk (.tran t)).committed = true
  · refine ⟨_, v, x, ?_, h.leave hidle hc⟩
    unfold State.awake
    rw [if_pos hc]
  have hmem : t ∈ v.trans := h.members.mem hidle hc
  have hxt : x = some t := by
    by_contra hx
    rcases h.members.others t hmem hx with ⟨hp, -⟩ | ⟨hp, -⟩ <;> rw [hpc] at hp <;> cases hp
  subst hxt
  cases h.phase with
  | leads _ hp =>
    rw [hpc] at hp
    cases hp
  | elect hl _ hr hcommit =>
    unfold State.awake
    rw [if_neg hc]
    set s₁ := State.setTblk { s with crtc := s.crtc - 1 } (.tran t)
      { s.tblk (.tran t) with ready := false } with hs₁
    obtain ⟨hsame, htu, htt⟩ :
        (∀ b, s₁.tblk b = { s.tblk b with ready := (s₁.tblk b).ready }) ∧
          (∀ u, u ≠ t → s₁.tblk (.tran u) = s.tblk (.tran u)) ∧
          (s₁.tblk (.tran t)).ready = false := setReady { s with crtc := s.crtc - 1 } t false
    have hcsn : ∀ u, (s₁.tblk (.tran u)).csn = (s.tblk (.tran u)).csn := fun u => by rw [hsame]
    have hm := h.members
    have hm₁ : Members s₁ v (some t) := by
      refine hm.apart ⟨fun _ _ => rfl, htu⟩ (fun _ _ => Iff.rfl) (fun _ _ => Iff.rfl)
        (fun hu => by rw [hsame]; exact hm.on t hu) (fun hu => absurd hmem hu)
        (fun _ hx => absurd rfl hx) (hm.asleep t) (hm.waiting t) ?_ (fun u hu => ?_) ?_
      · simp only [hcsn]
        exact hm.csn
      · rw [hcsn]
        exact hm.csn_le u hu
      · have hcount := countP_raise (p := fun u => (s₁.tblk (.tran u)).ready)
          (q := fun u => (s.tblk (.tran u)).ready) h.shape.nodup hmem htt hr
          fun u hu => by rw [htu u hu]
        change s.crtc - 1 = _
        rw [hm.crtc, hcount]
        push_cast
        omega
    have hready : ∀ u, (s₁.tblk (.tran u)).ready = true → (s.tblk (.tran u)).ready = true := by
      intro u hu
      by_cases hut : u = t
      · rw [hut, htt] at hu
        cases hu
      · rwa [htu u hut] at hu
    have hb : Base s₁ v (some t) := h.toBase.change rfl rfl rfl rfl rfl rfl
      (fun k => by rw [hsame]) (fun b => by rw [hsame b]; exact ⟨rfl, rfl⟩)
      (fun u => by rw [hsame]; exact ⟨rfl, rfl, rfl⟩) (fun _ => id) hm₁
    have hst : Stage s₁ v := h.stage.frame rfl rfl rfl fun k => by rw [hsame]
    have hl₁ : Leader s₁ v t := by
      refine ⟨hl.gcpageout, hmem, hl.lcrt, ?_, by rw [hcsn, hcsn]; exact hl.csn_le,
        fun u hu hr' => ?_⟩
      · by_cases hlt : s.lcrt = t
        · exact .inl hlt
        · have hready := congrArg Tblock.ready (htu _ hlt)
          exact .inr (hready.trans (hl.sleeper.resolve_left hlt))
      · rw [hcsn, hcsn]
        exact hl.latest u hu (hready u hr')
    obtain ⟨s', v', hs', hi⟩ := lead_spec hb hst hl₁ htt fun b hb => by
      rw [hsame]
      exact hcommit b hb
    exact ⟨s', v', some t, hs', hi⟩

end Enter

/-! ### A page-out is done -/

section Iodone

variable {group : List Blk} {rc g : Nat} {w : LogWrite}

/-- A transaction in front of another one on the queue has the lower number. -/
theorem Base.csn_lt (h : Base s v x) (hcq : s.cq = group ++ rest) (ht : .tran t ∈ group)
    (hl : .tran l ∈ rest) : (s.tblk (.tran t)).csn < (s.tblk (.tran l)).csn := by
  have hcsn := h.members.csn
  rw [View.trans_eq (e := s.eopm), ← h.shape.cq, hcq, List.filterMap_append,
    List.pairwise_append] at hcsn
  exact hcsn.2.2 t (List.mem_filterMap.mpr ⟨_, ht, rfl⟩) l (List.mem_filterMap.mpr ⟨_, hl, rfl⟩)

/-- The page of the group is out, so the records of the group are. -/
theorem Group.durable (h : Inv s v x) (hg : Group s l w group rest) (ht : .tran t ∈ group) :
    Durable t (.iowait w 0 :: s.trace) := by
  have hmem : t ∈ v.trans := View.mem_trans.mp (h.shape.cq ▸ hg.cq ▸ List.mem_append_left _ ht)
  refine ⟨_, _, w, (lastLogged_cons rfl).trans (h.recorded.logged t (h.members.on t hmem).1), ?_,
    (hg.page _ ht).symm, hg.eor _ ht⟩
  rw [since_cons rfl]
  exact (List.singleton_sublist.mpr (hg.written t ht)).cons_cons _

/-- A marker has a block of its own page before it. -/
theorem Base.before_mark {a : Blk} {k : Bool} {ls : List Blk} (h : Base s v x) (hst : Stage s v)
    (hcq : s.cq = ls ++ a :: .eopm k :: rest) :
    a.isTran = true ∧ (s.tblk a).cpn = (s.tblk (.eopm k)).cpn := by
  have hex : v.own = true → v.old ≠ none → v.cur ≠ [] := by
    intro hown hold
    unfold Stage at hst
    split at hst
    · exact absurd (hown.symm.trans hst.2) Bool.noConfusion
    · exact absurd (hown.symm.trans hst.2) Bool.noConfusion
    · exact absurd (hown.symm.trans hst.2) Bool.noConfusion
    · obtain ⟨-, -, -, -, heq, hcur⟩ := hst
      intro hnil
      exact absurd (hown.symm.trans (heq.symm.trans (hcur.mpr hnil))) Bool.noConfusion
    · exact absurd hst.2.1 hold
    · exact absurd (hown.symm.trans hst.2.1) Bool.noConfusion
  have hcpn : (s.tblk a).cpn = (s.tblk (.eopm k)).cpn := by
    rcases View.before_mark hex (h.shape.cq ▸ hcq) with ⟨ha, hk⟩ | ⟨ha, hk⟩
    · rw [h.shape.old _ ha, h.shape.old _ hk]
    · rw [h.shape.cur _ ha, h.shape.cur _ hk]
  have hord := h.offsets.order
  rw [hcq, List.pairwise_append, List.pairwise_cons] at hord
  exact ⟨(hord.2.1.1 _ List.mem_cons_self hcpn).1, hcpn⟩

/-- The leader gives up, and nobody is ready. -/
theorem Base.giveUp (h : Base s v (some t)) (hst : Stage s v) (ht : t ∉ v.trans)
    (hr : ∀ u ∈ v.trans, (s.tblk (.tran u)).ready = false)
    (hc : ∀ b ∈ s.cq, (s.tblk b).commit = false) (hm : ∀ k, s.cq.head? ≠ some (.eopm k))
    (hk : Kept (.returned t rc (s.tblk (.tran t)).committed) s.trace) :
    Inv (State.ret { s with gcpageout := false } t rc) v none := by
  set s₁ : State := { s with gcpageout := false } with hs₁
  have hmem : Members s₁ v (some t) := ⟨h.members.on, h.members.off, h.members.others,
    h.members.asleep, h.members.waiting, h.members.csn, h.members.csn_le, h.members.crtc⟩
  have hb : Base s₁ v (some t) := h.change rfl rfl rfl rfl rfl rfl (fun _ => rfl)
    (fun _ => ⟨rfl, rfl⟩) (fun _ => ⟨rfl, rfl, rfl⟩) (fun _ => id) hmem
  have hnone : ∀ u, u ≠ t → (some t = some u ↔ none = some u) := fun u hu =>
    iff_of_false (fun he => hu (Option.some.inj he).symm) (Option.some_ne_none u).symm
  exact ⟨hb.ret ht hnone hk, hst.frame rfl rfl rfl fun _ => rfl, .free rfl hr hc hm⟩

/-- The one to be the next leader is awakened. -/
theorem Members.elect (h : Members s v none) (hl : l ∈ v.trans) :
    Members (s.setPc l .woken) v (some l) :=
  h.setPc (fun u hu => iff_of_false (Option.some_ne_none u).symm
      fun he => hu (Option.some.inj he).symm)
    (fun _ => TranPc.noConfusion) (fun hm => absurd hl hm) (fun _ => rfl) TranPc.noConfusion
    fun _ _ => TranPc.noConfusion

/-- The leader hands over to the latest one that is ready. -/
theorem Base.handOver (h : Base s v (some t)) (hst : Stage s v) (ht : t ∉ v.trans)
    (hl : Leader s v s.lcrt) (hr : (s.tblk (.tran s.lcrt)).ready = true)
    (hc : ∀ b ∈ s.cq, (s.tblk b).commit = false)
    (hk : Kept (.returned t rc (s.tblk (.tran t)).committed) s.trace) :
    Inv ((s.setPc s.lcrt .woken).ret t rc) v (some s.lcrt) := by
  have hne : s.lcrt ≠ t := fun he => ht (he ▸ hl.mem)
  have hnone : ∀ u, u ≠ t → (some t = some u ↔ none = some u) := fun u hu =>
    iff_of_false (fun he => hu (Option.some.inj he).symm) (Option.some_ne_none u).symm
  have hb : Base (s.ret t rc) v none := h.ret ht hnone hk
  have hidle : (s.ret t rc).pc s.lcrt ≠ .idle := (hb.members.on _ hl.mem).1
  have hb' := hb.setPc hidle (hb.members.elect hl.mem)
  have heq : (s.ret t rc).setPc s.lcrt .woken = (s.setPc s.lcrt .woken).ret t rc := by
    unfold State.ret State.setPc State.note
    dsimp only
    rw [Function.update_comm hne]
  rw [heq] at hb'
  refine ⟨hb', hst.frame rfl rfl rfl fun _ => rfl,
    .elect ⟨hl.gcpageout, hl.mem, hl.lcrt, hl.sleeper, hl.csn_le, hl.latest⟩ ?_ hr hc⟩
  rw [← heq]
  exact Function.update_self _ _ _

theorem Inv.iodone (h : Inv s v x) (hpc : s.pc t = .waiting g w) (rc : Nat) :
    ∃ s' v' y, s.iodone t g w rc = some s' ∧ Inv s' v' y := by
  cases h.members.waiting t g w hpc
  cases h.phase with
  | elect _ hp =>
    rw [hpc] at hp
    cases hp
  | @leads _ _ group rest hl hp hr hg =>
    rw [hpc] at hp
    obtain ⟨rfl, rfl⟩ := TranPc.waiting.inj hp
    have hb₁ : Base (s.note (.iowait w rc)) v (some t) := h.toBase.note (fun _ => rfl) trivial
    have hst₁ : Stage (s.note (.iowait w rc)) v := h.stage.frame rfl rfl rfl fun _ => rfl
    have hlen : group.length ≤ s.cq.length := by
      rw [hg.cq, List.length_append]
      exact Nat.le_add_right _ _
    obtain ⟨v₁, hb, hst, hdr⟩ := dequeueGroup_spec hb₁ hst₁ hg.cq hg.commit hg.rest
      (fun (hrc : rc = 0) u hu => hrc ▸ hg.durable h hu) hlen
    have hnd := View.nodup_blocks (e := s.eopm) h.shape.nodup
    rw [← h.shape.cq, hg.cq, List.nodup_append] at hnd
    unfold State.iodone
    dsimp only
    generalize State.dequeueGroup rc s.cq.length (s.note (.iowait w rc)) = s₂ at hb hst hdr ⊢
    have hlcrt : s₂.lcrt = s.lcrt := hdr.lcrt
    have hrest : ∀ b ∈ rest, s₂.tblk b = s.tblk b := fun b hm =>
      hdr.tblk b fun hm' => hnd.2.2 b hm' b hm rfl
    have hunmarked : ∀ b ∈ s₂.cq, (s₂.tblk b).commit = false := fun b hm => by
      rw [hdr.cq] at hm
      rw [hrest b hm]
      exact hg.rest b hm
    have hmem : ∀ u, u ∈ v₁.trans ↔ .tran u ∈ rest := fun u => by
      rw [← View.mem_trans (e := s₂.eopm), ← hb.shape.cq, hdr.cq]
    -- the latest one that is ready is no further in front than the leader and the others
    have hlate : ∀ u, .tran u ∈ rest →
        (s.tblk (.tran u)).csn ≤ (s.tblk (.tran s.lcrt)).csn → .tran s.lcrt ∈ rest := by
      intro u hu hle
      have hm : .tran s.lcrt ∈ s.cq := h.shape.cq ▸ View.mem_trans.mpr hl.lcrt
      rw [hg.cq, List.mem_append] at hm
      exact hm.resolve_left fun hm' => absurd (h.toBase.csn_lt hg.cq hm' hu) (not_lt.mpr hle)
    have hleader : ∀ c, .tran c ∈ rest → .tran s.lcrt ∈ rest →
        (s.lcrt = c ∨ (s.tblk (.tran s.lcrt)).ready = true) →
        (s.tblk (.tran c)).csn ≤ (s.tblk (.tran s.lcrt)).csn → Leader s₂ v₁ c := by
      intro c hc hlc hsl hle
      refine ⟨hdr.gcpageout.trans hl.gcpageout, (hmem c).mpr hc, ?_, ?_, ?_, fun u hu hr' => ?_⟩
      · rw [hlcrt]
        exact (hmem _).mpr hlc
      · rw [hlcrt]
        exact hsl.imp id fun hs => by rw [hrest _ hlc]; exact hs
      · rw [hlcrt, hrest _ hc]
        exact (hrest _ hlc).symm ▸ hle
      · have hu' := (hmem u).mp hu
        have hold : u ∈ v.trans :=
          View.mem_trans.mp (h.shape.cq ▸ hg.cq ▸ List.mem_append_right _ hu')
        rw [hrest _ hu'] at hr' ⊢
        rw [hlcrt]
        exact (hrest _ hlc).symm ▸ hl.latest u hold hr'
    by_cases hpage : w.pno = (s.tblk (.tran t)).cpn
    · -- the leader's own page is out
      rw [if_neg (not_not.mpr hpage)]
      have htg : .tran t ∈ group := hg.leader hpage
      have ht : t ∉ v₁.trans := fun hm => hnd.2.2 _ htg _ ((hmem t).mp hm) rfl
      have hk : Kept (.returned t rc (s₂.tblk (.tran t)).committed) s₂.trace := by
        refine ⟨hdr.committed t htg, fun hrc => ?_⟩
        rw [hdr.trace, hrc]
        exact hg.durable h htg
      have hnotready : ¬s₂.crtc > 0 → ∀ u ∈ v₁.trans, (s₂.tblk (.tran u)).ready = false := by
        intro h0 u hu
        rw [hb.members.crtc] at h0
        have hcount := List.countP_eq_zero.mp
          (Nat.le_zero.mp (Int.ofNat_le.mp (not_lt.mp h0))) u hu
        exact Bool.eq_false_iff.mpr hcount
      unfold State.handOver
      split
      next hnil =>
        have hnone : ∀ u ∈ v₁.trans, (s₂.tblk (.tran u)).ready = false := fun u hu => by
          rw [hmem, ← hdr.cq, hnil] at hu
          cases hu
        exact ⟨_, v₁, none, rfl, hb.giveUp hst ht hnone hunmarked (by simp [hnil]) hk⟩
      next c rest' hcq =>
        split
        next hcrtc =>
          -- somebody is ready, so the latest one is
          rw [hb.members.crtc] at hcrtc
          obtain ⟨u, hu, hru⟩ := List.countP_pos_iff.mp (Int.ofNat_lt.mp hcrtc)
          have hu' := (hmem u).mp hu
          have hold : u ∈ v.trans :=
            View.mem_trans.mp (h.shape.cq ▸ hg.cq ▸ List.mem_append_right _ hu')
          rw [hrest _ hu'] at hru
          have hlc : .tran s.lcrt ∈ rest := hlate u hu' (hl.latest u hold hru)
          have hne : s.lcrt ≠ t := fun he => hnd.2.2 _ htg _ (he ▸ hlc) rfl
          have hready := hl.sleeper.resolve_left hne
          have hl₂ := hleader _ hlc hlc (.inl rfl) le_rfl
          rw [← hlcrt] at hl₂ hready
          refine ⟨_, v₁, _, rfl, hb.handOver hst ht hl₂ ?_ hunmarked hk⟩
          rw [hrest _ (hlcrt.symm ▸ hlc)]
          exact hready
        next hcrtc =>
          have hquiet := hnotready hcrtc
          split
          next hown =>
            -- the marker of the leader's page is left alone
            cases c with
            | tran u => exact absurd hown.1 Bool.false_ne_true
            | eopm k =>
              set s₃ := s₂.logwrite (s₂.tblk (.eopm k)).cpn (s₂.tblk (.eopm k)).ceor
                (s₂.tblk (.eopm k)).cxor false with hs₃
              have hcq₃ : s₃.cq = .eopm k :: rest' := hcq
              have hb₃ : Base s₃ v₁ (some t) := hb.logwrite _ _ _ _
              have hst₃ : Stage s₃ v₁ := hst.frame rfl rfl rfl fun _ => rfl
              have hv := View.trans_pop_eopm (hb.shape.cq ▸ hcq)
              have hsame := eopmDequeue_same hcq₃
              refine ⟨_, v₁.pop, none, rfl,
                (hb₃.dequeue hcq₃).giveUp (hst₃.dequeue hb₃.shape.cq hcq₃)
                  (by rw [hv]; exact ht) (fun u hu => ?_) (fun b hm => ?_) (fun k' hk' => ?_) ?_⟩
              · rw [(hsame.tblk u).ready]
                exact hquiet u (hv ▸ hu)
              · have hnd₃ := View.nodup_blocks (e := s₃.eopm) hb₃.shape.nodup
                rw [← hb₃.shape.cq, hcq₃, List.nodup_cons] at hnd₃
                rw [eopmDequeue_eq hcq₃] at hm
                have hne : b ≠ .eopm k := by
                  rintro rfl
                  exact hnd₃.1 hm
                rw [eopmDequeue_tblk hcq₃ hne]
                exact hunmarked b (hcq ▸ List.mem_cons_of_mem _ hm)
              · rw [eopmDequeue_eq hcq₃] at hk'
                obtain ⟨ls, hls⟩ := List.head?_eq_some_iff.mp hk'
                have hcq' : s₂.cq = [] ++ Blk.eopm k :: .eopm k' :: ls :=
                  hcq.trans (congrArg (List.cons _) hls)
                cases (hb.before_mark hst hcq').1
              · rw [(hsame.tblk t).committed]
                refine ⟨hk.1, fun hrc => ?_⟩
                have htrace : s₃.eopmDequeue.trace = s₃.trace := by rw [eopmDequeue_eq hcq₃]
                rw [htrace]
                exact (hk.2 hrc).cons rfl
          next hown =>
            refine ⟨_, v₁, none, rfl, hb.giveUp hst ht hquiet hunmarked (fun k hk' => hown ?_) hk⟩
            rw [hcq] at hk'
            cases hk'
            refine ⟨rfl, ?_⟩
            have hne : group ≠ [] := List.ne_nil_of_mem htg
            have hcq' : s.cq = group.dropLast ++ group.getLast hne :: .eopm k :: rest' := by
              rw [hg.cq, ← hdr.cq, hcq, List.append_cons group.dropLast,
                List.dropLast_append_getLast hne]
            have hbef := (h.toBase.before_mark h.stage hcq').2
            rw [hrest _ (hdr.cq ▸ hcq ▸ List.mem_cons_self), ← hbef,
              hg.page _ (List.getLast_mem hne), hpage]
    · -- the leader's page is the next one
      rw [if_pos hpage]
      have htr : .tran t ∈ rest := by
        have hm : .tran t ∈ s.cq := h.shape.cq ▸ View.mem_trans.mpr hl.mem
        rw [hg.cq, List.mem_append] at hm
        exact hm.resolve_left fun hm' => hpage (hg.page _ hm').symm
      have hlc : .tran s.lcrt ∈ rest := hlate t htr hl.csn_le
      obtain ⟨s', v', hs', hi⟩ := nextPage_spec hb hst (hleader t htr hlc hl.sleeper hl.csn_le)
        (by rw [hrest _ htr]; exact hr) hunmarked
        (congrArg Tblock.cpn (hrest _ htr)).symm (Nat.le_succ _)
      exact ⟨s', v', some t, hs', hi⟩

end Iodone

/-! ## Runs -/

/-- No entry of `groupcommit` finds a null pointer, and the invariant stays. -/
theorem Inv.step {a : Act} (h : Inv s v x) (hs : step s a = some s') :
    ∃ v' y, Inv s' v' y := by
  cases a with
  | begin ld dataptr cd => exact ⟨v, x, h.begin hs⟩
  | go =>
    obtain ⟨v', h'⟩ := h.go hs
    exact ⟨v', x, h'⟩
  | enter t =>
    simp only [Committing.step] at hs
    split at hs
    next hpc =>
      split at hs
      · cases hs
      · obtain ⟨s₁, v', y, he, hi⟩ := h.enter hpc
        rw [he] at hs
        exact ⟨v', y, Option.some.inj hs ▸ hi⟩
    next => cases hs
  | awake t =>
    simp only [Committing.step] at hs
    split at hs
    next hpc =>
      obtain ⟨s₁, v', y, he, hi⟩ := h.awake hpc
      rw [he] at hs
      exact ⟨v', y, Option.some.inj hs ▸ hi⟩
    next => cases hs
  | iodone t rc =>
    simp only [Committing.step] at hs
    split at hs
    next hpc =>
      obtain ⟨s₁, v', y, he, hi⟩ := h.iodone hpc rc
      rw [he] at hs
      exact ⟨v', y, Option.some.inj hs ▸ hi⟩
    next => cases hs

/-- After `loginit`: nothing is on the queue, and nobody is in `groupcommit`. -/
structure State.Initial (s : State) : Prop where
  size : 4 ≤ s.ip.logsize
  page : 2 ≤ s.ip.logptr ∧ s.ip.logptr < s.ip.logsize
  logend : 4 ∣ s.ip.logend ∧ s.ip.logend < pagesize - 8
  llogeor : s.ip.llogeor ≤ pagesize - 8
  cq : s.cq = []
  marks : ∀ k, (s.tblk (.eopm k)).queue = false
  gcpageout : s.gcpageout = false
  crtc : s.crtc = 0
  todo : s.todo = []
  writer : s.writer = .ready
  idle : ∀ t, s.pc t = .idle
  trace : s.trace = []

theorem State.Initial.inv (h : s.Initial) : Inv s ⟨none, [], false⟩ none := by
  refine ⟨⟨⟨h.size, h.page, h.cq, List.nodup_nil, fun k => ?_, by simp [View.oldBlocks],
    by simp [View.curBlocks]⟩, ⟨h.logend.1, h.llogeor, by simp [View.curBlocks], fun t ht => ?_,
    by rw [h.cq]; exact List.Pairwise.nil⟩, ⟨by simp [h.todo], by simp [h.todo], by simp [h.todo],
    fun t ht => ?_⟩, ⟨by simp [View.trans], fun t _ => .inl (h.idle t), by simp [View.trans],
    fun t ht => ?_, fun t g w ht => ?_, by simp [View.trans], by simp [View.trans],
    by simp [View.trans, h.crtc]⟩, ⟨fun t ht => absurd (h.idle t) ht,
    fun t ht => absurd (h.idle t) ht, fun t ht => absurd (h.idle t) ht,
    by rw [h.trace]; trivial⟩⟩, ?_,
    .free h.gcpageout (by simp [View.trans]) (by simp [h.cq]) (by simp [h.cq])⟩
  · simp [h.marks, h.cq]
  · rw [h.writer] at ht
    cases ht
  · rw [h.writer] at ht
    cases ht
  · rw [h.idle] at ht
    cases ht
  · rw [h.idle] at ht
    cases ht
  · unfold Stage
    rw [h.writer]
    exact ⟨h.logend.2, rfl⟩

theorem Reaches.inv {s₀ : State} (h₀ : s₀.Initial) (h : Reaches s₀ s) : ∃ v x, Inv s v x := by
  induction h with
  | refl => exact ⟨_, _, h₀.inv⟩
  | step _ a hs ih =>
    obtain ⟨v, x, hi⟩ := ih
    exact hi.step hs

theorem reaches_run : ∀ {as : List Act} {s₀ s s' : State}, run s as = some s' → Reaches s₀ s →
    Reaches s₀ s' := by
  intro as
  induction as with
  | nil =>
    intro s₀ s s' h hr
    exact Option.some.inj h ▸ hr
  | cons a as ih =>
    intro s₀ s s' h hr
    obtain ⟨s₁, hs, h⟩ := Option.bind_eq_some_iff.mp h
    exact ih h (hr.step a hs)

/-- A log of four pages without records. -/
def formatted : State where
  ip :=
    { logsize := 4, logptr := 2, logend := 8, logxor := 0, llogeor := 8, llogxor := 0, logppong := 3
      pages := fun _ => makelogp 0 }
  tblk := fun _ =>
    { queue := false, ready := false, commit := false, committed := false, wait := false
      leader := false, error := false, cpn := 0, ceor := 0, cxor := 0, csn := 0 }
  cq := []
  csn := 0
  gcpageout := false
  lcrt := 0
  crtc := 0
  eopm := false
  todo := []
  writer := .ready
  cd := ⟨0, 0, false⟩
  pc := fun _ => .idle
  trace := []

theorem formatted_initial : formatted.Initial := by
  constructor <;> first | decide | exact fun _ => rfl | rfl

def beginCommit (t : Nat) : Act :=
  .begin ⟨BitVec.ofNat 32 t, 0, commit, 0, 0, 0, 0, 0, 0⟩ (fun _ => 0) ⟨t, 0, true⟩

/-- While transaction 1 waits for the page, transaction 2 goes to sleep. -/
def twoCommits : List Act :=
  [beginCommit 1, .go, .go, .enter 1, beginCommit 2, .go, .go, .enter 2]

/-- Transaction 2 then leads for itself. -/
def bothReturn : List Act := twoCommits ++ [.iodone 1 0, .awake 2, .iodone 2 0]

theorem twoCommits_isSome : (run formatted twoCommits).isSome = true := rfl

theorem bothReturn_isSome : (run formatted bothReturn).isSome = true := rfl

def sleeping : State := (run formatted twoCommits).get twoCommits_isSome

def returned : State := (run formatted bothReturn).get bothReturn_isSome

theorem sleeping_reached : Reaches formatted sleeping :=
  reaches_run (Option.some_get _).symm .refl

theorem returned_reached : Reaches formatted returned :=
  reaches_run (Option.some_get _).symm .refl

/-- Whenever `groupcommit` returns 0, the COMMIT record of the transaction is on
disk: after the record was in its page, that page was written with an end of
records behind the record, and the page-out went well. -/
theorem returned_durable {s₀ : State} (h₀ : s₀.Initial) (h : Reaches s₀ s)
    {newer older : List Event} {rc : Nat} {committed : Bool}
    (he : s.trace = newer ++ .returned t rc committed :: older) :
    committed = true ∧ (rc = 0 → Durable t older) := by
  obtain ⟨v, x, hi⟩ := h.inv h₀
  have hh := hi.recorded.honest
  rw [he] at hh
  exact hh.of_append

/-- Both went well. -/
theorem returned_durable_both : Durable 2 returned.trace.tail ∧
    Durable 1 (returned.trace.drop 4) := by
  have h₂ : returned.trace = [] ++ .returned 2 0 true :: returned.trace.tail := rfl
  have h₁ : returned.trace = returned.trace.take 3 ++ .returned 1 0 true :: returned.trace.drop 4 :=
    rfl
  exact ⟨(returned_durable formatted_initial returned_reached h₂).2 rfl,
    (returned_durable formatted_initial returned_reached h₁).2 rfl⟩

/-- The commit queue is in the order of the log, on at most two pages that
follow each other. A transaction is on it from its COMMIT record on until it is
committed, and a marker exactly as long as it is `GC_QUEUE`; `i_crtc` counts
those of the transactions that are `GC_READY`. -/
theorem commit_queue {s₀ : State} (h₀ : s₀.Initial) (h : Reaches s₀ s) :
    s.cq.Nodup ∧ (∀ k, .eopm k ∈ s.cq ↔ (s.tblk (.eopm k)).queue = true) ∧
      (∀ t, .tran t ∈ s.cq ↔ s.pc t ≠ .idle ∧ (s.tblk (.tran t)).committed = false) ∧
      (s.cq.Pairwise fun a b => InOrder s a b ∧ ((s.tblk a).cpn = (s.tblk b).cpn ∨
        nextPageNo s.ip.logsize (s.tblk a).cpn = (s.tblk b).cpn)) ∧
      s.crtc = (s.cq.filterMap Blk.tid?).countP fun t => (s.tblk (.tran t)).ready := by
  obtain ⟨v, x, hi⟩ := h.inv h₀
  have hsh := hi.shape
  refine ⟨hsh.cq ▸ View.nodup_blocks hsh.nodup, fun k => (hsh.marks k).symm, fun t => ?_,
    hi.offsets.order.and ?_, ?_⟩
  · rw [hsh.cq, View.mem_trans]
    refine ⟨fun ht => ⟨(hi.members.on t ht).1, (hi.members.on t ht).2.1⟩, fun ht => ?_⟩
    exact hi.toBase.members.mem ht.1 (Bool.eq_false_iff.mp ht.2)
  · rw [hsh.cq, View.blocks, List.pairwise_append]
    refine ⟨List.pairwise_of_forall_mem_list fun a ha b hb => ?_,
      List.pairwise_of_forall_mem_list fun a ha b hb => ?_, fun a ha b hb => ?_⟩
    · exact .inl ((hsh.old a ha).trans (hsh.old b hb).symm)
    · exact .inl ((hsh.cur a ha).trans (hsh.cur b hb).symm)
    · rw [hsh.old a ha, hsh.cur b hb]
      exact .inr (next_prev_page hsh.size hsh.page)
  · rw [hsh.cq, ← View.trans_eq]
    exact hi.members.crtc

theorem commit_queue_two : sleeping.cq = [.tran 1, .tran 2] ∧ sleeping.cq.Nodup ∧
    sleeping.crtc = 1 :=
  ⟨rfl, (commit_queue formatted_initial sleeping_reached).1, rfl⟩

end Aix413.Log.Committing
