import Aix413.Log.CommitQueue

namespace Aix413.Log.Committing

open Format Writer Reader

/-! ## What happened since a COMMIT record -/

/-- The page and the end of the COMMIT record, when the event is that the
transaction was enqueued. -/
def Event.logged? (t : Nat) : Event → Option (Nat × Nat)
  | .logged u cpn ceor => if u = t then some (cpn, ceor) else none
  | _ => none

def lastLogged (t : Nat) (trace : List Event) : Option (Nat × Nat) :=
  trace.findSome? (Event.logged? t)

/-- What happened after the latest COMMIT record of the transaction, the latest first. -/
def since (t : Nat) (trace : List Event) : List Event :=
  trace.takeWhile fun e => (e.logged? t).isNone

/-- After the COMMIT record was in its page, the page was handed over with an
end of records no lower than the record's, and its page-out went well. -/
def Durable (t : Nat) (trace : List Event) : Prop :=
  ∃ cpn ceor w, lastLogged t trace = some (cpn, ceor) ∧
    [.iowait w 0, .write w].Sublist (since t trace) ∧ w.pno = cpn ∧ ceor ≤ w.eor

/-- A return from `groupcommit` is for a committed block, and tells the truth. -/
def Kept : Event → List Event → Prop
  | .returned t rc committed, older => committed = true ∧ (rc = 0 → Durable t older)
  | _, _ => True

def Honest : List Event → Prop
  | [] => True
  | e :: es => Kept e es ∧ Honest es

/-- Neither a COMMIT record nor a return. -/
def Event.quiet : Event → Bool
  | .logged _ _ _ => false
  | .returned _ _ _ => false
  | _ => true

section Trace

variable {t : Nat} {e : Event} {es trace : List Event}

theorem Event.quiet.logged? (h : e.quiet = true) : e.logged? t = none := by
  cases e <;> first | rfl | cases h

theorem lastLogged_cons (h : e.logged? t = none) :
    lastLogged t (e :: trace) = lastLogged t trace := by
  simp [lastLogged, h]

theorem since_cons (h : e.logged? t = none) : since t (e :: trace) = e :: since t trace := by
  simp [since, h]

theorem Durable.cons (h : Durable t trace) (he : e.logged? t = none) : Durable t (e :: trace) := by
  obtain ⟨cpn, ceor, w, hl, hs, hw⟩ := h
  exact ⟨cpn, ceor, w, (lastLogged_cons he).trans hl, since_cons he ▸ hs.cons e, hw⟩

theorem Honest.of_append (h : Honest (es ++ e :: trace)) : Kept e trace := by
  induction es with
  | nil => exact h.1
  | cons _ _ ih => exact ih h.2

end Trace

/-! ## The invariant -/

/-- Two blocks of one page: the one in front is a transaction, and its record
ends before the other one's. A marker has the end of the last record. -/
def InOrder (s : State) (a b : Blk) : Prop :=
  (s.tblk a).cpn = (s.tblk b).cpn → a.isTran = true ∧ (s.tblk a).ceor ≤ (s.tblk b).ceor ∧
    (b.isTran = true → (s.tblk a).ceor < (s.tblk b).ceor)

/-- Where the log writer is in the page, and what it waits for. -/
def Stage (s : State) (v : View) : Prop :=
  match s.writer with
  | .ready => s.ip.logend < pagesize - 8 ∧ v.own = false
  | .enqueue _ => s.ip.logend ≤ pagesize - 8 ∧ v.own = false
  | .full => s.ip.logend = pagesize - 8 ∧ v.own = false
  | .asleep own x => s.ip.logend = pagesize - 8 ∧ v.old ≠ none ∧ x = v.oldMark s.eopm ∧
      (s.tblk (.eopm x)).wait = true ∧ own = v.own ∧ (own = false ↔ v.cur = [])
  | .woken own => s.ip.logend = pagesize - 8 ∧ v.old = none ∧ (v.own = false → v.cur = []) ∧
      (own = false → v.own = false)
  | .make _ => s.ip.logend = 8 ∧ v.own = false ∧ v.cur = []

/-- The ends of the records that the blocks of the current page stand for. -/
structure Offsets (s : State) (v : View) : Prop where
  dvd : 4 ∣ s.ip.logend
  hi : s.ip.llogeor ≤ pagesize - 8
  cur : ∀ b ∈ v.curBlocks s.eopm, (s.tblk b).ceor ≤ s.ip.llogeor ∧ s.ip.llogeor ≤ s.ip.logend
  fresh : ∀ t, s.writer = .enqueue t → s.ip.llogeor = s.ip.logend ∧
    ∀ b ∈ v.curBlocks s.eopm, (s.tblk b).ceor < s.ip.logend
  order : s.cq.Pairwise (InOrder s)

/-- The record that is being written. Its transaction is not enqueued yet. -/
structure Pending (s : State) : Prop where
  words : ∀ p ∈ s.todo, p.ws ≠ []
  last : s.todo.Pairwise fun p _ => p.force = none
  idle : ∀ p ∈ s.todo, ∀ t, p.force = some t → s.pc t = .idle
  enqueue : ∀ t, s.writer = .enqueue t → s.pc t = .idle ∧ s.todo = []

/-- The transactions. `x` is the leader of a group commit, if there is one. -/
structure Members (s : State) (v : View) (x : Option Nat) : Prop where
  on : ∀ t ∈ v.trans, s.pc t ≠ .idle ∧ (s.tblk (.tran t)).committed = false ∧
    (s.tblk (.tran t)).error = false
  off : ∀ t, t ∉ v.trans → s.pc t = .idle ∨ (s.tblk (.tran t)).committed = true
  others : ∀ t ∈ v.trans, x ≠ some t →
    s.pc t = .logged ∧ (s.tblk (.tran t)).ready = false ∨
      s.pc t = .asleep ∧ (s.tblk (.tran t)).ready = true
  asleep : ∀ t, s.pc t = .asleep → t ∈ v.trans ∧ x ≠ some t
  waiting : ∀ t g w, s.pc t = .waiting g w → x = some t
  csn : v.trans.Pairwise fun a b => (s.tblk (.tran a)).csn < (s.tblk (.tran b)).csn
  csn_le : ∀ t ∈ v.trans, (s.tblk (.tran t)).csn ≤ s.csn
  crtc : s.crtc = v.trans.countP fun t => (s.tblk (.tran t)).ready

/-- Transaction `l` leads, and `loglcrt` is the latest one that is ready. -/
structure Leader (s : State) (v : View) (l : Nat) : Prop where
  gcpageout : s.gcpageout = true
  mem : l ∈ v.trans
  lcrt : s.lcrt ∈ v.trans
  sleeper : s.lcrt = l ∨ (s.tblk (.tran s.lcrt)).ready = true
  csn_le : (s.tblk (.tran l)).csn ≤ (s.tblk (.tran s.lcrt)).csn
  latest : ∀ t ∈ v.trans, (s.tblk (.tran t)).ready = true →
    (s.tblk (.tran t)).csn ≤ (s.tblk (.tran s.lcrt)).csn

/-- The blocks whose page the leader waits for are in front. -/
structure Group (s : State) (l : Nat) (w : LogWrite) (group rest : List Blk) : Prop where
  cq : s.cq = group ++ rest
  commit : ∀ b ∈ group, (s.tblk b).commit = true
  rest : ∀ b ∈ rest, (s.tblk b).commit = false
  page : ∀ b ∈ group, (s.tblk b).cpn = w.pno
  leader : w.pno = (s.tblk (.tran l)).cpn → .tran l ∈ group
  eor : ∀ b ∈ group, (s.tblk b).ceor ≤ w.eor
  written : ∀ t, .tran t ∈ group → .write w ∈ since t s.trace

/-- Nobody leads, or somebody was chosen to, or waits for a page. Nobody leaves a
marker at the head of the queue. -/
inductive Phase (s : State) (v : View) : Option Nat → Prop
  | free (hgc : s.gcpageout = false) (hr : ∀ t ∈ v.trans, (s.tblk (.tran t)).ready = false)
      (hc : ∀ b ∈ s.cq, (s.tblk b).commit = false)
      (hm : ∀ k, s.cq.head? ≠ some (.eopm k)) : Phase s v none
  | elect {l : Nat} (hl : Leader s v l) (hpc : s.pc l = .woken)
      (hr : (s.tblk (.tran l)).ready = true) (hc : ∀ b ∈ s.cq, (s.tblk b).commit = false) :
      Phase s v (some l)
  | leads {l : Nat} {w : LogWrite} {group rest : List Blk} (hl : Leader s v l)
      (hpc : s.pc l = .waiting (s.tblk (.tran l)).cpn w)
      (hr : (s.tblk (.tran l)).ready = false) (hg : Group s l w group rest) : Phase s v (some l)

/-- The history agrees with the blocks of those who are not out of `groupcommit`. -/
structure Recorded (s : State) : Prop where
  logged : ∀ t, s.pc t ≠ .idle →
    lastLogged t s.trace = some ((s.tblk (.tran t)).cpn, (s.tblk (.tran t)).ceor)
  durable : ∀ t, s.pc t ≠ .idle → (s.tblk (.tran t)).committed = true →
    (s.tblk (.tran t)).error = false → Durable t s.trace
  error : ∀ t, s.pc t ≠ .idle → (s.tblk (.tran t)).committed = true →
    (s.tblk (.tran t)).error = true → (s.tblk (.tran t)).csn ≠ 0
  honest : Honest s.trace

/-- What holds at any time, also while a leader is at work. -/
structure Base (s : State) (v : View) (x : Option Nat) : Prop where
  shape : Shape s v
  offsets : Offsets s v
  pending : Pending s
  members : Members s v x
  recorded : Recorded s

/-- What holds whenever the lock of the extension is free. -/
structure Inv (s : State) (v : View) (x : Option Nat) : Prop extends Base s v x where
  stage : Stage s v
  phase : Phase s v x

variable {s s' s'' : State} {v v' : View} {x : Option Nat} {b : Blk} {rest : List Blk} {t l : Nat}

/-! ## Steps that leave the transactions alone -/

/-- The block differs at most in flags that the invariant does not look at. -/
structure Alike (tb tb' : Tblock) : Prop where
  committed : tb'.committed = tb.committed
  ready : tb'.ready = tb.ready
  error : tb'.error = tb.error
  cpn : tb'.cpn = tb.cpn
  ceor : tb'.ceor = tb.ceor
  csn : tb'.csn = tb.csn

theorem Alike.refl (tb : Tblock) : Alike tb tb := ⟨rfl, rfl, rfl, rfl, rfl, rfl⟩

/-- The transactions are as before, and nothing but quiet events happened. -/
structure SameTrans (s s' : State) : Prop where
  pc : s'.pc = s.pc
  tblk : ∀ t, Alike (s.tblk (.tran t)) (s'.tblk (.tran t))
  csn : s'.csn = s.csn
  crtc : s'.crtc = s.crtc
  trace : ∃ es, s'.trace = es ++ s.trace ∧ ∀ e ∈ es, e.quiet = true

theorem SameTrans.trans (h : SameTrans s s') (h' : SameTrans s' s'') : SameTrans s s'' where
  pc := h'.pc.trans h.pc
  tblk := fun t =>
    have ha := h.tblk t
    have ha' := h'.tblk t
    ⟨ha'.1.trans ha.1, ha'.2.trans ha.2, ha'.3.trans ha.3, ha'.4.trans ha.4, ha'.5.trans ha.5,
      ha'.6.trans ha.6⟩
  csn := h'.csn.trans h.csn
  crtc := h'.crtc.trans h.crtc
  trace := by
    obtain ⟨es, he, hq⟩ := h.trace
    obtain ⟨es', he', hq'⟩ := h'.trace
    refine ⟨es' ++ es, by rw [he', he, List.append_assoc], fun e hm => ?_⟩
    exact (List.mem_append.mp hm).elim (hq' e) (hq e)

section Quiet

variable {es trace : List Event}

theorem quiet_append {l : List Event} (h : ∀ e ∈ es, e.quiet = true) :
    lastLogged t (es ++ l) = lastLogged t l ∧
      since t (es ++ l) = es ++ since t l := by
  induction es with
  | nil => exact ⟨rfl, rfl⟩
  | cons e es ih =>
    have he : e.logged? t = none := Event.quiet.logged? (h e (by simp))
    obtain ⟨hl, hs⟩ := ih fun a ha => h a (List.mem_cons_of_mem e ha)
    rw [List.cons_append, lastLogged_cons he, since_cons he, hl, hs]
    exact ⟨rfl, rfl⟩

theorem Durable.append (h : Durable t trace) (hq : ∀ e ∈ es, e.quiet = true) :
    Durable t (es ++ trace) := by
  obtain ⟨cpn, ceor, w, hl, hs, hw⟩ := h
  obtain ⟨hl', hs'⟩ := quiet_append (t := t) (l := trace) hq
  exact ⟨cpn, ceor, w, hl'.trans hl, hs' ▸ hs.trans (List.sublist_append_right es _), hw⟩

theorem Honest.append (h : Honest trace) (hq : ∀ e ∈ es, e.quiet = true) :
    Honest (es ++ trace) := by
  induction es with
  | nil => exact h
  | cons e es ih =>
    refine ⟨?_, ih fun a ha => hq a (List.mem_cons_of_mem e ha)⟩
    have he := hq e (by simp)
    cases e <;> trivial

end Quiet

theorem Members.same (h : Members s v x) (hs : SameTrans s s') (hv : v'.trans = v.trans) :
    Members s' v' x := by
  have hc : ∀ t, (s'.tblk (.tran t)).committed = _ := fun t => (hs.tblk t).committed
  have hr : ∀ t, (s'.tblk (.tran t)).ready = _ := fun t => (hs.tblk t).ready
  have he : ∀ t, (s'.tblk (.tran t)).error = _ := fun t => (hs.tblk t).error
  have hn : ∀ t, (s'.tblk (.tran t)).csn = _ := fun t => (hs.tblk t).csn
  constructor <;> simp only [hs.pc, hc, hr, he, hn, hs.csn, hs.crtc, hv]
  · exact h.on
  · exact h.off
  · exact h.others
  · exact h.asleep
  · exact h.waiting
  · exact h.csn
  · exact h.csn_le
  · exact h.crtc

/-- Transaction `t` apart, the transactions are as before. -/
structure Apart (s s' : State) (t : Nat) : Prop where
  pc : ∀ u, u ≠ t → s'.pc u = s.pc u
  tblk : ∀ u, u ≠ t → s'.tblk (.tran u) = s.tblk (.tran u)

/-- The transactions that are as before need no look. -/
theorem Members.apart {y : Option Nat} (h : Members s v x) (ha : Apart s s' t)
    (hv : ∀ u, u ≠ t → (u ∈ v'.trans ↔ u ∈ v.trans))
    (hxy : ∀ u, u ≠ t → (x = some u ↔ y = some u))
    (on : t ∈ v'.trans → s'.pc t ≠ .idle ∧ (s'.tblk (.tran t)).committed = false ∧
      (s'.tblk (.tran t)).error = false)
    (off : t ∉ v'.trans → s'.pc t = .idle ∨ (s'.tblk (.tran t)).committed = true)
    (others : t ∈ v'.trans → y ≠ some t → s'.pc t = .logged ∧ (s'.tblk (.tran t)).ready = false ∨
      s'.pc t = .asleep ∧ (s'.tblk (.tran t)).ready = true)
    (asleep : s'.pc t = .asleep → t ∈ v'.trans ∧ y ≠ some t)
    (waiting : ∀ g w, s'.pc t = .waiting g w → y = some t)
    (csn : v'.trans.Pairwise fun a b => (s'.tblk (.tran a)).csn < (s'.tblk (.tran b)).csn)
    (csn_le : ∀ u ∈ v'.trans, (s'.tblk (.tran u)).csn ≤ s'.csn)
    (crtc : s'.crtc = v'.trans.countP fun u => (s'.tblk (.tran u)).ready) : Members s' v' y := by
  refine ⟨fun u hu => ?_, fun u hu => ?_, fun u hu hy => ?_, fun u hu => ?_, fun u g w hu => ?_,
    csn, csn_le, crtc⟩ <;> by_cases hut : u = t
  · exact hut ▸ on (hut ▸ hu)
  · rw [ha.pc u hut, ha.tblk u hut]
    exact h.on u ((hv u hut).mp hu)
  · exact hut ▸ off (hut ▸ hu)
  · rw [ha.pc u hut, ha.tblk u hut]
    exact h.off u fun hm => hu ((hv u hut).mpr hm)
  · exact hut ▸ others (hut ▸ hu) (hut ▸ hy)
  · rw [ha.pc u hut, ha.tblk u hut]
    exact h.others u ((hv u hut).mp hu) fun hx => hy ((hxy u hut).mp hx)
  · exact hut ▸ asleep (hut ▸ hu)
  · obtain ⟨hm, hx⟩ := h.asleep u (ha.pc u hut ▸ hu)
    exact ⟨(hv u hut).mpr hm, fun hy => hx ((hxy u hut).mpr hy)⟩
  · exact hut ▸ waiting g w (hut ▸ hu)
  · exact (hxy u hut).mp (h.waiting u g w (ha.pc u hut ▸ hu))

/-- A transaction goes on, and its block stays. -/
theorem Members.setPc {y : Option Nat} {c : TranPc} (h : Members s v x)
    (hxy : ∀ u, u ≠ t → (x = some u ↔ y = some u))
    (on : t ∈ v.trans → c ≠ .idle) (off : t ∉ v.trans → c = .idle)
    (others : t ∈ v.trans → y = some t) (asleep : c ≠ .asleep)
    (waiting : ∀ g w, c = .waiting g w → y = some t) : Members (s.setPc t c) v y := by
  have hpc : (s.setPc t c).pc t = c := Function.update_self _ _ _
  refine h.apart ⟨fun u hu => Function.update_of_ne hu _ _, fun _ _ => rfl⟩ (fun _ _ => Iff.rfl) hxy
    (fun hm => ⟨fun he => on hm (hpc.symm.trans he), (h.on t hm).2⟩)
    (fun hm => .inl (hpc.trans (off hm))) (fun hm hy => absurd (others hm) hy)
    (fun hs => absurd (hpc.symm.trans hs) asleep) (fun g w hw => waiting g w (hpc.symm.trans hw))
    h.csn h.csn_le h.crtc

theorem Leader.same (h : Leader s v l) (hs : SameTrans s s') (hv : v'.trans = v.trans)
    (hgc : s'.gcpageout = s.gcpageout) (hlc : s'.lcrt = s.lcrt) : Leader s' v' l := by
  have hr : ∀ t, (s'.tblk (.tran t)).ready = _ := fun t => (hs.tblk t).ready
  have hn : ∀ t, (s'.tblk (.tran t)).csn = _ := fun t => (hs.tblk t).csn
  constructor <;> simp only [hlc, hr, hn, hgc, hv]
  · exact h.gcpageout
  · exact h.mem
  · exact h.lcrt
  · exact h.sleeper
  · exact h.csn_le
  · exact h.latest

theorem Recorded.same (h : Recorded s) (hs : SameTrans s s') : Recorded s' := by
  obtain ⟨es, he, hq⟩ := hs.trace
  have hl := fun t => (quiet_append (t := t) (l := s.trace) hq).1
  refine ⟨fun t ht => ?_, fun t ht hc hr => ?_, fun t ht hc hr => ?_, ?_⟩
  · rw [he, hl, (hs.tblk t).cpn, (hs.tblk t).ceor]
    exact h.logged t (hs.pc ▸ ht)
  · rw [(hs.tblk t).committed] at hc
    rw [(hs.tblk t).error] at hr
    rw [he]
    exact (h.durable t (hs.pc ▸ ht) hc hr).append hq
  · rw [(hs.tblk t).committed] at hc
    rw [(hs.tblk t).error] at hr
    rw [(hs.tblk t).csn]
    exact h.error t (hs.pc ▸ ht) hc hr
  · rw [he]
    exact h.honest.append hq

/-- The blocks in front are as before, and none of those behind is marked. -/
structure SameFront (s s' : State) : Prop where
  cq : ∃ ms, s'.cq = s.cq ++ ms ∧ ∀ b ∈ ms, (s'.tblk b).commit = false
  commit : ∀ b ∈ s.cq, (s'.tblk b).commit = (s.tblk b).commit
  cpn : ∀ b ∈ s.cq, (s'.tblk b).cpn = (s.tblk b).cpn
  ceor : ∀ b ∈ s.cq, (s'.tblk b).ceor = (s.tblk b).ceor
  head : ∀ k, s'.cq.head? = some (.eopm k) → s.cq.head? = some (.eopm k)

theorem SameFront.unmarked (h : SameFront s s') (hc : ∀ b ∈ s.cq, (s.tblk b).commit = false) :
    ∀ b ∈ s'.cq, (s'.tblk b).commit = false := by
  obtain ⟨ms, hm, hms⟩ := h.cq
  intro b hb
  rw [hm] at hb
  rcases List.mem_append.mp hb with hb | hb
  · rw [h.commit b hb]
    exact hc b hb
  · exact hms b hb

theorem Group.front {w : LogWrite} {group : List Blk} (h : Group s l w group rest)
    (hf : SameFront s s') (hl : (s'.tblk (.tran l)).cpn = (s.tblk (.tran l)).cpn)
    (hw : ∀ t, .tran t ∈ group → .write w ∈ since t s'.trace) :
    ∃ rest', Group s' l w group rest' := by
  obtain ⟨ms, hm, hms⟩ := hf.cq
  have hg : ∀ b ∈ group, b ∈ s.cq := fun b hb => h.cq ▸ List.mem_append_left _ hb
  have hr : ∀ b ∈ rest, b ∈ s.cq := fun b hb => h.cq ▸ List.mem_append_right _ hb
  refine ⟨rest ++ ms, by rw [hm, h.cq, List.append_assoc], fun b hb => ?_, fun b hb => ?_,
    fun b hb => ?_, fun he => h.leader (he.trans hl), fun b hb => ?_, hw⟩
  · rw [hf.commit b (hg b hb)]
    exact h.commit b hb
  · rcases List.mem_append.mp hb with hb | hb
    · rw [hf.commit b (hr b hb)]
      exact h.rest b hb
    · exact hms b hb
  · rw [hf.cpn b (hg b hb)]
    exact h.page b hb
  · rw [hf.ceor b (hg b hb)]
    exact h.eor b hb

theorem Phase.same (h : Phase s v x) (hs : SameTrans s s') (hf : SameFront s s')
    (hv : v'.trans = v.trans) (hgc : s'.gcpageout = s.gcpageout) (hlc : s'.lcrt = s.lcrt) :
    Phase s' v' x := by
  cases h with
  | free hfree hr hc hm =>
    refine .free (hgc.trans hfree) (fun t ht => ?_) (hf.unmarked hc) fun k hk => hm k (hf.head k hk)
    rw [(hs.tblk t).ready]
    exact hr t (hv ▸ ht)
  | elect hl hpc hr hc =>
    exact .elect (hl.same hs hv hgc hlc) (hs.pc ▸ hpc) ((hs.tblk _).ready.trans hr) (hf.unmarked hc)
  | leads hl hpc hr hg =>
    obtain ⟨es, he, hq⟩ := hs.trace
    obtain ⟨rest', hg'⟩ := hg.front hf (hs.tblk _).cpn fun t ht => by
      rw [he, (quiet_append hq).2]
      exact List.mem_append_right _ (hg.written t ht)
    exact .leads (hl.same hs hv hgc hlc) (by rw [hs.pc, (hs.tblk _).cpn]; exact hpc)
      ((hs.tblk _).ready.trans hr) hg'

theorem Base.same (h : Base s v x) (hs : SameTrans s s') (hv : v'.trans = v.trans)
    (hshape : Shape s' v') (hoff : Offsets s' v') (hp : Pending s') : Base s' v' x :=
  ⟨hshape, hoff, hp, h.members.same hs hv, h.recorded.same hs⟩

/-! ## The log writer's steps -/

theorem Offsets.frame (h : Offsets s v) (hend : s'.ip.logend = s.ip.logend)
    (heor : s'.ip.llogeor = s.ip.llogeor) (hcq : s'.cq = s.cq)
    (hcur : v'.curBlocks s'.eopm ⊆ v.curBlocks s.eopm)
    (hcpn : ∀ b, (s'.tblk b).cpn = (s.tblk b).cpn)
    (hceor : ∀ b, (s'.tblk b).ceor = (s.tblk b).ceor)
    (hw : ∀ t, s'.writer = .enqueue t → s.writer = .enqueue t) : Offsets s' v' where
  dvd := hend ▸ h.dvd
  hi := heor ▸ h.hi
  cur := fun b hb => by
    rw [hceor, heor, hend]
    exact h.cur b (hcur hb)
  fresh := fun t ht => by
    obtain ⟨h1, h2⟩ := h.fresh t (hw t ht)
    rw [heor, hend]
    exact ⟨h1, fun b hb => by rw [hceor]; exact h2 b (hcur hb)⟩
  order := by
    rw [hcq]
    refine h.order.imp fun hab => ?_
    unfold InOrder
    rw [hcpn, hcpn, hceor, hceor]
    exact hab

theorem Pending.frame (h : Pending s) (htodo : s'.todo = s.todo) (hpc : s'.pc = s.pc)
    (hw : ∀ t, s'.writer = .enqueue t → s.writer = .enqueue t) : Pending s' where
  words := htodo ▸ h.words
  last := htodo ▸ h.last
  idle := by rw [htodo, hpc]; exact h.idle
  enqueue := fun t ht => by
    rw [htodo, hpc]
    exact h.enqueue t (hw t ht)

theorem SameFront.of_eq (hcq : s'.cq = s.cq) (htblk : s'.tblk = s.tblk) : SameFront s s' where
  cq := ⟨[], by rw [hcq, List.append_nil], by simp⟩
  commit := fun b _ => by rw [htblk]
  cpn := fun b _ => by rw [htblk]
  ceor := fun b _ => by rw [htblk]
  head := fun k hk => hcq ▸ hk

/-! ### `movedata` -/

section Move

variable {p : Piece} {todo : List Piece}

theorem move_same (p : Piece) (todo : List Piece) : SameTrans s (s.move p todo) where
  pc := rfl
  tblk := fun _ => .refl _
  csn := rfl
  crtc := rfl
  trace := ⟨[], rfl, by simp⟩

theorem move_logend {q : List Piece} (hdvd : 4 ∣ s.ip.logend)
    (hlt : s.ip.logend < pagesize - 8) (hp : p.ws ≠ []) :
    s.ip.logend < (s.move p q).ip.logend ∧ (s.move p q).ip.logend ≤ pagesize - 8 := by
  have hlen : 0 < p.ws.length := List.length_pos_iff.mpr hp
  have hend : (s.move p q).ip.logend = s.ip.logend +
      4 * (p.ws.take (min ((pagesize - 8 - s.ip.logend) / 4) p.ws.length)).length := rfl
  rw [hend, List.length_take]
  unfold pagesize at hlt ⊢
  omega

/-- Whether a record ended, and where the writer is then. -/
theorem move_writer {q : List Piece} : ∃ ended : Bool,
    (s.move p q).ip.llogeor = (if ended then (s.move p q).ip.logend else s.ip.llogeor) ∧
    (ended = true → (s.move p q).todo = q) ∧
    (s.move p q).writer = match if ended then p.force else none with
      | some t => .enqueue t
      | none => if (s.move p q).ip.logend < pagesize - 8 then .ready else .full := by
  refine ⟨p.desc && decide (p.ws.drop (min ((pagesize - 8 - s.ip.logend) / 4) p.ws.length) = []),
    ?_, fun he => ?_, ?_⟩
  · simp [State.move, moveChunk]
  · simp only [Bool.and_eq_true, decide_eq_true_eq] at he
    simp only [State.move]
    rw [if_pos he.2]
  · simp only [State.move, Bool.and_eq_true, decide_eq_true_eq]
    rfl

theorem Pending.move (h : Pending s) (ht : s.todo = p :: todo) :
    Pending (s.move p todo) := by
  obtain ⟨ended, -, htodo, hwriter⟩ := move_writer (s := s) (p := p) (q := todo)
  have hlast := h.last
  rw [ht, List.pairwise_cons] at hlast
  have hcases : (s.move p todo).todo = todo ∨
      ∃ ws, ws ≠ [] ∧ (s.move p todo).todo = { p with ws := ws } :: todo := by
    simp only [State.move]
    split
    · exact .inl rfl
    next hne => exact .inr ⟨_, hne, rfl⟩
  have henq : ∀ t, (s.move p todo).writer = .enqueue t → p.force = some t ∧ ended = true := by
    intro t he
    rw [hwriter] at he
    cases ended with
    | false =>
      simp only [Bool.false_eq_true, if_false] at he
      split at he <;> cases he
    | true =>
      cases hf : p.force with
      | none =>
        simp only [if_true, hf] at he
        split at he <;> cases he
      | some u =>
        simp only [if_true, hf, WriterPc.enqueue.injEq] at he
        exact ⟨congrArg some he, rfl⟩
  refine ⟨fun q hq => ?_, ?_, fun q hq t hf => ?_, fun t he => ⟨?_, ?_⟩⟩
  · rcases hcases with hc | ⟨ws, hws, hc⟩
    · exact h.words q (ht ▸ List.mem_cons_of_mem p (hc ▸ hq))
    · rw [hc] at hq
      rcases List.mem_cons.mp hq with rfl | hq
      · exact hws
      · exact h.words q (ht ▸ List.mem_cons_of_mem p hq)
  · rcases hcases with hc | ⟨ws, hws, hc⟩
    · rw [hc]
      exact hlast.2
    · rw [hc]
      exact List.pairwise_cons.mpr hlast
  · change s.pc t = .idle
    rcases hcases with hc | ⟨ws, hws, hc⟩
    · exact h.idle q (ht ▸ List.mem_cons_of_mem p (hc ▸ hq)) t hf
    · rw [hc] at hq
      rcases List.mem_cons.mp hq with rfl | hq
      · exact h.idle p (ht ▸ List.mem_cons_self) t hf
      · exact h.idle q (ht ▸ List.mem_cons_of_mem p hq) t hf
  · exact h.idle p (ht ▸ List.mem_cons_self) t (henq t he).1
  · rw [htodo (henq t he).2]
    rcases todo with _ | ⟨q, todo⟩
    · rfl
    · have hn := hlast.1 q List.mem_cons_self
      rw [(henq t he).1] at hn
      cases hn

theorem Offsets.move (h : Offsets s v) (hdvd : 4 ∣ s.ip.logend) (hlt : s.ip.logend < pagesize - 8)
    (hp : p.ws ≠ []) : Offsets (s.move p todo) v := by
  obtain ⟨hgt, hle⟩ := move_logend (q := todo) hdvd hlt hp
  obtain ⟨ended, heor, -, hwriter⟩ := move_writer (s := s) (p := p) (q := todo)
  have hend : (s.move p todo).ip.logend = s.ip.logend +
      4 * (p.ws.take (min ((pagesize - 8 - s.ip.logend) / 4) p.ws.length)).length := rfl
  refine ⟨?_, ?_, fun b hb => ?_, fun t he => ?_, h.order⟩
  · rw [hend]
    exact Dvd.dvd.add hdvd (Nat.dvd_mul_right 4 _)
  · rw [heor]
    split
    · exact hle
    · exact h.hi
  · have hb := h.cur b hb
    change (s.tblk b).ceor ≤ _ ∧ _
    rw [heor]
    split <;> omega
  · cases ended with
    | false =>
      rw [hwriter] at he
      simp only [Bool.false_eq_true, if_false] at he
      split at he <;> cases he
    | true =>
      refine ⟨heor, fun b hb => ?_⟩
      have hb := h.cur b hb
      change (s.tblk b).ceor < _
      omega

theorem Inv.move (h : Inv s v x) (hw : s.writer = .ready) (ht : s.todo = p :: todo) :
    Inv (s.move p todo) v x := by
  have hst := h.stage
  simp only [Stage, hw] at hst
  obtain ⟨hlt, hown⟩ := hst
  have hp : p.ws ≠ [] := h.pending.words p (ht ▸ List.mem_cons_self)
  obtain ⟨hgt, hle⟩ := move_logend (q := todo) h.offsets.dvd hlt hp
  obtain ⟨ended, -, -, hwriter⟩ := move_writer (s := s) (p := p) (q := todo)
  have hsame := move_same (s := s) p todo
  refine ⟨h.toBase.same hsame rfl (h.shape.frame rfl rfl rfl rfl (fun _ => rfl) fun _ => rfl)
    (h.offsets.move h.offsets.dvd hlt hp) (h.pending.move ht), ?_,
    h.phase.same hsame (.of_eq rfl rfl) rfl rfl rfl⟩
  unfold Stage
  rw [hwriter]
  cases hf : if ended then p.force else none with
  | some t => exact ⟨hle, hown⟩
  | none =>
    dsimp only
    by_cases hl : (s.move p todo).ip.logend < pagesize - 8
    · rw [if_pos hl]
      exact ⟨hl, hown⟩
    · rw [if_neg hl]
      exact ⟨by omega, hown⟩

end Move

/-! ### A COMMIT record -/

theorem enqueueCommit_apart (s : State) (t : Nat) : Apart s (s.enqueueCommit t) t :=
  ⟨fun _ hu => Function.update_of_ne hu _ _,
    fun _ hu => Function.update_of_ne (fun he => hu (Blk.tran.inj he)) _ _⟩

theorem enqueueCommit_tblk (hb : b ≠ .tran t) : (s.enqueueCommit t).tblk b = s.tblk b :=
  Function.update_of_ne hb _ _

theorem enqueueCommit_self (s : State) (t : Nat) : (s.enqueueCommit t).pc t = .logged ∧
    (s.enqueueCommit t).tblk (.tran t) = { (s.tblk (.tran t)).queued with
      cpn := s.ip.logptr, ceor := s.ip.logend, cxor := s.ip.logxor
      csn := if s.cq = [] then 1 else s.csn + 1 } :=
  ⟨Function.update_self _ _ _, Function.update_self _ _ _⟩

theorem Members.enqueueCommit (h : Members s v x) (ht : t ∉ v.trans)
    (hcq : v.trans ≠ [] → s.cq ≠ []) (hv : v'.trans = v.trans ++ [t]) :
    Members (s.enqueueCommit t) v' x := by
  have hne : ∀ u ∈ v.trans, u ≠ t := fun u hu he => ht (he ▸ hu)
  have ha := enqueueCommit_apart s t
  obtain ⟨hpct, htt⟩ := enqueueCommit_self s t
  have htb : ∀ u ∈ v.trans, (s.enqueueCommit t).tblk (.tran u) = s.tblk (.tran u) := fun u hu =>
    ha.tblk u (hne u hu)
  have hcsn : (s.enqueueCommit t).csn = if s.cq = [] then 1 else s.csn + 1 := rfl
  have hlt : ∀ u ∈ v.trans, (s.tblk (.tran u)).csn < if s.cq = [] then 1 else s.csn + 1 := by
    intro u hu
    rw [if_neg (hcq (List.ne_nil_of_mem hu))]
    exact Nat.lt_succ_of_le (h.csn_le u hu)
  have hsplit : ∀ u, u ∈ v'.trans ↔ u ∈ v.trans ∨ u = t := fun u => by simp [hv]
  refine h.apart ha (fun u hu => (hsplit u).trans (or_iff_left hu)) (fun _ _ => Iff.rfl)
    (fun _ => ?_) (fun hm => absurd ((hsplit t).mpr (.inr rfl)) hm) (fun _ _ => ?_) (fun hp => ?_)
    (fun g w hp => ?_) ?_ (fun u hu => ?_) ?_
  · rw [hpct, htt]
    exact ⟨TranPc.noConfusion, rfl, rfl⟩
  · rw [hpct, htt]
    exact .inl ⟨rfl, rfl⟩
  · rw [hpct] at hp
    cases hp
  · rw [hpct] at hp
    cases hp
  · rw [hv]
    refine List.pairwise_append.mpr ⟨?_, List.pairwise_singleton _ _, fun a ha b hb => ?_⟩
    · refine h.csn.imp_of_mem fun {a b} ha hb hab => ?_
      rw [htb a ha, htb b hb]
      exact hab
    · rw [List.mem_singleton.mp hb, htb a ha, htt]
      exact hlt a ha
  · rw [hcsn]
    rcases (hsplit u).mp hu with hu | rfl
    · rw [htb u hu]
      exact (hlt u hu).le
    · rw [htt]
  · rw [hv, List.countP_append, List.countP_singleton, htt]
    have hcount : v.trans.countP (fun u => ((s.enqueueCommit t).tblk (.tran u)).ready) =
        v.trans.countP fun u => (s.tblk (.tran u)).ready :=
      List.countP_congr fun u hu => by rw [htb u hu]
    rw [hcount]
    exact h.crtc

theorem Recorded.enqueueCommit (h : Recorded s) : Recorded (s.enqueueCommit t) := by
  obtain ⟨hpc, htb⟩ := enqueueCommit_apart s t
  have htt := (enqueueCommit_self s t).2
  have htrace : (s.enqueueCommit t).trace = .logged t s.ip.logptr s.ip.logend :: s.trace := rfl
  have hlog : ∀ u, u ≠ t → (Event.logged t s.ip.logptr s.ip.logend).logged? u = none := fun u hu =>
    if_neg (Ne.symm hu)
  refine ⟨fun u hu => ?_, fun u hu hc he => ?_, fun u hu hc he => ?_, ⟨trivial, h.honest⟩⟩
  · by_cases hut : u = t
    · rw [hut, htrace, htt]
      simp [lastLogged, Event.logged?]
    · rw [htb u hut, htrace, lastLogged_cons (hlog u hut)]
      exact h.logged u (hpc u hut ▸ hu)
  · by_cases hut : u = t
    · rw [hut, htt] at hc
      cases hc
    · rw [htb u hut] at hc he
      exact (h.durable u (hpc u hut ▸ hu) hc he).cons (hlog u hut)
  · by_cases hut : u = t
    · rw [hut, htt] at hc
      cases hc
    · rw [htb u hut] at hc he ⊢
      exact h.error u (hpc u hut ▸ hu) hc he

theorem Phase.enqueueCommit (h : Phase s v x) (ht : t ∉ v.trans) (hcq : .tran t ∉ s.cq)
    (hv : v'.trans = v.trans ++ [t]) : Phase (s.enqueueCommit t) v' x := by
  have hne : ∀ u ∈ v.trans, u ≠ t := fun u hu he => ht (he ▸ hu)
  have hpc := (enqueueCommit_apart s t).pc
  have htu : ∀ u ∈ v.trans, (s.enqueueCommit t).tblk (.tran u) = s.tblk (.tran u) := fun u hu =>
    (enqueueCommit_apart s t).tblk u (hne u hu)
  have htt : ((s.enqueueCommit t).tblk (.tran t)).ready = false ∧
      ((s.enqueueCommit t).tblk (.tran t)).commit = false := by
    simp [State.enqueueCommit, Tblock.queued]
  have hmem : ∀ b ∈ s.cq, (s.enqueueCommit t).tblk b = s.tblk b := fun b hb =>
    enqueueCommit_tblk fun he => hcq (he ▸ hb)
  have hfront : SameFront s (s.enqueueCommit t) :=
    ⟨⟨[.tran t], rfl, fun b hb => List.mem_singleton.mp hb ▸ htt.2⟩,
      fun b hb => by rw [hmem b hb], fun b hb => by rw [hmem b hb], fun b hb => by rw [hmem b hb],
      fun k hk => by
        change (s.cq ++ [Blk.tran t]).head? = _ at hk
        cases hc : s.cq <;> simp_all⟩
  have hleader : ∀ l, Leader s v l → Leader (s.enqueueCommit t) v' l := by
    intro l hl
    have hlcrt : (s.enqueueCommit t).lcrt = s.lcrt := rfl
    refine ⟨hl.gcpageout, hv ▸ List.mem_append_left _ hl.mem, hv ▸ List.mem_append_left _ hl.lcrt,
      ?_, ?_, fun u hu hr => ?_⟩
    · rw [hlcrt, htu _ hl.lcrt]
      exact hl.sleeper
    · rw [hlcrt, htu _ hl.lcrt, htu _ hl.mem]
      exact hl.csn_le
    · rw [hv, List.mem_append, List.mem_singleton] at hu
      rcases hu with hu | rfl
      · rw [htu u hu] at hr ⊢
        rw [hlcrt, htu _ hl.lcrt]
        exact hl.latest u hu hr
      · rw [htt.1] at hr
        cases hr
  cases h with
  | free hgc hr hc hm =>
    refine .free hgc (fun u hu => ?_) (hfront.unmarked hc) fun k hk => hm k (hfront.head k hk)
    rw [hv, List.mem_append, List.mem_singleton] at hu
    rcases hu with hu | rfl
    · rw [htu u hu]
      exact hr u hu
    · exact htt.1
  | elect hl hp hr hc =>
    refine .elect (hleader _ hl) ?_ ?_ (hfront.unmarked hc)
    · rw [hpc _ (hne _ hl.mem)]
      exact hp
    · rw [htu _ hl.mem]
      exact hr
  | leads hl hp hr hg =>
    have hw := hg.written
    obtain ⟨rest', hg'⟩ := hg.front hfront (by rw [htu _ hl.mem]) fun u hu => by
      have hu' : u ≠ t := by
        rintro rfl
        exact hcq (hg.cq ▸ List.mem_append_left _ hu)
      have hlog : (Event.logged t s.ip.logptr s.ip.logend).logged? u = none :=
        if_neg (Ne.symm hu')
      rw [show (s.enqueueCommit t).trace = .logged t s.ip.logptr s.ip.logend :: s.trace from rfl,
        since_cons hlog]
      exact List.mem_cons_of_mem _ (hw u hu)
    refine .leads (hleader _ hl) ?_ ?_ hg'
    · rw [hpc _ (hne _ hl.mem), htu _ hl.mem]
      exact hp
    · rw [htu _ hl.mem]
      exact hr

theorem Shape.cpn_ne (h : Shape s v) {b : Blk} (hb : b ∈ v.oldBlocks s.eopm) :
    (s.tblk b).cpn ≠ s.ip.logptr := by
  rw [h.old b hb]
  exact prev_page_ne h.size h.page

/-- Blocks that are for the current page are among those of the current page. -/
theorem Shape.mem_cur (h : Shape s v) {b : Blk} (hb : b ∈ s.cq)
    (hp : (s.tblk b).cpn = s.ip.logptr) : b ∈ v.curBlocks s.eopm := by
  rw [h.cq, View.blocks, List.mem_append] at hb
  exact hb.resolve_left fun ho => h.cpn_ne ho hp

theorem cur_isTran (hown : v.own = false) {e : Bool} {b : Blk} (hb : b ∈ v.curBlocks e) :
    b.isTran = true := by
  simp only [View.curBlocks, hown, Bool.false_eq_true, if_false, List.append_nil,
    List.mem_map] at hb
  obtain ⟨_, _, rfl⟩ := hb
  rfl

/-- A block goes behind the others, for the record that ended last. -/
theorem Offsets.append (h : Offsets s v) (hsh : Shape s v) (hown : v.own = false)
    (hip : s'.ip = s.ip) (hcq : s'.cq = s.cq ++ [b]) (hw : ∀ t, s'.writer ≠ .enqueue t)
    (htb : ∀ c ∈ s.cq, s'.tblk c = s.tblk c)
    (hcur : ∀ c ∈ v'.curBlocks s'.eopm, c ∈ v.curBlocks s.eopm ∨ c = b)
    (hcpn : (s'.tblk b).cpn = s.ip.logptr) (hceor : (s'.tblk b).ceor = s.ip.llogeor)
    (hle : s.ip.llogeor ≤ s.ip.logend)
    (hlt : b.isTran = true → ∀ c ∈ v.curBlocks s.eopm, (s.tblk c).ceor < s.ip.llogeor) :
    Offsets s' v' := by
  have hmem : ∀ c ∈ v.curBlocks s.eopm, c ∈ s.cq := fun c hc =>
    hsh.cq ▸ List.mem_append_right _ hc
  refine ⟨hip ▸ h.dvd, hip ▸ h.hi, fun c hc => ?_, fun t ht => absurd ht (hw t), ?_⟩
  · rw [hip]
    rcases hcur c hc with hc | rfl
    · rw [htb c (hmem c hc)]
      exact h.cur c hc
    · exact ⟨hceor.le, hle⟩
  · rw [hcq]
    refine List.pairwise_append.mpr ⟨?_, List.pairwise_singleton _ _, fun a ha c hc hp => ?_⟩
    · refine h.order.imp_of_mem fun {a b} ha hb hab => ?_
      unfold InOrder
      rw [htb a ha, htb b hb]
      exact hab
    · rw [List.mem_singleton.mp hc] at hp ⊢
      rw [htb a ha, hcpn] at hp
      rw [htb a ha, hceor]
      have hacur := hsh.mem_cur ha hp
      exact ⟨cur_isTran hown hacur, (h.cur a hacur).1, fun ht => hlt ht a hacur⟩

theorem Inv.enqueueCommit (h : Inv s v x) (hw : s.writer = .enqueue t) :
    ∃ v', Inv (s.enqueueCommit t) v' x := by
  have hst := h.stage
  simp only [Stage, hw] at hst
  obtain ⟨hle, hown⟩ := hst
  obtain ⟨hidle, htodo⟩ := h.pending.enqueue t hw
  obtain ⟨heor, hfresh⟩ := h.offsets.fresh t hw
  have ht : t ∉ v.trans := fun hm => (h.members.on t hm).1 hidle
  have hcq : Blk.tran t ∉ s.cq := fun hm => ht (View.mem_trans.mp (h.shape.cq ▸ hm))
  have hv : View.trans { v with cur := v.cur ++ [t] } = v.trans ++ [t] := by
    simp [View.trans]
  have htb : ∀ b ∈ s.cq, (s.enqueueCommit t).tblk b = s.tblk b := fun b hb =>
    enqueueCommit_tblk fun he => hcq (he ▸ hb)
  have htt := (enqueueCommit_self s t).2
  have hwriter : (s.enqueueCommit t).writer =
      if s.ip.logend < pagesize - 8 then .ready else .full := rfl
  have hnot : ∀ u, (s.enqueueCommit t).writer ≠ .enqueue u := by
    intro u hu
    rw [hwriter] at hu
    split at hu <;> cases hu
  have hnil : v.trans ≠ [] → s.cq ≠ [] := by
    intro hne
    obtain ⟨u, hu⟩ := List.exists_mem_of_ne_nil _ hne
    exact List.ne_nil_of_mem (a := Blk.tran u) (h.shape.cq ▸ View.mem_trans.mpr hu)
  refine ⟨{ v with cur := v.cur ++ [t] }, ⟨h.shape.enqueueCommit hown ht, ?_, ?_,
    h.members.enqueueCommit ht hnil hv, h.recorded.enqueueCommit⟩, ?_,
    h.phase.enqueueCommit ht hcq hv⟩
  · refine h.offsets.append h.shape hown rfl rfl hnot htb (fun c hc => ?_) (by rw [htt])
      (by rw [htt, heor]) heor.le fun _ => heor ▸ hfresh
    simpa [View.curBlocks, hown, State.enqueueCommit] using hc
  · refine ⟨h.pending.words, h.pending.last, fun p hp => ?_, fun u hu => absurd hu (hnot u)⟩
    rw [show (s.enqueueCommit t).todo = [] from htodo] at hp
    cases hp
  · unfold Stage
    rw [hwriter]
    by_cases hl : s.ip.logend < pagesize - 8
    · rw [if_pos hl]
      exact ⟨hl, hown⟩
    · rw [if_neg hl]
      exact ⟨le_antisymm hle (not_lt.mp hl), hown⟩

/-! ### `nextpage` -/

theorem logwrite_same (pno eor : Nat) (xor : Word) (ppong : Bool) :
    SameTrans s (s.logwrite pno eor xor ppong) where
  pc := rfl
  tblk := fun _ => .refl _
  csn := rfl
  crtc := rfl
  trace := ⟨[_], rfl, by simp [Event.quiet]⟩

theorem Base.logwrite (h : Base s v x) (pno eor : Nat) (xor : Word) (ppong : Bool) :
    Base (s.logwrite pno eor xor ppong) v x :=
  h.same (logwrite_same _ _ _ _) rfl (h.shape.frame rfl rfl rfl rfl (fun _ => rfl) fun _ => rfl)
    (h.offsets.frame rfl rfl rfl (List.Subset.refl _) (fun _ => rfl) (fun _ => rfl) fun _ => id)
    (h.pending.frame rfl rfl fun _ => id)

theorem advance_same : SameTrans s s.advance where
  pc := rfl
  tblk := fun _ => .refl _
  csn := rfl
  crtc := rfl
  trace := ⟨[], rfl, by simp⟩

/-- The log writer leaves the page when the last one is out of the way. -/
theorem Inv.advance (h : Base s v x) (hph : Phase s v x) (hold : v.old = none)
    (hown : v.own = false → v.cur = []) : Inv s.advance v.turn x := by
  have hv := View.trans_turn hold hown
  have hcur : v.turn.curBlocks s.advance.eopm = [] := rfl
  refine ⟨h.same advance_same hv (h.shape.advance hold hown) ?_ ?_, ⟨rfl, rfl, rfl⟩,
    hph.same advance_same (.of_eq rfl rfl) hv rfl rfl⟩
  · refine ⟨⟨2, rfl⟩, h.offsets.hi, fun b hb => ?_, fun t ht => WriterPc.noConfusion ht,
      h.offsets.order⟩
    rw [hcur] at hb
    cases hb
  · exact ⟨h.pending.words, h.pending.last, h.pending.idle, fun t ht => WriterPc.noConfusion ht⟩

theorem setMark_same (k : Bool) (tb : Tblock) : SameTrans s (s.setTblk (.eopm k) tb) where
  pc := rfl
  tblk := fun t => by
    have ht : (s.setTblk (.eopm k) tb).tblk (.tran t) = s.tblk (.tran t) := by
      simp [State.setTblk]
    rw [ht]
    exact .refl _
  csn := rfl
  crtc := rfl
  trace := ⟨[], rfl, by simp⟩

/-- The writer will be awakened by the marker. -/
theorem setWait_eq (k : Bool) (b : Blk) :
    ((s.setTblk (.eopm k) { s.tblk (.eopm k) with wait := true }).tblk b).queue =
        (s.tblk b).queue ∧
      ((s.setTblk (.eopm k) { s.tblk (.eopm k) with wait := true }).tblk b).commit =
        (s.tblk b).commit ∧
      ((s.setTblk (.eopm k) { s.tblk (.eopm k) with wait := true }).tblk b).cpn =
        (s.tblk b).cpn ∧
      ((s.setTblk (.eopm k) { s.tblk (.eopm k) with wait := true }).tblk b).ceor =
        (s.tblk b).ceor := by
  by_cases hb : b = .eopm k
  · subst hb
    simp [State.setTblk]
  · simp [State.setTblk, hb]

theorem eopmEnqueue_same : SameTrans s s.eopmEnqueue where
  pc := rfl
  tblk := fun t => by
    have ht : s.eopmEnqueue.tblk (.tran t) = s.tblk (.tran t) := by
      simp [State.eopmEnqueue]
    rw [ht]
    exact .refl _
  csn := rfl
  crtc := rfl
  trace := ⟨[], rfl, by simp⟩

/-- The marker of the current page goes behind everything else. -/
theorem Base.eopmEnqueue (h : Base s v x) (hw : s.writer = .full) (hown : v.own = false)
    (hend : s.ip.logend = pagesize - 8) (hcq : s.cq ≠ []) :
    Base s.eopmEnqueue { v with own := true } x ∧ SameFront s s.eopmEnqueue := by
  have hmark : Blk.eopm s.eopm ∉ s.cq := h.shape.mark_free hown
  have htb : ∀ b ∈ s.cq, s.eopmEnqueue.tblk b = s.tblk b := fun b hb =>
    Function.update_of_ne (show b ≠ .eopm s.eopm by rintro rfl; exact hmark hb) _ _
  have htm : s.eopmEnqueue.tblk (.eopm s.eopm) = { (s.tblk (.eopm s.eopm)).queued with
      cpn := s.ip.logptr, ceor := s.ip.llogeor, cxor := s.ip.llogxor } := Function.update_self _ _ _
  refine ⟨h.same eopmEnqueue_same rfl (h.shape.eopmEnqueue hown) ?_
    (h.pending.frame rfl rfl fun _ => id), ⟨[_], rfl, fun b hb => ?_⟩, fun b hb => ?_,
    fun b hb => ?_, fun b hb => ?_, fun k hk => ?_⟩
  · refine h.offsets.append h.shape hown rfl rfl (fun t ht => ?_) htb (fun c hc => ?_)
      (by rw [htm]) (by rw [htm]) (hend ▸ h.offsets.hi) Bool.noConfusion
    · rw [show s.eopmEnqueue.writer = .full from hw] at ht
      cases ht
    · simpa [View.curBlocks, hown, State.eopmEnqueue] using hc
  · rw [List.mem_singleton.mp hb, htm]
    rfl
  · rw [htb b hb]
  · rw [htb b hb]
  · rw [htb b hb]
  · obtain ⟨c, rest, hc⟩ := List.exists_cons_of_ne_nil hcq
    change (s.cq ++ [Blk.eopm s.eopm]).head? = _ at hk
    rw [hc] at hk ⊢
    exact hk

theorem setWriter_same (c : WriterPc) : SameTrans s (s.setWriter c) :=
  ⟨rfl, fun _ => .refl _, rfl, rfl, [], rfl, by simp⟩

/-- The log writer goes to sleep. -/
theorem Inv.setWriter {own k : Bool} (h : Base s v x) (hph : Phase s v x)
    (hst : Stage (s.setWriter (.asleep own k)) v) : Inv (s.setWriter (.asleep own k)) v x :=
  ⟨h.same (setWriter_same _) rfl (h.shape.frame rfl rfl rfl rfl (fun _ => rfl) fun _ => rfl)
      (h.offsets.frame rfl rfl rfl (List.Subset.refl _) (fun _ => rfl) (fun _ => rfl)
        fun _ ht => WriterPc.noConfusion ht)
      (h.pending.frame rfl rfl fun _ ht => WriterPc.noConfusion ht),
    hst, hph.same (setWriter_same _) (.of_eq rfl rfl) rfl rfl rfl⟩

theorem Inv.nextpage (h : Inv s v x) (hw : s.writer = .full) : ∃ v', Inv s.nextpage v' x := by
  have hst := h.stage
  simp only [Stage, hw] at hst
  obtain ⟨hend, hown⟩ := hst
  unfold State.nextpage
  cases hq : s.cq.getLast? with
  | none =>
    -- nothing is on the queue: the page is written at once
    obtain ⟨hold, hcur⟩ := View.blocks_nil (h.shape.cq ▸ List.getLast?_eq_none_iff.mp hq)
    have hsame := logwrite_same (s := s) s.ip.logptr s.ip.llogeor s.ip.llogxor false
    exact ⟨_, Inv.advance (h.toBase.logwrite _ _ _ _)
      (h.phase.same hsame (.of_eq rfl rfl) rfl rfl rfl) hold fun _ => hcur⟩
  | some tail =>
    have hne : s.cq ≠ [] := by
      rintro hnil
      rw [hnil] at hq
      cases hq
    rw [h.shape.cq] at hq
    have hmark : (s.tblk (.eopm !s.eopm)).queue = true ↔ v.old ≠ none := by
      rw [h.shape.marks, h.shape.cq]
      exact View.mem_mark hown
    dsimp only
    by_cases hx : (s.tblk (.eopm !s.eopm)).queue = true
    · -- the marker of the last page is still there, and the writer waits for it
      rw [if_pos hx]
      have hold := hmark.mp hx
      have hsame := setMark_same (s := s) (!s.eopm)
        { s.tblk (.eopm !s.eopm) with wait := true }
      have heq := setWait_eq (s := s) (!s.eopm)
      set s₁ := s.setTblk (.eopm !s.eopm) { s.tblk (.eopm !s.eopm) with wait := true } with hs₁
      have hwait : (s₁.tblk (.eopm !s.eopm)).wait = true := by simp [hs₁, State.setTblk]
      have h₁ : Base s₁ v x := h.toBase.same hsame rfl
        (h.shape.frame rfl rfl rfl rfl (fun k => (heq _).1) fun b => (heq b).2.2.1)
        (h.offsets.frame rfl rfl rfl (List.Subset.refl _) (fun b => (heq b).2.2.1)
          (fun b => (heq b).2.2.2) fun _ => id)
        (h.pending.frame rfl rfl fun _ => id)
      have hp₁ : Phase s₁ v x := h.phase.same hsame
        ⟨⟨[], (List.append_nil _).symm, by simp⟩, fun b _ => (heq b).2.1,
          fun b _ => (heq b).2.2.1, fun b _ => (heq b).2.2.2, fun _ => id⟩ rfl rfl rfl
      by_cases ht : tail.isTran = true
      · rw [if_pos ht]
        obtain ⟨h₂, hf⟩ := h₁.eopmEnqueue hw hown hend hne
        refine ⟨_, Inv.setWriter h₂ (hp₁.same eopmEnqueue_same hf rfl rfl rfl)
          ⟨hend, hold, ?_, ?_, rfl, iff_of_false Bool.noConfusion fun hcur => ?_⟩⟩
        · simp [View.oldMark, State.setWriter, State.eopmEnqueue, hs₁, State.setTblk]
        · change (Function.update s₁.tblk (.eopm s.eopm) _ (.eopm !s.eopm)).wait = true
          rw [Function.update_of_ne (by simp)]
          exact hwait
        · obtain ⟨k, hk⟩ := View.last_eopm (e := s.eopm) hown hcur hold
          rw [hq] at hk
          cases hk
          cases ht
      · rw [if_neg ht]
        refine ⟨v, Inv.setWriter h₁ hp₁ ⟨hend, hold, ?_, hwait, hown.symm, iff_of_true rfl ?_⟩⟩
        · simp [View.oldMark, hown, State.setWriter, hs₁, State.setTblk]
        · by_contra hcur
          obtain ⟨u, hu⟩ := View.last_tran (e := s.eopm) hown hcur
          rw [hq] at hu
          cases hu
          exact ht rfl
    · -- the marker of this page goes on the queue
      rw [if_neg hx]
      have hold : v.old = none := not_not.mp fun hne => hx (hmark.mpr hne)
      obtain ⟨h₂, hf⟩ := h.toBase.eopmEnqueue hw hown hend hne
      exact ⟨_, Inv.advance h₂ (h.phase.same eopmEnqueue_same hf rfl rfl rfl) hold Bool.noConfusion⟩

theorem Inv.nextpageWoken {own : Bool} (h : Inv s v x) (hw : s.writer = .woken own) :
    ∃ v', Inv (s.nextpageWoken own) v' x := by
  have hst := h.stage
  simp only [Stage, hw] at hst
  obtain ⟨-, hold, hown, -⟩ := hst
  unfold State.nextpageWoken
  cases own with
  | true => exact ⟨_, Inv.advance h.toBase h.phase hold hown⟩
  | false =>
    have hsame := logwrite_same (s := s) s.ip.logptr s.ip.llogeor s.ip.llogxor false
    exact ⟨_, Inv.advance (h.toBase.logwrite _ _ _ _)
      (h.phase.same hsame (.of_eq rfl rfl) rfl rfl rfl) hold hown⟩

theorem Inv.makePage {lpage : Word} (h : Inv s v x) (hw : s.writer = .make lpage) :
    Inv (s.makePage lpage) v x := by
  have hst := h.stage
  simp only [Stage, hw] at hst
  obtain ⟨hend, hown, -⟩ := hst
  have hsame : SameTrans s (s.makePage lpage) :=
    ⟨rfl, fun _ => .refl _, rfl, rfl, [], rfl, by simp⟩
  refine ⟨h.toBase.same hsame rfl (h.shape.frame rfl rfl rfl rfl (fun _ => rfl) fun _ => rfl)
    (h.offsets.frame rfl rfl rfl (List.Subset.refl _) (fun _ => rfl) (fun _ => rfl)
      fun _ ht => WriterPc.noConfusion ht)
    (h.pending.frame rfl rfl fun _ ht => WriterPc.noConfusion ht), ⟨?_, hown⟩,
    h.phase.same hsame (.of_eq rfl rfl) rfl rfl rfl⟩
  change s.ip.logend < _
  rw [hend]
  decide

/-! ### `dologmvc` -/

theorem pending_pieces (logend : Nat) (ld : LogRDesc) (dataptr : Nat → Word) (cd : Comdata) :
    (∀ p ∈ State.pieces logend ld dataptr cd, p.ws ≠ []) ∧
      ((State.pieces logend ld dataptr cd).Pairwise fun p _ => p.force = none) ∧
      ∀ p ∈ State.pieces logend ld dataptr cd, ∀ t, p.force = some t →
        State.force ld cd = some t := by
  have hrec : ∀ data (ld : LogRDesc) f, (∀ p ∈ State.recordPieces data ld.words f, p.ws ≠ []) ∧
      ((State.recordPieces data ld.words f).Pairwise fun p _ => p.force = none) ∧
      ∀ p ∈ State.recordPieces data ld.words f, ∀ t, p.force = some t → f = some t := by
    intro data ld f
    unfold State.recordPieces
    split
    · simp [LogRDesc.words]
    next hne => simp [LogRDesc.words, hne]
  obtain ⟨h1, h2, h3⟩ := hrec (wordsAt dataptr ((recordLen ld - 32) / 4).toNat) ld
    (State.force ld cd)
  unfold State.pieces
  dsimp only
  split
  · obtain ⟨h1', h2', h3'⟩ := hrec
      (wordsAt dataptr ((dumlen logend (recordLen ld) - 32) / 4))
      (dumDesc (dumlen logend (recordLen ld))) none
    refine ⟨fun p hp => ?_, List.pairwise_append.mpr ⟨h2', h2, fun p hp q hq => ?_⟩,
      fun p hp t hf => ?_⟩
    · exact (List.mem_append.mp hp).elim (h1' p) (h1 p)
    · cases hf : p.force with
      | none => rfl
      | some t => cases h3' p hp t hf
    · rcases List.mem_append.mp hp with hp | hp
      · cases h3' p hp t hf
      · exact h3 p hp t hf
  · exact ⟨h1, h2, h3⟩

theorem Inv.begin {ld : LogRDesc} {dataptr : Nat → Word} {cd : Comdata} (h : Inv s v x)
    (hb : s.begin ld dataptr cd = some s') : Inv s' v x := by
  unfold State.begin at hb
  split at hb
  next hw ht =>
    split at hb
    next hc =>
      obtain rfl := Option.some.inj hb
      obtain ⟨hwords, hlast, hforce⟩ := pending_pieces s.ip.logend ld dataptr cd
      have hsame : SameTrans s
          { s with todo := State.pieces s.ip.logend ld dataptr cd, cd := cd } :=
        ⟨rfl, fun _ => .refl _, rfl, rfl, [], rfl, by simp⟩
      refine ⟨h.toBase.same hsame rfl
        (h.shape.frame rfl rfl rfl rfl (fun _ => rfl) fun _ => rfl)
        (h.offsets.frame rfl rfl rfl (List.Subset.refl _) (fun _ => rfl) (fun _ => rfl)
          fun _ => id)
        ⟨hwords, hlast, fun p hp t hf => ?_, fun t ht => ?_⟩, h.stage,
        h.phase.same hsame (.of_eq rfl rfl) rfl rfl rfl⟩
      · have hf := hforce p hp t hf
        have htid : cd.tid = t := by
          unfold State.force at hf
          split at hf
          · exact Option.some.inj hf
          · cases hf
        have hidle := hc.2.2.resolve_left (by rw [hf]; exact Option.some_ne_none t)
        rw [htid] at hidle
        change s.pc t = .idle
        cases hpc : s.pc t <;> rw [hpc] at hidle <;> first | rfl | cases hidle
      · rw [show State.writer _ = s.writer from rfl, hw] at ht
        cases ht
    next => cases hb
  next => cases hb

theorem Inv.go (h : Inv s v x) (hgo : s.go = some s') : ∃ v', Inv s' v' x := by
  unfold State.go at hgo
  split at hgo
  next hw =>
    split at hgo
    next => cases hgo
    next p rest ht =>
      obtain rfl := Option.some.inj hgo
      exact ⟨v, h.move hw ht⟩
  next tid hw =>
    obtain rfl := Option.some.inj hgo
    exact h.enqueueCommit hw
  next hw =>
    obtain rfl := Option.some.inj hgo
    exact h.nextpage hw
  next => cases hgo
  next own hw =>
    obtain rfl := Option.some.inj hgo
    exact h.nextpageWoken hw
  next lpage hw =>
    obtain rfl := Option.some.inj hgo
    exact ⟨v, h.makePage hw⟩

end Aix413.Log.Committing
