import Aix413.Message.TypedFifo

namespace Aix413.Message.Wakeups

open Lib.TypedQueue Ipc.Access Queues Calls Contents Selection Turns TypedFifo

variable {env : Env} {tid k : Nat} {qp qp' : MsqidDs} {heap : Heap} {q : List Entry}
  {s : State} {tr : List Outcome} {e : Event} {o : Outcome}

/-- There is room for the message of a send. -/
def Fits (qp : MsqidDs) (a : Snd) : Prop :=
  qp.msgQnum.toNat < msgmnm ∧ a.cnt + qp.msgCbytes.toNat ≤ qp.msgQbytes.toNat

/-- A receive takes messages of the type. -/
def Accepts (a : Rcv) (e : Entry) : Prop :=
  a.msgtyp.toInt = 0 ∨ 0 < a.msgtyp.toInt ∧ e.type = a.msgtyp.toInt ∨
    a.msgtyp.toInt < 0 ∧ e.type ≤ -a.msgtyp.toInt

/-! ## What a turn does for the threads that sleep -/

/-- Threads sleep only behind their flag. -/
structure Flagged (qp : MsqidDs) : Prop where
  rwait : qp.msgRwait ≠ [] → qp.has MSG_RWAIT = true
  wwait : qp.msgWwait ≠ [] → qp.has MSG_WWAIT = true

def SameR (qp qp' : MsqidDs) : Prop :=
  qp'.msgRwait = qp.msgRwait ∧ qp'.has MSG_RWAIT = qp.has MSG_RWAIT

def SameW (qp qp' : MsqidDs) : Prop :=
  qp'.msgWwait = qp.msgWwait ∧ qp'.has MSG_WWAIT = qp.has MSG_WWAIT

/-- The limit of the queue stays, and whether it is in use. -/
def SameQ (qp qp' : MsqidDs) : Prop :=
  qp'.msgQbytes = qp.msgQbytes ∧ qp'.has IPC_ALLOC = qp.has IPC_ALLOC

/-- A turn of thread `tid` leaves the sleepers alone, or puts the thread to sleep, or wakes all
the sleepers that its change concerns. -/
inductive Effect (tid : Nat) (qp qp' : MsqidDs) : Turn → Prop
  | still {o : Outcome} (hc : changed o = none) (hr : SameR qp qp') (hw : SameW qp qp')
      (hb : SameQ qp qp') : Effect tid qp qp' (.done o)
  | rcv {a : Rcv} {smp spmp : Nat} (ha : isSet a.msgflg IPC_NOWAIT = false)
      (hr : qp'.msgRwait = tid :: qp.msgRwait) (hf : qp'.has MSG_RWAIT = true)
      (hw : SameW qp qp') (hb : SameQ qp qp') :
      Effect tid qp qp' (.sleep (.rcv a smp spmp))
  | snd {a : Snd} (ha : ¬Fits qp a) (hw : qp'.msgWwait = tid :: qp.msgWwait)
      (hf : qp'.has MSG_WWAIT = true) (hr : SameR qp qp') (hb : SameQ qp qp') :
      Effect tid qp qp' (.sleep (.snd a))
  | sent {k mp : Nat} {attr : MsgHdr} {text : List UInt8} (hr : qp'.msgRwait = [])
      (hw : SameW qp qp') (hb : SameQ qp qp') :
      Effect tid qp qp' (.done (.sent k mp attr text))
  | received {k mp : Nat} {attr : MsgHdr ⊕ Int32} {text : List UInt8} (hr : SameR qp qp')
      (hw : qp'.msgWwait = []) (hb : SameQ qp qp') :
      Effect tid qp qp' (.done (.received k mp attr text))
  | removed {k : Nat} (hr : qp'.msgRwait = []) (hw : qp'.msgWwait = []) :
      Effect tid qp qp' (.done (.removed k))
  | set {k : Nat} (hr : SameR qp qp') (hw : SameW qp qp')
      (hb : qp'.has IPC_ALLOC = qp.has IPC_ALLOC) : Effect tid qp qp' (.done (.set k))

theorem effect_failed {err : Errno} : Effect tid qp qp (.done (.failed err)) :=
  .still rfl ⟨rfl, rfl⟩ ⟨rfl, rfl⟩ ⟨rfl, rfl⟩

/-- The senders are woken, and the receivers left alone. -/
theorem msgfree_effect (hf : Flagged qp) (heap : Heap) (pmp mp : Nat) :
    SameR qp (msgfree qp heap pmp mp).1 ∧ (msgfree qp heap pmp mp).1.msgWwait = [] ∧
      SameQ qp (msgfree qp heap pmp mp).1 := by
  have hclear : ∀ m : BitVec 32, isSet (m &&& ~~~MSG_WWAIT) MSG_RWAIT = isSet m MSG_RWAIT :=
    fun m => isSet_clear (by decide)
  have halloc : (msgfree qp heap pmp mp).1.has IPC_ALLOC = qp.has IPC_ALLOC :=
    msgfree_alloc qp heap pmp mp
  have hnone : qp.has MSG_WWAIT = false → qp.msgWwait = [] := by
    intro hno
    by_contra hne
    rw [hf.wwait hne] at hno
    cases hno
  refine ⟨?_, ?_, ?_, halloc⟩
  all_goals
    unfold msgfree
    simp only [SameR, MsqidDs.setMode, MsqidDs.has] at hnone ⊢
    split_ifs <;> simp_all

theorem freeAll_effect {fuel : Nat} {heap' : Heap} (hf : Flagged qp)
    (h : freeAll fuel qp heap = some (qp', heap')) : SameR qp qp' ∧ Flagged qp' := by
  induction fuel generalizing qp heap with
  | zero => cases h
  | succ fuel ih =>
    rw [freeAll] at h
    split at h
    next =>
      cases h
      exact ⟨⟨rfl, rfl⟩, hf⟩
    next =>
      obtain ⟨hr, hw, -⟩ := msgfree_effect hf heap 0 qp.msgFirst
      obtain ⟨hr', hf'⟩ :=
        ih ⟨fun hne => hr.2.trans (hf.rwait (hr.1 ▸ hne)), fun hne => absurd hw hne⟩ h
      exact ⟨⟨hr'.1.trans hr.1, hr'.2.trans hr.2⟩, hf'⟩

theorem deliver_effect (hf : Flagged qp) (env : Env) (k : Nat) (a : Rcv) (heap : Heap)
    (spmp smp : Nat) (m : Msg) : Effect tid qp (deliver env k a qp heap spmp smp m).1
      (deliver env k a qp heap spmp smp m).2.2 := by
  rcases deliver_cases env k a qp heap spmp smp m with ⟨err, -, hd⟩ | ⟨sz, -, hd⟩
  · rw [hd]
    exact effect_failed
  · rw [hd]
    have hf' : Flagged { qp with
        msgCbytes := qp.msgCbytes - m.msgTs, msgLrpid := env.pid, msgRtime := env.time } :=
      ⟨hf.rwait, hf.wwait⟩
    obtain ⟨hr, hw, hb⟩ := msgfree_effect hf' heap spmp smp
    exact .received hr hw hb

theorem rcvLoop_effect (hf : Flagged qp) (env : Env) (k : Nat) (a : Rcv) (smp spmp : Nat)
    (heap : Heap) : Effect tid qp (rcvLoop env tid k a smp spmp qp heap).1
      (rcvLoop env tid k a smp spmp qp heap).2.2 := by
  unfold rcvLoop
  split
  next => exact .still rfl ⟨rfl, rfl⟩ ⟨rfl, rfl⟩ ⟨rfl, rfl⟩
  next smp' spmp' _ =>
    split
    next =>
      split
      next => exact effect_failed
      next hno =>
        exact .rcv (Bool.eq_false_iff.mpr hno) rfl (isSet_or_self (by decide) _)
          ⟨rfl, isSet_or (by decide)⟩ ⟨rfl, isSet_or (by decide)⟩
    next =>
      split
      next => exact .still rfl ⟨rfl, rfl⟩ ⟨rfl, rfl⟩ ⟨rfl, rfl⟩
      next m _ => exact deliver_effect hf env k a heap spmp' smp' m

theorem enqueue_lists (qp : MsqidDs) (heap : Heap) (mp : Nat) (m : Msg) :
    (enqueue qp heap mp m).1.msgRwait = qp.msgRwait ∧
      (enqueue qp heap mp m).1.msgWwait = qp.msgWwait ∧
      (enqueue qp heap mp m).1.msgQbytes = qp.msgQbytes := by
  unfold enqueue
  simp only
  split <;> exact ⟨rfl, rfl, rfl⟩

theorem accept_effect (hf : Flagged qp) (env : Env) (k : Nat) (a : Snd) (heap : Heap)
    (mtype : Int32) (text : List UInt8) : Effect tid qp (accept env k a qp heap mtype text).1
      (accept env k a qp heap mtype text).2.2 := by
  unfold accept
  dsimp only
  generalize hq : ({ qp with
      msgQnum := qp.msgQnum + 1
      msgCbytes := qp.msgCbytes + UInt16.ofInt a.cnt
      msgStime := env.time
      msgLspid := env.pid } : MsqidDs) = qp₁
  generalize (⟨0, ⟨env.time, env.uid, env.gid, env.pid, mtype⟩, UInt16.ofInt a.cnt, text⟩ : Msg) = m
  obtain ⟨hperm, -⟩ := enqueue_fields qp₁ heap env.xmalloc m
  obtain ⟨hr, hw, hb⟩ := enqueue_lists qp₁ heap env.xmalloc m
  have h1 : qp₁.msgPerm = qp.msgPerm ∧ qp₁.msgRwait = qp.msgRwait ∧ qp₁.msgWwait = qp.msgWwait ∧
      qp₁.msgQbytes = qp.msgQbytes := by
    rw [← hq]
    exact ⟨rfl, rfl, rfl, rfl⟩
  rw [h1.1] at hperm
  rw [h1.2.1] at hr
  rw [h1.2.2.1] at hw
  rw [h1.2.2.2] at hb
  generalize (enqueue qp₁ heap env.xmalloc m).1 = qp₂ at hperm hr hw hb
  have hmode : ∀ bits, qp₂.has bits = qp.has bits := fun bits => by
    rw [MsqidDs.has, MsqidDs.has, hperm]
  split
  next =>
    exact .sent rfl ⟨hw, (isSet_clear (by decide)).trans (hmode MSG_WWAIT)⟩
      ⟨hb, (isSet_clear (by decide)).trans (hmode IPC_ALLOC)⟩
  next hno =>
    refine .sent ?_ ⟨hw, hmode MSG_WWAIT⟩ ⟨hb, hmode IPC_ALLOC⟩
    rw [hr]
    by_contra hne
    exact hno ((hmode MSG_RWAIT).trans (hf.rwait hne))

theorem sndLoop_effect (hf : Flagged qp) (env : Env) (k : Nat) (a : Snd) (heap : Heap) :
    Effect tid qp (sndLoop env tid k a qp heap).1 (sndLoop env tid k a qp heap).2.2 := by
  unfold sndLoop
  split
  next hfull =>
    split
    next => exact effect_failed
    next =>
      split
      next => exact effect_failed
      next =>
        refine .snd (fun hfits => ?_) rfl (isSet_or_self (by decide) _) ⟨rfl, isSet_or (by decide)⟩
          ⟨rfl, isSet_or (by decide)⟩
        obtain ⟨h1, h2⟩ := hfits
        omega
  next =>
    split
    next => exact effect_failed
    next =>
      split
      next => exact effect_failed
      next =>
        split
        next => exact effect_failed
        next =>
          split
          next => exact effect_failed
          next => exact accept_effect hf env k a heap _ _

theorem release_effect (hf : Flagged qp) :
    (release qp).msgRwait = [] ∧ (release qp).msgWwait = [] := by
  constructor
  · change (if qp.has MSG_RWAIT then [] else qp.msgRwait) = []
    split
    next => rfl
    next hno => exact by_contra fun hne => hno (hf.rwait hne)
  · change (if qp.has MSG_WWAIT then [] else qp.msgWwait) = []
    split
    next => rfl
    next hno => exact by_contra fun hne => hno (hf.wwait hne)

theorem rmsgctl_effect (hf : Flagged qp) (env : Env) (k : Nat) (cmd : Int) (dsp : Dsp)
    (heap : Heap) :
    Effect tid qp (rmsgctl env k cmd dsp qp heap).1 (rmsgctl env k cmd dsp qp heap).2.2 := by
  have hset : ∀ {m d bits : BitVec 32}, 0o777#32 &&& bits = 0#32 → ~~~0o777#32 &&& bits = bits →
      isSet ((m &&& ~~~0o777#32) ||| (d &&& 0o777#32)) bits = isSet m bits := by
    intro m d bits hb hn
    rw [isSet_or (by rw [BitVec.and_assoc, hb]; exact BitVec.and_zero), isSet_clear hn]
  unfold rmsgctl
  split
  next =>
    split
    next => exact effect_failed
    next =>
      split
      next => exact .still rfl ⟨rfl, rfl⟩ ⟨rfl, rfl⟩ ⟨rfl, rfl⟩
      next qp' heap' hall =>
        obtain ⟨-, hf'⟩ := freeAll_effect hf hall
        obtain ⟨hr, hw⟩ := release_effect hf'
        exact .removed hr hw
  next =>
    split
    next =>
      split
      next => exact effect_failed
      next =>
        split
        next => exact effect_failed
        next =>
          exact .set ⟨rfl, hset (by decide) (by decide)⟩ ⟨rfl, hset (by decide) (by decide)⟩
            (hset (by decide) (by decide))
    next =>
      split
      next =>
        split
        next => exact effect_failed
        next => exact .still rfl ⟨rfl, rfl⟩ ⟨rfl, rfl⟩ ⟨rfl, rfl⟩
      next => exact effect_failed


/-! ## The sleepers -/

/-- The threads on the lists of a queue sleep in calls on it. -/
structure Listed (s : State) : Prop where
  flagged : ∀ k, Flagged (s.msgque k)
  rwait : ∀ {k tid}, tid ∈ (s.msgque k).msgRwait →
    ∃ seq a smp spmp, s.threads tid = some ⟨k, seq, .rcv a smp spmp⟩
  wwait : ∀ {k tid}, tid ∈ (s.msgque k).msgWwait → ∃ seq a, s.threads tid = some ⟨k, seq, .snd a⟩
  nodup : ∀ k, (s.msgque k).msgRwait.Nodup ∧ (s.msgque k).msgWwait.Nodup
  unused : ∀ k, (s.msgque k).has IPC_ALLOC = false →
    (s.msgque k).msgRwait = [] ∧ (s.msgque k).msgWwait = []

/-- No thread sleeps while it could go on. -/
structure Awake (s : State) (tr : List Outcome) : Prop where
  snd : ∀ {k tid seq a}, tid ∈ (s.msgque k).msgWwait →
    s.threads tid = some ⟨k, seq, .snd a⟩ → ¬Fits (s.msgque k) a
  rcv : ∀ {k tid seq a smp spmp}, tid ∈ (s.msgque k).msgRwait →
    s.threads tid = some ⟨k, seq, .rcv a smp spmp⟩ → ∀ e ∈ pending k tr, ¬Accepts a e

/-- The thread is on no list. -/
def Free (s : State) (tid : Nat) : Prop :=
  ∀ j, tid ∉ (s.msgque j).msgRwait ∧ tid ∉ (s.msgque j).msgWwait

theorem Listed.free_of_none (h : Listed s) (hn : s.threads tid = none) : Free s tid := by
  intro j
  constructor
  · intro hm
    obtain ⟨seq, a, smp, spmp, ht⟩ := h.rwait hm
    rw [hn] at ht
    cases ht
  · intro hm
    obtain ⟨seq, a, ht⟩ := h.wwait hm
    rw [hn] at ht
    cases ht

theorem Listed.free_of_woken (h : Listed s) {w : Waiting} (ht : s.threads tid = some w)
    (hw : ¬MsqidDs.waits (s.msgque w.qid) tid = true) : Free s tid := by
  have hno : tid ∉ (s.msgque w.qid).msgRwait ∧ tid ∉ (s.msgque w.qid).msgWwait := by
    unfold MsqidDs.waits at hw
    rw [decide_eq_true_eq, not_or] at hw
    exact hw
  intro j
  constructor
  · intro hm
    obtain ⟨seq, a, smp, spmp, ht'⟩ := h.rwait hm
    rw [ht] at ht'
    cases ht'
    exact hno.1 hm
  · intro hm
    obtain ⟨seq, a, ht'⟩ := h.wwait hm
    rw [ht] at ht'
    cases ht'
    exact hno.2 hm

theorem settle_thread_ne (s : State) (k : Nat) (r : MsqidDs × Heap × Turn) {t : Nat}
    (h : t ≠ tid) : (settle s tid k r).1.threads t = s.threads t := by
  obtain ⟨qp, heap, turn⟩ := r
  cases turn <;> exact Function.update_of_ne h _ _

theorem settle_thread_sleep (s : State) (k : Nat) {r : MsqidDs × Heap × Turn} {w : Sleeper}
    (h : r.2.2 = .sleep w) :
    (settle s tid k r).1.threads tid = some ⟨k, r.1.msgPerm.seq, w⟩ := by
  obtain ⟨qp, heap, turn⟩ := r
  obtain rfl : turn = .sleep w := h
  exact Function.update_self _ _ _

variable {r : MsqidDs × Heap × Turn}

/-- The lists of the queue after a turn: the old sleepers or none, and the thread if it has gone
to sleep. -/
theorem Effect.lists (he : Effect tid qp r.1 r.2.2) :
    (r.1.msgRwait = qp.msgRwait ∧ r.1.has MSG_RWAIT = qp.has MSG_RWAIT ∨ r.1.msgRwait = [] ∨
      r.1.msgRwait = tid :: qp.msgRwait ∧ r.1.has MSG_RWAIT = true ∧
        ∃ a smp spmp, r.2.2 = .sleep (.rcv a smp spmp)) ∧
    (r.1.msgWwait = qp.msgWwait ∧ r.1.has MSG_WWAIT = qp.has MSG_WWAIT ∨ r.1.msgWwait = [] ∨
      r.1.msgWwait = tid :: qp.msgWwait ∧ r.1.has MSG_WWAIT = true ∧
        ∃ a, r.2.2 = .sleep (.snd a)) := by
  generalize ht : r.2.2 = t at he
  cases he with
  | still _ hr hw _ => exact ⟨.inl hr, .inl hw⟩
  | rcv _ hr hf hw _ => exact ⟨.inr (.inr ⟨hr, hf, _, _, _, rfl⟩), .inl hw⟩
  | snd _ hw hf hr _ => exact ⟨.inl hr, .inr (.inr ⟨hw, hf, _, rfl⟩)⟩
  | sent hr hw _ => exact ⟨.inr (.inl hr), .inl hw⟩
  | received hr hw _ => exact ⟨.inl hr, .inr (.inl hw)⟩
  | removed hr hw => exact ⟨.inr (.inl hr), .inr (.inl hw)⟩
  | set hr hw _ => exact ⟨.inl hr, .inl hw⟩

theorem Effect.unused (he : Effect tid qp r.1 r.2.2)
    (hu : qp.has IPC_ALLOC = false → qp.msgRwait = [] ∧ qp.msgWwait = [])
    (hk : qp.has IPC_ALLOC = true ∨ ∃ err, r.2.2 = .done (.failed err))
    (ha : r.1.has IPC_ALLOC = false) : r.1.msgRwait = [] ∧ r.1.msgWwait = [] := by
  have hsleep : ∀ {w}, r.2.2 = .sleep w → qp.has IPC_ALLOC = true := by
    intro w hw
    rcases hk with hk | ⟨err, hk⟩
    · exact hk
    · rw [hw] at hk
      cases hk
  generalize ht : r.2.2 = t at he hsleep
  cases he with
  | still _ hr hw hb =>
    obtain ⟨h1, h2⟩ := hu (hb.2.symm.trans ha)
    exact ⟨hr.1.trans h1, hw.1.trans h2⟩
  | rcv _ _ _ _ hb =>
    have := hb.2.symm.trans ha
    rw [hsleep rfl] at this
    cases this
  | snd _ _ _ _ hb =>
    have := hb.2.symm.trans ha
    rw [hsleep rfl] at this
    cases this
  | sent hr hw hb => exact ⟨hr, hw.1.trans (hu (hb.2.symm.trans ha)).2⟩
  | received hr hw hb => exact ⟨hr.1.trans (hu (hb.2.symm.trans ha)).1, hw⟩
  | removed hr hw => exact ⟨hr, hw⟩
  | set hr hw hb =>
    obtain ⟨h1, h2⟩ := hu (hb.symm.trans ha)
    exact ⟨hr.1.trans h1, hw.1.trans h2⟩

/-- The lists after a turn. -/
theorem Listed.settle (h : Listed s) (hfree : Free s tid) (he : Effect tid (s.msgque k) r.1 r.2.2)
    (hk : (s.msgque k).has IPC_ALLOC = true ∨ ∃ err, r.2.2 = .done (.failed err)) :
    Listed (settle s tid k r).1 := by
  obtain ⟨-, -, hque⟩ := settle_heap s tid k r
  have hne : ∀ {t}, t ≠ tid → (Calls.settle s tid k r).1.threads t = s.threads t :=
    settle_thread_ne s k r
  obtain ⟨hrl, hwl⟩ := he.lists
  have hfl := h.flagged k
  have hnd := h.nodup k
  have hf := hfree k
  refine ⟨fun j => ?_, fun {j t} hm => ?_, fun {j t} hm => ?_, fun j => ?_, fun j ha => ?_⟩
  · rw [hque]
    by_cases hj : j = k
    · subst hj
      rw [Function.update_self]
      refine ⟨fun hne => ?_, fun hne => ?_⟩
      · rcases hrl with ⟨h1, h2⟩ | h1 | ⟨-, h2, -⟩
        · exact h2.trans (hfl.rwait (h1 ▸ hne))
        · exact absurd h1 hne
        · exact h2
      · rcases hwl with ⟨h1, h2⟩ | h1 | ⟨-, h2, -⟩
        · exact h2.trans (hfl.wwait (h1 ▸ hne))
        · exact absurd h1 hne
        · exact h2
    · rw [Function.update_of_ne hj]
      exact h.flagged j
  · rw [hque] at hm
    have hold : ∀ {j}, t ∈ (s.msgque j).msgRwait →
        ∃ seq a smp spmp,
          (Calls.settle s tid k r).1.threads t = some ⟨j, seq, .rcv a smp spmp⟩ := by
      intro j hm
      rw [hne fun he => (hfree j).1 (he ▸ hm)]
      exact h.rwait hm
    by_cases hj : j = k
    · subst hj
      rw [Function.update_self] at hm
      rcases hrl with ⟨h1, -⟩ | h1 | ⟨h1, -, a, smp, spmp, ht⟩
      · exact hold (h1 ▸ hm)
      · rw [h1] at hm
        cases hm
      · rw [h1] at hm
        rcases List.mem_cons.mp hm with rfl | hm
        · exact ⟨_, a, smp, spmp, settle_thread_sleep s j ht⟩
        · exact hold hm
    · rw [Function.update_of_ne hj] at hm
      exact hold hm
  · rw [hque] at hm
    have hold : ∀ {j}, t ∈ (s.msgque j).msgWwait →
        ∃ seq a, (Calls.settle s tid k r).1.threads t = some ⟨j, seq, .snd a⟩ := by
      intro j hm
      rw [hne fun he => (hfree j).2 (he ▸ hm)]
      exact h.wwait hm
    by_cases hj : j = k
    · subst hj
      rw [Function.update_self] at hm
      rcases hwl with ⟨h1, -⟩ | h1 | ⟨h1, -, a, ht⟩
      · exact hold (h1 ▸ hm)
      · rw [h1] at hm
        cases hm
      · rw [h1] at hm
        rcases List.mem_cons.mp hm with rfl | hm
        · exact ⟨_, a, settle_thread_sleep s j ht⟩
        · exact hold hm
    · rw [Function.update_of_ne hj] at hm
      exact hold hm
  · rw [hque]
    by_cases hj : j = k
    · subst hj
      rw [Function.update_self]
      constructor
      · rcases hrl with ⟨h1, -⟩ | h1 | ⟨h1, -⟩ <;> rw [h1]
        · exact hnd.1
        · exact List.nodup_nil
        · exact List.nodup_cons.mpr ⟨hf.1, hnd.1⟩
      · rcases hwl with ⟨h1, -⟩ | h1 | ⟨h1, -⟩ <;> rw [h1]
        · exact hnd.2
        · exact List.nodup_nil
        · exact List.nodup_cons.mpr ⟨hf.2, hnd.2⟩
    · rw [Function.update_of_ne hj]
      exact h.nodup j
  · rw [hque] at ha ⊢
    by_cases hj : j = k
    · subst hj
      rw [Function.update_self] at ha ⊢
      exact he.unused (h.unused j) hk ha
    · rw [Function.update_of_ne hj] at ha ⊢
      exact h.unused j ha


theorem fits_of_grown {q' : List Entry} {heap' : Heap} {a : Snd} (hk : Kept qp heap q)
    (hk' : Kept qp' heap' q') (hb : qp'.msgQbytes = qp.msgQbytes) (hlen : q.length ≤ q'.length)
    (hbytes : bytes q ≤ bytes q') (h : Fits qp' a) : Fits qp a := by
  obtain ⟨h1, h2⟩ := h
  have hn := hk.qnum
  have hn' := hk'.qnum
  have hc := hk.cbytes
  have hc' := hk'.cbytes
  rw [hb] at h2
  exact ⟨by omega, by omega⟩

/-- A turn that leaves senders asleep gives them no room, unless it sets the limit. -/
theorem Effect.room (he : Effect tid qp r.1 r.2.2) (hk : Kept qp heap q)
    (ht : Turned k qp heap q r) : r.1.msgWwait = [] ∨ (∃ j, r.2.2 = .done (.set j)) ∨
      ∀ a, Fits r.1 a → Fits qp a := by
  have hk' := ht.kept
  generalize hturn : r.2.2 = t at he hk'
  cases he with
  | @still o hc _ _ hb =>
    have hsame : after q (outcome (.done o)) = q := after_of_changed hc
    rw [hsame] at hk'
    exact .inr (.inr fun a => fits_of_grown hk hk' hb.1 le_rfl le_rfl)
  | rcv _ _ _ _ hb => exact .inr (.inr fun a => fits_of_grown hk hk' hb.1 le_rfl le_rfl)
  | snd _ _ _ _ hb => exact .inr (.inr fun a => fits_of_grown hk hk' hb.1 le_rfl le_rfl)
  | sent _ _ hb =>
    refine .inr (.inr fun a => fits_of_grown hk hk' hb.1 ?_ ?_)
    · change q.length ≤ (q ++ [_]).length
      rw [List.length_append]
      exact Nat.le_add_right _ _
    · change bytes q ≤ bytes (q ++ [_])
      rw [bytes_append]
      exact Nat.le_add_right _ _
  | received _ hw _ => exact .inl hw
  | removed _ hw => exact .inl hw
  | set _ _ _ => exact .inr (.inl ⟨_, rfl⟩)

/-- A turn that leaves receivers asleep puts no message on the queue. -/
theorem Effect.pending (he : Effect tid qp r.1 r.2.2) :
    r.1.msgRwait = [] ∨ ∀ e ∈ after q (outcome r.2.2), e ∈ q := by
  generalize hturn : r.2.2 = t at he
  cases he with
  | @still o hc _ _ _ =>
    have hsame : after q (outcome (.done o)) = q := after_of_changed hc
    exact .inr fun e hm => hsame ▸ hm
  | rcv _ _ _ _ _ => exact .inr fun e hm => hm
  | snd _ _ _ _ _ => exact .inr fun e hm => hm
  | sent hr _ _ => exact .inl hr
  | received _ _ _ => exact .inr fun e hm => List.mem_of_mem_filter hm
  | removed hr _ => exact .inl hr
  | set _ _ _ => exact .inr fun e hm => hm

/-- No sleeper could go on after a turn. -/
theorem Awake.settle (h : Awake s tr) (hfree : Free s tid)
    (hkept : Kept (s.msgque k) s.heap (TypedFifo.pending k tr))
    (ht : Turned k (s.msgque k) s.heap (TypedFifo.pending k tr) r)
    (he : Effect tid (s.msgque k) r.1 r.2.2)
    (hset : ∀ j, r.2.2 = .done (.set j) → ∀ {t seq a}, t ∈ (s.msgque k).msgWwait →
      s.threads t = some ⟨k, seq, .snd a⟩ → ¬Fits r.1 a)
    (hrcv : ∀ a smp spmp, r.2.2 = .sleep (.rcv a smp spmp) →
      ∀ e ∈ TypedFifo.pending k tr, ¬Accepts a e) :
    Awake (settle s tid k r).1 (tr ++ [outcome r.2.2]) := by
  obtain ⟨-, -, hque⟩ := settle_heap s tid k r
  have hpend := pending_settle ht
  have hne : ∀ {t}, t ≠ tid → (Calls.settle s tid k r).1.threads t = s.threads t :=
    settle_thread_ne s k r
  obtain ⟨hrl, hwl⟩ := he.lists
  have hroom := he.room hkept ht
  have hin := he.pending (q := TypedFifo.pending k tr)
  refine ⟨fun {j t seq a} hm hth => ?_, fun {j t seq a smp spmp} hm hth e hm' => ?_⟩
  · rw [hque] at hm ⊢
    by_cases hj : j = k
    · subst hj
      rw [Function.update_self] at hm ⊢
      rcases hwl with ⟨h1, -⟩ | h1 | ⟨h1, -, b, hb⟩
      · rw [h1] at hm
        rw [hne fun he => (hfree j).2 (he ▸ hm)] at hth
        rcases hroom with h0 | ⟨i, hi⟩ | hmono
        · rw [← h1, h0] at hm
          cases hm
        · exact hset i hi hm hth
        · exact fun hfit => h.snd hm hth (hmono a hfit)
      · rw [h1] at hm
        cases hm
      · have hsame : ∀ a, Fits r.1 a → Fits (s.msgque j) a := by
          rcases hroom with h0 | ⟨i, hi⟩ | hmono
          · rw [h1] at h0
            cases h0
          · rw [hb] at hi
            cases hi
          · exact hmono
        rw [h1] at hm
        rcases List.mem_cons.mp hm with rfl | hm
        · rw [settle_thread_sleep s j hb] at hth
          cases hth
          generalize r.2.2 = turn at he hb
          subst hb
          cases he with
          | snd ha _ _ _ _ => exact fun hfit => ha (hsame _ hfit)
        · rw [hne fun he => (hfree j).2 (he ▸ hm)] at hth
          exact fun hfit => h.snd hm hth (hsame a hfit)
    · rw [Function.update_of_ne hj] at hm ⊢
      rw [hne fun he => (hfree j).2 (he ▸ hm)] at hth
      exact h.snd hm hth
  · rw [hque] at hm
    rw [hpend] at hm'
    by_cases hj : j = k
    · subst hj
      rw [Function.update_self] at hm
      rw [if_pos rfl] at hm'
      have hold : e ∈ TypedFifo.pending j tr := by
        rcases hin with h0 | hsub
        · rw [h0] at hm
          cases hm
        · exact hsub e hm'
      rcases hrl with ⟨h1, -⟩ | h1 | ⟨h1, -, b, smp', spmp', hb⟩
      · rw [h1] at hm
        rw [hne fun he => (hfree j).1 (he ▸ hm)] at hth
        exact h.rcv hm hth e hold
      · rw [h1] at hm
        cases hm
      · rw [h1] at hm
        rcases List.mem_cons.mp hm with rfl | hm
        · rw [settle_thread_sleep s j hb] at hth
          cases hth
          exact hrcv a smp spmp hb e hold
        · rw [hne fun he => (hfree j).1 (he ▸ hm)] at hth
          exact h.rcv hm hth e hold
    · rw [Function.update_of_ne hj] at hm
      rw [if_neg hj] at hm'
      rw [hne fun he => (hfree j).1 (he ▸ hm)] at hth
      exact h.rcv hm hth e hm'


/-! ## Every step -/

/-- The queue and the limit of an `IPC_SET` that is done. -/
def sets (s : State) : Event → Option (Nat × UInt16)
  | .call tid env (.msgctl id cmd dsp) =>
    match s.threads tid, msgconv s id with
    | none, some k =>
      if cmd = 1 ∧ owns env.toCred (s.msgque k).msgPerm .setObjDac ∧
          (dsp.msgQbytes > (s.msgque k).msgQbytes → env.priv .setObjStat) then
        some (k, dsp.msgQbytes)
      else none
    | _, _ => none
  | _ => none

/-- An `IPC_SET` gives no sleeping sender room, and a receive that would sleep with the lowest value
for its type finds an empty queue. -/
structure Quiet (s : State) (e : Event) : Prop where
  set : ∀ k n, sets s e = some (k, n) → ∀ tid ∈ (s.msgque k).msgWwait, ∀ seq a,
    s.threads tid = some ⟨k, seq, .snd a⟩ → ¬Fits { s.msgque k with msgQbytes := n } a
  lowest : ∀ k a, looks s e = some (k, a) → a.msgtyp = Int32.minValue →
    isSet a.msgflg IPC_NOWAIT = false → (s.msgque k).msgFirst = 0

/-- What is kept from step to step. -/
structure Sound (s : State) (tr : List Outcome) : Prop where
  inv : Inv s tr
  listed : Listed s
  awake : Awake s tr

theorem awake_same (h : Awake s tr) (hc : changed o = none) : Awake s (tr ++ [o]) := by
  refine ⟨h.snd, fun {k tid seq a smp spmp} hm ht e he => ?_⟩
  rw [pending_of_changed hc] at he
  exact h.rcv hm ht e he

theorem step_turn {k : Nat} (hi : Inv s tr) (hl : Listed s) (ha : Awake s tr) (hfree : Free s tid)
    (hs : step s e = settle s tid k r)
    (ht : Turned k (s.msgque k) s.heap (pending k tr) r)
    (he : Effect tid (s.msgque k) r.1 r.2.2)
    (hk : (s.msgque k).has IPC_ALLOC = true ∨ ∃ err, r.2.2 = .done (.failed err))
    (hset : ∀ j, r.2.2 = .done (.set j) → ∀ {t seq a}, t ∈ (s.msgque k).msgWwait →
      s.threads t = some ⟨k, seq, .snd a⟩ → ¬Fits r.1 a)
    (hrcv : ∀ a smp spmp, r.2.2 = .sleep (.rcv a smp spmp) →
      ∀ e ∈ pending k tr, ¬Accepts a e) :
    Listed (step s e).1 ∧ Awake (step s e).1 (tr ++ [(step s e).2]) := by
  rw [hs, settle_outcome]
  exact ⟨hl.settle hfree he hk, ha.settle hfree (hi.kept k) ht he hset hrcv⟩

/-- A receive that goes to sleep has found nothing that it accepts. -/
theorem rcvLoop_sleeps {a b : Rcv} {smp spmp : Nat} (hk : Kept qp heap q) (ha : 0 ≤ a.msgsz)
    (hlow : a.msgtyp = Int32.minValue → isSet a.msgflg IPC_NOWAIT = false → qp.msgFirst = 0)
    (hf : Flagged qp) (hs : (rcvLoop env tid k a 0 0 qp heap).2.2 = .sleep (.rcv b smp spmp)) :
    ∀ e ∈ q, ¬Accepts b e := by
  have hab : b = a := by
    rcases rcvLoop_turn env tid k a 0 0 qp heap with ht | ⟨_, ht⟩ | ⟨_, _, ht⟩ | ⟨_, _, _, ht⟩ <;>
      rw [ht] at hs <;> cases hs
    rfl
  subst hab
  have hno : isSet b.msgflg IPC_NOWAIT = false := by
    have he : Effect tid qp (rcvLoop env tid k b 0 0 qp heap).1
        (rcvLoop env tid k b 0 0 qp heap).2.2 := rcvLoop_effect hf env k b 0 0 heap
    rw [hs] at he
    cases he with
    | rcv ha _ _ _ _ => exact ha
  have hserved := (rcvLoop_spec env tid k hk ha).2.mpr fun hm => hlow hm hno
  rw [hs] at hserved
  intro e he hacc
  obtain ⟨y, hy⟩ := exists_due he hacc
  exact hserved y hy

theorem step_rmsgget {key : Int} {flag : BitVec 32} (hl : Listed s) (ha : Awake s tr)
    (hs : step s e = rmsgget s env key flag) :
    Listed (step s e).1 ∧ Awake (step s e).1 (tr ++ [(step s e).2]) := by
  unfold rmsgget at hs
  rw [hs]
  cases hg : ipcget (fun i => (s.msgque i).msgPerm) s.msgMark msgmni key flag with
  | error err => exact ⟨hl, awake_same ha rfl⟩
  | ok r =>
    obtain ⟨k, new⟩ := r
    cases new with
    | false => exact ⟨hl, awake_same ha rfl⟩
    | true =>
      refine ⟨⟨fun j => ?_, fun {j t} hm => ?_, fun {j t} hm => ?_, fun j => ?_, fun j hu => ?_⟩,
        fun {j t seq a} hm hth => ?_, fun {j t seq a smp spmp} hm hth e he => ?_⟩
      all_goals by_cases hj : j = k
      · subst hj
        simp only [Function.update_self]
        exact ⟨fun hne => absurd rfl hne, fun hne => absurd rfl hne⟩
      · simp only [Function.update_of_ne hj]
        exact hl.flagged j
      · subst hj
        simp only [Function.update_self] at hm
        cases hm
      · simp only [Function.update_of_ne hj] at hm
        exact hl.rwait hm
      · subst hj
        simp only [Function.update_self] at hm
        cases hm
      · simp only [Function.update_of_ne hj] at hm
        exact hl.wwait hm
      · subst hj
        simp only [Function.update_self]
        exact ⟨List.nodup_nil, List.nodup_nil⟩
      · simp only [Function.update_of_ne hj]
        exact hl.nodup j
      · subst hj
        simp only [Function.update_self]
        exact ⟨rfl, rfl⟩
      · simp only [Function.update_of_ne hj] at hu ⊢
        exact hl.unused j hu
      · subst hj
        simp only [Function.update_self] at hm
        cases hm
      · simp only [Function.update_of_ne hj] at hm ⊢
        exact ha.snd hm hth
      · subst hj
        simp only [Function.update_self] at hm
        cases hm
      · simp only [Function.update_of_ne hj] at hm
        rw [pending_of_changed rfl] at he
        exact ha.rcv hm hth e he


theorem step_same (hl : Listed s) (ha : Awake s tr) (hs : step s e = (s, o))
    (hc : changed o = none) :
    Listed (step s e).1 ∧ Awake (step s e).1 (tr ++ [(step s e).2]) := by
  rw [hs]
  exact ⟨hl, awake_same ha hc⟩

/-- A signal takes a thread from its list. -/
theorem step_signal {w : Waiting} (hl : Listed s) (ha : Awake s tr)
    (hth : s.threads tid = some w)
    (hs : step s e = settle s tid w.qid
      ({ s.msgque w.qid with
          msgRwait := (s.msgque w.qid).msgRwait.erase tid
          msgWwait := (s.msgque w.qid).msgWwait.erase tid }, s.heap, .done (.failed .eintr))) :
    Listed (step s e).1 ∧ Awake (step s e).1 (tr ++ [(step s e).2]) := by
  obtain ⟨k, seq, call⟩ := w
  generalize hr : (({ s.msgque k with
      msgRwait := (s.msgque k).msgRwait.erase tid
      msgWwait := (s.msgque k).msgWwait.erase tid }, s.heap, .done (.failed .eintr)) :
    MsqidDs × Heap × Turn) = r at hs
  have hdone : r.2.2 = .done (.failed .eintr) := by rw [← hr]
  obtain ⟨-, -, hque⟩ := settle_heap s tid k r
  have hout : (step s e).2 = .failed .eintr := by rw [hs, settle_outcome, hdone]; rfl
  have hst : (step s e).1 = (settle s tid k r).1 := by rw [hs]
  have hne : ∀ {t}, t ≠ tid → (settle s tid k r).1.threads t = s.threads t :=
    settle_thread_ne s k r
  -- who is still on a list was there before, and is another thread
  have hold : ∀ {j t}, (t ∈ ((settle s tid k r).1.msgque j).msgRwait →
      t ∈ (s.msgque j).msgRwait ∧ t ≠ tid) ∧
      (t ∈ ((settle s tid k r).1.msgque j).msgWwait → t ∈ (s.msgque j).msgWwait ∧ t ≠ tid) := by
    intro j t
    rw [hque]
    by_cases hj : j = k
    · subst hj
      rw [Function.update_self, ← hr]
      exact ⟨fun hm => ⟨List.mem_of_mem_erase hm, ((hl.nodup j).1.mem_erase_iff.mp hm).1⟩,
        fun hm => ⟨List.mem_of_mem_erase hm, ((hl.nodup j).2.mem_erase_iff.mp hm).1⟩⟩
    · rw [Function.update_of_ne hj]
      refine ⟨fun hm => ⟨hm, ?_⟩, fun hm => ⟨hm, ?_⟩⟩
      · rintro rfl
        obtain ⟨_, _, _, _, hw⟩ := hl.rwait hm
        rw [hth] at hw
        cases hw
        exact hj rfl
      · rintro rfl
        obtain ⟨_, _, hw⟩ := hl.wwait hm
        rw [hth] at hw
        cases hw
        exact hj rfl
  have hdata : ∀ j, ((settle s tid k r).1.msgque j).msgPerm = (s.msgque j).msgPerm ∧
      ∀ a, Fits ((settle s tid k r).1.msgque j) a ↔ Fits (s.msgque j) a := by
    intro j
    rw [hque]
    by_cases hj : j = k
    · subst hj
      rw [Function.update_self, ← hr]
      exact ⟨rfl, fun _ => Iff.rfl⟩
    · rw [Function.update_of_ne hj]
      exact ⟨rfl, fun _ => Iff.rfl⟩
  have hhas : ∀ j bits, ((settle s tid k r).1.msgque j).has bits = (s.msgque j).has bits := by
    intro j bits
    rw [MsqidDs.has, MsqidDs.has, (hdata j).1]
  rw [hst, hout]
  refine ⟨⟨fun j => ⟨fun hn => ?_, fun hn => ?_⟩, fun hm => ?_, fun hm => ?_, fun j => ?_,
    fun j hu => ?_⟩, fun hm ht => ?_, fun hm ht e he => ?_⟩
  · obtain ⟨t, ht⟩ := List.exists_mem_of_ne_nil _ hn
    exact (hhas j _).trans ((hl.flagged j).rwait (List.ne_nil_of_mem (hold.1 ht).1))
  · obtain ⟨t, ht⟩ := List.exists_mem_of_ne_nil _ hn
    exact (hhas j _).trans ((hl.flagged j).wwait (List.ne_nil_of_mem (hold.2 ht).1))
  · obtain ⟨hm, htid⟩ := hold.1 hm
    rw [hne htid]
    exact hl.rwait hm
  · obtain ⟨hm, htid⟩ := hold.2 hm
    rw [hne htid]
    exact hl.wwait hm
  · rw [hque]
    by_cases hj : j = k
    · subst hj
      rw [Function.update_self, ← hr]
      exact ⟨(hl.nodup j).1.erase tid, (hl.nodup j).2.erase tid⟩
    · rw [Function.update_of_ne hj]
      exact hl.nodup j
  · rw [hhas] at hu
    obtain ⟨h1, h2⟩ := hl.unused j hu
    refine ⟨List.eq_nil_iff_forall_not_mem.mpr fun t ht => ?_,
      List.eq_nil_iff_forall_not_mem.mpr fun t ht => ?_⟩
    · have := (hold.1 ht).1
      rw [h1] at this
      cases this
    · have := (hold.2 ht).1
      rw [h2] at this
      cases this
  · obtain ⟨hm, htid⟩ := hold.2 hm
    rw [hne htid] at ht
    exact fun hfit => ha.snd hm ht (((hdata _).2 _).mp hfit)
  · obtain ⟨hm, htid⟩ := hold.1 hm
    rw [hne htid] at ht
    rw [pending_of_changed rfl] at he
    exact ha.rcv hm ht e he


/-- When a control call sets the limit. -/
theorem rmsgctl_set {cmd : Int} {dsp : Dsp} {j : Nat}
    (h : (rmsgctl env k cmd dsp qp heap).2.2 = .done (.set j)) :
    cmd = 1 ∧ owns env.toCred qp.msgPerm .setObjDac ∧
      (dsp.msgQbytes > qp.msgQbytes → env.priv .setObjStat) ∧
      ∀ a, Fits (rmsgctl env k cmd dsp qp heap).1 a ↔
        Fits { qp with msgQbytes := dsp.msgQbytes } a := by
  unfold rmsgctl at h ⊢
  split at h
  next =>
    split at h
    next => cases h
    next => split at h <;> cases h
  next h0 =>
    split at h
    next h1 =>
      split at h
      next => cases h
      next how =>
        split at h
        next => cases h
        next hup =>
          rw [if_neg h0, if_pos h1, if_neg how, if_neg hup]
          refine ⟨h1, by simpa using how, fun hgt => ?_, fun _ => Iff.rfl⟩
          by_contra hpriv
          exact hup ⟨hgt, Bool.eq_false_iff.mpr hpriv⟩
    next =>
      split at h
      next => split at h <;> cases h
      next => cases h

theorem rmsgctl_sleep {cmd : Int} {dsp : Dsp} {w : Sleeper} :
    (rmsgctl env k cmd dsp qp heap).2.2 ≠ .sleep w := by
  intro h
  unfold rmsgctl at h
  split at h
  next =>
    split at h
    next => cases h
    next => split at h <;> cases h
  next => split_ifs at h

/-- A turn in the loop of a send. -/
theorem step_send {a : Snd} (hi : Inv s tr) (hl : Listed s) (ha : Awake s tr) (hfree : Free s tid)
    (hk : (s.msgque k).has IPC_ALLOC = true) (hc : 0 ≤ a.cnt) (hmax : a.cnt ≤ msgmax)
    (hs : step s e = settle s tid k (sndLoop env tid k a (s.msgque k) s.heap)) :
    Listed (step s e).1 ∧ Awake (step s e).1 (tr ++ [(step s e).2]) := by
  have hturn := sndLoop_turn env tid k a (s.msgque k) s.heap
  refine step_turn hi hl ha hfree hs (turned_sndLoop (hi.kept k) hc hmax)
    (sndLoop_effect (hl.flagged k) env k a s.heap) (.inl hk) (fun j hj => ?_)
    (fun b smp spmp hb => ?_)
  · rcases hturn with ⟨_, ht⟩ | ht | ⟨_, _, _, ht⟩ <;> rw [ht] at hj <;> cases hj
  · rcases hturn with ⟨_, ht⟩ | ht | ⟨_, _, _, ht⟩ <;> rw [ht] at hb <;> cases hb

/-- A turn in the loop of a receive. -/
theorem step_receive {a : Rcv} (hi : Inv s tr) (hl : Listed s) (ha : Awake s tr)
    (hfree : Free s tid) (hk : (s.msgque k).has IPC_ALLOC = true) (hsz : 0 ≤ a.msgsz)
    (hq : Quiet s e) (hlooks : looks s e = some (k, a))
    (hs : step s e = settle s tid k (rcvLoop env tid k a 0 0 (s.msgque k) s.heap)) :
    Listed (step s e).1 ∧ Awake (step s e).1 (tr ++ [(step s e).2]) := by
  have hturn := rcvLoop_turn env tid k a 0 0 (s.msgque k) s.heap
  refine step_turn hi hl ha hfree hs (rcvLoop_spec env tid k (hi.kept k) hsz).1
    (rcvLoop_effect (hl.flagged k) env k a 0 0 s.heap) (.inl hk) (fun j hj => ?_)
    (fun b smp spmp hb => ?_)
  · rcases hturn with ht | ⟨_, ht⟩ | ⟨_, _, ht⟩ | ⟨_, _, _, ht⟩ <;> rw [ht] at hj <;> cases hj
  · exact rcvLoop_sleeps (hi.kept k) hsz (hq.lowest k a hlooks) (hl.flagged k) hb

/-- A call that fails before its loop. -/
theorem step_failed {err : Errno} (hi : Inv s tr) (hl : Listed s) (ha : Awake s tr)
    (hfree : Free s tid)
    (hs : step s e = settle s tid k (s.msgque k, s.heap, .done (.failed err))) :
    Listed (step s e).1 ∧ Awake (step s e).1 (tr ++ [(step s e).2]) :=
  step_turn hi hl ha hfree hs (turned_failed (hi.kept k)) effect_failed (.inr ⟨err, rfl⟩)
    (fun _ hj => by cases hj) (fun _ _ _ hb => by cases hb)

theorem step_call (hi : Inv s tr) (hl : Listed s) (ha : Awake s tr) (tid : Nat) (env : Env)
    (c : Call) (hq : Quiet s (.call tid env c)) :
    Listed (step s (.call tid env c)).1 ∧
      Awake (step s (.call tid env c)).1 (tr ++ [(step s (.call tid env c)).2]) := by
  cases hth : s.threads tid with
  | some w =>
    have hs : step s (.call tid env c) = (s, .idle) := by simp [step, hth]
    exact step_same hl ha hs rfl
  | none =>
    have hfree := hl.free_of_none hth
    have hs : step s (.call tid env c) = begin s tid env c := by simp [step, hth]
    cases c with
    | msgget key flag => exact step_rmsgget hl ha hs
    | msgsnd id a =>
      cases hid : msgconv s id with
      | none =>
        have hfail : step s (.call tid env (.msgsnd id a)) = (s, .failed .einval) :=
          hs.trans (by simp [begin, hid])
        exact step_same hl ha hfail rfl
      | some k =>
        have hset : step s (.call tid env (.msgsnd id a)) =
            settle s tid k (rmsgsnd env tid k a (s.msgque k) s.heap) :=
          hs.trans (by simp [begin, hid])
        unfold rmsgsnd at hset
        by_cases hacc : ipcaccess env.toCred (s.msgque k).msgPerm IPC_W = false
        · rw [if_pos hacc] at hset
          exact step_failed hi hl ha hfree hset
        rw [if_neg hacc] at hset
        by_cases hc : a.cnt < 0 ∨ a.cnt > msgmax
        · rw [if_pos hc] at hset
          exact step_failed hi hl ha hfree hset
        · rw [if_neg hc] at hset
          exact step_send hi hl ha hfree (msgconv_eq hid) (by omega) (by omega) hset
    | msgrcv id a =>
      cases hid : msgconv s id with
      | none =>
        have hfail : step s (.call tid env (.msgrcv id a)) = (s, .failed .einval) :=
          hs.trans (by simp [begin, hid])
        exact step_same hl ha hfail rfl
      | some k =>
        have hset : step s (.call tid env (.msgrcv id a)) =
            settle s tid k (rmsgrcv env tid k a (s.msgque k) s.heap) :=
          hs.trans (by simp [begin, hid])
        unfold rmsgrcv at hset
        by_cases hacc : ipcaccess env.toCred (s.msgque k).msgPerm IPC_R = false
        · rw [if_pos hacc] at hset
          exact step_failed hi hl ha hfree hset
        rw [if_neg hacc] at hset
        by_cases hsz : a.msgsz < 0
        · rw [if_pos hsz] at hset
          exact step_failed hi hl ha hfree hset
        · rw [if_neg hsz] at hset
          have hb : ipcaccess env.toCred (s.msgque k).msgPerm IPC_R = true := by simpa using hacc
          exact step_receive hi hl ha hfree (msgconv_eq hid) (not_lt.mp hsz) hq
            (by simp [looks, hth, hid, hb, not_lt.mp hsz]) hset
    | msgctl id cmd dsp =>
      cases hid : msgconv s id with
      | none =>
        have hfail : step s (.call tid env (.msgctl id cmd dsp)) = (s, .failed .einval) :=
          hs.trans (by simp [begin, hid])
        exact step_same hl ha hfail rfl
      | some k =>
        have hset : step s (.call tid env (.msgctl id cmd dsp)) =
            settle s tid k (rmsgctl env k cmd dsp (s.msgque k) s.heap) :=
          hs.trans (by simp [begin, hid])
        refine step_turn hi hl ha hfree hset (turned_rmsgctl (hi.kept k))
          (rmsgctl_effect (hl.flagged k) env k cmd dsp s.heap) (.inl (msgconv_eq hid))
          (fun j hj t seq a hm ht hfit => ?_) (fun _ _ _ hb => absurd hb rmsgctl_sleep)
        obtain ⟨h1, h2, h3, h4⟩ := rmsgctl_set hj
        refine hq.set k dsp.msgQbytes ?_ t hm seq a ht ((h4 a).mp hfit)
        simp only [sets, hth, hid]
        exact if_pos ⟨h1, h2, h3⟩

theorem step_resume (hi : Inv s tr) (hl : Listed s) (ha : Awake s tr) (tid : Nat) (env : Env)
    (signal : Bool) (hq : Quiet s (.resume tid env signal)) :
    Listed (step s (.resume tid env signal)).1 ∧
      Awake (step s (.resume tid env signal)).1
        (tr ++ [(step s (.resume tid env signal)).2]) := by
  have hs : step s (.resume tid env signal) = resume s tid env signal := rfl
  unfold resume at hs
  cases hth : s.threads tid with
  | none =>
    rw [hth] at hs
    exact step_same hl ha hs rfl
  | some w =>
    rw [hth] at hs
    simp only at hs
    cases signal with
    | true => exact step_signal hl ha hth hs
    | false =>
      rw [if_neg (by simp)] at hs
      by_cases hw : MsqidDs.waits (s.msgque w.qid) tid = true
      · rw [if_pos hw] at hs
        exact step_same hl ha hs rfl
      rw [if_neg hw] at hs
      have hfree := hl.free_of_woken hth hw
      obtain ⟨k, seq, call⟩ := w
      by_cases hid : (s.msgque k).has IPC_ALLOC = false ∨ seq ≠ (s.msgque k).msgPerm.seq
      · rw [if_pos hid] at hs
        exact step_failed hi hl ha hfree hs
      · rw [if_neg hid] at hs
        obtain ⟨hal, hsq⟩ := not_or.mp hid
        have hal' : (s.msgque k).has IPC_ALLOC = true := by simpa using hal
        cases call with
        | snd a =>
          obtain ⟨hc, hmax⟩ : Good (.snd a) := hi.good tid _ hth
          exact step_send hi hl ha hfree hal' hc hmax hs
        | rcv a smp spmp =>
          obtain ⟨hsz, rfl, rfl⟩ : Good (.rcv a smp spmp) := hi.good tid _ hth
          exact step_receive hi hl ha hfree hal' hsz hq
            (by simp [looks, hth, hw, hal', not_not.mp hsq]) hs

/-! ## Every run -/

/-- The state and the ends of the calls after the events. -/
def run (s : State) (tr : List Outcome) : List Event → State × List Outcome
  | [] => (s, tr)
  | e :: es => run (step s e).1 (tr ++ [(step s e).2]) es

def AllQuiet (s : State) : List Event → Prop
  | [] => True
  | e :: es => Quiet s e ∧ AllQuiet (step s e).1 es

theorem run_awake (hi : Inv s tr) (hl : Listed s) (ha : Awake s tr) (es : List Event)
    (hq : AllQuiet s es) :
    Inv (run s tr es).1 (run s tr es).2 ∧ Listed (run s tr es).1 ∧
      Awake (run s tr es).1 (run s tr es).2 := by
  induction es generalizing s tr with
  | nil => exact ⟨hi, hl, ha⟩
  | cons e es ih =>
    have hstep : Listed (step s e).1 ∧ Awake (step s e).1 (tr ++ [(step s e).2]) := by
      cases e with
      | call tid env c => exact step_call hi hl ha tid env c hq.1
      | resume tid env signal => exact step_resume hi hl ha tid env signal hq.1
    exact ih (step_spec hi e).1 hstep.1 hstep.2 hq.2

theorem listed_boot : Listed boot where
  flagged := fun _ => ⟨fun hne => absurd rfl hne, fun hne => absurd rfl hne⟩
  rwait := fun hm => absurd hm List.not_mem_nil
  wwait := fun hm => absurd hm List.not_mem_nil
  nodup := fun _ => ⟨List.nodup_nil, List.nodup_nil⟩
  unused := fun _ _ => ⟨rfl, rfl⟩

theorem awake_boot : Awake boot [] where
  snd := fun hm => absurd hm List.not_mem_nil
  rcv := fun hm => absurd hm List.not_mem_nil

/-- In every run whose steps are quiet no sender sleeps while its message fits, no receiver while a
message that it accepts is queued, and no thread on a queue that has been removed. -/
theorem no_lost_message_wakeup (es : List Event) (hq : AllQuiet boot es) :
    let s := (run boot [] es).1
    let tr := (run boot [] es).2
    (∀ k, Holds (s.msgque k) s.heap (pending k tr)) ∧ Awake s tr ∧
      ∀ k, (s.msgque k).has IPC_ALLOC = false →
        (s.msgque k).msgRwait = [] ∧ (s.msgque k).msgWwait = [] := by
  obtain ⟨hi, hl, ha⟩ := run_awake inv_boot listed_boot awake_boot es hq
  exact ⟨fun k => (hi.kept k).toHolds, ha, hl.unused⟩


/-- A receiver that sleeps is woken by the message. -/
theorem no_lost_message_wakeup_sent :
    let es : List Event :=
      [.call 1 root (.msgget 0 0), .call 2 root (.msgrcv 0 ⟨1, 0, 0, false, false⟩),
        .call 1 root (.msgsnd 0 ⟨1, 0, false⟩)]
    Awake (run boot [] es).1 (run boot [] es).2 ∧
      ((run boot [] es).1.msgque 0).msgRwait = [] ∧ ((run boot [] es).1.threads 2).isSome := by
  intro es
  refine ⟨(no_lost_message_wakeup es (And.intro ⟨nofun, nofun⟩ (And.intro
    ⟨nofun, fun k a hl hmin => ?_⟩ (And.intro ⟨nofun, nofun⟩ trivial)))).2.1, by decide +kernel,
    by decide +kernel⟩
  have hlooks : looks (step boot (.call 1 root (.msgget 0 0))).1
      (.call 2 root (.msgrcv 0 ⟨1, 0, 0, false, false⟩)) =
        some (0, ⟨1, 0, 0, false, false⟩) := by decide +kernel
  rw [hlooks] at hl
  cases hl
  exact absurd hmin (by decide)

/-- A send that sleeps because of the limit is not woken when `IPC_SET` raises it. -/
theorem lost_message_wakeup : ¬∀ es : List Event, Awake (run boot [] es).1 (run boot [] es).2 := by
  intro h
  have ha := h
    [.call 1 root (.msgget 0 0),
      .call 1 root (.msgctl 0 1 ⟨0, 0, 0o777, 1⟩),
      .call 1 root (.msgsnd 0 ⟨1, 0, false⟩),
      .call 2 { root with xmalloc := 2 } (.msgsnd 0 ⟨1, 0, false⟩),
      .call 1 root (.msgctl 0 1 ⟨0, 0, 0o777, 65535⟩)]
  have hsnd := ha.snd (k := 0) (a := ⟨1, 0, false⟩) (show 2 ∈ _ by decide +kernel) rfl
  refine hsnd ?_
  unfold Fits
  decide +kernel

end Aix413.Message.Wakeups
