import Aix413.Message.Selection

namespace Aix413.Message.Turns

open Lib.LinkedPool Lib.TypedQueue Ipc.Access Queues Calls Contents Selection

/-- The messages left on the queue when a call has ended so. -/
def after (q : List Entry) : Outcome → List Entry
  | .sent _ mp attr text => q ++ [⟨mp, attr, text⟩]
  | .received _ mp _ _ => q.filter fun e => e.mp ≠ mp
  | .removed _ => []
  | _ => q

/-- The queue whose messages the end of a call has changed. -/
def changed : Outcome → Option Nat
  | .sent k _ _ _ => some k
  | .received k _ _ _ => some k
  | .removed k => some k
  | _ => none

def outcome : Turn → Outcome
  | .done o => o
  | .sleep _ => .asleep

/-- What a sleeping call keeps. The loop of `rmsgrcv` has not found a message. -/
def Good : Sleeper → Prop
  | .snd a => 0 ≤ a.cnt ∧ a.cnt ≤ msgmax
  | .rcv a smp spmp => 0 ≤ a.msgsz ∧ smp = 0 ∧ spmp = 0

/-- A queue in order, within its limits. -/
structure Kept (qp : MsqidDs) (heap : Heap) (q : List Entry) : Prop extends Holds qp heap q where
  type_pos : ∀ e ∈ q, 1 ≤ e.type
  room : q.length ≤ msgmnm

/-- The queue but for the threads that wait and the flags that say so. -/
def data (qp : MsqidDs) : MsqidDs :=
  { qp.setMode (qp.msgPerm.mode ||| MSG_RWAIT ||| MSG_WWAIT) with msgRwait := [], msgWwait := [] }

/-- The queue but for the threads that wait. -/
def still (qp : MsqidDs) : MsqidDs := { qp with msgRwait := [], msgWwait := [] }

/-- What one turn does to a queue and to the blocks. -/
structure Turned (k : Nat) (qp : MsqidDs) (heap : Heap) (q : List Entry)
    (r : MsqidDs × Heap × Turn) : Prop where
  kept : Kept r.1 r.2.1 (after q (outcome r.2.2))
  frame : ∀ b, b ∉ blocks q → (heap b).isSome → r.2.1 b = heap b
  blocks : ∀ b ∈ blocks (after q (outcome r.2.2)), b ∈ blocks q ∨ heap b = none
  changed : ∀ j ∈ changed (outcome r.2.2), j = k
  alloc : r.1.has IPC_ALLOC = qp.has IPC_ALLOC ∨
    after q (outcome r.2.2) = [] ∧ r.1.has IPC_ALLOC = false
  good : ∀ w, r.2.2 = .sleep w → Good w
  failed : ∀ err, outcome r.2.2 = .failed err → still r.1 = still qp ∧ r.2.1 = heap
  asleep : outcome r.2.2 = .asleep → data r.1 = data qp ∧ r.2.1 = heap
  wild : outcome r.2.2 ≠ .wild

variable {env : Env} {tid k : Nat} {qp qp' : MsqidDs} {heap : Heap} {q q₁ q₂ : List Entry}
  {e : Entry} {err : Errno}

/-- A turn that changes no message, no block and none of the counts. -/
theorem Kept.fields (h : Kept qp heap q) (hf : qp'.msgFirst = qp.msgFirst)
    (hl : qp'.msgLast = qp.msgLast) (hn : qp'.msgQnum = qp.msgQnum)
    (hb : qp'.msgCbytes = qp.msgCbytes) : Kept qp' heap q :=
  ⟨⟨h.toQueued.fields hf hl hn, hb ▸ h.cbytes⟩, h.type_pos, h.room⟩

theorem turned_of_kept {t : Turn} (h : Kept qp' heap q) (hafter : after q (outcome t) = q)
    (hch : changed (outcome t) = none) (ha : qp'.has IPC_ALLOC = qp.has IPC_ALLOC)
    (hgood : ∀ w, t = .sleep w → Good w)
    (hfail : ∀ err, outcome t = .failed err → still qp' = still qp)
    (hsleep : outcome t = .asleep → data qp' = data qp) (hwild : outcome t ≠ .wild) :
    Turned k qp heap q (qp', heap, t) where
  kept := hafter.symm ▸ h
  frame := fun _ _ _ => rfl
  blocks := fun b hb => .inl (hafter ▸ hb)
  changed := fun j hj => by rw [hch] at hj; cases hj
  alloc := .inl ha
  good := hgood
  failed := fun err he => ⟨hfail err he, rfl⟩
  asleep := fun he => ⟨hsleep he, rfl⟩
  wild := hwild

theorem turned_failed (h : Kept qp heap q) : Turned k qp heap q (qp, heap, .done (.failed err)) :=
  turned_of_kept h rfl rfl rfl (fun _ hw => by cases hw) (fun _ _ => rfl) (fun _ => rfl)
    (fun ho => by cases ho)

/-- Going to sleep sets a flag. -/
theorem turned_sleep {bits : BitVec 32} {rwait wwait : List Nat} {w : Sleeper}
    (h : Kept qp heap q) (hw : Good w) (hb : bits = MSG_RWAIT ∨ bits = MSG_WWAIT) :
    Turned k qp heap q
      ({ qp.setMode (qp.msgPerm.mode ||| bits) with msgRwait := rwait, msgWwait := wwait }, heap,
        .sleep w) := by
  refine turned_of_kept (h.fields rfl rfl rfl rfl) rfl rfl ?_ ?_ (fun _ he => by cases he) ?_
    (fun ho => by cases ho)
  · refine isSet_or ?_
    rcases hb with rfl | rfl <;> decide
  · rintro w' he
    cases he
    exact hw
  · intro _
    have hor : qp.msgPerm.mode ||| bits ||| MSG_RWAIT ||| MSG_WWAIT
        = qp.msgPerm.mode ||| MSG_RWAIT ||| MSG_WWAIT := by
      have hm : bits ||| MSG_RWAIT ||| MSG_WWAIT = MSG_RWAIT ||| MSG_WWAIT := by
        rcases hb with rfl | rfl <;> decide
      rw [BitVec.or_assoc qp.msgPerm.mode, BitVec.or_assoc qp.msgPerm.mode, hm, ← BitVec.or_assoc]
    simp only [data, MsqidDs.setMode, hor]

theorem filter_block (hnd : (blocks (q₁ ++ e :: q₂)).Nodup) :
    (q₁ ++ e :: q₂).filter (fun x => x.mp ≠ e.mp) = q₁ ++ q₂ := by
  simp only [blocks_append, blocks_cons, List.nodup_append, List.nodup_cons] at hnd
  have h₁ : ∀ x ∈ q₁, x.mp ≠ e.mp := fun x hx => hnd.2.2 _ (mem_blocks hx) _ (by simp)
  have h₂ : ∀ x ∈ q₂, x.mp ≠ e.mp := by
    intro x hx he
    exact hnd.2.1.1 (he ▸ mem_blocks hx)
  rw [List.filter_append, List.filter_cons_of_neg (by simp),
    List.filter_eq_self.mpr (by simpa using h₁), List.filter_eq_self.mpr (by simpa using h₂)]

theorem msgfree_alloc (qp : MsqidDs) (heap : Heap) (pmp mp : Nat) :
    (msgfree qp heap pmp mp).1.has IPC_ALLOC = qp.has IPC_ALLOC := by
  have hclear : ∀ m : BitVec 32, isSet (m &&& ~~~MSG_WWAIT) IPC_ALLOC = isSet m IPC_ALLOC :=
    fun m => isSet_clear (by decide)
  unfold msgfree MsqidDs.has
  simp only [MsqidDs.setMode]
  split_ifs <;> first | exact hclear _ | rfl

/-- The message after `q₁` is received. -/
theorem turned_received {attr : MsgHdr ⊕ Int32} {text : List UInt8} {pmp pid time : Nat} {m : Msg}
    (h : Kept qp heap (q₁ ++ e :: q₂)) (hm : heap e.mp = some m)
    (hp : pmp = (blocks q₁).getLast?.getD 0) :
    let qp' := { qp with msgCbytes := qp.msgCbytes - m.msgTs, msgLrpid := pid, msgRtime := time }
    Turned k qp heap (q₁ ++ e :: q₂)
      ((msgfree qp' heap pmp e.mp).1, (msgfree qp' heap pmp e.mp).2,
        .done (.received k e.mp attr text)) := by
  intro qp'
  have hq : Queued qp' heap (q₁ ++ e :: q₂) := h.toQueued.fields rfl rfl rfl
  have hfilter : after (q₁ ++ e :: q₂) (.received k e.mp attr text) = q₁ ++ q₂ :=
    filter_block h.nodup
  have hts : m.msgTs.toNat = e.text.length := by
    obtain ⟨m', hm', -, -, ht⟩ := h.msg e (by simp)
    rw [hm] at hm'
    cases hm'
    exact ht
  have hbytes := h.cbytes
  rw [bytes_append, bytes_cons] at hbytes
  have hcb : (qp.msgCbytes - m.msgTs).toNat = bytes (q₁ ++ q₂) := by
    have hle : m.msgTs ≤ qp.msgCbytes := by
      rw [UInt16.le_iff_toNat_le]
      omega
    rw [UInt16.toNat_sub_of_le _ _ hle, bytes_append]
    omega
  have hsub : ∀ x ∈ q₁ ++ q₂, x ∈ q₁ ++ e :: q₂ := by
    intro x hx
    rcases List.mem_append.mp hx with hl | hr
    · exact List.mem_append_left _ hl
    · exact List.mem_append_right _ (List.mem_cons_of_mem _ hr)
  refine
    { kept := ?_
      frame := fun b hb _ => msgfree_frame qp' hp hb
      blocks := ?_
      changed := fun j hj => (Option.some.inj hj).symm
      alloc := .inl (msgfree_alloc _ _ _ _)
      good := fun _ hw => by cases hw
      failed := fun _ ho => by cases ho
      asleep := fun ho => by cases ho
      wild := fun ho => by cases ho }
  · change Kept _ _ (after (q₁ ++ e :: q₂) (.received k e.mp attr text))
    rw [hfilter]
    refine ⟨⟨queued_msgfree hq hp, by rw [msgfree_cbytes]; exact hcb⟩,
      fun x hx => h.type_pos x (hsub x hx), ?_⟩
    have hroom := h.room
    simp only [List.length_append, List.length_cons] at hroom ⊢
    omega
  · intro b hb
    change b ∈ Contents.blocks (after (q₁ ++ e :: q₂) (.received k e.mp attr text)) at hb
    rw [hfilter] at hb
    obtain ⟨x, hx, rfl⟩ := List.mem_map.mp hb
    exact .inl (mem_blocks (hsub x hx))

section Receiving

variable {a : Rcv}

/-- The outcomes of `deliver`: an error with nothing changed, or the message. -/
theorem deliver_cases (env : Env) (k : Nat) (a : Rcv) (qp : MsqidDs) (heap : Heap) (spmp smp : Nat)
    (m : Msg) :
    (∃ err, (err = .e2big ∨ err = .efault) ∧
      deliver env k a qp heap spmp smp m = (qp, heap, .done (.failed err))) ∨
    ∃ sz, sz = (if a.msgsz < m.msgTs.toNat then a.msgsz.toNat else m.msgTs.toNat) ∧
      deliver env k a qp heap spmp smp m =
        let qp' := { qp with
          msgCbytes := qp.msgCbytes - m.msgTs, msgLrpid := env.pid, msgRtime := env.time }
        ((msgfree qp' heap spmp smp).1, (msgfree qp' heap spmp smp).2,
          .done (.received k smp (if a.xmsg then .inl m.msgAttr else .inr m.msgAttr.mtype)
            (m.msgSpot.take sz))) := by
  unfold deliver
  by_cases hbig : a.msgsz < m.msgTs.toNat ∧ isSet a.msgflg MSG_NOERROR = false
  · rw [if_pos hbig]
    exact .inl ⟨_, .inl rfl, rfl⟩
  rw [if_neg hbig]
  simp only
  by_cases hhdr : copyout env a.sysspace 0 (if a.xmsg then 20 else 4) = false
  · rw [if_pos hhdr]
    exact .inl ⟨_, .inr rfl, rfl⟩
  rw [if_neg hhdr]
  by_cases htext : copyout env a.sysspace (if a.xmsg then 20 else 4)
      (if a.msgsz < m.msgTs.toNat then a.msgsz.toNat else m.msgTs.toNat) = false
  · rw [if_pos htext]
    exact .inl ⟨_, .inr rfl, rfl⟩
  · rw [if_neg htext]
    exact .inr ⟨_, rfl, rfl⟩

/-- What a receive is to give of message `e`. -/
def Given (a : Rcv) (e : Entry) (attr : MsgHdr ⊕ Int32) (text : List UInt8) : Prop :=
  attr = (if a.xmsg then .inl e.attr else .inr e.attr.mtype) ∧ text = e.text.take a.msgsz.toNat

/-- What the turn of a receive that looks for a message ends with: the message
due, an error that leaves it on the queue, or, if there is none, no message. -/
def Served (k : Nat) (a : Rcv) (q : List Entry) (o : Outcome) : Prop :=
  match o with
  | .received j mp attr text =>
    j = k ∧ ∃ e, e.mp = mp ∧ Due Entry.type a.msgtyp.toInt q e ∧ Given a e attr text
  | .failed .enomsg => ∀ e, ¬Due Entry.type a.msgtyp.toInt q e
  | .asleep => ∀ e, ¬Due Entry.type a.msgtyp.toInt q e
  | .failed err => err = .e2big ∨ err = .efault
  | _ => False

/-- The turn of a receive whose search has come to `r`. -/
theorem turned_rcvLoop {r : Nat × Nat} {p : Entry → Prop} (h : Kept qp heap q) (ha : 0 ≤ a.msgsz)
    (hs : select qp heap a.msgtyp 0 0 = some r) (hr : Found p q r) :
    Turned k qp heap q (rcvLoop env tid k a 0 0 qp heap) ∧
      ((∀ e ∈ q, p e ↔ Due Entry.type a.msgtyp.toInt q e) →
        Served k a q (outcome (rcvLoop env tid k a 0 0 qp heap).2.2)) ∧
      (r.1 = 0 → outcome (rcvLoop env tid k a 0 0 qp heap).2.2 = .asleep ∨
        outcome (rcvLoop env tid k a 0 0 qp heap).2.2 = .failed .enomsg) := by
  unfold rcvLoop
  rw [hs]
  simp only
  rcases hr with ⟨rfl, hnone⟩ | ⟨q₁, e, q₂, rfl, rfl, he⟩
  · have hno : (∀ e ∈ q, p e ↔ Due Entry.type a.msgtyp.toInt q e) →
        ∀ e, ¬Due Entry.type a.msgtyp.toInt q e :=
      fun hp e hd => hnone e hd.mem ((hp e hd.mem).mpr hd)
    rw [if_pos rfl]
    split
    next => exact ⟨turned_failed h, hno, fun _ => .inr rfl⟩
    next => exact ⟨turned_sleep h ⟨ha, rfl, rfl⟩ (.inl rfl), hno, fun _ => .inl rfl⟩
  · have hne : e.mp ≠ 0 := h.chain.ne_zero (mem_blocks (by simp))
    obtain ⟨m, hm, hattr, hspot, hts⟩ := h.msg e (by simp)
    rw [if_neg hne, show heap e.mp = some m from hm]
    simp only
    refine ⟨?_, ?_, fun hz => absurd hz hne⟩
    · rcases deliver_cases env k a qp heap ((blocks q₁).getLast?.getD 0) e.mp m with
        ⟨err, -, hd⟩ | ⟨sz, -, hd⟩
      · rw [hd]
        exact turned_failed h
      · rw [hd]
        exact turned_received h hm rfl
    · intro hp
      rcases deliver_cases env k a qp heap ((blocks q₁).getLast?.getD 0) e.mp m with
        ⟨err, herr, hd⟩ | ⟨sz, hsz, hd⟩
      · rw [hd]
        rcases herr with rfl | rfl
        · exact .inl rfl
        · exact .inr rfl
      · rw [hd]
        refine ⟨rfl, e, rfl, (hp e (by simp)).mp he, by rw [hattr], ?_⟩
        rw [hspot, hsz, hts]
        split
        next => rfl
        next hle =>
          rw [List.take_length, List.take_of_length_le]
          omega

theorem rcvLoop_spec (env : Env) (tid k : Nat) (h : Kept qp heap q) (ha : 0 ≤ a.msgsz) :
    Turned k qp heap q (rcvLoop env tid k a 0 0 qp heap) ∧
      (Served k a q (outcome (rcvLoop env tid k a 0 0 qp heap).2.2) ↔
        (a.msgtyp = Int32.minValue → qp.msgFirst = 0)) := by
  by_cases ht : a.msgtyp = Int32.minValue
  · obtain ⟨hturned, -, hout⟩ := turned_rcvLoop h ha
      (ht.symm ▸ select_minValue h.toQueued h.room h.type_pos)
      (.inl ⟨rfl, fun _ _ hf => hf⟩ : Found (fun _ => False) q (0, 0))
    refine ⟨hturned, ?_⟩
    have hserved : Served k a q (outcome (rcvLoop env tid k a 0 0 qp heap).2.2) ↔
        ∀ e, ¬Due Entry.type a.msgtyp.toInt q e := by
      rcases hout rfl with ho | ho <;> rw [ho] <;> rfl
    rw [hserved, h.first_eq_zero, ht]
    constructor
    · intro hno _
      by_contra hq
      obtain ⟨e, he⟩ := due_minValue hq
      exact hno e he
    · intro hq e he
      rw [hq rfl] at he
      exact absurd he.mem List.not_mem_nil
  · obtain ⟨r, hs, hr⟩ := select_spec h.toQueued h.room ht
    obtain ⟨hturned, hserved, -⟩ := turned_rcvLoop h ha hs hr
    exact ⟨hturned, iff_of_true (hserved fun _ _ => Iff.rfl) fun hm => absurd hm ht⟩

/-- How the loop of a receive can end. -/
theorem rcvLoop_turn (env : Env) (tid k : Nat) (a : Rcv) (smp spmp : Nat) (qp : MsqidDs)
    (heap : Heap) :
    (rcvLoop env tid k a smp spmp qp heap).2.2 = .done .wild ∨
      (∃ err, (rcvLoop env tid k a smp spmp qp heap).2.2 = .done (.failed err)) ∨
      (∃ smp' spmp', (rcvLoop env tid k a smp spmp qp heap).2.2 = .sleep (.rcv a smp' spmp')) ∨
      ∃ mp attr text,
        (rcvLoop env tid k a smp spmp qp heap).2.2 = .done (.received k mp attr text) := by
  unfold rcvLoop
  split
  next => exact .inl rfl
  next smp' spmp' _ =>
    split
    next =>
      split
      next => exact .inr (.inl ⟨_, rfl⟩)
      next => exact .inr (.inr (.inl ⟨_, _, rfl⟩))
    next =>
      split
      next => exact .inl rfl
      next m _ =>
        rcases deliver_cases env k a qp heap spmp' smp' m with ⟨err, -, hd⟩ | ⟨sz, -, hd⟩
        · rw [hd]
          exact .inr (.inl ⟨_, rfl⟩)
        · rw [hd]
          exact .inr (.inr (.inr ⟨_, _, _, rfl⟩))

theorem received_rcvLoop {env : Env} {tid k j mp smp spmp : Nat} {attr : MsgHdr ⊕ Int32}
    {text : List UInt8}
    (h : outcome (rcvLoop env tid k a smp spmp qp heap).2.2 = .received j mp attr text) :
    j = k := by
  rcases rcvLoop_turn env tid k a smp spmp qp heap with
    ht | ⟨_, ht⟩ | ⟨_, _, ht⟩ | ⟨_, _, _, ht⟩ <;> rw [ht] at h <;> cases h
  rfl

end Receiving

section Sending

variable {a : Snd}

theorem length_mapM {α β : Type} {f : α → Option β} {xs : List α} {ys : List β}
    (h : xs.mapM f = some ys) : ys.length = xs.length := by
  induction xs generalizing ys with
  | nil =>
    rw [List.mapM_nil] at h
    cases h
    rfl
  | cons x xs ih =>
    rw [List.mapM_cons] at h
    obtain ⟨y, -, h⟩ := Option.bind_eq_some_iff.mp h
    obtain ⟨zs, hz, h⟩ := Option.bind_eq_some_iff.mp h
    cases h
    simp [ih hz]

theorem length_copyText {cnt : Nat} {sysspace : Bool} {text : List UInt8}
    (h : copyText env sysspace cnt = some text) : text.length = cnt := by
  unfold copyText at h
  split at h
  next =>
    cases h
    simp
  next => rw [length_mapM h, List.length_range]

theorem toNat_ofInt {c : Int} (h0 : 0 ≤ c) (h : c ≤ msgmax) : (UInt16.ofInt c).toNat = c.toNat := by
  unfold msgmax at h
  rw [UInt16.ofInt, UInt16.toNat_ofNat', Int.emod_eq_of_lt h0 (by omega)]
  omega

theorem enqueue_fields (qp : MsqidDs) (heap : Heap) (mp : Nat) (m : Msg) :
    (enqueue qp heap mp m).1.msgPerm = qp.msgPerm ∧
      (enqueue qp heap mp m).1.msgCbytes = qp.msgCbytes := by
  unfold enqueue
  simp only
  split <;> exact ⟨rfl, rfl⟩

theorem enqueue_frame {b mp : Nat} {m : Msg} (h : b ≠ mp) (hl : qp.msgLast ≠ 0 → b ≠ qp.msgLast) :
    (enqueue qp heap mp m).2 b = heap b := by
  unfold enqueue
  simp only
  split
  next => exact Function.update_of_ne h _ _
  next hz =>
    change setNext _ _ _ b = _
    rw [setNext_of_ne (hl hz)]
    exact Function.update_of_ne h _ _

theorem turned_accept {mtype : Int32} {text : List UInt8} (h : Kept qp heap q)
    (hc : 0 ≤ a.cnt) (hmax : a.cnt ≤ msgmax) (hroom : q.length < msgmnm)
    (hfit : a.cnt + qp.msgCbytes.toNat ≤ qp.msgQbytes.toNat) (h0 : env.xmalloc ≠ 0)
    (hfree : heap env.xmalloc = none) (htype : ¬mtype < 1) (htext : text.length = a.cnt.toNat) :
    Turned k qp heap q (accept env k a qp heap mtype text) := by
  have hcnt := toNat_ofInt hc hmax
  have hqb := UInt16.toNat_lt qp.msgQbytes
  have hqn := h.qnum
  have hmnm : msgmnm = 8192 := rfl
  set e : Entry := ⟨env.xmalloc, ⟨env.time, env.uid, env.gid, env.pid, mtype⟩, text⟩ with he
  set m : Msg := ⟨0, e.attr, UInt16.ofInt a.cnt, text⟩ with hm
  set qp' : MsqidDs := { qp with
      msgQnum := qp.msgQnum + 1
      msgCbytes := qp.msgCbytes + UInt16.ofInt a.cnt
      msgStime := env.time
      msgLspid := env.pid } with hqp
  obtain ⟨hperm, hcb⟩ := enqueue_fields qp' heap e.mp m
  have hlen : e.text.length = a.cnt.toNat := htext
  have hadd : qp'.msgCbytes.toNat = bytes (q ++ [e]) := by
    have hb := h.cbytes
    have hnil : bytes [] = 0 := rfl
    have hsum : qp'.msgCbytes.toNat = (qp.msgCbytes.toNat + a.cnt.toNat) % 65536 := by
      rw [← hcnt]
      exact UInt16.toNat_add _ _
    rw [hsum, bytes_append, bytes_cons, hlen, hnil]
    omega
  have hcount : qp'.msgQnum.toNat = q.length + 1 := by
    have hsum : qp'.msgQnum.toNat = (qp.msgQnum.toNat + 1) % 65536 := UInt16.toNat_add _ _
    omega
  have hqueued : Queued (enqueue qp' heap e.mp m).1 (enqueue qp' heap e.mp m).2 (q ++ [e]) :=
    queued_enqueue h.toQueued h0 hfree rfl rfl (by rw [hlen]; exact hcnt) rfl rfl hcount
  have hkept : Kept (enqueue qp' heap e.mp m).1 (enqueue qp' heap e.mp m).2 (q ++ [e]) := by
    refine ⟨⟨hqueued, by rw [hcb]; exact hadd⟩, ?_, ?_⟩
    · intro x hx
      rcases List.mem_append.mp hx with hx | hx
      · exact h.type_pos x hx
      · rw [List.mem_singleton.mp hx]
        rw [Int32.lt_iff_toInt_lt] at htype
        exact not_lt.mp htype
    · simp only [List.length_append, List.length_singleton]
      omega
  have hclear : ∀ m : BitVec 32, isSet (m &&& ~~~MSG_RWAIT) IPC_ALLOC = isSet m IPC_ALLOC :=
    fun m => isSet_clear (by decide)
  refine
    { kept := ?_
      frame := ?_
      blocks := ?_
      changed := fun j hj => (Option.some.inj hj).symm
      alloc := .inl ?_
      good := fun _ hw => by cases hw
      failed := fun _ ho => by cases ho
      asleep := fun ho => by cases ho
      wild := fun ho => by cases ho }
  · change Kept (if _ then _ else _) _ (q ++ [e])
    split
    next => exact hkept.fields rfl rfl rfl rfl
    next => exact hkept
  · intro b hb hsome
    refine enqueue_frame ?_ ?_
    · rintro rfl
      rw [hfree] at hsome
      cases hsome
    · rintro hz rfl
      refine hb ?_
      have hlast := h.last
      change qp.msgLast ≠ 0 at hz
      change qp.msgLast ∈ _
      cases hl : (blocks q).getLast? with
      | none =>
        rw [hl] at hlast
        exact absurd hlast hz
      | some p =>
        rw [hl] at hlast
        exact hlast ▸ List.mem_of_getLast? hl
  · intro b hb
    change b ∈ Contents.blocks (q ++ [e]) at hb
    rw [blocks_append] at hb
    rcases List.mem_append.mp hb with hb | hb
    · exact .inl hb
    · exact .inr ((List.mem_singleton.mp hb).symm ▸ hfree)
  · change (if _ then _ else _ : MsqidDs).has IPC_ALLOC = _
    have hsame : (enqueue qp' heap e.mp m).1.has IPC_ALLOC = qp.has IPC_ALLOC := by
      unfold MsqidDs.has
      rw [hperm]
    split
    next => exact (hclear _).trans hsame
    next => exact hsame

/-- How the loop of a send can end. -/
theorem sndLoop_turn (env : Env) (tid k : Nat) (a : Snd) (qp : MsqidDs) (heap : Heap) :
    (∃ err, (sndLoop env tid k a qp heap).2.2 = .done (.failed err)) ∨
      (sndLoop env tid k a qp heap).2.2 = .sleep (.snd a) ∨
      ∃ mp attr text, (sndLoop env tid k a qp heap).2.2 = .done (.sent k mp attr text) := by
  unfold sndLoop
  split
  next =>
    split
    next => exact .inl ⟨_, rfl⟩
    next =>
      split
      next => exact .inl ⟨_, rfl⟩
      next => exact .inr (.inl rfl)
  next =>
    split
    next => exact .inl ⟨_, rfl⟩
    next =>
      split
      next => exact .inl ⟨_, rfl⟩
      next =>
        split
        next => exact .inl ⟨_, rfl⟩
        next =>
          split
          next => exact .inl ⟨_, rfl⟩
          next => exact .inr (.inr ⟨_, _, _, rfl⟩)

theorem turned_sndLoop (h : Kept qp heap q) (hc : 0 ≤ a.cnt) (hmax : a.cnt ≤ msgmax) :
    Turned k qp heap q (sndLoop env tid k a qp heap) := by
  unfold sndLoop
  split
  next =>
    split
    next => exact turned_failed h
    next =>
      split
      next => exact turned_failed h
      next => exact turned_sleep h ⟨hc, hmax⟩ (.inr rfl)
  next hfit =>
    have hq := h.qnum
    split
    next => exact turned_failed h
    next hx =>
      split
      next => exact turned_failed h
      next mtype _ =>
        split
        next => exact turned_failed h
        next htype =>
          split
          next => exact turned_failed h
          next text ht =>
            have hnone : heap env.xmalloc = none := by
              cases hb : heap env.xmalloc with
              | none => rfl
              | some m => exact absurd (.inr (by simp [hb])) hx
            exact turned_accept h hc hmax (by omega) (by omega) (fun hz => hx (.inl hz)) hnone htype
              (length_copyText ht)

end Sending

section Control

theorem release_kept (h : Queued qp heap []) : Kept (release qp) heap [] :=
  ⟨⟨h.fields rfl rfl rfl, rfl⟩, fun _ he => absurd he List.not_mem_nil, Nat.zero_le _⟩

theorem release_alloc (qp : MsqidDs) : (release qp).has IPC_ALLOC = false := by
  simp [MsqidDs.has, release, isSet]

theorem turned_rmsgctl {cmd : Int} {dsp : Dsp} (h : Kept qp heap q) :
    Turned k qp heap q (rmsgctl env k cmd dsp qp heap) := by
  have hset : ∀ m d : BitVec 32,
      isSet ((m &&& ~~~0o777#32) ||| (d &&& 0o777#32)) IPC_ALLOC = isSet m IPC_ALLOC := by
    intro m d
    rw [isSet_or (by rw [BitVec.and_assoc]; exact BitVec.and_zero), isSet_clear (by decide)]
  unfold rmsgctl
  split
  next =>
    split
    next => exact turned_failed h
    next =>
      obtain ⟨qp', heap', hall, hempty, -, hframe⟩ :=
        freeAll_eq h.toQueued (Nat.lt_succ_of_le h.room)
      rw [show freeAll (msgmnm + 1) qp heap = some (qp', heap') from hall]
      exact
        { kept := release_kept hempty
          frame := fun b hb _ => hframe b hb
          blocks := fun b hb => absurd hb List.not_mem_nil
          changed := fun j hj => (Option.some.inj hj).symm
          alloc := .inr ⟨rfl, release_alloc qp'⟩
          good := fun _ hw => by cases hw
          failed := fun _ ho => by cases ho
          asleep := fun ho => by cases ho
          wild := fun ho => by cases ho }
  next =>
    split
    next =>
      split
      next => exact turned_failed h
      next =>
        split
        next => exact turned_failed h
        next =>
          exact turned_of_kept (h.fields rfl rfl rfl rfl) rfl rfl (hset _ _)
            (fun _ hw => by cases hw) (fun _ ho => by cases ho) (fun ho => by cases ho) (fun ho => by cases ho)
    next =>
      split
      next =>
        split
        next => exact turned_failed h
        next =>
          exact turned_of_kept h rfl rfl rfl (fun _ hw => by cases hw) (fun _ _ => rfl)
            (fun _ => rfl) (fun ho => by cases ho)
      next => exact turned_failed h

end Control

end Aix413.Message.Turns
