import Aix413.Lib.LinkedPool
import Aix413.Lib.TypedQueue
import Aix413.Message.Calls

namespace Aix413.Message.Contents

open Lib.LinkedPool Lib.TypedQueue Ipc.Access Queues Calls

/-- A message by its block, with its header and its text. -/
structure Entry where
  mp : Nat
  attr : MsgHdr
  text : List UInt8
  deriving DecidableEq

def Entry.type (e : Entry) : Int := e.attr.mtype.toInt

def blocks (q : List Entry) : List Nat := q.map Entry.mp

def bytes (q : List Entry) : Nat := (q.map fun e => e.text.length).sum

/-- The messages `q` stand on the queue in this order. -/
structure Queued (qp : MsqidDs) (heap : Heap) (q : List Entry) : Prop where
  chain : Chain (next heap) qp.msgFirst (blocks q)
  last : qp.msgLast = (blocks q).getLast?.getD 0
  msg : ∀ e ∈ q, ∃ m ∈ heap e.mp, m.msgAttr = e.attr ∧ m.msgSpot = e.text ∧
    m.msgTs.toNat = e.text.length
  qnum : qp.msgQnum.toNat = q.length

/-- And its count of bytes is theirs. -/
structure Holds (qp : MsqidDs) (heap : Heap) (q : List Entry) : Prop extends Queued qp heap q where
  cbytes : qp.msgCbytes.toNat = bytes q

variable {qp qp' : MsqidDs} {heap heap' : Heap} {q q₁ q₂ : List Entry} {e x : Entry} {mp k : Nat}

@[simp] theorem blocks_append (q₁ q₂ : List Entry) : blocks (q₁ ++ q₂) = blocks q₁ ++ blocks q₂ :=
  List.map_append

@[simp] theorem blocks_cons (e : Entry) (q : List Entry) : blocks (e :: q) = e.mp :: blocks q := rfl

@[simp] theorem bytes_append (q₁ q₂ : List Entry) : bytes (q₁ ++ q₂) = bytes q₁ + bytes q₂ := by
  simp [bytes]

@[simp] theorem bytes_cons (e : Entry) (q : List Entry) :
    bytes (e :: q) = e.text.length + bytes q := rfl

theorem mem_blocks (he : e ∈ q) : e.mp ∈ blocks q := List.mem_map_of_mem he

theorem next_update_of_ne {v : Option Msg} (h : k ≠ mp) :
    next (Function.update heap mp v) k = next heap k := by
  unfold next
  rw [Function.update_of_ne h]

theorem next_eq {m : Msg} (h : heap mp = some m) : next heap mp = m.msgNext := by
  unfold next
  rw [h]

theorem next_setNext {m : Msg} (hm : heap mp = some m) (v : Nat) :
    next (setNext heap mp v) = Function.update (next heap) mp v := by
  funext k
  by_cases hk : k = mp
  · subst hk
    simp [next, setNext, hm]
  · rw [Function.update_of_ne hk]
    exact next_update_of_ne hk

/-- A new link leaves the messages. -/
theorem setNext_some {m : Msg} (p : Nat) (hm : heap k = some m) (v : Nat) :
    ∃ m', setNext heap p v k = some m' ∧ m'.msgAttr = m.msgAttr ∧ m'.msgSpot = m.msgSpot ∧
      m'.msgTs = m.msgTs := by
  unfold setNext
  by_cases hk : k = p
  · subst hk
    rw [Function.update_self, hm]
    exact ⟨_, rfl, rfl, rfl, rfl⟩
  · rw [Function.update_of_ne hk]
    exact ⟨m, hm, rfl, rfl, rfl⟩

theorem Queued.fields (h : Queued qp heap q) (hf : qp'.msgFirst = qp.msgFirst)
    (hl : qp'.msgLast = qp.msgLast) (hn : qp'.msgQnum = qp.msgQnum) : Queued qp' heap q where
  chain := hf ▸ h.chain
  last := hl ▸ h.last
  msg := h.msg
  qnum := hn ▸ h.qnum

/-- What goes on in other blocks leaves a queue alone. -/
theorem Queued.congr (h : Queued qp heap q) (heq : ∀ k ∈ blocks q, heap' k = heap k) :
    Queued qp heap' q where
  chain := h.chain.congr fun k hk => by rw [next, next, heq k hk]
  last := h.last
  msg := fun e he => by
    rw [heq _ (mem_blocks he)]
    exact h.msg e he
  qnum := h.qnum

theorem Holds.congr (h : Holds qp heap q) (heq : ∀ k ∈ blocks q, heap' k = heap k) :
    Holds qp heap' q :=
  ⟨h.toQueued.congr heq, h.cbytes⟩

theorem Queued.allocated (h : Queued qp heap q) (hk : k ∈ blocks q) : ∃ m, heap k = some m := by
  obtain ⟨e, he, rfl⟩ := List.mem_map.mp hk
  obtain ⟨m, hm, -⟩ := h.msg e he
  exact ⟨m, hm⟩

theorem Queued.first_eq_zero (h : Queued qp heap q) : qp.msgFirst = 0 ↔ q = [] := by
  have hc := h.chain
  cases q with
  | nil => exact iff_of_true hc rfl
  | cons e q =>
    have hne : qp.msgFirst ≠ 0 := by
      rw [hc.1]
      exact hc.2.1
    simp [hne]

theorem Queued.last_eq_zero (h : Queued qp heap q) : qp.msgLast = 0 ↔ q = [] := by
  rw [h.last]
  cases q.eq_nil_or_concat with
  | inl hnil => simp [hnil, blocks]
  | inr hcat =>
    obtain ⟨q, e, rfl⟩ := hcat
    have hne : e.mp ≠ 0 := h.chain.ne_zero (mem_blocks (by simp))
    simp [blocks, hne]

theorem Queued.nodup (h : Queued qp heap q) : (blocks q).Nodup := h.chain.nodup

theorem queued_enqueue {m : Msg} (h : Queued qp heap q) (h0 : e.mp ≠ 0) (hfree : heap e.mp = none)
    (hattr : m.msgAttr = e.attr) (hspot : m.msgSpot = e.text)
    (hts : m.msgTs.toNat = e.text.length) (hf : qp'.msgFirst = qp.msgFirst)
    (hl : qp'.msgLast = qp.msgLast) (hn : qp'.msgQnum.toNat = q.length + 1) :
    Queued (enqueue qp' heap e.mp m).1 (enqueue qp' heap e.mp m).2 (q ++ [e]) := by
  have hout : e.mp ∉ blocks q := by
    intro hm
    obtain ⟨m', hm'⟩ := h.allocated hm
    rw [hfree] at hm'
    cases hm'
  have hne : ∀ k ∈ blocks q, k ≠ e.mp := by
    rintro k hk rfl
    exact hout hk
  have hnew : Queued qp (Function.update heap e.mp (some { m with msgNext := 0 })) q :=
    h.congr fun k hk => Function.update_of_ne (hne k hk) _ _
  have hself : (Function.update heap e.mp (some { m with msgNext := 0 })) e.mp
      = some { m with msgNext := 0 } := Function.update_self _ _ _
  have hlast : qp'.msgLast = 0 ↔ q = [] := hl ▸ h.last_eq_zero
  unfold enqueue
  by_cases hq : q = []
  · subst hq
    rw [if_pos (hlast.mpr rfl)]
    refine ⟨⟨rfl, h0, ?_⟩, rfl, ?_, hn⟩
    · exact next_eq hself
    · intro e' he'
      rw [List.nil_append, List.mem_singleton] at he'
      subst he'
      exact ⟨{ m with msgNext := 0 }, hself, hattr, hspot, hts⟩
  · rw [if_neg (fun hz => hq (hlast.mp hz))]
    obtain ⟨q', p, rfl⟩ := (q.eq_nil_or_concat).resolve_left hq
    rw [List.concat_eq_append] at h hout hnew hn ⊢
    have hlp : qp'.msgLast = p.mp := by
      rw [hl, h.last]
      simp [blocks]
    obtain ⟨mp', hmp', hpa, hps, hpt⟩ := hnew.msg p (by simp)
    have hchain := hnew.chain
    rw [blocks_append] at hchain hout
    rw [hlp]
    refine ⟨?_, ?_, ?_, by simpa using hn⟩
    · rw [next_setNext hmp', List.append_assoc, blocks_append]
      change Chain _ qp'.msgFirst _
      rw [hf]
      exact hchain.snoc h0 hout (next_eq hself)
    · simp [blocks]
    · intro e' he'
      rcases List.mem_append.mp he' with he' | he'
      · obtain ⟨m', hm', ha, hs, ht⟩ := hnew.msg e' he'
        obtain ⟨m'', hm'', ha', hs', ht'⟩ := setNext_some p.mp hm' e.mp
        exact ⟨m'', hm'', ha'.trans ha, hs'.trans hs, by rw [ht', ht]⟩
      · rw [List.mem_singleton] at he'
        subst he'
        obtain ⟨m', hm', ha, hs, ht⟩ := setNext_some p.mp hself e'.mp
        exact ⟨m', hm', ha.trans hattr, hs.trans hspot, by rw [ht, hts]⟩

section Freeing

variable {pmp : Nat}

@[simp] theorem msgfree_first (qp : MsqidDs) (heap : Heap) (pmp mp : Nat) :
    (msgfree qp heap pmp mp).1.msgFirst = if pmp = 0 then next heap mp else qp.msgFirst := by
  unfold msgfree
  simp only [MsqidDs.setMode]
  split_ifs <;> rfl

@[simp] theorem msgfree_last (qp : MsqidDs) (heap : Heap) (pmp mp : Nat) :
    (msgfree qp heap pmp mp).1.msgLast = if next heap mp = 0 then pmp else qp.msgLast := by
  unfold msgfree
  simp only [MsqidDs.setMode]
  split_ifs <;> rfl

@[simp] theorem msgfree_qnum (qp : MsqidDs) (heap : Heap) (pmp mp : Nat) :
    (msgfree qp heap pmp mp).1.msgQnum = qp.msgQnum - 1 := by
  unfold msgfree
  simp only [MsqidDs.setMode]
  split_ifs <;> rfl

@[simp] theorem msgfree_cbytes (qp : MsqidDs) (heap : Heap) (pmp mp : Nat) :
    (msgfree qp heap pmp mp).1.msgCbytes = qp.msgCbytes := by
  unfold msgfree
  simp only [MsqidDs.setMode]
  split_ifs <;> rfl

theorem msgfree_heap (qp : MsqidDs) (heap : Heap) (pmp mp : Nat) :
    (msgfree qp heap pmp mp).2 =
      Function.update (if pmp = 0 then heap else setNext heap pmp (next heap mp)) mp none := rfl

theorem setNext_of_ne {v : Nat} (h : k ≠ mp) : setNext heap mp v k = heap k :=
  Function.update_of_ne h _ _

/-- The links that are left when the message after `q₁` is taken out. -/
theorem chain_msgfree (h : Queued qp heap (q₁ ++ e :: q₂))
    (hp : pmp = (blocks q₁).getLast?.getD 0) :
    Chain (next (if pmp = 0 then heap else setNext heap pmp (next heap e.mp)))
      (if pmp = 0 then next heap e.mp else qp.msgFirst) (blocks (q₁ ++ q₂)) := by
  have hc := h.chain
  cases q₁.eq_nil_or_concat with
  | inl hnil =>
    subst hnil
    have hz : pmp = 0 := hp
    rw [if_pos hz, if_pos hz]
    exact hc.2.2
  | inr hcat =>
    obtain ⟨q, p, rfl⟩ := hcat
    have hpp : pmp = p.mp := by simpa [blocks] using hp
    have hp0 : p.mp ≠ 0 := hc.ne_zero (by simp)
    obtain ⟨m, hm, -⟩ := h.msg p (by simp)
    rw [hpp, if_neg hp0, if_neg hp0, next_setNext hm]
    simp only [List.concat_eq_append, blocks_append, blocks_cons, List.append_assoc] at hc ⊢
    exact hc.bypass

theorem last_msgfree (h : Queued qp heap (q₁ ++ e :: q₂))
    (hp : pmp = (blocks q₁).getLast?.getD 0) :
    (if next heap e.mp = 0 then pmp else qp.msgLast) = (blocks (q₁ ++ q₂)).getLast?.getD 0 := by
  have hc := h.chain
  rw [blocks_append, blocks_cons] at hc
  have hnext := hc.next_eq
  cases q₂.eq_nil_or_concat with
  | inl hnil =>
    subst hnil
    have hz : next heap e.mp = 0 := hnext
    rw [if_pos hz, List.append_nil, hp]
  | inr hcat =>
    obtain ⟨q, p, rfl⟩ := hcat
    have hne : next heap e.mp ≠ 0 := by
      rw [hnext]
      cases q with
      | nil => exact h.chain.ne_zero (mem_blocks (by simp))
      | cons e' q => exact h.chain.ne_zero (mem_blocks (e := e') (by simp))
    rw [if_neg hne, h.last]
    simp [blocks, List.getLast?_cons]

theorem queued_msgfree (h : Queued qp heap (q₁ ++ e :: q₂))
    (hp : pmp = (blocks q₁).getLast?.getD 0) :
    Queued (msgfree qp heap pmp e.mp).1 (msgfree qp heap pmp e.mp).2 (q₁ ++ q₂) := by
  have hnd := h.nodup
  have hout : e.mp ∉ blocks (q₁ ++ q₂) := by
    simp only [blocks_append, blocks_cons, List.nodup_append, List.nodup_cons, List.mem_append,
      not_or] at hnd ⊢
    exact ⟨fun hm => hnd.2.2 _ hm _ (by simp) rfl, hnd.2.1.1⟩
  have hne : ∀ k ∈ blocks (q₁ ++ q₂), k ≠ e.mp := by
    rintro k hk rfl
    exact hout hk
  refine ⟨?_, ?_, ?_, ?_⟩
  · rw [msgfree_first, msgfree_heap]
    exact (chain_msgfree h hp).congr fun k hk => next_update_of_ne (hne k hk)
  · rw [msgfree_last]
    exact last_msgfree h hp
  · intro e' he'
    obtain ⟨m, hm, ha, hs, ht⟩ := h.msg e' (by
      rcases List.mem_append.mp he' with hl | hr
      · exact List.mem_append_left _ hl
      · exact List.mem_append_right _ (List.mem_cons_of_mem _ hr))
    rw [msgfree_heap, Function.update_of_ne (hne _ (mem_blocks he'))]
    split_ifs
    · exact ⟨m, hm, ha, hs, ht⟩
    · obtain ⟨m', hm', ha', hs', ht'⟩ := setNext_some pmp hm (next heap e.mp)
      exact ⟨m', hm', ha'.trans ha, hs'.trans hs, by rw [ht', ht]⟩
  · have hn := h.qnum
    rw [msgfree_qnum]
    simp only [List.length_append, List.length_cons] at hn ⊢
    rw [UInt16.toNat_sub_of_le _ _ (by rw [UInt16.le_iff_toNat_le, hn]; simp; omega), hn]
    simp

/-- Only the message's block and the one before it are touched. -/
theorem msgfree_frame (qp : MsqidDs) (hp : pmp = (blocks q₁).getLast?.getD 0) (hk : k ∉ blocks (q₁ ++ e :: q₂)) :
    (msgfree qp heap pmp e.mp).2 k = heap k := by
  have hke : k ≠ e.mp := by
    rintro rfl
    exact hk (mem_blocks (by simp))
  rw [msgfree_heap, Function.update_of_ne hke]
  split_ifs with hz
  · rfl
  · refine setNext_of_ne ?_
    rintro rfl
    cases hl : (blocks q₁).getLast? with
    | none => exact hz (by rw [hp, hl]; rfl)
    | some p =>
      have hpk : k = p := by rw [hp, hl]; rfl
      exact hk (by simp [hpk, List.mem_of_getLast? hl])

theorem freeAll_eq (h : Queued qp heap q) {fuel : Nat} (hf : q.length < fuel) :
    ∃ qp' heap', freeAll fuel qp heap = some (qp', heap') ∧ Queued qp' heap' [] ∧
      qp'.msgPerm.seq = qp.msgPerm.seq ∧ ∀ k, k ∉ blocks q → heap' k = heap k := by
  induction fuel generalizing qp heap q with
  | zero => exact absurd hf (Nat.not_lt_zero _)
  | succ fuel ih =>
    rw [freeAll]
    cases q with
    | nil =>
      rw [if_pos (h.first_eq_zero.mpr rfl)]
      exact ⟨qp, heap, rfl, h, rfl, fun _ _ => rfl⟩
    | cons e q =>
      have hq : Queued qp heap ([] ++ e :: q) := h
      have hfirst : qp.msgFirst = e.mp := h.chain.1
      have hne : e.mp ≠ 0 := h.chain.2.1
      rw [hfirst, if_neg hne]
      obtain ⟨qp', heap', hall, hempty, hseq, hframe⟩ :=
        ih (queued_msgfree hq rfl) (by simpa using hf)
      refine ⟨qp', heap', hall, hempty, hseq.trans ?_, ?_⟩
      · unfold msgfree
        simp only [MsqidDs.setMode]
        split_ifs <;> rfl
      · intro k hk
        rw [hframe k (fun hm => hk (List.mem_cons_of_mem _ hm))]
        exact msgfree_frame qp rfl hk

end Freeing

end Aix413.Message.Contents
