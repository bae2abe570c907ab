import Aix413.Dispatch.ReadyQueue
import Aix413.Lib.LinkedRing

namespace Aix413.Dispatch

open Lib.LinkedRing

/-- A thread without its links. -/
def Thread.bare (th : Thread) : Thread := { th with tNext := 0, tPrior := 0 }

namespace Sys

variable {s s' : Sys} {Q : Nat → List Nat} {t u r l : Nat} {w : Place} {f : Thread → Thread}

def next (s : Sys) (t : Nat) : Nat := (s.thread t).tNext
def prior (s : Sys) (t : Nat) : Nat := (s.thread t).tPrior
def bare (s : Sys) (t : Nat) : Thread := (s.thread t).bare

/-- Of two threads in one level, `t` was put at its head after `u` came, or `u` was put at its tail
after `t` came. -/
def Before (s : Sys) (t u : Nat) : Prop :=
  match s.place t, s.place u with
  | .rqhead, .rqhead => s.arrived u < s.arrived t
  | .rqhead, .rqtail => True
  | .rqtail, .rqtail => s.arrived t < s.arrived u
  | .rqtail, .rqhead => False

/-- The levels are rings, and `Q` lists each from its head. -/
structure Linked (s : Sys) (Q : Nat → List Nat) : Prop where
  ring : ∀ l, IsRing s.next s.prior (Q l)
  tail : ∀ l, s.threadRun l = (Q l).getLast?
  mask : ∀ l, s.runMask l = true ↔ Q l ≠ []
  apart : ∀ l l' t, t ∈ Q l → t ∈ Q l' → l = l'
  order : ∀ l, (Q l).Pairwise s.Before
  stamped : ∀ l, ∀ t ∈ Q l, s.arrived t < s.clock

/-- A level with a thread put in. -/
def put (w : Place) (t : Nat) (q : List Nat) : List Nat :=
  match w with
  | .rqtail => q ++ [t]
  | .rqhead => t :: q

/-! ## What the writes leave alone -/

theorem thread_modify_of_ne (h : u ≠ t) : (s.modify t f).thread u = s.thread u :=
  Function.update_of_ne h _ _

@[simp] theorem thread_modify_self : (s.modify t f).thread t = f (s.thread t) :=
  Function.update_self _ _ _

theorem next_modify : (s.modify t f).next = Function.update s.next t (f (s.thread t)).tNext := by
  funext u
  by_cases hu : u = t
  · subst hu
    rw [Function.update_self, next, thread_modify_self]
  · rw [Function.update_of_ne hu, next, thread_modify_of_ne hu]
    rfl

theorem prior_modify : (s.modify t f).prior = Function.update s.prior t (f (s.thread t)).tPrior := by
  funext u
  by_cases hu : u = t
  · subst hu
    rw [Function.update_self, prior, thread_modify_self]
  · rw [Function.update_of_ne hu, prior, thread_modify_of_ne hu]
    rfl

theorem bare_modify (s : Sys) (t : Nat) (h : ∀ th, (f th).bare = th.bare) :
    (s.modify t f).bare = s.bare := by
  funext u
  by_cases hu : u = t
  · subst hu
    rw [bare, thread_modify_self, h]
    rfl
  · rw [bare, thread_modify_of_ne hu]
    rfl

theorem bare_modify_of_ne (h : u ≠ t) : (s.modify t f).bare u = s.bare u := by
  rw [bare, thread_modify_of_ne h]
  rfl

theorem wtype_of_bare (h : s'.bare u = s.bare u) :
    (s'.thread u).tWtype = (s.thread u).tWtype := by
  have hw := congrArg Thread.tWtype h
  exact hw

theorem lvl_of_bare (h : s'.bare u = s.bare u) : (s'.thread u).lvl = (s.thread u).lvl := by
  have hl := congrArg Thread.lvl h
  exact hl

theorem mayRun_of_bare {cpu : Nat} (h : s'.bare u = s.bare u) : s'.mayRun cpu u ↔ s.mayRun cpu u := by
  have hc := congrArg Thread.tCpuid h
  change (s'.thread u).tCpuid = (s.thread u).tCpuid at hc
  unfold mayRun
  rw [hc]

@[simp] theorem bare_setNext (s : Sys) (t n : Nat) :
    (s.modify t fun th => { th with tNext := n }).bare = s.bare :=
  bare_modify s t fun _ => rfl

@[simp] theorem bare_setPrior (s : Sys) (t n : Nat) :
    (s.modify t fun th => { th with tPrior := n }).bare = s.bare :=
  bare_modify s t fun _ => rfl

@[simp] theorem bare_setLinks (s : Sys) (t n p : Nat) :
    (s.modify t fun th => { th with tNext := n, tPrior := p }).bare = s.bare :=
  bare_modify s t fun _ => rfl

@[simp] theorem bare_setRun (s : Sys) (l : Nat) (r : Option Nat) : (s.setRun l r).bare = s.bare := rfl

@[simp] theorem bare_setMask (s : Sys) (l : Nat) (b : Bool) : (s.setMask l b).bare = s.bare := rfl

@[simp] theorem bare_stamp (s : Sys) (t : Nat) (w : Place) : (s.stamp t w).bare = s.bare := rfl

theorem link_bare (s : Sys) (t l : Nat) (w : Place) : (s.link t l w).bare = s.bare := by
  unfold link
  cases s.threadRun l with
  | none => simp
  | some r => cases w <;> simp

theorem unlink_bare (s : Sys) (t l : Nat) : (s.unlink t l).bare = s.bare := by
  unfold unlink
  dsimp only
  split
  · simp
  · split <;> simp

theorem setRunrun_frame (l : Nat) (p : Bool) : ∃ n, s.setRunrun l p = { s with runrun := n } := by
  unfold setRunrun
  split
  · exact ⟨_, rfl⟩
  · exact ⟨s.runrun, rfl⟩

/-! ## What the writes do to the links -/

@[simp] theorem next_setNext (s : Sys) (t n : Nat) :
    (s.modify t fun th => { th with tNext := n }).next = Function.update s.next t n := next_modify

@[simp] theorem next_setPrior (s : Sys) (t n : Nat) :
    (s.modify t fun th => { th with tPrior := n }).next = s.next := by
  rw [next_modify]
  exact Function.update_eq_self t s.next

@[simp] theorem prior_setNext (s : Sys) (t n : Nat) :
    (s.modify t fun th => { th with tNext := n }).prior = s.prior := by
  rw [prior_modify]
  exact Function.update_eq_self t s.prior

@[simp] theorem prior_setPrior (s : Sys) (t n : Nat) :
    (s.modify t fun th => { th with tPrior := n }).prior = Function.update s.prior t n :=
  prior_modify

/-- The four writes to the links of the threads. -/
def insert (s : Sys) (t r : Nat) : Sys :=
  (((s.modify t fun th => { th with tPrior := r }).modify t
    fun th => { th with tNext := s.next r }).modify r fun th => { th with tNext := t }).modify
    (s.next r) fun th => { th with tPrior := t }

@[simp] theorem next_setLinks (s : Sys) (t n p : Nat) :
    (s.modify t fun th => { th with tNext := n, tPrior := p }).next = Function.update s.next t n :=
  next_modify

@[simp] theorem prior_setLinks (s : Sys) (t n p : Nat) :
    (s.modify t fun th => { th with tNext := n, tPrior := p }).prior = Function.update s.prior t p :=
  prior_modify

theorem link_stamp (s : Sys) (t l : Nat) (w : Place) : (s.link t l w).clock = s.clock + 1 ∧
    (s.link t l w).arrived = Function.update s.arrived t s.clock ∧
    (s.link t l w).place = Function.update s.place t w := by
  unfold link
  cases s.threadRun l with
  | none => exact ⟨rfl, rfl, rfl⟩
  | some r => cases w <;> exact ⟨rfl, rfl, rfl⟩

theorem unlink_stamp (s : Sys) (t l : Nat) : (s.unlink t l).clock = s.clock ∧
    (s.unlink t l).arrived = s.arrived ∧ (s.unlink t l).place = s.place := by
  unfold unlink
  dsimp only
  split
  · exact ⟨rfl, rfl, rfl⟩
  · split <;> exact ⟨rfl, rfl, rfl⟩

theorem link_some (hr : s.threadRun l = some r) (ht : r ≠ t) : s.link t l w =
    (if w = .rqtail then (s.insert t r).setRun l (some t) else s.insert t r).stamp t w := by
  have hn : ((s.modify t fun th => { th with tPrior := r }).thread r).tNext = s.next r := by
    rw [thread_modify_of_ne ht]
    rfl
  unfold link
  rw [hr]
  dsimp only
  rw [hn, thread_modify_self, thread_modify_self, thread_modify_of_ne ht.symm, thread_modify_self]
  rfl

theorem insert_next :
    (s.insert t r).next = Function.update (Function.update s.next t (s.next r)) r t := by
  simp [insert]

theorem insert_prior :
    (s.insert t r).prior = Function.update (Function.update s.prior t r) (s.next r) t := by
  simp [insert]

/-- The two writes to the links of the neighbours. -/
def remove (s : Sys) (t : Nat) : Sys :=
  (s.modify (s.prior t) fun th => { th with tNext := s.next t }).modify (s.next t)
    fun th => { th with tPrior := s.prior t }

theorem unlink_many (h : s.next t ≠ t) (hp : s.prior t ≠ t) : s.unlink t l =
    if s.threadRun l = some t then (s.remove t).setRun l (some (s.prior t)) else s.remove t := by
  have hn : ((s.modify (s.thread t).tPrior fun th => { th with tNext := (s.thread t).tNext }).thread
      t) = s.thread t := thread_modify_of_ne hp.symm
  have ht : ((s.remove t).thread t) = s.thread t :=
    (thread_modify_of_ne h.symm).trans hn
  unfold unlink
  rw [if_neg (show ¬ (s.thread t).tNext = t from h)]
  dsimp only
  rw [hn]
  change (if s.threadRun l = some t then
    (s.remove t).setRun l (some ((s.remove t).thread t).tPrior) else s.remove t) = _
  rw [ht]
  rfl

theorem remove_next : (s.remove t).next = Function.update s.next (s.prior t) (s.next t) := by
  simp [remove]

theorem remove_prior : (s.remove t).prior = Function.update s.prior (s.next t) (s.prior t) := by
  simp [remove]

/-! ## The levels as lists -/

@[simp] theorem mem_put {q : List Nat} : u ∈ put w t q ↔ u = t ∨ u ∈ q := by
  cases w <;> simp [put, or_comm]

namespace Linked

/-- The lists are told by the links of their threads and the heads. -/
theorem congr (h : Linked s Q) (hn : ∀ l, ∀ t ∈ Q l, s'.next t = s.next t)
    (hp : ∀ l, ∀ t ∈ Q l, s'.prior t = s.prior t) (hr : s'.threadRun = s.threadRun)
    (hm : s'.runMask = s.runMask) (hc : s'.clock = s.clock) (ha : s'.arrived = s.arrived)
    (hw : s'.place = s.place) : Linked s' Q := by
  have hb : s'.Before = s.Before := by
    funext t u
    unfold Before
    rw [ha, hw]
  refine ⟨fun l => (h.ring l).congr (hn l) (hp l), ?_, ?_, h.apart, ?_, ?_⟩
  · exact fun l => hr ▸ h.tail l
  · exact fun l => hm ▸ h.mask l
  · exact fun l => hb ▸ h.order l
  · exact fun l => ha ▸ hc ▸ h.stamped l

theorem modify (h : Linked s Q) (hn : (f (s.thread t)).tNext = (s.thread t).tNext)
    (hp : (f (s.thread t)).tPrior = (s.thread t).tPrior) : Linked (s.modify t f) Q := by
  refine h.congr ?_ ?_ rfl rfl rfl rfl rfl
  · intro l u _
    rw [next_modify, hn]
    exact congrFun (Function.update_eq_self t s.next) u
  · intro l u _
    rw [prior_modify, hp]
    exact congrFun (Function.update_eq_self t s.prior) u

theorem before_congr {v : Nat} (ha : s'.arrived t = s.arrived t ∧ s'.place t = s.place t)
    (hb : s'.arrived v = s.arrived v ∧ s'.place v = s.place v) : s'.Before t v ↔ s.Before t v := by
  unfold Before
  rw [ha.1, ha.2, hb.1, hb.2]

/-- One level changes. -/
theorem change (h : Linked s Q) {q : List Nat} (hring : IsRing s'.next s'.prior q)
    (hlinks : ∀ l', l' ≠ l → ∀ u ∈ Q l', s'.next u = s.next u ∧ s'.prior u = s.prior u)
    (hrun : s'.threadRun = Function.update s.threadRun l q.getLast?)
    (hmask : s'.runMask = Function.update s.runMask l (decide (q ≠ [])))
    (hapart : ∀ u ∈ q, ∀ l', l' ≠ l → u ∉ Q l')
    (horder : q.Pairwise s'.Before) (hstamped : ∀ u ∈ q, s'.arrived u < s'.clock)
    (hsame : ∀ l', l' ≠ l → ∀ u ∈ Q l', s'.arrived u = s.arrived u ∧ s'.place u = s.place u)
    (hclock : s.clock ≤ s'.clock) : Linked s' (Function.update Q l q) := by
  refine ⟨?_, ?_, ?_, ?_, ?_, ?_⟩
  · intro l'
    by_cases hl : l' = l
    · subst hl
      rwa [Function.update_self]
    · rw [Function.update_of_ne hl]
      exact (h.ring l').congr (fun u hu => (hlinks l' hl u hu).1) fun u hu => (hlinks l' hl u hu).2
  · intro l'
    rw [hrun]
    by_cases hl : l' = l
    · subst hl
      rw [Function.update_self, Function.update_self]
    · rw [Function.update_of_ne hl, Function.update_of_ne hl]
      exact h.tail l'
  · intro l'
    rw [hmask]
    by_cases hl : l' = l
    · subst hl
      rw [Function.update_self, Function.update_self, decide_eq_true_iff]
    · rw [Function.update_of_ne hl, Function.update_of_ne hl]
      exact h.mask l'
  · intro l₁ l₂ u h₁ h₂
    by_cases hl₁ : l₁ = l <;> by_cases hl₂ : l₂ = l
    · rw [hl₁, hl₂]
    · subst hl₁
      rw [Function.update_self] at h₁
      rw [Function.update_of_ne hl₂] at h₂
      exact absurd h₂ (hapart u h₁ l₂ hl₂)
    · subst hl₂
      rw [Function.update_self] at h₂
      rw [Function.update_of_ne hl₁] at h₁
      exact absurd h₁ (hapart u h₂ l₁ hl₁)
    · rw [Function.update_of_ne hl₁] at h₁
      rw [Function.update_of_ne hl₂] at h₂
      exact h.apart l₁ l₂ u h₁ h₂
  · intro l'
    by_cases hl : l' = l
    · subst hl
      rwa [Function.update_self]
    · rw [Function.update_of_ne hl]
      refine (h.order l').imp_of_mem ?_
      intro u v hu hv hb
      exact (before_congr (hsame l' hl u hu) (hsame l' hl v hv)).mpr hb
  · intro l' u hu
    by_cases hl : l' = l
    · subst hl
      rw [Function.update_self] at hu
      exact hstamped u hu
    · rw [Function.update_of_ne hl] at hu
      rw [(hsame l' hl u hu).1]
      exact lt_of_lt_of_le (h.stamped l' u hu) hclock

theorem of_empty (h : Linked s Q) (hr : s.threadRun l = none) : Q l = [] := by
  rw [h.tail l] at hr
  exact List.getLast?_eq_none_iff.mp hr

/-- The tail, and the head after it. -/
theorem of_tail (h : Linked s Q) (hr : s.threadRun l = some r) :
    ∃ a q, Q l = a :: q ∧ r ∈ Q l ∧ s.next r = a ∧ s.prior a = r := by
  have hlast : (Q l).getLast? = some r := (h.tail l).symm.trans hr
  cases hq : Q l with
  | nil => simp [hq] at hlast
  | cons a q =>
    have hring := h.ring l
    rw [hq] at hring hlast
    rw [List.getLast?_eq_getLast_of_ne_nil (by simp), Option.some_inj] at hlast
    have hj := hring.last_joined
    rw [hlast] at hj
    exact ⟨a, q, rfl, hlast ▸ List.getLast_mem _, hj.1, hj.2⟩

theorem order_put (h : Linked s Q) (ht : t ∉ Q l)
    (hs : s'.clock = s.clock + 1 ∧ s'.arrived = Function.update s.arrived t s.clock ∧
      s'.place = Function.update s.place t w) : (put w t (Q l)).Pairwise s'.Before := by
  have hsame : ∀ u ∈ Q l, s'.arrived u = s.arrived u ∧ s'.place u = s.place u := by
    intro u hu
    have hne : u ≠ t := fun he => ht (he ▸ hu)
    rw [hs.2.1, hs.2.2, Function.update_of_ne hne, Function.update_of_ne hne]
    exact ⟨rfl, rfl⟩
  have hold : (Q l).Pairwise s'.Before := (h.order l).imp_of_mem
    fun hu hv hb => (before_congr (hsame _ hu) (hsame _ hv)).mpr hb
  have hat : s'.arrived t = s.clock := by rw [hs.2.1, Function.update_self]
  have hpl : s'.place t = w := by rw [hs.2.2, Function.update_self]
  cases w with
  | rqtail =>
    refine List.pairwise_append.mpr ⟨hold, List.pairwise_singleton _ _, ?_⟩
    intro u hu v hv
    rw [List.mem_singleton.mp hv]
    have hlt := h.stamped l u hu
    unfold Before
    rw [hpl, hat, (hsame u hu).1]
    cases s'.place u with
    | rqtail => exact hlt
    | rqhead => trivial
  | rqhead =>
    refine List.pairwise_cons.mpr ⟨?_, hold⟩
    intro u hu
    have hlt := h.stamped l u hu
    unfold Before
    rw [hpl, hat, (hsame u hu).1]
    cases s'.place u with
    | rqtail => trivial
    | rqhead => exact hlt

theorem link_empty (hr : s.threadRun l = none) (w : Place) :
    IsRing (s.link t l w).next (s.link t l w).prior [t] ∧
    (∀ u, u ≠ t → (s.link t l w).next u = s.next u ∧ (s.link t l w).prior u = s.prior u) ∧
    (s.link t l w).threadRun = Function.update s.threadRun l (some t) ∧
    (s.link t l w).runMask = Function.update s.runMask l true := by
  have hlink : s.link t l w = (((s.modify t fun th => { th with tNext := t, tPrior := t }).setRun l
      (some t)).setMask l true).stamp t w := by
    unfold Sys.link
    rw [hr]
  have hnext : (s.link t l w).next = Function.update s.next t t := by
    rw [hlink]
    exact next_setLinks s t t t
  have hprior : (s.link t l w).prior = Function.update s.prior t t := by
    rw [hlink]
    exact prior_setLinks s t t t
  rw [hnext, hprior]
  refine ⟨?_, ?_, ?_, ?_⟩
  · refine IsRing.iff_inner.mpr ⟨List.nodup_singleton t, List.isChain_singleton t, ?_, ?_⟩
    · exact Function.update_self _ _ _
    · exact Function.update_self _ _ _
  · exact fun u hu => ⟨Function.update_of_ne hu _ _, Function.update_of_ne hu _ _⟩
  · rw [hlink]
    rfl
  · rw [hlink]
    rfl

theorem link_more (h : Linked s Q) (ht : t ∉ Q l) (hr : s.threadRun l = some r) (w : Place) :
    IsRing (s.link t l w).next (s.link t l w).prior (put w t (Q l)) ∧
    (∀ u, u ≠ t → u ∉ Q l → (s.link t l w).next u = s.next u ∧
      (s.link t l w).prior u = s.prior u) ∧
    (s.link t l w).threadRun = Function.update s.threadRun l (put w t (Q l)).getLast? ∧
    (s.link t l w).runMask = s.runMask := by
  obtain ⟨a, q, hq, hrq, hnr, hpa⟩ := h.of_tail hr
  have hrt : r ≠ t := fun he => ht (he ▸ hrq)
  have haq : a ∈ Q l := by simp [hq]
  have hlink := link_some (w := w) hr hrt
  have hnext : (s.link t l w).next = Function.update (Function.update s.next t a) (s.prior a) t := by
    rw [hlink, hpa, ← hnr]
    cases w <;> exact insert_next
  have hprior : (s.link t l w).prior =
      Function.update (Function.update s.prior t (s.prior a)) a t := by
    rw [hlink, hpa, ← hnr]
    cases w <;> exact insert_prior
  have hring := h.ring l
  rw [hq] at hring
  rw [hnext, hprior]
  refine ⟨?_, ?_, ?_, ?_⟩
  · have hta : t ∉ a :: q := hq ▸ ht
    rw [hq]
    cases w with
    | rqtail => exact hring.link_last hta
    | rqhead => exact hring.link hta
  · intro u hu hul
    have hur : u ≠ r := fun he => hul (he ▸ hrq)
    have hua : u ≠ a := fun he => hul (he ▸ haq)
    rw [hpa, Function.update_of_ne hur, Function.update_of_ne hu, Function.update_of_ne hua,
      Function.update_of_ne hu]
    exact ⟨rfl, rfl⟩
  · rw [hlink]
    cases w with
    | rqtail =>
      rw [if_pos rfl, show put .rqtail t (Q l) = Q l ++ [t] from rfl, List.getLast?_concat]
      rfl
    | rqhead =>
      have hlast : (put .rqhead t (Q l)).getLast? = s.threadRun l := by
        rw [h.tail l, hq]
        rfl
      rw [hlast, Function.update_eq_self]
      rfl
  · rw [hlink]
    cases w <;> rfl

theorem link (h : Linked s Q) (ht : ∀ l, t ∉ Q l) (l : Nat) (w : Place) :
    Linked (s.link t l w) (Function.update Q l (put w t (Q l))) := by
  have hnew : put w t (Q l) ≠ [] := List.ne_nil_of_mem (mem_put.mpr (.inl rfl))
  obtain ⟨hc, ha, hp⟩ := link_stamp s t l w
  have hne : ∀ l', ∀ u ∈ Q l', u ≠ t := fun l' u hu he => ht l' (he ▸ hu)
  have hfar : ∀ l', l' ≠ l → ∀ u ∈ Q l', u ∉ Q l := fun l' hl u hu hu' => hl (h.apart l' l u hu hu')
  have hlevel : IsRing (s.link t l w).next (s.link t l w).prior (put w t (Q l)) ∧
      (∀ u, u ≠ t → u ∉ Q l → (s.link t l w).next u = s.next u ∧
        (s.link t l w).prior u = s.prior u) ∧
      (s.link t l w).threadRun = Function.update s.threadRun l (put w t (Q l)).getLast? ∧
      (s.link t l w).runMask = Function.update s.runMask l true := by
    cases hr : s.threadRun l with
    | none =>
      have hput : put w t (Q l) = [t] := by
        rw [h.of_empty hr]
        cases w <;> rfl
      obtain ⟨hring, hl, hrun, hmask⟩ := link_empty (t := t) hr w
      rw [hput]
      exact ⟨hring, fun u hu _ => hl u hu, hrun, hmask⟩
    | some r =>
      obtain ⟨hring, hl, hrun, hmask⟩ := h.link_more (ht l) hr w
      obtain ⟨a, q, hq, -⟩ := h.of_tail hr
      have hset : s.runMask l = true := (h.mask l).mpr (by simp [hq])
      refine ⟨hring, hl, hrun, ?_⟩
      rw [hmask, ← hset, Function.update_eq_self]
  obtain ⟨hring, hlinks, hrun, hmask⟩ := hlevel
  refine h.change hring ?_ hrun ?_ ?_ (h.order_put (ht l) ⟨hc, ha, hp⟩) ?_ ?_ ?_
  · exact fun l' hl u hu => hlinks u (hne l' u hu) (hfar l' hl u hu)
  · rw [hmask, decide_eq_true hnew]
  · intro u hu l' hl hu'
    rcases mem_put.mp hu with rfl | hu
    · exact ht l' hu'
    · exact hfar l' hl u hu' hu
  · intro u hu
    rw [ha, hc]
    by_cases hut : u = t
    · rw [hut, Function.update_self]
      exact Nat.lt_succ_self _
    · rw [Function.update_of_ne hut]
      exact Nat.lt_succ_of_lt (h.stamped l u ((mem_put.mp hu).resolve_left hut))
  · intro l' _ u hu
    rw [ha, hp, Function.update_of_ne (hne l' u hu), Function.update_of_ne (hne l' u hu)]
    exact ⟨rfl, rfl⟩
  · rw [hc]
    exact Nat.le_succ _

theorem unlink (h : Linked s Q) (ht : t ∈ Q l) :
    Linked (s.unlink t l) (Function.update Q l ((Q l).erase t)) := by
  have hring := h.ring l
  have hfar : ∀ l', l' ≠ l → ∀ u ∈ Q l', u ∉ Q l := fun l' hl u hu hu' => hl (h.apart l' l u hu hu')
  obtain ⟨hc, ha, hp⟩ := unlink_stamp s t l
  have hb : ∀ u v, (s.unlink t l).Before u v ↔ s.Before u v := fun u v =>
    before_congr ⟨congrFun ha u, congrFun hp u⟩ ⟨congrFun ha v, congrFun hp v⟩
  have hlevel : IsRing (s.unlink t l).next (s.unlink t l).prior ((Q l).erase t) ∧
      (∀ u, u ∉ Q l → (s.unlink t l).next u = s.next u ∧ (s.unlink t l).prior u = s.prior u) ∧
      (s.unlink t l).threadRun = Function.update s.threadRun l ((Q l).erase t).getLast? ∧
      (s.unlink t l).runMask = Function.update s.runMask l (decide ((Q l).erase t ≠ [])) := by
    by_cases hn : s.next t = t
    · have hq := (hring.alone ht).mp hn
      have hunlink : s.unlink t l = (s.setMask l false).setRun l none := if_pos hn
      rw [hunlink, hq, List.erase_cons_head]
      exact ⟨⟨List.nodup_nil, List.isChain_nil⟩, fun u _ => ⟨rfl, rfl⟩, rfl, rfl⟩
    · have hq : Q l ≠ [t] := fun hq => hn ((hring.alone ht).mpr hq)
      have hpt : s.prior t ≠ t := fun he => hn (by rw [← he, hring.next_prev ht, he])
      have hrem : (Q l).erase t ≠ [] := by
        intro he
        rcases List.erase_eq_nil_iff.mp he with he | he
        · exact List.ne_nil_of_mem ht he
        · exact hq he
      have hset : s.runMask l = true := (h.mask l).mpr (List.ne_nil_of_mem ht)
      have hrun : (s.unlink t l).threadRun =
          Function.update s.threadRun l ((Q l).erase t).getLast? := by
        rw [hring.getLast?_erase ht hq, ← h.tail l, unlink_many hn hpt]
        by_cases hr : s.threadRun l = some t
        · rw [if_pos hr, if_pos hr]
          rfl
        · rw [if_neg hr, if_neg hr, Function.update_eq_self]
          rfl
      have hlinks : (s.unlink t l).next = Function.update s.next (s.prior t) (s.next t) ∧
          (s.unlink t l).prior = Function.update s.prior (s.next t) (s.prior t) := by
        rw [unlink_many hn hpt, ← remove_next, ← remove_prior]
        split <;> exact ⟨rfl, rfl⟩
      refine ⟨?_, ?_, hrun, ?_⟩
      · rw [hlinks.1, hlinks.2]
        exact hring.erase ht hq
      · intro u hu
        have hup : u ≠ s.prior t := fun he => hu (he ▸ hring.prev_mem ht)
        have hun : u ≠ s.next t := fun he => hu (he ▸ hring.next_mem ht)
        rw [hlinks.1, hlinks.2, Function.update_of_ne hup, Function.update_of_ne hun]
        exact ⟨rfl, rfl⟩
      · rw [decide_eq_true hrem, ← hset, Function.update_eq_self, unlink_many hn hpt]
        split <;> rfl
  obtain ⟨hr, hlinks, hrun, hmask⟩ := hlevel
  refine h.change hr ?_ hrun hmask ?_ ?_ ?_ ?_ (le_of_eq hc.symm)
  · exact fun l' hl u hu => hlinks u (hfar l' hl u hu)
  · exact fun u hu l' hl hu' => hfar l' hl u hu' (List.mem_of_mem_erase hu)
  · exact ((h.order l).sublist List.erase_sublist).imp fun hbe => (hb _ _).mpr hbe
  · intro u hu
    rw [ha, hc]
    exact h.stamped l u (List.mem_of_mem_erase hu)
  · exact fun l' _ u _ => ⟨congrFun ha u, congrFun hp u⟩

end Linked

end Sys

end Aix413.Dispatch
