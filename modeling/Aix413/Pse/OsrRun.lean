import Aix413.Lib.LinkedPool

namespace Aix413.Pse

open Lib.LinkedPool

/-! ## Requests on one queue -/

/-- Where a request is in `osr_run`. -/
inductive Phase
  | out
  /-- In `e_block_thread`, awakened or not. -/
  | waiting (woken : Bool)
  | interrupted
  /-- Past the wait. -/
  | past
  /-- Off the queue, with `e_wakeup` to come for request `w`, in its call number `n`. -/
  | waking (w n : Nat)
deriving DecidableEq

/-- The queue; requests are numbered in the order they are queued. -/
structure State where
  next : Nat → Nat
  first : Nat
  last : Nat
  phase : Nat → Phase
  ticket : Nat → Nat
  count : Nat
  started : List Nat
  cut : List Nat

namespace State

variable (s : State) (o : Nat)

def setPhase (p : Phase) : State := { s with phase := Function.update s.phase o p }

/-- The request is queued, and goes on at once if there is no other. -/
def arrive : State :=
  let s := { s with
    next := Function.update s.next o 0
    ticket := Function.update s.ticket o s.count
    count := s.count + 1 }
  if s.first = 0 then
    { s with first := o, last := o, started := s.started ++ [s.ticket o] }.setPhase o .past
  else { s with next := Function.update s.next s.last o, last := o }.setPhase o (.waiting false)

/-- A request that has been awakened looks whether it is the first. -/
def resume : State :=
  if s.first = o then { s with started := s.started ++ [s.ticket o] }.setPhase o .past
  else s.setPhase o (.waiting false)

/-- A signal ends the wait. -/
def signal : State := { s with cut := s.cut ++ [s.ticket o] }.setPhase o .interrupted

/-- The label `done`. -/
def leave : Option State :=
  if s.first = o then
    let w := s.next o
    some ({ s with first := w }.setPhase o (if w = 0 then .out else .waking w (s.ticket w)))
  else do
    let p ← find s.next (fun k => s.next k = o) (s.count + 1) s.first
    some ({ s with
      next := if p = 0 then s.next else Function.update s.next p (s.next o)
      last := if p ≠ 0 ∧ s.next o = 0 then p else s.last }.setPhase o .out)

/-- `e_wakeup`, for a request that may sleep or not. -/
def wakeup (w : Nat) : State :=
  let s := if s.phase w = .waiting false then s.setPhase w (.waiting true) else s
  s.setPhase o .out

end State

inductive Act
  | arrive (o : Nat)
  | resume (o : Nat)
  | signal (o : Nat)
  | leave (o : Nat)
  | wakeup (o : Nat)

namespace State

variable (s : State)

def Enabled : Act → Prop
  | .arrive o => o ≠ 0 ∧ s.phase o = .out
  | .resume o => s.phase o = .waiting true
  | .signal o => s.phase o = .waiting false
  | .leave o => s.phase o = .past ∨ s.phase o = .interrupted
  | .wakeup o => ∃ w n, s.phase o = .waking w n

def step : Act → Option State
  | .arrive o => some (s.arrive o)
  | .resume o => some (s.resume o)
  | .signal o => some (s.signal o)
  | .leave o => s.leave o
  | .wakeup o =>
    match s.phase o with
    | .waking w _ => some (s.wakeup o w)
    | _ => some s

end State

/-- A request is on the queue. -/
def Phase.Queued : Phase → Prop
  | waiting _ => True
  | interrupted => True
  | past => True
  | _ => False

/-- The chain from `first` to `last`. -/
structure Queue (s : State) (l : List Nat) : Prop where
  chain : Chain s.next s.first l
  last : ∀ o ∈ l.getLast?, s.last = o

structure Inv (s : State) (l : List Nat) : Prop where
  queue : Queue s l
  mem : ∀ o, o ∈ l ↔ (s.phase o).Queued
  sorted : (l.map s.ticket).Pairwise (· < ·)
  below : ∀ o ∈ l, s.ticket o < s.count
  known : ∀ k < s.count, (∃ o ∈ l, s.ticket o = k) ∨ k ∈ s.started ∨ k ∈ s.cut
  first : ∀ o, s.phase o = .past → s.first = o ∧ s.ticket o ∈ s.started
  ended : ∀ o, s.phase o = .interrupted → s.ticket o ∈ s.cut
  unstarted : ∀ o b, s.phase o = .waiting b → s.ticket o ∉ s.started ∧ s.ticket o ∉ s.cut
  order : s.started.Pairwise (· < ·)
  bound : ∀ m ∈ s.started, m < s.count
  boundCut : ∀ m ∈ s.cut, m < s.count
  earlier : ∀ m ∈ s.started, ∀ k < m, k ∈ s.started ∨ k ∈ s.cut
  head : s.first ≠ 0 → s.phase s.first ≠ .waiting false ∨ ∃ p n, s.phase p = .waking s.first n

variable {s s' : State} {l l₁ l₂ : List Nat} {o j k w n : Nat} {p : Phase}

theorem State.setPhase_cases (s : State) (o : Nat) (p : Phase) (j : Nat) :
    j = o ∧ Function.update s.phase o p j = p ∨
      j ≠ o ∧ Function.update s.phase o p j = s.phase j := by
  by_cases hj : j = o
  · subst hj
    exact .inl ⟨rfl, Function.update_self _ _ _⟩
  · exact .inr ⟨hj, Function.update_of_ne hj _ _⟩

namespace Inv

theorem ticket_inj (h : Inv s l) (hj : j ∈ l) (hk : k ∈ l) (he : s.ticket j = s.ticket k) :
    j = k := by
  have hnd : (l.map s.ticket).Nodup := h.sorted.imp fun hlt => hlt.ne
  exact List.inj_on_of_nodup_map hnd hj hk he

/-- The first request was queued before the others. -/
theorem first_le (h : Inv s l) (ho : s.first = o) (hj : j ∈ l) : s.ticket o ≤ s.ticket j := by
  have hc := h.queue.chain
  cases l with
  | nil => exact nomatch hj
  | cons i l =>
    have hi : i = o := hc.1.symm.trans ho
    subst hi
    rcases List.mem_cons.mp hj with rfl | hj
    · exact le_rfl
    · exact (List.rel_of_pairwise_cons h.sorted (List.mem_map_of_mem hj)).le

/-- No request that has started was queued after one that waits. -/
theorem started_lt (h : Inv s l) {b : Bool} (ho : s.phase o = .waiting b) :
    ∀ m ∈ s.started, m < s.ticket o := by
  intro m hm
  obtain ⟨h₁, h₂⟩ := h.unstarted o b ho
  rcases Nat.lt_trichotomy m (s.ticket o) with hlt | heq | hgt
  · exact hlt
  · exact absurd (heq ▸ hm) h₁
  · exact ((h.earlier m hm _ hgt).elim h₁ h₂).elim

/-- The first request still is not waiting unseen when another one changes its phase. -/
theorem head_update (h : Inv s l) (hne : s.first ≠ 0) (hfirst : s.first ≠ o)
    (ho : ∀ n, s.phase o ≠ .waking s.first n) :
    Function.update s.phase o p s.first ≠ .waiting false ∨
      ∃ i n, Function.update s.phase o p i = .waking s.first n := by
  rw [Function.update_of_ne hfirst]
  refine (h.head hne).imp_right fun ⟨i, n, hi⟩ =>
    ⟨i, n, (Function.update_of_ne ?_ _ _).trans hi⟩
  rintro rfl
  exact ho n hi

/-- One request changes its phase, the queue stays. -/
theorem rephase (h : Inv s l) {started cut : List Nat} (hq : p.Queued ↔ (s.phase o).Queued)
    (hkept : (∀ m ∈ s.started, m ∈ started) ∧ ∀ m ∈ s.cut, m ∈ cut)
    (hopen : ∀ j b, j ≠ o → s.phase j = .waiting b → s.ticket j ∉ started ∧ s.ticket j ∉ cut)
    (horder : started.Pairwise (· < ·)) (hbound : ∀ m ∈ started, m < s.count)
    (hcut : ∀ m ∈ cut, m < s.count) (hearlier : ∀ m ∈ started, ∀ k < m, k ∈ started ∨ k ∈ cut)
    (hpast : p = .past → s.first = o ∧ s.ticket o ∈ started)
    (hended : p = .interrupted → s.ticket o ∈ cut)
    (hwait : ∀ b, p = .waiting b → s.ticket o ∉ started ∧ s.ticket o ∉ cut)
    (hhead : s.first ≠ 0 → Function.update s.phase o p s.first ≠ .waiting false ∨
      ∃ i n, Function.update s.phase o p i = .waking s.first n) :
    Inv ({ s with started := started, cut := cut }.setPhase o p) l := by
  have hphase := s.setPhase_cases o p
  exact
    { queue := ⟨h.queue.chain, h.queue.last⟩
      mem := fun j => by
        change _ ↔ (Function.update s.phase o p j).Queued
        rcases hphase j with ⟨rfl, he⟩ | ⟨-, he⟩
        · rw [he, hq, h.mem]
        · rw [he, h.mem]
      sorted := h.sorted
      below := h.below
      known := fun k hk => (h.known k hk).imp_right (Or.imp (hkept.1 k) (hkept.2 k))
      first := fun j hj => by
        change Function.update s.phase o p j = _ at hj
        rcases hphase j with ⟨rfl, he⟩ | ⟨-, he⟩
        · exact hpast (he.symm.trans hj)
        · exact (h.first j (he.symm.trans hj)).imp_right (hkept.1 _)
      ended := fun j hj => by
        change Function.update s.phase o p j = _ at hj
        rcases hphase j with ⟨rfl, he⟩ | ⟨-, he⟩
        · exact hended (he.symm.trans hj)
        · exact hkept.2 _ (h.ended j (he.symm.trans hj))
      unstarted := fun j b hj => by
        change Function.update s.phase o p j = _ at hj
        rcases hphase j with ⟨rfl, he⟩ | ⟨hne, he⟩
        · exact hwait b (he.symm.trans hj)
        · exact hopen j b hne (he.symm.trans hj)
      order := horder
      bound := hbound
      boundCut := hcut
      earlier := hearlier
      head := hhead }

theorem resume (h : Inv s l) (ho : s.phase o = .waiting true) : Inv (s.resume o) l := by
  have hmem : o ∈ l := (h.mem o).mpr (by rw [ho]; trivial)
  unfold State.resume
  by_cases hfirst : s.first = o
  · rw [if_pos hfirst]
    have hlast := List.mem_singleton.mpr (rfl : s.ticket o = s.ticket o)
    refine h.rephase (by rw [ho]; exact Iff.rfl) ⟨fun m hm => List.mem_append_left _ hm,
      fun _ hm => hm⟩ (fun j b hj hw => ?_) ?_ (fun m hm => ?_) h.boundCut (fun m hm k hk => ?_)
      (fun _ => ⟨hfirst, List.mem_append_right _ hlast⟩) nofun nofun fun _ => ?_
    · obtain ⟨h₁, h₂⟩ := h.unstarted j b hw
      refine ⟨fun hm => ?_, h₂⟩
      rcases List.mem_append.mp hm with hm | hm
      · exact h₁ hm
      · exact hj (h.ticket_inj ((h.mem j).mpr (by rw [hw]; trivial)) hmem
          (List.mem_singleton.mp hm))
    · exact List.pairwise_append.mpr ⟨h.order, List.pairwise_singleton _ _,
        fun m hm k hk => List.mem_singleton.mp hk ▸ h.started_lt ho m hm⟩
    · rcases List.mem_append.mp hm with hm | hm
      · exact h.bound m hm
      · exact List.mem_singleton.mp hm ▸ h.below o hmem
    · rcases List.mem_append.mp hm with hm | hm
      · exact (h.earlier m hm k hk).imp_left (List.mem_append_left _)
      · rw [List.mem_singleton.mp hm] at hk
        rcases h.known k (hk.trans (h.below o hmem)) with ⟨j, hj, rfl⟩ | hor
        · exact absurd (h.first_le hfirst hj) (Nat.not_le_of_lt hk)
        · exact hor.imp_left (List.mem_append_left _)
    · rw [hfirst, Function.update_self]
      exact .inl nofun
  · rw [if_neg hfirst]
    refine h.rephase (by rw [ho]; exact Iff.rfl) ⟨fun _ hm => hm, fun _ hm => hm⟩
      (fun j b _ hw => h.unstarted j b hw) h.order h.bound h.boundCut h.earlier nofun nofun
      (fun b _ => h.unstarted o true ho) fun hne => ?_
    exact h.head_update hne hfirst fun n hn => nomatch ho.symm.trans hn

theorem signal (h : Inv s l) (ho : s.phase o = .waiting false) : Inv (s.signal o) l := by
  have hmem : o ∈ l := (h.mem o).mpr (by rw [ho]; trivial)
  refine h.rephase (by rw [ho]; exact Iff.rfl) ⟨fun _ hm => hm,
    fun m hm => List.mem_append_left _ hm⟩ (fun j b hj hw => ?_) h.order h.bound (fun m hm => ?_)
    (fun m hm k hk => (h.earlier m hm k hk).imp_right (List.mem_append_left _)) nofun
    (fun _ => List.mem_append_right _ (List.mem_singleton.mpr rfl)) nofun fun hne => ?_
  · obtain ⟨h₁, h₂⟩ := h.unstarted j b hw
    refine ⟨h₁, fun hm => ?_⟩
    rcases List.mem_append.mp hm with hm | hm
    · exact h₂ hm
    · exact hj (h.ticket_inj ((h.mem j).mpr (by rw [hw]; trivial)) hmem (List.mem_singleton.mp hm))
  · rcases List.mem_append.mp hm with hm | hm
    · exact h.boundCut m hm
    · exact List.mem_singleton.mp hm ▸ h.below o hmem
  · by_cases hfirst : s.first = o
    · rw [hfirst, Function.update_self]
      exact .inl nofun
    · exact h.head_update hne hfirst fun n hn => nomatch ho.symm.trans hn

theorem wakeup (h : Inv s l) (ho : s.phase o = .waking w n) : Inv (s.wakeup o w) l := by
  have hleave : ∀ {t : State}, Inv t l → t.phase o = .waking w n →
      (t.first = w → t.phase w ≠ .waiting false) → Inv (t.setPhase o .out) l := by
    intro t ht hto hfirst
    refine ht.rephase (by rw [hto]; exact Iff.rfl) ⟨fun _ hm => hm, fun _ hm => hm⟩
      (fun j b _ hw => ht.unstarted j b hw) ht.order ht.bound ht.boundCut ht.earlier nofun nofun
      nofun fun hne => ?_
    by_cases hto' : t.first = o
    · rw [hto', Function.update_self]
      exact .inl nofun
    · by_cases hw : t.first = w
      · rw [Function.update_of_ne hto']
        exact .inl (hw ▸ hfirst hw)
      · refine ht.head_update hne hto' fun m hm => hw ?_
        cases hto.symm.trans hm
        rfl
  unfold State.wakeup
  dsimp only
  by_cases hw : s.phase w = .waiting false
  · rw [if_pos hw]
    have hwo : o ≠ w := by
      rintro rfl
      exact nomatch ho.symm.trans hw
    have hself : (s.setPhase w (.waiting true)).phase w = .waiting true :=
      Function.update_self _ _ _
    refine hleave (h.rephase (by rw [hw]; exact Iff.rfl) ⟨fun _ hm => hm, fun _ hm => hm⟩
      (fun j b _ hj => h.unstarted j b hj) h.order h.bound h.boundCut h.earlier nofun nofun
      (fun b _ => h.unstarted w false hw) fun hne => ?_)
      ((Function.update_of_ne hwo _ _).trans ho) fun _ => by rw [hself]; nofun
    by_cases hfirst : s.first = w
    · rw [hfirst, Function.update_self]
      exact .inl nofun
    · exact h.head_update hne hfirst fun m hm => nomatch hw.symm.trans hm
  · rw [if_neg hw]
    exact hleave h ho fun _ => hw

end Inv

namespace Inv

theorem pos (h : Inv s l) (ho : o ∈ l) : o ≠ 0 := h.queue.chain.ne_zero ho

theorem arrive (h : Inv s l) (ho : o ≠ 0) (hout : s.phase o = .out) :
    Inv (s.arrive o) (l ++ [o]) := by
  have hmem : o ∉ l := fun hm => by
    have hq := (h.mem o).mp hm
    rw [hout] at hq
    exact hq
  have hne : ∀ j ∈ l, j ≠ o := by
    rintro j hj rfl
    exact hmem hj
  let ticket := Function.update s.ticket o s.count
  have hticket : ∀ j, j ≠ o → ticket j = s.ticket j := fun j hj => Function.update_of_ne hj _ _
  have hself : ticket o = s.count := Function.update_self _ _ _
  have hmap : l.map ticket = l.map s.ticket := List.map_congr_left fun j hj => hticket j (hne j hj)
  have hphase := s.setPhase_cases o
  have hmem' : ∀ p : Phase, p.Queued → ∀ j, j ∈ l ++ [o] ↔
      (Function.update s.phase o p j).Queued := by
    intro p hp j
    rw [List.mem_append, List.mem_singleton]
    rcases hphase p j with ⟨rfl, he⟩ | ⟨hj, he⟩
    · rw [he]
      exact ⟨fun _ => hp, fun _ => .inr rfl⟩
    · rw [he, ← h.mem, or_iff_left hj]
  have hsorted : ((l ++ [o]).map ticket).Pairwise (· < ·) := by
    rw [List.map_append, hmap]
    refine List.pairwise_append.mpr ⟨h.sorted, List.pairwise_singleton _ _, fun m hm k hk => ?_⟩
    obtain ⟨j, hj, rfl⟩ := List.mem_map.mp hm
    rw [List.mem_singleton.mp hk, hself]
    exact h.below j hj
  have hbelow : ∀ j ∈ l ++ [o], ticket j < s.count + 1 := by
    intro j hj
    rcases List.mem_append.mp hj with hj | hj
    · rw [hticket j (hne j hj)]
      exact Nat.lt_succ_of_lt (h.below j hj)
    · rw [List.mem_singleton.mp hj, hself]
      exact Nat.lt_succ_self _
  have hknown : ∀ k < s.count + 1, (∃ j ∈ l ++ [o], ticket j = k) ∨ k ∈ s.started ∨
      k ∈ s.cut := by
    intro k hk
    rcases Nat.eq_or_lt_of_le (Nat.le_of_lt_succ hk) with rfl | hlt
    · exact .inl ⟨o, by simp, hself⟩
    · refine (h.known k hlt).imp_left fun ⟨j, hj, he⟩ => ⟨j, List.mem_append_left _ hj, ?_⟩
      rw [hticket j (hne j hj), he]
  have hcount : s.count ∉ s.started := fun hm => absurd (h.bound _ hm) (lt_irrefl _)
  have hcut : s.count ∉ s.cut := fun hm => absurd (h.boundCut _ hm) (lt_irrefl _)
  unfold State.arrive
  dsimp only
  by_cases hfirst : s.first = 0
  · rw [if_pos hfirst]
    have hl : l = [] := by
      cases l with
      | nil => rfl
      | cons i l =>
        have hc := h.queue.chain
        exact absurd (hc.1.symm.trans hfirst) hc.2.1
    subst hl
    have hnone : ∀ j, ¬(s.phase j).Queued := fun j hq => nomatch (h.mem j).mpr hq
    exact
      { queue := by
          refine ⟨⟨rfl, ho, Function.update_self _ _ _⟩, fun i hi => ?_⟩
          exact Option.some.inj hi
        mem := hmem' .past trivial
        sorted := hsorted
        below := hbelow
        known := fun k hk => (hknown k hk).imp_right (Or.imp_left (List.mem_append_left _))
        first := fun j hj => by
          change Function.update s.phase o .past j = _ at hj
          rcases hphase .past j with ⟨rfl, -⟩ | ⟨-, he⟩
          · exact ⟨rfl, List.mem_append_right _ (List.mem_singleton.mpr rfl)⟩
          · exact absurd (he.symm.trans hj ▸ trivial) (hnone j)
        ended := fun j hj => by
          change Function.update s.phase o .past j = _ at hj
          rcases hphase .past j with ⟨rfl, he⟩ | ⟨-, he⟩
          · exact nomatch he.symm.trans hj
          · exact absurd (he.symm.trans hj ▸ trivial) (hnone j)
        unstarted := fun j b hj => by
          change Function.update s.phase o .past j = _ at hj
          rcases hphase .past j with ⟨rfl, he⟩ | ⟨-, he⟩
          · exact nomatch he.symm.trans hj
          · exact absurd (he.symm.trans hj ▸ trivial) (hnone j)
        order := List.pairwise_append.mpr ⟨h.order, List.pairwise_singleton _ _,
          fun m hm k hk => by
            rw [List.mem_singleton.mp hk]
            exact (h.bound m hm).trans_eq hself.symm⟩
        boundCut := fun m hm => Nat.lt_succ_of_lt (h.boundCut m hm)
        bound := fun m hm => by
          rcases List.mem_append.mp hm with hm | hm
          · exact Nat.lt_succ_of_lt (h.bound m hm)
          · rw [List.mem_singleton.mp hm]
            exact hself.trans_lt (Nat.lt_succ_self _)
        earlier := fun m hm k hk => by
          rcases List.mem_append.mp hm with hm | hm
          · exact (h.earlier m hm k hk).imp_left (List.mem_append_left _)
          · rw [List.mem_singleton.mp hm] at hk
            have hlt : k < s.count := hk.trans_eq hself
            exact ((h.known k hlt).resolve_left fun ⟨j, hj, _⟩ => nomatch hj).imp_left
              (List.mem_append_left _)
        head := fun _ => .inl (by
          change Function.update s.phase o .past o ≠ _
          rw [Function.update_self]
          nofun) }
  · rw [if_neg hfirst]
    have hfo : s.first ≠ o := by
      intro he
      cases l with
      | nil => exact hfirst h.queue.chain
      | cons i l => exact hne i List.mem_cons_self (h.queue.chain.1.symm.trans he)
    exact
      { queue := by
          cases l.eq_nil_or_concat with
          | inl hnil =>
            subst hnil
            exact absurd h.queue.chain hfirst
          | inr hcat =>
            obtain ⟨l₁, q, rfl⟩ := hcat
            have hq : s.last = q := h.queue.last q (by simp)
            have hc := h.queue.chain.update hmem 0
            rw [List.concat_eq_append] at hc hmem ⊢
            refine ⟨?_, fun i hi => ?_⟩
            · change Chain (Function.update (Function.update s.next o 0) s.last o) s.first _
              rw [hq, List.append_assoc]
              exact hc.snoc ho hmem (Function.update_self _ _ _)
            · rw [List.getLast?_concat] at hi
              exact Option.some.inj hi
        mem := hmem' (.waiting false) trivial
        sorted := hsorted
        below := hbelow
        known := hknown
        first := fun j hj => by
          change Function.update s.phase o (.waiting false) j = _ at hj
          rcases hphase (.waiting false) j with ⟨rfl, he⟩ | ⟨hj', he⟩
          · exact nomatch he.symm.trans hj
          · obtain ⟨h₁, h₂⟩ := h.first j (he.symm.trans hj)
            refine ⟨h₁, ?_⟩
            change ticket j ∈ s.started
            rwa [hticket j hj']
        ended := fun j hj => by
          change Function.update s.phase o (.waiting false) j = _ at hj
          rcases hphase (.waiting false) j with ⟨rfl, he⟩ | ⟨hj', he⟩
          · exact nomatch he.symm.trans hj
          · change ticket j ∈ s.cut
            rw [hticket j hj']
            exact h.ended j (he.symm.trans hj)
        unstarted := fun j b hj => by
          change Function.update s.phase o (.waiting false) j = _ at hj
          change ticket j ∉ s.started ∧ ticket j ∉ s.cut
          rcases hphase (.waiting false) j with ⟨rfl, -⟩ | ⟨hj', he⟩
          · rw [hself]
            exact ⟨hcount, hcut⟩
          · rw [hticket j hj']
            exact h.unstarted j b (he.symm.trans hj)
        order := h.order
        bound := fun m hm => Nat.lt_succ_of_lt (h.bound m hm)
        boundCut := fun m hm => Nat.lt_succ_of_lt (h.boundCut m hm)
        earlier := h.earlier
        head := fun hne' => by
          change Function.update s.phase o _ s.first ≠ _ ∨
            ∃ i n, Function.update s.phase o _ i = .waking s.first n
          exact h.head_update hne' hfo fun m hm => nomatch hout.symm.trans hm }

end Inv

namespace Inv

/-- A request is taken off the queue. -/
theorem unqueue (h : Inv s l) (hl : l = l₁ ++ o :: l₂)
    (ho : s.phase o = .past ∨ s.phase o = .interrupted) {next : Nat → Nat} {first last : Nat}
    (hqueue : Queue { s with next := next, first := first, last := last } (l₁ ++ l₂))
    (hp : ¬p.Queued) (hfirst : s.first ≠ o → first = s.first)
    (hhead : first ≠ 0 → Function.update s.phase o p first ≠ .waiting false ∨
      ∃ i n, Function.update s.phase o p i = .waking first n) :
    Inv ({ s with next := next, first := first, last := last }.setPhase o p) (l₁ ++ l₂) := by
  have hnd := h.queue.chain.nodup
  have hsorted := h.sorted
  rw [hl, List.nodup_middle, List.nodup_cons] at hnd
  rw [hl, List.map_append, List.map_cons] at hsorted
  have hsub : ∀ j, j ∈ l ↔ j = o ∨ j ∈ l₁ ++ l₂ := by
    intro j
    rw [hl]
    simp only [List.mem_append, List.mem_cons]
    tauto
  have hphase := s.setPhase_cases o p
  have hkeep : ∀ {q : Phase} {j}, q.Queued → Function.update s.phase o p j = q →
      j ≠ o ∧ s.phase j = q := by
    intro q j hq hj
    rcases hphase j with ⟨-, he⟩ | ⟨hne, he⟩
    · exact absurd (he.symm.trans hj ▸ hq) hp
    · exact ⟨hne, he.symm.trans hj⟩
  exact
    { queue := ⟨hqueue.chain, hqueue.last⟩
      mem := fun j => by
        change _ ↔ (Function.update s.phase o p j).Queued
        rcases hphase j with ⟨rfl, he⟩ | ⟨hne, he⟩
        · rw [he]
          exact ⟨fun hm => absurd hm hnd.1, fun hq => absurd hq hp⟩
        · rw [he, ← h.mem, hsub, or_iff_right hne]
      sorted := by
        rw [List.map_append]
        exact hsorted.sublist ((List.Sublist.refl _).append (List.sublist_cons_self _ _))
      below := fun j hj => h.below j ((hsub j).mpr (.inr hj))
      known := fun k hk => by
        rcases h.known k hk with ⟨j, hj, rfl⟩ | hor
        · rcases (hsub j).mp hj with rfl | hj
          · exact .inr (ho.imp (fun hq => (h.first j hq).2) fun hq => h.ended j hq)
          · exact .inl ⟨j, hj, rfl⟩
        · exact .inr hor
      first := fun j hj => by
        obtain ⟨hne, hj⟩ := hkeep (q := .past) trivial hj
        obtain ⟨h₁, h₂⟩ := h.first j hj
        exact ⟨(hfirst fun he => hne (h₁.symm.trans he)).trans h₁, h₂⟩
      ended := fun j hj => h.ended j (hkeep (q := .interrupted) trivial hj).2
      unstarted := fun j b hj => h.unstarted j b (hkeep (q := .waiting b) trivial hj).2
      order := h.order
      bound := h.bound
      boundCut := h.boundCut
      earlier := h.earlier
      head := hhead }

theorem length_le (h : Inv s l) : l.length ≤ s.count := by
  have hnd : (l.map s.ticket).Nodup := h.sorted.imp fun hlt => hlt.ne
  have hsub : l.map s.ticket ⊆ List.range s.count := by
    intro k hk
    obtain ⟨j, hj, rfl⟩ := List.mem_map.mp hk
    exact List.mem_range.mpr (h.below j hj)
  have hle := hnd.length_le_of_subset hsub
  rwa [List.length_map, List.length_range] at hle

/-- The end of `osr_run`: the others keep their order. -/
theorem leave (h : Inv s l) (ho : s.phase o = .past ∨ s.phase o = .interrupted) :
    ∃ s', s.leave o = some s' ∧ Inv s' (l.erase o) ∧ s'.ticket = s.ticket := by
  have hmem : o ∈ l := (h.mem o).mpr (by rcases ho with ho | ho <;> rw [ho] <;> trivial)
  have hc := h.queue.chain
  have hnd := hc.nodup
  unfold State.leave
  by_cases hfirst : s.first = o
  · rw [if_pos hfirst]
    cases l with
    | nil => exact nomatch hmem
    | cons i l =>
      obtain rfl : i = o := hc.1.symm.trans hfirst
      rw [List.erase_cons_head]
      have hsplit : i :: l = [] ++ i :: l := rfl
      refine ⟨_, rfl, h.unqueue hsplit ho ⟨hc.2.2, fun j hj => ?_⟩ ?_
        (fun hne => absurd hfirst hne) fun hne => ?_, rfl⟩
      · refine h.queue.last j ?_
        rw [List.nil_append] at hj
        cases l with
        | nil => exact nomatch hj
        | cons k l => rwa [List.getLast?_cons_cons]
      · split_ifs
        · exact id
        · exact id
      · rw [if_neg hne]
        exact .inr ⟨i, _, Function.update_self _ _ _⟩
  · rw [if_neg hfirst]
    obtain ⟨q, hq, hor⟩ := find_cases (p := fun k => s.next k = o) hc
      (Nat.lt_succ_of_le h.length_le)
    rw [hq, Option.bind_eq_bind, Option.bind_some]
    obtain ⟨hql, hqo⟩ := hor.resolve_left fun hno => by
      obtain ⟨j, hj, he⟩ := hc.exists_before hmem (Ne.symm hfirst)
      exact of_decide_eq_false (hno.2 j hj) he
    have hqo : s.next q = o := of_decide_eq_true hqo
    have hq0 := hc.ne_zero hql
    obtain ⟨l₁, l₂', hsplit⟩ := List.append_of_mem hql
    rw [hsplit] at hc
    have hnext : o = l₂'.headD 0 := hqo.symm.trans hc.next_eq
    cases l₂' with
    | nil => exact absurd hnext (h.pos hmem)
    | cons i l₂ =>
      obtain rfl : o = i := hnext
      have hl : l = (l₁ ++ [q]) ++ o :: l₂ := by rw [hsplit]; simp
      have hno : o ∉ l₁ ++ [q] := by
        rw [hl, List.nodup_middle, List.nodup_cons] at hnd
        exact fun hm => hnd.1 (List.mem_append_left _ hm)
      have hlast : s.next o = l₂.headD 0 := by
        have hc' := h.queue.chain
        rw [hl] at hc'
        exact hc'.next_eq
      have herase : l.erase o = (l₁ ++ [q]) ++ l₂ := by
        rw [hl, List.erase_append_right _ hno, List.erase_cons_head]
      rw [herase]
      refine ⟨_, rfl, h.unqueue hl ho ⟨?_, fun j hj => ?_⟩ id (fun _ => rfl) fun hne => ?_, rfl⟩
      · change Chain (if q = 0 then s.next else Function.update s.next q (s.next o)) s.first _
        rw [if_neg hq0, List.append_assoc]
        exact hc.bypass
      · change (if q ≠ 0 ∧ s.next o = 0 then q else s.last) = j
        cases l₂ with
        | nil =>
          rw [if_pos ⟨hq0, hlast⟩]
          rw [List.append_nil, List.getLast?_concat] at hj
          exact Option.some.inj hj
        | cons k l₂ =>
          have hk0 : s.next o ≠ 0 := hlast ▸ h.pos (by rw [hl]; simp)
          rw [if_neg fun hn => hk0 hn.2]
          refine h.queue.last j ?_
          rw [hl, List.getLast?_append_of_ne_nil _ (List.cons_ne_nil _ _), List.getLast?_cons_cons]
          rwa [List.getLast?_append_of_ne_nil _ (List.cons_ne_nil _ _)] at hj
      · refine h.head_update hne hfirst fun m hm => ?_
        rcases ho with ho | ho <;> exact nomatch ho.symm.trans hm

end Inv

/-! ## Runs -/

namespace State

structure Initial (s : State) : Prop where
  first : s.first = 0
  out : ∀ o, s.phase o = .out
  count : s.count = 0
  started : s.started = []
  cut : s.cut = []

def Next (P : State → Act → Prop) (s s' : State) : Prop :=
  ∃ act, s.Enabled act ∧ P s act ∧ s.step act = some s'

/-- The states of runs whose steps satisfy `P`. -/
def Reached (P : State → Act → Prop) (s : State) : Prop :=
  ∃ s₀, Initial s₀ ∧ Relation.ReflTransGen (Next P) s₀ s

/-- No request is interrupted when, or after, it has been chosen to be awakened. -/
def Meets (s : State) : Act → Prop
  | .signal o => ∀ p n, s.phase p ≠ .waking o n
  | .leave o => s.first = o → s.phase (s.next o) ≠ .interrupted
  | _ => True

end State

theorem State.Initial.inv (h : s.Initial) : Inv s [] where
  queue := ⟨h.first, nofun⟩
  mem := fun o => by
    rw [h.out]
    exact ⟨nofun, False.elim⟩
  sorted := List.Pairwise.nil
  below := nofun
  known := fun k hk => absurd (h.count ▸ hk) (Nat.not_lt_zero k)
  first := fun o ho => nomatch (h.out o).symm.trans ho
  ended := fun o ho => nomatch (h.out o).symm.trans ho
  unstarted := fun o b ho => nomatch (h.out o).symm.trans ho
  order := by
    rw [h.started]
    exact List.Pairwise.nil
  bound := by
    rw [h.started]
    exact nofun
  boundCut := by
    rw [h.cut]
    exact nofun
  earlier := by
    rw [h.started]
    exact nofun
  head := fun hne => absurd h.first hne

theorem Inv.step (h : Inv s l) {act : Act} (hen : s.Enabled act) (hstep : s.step act = some s') :
    ∃ l', Inv s' l' := by
  cases act with
  | arrive o =>
    cases hstep
    exact ⟨_, h.arrive hen.1 hen.2⟩
  | resume o =>
    cases hstep
    exact ⟨l, h.resume hen⟩
  | signal o =>
    cases hstep
    exact ⟨l, h.signal hen⟩
  | leave o =>
    obtain ⟨s₁, hs₁, hinv, -⟩ := h.leave hen
    cases Option.some.inj (hs₁.symm.trans hstep)
    exact ⟨_, hinv⟩
  | wakeup o =>
    obtain ⟨w, n, ho⟩ := hen
    unfold State.step at hstep
    dsimp only at hstep
    rw [ho] at hstep
    cases hstep
    exact ⟨l, h.wakeup ho⟩

theorem State.Reached.inv {P : State → Act → Prop} (h : s.Reached P) : ∃ l, Inv s l := by
  obtain ⟨s₀, h₀, hrun⟩ := h
  induction hrun with
  | refl => exact ⟨[], h₀.inv⟩
  | tail _ hnext ih =>
    obtain ⟨l, hinv⟩ := ih
    obtain ⟨act, hen, -, hstep⟩ := hnext
    exact hinv.step hen hstep

/-- Only the first request is awakened, by one request, once. -/
structure Tidy (s : State) : Prop where
  woken : ∀ o, s.phase o = .waiting true → s.first = o ∧ ∀ p n, s.phase p ≠ .waking o n
  chosen : ∀ p w n, s.phase p = .waking w n →
    s.phase w = .waiting false ∧ s.first = w ∧ s.ticket w = n
  one : ∀ p p' w w' n n', s.phase p = .waking w n → s.phase p' = .waking w' n' → p = p'

/-- One request that nobody is going to awaken changes its phase. -/
theorem Tidy.rephase (ht : Tidy s) (hphase : s'.phase = Function.update s.phase o p)
    (hticket : ∀ j, j ≠ o → s'.ticket j = s.ticket j) (hp : ∀ w n, p ≠ .waking w n)
    (hwoken : p ≠ .waiting true) (hno : ∀ i n, s.phase i ≠ .waking o n)
    (hfirst : ∀ j b, j ≠ o → s.phase j = .waiting b → s.first = j → s'.first = j) : Tidy s' := by
  have hold : ∀ {j q}, q ≠ p → s'.phase j = q → j ≠ o ∧ s.phase j = q := by
    intro j q hq hj
    rw [hphase] at hj
    by_cases hjo : j = o
    · subst hjo
      rw [Function.update_self] at hj
      exact absurd hj.symm hq
    · rw [Function.update_of_ne hjo] at hj
      exact ⟨hjo, hj⟩
  have hwaking : ∀ {i w n}, s'.phase i = .waking w n → s.phase i = .waking w n :=
    fun hi => (hold (hp _ _).symm hi).2
  refine ⟨fun j hj => ?_, fun i w n hi => ?_,
    fun i i' w w' n n' hi hi' => ht.one i i' w w' n n' (hwaking hi) (hwaking hi')⟩
  · obtain ⟨hjo, hj⟩ := hold hwoken.symm hj
    obtain ⟨h₁, h₂⟩ := ht.woken j hj
    exact ⟨hfirst j true hjo hj h₁, fun i n hi => h₂ i n (hwaking hi)⟩
  · obtain ⟨h₁, h₂, h₃⟩ := ht.chosen i w n (hwaking hi)
    have hwo : w ≠ o := by
      rintro rfl
      exact hno i n (hwaking hi)
    rw [hphase, Function.update_of_ne hwo, hticket w hwo]
    exact ⟨h₁, hfirst w false hwo h₁ h₂, h₃⟩

/-- A request that is not waiting is not going to be awakened. -/
theorem Tidy.not_chosen (ht : Tidy s) (ho : s.phase o ≠ .waiting false) :
    ∀ i n, s.phase i ≠ .waking o n := fun i n hi => ho (ht.chosen i o n hi).1

theorem Tidy.leave (ht : Tidy s) (h : Inv s l) (ho : s.phase o = .past ∨ s.phase o = .interrupted)
    (hmeets : s.first = o → s.phase (s.next o) ≠ .interrupted) (hstep : s.leave o = some s') :
    Tidy s' := by
  have hno : s.phase o ≠ .waiting false ∧ s.phase o ≠ .waiting true := by
    rcases ho with ho | ho <;> rw [ho] <;> exact ⟨nofun, nofun⟩
  unfold State.leave at hstep
  by_cases hfirst : s.first = o
  · rw [if_pos hfirst] at hstep
    cases hstep
    have hnone : ∀ i w n, s.phase i ≠ .waking w n := by
      intro i w n hi
      obtain ⟨h₁, h₂, -⟩ := ht.chosen i w n hi
      exact hno.1 (hfirst ▸ h₂ ▸ h₁)
    have hwoken : ∀ j, s.phase j ≠ .waiting true := by
      intro j hj
      have h₁ := (ht.woken j hj).1
      exact hno.2 (hfirst ▸ h₁ ▸ hj)
    by_cases hw : s.next o = 0
    · rw [if_pos hw]
      exact ht.rephase (o := o) rfl (fun _ _ => rfl) nofun nofun (ht.not_chosen hno.1)
        fun j b hj _ hf => absurd (hf.symm.trans hfirst) hj
    · rw [if_neg hw]
      have hwait : s.next o ≠ o ∧ s.phase (s.next o) = .waiting false := by
        cases l with
        | nil => exact nomatch (h.mem o).mpr (by rcases ho with ho | ho <;> rw [ho] <;> trivial)
        | cons i l =>
          obtain ⟨hi, -, hc⟩ := h.queue.chain
          obtain rfl : i = o := hi.symm.trans hfirst
          have hmem : s.next i ∈ l := by
            cases l with
            | nil => exact absurd hc hw
            | cons k l =>
              rw [hc.1]
              exact List.mem_cons_self
          have hnd := List.nodup_cons.mp h.queue.chain.nodup
          have hne : s.next i ≠ i := fun he => hnd.1 (he ▸ hmem)
          have hqueued := (h.mem _).mp (List.mem_cons_of_mem _ hmem)
          refine ⟨hne, ?_⟩
          cases hp : s.phase (s.next i) with
          | out => exact (hp ▸ hqueued).elim
          | waking => exact (hp ▸ hqueued).elim
          | waiting b =>
            cases b with
            | false => rfl
            | true => exact absurd hp (hwoken _)
          | interrupted => exact absurd hp (hmeets hfirst)
          | past => exact absurd ((h.first _ hp).1.symm.trans hfirst) hne
      have hwaking : ∀ {q i n}, Function.update s.phase o (.waking (s.next o)
          (s.ticket (s.next o))) q = .waking i n → q = o ∧ i = s.next o ∧ n = s.ticket i := by
        intro q i n hq
        by_cases hqo : q = o
        · subst hqo
          rw [Function.update_self] at hq
          cases hq
          exact ⟨rfl, rfl, rfl⟩
        · rw [Function.update_of_ne hqo] at hq
          exact absurd hq (hnone q i n)
      refine ⟨fun j hj => ?_, fun q i n hq => ?_, fun q q' i i' n n' hq hq' => ?_⟩
      · change Function.update s.phase o _ j = _ at hj
        by_cases hjo : j = o
        · rw [hjo, Function.update_self] at hj
          exact nomatch hj
        · rw [Function.update_of_ne hjo] at hj
          exact absurd hj (hwoken j)
      · obtain ⟨-, rfl, hn⟩ := hwaking hq
        exact ⟨(Function.update_of_ne hwait.1 _ _).trans hwait.2, rfl, hn.symm⟩
      · exact (hwaking hq).1.trans (hwaking hq').1.symm
  · rw [if_neg hfirst] at hstep
    obtain ⟨q, -, heq⟩ := Option.bind_eq_some_iff.mp hstep
    cases heq
    exact ht.rephase (o := o) rfl (fun _ _ => rfl) nofun nofun (ht.not_chosen hno.1)
      fun j b _ _ hf => hf

theorem Tidy.step (ht : Tidy s) (h : Inv s l) {act : Act} (hen : s.Enabled act)
    (hmeets : s.Meets act) (hstep : s.step act = some s') : Tidy s' := by
  cases act with
  | arrive o =>
    cases hstep
    obtain ⟨ho, hout⟩ := hen
    have hno := ht.not_chosen (o := o) (by rw [hout]; nofun)
    change Tidy (s.arrive o)
    unfold State.arrive
    dsimp only
    split_ifs with hfirst
    · refine ht.rephase (o := o) rfl (fun j hj => Function.update_of_ne hj _ _) nofun nofun hno
        fun j b _ hw hf => ?_
      have hmem := (h.mem j).mpr (by rw [hw]; trivial)
      exact absurd (hf.symm.trans hfirst) (h.pos hmem)
    · exact ht.rephase (o := o) rfl (fun j hj => Function.update_of_ne hj _ _) nofun nofun hno
        fun j b _ _ hf => hf
  | resume o =>
    cases hstep
    have hno := (ht.woken o hen).2
    change Tidy (s.resume o)
    unfold State.resume
    split_ifs
    · exact ht.rephase (o := o) rfl (fun _ _ => rfl) nofun nofun hno fun j b _ _ hf => hf
    · exact ht.rephase (o := o) rfl (fun _ _ => rfl) nofun nofun hno fun j b _ _ hf => hf
  | signal o =>
    cases hstep
    exact ht.rephase (o := o) rfl (fun _ _ => rfl) nofun nofun hmeets fun j b _ _ hf => hf
  | leave o => exact ht.leave h hen hmeets hstep
  | wakeup o =>
    obtain ⟨w, n, ho⟩ := hen
    obtain ⟨hw, hfirst, -⟩ := ht.chosen o w n ho
    have hwo : o ≠ w := by
      rintro rfl
      exact nomatch ho.symm.trans hw
    unfold State.step at hstep
    dsimp only at hstep
    rw [ho] at hstep
    cases hstep
    unfold State.wakeup
    dsimp only
    rw [if_pos hw]
    have hnone : ∀ i j m, Function.update (Function.update s.phase w (.waiting true)) o .out i ≠
        .waking j m := by
      intro i j m hi
      by_cases hio : i = o
      · rw [hio, Function.update_self] at hi
        exact nomatch hi
      · rw [Function.update_of_ne hio] at hi
        by_cases hiw : i = w
        · rw [hiw, Function.update_self] at hi
          exact nomatch hi
        · rw [Function.update_of_ne hiw] at hi
          exact hio (ht.one i o j w m n hi ho)
    refine ⟨fun j hj => ⟨?_, fun i m => hnone i j m⟩, fun i j m hi => absurd hi (hnone i j m),
      fun i i' j j' m m' hi => absurd hi (hnone i j m)⟩
    by_cases hjw : j = w
    · exact hfirst.trans hjw.symm
    · change Function.update (Function.update s.phase w (.waiting true)) o .out j = _ at hj
      by_cases hjo : j = o
      · rw [hjo, Function.update_self] at hj
        exact nomatch hj
      · rw [Function.update_of_ne hjo, Function.update_of_ne hjw] at hj
        exact (ht.woken j hj).1

theorem State.Reached.tidy (h : s.Reached State.Meets) : Tidy s := by
  obtain ⟨s₀, h₀, hrun⟩ := h
  induction hrun with
  | refl => exact ⟨fun o ho => (nomatch (h₀.out o).symm.trans ho),
      fun p w n hp => (nomatch (h₀.out p).symm.trans hp),
      fun p p' w w' n n' hp => nomatch (h₀.out p).symm.trans hp⟩
  | tail hrun hnext ih =>
    obtain ⟨act, hen, hmeets, hstep⟩ := hnext
    obtain ⟨l, hinv⟩ := State.Reached.inv ⟨s₀, h₀, hrun⟩
    exact ih.step hinv hen hmeets hstep

/-- Requests on the `ioctl` queue of a stream head. -/
theorem osr_run_serial :
    (∀ s : State, s.Reached (fun _ _ => True) → ∃ l, Queue s l ∧
      (∀ o, o ∈ l ↔ (s.phase o).Queued) ∧ (l.map s.ticket).Pairwise (· < ·) ∧
      (∀ o, s.phase o = .past → s.first = o ∧ s.ticket o ∈ s.started) ∧
      s.started.Pairwise (· < ·) ∧ (∀ m ∈ s.started, ∀ k < m, k ∈ s.started ∨ k ∈ s.cut) ∧
      (∀ o, s.phase o = .interrupted → ∃ s', s.step (.leave o) = some s' ∧
        Queue s' (l.erase o) ∧ s'.ticket = s.ticket) ∧
      (s.first ≠ 0 → s.phase s.first ≠ .waiting false ∨
        ∃ p n, s.phase p = .waking s.first n)) ∧
    ∀ s : State, s.Reached State.Meets → ∀ o w n, s.phase o = .waking w n →
      s.phase w = .waiting false ∧ s.ticket w = n := by
  refine ⟨fun s hs => ?_, fun s hs o w n ho => ?_⟩
  · obtain ⟨l, h⟩ := hs.inv
    refine ⟨l, h.queue, h.mem, h.sorted, h.first, h.order, h.earlier, fun o ho => ?_, h.head⟩
    obtain ⟨s', hs', hinv, hticket⟩ := h.leave (.inr ho)
    exact ⟨s', hs', hinv.queue, hticket⟩
  · obtain ⟨h₁, -, h₂⟩ := hs.tidy.chosen o w n ho
    exact ⟨h₁, h₂⟩

/-- No request. -/
def State.empty : State := ⟨fun _ => 0, 0, 0, fun _ => .out, fun _ => 0, 0, [], []⟩

theorem State.empty_initial : State.empty.Initial := ⟨rfl, fun _ => rfl, rfl, rfl, rfl⟩

theorem osr_run_serial_two : ∃ s : State, s.phase 1 = .waking 2 1 ∧ s.phase 2 = .waiting false ∧
    s.ticket 2 = 1 := by
  have hrun := ((Relation.ReflTransGen.refl.tail (r := State.Next State.Meets)
    ⟨.arrive 1, ⟨by decide, rfl⟩, trivial, (rfl : State.empty.step _ = _)⟩).tail
    ⟨.arrive 2, ⟨by decide, rfl⟩, trivial, rfl⟩).tail ⟨.leave 1, .inl rfl, nofun, rfl⟩
  exact ⟨_, rfl, osr_run_serial.2 _ ⟨_, State.empty_initial, hrun⟩ 1 2 1 rfl⟩

/-- A request waits at the head of the queue, then is awakened after it has left. -/
theorem wakeup_after_leave :
    (∃ s : State, s.Reached (fun _ _ => True) ∧ s.first = 2 ∧ s.phase 2 = .waiting false) ∧
    ∃ s : State, s.Reached (fun _ _ => True) ∧ s.phase 1 = .waking 2 1 ∧ s.phase 2 = .out := by
  have hqueued := (Relation.ReflTransGen.refl.tail (r := State.Next fun _ _ => True)
    ⟨.arrive 1, ⟨by decide, rfl⟩, trivial, (rfl : State.empty.step _ = _)⟩).tail
    ⟨.arrive 2, ⟨by decide, rfl⟩, trivial, rfl⟩
  have hchosen := hqueued.tail ⟨.leave 1, .inl rfl, trivial, rfl⟩
  have hleft := (hchosen.tail ⟨.signal 2, rfl, trivial, rfl⟩).tail
    ⟨.leave 2, .inr rfl, trivial, rfl⟩
  exact ⟨⟨_, ⟨_, State.empty_initial, hchosen⟩, rfl, rfl⟩, _, ⟨_, State.empty_initial, hleft⟩,
    rfl, rfl⟩

end Aix413.Pse
