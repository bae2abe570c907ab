import Aix413.Callout.ActiveLists

namespace Aix413.Callout

open Lib.LinkedPool

/-! ## What has become of requests -/

/-- Requests in flight, each at one place, and the ends of the others, each recorded once. -/
structure Ledger {L : Type} (flight : L → Option Nat) (count : Nat) (ends : List Nat) : Prop where
  apart : ∀ {x y n}, flight x = some n → flight y = some n → x = y
  flying : ∀ n, (∃ x, flight x = some n) ↔ n < count ∧ n ∉ ends
  once : ends.Nodup
  bound : ∀ n ∈ ends, n < count

namespace Ledger

variable {L : Type} [DecidableEq L] {flight : L → Option Nat} {count n : Nat} {ends : List Nat}
  {x y : L}

theorem settle (h : Ledger flight count ends) (hx : flight x = some n) :
    Ledger (Function.update flight x none) count (ends ++ [n]) := by
  have hfly := (h.flying n).mp ⟨x, hx⟩
  have hof : ∀ {y k}, Function.update flight x none y = some k → y ≠ x ∧ flight y = some k := by
    intro y k hy
    by_cases hyx : y = x
    · rw [hyx, Function.update_self] at hy
      cases hy
    · rw [Function.update_of_ne hyx] at hy
      exact ⟨hyx, hy⟩
  refine ⟨fun hy hz => h.apart (hof hy).2 (hof hz).2, fun k => ⟨fun ⟨y, hy⟩ => ?_, fun hk => ?_⟩,
    ?_, fun k hk => ?_⟩
  · obtain ⟨hyx, hy⟩ := hof hy
    have hk := (h.flying k).mp ⟨y, hy⟩
    refine ⟨hk.1, fun hm => ?_⟩
    rcases List.mem_append.mp hm with hm | hm
    · exact hk.2 hm
    · rw [List.mem_singleton.mp hm] at hy
      exact hyx (h.apart hy hx)
  · rw [List.mem_append, List.mem_singleton, not_or] at hk
    obtain ⟨y, hy⟩ := (h.flying k).mpr ⟨hk.1, hk.2.1⟩
    refine ⟨y, (Function.update_of_ne ?_ _ _).trans hy⟩
    rintro rfl
    exact hk.2.2 (Option.some.inj (hy.symm.trans hx))
  · refine List.nodup_append.mpr ⟨h.once, List.nodup_singleton n, fun k hk j hj => ?_⟩
    rw [List.mem_singleton.mp hj]
    rintro rfl
    exact hfly.2 hk
  · rcases List.mem_append.mp hk with hk | hk
    · exact h.bound k hk
    · exact List.mem_singleton.mp hk ▸ hfly.1

theorem issue (h : Ledger flight count ends) (hx : flight x = none) :
    Ledger (Function.update flight x (some count)) (count + 1) ends := by
  have hof : ∀ {y k}, Function.update flight x (some count) y = some k →
      y = x ∧ k = count ∨ y ≠ x ∧ flight y = some k := by
    intro y k hy
    by_cases hyx : y = x
    · rw [hyx, Function.update_self] at hy
      exact .inl ⟨hyx, (Option.some.inj hy).symm⟩
    · rw [Function.update_of_ne hyx] at hy
      exact .inr ⟨hyx, hy⟩
  have hlt : ∀ {y k}, flight y = some k → k < count := fun hy => ((h.flying _).mp ⟨_, hy⟩).1
  refine ⟨fun hy hz => ?_, fun k => ⟨fun ⟨y, hy⟩ => ?_, fun hk => ?_⟩, h.once,
    fun k hk => Nat.lt_succ_of_lt (h.bound k hk)⟩
  · rcases hof hy with ⟨rfl, rfl⟩ | ⟨-, hy₁⟩ <;> rcases hof hz with ⟨rfl, hk⟩ | ⟨-, hz₁⟩
    · rfl
    · exact absurd (hlt hz₁) (lt_irrefl _)
    · exact absurd (hk ▸ hlt hy₁) (lt_irrefl _)
    · exact h.apart hy₁ hz₁
  · rcases hof hy with ⟨-, rfl⟩ | ⟨-, hy⟩
    · exact ⟨Nat.lt_succ_self _, fun hm => absurd (h.bound _ hm) (lt_irrefl _)⟩
    · have hk := (h.flying k).mp ⟨y, hy⟩
      exact ⟨Nat.lt_succ_of_lt hk.1, hk.2⟩
  · rcases Nat.eq_or_lt_of_le (Nat.le_of_lt_succ hk.1) with rfl | hlt
    · exact ⟨x, Function.update_self _ _ _⟩
    · obtain ⟨y, hy⟩ := (h.flying k).mpr ⟨hlt, hk.2⟩
      refine ⟨y, (Function.update_of_ne ?_ _ _).trans hy⟩
      rintro rfl
      exact nomatch hx.symm.trans hy

theorem move (h : Ledger flight count ends) (hx : flight x = some n) (hy : flight y = none) :
    Ledger (Function.update (Function.update flight x none) y (some n)) count ends := by
  have hxy : x ≠ y := by
    rintro rfl
    exact nomatch hx.symm.trans hy
  have hof : ∀ {z k}, Function.update (Function.update flight x none) y (some n) z = some k →
      z = y ∧ k = n ∨ z ≠ x ∧ flight z = some k := by
    intro z k hz
    by_cases hzy : z = y
    · rw [hzy, Function.update_self] at hz
      exact .inl ⟨hzy, (Option.some.inj hz).symm⟩
    · rw [Function.update_of_ne hzy] at hz
      by_cases hzx : z = x
      · rw [hzx, Function.update_self] at hz
        cases hz
      · rw [Function.update_of_ne hzx] at hz
        exact .inr ⟨hzx, hz⟩
  refine ⟨fun hz hw => ?_, fun k => ⟨fun ⟨z, hz⟩ => ?_, fun hk => ?_⟩, h.once, h.bound⟩
  · rcases hof hz with ⟨rfl, rfl⟩ | ⟨hzx, hz₁⟩ <;> rcases hof hw with ⟨rfl, hk⟩ | ⟨hwx, hw₁⟩
    · rfl
    · exact absurd (h.apart hw₁ hx) hwx
    · exact absurd (h.apart (hk ▸ hz₁) hx) hzx
    · exact h.apart hz₁ hw₁
  · rcases hof hz with ⟨-, rfl⟩ | ⟨-, hz⟩
    · exact (h.flying _).mp ⟨x, hx⟩
    · exact (h.flying k).mp ⟨z, hz⟩
  · obtain ⟨z, hz⟩ := (h.flying k).mpr hk
    by_cases hzx : z = x
    · subst hzx
      refine ⟨y, (Function.update_self _ _ _).trans ?_⟩
      exact hx.symm.trans hz
    · refine ⟨z, ?_⟩
      rw [Function.update_of_ne, Function.update_of_ne hzx, hz]
      rintro rfl
      exact nomatch hy.symm.trans hz

end Ledger

/-! ## The invariant -/

/-- Where a request is while it is in flight: set in an entry, or on its way on a processor. -/
inductive Loc
  | entry (t : Nat)
  | cpu (p : Nat)
deriving DecidableEq

/-- A processor that has freed the entry and is going to call the function. -/
def Expiry.held : Expiry → Option Nat
  | cleared _ r _ => some r
  | _ => none

def State.flight (s : State) (blocks : List Nat) : Loc → Option Nat
  | .entry t => if t ∈ blocks ∧ (s.timers.trb t).tof ≠ none then some (s.timers.trb t).req else none
  | .cpu p => (s.expiry p).held

/-- The block that a processor is calling. -/
structure Calling (ncpus : Nat) (blocks : List Nat) (m : Timers) (p t : Nat) : Prop where
  called : m.trbCalled p = t
  block : t ∈ blocks
  cpu : p < ncpus
  owner : (m.trb t).cpunum = p
  active : (m.trb t).active = true

/-- What holds of a processor and the block it is calling. -/
def Expiry.Ok (ncpus : Nat) (blocks : List Nat) (m : Timers) (asked : List (Nat × Nat)) (p : Nat) :
    Expiry → Prop
  | idle => m.trbCalled p = 0
  | called t r => Calling ncpus blocks m p t ∧ (m.trb t).pending = false ∧
    (m.trb t).func = true ∧ (m.trb t).tof ≠ none ∧ (m.trb t).req = r
  | entered t r f => Calling ncpus blocks m p t ∧ (m.trb t).pending = false ∧
    f ≠ none ∧ (m.trb t).tof = f ∧ (m.trb t).req = r
  | cleared t r f => Calling ncpus blocks m p t ∧ (m.trb t).pending = false ∧
    (m.trb t).tof = none ∧ ∃ g, f = some g ∧ asked[r]? = some (g, (m.trb t).funcData)
  | running t _ _ _ => Calling ncpus blocks m p t

/-- The chain of the table. -/
structure Chained (s : State) (l : List Nat) : Prop where
  chain : Chain s.tonext s.head l
  backed : Backed s.toprev 0 l
  count : s.ncallo = l.length
  own : (l.map s.trbOf).Nodup

structure Inv (ncpus : Nat) (s : State) (l : List Nat) (lists : Nat → List Nat) : Prop where
  table : Chained s l
  live : ∀ k ∈ l, s.tosLive k = true ∧ s.trbLive (s.trbOf k) = true ∧ s.trbOf k ≠ 0
  queues : Queues (l.map s.trbOf) s.timers lists
  phases : ∀ p, (s.expiry p).Ok ncpus (l.map s.trbOf) s.timers s.asked p
  pend : ∀ t ∈ l.map s.trbOf, (s.timers.trb t).pending = true →
    (s.timers.trb t).tof ≠ none ∧ (s.timers.trb t).func = true ∧
      (s.timers.trb t).active = true ∧ (s.timers.trb t).cpunum < ncpus
  due : ∀ t ∈ l.map s.trbOf, (s.timers.trb t).tof ≠ none → (s.timers.trb t).pending = true ∨
    ∃ p, s.expiry p = .called t (s.timers.trb t).req ∨
      ∃ f, s.expiry p = .entered t (s.timers.trb t).req f
  uniq : ∀ t ∈ l.map s.trbOf, ∀ t' ∈ l.map s.trbOf, (s.timers.trb t).tof ≠ none →
    (s.timers.trb t).tof = (s.timers.trb t').tof →
    (s.timers.trb t).funcData = (s.timers.trb t').funcData → t = t'
  ledger : Ledger (s.flight (l.map s.trbOf)) s.asked.length (s.hist.map Fate.req)
  told : ∀ t ∈ l.map s.trbOf, ∀ f, (s.timers.trb t).tof = some f →
    s.asked[(s.timers.trb t).req]? = some (f, (s.timers.trb t).funcData)
  right : ∀ n f a, Fate.began n f a ∈ s.hist → s.asked[n]? = some (f, a)

variable {ncpus cpu f a t p : Nat} {s : State} {l : List Nat} {lists : Nat → List Nat}

namespace Inv

/-- The block of an entry is called by a processor that knows it. -/
theorem calling (h : Inv ncpus s l lists) (ht0 : t ≠ 0) (hp : s.timers.trbCalled p = t) :
    Calling ncpus (l.map s.trbOf) s.timers p t := by
  have hok := h.phases p
  have hcase : ∀ {t'}, Calling ncpus (l.map s.trbOf) s.timers p t' →
      Calling ncpus (l.map s.trbOf) s.timers p t := by
    intro t' hc
    rwa [hp.symm.trans hc.called]
  cases he : s.expiry p with
  | idle =>
    rw [he] at hok
    exact absurd (hp.symm.trans hok) ht0
  | called t' r =>
    rw [he] at hok
    exact hcase hok.1
  | entered t' r f =>
    rw [he] at hok
    exact hcase hok.1
  | cleared t' r f =>
    rw [he] at hok
    exact hcase hok.1
  | running t' r f a =>
    rw [he] at hok
    exact hcase hok

theorem block_ne_zero (h : Inv ncpus s l lists) (ht : t ∈ l.map s.trbOf) : t ≠ 0 := by
  obtain ⟨k, hk, rfl⟩ := List.mem_map.mp ht
  exact (h.live k hk).2.2

theorem findSet_spec (h : Inv ncpus s l lists) (f a : Nat) :
    ∃ k, s.findSet f a = some k ∧
      (k = 0 ∧ (∀ t ∈ l.map s.trbOf, (s.timers.trb t).tof = some f →
        (s.timers.trb t).funcData ≠ a) ∨
      k ∈ l ∧ (s.timers.trb (s.trbOf k)).tof = some f ∧
        (s.timers.trb (s.trbOf k)).funcData = a) := by
  obtain ⟨k, hk, hor⟩ := find_cases (p := fun k => (s.timers.trb (s.trbOf k)).tof = some f ∧
    (s.timers.trb (s.trbOf k)).funcData = a) h.table.chain
    (Nat.lt_succ_of_le h.table.count.ge)
  refine ⟨k, hk, ?_⟩
  rcases hor with ⟨h0, hno⟩ | ⟨hkl, hset⟩
  · refine .inl ⟨h0, fun t ht hf hd => ?_⟩
    obtain ⟨j, hj, rfl⟩ := List.mem_map.mp ht
    exact of_decide_eq_false (hno j hj) ⟨hf, hd⟩
  · exact .inr ⟨hkl, of_decide_eq_true hset⟩

theorem findFree_spec (h : Inv ncpus s l lists) :
    ∃ k, s.findFree = some k ∧ (k = 0 ∨ k ∈ l ∧ (s.timers.trb (s.trbOf k)).tof = none) := by
  obtain ⟨k, hk, hor⟩ := find_cases (p := fun k => (s.timers.trb (s.trbOf k)).tof = none)
    h.table.chain (Nat.lt_succ_of_le h.table.count.ge)
  exact ⟨k, hk, hor.imp (fun hn => hn.1) fun hf => ⟨hf.1, of_decide_eq_true hf.2⟩⟩

theorem choice_spec (h : Inv ncpus s l lists) (f a : Nat) :
    ∃ k, s.choice f a = some k ∧ (k = 0 ∨ k ∈ l ∧
      ((s.timers.trb (s.trbOf k)).tof = some f ∧ (s.timers.trb (s.trbOf k)).funcData = a ∨
      (s.timers.trb (s.trbOf k)).tof = none ∧ ∀ t ∈ l.map s.trbOf,
        (s.timers.trb t).tof = some f → (s.timers.trb t).funcData ≠ a)) := by
  obtain ⟨k, hk, hor⟩ := h.findSet_spec f a
  unfold State.choice
  rw [hk, Option.bind_eq_bind, Option.bind_some]
  rcases hor with ⟨rfl, hno⟩ | ⟨hkl, hset⟩
  · rw [if_pos rfl]
    obtain ⟨k, hk, hor⟩ := h.findFree_spec
    exact ⟨k, hk, hor.imp_right fun hf => ⟨hf.1, .inr ⟨hf.2, hno⟩⟩⟩
  · rw [if_neg (h.table.chain.ne_zero hkl)]
    exact ⟨k, rfl, .inr ⟨hkl, .inl hset⟩⟩

end Inv

/-- The processor may write a block: if it is calling the block itself, the function has begun and
has not set the entry again. -/
def State.Free (s : State) (cpu t : Nat) : Prop :=
  s.timers.trbCalled cpu = t →
    (∃ r f a, s.expiry cpu = .running t r f a) ∧ (s.timers.trb t).pending = false

/-- `tstop` refuses, or the block is on no list and is called by nobody but a function on this
processor. -/
theorem Inv.stop (h : Inv ncpus s l lists) (ht : t ∈ l.map s.trbOf) (hfree : s.Free cpu t) :
    ((∃ i < ncpus, i ≠ cpu ∧ s.timers.trbCalled i = t) ∧
      Timers.tstop ncpus cpu t s.timers = none) ∨
    ∃ m' lists', Timers.tstop ncpus cpu t s.timers = some m' ∧
      Queues (l.map s.trbOf) m' lists' ∧ m'.trbCalled = s.timers.trbCalled ∧
      (∀ j, j ≠ t → m'.trb j = s.timers.trb j) ∧
      (∃ b, m'.trb t = { s.timers.trb t with pending := false, active := b }) ∧
      ∀ i, s.timers.trbCalled i = t → i = cpu := by
  have ht0 := h.block_ne_zero ht
  by_cases hex : ∃ i < ncpus, s.timers.trbCalled i = t
  · obtain ⟨i, hi, hc⟩ := hex
    have hcall := h.calling ht0 hc
    by_cases hicpu : i = cpu
    · subst hicpu
      obtain ⟨-, hpend⟩ := hfree hc
      refine .inr ⟨s.timers, lists, ?_, h.queues, rfl, fun _ _ => rfl,
        ⟨(s.timers.trb t).active, ?_⟩, fun j hj => ?_⟩
      · unfold Timers.tstop
        rw [if_pos ⟨i, hi, hc⟩, if_pos hcall.owner]
      · rw [← hpend]
      · exact (h.calling ht0 hj).owner.symm.trans hcall.owner
    · refine .inl ⟨⟨i, hi, hicpu, hc⟩, ?_⟩
      unfold Timers.tstop
      rw [if_pos ⟨i, hi, hc⟩, if_neg fun ho => hicpu (hcall.owner.symm.trans ho)]
  · have hno : ∀ i < ncpus, s.timers.trbCalled i ≠ t := fun i hi hc => hex ⟨i, hi, hc⟩
    obtain ⟨m', lists', hm', hq, hcalled, hother, hself⟩ := tstop_spec h.queues ht hno
    exact .inr ⟨m', lists', hm', hq, hcalled, hother, hself,
      fun i hi => absurd hi (hno i (h.calling ht0 hi).cpu)⟩


theorem asked_append {asked ext : List (Nat × Nat)} {n : Nat} {x : Nat × Nat}
    (h : asked[n]? = some x) : (asked ++ ext)[n]? = some x := by
  rw [List.getElem?_append_left (List.getElem?_eq_some_iff.mp h).1, h]

/-- One block is written by a call. -/
theorem Inv.rewrite (h : Inv ncpus s l lists) (ext : List (Nat × Nat)) {m' : Timers}
    {lists' : Nat → List Nat} {ends : List Fate} {v : Option Nat}
    (hq : Queues (l.map s.trbOf) m' lists') (hcalled : m'.trbCalled = s.timers.trbCalled)
    (hother : ∀ j, j ≠ t → m'.trb j = s.timers.trb j)
    (hrun : ∀ i, s.timers.trbCalled i = t → (∃ r f a, s.expiry i = .running t r f a) ∧
      (m'.trb t).cpunum = i ∧ (m'.trb t).active = true)
    (hnew : (m'.trb t).tof = none ∧ (m'.trb t).pending = false ∨
      (m'.trb t).pending = true ∧ ((m'.trb t).func = true ∧ (m'.trb t).active = true ∧
        (m'.trb t).cpunum < ncpus) ∧
        ∃ f, (m'.trb t).tof = some f ∧
        (s.asked ++ ext)[(m'.trb t).req]? = some (f, (m'.trb t).funcData) ∧
        ∀ j ∈ l.map s.trbOf, j ≠ t → (s.timers.trb j).tof = some f →
          (s.timers.trb j).funcData ≠ (m'.trb t).funcData)
    (hflight : State.flight { s with timers := m' } (l.map s.trbOf) =
      Function.update (s.flight (l.map s.trbOf)) (.entry t) v)
    (hledger : Ledger (Function.update (s.flight (l.map s.trbOf)) (.entry t) v)
      (s.asked ++ ext).length ((s.hist ++ ends).map Fate.req))
    (hends : ∀ n f a, Fate.began n f a ∉ ends) :
    Inv ncpus { s with timers := m', asked := s.asked ++ ext, hist := s.hist ++ ends } l
      lists' := by
  have hcalling : ∀ {p t'}, t' ≠ t → Calling ncpus (l.map s.trbOf) s.timers p t' →
      Calling ncpus (l.map s.trbOf) m' p t' := by
    intro p t' hne hc
    refine ⟨?_, hc.block, hc.cpu, ?_, ?_⟩
    · rw [hcalled, hc.called]
    · rw [hother t' hne, hc.owner]
    · rw [hother t' hne, hc.active]
  have hne : ∀ {p t'}, s.timers.trbCalled p = t' → (∀ r f a, s.expiry p ≠ .running t' r f a) →
      t' ≠ t := by
    rintro p t' hc hno rfl
    obtain ⟨⟨r, f, a, he⟩, -⟩ := hrun p hc
    exact hno r f a he
  exact
    { table := ⟨h.table.chain, h.table.backed, h.table.count, h.table.own⟩
      live := h.live
      queues := hq
      phases := fun p => by
        have hok := h.phases p
        change (s.expiry p).Ok ncpus (l.map s.trbOf) m' (s.asked ++ ext) p
        cases he : s.expiry p with
        | idle =>
          rw [he] at hok
          exact (congrFun hcalled p).trans hok
        | called t' r =>
          rw [he] at hok
          have hn := hne hok.1.called fun _ _ _ hr => nomatch he.symm.trans hr
          refine ⟨hcalling hn hok.1, ?_⟩
          rw [hother t' hn]
          exact hok.2
        | entered t' r f =>
          rw [he] at hok
          have hn := hne hok.1.called fun _ _ _ hr => nomatch he.symm.trans hr
          refine ⟨hcalling hn hok.1, ?_⟩
          rw [hother t' hn]
          exact hok.2
        | cleared t' r f =>
          rw [he] at hok
          have hn := hne hok.1.called fun _ _ _ hr => nomatch he.symm.trans hr
          obtain ⟨hc, hpend, htof, g, hg, hask⟩ := hok
          refine ⟨hcalling hn hc, ?_⟩
          rw [hother t' hn]
          exact ⟨hpend, htof, g, hg, asked_append hask⟩
        | running t' r f a =>
          rw [he] at hok
          by_cases hn : t' = t
          · subst hn
            obtain ⟨-, howner, hactive⟩ := hrun p hok.called
            exact ⟨(congrFun hcalled p).trans hok.called, hok.block, hok.cpu, howner, hactive⟩
          · exact hcalling hn hok
      pend := fun j hj hp => by
        by_cases hjt : j = t
        · subst hjt
          rcases hnew with ⟨-, hno⟩ | ⟨-, hfunc, f, htof, -⟩
          · exact nomatch hno.symm.trans hp
          · exact ⟨fun hn => (nomatch htof.symm.trans hn), hfunc⟩
        · change (m'.trb j).pending = true at hp
          change (m'.trb j).tof ≠ none ∧ (m'.trb j).func = true ∧ (m'.trb j).active = true ∧
            (m'.trb j).cpunum < ncpus
          rw [hother j hjt] at hp ⊢
          exact h.pend j hj hp
      due := fun j hj hset => by
        by_cases hjt : j = t
        · subst hjt
          rcases hnew with ⟨hno, -⟩ | ⟨hp, -⟩
          · exact absurd hno hset
          · exact .inl hp
        · change (m'.trb j).tof ≠ none at hset
          change (m'.trb j).pending = true ∨ ∃ p, s.expiry p = .called j (m'.trb j).req ∨
            ∃ f, s.expiry p = .entered j (m'.trb j).req f
          rw [hother j hjt] at hset ⊢
          exact h.due j hj hset
      uniq := fun j hj j' hj' hset htof hdata => by
        change (m'.trb j).tof ≠ none at hset
        change (m'.trb j).tof = (m'.trb j').tof at htof
        change (m'.trb j).funcData = (m'.trb j').funcData at hdata
        by_cases hjt : j = t <;> by_cases hjt' : j' = t
        · rw [hjt, hjt']
        · subst hjt
          rw [hother j' hjt'] at htof hdata
          rcases hnew with ⟨hno, -⟩ | ⟨-, -, f, hf, -, hapart⟩
          · exact absurd hno hset
          · exact absurd hdata.symm (hapart j' hj' hjt' (htof.symm.trans hf))
        · subst hjt'
          rw [hother j hjt] at hset htof hdata
          rcases hnew with ⟨hno, -⟩ | ⟨-, -, f, hf, -, hapart⟩
          · exact absurd (htof.trans hno) hset
          · exact absurd hdata (hapart j hj hjt (htof.trans hf))
        · rw [hother j hjt] at hset
          rw [hother j hjt, hother j' hjt'] at htof hdata
          exact h.uniq j hj j' hj' hset htof hdata
      ledger := by
        change Ledger (State.flight { s with timers := m' } (l.map s.trbOf)) _ _
        rw [hflight]
        exact hledger
      told := fun j hj f hset => by
        by_cases hjt : j = t
        · subst hjt
          rcases hnew with ⟨hno, -⟩ | ⟨-, -, g, hg, hask, -⟩
          · exact nomatch hno.symm.trans hset
          · cases Option.some.inj (hg.symm.trans hset)
            exact hask
        · change (m'.trb j).tof = some f at hset
          change (s.asked ++ ext)[(m'.trb j).req]? = some (f, (m'.trb j).funcData)
          rw [hother j hjt] at hset ⊢
          exact asked_append (h.told j hj f hset)
      right := fun n f a hm => by
        rcases List.mem_append.mp hm with hm | hm
        · exact asked_append (h.right n f a hm)
        · exact absurd hm (hends n f a) }


theorem flight_write (s : State) (m' : Timers) (blocks : List Nat)
    (hother : ∀ j, j ≠ t → m'.trb j = s.timers.trb j) :
    State.flight { s with timers := m' } blocks = Function.update (s.flight blocks) (.entry t)
      (if t ∈ blocks ∧ (m'.trb t).tof ≠ none then some (m'.trb t).req else none) := by
  funext x
  cases x with
  | entry j =>
    by_cases hjt : j = t
    · subst hjt
      rw [Function.update_self]
      rfl
    · rw [Function.update_of_ne fun he => hjt (Loc.entry.inj he)]
      change (if j ∈ blocks ∧ (m'.trb j).tof ≠ none then some (m'.trb j).req else none) = _
      rw [hother j hjt]
      rfl
  | cpu p =>
    rw [Function.update_of_ne (show Loc.cpu p ≠ .entry t from nofun)]
    rfl

/-- A call has returned: earlier requests for the function and its argument are in flight only where
a processor is going to call the function. -/
structure Returned (ncpus : Nat) (s : State) (l : List Nat) (f a : Nat) (s' : State) : Prop where
  inv : ∃ lists', Inv ncpus s' l lists'
  asked : ∃ ext, s'.asked = s.asked ++ ext
  hist : ∃ ends, s'.hist = s.hist ++ ends ∧ ∀ n f a, Fate.began n f a ∉ ends
  early : ∀ x n, n < s.asked.length → s'.flight (l.map s'.trbOf) x = some n →
    s'.asked[n]? = some (f, a) →
    ∃ p t r, s.expiry p = .cleared t r (some f) ∧ (s.timers.trb t).funcData = a

/-- Requests that are in flight outside the entry that has been written. -/
theorem Inv.early (h : Inv ncpus s l lists) {m' : Timers} {n : Nat} {x : Loc}
    (hother : ∀ j, j ≠ t → m'.trb j = s.timers.trb j) (hx : x ≠ .entry t)
    (hapart : ∀ j ∈ l.map s.trbOf, j ≠ t → (s.timers.trb j).tof = some f →
      (s.timers.trb j).funcData ≠ a)
    (hfl : State.flight { s with timers := m' } (l.map s.trbOf) x = some n)
    (hask : s.asked[n]? = some (f, a)) :
    ∃ p t r, s.expiry p = .cleared t r (some f) ∧ (s.timers.trb t).funcData = a := by
  rw [flight_write s m' _ hother, Function.update_of_ne hx] at hfl
  cases x with
  | entry j =>
    have hjt : j ≠ t := fun he => hx (congrArg Loc.entry he)
    change (if j ∈ l.map s.trbOf ∧ (s.timers.trb j).tof ≠ none then some (s.timers.trb j).req
      else none) = some n at hfl
    split_ifs at hfl with hset
    obtain ⟨g, hg⟩ := Option.ne_none_iff_exists'.mp hset.2
    have htold := h.told j hset.1 g hg
    rw [Option.some.inj hfl, hask] at htold
    obtain ⟨rfl, rfl⟩ := Prod.mk.inj (Option.some.inj htold)
    exact absurd rfl (hapart j hset.1 hjt hg)
  | cpu p =>
    have hok := h.phases p
    change (s.expiry p).held = some n at hfl
    cases he : s.expiry p with
    | cleared t' r g =>
      rw [he] at hok hfl
      obtain ⟨-, -, -, g', rfl, hask'⟩ := hok
      rw [show r = n from Option.some.inj hfl, hask] at hask'
      obtain ⟨rfl, rfl⟩ := Prod.mk.inj (Option.some.inj hask')
      exact ⟨p, t', r, he, rfl⟩
    | idle =>
      rw [he] at hfl
      exact nomatch hfl
    | called _ _ =>
      rw [he] at hfl
      exact nomatch hfl
    | entered _ _ _ =>
      rw [he] at hfl
      exact nomatch hfl
    | running _ _ _ _ =>
      rw [he] at hfl
      exact nomatch hfl

theorem Inv.timeout (h : Inv ncpus s l lists) (hcpu : cpu < ncpus) {ticks now : Nat} {s' : State}
    {r : Bool}
    (hfree : ∀ k, s.choice f a = some k → k ≠ 0 → s.Free cpu (s.trbOf k))
    (hstep : s.timeout ncpus cpu f a ticks now = some (r, s')) :
    (r = false ∧ s' = s) ∨ r = true ∧ Returned ncpus s l f a s' ∧
      ∀ k, s.choice f a = some k → ∀ i, s.timers.trbCalled i = s.trbOf k → i = cpu := by
  unfold State.timeout at hstep
  split_ifs at hstep with hzero
  obtain ⟨k, hk, hor⟩ := h.choice_spec f a
  rw [hk, Option.bind_eq_bind, Option.bind_some] at hstep
  split_ifs at hstep with hk0
  obtain ⟨hkl, hkey⟩ := hor.resolve_left hk0
  have ht : s.trbOf k ∈ l.map s.trbOf := List.mem_map_of_mem hkl
  have ht0 := h.block_ne_zero ht
  have hapart : ∀ j ∈ l.map s.trbOf, j ≠ s.trbOf k → (s.timers.trb j).tof = some f →
      (s.timers.trb j).funcData ≠ a := by
    intro j hj hjt htof hdata
    rcases hkey with ⟨hf, ha⟩ | ⟨-, hno⟩
    · exact hjt (h.uniq j hj _ ht (fun hn => nomatch htof.symm.trans hn) (htof.trans hf.symm)
        (hdata.trans ha.symm))
    · exact hno j hj htof hdata
  dsimp only at hstep
  rcases h.stop ht (hfree k hk hk0) with ⟨-, hstop⟩ | ⟨m, lists₁, hstop, hq, hcalled, hother,
    ⟨b, hself⟩, hmine⟩
  · rw [hstop] at hstep
    cases hstep
    exact .inl ⟨rfl, rfl⟩
  · rw [hstop] at hstep
    dsimp only at hstep
    let t := s.trbOf k
    let b' : Trb :=
      { cpunum := (m.trb t).cpunum, pending := false, active := false, timeout := ticks,
        func := true, tof := some f, funcData := a, req := s.asked.length }
    have hpend : (m.trb t).pending = false := congrArg Trb.pending hself
    have hq' := (hq.write hpend (b := b') rfl).unlinked (t := t)
      ((hq.write hpend rfl).not_mem (congrArg Trb.pending (Function.update_self t b' m.trb))) 0 0
    have hb' : Function.update m.trb t b' t = b' := Function.update_self _ _ _
    obtain ⟨m', lists', hm', hq'', hcalled', hother', hself'⟩ := tstart_spec cpu now hq' ht ht0
      (congrArg Trb.pending hb') (congrArg Trb.active hb')
      (show (l.map s.trbOf).length < s.ncallo + 1 by
        rw [List.length_map, h.table.count]
        exact Nat.lt_succ_self _)
    rw [hm', Option.bind_eq_bind, Option.bind_some] at hstep
    cases hstep
    dsimp only at hself' hcalled'
    rw [hb'] at hself'
    have hothers : ∀ j, j ≠ t → m'.trb j = s.timers.trb j := by
      intro j hj
      rw [hother' j hj]
      dsimp only
      rw [Function.update_of_ne hj, hother j hj]
    have hv : (if t ∈ l.map s.trbOf ∧ (m'.trb t).tof ≠ none then some (m'.trb t).req else none) =
        some s.asked.length := by
      rw [hself', if_pos ⟨ht, nofun⟩]
    have hflight := (flight_write s m' (l.map s.trbOf) hothers).trans (by rw [hv])
    refine .inr ⟨rfl, ⟨⟨lists', h.rewrite [(f, a)] (v := some s.asked.length) hq''
      (hcalled'.trans hcalled) hothers (fun i hi => ?_) (.inr ?_) hflight ?_ fun n g d hm => ?_⟩,
      ⟨_, rfl⟩, ⟨_, rfl, fun n g d hm => ?_⟩, fun x n hn hfl hask => ?_⟩, fun k' hk' i hi => ?_⟩
    · obtain rfl := hmine i hi
      rw [hself']
      exact ⟨(hfree k hk hk0 hi).1, rfl, rfl⟩
    · rw [hself']
      exact ⟨rfl, ⟨rfl, rfl, hcpu⟩, f, rfl, List.getElem?_concat_length, hapart⟩
    · rw [List.length_append, List.map_append]
      have hfl : s.flight (l.map s.trbOf) (.entry t) =
          if (s.timers.trb t).tof = none then none else some (s.timers.trb t).req := by
        change (if t ∈ l.map s.trbOf ∧ (s.timers.trb t).tof ≠ none then _ else _) = _
        by_cases htof : (s.timers.trb t).tof = none
        · rw [if_pos htof, if_neg fun hn => hn.2 htof]
        · rw [if_neg htof, if_pos ⟨ht, htof⟩]
      by_cases htof : (s.timers.trb t).tof = none
      · rw [if_pos htof, List.map_nil, List.append_nil]
        rw [if_pos htof] at hfl
        exact h.ledger.issue hfl
      · rw [if_neg htof]
        rw [if_neg htof] at hfl
        have hset := (h.ledger.settle hfl).issue (Function.update_self _ _ _)
        rwa [Function.update_idem] at hset
    · split_ifs at hm
      · exact nomatch hm
      · exact nomatch List.mem_singleton.mp hm
    · split_ifs at hm
      · exact nomatch hm
      · exact nomatch List.mem_singleton.mp hm
    · by_cases hx : x = .entry t
      · subst hx
        have hnew := (congrFun hflight (.entry t)).symm.trans hfl
        rw [Function.update_self] at hnew
        exact absurd (Option.some.inj hnew ▸ hn) (lt_irrefl _)
      · rw [List.getElem?_append_left hn] at hask
        exact h.early hothers hx hapart hfl hask
    · cases Option.some.inj (hk.symm.trans hk')
      exact hmine i hi


/-- An entry that is set is called by nobody, or `clock` is going to call its function. -/
theorem Inv.not_called (h : Inv ncpus s l lists) (ht : t ∈ l.map s.trbOf)
    (hset : (s.timers.trb t).tof ≠ none) (hp : s.timers.trbCalled p = t)
    (hfree : s.Free p t) : False := by
  obtain ⟨⟨r, f, a, hrun⟩, hpend⟩ := hfree hp
  have howner := (h.calling (h.block_ne_zero ht) hp).owner
  rcases h.due t ht hset with hp' | ⟨q, he⟩
  · exact nomatch hpend.symm.trans hp'
  · have hok := h.phases q
    have hq : q = p := by
      rcases he with he | ⟨g, he⟩
      · rw [he] at hok
        exact hok.1.owner.symm.trans howner
      · rw [he] at hok
        exact hok.1.owner.symm.trans howner
    subst hq
    rcases he with he | ⟨g, he⟩
    · exact nomatch hrun.symm.trans he
    · exact nomatch hrun.symm.trans he

theorem Inv.untimeout (h : Inv ncpus s l lists) {s' : State} {r : Bool}
    (hfree : ∀ k, s.findSet f a = some k → k ≠ 0 → s.Free cpu (s.trbOf k))
    (hstep : s.untimeout ncpus cpu f a = some (r, s')) :
    (r = false ∧ s' = s) ∨ r = true ∧ Returned ncpus s l f a s' ∧
      ∀ k, s.findSet f a = some k → k ≠ 0 → ∀ i, s.timers.trbCalled i ≠ s.trbOf k := by
  unfold State.untimeout at hstep
  obtain ⟨k, hk, hor⟩ := h.findSet_spec f a
  rw [hk, Option.bind_eq_bind, Option.bind_some] at hstep
  rcases hor with ⟨rfl, hno⟩ | ⟨hkl, htof, hdata⟩
  · rw [if_pos rfl] at hstep
    cases hstep
    refine .inr ⟨rfl, ⟨⟨lists, h⟩, ⟨[], (List.append_nil _).symm⟩, ⟨[], (List.append_nil _).symm,
      fun _ _ _ hm => nomatch hm⟩, fun x n hn hfl hask => ?_⟩, fun k' hk' hk0 => ?_⟩
    · by_cases hx : x = .entry 0
      · subst hx
        change (if 0 ∈ l.map s.trbOf ∧ _ then _ else none) = _ at hfl
        rw [if_neg fun hn => h.block_ne_zero hn.1 rfl] at hfl
        exact nomatch hfl
      · exact h.early (fun _ _ => rfl) hx (fun j hj _ => hno j hj) hfl hask
    · exact absurd (Option.some.inj (hk'.symm.trans hk)) hk0
  · have hk0 := h.table.chain.ne_zero hkl
    rw [if_neg hk0] at hstep
    have ht : s.trbOf k ∈ l.map s.trbOf := List.mem_map_of_mem hkl
    have hset : (s.timers.trb (s.trbOf k)).tof ≠ none := fun hn => nomatch htof.symm.trans hn
    have hapart : ∀ j ∈ l.map s.trbOf, j ≠ s.trbOf k → (s.timers.trb j).tof = some f →
        (s.timers.trb j).funcData ≠ a := fun j hj hjt hf hd =>
      hjt (h.uniq j hj _ ht (fun hn => nomatch hf.symm.trans hn) (hf.trans htof.symm)
        (hd.trans hdata.symm))
    dsimp only at hstep
    rcases h.stop ht (hfree k hk hk0) with ⟨-, hstop⟩ | ⟨m, lists', hstop, hq, hcalled, hother,
      ⟨b, hself⟩, hmine⟩
    · rw [hstop] at hstep
      cases hstep
      exact .inl ⟨rfl, rfl⟩
    · rw [hstop] at hstep
      cases hstep
      let t := s.trbOf k
      have hnone : ∀ i, s.timers.trbCalled i ≠ t := by
        intro i hi
        obtain rfl := hmine i hi
        exact h.not_called ht hset hi (hfree k hk hk0)
      have hpend : (m.trb t).pending = false := congrArg Trb.pending hself
      have hreq : (m.trb t).req = (s.timers.trb t).req := (congrArg Trb.req hself).trans rfl
      let b' : Trb := { m.trb t with tof := none }
      have hb' : Function.update m.trb t b' t = b' := Function.update_self _ _ _
      have hq' := (hq.write hpend (b := b') hpend).unlinked (t := t)
        ((hq.write hpend (b := b') hpend).not_mem ((congrArg Trb.pending hb').trans hpend)) 0 0
      have hothers : ∀ j, j ≠ t → Function.update m.trb t b' j = s.timers.trb j := by
        intro j hj
        rw [Function.update_of_ne hj, hother j hj]
      let m' : Timers :=
        { m with
          knext := Function.update m.knext t 0
          kprev := Function.update m.kprev t 0
          trb := Function.update m.trb t b' }
      have hflight := (flight_write s m' (l.map s.trbOf) hothers).trans
        (by rw [if_neg fun hn => hn.2 (congrArg Trb.tof hb')])
      have hfl : s.flight (l.map s.trbOf) (.entry t) = some (m.trb t).req := by
        change (if t ∈ l.map s.trbOf ∧ (s.timers.trb t).tof ≠ none then _ else _) = _
        rw [if_pos ⟨ht, hset⟩, hreq]
      have hledger : Ledger (Function.update (s.flight (l.map s.trbOf)) (.entry t) none)
          (s.asked ++ []).length ((s.hist ++ [Fate.cancelled (m.trb t).req]).map Fate.req) := by
        rw [List.append_nil, List.map_append]
        exact h.ledger.settle hfl
      have hends : ∀ n g d, Fate.began n g d ∉ [Fate.cancelled (m.trb t).req] :=
        fun n g d hm => nomatch List.mem_singleton.mp hm
      have hinv := h.rewrite [] hq' hcalled hothers (fun i hi => absurd hi (hnone i))
        (.inl ⟨congrArg Trb.tof hb', (congrArg Trb.pending hb').trans hpend⟩) hflight hledger hends
      rw [List.append_nil] at hinv
      refine .inr ⟨rfl, ⟨⟨lists', hinv⟩, ⟨[], (List.append_nil _).symm⟩, ⟨_, rfl, hends⟩,
        fun x n hn hfl' hask => ?_⟩, fun k' hk' _ i hi => ?_⟩
      · by_cases hx : x = .entry t
        · subst hx
          have hnew := (congrFun hflight (.entry t)).symm.trans hfl'
          rw [Function.update_self] at hnew
          exact nomatch hnew
        · exact h.early hothers hx hapart hfl' hask
      · cases Option.some.inj (hk.symm.trans hk')
        exact hnone i hi

end Aix413.Callout
