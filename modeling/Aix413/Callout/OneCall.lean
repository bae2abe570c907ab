import Aix413.Callout.Requests

namespace Aix413.Callout

open Lib.LinkedPool

variable {ncpus cpu f a t p : Nat} {s : State} {l : List Nat} {lists : Nat → List Nat}

/-! ## Expiry -/

theorem flight_turn {m' : Timers} {blocks : List Nat} (e' : Expiry)
    (hother : ∀ j, j ≠ t → m'.trb j = s.timers.trb j) :
    State.flight { s with timers := m', expiry := Function.update s.expiry p e' } blocks =
      Function.update (Function.update (s.flight blocks) (.entry t)
        (if t ∈ blocks ∧ (m'.trb t).tof ≠ none then some (m'.trb t).req else none))
        (.cpu p) e'.held := by
  rw [← flight_write s m' blocks hother]
  funext x
  cases x with
  | entry j => rw [Function.update_of_ne (show Loc.entry j ≠ .cpu p from nofun)]; rfl
  | cpu q =>
    by_cases hqp : q = p
    · subst hqp
      rw [Function.update_self]
      exact congrArg Expiry.held (Function.update_self _ _ _)
    · rw [Function.update_of_ne fun he => hqp (Loc.cpu.inj he)]
      exact congrArg Expiry.held (Function.update_of_ne hqp _ _)

/-- What is in flight does not change. -/
theorem flight_still {m' : Timers} {blocks : List Nat} {e' : Expiry}
    (hother : ∀ j, j ≠ t → m'.trb j = s.timers.trb j)
    (hself : (m'.trb t).tof = (s.timers.trb t).tof ∧ (m'.trb t).req = (s.timers.trb t).req)
    (hheld : e'.held = (s.expiry p).held) :
    State.flight { s with timers := m', expiry := Function.update s.expiry p e' } blocks =
      s.flight blocks := by
  rw [flight_turn e' hother, hself.1, hself.2, hheld]
  rw [show (if t ∈ blocks ∧ (s.timers.trb t).tof ≠ none then some (s.timers.trb t).req else none) =
    s.flight blocks (.entry t) from rfl, Function.update_eq_self]
  exact Function.update_eq_self (Loc.cpu p) (s.flight blocks)

/-- A processor goes on with its block. -/
theorem Inv.turn (h : Inv ncpus s l lists) (m' : Timers) (e' : Expiry) (ends : List Fate)
    {lists' : Nat → List Nat} (hq : Queues (l.map s.trbOf) m' lists')
    (hcalled : ∀ q, q ≠ p → m'.trbCalled q = s.timers.trbCalled q ∧ s.timers.trbCalled q ≠ t)
    (hother : ∀ j, j ≠ t → m'.trb j = s.timers.trb j)
    (hsame : (m'.trb t).funcData = (s.timers.trb t).funcData ∧
      (m'.trb t).req = (s.timers.trb t).req)
    (htof : (m'.trb t).tof = none ∨ (m'.trb t).tof = (s.timers.trb t).tof)
    (hpend : (m'.trb t).pending = true → (m'.trb t).tof ≠ none ∧ (m'.trb t).func = true ∧
      (m'.trb t).active = true ∧ (m'.trb t).cpunum < ncpus)
    (hdue : t ∈ l.map s.trbOf → (m'.trb t).tof ≠ none → (m'.trb t).pending = true ∨
      e' = .called t (m'.trb t).req ∨ ∃ f, e' = .entered t (m'.trb t).req f)
    (hold : ∀ j r, (s.expiry p = .called j r ∨ ∃ f, s.expiry p = .entered j r f) → j = t)
    (hok : e'.Ok ncpus (l.map s.trbOf) m' s.asked p)
    (hledger : Ledger (State.flight { s with
        timers := m', expiry := Function.update s.expiry p e' } (l.map s.trbOf))
      s.asked.length ((s.hist ++ ends).map Fate.req))
    (hends : ∀ n f a, Fate.began n f a ∈ ends → s.asked[n]? = some (f, a)) :
    Inv ncpus { s with
      timers := m', expiry := Function.update s.expiry p e', hist := s.hist ++ ends } l lists' := by
  have hcalling : ∀ {q t'}, q ≠ p → Calling ncpus (l.map s.trbOf) s.timers q t' →
      t' ≠ t ∧ Calling ncpus (l.map s.trbOf) m' q t' := by
    intro q t' hqp hc
    obtain ⟨hsame, hno⟩ := hcalled q hqp
    have hne : t' ≠ t := fun he => hno (hc.called.trans he)
    refine ⟨hne, ?_, hc.block, hc.cpu, ?_, ?_⟩
    · rw [hsame, hc.called]
    · rw [hother t' hne, hc.owner]
    · rw [hother t' hne, hc.active]
  exact
    { table := ⟨h.table.chain, h.table.backed, h.table.count, h.table.own⟩
      live := h.live
      queues := hq
      phases := fun q => by
        change (Function.update s.expiry p e' q).Ok ncpus (l.map s.trbOf) m' s.asked q
        by_cases hqp : q = p
        · subst hqp
          rwa [Function.update_self]
        · rw [Function.update_of_ne hqp]
          have hokq := h.phases q
          cases he : s.expiry q with
          | idle =>
            rw [he] at hokq
            exact (hcalled q hqp).1.trans hokq
          | called t' r =>
            rw [he] at hokq
            obtain ⟨hne, hc⟩ := hcalling hqp hokq.1
            refine ⟨hc, ?_⟩
            rw [hother t' hne]
            exact hokq.2
          | entered t' r f =>
            rw [he] at hokq
            obtain ⟨hne, hc⟩ := hcalling hqp hokq.1
            refine ⟨hc, ?_⟩
            rw [hother t' hne]
            exact hokq.2
          | cleared t' r f =>
            rw [he] at hokq
            obtain ⟨hne, hc⟩ := hcalling hqp hokq.1
            refine ⟨hc, ?_⟩
            rw [hother t' hne]
            exact hokq.2
          | running t' r f a =>
            rw [he] at hokq
            exact (hcalling hqp hokq).2
      pend := fun j hj hp => by
        by_cases hjt : j = t
        · subst hjt
          exact hpend hp
        · change (m'.trb j).pending = true at hp
          change (m'.trb j).tof ≠ none ∧ (m'.trb j).func = true ∧ (m'.trb j).active = true ∧
            (m'.trb j).cpunum < ncpus
          rw [hother j hjt] at hp ⊢
          exact h.pend j hj hp
      due := fun j hj hset => by
        change (m'.trb j).tof ≠ none at hset
        change (m'.trb j).pending = true ∨
          ∃ q, Function.update s.expiry p e' q = .called j (m'.trb j).req ∨
            ∃ f, Function.update s.expiry p e' q = .entered j (m'.trb j).req f
        by_cases hjt : j = t
        · subst hjt
          refine (hdue hj hset).imp_right fun he => ⟨p, ?_⟩
          rwa [Function.update_self]
        · rw [hother j hjt] at hset ⊢
          refine (h.due j hj hset).imp_right fun ⟨q, he⟩ => ⟨q, ?_⟩
          rwa [Function.update_of_ne]
          rintro rfl
          exact hjt (hold j _ he)
      uniq := fun j hj j' hj' hset hf hdata => by
        have hcase : ∀ i, (m'.trb i).tof ≠ none → (m'.trb i).tof = (s.timers.trb i).tof ∧
            (m'.trb i).funcData = (s.timers.trb i).funcData := by
          intro i hi
          by_cases hit : i = t
          · subst hit
            exact ⟨htof.resolve_left hi, hsame.1⟩
          · rw [hother i hit]
            exact ⟨rfl, rfl⟩
        change (m'.trb j).tof ≠ none at hset
        change (m'.trb j).tof = (m'.trb j').tof at hf
        change (m'.trb j).funcData = (m'.trb j').funcData at hdata
        obtain ⟨h₁, h₂⟩ := hcase j hset
        obtain ⟨h₃, h₄⟩ := hcase j' (hf ▸ hset)
        exact h.uniq j hj j' hj' (h₁ ▸ hset) (h₁.symm.trans (hf.trans h₃))
          (h₂.symm.trans (hdata.trans h₄))
      ledger := hledger
      told := fun j hj f hset => by
        change (m'.trb j).tof = some f at hset
        change s.asked[(m'.trb j).req]? = some (f, (m'.trb j).funcData)
        by_cases hjt : j = t
        · subst hjt
          rw [hsame.1, hsame.2]
          exact h.told j hj f ((htof.resolve_left fun hn => nomatch hn.symm.trans hset).symm.trans
            hset)
        · rw [hother j hjt] at hset ⊢
          exact h.told j hj f hset
      right := fun n f a hm => by
        rcases List.mem_append.mp hm with hm | hm
        · exact h.right n f a hm
        · exact hends n f a hm }


theorem Inv.expire (h : Inv ncpus s l lists) (hcpu : cpu < ncpus) (hidle : s.expiry cpu = .idle)
    (hhead : s.timers.tActive cpu ≠ 0) : ∃ rest, lists cpu = s.timers.tActive cpu :: rest ∧
      Inv ncpus (s.expire cpu) l (Function.update lists cpu rest) := by
  obtain ⟨rest, hl, hq⟩ := expire_spec h.queues hhead
  let t := s.timers.tActive cpu
  obtain ⟨ht, hpend, howner⟩ := (h.queues.listed cpu t).mp (hl ▸ List.mem_cons_self)
  obtain ⟨htof, hfunc, hactive, -⟩ := h.pend t ht hpend
  let b : Trb := { s.timers.trb t with pending := false }
  have hb : (s.timers.expire cpu).trb t = b := Function.update_self _ _ _
  have hother : ∀ j, j ≠ t → (s.timers.expire cpu).trb j = s.timers.trb j :=
    fun j hj => Function.update_of_ne hj _ _
  have hinv := h.turn (s.timers.expire cpu) (.called t (s.timers.trb t).req) [] (p := cpu)
    (t := t) hq (fun q hqp => ⟨Function.update_of_ne hqp _ _, fun hc => ?_⟩) hother
    (by rw [hb]; exact ⟨rfl, rfl⟩) (.inr (by rw [hb])) (fun hp => ?_)
    (fun _ _ => .inr (.inl (by rw [hb]))) (fun j r he => ?_) ?_ ?_ fun n f a hm => nomatch hm
  · rw [List.append_nil] at hinv
    exact ⟨rest, hl, hinv⟩
  · exact hqp ((h.calling (h.block_ne_zero ht) hc).owner.symm.trans howner)
  · rw [hb] at hp
    exact nomatch hp
  · rw [hidle] at he
    rcases he with he | ⟨f, he⟩ <;> exact nomatch he
  · refine ⟨⟨Function.update_self _ _ _, ht, hcpu, ?_, ?_⟩, ?_⟩
    · rw [hb]
      exact howner
    · rw [hb]
      exact hactive
    · rw [hb]
      exact ⟨rfl, hfunc, htof, rfl⟩
  · rw [flight_still hother (by rw [hb]; exact ⟨rfl, rfl⟩) (by rw [hidle]; rfl), List.append_nil]
    exact h.ledger

/-- A processor that is calling a block is the only one. -/
theorem Inv.alone (h : Inv ncpus s l lists) (hc : Calling ncpus (l.map s.trbOf) s.timers cpu t)
    {q : Nat} (hq : q ≠ cpu) : s.timers.trbCalled q ≠ t := fun hqt =>
  hq ((h.calling (h.block_ne_zero hc.block) hqt).owner.symm.trans hc.owner)

theorem Inv.enter (h : Inv ncpus s l lists) {r : Nat} (he : s.expiry cpu = .called t r) :
    Inv ncpus (s.setExpiry cpu (.entered t r (s.timers.trb t).tof)) l lists := by
  have hok := h.phases cpu
  rw [he] at hok
  obtain ⟨hc, hpend, -, htof, hreq⟩ := hok
  have hinv := h.turn s.timers (.entered t r (s.timers.trb t).tof) [] (p := cpu) (t := t)
    h.queues (fun q hq => ⟨rfl, h.alone hc hq⟩) (fun _ _ => rfl) ⟨rfl, rfl⟩ (.inr rfl)
    (fun hp => nomatch hpend.symm.trans hp) (fun _ _ => .inr (.inr ⟨_, by rw [hreq]⟩))
    (fun j r' hj => ?_) ⟨hc, hpend, htof, rfl, hreq⟩ ?_ fun n f a hm => nomatch hm
  · rw [List.append_nil] at hinv
    exact hinv
  · rw [he] at hj
    rcases hj with hj | ⟨f, hj⟩
    · exact (Expiry.called.inj hj).1.symm
    · exact nomatch hj
  · rw [flight_still (t := t) (fun _ _ => rfl) ⟨rfl, rfl⟩ (by rw [he]; rfl), List.append_nil]
    exact h.ledger

theorem Inv.clear (h : Inv ncpus s l lists) {r : Nat} {f : Option Nat}
    (he : s.expiry cpu = .entered t r f) :
    let b : Trb := { s.timers.trb t with func := false, tof := none }
    Inv ncpus ({ s with timers.trb := Function.update s.timers.trb t b }.setExpiry cpu
      (.cleared t r f)) l lists := by
  intro b
  have hok := h.phases cpu
  rw [he] at hok
  obtain ⟨hc, hpend, hf, htof, hreq⟩ := hok
  obtain ⟨g, rfl⟩ := Option.ne_none_iff_exists'.mp hf
  let m' : Timers := { s.timers with trb := Function.update s.timers.trb t b }
  have hb : m'.trb t = b := Function.update_self _ _ _
  have hother : ∀ j, j ≠ t → m'.trb j = s.timers.trb j := fun j hj => Function.update_of_ne hj _ _
  have hinv := h.turn m' (.cleared t r (some g)) [] (p := cpu) (t := t)
    (h.queues.write hpend hpend) (fun q hq => ⟨rfl, h.alone hc hq⟩) hother
    (by rw [hb]; exact ⟨rfl, rfl⟩) (.inl (by rw [hb])) (fun hp => ?_) (fun _ hn => ?_)
    (fun j r' hj => ?_) ?_ ?_ fun n f a hm => nomatch hm
  · rw [List.append_nil] at hinv
    exact hinv
  · rw [hb] at hp
    exact nomatch hpend.symm.trans hp
  · exact absurd (congrArg Trb.tof hb) hn
  · rw [he] at hj
    rcases hj with hj | ⟨f, hj⟩
    · exact nomatch hj
    · exact (Expiry.entered.inj hj).1.symm
  · refine ⟨⟨hc.called, hc.block, hc.cpu, ?_, ?_⟩, ?_⟩
    · rw [hb]
      exact hc.owner
    · rw [hb]
      exact hc.active
    · rw [hb]
      refine ⟨hpend, rfl, g, rfl, ?_⟩
      rw [← hreq]
      exact h.told t hc.block g htof
  · rw [flight_turn _ hother, hb, if_neg fun hn => hn.2 rfl, List.append_nil]
    refine h.ledger.move ?_ ?_
    · change (if t ∈ l.map s.trbOf ∧ (s.timers.trb t).tof ≠ none then _ else _) = _
      rw [if_pos ⟨hc.block, htof ▸ nofun⟩, hreq]
    · change (s.expiry cpu).held = none
      rw [he]
      rfl

theorem Inv.call (h : Inv ncpus s l lists) {r f : Nat} (he : s.expiry cpu = .cleared t r (some f)) :
    let a := (s.timers.trb t).funcData
    Inv ncpus ({ s with hist := s.hist ++ [Fate.began r f a] }.setExpiry cpu
      (.running t r f a)) l lists := by
  intro a
  have hok := h.phases cpu
  rw [he] at hok
  obtain ⟨hc, hpend, htof, g, hg, hask⟩ := hok
  cases hg
  refine h.turn s.timers (.running t r f a) _ (p := cpu) (t := t) h.queues
    (fun q hq => ⟨rfl, h.alone hc hq⟩) (fun _ _ => rfl) ⟨rfl, rfl⟩ (.inr rfl)
    (fun hp => nomatch hpend.symm.trans hp) (fun _ hn => absurd htof hn)
    (fun j r' hj => ?_) hc ?_ fun n g d hm => ?_
  · rw [he] at hj
    rcases hj with hj | ⟨f, hj⟩ <;> exact nomatch hj
  · rw [flight_turn (t := t) _ fun _ _ => rfl, List.map_append]
    rw [show (if t ∈ l.map s.trbOf ∧ (s.timers.trb t).tof ≠ none then some (s.timers.trb t).req
      else none) = s.flight (l.map s.trbOf) (.entry t) from rfl, Function.update_eq_self]
    refine h.ledger.settle ?_
    change (s.expiry cpu).held = _
    rw [he]
    rfl
  · cases List.mem_singleton.mp hm
    exact hask

theorem Inv.leave (h : Inv ncpus s l lists) {r f a : Nat} (he : s.expiry cpu = .running t r f a) :
    Inv ncpus ({ s with timers := s.timers.finish cpu t }.setExpiry cpu .idle) l lists := by
  have hok := h.phases cpu
  rw [he] at hok
  have hc : Calling ncpus (l.map s.trbOf) s.timers cpu t := hok
  let m' := s.timers.finish cpu t
  have hother : ∀ j, j ≠ t → m'.trb j = s.timers.trb j := by
    intro j hj
    change (if (s.timers.trb t).pending = true then s.timers.trb else _) j = _
    split_ifs
    · rfl
    · exact Function.update_of_ne hj _ _
  have hself : m'.trb t = if (s.timers.trb t).pending = true then s.timers.trb t
      else { s.timers.trb t with active := false } := by
    change (if (s.timers.trb t).pending = true then s.timers.trb else _) t = _
    split_ifs
    · rfl
    · exact Function.update_self _ _ _
  have hsame : (m'.trb t).funcData = (s.timers.trb t).funcData ∧
      (m'.trb t).req = (s.timers.trb t).req ∧ (m'.trb t).tof = (s.timers.trb t).tof ∧
      (m'.trb t).pending = (s.timers.trb t).pending ∧
      (m'.trb t).cpunum = (s.timers.trb t).cpunum := by
    rw [hself]
    split_ifs <;> exact ⟨rfl, rfl, rfl, rfl, rfl⟩
  have hq : Queues (l.map s.trbOf) m' lists := by
    refine ⟨h.queues.doubly, fun p j => ?_⟩
    rw [h.queues.listed]
    by_cases hjt : j = t
    · subst hjt
      rw [hsame.2.2.2.1, hsame.2.2.2.2]
    · rw [hother j hjt]
  have hinv := h.turn m' .idle [] (p := cpu) (t := t) hq
    (fun q hq => ⟨Function.update_of_ne hq _ _, h.alone hc hq⟩) hother ⟨hsame.1, hsame.2.1⟩
    (.inr hsame.2.2.1) (fun hp => ?_) (fun ht hn => ?_)
    (fun j r' hj => ?_) (Function.update_self _ _ _) ?_ fun n f a hm => nomatch hm
  · rw [List.append_nil] at hinv
    exact hinv
  · have hp' := hsame.2.2.2.1.symm.trans hp
    rw [hself, if_pos hp']
    exact h.pend t hc.block hp'
  · rw [hsame.2.2.1] at hn
    rw [hsame.2.2.2.1]
    refine .inl ((h.due t ht hn).resolve_right fun ⟨q, hq⟩ => ?_)
    by_cases hqc : q = cpu
    · rw [hqc, he] at hq
      rcases hq with hq | ⟨g, hq⟩ <;> exact nomatch hq
    · have hokq := h.phases q
      rcases hq with hq | ⟨g, hq⟩
      · rw [hq] at hokq
        exact h.alone hc hqc hokq.1.called
      · rw [hq] at hokq
        exact h.alone hc hqc hokq.1.called
  · rw [he] at hj
    rcases hj with hj | ⟨f, hj⟩ <;> exact nomatch hj
  · rw [flight_still hother ⟨hsame.2.2.1, hsame.2.1⟩ (by rw [he]; rfl), List.append_nil]
    exact h.ledger

/-- What a processor does when it goes on. -/
theorem Inv.advance (h : Inv ncpus s l lists) {s' : State} (hstep : s.advance cpu = some s') :
    Inv ncpus s' l lists ∧ s'.asked = s.asked ∧ ∃ ends, s'.hist = s.hist ++ ends := by
  have hnone : ∃ ends, s.hist = s.hist ++ ends := ⟨[], (List.append_nil _).symm⟩
  unfold State.advance at hstep
  cases he : s.expiry cpu with
  | idle =>
    rw [he] at hstep
    cases hstep
    exact ⟨h, rfl, hnone⟩
  | called t r =>
    have hok := h.phases cpu
    rw [he] at hok
    rw [he] at hstep
    dsimp only at hstep
    rw [if_pos hok.2.2.1] at hstep
    cases hstep
    exact ⟨h.enter he, rfl, hnone⟩
  | entered t r f =>
    rw [he] at hstep
    cases hstep
    exact ⟨h.clear he, rfl, hnone⟩
  | cleared t r f =>
    rw [he] at hstep
    cases f with
    | none => exact nomatch hstep
    | some f =>
      cases hstep
      exact ⟨h.call he, rfl, _, rfl⟩
  | running t r f a =>
    rw [he] at hstep
    cases hstep
    exact ⟨h.leave he, rfl, hnone⟩

/-! ## Size of the table -/

/-- A block that is not set joins the table or leaves it. -/
theorem Inv.resize (h : Inv ncpus s l lists) {s' : State} {l' : List Nat}
    {lists' : Nat → List Nat} (htable : Chained s' l')
    (hlive : ∀ k ∈ l', s'.tosLive k = true ∧ s'.trbLive (s'.trbOf k) = true ∧ s'.trbOf k ≠ 0)
    (hq : Queues (l'.map s'.trbOf) s'.timers lists')
    (hsame : s'.expiry = s.expiry ∧ s'.asked = s.asked ∧ s'.hist = s.hist)
    (hcalled : s'.timers.trbCalled = s.timers.trbCalled)
    (hother : ∀ j, j ≠ t → s'.timers.trb j = s.timers.trb j ∧
      (j ∈ l'.map s'.trbOf ↔ j ∈ l.map s.trbOf))
    (hnew : t ∈ l'.map s'.trbOf → (s'.timers.trb t).tof = none ∧
      (s'.timers.trb t).pending = false)
    (hold : t ∈ l.map s.trbOf → (s.timers.trb t).tof = none)
    (hno : ∀ i, ¬Calling ncpus (l.map s.trbOf) s.timers i t) : Inv ncpus s' l' lists' := by
  have hcalling : ∀ {q t'}, Calling ncpus (l.map s.trbOf) s.timers q t' →
      t' ≠ t ∧ Calling ncpus (l'.map s'.trbOf) s'.timers q t' := by
    intro q t' hc
    have hne : t' ≠ t := by
      rintro rfl
      exact hno q hc
    refine ⟨hne, ?_, (hother t' hne).2.mpr hc.block, hc.cpu, ?_, ?_⟩
    · rw [hcalled, hc.called]
    · rw [(hother t' hne).1, hc.owner]
    · rw [(hother t' hne).1, hc.active]
  have hset : ∀ j ∈ l'.map s'.trbOf, (s'.timers.trb j).tof ≠ none ∨
      (s'.timers.trb j).pending = true →
      j ∈ l.map s.trbOf ∧ s'.timers.trb j = s.timers.trb j := by
    intro j hj hor
    have hjt : j ≠ t := by
      rintro rfl
      rcases hor with hn | hp
      · exact hn (hnew hj).1
      · exact nomatch (hnew hj).2.symm.trans hp
    exact ⟨(hother j hjt).2.mp hj, (hother j hjt).1⟩
  have hflight : s'.flight (l'.map s'.trbOf) = s.flight (l.map s.trbOf) := by
    funext x
    cases x with
    | entry j =>
      by_cases hjt : j = t
      · subst hjt
        change (if j ∈ l'.map s'.trbOf ∧ (s'.timers.trb j).tof ≠ none then _ else _) =
          if j ∈ l.map s.trbOf ∧ (s.timers.trb j).tof ≠ none then _ else _
        rw [if_neg fun hn => hn.2 (hnew hn.1).1, if_neg fun hn => hn.2 (hold hn.1)]
      · change (if j ∈ l'.map s'.trbOf ∧ (s'.timers.trb j).tof ≠ none then
          some (s'.timers.trb j).req else none) =
          if j ∈ l.map s.trbOf ∧ (s.timers.trb j).tof ≠ none then
            some (s.timers.trb j).req else none
        rw [(hother j hjt).1]
        simp only [(hother j hjt).2]
    | cpu p =>
      change (s'.expiry p).held = (s.expiry p).held
      rw [hsame.1]
  exact
    { table := htable
      live := hlive
      queues := hq
      phases := fun p => by
        have hok := h.phases p
        rw [hsame.1, hsame.2.1]
        cases he : s.expiry p with
        | idle =>
          rw [he] at hok
          exact (congrFun hcalled p).trans hok
        | called t' r =>
          rw [he] at hok
          obtain ⟨hne, hc⟩ := hcalling hok.1
          refine ⟨hc, ?_⟩
          rw [(hother t' hne).1]
          exact hok.2
        | entered t' r f =>
          rw [he] at hok
          obtain ⟨hne, hc⟩ := hcalling hok.1
          refine ⟨hc, ?_⟩
          rw [(hother t' hne).1]
          exact hok.2
        | cleared t' r f =>
          rw [he] at hok
          obtain ⟨hne, hc⟩ := hcalling hok.1
          refine ⟨hc, ?_⟩
          rw [(hother t' hne).1]
          exact hok.2
        | running t' r f a =>
          rw [he] at hok
          exact (hcalling hok).2
      pend := fun j hj hp => by
        obtain ⟨hj', heq⟩ := hset j hj (.inr hp)
        rw [heq] at hp ⊢
        exact h.pend j hj' hp
      due := fun j hj hn => by
        obtain ⟨hj', heq⟩ := hset j hj (.inl hn)
        rw [heq] at hn ⊢
        rw [hsame.1]
        exact h.due j hj' hn
      uniq := fun j hj j' hj' hn htof hdata => by
        obtain ⟨hl, heq⟩ := hset j hj (.inl hn)
        obtain ⟨hl', heq'⟩ := hset j' hj' (.inl (htof ▸ hn))
        rw [heq] at hn
        rw [heq, heq'] at htof hdata
        exact h.uniq j hl j' hl' hn htof hdata
      ledger := by
        rw [hflight, hsame.2.1, hsame.2.2]
        exact h.ledger
      told := fun j hj f hf => by
        obtain ⟨hl, heq⟩ := hset j hj (.inl fun hn => nomatch hn.symm.trans hf)
        rw [heq] at hf ⊢
        rw [hsame.2.1]
        exact h.told j hl f hf
      right := by
        rw [hsame.2.1, hsame.2.2]
        exact h.right }

theorem Chained.doubly (h : Chained s l) :
    Doubly s.tonext s.toprev (fun _ : Unit => s.head) fun _ => l :=
  ⟨⟨fun _ => h.chain, fun _ _ => rfl⟩, fun _ => h.backed⟩

theorem Inv.grow (h : Inv ncpus s l lists) {tos : Nat} (htos : tos ≠ 0 ∧ s.tosLive tos = false)
    (ht : t ≠ 0 ∧ s.trbLive t = false) : Inv ncpus (s.grow tos t) (tos :: l) lists := by
  have htos' : tos ∉ l := fun hm => nomatch htos.2.symm.trans (h.live tos hm).1
  have ht' : t ∉ l.map s.trbOf := by
    intro hm
    obtain ⟨k, hk, rfl⟩ := List.mem_map.mp hm
    exact nomatch ht.2.symm.trans (h.live k hk).2.1
  have hne : ∀ k ∈ l, k ≠ tos := fun k hk he => htos' (he ▸ hk)
  have htrb : ∀ k ∈ l, (s.grow tos t).trbOf k = s.trbOf k :=
    fun k hk => Function.update_of_ne (hne k hk) _ _
  have hself : (s.grow tos t).trbOf tos = t := Function.update_self _ _ _
  have hblocks : (tos :: l).map (s.grow tos t).trbOf = t :: l.map s.trbOf := by
    rw [List.map_cons, hself, List.map_congr_left htrb]
  have hd := h.table.doubly.push htos.1 (fun _ => htos') ()
  have hc := hd.chain ()
  have hb := hd.backed ()
  rw [Function.update_self] at hc hb
  rw [Function.update_self] at hc
  let b : Trb :=
    { cpunum := 0, pending := false, active := false, timeout := 0, func := false, tof := none,
      funcData := 0, req := 0 }
  have hnot : ∀ p, t ∉ lists p := fun p hm => ht' ((h.queues.listed p t).mp hm).1
  refine h.resize (t := t) ⟨hc, hb, ?_, ?_⟩ (fun k hk => ?_) ?_ ⟨rfl, rfl, rfl⟩ rfl
    (fun j hj => ⟨Function.update_of_ne hj _ _, ?_⟩) (fun _ => ?_) (fun hm => absurd hm ht')
    fun i hcall => ht' hcall.block
  · exact congrArg (· + 1) h.table.count
  · rw [hblocks]
    exact List.nodup_cons.mpr ⟨ht', h.table.own⟩
  · rcases List.mem_cons.mp hk with rfl | hk
    · rw [hself]
      exact ⟨Function.update_self _ _ _, Function.update_self _ _ _, ht.1⟩
    · obtain ⟨h₁, h₂, h₃⟩ := h.live k hk
      rw [htrb k hk]
      refine ⟨(Function.update_of_ne (hne k hk) _ _).trans h₁,
        (Function.update_of_ne ?_ _ _).trans h₂, h₃⟩
      rintro rfl
      exact ht' (List.mem_map_of_mem hk)
  · rw [hblocks]
    refine ⟨(h.queues.unlinked hnot 0 0).doubly, fun p j => ?_⟩
    change j ∈ lists p ↔ j ∈ t :: l.map s.trbOf ∧ (Function.update s.timers.trb t b j).pending =
      true ∧ (Function.update s.timers.trb t b j).cpunum = p
    by_cases hj : j = t
    · subst hj
      rw [Function.update_self]
      exact ⟨fun hm => absurd hm (hnot p), fun hm => nomatch hm.2.1⟩
    · rw [Function.update_of_ne hj, h.queues.listed, List.mem_cons, or_iff_right hj]
  · rw [hblocks, List.mem_cons, or_iff_right hj]
  · have hb' : (s.grow tos t).timers.trb t = b := Function.update_self _ _ _
    rw [hb']
    exact ⟨rfl, rfl⟩


/-- The entry and its block are taken out of the table. -/
theorem Inv.drop (h : Inv ncpus s l lists) {tos : Nat} {l₁ l₂ : List Nat} (hl : l = l₁ ++ tos :: l₂)
    {m : Timers} {lists' : Nat → List Nat} (hq : Queues (l.map s.trbOf) m lists')
    (hcalled : m.trbCalled = s.timers.trbCalled)
    (hother : ∀ j, j ≠ s.trbOf tos → m.trb j = s.timers.trb j)
    (hpend : (m.trb (s.trbOf tos)).pending = false)
    (htof : (s.timers.trb (s.trbOf tos)).tof = none)
    (hno : ∀ i, s.timers.trbCalled i ≠ s.trbOf tos) {head : Nat} {tonext toprev : Nat → Nat}
    (hchain : Chain tonext head (l₁ ++ l₂)) (hback : Backed toprev 0 (l₁ ++ l₂)) :
    Inv ncpus { s with
      timers := m
      ncallo := s.ncallo - 1
      tosLive := Function.update s.tosLive tos false
      trbLive := Function.update s.trbLive (s.trbOf tos) false
      head := head
      tonext := tonext
      toprev := toprev } (l₁ ++ l₂) lists' := by
  subst hl
  have hown := h.table.own
  have hnd := h.table.chain.nodup
  rw [List.map_append, List.map_cons, List.nodup_middle, List.nodup_cons, ← List.map_append] at hown
  rw [List.nodup_middle, List.nodup_cons] at hnd
  have hmem : ∀ j, j ∈ (l₁ ++ tos :: l₂).map s.trbOf ↔
      j = s.trbOf tos ∨ j ∈ (l₁ ++ l₂).map s.trbOf := by
    intro j
    simp only [List.map_append, List.map_cons, List.mem_append, List.mem_cons]
    tauto
  have hkeep : ∀ k ∈ l₁ ++ l₂, k ∈ l₁ ++ tos :: l₂ := by
    intro k hk
    simp only [List.mem_append, List.mem_cons] at hk ⊢
    tauto
  refine h.resize (t := s.trbOf tos) ⟨hchain, hback, ?_, hown.2⟩ (fun k hk => ?_) ?_
    ⟨rfl, rfl, rfl⟩ hcalled (fun j hj => ⟨hother j hj, ?_⟩) (fun hm => absurd hm hown.1)
    (fun _ => htof) fun i hc => hno i hc.called
  · have hcount := h.table.count
    simp only [List.length_append, List.length_cons] at hcount ⊢
    omega
  · obtain ⟨h₁, h₂, h₃⟩ := h.live k (hkeep k hk)
    refine ⟨(Function.update_of_ne ?_ _ _).trans h₁, (Function.update_of_ne ?_ _ _).trans h₂, h₃⟩
    · rintro rfl
      exact hnd.1 hk
    · exact fun he => hown.1 (he ▸ List.mem_map_of_mem hk)
  · refine ⟨hq.doubly, fun p j => ?_⟩
    rw [hq.listed, hmem]
    refine ⟨fun ⟨hj, hp, hc⟩ => ⟨hj.resolve_left ?_, hp, hc⟩, fun ⟨hj, hp⟩ => ⟨.inr hj, hp⟩⟩
    rintro rfl
    exact nomatch hpend.symm.trans hp
  · rw [hmem, or_iff_right hj]

theorem Inv.shrink (h : Inv ncpus s l lists) {s' : State} {r : Bool}
    (hstep : s.shrink ncpus cpu = some (r, s')) :
    (r = false ∧ s' = s) ∨ r = true ∧ (∃ l' lists', Inv ncpus s' l' lists') ∧
      s'.asked = s.asked ∧ s'.hist = s.hist := by
  unfold State.shrink at hstep
  split_ifs at hstep with hhead
  obtain ⟨tos, htos, hor⟩ := h.findFree_spec
  rw [htos, Option.bind_eq_bind, Option.bind_some] at hstep
  split_ifs at hstep with htos0
  obtain ⟨hmem, htof⟩ := hor.resolve_left htos0
  have ht : s.trbOf tos ∈ l.map s.trbOf := List.mem_map_of_mem hmem
  dsimp only at hstep
  by_cases hmine : s.timers.trbCalled cpu = s.trbOf tos
  · -- a function that is running takes its own entry away
    have hc := h.calling (h.block_ne_zero ht) hmine
    have hstop : Timers.tstop ncpus cpu (s.trbOf tos) s.timers = some s.timers := by
      unfold Timers.tstop
      rw [if_pos ⟨cpu, hc.cpu, hmine⟩, if_pos hc.owner]
    rw [hstop] at hstep
    dsimp only at hstep
    rw [if_pos (.inr hc.active)] at hstep
    exact nomatch hstep
  · rcases h.stop ht fun hc => absurd hc hmine with ⟨-, hstop⟩ | ⟨m, lists', hstop, hq, hcalled,
      hother, ⟨b, hself⟩, hcpu⟩
    · rw [hstop] at hstep
      cases hstep
      exact .inl ⟨rfl, rfl⟩
    · have hno : ∀ i, s.timers.trbCalled i ≠ s.trbOf tos := fun i hi => hmine (hcpu i hi ▸ hi)
      have hpend : (m.trb (s.trbOf tos)).pending = false := congrArg Trb.pending hself
      rw [hstop] at hstep
      dsimp only at hstep
      obtain ⟨l₁, l₂, hl⟩ := List.append_of_mem hmem
      split_ifs at hstep with hbusy hfirst hprev
      · cases hstep
        cases l₁ with
        | nil =>
          have hd := h.table.doubly.behead (a := ()) hl
          have hc := hd.chain ()
          have hb := hd.backed ()
          rw [Function.update_self] at hc hb
          rw [Function.update_self] at hc
          exact .inr ⟨rfl, ⟨_, _, h.drop hl hq hcalled hother hpend htof hno hc hb⟩, rfl, rfl⟩
        | cons k l₁ =>
          have hnd := h.table.chain.nodup
          have hk : s.head = k := by
            rw [h.table.chain.head_eq, hl]
            rfl
          rw [hl, List.cons_append, List.nodup_cons] at hnd
          exact absurd (by simp [← hk, hfirst]) hnd.1
      · cases hstep
        cases l₁.eq_nil_or_concat with
        | inl hnil =>
          refine absurd ?_ hfirst
          rw [h.table.chain.head_eq, hl, hnil]
          rfl
        | inr hcat =>
          obtain ⟨l₁, q, rfl⟩ := hcat
          have hl' : l = l₁ ++ q :: tos :: l₂ := by rw [hl]; simp
          obtain ⟨hq', hd⟩ := h.table.doubly.bypass (a := ()) hl'
          have hc := hd.chain ()
          have hb := hd.backed ()
          rw [Function.update_self, show l₁ ++ q :: l₂ = l₁.concat q ++ l₂ by simp] at hc hb
          rw [hq']
          exact .inr ⟨rfl, ⟨_, _, h.drop hl hq hcalled hother hpend htof hno hc hb⟩, rfl, rfl⟩


/-! ## Runs -/

namespace State

/-- The call is made by the function itself. -/
def bySelf (s : State) (cpu : Nat) (self : Bool) (f : Nat) : Prop := self = true ∧ s.runs cpu f

/-- A processor that is going to call `f` with `a` does no harm to a call that uses entry `k`: the
call is made by `f` itself, or is refused because the entry is being called elsewhere. -/
def Clear (s : State) (cpu : Nat) (self : Bool) (f a : Nat) (k : Option Nat) : Prop :=
  ∀ p t r, s.expiry p = .cleared t r (some f) → (s.timers.trb t).funcData = a →
    s.bySelf cpu self f ∨ ∃ tos ∈ k, tos ≠ 0 ∧ ∃ i, i ≠ cpu ∧ s.timers.trbCalled i = s.trbOf tos

/-- The condition on a step. -/
def Meets (s : State) : Act → Prop
  | .timeout cpu self f a _ _ =>
    (∀ k, s.choice f a = some k → k ≠ 0 → s.Free cpu (s.trbOf k)) ∧
      s.Clear cpu self f a (s.choice f a)
  | .untimeout cpu self f a =>
    (∀ k, s.findSet f a = some k → k ≠ 0 → s.Free cpu (s.trbOf k)) ∧
      s.Clear cpu self f a (s.findSet f a)
  | _ => True

/-- Nothing has happened yet. -/
structure Initial (s : State) : Prop where
  head : s.head = 0
  count : s.ncallo = 0
  idle : ∀ p, s.expiry p = .idle ∧ s.timers.trbCalled p = 0 ∧ s.timers.tActive p = 0
  asked : s.asked = []
  hist : s.hist = []

/-- Steps that satisfy `P`. -/
def Next (ncpus : Nat) (P : State → Act → Prop) (s s' : State) : Prop :=
  ∃ act r, s.Enabled ncpus act ∧ P s act ∧ s.step ncpus act = some (r, s')

/-- `s'` comes after `s`. -/
structure Extends (s s' : State) : Prop where
  asked : ∃ ext, s'.asked = s.asked ++ ext
  hist : ∃ ends, s'.hist = s.hist ++ ends

theorem Extends.same {s s' : State} (hasked : s'.asked = s.asked) (hhist : s'.hist = s.hist) :
    Extends s s' :=
  ⟨⟨[], by rw [hasked, List.append_nil]⟩, [], by rw [hhist, List.append_nil]⟩

theorem Extends.trans {s s' s'' : State} (h : Extends s s') (h' : Extends s' s'') :
    Extends s s'' := by
  obtain ⟨ext, hext⟩ := h.asked
  obtain ⟨ends, hends⟩ := h.hist
  obtain ⟨ext', hext'⟩ := h'.asked
  obtain ⟨ends', hends'⟩ := h'.hist
  exact ⟨⟨ext ++ ext', by rw [hext', hext, List.append_assoc]⟩,
    ends ++ ends', by rw [hends', hends, List.append_assoc]⟩

end State

theorem State.Initial.inv (h : s.Initial) : Inv ncpus s [] fun _ => [] := by
  have hnone : s.flight ([].map s.trbOf) = fun _ => none := by
    funext x
    cases x with
    | entry t =>
      change (if t ∈ [] ∧ (s.timers.trb t).tof ≠ none then some (s.timers.trb t).req else none) = _
      exact if_neg fun hn => List.not_mem_nil hn.1
    | cpu p =>
      change (s.expiry p).held = none
      rw [(h.idle p).1]
      rfl
  exact
    { table := ⟨h.head, trivial, h.count, List.nodup_nil⟩
      live := fun k hk => nomatch hk
      queues := ⟨⟨⟨fun p => (h.idle p).2.2, fun hk => nomatch hk⟩, fun _ => trivial⟩,
        fun p t => ⟨fun hm => (nomatch hm), fun hm => nomatch hm.1⟩⟩
      phases := fun p => by
        rw [(h.idle p).1]
        exact (h.idle p).2.1
      pend := fun t ht => nomatch ht
      due := fun t ht => nomatch ht
      uniq := fun t ht => nomatch ht
      ledger := by
        rw [hnone, h.asked, h.hist]
        refine ⟨fun hx => (nomatch hx), fun n => ⟨fun ⟨_, hx⟩ => (nomatch hx), fun hn => ?_⟩,
          List.nodup_nil, fun n hn => nomatch hn⟩
        exact absurd hn.1 (Nat.not_lt_zero n)
      told := fun t ht => nomatch ht
      right := fun n f a hm => by
        rw [h.hist] at hm
        exact nomatch hm }

theorem Returned.extends {s' : State} (h : Returned ncpus s l f a s') : s.Extends s' := by
  obtain ⟨ends, hends, -⟩ := h.hist
  exact ⟨h.asked, ends, hends⟩

/-- What one step keeps. -/
theorem Inv.next (h : Inv ncpus s l lists) {s' : State}
    (hnext : s.Next ncpus State.Meets s') :
    (∃ l' lists', Inv ncpus s' l' lists') ∧ s.Extends s' := by
  obtain ⟨act, r, hen, hmeets, hstep⟩ := hnext
  cases act with
  | timeout cpu self f a ticks now =>
    rcases h.timeout hen.1 hmeets.1 hstep with ⟨-, rfl⟩ | ⟨-, hret, -⟩
    · exact ⟨⟨l, lists, h⟩, .same rfl rfl⟩
    · obtain ⟨lists', hinv⟩ := hret.inv
      exact ⟨⟨l, lists', hinv⟩, hret.extends⟩
  | untimeout cpu self f a =>
    rcases h.untimeout hmeets.1 hstep with ⟨-, rfl⟩ | ⟨-, hret, -⟩
    · exact ⟨⟨l, lists, h⟩, .same rfl rfl⟩
    · obtain ⟨lists', hinv⟩ := hret.inv
      exact ⟨⟨l, lists', hinv⟩, hret.extends⟩
  | grow tos t =>
    cases hstep
    exact ⟨⟨_, _, h.grow hen.1 hen.2⟩, .same rfl rfl⟩
  | shrink cpu =>
    rcases h.shrink hstep with ⟨-, rfl⟩ | ⟨-, hinv, hasked, hhist⟩
    · exact ⟨⟨l, lists, h⟩, .same rfl rfl⟩
    · exact ⟨hinv, .same hasked hhist⟩
  | expire cpu now =>
    cases hstep
    obtain ⟨rest, -, hinv⟩ := h.expire hen.1 hen.2.1 hen.2.2.1
    exact ⟨⟨l, _, hinv⟩, .same rfl rfl⟩
  | advance cpu =>
    obtain ⟨s₁, hs₁, heq⟩ := Option.map_eq_some_iff.mp hstep
    cases heq
    obtain ⟨hinv, hasked, hhist⟩ := h.advance hs₁
    exact ⟨⟨l, lists, hinv⟩, ⟨[], by rw [hasked, List.append_nil]⟩, hhist⟩

theorem Inv.nexts (h : ∃ l lists, Inv ncpus s l lists) {s' : State}
    (hrun : Relation.ReflTransGen (State.Next ncpus State.Meets) s s') :
    (∃ l' lists', Inv ncpus s' l' lists') ∧ s.Extends s' := by
  induction hrun with
  | refl => exact ⟨h, .same rfl rfl⟩
  | tail _ hnext ih =>
    obtain ⟨⟨l, lists, hinv⟩, hext⟩ := ih
    obtain ⟨hinv', hext'⟩ := hinv.next hnext
    exact ⟨hinv', hext.trans hext'⟩

/-- A call has returned to somebody else than `f`: the earlier requests have come to their ends. -/
theorem Inv.settled (h : Inv ncpus s l lists) {act : Act} {s' : State} {self : Bool}
    (hact : (∃ ticks now, act = .timeout cpu self f a ticks now) ∨ act = .untimeout cpu self f a)
    (hself : ¬s.bySelf cpu self f) (hen : s.Enabled ncpus act) (hmeets : s.Meets act)
    (hstep : s.step ncpus act = some (true, s')) : Returned ncpus s l f a s' ∧
      ∀ x n, n < s.asked.length → s'.asked[n]? = some (f, a) →
        s'.flight (l.map s'.trbOf) x ≠ some n := by
  rcases hact with ⟨ticks, now, rfl⟩ | rfl
  · rcases h.timeout hen.1 hmeets.1 hstep with ⟨hr, -⟩ | ⟨-, hret, hmine⟩
    · exact nomatch hr
    · refine ⟨hret, fun x n hn hask hfl => ?_⟩
      obtain ⟨p, t, r, he, hd⟩ := hret.early x n hn hfl hask
      rcases hmeets.2 p t r he hd with hs | ⟨k, hk, -, i, hi, hc⟩
      · exact hself hs
      · exact hi (hmine k hk i hc)
  · rcases h.untimeout hmeets.1 hstep with ⟨hr, -⟩ | ⟨-, hret, hmine⟩
    · exact nomatch hr
    · refine ⟨hret, fun x n hn hask hfl => ?_⟩
      obtain ⟨p, t, r, he, hd⟩ := hret.early x n hn hfl hask
      rcases hmeets.2 p t r he hd with hs | ⟨k, hk, hk0, i, -, hc⟩
      · exact hself hs
      · exact hmine k hk hk0 i hc

/-- Request `n` is set in an entry of the processor, on its way there, or has been called. -/
def State.Near (s : State) (blocks : List Nat) (cpu n : Nat) : Prop :=
  (∃ t ∈ blocks, (s.timers.trb t).tof ≠ none ∧ (s.timers.trb t).req = n ∧
    (s.timers.trb t).cpunum = cpu) ∨
  (s.expiry cpu).held = some n ∨ ∃ f a, Fate.began n f a ∈ s.hist

theorem State.Near.keep {s' : State} {blocks : List Nat} {n : Nat} (h : s.Near blocks cpu n)
    (htrb : ∀ t, (s'.timers.trb t).tof = (s.timers.trb t).tof ∧
      (s'.timers.trb t).req = (s.timers.trb t).req ∧
      (s'.timers.trb t).cpunum = (s.timers.trb t).cpunum)
    (hheld : (s'.expiry cpu).held = (s.expiry cpu).held) (hhist : s'.hist = s.hist) :
    s'.Near blocks cpu n := by
  rcases h with ⟨t, ht, htof, hreq, hc⟩ | hh | hb
  · obtain ⟨h₁, h₂, h₃⟩ := htrb t
    exact .inl ⟨t, ht, by rwa [h₁], h₂.trans hreq, h₃.trans hc⟩
  · exact .inr (.inl (hheld.trans hh))
  · exact .inr (.inr (hhist ▸ hb))

theorem Inv.near (h : Inv ncpus s l lists) {n : Nat} {x : Loc}
    (hx : s.flight (l.map s.trbOf) x = some n) :
    ∃ cpu < ncpus, s.Near (l.map s.trbOf) cpu n := by
  cases x with
  | entry t =>
    change (if t ∈ l.map s.trbOf ∧ (s.timers.trb t).tof ≠ none then some (s.timers.trb t).req
      else none) = some n at hx
    split_ifs at hx with hset
    refine ⟨(s.timers.trb t).cpunum, ?_, .inl ⟨t, hset.1, hset.2, Option.some.inj hx, rfl⟩⟩
    rcases h.due t hset.1 hset.2 with hp | ⟨q, he⟩
    · exact (h.pend t hset.1 hp).2.2.2
    · have hok := h.phases q
      rcases he with he | ⟨f, he⟩
      · rw [he] at hok
        rw [hok.1.owner]
        exact hok.1.cpu
      · rw [he] at hok
        rw [hok.1.owner]
        exact hok.1.cpu
  | cpu p =>
    have hok := h.phases p
    change (s.expiry p).held = some n at hx
    refine ⟨p, ?_, .inr (.inl hx)⟩
    cases he : s.expiry p with
    | cleared t r f =>
      rw [he] at hok
      exact hok.1.cpu
    | idle =>
      rw [he] at hx
      exact nomatch hx
    | called _ _ =>
      rw [he] at hx
      exact nomatch hx
    | entered _ _ _ =>
      rw [he] at hx
      exact nomatch hx
    | running _ _ _ _ =>
      rw [he] at hx
      exact nomatch hx

/-- The states of runs whose steps satisfy `P`. -/
def State.Reached (ncpus : Nat) (P : State → Act → Prop) (s : State) : Prop :=
  ∃ s₀, State.Initial s₀ ∧ Relation.ReflTransGen (State.Next ncpus P) s₀ s

def State.empty : State :=
  let b : Trb :=
    { cpunum := 0, pending := false, active := false, timeout := 0, func := false, tof := none,
      funcData := 0, req := 0 }
  { toprev := fun _ => 0, tonext := fun _ => 0, trbOf := fun _ => 0, head := 0, ncallo := 0,
    timers :=
      { knext := fun _ => 0, kprev := fun _ => 0, trb := fun _ => b, tActive := fun _ => 0,
        trbCalled := fun _ => 0 }
    expiry := fun _ => .idle, tosLive := fun _ => false, trbLive := fun _ => false, asked := [],
    hist := [] }

theorem State.empty_initial : State.empty.Initial :=
  ⟨rfl, rfl, fun _ => ⟨rfl, rfl, rfl⟩, rfl, rfl⟩

end Aix413.Callout
