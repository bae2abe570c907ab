import Aix413.Events.Lists

namespace Aix413.Events

open Dispatch (TState WType)
open Lib.TailRing

namespace Sys

variable {s s' : Sys} {L : Nat → List Nat} {t u e : Nat} {r : Int} {f : Thread → Thread}

/-! ## A thread taken out of a list -/

theorem findPrev_suffix {q : List Nat} {a : Nat} (hring : IsRing s.links q) (hh : q.head? = some a)
    (rest : List Nat) : ∀ (x n : Nat), x :: rest <:+ q →
      (∃ p ∈ x :: rest, s.links p = some t) → rest.length < n →
      ∃ p ∈ q, s.links p = some t ∧ s.findPrev t n (some x) = some p := by
  induction rest with
  | nil =>
    intro x n hs ⟨p, hp, hpt⟩ hn
    obtain ⟨n, rfl⟩ := Nat.exists_eq_succ_of_ne_zero (Nat.ne_of_gt hn)
    obtain rfl := List.mem_singleton.mp hp
    refine ⟨p, hs.mem List.mem_cons_self, hpt, ?_⟩
    rw [findPrev]
    exact if_pos hpt
  | cons y rest ih =>
    intro x n hs ⟨p, hp, hpt⟩ hn
    obtain ⟨n, rfl⟩ := Nat.exists_eq_succ_of_ne_zero
      (Nat.ne_of_gt (Nat.lt_of_le_of_lt (Nat.zero_le _) hn))
    have hnext : (s.thread x).tEventlist = some y := hring.walk hs hh
    rw [findPrev]
    by_cases hx : (s.thread x).tEventlist = some t
    · exact ⟨x, hs.mem List.mem_cons_self, hx, if_pos hx⟩
    · have hpx : p ≠ x := by
        rintro rfl
        exact hx hpt
      rw [if_neg hx, hnext]
      exact ih y n ((List.suffix_cons x _).trans hs)
        ⟨p, (List.mem_cons.mp hp).resolve_left hpx, hpt⟩ (Nat.lt_of_succ_lt_succ hn)

theorem Lists.length_le {q : List Nat} (hnd : q.Nodup) (hslot : ∀ u ∈ q, u < nthread) :
    q.length ≤ nthread := by
  have hsub : q.toFinset ⊆ Finset.range nthread := by
    intro u hu
    exact Finset.mem_range.mpr (hslot u (List.mem_toFinset.mp hu))
  have hcard := Finset.card_le_card hsub
  rwa [List.toFinset_card_of_nodup hnd, Finset.card_range] at hcard

/-- The search finds the thread in front, and the loop catcher is never reached. -/
theorem Lists.findPrev (h : Lists s L) (ht : t ∈ L e) :
    ∃ tend p, s.word e = some tend ∧ p ∈ L e ∧ s.links p = some t ∧
      s.findPrev t (nthread + 1) (some tend) = some p := by
  have hring := h.ring e
  have hlen := Lists.length_le hring.nodup (h.slot e)
  obtain ⟨p, hp, hpt⟩ := hring.exists_prev ht
  cases hq : L e with
  | nil => rw [hq] at ht; cases ht
  | cons a m =>
    rw [hq] at hring hp hlen
    have hw := h.word e
    rw [hq, List.getLast?_eq_getLast_of_ne_nil (by simp)] at hw
    have hsplit : (a :: m).dropLast ++ [(a :: m).getLast (by simp)] = a :: m :=
      List.dropLast_append_getLast (by simp)
    have hrot : IsRing s.links ((a :: m).getLast (by simp) :: (a :: m).dropLast) := by
      rw [← hsplit] at hring
      simpa using hring.rotate _
    have hmem : ∀ u, u ∈ (a :: m).getLast (by simp) :: (a :: m).dropLast ↔ u ∈ a :: m := by
      intro u
      conv_rhs => rw [← hsplit]
      rw [List.mem_append, List.mem_singleton, List.mem_cons, or_comm]
    obtain ⟨p', hp', hpt', hfind⟩ := findPrev_suffix hrot rfl _ _ (nthread + 1) (List.suffix_refl _)
      ⟨p, (hmem p).mpr hp, hpt⟩ (by
        rw [List.length_dropLast]
        omega)
    exact ⟨_, p', hw, (hmem p').mp hp', hpt', hfind⟩

theorem Lists.removed (h : Lists s L) {p : Nat} (ht : t ∈ L e) (hp : p ∈ L e) (hpt : s.links p = some t)
    (hlinks : s'.links = Function.update (Function.update s.links p (s.links t)) t none)
    (hword : s'.word = Function.update s.word e ((L e).erase t).getLast?)
    (hchan : ∀ u, u ≠ t → (s'.thread u).tWchan = (s.thread u).tWchan) :
    Lists s' (Function.update L e ((L e).erase t)) := by
  have hring := h.ring e
  have hne : ∀ u ∈ (L e).erase t, u ≠ t := fun u hu he => hring.nodup.not_mem_erase (he ▸ hu)
  have hfar : ∀ e', e' ≠ e → ∀ u ∈ L e', u ≠ t ∧ u ≠ p := by
    intro e' he u hu
    exact ⟨fun hut => he (h.apart e' e u hu (hut ▸ ht)), fun hup => he (h.apart e' e u hu (hup ▸ hp))⟩
  refine h.change ?_ hword (fun u hu => .inl (List.mem_of_mem_erase hu)) ?_ ?_ ?_ ?_ ?_
  · refine (hring.erase hp ht hpt).congr fun u hu => ?_
    rw [hlinks, Function.update_of_ne (hne u hu)]
  · intro e' he u hu
    obtain ⟨h1, h2⟩ := hfar e' he u hu
    rw [hlinks, Function.update_of_ne h1, Function.update_of_ne h2]
  · intro u hu hu'
    rw [hlinks]
    by_cases hut : u = t
    · rw [hut, Function.update_self]
    · have hue : u ∉ L e := fun hm => hu ((List.mem_erase_of_ne hut).mpr hm)
      have hup : u ≠ p := fun he => hue (he ▸ hp)
      rw [Function.update_of_ne hut, Function.update_of_ne hup]
      apply h.off
      intro e' hm
      by_cases he : e' = e
      · exact hue (he ▸ hm)
      · exact hu' e' he hm
  · exact fun u hu => (hchan u (hne u hu)).trans (h.chan e u (List.mem_of_mem_erase hu))
  · exact fun e' he u hu => hchan u (hfar e' he u hu).1
  · exact fun u hu => h.slot e u (List.mem_of_mem_erase hu)

/-- The thread in front goes on to the one behind. -/
def unhook (s : Sys) (p t : Nat) : Sys :=
  s.modify p fun th => { th with tEventlist := (s.thread t).tEventlist }

/-- What `remove_e_list` leaves of the other threads, and of the thread itself. -/
structure Off (s s' : Sys) (t : Nat) : Prop where
  self : (s'.thread t) = { s.thread t with tEventlist := none, tWchan := none }
  other : ∀ u, u ≠ t → ∃ k, s'.thread u = { s.thread u with tEventlist := k }
  rest : s'.ready = s.ready ∧ s'.curthread = s.curthread ∧ s'.clears = s.clears ∧ s'.lock = s.lock

theorem Off.sched (ho : Off s s' t) (h : Sched s) : Sched s' := by
  obtain ⟨hr, hc, -, hl⟩ := ho.rest
  refine h.congr hr hc hl fun u => ?_
  by_cases hu : u = t
  · subst hu
    rw [ho.self]
    exact ⟨rfl, rfl, rfl, id⟩
  · obtain ⟨k, hk⟩ := ho.other u hu
    rw [hk]
    exact ⟨rfl, rfl, rfl, id⟩

/-- A thread that is on its list is taken off. -/
theorem Lists.removeEList (h : Lists s L) (ht : t ∈ L e) : ∃ s', s.removeEList t e = some s' ∧
    Lists s' (Function.update L e ((L e).erase t)) ∧ Off s s' t := by
  obtain ⟨tend, p, hw, hp, hpt, hfind⟩ := h.findPrev ht
  have hring := h.ring e
  obtain ⟨k, hk⟩ := hring.next_isSome ht
  have hlast := hring.getLast?_erase hp ht hpt
  rw [← h.word e, hw] at hlast
  have hon : ¬(s.thread t).tEventlist = none := by
    rw [show (s.thread t).tEventlist = some k from hk]
    simp
  have hstep : s.removeEList t e = some (((s.unhook p t).setWord e
      ((L e).erase t).getLast?).modify t fun th => { th with tEventlist := none, tWchan := none }) := by
    have hword : (s.unhook p t).word e = some tend := hw
    unfold Sys.removeEList
    rw [hw]
    dsimp only
    rw [if_neg hon, hfind, hlast, Option.bind_eq_bind, Option.bind_eq_bind, Option.bind_some]
    by_cases h1 : tend = t
    · rw [if_pos h1, if_pos (congrArg some h1)]
      by_cases h2 : p = t
      · rw [if_pos h2, if_pos h2]
        rfl
      · rw [if_neg h2, if_neg h2]
        rfl
    · rw [if_neg h1, if_neg fun he => h1 (Option.some_inj.mp he)]
      have hself : (s.unhook p t).setWord e (some tend) = s.unhook p t := by
        unfold setWord
        rw [← hword, Function.update_eq_self]
      rw [hself]
      rfl
  refine ⟨_, hstep, ?_, ?_⟩
  · refine h.removed ht hp hpt ?_ rfl ?_
    · rw [links_modify]
      change Function.update (s.unhook p t).links t none = _
      rw [unhook, links_modify]
      rfl
    · intro u hu
      rw [thread_modify_of_ne hu]
      change ((s.unhook p t).thread u).tWchan = _
      by_cases hup : u = p
      · subst hup
        rw [unhook, thread_modify_self]
      · rw [unhook, thread_modify_of_ne hup]
  · refine ⟨?_, fun u hu => ?_, ⟨rfl, rfl, rfl, rfl⟩⟩
    · rw [thread_modify_self]
      change { (s.unhook p t).thread t with tEventlist := none, tWchan := none } = _
      by_cases hup : t = p
      · subst hup
        rw [unhook, thread_modify_self]
      · rw [unhook, thread_modify_of_ne hup]
    · rw [thread_modify_of_ne hu]
      change ∃ k, (s.unhook p t).thread u = _
      by_cases hup : u = p
      · subst hup
        rw [unhook, thread_modify_self]
        exact ⟨_, rfl⟩
      · rw [unhook, thread_modify_of_ne hup]
        exact ⟨_, rfl⟩

/-- A thread that is on no list is left alone. -/
theorem Lists.removeEList_off (h : Lists s L) (ht : ∀ e, t ∉ L e) (e : Nat) :
    ∃ s', s.removeEList t e = some s' ∧ Lists s' L ∧ Off s s' t := by
  have hoff : (s.thread t).tEventlist = none := h.off t ht
  have hstep : s.removeEList t e =
      some (s.modify t fun th => { th with tEventlist := none, tWchan := none }) := by
    unfold Sys.removeEList
    cases s.word e with
    | none => rfl
    | some tend =>
      dsimp only
      rw [if_pos hoff]
      rfl
  have hne : ∀ e, ∀ u ∈ L e, u ≠ t := fun e u hu he => ht e (he ▸ hu)
  have hlinks : (s.modify t fun th => { th with tEventlist := none, tWchan := none }).links = s.links :=
    links_keep hoff.symm
  refine ⟨_, hstep, ⟨fun e => ?_, h.word, h.apart, ?_, fun e u hu => ?_, h.slot⟩, ?_⟩
  · rw [hlinks]
    exact h.ring e
  · rw [hlinks]
    exact h.off
  · rw [thread_modify_of_ne (hne e u hu)]
    exact h.chan e u hu
  · exact ⟨thread_modify_self, fun u hu => ⟨(s.thread u).tEventlist, thread_modify_of_ne hu⟩,
      ⟨rfl, rfl, rfl, rfl⟩⟩

/-! ## The most favoured thread of a list is awakened -/

theorem findMost_suffix {q : List Nat} {first : Nat} (hring : IsRing s.links q)
    (hh : q.head? = some first) (rest : List Nat) : ∀ y prevt waket waketprev : Nat,
      y :: rest <:+ q → prevt ∈ q → s.links prevt = some y → waket ∈ q → waketprev ∈ q →
      s.links waketprev = some waket → y ≠ first →
      ∃ w p, (∀ n, rest.length ≤ n →
          s.findMost first (n + 1) prevt (some y) waket waketprev = some (w, p)) ∧
        w ∈ q ∧ p ∈ q ∧ s.links p = some w ∧ (s.thread w).tPri ≤ (s.thread waket).tPri ∧
        ∀ u ∈ y :: rest, (s.thread w).tPri ≤ (s.thread u).tPri := by
  induction rest with
  | nil =>
    intro y prevt waket waketprev hs hp hpy hw hwp hl _
    have hnext : (s.thread y).tEventlist = some first := hring.walk hs hh
    by_cases hlt : (s.thread y).tPri < (s.thread waket).tPri
    · refine ⟨y, prevt, fun n _ => ?_, hs.mem List.mem_cons_self, hp, hpy, UInt8.le_of_lt hlt,
        fun u hu => ?_⟩
      · rw [findMost, if_pos hlt]
        exact if_pos hnext
      · rw [List.mem_singleton.mp hu]
        exact UInt8.le_refl _
    · refine ⟨waket, waketprev, fun n _ => ?_, hw, hwp, hl, UInt8.le_refl _, fun u hu => ?_⟩
      · rw [findMost, if_neg hlt]
        exact if_pos hnext
      · rw [List.mem_singleton.mp hu]
        exact UInt8.not_lt.mp hlt
  | cons z rest ih =>
    intro y prevt waket waketprev hs hp hpy hw hwp hl hyf
    have hnext : (s.thread y).tEventlist = some z := hring.walk hs hh
    have hsz : z :: rest <:+ q := (List.suffix_cons y _).trans hs
    have hzf : z ≠ first := by
      rintro rfl
      obtain ⟨q₁, rfl⟩ := hs
      have hnd := hring.nodup
      cases q₁ with
      | nil => exact hyf (Option.some_inj.mp hh)
      | cons c q₁ =>
        obtain rfl : c = z := Option.some_inj.mp hh
        simp at hnd
    have hy : y ∈ q := hs.mem List.mem_cons_self
    have hzn : ¬(s.thread y).tEventlist = some first := by
      rw [hnext]
      exact fun he => hzf (Option.some_inj.mp he)
    by_cases hlt : (s.thread y).tPri < (s.thread waket).tPri
    · obtain ⟨w, p, hf, h1, h2, h3, h4, h5⟩ := ih z y y prevt hsz hy hnext hy hp hpy hzf
      refine ⟨w, p, fun n hn => ?_, h1, h2, h3, UInt8.le_trans h4 (UInt8.le_of_lt hlt), fun u hu => ?_⟩
      · obtain ⟨n, rfl⟩ := Nat.exists_eq_succ_of_ne_zero
          (Nat.ne_of_gt (Nat.lt_of_lt_of_le (Nat.succ_pos _) hn))
        rw [findMost, if_pos hlt]
        refine (if_neg hzn).trans ?_
        rw [hnext]
        exact hf n (Nat.le_of_succ_le_succ hn)
      · rcases List.mem_cons.mp hu with rfl | hu
        · exact h4
        · exact h5 u hu
    · obtain ⟨w, p, hf, h1, h2, h3, h4, h5⟩ := ih z y waket waketprev hsz hy hnext hw hwp hl hzf
      refine ⟨w, p, fun n hn => ?_, h1, h2, h3, h4, fun u hu => ?_⟩
      · obtain ⟨n, rfl⟩ := Nat.exists_eq_succ_of_ne_zero
          (Nat.ne_of_gt (Nat.lt_of_lt_of_le (Nat.succ_pos _) hn))
        rw [findMost, if_neg hlt]
        refine (if_neg hzn).trans ?_
        rw [hnext]
        exact hf n (Nat.le_of_succ_le_succ hn)
      · rcases List.mem_cons.mp hu with rfl | hu
        · exact UInt8.le_trans h4 (UInt8.not_lt.mp hlt)
        · exact h5 u hu

/-- What the wake-up of one thread does: `w` is the most favoured thread of the list. -/
structure WokenOne (s s' : Sys) (L : Nat → List Nat) (e w : Nat) : Prop where
  mem : w ∈ L e
  most : ∀ u ∈ L e, (s.thread w).tPri ≤ (s.thread u).tPri
  lists : Lists s' (Function.update L e ((L e).erase w))
  sched : Sched s'
  self : ∃ st wt, s'.thread w = { s.thread w with
    tState := st, tWtype := wt, tEventlist := none, tWchan := none, tResult := threadAwakened }
  awake : (s'.thread w).tWtype ≠ .twevent
  other : ∀ u, u ≠ w → ∃ k, s'.thread u = { s.thread u with tEventlist := k }
  rest : s'.curthread = s.curthread ∧ s'.clears = s.clears ∧ s'.lock = s.lock

/-- The thread behind `p` is taken off the list and awakened. -/
theorem Lists.wokenOne (h : Lists s L) (hs : Sched s) {w p : Nat} (hw : w ∈ L e) (hp : p ∈ L e)
    (hpw : s.links p = some w) (hmost : ∀ u ∈ L e, (s.thread w).tPri ≤ (s.thread u).tPri) :
    WokenOne s (((s.unhook p w).setWord e ((L e).erase w).getLast?).awaken w threadAwakened) L e w := by
  have hth : ∀ u, ∃ k, ((s.unhook p w).setWord e ((L e).erase w).getLast?).thread u =
      { s.thread u with tEventlist := k } := by
    intro u
    change ∃ k, (s.unhook p w).thread u = _
    by_cases hup : u = p
    · subst hup
      rw [unhook, thread_modify_self]
      exact ⟨_, rfl⟩
    · rw [unhook, thread_modify_of_ne hup]
      exact ⟨_, rfl⟩
  have hsched : Sched ((s.unhook p w).setWord e ((L e).erase w).getLast?) := by
    refine hs.congr rfl rfl rfl fun u => ?_
    obtain ⟨k, hk⟩ := hth u
    rw [hk]
    exact ⟨rfl, rfl, rfl, id⟩
  refine ⟨hw, hmost, ?_, hsched.awaken w _, ?_, awaken_wtype hsched w _, ?_, awaken_rest _ _ _⟩
  · refine h.removed hw hp hpw ?_ (awaken_word _ _ _) ?_
    · rw [awaken_links]
      change Function.update (s.unhook p w).links w none = _
      rw [unhook, links_modify]
      rfl
    · intro u hu
      obtain ⟨k, hk⟩ := hth u
      rw [awaken_of_ne hu, hk]
  · obtain ⟨st, wt, hself⟩ := awaken_self ((s.unhook p w).setWord e ((L e).erase w).getLast?) w
      threadAwakened
    obtain ⟨k, hk⟩ := hth w
    refine ⟨st, wt, ?_⟩
    rw [hself, hk]
  · intro u hu
    obtain ⟨k, hk⟩ := hth u
    exact ⟨k, (awaken_of_ne hu).trans hk⟩

theorem Lists.eWakeupOne (h : Lists s L) (hs : Sched s) (e : Nat) :
    (L e = [] ∧ ∀ n, s.eWakeupOne n e = some (s, none)) ∨
    ∃ w s', WokenOne s s' L e w ∧
      ∀ n, (L e).length ≤ n → s.eWakeupOne n e = some (s', some w) := by
  have hw := h.word e
  have hring := h.ring e
  cases hq : L e with
  | nil =>
    left
    rw [hq] at hw
    change s.word e = none at hw
    refine ⟨rfl, fun n => ?_⟩
    unfold Sys.eWakeupOne
    rw [hw]
  | cons first m =>
    right
    rw [hq] at hw hring
    rw [List.getLast?_eq_getLast_of_ne_nil (by simp)] at hw
    have hlast := hring.next_last
    have hlm : (first :: m).getLast (by simp) ∈ first :: m := List.getLast_mem _
    have hgl : (first :: m).getLast? = some ((first :: m).getLast (by simp)) :=
      List.getLast?_eq_getLast_of_ne_nil (by simp)
    generalize (first :: m).getLast (by simp) = last at hw hlast hlm hgl
    have hfirst : (s.thread last).tEventlist = some first := hlast
    cases m with
    | nil =>
      obtain rfl : last = first := by simpa using hlm
      have hone : ((s.unhook last last).setWord e ((L e).erase last).getLast?).awaken last
          threadAwakened = (s.setWord e none).awaken last threadAwakened := by
        have hself : s.unhook last last = s := by
          unfold unhook modify
          rw [Function.update_eq_self]
        rw [hself, hq, List.erase_cons_head]
        rfl
      refine ⟨last, _, hone ▸ h.wokenOne hs (by simp [hq]) (by simp [hq]) hlast (by simp [hq]), ?_⟩
      intro n _
      unfold Sys.eWakeupOne
      rw [hw]
      dsimp only
      rw [hfirst]
      exact if_pos rfl
    | cons y m =>
      have hne : first ≠ last := by
        rintro rfl
        rw [List.getLast?_cons_cons] at hgl
        exact (List.nodup_cons.mp hring.nodup).1 (List.mem_of_getLast? hgl)
      have hfy : s.links first = some y := hring.walk (List.suffix_refl _) rfl
      have hyf : y ≠ first := fun he => (List.nodup_cons.mp hring.nodup).1 (he ▸ List.mem_cons_self)
      obtain ⟨w, p, hfind, hwq, hpq, hpw, hwf, hwy⟩ := findMost_suffix hring rfl m y first first last
        (List.suffix_cons _ _) List.mem_cons_self hfy List.mem_cons_self hlm hlast hyf
      rw [← hq] at hring hwq hpq hgl
      have hmost : ∀ u ∈ L e, (s.thread w).tPri ≤ (s.thread u).tPri := by
        intro u hu
        rw [hq] at hu
        rcases List.mem_cons.mp hu with rfl | hu
        · exact hwf
        · exact hwy u hu
      have hpwne : p ≠ w := by
        rintro rfl
        have halone := hring.alone hwq hpw
        rw [hq] at halone
        cases halone
      have hlaste := hring.getLast?_erase hpq hwq hpw
      rw [hgl] at hlaste
      have hword : (if last = w then (s.unhook p w).setWord e (some p) else s.unhook p w) =
          (s.unhook p w).setWord e ((L e).erase w).getLast? := by
        rw [hlaste]
        by_cases h1 : last = w
        · rw [if_pos h1, if_pos (congrArg some h1), if_neg hpwne]
        · rw [if_neg h1, if_neg fun he => h1 (Option.some_inj.mp he)]
          have hwe : (s.unhook p w).word e = some last := hw
          unfold setWord
          rw [← hwe, Function.update_eq_self]
      refine ⟨w, _, h.wokenOne hs hwq hpq hpw hmost, fun n hn => ?_⟩
      obtain ⟨n, rfl⟩ := Nat.exists_eq_succ_of_ne_zero
        (Nat.ne_of_gt (Nat.lt_of_lt_of_le (Nat.succ_pos _) hn))
      have hfy' : (s.thread first).tEventlist = some y := hfy
      have hfind' := hfind n (by
        rw [List.length_cons, List.length_cons] at hn
        omega)
      unfold Sys.eWakeupOne
      rw [hw]
      dsimp only
      rw [hfirst]
      dsimp only
      rw [if_neg hne, hfy', hfind', Option.bind_eq_bind, Option.bind_some]
      change some ((if last = w then (s.unhook p w).setWord e (some p) else s.unhook p w).awaken w
        threadAwakened, some w) = _
      rw [hword]

end Sys

end Aix413.Events
