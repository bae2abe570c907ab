import Aix413.Events.Scheduling
import Aix413.Lib.TailRing

namespace Aix413.Events

open Dispatch (TState WType)
open Lib.TailRing

namespace Sys

variable {s s' : Sys} {L : Nat → List Nat} {t u e : Nat} {r : Int} {f : Thread → Thread}

/-! ## The event lists -/

def links (s : Sys) (t : Nat) : Option Nat := (s.thread t).tEventlist

/-- `L` lists each event list from its first thread. -/
structure Lists (s : Sys) (L : Nat → List Nat) : Prop where
  ring : ∀ e, IsRing s.links (L e)
  word : ∀ e, s.word e = (L e).getLast?
  apart : ∀ e e' t, t ∈ L e → t ∈ L e' → e = e'
  off : ∀ t, (∀ e, t ∉ L e) → s.links t = none
  chan : ∀ e, ∀ t ∈ L e, (s.thread t).tWchan = some e
  slot : ∀ e, ∀ t ∈ L e, t < nthread

theorem links_modify : (s.modify t f).links = Function.update s.links t (f (s.thread t)).tEventlist := by
  funext u
  by_cases hu : u = t
  · subst hu
    rw [Function.update_self, links, thread_modify_self]
  · rw [Function.update_of_ne hu, links, thread_modify_of_ne hu]
    rfl

theorem links_keep (hf : (f (s.thread t)).tEventlist = (s.thread t).tEventlist) :
    (s.modify t f).links = s.links := by
  rw [links_modify, hf]
  exact Function.update_eq_self t s.links

theorem post_of_ne (hu : u ≠ t) : (s.post t).thread u = s.thread u := by
  unfold post
  split
  · split
    · exact setrq_of_ne hu
    · exact thread_modify_of_ne hu
    · exact thread_modify_of_ne hu
    · rfl
  · rfl

/-- What the wakers' switch leaves of its thread. -/
theorem post_self (s : Sys) (t : Nat) : ∃ st w, (s.post t).thread t =
    { s.thread t with tState := st, tWtype := w } := by
  unfold post
  split
  · split
    · exact ⟨_, _, setrq_self s t⟩
    · exact ⟨(s.thread t).tState, _, thread_modify_self⟩
    · exact ⟨(s.thread t).tState, _, thread_modify_self⟩
    · exact ⟨_, _, rfl⟩
  · exact ⟨_, _, rfl⟩

theorem post_word (s : Sys) (t : Nat) : (s.post t).word = s.word := by
  unfold post
  split
  · split <;> rfl
  · rfl

theorem post_rest (s : Sys) (t : Nat) : (s.post t).curthread = s.curthread ∧
    (s.post t).clears = s.clears ∧ (s.post t).lock = s.lock := by
  unfold post
  split
  · split <;> exact ⟨rfl, rfl, rfl⟩
  · exact ⟨rfl, rfl, rfl⟩

theorem post_wtype (h : Sched s) (t : Nat) : ((s.post t).thread t).tWtype ≠ .twevent := by
  unfold post
  by_cases hw : (s.thread t).tWtype = .twevent
  · rw [if_pos hw]
    cases h.place t with
    | running _ _ _ hw' => rw [hw] at hw'; cases hw'
    | ready _ _ _ hw' => rw [hw] at hw'; cases hw'
    | stopped _ _ _ hw' => rw [hw] at hw'; cases hw'
    | switching _ _ hs =>
      rw [hs]
      simp
    | asleep _ _ hs =>
      rcases hs with hs | hs
      · rw [hs]
        simp [setrq_self]
      · rw [hs]
        simp
  · rw [if_neg hw]
    exact hw

/-! ## One thread is awakened -/

theorem awaken_of_ne (hu : u ≠ t) : (s.awaken t r).thread u = s.thread u :=
  (post_of_ne hu).trans (thread_modify_of_ne hu)

theorem awaken_self (s : Sys) (t : Nat) (r : Int) : ∃ st w, (s.awaken t r).thread t =
    { s.thread t with
      tState := st, tWtype := w, tEventlist := none, tWchan := none, tResult := r } := by
  obtain ⟨st, w, h⟩ := post_self (s.modify t fun th =>
    { th with tEventlist := none, tWchan := none, tResult := r }) t
  refine ⟨st, w, h.trans ?_⟩
  rw [thread_modify_self]

theorem awaken_links (s : Sys) (t : Nat) (r : Int) :
    (s.awaken t r).links = Function.update s.links t none := by
  funext u
  by_cases hu : u = t
  · subst hu
    obtain ⟨st, w, h⟩ := awaken_self s u r
    rw [Function.update_self, links, h]
  · rw [Function.update_of_ne hu, links, awaken_of_ne hu]
    rfl

theorem awaken_word (s : Sys) (t : Nat) (r : Int) : (s.awaken t r).word = s.word :=
  post_word _ t

theorem awaken_rest (s : Sys) (t : Nat) (r : Int) : (s.awaken t r).curthread = s.curthread ∧
    (s.awaken t r).clears = s.clears ∧ (s.awaken t r).lock = s.lock :=
  post_rest _ t

theorem Sched.awaken (h : Sched s) (t : Nat) (r : Int) : Sched (s.awaken t r) :=
  (h.modify_same rfl rfl rfl id).post t

theorem awaken_wtype (h : Sched s) (t : Nat) (r : Int) :
    ((s.awaken t r).thread t).tWtype ≠ .twevent :=
  post_wtype (h.modify_same rfl rfl rfl id) t

/-! ## All threads of a list are awakened -/

def awakenAll (s : Sys) (r : Int) (q : List Nat) : Sys := q.foldl (fun s t => s.awaken t r) s

theorem awakenAll_of_notMem {q : List Nat} (hu : u ∉ q) : (s.awakenAll r q).thread u = s.thread u := by
  induction q generalizing s with
  | nil => rfl
  | cons t q ih =>
    have hut : u ≠ t := fun he => hu (he ▸ List.mem_cons_self)
    exact (ih fun hm => hu (List.mem_cons_of_mem t hm)).trans (awaken_of_ne hut)

theorem awakenAll_word (s : Sys) (r : Int) (q : List Nat) : (s.awakenAll r q).word = s.word := by
  induction q generalizing s with
  | nil => rfl
  | cons t q ih => exact (ih _).trans (awaken_word s t r)

theorem Sched.awakenAll (h : Sched s) (r : Int) (q : List Nat) : Sched (s.awakenAll r q) := by
  induction q generalizing s with
  | nil => exact h
  | cons t q ih => exact ih (h.awaken t r)

theorem awakenAll_of_mem (h : Sched s) {q : List Nat} (hu : u ∈ q) (hnd : q.Nodup) :
    (∃ st w, (s.awakenAll r q).thread u = { s.thread u with
      tState := st, tWtype := w, tEventlist := none, tWchan := none, tResult := r }) ∧
    ((s.awakenAll r q).thread u).tWtype ≠ .twevent := by
  induction q generalizing s with
  | nil => cases hu
  | cons t q ih =>
    obtain ⟨ht, hnd⟩ := List.nodup_cons.mp hnd
    by_cases hut : u = t
    · subst hut
      have hth : (s.awakenAll r (u :: q)).thread u = (s.awaken u r).thread u :=
        awakenAll_of_notMem ht
      rw [hth]
      exact ⟨awaken_self s u r, awaken_wtype h u r⟩
    · obtain ⟨⟨st, w, hth⟩, hw⟩ := ih (h.awaken t r) ((List.mem_cons.mp hu).resolve_left hut) hnd
      refine ⟨⟨st, w, ?_⟩, hw⟩
      rw [awaken_of_ne hut] at hth
      exact hth

theorem postLoop_eq {q : List Nat} {a last : Nat} (hring : IsRing s.links q) (hh : q.head? = some a)
    (hlast : q.getLast? = some last) (rest : List Nat) :
    ∀ (x n : Nat) (s' : Sys), x :: rest <:+ q → (∀ u ∈ x :: rest, s'.links u = s.links u) →
      rest.length < n → postLoop r last n (some x) s' = some (s'.awakenAll r (x :: rest)) := by
  induction rest with
  | nil =>
    intro x n s' hs _ hn
    obtain ⟨n, rfl⟩ := Nat.exists_eq_succ_of_ne_zero (Nat.ne_of_gt hn)
    obtain ⟨q₁, rfl⟩ := hs
    have hxl : x = last := by simpa using hlast
    rw [postLoop]
    exact if_pos hxl
  | cons y rest ih =>
    intro x n s' hs hl hn
    obtain ⟨n, rfl⟩ := Nat.exists_eq_succ_of_ne_zero
      (Nat.ne_of_gt (Nat.lt_of_le_of_lt (Nat.zero_le _) hn))
    have hnext : (s'.thread x).tEventlist = some y :=
      (hl x List.mem_cons_self).trans (hring.walk hs hh)
    have hnd : (x :: y :: rest).Nodup := hs.sublist.nodup hring.nodup
    have hxl : x ≠ last := by
      rintro rfl
      obtain ⟨q₁, rfl⟩ := hs
      rw [List.getLast?_append_of_ne_nil _ (by simp), List.getLast?_cons_cons] at hlast
      exact (List.nodup_cons.mp hnd).1 (List.mem_of_getLast? hlast)
    rw [postLoop, hnext, if_neg hxl]
    refine ih y n (s'.awaken x r) ((List.suffix_cons x _).trans hs) ?_ (Nat.lt_of_succ_lt_succ hn)
    intro u hu
    have hux : u ≠ x := fun he => (List.nodup_cons.mp hnd).1 (he ▸ hu)
    rw [awaken_links, Function.update_of_ne hux]
    exact hl u (List.mem_cons_of_mem x hu)

namespace Lists

theorem kwakeup (h : Lists s L) {n : Nat} (hn : (L e).length ≤ n) :
    s.kwakeup n e r = some ((s.setWord e none).awakenAll r (L e)) := by
  have hw := h.word e
  unfold Sys.kwakeup
  cases hq : L e with
  | nil =>
    rw [hq] at hw
    change s.word e = none at hw
    have hself : s.setWord e none = s := by
      unfold setWord
      rw [← hw, Function.update_eq_self]
    rw [hw, hself]
    rfl
  | cons a m =>
    have hring := h.ring e
    rw [hq] at hw hring hn
    rw [List.getLast?_eq_getLast_of_ne_nil (by simp)] at hw
    have hlast : (s.thread ((a :: m).getLast (by simp))).tEventlist = some a := hring.next_last
    rw [hw]
    dsimp only
    rw [hlast]
    exact postLoop_eq hring rfl (List.getLast?_eq_getLast_of_ne_nil (by simp)) m a n
      (s.setWord e none) (List.suffix_refl _) (fun _ _ => rfl) hn

/-- One list changes. -/
theorem change (h : Lists s L) {q : List Nat} (hring : IsRing s'.links q)
    (hword : s'.word = Function.update s.word e q.getLast?)
    (hnew : ∀ u ∈ q, u ∈ L e ∨ ∀ e', u ∉ L e')
    (hlinks : ∀ e', e' ≠ e → ∀ u ∈ L e', s'.links u = s.links u)
    (hoff : ∀ u, u ∉ q → (∀ e', e' ≠ e → u ∉ L e') → s'.links u = none)
    (hchan : ∀ u ∈ q, (s'.thread u).tWchan = some e)
    (hkeep : ∀ e', e' ≠ e → ∀ u ∈ L e', (s'.thread u).tWchan = (s.thread u).tWchan)
    (hslot : ∀ u ∈ q, u < nthread) : Lists s' (Function.update L e q) := by
  have hapart : ∀ e', e' ≠ e → ∀ u ∈ q, u ∉ L e' := by
    intro e' he u hu hu'
    rcases hnew u hu with hu | hu
    · exact he (h.apart e' e u hu' hu)
    · exact hu e' hu'
  refine ⟨fun e' => ?_, fun e' => ?_, fun e₁ e₂ u h₁ h₂ => ?_, fun u hu => ?_, fun e' u hu => ?_,
    fun e' u hu => ?_⟩
  · by_cases he : e' = e
    · subst he
      rwa [Function.update_self]
    · rw [Function.update_of_ne he]
      exact (h.ring e').congr (hlinks e' he)
  · rw [hword]
    by_cases he : e' = e
    · subst he
      rw [Function.update_self, Function.update_self]
    · rw [Function.update_of_ne he, Function.update_of_ne he]
      exact h.word e'
  · by_cases he₁ : e₁ = e <;> by_cases he₂ : e₂ = e
    · rw [he₁, he₂]
    · subst he₁
      rw [Function.update_self] at h₁
      rw [Function.update_of_ne he₂] at h₂
      exact absurd h₂ (hapart e₂ he₂ u h₁)
    · subst he₂
      rw [Function.update_self] at h₂
      rw [Function.update_of_ne he₁] at h₁
      exact absurd h₁ (hapart e₁ he₁ u h₂)
    · rw [Function.update_of_ne he₁] at h₁
      rw [Function.update_of_ne he₂] at h₂
      exact h.apart e₁ e₂ u h₁ h₂
  · refine hoff u ?_ ?_
    · have hn := hu e
      rwa [Function.update_self] at hn
    · intro e' he
      have hn := hu e'
      rwa [Function.update_of_ne he] at hn
  · by_cases he : e' = e
    · subst he
      rw [Function.update_self] at hu
      exact hchan u hu
    · rw [Function.update_of_ne he] at hu
      exact (hkeep e' he u hu).trans (h.chan e' u hu)
  · by_cases he : e' = e
    · subst he
      rw [Function.update_self] at hu
      exact hslot u hu
    · rw [Function.update_of_ne he] at hu
      exact h.slot e' u hu

theorem awakenAll (h : Lists s L) (hs : Sched s) (e : Nat) (r : Int) :
    Lists ((s.setWord e none).awakenAll r (L e)) (Function.update L e []) := by
  have hfar : ∀ e', e' ≠ e → ∀ u ∈ L e', u ∉ L e := fun e' he u hu hu' => he (h.apart e' e u hu hu')
  have hother : ∀ u, u ∉ L e → ((s.setWord e none).awakenAll r (L e)).thread u = s.thread u :=
    fun u hu => awakenAll_of_notMem hu
  have hsched : Sched (s.setWord e none) := hs.congr rfl rfl rfl fun _ => ⟨rfl, rfl, rfl, id⟩
  refine h.change trivial ?_ (fun u hu => by cases hu) ?_ ?_ (fun u hu => by cases hu) ?_
    fun u hu => by cases hu
  · exact awakenAll_word _ _ _
  · intro e' he u hu
    rw [links, hother u (hfar e' he u hu)]
    rfl
  · intro u _ hu
    by_cases hue : u ∈ L e
    · obtain ⟨⟨st, w, hth⟩, -⟩ := awakenAll_of_mem (r := r) hsched hue (h.ring e).nodup
      rw [links, hth]
    · rw [links, hother u hue]
      apply h.off
      intro e' hu'
      by_cases he : e' = e
      · exact hue (he ▸ hu')
      · exact hu e' he hu'
  · intro e' he u hu
    rw [hother u (hfar e' he u hu)]

/-! ## A wait is asserted -/

theorem eAssertWait_links (s : Sys) (t e : Nat) (i : Bool) : (s.eAssertWait t e i).links =
    match s.word e with
    | none => Function.update s.links t (some t)
    | some tend => Function.update (Function.update s.links t (s.links tend)) tend (some t) := by
  unfold Sys.eAssertWait
  dsimp only
  rw [links_keep, links_keep, links_keep]
  · cases s.word e with
    | none =>
      change (s.modify t fun th => { th with tEventlist := some t }).links = _
      exact links_modify
    | some tend =>
      change ((s.modify t fun th => { th with tEventlist := (s.thread tend).tEventlist }).modify tend
        fun th => { th with tEventlist := some t }).links = _
      rw [links_modify, links_modify]
      rfl
  all_goals rfl

/-- What a thread is apart from its link. -/
theorem eAssertWait_of_ne (s : Sys) (e : Nat) (i : Bool) (hu : u ≠ t) : ∃ k, (s.eAssertWait t e i).thread u =
    { s.thread u with tEventlist := k } := by
  unfold Sys.eAssertWait
  dsimp only
  rw [thread_modify_of_ne hu, thread_modify_of_ne hu, thread_modify_of_ne hu]
  cases s.word e with
  | none =>
    change ∃ k, (s.modify t fun th => { th with tEventlist := some t }).thread u = _
    exact ⟨(s.thread u).tEventlist, thread_modify_of_ne hu⟩
  | some tend =>
    change ∃ k, ((s.modify t fun th => { th with tEventlist := (s.thread tend).tEventlist }).modify
      tend fun th => { th with tEventlist := some t }).thread u = _
    by_cases hut : u = tend
    · subst hut
      rw [thread_modify_self, thread_modify_of_ne hu]
      exact ⟨_, rfl⟩
    · rw [thread_modify_of_ne hut, thread_modify_of_ne hu]
      exact ⟨_, rfl⟩

theorem eAssertWait_self (s : Sys) (t e : Nat) (i : Bool) : ∃ k, (s.eAssertWait t e i).thread t =
    { s.thread t with tEventlist := k, tWchan := some e, tResult := 0, tassertsig := i } := by
  unfold Sys.eAssertWait
  dsimp only
  rw [thread_modify_self, thread_modify_self, thread_modify_self]
  cases s.word e with
  | none =>
    change ∃ k, { (s.modify t fun th => { th with tEventlist := some t }).thread t with
      tWchan := some e, tResult := 0, tassertsig := i } = _
    rw [thread_modify_self]
    exact ⟨_, rfl⟩
  | some tend =>
    change ∃ k, { ((s.modify t fun th => { th with tEventlist := (s.thread tend).tEventlist }).modify
      tend fun th => { th with tEventlist := some t }).thread t with
      tWchan := some e, tResult := 0, tassertsig := i } = _
    by_cases hut : t = tend
    · subst hut
      rw [thread_modify_self, thread_modify_self]
      exact ⟨_, rfl⟩
    · rw [thread_modify_of_ne hut, thread_modify_self]
      exact ⟨_, rfl⟩

theorem eAssertWait_rest (s : Sys) (t e : Nat) (i : Bool) :
    (s.eAssertWait t e i).word = Function.update s.word e (some t) ∧
    (s.eAssertWait t e i).ready = s.ready ∧ (s.eAssertWait t e i).curthread = s.curthread ∧
    (s.eAssertWait t e i).clears = s.clears ∧ (s.eAssertWait t e i).lock = s.lock := by
  unfold Sys.eAssertWait
  cases hw : s.word e <;> exact ⟨rfl, rfl, rfl, rfl, rfl⟩

theorem eAssertWait (h : Lists s L) (ht : ∀ e, t ∉ L e) (hslot : t < nthread) (e : Nat) (i : Bool) :
    Lists (s.eAssertWait t e i) (Function.update L e (L e ++ [t])) := by
  have hlinks := eAssertWait_links s t e i
  obtain ⟨hword, -⟩ := eAssertWait_rest s t e i
  obtain ⟨k, hself⟩ := eAssertWait_self s t e i
  have hw := h.word e
  have hne : ∀ e' u, u ∈ L e' → u ≠ t := fun e' u hu he => ht e' (he ▸ hu)
  have hfar : ∀ e', e' ≠ e → ∀ u ∈ L e', u ∉ L e := fun e' he u hu hu' =>
    he (h.apart e' e u hu hu')
  have hring : IsRing (s.eAssertWait t e i).links (L e ++ [t]) ∧
      ∀ u, u ≠ t → u ∉ L e → (s.eAssertWait t e i).links u = s.links u := by
    cases hq : L e with
    | nil =>
      rw [hq] at hw
      change s.word e = none at hw
      rw [hlinks, hw]
      refine ⟨⟨List.nodup_singleton t, Function.update_self _ _ _, trivial⟩, ?_⟩
      exact fun u hu _ => Function.update_of_ne hu _ _
    | cons a m =>
      have hr := h.ring e
      rw [hq] at hw hr
      rw [List.getLast?_eq_getLast_of_ne_nil (by simp)] at hw
      have hnot := ht e
      rw [hq] at hnot
      rw [hlinks, hw]
      refine ⟨hr.snoc hnot, fun u hu hum => ?_⟩
      have hul : u ≠ (a :: m).getLast (by simp) := fun he => hum (he ▸ List.getLast_mem _)
      change Function.update (Function.update _ _ _) _ _ u = _
      rw [Function.update_of_ne hul, Function.update_of_ne hu]
  refine h.change hring.1 ?_ ?_ ?_ ?_ ?_ ?_ ?_
  · rw [hword]
    simp
  · intro u hu
    rcases List.mem_append.mp hu with hu | hu
    · exact .inl hu
    · rw [List.mem_singleton.mp hu]
      exact .inr ht
  · exact fun e' he u hu => hring.2 u (hne e' u hu) (hfar e' he u hu)
  · intro u hu hu'
    have hut : u ≠ t := fun he => hu (by simp [he])
    have hue : u ∉ L e := fun hm => hu (List.mem_append_left _ hm)
    rw [hring.2 u hut hue]
    apply h.off
    intro e' hm
    by_cases he : e' = e
    · exact hue (he ▸ hm)
    · exact hu' e' he hm
  · intro u hu
    by_cases hut : u = t
    · rw [hut, hself]
    · obtain ⟨k, hk⟩ := eAssertWait_of_ne s e i hut
      rw [hk]
      have hm : u ∈ L e := (List.mem_append.mp hu).resolve_right fun hm =>
        hut (List.mem_singleton.mp hm)
      exact h.chan e u hm
  · intro e' _ u hu
    obtain ⟨k, hk⟩ := eAssertWait_of_ne s e i (hne e' u hu)
    rw [hk]
  · intro u hu
    rcases List.mem_append.mp hu with hu | hu
    · exact h.slot e u hu
    · rw [List.mem_singleton.mp hu]
      exact hslot

end Lists

end Sys

end Aix413.Events
