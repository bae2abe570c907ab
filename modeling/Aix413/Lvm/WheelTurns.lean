import Mathlib.Data.List.TakeWhile
import Aix413.Lvm.Wheel

namespace Aix413.Lvm.Wheel

open Sched Lib.Circle Volgrp

variable {vg vg' : Volgrp} {pvols pvols' : Nat → Option Pvol} {g : Nat × List Nat}
  {gs : List (Nat × List Nat)} {c i n r : Nat}

/-! ## Areas that go -/

def seqOf (pvols : Nat → Option Pvol) (i : Nat) : Option UInt16 :=
  (pvols (i / 2)).map fun pv => (pv.saArea (i % 2)).saSeqNum

/-- The areas that are live later were so before, with their sequence numbers. -/
def Fewer (pvols pvols' : Nat → Option Pvol) : Prop :=
  ∀ i, live pvols' i = true → live pvols i = true ∧ seqOf pvols' i = seqOf pvols i

theorem Fewer.refl (pvols : Nat → Option Pvol) : Fewer pvols pvols := fun _ h => ⟨h, rfl⟩

theorem Fewer.trans {a b d : Nat → Option Pvol} (h : Fewer a b) (h' : Fewer b d) : Fewer a d := by
  intro i hi
  obtain ⟨h1, h2⟩ := h' i hi
  obtain ⟨h3, h4⟩ := h i h1
  exact ⟨h3, h2.trans h4⟩

theorem live_iff (i : Nat) : live pvols i = true ↔
    ∃ pv, pvols (i / 2) = some pv ∧ pv.missing = false ∧ (pv.saArea (i % 2)).lsn ≠ 0 := by
  unfold live
  cases pvols (i / 2) <;> simp

theorem fewer_setMissing (vg : Volgrp) (p : Nat) : Fewer vg.pvols (vg.setMissing p).pvols := by
  intro i hi
  rw [live_iff] at hi
  obtain ⟨pv, hp, hm, hl⟩ := hi
  have hne : i / 2 ≠ p := by
    rintro rfl
    simp only [setMissing, Function.update_self, Option.map_eq_some_iff] at hp
    obtain ⟨pv', -, rfl⟩ := hp
    cases hm
  have hsame : (vg.setMissing p).pvols (i / 2) = vg.pvols (i / 2) := Function.update_of_ne hne _ _
  rw [hsame] at hp
  exact ⟨(live_iff i).mpr ⟨pv, hp, hm, hl⟩, by unfold seqOf; rw [hsame]⟩

theorem dead_setMissing (vg : Volgrp) (h : i / 2 = n) : live (vg.setMissing n).pvols i = false := by
  by_contra hne
  rw [Bool.not_eq_false, live_iff] at hne
  obtain ⟨pv, hp, hm, -⟩ := hne
  rw [h] at hp
  simp only [setMissing, Function.update_self, Option.map_eq_some_iff] at hp
  obtain ⟨pv', -, rfl⟩ := hp
  cases hm

/-- The area at a place as it is after `setArea` there, and at all others. -/
theorem seqOf_setArea {a : SaArea} {pv : Pvol} (hp : vg.pvols (c / 2) = some pv) (i : Nat) :
    seqOf (vg.setArea c a).pvols i = if i = c then some a.saSeqNum else seqOf vg.pvols i := by
  unfold seqOf setArea
  simp only
  by_cases hi : i / 2 = c / 2
  · rw [hi, Function.update_self, hp]
    by_cases hm : i % 2 = c % 2
    · have hic : i = c := by omega
      rw [if_pos hic, hm]
      simp
    · have hic : i ≠ c := fun h => hm (h ▸ rfl)
      rw [if_neg hic]
      simp [Function.update_of_ne hm]
  · have hic : i ≠ c := fun h => hi (h ▸ rfl)
    rw [if_neg hic, Function.update_of_ne hi]

theorem live_setArea {a : SaArea} {pv : Pvol} (hp : vg.pvols (c / 2) = some pv) (i : Nat) :
    live (vg.setArea c a).pvols i =
      if i = c then !pv.missing && decide (a.lsn ≠ 0) else live vg.pvols i := by
  unfold live setArea
  simp only
  by_cases hi : i / 2 = c / 2
  · rw [hi, Function.update_self, hp]
    by_cases hm : i % 2 = c % 2
    · have hic : i = c := by omega
      rw [if_pos hic, hm]
      simp
    · have hic : i ≠ c := fun h => hm (h ▸ rfl)
      rw [if_neg hic]
      simp [Function.update_of_ne hm]
  · have hic : i ≠ c := fun h => hi (h ▸ rfl)
    rw [if_neg hic, Function.update_of_ne hi]

/-! ## Requests that are done -/

/-- The notes of requests returned without error, the newest first. -/
def returns (pvols : Nat → Option Pvol) (gs : List (Nat × List Nat)) : List Note :=
  (gs.flatMap fun g => g.1 :: g.2).reverse.map fun r => .returned r false pvols

theorem hdSaRtn_eq (vg : Volgrp) (g : Nat × List Nat) :
    hdSaRtn vg g false = { vg with log := returns vg.pvols [g] ++ vg.log } := by
  have hfold : ∀ (rs : List Nat) (vg : Volgrp), rs.foldl (rtnOne false) vg =
      { vg with log := (rs.reverse.map fun r => .returned r false vg.pvols) ++ vg.log } := by
    intro rs
    induction rs with
    | nil => exact fun _ => rfl
    | cons r rs ih =>
      intro vg
      rw [List.foldl_cons, ih]
      simp [rtnOne, Volgrp.note]
  unfold hdSaRtn returns
  rw [hfold]
  simp

def Volgrp.stop (vg : Volgrp) (g : Nat × List Nat) : Nat := (vg.pbuf g.1).pbWhlStop

theorem rtnDone_eq (c : Nat) (gs : List (Nat × List Nat)) (vg : Volgrp) :
    rtnDone c gs vg =
      { vg with
        saActLst := gs.dropWhile fun g => vg.stop g = c
        log := returns vg.pvols (gs.takeWhile fun g => vg.stop g = c) ++ vg.log } := by
  induction gs generalizing vg with
  | nil => rfl
  | cons g gs ih =>
    rw [rtnDone]
    by_cases hs : vg.stop g = c
    · have hs' : (vg.pbuf g.1).pbWhlStop = c := hs
      have hnote : returns vg.pvols (g :: gs.takeWhile fun g => vg.stop g = c) =
          returns vg.pvols (gs.takeWhile fun g => vg.stop g = c) ++ returns vg.pvols [g] := by
        simp [returns]
      rw [if_pos hs', hdSaRtn_eq, ih, List.takeWhile_cons_of_pos (by simpa using hs),
        List.dropWhile_cons_of_pos (by simpa using hs), hnote, List.append_assoc]
      rfl
    · have hs' : ¬(vg.pbuf g.1).pbWhlStop = c := hs
      rw [if_neg hs']
      simp [hs, returns]

/-! ## The wheel advances -/

/-- How `whladv` gets from `P`, the place it has done with after so many steps,
to `Q`, the place it comes to. -/
theorem whladv_rule {m : Nat} {P : Nat → Volgrp → Nat → Prop} {Q : Volgrp → Nat → Prop}
    (hdead : ∀ k vg c pvols', k < m → P k vg c → Fewer vg.pvols pvols' →
      live pvols' (next places c) = false →
      P (k + 1) { rtnDone (next places c) vg.saActLst vg with pvols := pvols' } (next places c))
    (hlive : ∀ k vg c, k < m → P k vg c → live vg.pvols (next places c) = true →
      Q (rtnDone (next places c) vg.saActLst vg) (next places c))
    (n k : Nat) (vg : Volgrp) (c : Nat) (hm : k + n = m) (h : P k vg c) :
    Q (whladv n vg c).1 (whladv n vg c).2 ∨ P m (whladv n vg c).1 (whladv n vg c).2 := by
  induction n generalizing vg c k with
  | zero =>
    rw [Nat.add_zero] at hm
    exact .inr (hm ▸ h)
  | succ n ih =>
    have hk : k < m := by omega
    have hpv : (rtnDone (next places c) vg.saActLst vg).pvols = vg.pvols := by rw [rtnDone_eq]
    have hstep : ∀ {vg'}, P (k + 1) vg' (next places c) →
        Q (whladv n vg' (next places c)).1 (whladv n vg' (next places c)).2 ∨
          P m (whladv n vg' (next places c)).1 (whladv n vg' (next places c)).2 :=
      fun hP => ih (k + 1) _ _ (by omega) hP
    have hsame : ¬live vg.pvols (next places c) = true →
        P (k + 1) (rtnDone (next places c) vg.saActLst vg) (next places c) := by
      intro hl
      rw [Bool.not_eq_true] at hl
      have hstay := hdead k vg c vg.pvols hk h (Fewer.refl _) hl
      rw [rtnDone_eq] at hstay ⊢
      exact hstay
    rw [whladv]
    simp only
    cases hp : (rtnDone (next places c) vg.saActLst vg).pvols (next places c / 2) with
    | none =>
      refine hstep (hsame ?_)
      rw [live_iff, ← hpv, hp]
      simp
    | some pv =>
      rw [hpv] at hp
      simp only
      split
      next hlsn =>
        refine hstep (hsame ?_)
        rw [live_iff, hp]
        simp [hlsn]
      next hlsn =>
        split
        next hgone =>
          by_cases hn : (pv.saArea (next places c % 2)).nukesa = true
          · -- the area is to be deleted
            rw [if_pos hn]
            have hset : ∀ a : SaArea,
                (rtnDone (next places c) vg.saActLst vg).setArea (next places c) a =
                  { rtnDone (next places c) vg.saActLst vg with
                    pvols := (vg.setArea (next places c) a).pvols } := by
              intro a
              rw [rtnDone_eq]
              rfl
            rw [hset]
            refine hstep (hdead k vg c _ hk h (fun i hi => ?_) ?_)
            · rw [live_setArea hp] at hi
              rw [seqOf_setArea hp]
              by_cases hic : i = next places c
              · rw [if_pos hic] at hi
                simp at hi
              · rw [if_neg hic] at hi ⊢
                exact ⟨hi, rfl⟩
            · rw [live_setArea hp, if_pos rfl]
              simp
          · rw [if_neg hn]
            refine hstep (hsame ?_)
            rw [live_iff, hp]
            simp [hgone.resolve_right hn]
        next hgone =>
          rw [not_or] at hgone
          exact .inl (hlive k vg c hk h ((live_iff _).mpr ⟨pv, hp, by simpa using hgone.1, hlsn⟩))

/-- The wheel comes to an area that is live, unless there is none. -/
theorem whladv_live (vg : Volgrp) (hc : c < places) :
    live (whladv places vg c).1.pvols (whladv places vg c).2 = true ∨
      ∀ i < places, live (whladv places vg c).1.pvols i = false := by
  have hstart : c < places ∧ ∀ i < places, ahead places i c < 0 → live vg.pvols i = false :=
    ⟨hc, fun _ _ h => absurd h (Nat.not_lt_zero _)⟩
  refine (whladv_rule
    (P := fun k vg c => c < places ∧ ∀ i < places, ahead places i c < k → live vg.pvols i = false)
    (Q := fun vg c => live vg.pvols c = true) ?_ ?_ places 0 vg c (Nat.zero_add _) hstart).imp_right
    fun h i hi => h.2 i hi (ahead_lt hi h.1)
  · rintro k vg c pvols' - ⟨hlt, hpast⟩ hf hd
    refine ⟨next_lt hlt, fun i hi hk => ?_⟩
    change live pvols' i = false
    by_cases hin : i = next places c
    · exact hin ▸ hd
    · rw [ahead_to_next hlt hi hin] at hk
      by_contra hne
      rw [Bool.not_eq_false] at hne
      have := hpast i hi (by omega)
      rw [(hf i hne).1] at this
      cases this
  · rintro k vg c - - hl
    rw [rtnDone_eq]
    exact hl

/-- What `hd_sa_whladv` leaves alone, while it returns requests and deletes
areas. -/
structure Advanced (vg vg' : Volgrp) : Prop where
  eq : vg' = { vg with pvols := vg'.pvols, saActLst := vg'.saActLst, log := vg'.log }
  fewer : Fewer vg.pvols vg'.pvols
  suffix : vg'.saActLst <:+ vg.saActLst

theorem advanced_step (h : Advanced vg vg') (hf : Fewer vg'.pvols pvols') :
    Advanced vg { rtnDone c vg'.saActLst vg' with pvols := pvols' } := by
  obtain ⟨he, hfew, hs⟩ := h
  rw [rtnDone_eq]
  refine ⟨?_, hfew.trans hf, (List.dropWhile_suffix _).trans hs⟩
  rw [he]

theorem advanced_whladv (vg : Volgrp) (n c : Nat) : Advanced vg (whladv n vg c).1 := by
  refine (whladv_rule (P := fun _ vg' _ => Advanced vg vg') (Q := fun vg' _ => Advanced vg vg')
    ?_ ?_ n 0 vg c (Nat.zero_add n) ⟨rfl, Fewer.refl _, List.suffix_refl _⟩).elim id id
  · intro _ vg' c pvols' _ h hf _
    exact advanced_step h hf
  · intro _ vg' c _ h _
    have hs := advanced_step (c := next places c) h (Fewer.refl _)
    rw [rtnDone_eq] at hs ⊢
    exact hs

theorem Advanced.whlSeqNum (h : Advanced vg vg') : vg'.whlSeqNum = vg.whlSeqNum := by rw [h.eq]

/-! ## Stop indices and sequence numbers -/

/-- How far the number of an area is behind that of the wheel. -/
def lagOf (pvols : Nat → Option Pvol) (w : UInt16) (i : Nat) : Nat :=
  match seqOf pvols i with
  | some q => (w - q).toNat
  | none => 0

theorem lagOf_congr {w : UInt16} (h : seqOf pvols' i = seqOf pvols i) :
    lagOf pvols' w i = lagOf pvols w i := by
  unfold lagOf
  rw [h]

def Volgrp.lag (vg : Volgrp) (i : Nat) : Nat := lagOf vg.pvols vg.whlSeqNum i

theorem lag_congr (hs : seqOf vg'.pvols i = seqOf vg.pvols i) (hw : vg'.whlSeqNum = vg.whlSeqNum) :
    vg'.lag i = vg.lag i := by
  unfold Volgrp.lag
  rw [hw, lagOf_congr hs]

/-- Stop indices in the order in which the wheel comes to them from `c` on. The
areas `k` steps ahead or more and before one of them are not yet written. -/
structure Lined (vg : Volgrp) (ss : List Nat) (c k : Nat) : Prop where
  stops : ∀ s ∈ ss, s < places
  order : ss.Pairwise fun s s' => lap places c s ≤ lap places c s'
  dirty : ∀ s ∈ ss, ∀ i < places, live vg.pvols i = true → k ≤ ahead places c i →
    ahead places c i < lap places c s → vg.lag i ≠ 0

theorem lined_nil : Lined vg [] c n where
  stops := fun _ h => absurd h List.not_mem_nil
  order := .nil
  dirty := fun _ h => absurd h List.not_mem_nil

theorem Lined.fewer {ss : List Nat} {m : Nat} (h : Lined vg ss c n) (hf : Fewer vg.pvols vg'.pvols)
    (hw : vg'.whlSeqNum = vg.whlSeqNum) (hm : n ≤ m) : Lined vg' ss c m where
  stops := h.stops
  order := h.order
  dirty := fun s hs i hi hl hk hlt => by
    obtain ⟨hl', hseq⟩ := hf i hl
    rw [lag_congr hseq hw]
    exact h.dirty s hs i hi hl' (hm.trans hk) hlt

/-- The stop indices that are come to are at the front. -/
theorem ne_of_mem_dropWhile {ss : List Nat} (hc : c < places) (hs : ∀ s ∈ ss, s < places)
    (ho : ss.Pairwise fun s s' => lap places c s ≤ lap places c s') :
    ∀ s ∈ ss.dropWhile fun s => s = next places c, s ≠ next places c := by
  induction ss with
  | nil => exact fun s hs => absurd hs List.not_mem_nil
  | cons a ss ih =>
    rw [List.pairwise_cons] at ho
    by_cases ha : a = next places c
    · rw [List.dropWhile_cons_of_pos (by simpa using ha)]
      exact ih (fun s h => hs s (List.mem_cons_of_mem _ h)) ho.2
    · rw [List.dropWhile_cons_of_neg (by simpa using ha)]
      intro s h he
      rcases List.mem_cons.mp h with rfl | h
      · exact ha he
      · have hle := ho.1 s h
        rw [(lap_eq_one hc).mpr he] at hle
        have hpos := lap_pos places c a
        exact ha ((lap_eq_one hc).mp (by omega))

/-- One step brings the stop indices that are left one nearer. -/
theorem Lined.lap_step {ss : List Nat} (h : Lined vg ss c n) (hc : c < places) :
    ∀ s ∈ ss.dropWhile fun s => s = next places c,
      s ∈ ss ∧ lap places c s = lap places (next places c) s + 1 := by
  intro s hs
  have hmem : s ∈ ss := (List.dropWhile_sublist _).subset hs
  exact ⟨hmem, lap_next hc (h.stops s hmem) (ne_of_mem_dropWhile hc h.stops h.order s hs)⟩

/-- One step: those done leave, the others stay in line. -/
theorem Lined.step {ss : List Nat} (h : Lined vg ss c 1) (hc : c < places) :
    Lined vg (ss.dropWhile fun s => s = next places c) (next places c) 0 := by
  have hlap := h.lap_step hc
  refine ⟨fun s hs => h.stops s (hlap s hs).1, ?_, ?_⟩
  · refine (h.order.sublist (List.dropWhile_sublist _)).imp_of_mem fun ha hb hab => ?_
    rw [(hlap _ ha).2, (hlap _ hb).2] at hab
    omega
  · intro s hs i hi hl _ hlt
    obtain ⟨hmem, hs'⟩ := hlap s hs
    have hle := lap_le hc (h.stops s hmem)
    by_cases hic : i = c
    · -- a whole lap is behind `c`
      subst hic
      have hfull := ahead_next_self hc
      omega
    · have hi' := ahead_next hc hi hic
      exact h.dirty s hmem i hi hl (by omega) (by omega)

/-! ## Requests whose stop indices are not yet set -/

/-- Of the requests behind `old`, some at the front may be done too. -/
theorem dropWhile_behind {α : Type} (p : α → Bool) (old new : List α) :
    ∃ early left, new = early ++ left ∧ (old ++ new).dropWhile p = old.dropWhile p ++ left ∧
      (old ++ new).takeWhile p = old.takeWhile p ++ early := by
  rw [List.dropWhile_append, List.takeWhile_append]
  by_cases hall : ∀ g ∈ old, p g = true
  · have hnil : old.dropWhile p = [] := List.dropWhile_eq_nil_iff.mpr hall
    have htake : old.takeWhile p = old := List.takeWhile_eq_self_iff.mpr hall
    refine ⟨new.takeWhile p, new.dropWhile p, List.takeWhile_append_dropWhile.symm, ?_, ?_⟩
    · simp [hnil]
    · rw [htake, if_pos rfl]
  · refine ⟨[], new, rfl, ?_, ?_⟩
    · rw [if_neg]
      rw [List.isEmpty_iff, List.dropWhile_eq_nil_iff]
      exact hall
    · rw [if_neg, List.append_nil]
      intro hlen
      exact hall (List.takeWhile_eq_self_iff.mp ((List.takeWhile_prefix p).eq_of_length hlen))

/-! ## Requests in line -/

variable {old new : List (Nat × List Nat)} {j k b : Nat} {log : List Note}
  {W : Nat × List Nat → Nat → Prop}

/-- Requests in line from `c` on. Each has been written, in the sense of `W`, to
the areas that do not lie `j` steps ahead or more and before its stop index. -/
structure InLine (W : Nat × List Nat → Nat → Prop) (vg : Volgrp) (gs : List (Nat × List Nat))
    (c j : Nat) : Prop where
  lined : Lined vg (gs.map vg.stop) c j
  seen : ∀ g ∈ gs, ∀ i < places, live vg.pvols i = true →
    W g i ∨ j ≤ ahead places c i ∧ ahead places c i < lap places c (vg.stop g)

/-- `log` after requests have been returned, those of `old` once they were written
to every live area. -/
def Returned (W : Nat × List Nat → Nat → Prop) (old new : List (Nat × List Nat))
    (log log' : List Note) : Prop :=
  ∃ rets, log' = rets ++ log ∧ ∀ n ∈ rets, ∃ g, ∃ r ∈ g.1 :: g.2, ∃ pvols,
    n = .returned r false pvols ∧
      ((g ∈ old ∧ ∀ i < places, live pvols i = true → W g i) ∨ g ∈ new)

theorem Returned.trans {a b d : List Note} (h : Returned W old new a b)
    (h' : Returned W old new b d) : Returned W old new a d := by
  obtain ⟨rets, rfl, hr⟩ := h
  obtain ⟨rets', rfl, hr'⟩ := h'
  refine ⟨rets' ++ rets, (List.append_assoc _ _ _).symm, fun n hn => ?_⟩
  exact (List.mem_append.mp hn).elim (hr' n) (hr n)

theorem returned_returns {pvols : Nat → Option Pvol}
    (h : ∀ g ∈ gs, (g ∈ old ∧ ∀ i < places, live pvols i = true → W g i) ∨ g ∈ new) :
    Returned W old new log (returns pvols gs ++ log) := by
  refine ⟨_, rfl, fun n hn => ?_⟩
  simp only [returns, List.mem_map, List.mem_reverse, List.mem_flatMap] at hn
  obtain ⟨r, ⟨g, hg, hr⟩, rfl⟩ := hn
  exact ⟨g, r, hr, pvols, rfl, h g hg⟩

/-- Those that are done at a step have been written everywhere. -/
theorem InLine.written (h : InLine W vg gs c 1) (hc : c < places) :
    ∀ g ∈ gs.takeWhile fun g => vg.stop g = next places c,
      ∀ i < places, live vg.pvols i = true → W g i := by
  intro g hg i hi hl
  have hs : vg.stop g = next places c := by simpa using List.mem_takeWhile_imp hg
  refine (h.seen g ((List.takeWhile_sublist _).subset hg) i hi hl).resolve_right fun ⟨hk, hlt⟩ => ?_
  rw [(lap_eq_one hc).mpr hs] at hlt
  omega

theorem map_dropWhile_stop (vg : Volgrp) (gs : List (Nat × List Nat)) (c : Nat) :
    (gs.dropWhile fun g => vg.stop g = c).map vg.stop =
      (gs.map vg.stop).dropWhile fun s => s = c := by
  rw [List.dropWhile_map]
  rfl

theorem InLine.fewer (h : InLine W vg gs c j) (hstop : ∀ g ∈ gs, vg'.stop g = vg.stop g)
    (hf : Fewer vg.pvols vg'.pvols) (hw : vg'.whlSeqNum = vg.whlSeqNum) : InLine W vg' gs c j where
  lined := by
    rw [List.map_congr_left hstop]
    exact h.lined.fewer hf hw le_rfl
  seen := fun g hg i hi hl => by
    rw [hstop g hg]
    exact h.seen g hg i hi (hf i hl).1

theorem InLine.step (h : InLine W vg gs c 1) (hc : c < places) :
    InLine W vg (gs.dropWhile fun g => vg.stop g = next places c) (next places c) 0 := by
  have hlap := h.lined.lap_step hc
  rw [← map_dropWhile_stop] at hlap
  refine ⟨map_dropWhile_stop vg gs _ ▸ h.lined.step hc, fun g hg i hi hl => ?_⟩
  obtain ⟨hmem, hs⟩ := hlap _ (List.mem_map_of_mem hg)
  refine (h.seen g ((List.dropWhile_sublist _).subset hg) i hi hl).imp_right fun ⟨hk, hlt⟩ => ?_
  have hic : i ≠ c := by
    rintro rfl
    rw [ahead_self] at hk
    omega
  have hi' := ahead_next hc hi hic
  omega

/-- The same where `c` is no area to write. -/
theorem InLine.dead (h : InLine W vg gs c 0) (hstop : ∀ g ∈ gs, vg'.stop g = vg.stop g)
    (hf : Fewer vg.pvols vg'.pvols) (hw : vg'.whlSeqNum = vg.whlSeqNum) (hc : c < places)
    (hd : live vg'.pvols c = false) : InLine W vg' gs c 1 where
  lined := by
    rw [List.map_congr_left hstop]
    exact h.lined.fewer hf hw (Nat.zero_le 1)
  seen := fun g hg i hi hl => by
    rw [hstop g hg]
    refine (h.seen g hg i hi (hf i hl).1).imp_right fun ⟨_, hlt⟩ => ⟨?_, hlt⟩
    refine Nat.pos_of_ne_zero fun h0 => ?_
    rw [ahead_eq_zero hc] at h0
    rw [h0, hd] at hl
    cases hl

/-- Where `hd_sa_whladv` is on its way, when it began with `old` and `new` on the
active list. Those left of `old` are in line. -/
structure Passing (W : Nat × List Nat → Nat → Prop) (vg₀ : Volgrp) (old new : List (Nat × List Nat))
    (vg : Volgrp) (c j : Nat) (left news : List (Nat × List Nat)) : Prop where
  lt : c < places
  back : left <:+ old
  newBack : news <:+ new
  act : vg.saActLst = left ++ news
  line : InLine W vg left c j
  returned : Returned W old new vg₀.log vg.log

variable {vg₀ : Volgrp} {left news : List (Nat × List Nat)}

theorem Passing.step (h : Passing W vg₀ old new vg c 1 left news) :
    ∃ left' news', Passing W vg₀ old new (rtnDone (next places c) vg.saActLst vg)
      (next places c) 0 left' news' := by
  obtain ⟨early, news', hnews, hdrop, htake⟩ :=
    dropWhile_behind (fun g => vg.stop g = next places c) left news
  refine ⟨left.dropWhile fun g => vg.stop g = next places c, news', ?_⟩
  rw [rtnDone_eq, h.act, hdrop, htake]
  have hback : news' <:+ news := ⟨early, hnews.symm⟩
  exact
    { lt := next_lt h.lt
      back := (List.dropWhile_suffix _).trans h.back
      newBack := hback.trans h.newBack
      act := rfl
      line := (h.line.step h.lt).fewer (fun _ _ => rfl) (Fewer.refl _) rfl
      returned := h.returned.trans (returned_returns fun g hg => by
        rcases List.mem_append.mp hg with hg | hg
        · exact .inl ⟨h.back.subset ((List.takeWhile_sublist _).subset hg),
            h.line.written h.lt g hg⟩
        · exact .inr (h.newBack.subset (hnews ▸ List.mem_append_left _ hg))) }

/-- What `hd_sa_whladv` does to requests in line, with others behind them whose
stop indices are not yet set. -/
theorem whladv_inLine (hc : c < places) (ha : vg.saActLst = old ++ new)
    (hl : InLine W vg old c 1) :
    let r := whladv places vg c
    ∃ left news, Passing W vg old new r.1 r.2 0 left news := by
  intro r
  have hstart : ∃ left news, Passing W vg old new vg c 1 left news ∧
      (0 ≠ 0 → live vg.pvols c = false) :=
    ⟨old, new, ⟨hc, List.suffix_refl _, List.suffix_refl _, ha, hl, [], rfl,
      fun _ h => absurd h List.not_mem_nil⟩, fun h => absurd rfl h⟩
  have hrule := whladv_rule
    (P := fun k vg' c' => ∃ left news, Passing W vg old new vg' c' 1 left news ∧
      (k ≠ 0 → live vg'.pvols c' = false))
    (Q := fun vg' c' => ∃ left news, Passing W vg old new vg' c' 0 left news)
    ?_ ?_ places 0 vg c (Nat.zero_add _) hstart
  · rcases hrule with hq | ⟨left, news, hp, hdead⟩
    · exact hq
    · -- no area is left
      have hnone : ∀ i < places, live r.1.pvols i = false :=
        (whladv_live vg hc).resolve_left fun hsome => by
          rw [hdead (by decide)] at hsome
          cases hsome
      refine ⟨left, news, hp.lt, hp.back, hp.newBack, hp.act, ⟨⟨hp.line.lined.stops,
        hp.line.lined.order, ?_⟩, ?_⟩, hp.returned⟩
      · intro s hs i hi hli
        rw [hnone i hi] at hli
        cases hli
      · intro g hg i hi hli
        rw [hnone i hi] at hli
        cases hli
  · rintro k vg' c' pvols' - ⟨left, news, hp, -⟩ hf hdead
    obtain ⟨left', news', hstep⟩ := hp.step
    rw [rtnDone_eq] at hstep ⊢
    refine ⟨left', news', ⟨hstep.lt, hstep.back, hstep.newBack, hstep.act, ?_, hstep.returned⟩,
      fun _ => hdead⟩
    exact hstep.line.dead (fun _ _ => rfl) hf rfl hstep.lt hdead
  · rintro k vg' c' - ⟨left, news, hp, -⟩ -
    exact hp.step

/-! ## Sequence numbers -/

/-- The live areas that the wheel comes to first are the furthest behind. -/
def Falling (vg : Volgrp) (dist : Nat → Nat) : Prop :=
  ∀ i < places, ∀ j < places, live vg.pvols i = true → live vg.pvols j = true →
    dist i ≤ dist j → vg.lag j ≤ vg.lag i

/-- The live areas are so far behind as to leave room for the wheel to come to them. -/
def Bounded (vg : Volgrp) (dist : Nat → Nat) (b : Nat) : Prop :=
  ∀ i < places, live vg.pvols i = true → vg.lag i + dist i ≤ b

theorem Falling.fewer {dist dist' : Nat → Nat} (h : Falling vg dist) (hf : Fewer vg.pvols vg'.pvols)
    (hw : vg'.whlSeqNum = vg.whlSeqNum)
    (hd : ∀ i < places, live vg'.pvols i = true → dist i = dist' i + k) : Falling vg' dist' := by
  intro i hi j hj hli hlj hle
  obtain ⟨hli', hsi⟩ := hf i hli
  obtain ⟨hlj', hsj⟩ := hf j hlj
  rw [lag_congr hsi hw, lag_congr hsj hw]
  have hdi := hd i hi hli
  have hdj := hd j hj hlj
  exact h i hi j hj hli' hlj' (by omega)

theorem Bounded.fewer {dist dist' : Nat → Nat} (h : Bounded vg dist b)
    (hf : Fewer vg.pvols vg'.pvols) (hw : vg'.whlSeqNum = vg.whlSeqNum)
    (hd : ∀ i < places, live vg'.pvols i = true → dist i = dist' i + k) :
    Bounded vg' (fun i => dist' i + k) b := by
  intro i hi hl
  obtain ⟨hl', hs⟩ := hf i hl
  rw [lag_congr hs hw]
  have hdi := hd i hi hl
  have hle := h i hi hl'
  change vg.lag i + (dist' i + k) ≤ b
  omega

/-- `hd_sa_whladv` comes to the areas in their order. -/
theorem whladv_pace (hc : c < places) (hb : Bounded vg (lap places c) b)
    (ho : Falling vg (lap places c)) :
    let r := whladv places vg c
    r.2 < places ∧ Bounded r.1 (fun i => ahead places r.2 i + 1) b ∧
      Falling r.1 (ahead places r.2) := by
  intro r
  have hrule := whladv_rule
    (P := fun k vg' c' => c' < places ∧ (k ≠ 0 → live vg'.pvols c' = false) ∧
      Bounded vg' (lap places c') b ∧ Falling vg' (lap places c'))
    (Q := fun vg' c' => c' < places ∧ Bounded vg' (fun i => ahead places c' i + 1) b ∧
      Falling vg' (ahead places c'))
    ?_ ?_ places 0 vg c (Nat.zero_add _) ⟨hc, fun h => absurd rfl h, hb, ho⟩
  · rcases hrule with hq | ⟨hlt, hdead, -, -⟩
    · exact hq
    · have hnone : ∀ i < places, live r.1.pvols i = false :=
        (whladv_live vg hc).resolve_left fun hsome => by
          rw [hdead (by decide)] at hsome
          cases hsome
      refine ⟨hlt, fun i hi hl => ?_, fun i hi j hj hl _ _ => ?_⟩
      · rw [hnone i hi] at hl
        cases hl
      · rw [hnone i hi] at hl
        cases hl
  · rintro k vg' c' pvols' - ⟨hlt, -, hbound, hfall⟩ hf hdead
    have hlap : ∀ i < places, live pvols' i = true →
        lap places c' i = lap places (next places c') i + 1 := by
      intro i hi hl
      refine lap_next hlt hi ?_
      rintro rfl
      rw [hdead] at hl
      cases hl
    rw [rtnDone_eq]
    refine ⟨next_lt hlt, fun _ => hdead, fun i hi hl => ?_, hfall.fewer hf rfl hlap⟩
    have hbound' : Bounded { vg' with pvols := pvols' }
        (fun i => lap places (next places c') i + 1) b := hbound.fewer hf rfl hlap
    have hle := hbound' i hi hl
    exact (Nat.add_le_add_left (Nat.le_add_right _ 1) _).trans hle
  · rintro k vg' c' - ⟨hlt, -, hbound, hfall⟩ -
    rw [rtnDone_eq]
    exact ⟨next_lt hlt, hbound.fewer (Fewer.refl _) rfl fun _ _ _ => rfl,
      hfall.fewer (Fewer.refl _) rfl fun _ _ _ => rfl⟩

end Aix413.Lvm.Wheel
