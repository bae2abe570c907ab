import Aix413.Lvm.WheelLedger

namespace Aix413.Lvm.Wheel

open Sched Lib.Circle Volgrp

variable {vg vg' : Volgrp} {pvols pvols' : Nat → Option Pvol} {c i j r : Nat} {u : Bool}
  {log : List Note} {d : Nat → VgsaArea}

/-! ## The sequence number -/

theorem seqOf_of_live (h : live pvols i = true) : ∃ q, seqOf pvols i = some q := by
  rw [live_iff] at h
  obtain ⟨pv, hp, -⟩ := h
  exact ⟨(pv.saArea (i % 2)).saSeqNum, by rw [seqOf, hp]; rfl⟩

theorem lagOf_eq {q w : UInt16} (hq : seqOf pvols i = some q) :
    lagOf pvols w i = (w - q).toNat := by
  unfold lagOf
  rw [hq]

theorem lagOf_bump {w : UInt16} (hl : live pvols i = true) (hb : lagOf pvols w i ≤ 65534) :
    lagOf pvols (w + 1) i = lagOf pvols w i + 1 := by
  obtain ⟨q, hq⟩ := seqOf_of_live hl
  rw [lagOf_eq hq] at hb ⊢
  rw [lagOf_eq hq]
  have hsub : w + 1 - q = w - q + 1 := by grind
  rw [hsub, UInt16.toNat_add]
  have hone : (1 : UInt16).toNat = 1 := rfl
  rw [hone]
  exact Nat.mod_eq_of_lt (by omega)

theorem lag_of_current (hs : vg.saSeq i = some vg.whlSeqNum) : vg.lag i = 0 := by
  unfold Volgrp.lag
  rw [lagOf_eq hs, UInt16.sub_self]
  rfl

theorem current_of_lag (hl : live vg.pvols i = true) (h : vg.lag i = 0) :
    vg.saSeq i = some vg.whlSeqNum := by
  obtain ⟨q, hq⟩ := seqOf_of_live hl
  unfold Volgrp.lag at h
  rw [lagOf_eq hq] at h
  have hsub : vg.whlSeqNum - q = 0 := UInt16.toNat_inj.mp h
  have heq : vg.whlSeqNum = q := by grind
  rw [heq]
  exact hq

/-! ## What the areas hold -/

/-- The image that is written to the area, when the note is that one was. -/
def Note.wrote? (i : Nat) : Note → Option VgsaArea
  | .wrote j img => if j = i then some img else none
  | _ => none

/-- What the area holds, where `d` was in the areas at first. -/
def imageAt (d : Nat → VgsaArea) (log : List Note) (i : Nat) : VgsaArea :=
  (log.findSome? (Note.wrote? i)).getD (d i)

theorem imageAt_append {ns : List Note} (h : ∀ n ∈ ns, n.wrote? i = none) :
    imageAt d (ns ++ log) i = imageAt d log i := by
  unfold imageAt
  rw [List.findSome?_append, List.findSome?_eq_none_iff.mpr h]
  rfl

theorem imageAt_cons {n : Note} (h : n.wrote? i = none) :
    imageAt d (n :: log) i = imageAt d log i := by
  have hall : ∀ m ∈ [n], m.wrote? i = none := fun m hm => by rw [List.mem_singleton.mp hm, h]
  exact imageAt_append hall

theorem imageAt_returns (pvols : Nat → Option Pvol) (gs : List (Nat × List Nat))
    (log : List Note) (i : Nat) : imageAt d (returns pvols gs ++ log) i = imageAt d log i := by
  refine imageAt_append fun n hn => ?_
  unfold returns at hn
  rw [List.mem_map] at hn
  obtain ⟨r, -, rfl⟩ := hn
  rfl

theorem imageAt_whladv (vg : Volgrp) (n c i : Nat) :
    imageAt d (whladv n vg c).1.log i = imageAt d vg.log i := by
  refine (whladv_rule (P := fun _ vg' _ => imageAt d vg'.log i = imageAt d vg.log i)
    (Q := fun vg' _ => imageAt d vg'.log i = imageAt d vg.log i) ?_ ?_ n 0 vg c (Nat.zero_add n)
    rfl).elim id id
  · intro _ vg' c' pvols' _ h _ _
    rw [rtnDone_eq]
    exact (imageAt_returns ..).trans h
  · intro _ vg' c' _ h _
    rw [rtnDone_eq]
    exact (imageAt_returns ..).trans h

/-! ## The pace of the wheel -/

/-- Sequence numbers and images where `hd_sa_cont` is called. `u` says that the
number has been bumped for what is not yet written. -/
structure Paced (d : Nat → VgsaArea) (vg : Volgrp) (u : Bool) : Prop where
  lt : vg.wheelIdx < places
  fresh : u = true → ∀ i < places, live vg.pvols i = true → vg.lag i ≠ 0
  room : Bounded vg (fun i => ahead places vg.wheelIdx i + (!u).toNat) 65535
  falling : Falling vg (ahead places vg.wheelIdx)
  disk : ∀ i < places, live vg.pvols i = true → vg.lag i = 0 → imageAt d vg.log i = vg.vgsa

/-- The same while a status area is being written. -/
structure Writing (d : Nat → VgsaArea) (vg : Volgrp) : Prop where
  lt : vg.wheelIdx < places
  room : Bounded vg (ahead places vg.wheelIdx) 65535
  falling : Falling vg (lap places vg.wheelIdx)
  zero : live vg.pvols vg.wheelIdx = true → vg.lag vg.wheelIdx = 0
  disk : ∀ i < places, i ≠ vg.wheelIdx → live vg.pvols i = true → vg.lag i = 0 →
    imageAt d vg.log i = vg.vgsa
  image : vg.written = vg.vgsa

theorem Paced.fewer (h : Paced d vg u) (hf : Fewer vg.pvols vg'.pvols)
    (hi : vg'.wheelIdx = vg.wheelIdx) (hw : vg'.whlSeqNum = vg.whlSeqNum)
    (hv : u = true ∨ vg'.vgsa = vg.vgsa) (hl : ∀ i, imageAt d vg'.log i = imageAt d vg.log i) :
    Paced d vg' u := by
  have hfresh : u = true → ∀ i < places, live vg'.pvols i = true → vg'.lag i ≠ 0 := by
    intro hu i hlt hlv
    rw [lag_congr (hf i hlv).2 hw]
    exact h.fresh hu i hlt (hf i hlv).1
  refine ⟨hi ▸ h.lt, hfresh, ?_, ?_, fun i hlt hlv h0 => ?_⟩
  · rw [hi]
    exact h.room.fewer hf hw fun _ _ _ => rfl
  · rw [hi]
    exact h.falling.fewer (k := 0) hf hw fun _ _ _ => rfl
  · rcases hv with hu | hv
    · exact absurd h0 (hfresh hu i hlt hlv)
    · rw [lag_congr (hf i hlv).2 hw] at h0
      rw [hl, hv]
      exact h.disk i hlt (hf i hlv).1 h0

/-- The number is bumped, and no area is current any more. -/
theorem lag_bump (hf : Fewer vg.pvols vg'.pvols) (hw : vg'.whlSeqNum = vg.whlSeqNum + 1)
    (hb : vg.lag i ≤ 65534) (hl : live vg'.pvols i = true) : vg'.lag i = vg.lag i + 1 := by
  obtain ⟨hl', hs⟩ := hf i hl
  unfold Volgrp.lag at hb ⊢
  rw [hw, lagOf_congr hs]
  exact lagOf_bump hl' hb

theorem Falling.bump {dist : Nat → Nat} (h : Falling vg dist) (hf : Fewer vg.pvols vg'.pvols)
    (hlag : ∀ i < places, live vg'.pvols i = true → vg'.lag i = vg.lag i + 1) :
    Falling vg' dist := by
  intro i hi j hj hli hlj hle
  rw [hlag i hi hli, hlag j hj hlj]
  exact Nat.add_le_add_right (h i hi j hj (hf i hli).1 (hf j hlj).1 hle) 1

theorem Paced.bump (h : Paced d vg false) (hf : Fewer vg.pvols vg'.pvols)
    (hi : vg'.wheelIdx = vg.wheelIdx) (hw : vg'.whlSeqNum = vg.whlSeqNum + 1) :
    Paced d vg' true := by
  have hroom : ∀ i < places, live vg'.pvols i = true →
      vg.lag i + ahead places vg.wheelIdx i + 1 ≤ 65535 := fun i hlt hl =>
    h.room i hlt (hf i hl).1
  have hlag : ∀ i < places, live vg'.pvols i = true → vg'.lag i = vg.lag i + 1 := by
    intro i hlt hl
    have hle := hroom i hlt hl
    exact lag_bump hf hw (by omega) hl
  have hfresh : ∀ i < places, live vg'.pvols i = true → vg'.lag i ≠ 0 := by
    intro i hlt hl
    rw [hlag i hlt hl]
    omega
  refine ⟨hi ▸ h.lt, fun _ => hfresh, fun i hlt hl => ?_, ?_, fun i hlt hl h0 =>
    absurd h0 (hfresh i hlt hl)⟩
  · have hle := hroom i hlt hl
    rw [hlag i hlt hl, hi]
    simp only [Bool.not_true, Bool.toNat_false]
    omega
  · rw [hi]
    exact h.falling.bump hf hlag

/-! ### The hold list is moved -/

theorem Paced.ride (h : Paced d vg u) (hd r : Nat) : Paced d (ride vg hd r) u :=
  h.fewer (Fewer.refl _) rfl rfl (.inr rfl) fun _ => imageAt_cons rfl

theorem Paced.putNew (h : Paced d vg u) (r : Nat) : Paced d (putNew u vg r) true := by
  have hf := fewer_putNew u vg r
  cases u with
  | true =>
    refine h.fewer hf (by rw [putNew_eq]) (by rw [putNew_eq]; rfl) (.inl rfl) fun i => ?_
    rw [putNew_eq]
    exact imageAt_cons rfl
  | false => exact h.bump hf (by rw [putNew_eq]) (by rw [putNew_eq]; rfl)

theorem paced_moveHold (h : Paced d vg u) (rs : List Nat) :
    ∃ u', Paced d (moveHold rs u vg).1 u' ∧ (u = true ∨ (moveHold rs u vg).2 ≠ [] → u' = true) := by
  have hrule := moveHold_rule
    (P := fun _ u' vg' new => Paced d vg' u' ∧ (u = true ∨ new ≠ [] → u' = true)) ?_ ?_ rs u vg []
    ⟨h, fun hu => hu.resolve_right fun hn => hn rfl⟩
  · exact hrule
  · rintro r rs u' vg' new hd ⟨hp, hu⟩ -
    exact ⟨hp.ride hd r, hu⟩
  · rintro r rs u' vg' new ⟨hp, -⟩ -
    exact ⟨hp.putNew r, fun _ => rfl⟩

/-! ### Requests are queued -/

/-- Requests are put on the hold list. -/
structure Still (vg vg' : Volgrp) : Prop where
  eq : vg' = { vg with pbuf := vg'.pbuf, saHldLst := vg'.saHldLst, log := vg'.log }
  pbuf : ∀ r ∈ members vg.saActLst, vg'.pbuf r = vg.pbuf r
  log : ∃ ns, vg'.log = ns ++ vg.log ∧ ∀ n ∈ ns, ∃ r, n = .taken r

theorem Still.refl (vg : Volgrp) : Still vg vg :=
  ⟨rfl, fun _ _ => rfl, [], rfl, fun _ h => absurd h List.not_mem_nil⟩

theorem Still.act (h : Still vg vg') : vg'.saActLst = vg.saActLst := by rw [h.eq]

theorem Still.trans {vg'' : Volgrp} (h : Still vg vg') (h' : Still vg' vg'') : Still vg vg'' := by
  obtain ⟨ns, hl, hn⟩ := h.log
  obtain ⟨ns', hl', hn'⟩ := h'.log
  refine ⟨?_, fun r hr => ?_, ns' ++ ns, ?_, fun n hm => ?_⟩
  · rw [h'.eq, h.eq]
  · rw [h'.pbuf r (h.act ▸ hr), h.pbuf r hr]
  · rw [hl', hl, List.append_assoc]
  · exact (List.mem_append.mp hm).elim (hn' n) (hn n)

theorem still_queue (vg : Volgrp) (p : Nat × Pbuf) : Still vg (queue vg p) := by
  unfold queue
  split
  next => exact Still.refl vg
  next hq =>
    rw [not_or] at hq
    refine ⟨rfl, fun r hr => ?_, [.taken p.1], rfl, fun n hn => ⟨p.1, List.mem_singleton.mp hn⟩⟩
    refine Function.update_of_ne ?_ _ _
    rintro rfl
    exact hq.2 ((onWheel_iff vg p.1).mpr (List.mem_append_right _ hr))

theorem still_foldl_queue (again : List (Nat × Pbuf)) (vg : Volgrp) :
    Still vg (again.foldl queue vg) := by
  induction again generalizing vg with
  | nil => exact Still.refl vg
  | cons p again ih => exact (still_queue vg p).trans (ih _)

theorem Still.imageAt (h : Still vg vg') (i : Nat) :
    imageAt d vg'.log i = imageAt d vg.log i := by
  obtain ⟨ns, hl, hn⟩ := h.log
  rw [hl]
  refine imageAt_append fun n hm => ?_
  obtain ⟨r, rfl⟩ := hn n hm
  rfl

theorem Still.fewer (h : Still vg vg') : Fewer vg.pvols vg'.pvols := by
  rw [h.eq]
  exact Fewer.refl _

theorem Paced.still (h : Paced d vg u) (hs : Still vg vg') : Paced d vg' u :=
  h.fewer hs.fewer (by rw [hs.eq]) (by rw [hs.eq]) (.inr (by rw [hs.eq])) hs.imageAt

theorem Writing.still (h : Writing d vg) (hs : Still vg vg') : Writing d vg' := by
  obtain ⟨hlt, hroom, hfall, hzero, hdisk, himage⟩ := h
  have himg := fun i => hs.imageAt (d := d) i
  rw [hs.eq] at himg ⊢
  exact ⟨hlt, hroom, hfall, hzero, fun i hi hne hl h0 => (himg i).trans (hdisk i hi hne hl h0),
    himage⟩

/-! ### The index is advanced -/

/-- `hd_sa_whladv` is the advance, and requests that are queued meanwhile. -/
theorem still_hdSaWhladv (vg : Volgrp) (again : List (Nat × Pbuf)) :
    let r := whladv places vg vg.wheelIdx
    Still { r.1 with wheelIdx := r.2 } (hdSaWhladv vg again) := by
  intro r
  unfold hdSaWhladv
  simp only
  split
  next => exact still_foldl_queue again _
  next => exact Still.refl _

/-- There is an area at the index or none at all. -/
def Stands (vg : Volgrp) : Prop :=
  live vg.pvols vg.wheelIdx = true ∨ ∀ i < places, live vg.pvols i = false

theorem stands_hdSaWhladv (hc : vg.wheelIdx < places) (again : List (Nat × Pbuf)) :
    Stands (hdSaWhladv vg again) := by
  have hlive := whladv_live vg hc
  unfold Stands
  rw [(still_hdSaWhladv vg again).eq]
  exact hlive

/-- What an advance from `vg` does to sequence numbers and images, where the areas
are at most `b` behind. -/
theorem paced_hdSaWhladv {b : Nat} (hc : vg.wheelIdx < places)
    (hb : Bounded vg (lap places vg.wheelIdx) b) (hu : b ≤ 65535 + u.toNat)
    (hfresh : u = true → ∀ i < places, live vg.pvols i = true → vg.lag i ≠ 0)
    (ho : Falling vg (lap places vg.wheelIdx))
    (hd : ∀ i < places, live vg.pvols i = true → vg.lag i = 0 → imageAt d vg.log i = vg.vgsa)
    (again : List (Nat × Pbuf)) : Paced d (hdSaWhladv vg again) u := by
  obtain ⟨hlt, hbound, hfall⟩ := whladv_pace hc hb ho
  have hadv := advanced_whladv vg places vg.wheelIdx
  refine Paced.still ⟨hlt, ?_, ?_, hfall, ?_⟩ (still_hdSaWhladv vg again)
  · intro h i hi hl
    obtain ⟨hl', hs⟩ := hadv.fewer i hl
    exact fun h0 => hfresh h i hi hl' ((lag_congr hs hadv.whlSeqNum).symm.trans h0)
  · intro i hi hl
    have hle := hbound i hi hl
    change lagOf _ _ i + (ahead places _ i + (!u).toNat) ≤ 65535
    change lagOf _ _ i + (ahead places _ i + 1) ≤ b at hle
    cases u with
    | true =>
      simp only [Bool.toNat_true, Bool.not_true, Bool.toNat_false] at hu ⊢
      omega
    | false =>
      simp only [Bool.toNat_false, Bool.not_false, Bool.toNat_true] at hu ⊢
      omega
  · intro i hi hl h0
    obtain ⟨hl', hs⟩ := hadv.fewer i hl
    have h0' := (lag_congr hs hadv.whlSeqNum).symm.trans h0
    change imageAt d (whladv places vg vg.wheelIdx).1.log i =
      (whladv places vg vg.wheelIdx).1.vgsa
    rw [imageAt_whladv, hd i hi hl' h0', hadv.eq]

/-- Where there is no area to write, all areas are ahead. -/
theorem lap_of_dead (hc : c < places) (hd : live vg.pvols c = false) (hi : i < places)
    (hl : live vg.pvols i = true) : lap places c i = ahead places c i := by
  refine lap_of_ne hc hi ?_
  rintro rfl
  rw [hd] at hl
  cases hl

theorem paced_findArea (h : Paced d vg u) (again : List (Nat × Pbuf)) :
    Paced d (findArea vg again) u ∧ Stands (findArea vg again) := by
  unfold findArea
  split
  next hl => exact ⟨h, .inl hl⟩
  next hl =>
    rw [Bool.not_eq_true] at hl
    have hlap := fun i hi hli => lap_of_dead h.lt hl (i := i) hi hli
    refine ⟨paced_hdSaWhladv h.lt (b := 65535) ?_ (Nat.le_add_right _ _) h.fresh ?_ h.disk again,
      stands_hdSaWhladv h.lt again⟩
    · intro i hi hli
      have hle := h.room i hi hli
      rw [hlap i hi hli]
      exact (Nat.le_add_right _ _).trans ((Nat.add_assoc ..).le.trans hle)
    · refine h.falling.fewer (k := 0) (Fewer.refl _) rfl fun i hi hli => ?_
      exact (hlap i hi hli).symm

/-- An area at the index that is current can only be met when no new number was
given. -/
theorem Paced.current (h : Paced d vg u) (hs : Stands vg)
    (h0 : live vg.pvols vg.wheelIdx = true → vg.lag vg.wheelIdx = 0) :
    Paced d vg false ∧ ∀ i < places, live vg.pvols i = true → vg.lag i = 0 := by
  rcases hs with hl | hnone
  · have hu : u = false := by
      by_contra hne
      rw [Bool.not_eq_false] at hne
      exact h.fresh hne _ h.lt hl (h0 hl)
    refine ⟨hu ▸ h, fun i hi hli => ?_⟩
    have hle := h.falling vg.wheelIdx h.lt i hi hl hli (by rw [ahead_self]; exact Nat.zero_le _)
    rw [h0 hl] at hle
    exact Nat.le_zero.mp hle
  · have hno : ∀ i < places, live vg.pvols i = true → False := fun i hi hli => by
      rw [hnone i hi] at hli
      cases hli
    exact ⟨⟨h.lt, fun _ i hi hl => (hno i hi hl).elim, fun i hi hl => (hno i hi hl).elim, h.falling,
      h.disk⟩, fun i hi hl => (hno i hi hl).elim⟩

/-! ### Areas are written -/

theorem lag_hdSaWrt {pv : Pvol} (hp : vg.pvols (vg.wheelIdx / 2) = some pv) (i : Nat) :
    (hdSaWrt vg).lag i = if i = vg.wheelIdx then 0 else vg.lag i := by
  unfold hdSaWrt Volgrp.lag lagOf
  simp only [hp]
  rw [seqOf_setArea hp]
  by_cases hi : i = vg.wheelIdx
  · rw [if_pos hi, if_pos hi]
    change (vg.whlSeqNum - vg.whlSeqNum).toNat = 0
    rw [UInt16.sub_self]
    rfl
  · rw [if_neg hi, if_neg hi]
    rfl

theorem live_hdSaWrt (vg : Volgrp) (i : Nat) :
    live (hdSaWrt vg).pvols i = live vg.pvols i := by
  unfold hdSaWrt
  simp only
  cases hp : vg.pvols (vg.wheelIdx / 2) with
  | none => rfl
  | some pv =>
    simp only
    rw [live_setArea hp]
    by_cases hi : i = vg.wheelIdx
    · rw [if_pos hi, hi]
      unfold live
      rw [hp]
    · rw [if_neg hi]

theorem Paced.wrt (h : Paced d vg u) {pv : Pvol} (hp : vg.pvols (vg.wheelIdx / 2) = some pv) :
    Writing d (hdSaWrt vg) := by
  have hidx : (hdSaWrt vg).wheelIdx = vg.wheelIdx := by rw [hdSaWrt_frame]
  have hlog : (hdSaWrt vg).log = vg.log := by rw [hdSaWrt_frame]
  have hvgsa : (hdSaWrt vg).vgsa = vg.vgsa := by rw [hdSaWrt_frame]
  refine ⟨hidx ▸ h.lt, fun i hi hl => ?_, fun i hi j hj hli hlj hle => ?_, fun _ => ?_,
    fun i hi hne hl h0 => ?_, ?_⟩
  · rw [live_hdSaWrt] at hl
    rw [lag_hdSaWrt hp, hidx]
    have hle := h.room i hi hl
    have hlt := ahead_lt h.lt hi
    have hmax : places ≤ 65535 := by decide
    change vg.lag i + (ahead places vg.wheelIdx i + (!u).toNat) ≤ 65535 at hle
    split
    next => omega
    next => omega
  · rw [live_hdSaWrt] at hli hlj
    rw [lag_hdSaWrt hp, lag_hdSaWrt hp]
    rw [hidx] at hle
    by_cases hj' : j = vg.wheelIdx
    · rw [if_pos hj']
      exact Nat.zero_le _
    · have hlapj := lap_of_ne h.lt hj hj'
      by_cases hi' : i = vg.wheelIdx
      · -- the one written is the last to come to
        have hlt := ahead_lt h.lt hj
        rw [hi', lap_self h.lt, hlapj] at hle
        omega
      · rw [if_neg hj', if_neg hi']
        rw [lap_of_ne h.lt hi hi', hlapj] at hle
        exact h.falling i hi j hj hli hlj hle
  · rw [lag_hdSaWrt hp, if_pos hidx]
  · rw [live_hdSaWrt] at hl
    rw [hidx] at hne
    rw [lag_hdSaWrt hp, if_neg hne] at h0
    rw [hlog, hvgsa]
    exact h.disk i hi hl h0
  · unfold hdSaWrt
    simp only [hp]
    rfl

/-- The write is done. -/
theorem Writing.bounded (h : Writing d vg) : Bounded vg (lap places vg.wheelIdx) 65535 := by
  intro i hi hl
  have hle := h.room i hi hl
  by_cases hi' : i = vg.wheelIdx
  · rw [hi', lap_self h.lt, h.zero (hi' ▸ hl)]
    decide
  · rw [lap_of_ne h.lt hi hi']
    exact hle

theorem Writing.wrote (h : Writing d vg) (again : List (Nat × Pbuf)) :
    Paced d (hdSaWhladv (vg.note (.wrote vg.wheelIdx vg.written)) again) false := by
  have hlt : (vg.note (.wrote vg.wheelIdx vg.written)).wheelIdx < places := h.lt
  refine paced_hdSaWhladv (b := 65535) hlt h.bounded (Nat.le_add_right _ _)
    (fun hu => absurd hu Bool.false_ne_true) h.falling (fun i hi hl h0 => ?_) again
  change imageAt d (.wrote vg.wheelIdx vg.written :: vg.log) i = vg.vgsa
  unfold imageAt
  by_cases hi' : i = vg.wheelIdx
  · rw [List.findSome?_cons_of_isSome (by simp [Note.wrote?, hi'])]
    simp only [Note.wrote?, hi', if_true, Option.getD_some]
    exact h.image
  · have hne : vg.wheelIdx ≠ i := Ne.symm hi'
    rw [List.findSome?_cons_of_isNone (by simp [Note.wrote?, hne])]
    exact h.disk i hi hi' hl h0

/-- The volume is marked missing and the other areas are a number further behind. -/
theorem Writing.lag_failed (h : Writing d vg) (hi : i < places)
    (hl : live (failed vg).pvols i = true) :
    (failed vg).lag i = vg.lag i + 1 ∧ vg.lag i + ahead places vg.wheelIdx i ≤ 65535 ∧
      i ≠ vg.wheelIdx := by
  have hf : Fewer vg.pvols (failed vg).pvols := by
    rw [failed_eq]
    exact fewer_setMissing vg _
  have hne : i ≠ vg.wheelIdx := by
    rintro rfl
    rw [failed_eq] at hl
    have hdead := dead_setMissing vg (i := vg.wheelIdx) (n := vg.wheelIdx / 2) rfl
    rw [← Bool.not_eq_true] at hdead
    exact hdead hl
  have hle := h.room i hi (hf i hl).1
  have hpos : ahead places vg.wheelIdx i ≠ 0 := fun h0 => hne ((ahead_eq_zero h.lt).mp h0)
  exact ⟨lag_bump hf (by rw [failed_eq]) (by omega) hl, hle, hne⟩

theorem Writing.failed (h : Writing d vg) (again : List (Nat × Pbuf)) :
    Paced d (hdSaWhladv (failed vg) again) true := by
  have hf : Fewer vg.pvols (Wheel.failed vg).pvols := by
    rw [failed_eq]
    exact fewer_setMissing vg _
  have hidx : (Wheel.failed vg).wheelIdx = vg.wheelIdx := by rw [failed_eq]
  have hfresh : ∀ i < places, live (Wheel.failed vg).pvols i = true →
      (Wheel.failed vg).lag i ≠ 0 := by
    intro i hi hl
    rw [(h.lag_failed hi hl).1]
    omega
  refine paced_hdSaWhladv (b := 65536) (hidx ▸ h.lt) (fun i hi hl => ?_) le_rfl (fun _ => hfresh)
    ?_ (fun i hi hl h0 => absurd h0 (hfresh i hi hl)) again
  · obtain ⟨hlag, hle, hne⟩ := h.lag_failed hi hl
    rw [hlag, hidx, lap_of_ne h.lt hi hne]
    omega
  · rw [hidx]
    exact h.falling.bump hf fun i hi hl => (h.lag_failed hi hl).1

/-! ## Between the steps -/

theorem hdSaWhladv_frame (vg : Volgrp) (again : List (Nat × Pbuf)) :
    hdSaWhladv vg again =
      { vg with
        pvols := (hdSaWhladv vg again).pvols
        saActLst := (hdSaWhladv vg again).saActLst
        wheelIdx := (hdSaWhladv vg again).wheelIdx
        pbuf := (hdSaWhladv vg again).pbuf
        saHldLst := (hdSaWhladv vg again).saHldLst
        log := (hdSaWhladv vg again).log } := by
  rw [(still_hdSaWhladv vg again).eq, (advanced_whladv vg places vg.wheelIdx).eq]

theorem findArea_frame (vg : Volgrp) (again : List (Nat × Pbuf)) :
    findArea vg again =
      { vg with
        pvols := (findArea vg again).pvols
        saActLst := (findArea vg again).saActLst
        wheelIdx := (findArea vg again).wheelIdx
        pbuf := (findArea vg again).pbuf
        saHldLst := (findArea vg again).saHldLst
        log := (findArea vg again).log } := by
  unfold findArea
  split
  next => rfl
  next => exact hdSaWhladv_frame vg again

theorem closeWheel_frame (vg : Volgrp) :
    closeWheel vg =
      { vg with
        saActLst := []
        saWhlAct := false
        saWhlHld := false
        pbuf := (closeWheel vg).pbuf
        log := (closeWheel vg).log } := by
  have hframe := foldl_hdSaRtn_frame vg.saActLst { vg with saActLst := [] }
  unfold closeWheel
  simp only at hframe ⊢
  rw [hframe]

theorem writeNext_frame (vg : Volgrp) :
    writeNext vg =
      { vg with
        pvols := (writeNext vg).pvols
        written := (writeNext vg).written
        saWhlAct := (writeNext vg).saWhlAct
        log := (writeNext vg).log } := by
  unfold writeNext
  split
  next => rfl
  next =>
    split
    next => rw [hdSaWrt_frame]
    next => rfl

/-- The volume group between two steps of a run. -/
structure Between (d : Nat → VgsaArea) (vg : Volgrp) : Prop where
  configWait : vg.configWait = false
  saWhlHld : vg.saWhlHld = false
  ledger : Ledger vg
  closed : vg.forcedoff = true → vg.saWhlAct = false ∧ onList vg = []
  idle : vg.forcedoff = false → vg.saWhlAct = false →
    Paced d vg false ∧ ∀ i < places, live vg.pvols i = true → vg.lag i = 0
  rolling : vg.forcedoff = false → vg.saWhlAct = true → .crashed ∉ vg.log → Writing d vg

theorem between_writeNext (hcw : vg.configWait = false) (hhld : vg.saWhlHld = false)
    (hact : vg.saWhlAct = true) (hoff : vg.forcedoff = false) (hled : Ledger vg)
    (hp : Paced d vg u) (hs : Stands vg) : Between d (writeNext vg) := by
  have hoff' : (writeNext vg).forcedoff = false := by rw [writeNext_frame]; exact hoff
  refine ⟨by rw [writeNext_frame]; exact hcw, by rw [writeNext_frame]; exact hhld,
    ledger_writeNext hled, fun h => ?_, fun _ h => ?_, fun _ h hcr => ?_⟩
  · rw [hoff'] at h
    cases h
  · revert h
    unfold writeNext
    cases hq : vg.saSeq vg.wheelIdx with
    | none =>
      intro h
      have htrue : vg.saWhlAct = false := h
      rw [hact] at htrue
      cases htrue
    | some q =>
      simp only
      split
      next =>
        intro h
        rw [hdSaWrt_frame] at h
        have htrue : vg.saWhlAct = false := h
        rw [hact] at htrue
        cases htrue
      next heq =>
        intro _
        have heq' : vg.whlSeqNum = q := not_not.mp heq
        obtain ⟨hpf, hall⟩ := hp.current hs fun _ => lag_of_current (heq' ▸ hq)
        exact ⟨⟨hpf.lt, hpf.fresh, hpf.room, hpf.falling, hpf.disk⟩, hall⟩
  · revert h hcr
    unfold writeNext
    cases hq : vg.saSeq vg.wheelIdx with
    | none => exact fun _ hcr => absurd List.mem_cons_self hcr
    | some q =>
      simp only
      split
      next =>
        intro _ _
        have hpv : ∃ pv, vg.pvols (vg.wheelIdx / 2) = some pv := by
          unfold saSeq at hq
          rw [Option.map_eq_some_iff] at hq
          obtain ⟨pv, hpv, -⟩ := hq
          exact ⟨pv, hpv⟩
        obtain ⟨pv, hpv⟩ := hpv
        exact hp.wrt hpv
      next =>
        intro h
        cases h

theorem between_turnWheel {m : Volgrp × List Nat} (hcw : m.1.configWait = false)
    (hhld : m.1.saWhlHld = false) (hact : m.1.saWhlAct = true) (hnil : m.1.saHldLst = [])
    (hled : Ledger m.1) (hp : Paced d m.1 u) (again : List (Nat × Pbuf)) :
    Between d (turnWheel m again) := by
  have hledger := ledger_turnWheel hled again
  unfold turnWheel at hledger ⊢
  split
  next hoff =>
    rw [if_pos hoff] at hledger
    rw [closeWheel_frame] at hledger ⊢
    refine ⟨hcw, rfl, hledger, fun _ => ⟨rfl, ?_⟩, fun h => ?_, fun h => ?_⟩
    · unfold onList
      rw [hnil]
      rfl
    · exact absurd (hoff.symm.trans h) (by decide)
    · exact absurd (hoff.symm.trans h) (by decide)
  next hoff =>
    rw [Bool.not_eq_true] at hoff
    obtain ⟨hpaced, hstands⟩ := paced_findArea hp again
    have hfind := findArea_frame m.1 again
    have hled' : Ledger (findArea m.1 again) := by
      unfold findArea
      split
      next => exact hled
      next => exact ledger_hdSaWhladv hled again
    rw [setStops_frame]
    refine between_writeNext (u := u) ?_ ?_ ?_ ?_ hled' ⟨hpaced.lt, hpaced.fresh, hpaced.room,
      hpaced.falling, hpaced.disk⟩ hstands
    · rw [hfind]
      exact hcw
    · rw [hfind]
      exact hhld
    · rw [hfind]
      exact hact
    · rw [hfind]
      exact hoff

/-- The active list where `hd_sa_cont` has moved the hold list there. -/
def movedList (vg : Volgrp) (u : Bool) : Volgrp × List Nat :=
  moveHold vg.saHldLst u { vg with saHldLst := [] }

theorem hdSaCont_eq (hcw : vg.configWait = false) (u : Bool) (again : List (Nat × Pbuf)) :
    hdSaCont vg u again = turnWheel (movedList vg u) again := by
  unfold hdSaCont
  rw [if_neg (by rw [hcw]; decide)]
  rfl

theorem movedList_frame (vg : Volgrp) (u : Bool) :
    (movedList vg u).1 =
      { vg with
        saHldLst := []
        pvols := (movedList vg u).1.pvols
        vgsa := (movedList vg u).1.vgsa
        quorumCnt := (movedList vg u).1.quorumCnt
        forcedoff := (movedList vg u).1.forcedoff
        whlSeqNum := (movedList vg u).1.whlSeqNum
        saActLst := (movedList vg u).1.saActLst
        log := (movedList vg u).1.log } :=
  (moved_moveHold vg.saHldLst u { vg with saHldLst := [] }).eq

theorem ledger_movedList (h : Ledger vg) (u : Bool) : Ledger (movedList vg u).1 := by
  have hm := ledger_moveHold h u rfl
  unfold Ledger onList
  rw [movedList_frame]
  exact hm

theorem between_hdSaCont (hcw : vg.configWait = false) (hhld : vg.saWhlHld = false)
    (hact : vg.saWhlAct = true) (hled : Ledger vg) (hp : Paced d vg u)
    (again : List (Nat × Pbuf)) : Between d (hdSaCont vg u again) := by
  have hstart : Paced d { vg with saHldLst := [] } u :=
    ⟨hp.lt, hp.fresh, hp.room, hp.falling, hp.disk⟩
  obtain ⟨u', hmove, -⟩ := paced_moveHold hstart vg.saHldLst
  have hframe := movedList_frame vg u
  rw [hdSaCont_eq hcw]
  refine between_turnWheel ?_ ?_ ?_ ?_ (ledger_movedList hled u) (u := u') hmove again
  · rw [hframe]
    exact hcw
  · rw [hframe]
    exact hhld
  · rw [hframe]
    exact hact
  · rw [hframe]

/-- What happens to a request that is handed in. -/
theorem step_cases (hhld : vg.saWhlHld = false) (a : Act) :
    step vg a = vg ∨
      (∃ p again, a = .strt p again ∧ vg.forcedoff = false ∧ step vg a = queue vg p ∧
        vg.saWhlAct = true) ∨
      (∃ p again, a = .strt p again ∧ vg.forcedoff = false ∧ vg.saWhlAct = false ∧
        step vg a = hdSaCont { queue vg p with saWhlAct := true } false again) ∨
      ∃ e again again', a = .iodone e again again' := by
  cases a with
  | iodone e again again' => exact .inr (.inr (.inr ⟨e, again, again', rfl⟩))
  | strt p again =>
    have hq := (still_queue vg p).eq
    by_cases hoff : vg.forcedoff = true
    · refine .inl ?_
      change hdSaStrt vg (some p) again = vg
      unfold hdSaStrt
      rw [if_pos hoff]
    · have hstep : step vg (.strt p again) = startWheel (queue vg p) again := by
        change hdSaStrt vg (some p) again = _
        unfold hdSaStrt
        rw [if_neg hoff]
      rw [Bool.not_eq_true] at hoff
      have hflags : (queue vg p).saWhlAct = vg.saWhlAct ∧ (queue vg p).saWhlHld = false := by
        rw [hq]
        exact ⟨rfl, hhld⟩
      unfold startWheel at hstep
      by_cases hact : vg.saWhlAct = true
      · rw [if_neg fun h => by rw [hflags.1, hact] at h; exact absurd h.1 (by decide)] at hstep
        exact .inr (.inl ⟨p, again, rfl, hoff, hstep, hact⟩)
      · rw [Bool.not_eq_true] at hact
        rw [if_pos ⟨hflags.1.trans hact, hflags.2⟩] at hstep
        exact .inr (.inr (.inl ⟨p, again, rfl, hoff, hact, hstep⟩))

theorem Between.step (h : Between d vg) (hcr : .crashed ∉ vg.log) {a : Act}
    (ha : able vg a = true) : Between d (step vg a) := by
  rcases step_cases h.saWhlHld a with heq | ⟨p, again, rfl, hoff, heq, hact⟩ |
    ⟨p, again, rfl, hoff, hact, heq⟩ | ⟨e, again, again', rfl⟩
  · rw [heq]
    exact h
  · rw [heq]
    have hs := still_queue vg p
    have hled := ledger_queue h.ledger p
    have hact' : (queue vg p).saWhlAct = true := by rw [hs.eq]; exact hact
    have hoff' : (queue vg p).forcedoff = false := by rw [hs.eq]; exact hoff
    refine ⟨by rw [hs.eq]; exact h.configWait, by rw [hs.eq]; exact h.saWhlHld, hled, fun hc => ?_,
      fun _ hi => ?_, fun _ _ _ => (h.rolling hoff hact hcr).still hs⟩
    · rw [hoff'] at hc
      cases hc
    · rw [hact'] at hi
      cases hi
  · rw [heq]
    have hs := still_queue vg p
    have hp := (h.idle hoff hact).1.still hs
    have hcw : ({ queue vg p with saWhlAct := true } : Volgrp).configWait = false := by
      rw [hs.eq]
      exact h.configWait
    have hhld : ({ queue vg p with saWhlAct := true } : Volgrp).saWhlHld = false := by
      rw [hs.eq]
      exact h.saWhlHld
    exact between_hdSaCont hcw hhld rfl (ledger_queue h.ledger p)
      ⟨hp.lt, hp.fresh, hp.room, hp.falling, hp.disk⟩ again
  · have hact : vg.saWhlAct = true := ha
    have hoff : vg.forcedoff = false := by
      by_contra hne
      rw [Bool.not_eq_false] at hne
      rw [(h.closed hne).1] at hact
      cases hact
    have hw := h.rolling hoff hact hcr
    cases e with
    | true =>
      have hframe := hdSaWhladv_frame (failed vg) again
      refine between_hdSaCont ?_ ?_ ?_ (ledger_hdSaWhladv ?_ again) (hw.failed again) again'
      · rw [hframe, failed_eq]
        exact h.configWait
      · rw [hframe, failed_eq]
        exact h.saWhlHld
      · rw [hframe, failed_eq]
        exact hact
      · rw [failed_eq]
        exact h.ledger
    | false =>
      have hframe := hdSaWhladv_frame (vg.note (.wrote vg.wheelIdx vg.written)) again
      refine between_hdSaCont ?_ ?_ ?_ (ledger_hdSaWhladv ?_ again) (hw.wrote again) again'
      · rw [hframe]
        exact h.configWait
      · rw [hframe]
        exact h.saWhlHld
      · rw [hframe]
        exact hact
      · exact Balanced.note h.ledger (fun _ => rfl) fun _ => rfl

theorem Initial.between (h : Initial vg)
    (hd : ∀ i < places, live vg.pvols i = true → d i = vg.vgsa) : Between d vg := by
  have hlag : ∀ i < places, live vg.pvols i = true → vg.lag i = 0 := fun i hi hl =>
    lag_of_current (h.current i hi hl)
  have hled : Ledger vg := by
    unfold Ledger onList
    rw [h.saHldLst, h.saActLst, h.log]
    exact ⟨List.nodup_nil, fun _ => rfl⟩
  refine ⟨h.configWait, h.saWhlHld, hled, fun hc => ?_,
    fun _ _ => ⟨⟨h.wheelIdx, fun hu => ?_, ?_, ?_, ?_⟩, hlag⟩, fun _ ha => ?_⟩
  · rw [h.forcedoff] at hc
    cases hc
  · cases hu
  · intro i hi hl
    have hlt := ahead_lt h.wheelIdx hi
    have hmax : places = 64 := rfl
    rw [hlag i hi hl]
    change 0 + (ahead places vg.wheelIdx i + 1) ≤ 65535
    omega
  · intro i hi j hj hli hlj _
    rw [hlag i hi hli, hlag j hj hlj]
  · intro i hi hl _
    rw [h.log]
    exact hd i hi hl
  · rw [h.saWhlAct] at ha
    cases ha

theorem Runs.mono {vg₀ : Volgrp} {ok ok' : Volgrp → Act → Prop} (h : Runs ok vg₀ vg)
    (hok : ∀ vg a, ok vg a → ok' vg a) : Runs ok' vg₀ vg := by
  induction h with
  | start => exact .start
  | step _ hcr ha hs ih => exact ih.step hcr ha (hok _ _ hs)

theorem Runs.between {vg₀ : Volgrp} {ok : Volgrp → Act → Prop} (h : Runs ok vg₀ vg)
    (hi : Initial vg₀) (hd : ∀ i < places, live vg₀.pvols i = true → d i = vg₀.vgsa) :
    Between d vg := by
  induction h with
  | start => exact hi.between hd
  | step _ hcr ha _ ih => exact ih.step hcr ha

end Aix413.Lvm.Wheel
