import Aix413.Lvm.MirrorQueues

namespace Aix413.Lvm.Mwc

/-! ## The record on the volumes -/

/-- The copies of a track group. -/
def Layout.copiesOf (v : Layout) (minor : Nat) (ltg : BitVec 32) : List (Option Pv) :=
  v.copies minor (ltg >>> (v.partshift - (trkShift + bppgShift)))

/-- All requests for a track group touch the same copies. -/
theorem copies_eq (v : Layout) (s : State) (lb : Lb) :
    s.copies v lb = v.copiesOf (s.buf lb).bDev (blk2trk (s.buf lb).bBlkno) := by
  have hshift : trkShift + bppgShift + (v.partshift - (trkShift + bppgShift)) = v.partshift :=
    Nat.add_sub_cancel' v.trk_le
  unfold State.copies Layout.copiesOf State.minor blk2part blk2trk
  rw [← BitVec.shiftRight_add, hshift]

/-- The volumes that hold a copy of the track group of an entry, or of a request. -/
def Layout.Has (v : Layout) (minor : Nat) (ltg : BitVec 32) (w : Volumes) (p : Pv) : Prop :=
  some p ∈ v.copiesOf minor ltg ∧ w.missing p = false

/-- The record is on its way to all volumes that need it. `k` cache writes have
come back and are not yet deducted. -/
structure Recorded (v : Layout) (c : Cache) (w : Volumes) (k : Nat) : Prop where
  snapshot : ∀ {p r}, w.flight p = some r → r = c.part1
  wheel : ∀ {p}, w.onWheel p = true → w.missing p = true ∧ w.flight p = none
  busy : w.infltCnt = (Finset.univ.filter fun p => w.flight p ≠ none ∨ w.onWheel p = true).card + k
  inflt : 0 < w.infltCnt → w.inflt = true ∧ w.vgact = false ∧ ∀ p, w.caPvWrt p = false
  reserved : w.cleaner = .reserved ∨ w.cleaner = .written →
    w.infltCnt = 0 ∧ w.inflt = true ∧ w.vgact = false
  written : ∀ {e}, c.InUse e → c.state e = .canochg →
    ∀ p, v.Has (c.part1 e).lvMinor (c.part1 e).lvLtg w p → w.disk p e = c.part1 e
  changing : ∀ {e}, c.InUse e → c.state e = .cachg →
    ∀ p, v.Has (c.part1 e).lvMinor (c.part1 e).lvLtg w p →
      w.disk p e = c.part1 e ∨ w.caPvWrt p = true ∨ w.flight p ≠ none

namespace Recorded

variable {v : Layout} {c d : Cache} {w : Volumes} {k : Nat} {p : Pv} {e : Ptr}

theorem quiet (h : Recorded v c w 0) (h0 : w.infltCnt = 0) (p : Pv) :
    w.flight p = none ∧ w.onWheel p = false := by
  have hb := h.busy
  rw [h0, add_zero] at hb
  have hp := Finset.filter_eq_empty_iff.mp (Finset.card_eq_zero.mp hb.symm) (Finset.mem_univ p)
  push Not at hp
  simpa using hp

theorem idle (h : Recorded v c w k) (hi : w.inflt = false) : w.infltCnt = 0 := by
  by_contra hne
  rw [(h.inflt (Nat.pos_of_ne_zero hne)).1] at hi
  cases hi

theorem congr (h : Recorded v c w k) (hs : d.size = c.size) (hst : d.state = c.state)
    (hp : d.part1 = c.part1) : Recorded v d w k := by
  have hu : ∀ e, d.InUse e ↔ c.InUse e := by
    intro e
    unfold Cache.InUse
    rw [hs, hst]
  constructor
  case snapshot =>
    rw [hp]
    exact h.snapshot
  case wheel => exact h.wheel
  case busy => exact h.busy
  case inflt => exact h.inflt
  case reserved => exact h.reserved
  case written =>
    intro e
    rw [hu, hst, hp]
    exact h.written
  case changing =>
    intro e
    rw [hu, hst, hp]
    exact h.changing

/-- Entries are cleaned while no cache write is under way. -/
theorem recache (h : Recorded v c w 0) (h0 : w.infltCnt = 0)
    (hback : ∀ e, d.InUse e → c.InUse e ∧ d.state e = c.state e ∧ d.part1 e = c.part1 e) :
    Recorded v d w 0 := by
  constructor
  case snapshot =>
    intro p r hf
    rw [(h.quiet h0 p).1] at hf
    cases hf
  case wheel => exact h.wheel
  case busy => exact h.busy
  case inflt => exact h.inflt
  case reserved => exact h.reserved
  case written =>
    intro e he hs p hp
    obtain ⟨hu, hst, hpt⟩ := hback e he
    rw [hpt] at hp ⊢
    exact h.written hu (hst ▸ hs) p hp
  case changing =>
    intro e he hs p hp
    obtain ⟨hu, hst, hpt⟩ := hback e he
    rw [hpt] at hp ⊢
    exact h.changing hu (hst ▸ hs) p hp

/-- Entry `e` has changed, and its volumes are marked for a cache write. -/
theorem mark (h : Recorded v c w 0) (hi : w.inflt = false) {pvWrt : Pv → Bool}
    (hmono : ∀ p, w.caPvWrt p = true → pvWrt p = true) (he : d.state e = .cachg)
    (hnew : ∀ p, v.Has (d.part1 e).lvMinor (d.part1 e).lvLtg w p → pvWrt p = true)
    (hother : ∀ f, f ≠ e → d.InUse f → c.InUse f ∧ d.state f = c.state f ∧ d.part1 f = c.part1 f) :
    Recorded v d { w with caPvWrt := pvWrt, vgact := true } 0 := by
  have h0 := h.idle hi
  constructor
  case snapshot =>
    intro p r hf
    rw [(h.quiet h0 p).1] at hf
    cases hf
  case wheel => exact h.wheel
  case busy => exact h.busy
  case inflt => exact fun hpos => absurd h0 hpos.ne'
  case reserved =>
    intro hr
    rw [(h.reserved hr).2.1] at hi
    cases hi
  case written =>
    intro f hf hs p hp
    have hne : f ≠ e := by
      rintro rfl
      rw [he] at hs
      cases hs
    obtain ⟨hu, hst, hpt⟩ := hother f hne hf
    rw [hpt] at hp ⊢
    exact h.written hu (hst ▸ hs) p hp
  case changing =>
    intro f hf hs p hp
    by_cases hne : f = e
    · subst hne
      exact .inr (.inl (hnew p hp))
    · obtain ⟨hu, hst, hpt⟩ := hother f hne hf
      rw [hpt] at hp ⊢
      rcases h.changing hu (hst ▸ hs) p hp with hd | hd | hd
      · exact .inl hd
      · exact .inr (.inl (hmono p hd))
      · exact .inr (.inr hd)

/-- The cache writes start. -/
theorem start (h : Recorded v c w 0) (h0 : w.infltCnt = 0)
    (hc : w.cleaner ≠ .reserved ∧ w.cleaner ≠ .written) :
    Recorded v c { w with
      vgact := false
      inflt := true
      infltCnt := w.infltCnt + (Finset.univ.filter fun p => w.caPvWrt p = true).card
      flight := fun p => if w.caPvWrt p then some c.part1 else w.flight p
      caPvWrt := fun _ => false } 0 := by
  constructor
  case snapshot =>
    intro p r hf
    dsimp only at hf
    split_ifs at hf
    · exact (Option.some.inj hf).symm
    · exact h.snapshot hf
  case wheel =>
    intro p hw
    rw [(h.quiet h0 p).2] at hw
    cases hw
  case busy =>
    dsimp only
    rw [h0, zero_add, add_zero]
    congr 1
    ext p
    obtain ⟨hq, hw⟩ := h.quiet h0 p
    by_cases hp : w.caPvWrt p = true
    · simp [hp]
    · simp [hp, hq, hw]
  case inflt => exact fun _ => ⟨rfl, rfl, fun _ => rfl⟩
  case reserved => exact fun hr => absurd hr (not_or.mpr hc)
  case written => exact h.written
  case changing =>
    intro e he hs p hp
    rcases h.changing he hs p hp with hd | hd | hd
    · exact .inl hd
    · right
      right
      simp [hd]
    · exact absurd (h.quiet h0 p).1 hd

/-- The number of writes that a volume has under way. -/
theorem busy_erase {flight flight' : Pv → Option Record} {wheel wheel' : Pv → Bool}
    (hp : flight p ≠ none ∨ wheel p = true) (hp' : flight' p = none ∧ wheel' p = false)
    (hother : ∀ a, a ≠ p → flight' a = flight a ∧ wheel' a = wheel a) :
    (Finset.univ.filter fun a => flight a ≠ none ∨ wheel a = true).card =
      (Finset.univ.filter fun a => flight' a ≠ none ∨ wheel' a = true).card + 1 := by
  have hinsert : (Finset.univ.filter fun a => flight a ≠ none ∨ wheel a = true) =
      insert p (Finset.univ.filter fun a => flight' a ≠ none ∨ wheel' a = true) := by
    ext a
    rw [Finset.mem_insert, Finset.mem_filter, Finset.mem_filter]
    by_cases ha : a = p
    · subst ha
      simp [hp]
    · simp [ha, hother a ha]
  rw [hinsert, Finset.card_insert_of_notMem]
  simp [hp'.1, hp'.2]

/-- A cache write is over, with the record on the disk or the volume missing. -/
theorem endOne (h : Recorded v c w 0) {w' : Volumes} (hp : w.flight p ≠ none ∨ w.onWheel p = true)
    (hf : w'.flight = Function.update w.flight p none) (hw : w'.onWheel p = false)
    (hwo : ∀ a, a ≠ p → w'.onWheel a = w.onWheel a)
    (hd : ∀ a, w'.missing a = false → w.missing a = false ∧
      (a = p → w'.disk a = c.part1) ∧ (a ≠ p → w'.disk a = w.disk a))
    (hcnt : w'.infltCnt = w.infltCnt) (hinflt : w'.inflt = w.inflt) (hvg : w'.vgact = w.vgact)
    (hwrt : w'.caPvWrt = w.caPvWrt) (hcl : w'.cleaner = w.cleaner) : Recorded v c w' 1 := by
  have hnone : w'.flight p = none := by rw [hf, Function.update_self]
  have hfo : ∀ a, a ≠ p → w'.flight a = w.flight a := by
    intro a ha
    rw [hf, Function.update_of_ne ha]
  have hhas : ∀ {minor ltg a}, v.Has minor ltg w' a → v.Has minor ltg w a :=
    fun ha => ⟨ha.1, (hd _ ha.2).1⟩
  constructor
  case snapshot =>
    intro a r ha
    by_cases hap : a = p
    · rw [hap, hnone] at ha
      cases ha
    · rw [hfo a hap] at ha
      exact h.snapshot ha
  case wheel =>
    intro a ha
    have hap : a ≠ p := by
      rintro rfl
      rw [hw] at ha
      cases ha
    rw [hwo a hap] at ha
    obtain ⟨h1, h2⟩ := h.wheel ha
    refine ⟨?_, (hfo a hap).trans h2⟩
    by_contra hno
    have hm := (hd a (by simpa using hno)).1
    rw [h1] at hm
    cases hm
  case busy =>
    rw [hcnt, h.busy, add_zero]
    exact busy_erase hp ⟨hnone, hw⟩ fun a ha => ⟨hfo a ha, hwo a ha⟩
  case inflt =>
    rw [hcnt, hinflt, hvg, hwrt]
    exact h.inflt
  case reserved =>
    rw [hcl, hcnt, hinflt, hvg]
    exact h.reserved
  case written =>
    intro e he hs a ha
    by_cases hap : a = p
    · rw [((hd a ha.2).2.1 hap)]
    · rw [((hd a ha.2).2.2 hap)]
      exact h.written he hs a (hhas ha)
  case changing =>
    intro e he hs a ha
    by_cases hap : a = p
    · left
      rw [((hd a ha.2).2.1 hap)]
    · rw [((hd a ha.2).2.2 hap), hwrt, hfo a hap]
      exact h.changing he hs a (hhas ha)

/-- The last cache write is over: what has changed is now written. -/
theorem settle (h : Recorded v c w 0) (h0 : w.infltCnt = 0) (hw : ∀ p, w.caPvWrt p = false)
    (hu : ∀ e, d.InUse e → c.InUse e ∧ d.state e = Cache.settled (c.state e) ∧
      d.part1 e = c.part1 e) : Recorded v d w 0 := by
  constructor
  case snapshot =>
    intro p r hf
    rw [(h.quiet h0 p).1] at hf
    cases hf
  case wheel => exact h.wheel
  case busy => exact h.busy
  case inflt => exact h.inflt
  case reserved => exact h.reserved
  case written =>
    intro e he hs p hp
    obtain ⟨hc, hst, hpt⟩ := hu e he
    rw [hpt] at hp ⊢
    cases hce : c.state e with
    | canochg => exact h.written hc hce p hp
    | caclean => exact absurd hce hc.2
    | cachg =>
      rcases h.changing hc hce p hp with hd | hd | hd
      · exact hd
      · rw [hw p] at hd
        cases hd
      · exact absurd (h.quiet h0 p).1 hd
  case changing =>
    intro e he hs
    have hst := (hu e he).2.1
    rw [hs] at hst
    unfold Cache.settled at hst
    split_ifs at hst with hif
    exact absurd hst.symm hif

end Recorded

/-- Each counted request has the record on its volumes, or a reference there. -/
def Covered (v : Layout) (c : Cache) (r : Requests) (w : Volumes) : Prop :=
  ∀ {i}, r.Flagged i → ∀ p, v.Has (r.buf i).bDev (blk2trk (r.buf i).bBlkno) w p →
    i ∈ r.caPv p ∨ w.disk p (r.under i).1 = c.part1 (r.under i).1

/-- The invariant of a cache of `n` entries, while `k` cache writes are not yet
deducted and the requests `rest` not yet released. -/
structure Inv (v : Layout) (n : Nat) (s : State) (k : Nat) (rest : List Lb) : Prop where
  size : s.ca.size = n
  counted : Counted s.ca s.toRequests
  parked : Parked s.toRequests rest
  recorded : Recorded v s.ca s.toVolumes k
  covered : Covered v s.ca s.toRequests s.toVolumes

end Aix413.Lvm.Mwc
