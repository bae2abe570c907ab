import Aix413.Lvm.Recovery

namespace Aix413.Lvm.Sched

variable {lv : Lvol} {lp lp' : Lp} {lb : Lbuf} {pb : Pbuf} {α : Type} {err : Nat → Bool}
  {junk : Nat → α} {sa quorum error : Bool} {data data' : Mirror → α} {buf v : α}

/-! ## The write phase of a resync -/

/-- A resync request that writes. -/
structure Resyncing (lp : Lp) (pb : Pbuf) : Prop where
  op : pb.lbuf.op = .resync
  sched : pb.sched = .resyncpp
  read : pb.read = false
  target : pb.target = pb.mirror
  current : pb.mirror ∉ lp.syncMsk ∧ pb.mirror ∈ pb.mirdone

/-- A failed write leaves the copy with the sync error flag. -/
def Lp.failed (lp : Lp) (m : Mirror) (fail : Bool) : Lp :=
  if fail then lp.setPpstate m { lp.ppstate m with syncerr := true } else lp

theorem failed_syncTrk (lp : Lp) (m : Mirror) (fail : Bool) :
    (lp.failed m fail).syncTrk = lp.syncTrk := by cases fail <;> rfl

theorem failed_ppstate (lp : Lp) (m c : Mirror) (fail : Bool) :
    (lp.failed m fail).ppstate c =
      { lp.ppstate c with syncerr := (lp.ppstate c).syncerr || (fail && decide (c = m)) } := by
  cases fail with
  | false => simp [Lp.failed]
  | true =>
    by_cases hc : c = m
    · subst hc
      simp [Lp.failed, Lp.setPpstate]
    · simp [Lp.failed, Lp.setPpstate, hc]

/-- The mask after another mirror is taken off it. -/
def Lp.less (lp : Lp) (m : Mirror) : Lp := { lp with syncMsk := lp.syncMsk &&& ~~~mirrorMask m }

theorem Resyncing.resyncpp {fail : Bool} (hw : Resyncing lp pb) :
    hdResyncpp lv lp { pb with error := fail } sa =
      match firstMask lp.syncMsk with
      | some m => ((lp.failed pb.mirror fail).less m,
          .begin (hdXlate ((pb.wrote fail).markDone m) m))
      | none =>
        if (pb.wrote fail).mirbad = (pb.wrote fail).mirdone then
          (cancelResync (lp.failed pb.mirror fail), .finished true)
        else if lp.syncTrk = some (lv.trkppart - 1) then
          hdFreshpp (lp.failed pb.mirror fail) { pb.wrote fail with read := true } sa
        else ({ lp.failed pb.mirror fail with
          rip := false, syncTrk := lp.syncTrk.map (· + 1) }, .finished false) := by
  have hop := hw.op
  rw [hdResyncpp, if_neg (by simp [hw.read])]
  cases fail with
  | false =>
    cases hm : firstMask lp.syncMsk <;> simp [hm, hop, Lp.failed, Lp.less, Pbuf.wrote]
  | true =>
    have hmsk : (lp.setPpstate pb.mirror { lp.ppstate pb.mirror with syncerr := true }).syncMsk =
      lp.syncMsk := rfl
    have htrk : (lp.setPpstate pb.mirror { lp.ppstate pb.mirror with syncerr := true }).syncTrk =
      lp.syncTrk := rfl
    cases hm : firstMask lp.syncMsk <;>
      simp [hm, hop, Lp.failed, Lp.less, Pbuf.wrote, Pbuf.markBad, hmsk, htrk]

/-- A track group whose copies `T` are written with `v`, `D` being written already;
the resync of the last track group makes them fresh. -/
structure Renewed (lv : Lvol) (lp : Lp) (T D : Mask) (v : α) (data : Mirror → α) (lp' : Lp)
    (data' : Mirror → α) : Prop where
  untouched : ∀ c, c ∉ T → data' c = data c
  copied : ∀ c, c ∈ T → (lp'.ppstate c).syncerr = false → data' c = v
  syncerr : ∀ c, (lp'.ppstate c).syncerr = false → (lp.ppstate c).syncerr = false
  reducing : ∀ c, (lp'.ppstate c).reducing = (lp.ppstate c).reducing
  pvol : lp'.pvol = lp.pvol
  stale : ∀ c, (lp'.ppstate c).stale = false ↔ (lp.ppstate c).stale = false ∨
    lp.syncTrk = some (lv.trkppart - 1) ∧ (c ∈ D ∨ c ∈ T) ∧ (lp'.ppstate c).syncerr = false
  syncTrk : lp.syncTrk ≠ some (lv.trkppart - 1) → lp'.syncTrk = lp.syncTrk.map (· + 1)

theorem freshpp_run {k : Nat}
    (h : Runs lv err junk sa quorum k (hdFreshpp lp pb sa).1 data buf (hdFreshpp lp pb sa).2 lp'
      data' false) :
    lp' = (hdFreshpp lp pb sa).1 ∧ data' = data := by
  generalize hl : (hdFreshpp lp pb sa).1 = l at h
  unfold hdFreshpp at h
  dsimp only at h
  split at h
  · cases h with
    | wheel h =>
      rw [hdSched] at h
      cases hq : quorum <;> rw [hq] at h <;> cases h
      exact ⟨rfl, rfl⟩
  · cases h

/-- The last write of a track group. -/
theorem Resyncing.last {fail : Bool} {k : Nat} {d : Mirror → α} (hw : Resyncing lp pb)
    (hmsk : firstMask lp.syncMsk = none)
    (h : Runs lv err junk sa quorum k (hdResyncpp lv lp { pb with error := fail } sa).1 d buf
      (hdResyncpp lv lp { pb with error := fail } sa).2 lp' data' false) :
    Renewed lv (lp.failed pb.mirror fail) 0 pb.mirdone v d lp' data' := by
  have hdone : (pb.wrote fail).mirdone = pb.mirdone := by cases fail <;> rfl
  have hzero : ∀ c : Mirror, c ∉ (0 : Mask) := fun c => not_mem_zero c
  rw [hw.resyncpp, hmsk] at h
  dsimp only at h
  split at h
  · cases h
  · split at h
    · rename_i hlast
      obtain ⟨rfl, rfl⟩ := freshpp_run h
      have hst : ∀ c, ((hdFreshpp (lp.failed pb.mirror fail)
          { pb.wrote fail with read := true } sa).1.ppstate c) =
          if c ∈ pb.mirdone ∧ ((lp.failed pb.mirror fail).ppstate c).syncerr = false then
            { (lp.failed pb.mirror fail).ppstate c with stale := false }
          else (lp.failed pb.mirror fail).ppstate c := by
        intro c
        simp only [hdFreshpp, mem_maskOf, hdone, Bool.and_eq_true, decide_eq_true_eq,
          Bool.not_eq_true']
      constructor
      · exact fun c _ => rfl
      · exact fun c hc => absurd hc (hzero c)
      · intro c hc
        rw [hst] at hc
        split at hc <;> exact hc
      · intro c
        rw [hst]
        split <;> rfl
      · rfl
      · intro c
        rw [hst, failed_syncTrk]
        split
        · rename_i hc
          simp [hlast, hc.1, hc.2]
        · rename_i hc
          have := hzero c
          simp only [not_and, Bool.not_eq_false] at hc
          constructor
          · exact .inl
          · rintro (h | ⟨-, h | h, he⟩)
            · exact h
            · rw [hc h] at he
              cases he
            · exact absurd h this
      · exact fun hne => absurd ((failed_syncTrk lp pb.mirror fail).trans hlast) hne
    · rename_i hlast
      cases h
      constructor
      · exact fun c _ => rfl
      · exact fun c hc => absurd hc (hzero c)
      · exact fun c hc => hc
      · exact fun c => rfl
      · rfl
      · intro c
        rw [failed_syncTrk]
        simp [hlast]
      · intro _
        rw [failed_syncTrk]

theorem Resyncing.next {m : Mirror} {fail : Bool} (hw : Resyncing lp pb) :
    Resyncing ((lp.failed pb.mirror fail).less m) (hdXlate ((pb.wrote fail).markDone m) m) where
  op := by cases fail <;> exact hw.op
  sched := by cases fail <;> exact hw.sched
  read := by cases fail <;> exact hw.read
  target := rfl
  current := by
    refine ⟨fun h => ?_, mem_or.mpr (.inr (mem_mirrorMask.mpr rfl))⟩
    exact (mem_compl.mp (mem_and.mp h).2) (mem_mirrorMask.mpr rfl)

/-- One more copy of the track group is written. -/
theorem Renewed.write {R D D' : Mask} {k : Nat} (hR : pb.mirror ∉ lp.syncMsk)
    (hD : pb.mirror ∈ D) (hRs : R = lp.syncMsk) (hD' : ∀ c, c ∈ D' ∨ c ∈ R ↔ c ∈ D ∨ c ∈ R)
    {l : Lp} (hlp : l.ppstate = (lp.failed pb.mirror (err k)).ppstate) (hlv : l.pvol = lp.pvol)
    (hlt : l.syncTrk = lp.syncTrk)
    (h : Renewed lv l R D' v (Function.update data pb.mirror (if err k then junk k else v)) lp'
      data') :
    Renewed lv lp (mirrorMask pb.mirror ||| lp.syncMsk) D v data lp' data' where
  untouched := by
    intro c hc
    rw [mem_or, not_or, mem_mirrorMask] at hc
    rw [h.untouched c (hRs ▸ hc.2), Function.update_of_ne hc.1]
  copied := by
    intro c hc hs
    rw [mem_or, mem_mirrorMask] at hc
    rcases hc with rfl | hc
    · have hok := h.syncerr _ hs
      rw [hlp, failed_ppstate] at hok
      simp only [decide_true, Bool.and_true, Bool.or_eq_false_iff] at hok
      rw [h.untouched _ (hRs ▸ hR), Function.update_self, hok.2]
      rfl
    · exact h.copied c (hRs ▸ hc) hs
  syncerr := by
    intro c hs
    have hok := h.syncerr c hs
    rw [hlp, failed_ppstate] at hok
    exact (Bool.or_eq_false_iff.mp hok).1
  reducing := by
    intro c
    rw [h.reducing, hlp, failed_ppstate]
  pvol := h.pvol.trans hlv
  stale := by
    intro c
    rw [h.stale, hlp, failed_ppstate, hlt, hD', hRs]
    refine or_congr_right (and_congr_right fun _ => and_congr_left fun _ => ?_)
    rw [mem_or, mem_mirrorMask]
    constructor
    · rintro (h | h)
      · exact .inl h
      · exact .inr (.inr h)
    · rintro (h | rfl | h)
      · exact .inl h
      · exact .inl hD
      · exact .inr h
  syncTrk := fun hne => by rw [h.syncTrk (hlt ▸ hne), hlt]

/-- The copies that are not stale hold the same in a track group. -/
def Alike (lv : Lvol) (lp : Lp) (data : Mirror → α) : Prop :=
  ∀ s c, lp.Copy lv s → (lp.ppstate s).stale = false → lp.Copy lv c →
    (lp.ppstate c).stale = false → data s = data c

/-- Two copies with transfers under way on both volumes, fewer on the primary one. -/
def busyPvol : Mirror → Option Pvol
  | .prim => some { xfcnt := 1 }
  | .sing => some { xfcnt := 2 }
  | .doub => none

theorem busyPvol_prim : (busyPvol .prim).isSome := rfl

def busy : Lp :=
  { ppstate := fun _ => {}
    pvol := busyPvol
    primary := busyPvol_prim
    syncTrk := none
    rip := false
    syncMsk := 0 }

def twoCopies (iSched : Schedule) : Lvol :=
  { nparts := 2, copies := two_copies, iSched := iSched, trkppart := 1 }

end Aix413.Lvm.Sched
