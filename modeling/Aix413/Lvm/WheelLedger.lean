import Aix413.Lvm.WheelMoves

namespace Aix413.Lvm.Wheel

open Sched Lib.Circle Volgrp

variable {vg vg' : Volgrp} {gs : List (Nat × List Nat)} {rs rs' xs : List Nat} {c h r : Nat}
  {log : List Note} {n : Note}

/-! ## Counting -/

def members (gs : List (Nat × List Nat)) : List Nat := gs.flatMap fun g => g.1 :: g.2

theorem members_append (gs gs' : List (Nat × List Nat)) :
    members (gs ++ gs') = members gs ++ members gs' := List.flatMap_append

/-- The requests on the hold list and the active list. -/
def onList (vg : Volgrp) : List Nat := vg.saHldLst ++ members vg.saActLst

theorem onWheel_iff (vg : Volgrp) (r : Nat) : vg.onWheel r = true ↔ r ∈ onList vg := by
  simp [onWheel, onList, members, List.mem_flatMap]

def Note.takes (r : Nat) : Note → Bool
  | .taken r' => r = r'
  | _ => false

def Note.returns (r : Nat) : Note → Bool
  | .returned r' _ _ => r = r'
  | _ => false

def timesTaken (r : Nat) (log : List Note) : Nat := log.countP (Note.takes r)
def timesReturned (r : Nat) (log : List Note) : Nat := log.countP (Note.returns r)

/-- The requests `rs` are those that are taken and not yet returned, each once. -/
structure Balanced (rs : List Nat) (log : List Note) : Prop where
  nodup : rs.Nodup
  count : ∀ r, timesTaken r log = timesReturned r log + rs.count r

theorem Balanced.perm (hb : Balanced rs log) (hp : rs.Perm rs') : Balanced rs' log :=
  ⟨hp.nodup hb.nodup, fun r => hp.count_eq r ▸ hb.count r⟩

theorem Balanced.taken (hb : Balanced rs log) (hr : r ∉ rs) :
    Balanced (r :: rs) (.taken r :: log) := by
  refine ⟨List.nodup_cons.mpr ⟨hr, hb.nodup⟩, fun x => ?_⟩
  have hx := hb.count x
  unfold timesTaken timesReturned at hx ⊢
  by_cases he : x = r
  · subst he
    simp [Note.takes, Note.returns]
    omega
  · have he' : r ≠ x := Ne.symm he
    simp [Note.takes, Note.returns, he, he']
    omega

theorem Balanced.returned (hb : Balanced (r :: rs) log) (err : Bool)
    (pvols : Nat → Option Pvol) : Balanced rs (.returned r err pvols :: log) := by
  refine ⟨(List.nodup_cons.mp hb.nodup).2, fun x => ?_⟩
  have hx := hb.count x
  unfold timesTaken timesReturned at hx ⊢
  by_cases he : x = r
  · subst he
    simp [Note.takes, Note.returns] at hx ⊢
    omega
  · have he' : r ≠ x := Ne.symm he
    simp [Note.takes, Note.returns, he, he'] at hx ⊢
    omega

theorem Balanced.note (hb : Balanced rs log) (ht : ∀ r, n.takes r = false)
    (hr : ∀ r, n.returns r = false) : Balanced rs (n :: log) := by
  refine ⟨hb.nodup, fun x => ?_⟩
  have hx := hb.count x
  unfold timesTaken timesReturned at hx ⊢
  rw [List.countP_cons_of_neg (by simp [ht]), List.countP_cons_of_neg (by simp [hr])]
  exact hx

/-! ## What is done to the lists -/

theorem balanced_foldl_rtnOne (err : Bool) (hb : Balanced (xs ++ rs) vg.log) :
    Balanced rs (xs.foldl (rtnOne err) vg).log := by
  induction xs generalizing vg with
  | nil => exact hb
  | cons x xs ih =>
    rw [List.foldl_cons]
    refine ih ?_
    have hlog : (rtnOne err vg x).log = .returned x err vg.pvols :: vg.log := by
      cases err <;> rfl
    rw [hlog]
    exact hb.returned err _

/-- What returning requests leaves alone. -/
theorem hdSaRtn_frame (vg : Volgrp) (g : Nat × List Nat) (err : Bool) :
    hdSaRtn vg g err =
      { vg with pbuf := (hdSaRtn vg g err).pbuf, log := (hdSaRtn vg g err).log } := by
  have hfold : ∀ (xs : List Nat) (vg : Volgrp), xs.foldl (rtnOne err) vg =
      { vg with
        pbuf := (xs.foldl (rtnOne err) vg).pbuf
        log := (xs.foldl (rtnOne err) vg).log } := by
    intro xs
    induction xs with
    | nil => exact fun _ => rfl
    | cons x xs ih =>
      intro vg
      rw [List.foldl_cons, ih]
      cases err <;> rfl
  exact hfold _ vg

/-- All are returned with errors. -/
theorem balanced_foldl_hdSaRtn (hb : Balanced (members gs ++ rs) vg.log) :
    Balanced rs (gs.foldl (fun vg g => hdSaRtn vg g true) vg).log := by
  induction gs generalizing vg with
  | nil => exact hb
  | cons g gs ih =>
    rw [List.foldl_cons]
    refine ih (balanced_foldl_rtnOne true ?_)
    rw [← List.append_assoc]
    exact hb

theorem foldl_hdSaRtn_frame (gs : List (Nat × List Nat)) (vg : Volgrp) :
    let vg' := gs.foldl (fun vg g => hdSaRtn vg g true) vg
    vg' = { vg with pbuf := vg'.pbuf, log := vg'.log } := by
  induction gs generalizing vg with
  | nil => rfl
  | cons g gs ih =>
    rw [List.foldl_cons]
    have hg := hdSaRtn_frame vg g true
    intro vg'
    have hrest := ih (hdSaRtn vg g true)
    simp only at hrest
    rw [hg] at hrest
    simp only at hrest
    rw [← hg] at hrest
    exact hrest

theorem balanced_returns {pvols : Nat → Option Pvol} (hb : Balanced (members gs ++ rs) log) :
    Balanced rs (returns pvols gs ++ log) := by
  have hfold : ∀ xs log, Balanced (xs ++ rs) log →
      Balanced rs ((xs.reverse.map fun r => .returned r false pvols) ++ log) := by
    intro xs
    induction xs with
    | nil => exact fun _ hb => hb
    | cons x xs ih =>
      intro log hb
      rw [List.reverse_cons, List.map_append, List.append_assoc]
      exact ih _ (hb.returned false pvols)
  exact hfold _ log hb

/-- Each request that is on the wheel is there once, and those taken before have
been returned once. -/
def Ledger (vg : Volgrp) : Prop := Balanced (onList vg) vg.log

theorem ledger_rtnDone (h : Ledger vg) : Ledger (rtnDone c vg.saActLst vg) := by
  unfold Ledger onList at h ⊢
  have hact : members vg.saActLst = members (vg.saActLst.takeWhile fun g => vg.stop g = c) ++
      members (vg.saActLst.dropWhile fun g => vg.stop g = c) := by
    rw [← members_append, List.takeWhile_append_dropWhile]
  rw [hact] at h
  rw [rtnDone_eq]
  exact balanced_returns (h.perm (List.perm_append_comm_assoc ..))

theorem ledger_whladv (h : Ledger vg) (n c : Nat) : Ledger (whladv n vg c).1 := by
  refine (whladv_rule (P := fun _ vg _ => Ledger vg) (Q := fun vg _ => Ledger vg) ?_ ?_ n 0
    vg c (Nat.zero_add n) h).elim id id
  · intro _ vg' c' pvols' _ h _ _
    exact ledger_rtnDone h
  · intro _ vg' c' _ h _
    exact ledger_rtnDone h

theorem ledger_queue (h : Ledger vg) (p : Nat × Pbuf) : Ledger (queue vg p) := by
  unfold queue
  split
  next => exact h
  next hq =>
    rw [not_or] at hq
    have hr : p.1 ∉ onList vg := fun hmem => hq.2 ((onWheel_iff vg p.1).mpr hmem)
    refine (h.taken hr).perm ?_
    change (p.1 :: (vg.saHldLst ++ members vg.saActLst)).Perm
      ((vg.saHldLst ++ [p.1]) ++ members vg.saActLst)
    rw [List.append_assoc]
    exact List.perm_middle.symm

theorem ledger_foldl_queue (h : Ledger vg) (again : List (Nat × Pbuf)) :
    Ledger (again.foldl queue vg) := by
  induction again generalizing vg with
  | nil => exact h
  | cons p again ih => exact ih (ledger_queue h p)

theorem ledger_hdSaWhladv (h : Ledger vg) (again : List (Nat × Pbuf)) :
    Ledger (hdSaWhladv vg again) := by
  have hadv : Ledger { (whladv places vg vg.wheelIdx).1 with
      wheelIdx := (whladv places vg vg.wheelIdx).2 } := ledger_whladv h places vg.wheelIdx
  unfold hdSaWhladv
  simp only
  split
  next => exact ledger_foldl_queue hadv again
  next => exact hadv

/-- The active list after a request rides on it. -/
theorem members_hback (hn : (gs.map Prod.fst).Nodup) (hh : h ∈ gs.map Prod.fst) :
    (members (gs.map fun g => if g.1 = h then (g.1, g.2 ++ [r]) else g)).Perm
      (r :: members gs) := by
  induction gs with
  | nil => cases hh
  | cons g gs ih =>
    rw [List.map_cons, List.nodup_cons] at hn
    unfold members at ih ⊢
    rw [List.map_cons, List.flatMap_cons, List.flatMap_cons]
    by_cases hg : g.1 = h
    · -- no other has this head
      have hrest : (gs.map fun g => if g.1 = h then (g.1, g.2 ++ [r]) else g) = gs := by
        refine (List.map_congr_left fun g' hg' => if_neg fun he => hn.1 ?_).trans (List.map_id gs)
        rw [hg, ← he]
        exact List.mem_map_of_mem hg'
      rw [if_pos hg, hrest]
      simp only [List.cons_append, List.append_assoc, List.nil_append]
      refine (List.Perm.cons _ List.perm_middle).trans ?_
      exact List.Perm.swap ..
    · rw [if_neg hg]
      have hmem : h ∈ gs.map Prod.fst := by
        rw [List.map_cons, List.mem_cons] at hh
        exact hh.resolve_left (Ne.symm hg)
      exact ((ih hn.2 hmem).append_left _).trans List.perm_middle

theorem mem_members_of_head {g : Nat × List Nat} (hg : g ∈ gs) : g.1 ∈ members gs :=
  List.mem_flatMap.mpr ⟨g, hg, List.mem_cons_self⟩

theorem heads_nodup (h : (members gs).Nodup) : (gs.map Prod.fst).Nodup := by
  induction gs with
  | nil => exact List.nodup_nil
  | cons g gs ih =>
    unfold members at h ih
    rw [List.flatMap_cons, List.nodup_append] at h
    rw [List.map_cons, List.nodup_cons]
    refine ⟨fun hg => ?_, ih h.2.1⟩
    rw [List.mem_map] at hg
    obtain ⟨g', hg', he⟩ := hg
    exact h.2.2 g.1 List.mem_cons_self g.1 (he ▸ mem_members_of_head hg') rfl

theorem findSame_some (hf : findSame vg r = some h) :
    ∃ g ∈ vg.saActLst, g.1 = h ∧ same (vg.pbuf h).toSaReq (vg.pbuf r).toSaReq = true := by
  unfold findSame at hf
  rw [Option.map_eq_some_iff] at hf
  obtain ⟨g, hg, rfl⟩ := hf
  have hs := List.find?_some
    (p := fun g : Nat × List Nat => same (vg.pbuf g.1).toSaReq (vg.pbuf r).toSaReq) hg
  exact ⟨g, List.mem_of_find?_eq_some hg, rfl, hs⟩

/-- The ledger while `rs` is left of the hold list. -/
def Moving (rs : List Nat) (vg : Volgrp) : Prop := Balanced (rs ++ members vg.saActLst) vg.log

theorem moving_ride (h : Moving (r :: rs) vg) {hd : Nat} (hf : findSame vg r = some hd) :
    Moving rs (ride vg hd r) := by
  obtain ⟨g, hg, rfl, -⟩ := findSame_some hf
  have hn : (vg.saActLst.map Prod.fst).Nodup :=
    heads_nodup (List.nodup_append.mp h.nodup).2.1
  refine Balanced.note (Balanced.perm h ?_) (fun _ => rfl) fun _ => rfl
  refine List.Perm.trans ?_
    ((members_hback (r := r) hn (List.mem_map_of_mem hg)).symm.append_left rs)
  exact List.perm_middle.symm

theorem moving_putNew (h : Moving (r :: rs) vg) (u : Bool) : Moving rs (putNew u vg r) := by
  unfold Moving at h ⊢
  rw [putNew_eq, members_append]
  refine Balanced.note (Balanced.perm h ?_) (fun _ => rfl) fun _ => rfl
  rw [← List.append_assoc, List.cons_append]
  exact (List.perm_append_singleton r _).symm

theorem ledger_moveHold (h : Ledger vg) (u : Bool) (hl : vg.saHldLst = rs) :
    Moving [] (moveHold rs u { vg with saHldLst := [] }).1 := by
  subst hl
  have hstart : Moving vg.saHldLst { vg with saHldLst := [] } := h
  obtain ⟨_, hP⟩ := moveHold_rule (P := fun rs _ vg _ => Moving rs vg)
    (fun _ _ _ _ _ _ h hf => moving_ride h hf) (fun _ _ u _ _ h _ => moving_putNew h u)
    vg.saHldLst u { vg with saHldLst := [] } [] hstart
  exact hP

/-! ## The wheel -/

theorem setStops_frame (vg : Volgrp) (rs : List Nat) :
    setStops vg rs = { vg with pbuf := (setStops vg rs).pbuf } := by
  unfold setStops
  induction rs generalizing vg with
  | nil => rfl
  | cons r rs ih =>
    rw [List.foldl_cons, ih]
    rfl

theorem hdSaWrt_frame (vg : Volgrp) :
    hdSaWrt vg = { vg with pvols := (hdSaWrt vg).pvols, written := (hdSaWrt vg).written } := by
  unfold hdSaWrt
  simp only
  cases vg.pvols (vg.wheelIdx / 2) <;> rfl

theorem ledger_closeWheel (h : Ledger vg) : Ledger (closeWheel vg) := by
  have hframe := foldl_hdSaRtn_frame vg.saActLst { vg with saActLst := [] }
  have hall : Balanced (members vg.saActLst ++ vg.saHldLst) vg.log := h.perm List.perm_append_comm
  unfold closeWheel Ledger onList
  simp only at hframe ⊢
  rw [hframe]
  change Balanced (vg.saHldLst ++ []) _
  rw [List.append_nil]
  exact balanced_foldl_hdSaRtn hall

theorem ledger_writeNext (h : Ledger vg) : Ledger (writeNext vg) := by
  unfold writeNext
  split
  next => exact Balanced.note h (fun _ => rfl) fun _ => rfl
  next =>
    split
    next =>
      rw [hdSaWrt_frame]
      exact h
    next => exact h

theorem ledger_turnWheel {m : Volgrp × List Nat} (h : Ledger m.1) (again : List (Nat × Pbuf)) :
    Ledger (turnWheel m again) := by
  unfold turnWheel
  split
  next => exact ledger_closeWheel h
  next =>
    refine ledger_writeNext ?_
    rw [setStops_frame]
    unfold findArea
    split
    next => exact h
    next => exact ledger_hdSaWhladv h again

theorem failed_eq (vg : Volgrp) :
    failed vg =
      { vg with
        pvols := (vg.setMissing (vg.wheelIdx / 2)).pvols
        vgsa := vg.vgsa.setPvmiss (vg.wheelIdx / 2)
        whlSeqNum := vg.whlSeqNum + 1
        forcedoff := (failed vg).forcedoff } := by
  unfold failed
  simp only
  rw [hdSaQrmchk_eq]
  rfl

end Aix413.Lvm.Wheel
