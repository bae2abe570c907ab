import Aix413.Lvm.WheelTurns

namespace Aix413.Lvm.Wheel

open Sched Lib.Circle Volgrp

variable {vg vg' : Volgrp} {pvols pvols' : Nat → Option Pvol} {g : Nat × List Nat}
  {gs : List (Nat × List Nat)} {i r h : Nat} {rs new : List Nat} {u : Bool}

/-! ## The hold list is moved -/

/-- A request rides with an active one. -/
def ride (vg : Volgrp) (h r : Nat) : Volgrp :=
  (hdSaHback vg h r).note (.put r h (vg.pbuf r).toSaReq)

/-- A request is put on the active list itself. -/
def putNew (u : Bool) (vg : Volgrp) (r : Nat) : Volgrp :=
  let vg' := { vg with saActLst := vg.saActLst ++ [(r, [])] }
  (change (if u then vg' else hdSaUpdate vg') (vg.pbuf r).toSaReq).note
    (.put r r (vg.pbuf r).toSaReq)

/-- What holds of the list left to move, of the wheel and of those put so far. -/
theorem moveHold_rule {P : List Nat → Bool → Volgrp → List Nat → Prop}
    (hride : ∀ r rs u vg new h, P (r :: rs) u vg new → findSame vg r = some h →
      P rs u (ride vg h r) new)
    (hput : ∀ r rs u vg new, P (r :: rs) u vg new → findSame vg r = none →
      P rs true (putNew u vg r) (new ++ [r]))
    (rs : List Nat) (u : Bool) (vg : Volgrp) (new : List Nat) (h : P rs u vg new) :
    ∃ u', P [] u' (moveHold rs u vg).1 (new ++ (moveHold rs u vg).2) := by
  induction rs generalizing u vg new with
  | nil => exact ⟨u, by rwa [moveHold, List.append_nil]⟩
  | cons r rs ih =>
    rw [moveHold]
    simp only
    cases hf : findSame vg r with
    | some hd => exact ih _ _ _ (hride r rs u vg new hd h hf)
    | none =>
      obtain ⟨u', hP⟩ := ih _ _ _ (hput r rs u vg new h hf)
      rw [List.append_assoc] at hP
      cases u <;> exact ⟨u', hP⟩

theorem hdSaQrmchk_eq (vg : Volgrp) :
    hdSaQrmchk vg = { vg with forcedoff := (hdSaQrmchk vg).forcedoff } := by
  unfold hdSaQrmchk
  split <;> rfl

/-- What a change leaves alone. -/
theorem change_eq (vg : Volgrp) (pb : SaReq) :
    change vg pb =
      { vg with
        pvols := (change vg pb).pvols
        vgsa := (change vg pb).vgsa
        quorumCnt := (change vg pb).quorumCnt
        forcedoff := (change vg pb).forcedoff } := by
  unfold change
  cases pb.pbType <;> simp only <;> try rfl
  · rw [hdSaQrmchk_eq]
    rfl
  · rw [hdSaQrmchk_eq]
    rfl

theorem fewer_change (vg : Volgrp) (pb : SaReq) : Fewer vg.pvols (change vg pb).pvols := by
  unfold change
  cases pb.pbType
  · simp only
    rw [hdSaQrmchk_eq]
    exact fewer_setMissing vg pb.pbPvol
  · exact Fewer.refl _
  · exact Fewer.refl _
  · exact Fewer.refl _
  · simp only
    rw [hdSaQrmchk_eq]
    exact fewer_setMissing vg pb.pbPvol

/-- The wheel after a request is put on the active list. -/
theorem putNew_eq (u : Bool) (vg : Volgrp) (r : Nat) :
    putNew u vg r =
      { vg with
        saActLst := vg.saActLst ++ [(r, [])]
        whlSeqNum := if u then vg.whlSeqNum else vg.whlSeqNum + 1
        pvols := (putNew u vg r).pvols
        vgsa := (putNew u vg r).vgsa
        quorumCnt := (putNew u vg r).quorumCnt
        forcedoff := (putNew u vg r).forcedoff
        log := .put r r (vg.pbuf r).toSaReq :: vg.log } := by
  unfold putNew
  simp only
  rw [change_eq]
  cases u <;> rfl

theorem fewer_putNew (u : Bool) (vg : Volgrp) (r : Nat) :
    Fewer vg.pvols (putNew u vg r).pvols := by
  have hf := fewer_change (if u then { vg with saActLst := vg.saActLst ++ [(r, [])] }
    else hdSaUpdate { vg with saActLst := vg.saActLst ++ [(r, [])] }) (vg.pbuf r).toSaReq
  cases u <;> exact hf

/-- What moving the hold list leaves alone. -/
structure Moved (vg vg' : Volgrp) : Prop where
  eq : vg' =
    { vg with
      pvols := vg'.pvols
      vgsa := vg'.vgsa
      quorumCnt := vg'.quorumCnt
      forcedoff := vg'.forcedoff
      whlSeqNum := vg'.whlSeqNum
      saActLst := vg'.saActLst
      log := vg'.log }
  fewer : Fewer vg.pvols vg'.pvols

theorem moved_moveHold (rs : List Nat) (u : Bool) (vg : Volgrp) :
    Moved vg (moveHold rs u vg).1 := by
  have hrule := moveHold_rule (P := fun _ _ vg' _ => Moved vg vg') ?_ ?_ rs u vg []
    ⟨rfl, Fewer.refl _⟩
  · obtain ⟨_, hP⟩ := hrule
    exact hP
  · rintro r rs u vg' new h ⟨he, hf⟩ -
    refine ⟨?_, hf⟩
    rw [he]
    rfl
  · rintro r rs u vg' new ⟨he, hf⟩ -
    refine ⟨?_, hf.trans (fewer_putNew u vg' r)⟩
    rw [putNew_eq, he]

/-! ## Images -/

/-- The memory version of the status area after a request has changed it. -/
def changed (partition : Nat → Nat → Mirror → Nat × Nat) (pb : SaReq) (v : VgsaArea) : VgsaArea :=
  match pb.pbType with
  | .pvmissing | .pvremoved => v.setPvmiss pb.pbPvol
  | .stalepp =>
    (mirrors pb.pbMirbad).foldl (fun v m => v.setStlpp (partition pb.bDev pb.lp m) true) v
  | .freshpp =>
    (mirrors pb.pbMirdone).foldl (fun v m => v.setStlpp (partition pb.bDev pb.lp m) false) v
  | .configop => v

theorem change_vgsa (vg : Volgrp) (pb : SaReq) :
    (change vg pb).vgsa = changed vg.partition pb vg.vgsa := by
  unfold change changed
  cases pb.pbType
  · simp only
    rw [hdSaQrmchk_eq]
  · rfl
  · rfl
  · rfl
  · simp only
    rw [hdSaQrmchk_eq]

theorem putNew_vgsa (u : Bool) (vg : Volgrp) (r : Nat) :
    (putNew u vg r).vgsa = changed vg.partition (vg.pbuf r).toSaReq vg.vgsa := by
  cases u <;> exact change_vgsa _ _

/-- The image has what a request asks for. -/
def Contains (partition : Nat → Nat → Mirror → Nat × Nat) (pb : SaReq) (img : VgsaArea) : Prop :=
  match pb.pbType with
  | .pvmissing | .pvremoved => img.pvMissing pb.pbPvol = true
  | .stalepp =>
    ∀ m ∈ pb.pbMirbad, let pp := partition pb.bDev pb.lp m; img.stalepp pp.1 pp.2 = true
  | .freshpp =>
    ∀ m ∈ pb.pbMirdone, let pp := partition pb.bDev pb.lp m; img.stalepp pp.1 pp.2 = false
  | .configop => True

/-- A request marks a partition stale that the other one marks fresh. -/
def Clash (partition : Nat → Nat → Mirror → Nat × Nat) (a b : SaReq) : Prop :=
  a.pbType = .stalepp ∧ b.pbType = .freshpp ∧ ∃ m ∈ a.pbMirbad, ∃ m' ∈ b.pbMirdone,
    partition a.bDev a.lp m = partition b.bDev b.lp m'

variable {partition : Nat → Nat → Mirror → Nat × Nat} {a b : SaReq} {v : VgsaArea}

theorem setStlpp_stalepp (v : VgsaArea) (pp : Nat × Nat) (x : Bool) (p q : Nat) :
    (v.setStlpp pp x).stalepp p q = if (p, q) = pp then x else v.stalepp p q := by
  obtain ⟨p', q'⟩ := pp
  simp only [VgsaArea.setStlpp, Prod.mk.injEq]
  by_cases hp : p = p'
  · subst hp
    rw [Function.update_self]
    by_cases hq : q = q'
    · subst hq
      rw [Function.update_self, if_pos ⟨rfl, rfl⟩]
    · rw [Function.update_of_ne hq, if_neg fun h => hq h.2]
  · rw [Function.update_of_ne hp, if_neg fun h => hp h.1]

/-- The partitions of the mirrors are marked, others are left as they are. -/
theorem foldl_setStlpp (f : Mirror → Nat × Nat) (x : Bool) (ms : List Mirror) (v : VgsaArea)
    (p q : Nat) :
    (ms.foldl (fun v m => v.setStlpp (f m) x) v).pvMissing = v.pvMissing ∧
      (ms.foldl (fun v m => v.setStlpp (f m) x) v).stalepp p q =
        if ∃ m ∈ ms, f m = (p, q) then x else v.stalepp p q := by
  induction ms generalizing v with
  | nil => exact ⟨rfl, by simp⟩
  | cons m ms ih =>
    rw [List.foldl_cons]
    obtain ⟨hp, hs⟩ := ih (v.setStlpp (f m) x)
    refine ⟨hp, hs.trans ?_⟩
    rw [setStlpp_stalepp]
    by_cases hm : f m = (p, q)
    · simp [hm]
    · have hm' : ¬(p, q) = f m := fun h => hm h.symm
      simp [hm, hm']

theorem changed_pvMissing (h : v.pvMissing i = true) :
    (changed partition a v).pvMissing i = true := by
  unfold changed
  have hset : ∀ p, (v.setPvmiss p).pvMissing i = true := by
    intro p
    unfold VgsaArea.setPvmiss
    by_cases hp : i = p
    · subst hp
      exact Function.update_self ..
    · exact (Function.update_of_ne hp ..).trans h
  cases a.pbType <;> simp only
  · exact hset _
  · rw [(foldl_setStlpp _ _ _ _ 0 0).1]
    exact h
  · rw [(foldl_setStlpp _ _ _ _ 0 0).1]
    exact h
  · exact h
  · exact hset _

theorem contains_changed : Contains partition a (changed partition a v) := by
  unfold Contains changed
  cases a.pbType <;> simp only
  · exact Function.update_self ..
  · intro m hm
    rw [(foldl_setStlpp _ _ _ _ _ _).2, if_pos ⟨m, mem_mirrors.mpr hm, rfl⟩]
  · intro m hm
    rw [(foldl_setStlpp _ _ _ _ _ _).2, if_pos ⟨m, mem_mirrors.mpr hm, rfl⟩]
  · exact Function.update_self ..

/-- A change leaves what another request asks for, unless they clash. -/
theorem Contains.changed (h : Contains partition b v) (hab : ¬Clash partition a b)
    (hba : ¬Clash partition b a) : Contains partition b (changed partition a v) := by
  have hkeep : ∀ pp : Nat × Nat, ∀ x, v.stalepp pp.1 pp.2 = x →
      (∀ m ∈ a.pbMirbad, a.pbType = .stalepp → x = false →
        partition a.bDev a.lp m ≠ pp) →
      (∀ m ∈ a.pbMirdone, a.pbType = .freshpp → x = true →
        partition a.bDev a.lp m ≠ pp) →
      (Wheel.changed partition a v).stalepp pp.1 pp.2 = x := by
    intro pp x hx hs hf
    unfold Wheel.changed
    cases hty : a.pbType <;> simp only
    · exact hx
    · rw [(foldl_setStlpp _ _ _ _ _ _).2]
      split
      next hm =>
        obtain ⟨m, hm, he⟩ := hm
        by_contra hne
        exact hs m (mem_mirrors.mp hm) hty (by simpa using Ne.symm hne) he
      next => exact hx
    · rw [(foldl_setStlpp _ _ _ _ _ _).2]
      split
      next hm =>
        obtain ⟨m, hm, he⟩ := hm
        by_contra hne
        exact hf m (mem_mirrors.mp hm) hty (by simpa using Ne.symm hne) he
      next => exact hx
    · exact hx
    · exact hx
  unfold Contains at h ⊢
  cases hty : b.pbType <;> rw [hty] at h <;> simp only at h ⊢
  · exact changed_pvMissing h
  · intro m hm
    refine hkeep _ _ (h m hm) (fun _ _ _ hx => by cases hx) fun m' hm' hf _ he => ?_
    exact hba ⟨hty, hf, m, hm, m', hm', he.symm⟩
  · intro m hm
    refine hkeep _ _ (h m hm) (fun m' hm' hs _ he => ?_) fun _ _ _ hx => by cases hx
    exact hab ⟨hs, hty, m', hm', m, hm, he⟩
  · exact changed_pvMissing h

theorem Contains.setPvmiss (h : Contains partition b v) (p : Nat) :
    Contains partition b (v.setPvmiss p) := by
  have hset : (v.setPvmiss p) = Wheel.changed partition ⟨.pvmissing, p, 0, 0, 0, 0, 0⟩ v := rfl
  rw [hset]
  exact h.changed (fun hc => by cases hc.1) fun hc => by cases hc.2.1

/-- What an active request asks for holds what one that rides with it does. -/
theorem contains_same (hs : same a b = true) (h : Contains partition a v) :
    Contains partition b v := by
  unfold same at hs
  simp only [Bool.and_eq_true, decide_eq_true_eq] at hs
  obtain ⟨hty, hs⟩ := hs
  unfold Contains at h ⊢
  rw [← hty]
  cases ht : a.pbType <;> rw [ht] at h hs <;> simp only [decide_eq_true_eq, Bool.and_eq_true,
    Bool.false_eq_true] at h hs ⊢
  · exact hs ▸ h
  · obtain ⟨⟨hdev, hlp⟩, hmask⟩ := hs
    intro m hm
    rw [← hdev, ← hlp]
    refine h m ?_
    by_contra hne
    have hin : m ∈ b.pbMirbad &&& ~~~a.pbMirbad := by
      rw [mem_def] at hm hne ⊢
      simp only [BitVec.getLsbD_and, BitVec.getLsbD_not]
      cases m <;> simp_all [Mirror.number]
    rw [hmask] at hin
    cases m <;> cases hin
  · exact hs ▸ h

end Aix413.Lvm.Wheel
