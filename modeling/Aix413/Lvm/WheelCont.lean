import Aix413.Lvm.WheelPace

namespace Aix413.Lvm.Wheel

open Sched Lib.Circle Volgrp

variable {vg vg' : Volgrp} {g : Nat × List Nat} {gs old news : List (Nat × List Nat)}
  {c i j r : Nat} {rs new : List Nat} {u : Bool} {log : List Note} {d : Nat → VgsaArea}

/-! ## What has been written -/

/-- The head that a request was put behind and what it asks for, when the note is
that it was put on the active list. -/
def Note.put? (r : Nat) : Note → Option (Nat × SaReq)
  | .put r' hd req => if r' = r then some (hd, req) else none
  | _ => none

def lastPut (r : Nat) (log : List Note) : Option (Nat × SaReq) := log.findSome? (Note.put? r)

/-- What happened after the request was put on the active list last. -/
def sincePut (r : Nat) (log : List Note) : List Note :=
  log.takeWhile fun n => (n.put? r).isNone

/-- Since the request was put on the active list, itself, the area has been written
with an image that has what it asks for. -/
def Wrote (partition : Nat → Nat → Mirror → Nat × Nat) (log : List Note) (r i : Nat) : Prop :=
  ∃ req img, lastPut r log = some (r, req) ∧ .wrote i img ∈ sincePut r log ∧
    Contains partition req img

/-- What a request asks for is in an area that was written since the request, or the
one that it rides with, was put on the active list. -/
def Carried (partition : Nat → Nat → Mirror → Nat × Nat) (log : List Note) (r i : Nat) : Prop :=
  ∃ hd req img, lastPut r log = some (hd, req) ∧ .wrote i img ∈ sincePut hd log ∧
    Contains partition req img

/-- Nothing has been written since the request was put on the active list. -/
def Early (log : List Note) (r : Nat) : Prop :=
  (lastPut r log).isSome = true ∧ ∀ i img, .wrote i img ∉ sincePut r log

/-- A request that is returned without error is in every area that is live then,
or it was returned before anything was written. -/
def Kept (partition : Nat → Nat → Mirror → Nat × Nat) : Note → List Note → Prop
  | .returned r false pvols, older =>
    (∀ i < places, live pvols i = true → Carried partition older r i) ∨ Early older r
  | _, _ => True

def Honest (partition : Nat → Nat → Mirror → Nat × Nat) : List Note → Prop
  | [] => True
  | n :: log => Kept partition n log ∧ Honest partition log

section Log

variable {n : Note} {ns : List Note} {partition : Nat → Nat → Mirror → Nat × Nat}

theorem lastPut_append {l : List Note} (h : ∀ n ∈ ns, n.put? r = none) :
    lastPut r (ns ++ l) = lastPut r l ∧ sincePut r (ns ++ l) = ns ++ sincePut r l := by
  induction ns with
  | nil => exact ⟨rfl, rfl⟩
  | cons n ns ih =>
    have hn := h n List.mem_cons_self
    obtain ⟨hl, hs⟩ := ih fun m hm => h m (List.mem_cons_of_mem n hm)
    refine ⟨?_, ?_⟩
    · unfold lastPut at hl ⊢
      rw [List.cons_append, List.findSome?_cons_of_isNone (by rw [hn]; rfl)]
      exact hl
    · unfold sincePut at hs ⊢
      rw [List.cons_append, List.takeWhile_cons_of_pos (by rw [hn]; rfl), hs]
      rfl

theorem lastPut_cons (h : n.put? r = none) :
    lastPut r (n :: log) = lastPut r log ∧ sincePut r (n :: log) = n :: sincePut r log := by
  have hall : ∀ m ∈ [n], m.put? r = none := fun m hm => by rw [List.mem_singleton.mp hm, h]
  exact lastPut_append hall

theorem Wrote.append (h : Wrote partition log r i) (hn : ∀ n ∈ ns, n.put? r = none) :
    Wrote partition (ns ++ log) r i := by
  obtain ⟨req, img, hp, hw, hc⟩ := h
  obtain ⟨hl, hs⟩ := lastPut_append (l := log) hn
  exact ⟨req, img, hl.trans hp, hs ▸ List.mem_append_right ns hw, hc⟩

theorem Wrote.cons (h : Wrote partition log r i) (hn : n.put? r = none) :
    Wrote partition (n :: log) r i := by
  have hall : ∀ m ∈ [n], m.put? r = none := fun m hm => by rw [List.mem_singleton.mp hm, hn]
  exact h.append hall

theorem Honest.append (h : Honest partition log)
    (hn : ∀ n ∈ ns, ∀ r pvols, n ≠ .returned r false pvols) : Honest partition (ns ++ log) := by
  induction ns with
  | nil => exact h
  | cons n ns ih =>
    refine ⟨?_, ih fun m hm => hn m (List.mem_cons_of_mem n hm)⟩
    have hne := hn n List.mem_cons_self
    cases n with
    | returned r err pvols =>
      cases err with
      | true => trivial
      | false => exact absurd rfl (hne r pvols)
    | _ => trivial

theorem Honest.of_append (h : Honest partition (ns ++ n :: log)) : Kept partition n log := by
  induction ns with
  | nil => exact h.1
  | cons _ _ ih => exact ih h.2

end Log

/-! ## The active list -/

variable {ok : Prop}

/-- The active requests are the ones put there last, and the memory version of the
status area has what they ask for, if it is `ok` that later ones do not undo it. -/
structure Active (ok : Prop) (vg : Volgrp) : Prop where
  put : ∀ g ∈ vg.saActLst, lastPut g.1 vg.log = some (g.1, (vg.pbuf g.1).toSaReq)
  rides : ∀ g ∈ vg.saActLst, ∀ r ∈ g.2, lastPut r vg.log = some (g.1, (vg.pbuf r).toSaReq) ∧
    same (vg.pbuf g.1).toSaReq (vg.pbuf r).toSaReq = true
  contains : ok → ∀ g ∈ vg.saActLst, Contains vg.partition (vg.pbuf g.1).toSaReq vg.vgsa

def WroteTo (ok : Prop) (vg : Volgrp) (g : Nat × List Nat) (i : Nat) : Prop :=
  ok → Wrote vg.partition vg.log g.1 i

/-- Nothing has been written since the requests were put on the active list. -/
def Fresh (log : List Note) (gs : List (Nat × List Nat)) : Prop :=
  ∀ g ∈ gs, ∀ r ∈ g.1 :: g.2, ∀ i img, .wrote i img ∉ sincePut r log

/-- Requests come off the front: those of `old` once they are written to every live
area, and perhaps new ones with nothing written. -/
theorem Active.returned (h : Active ok vg) (hh : ok → Honest vg.partition vg.log)
    (hact : vg.saActLst = old ++ news) (hnew : Fresh vg.log news)
    (hr : Returned (WroteTo ok vg) old news vg.log log) :
    (ok → Honest vg.partition log) ∧ ∃ ns, log = ns ++ vg.log ∧ ∀ n ∈ ns, ∀ r, n.put? r = none := by
  obtain ⟨rets, rfl, hn⟩ := hr
  have hput : ∀ n ∈ rets, (∀ r, n.put? r = none) ∧ ∀ i img, n ≠ .wrote i img := by
    intro n hm
    obtain ⟨g, r, -, pvols, rfl, -⟩ := hn n hm
    exact ⟨fun _ => rfl, fun _ _ => Note.noConfusion⟩
  refine ⟨fun hok => ?_, rets, rfl, fun n hm => (hput n hm).1⟩
  induction rets with
  | nil => exact hh hok
  | cons n rets ih =>
    have hrest : ∀ m ∈ rets, (∀ r, m.put? r = none) ∧ ∀ i img, m ≠ .wrote i img := fun m hm =>
      hput m (List.mem_cons_of_mem n hm)
    refine ⟨?_, ih (fun m hm => hn m (List.mem_cons_of_mem n hm)) hrest⟩
    obtain ⟨g, r, hmem, pvols, rfl, hw⟩ := hn n List.mem_cons_self
    have hlog : ∀ x, lastPut x (rets ++ vg.log) = lastPut x vg.log ∧
        sincePut x (rets ++ vg.log) = rets ++ sincePut x vg.log := fun x =>
      lastPut_append fun m hm => (hrest m hm).1 x
    have hg : g ∈ vg.saActLst := by
      rw [hact, List.mem_append]
      exact hw.imp And.left id
    rcases hw with ⟨-, hw⟩ | hg'
    · refine .inl fun i hi hl => ?_
      obtain ⟨req, img, hp, hwr, hc⟩ := hw i hi hl hok
      have hreq := Option.some.inj (hp.symm.trans (h.put g hg))
      rw [Prod.mk.injEq] at hreq
      have hwr' := (hlog g.1).2 ▸ List.mem_append_right rets hwr
      rcases List.mem_cons.mp hmem with rfl | hride
      · exact ⟨g.1, req, img, (hlog g.1).1.trans hp, hwr', hc⟩
      · obtain ⟨hpr, hs⟩ := h.rides g hg r hride
        refine ⟨g.1, _, img, (hlog r).1.trans hpr, hwr', ?_⟩
        exact contains_same hs (hreq.2 ▸ hc)
    · have hsome : (lastPut r vg.log).isSome = true := by
        rcases List.mem_cons.mp hmem with rfl | hride
        · rw [h.put g hg]
          rfl
        · rw [(h.rides g hg r hride).1]
          rfl
      refine .inr ⟨(hlog r).1 ▸ hsome, fun i img hm => ?_⟩
      have hm' : .wrote i img ∈ rets ++ sincePut r vg.log := (hlog r).2 ▸ hm
      exact (List.mem_append.mp hm').elim (fun hm => (hrest _ hm).2 i img rfl)
        (hnew g hg' r hmem i img)

theorem Still.notes (h : Still vg vg') : ∃ ns, vg'.log = ns ++ vg.log ∧
    (∀ n ∈ ns, ∀ r, n.put? r = none) ∧ ∀ n ∈ ns, ∀ r pvols, n ≠ .returned r false pvols := by
  obtain ⟨ns, hl, hn⟩ := h.log
  refine ⟨ns, hl, fun n hm r => ?_, fun n hm r pvols => ?_⟩
  · obtain ⟨r', rfl⟩ := hn n hm
    rfl
  · obtain ⟨r', rfl⟩ := hn n hm
    exact Note.noConfusion

theorem Honest.still (h : ok → Honest vg.partition vg.log) (hs : Still vg vg') (hok : ok) :
    Honest vg'.partition vg'.log := by
  obtain ⟨ns, hlog, -, hn⟩ := hs.notes
  rw [hlog, hs.eq]
  exact (h hok).append hn

/-- Active requests stay so while nothing is put on the list. -/
theorem Active.later (h : Active ok vg) (hsub : ∀ g ∈ vg'.saActLst, g ∈ vg.saActLst)
    (hpb : ∀ r ∈ members vg.saActLst, (vg'.pbuf r).toSaReq = (vg.pbuf r).toSaReq)
    (hpart : vg'.partition = vg.partition)
    (hlast : ∀ r, lastPut r vg'.log = lastPut r vg.log)
    (hv : ∀ req, Contains vg.partition req vg.vgsa → Contains vg.partition req vg'.vgsa) :
    Active ok vg' := by
  have hmem : ∀ g ∈ vg.saActLst, ∀ r ∈ g.1 :: g.2, r ∈ members vg.saActLst := fun g hg r hr =>
    List.mem_flatMap.mpr ⟨g, hg, hr⟩
  have hhead : ∀ g ∈ vg.saActLst, (vg'.pbuf g.1).toSaReq = (vg.pbuf g.1).toSaReq := fun g hg =>
    hpb g.1 (hmem g hg g.1 List.mem_cons_self)
  refine ⟨fun g hg => ?_, fun g hg r hr => ?_, fun hok g hg => ?_⟩
  · have hg' := hsub g hg
    rw [hlast, hhead g hg']
    exact h.put g hg'
  · have hg' := hsub g hg
    rw [hlast, hhead g hg', hpb r (hmem g hg' r (List.mem_cons_of_mem _ hr))]
    exact h.rides g hg' r hr
  · have hg' := hsub g hg
    rw [hpart, hhead g hg']
    exact hv _ (h.contains hok g hg')

theorem Active.still (h : Active ok vg) (hs : Still vg vg') : Active ok vg' := by
  obtain ⟨ns, hlog, hn, -⟩ := hs.notes
  refine h.later (fun g hg => hs.act ▸ hg) (fun r hr => by rw [hs.pbuf r hr]) (by rw [hs.eq])
    (fun r => ?_) fun req hc => by rw [hs.eq]; exact hc
  rw [hlog]
  exact (lastPut_append fun n hm => hn n hm r).1

theorem WroteTo.still (hs : Still vg vg') (h : WroteTo ok vg g i) : WroteTo ok vg' g i := by
  obtain ⟨ns, hlog, hn, -⟩ := hs.notes
  intro hok
  rw [hlog, hs.eq]
  exact (h hok).append fun n hm => hn n hm g.1

/-- Requests in line stay so while the areas keep their numbers or are all behind. -/
theorem InLine.later (h : InLine (WroteTo ok vg) vg gs c j)
    (hheads : old.map Prod.fst = gs.map Prod.fst)
    (hstop : ∀ g ∈ gs, vg'.stop g = vg.stop g) (hf : Fewer vg.pvols vg'.pvols)
    (hw : vg'.whlSeqNum = vg.whlSeqNum ∨ ∀ i < places, live vg'.pvols i = true → vg'.lag i ≠ 0)
    (hwrote : ∀ g ∈ gs, ∀ i, WroteTo ok vg g i → WroteTo ok vg' g i) :
    InLine (WroteTo ok vg') vg' old c j := by
  have hstops : old.map vg'.stop = gs.map vg.stop := by
    have hmap : ∀ gs : List (Nat × List Nat), gs.map vg'.stop =
        (gs.map Prod.fst).map fun r => (vg'.pbuf r).pbWhlStop := fun gs => by
      rw [List.map_map]
      rfl
    rw [hmap, hheads, ← hmap]
    exact List.map_congr_left hstop
  refine ⟨⟨hstops ▸ h.lined.stops, hstops ▸ h.lined.order, fun s hs i hi hl hk hlt => ?_⟩,
    fun g hg i hi hl => ?_⟩
  · obtain ⟨hl', hseq⟩ := hf i hl
    rcases hw with hw | hw
    · rw [lag_congr hseq hw]
      exact h.lined.dirty s (hstops ▸ hs) i hi hl' hk hlt
    · exact hw i hi hl
  · have hmem := List.mem_map_of_mem (f := Prod.fst) hg
    rw [hheads, List.mem_map] at hmem
    obtain ⟨g', hg', he⟩ := hmem
    have hst : vg'.stop g = vg.stop g' := by
      rw [← hstop g' hg']
      unfold Volgrp.stop
      rw [he]
    rw [hst]
    refine (h.seen g' hg' i hi (hf i hl).1).imp_left fun hwr => ?_
    have hto := hwrote g' hg' i hwr
    unfold WroteTo at hto ⊢
    rw [← he]
    exact hto

theorem Still.stop (hs : Still vg vg') (hg : g ∈ vg.saActLst) : vg'.stop g = vg.stop g := by
  unfold Volgrp.stop
  rw [hs.pbuf g.1 (mem_members_of_head hg)]

/-- What holds of the requests where `hd_sa_cont` is called. -/
structure Ready (ok : Prop) (vg : Volgrp) : Prop where
  line : InLine (WroteTo ok vg) vg vg.saActLst vg.wheelIdx 0
  active : Active ok vg
  honest : ok → Honest vg.partition vg.log

theorem Ready.still (h : Ready ok vg) (hs : Still vg vg') : Ready ok vg' := by
  refine ⟨?_, h.active.still hs, Honest.still h.honest hs⟩
  have hact := hs.act
  have hidx : vg'.wheelIdx = vg.wheelIdx := by rw [hs.eq]
  rw [hidx]
  exact h.line.later (by rw [hact]) (fun g hg => hs.stop hg) hs.fewer (.inl (by rw [hs.eq]))
    fun g _ i => WroteTo.still hs

/-! ## Requests on the active list -/

/-- `rs` is left of the hold list and `new` has been put on the active list behind
those that were there, of which some have more requests that ride. -/
structure Listed (ok : Prop) (vg₀ vg : Volgrp) (rs new : List Nat)
    (old news : List (Nat × List Nat)) : Prop where
  act : vg.saActLst = old ++ news
  heads : old.map Prod.fst = vg₀.saActLst.map Prod.fst
  newHeads : news.map Prod.fst = new
  pbuf : vg.pbuf = vg₀.pbuf
  partition : vg.partition = vg₀.partition
  wheelIdx : vg.wheelIdx = vg₀.wheelIdx
  among : ∀ r ∈ rs ++ members vg.saActLst, r ∈ onList vg₀
  line : InLine (WroteTo ok vg) vg old vg.wheelIdx 0
  active : Active ok vg
  honest : ok → Honest vg.partition vg.log
  fresh : Fresh vg.log news
  unmoved : new = [] → vg.pvols = vg₀.pvols ∧ (vg₀.saActLst = [] → rs = vg₀.saHldLst)

theorem Moving.ne_mem (h : Moving (r :: rs) vg) : r ∉ members vg.saActLst := fun hm =>
  (List.nodup_append.mp h.nodup).2.2 r List.mem_cons_self r hm rfl

theorem wroteTo_put (vg : Volgrp) {vg₀ : Volgrp} {hd : Nat} {req : SaReq}
    (hr : r ∉ members vg₀.saActLst)
    (hp : vg.partition = vg₀.partition) (hl : vg.log = .put r hd req :: vg₀.log) :
    ∀ g ∈ vg₀.saActLst, ∀ i, WroteTo ok vg₀ g i → WroteTo ok vg g i := by
  intro g hg i hw hok
  rw [hl, hp]
  refine (hw hok).cons ?_
  have hne : r ≠ g.1 := by
    rintro rfl
    exact hr (mem_members_of_head hg)
  simp [Note.put?, hne]

theorem lastPut_put {hd : Nat} {req : SaReq} (r x : Nat) (log : List Note) :
    lastPut x (.put r hd req :: log) = if r = x then some (hd, req) else lastPut x log := by
  unfold lastPut
  by_cases hx : r = x
  · rw [if_pos hx, List.findSome?_cons_of_isSome (by simp [Note.put?, hx])]
    simp [Note.put?, hx]
  · rw [if_neg hx, List.findSome?_cons_of_isNone (by simp [Note.put?, hx])]

theorem fresh_put {hd x : Nat} {req : SaReq} (h : r = x ∨ ∀ i img, .wrote i img ∉ sincePut x log)
    (i : Nat) (img : VgsaArea) : .wrote i img ∉ sincePut x (.put r hd req :: log) := by
  by_cases hx : r = x
  · simp [sincePut, Note.put?, hx]
  · have hnone : (Note.put r hd req).put? x = none := by simp [Note.put?, hx]
    rw [(lastPut_cons hnone).2, List.mem_cons]
    exact fun hm => hm.elim Note.noConfusion (h.resolve_left hx i img)

theorem Active.ride (h : Active ok vg) (hr : r ∉ members vg.saActLst) {hd : Nat}
    (hf : findSame vg r = some hd) : Active ok (ride vg hd r) := by
  obtain ⟨gh, hgh, rfl, hs⟩ := findSame_some hf
  have hlog : (Wheel.ride vg gh.1 r).log = .put r gh.1 (vg.pbuf r).toSaReq :: vg.log := rfl
  have hne : ∀ g ∈ vg.saActLst, ∀ x ∈ g.1 :: g.2, r ≠ x := by
    rintro g hg x hx rfl
    exact hr (List.mem_flatMap.mpr ⟨g, hg, hx⟩)
  have hact : ∀ g' ∈ (Wheel.ride vg gh.1 r).saActLst, ∃ g ∈ vg.saActLst, g'.1 = g.1 ∧
      ∀ x ∈ g'.2, x ∈ g.2 ∨ x = r ∧ g.1 = gh.1 := by
    intro g' hg'
    have hg'' : g' ∈ vg.saActLst.map fun g => if g.1 = gh.1 then (g.1, g.2 ++ [r]) else g := hg'
    rw [List.mem_map] at hg''
    obtain ⟨g, hg, rfl⟩ := hg''
    refine ⟨g, hg, ?_⟩
    by_cases he : g.1 = gh.1
    · rw [if_pos he]
      refine ⟨rfl, fun x hx => ?_⟩
      rcases List.mem_append.mp hx with hx | hx
      · exact .inl hx
      · exact .inr ⟨List.mem_singleton.mp hx, he⟩
    · rw [if_neg he]
      exact ⟨rfl, fun x hx => .inl hx⟩
  refine ⟨fun g' hg' => ?_, fun g' hg' x hx => ?_, fun hok g' hg' => ?_⟩
  · obtain ⟨g, hg, he, -⟩ := hact g' hg'
    rw [he, hlog, lastPut_put, if_neg (hne g hg g.1 List.mem_cons_self)]
    exact h.put g hg
  · obtain ⟨g, hg, he, hmem⟩ := hact g' hg'
    rw [he, hlog, lastPut_put]
    rcases hmem x hx with hx | ⟨rfl, hgg⟩
    · rw [if_neg (hne g hg x (List.mem_cons_of_mem _ hx))]
      exact h.rides g hg x hx
    · rw [if_pos rfl, hgg]
      exact ⟨rfl, hs⟩
  · obtain ⟨g, hg, he, -⟩ := hact g' hg'
    rw [he]
    exact h.contains hok g hg

theorem Active.putNew (h : Active ok vg) (hr : r ∉ members vg.saActLst) (u : Bool)
    (hno : ok → ∀ g ∈ vg.saActLst,
      ¬Clash vg.partition (vg.pbuf r).toSaReq (vg.pbuf g.1).toSaReq ∧
        ¬Clash vg.partition (vg.pbuf g.1).toSaReq (vg.pbuf r).toSaReq) :
    Active ok (putNew u vg r) := by
  have hv := putNew_vgsa u vg r
  have hne : ∀ g ∈ vg.saActLst, ∀ x ∈ g.1 :: g.2, r ≠ x := by
    rintro g hg x hx rfl
    exact hr (List.mem_flatMap.mpr ⟨g, hg, hx⟩)
  have hact : ∀ g ∈ (Wheel.putNew u vg r).saActLst, g ∈ vg.saActLst ∨ g = (r, []) := by
    intro g hg
    rw [putNew_eq] at hg
    exact (List.mem_append.mp hg).imp_right List.mem_singleton.mp
  have hlog : (Wheel.putNew u vg r).log = .put r r (vg.pbuf r).toSaReq :: vg.log := by
    rw [putNew_eq]
  have hpb : (Wheel.putNew u vg r).pbuf = vg.pbuf := by rw [putNew_eq]
  have hpart : (Wheel.putNew u vg r).partition = vg.partition := by rw [putNew_eq]
  refine ⟨fun g hg => ?_, fun g hg x hx => ?_, fun hok g hg => ?_⟩
  · rw [hlog, lastPut_put, hpb]
    rcases hact g hg with hg | rfl
    · rw [if_neg (hne g hg g.1 List.mem_cons_self)]
      exact h.put g hg
    · rw [if_pos rfl]
  · rcases hact g hg with hg | rfl
    · rw [hlog, lastPut_put, hpb, if_neg (hne g hg x (List.mem_cons_of_mem _ hx))]
      exact h.rides g hg x hx
    · cases hx
  · rw [hpart, hpb, hv]
    rcases hact g hg with hg | rfl
    · exact (h.contains hok g hg).changed (hno hok g hg).1 (hno hok g hg).2
    · exact contains_changed

/-- No request on the wheel marks what another one marks otherwise. -/
def NoClash (vg : Volgrp) : Prop :=
  ∀ a ∈ onList vg, ∀ b ∈ onList vg,
    ¬Clash vg.partition (vg.pbuf a).toSaReq (vg.pbuf b).toSaReq

theorem Listed.ride {vg₀ : Volgrp} (h : Listed ok vg₀ vg (r :: rs) new old news)
    (hm : Moving (r :: rs) vg) {hd : Nat} (hf : findSame vg r = some hd) :
    ∃ old' news', Listed ok vg₀ (ride vg hd r) rs new old' news' := by
  have hr := hm.ne_mem
  have hact : (Wheel.ride vg hd r).saActLst =
      vg.saActLst.map fun g => if g.1 = hd then (g.1, g.2 ++ [r]) else g := rfl
  generalize hfun : (fun g : Nat × List Nat => if g.1 = hd then (g.1, g.2 ++ [r]) else g) = f
    at hact
  have hfst : ∀ gs : List (Nat × List Nat), (gs.map f).map Prod.fst = gs.map Prod.fst := by
    intro gs
    rw [List.map_map]
    refine List.map_congr_left fun g _ => ?_
    rw [← hfun]
    change (if g.1 = hd then (g.1, g.2 ++ [r]) else g).1 = g.1
    split <;> rfl
  refine ⟨old.map f, news.map f, ?_, (hfst old).trans h.heads, (hfst news).trans h.newHeads, h.pbuf,
    h.partition, h.wheelIdx, fun x hx => ?_, ?_, h.active.ride hr hf, ?_, fun g' hg' x hx => ?_,
    fun hn => ?_⟩
  · rw [hact, h.act, List.map_append]
  · have hnod : (vg.saActLst.map Prod.fst).Nodup :=
      heads_nodup (List.nodup_append.mp hm.nodup).2.1
    obtain ⟨g, hg, rfl, -⟩ := findSame_some hf
    have hperm := members_hback (r := r) hnod (List.mem_map_of_mem hg)
    rw [hfun] at hperm
    rw [hact] at hx
    refine h.among x ?_
    rcases List.mem_append.mp hx with hx | hx
    · exact List.mem_append_left _ (List.mem_cons_of_mem _ hx)
    · rcases List.mem_cons.mp (hperm.mem_iff.mp hx) with rfl | hx
      · exact List.mem_append_left _ List.mem_cons_self
      · exact List.mem_append_right _ hx
  · refine h.line.later (hfst old) (fun _ _ => rfl) (Fewer.refl _) (.inl rfl) fun g hg => ?_
    have hlog : (Wheel.ride vg hd r).log = .put r hd (vg.pbuf r).toSaReq :: vg.log := rfl
    exact wroteTo_put (Wheel.ride vg hd r) hr rfl hlog g (h.act ▸ List.mem_append_left _ hg)
  · exact fun hok => ⟨trivial, h.honest hok⟩
  · obtain ⟨g, hg, rfl⟩ := List.mem_map.mp hg'
    have hx' : r = x ∨ x ∈ g.1 :: g.2 := by
      rw [← hfun] at hx
      dsimp only at hx
      by_cases he : g.1 = hd
      · rw [if_pos he, List.mem_cons, List.mem_append, List.mem_singleton] at hx
        rw [List.mem_cons]
        tauto
      · rw [if_neg he] at hx
        exact .inr hx
    exact fresh_put (hx'.imp_right fun hx => h.fresh g hg x hx)
  · obtain ⟨hpv, hnil⟩ := h.unmoved hn
    refine ⟨hpv, fun h0 => ?_⟩
    -- nothing to ride with
    obtain ⟨g, hg, -, -⟩ := findSame_some hf
    have hold : old = [] := by
      have hmap := h.heads
      rw [h0] at hmap
      exact List.map_eq_nil_iff.mp hmap
    have hnews : news = [] := List.map_eq_nil_iff.mp (h.newHeads.trans hn)
    rw [h.act, hold, hnews] at hg
    cases hg

theorem Listed.putNew {vg₀ : Volgrp} (h : Listed ok vg₀ vg (r :: rs) new old news)
    (hm : Moving (r :: rs) vg) (hno : ok → NoClash vg₀) (hp : Paced d vg u) :
    Listed ok vg₀ (putNew u vg r) rs (new ++ [r]) old (news ++ [(r, [])]) := by
  have hr := hm.ne_mem
  have hlog : (Wheel.putNew u vg r).log = .put r r (vg.pbuf r).toSaReq :: vg.log := by
    rw [putNew_eq]
  have hpart : (Wheel.putNew u vg r).partition = vg.partition := by rw [putNew_eq]
  have hidx : (Wheel.putNew u vg r).wheelIdx = vg.wheelIdx := by rw [putNew_eq]
  have hpb : (Wheel.putNew u vg r).pbuf = vg.pbuf := by rw [putNew_eq]
  have hact : (Wheel.putNew u vg r).saActLst = vg.saActLst ++ [(r, [])] := by rw [putNew_eq]
  refine ⟨?_, h.heads, ?_, hpb.trans h.pbuf, hpart.trans h.partition, hidx.trans h.wheelIdx,
    fun x hx => ?_, ?_, h.active.putNew hr u fun hok g hg => ?_, ?_, fun g hg x hx => ?_,
    fun hn => ?_⟩
  · rw [hact, h.act, List.append_assoc]
  · rw [List.map_append, h.newHeads]
    rfl
  · rw [hact, members_append] at hx
    refine h.among x ?_
    rcases List.mem_append.mp hx with hx | hx
    · exact List.mem_append_left _ (List.mem_cons_of_mem _ hx)
    · rcases List.mem_append.mp hx with hx | hx
      · exact List.mem_append_right _ hx
      · have hxr : x ∈ [r] := hx
        rw [List.mem_singleton.mp hxr]
        exact List.mem_append_left _ List.mem_cons_self
  · rw [hidx]
    refine h.line.later rfl (fun g _ => ?_) (fewer_putNew u vg r)
      (.inr ((hp.putNew r).fresh rfl)) fun g hg => ?_
    · unfold Volgrp.stop
      rw [hpb]
    · exact wroteTo_put _ hr hpart hlog g (h.act ▸ List.mem_append_left _ hg)
  · have hin : ∀ x ∈ r :: members vg.saActLst, x ∈ onList vg₀ := by
      intro x hx
      refine h.among x ?_
      rcases List.mem_cons.mp hx with rfl | hx
      · exact List.mem_append_left _ List.mem_cons_self
      · exact List.mem_append_right _ hx
    have hg' := hin g.1 (List.mem_cons_of_mem _ (mem_members_of_head hg))
    have hr' := hin r List.mem_cons_self
    rw [h.partition, h.pbuf]
    exact ⟨hno hok r hr' g.1 hg', hno hok g.1 hg' r hr'⟩
  · rw [hlog, hpart]
    exact fun hok => ⟨trivial, h.honest hok⟩
  · rw [hlog]
    refine fresh_put ?_
    rcases List.mem_append.mp hg with hg | hg
    · exact .inr (h.fresh g hg x hx)
    · rw [List.mem_singleton.mp hg, List.mem_singleton] at hx
      exact .inl hx.symm
  · exact absurd hn (List.append_ne_nil_of_right_ne_nil _ (List.cons_ne_nil _ _))

/-- The hold list is moved behind the active list. -/
theorem listed_movedList (h : Ready ok vg) (hno : ok → NoClash vg) (hled : Ledger vg)
    (hp : Paced d vg u) :
    ∃ u' old news, Listed ok vg (movedList vg u).1 [] (movedList vg u).2 old news ∧
      Paced d (movedList vg u).1 u' ∧ (u = true ∨ (movedList vg u).2 ≠ [] → u' = true) := by
  have hstart : Paced d { vg with saHldLst := [] } u :=
    ⟨hp.lt, hp.fresh, hp.room, hp.falling, hp.disk⟩
  have hmoving : Moving vg.saHldLst { vg with saHldLst := [] } := hled
  have hlisted : Listed ok vg { vg with saHldLst := [] } vg.saHldLst [] vg.saActLst [] :=
    ⟨(List.append_nil _).symm, rfl, rfl, rfl, rfl, rfl, fun _ h => h,
      ⟨⟨h.line.lined.stops, h.line.lined.order, h.line.lined.dirty⟩, h.line.seen⟩,
      ⟨h.active.put, h.active.rides, h.active.contains⟩, h.honest,
      fun _ hg => absurd hg List.not_mem_nil, fun _ => ⟨rfl, fun _ => rfl⟩⟩
  have hrule := moveHold_rule
    (P := fun rs u' vg' new => Moving rs vg' ∧ Paced d vg' u' ∧ (u = true ∨ new ≠ [] → u' = true) ∧
      ∃ old news, Listed ok vg vg' rs new old news) ?_ ?_ vg.saHldLst u { vg with saHldLst := [] } []
    ⟨hmoving, hstart, fun hu => hu.resolve_right fun hn => hn rfl, _, _, hlisted⟩
  · obtain ⟨u', -, hpaced, hu, old, news, hl⟩ := hrule
    exact ⟨u', old, news, hl, hpaced, hu⟩
  · rintro r rs u' vg' new hd ⟨hm, hpaced, hu, old, news, hl⟩ hf
    exact ⟨moving_ride hm hf, hpaced.ride hd r, hu, hl.ride hm hf⟩
  · rintro r rs u' vg' new ⟨hm, hpaced, hu, old, news, hl⟩ -
    exact ⟨moving_putNew hm u', hpaced.putNew r, fun _ => rfl, _, _, hl.putNew hm hno hpaced⟩

/-! ## The index is advanced past requests -/

/-- What an advance leaves on the list, with `news` at its end. -/
theorem advanced_inLine (hc : vg.wheelIdx < places) (hact : vg.saActLst = old ++ news)
    (hl : InLine (WroteTo ok vg) vg old vg.wheelIdx 1) (ha : Active ok vg)
    (hh : ok → Honest vg.partition vg.log) (hnew : Fresh vg.log news)
    (again : List (Nat × Pbuf)) :
    let vg' := hdSaWhladv vg again
    ∃ left news', vg'.saActLst = left ++ news' ∧ left <:+ old ∧ news' <:+ news ∧
      InLine (WroteTo ok vg') vg' left vg'.wheelIdx 0 ∧ Active ok vg' ∧
      (ok → Honest vg'.partition vg'.log) := by
  intro vg'
  obtain ⟨left, news', hp⟩ := whladv_inLine (W := WroteTo ok vg) hc hact hl
  have hadv := advanced_whladv vg places vg.wheelIdx
  have hs : Still _ vg' := still_hdSaWhladv vg again
  generalize whladv places vg vg.wheelIdx = w at *
  obtain ⟨hhon, ns, hlog, hns⟩ := ha.returned hh hact hnew hp.returned
  have hpart : w.1.partition = vg.partition := by rw [hadv.eq]
  have hactive : Active ok w.1 := by
    refine ha.later (fun g hg => hadv.suffix.subset hg) (fun r _ => by rw [hadv.eq]) hpart
      (fun r => ?_) fun req hcon => by rw [hadv.eq]; exact hcon
    rw [hlog]
    exact (lastPut_append fun n hm => hns n hm r).1
  have hline : InLine (WroteTo ok w.1) w.1 left w.2 0 := by
    refine ⟨hp.line.lined, fun g hg i hi hli => (hp.line.seen g hg i hi hli).imp_left fun hw => ?_⟩
    intro hok
    rw [hlog, hpart]
    exact (hw hok).append fun n hm => hns n hm g.1
  refine ⟨left, news', hs.act.trans hp.act, hp.back, hp.newBack, ?_, ?_, ?_⟩
  · have hidx : vg'.wheelIdx = w.2 := by rw [hs.eq]
    have hmem : ∀ g ∈ left, g ∈ w.1.saActLst := fun g hg => by
      rw [hp.act]
      exact List.mem_append_left _ hg
    have hline' : InLine (WroteTo ok { w.1 with wheelIdx := w.2 }) { w.1 with wheelIdx := w.2 }
        left w.2 0 := ⟨⟨hline.lined.stops, hline.lined.order, hline.lined.dirty⟩, hline.seen⟩
    rw [hidx]
    exact hline'.later rfl (fun g hg => hs.stop (hmem g hg)) hs.fewer (.inl (by rw [hs.eq]))
      fun g _ i => WroteTo.still hs
  · have hactive' : Active ok { w.1 with wheelIdx := w.2 } :=
      ⟨hactive.put, hactive.rides, hactive.contains⟩
    exact hactive'.still hs
  · have hhon' : ok → Honest ({ w.1 with wheelIdx := w.2 } : Volgrp).partition w.1.log :=
      hpart.symm ▸ hhon
    exact Honest.still hhon' hs

theorem findArea_inLine {vg₀ : Volgrp} {m : Volgrp × List Nat}
    (h : Listed ok vg₀ m.1 [] m.2 old news) (hp : Paced d m.1 u) (again : List (Nat × Pbuf)) :
    let vg' := findArea m.1 again
    ∃ left news', vg'.saActLst = left ++ news' ∧ left <:+ old ∧ news' <:+ news ∧
      InLine (WroteTo ok vg') vg' left vg'.wheelIdx 0 ∧ Active ok vg' ∧
      (ok → Honest vg'.partition vg'.log) := by
  unfold findArea
  split
  next =>
    exact ⟨old, news, h.act, List.suffix_refl _, List.suffix_refl _, h.line, h.active, h.honest⟩
  next hl =>
    rw [Bool.not_eq_true] at hl
    have hline := h.line.dead (fun _ _ => rfl) (Fewer.refl _) rfl hp.lt hl
    exact advanced_inLine hp.lt h.act hline h.active h.honest h.fresh again

theorem setStops_pbuf (vg : Volgrp) (rs : List Nat) (r : Nat) : (setStops vg rs).pbuf r =
    if r ∈ rs then { vg.pbuf r with pbWhlStop := vg.wheelIdx } else vg.pbuf r := by
  unfold setStops
  induction rs generalizing vg with
  | nil => rfl
  | cons a rs ih =>
    rw [List.foldl_cons, ih]
    by_cases hr : r = a
    · subst hr
      simp [setPbuf]
    · simp [setPbuf, hr]

/-- The new requests are done when the wheel comes to the index again. -/
theorem ready_setStops {left : List (Nat × List Nat)} (hact : vg.saActLst = left ++ news)
    (hnews : ∀ g ∈ news, g.1 ∈ new) (hold : ∀ g ∈ left, g.1 ∉ new)
    (hl : InLine (WroteTo ok vg) vg left vg.wheelIdx 0) (ha : Active ok vg)
    (hh : ok → Honest vg.partition vg.log) (hp : Paced d vg u) (hu : new ≠ [] → u = true) :
    Ready ok (setStops vg new) := by
  have hframe := setStops_frame vg new
  have hactive : Active ok (setStops vg new) := by
    refine ha.later (fun g hg => ?_) (fun r _ => ?_) (by rw [hframe]) (fun r => by rw [hframe])
      fun req hcon => by rw [hframe]; exact hcon
    · rw [hframe] at hg
      exact hg
    · rw [setStops_pbuf]
      split <;> rfl
  have hleft : ∀ g ∈ left, (setStops vg new).stop g = vg.stop g := by
    intro g hg
    unfold Volgrp.stop
    rw [setStops_pbuf, if_neg (hold g hg)]
  have hstop : ∀ g ∈ news, (setStops vg new).stop g = vg.wheelIdx := by
    intro g hg
    unfold Volgrp.stop
    rw [setStops_pbuf, if_pos (hnews g hg)]
  have hfresh : ∀ g ∈ news, ∀ i < places, live vg.pvols i = true → vg.lag i ≠ 0 := by
    exact fun g hg => hp.fresh (hu (List.ne_nil_of_mem (hnews g hg)))
  have hline : InLine (WroteTo ok (setStops vg new)) (setStops vg new) left vg.wheelIdx 0 := by
    refine hl.later rfl hleft ?_ (.inl (by rw [hframe])) fun g _ i hw hok => ?_
    · rw [hframe]
      exact Fewer.refl _
    · rw [hframe]
      exact hw hok
  have hidx : (setStops vg new).wheelIdx = vg.wheelIdx := by rw [hframe]
  have hacts : (setStops vg new).saActLst = left ++ news := by rw [hframe]; exact hact
  refine ⟨?_, hactive, by rw [hframe]; exact hh⟩
  rw [hacts, hidx]
  refine ⟨⟨fun s hs => ?_, ?_, fun s hs i hi hli hk hlt => ?_⟩, fun g hg i hi hli => ?_⟩
  · rw [List.map_append, List.mem_append] at hs
    rcases hs with hs | hs
    · exact hline.lined.stops s hs
    · obtain ⟨g, hg, rfl⟩ := List.mem_map.mp hs
      rw [hstop g hg]
      exact hp.lt
  · rw [List.map_append, List.pairwise_append]
    refine ⟨hline.lined.order, List.pairwise_of_forall_mem_list ?_, fun a ha b hb => ?_⟩
    · intro a ha b hb
      obtain ⟨g, hg, rfl⟩ := List.mem_map.mp ha
      obtain ⟨g', hg', rfl⟩ := List.mem_map.mp hb
      rw [hstop g hg, hstop g' hg']
    · obtain ⟨g, hg, rfl⟩ := List.mem_map.mp hb
      rw [hstop g hg, lap_self hp.lt]
      exact lap_le hp.lt (hline.lined.stops a ha)
  · rw [List.map_append, List.mem_append] at hs
    rcases hs with hs | hs
    · exact hline.lined.dirty s hs i hi hli hk hlt
    · obtain ⟨g, hg, rfl⟩ := List.mem_map.mp hs
      rw [hframe] at hli ⊢
      exact hfresh g hg i hi hli
  · rcases List.mem_append.mp hg with hg | hg
    · exact hline.seen g hg i hi hli
    · refine .inr ⟨Nat.zero_le _, ?_⟩
      rw [hstop g hg, lap_self hp.lt]
      exact ahead_lt hp.lt hi

/-! ## Areas with requests are written -/

/-- What holds of the requests while an area is written. -/
structure Rolling (ok : Prop) (vg : Volgrp) : Prop where
  lined : Lined vg (vg.saActLst.map vg.stop) vg.wheelIdx 1
  seen : ∀ g ∈ vg.saActLst, ∀ i < places, live vg.pvols i = true →
    WroteTo ok vg g i ∨ ahead places vg.wheelIdx i < lap places vg.wheelIdx (vg.stop g)
  active : Active ok vg
  honest : ok → Honest vg.partition vg.log

theorem Ready.wrt (h : Ready ok vg) {pv : Pvol} (hp : vg.pvols (vg.wheelIdx / 2) = some pv) :
    Rolling ok (hdSaWrt vg) := by
  have hframe := hdSaWrt_frame vg
  have hidx : (hdSaWrt vg).wheelIdx = vg.wheelIdx := by rw [hframe]
  have hact : (hdSaWrt vg).saActLst = vg.saActLst := by rw [hframe]
  have hstop : ∀ g, (hdSaWrt vg).stop g = vg.stop g := fun g => by
    unfold Volgrp.stop
    rw [hframe]
  have hmap : (hdSaWrt vg).saActLst.map (hdSaWrt vg).stop = vg.saActLst.map vg.stop := by
    rw [hact]
    exact List.map_congr_left fun g _ => hstop g
  refine ⟨⟨?_, ?_, fun s hs i hi hl hk hlt => ?_⟩, fun g hg i hi hl => ?_, ?_, ?_⟩
  · rw [hmap]
    exact h.line.lined.stops
  · rw [hmap, hidx]
    exact h.line.lined.order
  · rw [hmap] at hs
    rw [live_hdSaWrt] at hl
    rw [hidx] at hk hlt
    have hne : i ≠ vg.wheelIdx := by
      rintro rfl
      rw [ahead_self] at hk
      omega
    rw [lag_hdSaWrt hp, if_neg hne]
    exact h.line.lined.dirty s hs i hi hl (Nat.zero_le _) hlt
  · rw [hact] at hg
    rw [live_hdSaWrt] at hl
    rw [hidx, hstop]
    unfold WroteTo
    rw [hframe]
    exact (h.line.seen g hg i hi hl).imp_right And.right
  · refine h.active.later (fun g hg => hact ▸ hg) (fun r _ => by rw [hframe]) (by rw [hframe])
      (fun r => by rw [hframe]) fun req hcon => by rw [hframe]; exact hcon
  · rw [hframe]
    exact h.honest

theorem Ready.advanced (hc : vg.wheelIdx < places)
    (hl : InLine (WroteTo ok vg) vg vg.saActLst vg.wheelIdx 1) (ha : Active ok vg)
    (hh : ok → Honest vg.partition vg.log) (again : List (Nat × Pbuf)) :
    Ready ok (hdSaWhladv vg again) := by
  obtain ⟨left, news', hact, -, hnil, hline, hactive, hhon⟩ := advanced_inLine hc
    (List.append_nil _).symm hl ha hh (fun _ hg => absurd hg List.not_mem_nil) again
  rw [List.suffix_nil.mp hnil, List.append_nil] at hact
  exact ⟨hact ▸ hline, hactive, hhon⟩

theorem Rolling.wrote (h : Rolling ok vg) (hw : Writing d vg) (again : List (Nat × Pbuf)) :
    Ready ok (hdSaWhladv (vg.note (.wrote vg.wheelIdx vg.written)) again) := by
  have hput : ∀ r, (Note.wrote vg.wheelIdx vg.written).put? r = none := fun _ => rfl
  have hlast : ∀ r, lastPut r (.wrote vg.wheelIdx vg.written :: vg.log) = lastPut r vg.log ∧
      sincePut r (.wrote vg.wheelIdx vg.written :: vg.log) =
        .wrote vg.wheelIdx vg.written :: sincePut r vg.log := fun r =>
    lastPut_cons (hput r)
  have hlt : (vg.note (.wrote vg.wheelIdx vg.written)).wheelIdx < places := hw.lt
  refine Ready.advanced hlt ⟨⟨h.lined.stops, h.lined.order, h.lined.dirty⟩,
    fun g hg i hi hl => ?_⟩ ?_ ?_ again
  · by_cases hi' : i = vg.wheelIdx
    · refine .inl fun hok => ⟨_, vg.written, (hlast g.1).1.trans (h.active.put g hg), ?_, ?_⟩
      · change _ ∈ sincePut g.1 (.wrote vg.wheelIdx vg.written :: vg.log)
        rw [(hlast g.1).2, hi']
        exact List.mem_cons_self
      · rw [hw.image]
        exact h.active.contains hok g hg
    · refine (h.seen g hg i hi hl).imp (fun hwr hok => ?_) fun hle => ⟨?_, hle⟩
      · exact Wrote.cons (hwr hok) (hput _)
      · exact Nat.pos_of_ne_zero fun h0 => hi' ((ahead_eq_zero hw.lt).mp h0)
  · exact h.active.later (fun _ hg => hg) (fun _ _ => rfl) rfl (fun r => (hlast r).1)
      fun _ hcon => hcon
  · exact fun hok => ⟨trivial, h.honest hok⟩

theorem Rolling.failed (h : Rolling ok vg) (hw : Writing d vg) (again : List (Nat × Pbuf)) :
    Ready ok (hdSaWhladv (failed vg) again) := by
  have hframe := failed_eq vg
  have hf : Fewer vg.pvols (Wheel.failed vg).pvols := by
    rw [hframe]
    exact fewer_setMissing vg _
  have hidx : (Wheel.failed vg).wheelIdx = vg.wheelIdx := by rw [hframe]
  have hact : (Wheel.failed vg).saActLst = vg.saActLst := by rw [hframe]
  have hlog : (Wheel.failed vg).log = vg.log := by rw [hframe]
  have hpart : (Wheel.failed vg).partition = vg.partition := by rw [hframe]
  have hstop : ∀ g, (Wheel.failed vg).stop g = vg.stop g := fun g => by
    unfold Volgrp.stop
    rw [hframe]
  have hmap : (Wheel.failed vg).saActLst.map (Wheel.failed vg).stop = vg.saActLst.map vg.stop := by
    rw [hact]
    exact List.map_congr_left fun g _ => hstop g
  refine Ready.advanced (hidx ▸ hw.lt) ⟨⟨?_, ?_, fun s hs i hi hl hk hlt => ?_⟩,
    fun g hg i hi hl => ?_⟩ ?_ ?_ again
  · rw [hmap]
    exact h.lined.stops
  · rw [hmap, hidx]
    exact h.lined.order
  · rw [(hw.lag_failed hi hl).1]
    exact Nat.succ_ne_zero _
  · rw [hact] at hg
    rw [hidx, hstop]
    unfold WroteTo
    rw [hlog, hpart]
    refine (h.seen g hg i hi (hf i hl).1).imp_right fun hle => ⟨?_, hle⟩
    exact Nat.pos_of_ne_zero fun h0 => (hw.lag_failed hi hl).2.2 ((ahead_eq_zero hw.lt).mp h0)
  · refine h.active.later (fun g hg => hact ▸ hg) (fun r _ => by rw [hframe]) hpart
      (fun r => by rw [hlog]) fun req hcon => ?_
    rw [hframe]
    exact hcon.setPvmiss _
  · rw [hlog, hpart]
    exact h.honest

/-! ## The wheel is closed -/

theorem foldl_notes {α : Type} {p : Note → Prop} {f : Volgrp → α → Volgrp}
    (hf : ∀ vg a, ∃ ns, (f vg a).log = ns ++ vg.log ∧ ∀ n ∈ ns, p n) (xs : List α) (vg : Volgrp) :
    ∃ ns, (xs.foldl f vg).log = ns ++ vg.log ∧ ∀ n ∈ ns, p n := by
  induction xs generalizing vg with
  | nil => exact ⟨[], rfl, fun _ h => absurd h List.not_mem_nil⟩
  | cons x xs ih =>
    obtain ⟨ns, hl, hn⟩ := hf vg x
    obtain ⟨ns', hl', hn'⟩ := ih (f vg x)
    refine ⟨ns' ++ ns, ?_, fun n hm => (List.mem_append.mp hm).elim (hn' n) (hn n)⟩
    rw [List.foldl_cons, hl', hl, List.append_assoc]

theorem honest_closeWheel (h : ok → Honest vg.partition vg.log) (hok : ok) :
    Honest (closeWheel vg).partition (closeWheel vg).log := by
  have hone : ∀ (vg : Volgrp) (r : Nat), ∃ ns, (rtnOne true vg r).log = ns ++ vg.log ∧
      ∀ n ∈ ns, ∃ r pvols, n = .returned r true pvols := fun vg r =>
    ⟨[_], rfl, fun n hn => ⟨r, _, List.mem_singleton.mp hn⟩⟩
  have hgrp : ∀ (vg : Volgrp) (g : Nat × List Nat), ∃ ns, (hdSaRtn vg g true).log = ns ++ vg.log ∧
      ∀ n ∈ ns, ∃ r pvols, n = .returned r true pvols := fun vg g => foldl_notes hone _ vg
  obtain ⟨ns, hl, hn⟩ := foldl_notes hgrp vg.saActLst { vg with saActLst := [] }
  have hlog : (closeWheel vg).log = ns ++ vg.log := hl
  have hpart : (closeWheel vg).partition = vg.partition := by rw [closeWheel_frame]
  rw [hlog, hpart]
  refine (h hok).append fun n hm r pvols he => ?_
  obtain ⟨r', pvols', rfl⟩ := hn n hm
  cases he

/-! ## Runs -/

/-- Where `hd_sa_cont` is called, no request on the wheel marks what another one
marks otherwise. -/
def Sound (vg : Volgrp) : Act → Prop
  | .strt p _ =>
    vg.forcedoff = false → vg.saWhlAct = false → NoClash { queue vg p with saWhlAct := true }
  | .iodone true again _ => NoClash (hdSaWhladv (failed vg) again)
  | .iodone false again _ => NoClash (hdSaWhladv (vg.note (.wrote vg.wheelIdx vg.written)) again)

/-- Where the wheel has stopped, no request is on it if there is an area. -/
structure Served (ok : Prop) (vg : Volgrp) : Prop where
  honest : ok → Honest vg.partition vg.log
  idle : vg.forcedoff = false → vg.saWhlAct = false →
    Ready ok vg ∧ ((∃ i < places, live vg.pvols i = true) → onList vg = [])
  rolling : vg.forcedoff = false → vg.saWhlAct = true → .crashed ∉ vg.log → Rolling ok vg

theorem fewer_findArea (vg : Volgrp) (again : List (Nat × Pbuf)) :
    Fewer vg.pvols (findArea vg again).pvols := by
  unfold findArea
  split
  next => exact Fewer.refl _
  next =>
    have hadv := (advanced_whladv vg places vg.wheelIdx).fewer
    exact hadv.trans (still_hdSaWhladv vg again).fewer

/-- With nothing on the active list no request is returned, and none is queued. -/
theorem findArea_nil (h : vg.saActLst = []) (again : List (Nat × Pbuf)) :
    (findArea vg again).saActLst = [] ∧ (findArea vg again).saHldLst = vg.saHldLst := by
  unfold findArea
  split
  next => exact ⟨h, rfl⟩
  next =>
    have hadv := advanced_whladv vg places vg.wheelIdx
    have hnil : (whladv places vg vg.wheelIdx).1.saActLst = [] := by
      have hsuf := hadv.suffix
      rw [h] at hsuf
      exact List.suffix_nil.mp hsuf
    have hhld : (whladv places vg vg.wheelIdx).1.saHldLst = vg.saHldLst := by rw [hadv.eq]
    unfold hdSaWhladv
    simp only
    rw [hnil, h, if_neg (Nat.lt_irrefl _)]
    exact ⟨rfl, hhld⟩

/-- The wheel stops only with nothing on it. -/
theorem onList_of_stop {vg₀ : Volgrp} {m : Volgrp × List Nat}
    (h : Listed ok vg₀ m.1 [] m.2 old news) (hlt : m.1.wheelIdx < places) (hn : m.2 = [])
    (hhld : m.1.saHldLst = []) (hs : Stands vg₀ ∨ vg₀.saActLst = []) (again : List (Nat × Pbuf))
    (hlag : ∀ i < places, live (findArea m.1 again).pvols i = true →
      (findArea m.1 again).lag i = 0)
    (hsome : ∃ i < places, live (findArea m.1 again).pvols i = true) :
    onList (findArea m.1 again) = [] := by
  have hnews : news = [] := List.map_eq_nil_iff.mp (h.newHeads.trans hn)
  have hact : m.1.saActLst = old := by rw [h.act, hnews, List.append_nil]
  have hempty : old = [] → onList (findArea m.1 again) = [] := by
    intro hold
    obtain ⟨ha, hh⟩ := findArea_nil (hact.trans hold) again
    unfold onList
    rw [ha, hh, hhld]
    rfl
  rcases hs with (hl | hnone) | hnil
  · refine hempty ?_
    rw [← h.wheelIdx, ← (h.unmoved hn).1] at hl
    have hfind : findArea m.1 again = m.1 := if_pos hl
    rw [hfind] at hlag
    -- a request left would have the area behind
    by_contra hne
    obtain ⟨g, hg⟩ := List.exists_mem_of_ne_nil old hne
    refine h.line.lined.dirty (m.1.stop g) (List.mem_map_of_mem hg) _ hlt hl (Nat.zero_le _) ?_
      (hlag _ hlt hl)
    rw [ahead_self]
    exact lap_pos ..
  · obtain ⟨i, hi, hl⟩ := hsome
    have hl' := (fewer_findArea m.1 again i hl).1
    rw [(h.unmoved hn).1, hnone i hi] at hl'
    cases hl'
  · refine hempty ?_
    have hheads := h.heads
    rw [hnil] at hheads
    exact List.map_eq_nil_iff.mp hheads

theorem act_nil (h : onList vg = []) : vg.saActLst = [] := by
  unfold onList members at h
  rw [List.append_eq_nil_iff, List.flatMap_eq_nil_iff] at h
  by_contra hne
  obtain ⟨g, hg⟩ := List.exists_mem_of_ne_nil _ hne
  exact List.cons_ne_nil _ _ (h.2 g hg)

theorem served_writeNext (hact : vg.saWhlAct = true) (h : Ready ok vg)
    (hstop : ∀ q, vg.saSeq vg.wheelIdx = some q → vg.whlSeqNum = q →
      (∃ i < places, live vg.pvols i = true) → onList vg = []) : Served ok (writeNext vg) := by
  unfold writeNext
  cases hq : vg.saSeq vg.wheelIdx with
  | none =>
    refine ⟨fun hok => ⟨trivial, h.honest hok⟩, fun _ ha => ?_,
      fun _ _ hcr => absurd List.mem_cons_self hcr⟩
    exact absurd (hact.symm.trans ha) (by decide)
  | some q =>
    simp only
    split
    next =>
      have hpv : ∃ pv, vg.pvols (vg.wheelIdx / 2) = some pv := by
        unfold saSeq at hq
        rw [Option.map_eq_some_iff] at hq
        obtain ⟨pv, hpv, -⟩ := hq
        exact ⟨pv, hpv⟩
      obtain ⟨pv, hpv⟩ := hpv
      have hroll := h.wrt hpv
      refine ⟨hroll.honest, fun _ ha => ?_, fun _ _ _ => hroll⟩
      rw [hdSaWrt_frame] at ha
      exact absurd (hact.symm.trans ha) (by decide)
    next heq =>
      exact ⟨h.honest, fun _ _ => ⟨⟨⟨⟨h.line.lined.stops, h.line.lined.order, h.line.lined.dirty⟩,
        h.line.seen⟩, ⟨h.active.put, h.active.rides, h.active.contains⟩, h.honest⟩,
        hstop q hq (not_not.mp heq)⟩, fun _ ha => absurd ha Bool.false_ne_true⟩

theorem served_hdSaCont (hcw : vg.configWait = false) (hact : vg.saWhlAct = true)
    (hled : Ledger vg) (hp : Paced d vg u) (h : Ready ok vg) (hno : ok → NoClash vg)
    (hs : u = false → Stands vg ∨ vg.saActLst = []) (again : List (Nat × Pbuf)) :
    Served ok (hdSaCont vg u again) := by
  obtain ⟨u', old, news, hl, hmove, hu⟩ := listed_movedList h hno hled hp
  have hledm := ledger_movedList hled u
  have hmact : (movedList vg u).1.saWhlAct = true := by rw [movedList_frame]; exact hact
  have hmhld : (movedList vg u).1.saHldLst = [] := by rw [movedList_frame]
  rw [hdSaCont_eq hcw]
  generalize movedList vg u = m at *
  unfold turnWheel
  split
  next hoff =>
    have hoff' : (closeWheel m.1).forcedoff = true := by rw [closeWheel_frame]; exact hoff
    exact ⟨honest_closeWheel hl.honest, fun hc => absurd (hoff'.symm.trans hc) (by decide),
      fun hc => absurd (hoff'.symm.trans hc) (by decide)⟩
  next hoff =>
    rw [Bool.not_eq_true] at hoff
    obtain ⟨left, news', hfact, hleft, hnews, hfline, hfactive, hfhon⟩ :=
      findArea_inLine hl hmove again
    obtain ⟨hpaced, hstands⟩ := paced_findArea hmove again
    have hnod : (m.1.saActLst.map Prod.fst).Nodup :=
      heads_nodup (List.nodup_append.mp hledm.nodup).2.1
    rw [hl.act, List.map_append, List.nodup_append, hl.newHeads] at hnod
    have hnew : ∀ g ∈ news', g.1 ∈ m.2 := fun g hg =>
      hl.newHeads ▸ List.mem_map_of_mem (hnews.subset hg)
    have hold : ∀ g ∈ left, g.1 ∉ m.2 := fun g hg hm =>
      hnod.2.2 g.1 (List.mem_map_of_mem (hleft.subset hg)) g.1 hm rfl
    have hready := ready_setStops hfact hnew hold hfline hfactive hfhon hpaced
      fun hn => hu (.inr hn)
    have hfact' : (findArea m.1 again).saWhlAct = true := by rw [findArea_frame]; exact hmact
    refine served_writeNext (by rw [setStops_frame]; exact hfact') hready
      fun q hq heq hsome => ?_
    rw [setStops_frame] at hq heq hsome
    obtain ⟨hpf, hlag⟩ := hpaced.current hstands fun _ => lag_of_current (heq ▸ hq)
    have hun' : u' = false := by
      by_contra hne
      rw [Bool.not_eq_false] at hne
      obtain ⟨i, hi, hli⟩ := hsome
      exact hpaced.fresh hne i hi hli (hlag i hi hli)
    have hn : m.2 = [] := by
      by_contra hne
      rw [hu (.inr hne)] at hun'
      cases hun'
    have huf : u = false := by
      by_contra hne
      rw [Bool.not_eq_false] at hne
      rw [hu (.inl hne)] at hun'
      cases hun'
    have hon := onList_of_stop hl hmove.lt hn hmhld (hs huf) again hlag hsome
    unfold onList at hon ⊢
    rw [setStops_frame]
    exact hon

theorem Served.step (h : Served ok vg) (hb : Between d vg) (hcr : .crashed ∉ vg.log) {a : Act}
    (ha : able vg a = true) (hsound : ok → Sound vg a) : Served ok (step vg a) := by
  rcases step_cases hb.saWhlHld a with heq | ⟨p, again, rfl, hoff, heq, hact⟩ |
    ⟨p, again, rfl, hoff, hact, heq⟩ | ⟨e, again, again', rfl⟩
  · rw [heq]
    exact h
  · rw [heq]
    have hs := still_queue vg p
    have hroll := h.rolling hoff hact hcr
    have hact' : (queue vg p).saWhlAct = true := by rw [hs.eq]; exact hact
    have hline := hroll.active.still hs
    refine ⟨Honest.still h.honest hs, fun _ hi => absurd (hact'.symm.trans hi) (by decide),
      fun _ _ _ => ⟨?_, fun g hg i hi hl => ?_, hline, Honest.still h.honest hs⟩⟩
    · have hmap : (queue vg p).saActLst.map (queue vg p).stop = vg.saActLst.map vg.stop := by
        rw [hs.act]
        exact List.map_congr_left fun g hg => hs.stop hg
      have hidx : (queue vg p).wheelIdx = vg.wheelIdx := by rw [hs.eq]
      rw [hmap, hidx]
      exact hroll.lined.fewer hs.fewer (by rw [hs.eq]) le_rfl
    · rw [hs.act] at hg
      have hidx : (queue vg p).wheelIdx = vg.wheelIdx := by rw [hs.eq]
      rw [hidx, hs.stop hg]
      exact (hroll.seen g hg i hi (hs.fewer i hl).1).imp_left (WroteTo.still hs)
  · rw [heq]
    have hs := still_queue vg p
    have hpaced := (hb.idle hoff hact).1.still hs
    obtain ⟨hready, hempty⟩ := h.idle hoff hact
    have hready' := hready.still hs
    have hcw : ({ queue vg p with saWhlAct := true } : Volgrp).configWait = false := by
      rw [hs.eq]
      exact hb.configWait
    have hstand : Stands ({ queue vg p with saWhlAct := true } : Volgrp) ∨
        ({ queue vg p with saWhlAct := true } : Volgrp).saActLst = [] := by
      by_cases hsome : ∃ i < places, live vg.pvols i = true
      · exact .inr (hs.act.trans (act_nil (hempty hsome)))
      · refine .inl (.inr fun i hi => ?_)
        by_contra hne
        rw [Bool.not_eq_false] at hne
        have hne' : live (queue vg p).pvols i = true := hne
        exact hsome ⟨i, hi, (hs.fewer i hne').1⟩
    exact served_hdSaCont hcw rfl (ledger_queue hb.ledger p)
      ⟨hpaced.lt, hpaced.fresh, hpaced.room, hpaced.falling, hpaced.disk⟩
      ⟨⟨⟨hready'.line.lined.stops, hready'.line.lined.order, hready'.line.lined.dirty⟩,
        hready'.line.seen⟩, ⟨hready'.active.put, hready'.active.rides, hready'.active.contains⟩,
        hready'.honest⟩ (fun hok => hsound hok hoff hact) (fun _ => hstand) again
  · have hact : vg.saWhlAct = true := ha
    have hoff : vg.forcedoff = false := by
      by_contra hne
      rw [Bool.not_eq_false] at hne
      rw [(hb.closed hne).1] at hact
      cases hact
    have hw := hb.rolling hoff hact hcr
    have hroll := h.rolling hoff hact hcr
    cases e with
    | true =>
      have hframe := hdSaWhladv_frame (failed vg) again
      refine served_hdSaCont ?_ ?_ (ledger_hdSaWhladv ?_ again) (hw.failed again)
        (hroll.failed hw again) hsound (fun hc => absurd hc (by decide)) again'
      · rw [hframe, failed_eq]
        exact hb.configWait
      · rw [hframe, failed_eq]
        exact hact
      · rw [failed_eq]
        exact hb.ledger
    | false =>
      have hframe := hdSaWhladv_frame (vg.note (.wrote vg.wheelIdx vg.written)) again
      have hlt : (vg.note (.wrote vg.wheelIdx vg.written)).wheelIdx < places := hw.lt
      refine served_hdSaCont ?_ ?_ (ledger_hdSaWhladv ?_ again) (hw.wrote again)
        (hroll.wrote hw again) hsound (fun _ => .inl (stands_hdSaWhladv hlt again)) again'
      · rw [hframe]
        exact hb.configWait
      · rw [hframe]
        exact hact
      · exact Balanced.note hb.ledger (fun _ => rfl) fun _ => rfl

theorem Initial.served (h : Initial vg) : Served ok vg := by
  have hline : InLine (WroteTo ok vg) vg vg.saActLst vg.wheelIdx 0 := by
    rw [h.saActLst]
    exact ⟨lined_nil, fun _ hg => absurd hg List.not_mem_nil⟩
  have hactive : Active ok vg := by
    refine ⟨?_, ?_, fun _ => ?_⟩ <;> rw [h.saActLst] <;> exact fun _ hg => absurd hg List.not_mem_nil
  have hhon : ok → Honest vg.partition vg.log := by
    rw [h.log]
    exact fun _ => trivial
  refine ⟨hhon, fun _ _ => ⟨⟨hline, hactive, hhon⟩, fun _ => ?_⟩, fun _ ha => ?_⟩
  · unfold onList
    rw [h.saHldLst, h.saActLst]
    rfl
  · exact absurd (h.saWhlAct.symm.trans ha) (by decide)

theorem Runs.served {vg₀ : Volgrp} {P : Volgrp → Act → Prop} (h : Runs P vg₀ vg)
    (hi : Initial vg₀) (hP : ok → ∀ vg a, P vg a → Sound vg a) : Served ok vg := by
  induction h with
  | start => exact hi.served
  | @step vg a hrun hcr ha hok ih =>
    exact ih.step (hrun.between (d := fun _ => vg₀.vgsa) hi fun _ _ _ => rfl) hcr ha
      fun h => hP h vg a hok

/-! ## Results -/

/-- A volume group of one physical volume with its two status areas. -/
def onePv : Volgrp where
  pvols p := if p = 0 then some ⟨false, fun _ => ⟨1, 0, false⟩⟩ else none
  partition _ lp _ := (0, lp)
  vgsa := ⟨fun _ => false, fun _ _ => false⟩
  quorumCnt := 1
  noquorum := false
  forcedoff := false
  saWhlAct := false
  saWhlHld := false
  configWait := false
  wheelIdx := 0
  whlSeqNum := 0
  pbuf _ := ⟨⟨.configop, 0, 0, 0, 0, 0, 0⟩, 0, false⟩
  saHldLst := []
  saActLst := []
  written := ⟨fun _ => false, fun _ _ => false⟩
  log := []

/-- The partition of logical partition 3 is marked stale. -/
def markStale : Nat × Pbuf := (7, ⟨⟨.stalepp, 0, 1, 3, 1, 0, 0⟩, 0, false⟩)

def marked : Volgrp :=
  step (step (step onePv (.strt markStale [])) (.iodone false [] [])) (.iodone false [] [])

theorem initial_onePv : Initial onePv where
  wheelIdx := by decide
  saWhlAct := rfl
  saWhlHld := rfl
  configWait := rfl
  forcedoff := rfl
  saHldLst := rfl
  saActLst := rfl
  current := by decide
  log := rfl

def Note.isCrash : Note → Bool
  | .crashed => true
  | _ => false

theorem noClash_of_stale (h : ∀ r ∈ onList vg, (vg.pbuf r).pbType = .stalepp) : NoClash vg := by
  intro a _ b hb hc
  have hty := hc.2.1
  rw [h b hb] at hty
  cases hty

theorem crashed_not_mem (h : log.any Note.isCrash = false) : .crashed ∉ log := by
  intro hm
  rw [List.any_eq_false] at h
  exact h _ hm rfl

theorem runs_marked : Runs Sound onePv marked := by
  refine .step (.step (.step .start ?_ rfl ?_) ?_ rfl ?_) ?_ rfl ?_
  · exact List.not_mem_nil
  · exact fun _ _ => noClash_of_stale (by decide)
  · exact crashed_not_mem (by decide)
  · exact noClash_of_stale (by decide)
  · exact crashed_not_mem (by decide)
  · exact noClash_of_stale (by decide)

/-- When the wheel has stopped, every live area has the sequence number and the
memory version of the status area. -/
theorem stopped_current {vg₀ vg : Volgrp} {d : Nat → VgsaArea} (hi : Initial vg₀)
    (hd : ∀ i < places, live vg₀.pvols i = true → d i = vg₀.vgsa)
    (h : Runs (fun _ _ => True) vg₀ vg) (hact : vg.saWhlAct = false)
    (hoff : vg.forcedoff = false) {i : Nat} (hlt : i < places)
    (hl : live vg.pvols i = true) :
    vg.saSeq i = some vg.whlSeqNum ∧ imageAt d vg.log i = vg.vgsa := by
  obtain ⟨hp, hlag⟩ := (h.between hi hd).idle hoff hact
  have h0 := hlag i hlt hl
  exact ⟨current_of_lag hl h0, hp.disk i hlt hl h0⟩

theorem stopped_current_marked : marked.saSeq 1 = some marked.whlSeqNum ∧
    imageAt (fun _ => onePv.vgsa) marked.log 1 = marked.vgsa :=
  stopped_current initial_onePv (fun _ _ _ => rfl) (runs_marked.mono fun _ _ _ => trivial) rfl rfl
    (by decide) (by decide)

/-- A new request is returned with nothing written when the wheel goes past its old
stop index before it gets one: from the second volume of two, which is gone, to the
first. -/
theorem early_return :
    let vg := step { onePv with wheelIdx := 2 } (.strt markStale [])
    ∃ older, vg.log = .returned 7 false onePv.pvols :: older ∧ Early older 7 := by
  intro vg
  have hsince : sincePut 7 vg.log.tail = [] := rfl
  exact ⟨vg.log.tail, rfl, rfl, fun _ _ => hsince ▸ List.not_mem_nil⟩

/-- The wheel does not stop before it has returned every request it has taken. -/
theorem stopped_empty {vg₀ vg : Volgrp} (hi : Initial vg₀) (h : Runs (fun _ _ => True) vg₀ vg)
    (hact : vg.saWhlAct = false) (hoff : vg.forcedoff = false)
    (hsome : ∃ i < places, live vg.pvols i = true) :
    onList vg = [] ∧ ∀ r, timesTaken r vg.log = timesReturned r vg.log := by
  have hserved : Served False vg := h.served hi False.elim
  have hnil := (hserved.idle hoff hact).2 hsome
  refine ⟨hnil, fun r => ?_⟩
  have hb := h.between (d := fun _ => vg₀.vgsa) hi fun _ _ _ => rfl
  have hcount := hb.ledger.count r
  rw [hnil] at hcount
  exact hcount

theorem stopped_empty_marked :
    onList marked = [] ∧ timesTaken 7 marked.log = timesReturned 7 marked.log := by
  obtain ⟨hnil, hall⟩ := stopped_empty initial_onePv
    (runs_marked.mono fun _ _ _ => trivial) rfl rfl ⟨1, by decide, by decide⟩
  exact ⟨hnil, hall 7⟩

end Aix413.Lvm.Wheel
