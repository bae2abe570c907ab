import Aix413.Lib.Circle
import Aix413.Lvm.Mirrors

namespace Aix413.Lvm.Wheel

open Sched Lib.Circle

/-! ## Status areas -/

def maxpvs : Nat := 32

/-- Places on the wheel, two for each physical volume. -/
def places : Nat := maxpvs * 2

structure SaArea where
  lsn : Nat
  saSeqNum : UInt16
  nukesa : Bool

structure Pvol where
  missing : Bool
  saArea : Nat → SaArea

/-- A `struct vgsa_area` without its time stamps. -/
structure VgsaArea where
  pvMissing : Nat → Bool
  stalepp : Nat → Nat → Bool

/-- The types of requests for the wheel. -/
inductive SaType
  | pvmissing
  | stalepp
  | freshpp
  | configop
  | pvremoved
deriving DecidableEq

/-- What a request asks for. `pbPvol` is the number of its physical volume, `lp`
its logical partition. -/
structure SaReq where
  pbType : SaType
  pbPvol : Nat
  bDev : Nat
  lp : Nat
  pbMirbad : Mask
  pbMirdone : Mask
  bWork : Nat

/-- The fields of a `struct pbuf` that the wheel reads. -/
structure Pbuf extends SaReq where
  pbWhlStop : Nat
  bError : Bool

/-- What happens on the wheel. A request is put on the active list by itself or
behind a request that it rides with. -/
inductive Note
  | taken (r : Nat)
  | put (r head : Nat) (req : SaReq)
  | wrote (idx : Nat) (img : VgsaArea)
  | returned (r : Nat) (err : Bool) (pvols : Nat → Option Pvol)
  | crashed

/-- The wheel of a volume group. `partition` gives the volume and the physical
partition of a mirror. Each entry of `saActLst` is a request and those on its
`av_back` list, `written` is the image under way, `log` has the newest note
first. -/
structure Volgrp where
  pvols : Nat → Option Pvol
  partition : Nat → Nat → Mirror → Nat × Nat
  vgsa : VgsaArea
  quorumCnt : Nat
  noquorum : Bool
  forcedoff : Bool
  saWhlAct : Bool
  saWhlHld : Bool
  configWait : Bool
  wheelIdx : Nat
  whlSeqNum : UInt16
  pbuf : Nat → Pbuf
  saHldLst : List Nat
  saActLst : List (Nat × List Nat)
  written : VgsaArea
  log : List Note

variable (vg : Volgrp)

namespace Volgrp

/-- There is a status area at the place and its volume is not missing. -/
def live (pvols : Nat → Option Pvol) (i : Nat) : Bool :=
  match pvols (i / 2) with
  | some pv => !pv.missing && (pv.saArea (i % 2)).lsn ≠ 0
  | none => false

def setArea (i : Nat) (a : SaArea) : Volgrp :=
  { vg with
    pvols := Function.update vg.pvols (i / 2)
      ((vg.pvols (i / 2)).map fun pv => { pv with saArea := Function.update pv.saArea (i % 2) a }) }

/-- `GETSA_SEQ`, none through a null pointer. -/
def saSeq (i : Nat) : Option UInt16 :=
  (vg.pvols (i / 2)).map fun pv => (pv.saArea (i % 2)).saSeqNum

def setMissing (p : Nat) : Volgrp :=
  { vg with
    pvols := Function.update vg.pvols p ((vg.pvols p).map fun pv => { pv with missing := true }) }

def note (n : Note) : Volgrp := { vg with log := n :: vg.log }

def setPbuf (r : Nat) (pb : Pbuf) : Volgrp := { vg with pbuf := Function.update vg.pbuf r pb }

/-- The request is on the hold list or the active list. -/
def onWheel (r : Nat) : Bool :=
  r ∈ vg.saHldLst || vg.saActLst.any fun g => r = g.1 || r ∈ g.2

end Volgrp

open Volgrp

def VgsaArea.setPvmiss (v : VgsaArea) (p : Nat) : VgsaArea :=
  { v with pvMissing := Function.update v.pvMissing p true }

def VgsaArea.setStlpp (v : VgsaArea) (pp : Nat × Nat) (b : Bool) : VgsaArea :=
  { v with stalepp := Function.update v.stalepp pp.1 (Function.update (v.stalepp pp.1) pp.2 b) }

def hdSaUpdate : Volgrp := { vg with whlSeqNum := vg.whlSeqNum + 1 }

/-- The count of `hd_sa_qrmchk`. -/
def activeAreas : Nat := ((List.range places).filter (live vg.pvols)).length

def hdSaQrmchk : Volgrp :=
  if vg.forcedoff = false ∧ activeAreas vg < vg.quorumCnt ∧
      (vg.noquorum = false ∨ activeAreas vg = 0) then
    { vg with forcedoff := true }
  else vg

/-! ## Requests that are returned -/

def rtnOne (err : Bool) (vg : Volgrp) (r : Nat) : Volgrp :=
  let pb := vg.pbuf r
  (if err then vg.setPbuf r { pb with bError := true } else vg).note (.returned r err vg.pvols)

def hdSaRtn (g : Nat × List Nat) (err : Bool) : Volgrp := (g.1 :: g.2).foldl (rtnOne err) vg

/-- The loop of `hd_sa_whladv` over the requests that are done. -/
def rtnDone (c : Nat) : List (Nat × List Nat) → Volgrp → Volgrp
  | [], vg => { vg with saActLst := [] }
  | g :: gs, vg =>
    if (vg.pbuf g.1).pbWhlStop = c then rtnDone c gs (hdSaRtn vg g false)
    else { vg with saActLst := g :: gs }

/-- `hd_sa_whladv` with the steps it may still take. -/
def whladv : Nat → Volgrp → Nat → Volgrp × Nat
  | 0, vg, c => (vg, c)
  | n + 1, vg, c =>
    let c := next places c
    let vg := rtnDone c vg.saActLst vg
    match vg.pvols (c / 2) with
    | none => whladv n vg c
    | some pv =>
      let a := pv.saArea (c % 2)
      if a.lsn = 0 then whladv n vg c
      else if pv.missing ∨ a.nukesa then
        whladv n (if a.nukesa then vg.setArea c { a with lsn := 0, nukesa := false } else vg) c
      else (vg, c)

/-- A request is put on the hold list by `hd_sa_strt`, if it is not there and
the volume group is not closing. -/
def queue (vg : Volgrp) (p : Nat × Pbuf) : Volgrp :=
  if vg.forcedoff ∨ vg.onWheel p.1 then vg
  else
    let vg := (vg.setPbuf p.1 p.2).note (.taken p.1)
    { vg with saHldLst := vg.saHldLst ++ [p.1] }

/-- `hd_sa_whladv`. The requests `again` are put on the hold list by the
schedulers of those that it returns. -/
def hdSaWhladv (again : List (Nat × Pbuf)) : Volgrp :=
  let r := whladv places vg vg.wheelIdx
  let vg' := { r.1 with wheelIdx := r.2 }
  if vg'.saActLst.length < vg.saActLst.length then again.foldl queue vg' else vg'

/-! ## The wheel -/

/-- A request on the active list does what the new one asks for. -/
def same (alst hld : SaReq) : Bool :=
  alst.pbType = hld.pbType &&
    match alst.pbType with
    | .pvmissing | .pvremoved => alst.pbPvol = hld.pbPvol
    | .stalepp => alst.bDev = hld.bDev && alst.lp = hld.lp && hld.pbMirbad &&& ~~~alst.pbMirbad = 0
    | .freshpp | .configop => false

/-- The first of the active requests that the new one can ride with. -/
def findSame (r : Nat) : Option Nat :=
  (vg.saActLst.find? fun g => same (vg.pbuf g.1).toSaReq (vg.pbuf r).toSaReq).map Prod.fst

def hdSaHback (h r : Nat) : Volgrp :=
  { vg with saActLst := vg.saActLst.map fun g => if g.1 = h then (g.1, g.2 ++ [r]) else g }

def markMirrors (pb : SaReq) (M : Mask) (b : Bool) : VgsaArea :=
  (mirrors M).foldl (fun v m => v.setStlpp (vg.partition pb.bDev pb.lp m) b) vg.vgsa

/-- What a request that is put on the active list changes. -/
def change (pb : SaReq) : Volgrp :=
  match pb.pbType with
  | .pvmissing =>
    hdSaQrmchk { vg.setMissing pb.pbPvol with vgsa := vg.vgsa.setPvmiss pb.pbPvol }
  | .pvremoved =>
    hdSaQrmchk
      { vg.setMissing pb.pbPvol with
        vgsa := vg.vgsa.setPvmiss pb.pbPvol
        quorumCnt := pb.bWork }
  | .stalepp => { vg with vgsa := markMirrors vg pb pb.pbMirbad true }
  | .freshpp => { vg with vgsa := markMirrors vg pb pb.pbMirdone false }
  | .configop => vg

/-- The hold list is moved to the active list. Gives the requests that do not
ride with others. -/
def moveHold : List Nat → Bool → Volgrp → Volgrp × List Nat
  | [], _, vg => (vg, [])
  | r :: rs, updated, vg =>
    let pb := (vg.pbuf r).toSaReq
    match findSame vg r with
    | some h => moveHold rs updated ((hdSaHback vg h r).note (.put r h pb))
    | none =>
      let vg := { vg with saActLst := vg.saActLst ++ [(r, [])] }
      let vg := if updated then vg else hdSaUpdate vg
      let m := moveHold rs true ((change vg pb).note (.put r r pb))
      (m.1, r :: m.2)

/-- `hd_sa_wrt` -/
def hdSaWrt : Volgrp :=
  let i := vg.wheelIdx
  match vg.pvols (i / 2) with
  | none => vg
  | some pv =>
    { vg.setArea i { pv.saArea (i % 2) with saSeqNum := vg.whlSeqNum } with written := vg.vgsa }

def setStops (new : List Nat) : Volgrp :=
  new.foldl (fun vg r => vg.setPbuf r { vg.pbuf r with pbWhlStop := vg.wheelIdx }) vg

/-- All active requests are returned with errors and the wheel is stopped. -/
def closeWheel : Volgrp :=
  let vg := vg.saActLst.foldl (fun vg g => hdSaRtn vg g true) { vg with saActLst := [] }
  { vg with saWhlAct := false, saWhlHld := false }

/-- The wheel index is advanced if there is nothing to write at it. -/
def findArea (again : List (Nat × Pbuf)) : Volgrp :=
  if live vg.pvols vg.wheelIdx then vg else hdSaWhladv vg again

/-- The area is written unless it has the current sequence number. Then the wheel
stops. -/
def writeNext : Volgrp :=
  match vg.saSeq vg.wheelIdx with
  | none => vg.note .crashed
  | some q => if vg.whlSeqNum ≠ q then hdSaWrt vg else { vg with saWhlAct := false }

/-- `hd_sa_cont` where no process waits for the wheel, from the active list on. -/
def turnWheel (m : Volgrp × List Nat) (again : List (Nat × Pbuf)) : Volgrp :=
  if m.1.forcedoff then closeWheel m.1
  else writeNext (setStops (findArea m.1 again) m.2)

def hdSaCont (updated : Bool) (again : List (Nat × Pbuf)) : Volgrp :=
  if vg.configWait then { vg with saWhlHld := true, saWhlAct := false, configWait := false }
  else turnWheel (moveHold vg.saHldLst updated { vg with saHldLst := [] }) again

/-- The wheel is started if it is not rolling already. -/
def startWheel (again : List (Nat × Pbuf)) : Volgrp :=
  if vg.saWhlAct = false ∧ vg.saWhlHld = false then
    hdSaCont { vg with saWhlAct := true } false again
  else vg

/-- `hd_sa_strt`, with the request to put on the hold list unless the config
routines only start the wheel again. -/
def hdSaStrt (p : Option (Nat × Pbuf)) (again : List (Nat × Pbuf)) : Volgrp :=
  if vg.forcedoff then vg
  else
    match p with
    | none => startWheel vg again
    | some p => startWheel (queue vg p) again

/-- The write of a status area has failed. -/
def failed : Volgrp :=
  let p := vg.wheelIdx / 2
  hdSaUpdate (hdSaQrmchk { vg.setMissing p with vgsa := vg.vgsa.setPvmiss p })

def hdSaIodone (error : Bool) (again again' : List (Nat × Pbuf)) : Volgrp :=
  let vg := if error then failed vg else vg.note (.wrote vg.wheelIdx vg.written)
  hdSaCont (hdSaWhladv vg again) error again'

/-! ## Runs -/

/-- A scheduler hands in a request, or the write of a status area is done. -/
inductive Act
  | strt (p : Nat × Pbuf) (again : List (Nat × Pbuf))
  | iodone (error : Bool) (again again' : List (Nat × Pbuf))

def step : Act → Volgrp
  | .strt p again => hdSaStrt vg (some p) again
  | .iodone error again again' => hdSaIodone vg error again again'

/-- A write can only be done while the wheel is rolling. -/
def able : Act → Bool
  | .strt _ _ => true
  | .iodone _ _ _ => vg.saWhlAct

/-- A volume group that is varied on: the wheel is at rest and all areas have its
sequence number. -/
structure Initial : Prop where
  wheelIdx : vg.wheelIdx < places
  saWhlAct : vg.saWhlAct = false
  saWhlHld : vg.saWhlHld = false
  configWait : vg.configWait = false
  forcedoff : vg.forcedoff = false
  saHldLst : vg.saHldLst = []
  saActLst : vg.saActLst = []
  current : ∀ i < places, live vg.pvols i = true → vg.saSeq i = some vg.whlSeqNum
  log : vg.log = []

/-- Where the wheel comes to without config processes, while each of the steps
is `ok`. -/
inductive Runs (ok : Volgrp → Act → Prop) (vg₀ : Volgrp) : Volgrp → Prop
  | start : Runs ok vg₀ vg₀
  | step {vg : Volgrp} {a : Act} : Runs ok vg₀ vg → .crashed ∉ vg.log → able vg a = true →
      ok vg a → Runs ok vg₀ (step vg a)

end Aix413.Lvm.Wheel
