import Aix413.Lvm.Mirrors

namespace Aix413.Lvm.Sched

/-! ## The structures the scheduler reads -/

/-- Scheduling policies of mirrored logical volumes. -/
inductive Schedule where
  | sequential
  | parallel
  | seqwrtparrd
  | parwrtseqrd
deriving DecidableEq

structure Lvol where
  nparts : Nat
  copies : 1 ≤ nparts ∧ nparts ≤ 3
  iSched : Schedule
  /-- `TRKPPART`: track groups in a partition. -/
  trkppart : Nat

theorem two_copies : 1 ≤ 2 ∧ 2 ≤ 3 := ⟨Nat.le_succ 1, Nat.le_succ 2⟩

structure Pvol where
  missing : Bool := false
  /-- Transfers outstanding. -/
  xfcnt : Nat := 0
deriving DecidableEq

/-- `ppstate` of one physical partition. -/
structure Ppstate where
  stale : Bool := false
  chging : Bool := false
  reducing : Bool := false
  syncerr : Bool := false
deriving DecidableEq

/-- One logical partition: its part structures, with what only the primary one
holds. -/
structure Lp where
  ppstate : Mirror → Ppstate
  pvol : Mirror → Option Pvol
  /-- `hd_initiate` has refused the request otherwise. -/
  primary : (pvol .prim).isSome
  syncTrk : Option Nat
  rip : Bool
  syncMsk : Mask

namespace Lp

variable (lp : Lp)

def missing (m : Mirror) : Bool := (lp.pvol m).any Pvol.missing

def xfcnt (m : Mirror) : Nat := (lp.pvol m).elim 0 Pvol.xfcnt

/-- The mirror is no hole and not past the copies of the logical volume. -/
def Copy (lv : Lvol) (m : Mirror) : Prop := m ∉ mirrorExist lv.nparts ∧ (lp.pvol m).isSome

instance (lv : Lvol) (m : Mirror) : Decidable (lp.Copy lv m) :=
  inferInstanceAs (Decidable (_ ∧ _))

def setPpstate (m : Mirror) (p : Ppstate) : Lp :=
  { lp with ppstate := Function.update lp.ppstate m p }

end Lp

inductive Op where
  | write
  | resync
  | recover
deriving DecidableEq

/-- A logical request on a track group of the partition. Resync and recovery
requests are reads. -/
structure Lbuf where
  op : Op
  trk : Nat
  /-- `X_AVOID`: mirrors the caller asks to avoid. -/
  xAvoid : Mask := 0
deriving DecidableEq

def Lbuf.read (lb : Lbuf) : Bool := lb.op ≠ .write

/-! ## The avoidance mask -/

/-- Whether a copy is avoided for its state: by reads when stale, reducing or
missing, by writes when reducing or stale for good. -/
def shunned (rdwr : Bool) (p : Ppstate) (missing : Bool) : Bool :=
  if rdwr then p.stale || p.reducing || missing
  else p.reducing || (p.stale && !p.chging)

/-- The mask after a look at the secondary or tertiary mirror, and whether its
part structure was taken. -/
def look (lp : Lp) (rdwr : Bool) (m : Mirror) (avoid : Mask) : Mask × Bool :=
  if m ∈ avoid then (avoid, false)
  else if (lp.pvol m).isSome then
    (if shunned rdwr (lp.ppstate m) (lp.missing m) then avoid ||| mirrorMask m else avoid, true)
  else (avoid ||| mirrorMask m, false)

/-- Copies a resync request is to write, for the part structures taken. -/
def Lp.wanting (lp : Lp) (taken : Mirror → Bool) (m : Mirror) : Bool :=
  taken m && (lp.ppstate m).stale && !(lp.ppstate m).syncerr && !(lp.ppstate m).reducing

/-- The sync mask of a resync request; a copy on a missing volume cannot be
resynced. -/
def resyncMask (lp : Lp) (taken : Mirror → Bool) : Lp :=
  { lp with
    syncMsk := maskOf fun m => lp.wanting taken m && !lp.missing m
    ppstate := fun m =>
      if lp.wanting taken m && lp.missing m then { lp.ppstate m with syncerr := true }
      else lp.ppstate m }

def cancelResync (lp : Lp) : Lp := { lp with syncTrk := none, rip := false }

/-- Writes behind the track being resynced go to every copy that has had no
error since. -/
def behindSync (lp : Lp) (taken : Mirror → Bool) (avoid : Mask) : Mask :=
  avoid &&& ~~~maskOf fun m =>
    taken m && !(lp.ppstate m).reducing && !(lp.ppstate m).syncerr

/-- The mask after each of the three mirrors. -/
def avoidPrim (lv : Lvol) (lp : Lp) (lb : Lbuf) : Mask :=
  let mask := lb.xAvoid ||| mirrorExist lv.nparts
  if shunned lb.read (lp.ppstate .prim) (lp.missing .prim) then mask ||| mirrorMask .prim
  else mask

def avoidSing (lv : Lvol) (lp : Lp) (lb : Lbuf) : Mask × Bool :=
  look lp lb.read .sing (avoidPrim lv lp lb)

def avoidDoub (lv : Lvol) (lp : Lp) (lb : Lbuf) : Mask × Bool :=
  look lp lb.read .doub (avoidSing lv lp lb).1

/-- The mirrors of which a part structure is at hand: `ppart`, `spart`, `tpart`. -/
def taken (lv : Lvol) (lp : Lp) (lb : Lbuf) : Mirror → Bool
  | .prim => true
  | .sing => (avoidSing lv lp lb).2
  | .doub => (avoidDoub lv lp lb).2

def hdAvoid (lv : Lvol) (lp : Lp) (lb : Lbuf) : Lp × Mask :=
  let miravoid := (avoidDoub lv lp lb).1
  match lb.op with
  | .recover => ({ lp with syncMsk := ~~~miravoid &&& allMirrors }, miravoid)
  | .resync =>
    let lp := resyncMask lp (taken lv lp lb)
    if lp.syncMsk = 0 ∨ miravoid = allMirrors then (cancelResync lp, allMirrors)
    else (lp, miravoid)
  | .write =>
    match lp.syncTrk with
    | some s =>
      (lp, if lb.trk < s then behindSync lp (taken lv lp lb) miravoid else miravoid)
    | none => (lp, miravoid)

/-- What `validate_resync_req` records for a request it lets through. -/
def validateResyncReq (lv : Lvol) (lp : Lp) (lb : Lbuf) : Option Lp :=
  if lb.op = .resync then
    if lp.rip then none
    else if lp.syncTrk = some lb.trk then some { lp with rip := true }
    else if lb.trk = 0 then
      some { lp with
        rip := true
        syncTrk := some 0
        ppstate := fun m =>
          if m.number = 0 ∨ m.number < lv.nparts then { lp.ppstate m with syncerr := false }
          else lp.ppstate m }
    else none
  else some lp

end Aix413.Lvm.Sched
