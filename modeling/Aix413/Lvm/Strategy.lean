import Aix413.Lvm.Requests

namespace Aix413.Lvm.Strategy

/-! ## Validation -/

/-- Error numbers of `errno.h`, and the mark of a blocked request. -/
def eio : Nat := 5
def enxio : Nat := 6
def einval : Nat := 22
def erofs : Nat := 30
def esoft : Nat := 111
def elbblocked : Nat := 255

/-- First block of a physical volume that is not reserved. -/
def psnNonrsrvd : BitVec 32 := 128

inductive Verdict where
  | schedule
  | giveBack
deriving DecidableEq

def invalidReq (b : Buf) (errno : Nat) : Buf :=
  { b with error := true, bError := errno, bResid := b.bBcount }

/-- The errno of a resync request that is refused, or the volume with the resync
recorded. -/
def validateResyncReq (partshift : Nat) (lv : Lvol) (b : Buf) : Except Nat Lvol :=
  let p := blk2part partshift b.bBlkno
  let part := lv.parts 0 p
  if b.bBlkno &&& (blkptrk - 1) ≠ 0 ∨ b.bBcount ≠ byteptrk then .error einval
  else if b.resyncOp then
    if part.rip then .error einval
    else if part.syncTrk = some (trkInPart partshift b.bBlkno) then .ok (lv.beginResync p false)
    else if trkInPart partshift b.bBlkno = 0 then .ok (lv.beginResync p true)
    else .error einval
  else .ok lv

def validateReq (vg : Volgrp) (b : Buf) : Volgrp × Buf × Verdict :=
  match vg.lvols b.bDev with
  | none => (vg, invalidReq b enxio, .giveBack)
  | some lv =>
    if vg.forcedOff ∨ lv.opened = false then (vg, invalidReq b enxio, .giveBack)
    else if lv.rdonly ∧ b.read = false then (vg, invalidReq b erofs, .giveBack)
    else if b.bBlkno = lv.nblocks then
      let b' := { b with bResid := b.bBcount }
      if b.read then (vg, { b' with bError := 0 }, .giveBack)
      else (vg, { b' with error := true, bError := enxio }, .giveBack)
    else if b.bBlkno ≥ lv.nblocks then (vg, invalidReq b enxio, .giveBack)
    else
      let p := blk2part vg.partshift b.bBlkno
      let part := lv.parts 0 p
      if part.pvol = none then (vg, invalidReq b enxio, .giveBack)
      -- keep writes off the reserved blocks
      else if b.bDev = 0 ∧ part.start = 0 ∧ b.read = false ∧
          b.bBlkno - part2blk vg.partshift p < psnNonrsrvd then
        (vg, invalidReq b enxio, .giveBack)
      else
        let b' := { b with bWork := b.pageMask }
        if b.resyncOp ∨ b.mwcRcvOp then
          match validateResyncReq vg.partshift lv b' with
          | .error rc => (vg, invalidReq b' rc, .giveBack)
          | .ok lv' => ({ vg with lvols := Function.update vg.lvols b.bDev (some lv') }, b', .schedule)
        else if b.Aligned then (vg, b', .schedule)
        else (vg, invalidReq b' einval, .giveBack)

/-! ## The queues -/

/-- Logical requests are named by their number in the order of arrival. -/
abbrev Lb := Nat

structure State where
  vg : Volgrp
  buf : Lb → Buf
  next : Lb
  /-- `work_Q` of a logical volume and a hash class. -/
  workQ : Nat → BitVec 32 → List Lb
  pendingQ : List Lb
  /-- Requests taken from the pending queue and not terminated: with the disks,
  or parked by the write consistency cache. -/
  active : List Lb
  complcnt : Nat → Int
  /-- Requests in the order they were first put on the pending queue. -/
  released : List Lb
  /-- Requests given back, in order. -/
  done : List Lb

def workqSize : BitVec 32 := 64

def hdHash (b : Buf) : BitVec 32 := blk2trk b.bBlkno &&& (workqSize - 1)

namespace State

variable (s : State)

def chain (lb : Lb) : List Lb := s.workQ (s.buf lb).bDev (hdHash (s.buf lb))

def setChain (dev : Nat) (hash : BitVec 32) (l : List Lb) : State :=
  { s with workQ := fun d h => if d = dev ∧ h = hash then l else s.workQ d h }

def setBuf (lb : Lb) (b : Buf) : State := { s with buf := Function.update s.buf lb b }

def iodone (lb : Lb) : State := { s with done := s.done ++ [lb] }

/-- The next number goes to a request that validation saw under `vg`. -/
def number (vg : Volgrp) : State := { s with vg := vg, next := s.next + 1 }

/-- Put a request that was not released before on the tail of `pending_Q`. -/
def release (lb : Lb) : State :=
  { s with pendingQ := s.pendingQ ++ [lb], released := s.released ++ [lb] }

/-- Pages of `lb`'s track group that the requests of a chain work on. -/
def conflicts (lb : Lb) (l : List Lb) : BitVec 32 :=
  l.foldl (fun c p => if blk2trk (s.buf p).bBlkno = blk2trk (s.buf lb).bBlkno
    then c ||| (s.buf p).bWork else c) 0

end State

/-- Append to the hash chain, with the mark `ELBBLOCKED` if an older request is
in the way. -/
def serializeDataAccess (lb : Lb) (s : State) : State :=
  let b := s.buf lb
  let c := s.conflicts lb (s.chain lb)
  let s' := s.setChain b.bDev (hdHash b) (s.chain lb ++ [lb])
  if c &&& b.bWork ≠ 0 then s'.setBuf lb (b.setErrno elbblocked) else s'

/-- One round of the loop of `hd_initiate`. -/
def initiateOne (s : State) (req : Buf) : State :=
  let lb := s.next
  let (vg, b, verdict) := validateReq s.vg req
  match verdict with
  | .giveBack => ((s.number vg).setBuf lb b).iodone lb
  | .schedule =>
    let b' := { b with bResid := b.bBcount }
    let s' := serializeDataAccess lb ((s.number vg).setBuf lb b')
    if (s'.buf lb).bError ≠ elbblocked then
      (s'.setBuf lb ((s'.buf lb).setErrno 0)).release lb
    else s'

def hdInitiate (reqs : List Buf) (s : State) : State := reqs.foldl initiateOne s

/-- Release `lb` if no request of the chain before it is in the way. -/
def hdUnblock (older : List Lb) (lb : Lb) (s : State) : State :=
  if s.conflicts lb older &&& (s.buf lb).bWork = 0 then
    (s.setBuf lb ((s.buf lb).setErrno 0)).release lb
  else s

/-- Turn off the mark of `hd_quiet`. -/
def clearInflight (lb : Lb) (s : State) : State :=
  if (s.buf lb).inflight then
    { s.setBuf lb { s.buf lb with inflight := false } with
      complcnt := Function.update s.complcnt (s.buf lb).bDev (s.complcnt (s.buf lb).bDev - 1) }
  else s

/-- Give a blocked request back when the volume group is closing. -/
def errorOff (lb : Lb) (s : State) : State :=
  let s' := clearInflight lb s
  let b := s'.buf lb
  (s'.setBuf lb { b with error := true, bError := eio, bResid := b.bBcount }).iodone lb

/-- The walk of `hd_terminate` over the newer requests of the chain. `older` is
the chain up to `*p`; the result has the whole chain. -/
def unblockNewer (older : List Lb) : List Lb → State → State × List Lb
  | [], s => (s, older)
  | next :: rest, s =>
    if (s.buf next).bError = elbblocked then
      if s.vg.forcedOff then unblockNewer older rest (errorOff next s)
      else unblockNewer (older ++ [next]) rest (hdUnblock older next s)
    else unblockNewer (older ++ [next]) rest s

/-- The end of `hd_terminate`: callers never see an `ESOFT`. -/
def giveBack (lb : Lb) (s : State) : State :=
  let b := s.buf lb
  let s' := if b.error ∧ b.bError = esoft
    then s.setBuf lb { b with bError := eio, bResid := b.bBcount } else s
  { s' with active := s'.active.erase lb }.iodone lb

/-- `none` stands for a failed assertion: the request is not on its chain. -/
def hdTerminate (lb : Lb) (s : State) : Option State :=
  let b := s.buf lb
  let chain := s.chain lb
  if lb ∈ chain then
    let (s', l) := unblockNewer (chain.takeWhile (· ≠ lb)) (chain.dropWhile (· ≠ lb)).tail
      (clearInflight lb s)
    some (giveBack lb (s'.setChain b.bDev (hdHash b) l))
  else none

/-- One round of the loop of `hd_schedule`. A policy routine that finds no pbuf
fails, and the request goes back to the head of the queue. -/
def hdSchedule (succeeds : Bool) (s : State) : State :=
  match s.pendingQ with
  | [] => s
  | lb :: rest =>
    if succeeds then { s with pendingQ := rest, active := s.active ++ [lb] } else s

/-- A parked request returns to the pending queue. -/
def requeue (lb : Lb) (atHead : Bool) (s : State) : State :=
  { s with
    active := s.active.erase lb
    pendingQ := if atHead then lb :: s.pendingQ else s.pendingQ ++ [lb] }

/-- The result of the physical operations in the logical request. -/
def setResult (lb : Lb) (error : Bool) (errno : Nat) (resid : BitVec 32) (s : State) : State :=
  s.setBuf lb { s.buf lb with error := error, bError := errno, bResid := resid }

/-- `hd_quiet` marks every request of the volume's work queue. -/
def hdQuiet (dev : Nat) (l : List Lb) (s : State) : State :=
  l.foldl (fun s lb =>
    { s.setBuf lb { s.buf lb with inflight := true } with
      complcnt := Function.update s.complcnt dev (s.complcnt dev + 1) }) s

/-- What can happen to a volume group's queues. Callers do not use the error
number of a blocked request. -/
inductive Step (s : State) : State → Prop
  | initiate (reqs : List Buf) : (∀ b ∈ reqs, b.bError ≠ elbblocked) → Step s (hdInitiate reqs s)
  | schedule (succeeds : Bool) : Step s (hdSchedule succeeds s)
  | requeue (lb : Lb) (atHead : Bool) : lb ∈ s.active → Step s (requeue lb atHead s)
  | terminate {s' : State} (lb : Lb) (error : Bool) (errno : Nat) (resid : BitVec 32) :
      lb ∈ s.active → hdTerminate lb (setResult lb error errno resid s) = some s' → Step s s'
  | quiet (dev : Nat) (l : List Lb) :
      (∀ lb, lb ∈ l ↔ ∃ h, lb ∈ s.workQ dev h) → Step s (hdQuiet dev l s)
  /-- Opening, closing, resynchronizing, losing the quorum. -/
  | environment (vg : Volgrp) : Step s { s with vg := vg }

end Aix413.Lvm.Strategy
