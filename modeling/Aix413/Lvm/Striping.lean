import Aix413.Lib.Stripes
import Aix413.Lib.Tiling

namespace Aix413.Lvm.Striping

/-- `DBSHIFT`. -/
def dbshift : Nat := 9

/-- `B_ERROR`. -/
def bError : Nat := 4

def eio : Nat := 5

structure Pvol where
  dev : Nat
  missing : Bool
deriving DecidableEq

structure Part where
  pvol : Option Pvol
  start : Nat
  reducing : Bool
deriving DecidableEq

/-- Where a block of the logical volume is. -/
structure Place where
  part : Nat
  dev : Nat
  block : Nat
deriving DecidableEq

/-- `hd_stripe_xlate`, behind its assertion. -/
def hdStripeXlate (partExp stripeExp width : Nat) (parts : Nat → Part) (logBlkno : Nat) :
    Option Place :=
  let stripeExpBlks := stripeExp - dbshift
  let stripeNum := logBlkno >>> stripeExpBlks
  let partStripes := 1 <<< (partExp - stripeExp) % 2 ^ 32
  let setStripes := partStripes * width % 2 ^ 32
  let setNum := stripeNum / setStripes
  let setPartNum := stripeNum % width
  let partNum := setNum * width + setPartNum
  let partition := parts partNum
  match partition.pvol with
  | none => none
  | some pvol =>
    if partition.reducing || pvol.missing then none
    else
      let stripeStart := partition.start + (stripeNum / width % partStripes) <<< stripeExpBlks
      some {
        part := partNum
        dev := pvol.dev
        block := (stripeStart + logBlkno % 1 <<< stripeExpBlks) % 2 ^ 32 }

/-- The striping of a logical volume: a set of partitions has fewer than 2^32 blocks, and a stripe
fewer than 2^32 bytes. -/
structure StripedLv where
  partExp : Nat
  stripeExp : Nat
  width : Nat
  dbshift_le : dbshift ≤ stripeExp
  stripe_le : stripeExp ≤ partExp
  stripe_lt : stripeExp < 32
  width_pos : 0 < width
  set_lt : width * 2 ^ (partExp - dbshift) < 2 ^ 32

/-- The fields of a logical request. -/
structure Lbuf where
  baddr : Nat
  bcount : Nat
  blkno : Nat
  resid : Nat
  flagged : Bool
  error : Nat
deriving DecidableEq

/-- The fields of a physical request. `addr` is `pb_addr`, which moves with the transfer. -/
structure Pbuf where
  addr : Nat
  bcount : Nat
  origAddr : Nat
  origCount : Nat
  place : Place
  flagged : Bool
  error : Nat
  notdone : Bool
  firstIssued : Bool
  partialStripe : Bool
deriving DecidableEq

inductive XlateStat
  | xlateStart
  | xlatePartial
  | xlateComplete
  | xlateFail
deriving DecidableEq

variable (g : StripedLv)

/-- The loop of `hd_stripe` over the free physical buffers, given by what is left in their
`b_error`. `serial`: unaligned reads on RS hardware take one piece at a time. -/
def translate (parts : Nat → Part) (serial : Bool) (lbBlks bufEndAddr : Nat) :
    List Nat → Nat → Nat → Bool → List Pbuf × XlateStat
  | [], _, _, _ => ([], .xlatePartial)
  | err :: free, bufAddr, logBlkno, firstFlag =>
    let stripeBlksLeft := lbBlks - logBlkno % lbBlks
    let reqSize := stripeBlksLeft <<< dbshift
    let reqSize := if bufEndAddr < (bufAddr + reqSize) % 2 ^ 32
      then (bufEndAddr + 2 ^ 32 - bufAddr) % 2 ^ 32 else reqSize
    let next := (bufAddr + reqSize) % 2 ^ 32
    match hdStripeXlate g.partExp g.stripeExp g.width parts logBlkno with
    | none => ([], .xlateFail)
    | some place =>
      let pb : Pbuf := {
        addr := bufAddr, bcount := reqSize, origAddr := bufAddr, origCount := reqSize
        place := place, flagged := false, error := err, notdone := true
        firstIssued := firstFlag, partialStripe := false }
      if next = bufEndAddr then ([pb], .xlateComplete)
      else if serial then ([pb], .xlatePartial)
      else
        let (pbs, status) :=
          translate parts serial lbBlks bufEndAddr free next (logBlkno + reqSize >>> dbshift) false
        (pb :: pbs, status)

/-- `first_issued->partial_stripe = TRUE`. -/
def setPartial : List Pbuf → List Pbuf
  | [] => []
  | pb :: pbs => { pb with partialStripe := true } :: pbs

inductive Phase
  | pending
  | issued
  | terminated
deriving DecidableEq

/-- A logical request, and its ring of physical requests from the first one issued on. -/
structure State where
  lb : Lbuf
  ring : List Pbuf
  phase : Phase
deriving DecidableEq

/-- `hd_stripe`. -/
def hdStripe (parts : Nat → Part) (serial : Bool) (free : List Nat) (s : State) : State :=
  let lb := s.lb
  let lbBlks := 1 <<< g.stripeExp >>> dbshift
  let bytesDone := (lb.bcount + 2 ^ 32 - lb.resid) % 2 ^ 32
  let bufStAddr := (lb.baddr + bytesDone) % 2 ^ 32
  let bufEndAddr := (bufStAddr + lb.resid) % 2 ^ 32
  let logBlkno := lb.blkno + bytesDone >>> dbshift
  if free = [] then s
  else
    match translate g parts serial lbBlks bufEndAddr free bufStAddr logBlkno true with
    | (pbs, .xlatePartial) => { s with ring := setPartial pbs, phase := .issued }
    | (pbs, .xlateComplete) => { s with ring := pbs, phase := .issued }
    | (_, .xlateFail) =>
      { s with lb := { lb with flagged := true, error := eio, resid := lb.bcount }
               phase := .terminated }
    | (_, .xlateStart) => s

/-- How a physical request comes back: `B_ERROR` and `b_error`, the bytes it has transferred, and
`b_bcount`, which `hd_resume` makes smaller when the request goes on behind a relocated block. -/
structure Outcome where
  flagged : Bool
  error : Nat
  bytes : Nat
  bcount : Nat
deriving DecidableEq

def Pbuf.end_ (pb : Pbuf) (r : Outcome) : Pbuf :=
  { pb with
    flagged := r.flagged, error := r.error, addr := pb.origAddr + r.bytes, bcount := r.bcount
    notdone := false }

/-- The first walk of `hd_stripe_done`: the bytes transferred, if all are done. -/
def doneWalk : List Pbuf → Option Nat
  | [] => some 0
  | pb :: pbs => if pb.notdone then none else (doneWalk pbs).map (pb.bcount + ·)

/-- The ring from the first request issued on. -/
def fromFirst (l : List Pbuf) : List Pbuf :=
  l.dropWhile (!·.firstIssued) ++ l.takeWhile (!·.firstIssued)

/-- The second walk of `hd_stripe_done`. -/
def errorWalk (l : List Pbuf) : Option Pbuf := l.find? fun pb => pb.error &&& bError ≠ 0

/-- `hd_stripe_done` for the request at place `i` of the ring; the requests that it releases. -/
def hdStripeDone (s : State) (i : Nat) (r : Outcome) : State × List Pbuf :=
  let ring := s.ring.modify i (·.end_ r)
  match doneWalk (ring.drop i ++ ring.take i) with
  | none => ({ s with ring := ring }, [])
  | some bytesXferred =>
    let list := fromFirst (ring.drop i ++ ring.take i)
    let lb := s.lb
    match errorWalk list with
    | some pb =>
      ({ lb := { lb with
          flagged := true
          error := pb.error
          resid := (lb.bcount + 2 ^ 32 - (pb.addr + 2 ^ 32 - lb.baddr) % 2 ^ 32) % 2 ^ 32 }
         ring := []
         phase := .terminated }, list)
    | none =>
      if (list.head?).any (·.partialStripe) then
        ({ lb := { lb with resid := (lb.resid + 2 ^ 32 - bytesXferred % 2 ^ 32) % 2 ^ 32 }
           ring := []
           phase := .pending }, list)
      else
        ({ lb := { lb with flagged := false, error := 0, resid := 0 }
           ring := []
           phase := .terminated }, list)

end Aix413.Lvm.Striping
