import Mathlib.Tactic

namespace Aix413.Quota

/-! ## Dquots -/

inductive QType
  | usrquota
  | grpquota
deriving DecidableEq

def pagesize : Nat := 4096
def dqbsize : Nat := 1024

def dqcbit : UInt32 := 0x80000000

def dqcarry (c : UInt32) : UInt32 := c >>> 31
def dqbtime (t : UInt32) : UInt32 := t &&& ~~~dqcbit
def dqsbtime (c t : UInt32) : UInt32 := c <<< 31 ||| t &&& ~~~dqcbit

structure Dquot where
  dqType : QType
  dqId : UInt32
  dqCnt : Nat
  dqBhardlimit : UInt32
  dqBsoftlimit : UInt32
  dqCurblocks : UInt32
  dqIhardlimit : UInt32
  dqIsoftlimit : UInt32
  dqCurinodes : UInt32
  dqBtime : UInt32
  dqItime : UInt32
  dqMod : Bool
  dqBlks : Bool
  dqInods : Bool

/-- What `dqget` gives. -/
inductive Got
  | ok (p : Nat)
  | einval
  | eio
  | eusers

/-- The errors that `getinoquota` passes on. -/
def Got.rc : Got → Option Nat
  | eio => some 5
  | eusers => some 68
  | _ => none

def Got.dquot : Got → Option Nat
  | ok p => some p
  | _ => none

/-- `chowndq` called for an inode. `got` is what `dqget` gives for the new ids,
`jmBtime` and `jmItime` are those of the mount structure. -/
structure Call where
  iMode : Nat
  iNblocks : UInt32
  iFperpage : Nat
  fragments : iFperpage ∈ [1, 2, 4, 8]
  oldid : QType → UInt32
  newid : QType → UInt32
  crUid : UInt32
  got : QType → Got
  time : UInt32
  jmBtime : QType → UInt32
  jmItime : QType → UInt32

/-- The dquots, those that this process has locked and the inode's pointers. -/
structure Fs where
  dquots : Nat → Dquot
  held : Nat → Bool
  iDquot : QType → Option Nat

namespace Fs

variable (s : Fs)

def modify (f : Dquot → Dquot) : Option Nat → Fs
  | none => s
  | some p => { s with dquots := Function.update s.dquots p (f (s.dquots p)) }

/-- `DQUOT_LOCK`, which never ends for a lock that the caller holds. -/
def lock : Option Nat → Option Fs
  | none => some s
  | some p => if s.held p then none else some { s with held := Function.update s.held p true }

def unlock : Option Nat → Fs
  | none => s
  | some p => { s with held := Function.update s.held p false }

end Fs

variable (c : Call)

namespace Call

/-- The bytes that the inode holds and their number as an `int`. -/
def bytes : Nat := c.iNblocks.toNat * (pagesize / c.iFperpage)
def nbytes : Int := Int.bmod c.bytes (2 ^ 32)
def nblocks : UInt32 := UInt32.ofInt (c.nbytes.tdiv dqbsize)
def npart : UInt32 := if c.nbytes % dqbsize ≠ 0 then 1 else 0

def ndp (t : QType) : Option Nat := (c.got t).dquot

end Call

open Call

/-! ## Limits -/

/-- `ckdq` -/
def ckdq (sendmsg : Bool) (d : Dquot) : Bool × Dquot :=
  let nblocks := d.dqCurblocks + c.nblocks + (c.npart &&& dqcarry d.dqBtime)
  let warned := if sendmsg then { d with dqBlks := true } else d
  if nblocks ≥ d.dqBhardlimit ∧ d.dqBhardlimit ≠ 0 then (true, warned)
  else if nblocks ≥ d.dqBsoftlimit ∧ d.dqBsoftlimit ≠ 0 then
    if d.dqCurblocks < d.dqBsoftlimit then
      (false, { d with dqBtime := dqsbtime (dqcarry d.dqBtime) (c.time + c.jmBtime d.dqType) })
    else if c.time > dqbtime d.dqBtime then (true, warned)
    else (false, d)
  else (false, d)

/-- `ckiq` for one inode. -/
def ckiq (sendmsg : Bool) (d : Dquot) : Bool × Dquot :=
  let ninodes := d.dqCurinodes + 1
  let warned := if sendmsg then { d with dqInods := true } else d
  if ninodes ≥ d.dqIhardlimit ∧ d.dqIhardlimit ≠ 0 then (true, warned)
  else if ninodes ≥ d.dqIsoftlimit ∧ d.dqIsoftlimit ≠ 0 then
    if d.dqCurinodes < d.dqIsoftlimit then
      (false, { d with dqItime := c.time + c.jmItime d.dqType })
    else if c.time.toInt32 > d.dqItime.toInt32 then (true, warned)
    else (false, d)
  else (false, d)

/-- The new owner of a type is asked for the blocks, then for the inode. -/
def checkType (t : QType) (s : Fs) : Bool × Fs :=
  if c.newid t = c.oldid t then (false, s)
  else
    match c.ndp t with
    | none => (false, s)
    | some p =>
      let sendmsg := c.newid .usrquota ≠ 0
      let b := ckdq c sendmsg (s.dquots p)
      let s := s.modify (fun _ => b.2) (some p)
      if b.1 then (true, s)
      else
        let i := ckiq c sendmsg b.2
        (i.1, s.modify (fun _ => i.2) (some p))

def checkAll (s : Fs) : Bool × Fs :=
  if c.crUid = 0 then (false, s)
  else
    let u := checkType c .usrquota s
    if u.1 then u else checkType c .grpquota u.2

/-! ## The change of owner -/

def takeInode (d : Dquot) : Dquot :=
  { d with
    dqCurinodes := if d.dqCurinodes > 0 then d.dqCurinodes - 1 else 0
    dqInods := false }

/-- The blocks that are taken from a dquot. -/
def taken (d : Dquot) : UInt32 := c.nblocks + (c.npart &&& dqcarry d.dqBtime) - c.npart

def takeBlocks (d : Dquot) : Dquot :=
  if c.nbytes ≠ 0 then
    { d with
      dqCurblocks := if d.dqCurblocks ≥ taken c d then d.dqCurblocks - taken c d else 0
      dqBtime := dqsbtime (c.npart ^^^ dqcarry d.dqBtime) d.dqBtime
      dqBlks := false }
  else d

/-- The old owner's dquot. -/
def takeFrom (d : Dquot) : Dquot := { takeBlocks c (takeInode d) with dqMod := true }

/-- The new owner's dquot. -/
def giveTo (d : Dquot) : Dquot :=
  let cpart := dqcarry d.dqBtime
  { d with
    dqCurinodes := d.dqCurinodes + 1
    dqCurblocks := d.dqCurblocks + (c.nblocks + (c.npart &&& cpart))
    dqBtime := dqsbtime (c.npart ^^^ cpart) d.dqBtime
    dqMod := true }

def edquot : Nat := 88

end Aix413.Quota
