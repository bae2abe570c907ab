import Aix413.Lib.LinkedPool

namespace Aix413.Indirect

open Aix413.Lib.LinkedPool

abbrev Word := BitVec 32

/-- `NDADDR`, the pages that the inode itself covers. -/
def ndaddr : Nat := 8

/-- `PSIZE/4`, the pages that a block of pointers covers. -/
def perblock : Nat := 1024

/-- `FIRSTIND`. -/
def firstind : Nat := 65

/-- `MAXVPN`. -/
def maxvpn : Nat := 65535

/-- `MAXFSIZE/PSIZE`. -/
def maxpages : Nat := 2 ^ 19

/-- `INDIR_I`. -/
def indirI : Nat := 4

def enomem : Nat := 12
def enospc : Nat := 28

/-- An inode and the .indirect segment of its file system: the free list of
pages, chained through their `indptr`, and the pages themselves. -/
structure State where
  number : Nat
  size : Int
  rdaddr : Nat → Word
  vindirect : Nat
  rindirect : Word
  nblocks : Nat
  newdisk : Nat
  free : Nat
  more : Nat
  indptr : Nat → Word
  page : Nat → Nat → Word

/-- Where the block pointer of a page is kept. -/
inductive Slot
  | inode (k : Nat)
  | indirect (p k : Nat)
deriving DecidableEq

/-- `n * PSIZE` in an `int`. -/
def bytes (n : Nat) : Int := (BitVec.ofNat 32 (n * 4096)).toInt

/-- `NOIND`, `SGLIND` and `DBLIND`. -/
def noind (size : Int) : Bool := size ≤ 8 * 4096
def sglind (size : Int) : Bool := size ≤ 1024 * 4096
def dblind (size : Int) : Bool := 1024 * 4096 < size

/-- `newbit` and `fragptr` of an external page table entry. -/
def newEntry (fragptr : Nat) : Word := 0x80000000#32 ||| (BitVec.ofNat 32 fragptr &&& 0x7fffffff#32)

namespace State

variable (s : State)

/-- The word in a slot. -/
def word : Slot → Word
  | .inode k => s.rdaddr k
  | .indirect p k => s.page p k

def setWord (w : Word) : Slot → State
  | .inode k => { s with rdaddr := Function.update s.rdaddr k w }
  | .indirect p k => { s with page := Function.update s.page p (Function.update (s.page p) k w) }

/-- `id_vaddr` of an entry of a page of double indirects. -/
def vaddr (p n : Nat) : Nat := (s.page p (2 * n)).toNat

/-- `v_findiblk`. -/
def vFindiblk (pno : Nat) : Option Slot :=
  if pno < ndaddr ∧ (noind s.size ∨ s.number = indirI) then some (.inode pno)
  else if noind s.size then none
  else if sglind s.size then
    if dblind (bytes (pno + 1)) then none else some (.indirect s.vindirect (pno % perblock))
  else
    let k := s.vaddr s.vindirect (pno / perblock)
    if k = 0 then none else some (.indirect k (pno % perblock))

/-- `howmanyind`. -/
def howmanyind (pno : Nat) : Nat :=
  if pno < perblock then 1
  else
    let numind := if dblind s.size then 1 else 2
    if s.vindirect = 0 then numind + 1 else numind

/-- `v_moreiblks`. -/
def vMoreiblks : State × Nat :=
  if maxvpn ≤ s.more then (s, enomem)
  else
    ({ s with
      indptr := fun p =>
        if s.more ≤ p ∧ p < s.more + perblock - 1 then BitVec.ofNat 32 (p + 1)
        else if p = s.more + perblock - 1 then BitVec.ofNat 32 s.free
        else s.indptr p
      free := s.more
      more := s.more + perblock }, 0)

/-- The loop of `touchptrs` along the free list: there are `n` pages from `p` on; `none` for the
failing assert. -/
def touchLoop (indptr : Nat → Word) : Nat → Nat → Option Bool
  | 0, _ => some true
  | n + 1, p =>
    if p = 0 then some false
    else if (indptr p).msb then none
    else touchLoop indptr n (indptr p).toNat

/-- `touchptrs`, with fuel for its jumps back. -/
def touchptrs (n : Nat) : Nat → State → Option (State × Nat)
  | 0, _ => none
  | fuel + 1, s =>
    match touchLoop s.indptr n s.free with
    | none => none
    | some true => some (s, 0)
    | some false =>
      match s.vMoreiblks with
      | (s, rc) => if rc ≠ 0 then some (s, rc) else touchptrs n fuel s

/-- The first part of `v_makeiblk`: a page leaves the free list for a disk block, and its frame is
zero. -/
def takePage (disk : Nat) : Option (State × Nat) :=
  let p := s.free
  if p = 0 ∨ (BitVec.ofNat 32 p).msb then none
  else
    some ({ s with
      free := (s.indptr p).toNat
      indptr := Function.update s.indptr p (newEntry disk)
      page := Function.update s.page p fun _ => 0 }, p)

/-- An entry of a page of double indirects. -/
def setRoot (p n : Nat) (vaddr : Nat) (raddr : Word) : State :=
  (s.setWord (BitVec.ofNat 32 vaddr) (.indirect p (2 * n))).setWord raddr (.indirect p (2 * n + 1))

/-- The inode points to a page of .indirect. -/
def setInode (p : Nat) (npages : Nat) : State :=
  { s with vindirect := p, rindirect := s.indptr p, size := max s.size (bytes npages) }

/-- `v_makeiblk`; no page number for the double indirect block. -/
def vMakeiblk (pno : Option Nat) (disk : Nat) : Option State :=
  (s.takePage disk).map fun (s, p) =>
    match pno with
    | none => (s.setRoot p 0 s.vindirect s.rindirect).setInode p (perblock + 1)
    | some pno =>
      if s.rindirect = 0 then s.setInode p (pno + 1)
      else
        let s := s.setRoot s.vindirect (pno / perblock) p (s.indptr p)
        { s with size := max s.size (bytes (pno + 1)) }

/-- `v_inodecopy`. -/
def vInodecopy : State :=
  let p := if sglind s.size then s.vindirect else s.vaddr s.vindirect 0
  { s with page := Function.update s.page p fun k => if k < ndaddr then s.rdaddr k else s.page p k }

/-- `makeindirect`. -/
def makeindirect (pno numind disk fperpage : Nat) : Option State :=
  if numind = 1 then
    (s.vMakeiblk (some pno) disk).map fun s => if pno < perblock then s.vInodecopy else s
  else
    (s.vMakeiblk none disk).bind fun s =>
      (s.vMakeiblk (some pno) (disk + fperpage)).bind fun s =>
        if numind = 3 then
          (s.vMakeiblk (some 0) (disk + 2 * fperpage)).map fun s => s.vInodecopy
        else some s

end State

/-- What `v_growiblk` learns from elsewhere: the return codes of `v_spaceok` and `v_allocdq`, and
the fragments that `v_psalloc` finds. -/
structure Env where
  fperpage : Nat
  spaceok : Nat
  allocdq : Nat
  psalloc : Nat → Option Nat

/-- `v_growiblk`. -/
def State.vGrowiblk (s : State) (env : Env) (fuel pno : Nat) : Option (State × Nat) :=
  let numind := s.howmanyind pno
  if env.spaceok ≠ 0 then some (s, env.spaceok)
  else
    match s.touchptrs numind fuel with
    | none => none
    | some (s, rc) =>
      if rc ≠ 0 then some (s, rc)
      else if env.allocdq ≠ 0 then some (s, env.allocdq)
      else
        match env.psalloc ((numind + 1) * env.fperpage) with
        | none => some (s, enospc)
        | some disk =>
          (s.makeindirect pno numind disk env.fperpage).bind fun s =>
            (s.vFindiblk pno).map fun xpt =>
              ({ s.setWord (newEntry (disk + numind * env.fperpage)) xpt with
                newdisk := s.newdisk + 1
                nblocks := s.nblocks + env.fperpage }, 0)

end Aix413.Indirect
