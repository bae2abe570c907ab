import Aix413.Lib.BlockMove
import Aix413.Lib.LinkedPool
import Aix413.Lib.TailRing

namespace Aix413.PageIo

open Lib.BlockMove

/-! ## Page frames that wait for I/O -/

def psize : Nat := 4096

/-- Pages of a logical track group. -/
def pgptrk : Nat := 32

/-- What I/O needs of a page frame. A frame that waits is paged in or paged out. -/
structure Frame where
  pagein : Bool
  ssid : Nat
  /-- The page number, which is also that in the I/O address space. -/
  spage : Nat
  /-- The first fragment on the disk. -/
  fraddr : Nat
  /-- Fragments less than a page. -/
  nfrags : Nat

/-- The frame table and what is fixed for a device and a segment. -/
structure Conf where
  pft : Nat → Frame
  fperpage : Nat
  /-- `scb_compress` of the segment. -/
  compress : Bool
  /-- `jfs_maxcompact` -/
  maxcompact : Nat

namespace Conf

variable (c : Conf)

def fragsize : Nat := psize / c.fperpage

def frags (nfr : Nat) : Nat := c.fperpage - (c.pft nfr).nfrags

def nbytes (nfr : Nat) : Nat := c.frags nfr * c.fragsize

/-- Where a page is in the I/O address space of its segment. -/
def page (nfr : Nat) : Nat := (c.pft nfr).spage * psize

def ltgmsk : BitVec 32 := ~~~BitVec.ofNat 32 (pgptrk * c.fperpage - 1)

def ltgno (nfr : Nat) : BitVec 32 := BitVec.ofNat 32 (c.pft nfr).fraddr &&& c.ltgmsk

end Conf

structure State (β : Type) where
  nextio : Nat → Nat
  /-- The last frame of the circular list of the device. -/
  iotail : Option Nat
  /-- The I/O address space of the segment. -/
  mem : Nat → β

structure Buf where
  bBcount : Nat
  bBlkno : Nat
  compacted : Bool
deriving DecidableEq

variable {β : Type} (c : Conf)

/-- The first frame is taken off the list; `last` is the last one. -/
def State.remove (last : Nat) (s : State β) : State β :=
  let nfr := s.nextio last
  if nfr = last then { s with iotail := none }
  else { s with nextio := Function.update s.nextio last (s.nextio nfr) }

/-- The beginning of the loop of `v_pdtsio`. -/
def takeFirst (s : State β) : Option (Nat × State β) :=
  s.iotail.map fun last =>
    let nfr := s.nextio last
    let s := s.remove last
    (nfr, { s with nextio := Function.update s.nextio nfr 0 })

/-! ## Gathering -/

structure Gathering (β : Type) extends State β where
  head : Nat
  tail : Nat
  nio : Nat
  bBcount : Nat

/-- Whether frame `nfr` goes on the gather list. -/
def fits (g : Gathering β) (sid : Nat) (ltgno : BitVec 32) (nfr : Nat) : Prop :=
  (c.pft nfr).pagein = (c.pft g.head).pagein ∧ (c.pft nfr).ssid = sid ∧ c.ltgno nfr = ltgno ∧
  if (c.pft nfr).spage + 1 = (c.pft g.head).spage then
    (c.pft nfr).fraddr + c.frags nfr = (c.pft g.head).fraddr
  else
    (c.pft nfr).spage = (c.pft g.tail).spage + 1 ∧
      (c.pft nfr).fraddr = (c.pft g.tail).fraddr + c.frags g.tail

instance (g : Gathering β) (sid : Nat) (ltgno : BitVec 32) (nfr : Nat) :
    Decidable (fits c g sid ltgno nfr) := by
  unfold fits
  exact inferInstance

/-- Frame `nfr` is added at the head or at the tail of the gather list. -/
def Gathering.add (nfr : Nat) (g : Gathering β) : Gathering β :=
  let g := { g with bBcount := g.bBcount + c.nbytes nfr, nio := g.nio + 1 }
  if (c.pft nfr).spage + 1 = (c.pft g.head).spage then
    { g with nextio := Function.update g.nextio nfr g.head, head := nfr }
  else
    { g with
      nextio := Function.update (Function.update g.nextio g.tail nfr) nfr 0
      tail := nfr }

/-- The loop of `v_gather` over the list of the device. -/
def gatherLoop (sid : Nat) (ltgno : BitVec 32) : Nat → Gathering β → Option (Gathering β)
  | 0, _ => none
  | fuel + 1, g =>
    match g.iotail with
    | none => some g
    | some last =>
      let nfr := g.nextio last
      if fits c g sid ltgno nfr then
        let g := ({ g with toState := g.toState.remove last } : Gathering β).add c nfr
        if c.compress ∧ c.maxcompact ≤ g.nio then some g else gatherLoop sid ltgno fuel g
      else some g

structure Compacting (β : Type) extends State β where
  lstnfrags : Nat
  dst : Nat
  src : Nat
  compacted : Bool

/-- The data of page `nfr` is moved behind those before it. -/
def Compacting.move (nfr : Nat) (k : Compacting β) : Compacting β :=
  let pageout := !(c.pft nfr).pagein
  let k :=
    if k.compacted ∨ k.lstnfrags < c.fperpage then
      let k :=
        if k.compacted then k
        else { k with compacted := true, src := if pageout then c.page nfr else k.src }
      if pageout then
        { k with mem := Lib.BlockMove.move k.mem k.src k.dst (c.nbytes nfr), src := k.src + psize }
      else k
    else k
  { k with dst := k.dst + c.nbytes nfr, lstnfrags := c.frags nfr }

/-- The loop of `v_gather` that puts the frames behind `head` in descending order. -/
def compactLoop (head : Nat) : Nat → Nat → Compacting β → Option (Compacting β)
  | fuel, nfr, k =>
    if nfr = 0 then some k
    else
      match fuel with
      | 0 => none
      | fuel + 1 =>
        let next := k.nextio nfr
        let nextio := Function.update k.nextio nfr (k.nextio head)
        let k := { k with nextio := Function.update nextio head nfr }
        compactLoop head fuel next (k.move c nfr)

def compact (fuel head : Nat) (s : State β) : Option (Bool × State β) :=
  let nfr := s.nextio head
  (compactLoop c head fuel nfr
    { s with
      nextio := Function.update s.nextio head 0
      lstnfrags := c.frags head
      dst := c.page head + c.frags head * c.fragsize
      src := 0
      compacted := false }).map fun k => (k.compacted, k.toState)

/-- `v_gather`: the head of the gather list, and what goes into the buf struct. -/
def vGather (fuel nfr : Nat) (s : State β) : Option (Nat × Buf × State β) :=
  (gatherLoop c (c.pft nfr).ssid (c.ltgno nfr) fuel
    { s with head := nfr, tail := nfr, nio := 1, bBcount := c.nbytes nfr }).bind fun g =>
    let blkno := (c.pft g.head).fraddr * (c.fragsize / 512)
    if c.compress ∧ 1 < g.nio then
      (compact c fuel g.head g.toState).map fun (compacted, s) =>
        (g.head, ⟨g.bBcount, blkno, compacted⟩, s)
    else some (g.head, ⟨g.bBcount, blkno, false⟩, g.toState)

/-! ## Scattering -/

/-- The fragments of a page are moved one by one, from the last on. -/
def fragLoop (discard : Bool) : Nat → Nat → Nat → (Nat → β) → Nat × (Nat → β)
  | 0, srce, _, m => (srce, m)
  | n + 1, srce, dste, m =>
    let srce := srce - c.fragsize
    let dste := dste - c.fragsize
    fragLoop discard n srce dste (if discard then m else move m srce dste c.fragsize)

/-- The loop of `v_uncompact`, from the last page down. -/
def uncompactLoop (discard : Nat → Bool) (nextio : Nat → Nat) :
    Nat → Nat → Nat → (Nat → β) → Option (Nat → β)
  | fuel, last, srce, m =>
    if last = 0 then some m
    else
      match fuel with
      | 0 => none
      | fuel + 1 =>
        let srcs := srce - c.nbytes last
        let dsts := c.page last
        if srce ≤ dsts then
          uncompactLoop discard nextio fuel (nextio last) srcs
            (if discard last then m else move m srcs dsts (c.nbytes last))
        else if srcs ≠ dsts then
          let (srce, m) :=
            fragLoop c (discard last) (c.frags last) srce (dsts + c.nbytes last) m
          uncompactLoop discard nextio fuel (nextio last) srce m
        else some m

def vUncompact (discard : Nat → Bool) (fuel nfr count : Nat) (error : Bool) (s : State β) :
    Option (State β) :=
  if (c.pft nfr).pagein ∧ error then some s
  else
    (uncompactLoop c discard s.nextio fuel (s.nextio nfr) (c.page nfr + count) s.mem).map fun m =>
      { s with mem := m }

/-- What `v_pfend` does with the data. -/
def vPfend (discard : Nat → Bool) (fuel nfr : Nat) (bp : Buf) (error : Bool) (s : State β) :
    Option (State β) :=
  if bp.compacted then vUncompact c discard fuel nfr bp.bBcount error s else some s

end Aix413.PageIo
