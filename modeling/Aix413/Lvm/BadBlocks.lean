import Aix413.Lvm.Requests

namespace Aix413.Lvm.BadBlocks

/-! ## The defect table of a physical volume -/

/-- Block numbers of a disk are below 2^31, so they are kept as numbers. -/
def blk2trk (blk : Nat) : Nat := blk >>> (trkShift + bppgShift)
def byte2blk (n : Nat) : Nat := n >>> dbShift
def blk2byte (n : Nat) : Nat := n <<< dbShift
def dbSize : Nat := 512
def hashsize : Nat := 64

def bbhashInd (blkno : Nat) : Nat := blk2trk blkno &&& (hashsize - 1)

inductive RelStat
  | done
  | pending
  | device
  | chained
  | desired
deriving DecidableEq

structure BadBlk where
  blkno : Nat
  relblk : Nat
  status : RelStat
deriving DecidableEq

/-- `struct defect_tbl`: each chain holds the blocks of its class, in ascending
order. -/
structure DefectTbl where
  defects : Nat → List BadBlk
  hashed : ∀ i, ∀ bad ∈ defects i, bbhashInd bad.blkno = i
  sorted : ∀ i, (defects i).Pairwise fun a b => a.blkno < b.blkno

/-- `HASH_BAD` -/
def DefectTbl.hashBad (tbl : DefectTbl) (blkno : Nat) : List BadBlk := tbl.defects (bbhashInd blkno)

def DefectTbl.Recorded (tbl : DefectTbl) (bad : BadBlk) : Prop := bad ∈ tbl.hashBad bad.blkno

instance (tbl : DefectTbl) (bad : BadBlk) : Decidable (tbl.Recorded bad) :=
  inferInstanceAs (Decidable (bad ∈ tbl.hashBad bad.blkno))

theorem DefectTbl.recorded_of_mem {tbl : DefectTbl} {i : Nat} {bad : BadBlk}
    (h : bad ∈ tbl.defects i) : tbl.Recorded bad := by
  unfold DefectTbl.Recorded DefectTbl.hashBad
  rw [tbl.hashed i bad h]
  exact h

/-- The loop of `hd_nqbblk` behind the first entry. -/
def insAfter (bb : BadBlk) : List BadBlk → List BadBlk
  | [] => [bb]
  | cur :: rest => if cur.blkno < bb.blkno then cur :: insAfter bb rest else bb :: cur :: rest

/-- `hd_nqbblk` on the chain of the block. -/
def hdNqbblk (bb : BadBlk) : List BadBlk → List BadBlk
  | [] => [bb]
  | cur :: rest => if bb.blkno < cur.blkno then bb :: cur :: rest else cur :: insAfter bb rest

/-- `hd_dqbblk` on the chain of the block. -/
def hdDqbblk (bb : BadBlk) (chain : List BadBlk) : List BadBlk := chain.erase bb

theorem mem_insAfter {bb bad : BadBlk} {chain : List BadBlk} :
    bad ∈ insAfter bb chain ↔ bad = bb ∨ bad ∈ chain := by
  induction chain with
  | nil => simp [insAfter]
  | cons cur rest ih =>
    rw [insAfter]
    split
    next =>
      rw [List.mem_cons, ih, List.mem_cons]
      tauto
    next => rw [List.mem_cons]

theorem mem_hdNqbblk {bb bad : BadBlk} {chain : List BadBlk} :
    bad ∈ hdNqbblk bb chain ↔ bad = bb ∨ bad ∈ chain := by
  cases chain with
  | nil => simp [hdNqbblk]
  | cons cur rest =>
    rw [hdNqbblk]
    split
    next => rw [List.mem_cons]
    next =>
      rw [List.mem_cons, mem_insAfter, List.mem_cons]
      tauto

theorem sorted_insAfter {bb : BadBlk} {chain : List BadBlk}
    (hs : chain.Pairwise fun a b => a.blkno < b.blkno) (hnew : ∀ bad ∈ chain, bad.blkno ≠ bb.blkno) :
    (insAfter bb chain).Pairwise fun a b => a.blkno < b.blkno := by
  induction chain with
  | nil => exact List.pairwise_singleton _ _
  | cons cur rest ih =>
    rw [List.pairwise_cons] at hs
    have hne := hnew cur List.mem_cons_self
    rw [insAfter]
    split
    next hlt =>
      refine List.pairwise_cons.mpr ⟨fun bad hm => ?_, ih hs.2 fun b hb => hnew b (List.mem_cons_of_mem _ hb)⟩
      rcases mem_insAfter.mp hm with rfl | hm
      · exact hlt
      · exact hs.1 bad hm
    next hge =>
      have hlt : bb.blkno < cur.blkno := by omega
      refine List.pairwise_cons.mpr ⟨fun bad hm => ?_, List.pairwise_cons.mpr hs⟩
      rcases List.mem_cons.mp hm with rfl | hm
      · exact hlt
      · exact hlt.trans (hs.1 bad hm)

/-- A chain stays in order when a block that is not on it is added. -/
theorem sorted_hdNqbblk {bb : BadBlk} {chain : List BadBlk}
    (hs : chain.Pairwise fun a b => a.blkno < b.blkno) (hnew : ∀ bad ∈ chain, bad.blkno ≠ bb.blkno) :
    (hdNqbblk bb chain).Pairwise fun a b => a.blkno < b.blkno := by
  cases chain with
  | nil => exact List.pairwise_singleton _ _
  | cons cur rest =>
    have hhead := List.pairwise_cons.mp hs
    rw [hdNqbblk]
    split
    next hlt =>
      refine List.pairwise_cons.mpr ⟨fun bad hm => ?_, hs⟩
      rcases List.mem_cons.mp hm with rfl | hm
      · exact hlt
      · exact hlt.trans (hhead.1 bad hm)
    next hge =>
      have hne := hnew cur List.mem_cons_self
      refine List.pairwise_cons.mpr ⟨fun bad hm => ?_,
        sorted_insAfter hhead.2 fun b hb => hnew b (List.mem_cons_of_mem _ hb)⟩
      rcases mem_insAfter.mp hm with rfl | hm
      · omega
      · exact hhead.1 bad hm

def DefectTbl.empty : DefectTbl where
  defects := fun _ => []
  hashed := fun _ _ h => absurd h List.not_mem_nil
  sorted := fun _ => List.Pairwise.nil

/-- A block that is not in the table is added. -/
def DefectTbl.add (tbl : DefectTbl) (bb : BadBlk)
    (hnew : ∀ bad ∈ tbl.hashBad bb.blkno, bad.blkno ≠ bb.blkno) : DefectTbl where
  defects := Function.update tbl.defects (bbhashInd bb.blkno) (hdNqbblk bb (tbl.hashBad bb.blkno))
  hashed := by
    intro i bad hm
    by_cases hi : i = bbhashInd bb.blkno
    · subst hi
      rw [Function.update_self] at hm
      rcases mem_hdNqbblk.mp hm with rfl | hm
      · rfl
      · exact tbl.hashed _ bad hm
    · rw [Function.update_of_ne hi] at hm
      exact tbl.hashed i bad hm
  sorted := by
    intro i
    by_cases hi : i = bbhashInd bb.blkno
    · subst hi
      rw [Function.update_self]
      exact sorted_hdNqbblk (tbl.sorted _) hnew
    · rw [Function.update_of_ne hi]
      exact tbl.sorted i

def DefectTbl.remove (tbl : DefectTbl) (bb : BadBlk) : DefectTbl where
  defects := Function.update tbl.defects (bbhashInd bb.blkno) (hdDqbblk bb (tbl.hashBad bb.blkno))
  hashed := by
    intro i bad hm
    by_cases hi : i = bbhashInd bb.blkno
    · subst hi
      rw [Function.update_self] at hm
      exact tbl.hashed _ bad (List.mem_of_mem_erase hm)
    · rw [Function.update_of_ne hi] at hm
      exact tbl.hashed i bad hm
  sorted := by
    intro i
    by_cases hi : i = bbhashInd bb.blkno
    · subst hi
      rw [Function.update_self]
      exact (tbl.sorted _).sublist List.erase_sublist
    · rw [Function.update_of_ne hi]
      exact tbl.sorted i

def BadBlk.setStatus (blkno : Nat) (status : RelStat) (bad : BadBlk) : BadBlk :=
  if bad.blkno = blkno then { bad with status := status } else bad

theorem BadBlk.blkno_setStatus (blkno : Nat) (status : RelStat) (bad : BadBlk) :
    (bad.setStatus blkno status).blkno = bad.blkno := by
  unfold BadBlk.setStatus
  split <;> rfl

def DefectTbl.setStatus (tbl : DefectTbl) (blkno : Nat) (status : RelStat) : DefectTbl where
  defects := fun i => (tbl.defects i).map (BadBlk.setStatus blkno status)
  hashed := by
    intro i bad hm
    obtain ⟨old, hold, rfl⟩ := List.mem_map.mp hm
    rw [BadBlk.blkno_setStatus]
    exact tbl.hashed i old hold
  sorted := by
    intro i
    rw [List.pairwise_map]
    simp only [BadBlk.blkno_setStatus]
    exact tbl.sorted i

/-! ## Physical requests -/

inductive Iodone
  | hdEnd
  | hdBbend
deriving DecidableEq

inductive Bbop
  | none
  | rddfct
  | wtdfct
deriving DecidableEq

/-- The fields of a `struct pbuf` that bad block relocation reads and sets, with
the options of its logical volume (`LV_NOBBREL`), of its logical request
(`RORELOC`) and of its physical volume (`PV_RORELOC`). -/
structure Pbuf where
  read : Bool
  nobbrel : Bool
  roreloc : Bool
  pvRoreloc : Bool
  pbStart : Nat
  origAddr : Nat
  origCount : Nat
  pbAddr : Nat
  bBlkno : Nat
  bBcount : Nat
  pbBad : Option BadBlk
  bIodone : Iodone
  pbBbop : Bbop
  hwreloc : Bool
  fixReadError : Bool

inductive Check
  | success (pb : Pbuf) (tbl : DefectTbl)
  | failure (pb : Pbuf)
  | panic

/-- The search of `hd_chkblk` in a chain. -/
def firstFrom (blkno : Nat) : List BadBlk → Option BadBlk
  | [] => none
  | bad :: rest => if blkno ≤ bad.blkno then some bad else firstFrom blkno rest

/-- The case `REL_DESIRED` of `hd_chkblk`. -/
def chkDesired (tbl : DefectTbl) (pb : Pbuf) (bad : BadBlk) : Check :=
  if pb.roreloc ∨ pb.pvRoreloc then .failure pb
  else if pb.read then .success { pb with bIodone := .hdBbend, pbBbop := .rddfct } tbl
  else
    .success { pb with bIodone := .hdBbend, pbBbop := .wtdfct, hwreloc := true, fixReadError := true }
      (tbl.setStatus bad.blkno .device)

def hdChkblk (tbl : DefectTbl) (pb : Pbuf) : Check :=
  let pb := { pb with pbBad := none }
  match firstFrom pb.bBlkno (tbl.hashBad pb.bBlkno) with
  | none => .success pb tbl
  | some bad =>
    if pb.bBlkno + byte2blk pb.bBcount ≤ bad.blkno then .success pb tbl
    else if pb.nobbrel then .failure pb
    else if pb.bBlkno < bad.blkno then
      .success { pb with bBcount := blk2byte (bad.blkno - pb.bBlkno) } tbl
    else
      let pb := { pb with pbBad := some bad, bBcount := dbSize }
      match bad.status with
      | .done => .success { pb with bBlkno := bad.relblk } tbl
      | .pending | .device => .panic
      | .chained =>
        match (tbl.hashBad bad.relblk).find? fun b => b.blkno = bad.relblk with
        | none => .panic
        | some next => chkDesired tbl { pb with bBlkno := bad.relblk, pbBad := some next } next
      | .desired => chkDesired tbl pb bad

/-- A request for blocks of a physical volume, of a track group at most. -/
structure Request where
  read : Bool
  nobbrel : Bool
  roreloc : Bool
  pvRoreloc : Bool
  addr : Nat
  start : Nat
  nblocks : Nat
  nblocks_le : nblocks ≤ 256

/-- `hd_begin` up to the check. -/
def hdBegin (r : Request) : Pbuf where
  read := r.read
  nobbrel := r.nobbrel
  roreloc := r.roreloc
  pvRoreloc := r.pvRoreloc
  pbStart := r.start
  origAddr := r.addr
  origCount := blk2byte r.nblocks
  pbAddr := r.addr
  bBlkno := r.start
  bBcount := blk2byte r.nblocks
  pbBad := none
  bIodone := .hdEnd
  pbBbop := .none
  hwreloc := false
  fixReadError := false

/-- A transfer has ended well with `resid` bytes left. `hd_bbend` and what it
starts let the request go on behind the bad block. -/
def ended (pb : Pbuf) (resid : Nat) : Pbuf :=
  match pb.bIodone with
  | .hdEnd => { pb with pbAddr := pb.pbAddr + (pb.bBcount - resid) }
  | .hdBbend =>
    { pb with
      pbAddr := pb.pbAddr + dbSize
      bIodone := .hdEnd
      pbBbop := .none
      hwreloc := false
      fixReadError := false }

/-- `hd_resume` up to the check. -/
def hdResume (pb : Pbuf) : Pbuf :=
  let bytesDone := pb.pbAddr - pb.origAddr
  { pb with
    bBcount := pb.origCount - bytesDone
    bBlkno := pb.pbStart + byte2blk bytesDone }

/-- `PB_CONT` without an error: the request is done, or goes on. -/
def pbCont (pb : Pbuf) : Option Pbuf :=
  if pb.pbAddr = pb.origAddr + pb.origCount then none else some (hdResume pb)

/-! ## Runs -/

/-- The table a piece is cut by, and the blocks that its transfer leaves. -/
structure Turn where
  tbl : DefectTbl
  resid : Nat

/-- A piece: what was left of the request, the transfer started, and the blocks
moved. -/
structure Piece where
  tbl : DefectTbl
  asked : Pbuf
  io : Pbuf
  moved : Nat

inductive Ending
  | waiting
  | done
  | failed
  | panicked
deriving DecidableEq

/-- The pieces of a request, with the transfers all successful. -/
def pieces (pb : Pbuf) : List Turn → List Piece × Ending
  | [] => ([], .waiting)
  | t :: ts =>
    match hdChkblk t.tbl pb with
    | .failure _ => ([], .failed)
    | .panic => ([], .panicked)
    | .success io _ =>
      let after := ended io (blk2byte t.resid)
      let p : Piece := ⟨t.tbl, pb, io, byte2blk (after.pbAddr - io.pbAddr)⟩
      match pbCont after with
      | none => ([p], .done)
      | some pb =>
        let r := pieces pb ts
        (p :: r.1, r.2)

end Aix413.Lvm.BadBlocks
