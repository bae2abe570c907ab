import Aix413.Lib.LinkedPool

namespace Aix413.Lockword.Anchor

open Aix413.Lib.LinkedPool

abbrev Word := BitVec 32

/-- Segment ids and page numbers have the widths of their fields in `struct
lockword`. -/
abbrev Sid := BitVec 24
abbrev Page := BitVec 16

/-- The 32 bytes of a pool entry. `struct lockword` and `struct movedfrag` are
two readings of them; a `movedfrag` pointer is the index of its entry. -/
structure Cell where
  next : Nat
  link : Nat
  word2 : Word
  word3 : Word
  word4 : Word
  word5 : Word
  word6 : Word
  word7 : Word

namespace Cell

def flag (c : Cell) : BitVec 8 := c.word2.extractLsb' 24 8
def sid (c : Cell) : Sid := c.word2.extractLsb' 0 24
def page (c : Cell) : Page := c.word3.extractLsb' 16 16
def tid (c : Cell) : Nat := (c.word3.extractLsb' 0 16).toNat
def extmem (c : Cell) : Word := c.word7

/-- `bsid` and `pno` of a `movedfrag`. -/
def fragSid (c : Cell) : Word := c.word2
def fragPno (c : Cell) : Word := c.word3

def withFlagSid (c : Cell) (flag : BitVec 8) (sid : Sid) : Cell := { c with word2 := flag ++ sid }

def withPageTid (c : Cell) (page : Page) (tid : Nat) : Cell :=
  { c with word3 := page ++ BitVec.ofNat 16 tid }

def withBits (c : Cell) (bits : Word) : Cell := { c with word4 := bits }

section Fields

variable (c : Cell) (flag : BitVec 8) (sid : Sid) (page : Page) (tid : Nat)

@[simp] theorem sid_withFlagSid : (c.withFlagSid flag sid).sid = sid :=
  (BitVec.extractLsb'_append_eq_of_add_le (by omega)).trans BitVec.extractLsb'_eq_self

@[simp] theorem page_withPageTid : (c.withPageTid page tid).page = page :=
  (BitVec.extractLsb'_append_eq_of_le (Nat.le_refl 16)).trans BitVec.extractLsb'_eq_self

theorem tid_withPageTid (h : tid < 2 ^ 16) : (c.withPageTid page tid).tid = tid := by
  have ht : (page ++ BitVec.ofNat 16 tid).extractLsb' 0 16 = BitVec.ofNat 16 tid :=
    (BitVec.extractLsb'_append_eq_of_add_le (by omega)).trans BitVec.extractLsb'_eq_self
  rw [Cell.tid, withPageTid, ht, BitVec.toNat_ofNat, Nat.mod_eq_of_lt h]

end Fields

end Cell

def writelock : BitVec 8 := 1
def freelockFlag : BitVec 8 := 2

/-- `struct tblock`, less the fields of the group commit. -/
structure Tblock where
  logtid : Nat
  next : Nat
  tid : Nat
  waitsid : Sid
  waitline : Nat
  locker : Nat
  lsidx : Nat
  logage : Int
  waitors : List Nat

def Tblock.zero : Tblock := ⟨0, 0, 0, 0, 0, 0, 0, 0, []⟩

/-- What a page frame has of a journalled page. -/
structure Pfte where
  dblock : Word
  logage : Int
  homeok : Bool
  modbit : Bool

/-- `lanch`, the pool, the hash table and the inode lists of the movedfrags,
the tid of each thread, the page frames and the paging space blocks freed. -/
structure State where
  nexttid : Nat
  freetid : Nat
  maxtid : Nat
  lwptr : Nat
  freelock : Nat
  morelocks : Nat
  syncwait : Nat
  tblkwait : List Nat
  freewait : List Nat
  tblk : Nat → Tblock
  lockhash : Nat → Nat
  lword : Nat → Cell
  fraghtab : Nat → Nat
  movedfrag : Nat → Nat
  fstid : Nat → Nat
  pft : Nat → Pfte
  psfreeblks : Nat
  dfreed : List Word

/-- What the operations look up elsewhere: the page frame of a page, the log of
a segment and its addresses, the inode of a segment and the segment of an
inode. -/
structure Env where
  lookup : Sid → Page → Nat
  logsidx : Sid → Nat
  loglast : Nat → Int
  logsync : Nat → Int
  logsize : Nat → Int
  inodeOf : Word → Nat
  seg : Nat → Word

inductive Rc
  | ok
  | vmWait
  | enomem
  deriving DecidableEq, Repr

section Cells

variable (s : State) (k v : Nat)

def State.next : Nat → Nat := fun k => (s.lword k).next
def State.link : Nat → Nat := fun k => (s.lword k).link

def setCell (c : Cell) : State := { s with lword := Function.update s.lword k c }
def setNext : State := setCell s k { s.lword k with next := v }
def setLink : State := setCell s k { s.lword k with link := v }
def setTblk (t : Nat) (b : Tblock) : State := { s with tblk := Function.update s.tblk t b }
def setLockhash (h : Nat) : State := { s with lockhash := Function.update s.lockhash h v }
def setFraghtab (h : Nat) : State := { s with fraghtab := Function.update s.fraghtab h v }
def setFreelock : State := { s with freelock := v }
def setMovedfrag (ip : Nat) : State := { s with movedfrag := Function.update s.movedfrag ip v }

/-- Entries of the pages of lockwords that are in use. -/
def State.size : Nat := (s.morelocks - s.lwptr) / 32

end Cells

/-- `(sid ^ page) & (NLOCKHASH - 1)`. -/
def lockHash (sid : Sid) (page : Page) : Nat := (sid.toNat ^^^ page.toNat) % 128

/-- `(bsid ^ phash) & (NFRAGHASH - 1)`. -/
def fragHash (bsid phash : Word) : Nat := (bsid.toNat ^^^ phash.toNat) % 256

/-- `vm_initlock`, in memory that is zero. -/
def vm_initlock (lwptr : Nat) (pft : Nat → Pfte) : State where
  nexttid := 1
  freetid := 1
  maxtid := 0
  lwptr := lwptr
  freelock := 1
  morelocks := lwptr + 4096
  syncwait := 0
  tblkwait := []
  freewait := []
  tblk := fun k => { Tblock.zero with next := if 1 ≤ k ∧ k < 255 then k + 1 else 0 }
  lockhash := fun _ => 0
  lword := fun k => ⟨if 1 ≤ k ∧ k < 127 then k + 1 else 0, 0, 0, 0, 0, 0, 0, 0⟩
  fraghtab := fun _ => 0
  movedfrag := fun _ => 0
  fstid := fun _ => 0
  pft := pft
  psfreeblks := 0
  dfreed := []

/-- `v_morelocks`; `none` for ENOMEM. The test of the source comes down to
`morelocks` being 0 as a word. -/
def v_morelocks (s : State) : Option State :=
  if s.morelocks % 2 ^ 32 = 0 then none
  else
    let nbytes := s.morelocks - s.lwptr
    let before := nbytes / 32
    let first := if before * 32 = nbytes then before else before + 1
    let last := (nbytes + 4096) / 32 - 1
    some { s with
      lword := fun k =>
        if first ≤ k ∧ k < last - 1 then { s.lword k with next := k + 1 }
        else if k = last then { s.lword k with next := s.freelock }
        else s.lword k
      freelock := first
      morelocks := s.morelocks + 4096 }

/-- More lockwords if there are no free ones. -/
def needLock (s : State) : Option State := if s.freelock = 0 then v_morelocks s else some s

/-- The first free `tblk`, zeroed, for a thread. -/
def takeTblk (s : State) (th : Nat) : State :=
  let t := s.freetid
  { s with
    freetid := (s.tblk t).next
    nexttid := s.nexttid + 1
    maxtid := max t s.maxtid
    tblk := Function.update s.tblk t { Tblock.zero with logtid := s.nexttid + 1, tid := t }
    fstid := Function.update s.fstid th t }

/-- `v_gettblk` for a thread. -/
def v_gettblk (s : State) (th : Nat) : State × Rc :=
  if s.syncwait ≠ 0 then ({ s with tblkwait := s.tblkwait ++ [th] }, .vmWait)
  else if s.freetid = 0 then ({ s with freewait := s.freewait ++ [th] }, .vmWait)
  else (takeTblk s th, .ok)

/-- The lockword of a page. -/
def isFor (s : State) (sid : Sid) (page : Page) (k : Nat) : Bool :=
  sid = (s.lword k).sid ∧ page = (s.lword k).page

/-- `v_findlw`, and the same search in `v_gettlock` and `v_insertlw`. -/
def v_findlw (s : State) (sid : Sid) (page : Page) : Option Nat :=
  find s.next (isFor s sid page) (s.size + 1) (s.lockhash (lockHash sid page))

def unlinkTid (s : State) (tid k : Nat) (prev : Option Nat) : State :=
  match prev with
  | none => setTblk s tid { s.tblk tid with next := s.link k }
  | some p => setLink s p (s.link k)

def unlinkLock (s : State) (hash k : Nat) (prev : Option Nat) : State :=
  match prev with
  | none => setLockhash s (s.next k) hash
  | some m => setNext s m (s.next k)

def pushFree (s : State) (k : Nat) : State := setFreelock (setNext s k s.freelock) k

def pushHash (s : State) (hash k : Nat) : State := setLockhash (setNext s k (s.lockhash hash)) k hash

def pushTid (s : State) (t k : Nat) : State :=
  setTblk (setLink s k (s.tblk t).next) t { s.tblk t with next := k }

/-- Free the paging space block of a lockword, if any. -/
def freeExtmem (s : State) (daddr : Word) : State :=
  if daddr ≠ 0 then { s with dfreed := daddr :: s.dfreed, psfreeblks := s.psfreeblks + 1 } else s

/-- `v_rmlock`; `none` when a search does not end. -/
def v_rmlock (s : State) (lw : Nat) : Option State :=
  let tid := (s.lword lw).tid
  let hash := lockHash (s.lword lw).sid (s.lword lw).page
  match before s.link lw (s.size + 1) none (s.tblk tid).next,
    before s.next lw (s.size + 1) none (s.lockhash hash) with
  | some prev, some m =>
    some (freeExtmem (unlinkTid (pushFree (unlinkLock s hash lw m) lw) tid lw prev)
      (s.lword lw).extmem)
  | _, _ => none

def logdiff (e : Env) (logval : Int) (lsidx : Nat) : Int :=
  let diff := logval - e.logsync lsidx
  if diff < 0 then diff + (e.logsize lsidx - 2 * 4096) else diff

/-- `pft_logage` and `lword.log` of a page in frame `f`, which is modified. -/
def setPageAge (s : State) (k f : Nat) (age : Int) : State :=
  { setCell s k { s.lword k with word5 := BitVec.ofInt 32 age } with
    pft := Function.update s.pft f { s.pft f with logage := age, homeok := false, modbit := true } }

/-- The log age of a transaction that has locked a page. -/
def setTidAge (e : Env) (s : State) (t lsidx : Nat) (age : Int) : State :=
  if (s.tblk t).logage = 0 then setTblk s t { s.tblk t with logage := age, lsidx := lsidx }
  else if logdiff e age lsidx < logdiff e (s.tblk t).logage lsidx then
    setTblk s t { s.tblk t with logage := age }
  else s

def setAges (e : Env) (s : State) (t k f : Nat) (sid : Sid) : State :=
  let lsidx := e.logsidx sid
  let age := if (s.pft f).logage ≠ 0 then (s.pft f).logage else e.loglast lsidx
  setTidAge e (setPageAge s k f age) t lsidx age

/-- The line bits of `n` lines from `line` on. -/
def lineBits (bits : Word) (line : Nat) : Nat → Word
  | 0 => bits
  | n + 1 => lineBits (bits ||| (1 <<< (32 - line - 1))) (line + 1) n

def grantlock (s : State) (k vaddr length : Nat) : State :=
  setCell s k ((s.lword k).withBits
    (lineBits (s.lword k).word4 (vaddr % 4096 / 128) ((vaddr % 128 + length + 127) / 128)))

/-- The fields of a new lockword, its links not yet set. -/
def lockCell (c : Cell) (t : Nat) (sid : Sid) (page : Page) (dblock : Word) : Cell :=
  { ((c.withFlagSid writelock sid).withPageTid page t).withBits 0 with word6 := dblock, word7 := 0 }

/-- A free lockword made one for the page, off the free list and on its hash
chain. -/
def newLock (s : State) (k t : Nat) (sid : Sid) (page : Page) (dblock : Word) : State :=
  let s := setCell s k (lockCell (s.lword k) t sid page dblock)
  pushHash (setFreelock s (s.next k)) (lockHash sid page) k

def stealCell (c : Cell) (t : Nat) : Cell :=
  ((c.withFlagSid writelock c.sid).withPageTid c.page t).withBits 0

/-- A lockword of tid 0 taken over by a transaction. -/
def stealLock (s : State) (k t : Nat) (prev : Option Nat) : State :=
  let s := unlinkTid s 0 k prev
  setCell s k (stealCell (s.lword k) t)

/-- Thread `th` of transaction `t` waits for the holder `t1` of the lock. -/
def waitFor (s : State) (th t t1 : Nat) (sid : Sid) (line : Nat) : State :=
  let s := setTblk s t { s.tblk t with waitsid := sid, waitline := line, locker := t1 }
  setTblk s t1 { s.tblk t1 with waitors := (s.tblk t1).waitors ++ [th] }

/-- `v_gettlock` once the thread has a tid. -/
def getLock (e : Env) (s : State) (th t : Nat) (sid : Sid) (page : Page) (vaddr length : Nat) :
    Option (State × Rc) :=
  let f := e.lookup sid page
  match v_findlw s sid page with
  | none => none
  | some k =>
    if k = 0 then
      match needLock s with
      | none => some (s, .enomem)
      | some s =>
        let k := s.freelock
        let s := newLock s k t sid page (s.pft f).dblock
        some (grantlock (setAges e (pushTid s t k) t k f sid) k vaddr length, .ok)
    else if t = (s.lword k).tid then some (grantlock s k vaddr length, .ok)
    else if (s.lword k).tid = 0 then
      match before s.link k (s.size + 1) none (s.tblk 0).next with
      | none => none
      | some prev =>
        let s := stealLock s k t prev
        some (grantlock (setAges e (pushTid s t k) t k f sid) k vaddr length, .ok)
    else some (waitFor s th t (s.lword k).tid sid (vaddr % 4096 / 128), .vmWait)

/-- `v_gettlock`, called by a thread. -/
def v_gettlock (e : Env) (s : State) (th : Nat) (sid : Sid) (vaddr length : Nat) :
    Option (State × Rc) :=
  match (if s.fstid th = 0 then v_gettblk s th else (s, .ok)) with
  | (s, .ok) =>
    getLock e s th (s.fstid th) sid (BitVec.ofNat 16 (vaddr / 4096)) vaddr length
  | (s, rc) => some (s, rc)

/-- The loop of `v_frlock`. -/
def frlockLoop : Nat → State → Nat → Option State
  | 0, _, _ => none
  | fuel + 1, s, k =>
    if k = 0 then some s
    else if (s.lword k).flag &&& freelockFlag = 0 then frlockLoop fuel s (s.link k)
    else
      match v_rmlock s k with
      | none => none
      | some s' => frlockLoop fuel s' (s.link k)

def v_frlock (s : State) (tid : Nat) : Option State :=
  match frlockLoop (s.size + 1) s (s.tblk tid).next with
  | none => none
  | some s => some (setTblk s tid { s.tblk tid with waitors := [] })

def v_freelw (s : State) (sid : Sid) (page : Page) : Option State :=
  match v_findlw s sid page with
  | none => none
  | some lw => if lw ≠ 0 then v_rmlock s lw else some s

/-- The fields of a lockword of a page in extension memory. -/
def extmemCell (c : Cell) (sid : Sid) (page : Page) : Cell :=
  { (c.withFlagSid 0 sid).withPageTid page 0 with word4 := 0, word5 := 0, word6 := 0, word7 := 0 }

/-- A free lockword of tid 0 made one for the page. -/
def newExtmem (s : State) (k : Nat) (sid : Sid) (page : Page) : State :=
  let s := pushHash (pushTid (setFreelock s (s.next k)) 0 k) (lockHash sid page) k
  setCell s k (extmemCell (s.lword k) sid page)

/-- `v_insertlw`, with the index it returns. -/
def v_insertlw (s : State) (sid : Sid) (page : Page) : Option (State × Nat) :=
  match v_findlw s sid page with
  | none => none
  | some k =>
    if k ≠ 0 then some (s, k)
    else
      match needLock s with
      | none => some (s, 0)
      | some s =>
        some (newExtmem s s.freelock sid page, s.freelock)

/-- `BASESID`. -/
def baseSid (sid : Sid) : Nat := sid.toNat % 2 ^ 20

/-- The inner loop of `v_deletelws`. -/
def deleteLoop (sid : Sid) : Nat → State → Nat → Option State
  | 0, _, _ => none
  | fuel + 1, s, n =>
    if n = 0 then some s
    else if baseSid (s.lword n).sid ≠ baseSid sid then deleteLoop sid fuel s (s.next n)
    else
      match v_rmlock s n with
      | none => none
      | some s' => deleteLoop sid fuel s' (s.next n)

/-- The hash chains of `v_deletelws` from chain `128 - n` on. -/
def deleteChains (sid : Sid) : Nat → State → Option State
  | 0, s => some s
  | n + 1, s =>
    match deleteLoop sid (s.size + 1) s (s.lockhash (128 - (n + 1))) with
    | none => none
    | some s => deleteChains sid n s

def v_deletelws (s : State) (sid : Sid) : Option State := deleteChains sid 128 s

def isFrag (s : State) (bsid phash : Word) (p : Nat) : Bool :=
  (s.lword p).fragSid = bsid ∧ (s.lword p).fragPno = phash

/-- A free entry made a `movedfrag` of the inode. -/
def newFrag (s : State) (k ip : Nat) (bsid phash : Word) : State :=
  let s := setCell s k ⟨s.next k, s.movedfrag ip, bsid, phash, 0, 0, 0, 0⟩
  let s := setFreelock s (s.next k)
  setMovedfrag (setFraghtab (setNext s k (s.fraghtab (fragHash bsid phash))) k
    (fragHash bsid phash)) k ip

/-- `v_insertfrag`, with the structure it returns. -/
def v_insertfrag (e : Env) (s : State) (bsid pagex : Word) : Option (State × Nat) :=
  let phash := pagex &&& 0xfffffffc
  let hash := fragHash bsid phash
  match find s.next (isFrag s bsid phash) (s.size + 1) (s.fraghtab hash) with
  | none => none
  | some p =>
    if p ≠ 0 then some (s, p)
    else
      match needLock s with
      | none => some (s, 0)
      | some s =>
        some (newFrag s s.freelock (e.inodeOf bsid) bsid phash, s.freelock)

def unlinkFrag (s : State) (hash p : Nat) (prev : Option Nat) : State :=
  match prev with
  | none => setFraghtab s (s.next p) hash
  | some q1 => setNext s q1 (s.next p)

/-- A `movedfrag` off its hash chain, on the free list, and off its inode. -/
def freeFrag (s : State) (ip hash q : Nat) (q1 : Option Nat) : State :=
  setMovedfrag (pushFree (unlinkFrag s hash q q1) q) (s.link q) ip

/-- The loop of `v_freefrags`. -/
def freefragsLoop (ip : Nat) (bsid : Word) : Nat → State → Nat → Option State
  | 0, _, _ => none
  | fuel + 1, s, q =>
    if q = 0 then some s
    else
      let hash := fragHash bsid (s.lword q).fragPno
      match before s.next q (s.size + 1) none (s.fraghtab hash) with
      | none => none
      | some q1 => freefragsLoop ip bsid fuel (freeFrag s ip hash q q1) (s.link q)

def v_freefrags (e : Env) (s : State) (ip : Nat) : Option State :=
  freefragsLoop ip (e.seg ip) (s.size + 1) s (s.movedfrag ip)

/-- The `tblk` of a thread back on the free list. -/
def putTblk (s : State) (th : Nat) : State :=
  let tid := s.fstid th
  { s with
    tblk := Function.update s.tblk tid { s.tblk tid with logage := 0, next := s.freetid }
    freetid := tid
    fstid := Function.update s.fstid th 0
    freewait := [] }

/-- No transaction has a log age. -/
def idle (s : State) : Bool := (List.range' 1 s.maxtid).all (fun k => (s.tblk k).logage = 0)

/-- `v_frtblk` at the end of the transaction of a thread, less the log sync
value. -/
def v_frtblk (s : State) (th : Nat) : State :=
  let s := putTblk s th
  if s.syncwait ≠ 0 ∧ idle s then { s with syncwait := 0, tblkwait := [] } else s

end Aix413.Lockword.Anchor
