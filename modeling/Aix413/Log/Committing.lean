import Aix413.Log.Writer

namespace Aix413.Log.Committing

open Format Writer

/-- A transaction block that can be on the commit queue: a transaction's, or
one of the two end-of-page markers of the log, whose `tid` is negative. -/
inductive Blk
  | tran (tid : Nat)
  | eopm (k : Bool)
  deriving DecidableEq

/-- `tid > 0` -/
def Blk.isTran : Blk → Bool
  | tran _ => true
  | eopm _ => false

/-- The fields of `struct tblock` for group commit, each bit of `flag` by
itself. -/
structure Tblock where
  queue : Bool
  ready : Bool
  commit : Bool
  committed : Bool
  wait : Bool
  leader : Bool
  error : Bool
  cpn : Nat
  ceor : Nat
  cxor : Word
  csn : Nat

/-- `flag = GC_QUEUE` -/
def Tblock.queued (t : Tblock) : Tblock :=
  { t with
    queue := true, ready := false, commit := false, committed := false, wait := false
    leader := false, error := false }

/-- `flag = 0` -/
def Tblock.freed (t : Tblock) : Tblock := { t.queued with queue := false }

/-- The fields of `struct comdata` that the log writer looks at; `ifsync` is
`IFSYNC` of the first inode. -/
structure Comdata where
  tid : Nat
  number : Nat
  ifsync : Bool

/-- A call of `movedata` that is not yet done: its type, the words still to
move, and the transaction to enqueue at the end. -/
structure Piece where
  desc : Bool
  ws : List Word
  force : Option Nat

/-- Where the holder of the log lock is. A log writer sleeps on the event of
the marker `x`, after it enqueued its own one or not (`own`). -/
inductive WriterPc
  | ready
  | enqueue (tid : Nat)
  | full
  | asleep (own x : Bool)
  | woken (own : Bool)
  | make (lpage : Word)

/-- A page as `logwrite` hands it over, and where to. -/
structure LogWrite where
  pno : Nat
  eor : Nat
  xor : Word
  dest : Nat
  image : LogPage

/-- Where a transaction is. The leader of a group commit waits for the page
`w` to be written, and has to go on until `glcpn` is. -/
inductive TranPc
  | idle
  | logged
  | asleep
  | woken
  | waiting (glcpn : Nat) (w : LogWrite)

/-- What happened. A COMMIT record was enqueued, a page was handed over, its
leader's `vms_iowait` returned, `groupcommit` returned for a block that was
committed or not. -/
inductive Event
  | logged (tid cpn ceor : Nat)
  | write (w : LogWrite)
  | iowait (w : LogWrite) (rc : Nat)
  | returned (tid rc : Nat) (committed : Bool)

/-- The log inode with its extension, the transaction blocks, and where
everybody is. For the record: what happened, the latest first. -/
structure State where
  ip : LogInode
  tblk : Blk → Tblock
  cq : List Blk
  csn : Nat
  gcpageout : Bool
  lcrt : Nat
  crtc : Int
  eopm : Bool
  todo : List Piece
  writer : WriterPc
  cd : Comdata
  pc : Nat → TranPc
  trace : List Event

namespace State

variable (s : State)

def setTblk (b : Blk) (t : Tblock) : State := { s with tblk := Function.update s.tblk b t }

def setPc (t : Nat) (c : TranPc) : State := { s with pc := Function.update s.pc t c }

def setWriter (c : WriterPc) : State := { s with writer := c }

def note (e : Event) : State := { s with trace := e :: s.trace }

/-! ## logwrite -/

/-- The ping-pong page after this one. -/
def nextPpong (ip : LogInode) : Nat :=
  let ppongpno := if ip.logptr > ip.logppong then ip.logppong + (ip.logsize - 2) else ip.logppong
  let ppongpno := if ppongpno - ip.logptr > 1 then ppongpno - 1 else ppongpno + 1
  if ppongpno > ip.logsize - 1 then ppongpno - (ip.logsize - 2) else ppongpno

/-- The page that `logwrite` hands over. -/
def written (pno eor : Nat) (xor : Word) (ppong : Bool) : LogWrite :=
  ⟨pno, eor, xor, if ppong then s.ip.logppong else pno, stamp eor xor (s.ip.pages pno)⟩

def logwrite (pno eor : Nat) (xor : Word) (ppong : Bool) : State :=
  { s with
    ip := { s.ip with
      pages := Function.update s.ip.pages pno (stamp eor xor (s.ip.pages pno))
      logppong := if ppong then nextPpong s.ip else s.ip.logppong }
    trace := .write (s.written pno eor xor ppong) :: s.trace }

/-! ## The log writer -/

/-- The calls of `movedata` for a record: its data, and its descriptor. -/
def recordPieces (data : List Word) (desc : List Word) (force : Option Nat) : List Piece :=
  if data = [] then [⟨true, desc, force⟩] else [⟨false, data, none⟩, ⟨true, desc, force⟩]

/-- The transaction that `movedata` enqueues at the end of the record. -/
def force (ld : LogRDesc) (cd : Comdata) : Option Nat :=
  if ld.type = commit ∧ (cd.number ≠ 3 ∨ cd.ifsync) then some cd.tid else none

/-- The calls of `movedata` that `dologmvc` makes. -/
def pieces (logend : Nat) (ld : LogRDesc) (dataptr : Nat → Word) (cd : Comdata) : List Piece :=
  let rlen := recordLen ld
  let n := dumlen logend rlen
  (if n > 0 then recordPieces (wordsAt dataptr ((n - 32) / 4)) (dumDesc n).words none else []) ++
    recordPieces (wordsAt dataptr ((rlen - 32) / 4).toNat) ld.words (force ld cd)

/-- One turn of the loop of `movedata`, up to the sections under the lock of
the extension. -/
def move (p : Piece) (rest : List Piece) : State :=
  let n := min ((pagesize - 8 - s.ip.logend) / 4) p.ws.length
  let ws := p.ws.drop n
  let ip := moveChunk p.desc s.ip (p.ws.take n) ws
  let ended := p.desc ∧ ws = []
  { s with
    ip := ip
    todo := if ws = [] then rest else { p with ws := ws } :: rest
    writer :=
      match if ended then p.force else none with
      | some tid => .enqueue tid
      | none => if ip.logend < pagesize - 8 then .ready else .full }

/-- A COMMIT record is in the page: its transaction goes to the tail of the
commit queue. -/
def enqueueCommit (tid : Nat) : State :=
  let csn := if s.cq = [] then 1 else s.csn + 1
  { s with
    cq := s.cq ++ [.tran tid]
    csn := csn
    tblk := Function.update s.tblk (.tran tid)
      { (s.tblk (.tran tid)).queued with
        cpn := s.ip.logptr
        ceor := s.ip.logend
        cxor := s.ip.logxor
        csn := csn }
    pc := Function.update s.pc tid .logged
    trace := .logged tid s.ip.logptr s.ip.logend :: s.trace
    writer := if s.ip.logend < pagesize - 8 then .ready else .full }

def eopmEnqueue : State :=
  { s with
    cq := s.cq ++ [.eopm s.eopm]
    tblk := Function.update s.tblk (.eopm s.eopm)
      { (s.tblk (.eopm s.eopm)).queued with
        cpn := s.ip.logptr
        ceor := s.ip.llogeor
        cxor := s.ip.llogxor }
    eopm := !s.eopm }

/-- `e_wakeupx` for the log writer. -/
def wakeWriter (b : Blk) : WriterPc → WriterPc
  | .asleep own x => if b = .eopm x then .woken own else .asleep own x
  | c => c

/-- `eopm_dequeue`, with the marker at the head of the queue. -/
def eopmDequeue : State :=
  match s.cq with
  | [] => s
  | b :: rest =>
    { s with
      cq := rest
      tblk := Function.update s.tblk b (s.tblk b).freed
      writer := if (s.tblk b).wait then wakeWriter b s.writer else s.writer }

/-- The end of the section of `nextpage`: on to the next page. -/
def advance : State :=
  let logptr := nextPageNo s.ip.logsize s.ip.logptr
  { s with
    ip := { s.ip with
      logend := 8
      logxor := 0
      logptr := logptr
      logppong := nextPageNo s.ip.logsize logptr }
    writer := .make ((s.ip.pages s.ip.logptr).hPage + 1) }

def logwriteLast : State := s.logwrite s.ip.logptr s.ip.llogeor s.ip.llogxor false

/-- The section of `nextpage`, up to its sleep. -/
def nextpage : State :=
  match s.cq.getLast? with
  | none => s.logwriteLast.advance
  | some tail =>
    let xeopm := Blk.eopm !s.eopm
    if (s.tblk xeopm).queue then
      let s := s.setTblk xeopm { s.tblk xeopm with wait := true }
      -- a COMMIT record on the current page: the leader will see to both pages
      if tail.isTran then s.eopmEnqueue.setWriter (.asleep true !s.eopm)
      else s.setWriter (.asleep false !s.eopm)
    else s.eopmEnqueue.advance

/-- What `nextpage` does when it is awakened. -/
def nextpageWoken (own : Bool) : State :=
  if own then s.advance else s.logwriteLast.advance

/-- The end of `nextpage`, without the lock. -/
def makePage (lpage : Word) : State :=
  { s with
    ip := { s.ip with pages := Function.update s.ip.pages s.ip.logptr (makelogp lpage) }
    writer := .ready }

/-! ## groupcommit -/

/-- The blocks from the head of the queue on that are for the page, up to its
marker. -/
def scanGroup (tblk : Blk → Tblock) (gcpn : Nat) : List Blk → List Blk
  | [] => []
  | b :: rest =>
    if (tblk b).cpn = gcpn then
      if b.isTran then b :: scanGroup tblk gcpn rest else [b]
    else []

def markCommit (group : List Blk) : State :=
  { s with tblk := fun b => if b ∈ group then { s.tblk b with commit := true } else s.tblk b }

/-- From `next_page` to the page-out that the leader has to wait for. A page
whose marker alone is left is written on the way. An empty queue would be a null
pointer. -/
def nextPage (t glcpn : Nat) : Nat → State → Option State
  | 0, _ => none
  | fuel + 1, s =>
    match s.cq with
    | [] => none
    | b :: _ =>
      let gcpn := (s.tblk b).cpn
      let group := scanGroup s.tblk gcpn s.cq
      let last := group.getLast?.getD b
      let s := s.markCommit group
      if group.countP Blk.isTran = 0 then
        nextPage t glcpn fuel
          (s.logwrite (s.tblk last).cpn (s.tblk last).ceor (s.tblk last).cxor false).eopmDequeue
      else
        let w := s.written gcpn (s.tblk last).ceor (s.tblk last).cxor last.isTran
        some ((s.logwrite gcpn (s.tblk last).ceor (s.tblk last).cxor last.isTran).setPc t
          (.waiting glcpn w))

/-- A transaction becomes the leader. -/
def lead (t : Nat) : Option State :=
  let s := s.setTblk (.tran t) { s.tblk (.tran t) with leader := true }
  nextPage t (s.tblk (.tran t)).cpn (s.cq.length + 1) s

/-- `groupcommit` returns. -/
def ret (t rc : Nat) : State :=
  (s.setPc t .idle).note (.returned t rc (s.tblk (.tran t)).committed)

/-- What `groupcommit` returns for a block that is committed. -/
def committedRc (t : Nat) : Nat := if (s.tblk (.tran t)).error then (s.tblk (.tran t)).csn else 0

/-- `groupcommit`, up to its sleep or its page-out. -/
def enter (t : Nat) : Option State :=
  if (s.tblk (.tran t)).committed then some (s.ret t (s.committedRc t))
  else if s.gcpageout then
    some (({ s with
      crtc := s.crtc + 1
      lcrt := if (s.tblk (.tran t)).csn > (s.tblk (.tran s.lcrt)).csn then t else s.lcrt }.setTblk
        (.tran t) { s.tblk (.tran t) with ready := true }).setPc t .asleep)
  else lead { s with gcpageout := true, lcrt := t } t

/-- `groupcommit`, from its sleep on. -/
def awake (t : Nat) : Option State :=
  if (s.tblk (.tran t)).committed then some (s.ret t (s.committedRc t))
  else
    lead ({ s with crtc := s.crtc - 1 }.setTblk (.tran t)
      { s.tblk (.tran t) with ready := false }) t

/-- The leader takes a block of its group off the queue. -/
def commitHead (rc : Nat) (b : Blk) (rest : List Blk) : State :=
  let tb := { s.tblk b with committed := true }
  match b with
  | .tran u =>
    let tb := if rc = 0 then tb else { tb with error := true, csn := rc }
    let s := { s.setTblk b tb with cq := rest }
    if tb.ready then { s with crtc := s.crtc - 1 }.setPc u .woken else s
  | .eopm _ => (s.setTblk b tb).eopmDequeue

/-- The loop over the blocks that are marked `GC_COMMIT`. -/
def dequeueGroup (rc : Nat) : Nat → State → State
  | 0, s => s
  | fuel + 1, s =>
    match s.cq with
    | [] => s
    | b :: rest => if (s.tblk b).commit then dequeueGroup rc fuel (s.commitHead rc b rest) else s

/-- The leader is done with its own page: it gives up, or hands over. -/
def handOver (glcpn : Nat) : State :=
  match s.cq with
  | [] => { s with gcpageout := false }
  | b :: _ =>
    if s.crtc > 0 then s.setPc s.lcrt .woken
    else if !b.isTran ∧ glcpn = (s.tblk b).cpn then
      { (s.logwrite (s.tblk b).cpn (s.tblk b).ceor (s.tblk b).cxor false).eopmDequeue with
        gcpageout := false }
    else { s with gcpageout := false }

/-- The leader after its `vms_iowait` returned `rc`. -/
def iodone (t glcpn : Nat) (w : LogWrite) (rc : Nat) : Option State :=
  let s := dequeueGroup rc s.cq.length (s.note (.iowait w rc))
  if w.pno ≠ glcpn then nextPage t glcpn (s.cq.length + 1) s
  else some ((s.handOver glcpn).ret t rc)

end State

/-! ## Runs -/

/-- A step of somebody: the holder of the log lock begins a record or goes on
with it, or a transaction goes on with `groupcommit`. -/
inductive Act
  | begin (ld : LogRDesc) (dataptr : Nat → Word) (cd : Comdata)
  | go
  | enter (t : Nat)
  | awake (t : Nat)
  | iodone (t rc : Nat)

/-- Whether the transaction is still inside `logmvc`. -/
def State.inLogmvc (s : State) (t : Nat) : Bool :=
  match s.writer, s.todo with
  | .ready, [] => false
  | _, _ => s.cd.tid == t

/-- The writer's next section. -/
def State.go (s : State) : Option State :=
  match s.writer with
  | .ready =>
    match s.todo with
    | [] => none
    | p :: rest => some (s.move p rest)
  | .enqueue tid => some (s.enqueueCommit tid)
  | .full => some s.nextpage
  | .asleep _ _ => none
  | .woken own => some (s.nextpageWoken own)
  | .make lpage => some (s.makePage lpage)

def TranPc.isIdle : TranPc → Bool
  | idle => true
  | _ => false

/-- The records are as long as a page at most, and a transaction comes with a
new COMMIT record when it is done with the last one. -/
def State.begin (s : State) (ld : LogRDesc) (dataptr : Nat → Word) (cd : Comdata) : Option State :=
  match s.writer, s.todo with
  | .ready, [] =>
    if 0 ≤ ld.length.toInt ∧ ld.length.toInt ≤ pagesize ∧
        (State.force ld cd = none ∨ (s.pc cd.tid).isIdle) then
      some { s with todo := State.pieces s.ip.logend ld dataptr cd, cd := cd }
    else none
  | _, _ => none

def step (s : State) : Act → Option State
  | .begin ld dataptr cd => s.begin ld dataptr cd
  | .go => s.go
  | .enter t =>
    match s.pc t with
    | .logged => if s.inLogmvc t then none else s.enter t
    | _ => none
  | .awake t =>
    match s.pc t with
    | .woken => s.awake t
    | _ => none
  | .iodone t rc =>
    match s.pc t with
    | .waiting glcpn w => s.iodone t glcpn w rc
    | _ => none

inductive Reaches (s₀ : State) : State → Prop
  | refl : Reaches s₀ s₀
  | step {s s' : State} (h : Reaches s₀ s) (a : Act) (hs : step s a = some s') : Reaches s₀ s'

def run : State → List Act → Option State
  | s, [] => some s
  | s, a :: as => (step s a).bind (run · as)

end Aix413.Log.Committing
