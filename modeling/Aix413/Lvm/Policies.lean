import Aix413.Lvm.Partition

namespace Aix413.Lvm.Sched

/-! ## Physical requests -/

/-- The routine `pb_sched` points to. -/
inductive Routine where
  | finished
  | seqwrite
  | parwrite
  | resyncpp
  | staleppe
deriving DecidableEq

structure Pbuf where
  lbuf : Lbuf
  sched : Routine
  /-- The `B_READ` and `B_ERROR` flags. -/
  read : Bool
  error : Bool := false
  mirror : Mirror := .prim
  /-- The copy whose device and blocks `b_dev`, `pb_start` and `pb_pvol` name. -/
  target : Mirror := .prim
  miravoid : Mask
  mirbad : Mask := 0
  mirdone : Mask := 0
deriving DecidableEq

namespace Pbuf

variable (pb : Pbuf)

def markBad (m : Mirror) : Pbuf := { pb with mirbad := pb.mirbad ||| mirrorMask m }

def markDone (m : Mirror) : Pbuf := { pb with mirdone := pb.mirdone ||| mirrorMask m }

def inherit (bad : Mask) : Pbuf := { pb with mirbad := pb.mirbad ||| bad }

end Pbuf

def hdXlate (pb : Pbuf) (m : Mirror) : Pbuf := { pb with mirror := m, target := m }

/-- What the scheduler has made of a request. -/
inductive After where
  /-- `hd_begin` has been called. -/
  | begin (pb : Pbuf)
  /-- The writes of `hd_parallel` that are under way, in the order of their ring. -/
  | ring (pbs : List Pbuf)
  /-- Put on the wheel that updates the status areas. -/
  | wheel (pb : Pbuf)
  | finished (error : Bool)
  /-- `FAILURE`: no physical buf is left, and the pending queue hangs. -/
  | blocked
  /-- `hd_xlate` was handed `MAXNUMPARTS`. -/
  | wild
deriving DecidableEq

/-! ## Stale and fresh copies -/

/-- The copy `hd_stalepp` leaves active when all are stale, bad or avoided. -/
def actmir (miravoid stlmirs mpvmirs : Mask) : Option Mirror :=
  if miravoid ||| stlmirs ||| mpvmirs = allMirrors then firstMirror (miravoid ||| stlmirs)
  else firstMirror (miravoid ||| stlmirs ||| mpvmirs)

/-- The mask of one mirror, or of bit 3. -/
def actMask : Option Mirror → Mask
  | some m => mirrorMask m
  | none => 0

namespace Lp

variable (lv : Lvol) (lp : Lp)

def nomirs : Mask := maskOf fun m => m ∈ mirrorExist lv.nparts || (lp.pvol m).isNone

def stlmirs : Mask := maskOf fun m => lp.Copy lv m && (lp.ppstate m).stale

def mpvmirs : Mask := maskOf fun m => lp.Copy lv m && lp.missing m

/-- The copies `hd_stalepp` is to mark. -/
def marked (pb : Pbuf) : Mask :=
  let bad := pb.mirbad &&& ~~~lp.nomirs lv
  if lp.stlmirs lv ||| bad ||| pb.miravoid = allMirrors then
    let act := actMask (actmir pb.miravoid (lp.stlmirs lv) (lp.mpvmirs lv))
    if lp.syncTrk.isSome then ~~~pb.miravoid &&& ~~~act &&& allMirrors else bad &&& ~~~act
  else bad

/-- Whether the request goes back with an error for what its writes did. -/
def failing (pb : Pbuf) : Bool :=
  (lp.stlmirs lv ||| (pb.mirbad &&& ~~~lp.nomirs lv) ||| pb.miravoid = allMirrors) &&
    (pb.error || pb.lbuf.op ≠ .recover)

def mark (bad : Mask) : Lp :=
  { lp with ppstate := fun m =>
      if m ∈ bad then
        { lp.ppstate m with
          stale := true
          chging := (lp.ppstate m).chging || !(lp.ppstate m).stale
          syncerr := (lp.ppstate m).syncerr || lp.syncTrk.isSome }
      else lp.ppstate m }

end Lp

/-- `sa` is whether `hd_sa_strt` succeeds. -/
def hdStalepp (lv : Lvol) (lp : Lp) (pb : Pbuf) (sa : Bool) : Lp × After :=
  let bad := lp.marked lv pb
  let error := lp.failing lv pb
  -- what was stale and recorded in the status areas needs nothing more
  let hung := maskOf fun m => m ∈ bad && !((lp.ppstate m).stale && !(lp.ppstate m).chging)
  (lp.mark bad,
    if hung = 0 then .finished error
    else if sa then
      .wheel { pb with sched := .staleppe, error := error, mirbad := hung }
    else .finished true)

def hdStaleppe (lp : Lp) (pb : Pbuf) : Lp :=
  { lp with ppstate := fun m =>
      if m ∈ pb.mirbad then { lp.ppstate m with chging := false } else lp.ppstate m }

def hdFreshpp (lp : Lp) (pb : Pbuf) (sa : Bool) : Lp × After :=
  let done := maskOf fun m => m ∈ pb.mirdone && !(lp.ppstate m).syncerr
  let lp' : Lp := { lp with
    ppstate := fun m => if m ∈ done then { lp.ppstate m with stale := false } else lp.ppstate m
    syncTrk := none
    rip := false }
  (lp', if sa then .wheel { pb with sched := .finished, error := false, mirdone := done }
    else .finished true)

/-! ## Selecting mirrors -/

/-- A copy that can no longer be written consistently. -/
def broken (lp : Lp) (m : Mirror) : Bool :=
  ((lp.ppstate m).stale && lp.syncTrk.isNone) || lp.missing m

/-- The loop of `hd_seqnext` over the mirrors that are left to a write. -/
def nextWrite (lp : Lp) : List Mirror → Pbuf → Bool × Pbuf
  | [], pb => (false, pb)
  | m :: ms, pb =>
    let pb := hdXlate (pb.markDone m) m
    if broken lp m then nextWrite lp ms (pb.markBad m) else (true, pb)

def hdSeqnext (lp : Lp) (pb : Pbuf) : Bool × Pbuf :=
  if pb.lbuf.read then
    match firstMirror (pb.mirdone ||| pb.miravoid) with
    | some m => (true, hdXlate (pb.markDone m) m)
    | none => (false, pb)
  else nextWrite lp (mirrors (~~~(pb.mirdone ||| pb.miravoid))) pb

/-- The loop of `hd_nearby`: the mirror selected and the one looked at last. -/
def nearest (lp : Lp) (sel last : Mirror) (min : Nat) : List Mirror → Mirror × Mirror
  | [] => (sel, last)
  | m :: ms =>
    if lp.xfcnt last = 0 then (sel, last)
    else if lp.xfcnt m < min then nearest lp m m (lp.xfcnt m) ms
    else nearest lp sel m min ms

/-- The device and blocks are those of the mirror looked at last. -/
def hdNearby (lp : Lp) (lb : Lbuf) (mask : Mask) : Option Pbuf :=
  match mirrors (~~~mask) with
  | [] => none
  | m :: ms =>
    let (sel, last) := nearest lp m m (lp.xfcnt m) ms
    some { lbuf := lb, sched := .resyncpp, read := true, mirror := sel, target := last,
           miravoid := mask, mirdone := mirrorMask sel }

/-! ## Physical operations end -/

def hdSeqwrite (lv : Lvol) (lp : Lp) (pb : Pbuf) (sa : Bool) : Lp × After :=
  let pb := if pb.error then pb.markBad pb.mirror else pb
  match hdSeqnext lp pb with
  | (true, pb) => (lp, .begin { pb with error := false })
  | (false, pb) =>
    if pb.mirbad = 0 ∨ mirrorCount pb.miravoid = 1 then (lp, .finished pb.error)
    else hdStalepp lv lp pb sa

/-- The last write of a ring. -/
def parLast (lv : Lvol) (lp : Lp) (pb : Pbuf) (sa : Bool) : Lp × After :=
  if pb.mirbad = 0 ∨ mirrorCount pb.miravoid = 1 then (lp, .finished pb.error)
  else hdStalepp lv lp pb sa

/-- `ring` is the rest of the ring, from `b_forw` on. -/
def hdParwrite (lv : Lvol) (lp : Lp) (pb : Pbuf) (ring : List Pbuf) (sa : Bool) : Lp × After :=
  let pb := if pb.error then pb.markBad pb.mirror else pb
  match ring with
  | q :: qs => (lp, .ring (q.inherit pb.mirbad :: qs))
  | [] => parLast lv lp pb sa

def hdResyncpp (lv : Lvol) (lp : Lp) (pb : Pbuf) (sa : Bool) : Lp × After :=
  if pb.read then
    if pb.error then
      let pb := pb.markBad pb.mirror
      match hdSeqnext lp pb with
      | (true, pb) => (lp, .begin { pb with error := false })
      | (false, pb) =>
        if pb.lbuf.op = .recover then
          hdStalepp lv lp { pb with error := false, mirbad := pb.mirbad ||| pb.miravoid } sa
        else ({ cancelResync lp with syncMsk := 0 }, .finished true)
    else if pb.lbuf.op = .recover then
      let lp := { lp with syncMsk := lp.syncMsk ^^^ mirrorMask pb.mirror }
      match firstMask lp.syncMsk with
      -- only one copy is active
      | none => hdStalepp lv lp { pb with read := true, mirbad := pb.miravoid } sa
      | some m =>
        ({ lp with syncMsk := lp.syncMsk &&& ~~~mirrorMask m },
          .begin (hdXlate { pb with
            read := false, mirbad := pb.miravoid, mirdone := mirrorMask m ||| pb.miravoid } m))
    else
      match firstMask lp.syncMsk with
      | none => (lp, .wild)
      | some m =>
        ({ lp with syncMsk := lp.syncMsk &&& ~~~mirrorMask m },
          .begin (hdXlate { pb with read := false, mirbad := 0, mirdone := mirrorMask m } m))
  else
    let lp := if pb.error ∧ pb.lbuf.op = .resync then
      lp.setPpstate pb.mirror { lp.ppstate pb.mirror with syncerr := true } else lp
    let pb := { if pb.error then pb.markBad pb.mirror else pb with error := false }
    match firstMask lp.syncMsk with
    | some m =>
      ({ lp with syncMsk := lp.syncMsk &&& ~~~mirrorMask m }, .begin (hdXlate (pb.markDone m) m))
    | none =>
      let pb := { pb with read := true }
      if pb.mirbad = pb.mirdone then
        if pb.lbuf.op = .recover then hdStalepp lv lp pb sa
        else (cancelResync lp, .finished true)
      else if pb.lbuf.op = .recover then
        if pb.mirbad ≠ 0 then hdStalepp lv lp pb sa else (lp, .finished false)
      else if lp.syncTrk = some (lv.trkppart - 1) then hdFreshpp lp pb sa
      else ({ lp with rip := false, syncTrk := lp.syncTrk.map (· + 1) }, .finished false)

/-- `HD_SCHED` of a request that no ring links to others. -/
def hdSched (lv : Lvol) (lp : Lp) (pb : Pbuf) (sa : Bool) : Lp × After :=
  match pb.sched with
  | .finished => (lp, .finished pb.error)
  | .seqwrite => hdSeqwrite lv lp pb sa
  | .parwrite => hdParwrite lv lp pb [] sa
  | .resyncpp => hdResyncpp lv lp pb sa
  | .staleppe => (hdStaleppe lp pb, .finished pb.error)

/-! ## The policies -/

/-- The first mirror in order. -/
def firstTry (lp : Lp) (lb : Lbuf) (mask : Mask) : After :=
  match hdSeqnext lp { lbuf := lb, sched := if lb.read then .resyncpp else .seqwrite,
                       read := lb.read, miravoid := mask } with
  | (true, pb) => .begin pb
  | (false, _) => .finished true

def nearTry (lp : Lp) (lb : Lbuf) (mask : Mask) : After :=
  (hdNearby lp lb mask).elim .wild .begin

/-- `free` counts the pbufs on `hd_freebuf`. -/
def hdSequential (lv : Lvol) (lp : Lp) (lb : Lbuf) (free : Nat) : Lp × After :=
  if free = 0 then (lp, .blocked)
  else
    let (lp, mask) := hdAvoid lv lp lb
    if mask = allMirrors then (lp, .finished true)
    else if lb.read ∧ lv.iSched = .seqwrtparrd then (lp, nearTry lp lb mask)
    else (lp, firstTry lp lb mask)

/-- The loop of `hd_parallel` that starts the writes: those to come, the broken
mirrors the next one takes over, those under way, and how many were started. `bad`
tells for which mirrors `hd_begin` meets a bad block and completes the write at
once. -/
def issue (lv : Lvol) (lp : Lp) (bad : Mirror → Bool) (sa : Bool) :
    List Pbuf → Mask → List Pbuf → Nat → Lp × After
  | [], _, [], _ => (lp, .ring [])
  | [], inh, q :: out, _ => (lp, .ring (q.inherit inh :: out))
  | pb :: todo, inh, out, iss =>
    let pb := pb.inherit inh
    if broken lp pb.mirror then
      if todo = [] ∧ iss = 0 then (lp, .finished true)
      else issue lv lp bad sa todo (mirrorMask pb.mirror ||| pb.mirbad) out iss
    else if bad pb.mirror then
      let pb := { pb.markBad pb.mirror with error := true }
      if todo = [] ∧ out = [] then parLast lv lp pb sa
      else issue lv lp bad sa todo pb.mirbad out (iss + 1)
    else issue lv lp bad sa todo 0 (out ++ [pb]) (iss + 1)

def parwrites (lb : Lbuf) (mask : Mask) : List Pbuf :=
  (mirrors (~~~mask)).map fun m =>
    hdXlate { lbuf := lb, sched := .parwrite, read := false, miravoid := mask } m

def hdParallel (lv : Lvol) (lp : Lp) (lb : Lbuf) (free : Nat) (bad : Mirror → Bool)
    (sa : Bool) : Lp × After :=
  let (lp, mask) := hdAvoid lv lp lb
  if mask = allMirrors then (lp, .finished true)
  else if lb.read then
    if free = 0 then (lp, .blocked)
    else if lv.iSched = .parwrtseqrd then (lp, firstTry lp lb mask)
    else (lp, nearTry lp lb mask)
  else if free < mirrorCount mask then (lp, .blocked)
  else issue lv lp bad sa (parwrites lb mask) 0 [] 0

def hdSchedule (lv : Lvol) (lp : Lp) (lb : Lbuf) (free : Nat) (bad : Mirror → Bool)
    (sa : Bool) : Lp × After :=
  match lv.iSched with
  | .sequential | .seqwrtparrd => hdSequential lv lp lb free
  | .parallel | .parwrtseqrd => hdParallel lv lp lb free bad sa

end Aix413.Lvm.Sched
