import Aix413.Lvm.Cache

namespace Aix413.Lvm.Mwc

/-- Physical volumes of the group, by `pvnum`. -/
abbrev Pv := Fin 32

/-- A request is named by its number in the order of arrival. -/
abbrev Lb := Nat

/-- What the cache sees of a mirrored write. `refCnt` is kept in `av_forw`. -/
structure Lbuf extends Buf where
  reqInCach : Bool := false
  refCnt : Nat := 0

/-- The logical partitions of the group; a partition holds whole track groups. -/
structure Layout where
  partshift : Nat
  trk_le : trkShift + bppgShift ≤ partshift
  /-- The physical volumes of the copies of a partition, with holes. -/
  copies : Nat → BitVec 32 → List (Option Pv)
  /-- Entries of `pvols` that are in use. -/
  pvols : Pv → Bool

/-- The record as it is on its way to a disk, or on it. -/
abbrev Record := Ptr → CaMwcDp

/-- Where the process is that cleans up the cache; the lock of the volume group
lets in one. -/
inductive Cleaner where
  | out
  /-- Sleeping until the cache is its own. -/
  | waiting
  /-- Awakened with the cache reserved. -/
  | reserved
  /-- Sleeping until its cache write is done. -/
  | writing
  | written
deriving DecidableEq

/-- The cache writes on their way to the physical volumes. -/
structure Volumes where
  inflt : Bool
  vgact : Bool
  infltCnt : Nat
  caPvWrt : Pv → Bool
  missing : Pv → Bool
  /-- Cache writes with the disk driver. -/
  flight : Pv → Option Record
  /-- Failed cache writes that wait for the status areas to be updated. -/
  onWheel : Pv → Bool
  disk : Pv → Record
  cleaner : Cleaner

/-- The mirrored writes and where they are. -/
structure Requests where
  buf : Lb → Lbuf
  next : Lb
  pendingQ : List Lb
  caHld : List Lb
  /-- Requests on the pv_wait structures of each physical volume. -/
  caPv : Pv → List Lb
  /-- Requests handed to scheduling and not terminated. -/
  admitted : List Lb
  /-- The entry under which a request is counted, and the put it saw. -/
  under : Lb → Ptr × Nat
  done : List Lb

structure State extends Volumes, Requests where
  ca : Cache
  full : Bool
  forcedOff : Bool
  /-- Free pv_wait structures. -/
  freepvw : Nat
  pvwblked : Nat
  puts : Nat

variable (v : Layout)

namespace State

variable (s : State)

def minor (lb : Lb) : Nat := (s.buf lb).bDev

def ltg (lb : Lb) : BitVec 32 := blk2trk (s.buf lb).bBlkno

/-- The copies that a write of `lb` may touch. -/
def copies (lb : Lb) : List (Option Pv) :=
  v.copies (s.minor lb) (blk2part v.partshift (s.buf lb).bBlkno)

def entry (lb : Lb) : Ptr := s.ca.fnd (s.minor lb) (s.ltg lb)

def setBuf (lb : Lb) (b : Lbuf) : State := { s with buf := Function.update s.buf lb b }

/-- `hd_quelb` on the cache hold queue. -/
def hold (lb : Lb) : State := { s with caHld := s.caHld ++ [lb] }

/-- The request has failed and goes back to its originator. -/
def terminate (lb : Lb) : State :=
  let b := s.buf lb
  { s.setBuf lb { b with error := true, bError := 5, bResid := b.bBcount } with
    done := s.done ++ [lb] }

/-- The request is counted in entry `e`. -/
def count (lb : Lb) (e : Ptr) : State :=
  { s.setBuf lb { s.buf lb with reqInCach := true } with
    under := Function.update s.under lb (e, (s.ca.part1 e).put) }

def serve (lb : Lb) : State := { s with admitted := s.admitted ++ [lb] }

end State

/-! ## Waiting for cache writes -/

inductive Queued where
  | success
  | lbhold
  | failure
deriving DecidableEq

/-- Take back the last request on the queue of each volume. -/
def unwind : List Pv → State → State
  | [], s => s
  | p :: rest, s =>
    unwind rest { s with
      caPv := Function.update s.caPv p (s.caPv p).dropLast
      freepvw := s.freepvw + 1 }

/-- The loop of `hd_ca_pvque`. `apvol` has the volumes done, the last one first. -/
def pvqueLoop (lb : Lb) : List (Option Pv) → List Pv → State → Queued × List Pv × State
  | [], apvol, s => (if apvol = [] then .failure else .success, apvol, s)
  | none :: rest, apvol, s => pvqueLoop lb rest apvol s
  | some p :: rest, apvol, s =>
    if s.missing p then pvqueLoop lb rest apvol s
    else if s.freepvw = 0 then
      (.lbhold, apvol, unwind apvol { s with pvwblked := s.pvwblked + 1 })
    else
      pvqueLoop lb rest (p :: apvol) ({ s with
        freepvw := s.freepvw - 1
        caPv := Function.update s.caPv p (s.caPv p ++ [lb]) }.setBuf lb
          { s.buf lb with refCnt := (s.buf lb).refCnt + 1 })

def pvque (lb : Lb) (s : State) : Queued × State :=
  let (rc, apvol, s) :=
    pvqueLoop lb (s.copies v lb) [] (s.setBuf lb { s.buf lb with refCnt := 0 })
  match rc with
  | .success => (.success, { s with caPvWrt := fun p => s.caPvWrt p || decide (p ∈ apvol) })
  | rc => (rc, s)

/-! ## The operations -/

/-- `none` stands for a failed assertion. -/
def ckcach (lb : Lb) (s : State) : Option State :=
  let e := s.entry lb
  if e ≠ 0 then
    if s.ca.state e ≠ .cachg then
      let s := { s with ca := (s.ca.setIocnt e (s.ca.iocnt e + 1)).useHead e }
      some ((s.count lb e).serve lb)
    else if s.inflt then some (s.hold lb)
    else
      match pvque v lb s with
      | (.success, s) =>
        let s := { s with ca := (s.ca.setIocnt e (s.ca.iocnt e + 1)).useHead e, vgact := true }
        some (s.count lb e)
      | (.lbhold, s) => some (s.hold lb)
      | (.failure, s) => some (s.terminate lb)
  else if s.inflt then some (s.hold lb)
  else
    s.ca.new.bind fun (found, ca) =>
      match found with
      | none => some ({ s with ca := ca, full := true }.hold lb)
      | some e =>
        match pvque v lb { s with ca := ca, full := false } with
        | (.success, s) =>
          let p := ⟨s.ltg lb, s.minor lb, s.puts + 1⟩
          let s := { s with ca := s.ca.fill e p, puts := s.puts + 1, vgact := true }
          some (s.count lb e)
        | (.lbhold, s) => some ({ s with ca := s.ca.clear e }.hold lb)
        | (.failure, s) => some ({ s with ca := s.ca.clear e }.terminate lb)

/-- Start the cache writes, for this volume group. -/
def caWrt (s : State) : State :=
  if s.vgact then
    { s with
      vgact := false
      inflt := true
      infltCnt := s.infltCnt + (Finset.univ.filter fun p => s.caPvWrt p = true).card
      flight := fun p => if s.caPvWrt p then some s.ca.part1 else s.flight p
      caPvWrt := fun _ => false }
  else s

/-- The hold queue goes to the pending queue, or back if the group is closing. -/
def mvhld (s : State) : State :=
  if s.forcedOff then
    { s.caHld.foldl State.terminate s with caHld := [] }
  else { s with pendingQ := s.pendingQ ++ s.caHld, caHld := [] }

/-- A counted request has finished; `none` if it has no entry. -/
def caTerm (lb : Lb) (s : State) : Option State :=
  let e := s.entry lb
  if e = 0 then none
  else
    let s := { s with ca := s.ca.setIocnt e (s.ca.iocnt e - 1) }
    let s := s.setBuf lb { s.buf lb with reqInCach := false }
    if s.ca.iocnt e = 0 ∧ s.inflt = false ∧ s.full ∧ s.caHld ≠ [] then some (mvhld s)
    else some s

/-- One round of the loop of `hd_ca_sked`. -/
def skedOne (lb : Lb) (s : State) : Option State :=
  let b := s.buf lb
  let s := { s.setBuf lb { b with refCnt := b.refCnt - 1 } with freepvw := s.freepvw + 1 }
  if b.refCnt - 1 = 0 then
    if s.forcedOff then (caTerm lb s).map fun s => s.terminate lb
    else some (s.serve lb)
  else some s

def skedLoop : List Lb → State → Option State
  | [], s => some s
  | lb :: rest, s => (skedOne lb s).bind (skedLoop rest)

def sked (p : Pv) (s : State) : Option State :=
  skedLoop (s.caPv p) { s with caPv := Function.update s.caPv p [] }

/-- The end of a cache write once the volume is up to date or known as missing. -/
def wendDone (p : Pv) (s : State) : Option State :=
  (sked p s).map fun s =>
    let s := { s with infltCnt := s.infltCnt - 1 }
    if s.infltCnt = 0 then
      let s := { s with inflt := false, ca := s.ca.settle s.ca.size s.ca.lst }
      -- a process that waits takes over the cache
      match s.cleaner with
      | .waiting => { s with inflt := true, cleaner := .reserved }
      | .writing => { s with inflt := true, cleaner := .written }
      | _ => mvhld s
    else s

/-- The part of `hd_ca_clnup` between the two sleeps. -/
def clnupBody (s : State) : Option State :=
  (s.ca.cleanQueues hashQueues false).map fun (chg, ca) =>
    let s := { s with ca := ca }
    let s := if chg then
      { s with caPvWrt := fun p => s.caPvWrt p || (v.pvols p && !s.missing p) } else s
    if ∃ p, s.caPvWrt p = true then { caWrt { s with vgact := true } with cleaner := .writing }
    else mvhld { s with inflt := false, cleaner := .out }

/-- What can happen to the cache of a volume group. -/
inductive Step (s : State) : State → Prop
  /-- A mirrored write arrives at the scheduler. -/
  | arrive (b : Buf) :
      Step s { s with
        buf := Function.update s.buf s.next { b with }
        next := s.next + 1
        pendingQ := s.pendingQ ++ [s.next] }
  /-- The pending queue is worked off. Requests in service have no page in
  common: the strategy layer serializes them. -/
  | check {s' : State} (lb : Lb) : lb ∈ s.pendingQ → (s.buf lb).Aligned →
      (∀ i, (s.buf i).reqInCach = true → s.minor i = s.minor lb → s.ltg i = s.ltg lb →
        ∀ k, ¬((s.buf i).Touches k ∧ (s.buf lb).Touches k)) →
      ckcach v lb { s with pendingQ := s.pendingQ.erase lb } = some s' → Step s s'
  | write : Step s (caWrt s)
  | written {s' : State} (p : Pv) (r : Record) : s.flight p = some r →
      wendDone p { s with
        flight := Function.update s.flight p none
        disk := Function.update s.disk p r } = some s' → Step s s'
  /-- The write fails and the volume is declared missing; the request waits for
  the status areas. -/
  | failed (p : Pv) : s.flight p ≠ none →
      Step s { s with
        flight := Function.update s.flight p none
        missing := Function.update s.missing p true
        onWheel := Function.update s.onWheel p true }
  /-- The same when the volume group is closing. -/
  | failedClosing {s' : State} (p : Pv) : s.flight p ≠ none →
      wendDone p { s with
        flight := Function.update s.flight p none
        missing := Function.update s.missing p true } = some s' → Step s s'
  | wheelDone {s' : State} (p : Pv) : s.onWheel p = true →
      wendDone p { s with onWheel := Function.update s.onWheel p false } = some s' → Step s s'
  | terminate {s' : State} (lb : Lb) : lb ∈ s.admitted →
      caTerm lb { s with admitted := s.admitted.erase lb, done := s.done ++ [lb] } = some s' →
      Step s s'
  /-- Another request finds a volume missing. -/
  | lose (p : Pv) : Step s { s with missing := Function.update s.missing p true }
  | forceOff : Step s { s with forcedOff := true }
  | cleanWait : s.cleaner = .out → s.forcedOff = false → s.inflt = true →
      Step s { s with cleaner := .waiting }
  | clean {s' : State} : s.cleaner = .out → s.forcedOff = false → s.inflt = false →
      clnupBody v { s with inflt := true } = some s' → Step s s'
  | cleanReserved {s' : State} : s.cleaner = .reserved → clnupBody v s = some s' → Step s s'
  | cleanEnd : s.cleaner = .written → Step s (mvhld { s with inflt := false, cleaner := .out })

/-- The ring as it is set up, with the first cell as the anchor. The record and
the disks have what an earlier varyon left of track groups. -/
def start (size : Nat) (left : Ptr → BitVec 32 × Nat) (disk : Pv → Ptr → BitVec 32 × Nat)
    (missing : Pv → Bool) : State where
  inflt := false
  vgact := false
  infltCnt := 0
  caPvWrt := fun _ => false
  missing := missing
  flight := fun _ => none
  onWheel := fun _ => false
  disk := fun p e => ⟨(disk p e).1, (disk p e).2, 0⟩
  cleaner := .out
  buf := fun _ => { bDev := 0, bBlkno := 0, bBcount := 0, read := false }
  next := 0
  pendingQ := []
  caHld := []
  caPv := fun _ => []
  admitted := []
  under := fun _ => (0, 0)
  done := []
  ca :=
    { size := size
      lst := 1
      next := fun e => if e = size then 1 else e + 1
      prev := fun e => if e = 1 then size else e - 1
      hash := fun _ => 0
      hqNext := fun _ => 0
      state := fun _ => .caclean
      iocnt := fun _ => 0
      part1 := fun e => ⟨(left e).1, (left e).2, 0⟩ }
  full := false
  forcedOff := false
  freepvw := 3 * 4 * size
  pvwblked := 0
  puts := 0

end Aix413.Lvm.Mwc
