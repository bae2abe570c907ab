import Aix413.Message.Queues

namespace Aix413.Message.Calls

open Ipc.Access Queues

/-- The arguments of `rmsgsnd` that its loop reads. -/
structure Snd where
  cnt : Int
  msgflg : BitVec 32
  sysspace : Bool

/-- The arguments of `rmsgrcv` that its loop reads. -/
structure Rcv where
  msgsz : Int
  msgtyp : Int32
  msgflg : BitVec 32
  sysspace : Bool
  xmsg : Bool
  deriving DecidableEq

/-- What `IPC_SET` reads of the user's structure. -/
structure Dsp where
  uid : Nat
  gid : Nat
  mode : BitVec 32
  msgQbytes : UInt16

inductive Call
  | msgget (key : Int) (msgflg : BitVec 32)
  | msgsnd (msqid : UInt32) (a : Snd)
  | msgrcv (msqid : UInt32) (a : Rcv)
  | msgctl (msgid : UInt32) (cmd : Int) (dsp : Dsp)

/-- A call in `msgsleep`, with what its loop keeps. -/
inductive Sleeper
  | snd (a : Snd)
  | rcv (a : Rcv) (smp spmp : Nat)

/-- A thread in `msgsleep`, with the queue by its index in `msgque`. -/
structure Waiting where
  qid : Nat
  seq : UInt16
  call : Sleeper

structure State where
  msgque : Nat → MsqidDs
  msgMark : Nat
  heap : Heap
  threads : Nat → Option Waiting

/-- How a call, or its turn up to a sleep, ends. A send and a receive name the
block of the message. A receive gives the header or, for `msgrcv`, the type. -/
inductive Outcome
  | got (msqid : Nat)
  | sent (qid mp : Nat) (attr : MsgHdr) (text : List UInt8)
  | received (qid mp : Nat) (attr : MsgHdr ⊕ Int32) (text : List UInt8)
  | removed (qid : Nat)
  | set (qid : Nat)
  | stat (ds : MsqidDs)
  | failed (err : Errno)
  | asleep
  | idle
  | wild

/-- How the turn ends for the caller. -/
inductive Turn
  | done (o : Outcome)
  | sleep (w : Sleeper)

/-- `msgconv`, the index of the queue. -/
def msgconv (s : State) (id : UInt32) : Option Nat :=
  let index := id.toNat % msgmni
  let seq := UInt16.ofNat (id.toNat / msgmni)
  if s.msgMark ≤ index then none
  else if seq ≠ (s.msgque index).msgPerm.seq ∨ (s.msgque index).has IPC_ALLOC = false then none
  else some index

/-- `rmsgrcv` with the message chosen. -/
def deliver (env : Env) (k : Nat) (a : Rcv) (qp : MsqidDs) (heap : Heap) (spmp smp : Nat)
    (m : Msg) : MsqidDs × Heap × Turn :=
  if a.msgsz < m.msgTs.toNat ∧ isSet a.msgflg MSG_NOERROR = false then
    (qp, heap, .done (.failed .e2big))
  else
    let sz := if a.msgsz < m.msgTs.toNat then a.msgsz.toNat else m.msgTs.toNat
    let hsz := if a.xmsg then 20 else 4
    if copyout env a.sysspace 0 hsz = false then (qp, heap, .done (.failed .efault))
    else if copyout env a.sysspace hsz sz = false then (qp, heap, .done (.failed .efault))
    else
      let qp :=
        { qp with msgCbytes := qp.msgCbytes - m.msgTs, msgLrpid := env.pid, msgRtime := env.time }
      let attr := if a.xmsg then .inl m.msgAttr else .inr m.msgAttr.mtype
      ((msgfree qp heap spmp smp).1, (msgfree qp heap spmp smp).2,
        .done (.received k smp attr (m.msgSpot.take sz)))

/-- `rmsgrcv` from `findmsg` to a return or to the sleep. -/
def rcvLoop (env : Env) (tid k : Nat) (a : Rcv) (smp spmp : Nat) (qp : MsqidDs) (heap : Heap) :
    MsqidDs × Heap × Turn :=
  match select qp heap a.msgtyp smp spmp with
  | none => (qp, heap, .done .wild)
  | some (smp, spmp) =>
    if smp = 0 then
      if isSet a.msgflg IPC_NOWAIT then (qp, heap, .done (.failed .enomsg))
      else
        ({ qp.setMode (qp.msgPerm.mode ||| MSG_RWAIT) with msgRwait := tid :: qp.msgRwait }, heap,
          .sleep (.rcv a smp spmp))
    else
      match heap smp with
      | none => (qp, heap, .done .wild)
      | some m => deliver env k a qp heap spmp smp m

/-- The text of the message has been copied in. -/
def accept (env : Env) (k : Nat) (a : Snd) (qp : MsqidDs) (heap : Heap) (mtype : Int32)
    (text : List UInt8) : MsqidDs × Heap × Turn :=
  let attr : MsgHdr := ⟨env.time, env.uid, env.gid, env.pid, mtype⟩
  let m : Msg := ⟨0, attr, UInt16.ofInt a.cnt, text⟩
  let qp :=
    { qp with
      msgQnum := qp.msgQnum + 1
      msgCbytes := qp.msgCbytes + UInt16.ofInt a.cnt
      msgStime := env.time
      msgLspid := env.pid }
  let r := enqueue qp heap env.xmalloc m
  let qp :=
    if r.1.has MSG_RWAIT then
      { r.1.setMode (r.1.msgPerm.mode &&& ~~~MSG_RWAIT) with msgRwait := [] }
    else r.1
  (qp, r.2, .done (.sent k env.xmalloc attr text))

/-- `rmsgsnd` from `getres` to a return or to the sleep. -/
def sndLoop (env : Env) (tid k : Nat) (a : Snd) (qp : MsqidDs) (heap : Heap) :
    MsqidDs × Heap × Turn :=
  if msgmnm ≤ qp.msgQnum.toNat ∨ a.cnt + qp.msgCbytes.toNat > qp.msgQbytes.toNat then
    if qp.msgQbytes.toNat < a.cnt then (qp, heap, .done (.failed .einval))
    else if isSet a.msgflg IPC_NOWAIT then (qp, heap, .done (.failed .eagain))
    else
      ({ qp.setMode (qp.msgPerm.mode ||| MSG_WWAIT) with msgWwait := tid :: qp.msgWwait }, heap,
        .sleep (.snd a))
  else if env.xmalloc = 0 ∨ (heap env.xmalloc).isSome then (qp, heap, .done (.failed .enomem))
  else
    match if a.sysspace then some (env.mtype.getD 0) else env.mtype with
    | none => (qp, heap, .done (.failed .efault))
    | some mtype =>
      if mtype < 1 then (qp, heap, .done (.failed .einval))
      else
        match copyText env a.sysspace a.cnt.toNat with
        | none => (qp, heap, .done (.failed .efault))
        | some text => accept env k a qp heap mtype text

def rmsgrcv (env : Env) (tid k : Nat) (a : Rcv) (qp : MsqidDs) (heap : Heap) :
    MsqidDs × Heap × Turn :=
  if ipcaccess env.toCred qp.msgPerm IPC_R = false then (qp, heap, .done (.failed .eacces))
  else if a.msgsz < 0 then (qp, heap, .done (.failed .einval))
  else rcvLoop env tid k a 0 0 qp heap

def rmsgsnd (env : Env) (tid k : Nat) (a : Snd) (qp : MsqidDs) (heap : Heap) :
    MsqidDs × Heap × Turn :=
  if ipcaccess env.toCred qp.msgPerm IPC_W = false then (qp, heap, .done (.failed .eacces))
  else if a.cnt < 0 ∨ a.cnt > msgmax then (qp, heap, .done (.failed .einval))
  else sndLoop env tid k a qp heap

/-- The end of `IPC_RMID`, with the queue empty. -/
def release (qp : MsqidDs) : MsqidDs :=
  { qp with
    msgCbytes := 0
    msgRwait := if qp.has MSG_RWAIT then [] else qp.msgRwait
    msgWwait := if qp.has MSG_WWAIT then [] else qp.msgWwait
    msgPerm := { qp.msgPerm with seq := qp.msgPerm.seq + 1, mode := 0 } }

/-- `rmsgctl`, with 0 for `IPC_RMID`, 1 for `IPC_SET` and 2 for `IPC_STAT`. -/
def rmsgctl (env : Env) (k : Nat) (cmd : Int) (dsp : Dsp) (qp : MsqidDs) (heap : Heap) :
    MsqidDs × Heap × Turn :=
  if cmd = 0 then
    if owns env.toCred qp.msgPerm .bypassDacWrite = false then (qp, heap, .done (.failed .eperm))
    else
      match freeAll (msgmnm + 1) qp heap with
      | none => (qp, heap, .done .wild)
      | some (qp, heap) => (release qp, heap, .done (.removed k))
  else if cmd = 1 then
    if owns env.toCred qp.msgPerm .setObjDac = false then (qp, heap, .done (.failed .eperm))
    else if dsp.msgQbytes > qp.msgQbytes ∧ env.priv .setObjStat = false then
      (qp, heap, .done (.failed .eperm))
    else
      let mode := (qp.msgPerm.mode &&& ~~~0o777#32) ||| (dsp.mode &&& 0o777#32)
      ({ qp with
          msgPerm := { qp.msgPerm with uid := dsp.uid, gid := dsp.gid, mode := mode }
          msgQbytes := dsp.msgQbytes
          msgCtime := env.time }, heap, .done (.set k))
  else if cmd = 2 then
    if ipcaccess env.toCred qp.msgPerm IPC_R = false then (qp, heap, .done (.failed .eacces))
    else (qp, heap, .done (.stat qp))
  else (qp, heap, .done (.failed .einval))

/-- A new queue, as `ipcget` and `rmsgget` leave it. -/
def create (env : Env) (key : Int) (flag : BitVec 32) (qp : MsqidDs) : MsqidDs :=
  { msgPerm := newPerm env.toCred key flag qp.msgPerm
    msgFirst := 0
    msgLast := 0
    msgCbytes := 0
    msgQnum := 0
    msgQbytes := msgmnb
    msgLspid := 0
    msgLrpid := 0
    msgStime := 0
    msgRtime := 0
    msgCtime := env.time
    msgRwait := []
    msgWwait := [] }

def msqid (s : State) (k : Nat) : Nat := (s.msgque k).msgPerm.seq.toNat * msgmni + k

def rmsgget (s : State) (env : Env) (key : Int) (flag : BitVec 32) : State × Outcome :=
  match ipcget (fun i => (s.msgque i).msgPerm) s.msgMark msgmni key flag with
  | .error e => (s, .failed e)
  | .ok (k, false) => (s, .got (msqid s k))
  | .ok (k, true) =>
    ({ s with
        msgque := Function.update s.msgque k (create env key flag (s.msgque k))
        msgMark := max s.msgMark (k + 1) }, .got (msqid s k))

/-- The turn of thread `tid` on queue `k` is over. -/
def settle (s : State) (tid k : Nat) (r : MsqidDs × Heap × Turn) : State × Outcome :=
  let s := { s with msgque := Function.update s.msgque k r.1, heap := r.2.1 }
  match r.2.2 with
  | .done o => ({ s with threads := Function.update s.threads tid none }, o)
  | .sleep w =>
    ({ s with threads := Function.update s.threads tid (some ⟨k, r.1.msgPerm.seq, w⟩) }, .asleep)

/-- A thread starts a call. -/
def begin (s : State) (tid : Nat) (env : Env) (c : Call) : State × Outcome :=
  match c with
  | .msgget key flag => rmsgget s env key flag
  | .msgsnd id a =>
    match msgconv s id with
    | none => (s, .failed .einval)
    | some k => settle s tid k (rmsgsnd env tid k a (s.msgque k) s.heap)
  | .msgrcv id a =>
    match msgconv s id with
    | none => (s, .failed .einval)
    | some k => settle s tid k (rmsgrcv env tid k a (s.msgque k) s.heap)
  | .msgctl id cmd dsp =>
    match msgconv s id with
    | none => (s, .failed .einval)
    | some k => settle s tid k (rmsgctl env k cmd dsp (s.msgque k) s.heap)

def Sleeper.loop (env : Env) (tid k : Nat) (w : Sleeper) (qp : MsqidDs) (heap : Heap) :
    MsqidDs × Heap × Turn :=
  match w with
  | .snd a => sndLoop env tid k a qp heap
  | .rcv a smp spmp => rcvLoop env tid k a smp spmp qp heap

def MsqidDs.waits (qp : MsqidDs) (tid : Nat) : Bool := tid ∈ qp.msgRwait ∨ tid ∈ qp.msgWwait

/-- A thread comes back from the sleep: by a signal, or, when it has been
woken, to its loop, unless the queue has been removed. -/
def resume (s : State) (tid : Nat) (env : Env) (signal : Bool) : State × Outcome :=
  match s.threads tid with
  | none => (s, .idle)
  | some w =>
    let qp := s.msgque w.qid
    if signal then
      settle s tid w.qid
        ({ qp with msgRwait := qp.msgRwait.erase tid, msgWwait := qp.msgWwait.erase tid }, s.heap,
          .done (.failed .eintr))
    else if MsqidDs.waits qp tid then (s, .idle)
    else if qp.has IPC_ALLOC = false ∨ w.seq ≠ qp.msgPerm.seq then
      settle s tid w.qid (qp, s.heap, .done (.failed .eidrm))
    else settle s tid w.qid (w.call.loop env tid w.qid qp s.heap)

inductive Event
  | call (tid : Nat) (env : Env) (c : Call)
  | resume (tid : Nat) (env : Env) (signal : Bool)

/-- One turn of a thread under `mes_lock`. A thread that sleeps makes no
call. -/
def step (s : State) : Event → State × Outcome
  | .call tid env c => if (s.threads tid).isSome then (s, .idle) else begin s tid env c
  | .resume tid env signal => resume s tid env signal

def unused : MsqidDs :=
  ⟨⟨0, 0, 0, 0, 0, 0, 0⟩, 0, 0, 0, 0, 0, 0, 0, 0, 0, 0, [], []⟩

/-- The system before the first queue. -/
def boot : State := ⟨fun _ => unused, 0, fun _ => none, fun _ => none⟩

end Aix413.Message.Calls
