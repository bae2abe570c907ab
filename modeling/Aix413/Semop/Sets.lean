import Aix413.Ipc.Access
import Aix413.Semop.Sem

namespace Aix413.Semop.Sets

open Ipc.Access Sem

/-- The other limits that ipc.c puts in `seminfo`. -/
def semmni : Nat := 4096
def semmsl : Int := 65535
def semopm : Nat := 1024

/-- A `struct semid_ds`. `semBase` is the address of its semaphores. -/
structure SemidDs where
  semPerm : IpcPerm
  semBase : Nat
  semNsems : UInt16
  semOtime : Nat
  semCtime : Nat

def SemidDs.alloc (sp : SemidDs) : Bool := isSet sp.semPerm.mode IPC_ALLOC

def Sembuf.semOrder (op : Sembuf) : Bool := op.semFlg.getLsbD 13

/-- The call of a thread in `semsleep`: `atomic` begins again, `order` goes on
with the operation it has come to. -/
inductive Sleeper
  | atomic (sops : List Sembuf)
  | order (rest : List Sembuf)

/-- A thread in `semsleep`, with the set and the semaphore whose list and count
it has been given. -/
structure Waiting where
  caller : Caller
  qid : Nat
  seq : UInt16
  semBase : Nat
  semNum : Nat
  zero : Bool
  call : Sleeper

structure Store where
  sema : Nat → SemidDs
  sem : Nat → Nat → Semaphore
  semMark : Nat
  semunp : List Int
  semundo : Int → Option (List Undo)
  threads : Nat → Option Waiting

/-- What a call has changed of the values: operations carried out for good,
semaphores of a set given values, a set removed, a process's adjustments made. -/
inductive Deed
  | nothing
  | ops (pid semid : Int) (ops : List Sembuf)
  | setval (semid : Int) (low high : Nat)
  | removed (semid : Int)
  | exited (pid : Int)

/-- How a turn ends. `wild` is an access to a semaphore outside of its set. -/
inductive Result
  | ok (val : Int)
  | all (vals : List (BitVec 16))
  | stat (ds : SemidDs)
  | failed (err : Ipc.Access.Errno)
  | asleep
  | idle
  | wild

/-- What a call finds outside the sets: its process, the block for the
semaphores of a new set (0 for none), whether there is memory for the other
things it allocates, and whether the user's memory can be read and written. -/
structure Env extends Cred where
  xmalloc : Nat
  mem : Bool
  readable : Bool
  writable : Bool

def errno : Sem.Errno → Ipc.Access.Errno
  | .erange => .erange
  | .enomem => .enomem
  | .einval => .einval
  | .eagain => .eagain

/-- `semconv`, the index of the set. -/
def semconv (S : Store) (s : UInt32) : Option Nat :=
  let index := s.toNat % semmni
  if S.semMark ≤ index then none
  else if s.toNat / semmni ≠ (S.sema index).semPerm.seq.toNat ∨ (S.sema index).alloc = false then
    none
  else some index

/-! ## Operations -/

/-- The operations that a pass of `atomic` comes to. -/
def reached (c : Caller) : List Sembuf → State → List Sembuf
  | [], _ => []
  | op :: ops, s =>
    op :: (match doOp c op s with
      | (s, .next) => reached c ops s
      | _ => [])

/-- The end of a pass, with the operations carried out for good and, for a
sleep, what the call keeps. -/
structure Pass where
  state : State
  ending : Ending
  done : List Sembuf
  stop : Option Sembuf
  call : Sleeper

def atomicPass (c : Caller) (sops : List Sembuf) (s : State) : Pass :=
  let r := atomic c sops s
  { state := r.1
    ending := r.2
    done := if r.2 = .done then sops else []
    stop := (reached c sops s).getLast?
    call := .atomic sops }

/-- One operation of `order`. Whether it may wait is tested by its caller. -/
def orderOp (c : Caller) (op : Sembuf) (s : State) : State × Verdict :=
  let semp := s.sem op.semNum.toNat
  if op.semOp = 0 then
    if semp.semval ≠ 0 then (s, .wait true) else (setPid c op s, .next)
  else if 0 < op.semOp.toInt then
    if op.semOp.toInt + semp.semval.toNat > semvmx then ({ s with uError := some .erange }, .fail)
    else
      match carryOut c op wakeN s with
      | (s, .next) => (setPid c op s, .next)
      | r => r
  else if -op.semOp.toInt > semvmx then ({ s with uError := some .erange }, .fail)
  else if semp.semval.toNat < -op.semOp.toInt then (s, .wait false)
  else
    match carryOut c op wakeZ s with
    | (s, .next) => (setPid c op s, .next)
    | r => r

/-- What `orderOp` makes of the outcome of `carryOut`. -/
def followUp (c : Caller) (op : Sembuf) : State × Verdict → State × Verdict
  | (s, .next) => (setPid c op s, .next)
  | r => r

/-- The loop of `order`. -/
def orderPass (c : Caller) : List Sembuf → State → Pass
  | [], s => ⟨s, .done, [], none, .order []⟩
  | op :: ops, s =>
    match orderOp c op s with
    | (s, .next) =>
      let p := orderPass c ops s
      { p with done := op :: p.done }
    | (s, .fail) => ⟨s, .failed, [], some op, .order (op :: ops)⟩
    | (s, .wait zero) =>
      if op.ipcNowait then ⟨{ s with uError := some .eagain }, .failed, [], some op, .order (op :: ops)⟩
      else ⟨semsleep c zero op.semNum.toNat s, .asleep, [], some op, .order (op :: ops)⟩

/-- The operations that a pass comes to. -/
def touched (c : Caller) (w : Sleeper) (s : State) : List Sembuf :=
  match w with
  | .atomic sops => reached c sops s
  | .order rest => (orderPass c rest s).done ++ (orderPass c rest s).stop.toList

def pass (c : Caller) (w : Sleeper) (s : State) : Pass :=
  match w with
  | .atomic sops => atomicPass c sops s
  | .order rest => orderPass c rest s

/-- What a pass for the process reads and writes. -/
def Store.part (S : Store) (k : Nat) (pid : Int) : State :=
  ⟨S.sem k, S.semundo pid, S.semunp, none⟩

def Store.put (S : Store) (k : Nat) (pid : Int) (s : State) : Store :=
  { S with
    sem := Function.update S.sem k s.sem
    semundo := Function.update S.semundo pid s.semundo
    semunp := s.semunp }

def Store.setThread (S : Store) (tid : Nat) (w : Option Waiting) : Store :=
  { S with threads := Function.update S.threads tid w }

def Store.setSp (S : Store) (k : Nat) (sp : SemidDs) : Store :=
  { S with sema := Function.update S.sema k sp }

/-- `out_order` gives the flags of the operation back to the user. -/
def orderError (env : Env) (w : Sleeper) (err : Ipc.Access.Errno) : Ipc.Access.Errno :=
  match w with
  | .atomic _ => err
  | .order _ => if env.writable then err else .efault

/-- A turn of `semop` on set `k`. -/
def turn (S : Store) (env : Env) (k : Nat) (c : Caller) (w : Sleeper) : Store × Deed × Result :=
  let sp := S.sema k
  let s := S.part k c.pid
  if (touched c w s).any fun op => sp.semNsems.toNat ≤ op.semNum.toNat then (S, .nothing, .wild)
  else
    let p := pass c w s
    let S := S.put k c.pid p.state
    let deed := Deed.ops c.pid c.semid p.done
    match p.ending with
    | .done =>
      ((S.setSp k { sp with semOtime := env.time }).setThread c.thread none, deed, .ok 0)
    | .failed =>
      (S.setThread c.thread none, deed,
        .failed (orderError env w (errno (p.state.uError.getD .erange))))
    | .asleep =>
      let n := (p.stop.map fun op => op.semNum.toNat).getD 0
      let zero := p.stop.any fun op => op.semOp = 0
      (S.setThread c.thread (some ⟨c, k, sp.semPerm.seq, sp.semBase, n, zero, p.call⟩), deed,
        .asleep)

/-- `semop` up to its loop: an error, or the set and the loop to run. -/
def semopCheck (S : Store) (env : Env) (tid : Nat) (semid : UInt32) (sops : List Sembuf) :
    Except Ipc.Access.Errno (Nat × Caller × Sleeper) :=
  if semopm < sops.length then .error .e2big
  else if 32 < sops.length ∧ env.mem = false then .error .enomem
  else if env.readable = false then .error .efault
  else
    match semconv S semid with
    | none => .error .einval
    | some k =>
      let sp := S.sema k
      if sops.any fun op => sp.semNsems.toNat ≤ op.semNum.toNat then .error .efbig
      else if ipcaccess env.toCred sp.semPerm
          (if sops.any fun op => op.semOp ≠ 0 then IPC_W else IPC_R) = false then
        .error .eacces
      else
        .ok (k, ⟨semid.toNat, env.pid, tid, env.mem⟩,
          if sops.head?.any Sembuf.semOrder then .order sops else .atomic sops)

/-- `semop`, with the operations as they are in the user's memory. -/
def semop (S : Store) (env : Env) (tid : Nat) (semid : UInt32) (sops : List Sembuf) :
    Store × Deed × Result :=
  if sops.length = 0 then (S, .nothing, .ok 0)
  else
    match semopCheck S env tid semid sops with
    | .error err => (S, .nothing, .failed err)
    | .ok (k, c, w) => turn S env k c w

/-- The set that a thread sleeps on is there, going by its sequence number. -/
def Store.live (S : Store) (w : Waiting) : Bool :=
  (S.sema w.qid).alloc && (S.sema w.qid).semPerm.seq = w.seq

/-- And its semaphores are where they were. -/
def Store.inside (S : Store) (w : Waiting) : Bool :=
  (S.sema w.qid).semBase = w.semBase && w.semNum < (S.sema w.qid).semNsems.toNat

/-- The thread has not been woken. -/
def Store.listed (S : Store) (tid : Nat) (w : Waiting) : Bool :=
  let v := S.sem w.qid w.semNum
  S.live w && S.inside w && tid ∈ (if w.zero then v.semzwait else v.semnwait)

/-- A thread that sleeps on the semaphore has been interrupted. -/
def leave (tid : Nat) (zero : Bool) (v : Semaphore) : Semaphore :=
  if zero then
    if v.semzcnt.toNat ≤ 1 then { v with semzcnt := 0, semzwait := [] }
    else { v with semzcnt := v.semzcnt - 1, semzwait := v.semzwait.erase tid }
  else if v.semncnt.toNat ≤ 1 then { v with semncnt := 0, semnwait := [] }
  else { v with semncnt := v.semncnt - 1, semnwait := v.semnwait.erase tid }

/-- A thread comes back from `semsleep`, by a signal or woken. -/
def resume (S : Store) (env : Env) (tid : Nat) (signal : Bool) : Store × Deed × Result :=
  match S.threads tid with
  | none => (S, .nothing, .idle)
  | some w =>
    if signal then
      let r := Result.failed (orderError env w.call .eintr)
      if S.live w then
        if S.inside w then
          let v := leave tid w.zero (S.sem w.qid w.semNum)
          (({ S with
              sem := Function.update S.sem w.qid
                (Function.update (S.sem w.qid) w.semNum v) } : Store).setThread tid none, .nothing, r)
        else (S, .nothing, .wild)
      else (S.setThread tid none, .nothing, r)
    else if S.listed tid w then (S, .nothing, .idle)
    else if S.live w then
      match w.call with
      | .atomic sops => turn S env w.qid { w.caller with mem := env.mem } (.atomic sops)
      | .order rest =>
        if S.inside w then turn S env w.qid { w.caller with mem := env.mem } (.order rest)
        else (S, .nothing, .wild)
    else (S.setThread tid none, .nothing, .failed (orderError env w.call .eidrm))

/-! ## The undo entries of a set -/

/-- What `semunrm` leaves of the entries of one process. -/
def rmEntries (id : Int) (low high : BitVec 16) : List Undo → List Undo
  | [] => []
  | up :: ents =>
    if id < up.unId then up :: ents
    else if up.unId < id ∨ up.unNum.toNat < low.toNat then up :: rmEntries id low high ents
    else if high.toNat < up.unNum.toNat then up :: ents
    else rmEntries id low high ents

/-- The loop of `semunrm` over the chain. -/
def semunrmLoop (id : Int) (low high : BitVec 16) :
    List Int → (Int → Option (List Undo)) → List Int × (Int → Option (List Undo))
  | [], undo => ([], undo)
  | p :: ps, undo =>
    let ents := (undo p).map (rmEntries id low high)
    let r := semunrmLoop id low high ps (Function.update undo p ents)
    (if ents.getD [] = [] then r.1 else p :: r.1, r.2)

def semunrm (S : Store) (id : Int) (low high : BitVec 16) : Store :=
  let r := semunrmLoop id low high S.semunp S.semundo
  { S with semunp := r.1, semundo := r.2 }

/-- A value is given to a semaphore, and those that wait for it are woken. -/
def setVal (v : Semaphore) (val : BitVec 16) (pid : Int) : Semaphore :=
  let v := { v with semval := val, sempid := pid }
  if val ≠ 0 then wakeN v else wakeZ v

/-- A semaphore of a set that is removed. -/
def clear (v : Semaphore) : Semaphore :=
  wakeZ (wakeN { v with semval := 0, sempid := 0 })

/-- What `IPC_SET`, `SETVAL` and `SETALL` read of the argument. -/
structure Arg where
  val : Int
  array : Nat → BitVec 16
  uid : Nat
  gid : Nat
  mode : BitVec 32

/-- `IPC_RMID` for set `k`. -/
def rmid (S : Store) (semid : Int) (k : Nat) : Store :=
  let sp := S.sema k
  let S := semunrm S semid 0 (BitVec.ofNat 16 sp.semNsems.toNat)
  { S with
    sem := Function.update S.sem k fun n =>
      if n < sp.semNsems.toNat then clear (S.sem k n) else S.sem k n
    sema := Function.update S.sema k
      { sp with semPerm := { sp.semPerm with seq := sp.semPerm.seq + 1, mode := 0 } } }

/-- The commands that read or set the semaphore `semnum`. -/
def oneSem (S : Store) (env : Env) (semid : Int) (k : Nat) (semnum cmd : Int) (arg : Arg) :
    Store × Deed × Result :=
  let sp := S.sema k
  if ipcaccess env.toCred sp.semPerm (if cmd = 8 then IPC_W else IPC_R) = false then
    (S, .nothing, .failed .eacces)
  else if (sp.semNsems.toNat : Int) ≤ semnum then (S, .nothing, .failed .einval)
  else if cmd = 8 ∧ semvmx.toNat < (UInt32.ofInt arg.val).toNat then (S, .nothing, .failed .erange)
  else if semnum < 0 then (S, .nothing, .wild)
  else
    let n := semnum.toNat
    let v := S.sem k n
    if cmd = 3 then (S, .nothing, .ok v.semncnt.toNat)
    else if cmd = 4 then (S, .nothing, .ok v.sempid)
    else if cmd = 5 then (S, .nothing, .ok v.semval.toNat)
    else if cmd = 7 then (S, .nothing, .ok v.semzcnt.toNat)
    else
      let v := setVal v (BitVec.ofInt 16 arg.val) env.pid
      let S := { S with sem := Function.update S.sem k (Function.update (S.sem k) n v) }
      (semunrm S semid (BitVec.ofInt 16 semnum) (BitVec.ofInt 16 semnum), .setval semid n n, .ok 0)

/-- The commands that read or set all semaphores of the set. -/
def allSems (S : Store) (env : Env) (semid : Int) (k : Nat) (cmd : Int) (arg : Arg) :
    Store × Deed × Result :=
  let sp := S.sema k
  let ns := List.range sp.semNsems.toNat
  if ipcaccess env.toCred sp.semPerm (if cmd = 9 then IPC_W else IPC_R) = false then
    (S, .nothing, .failed .eacces)
  else if env.mem = false then (S, .nothing, .failed .enomem)
  else if cmd = 6 then
    if env.writable = false then (S, .nothing, .failed .efault)
    else (S, .nothing, .all (ns.map fun n => (S.sem k n).semval))
  else if env.readable = false then (S, .nothing, .failed .efault)
  else if ns.any fun n => semvmx.toNat < (arg.array n).toNat then (S, .nothing, .failed .erange)
  else
    let S := semunrm S semid 0 (BitVec.ofNat 16 sp.semNsems.toNat)
    ({ S with
        sem := Function.update S.sem k fun n =>
          if n < sp.semNsems.toNat then setVal (S.sem k n) (arg.array n) env.pid else S.sem k n },
      .setval semid 0 (sp.semNsems.toNat - 1), .ok 0)

/-- `semctl`, with the commands by their numbers. -/
def semctl (S : Store) (env : Env) (semid : UInt32) (semnum cmd : Int) (arg : Arg) :
    Store × Deed × Result :=
  match semconv S semid with
  | none => (S, .nothing, .failed .einval)
  | some k =>
    let sp := S.sema k
    if cmd = 0 then
      if owns env.toCred sp.semPerm .bypassDacWrite = false then (S, .nothing, .failed .eperm)
      else (rmid S semid.toNat k, .removed semid.toNat, .ok 0)
    else if cmd = 1 then
      if owns env.toCred sp.semPerm .setObjDac = false then (S, .nothing, .failed .eperm)
      else if env.readable = false then (S, .nothing, .failed .efault)
      else
        let mode := (arg.mode &&& 0o777#32) ||| IPC_ALLOC
        (S.setSp k
          { sp with
            semPerm := { sp.semPerm with uid := arg.uid, gid := arg.gid, mode := mode }
            semCtime := env.time }, .nothing, .ok 0)
    else if cmd = 2 then
      if ipcaccess env.toCred sp.semPerm IPC_R = false then (S, .nothing, .failed .eacces)
      else if env.writable = false then (S, .nothing, .failed .efault)
      else (S, .nothing, .stat sp)
    else if cmd = 6 ∨ cmd = 9 then allSems S env semid.toNat k cmd arg
    else if 3 ≤ cmd ∧ cmd ≤ 8 then oneSem S env semid.toNat k semnum cmd arg
    else (S, .nothing, .failed .einval)

/-! ## Sets and processes -/

/-- `semget`. -/
def semget (S : Store) (env : Env) (key nsems : Int) (semflg : BitVec 32) :
    Store × Deed × Result :=
  match ipcget (fun i => (S.sema i).semPerm) S.semMark semmni key semflg with
  | .error e => (S, .nothing, .failed e)
  | .ok (k, false) =>
    if nsems ≠ 0 ∧ ((S.sema k).semNsems.toNat : Int) < nsems then (S, .nothing, .failed .einval)
    else (S, .nothing, .ok ((S.sema k).semPerm.seq.toNat * semmni + k))
  | .ok (k, true) =>
    let perm := newPerm env.toCred key semflg (S.sema k).semPerm
    let S := { S with semMark := max S.semMark (k + 1) }
    let unused := S.setSp k { S.sema k with semPerm := { perm with mode := 0 } }
    if nsems ≤ 0 ∨ semmsl < nsems then (unused, .nothing, .failed .einval)
    else if env.xmalloc = 0 then (unused, .nothing, .failed .enomem)
    else
      ({ S with
          sema := Function.update S.sema k
            ⟨perm, env.xmalloc, UInt16.ofInt nsems, 0, env.time⟩
          sem := Function.update S.sem k fun _ => ⟨0, 0, 0, 0, [], []⟩ }, .nothing,
        .ok (perm.seq.toNat * semmni + k))

/-- The adjustment of one entry in `semexit`. `none` is an access outside of
the set. -/
def adjust (S : Store) (up : Undo) : Option Store :=
  match semconv S (UInt32.ofInt up.unId) with
  | none => some S
  | some k =>
    if (S.sema k).semNsems.toNat ≤ up.unNum.toNat then none
    else
      let semp := S.sem k up.unNum.toNat
      let v := semp.semval.toNat + up.unAoe.toInt
      if v < 0 ∨ semvmx < v then some S
      else
        let semp := wakeZ { semp with semval := BitVec.ofInt 16 v }
        let semp := if 0 < up.unAoe.toInt then wakeN semp else semp
        some { S with
          sem := Function.update S.sem k (Function.update (S.sem k) up.unNum.toNat semp) }

/-- The loop of `semexit`, from the last entry on. -/
def adjustAll (S : Store) : List Undo → Option Store
  | [] => some S
  | up :: ents => (adjustAll S ents).bind (adjust · up)

/-- `semexit` -/
def semexit (S : Store) (pid : Int) : Store × Deed × Result :=
  match S.semundo pid with
  | none => (S, .exited pid, .ok 0)
  | some ents =>
    let S := if ents = [] then S else { S with semunp := S.semunp.erase pid }
    match adjustAll S ents with
    | none => (S, .nothing, .wild)
    | some S => ({ S with semundo := Function.update S.semundo pid none }, .exited pid, .ok 0)

inductive Call
  | semget (key nsems : Int) (semflg : BitVec 32)
  | semctl (semid : UInt32) (semnum cmd : Int) (arg : Arg)
  | semop (semid : UInt32) (sops : List Sembuf)
  | exit

inductive Event
  | call (tid : Nat) (env : Env) (c : Call)
  | resume (tid : Nat) (env : Env) (signal : Bool)

/-- One turn of a thread under `sem_lock`. A thread that sleeps makes no
call. -/
def step (S : Store) : Event → Store × Deed × Result
  | .call tid env c =>
    if (S.threads tid).isSome then (S, .nothing, .idle)
    else
      match c with
      | .semget key nsems semflg => semget S env key nsems semflg
      | .semctl semid semnum cmd arg => semctl S env semid semnum cmd arg
      | .semop semid sops => semop S env tid semid sops
      | .exit => semexit S env.pid
  | .resume tid env signal => resume S env tid signal

/-- The system before the first set. -/
def boot : Store where
  sema := fun _ => ⟨⟨0, 0, 0, 0, 0, 0, 0⟩, 0, 0, 0, 0⟩
  sem := fun _ _ => ⟨0, 0, 0, 0, [], []⟩
  semMark := 0
  semunp := []
  semundo := fun _ => none
  threads := fun _ => none

end Aix413.Semop.Sets
