import Mathlib.Logic.Function.Basic
import Aix413.Lib.Rollback

namespace Aix413.Semop.Sem

open Aix413.Lib.Rollback

/-- The limits that ipc.c puts in `seminfo`. -/
def semume : Nat := 1024
def semvmx : Int := 32767
def semaem : Int := 16384

inductive Errno
  | erange
  | enomem
  | einval
  | eagain
  deriving DecidableEq, Repr

structure Sembuf where
  semNum : BitVec 16
  semOp : BitVec 16
  semFlg : BitVec 16
  deriving DecidableEq, Repr

def Sembuf.semUndo (op : Sembuf) : Bool := op.semFlg.getLsbD 12
def Sembuf.ipcNowait (op : Sembuf) : Bool := op.semFlg.getLsbD 11

structure Semaphore where
  semval : BitVec 16
  sempid : Int
  semncnt : BitVec 16
  semzcnt : BitVec 16
  semnwait : List Nat
  semzwait : List Nat

/-- `struct undo`. `unAoe` is a `short`, `unNum` a `ushort`. -/
structure Undo where
  unAoe : BitVec 16
  unNum : BitVec 16
  unId : Int
  deriving DecidableEq, Repr

/-- What a pass of `atomic` reads and writes: the semaphores of the set from
`sem_base` on, the entries of the process's undo structure (`none` until the
structure is allocated), the chain of active undo structures, each by the
process that owns it, and `u.u_error`. -/
structure State where
  sem : Nat → Semaphore
  semundo : Option (List Undo)
  semunp : List Int
  uError : Option Errno

/-- The semaphore set named, the calling process and thread, and whether
`xmalloc` finds memory for an undo structure. -/
structure Caller where
  semid : Int
  pid : Int
  thread : Nat
  mem : Bool

/-- The test with which `semaoe` passes over an entry. The `ushort` of the
entry and the `short` of the argument are compared as integers. -/
def before (id : Int) (num : BitVec 16) (e : Undo) : Bool :=
  e.unId < id ∨ (e.unId = id ∧ (e.unNum.toNat : Int) < num.toInt)

def matching (id : Int) (num : BitVec 16) (e : Undo) : Bool :=
  e.unId = id ∧ (e.unNum.toNat : Int) = num.toInt

/-- The entry is put between those passed over and the others. -/
def insertEntry (val : BitVec 16) (id : Int) (num : BitVec 16) (lo hi : List Undo) :
    Except Errno (List Undo) :=
  if semume ≤ (lo ++ hi).length then .error .einval else .ok (lo ++ ⟨-val, num, id⟩ :: hi)

/-- A sum out of range is taken back, so that the error leaves the table as it
was. -/
def updateEntry (val : BitVec 16) (lo : List Undo) (e : Undo) (hi : List Undo) :
    Except Errno (List Undo) :=
  if (e.unAoe - val).toInt > semaem ∨ (e.unAoe - val).toInt < -semaem then .error .erange
  else if e.unAoe - val = 0 then .ok (lo ++ hi)
  else .ok (lo ++ { e with unAoe := e.unAoe - val } :: hi)

/-- The table part of `semaoe`. -/
def adjustTable (val : BitVec 16) (id : Int) (num : BitVec 16) (ents : List Undo) :
    Except Errno (List Undo) :=
  let lo := ents.takeWhile (before id num)
  match ents.dropWhile (before id num) with
  | [] => insertEntry val id num lo []
  | e :: hi =>
    if matching id num e then updateEntry val lo e hi else insertEntry val id num lo (e :: hi)

def State.entries (s : State) : List Undo := s.semundo.getD []

/-- `semaoe`, with whether it returned an error. -/
def semaoe (c : Caller) (val num : BitVec 16) (s : State) : State × Bool :=
  if val = 0 then (s, false)
  else if val.toInt > semaem ∨ val.toInt < -semaem then ({ s with uError := some .erange }, true)
  else if s.semundo = none ∧ c.mem = false then ({ s with uError := some .enomem }, true)
  else
    match adjustTable val c.semid num s.entries with
    | .error e => ({ s with semundo := some s.entries, uError := some e }, true)
    | .ok ents =>
      ({ s with
          semundo := some ents
          semunp :=
            if s.entries = [] then c.pid :: s.semunp
            else if ents = [] then s.semunp.erase c.pid
            else s.semunp }, false)

def State.setSem (s : State) (n : Nat) (v : Semaphore) : State :=
  { s with sem := Function.update s.sem n v }

inductive Verdict
  | next
  | fail
  | wait (zero : Bool)
  deriving DecidableEq, Repr

def wakeN (v : Semaphore) : Semaphore :=
  if v.semncnt ≠ 0 then { v with semncnt := 0, semnwait := [] } else v

def wakeZ (v : Semaphore) : Semaphore :=
  if v.semval = 0 ∧ v.semzcnt ≠ 0 then { v with semzcnt := 0, semzwait := [] } else v

def addVal (v : Semaphore) (d : BitVec 16) : Semaphore := { v with semval := v.semval + d }

/-- The operation passes its range test: its undo entry is made, if it asks for
one, and then the value is changed and `wake` called. -/
def carryOut (c : Caller) (op : Sembuf) (wake : Semaphore → Semaphore) (s : State) :
    State × Verdict :=
  match if op.semUndo then semaoe c op.semOp op.semNum s else (s, false) with
  | (s, true) => (s, .fail)
  | (s, false) =>
    (s.setSem op.semNum.toNat (wake (addVal (s.sem op.semNum.toNat) op.semOp)), .next)

/-- The body of the loop of `atomic` for one operation. -/
def doOp (c : Caller) (op : Sembuf) (s : State) : State × Verdict :=
  let semp := s.sem op.semNum.toNat
  if 0 < op.semOp.toInt then
    if op.semOp.toInt + semp.semval.toNat > semvmx then (s, .fail)
    else carryOut c op wakeN s
  else if op.semOp.toInt < 0 then
    if -op.semOp.toInt ≤ semp.semval.toNat then
      if -op.semOp.toInt > semvmx then (s, .fail)
      else carryOut c op wakeZ s
    else (s, .wait false)
  else if semp.semval ≠ 0 then (s, .wait true)
  else (s, .next)

/-- The body of the loop of `semundo`, which ignores what `semaoe` returns. -/
def undoOp (c : Caller) (op : Sembuf) (s : State) : State :=
  if op.semOp = 0 then s
  else
    let s := s.setSem op.semNum.toNat (addVal (s.sem op.semNum.toNat) (-op.semOp))
    if op.semUndo then (semaoe c (-op.semOp) op.semNum s).1 else s

/-- `semsleep`, up to the sleep. -/
def semsleep (c : Caller) (zero : Bool) (n : Nat) (s : State) : State :=
  let v := s.sem n
  s.setSem n
    (if zero then { v with semzcnt := v.semzcnt + 1, semzwait := c.thread :: v.semzwait }
    else { v with semncnt := v.semncnt + 1, semnwait := c.thread :: v.semnwait })

def setPid (c : Caller) (op : Sembuf) (s : State) : State :=
  s.setSem op.semNum.toNat { s.sem op.semNum.toNat with sempid := c.pid }

inductive Ending
  | done
  | failed
  | asleep
  deriving DecidableEq, Repr

/-- The loop of `atomic`, with the operations already done, the last one
first. -/
def atomicLoop (c : Caller) : List Sembuf → List Sembuf → State → State × Ending
  | done, [], s => (done.reverse.foldl (fun s op => setPid c op s) s, .done)
  | done, op :: ops, s =>
    match doOp c op s with
    | (s, .next) => atomicLoop c (op :: done) ops s
    | (s, .fail) =>
      let s := { s with uError := some (s.uError.getD .erange) }
      (rollback (undoOp c) done s, .failed)
    | (s, .wait zero) =>
      let s := rollback (undoOp c) done s
      if op.ipcNowait then ({ s with uError := some .eagain }, .failed)
      else (semsleep c zero op.semNum.toNat s, .asleep)

/-- One pass of `atomic`, from `loopagain` to a return or to the sleep. -/
def atomic (c : Caller) (sops : List Sembuf) (s : State) : State × Ending := atomicLoop c [] sops s

end Aix413.Semop.Sem
