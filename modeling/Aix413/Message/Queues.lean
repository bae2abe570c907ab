import Mathlib.Logic.Function.Basic
import Aix413.Ipc.Access

namespace Aix413.Message.Queues

open Ipc.Access

/-- The limits that ipc.c puts in `msginfo`. -/
def msgmax : Int := 65535
def msgmnb : UInt16 := 65535
def msgmni : Nat := 4096
def msgmnm : Nat := 8192

def MSG_RWAIT : BitVec 32 := 0o1000#32
def MSG_WWAIT : BitVec 32 := 0o2000#32
def MSG_NOERROR : BitVec 32 := 0o10000#32

/-- `struct msg_hdr` -/
structure MsgHdr where
  mtime : Nat
  muid : Nat
  mgid : Nat
  mpid : Nat
  mtype : Int32
  deriving DecidableEq, Repr

/-- `struct msg`. `msgSpot` is the text that follows the structure in its
block, and the null pointer is 0. -/
structure Msg where
  msgNext : Nat
  msgAttr : MsgHdr
  msgTs : UInt16
  msgSpot : List UInt8

/-- A `struct msqid_ds`, with the threads on its two event lists. -/
structure MsqidDs where
  msgPerm : IpcPerm
  msgFirst : Nat
  msgLast : Nat
  msgCbytes : UInt16
  msgQnum : UInt16
  msgQbytes : UInt16
  msgLspid : Nat
  msgLrpid : Nat
  msgStime : Nat
  msgRtime : Nat
  msgCtime : Nat
  msgRwait : List Nat
  msgWwait : List Nat

def MsqidDs.has (qp : MsqidDs) (bits : BitVec 32) : Bool := isSet qp.msgPerm.mode bits

def MsqidDs.setMode (qp : MsqidDs) (mode : BitVec 32) : MsqidDs :=
  { qp with msgPerm := { qp.msgPerm with mode := mode } }

/-- What a call finds outside the queues: its process, the block that `xmalloc`
would give it (0 for none), the user's memory from `msgp` on that can be read,
and that which can be written. -/
structure Env extends Cred where
  xmalloc : Nat
  mtype : Option Int32
  mtext : Nat → Option UInt8
  writable : Nat → Bool

/-- The blocks of `kernel_heap` that hold messages, by address. -/
abbrev Heap := Nat → Option Msg

def next (heap : Heap) (mp : Nat) : Nat :=
  match heap mp with
  | some m => m.msgNext
  | none => 0

def setNext (heap : Heap) (mp v : Nat) : Heap :=
  Function.update heap mp ((heap mp).map fun m => { m with msgNext := v })

/-- `copyin` of `cnt` bytes of text, which in the system address space is a
`bcopy`. -/
def copyText (env : Env) (sysspace : Bool) (cnt : Nat) : Option (List UInt8) :=
  if sysspace then some ((List.range cnt).map fun i => (env.mtext i).getD 0)
  else (List.range cnt).mapM env.mtext

def copyout (env : Env) (sysspace : Bool) (off cnt : Nat) : Bool :=
  sysspace || (List.range cnt).all fun i => env.writable (off + i)

/-- Message `mp`, with `pmp` before it, is taken from the queue and its block
given back, and the senders that wait are woken. -/
def msgfree (qp : MsqidDs) (heap : Heap) (pmp mp : Nat) : MsqidDs × Heap :=
  let nxt := next heap mp
  let qp := if pmp = 0 then { qp with msgFirst := nxt } else qp
  let heap := if pmp = 0 then heap else setNext heap pmp nxt
  let qp := if nxt = 0 then { qp with msgLast := pmp } else qp
  let qp := { qp with msgQnum := qp.msgQnum - 1 }
  let qp :=
    if qp.has MSG_WWAIT then
      { qp.setMode (qp.msgPerm.mode &&& ~~~MSG_WWAIT) with msgWwait := [] }
    else qp
  (qp, Function.update heap mp none)

/-- The loop with which `IPC_RMID` empties a queue. `none` if it does not come
to its end. -/
def freeAll : Nat → MsqidDs → Heap → Option (MsqidDs × Heap)
  | 0, _, _ => none
  | fuel + 1, qp, heap =>
    if qp.msgFirst = 0 then some (qp, heap)
    else freeAll fuel (msgfree qp heap 0 qp.msgFirst).1 (msgfree qp heap 0 qp.msgFirst).2

/-- The loop at `findmsg`, from message `mp` on, with `pmp` before it and the
best message so far, `smp`, after `spmp`. `none` if it does not come to the
end of the queue. -/
def findmsg (heap : Heap) (msgtyp : Int32) : Nat → Nat → Nat → Nat → Nat → Option (Nat × Nat)
  | 0, _, _, _, _ => none
  | fuel + 1, pmp, mp, smp, spmp =>
    if mp = 0 then some (smp, spmp)
    else
      match heap mp with
      | none => none
      | some m =>
        if 0 < msgtyp then
          if msgtyp ≠ m.msgAttr.mtype then findmsg heap msgtyp fuel mp m.msgNext smp spmp
          else some (mp, pmp)
        else if m.msgAttr.mtype ≤ -msgtyp then
          if smp ≠ 0 ∧ ∃ b ∈ heap smp, b.msgAttr.mtype ≤ m.msgAttr.mtype then
            findmsg heap msgtyp fuel mp m.msgNext smp spmp
          else findmsg heap msgtyp fuel mp m.msgNext mp pmp
        else findmsg heap msgtyp fuel mp m.msgNext smp spmp

/-- The message of type `msgtyp` to receive and the one before it, 0 for
none. -/
def select (qp : MsqidDs) (heap : Heap) (msgtyp : Int32) (smp spmp : Nat) : Option (Nat × Nat) :=
  if msgtyp = 0 then some (qp.msgFirst, spmp)
  else findmsg heap msgtyp (msgmnm + 1) 0 qp.msgFirst smp spmp

/-- Message `mp` is put at the end of the queue. -/
def enqueue (qp : MsqidDs) (heap : Heap) (mp : Nat) (m : Msg) : MsqidDs × Heap :=
  let heap := Function.update heap mp (some { m with msgNext := 0 })
  if qp.msgLast = 0 then ({ qp with msgFirst := mp, msgLast := mp }, heap)
  else ({ qp with msgLast := mp }, setNext heap qp.msgLast mp)

end Aix413.Message.Queues
