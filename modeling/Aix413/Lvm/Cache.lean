import Aix413.Lib.LinkedPool
import Aix413.Lvm.Requests

namespace Aix413.Lvm.Mwc

open Lib.LinkedPool

/-! ## The entries of the cache -/

/-- Cells of the cache are numbered from 1; 0 is the null pointer. -/
abbrev Ptr := Nat

/-- State of an entry. -/
inductive CaState where
  | canochg
  | cachg
  | caclean
deriving DecidableEq

/-- An entry of the record that is written to the disks. `put` numbers the
occasions on which an entry was put in the record; the record itself does not
have it. -/
structure CaMwcDp where
  lvLtg : BitVec 32
  lvMinor : Nat
  put : Nat
deriving DecidableEq

/-- The record with its ring of use and its hash queues. -/
structure Cache where
  size : Nat
  lst : Ptr
  next : Ptr → Ptr
  prev : Ptr → Ptr
  hash : BitVec 32 → Ptr
  hqNext : Ptr → Ptr
  state : Ptr → CaState
  iocnt : Ptr → BitVec 16
  part1 : Ptr → CaMwcDp

def cahhsize : BitVec 32 := 8

def caThash (trk : BitVec 32) : BitVec 32 := trk &&& (cahhsize - 1)

/-- The queue of the track group of a block. -/
def caHash (blkno : BitVec 32) : BitVec 32 := caThash (blk2trk blkno)

namespace Cache

variable (c : Cache)

def setState (e : Ptr) (st : CaState) : Cache := { c with state := Function.update c.state e st }

def setIocnt (e : Ptr) (n : BitVec 16) : Cache := { c with iocnt := Function.update c.iocnt e n }

def setPart1 (e : Ptr) (p : CaMwcDp) : Cache := { c with part1 := Function.update c.part1 e p }

/-- Remove an entry from its place in the ring, and add it back before the anchor. -/
def relink (e : Ptr) : Cache :=
  let a := c.lst
  let next := Function.update c.next (c.prev e) (c.next e)
  let prev := Function.update c.prev (c.next e) (c.prev e)
  let next := Function.update next e a
  let prev := Function.update prev e (prev a)
  { c with next := Function.update next (prev a) e, prev := Function.update prev a e }

def useHead (e : Ptr) : Cache :=
  if e = c.lst then c
  else if e = c.prev c.lst then { c with lst := e }
  else { c.relink e with lst := e }

def useTail (e : Ptr) : Cache :=
  if e = c.prev c.lst then c
  else if e = c.lst then { c with lst := c.next c.lst }
  else c.relink e

/-- Back from the least recently used entry to one without I/O, once around. -/
def idle (start : Ptr) : Nat → Ptr → Option Ptr
  | 0, _ => none
  | fuel + 1, lru =>
    if c.iocnt lru = 0 then some lru
    else if c.prev lru = start then none
    else idle start fuel (c.prev lru)

/-- `none` stands for a failed assertion: the entry is not on its queue. -/
def qunlk (e : Ptr) : Option Cache :=
  let idx := caThash (c.part1 e).lvLtg
  (before c.hqNext e (c.size + 1) none (c.hash idx)).map fun prev =>
    { c with
      hash := unlinkHead c.hash idx prev (c.hqNext e)
      hqNext := Function.update (unlinkNext c.hqNext prev e) e 0 }

/-- The entry of a track group, 0 if there is none. -/
def fnd (minor : Nat) (ltg : BitVec 32) : Ptr :=
  (find c.hqNext (fun e => (c.part1 e).lvLtg = ltg ∧ (c.part1 e).lvMinor = minor) (c.size + 1)
    (c.hash (caThash ltg))).getD 0

/-- An entry without I/O, off its queue if it was in use. -/
def new : Option (Option Ptr × Cache) :=
  let tail := c.prev c.lst
  match c.idle tail c.size tail with
  | none => some (none, c)
  | some e => if c.state e = .caclean then some (some e, c) else (c.qunlk e).map fun c => (some e, c)

/-- An entry goes to the tail, clean. -/
def clear (e : Ptr) : Cache :=
  ((c.useTail e).setState e .caclean).setPart1 e ⟨0, 0, 0⟩

/-- An entry that is off the queues goes to the head for a track group, with
one request. -/
def fill (e : Ptr) (p : CaMwcDp) : Cache :=
  let c := (((c.useHead e).setState e .cachg).setPart1 e p).setIocnt e 1
  let idx := caThash p.lvLtg
  { c with
    hqNext := Function.update c.hqNext e (c.hash idx)
    hash := Function.update c.hash idx e }

/-- Take the entries without I/O off a hash queue, and clean them. The flag says
whether there were any. -/
def cleanQueue : Nat → Ptr → Bool → Cache → Option (Bool × Cache)
  | 0, _, _, _ => none
  | fuel + 1, hq, chg, c =>
    if hq = 0 then some (chg, c)
    else if c.iocnt hq = 0 then
      (c.qunlk hq).bind fun c' => cleanQueue fuel (c.hqNext hq) true (c'.clear hq)
    else cleanQueue fuel (c.hqNext hq) chg c

def cleanQueues : List (BitVec 32) → Bool → Cache → Option (Bool × Cache)
  | [], chg, c => some (chg, c)
  | idx :: rest, chg, c =>
    (cleanQueue (c.size + 1) (c.hash idx) chg c).bind fun r => cleanQueues rest r.1 r.2

/-- From the anchor on to the first clean entry: what has changed is now on the
disks. -/
def settle : Nat → Ptr → Cache → Cache
  | 0, _, c => c
  | fuel + 1, e, c =>
    if c.state e = .caclean then c
    else
      let c' := if c.state e = .cachg then c.setState e .canochg else c
      if c.next e = c.lst then c' else settle fuel (c.next e) c'

end Cache

/-- All hash queues, in the order in which they are cleaned up. -/
def hashQueues : List (BitVec 32) := [0, 1, 2, 3, 4, 5, 6, 7]

end Aix413.Lvm.Mwc
