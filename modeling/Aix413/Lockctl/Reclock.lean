import Aix413.Lockctl.Flckadj

namespace Aix413.Lockctl.Reclock

open LockTable Flckadj

inductive Errno
  | einval
  | edeadlk
  | enolck
  | eagain
  | eintr
  deriving DecidableEq, Repr

/-- `MAXEND`. -/
def maxend : Int := 2147483647

def mntNfs : Int := 2

/-- An `offset_t` has 64 bits. -/
def wrap (x : Int) : Int := Int.bmod x (2 ^ 64)

/-- The cast of `l_vfs` to the `short` of a sleeping entry. -/
def toShort (x : Int) : Int := Int.bmod x (2 ^ 16)

/-- The cast to the `ushort` that `deadflck` compares. -/
def toUshort (x : Int) : Int := x % 2 ^ 16

/-- The start relative to the beginning of the file, `none` for a bad whence. -/
def absoluteStart (size offset : Int) (lckdat : Eflock) : Option Int :=
  match lckdat.lWhence with
  | .seekCur => some (wrap (lckdat.lStart + offset))
  | .seekEnd => some (wrap (lckdat.lStart + size))
  | .seekSet => some lckdat.lStart
  | .other => none

/-- `convoff`: the start, relative to what `whence` says. -/
def convoff (size offset : Int) (lckdat : Eflock) (whence : Whence) : Except Errno Eflock :=
  match absoluteStart size offset lckdat with
  | none => .error .einval
  | some start =>
    if start < 0 then .error .einval
    else match whence with
      | .seekCur => .ok { lckdat with lStart := wrap (start - offset), lWhence := whence }
      | .seekEnd => .ok { lckdat with lStart := wrap (start - size), lWhence := whence }
      | .seekSet => .ok { lckdat with lStart := start, lWhence := whence }
      | .other => .error .einval

/-- The last byte, from the length. A length of 0 reaches to the end of file. -/
def lastByte (ld : Eflock) : Int :=
  if ld.lEnd = 0 then maxend else wrap (ld.lEnd + (ld.lStart - 1))

/-- First part of `common_reclock`: the length becomes the last byte. -/
def convert (c : Call) : Except Errno Call :=
  match convoff c.size c.offset c.lckdat .seekSet with
  | .error e => .error e
  | .ok ld =>
    if ld.lEnd < 0 then .error .einval
    else if lastByte ld < ld.lStart then .error .einval
    else .ok { c with lckdat := { ld with lEnd := lastByte ld } }

/-- Last part of `common_reclock`: the length and the whence are restored. -/
def restore (c : Call) (whence : Whence) (ld : Eflock) : Eflock :=
  let ld := { ld with lEnd := if ld.lEnd = maxend then 0 else wrap (ld.lEnd - (ld.lStart - 1)) }
  match convoff c.size c.offset ld (if c.cmd.setflck then whence else .seekSet) with
  | .error _ => ld
  | .ok ld => ld

/-- The sleeping entry that `deadflck` finds for an owner. -/
def sleepingEntry (sl : List Filock) (blck : Owner) : Option Filock :=
  sl.find? (fun sf => sf.set.owner == blck && sf.blocked)

/-- The owner recorded in a sleeping entry, as `deadflck` reads it. -/
def blockerOwner (sf : Filock) : Owner := (sf.pid, sf.sysid, toUshort sf.vfs)

/-- The `do` loop of `deadflck`, `none` when the fuel runs out. -/
def deadwalk : Nat → List Filock → Owner → Owner → Option Bool
  | 0, _, _, _ => none
  | n + 1, sl, blck, o =>
    if blck = o then some true
    else match sleepingEntry sl blck with
      | none => some false
      | some sf => deadwalk n sl (blockerOwner sf) o

/-- `deadflck`. -/
def deadflck (n : Nat) (m : Mem) (flp : Filock) (lockdat : Eflock) : Option Bool :=
  deadwalk n m.sleeplcks (flp.set.lPid, flp.set.lSysid, toUshort flp.set.lVfs) lockdat.owner

/-- The entry that a request of the NFS lock daemon repeats. -/
def repeats (lckdat : Eflock) (sf : Filock) : Bool :=
  sf.set.lStart == lckdat.lStart && sf.set.lEnd == lckdat.lEnd && sameOwner sf.set lckdat

/-- `insflck` on the sleep list. -/
def insflckSleep (m : Mem) (lckdat : Eflock) : Option (Mem × Nat) :=
  match (if lckdat.lVfs = mntNfs then m.sleeplcks.find? (repeats lckdat) else none) with
  | some sf => some (m, sf.addr)
  | none =>
    match takeFree m with
    | none => none
    | some (a, m) => some ({ m with sleeplcks := freshFilock a lckdat :: m.sleeplcks }, a)

/-- `delflck` on the sleep list. -/
def delflckSleep (m : Mem) (sf : Nat) : Mem :=
  { m with frlock := sf :: m.frlock, sleeplcks := remove sf m.sleeplcks }

/-- The sleeping entry filled in by `common_reclock`. -/
def setBlocked (sf : Nat) (found : Filock) (retryFcn : Option Nat) (s : Filock) : Filock :=
  if s.addr = sf then
    { s with
      blocked := true
      pid := found.set.lPid
      sysid := found.set.lSysid
      vfs := toShort found.set.lVfs
      filockp := some found.addr
      retryFcn := retryFcn }
  else s

/-- `found->state |= LCK_BLOCKER`. -/
def markBlocker (a : Nat) (f : Filock) : Filock :=
  if f.addr = a then { f with blocker := true } else f

/-- The request goes on the sleep list, blocked by `found`. -/
def enqueue (m : Mem) (l : List Filock) (lckdat : Eflock) (found : Filock)
    (retryFcn : Option Nat) : Option (Mem × List Filock × Nat) :=
  match insflckSleep m lckdat with
  | none => none
  | some (m, sf) =>
    some ({ m with sleeplcks := m.sleeplcks.map (setBlocked sf found retryFcn) },
      l.map (markBlocker found.addr), sf)

/-- `F_UNLCK` from the NFS lock daemon: entries leave the sleep list. -/
def cancelNfs (m : Mem) (lckdat : Eflock) : Mem :=
  if lckdat.lSysid = 2 ^ 32 - 1 then
    (m.sleeplcks.filter (fun sf => sf.set.lVfs = mntNfs)).foldl
      (fun m sf => delflckSleep m sf.addr) m
  else
    match m.sleeplcks.find? (fun sf => sf.set.lVfs = mntNfs ∧ sf.set.lSysid = lckdat.lSysid ∧
        sf.set.lPid = lckdat.lPid ∧ sf.set.lEnd = lckdat.lEnd ∧ sf.set.lStart = lckdat.lStart) with
    | none => m
    | some sf => delflckSleep m sf.addr

/-- What one turn of the `do` loop of `common_reclock` comes to. -/
inductive Turn
  | ret (mem : Mem) (list : List Filock) (lckdat : Eflock) (retval : Option Errno)
  | sleep (mem : Mem) (list : List Filock)
  deriving Repr

/-- A lock request that `found` blocks. -/
def blockedTurn (n : Nat) (m : Mem) (l : List Filock) (c : Call) (whence : Whence)
    (found : Filock) : Option Turn :=
  if c.retryFcn.isSome ∨ c.cmd.slpflck then
    match deadflck n m found c.lckdat with
    | none => none
    | some true => some (.ret m l c.lckdat (some .edeadlk))
    | some false =>
      match enqueue m l c.lckdat found c.retryFcn with
      | none => some (.ret m l c.lckdat (some .enolck))
      | some (m, l, sf) =>
        if c.retryFcn.isSome then some (.ret m l c.lckdat (some .eagain))
        else
          some (.sleep { m with sleepers := ⟨found.addr, sf, c, whence, false⟩ :: m.sleepers } l)
  else if c.cmd.setflck then some (.ret m l c.lckdat (some .eagain))
  else some (.ret m l found.set none)

def adjustTurn (x : Result) : Turn :=
  .ret x.mem x.list x.ld (if x.rc then none else some .enolck)

/-- One turn of the `do` loop of `common_reclock`. -/
def turn (n : Nat) (m : Mem) (l : List Filock) (c : Call) (whence : Whence) : Option Turn :=
  match c.lckdat.lType with
  | .rdlck | .wrlck =>
    match blocked l c.lckdat with
    | (some found, _) => blockedTurn n m l c whence found
    | (none, insrt) =>
      if c.cmd.setflck then some (adjustTurn (flckadj m l insrt c.lckdat))
      else some (.ret m l { c.lckdat with lType := .unlck } none)
  | .unlck =>
    if c.cmd.setflck then
      if c.lckdat.lVfs = mntNfs ∧ c.retryId ≠ 0 then
        some (.ret (cancelNfs m c.lckdat) l c.lckdat none)
      else some (adjustTurn (flckadj m l (l.head?.map Filock.addr) c.lckdat))
    else some (.ret m l c.lckdat none)
  | .invalid => some (.ret m l c.lckdat (some .einval))

/-- The lock table and the lists of all gnodes. -/
structure State where
  mem : Mem
  gnodes : Nat → List Filock

/-- What a thread gets. -/
inductive Reply
  | asleep
  | returned (lckdat : Eflock) (retval : Option Errno)
  deriving DecidableEq, Repr

def serve (n : Nat) (st : State) (c : Call) (whence : Whence) : Option (State × Reply) :=
  match turn n st.mem (st.gnodes c.gp) c whence with
  | none => none
  | some (.ret m l ld rv) =>
    some (⟨m, Function.update st.gnodes c.gp l⟩, .returned (restore c whence ld) rv)
  | some (.sleep m l) => some (⟨m, Function.update st.gnodes c.gp l⟩, .asleep)

/-- `common_reclock`, up to its return or its sleep. -/
def commonReclock (n : Nat) (st : State) (c : Call) : Option (State × Reply) :=
  match convert c with
  | .error e => some (st, .returned c.lckdat (some e))
  | .ok c' => serve n st c' c.lckdat.lWhence

/-- A thread leaves `e_block_thread` and takes its entry off the sleep list. -/
def leave (st : State) (t : Sleeper) : State :=
  let m := delflckSleep st.mem t.sf
  { st with mem := { m with sleepers := m.sleepers.erase t } }

/-- `common_reclock` after a wakeup: another turn of the loop. -/
def resume (n : Nat) (st : State) (t : Sleeper) : Option (State × Reply) :=
  serve n (leave st t) t.call t.whence

/-- `common_reclock` after a signal. -/
def interrupt (st : State) (t : Sleeper) : State × Reply :=
  (leave st t, .returned (restore t.call t.whence t.call.lckdat) (some .eintr))

def nfloxMin : Nat := 200
def nfloxMax : Nat := 200000

/-- `flckinit`. -/
def flckinit : State :=
  ⟨⟨(List.range nfloxMin).reverse, nfloxMin, nfloxMax, [], []⟩, fun _ => []⟩

/-- A thread calls `common_reclock`, or goes on in it after a sleep. -/
inductive Action
  | reclock (c : Call)
  | resume (t : Sleeper)
  | interrupt (t : Sleeper)
  deriving DecidableEq, Repr

/-- One action of one thread. A sleeping thread goes on when it is awake. -/
def step (n : Nat) (st : State) : Action → Option (State × Reply)
  | .reclock c => commonReclock n st c
  | .resume t => if t ∈ st.mem.sleepers ∧ t.awake then resume n st t else none
  | .interrupt t => if t ∈ st.mem.sleepers then some (interrupt st t) else none

/-- `step`, when `deadflck` comes to an end. -/
def Step (st : State) (a : Action) (st' : State) (r : Reply) : Prop :=
  ∃ n, step n st a = some (st', r)

end Aix413.Lockctl.Reclock
