import Mathlib.Data.List.Basic
import Mathlib.Data.List.Nodup
import Mathlib.Data.List.Perm.Basic
import Mathlib.Tactic

namespace Aix413.Lockctl.LockTable

inductive LockType
  | rdlck
  | wrlck
  | unlck
  | invalid
  deriving DecidableEq, Repr

inductive Whence
  | seekSet
  | seekCur
  | seekEnd
  | other
  deriving DecidableEq, Repr

/-- `struct eflock`. The source's macro makes `l_end` another name for
`l_len`; once a range is converted the field holds the last byte. -/
structure Eflock where
  lType : LockType
  lWhence : Whence
  lSysid : Nat
  lPid : Int
  lVfs : Int
  lStart : Int
  lEnd : Int
  deriving DecidableEq, Repr

/-- `struct filock`, with its address in the table. The list links are the
order of the Lean list that holds the entry. -/
structure Filock where
  addr : Nat
  set : Eflock
  blocker : Bool
  blocked : Bool
  wasblock : Bool
  vfs : Int
  sysid : Nat
  pid : Int
  filockp : Option Nat
  retryFcn : Option Nat
  deriving DecidableEq, Repr

/-- The bits of `cmd`. -/
structure Cmd where
  inoflck : Bool
  setflck : Bool
  slpflck : Bool
  deriving DecidableEq, Repr

/-- The arguments of `common_reclock`, with the gnode by its number. -/
structure Call where
  gp : Nat
  size : Int
  offset : Int
  lckdat : Eflock
  cmd : Cmd
  retryFcn : Option Nat
  retryId : Nat
  deriving DecidableEq, Repr

/-- A thread inside `e_block_thread`: the event it waits on, its entry on the
sleep list, and the call it will go on with, the range converted. -/
structure Sleeper where
  event : Nat
  sf : Nat
  call : Call
  whence : Whence
  awake : Bool
  deriving DecidableEq, Repr

/-- What all gnodes share: the free list, the size of the table and its limit
`nflox_max`, the sleep list, and the threads asleep. -/
structure Mem where
  frlock : List Nat
  vLock : Nat
  nfloxMax : Nat
  sleeplcks : List Filock
  sleepers : List Sleeper
  deriving Repr

abbrev Owner := Int × Nat × Int

def Eflock.owner (e : Eflock) : Owner := (e.lPid, e.lSysid, e.lVfs)

def sameOwner (a b : Eflock) : Bool :=
  a.lPid == b.lPid && a.lSysid == b.lSysid && a.lVfs == b.lVfs

@[simp] theorem sameOwner_iff (a b : Eflock) : sameOwner a b = true ↔ a.owner = b.owner := by
  simp [sameOwner, Eflock.owner, and_assoc]

def addrs (l : List Filock) : List Nat := l.map Filock.addr

@[simp] theorem addrs_nil : addrs [] = [] := rfl

@[simp] theorem addrs_cons (f : Filock) (l : List Filock) : addrs (f :: l) = f.addr :: addrs l := rfl

@[simp] theorem addrs_append (l r : List Filock) : addrs (l ++ r) = addrs l ++ addrs r :=
  List.map_append

theorem mem_addrs {l : List Filock} {f : Filock} (h : f ∈ l) : f.addr ∈ addrs l :=
  List.mem_map_of_mem h

theorem eq_of_addr_eq {l : List Filock} (hl : (addrs l).Nodup) {f g : Filock} (hf : f ∈ l)
    (hg : g ∈ l) (h : f.addr = g.addr) : f = g :=
  List.inj_on_of_nodup_map hl hf hg h

/-- Entries of one page of the table (`PAGESIZE/sizeof(struct filock)`). -/
def filocksPerPage : Nat := 64

/-- `flock_grow`: the entries up to the new size go on the free list, the
last of them first. -/
def flockGrow (m : Mem) : Mem :=
  let i := min m.nfloxMax (m.vLock + filocksPerPage)
  { m with frlock := (List.range' m.vLock (i - m.vLock)).reverse ++ m.frlock, vLock := i }

/-- Entry `new` initialised by `insflck`: only `set`, `state` and `event` are
assigned, and the rest is what the caller fills in. -/
def freshFilock (a : Nat) (lckdat : Eflock) : Filock :=
  ⟨a, lckdat, false, false, false, 0, 0, 0, none, none⟩

@[simp] theorem freshFilock_addr (a : Nat) (e : Eflock) : (freshFilock a e).addr = a := rfl

@[simp] theorem freshFilock_set (a : Nat) (e : Eflock) : (freshFilock a e).set = e := rfl

/-- Link `new` after the entry at address `fl`, at the head when `fl` is null. -/
def insAfter (new : Filock) : Option Nat → List Filock → List Filock
  | none, l => new :: l
  | some _, [] => []
  | some a, f :: l => if f.addr = a then f :: new :: l else f :: insAfter new (some a) l

/-- Take an entry from the free list, growing the table when it is empty. -/
def takeFree (m : Mem) : Option (Nat × Mem) :=
  let m := if m.frlock = [] then flockGrow m else m
  match m.frlock with
  | [] => none
  | a :: rest => some (a, { m with frlock := rest })

/-- `insflck` on a gnode's list: insert `lckdat` after `fl`, `none` when no
entry is left. -/
def insflck (m : Mem) (l : List Filock) (lckdat : Eflock) (fl : Option Nat) :
    Option (Mem × List Filock) :=
  match takeFree m with
  | none => none
  | some (a, m) => some (m, insAfter (freshFilock a lckdat) fl l)

def remove (a : Nat) (l : List Filock) : List Filock := l.filter (fun f => f.addr != a)

/-- `delflck` on a gnode's list: the entry goes to the front of the free list. -/
def delflck (m : Mem) (fl : Nat) : Mem := { m with frlock := fl :: m.frlock }

/-- One entry of the sleep list as `lock_wakeup` leaves it. An entry with a
retry function is deleted instead. -/
def release (lp : Nat) (slp : Filock) : Filock :=
  if slp.filockp = some lp then { slp with blocked := false } else slp

/-- `e_wakeupx(&lp->event)`. -/
def wakeEvent (lp : Nat) (t : Sleeper) : Sleeper :=
  if t.event = lp then { t with awake := true } else t

/-- The body of `lock_wakeup` for a lock marked `LCK_BLOCKER`: every sleeping
entry that names it stops being blocked, the entries of retry functions are
freed, and the threads waiting on the lock's event are woken. -/
def wakeAll (m : Mem) (lp : Nat) : Mem :=
  let gone := m.sleeplcks.filter (fun s => s.filockp = some lp ∧ s.retryFcn.isSome)
  { m with
    frlock := (addrs gone).reverse ++ m.frlock
    sleeplcks := (m.sleeplcks.filter
      (fun s => ¬ (s.filockp = some lp ∧ s.retryFcn.isSome))).map (release lp)
    sleepers := m.sleepers.map (wakeEvent lp) }

/-- `lock_wakeup(lp)`. -/
def lockWakeup (m : Mem) (lp : Filock) : Mem := if lp.blocker then wakeAll m lp.addr else m

/-- `state` of a lock after `lock_wakeup`: `LCK_BLOCKER` is cleared when some
sleeping entry named the lock. -/
def wokenLock (m : Mem) (lp : Filock) : Filock :=
  if lp.blocker ∧ m.sleeplcks.any (fun s => s.filockp == some lp.addr) then
    { lp with blocker := false, wasblock := true }
  else lp

@[simp] theorem wokenLock_addr (m : Mem) (lp : Filock) : (wokenLock m lp).addr = lp.addr := by
  unfold wokenLock; split <;> rfl

@[simp] theorem wokenLock_set (m : Mem) (lp : Filock) : (wokenLock m lp).set = lp.set := by
  unfold wokenLock; split <;> rfl

end Aix413.Lockctl.LockTable
