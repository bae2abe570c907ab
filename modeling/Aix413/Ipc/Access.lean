import Mathlib.Data.Int.Basic

namespace Aix413.Ipc.Access

inductive Errno
  | eperm
  | enoent
  | eintr
  | e2big
  | eacces
  | efault
  | eexist
  | einval
  | efbig
  | enospc
  | erange
  | enomem
  | eagain
  | enomsg
  | eidrm
  deriving DecidableEq, Repr

structure IpcPerm where
  uid : Nat
  gid : Nat
  cuid : Nat
  cgid : Nat
  mode : BitVec 32
  seq : UInt16
  key : Int

def IPC_ALLOC : BitVec 32 := 0o100000#32
def IPC_R : BitVec 32 := 0o400#32
def IPC_W : BitVec 32 := 0o200#32

def IPC_CREAT : BitVec 32 := 0o1000#32
def IPC_EXCL : BitVec 32 := 0o2000#32
def IPC_NOWAIT : BitVec 32 := 0o4000#32

/-- `if(flags & bits)` -/
def isSet (flags bits : BitVec 32) : Bool := flags &&& bits ≠ 0

inductive Priv
  | bypassDacRead
  | bypassDacWrite
  | setObjDac
  | setObjStat
  deriving DecidableEq, Repr

/-- The process that makes a call, with its credentials, and the clock. -/
structure Cred where
  pid : Nat
  uid : Nat
  gid : Nat
  member : Nat → Bool
  priv : Priv → Bool
  time : Nat

/-- `ipcaccess`, with whether it lets the process pass. -/
def ipcaccess (env : Cred) (p : IpcPerm) (mode : BitVec 32) : Bool :=
  if env.priv (if mode = IPC_R then .bypassDacRead else .bypassDacWrite) then true
  else if env.uid = p.uid ∨ env.uid = p.cuid then isSet mode p.mode
  else if env.member p.gid ∨ env.member p.cgid then isSet (mode >>> 3) p.mode
  else isSet (mode >>> 6) p.mode

/-- The test of the commands that change an entry. -/
def owns (env : Cred) (perm : IpcPerm) (p : Priv) : Bool :=
  env.uid = perm.uid ∨ env.uid = perm.cuid ∨ env.priv p

/-- `ipcget`: the entry by its index, and whether it is a new one. -/
def ipcget (base : Nat → IpcPerm) (mark cnt : Nat) (key : Int) (flag : BitVec 32) :
    Except Errno (Nat × Bool) :=
  let used := fun i => isSet (base i).mode IPC_ALLOC
  let fresh :=
    match (List.range mark).find? (fun i => !used i) with
    | some i => .ok (i, true)
    | none => if mark < cnt then .ok (mark, true) else .error .enospc
  if key = 0 then fresh
  else
    match (List.range mark).find? (fun i => used i && (base i).key = key) with
    | some i =>
      if isSet flag IPC_CREAT ∧ isSet flag IPC_EXCL then .error .eexist
      else if isSet (flag &&& 0o777#32) (~~~(base i).mode) then .error .eacces
      else .ok (i, false)
    | none => if isSet flag IPC_CREAT then fresh else .error .enoent

/-- The permissions of a new entry. -/
def newPerm (env : Cred) (key : Int) (flag : BitVec 32) (perm : IpcPerm) : IpcPerm :=
  { uid := env.uid
    gid := env.gid
    cuid := env.uid
    cgid := env.gid
    mode := IPC_ALLOC ||| (flag &&& 0o777#32)
    seq := perm.seq
    key := key }

theorem isSet_clear {m bits b : BitVec 32} (h : ~~~bits &&& b = b) :
    isSet (m &&& ~~~bits) b = isSet m b := by
  unfold isSet
  rw [BitVec.and_assoc, h]

theorem isSet_or {m bits b : BitVec 32} (h : bits &&& b = 0#32) :
    isSet (m ||| bits) b = isSet m b := by
  unfold isSet
  have hor : (m ||| bits) &&& b = m &&& b := by
    rw [BitVec.and_comm, BitVec.and_or_distrib_left, BitVec.and_comm b bits, h, BitVec.or_zero,
      BitVec.and_comm]
  rw [hor]

theorem isSet_or_self {bits : BitVec 32} (h : bits ≠ 0) (m : BitVec 32) :
    isSet (m ||| bits) bits = true := by
  unfold isSet
  have hand : (m ||| bits) &&& bits = bits := by
    ext i hi
    simp only [BitVec.getElem_and, BitVec.getElem_or]
    cases m[i] <;> cases bits[i] <;> rfl
  rw [hand]
  exact decide_eq_true h

/-- A new entry is one that was not in use. -/
theorem ipcget_new {base : Nat → IpcPerm} {mark cnt k : Nat} {key : Int} {flag : BitVec 32}
    (hm : ∀ k, isSet (base k).mode IPC_ALLOC → k < mark)
    (h : ipcget base mark cnt key flag = .ok (k, true)) :
    isSet (base k).mode IPC_ALLOC = false := by
  have hfresh : ∀ {i : Nat}, (match (List.range mark).find?
      (fun i => !isSet (base i).mode IPC_ALLOC) with
      | some i => Except.ok (i, true)
      | none => if mark < cnt then .ok (mark, true) else .error Errno.enospc)
        = .ok (i, true) → isSet (base i).mode IPC_ALLOC = false := by
    intro i hi
    split at hi
    next j hj =>
      cases hi
      simpa using List.find?_some hj
    next =>
      split at hi
      next =>
        cases hi
        by_contra hf
        exact absurd (hm _ (by simpa using hf)) (Nat.lt_irrefl _)
      next => cases hi
  unfold ipcget at h
  simp only at h
  split at h
  next => exact hfresh h
  next =>
    split at h
    next =>
      split at h
      next => cases h
      next => split at h <;> cases h
    next =>
      split at h
      next => exact hfresh h
      next => cases h

theorem ipcget_lt {base : Nat → IpcPerm} {mark cnt k : Nat} {key : Int} {flag : BitVec 32}
    {new : Bool} (hm : mark ≤ cnt) (h : ipcget base mark cnt key flag = .ok (k, new)) :
    k < cnt := by
  have hrange : ∀ {p : Nat → Bool} {i : Nat}, (List.range mark).find? p = some i → i < cnt :=
    fun hi => lt_of_lt_of_le (List.mem_range.mp (List.mem_of_find?_eq_some hi)) hm
  have hfresh : ∀ {i : Nat} {b : Bool}, (match (List.range mark).find?
      (fun i => !isSet (base i).mode IPC_ALLOC) with
      | some i => Except.ok (i, true)
      | none => if mark < cnt then .ok (mark, true) else .error Errno.enospc)
        = .ok (i, b) → i < cnt := by
    intro i b hi
    split at hi
    next j hj =>
      cases hi
      exact hrange hj
    next =>
      split at hi
      next hlt =>
        cases hi
        exact hlt
      next => cases hi
  unfold ipcget at h
  simp only at h
  split at h
  next => exact hfresh h
  next =>
    split at h
    next i hi =>
      split at h
      next => cases h
      next =>
        split at h
        next => cases h
        next =>
          cases h
          exact hrange hi
    next =>
      split at h
      next => exact hfresh h
      next => cases h

end Aix413.Ipc.Access
