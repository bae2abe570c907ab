import Mathlib.Data.List.Sort
import Aix413.Rename.FileSystem

namespace Aix413.Rename.Steps

open FileSystem

/-- The arguments of `jfs_rename`, as they are after the lookups made so far. -/
structure Args where
  spip : Ino
  sip : Ino
  dpip : Ino
  dip : Option Ino
  sname : Name
  dname : Name

/-- The errors that permissions and a full file system may cause, each at the
place where the code finds it. -/
structure Refusals where
  lookupSource : Option Nat
  lookupDest : Option Nat
  accessSource : Option Nat
  accessDest : Option Nat
  deleteSource : Option Nat
  walk : Option Nat
  deleteDest : Option Nat
  makentry : Option Nat

/-- The inodes that `iwritelocklist` locks, in its order. -/
def lockList (a : Args) : List Ino :=
  let l :=
    if a.spip = a.dpip then a.spip :: a.sip :: a.dip.toList
    else a.spip :: a.dpip :: a.sip :: a.dip.toList
  l.insertionSort (· ≥ ·)

/-- Where a rename stands. `walking` and `wantAncestor` are `incest` with the
mount inode locked: at a locked inode, and before the lock of the next one. -/
inductive Pc
  | start
  | locking (todo : List Ino)
  | locked
  | wantMount
  | walking (ip : Ino)
  | wantAncestor (ino : Ino)
  | acting
  | done (rc : Option Errno)
  | panic
  deriving DecidableEq, Repr

structure Proc where
  args : Args
  pc : Pc

/-- The file system, the owners of the inode locks and of the lock of the mount
inode, and the renames. -/
structure State (ι : Type) where
  fs : Fs
  lockOf : Ino → Option ι
  mount : Option ι
  procs : ι → Proc

/-- What the two lookups and the checks under the locks lead to. -/
inductive Verdict
  | fail (e : Errno)
  | sourceMoved (ino : Ino)
  | destMoved (ino : Ino)
  | pass (dip : Option Ino)

def firstError : List (Option Nat) → Option Nat
  | [] => none
  | some e :: _ => some e
  | none :: es => firstError es

/-- `level_set`: the destination to go on with, or the error. -/
def levelSet (r : Refusals) (fs : Fs) (a : Args) (dip : Option Ino) : Except Errno (Option Ino) :=
  let dp := dip.filter fun d => 1 ≤ fs.nlink d
  if dp.any fun d => fs.isDir a.sip && !fs.isDir d then .error .enotdir
  else if dp.any fun d => !fs.isDir a.sip && fs.isDir d then .error .eisdir
  else if fs.nlink a.sip < 1 then .error .einval
  else if dp = none ∧ a.spip ≠ a.dpip ∧ fs.isDir a.dpip = false then
    .error (if fs.isDir a.sip then .enotdir else .eisdir)
  else
    match firstError [r.accessSource, if a.spip = a.dpip then none else r.accessDest,
      r.deleteSource] with
    | some e => .error (.other e)
    | none => .ok dp

/-- The tests on the source directory before `incest`. -/
def sourceCheck (fs : Fs) (a : Args) : Option Errno :=
  match dirValid fs a.sip a.spip false with
  | .error e => some e
  | .ok dots =>
    if dots.dotdot ≠ some true then some .einval
    else if linkMax ≤ fs.nlink a.dpip then some .emlink
    else none

/-- `..` of the source will have to change. -/
def moves (fs : Fs) (a : Args) : Bool := fs.isDir a.sip ∧ a.spip ≠ a.dpip

def checks (r : Refusals) (fs : Fs) (a : Args) : Verdict :=
  match dirLookup r.lookupSource fs a.spip a.sname with
  | .error e => .fail e
  | .ok ino =>
    if ino ≠ a.sip then .sourceMoved ino
    else
      let level (dip : Option Ino) : Verdict :=
        match levelSet r fs a dip with
        | .error e => .fail e
        | .ok dp =>
          if moves fs a then
            match sourceCheck fs a with
            | some e => .fail e
            | none => .pass dp
          else .pass dp
      match dirLookup r.lookupDest fs a.dpip a.dname with
      | .error .enoent => level none
      | .error e => .fail e
      | .ok ino => if a.dip = some ino then level a.dip else .destMoved ino

/-- The destination, if there is one, is checked and removed from its parent. -/
def removeDest (r : Refusals) (fs : Fs) (a : Args) : Except Errno Fs :=
  match a.dip with
  | none => .ok fs
  | some dip =>
    let delete (dotdotExists : Bool) : Except Errno Fs :=
      if linkMax ≤ fs.nlink a.sip then .error .emlink
      else
        match r.deleteDest with
        | some e => .error (.other e)
        | none =>
          match dirDelete fs a.dpip a.dname dip with
          | .error e => .error e
          | .ok fs =>
            if fs.isDir a.sip then
              let fs := fs.clearLinks dip
              .ok (if dotdotExists then fs.addLink a.dpip (-1) else fs)
            else .ok fs
    if fs.isDir a.sip then
      match dirValid fs dip a.dpip true with
      | .error e => .error e
      | .ok dots =>
        if dots.dot = some false ∨ dots.dotdot = some false then .error .einval
        else delete dots.dotdot.isSome
    else delete false

/-- The part of `jfs_rename` from the removal of the destination on. All the
inodes it reads and writes are locked. -/
def act (r : Refusals) (fs : Fs) (a : Args) : Fs × Pc :=
  match removeDest r fs a with
  | .error e => (fs, .done (some e))
  | .ok fs =>
    match dirLink r.makentry fs a.dpip a.dname a.sip with
    | .error e => (fs, .done (some e))
    | .ok fs =>
      match dirDelete fs a.spip a.sname a.sip with
      | .error _ => (fs, .panic)
      | .ok fs =>
        if moves fs a then
          match dirFixparent fs a.sip a.spip a.dpip with
          | .error _ => (fs, .panic)
          | .ok fs => (fs, .done none)
        else (fs, .done none)

variable {ι : Type}

namespace State

def lock (s : State ι) (p : ι) (i : Ino) : State ι :=
  { s with lockOf := Function.update s.lockOf i (some p) }

def unlock (s : State ι) (l : List Ino) : State ι :=
  { s with lockOf := fun i => if i ∈ l then none else s.lockOf i }

def unmount (s : State ι) : State ι := { s with mount := none }

section Fields

variable (s : State ι) (p : ι) (i : Ino) (l : List Ino)

@[simp] theorem procs_lock : (s.lock p i).procs = s.procs := rfl
@[simp] theorem procs_unlock : (s.unlock l).procs = s.procs := rfl
@[simp] theorem procs_unmount : s.unmount.procs = s.procs := rfl
@[simp] theorem lockOf_unmount : s.unmount.lockOf = s.lockOf := rfl
@[simp] theorem mount_lock : (s.lock p i).mount = s.mount := rfl
@[simp] theorem mount_unlock : (s.unlock l).mount = s.mount := rfl
@[simp] theorem mount_unmount : s.unmount.mount = none := rfl
@[simp] theorem fs_lock : (s.lock p i).fs = s.fs := rfl
@[simp] theorem fs_unlock : (s.unlock l).fs = s.fs := rfl
@[simp] theorem fs_unmount : s.unmount.fs = s.fs := rfl

end Fields

variable [DecidableEq ι]

def setProc (s : State ι) (p : ι) (x : Proc) : State ι :=
  { s with procs := Function.update s.procs p x }

def goto (s : State ι) (p : ι) (pc : Pc) : State ι := s.setProc p { s.procs p with pc := pc }

@[simp] theorem procs_setProc (s : State ι) (p : ι) (x : Proc) :
    (s.setProc p x).procs = Function.update s.procs p x := rfl
@[simp] theorem lockOf_setProc (s : State ι) (p : ι) (x : Proc) :
    (s.setProc p x).lockOf = s.lockOf := rfl
@[simp] theorem mount_setProc (s : State ι) (p : ι) (x : Proc) :
    (s.setProc p x).mount = s.mount := rfl
@[simp] theorem fs_setProc (s : State ι) (p : ι) (x : Proc) : (s.setProc p x).fs = s.fs := rfl

end State

/-- The inode that the walk has locked, unless it is the destination parent. -/
def walked (a : Args) (ip : Ino) : List Ino := if ip = a.dpip then [] else [ip]

variable [DecidableEq ι]

/-- One step of rename `p`: from one lock request, or the start, to the next
point where it has to wait for a lock or ends. `none` when it waits or has
ended. -/
def step (r : Refusals) (p : ι) (s : State ι) : Option (State ι) :=
  let a := (s.procs p).args
  match (s.procs p).pc with
  | .start =>
    if isDots a.dname ∨ isDots a.sname then some (s.goto p (.done (some .einval)))
    else if a.dip = some a.sip then some (s.goto p (.done none))
    else if a.sip = a.dpip then some (s.goto p (.done (some .einval)))
    else if a.dip = some a.spip then some (s.goto p (.done (some .eexist)))
    else some (s.goto p (.locking (lockList a)))
  | .locking [] => some (s.goto p .locked)
  | .locking (i :: todo) =>
    match s.lockOf i with
    | none => some ((s.lock p i).goto p (.locking todo))
    | some _ => none
  | .locked =>
    match checks r s.fs a with
    | .fail e => some ((s.unlock (lockList a)).goto p (.done (some e)))
    | .sourceMoved ino =>
      some ((s.unlock (lockList a)).setProc p ⟨{ a with sip := ino }, .start⟩)
    | .destMoved ino =>
      some ((s.unlock (lockList a)).setProc p ⟨{ a with dip := some ino }, .start⟩)
    | .pass dip =>
      let pc := if moves s.fs a ∧ a.dpip ≠ rootIno then Pc.wantMount else Pc.acting
      let s := if dip = none then s.unlock a.dip.toList else s
      some (s.setProc p ⟨{ a with dip := dip }, pc⟩)
  | .wantMount =>
    match s.mount with
    | none => some ({ s with mount := some p }.goto p (.walking a.dpip))
    | some _ => none
  | .walking ip =>
    match dirLookup r.walk s.fs ip dotdot with
    | .error e =>
      some ((s.unmount.unlock (walked a ip ++ lockList a)).goto p (.done (some e)))
    | .ok ino =>
      if ino = rootIno ∨ ino = a.spip then
        some ((s.unmount.unlock (walked a ip)).goto p .acting)
      else if ino = a.sip then
        some ((s.unmount.unlock (walked a ip ++ lockList a)).goto p (.done (some .einval)))
      else some ((s.unlock (walked a ip)).goto p (.wantAncestor ino))
  | .wantAncestor ino =>
    match s.lockOf ino with
    | none => some ((s.lock p ino).goto p (.walking ino))
    | some _ => none
  | .acting =>
    let (fs, pc) := act r s.fs a
    some ({ s with fs := fs }.unlock (lockList a) |>.goto p pc)
  | .done _ => none
  | .panic => none

theorem levelSet_ok {r : Refusals} {fs : Fs} {a : Args} {dip dp : Option Ino}
    (h : levelSet r fs a dip = .ok dp) :
    dp = dip.filter (fun d => 1 ≤ fs.nlink d) ∧ 1 ≤ fs.nlink a.sip ∧
      ∀ d, dp = some d → fs.isDir d = fs.isDir a.sip := by
  unfold levelSet at h
  simp only at h
  split at h
  next => cases h
  next h1 =>
    split at h
    next => cases h
    next h2 =>
      split at h
      next => cases h
      next h3 =>
        split at h
        next => cases h
        next =>
          split at h
          next => cases h
          next =>
            cases h
            refine ⟨rfl, by omega, ?_⟩
            intro d hd
            rw [hd] at h1 h2
            cases hs : fs.isDir a.sip <;> cases hdd : fs.isDir d <;> simp_all

theorem dirLookup_ok {acc : Option Nat} {fs : Fs} {d ino : Ino} {nm : Name}
    (h : dirLookup acc fs d nm = .ok ino) : fs.searchable d ∧ fs.lookup d nm = some ino := by
  unfold dirLookup dirSearch at h
  cases acc with
  | some e => cases h
  | none =>
    simp only at h
    split at h
    next hs =>
      split at h
      next i hi =>
        cases h
        exact ⟨hs, hi⟩
      next => cases h
    next => cases h

/-- What a rename has found out when it goes on to `incest` or to act. -/
theorem checks_pass {r : Refusals} {fs : Fs} {a : Args} {dip : Option Ino}
    (h : checks r fs a = .pass dip) :
    fs.searchable a.spip ∧ fs.lookup a.spip a.sname = some a.sip ∧
    fs.searchable a.dpip ∧
    ((fs.lookup a.dpip a.dname = none ∧ dip = none) ∨
      (fs.lookup a.dpip a.dname = a.dip ∧ dip = a.dip.filter fun d => 1 ≤ fs.nlink d)) ∧
    1 ≤ fs.nlink a.sip ∧ (∀ d, dip = some d → fs.isDir d = fs.isDir a.sip) ∧
    (moves fs a = true → fs.lookup a.sip dotdot = some a.spip ∧ fs.nlink a.dpip < linkMax) := by
  have hnone : ∀ {acc : Option Nat} {d : Ino} {nm : Name},
      dirLookup acc fs d nm = .error .enoent → fs.searchable d ∧ fs.lookup d nm = none := by
    intro acc d nm hl
    unfold dirLookup dirSearch at hl
    cases acc with
    | some e => cases hl
    | none =>
      simp only at hl
      split at hl
      next hs =>
        split at hl
        next => cases hl
        next hi => exact ⟨hs, hi⟩
      next => cases hl
  have hsource : sourceCheck fs a = none →
      fs.lookup a.sip dotdot = some a.spip ∧ fs.nlink a.dpip < linkMax := by
    intro hc
    unfold sourceCheck dirValid at hc
    split at hc
    next => cases hc
    next dots hd =>
      split at hd
      next =>
        simp at hd
        subst hd
        split at hc
        next => cases hc
        next hdd =>
          split at hc
          next => cases hc
          next hlt =>
            simp at hdd
            exact ⟨hdd, by omega⟩
      next => cases hd
  unfold checks at h
  split at h
  next => cases h
  next ino hl1 =>
    obtain ⟨hs1, hs2⟩ := dirLookup_ok hl1
    split at h
    next => cases h
    next hino =>
      have hlevel : ∀ {o : Option Ino}, (match levelSet r fs a o with
          | .error e => Verdict.fail e
          | .ok dp =>
            if moves fs a then
              match sourceCheck fs a with
              | some e => .fail e
              | none => .pass dp
            else .pass dp) = .pass dip →
          dip = o.filter (fun d => 1 ≤ fs.nlink d) ∧ 1 ≤ fs.nlink a.sip ∧
          (∀ d, dip = some d → fs.isDir d = fs.isDir a.sip) ∧
          (moves fs a = true → fs.lookup a.sip dotdot = some a.spip ∧ fs.nlink a.dpip < linkMax) := by
        intro o ho
        split at ho
        next => cases ho
        next dp hdp =>
          obtain ⟨h1, h2, h3⟩ := levelSet_ok hdp
          split at ho
          next hm =>
            split at ho
            next => cases ho
            next hsc =>
              cases ho
              exact ⟨h1, h2, h3, fun _ => hsource hsc⟩
          next hm =>
            cases ho
            exact ⟨h1, h2, h3, fun hm' => absurd hm' hm⟩
      have hino : ino = a.sip := by simpa using hino
      subst hino
      simp only at h
      split at h
      next hl2 =>
        obtain ⟨hd1, hd2⟩ := hnone hl2
        obtain ⟨h1, h2, h3, h4⟩ := hlevel h
        exact ⟨hs1, hs2, hd1, .inl ⟨hd2, h1⟩, h2, h3, h4⟩
      next => cases h
      next ino hl2 =>
        obtain ⟨hd1, hd2⟩ := dirLookup_ok hl2
        split at h
        next hdip =>
          obtain ⟨h1, h2, h3, h4⟩ := hlevel h
          exact ⟨hs1, hs2, hd1, .inr ⟨hd2.trans hdip.symm, h1⟩, h2, h3, h4⟩
        next => cases h

/-- The steps of rename `p`, one constructor for each way on. -/
inductive Turn (r : Refusals) (p : ι) (s : State ι) : State ι → Prop
  | ends (rc : Option Errno) (hpc : (s.procs p).pc = .start) : Turn r p s (s.goto p (.done rc))
  | begins (hpc : (s.procs p).pc = .start)
      (hd : isDots (s.procs p).args.dname = false) (hs : isDots (s.procs p).args.sname = false)
      (hds : (s.procs p).args.dip ≠ some (s.procs p).args.sip)
      (hsd : (s.procs p).args.sip ≠ (s.procs p).args.dpip)
      (hdp : (s.procs p).args.dip ≠ some (s.procs p).args.spip) :
      Turn r p s (s.goto p (.locking (lockList (s.procs p).args)))
  | gotAll (hpc : (s.procs p).pc = .locking []) : Turn r p s (s.goto p .locked)
  | gets (i : Ino) (todo : List Ino) (hpc : (s.procs p).pc = .locking (i :: todo))
      (hfree : s.lockOf i = none) : Turn r p s ((s.lock p i).goto p (.locking todo))
  | fails (e : Errno) (hpc : (s.procs p).pc = .locked) :
      Turn r p s ((s.unlock (lockList (s.procs p).args)).goto p (.done (some e)))
  | moved (a : Args) (hpc : (s.procs p).pc = .locked) (hn : a.dname = (s.procs p).args.dname)
      (hs : a.sname = (s.procs p).args.sname) :
      Turn r p s ((s.unlock (lockList (s.procs p).args)).setProc p ⟨a, .start⟩)
  | passes (dip : Option Ino) (hpc : (s.procs p).pc = .locked)
      (hv : checks r s.fs (s.procs p).args = .pass dip) :
      Turn r p s ((if dip = none then s.unlock (s.procs p).args.dip.toList else s).setProc p
        ⟨{ (s.procs p).args with dip := dip },
          if moves s.fs (s.procs p).args ∧ (s.procs p).args.dpip ≠ rootIno then .wantMount
          else .acting⟩)
  | mounts (hpc : (s.procs p).pc = .wantMount) (hfree : s.mount = none) :
      Turn r p s ({ s with mount := some p }.goto p (.walking (s.procs p).args.dpip))
  | walkFails (ip : Ino) (e : Errno) (hpc : (s.procs p).pc = .walking ip) :
      Turn r p s ((s.unmount.unlock (walked (s.procs p).args ip ++ lockList (s.procs p).args)).goto
        p (.done (some e)))
  | walkEnds (ip ino : Ino) (hpc : (s.procs p).pc = .walking ip)
      (hl : dirLookup r.walk s.fs ip dotdot = .ok ino)
      (he : ino = rootIno ∨ ino = (s.procs p).args.spip) :
      Turn r p s ((s.unmount.unlock (walked (s.procs p).args ip)).goto p .acting)
  | climbs (ip ino : Ino) (hpc : (s.procs p).pc = .walking ip)
      (hl : dirLookup r.walk s.fs ip dotdot = .ok ino) (hr : ino ≠ rootIno)
      (hp : ino ≠ (s.procs p).args.spip) (hs : ino ≠ (s.procs p).args.sip) :
      Turn r p s ((s.unlock (walked (s.procs p).args ip)).goto p (.wantAncestor ino))
  | getsAncestor (ino : Ino) (hpc : (s.procs p).pc = .wantAncestor ino)
      (hfree : s.lockOf ino = none) : Turn r p s ((s.lock p ino).goto p (.walking ino))
  | acts (hpc : (s.procs p).pc = .acting) :
      Turn r p s (({ s with fs := (act r s.fs (s.procs p).args).1 }.unlock
        (lockList (s.procs p).args)).goto p (act r s.fs (s.procs p).args).2)

theorem turn_of_step {r : Refusals} {p : ι} {s s' : State ι} (h : step r p s = some s') :
    Turn r p s s' := by
  unfold step at h
  simp only at h
  split at h
  case h_1 hpc =>
    split at h
    · cases h
      exact .ends _ hpc
    · split at h
      · cases h
        exact .ends _ hpc
      · split at h
        · cases h
          exact .ends _ hpc
        · split at h
          · cases h
            exact .ends _ hpc
          · cases h
            apply Turn.begins hpc <;> simp_all
  case h_2 hpc =>
    cases h
    exact .gotAll hpc
  case h_3 i todo hpc =>
    split at h
    next hfree =>
      cases h
      exact .gets i todo hpc hfree
    next => cases h
  case h_4 hpc =>
    split at h
    next e hv =>
      cases h
      exact .fails e hpc
    next ino hv =>
      cases h
      exact .moved _ hpc rfl rfl
    next ino hv =>
      cases h
      exact .moved _ hpc rfl rfl
    next dip hv =>
      cases h
      exact .passes dip hpc hv
  case h_5 hpc =>
    split at h
    next hfree =>
      cases h
      exact .mounts hpc hfree
    next => cases h
  case h_6 ip hpc =>
    split at h
    next e hl =>
      cases h
      exact .walkFails ip e hpc
    next ino hl =>
      split at h
      next he =>
        cases h
        exact .walkEnds ip ino hpc hl he
      next he =>
        push Not at he
        split at h
        next hs =>
          cases h
          exact .walkFails ip _ hpc
        next hs =>
          cases h
          exact .climbs ip ino hpc hl he.1 he.2 hs
  case h_7 ino hpc =>
    split at h
    next hfree =>
      cases h
      exact .getsAncestor ino hpc hfree
    next => cases h
  case h_8 hpc =>
    cases h
    exact .acts hpc
  case h_9 => cases h
  case h_10 => cases h

/-- The states of a run: some rename at a time takes a step. -/
inductive Reachable (s₀ : State ι) : State ι → Prop
  | init : Reachable s₀ s₀
  | step {s s' : State ι} (r : Refusals) (p : ι) (h : Reachable s₀ s) (hs : step r p s = some s') :
    Reachable s₀ s'

/-- No rename has begun. -/
def Fresh (s : State ι) : Prop :=
  (∀ i, s.lockOf i = none) ∧ s.mount = none ∧ ∀ p, (s.procs p).pc = .start

end Aix413.Rename.Steps
