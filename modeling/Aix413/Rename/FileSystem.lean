import Mathlib.Data.List.AList
import Mathlib.Logic.Function.Basic

namespace Aix413.Rename.FileSystem

abbrev Ino := Nat
abbrev Name := List Char

/-- `ROOTINO` of fsparam.h and `ROOTDIR_I` of filsys.h. -/
def rootIno : Ino := 2

def linkMax : Int := 32767

def dot : Name := ['.']
def dotdot : Name := ['.', '.']

/-- The macro `ISDOTS`. -/
def isDots (nm : Name) : Bool := nm = dot ∨ nm = dotdot

inductive Errno
  | einval
  | eexist
  | enoent
  | enotdir
  | eisdir
  | emlink
  | estale
  | other (n : Nat)
  deriving DecidableEq, Repr

/-- The inodes of one file system: whether an inode is a directory, the records
of a directory (with `.` and `..`) that are in use, and `i_nlink`. -/
structure Fs where
  isDir : Ino → Bool
  dir : Ino → AList (fun _ : Name => Ino)
  nlink : Ino → Int

namespace Fs

def lookup (fs : Fs) (d : Ino) (nm : Name) : Option Ino := (fs.dir d).lookup nm

def setDir (fs : Fs) (d : Ino) (t : AList fun _ : Name => Ino) : Fs :=
  { fs with dir := Function.update fs.dir d t }

def addLink (fs : Fs) (i : Ino) (n : Int) : Fs :=
  { fs with nlink := Function.update fs.nlink i (fs.nlink i + n) }

def clearLinks (fs : Fs) (i : Ino) : Fs := { fs with nlink := Function.update fs.nlink i 0 }

def enter (fs : Fs) (d : Ino) (nm : Name) (i : Ino) : Fs := fs.setDir d ((fs.dir d).insert nm i)

def remove (fs : Fs) (d : Ino) (nm : Name) : Fs := fs.setDir d ((fs.dir d).erase nm)

/-- The test on entry of `dir_search`, `dir_find` and `dir_valid`. -/
def searchable (fs : Fs) (d : Ino) : Bool := fs.isDir d ∧ 1 ≤ fs.nlink d

end Fs

/-- `dir_search` with `NOSTALE`. -/
def dirSearch (fs : Fs) (dp : Ino) (nm : Name) : Except Errno Ino :=
  if fs.searchable dp then
    match fs.lookup dp nm with
    | some ino => .ok ino
    | none => .error .enoent
  else .error .enotdir

/-- `dir_lookup`. `access` is the error of `iaccess`, if it denies. -/
def dirLookup (access : Option Nat) (fs : Fs) (dp : Ino) (nm : Name) : Except Errno Ino :=
  match access with
  | some e => .error (.other e)
  | none => dirSearch fs dp nm

/-- `dir_search` for a name that must stand for `ino`. -/
def dirSearchFor (fs : Fs) (dp : Ino) (nm : Name) (ino : Ino) : Except Errno Unit :=
  match dirSearch fs dp nm with
  | .error e => .error e
  | .ok i => if i = ino then .ok () else .error .estale

/-- `dir_delete`, after its access checks. -/
def dirDelete (fs : Fs) (dp : Ino) (nm : Name) (ip : Ino) : Except Errno Fs :=
  match dirSearchFor fs dp nm ip with
  | .error e => .error e
  | .ok () => .ok ((fs.remove dp nm).addLink ip (-1))

/-- `dir_link`. `room` is the error of `dir_find` or `dir_makentry` when the
entry cannot be made. -/
def dirLink (room : Option Nat) (fs : Fs) (dp : Ino) (nm : Name) (ip : Ino) : Except Errno Fs :=
  if linkMax ≤ fs.nlink ip then .error .emlink
  else
    match dirSearch fs dp nm with
    | .ok _ => .error .eexist
    | .error .enoent =>
      match room with
      | some e => .error (.other e)
      | none => .ok ((fs.enter dp nm ip).addLink ip 1)
    | .error e => .error e

/-- `dir_fixparent`. -/
def dirFixparent (fs : Fs) (dp oi ni : Ino) : Except Errno Fs :=
  match dirSearchFor fs dp dotdot oi with
  | .error e => .error e
  | .ok () => .ok (((fs.enter dp dotdot ni).addLink oi (-1)).addLink ni 1)

/-- The status that `dir_valid` returns for `.` and `..`: whether the entry
exists, and then whether it is valid. -/
structure Dots where
  dot : Option Bool
  dotdot : Option Bool

/-- `dir_valid`. -/
def dirValid (fs : Fs) (dp parentino : Ino) (check4empty : Bool) : Except Errno Dots :=
  if fs.searchable dp then
    if check4empty ∧ (2 < fs.nlink dp ∨ ¬∀ nm ∈ (fs.dir dp).keys, isDots nm) then .error .eexist
    else
      .ok ⟨(fs.lookup dp dot).map (· = dp), (fs.lookup dp dotdot).map (· = parentino)⟩
  else .error .enotdir

end Aix413.Rename.FileSystem
