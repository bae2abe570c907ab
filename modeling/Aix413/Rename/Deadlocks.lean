import Aix413.Rename.Locks

namespace Aix413.Rename.Deadlocks

open FileSystem Steps Locks

variable {ι : Type}

inductive Lock
  | inode (i : Ino)
  | mount
  deriving DecidableEq, Repr

/-- The lock that a rename asks for where it stands. -/
def wants (x : Proc) : Option Lock :=
  match x.pc with
  | .locking (i :: _) => some (.inode i)
  | .wantMount => some .mount
  | .wantAncestor i => some (.inode i)
  | _ => none

def Holds (s : State ι) (q : ι) : Lock → Prop
  | .inode i => s.lockOf i = some q
  | .mount => s.mount = some q

/-- Rename `p` waits for a lock that another rename `q` holds. -/
def WaitsFor (s : State ι) (p q : ι) : Prop :=
  p ≠ q ∧ ∃ l, wants (s.procs p) = some l ∧ Holds s q l

variable {s : State ι} {p q q' : ι}

def records : Ino → List (Sigma fun _ : Name => Ino)
  | 2 => [⟨dot, 2⟩, ⟨dotdot, 2⟩, ⟨['p'], 10⟩, ⟨['q'], 11⟩, ⟨['s'], 12⟩]
  | 10 => [⟨dot, 10⟩, ⟨dotdot, 2⟩, ⟨['a'], 20⟩]
  | 11 => [⟨dot, 11⟩, ⟨dotdot, 2⟩, ⟨['b'], 21⟩, ⟨['c'], 22⟩]
  | 12 => [⟨dot, 12⟩, ⟨dotdot, 2⟩]
  | 20 => [⟨dot, 20⟩, ⟨dotdot, 10⟩]
  | 21 => [⟨dot, 21⟩, ⟨dotdot, 11⟩]
  | 22 => [⟨dot, 22⟩, ⟨dotdot, 11⟩]
  | _ => []

def links : Ino → Int
  | 2 => 5
  | 10 => 3
  | 11 => 4
  | 12 | 20 | 21 | 22 => 2
  | _ => 0

def tree : Fs := ⟨fun i => records i ≠ [], fun i => (records i).toAList, links⟩

def schedule : List Bool := List.replicate 6 false ++ List.replicate 8 true

end Aix413.Rename.Deadlocks
