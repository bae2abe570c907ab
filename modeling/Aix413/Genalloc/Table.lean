import Aix413.Lib.ByteMemory

namespace Aix413.Genalloc

open Aix413.Lib.ByteMemory

/-- `PAGESIZE`. -/
def pagesize : Nat := 4096

/-- `SEGSIZE`. -/
def segsize : Nat := 2 ^ 28

inductive Errno
  | einval
  | enomem
deriving DecidableEq

/-- A `genalloc_t`, and the memory with its table. -/
structure State where
  head : Nat
  hiwater : Nat
  table : Nat
  eotbl : Nat
  osz : Nat
  froff : Int
  mem : Memory

def ptr (a : Nat) : BitVec 32 := BitVec.ofNat 32 a

/-- The field of an object that `atofp` names. -/
def fpOf (froff : Int) (a : Nat) : Int := a + froff

/-- The loop that links the objects from `a` on; the last object comes back too. -/
def linkLoop (osz : Nat) (froff : Int) : Nat → Memory → Nat → Memory × Nat
  | 0, m, a => (m, a)
  | n + 1, m, a => linkLoop osz froff n (store m (fpOf froff a) (ptr (a + osz))) (a + osz)

/-- A new free list of `nelms` objects: the memory, and the address behind the last one. -/
def freelist (osz : Nat) (froff : Int) (nelms : Nat) (m : Memory) (a : Nat) : Memory × Nat :=
  let (m, a) := linkLoop osz froff (nelms - 1) m a
  (store m (fpOf froff a) 0, a + osz)

/-- `geninit`. `slot` says that there is a structure left in `gen_table`. -/
def geninit (malloc : Nat → Option Nat) (slot : Bool) (m : Memory) (tblelms nelms objsz : Nat)
    (off : Int) : Except Errno State :=
  if objsz < 4 ∨ tblelms < nelms ∨ (objsz : Int) ≤ off ∨ off % 4 ≠ 0 then .error .einval
  else if slot = false then .error .enomem
  else
    let sz := objsz * tblelms % 2 ^ 32
    match malloc sz with
    | none => .error .enomem
    | some a =>
      let m := clear m a (nelms * objsz % 2 ^ 32)
      let (m, hiwater) := freelist objsz off nelms m a
      .ok { head := a, hiwater := hiwater, table := a, eotbl := a + sz, osz := objsz, froff := off
            mem := m }

/-- The bytes from the high water mark to the end of the pages that the next objects take. -/
def State.nalloc (s : State) : Int :=
  let sz := max pagesize s.osz
  let pb := (ptr s.hiwater + ptr (sz - 1)) &&& ~~~ptr (sz - 1)
  min (pb + ptr sz - ptr s.hiwater).toInt (ptr s.eotbl - ptr s.hiwater).toInt

/-- The object at the head of the free list. -/
def State.pop (s : State) : State × Nat :=
  let a := s.head
  ({ s with
    head := (load s.mem (fpOf s.froff a)).toNat
    mem := store s.mem (fpOf s.froff a) 0 }, a)

/-- `genalloc`; 0 for a null pointer. -/
def State.genalloc (s : State) : State × Nat :=
  if s.head ≠ 0 then s.pop
  else if s.eotbl ≤ s.hiwater then (s, 0)
  else if s.nalloc < s.osz then (s, 0)
  else
    let nalloc := s.nalloc.toNat
    let m := clear s.mem s.hiwater nalloc
    let (m, hiwater) := freelist s.osz s.froff (nalloc / s.osz) m s.hiwater
    { s with head := s.hiwater, hiwater := hiwater, mem := m }.pop

/-- `genfree`. -/
def State.genfree (s : State) (a : Nat) : State :=
  { s with mem := store s.mem (fpOf s.froff a) (ptr s.head), head := a }

end Aix413.Genalloc
