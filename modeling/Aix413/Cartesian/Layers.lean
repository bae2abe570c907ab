import Mathlib.Logic.Function.Basic

namespace Aix413.Cartesian

/-- An address and a length: of the son a slot holds, or zero. -/
structure Adlen where
  p : Nat
  q : Nat
deriving DecidableEq

/-- The two halves of a node header, `a` for the left son. -/
inductive Side where
  | a
  | b
deriving DecidableEq

def Side.other : Side → Side
  | .a => .b
  | .b => .a

/-- The left one and the right one. -/
def Side.both {α : Type} (l r : α) : Side → α
  | .a => l
  | .b => r

/-- The places of an adlen: the anchor, the halves of `stomp`, and of the header of a node. -/
inductive Slot where
  | manchor
  | stomp (d : Side)
  | son (d : Side) (n : Nat)
deriving DecidableEq

/-- The addresses of the static variables. -/
structure Statics where
  manchor : Nat
  stomp : Nat

def Statics.addr (g : Statics) : Slot → Nat
  | .manchor => g.manchor
  | .stomp .a => g.stomp
  | .stomp .b => g.stomp + 8
  | .son .a n => n
  | .son .b n => n + 8

abbrev Mem := Slot → Adlen

def put (m : Mem) (k : Slot) (d : Adlen) : Mem := Function.update m k d

/-- Only the pointer is changed. -/
def putP (m : Mem) (k : Slot) (p : Nat) : Mem := put m k { m k with p := p }

structure State where
  mem : Mem
  x : Adlen
  y : Slot
  z : Slot

/-! ## `leftmost` and `rightmost` -/

/-- The loop of `leftmost`, and with the sons exchanged of `rightmost`. -/
def extremeLoop (d : Side) : Nat → State → Option State
  | 0, _ => none
  | n + 1, s =>
    if s.x.q = (s.mem (.son d s.x.p)).q then
      let m := putP s.mem s.y (s.mem (.son d s.x.p)).p
      let m := put m (.son d s.x.p) (m (.son d.other (m s.y).p))
      let m := put m (.son d.other (m s.y).p) s.x
      let x : Adlen := { s.x with p := (m s.y).p }
      if (m (.son d x.p)).q < x.q then some { s with mem := m, x := x }
      else
        extremeLoop d n
          { s with mem := m, y := .son d x.p, x := { x with p := (m (.son d x.p)).p } }
    else some s

def extreme (d : Side) (needed n : Nat) (s : State) : Option (Bool × State) :=
  (extremeLoop d n s).map fun s =>
    if (s.mem (.son d s.x.p)).q < needed then (false, s)
    else (true, { s with y := .son d s.x.p, x := s.mem (.son d s.x.p) })

def leftmost : Nat → Nat → State → Option (Bool × State) := extreme .a

def rightmost : Nat → Nat → State → Option (Bool × State) := extreme .b

/-! ## Root insertion

The branches of `splint` and `splay` for a node that belongs on the left and for one that belongs
on the right are written once, for side `d`: `hook .a` is `ahook`, `hook .b` is `bhook`. -/

/-- The node gets the two trees in `stomp`, its own sons going to the hooks, and is attached. -/
def promote (m : Mem) (hook : Side → Slot) (y : Slot) (x : Adlen) : Mem :=
  let m := put m (hook .a) (m (.son .a x.p))
  let m := put m (hook .b) (m (.son .b x.p))
  let m := put m (.son .a x.p) (m (.stomp .a))
  let m := put m (.son .b x.p) (m (.stomp .b))
  put m y x

/-- The next attachment point: the hook, unless it is still in `stomp`. -/
def next (hook : Side → Slot) (d : Side) (x : Adlen) : Slot :=
  if hook d.other = .stomp d.other then .son d.other x.p else hook d.other

/-! ## `splint` -/

/-- The side of the splice address the node belongs on. -/
def belongs (splice p : Nat) : Side := if p < splice then .a else .b

variable (g : Statics)

/-- The spliced descent; `w` is `*splice`. -/
def splintLoop (splice : Slot) : Nat → (Side → Slot) → State → Option State
  | 0, _, _ => none
  | n + 1, hook, s =>
    let w := s.mem splice
    let d := belongs (g.addr splice) w.p
    let far := Slot.son d.other w.p
    if w.q ≠ (s.mem far).q then
      let m := promote s.mem hook s.y w
      some { s with mem := put m splice (m (hook d.other)), y := next hook d w }
    else if w.p = (s.mem (hook d)).p then
      let m := put s.mem (hook d) (s.mem (.son d w.p))
      let m := put m s.y w
      let m := putP m splice (m far).p
      let m := put m (.son .a w.p) (m (.stomp .a))
      let m := put m (.son .b w.p) (m (.stomp .b))
      splintLoop splice n .stomp { s with mem := m, y := next hook d w }
    else
      let m := put s.mem (hook d) w
      splintLoop splice n (Function.update hook d far) { s with mem := putP m splice (m far).p }

def splint (splice : Slot) (n : Nat) (s : State) : Option State :=
  let w := s.mem splice
  let d := belongs (g.addr splice) w.p
  let far := Slot.son d.other w.p
  if w.q ≠ (s.mem far).q then
    let m := put s.mem s.y w
    some { s with mem := put m splice (m far), y := far }
  else
    let m := put s.mem (.stomp d) w
    splintLoop g splice n (Function.update .stomp d far) { s with mem := putP m splice (m far).p }

/-! ## `splay` -/

/-- The result for a node that touches the piece from `u` to `v`, else 0. -/
def touch (u v : Nat) (x : Adlen) : Nat :=
  if x.p < v then
    if u = x.p + x.q then 1
    else if u < x.p + x.q then 3
    else 0
  else if v = x.p then 2
  else 0

/-- The node whose far half is the hook, by address. -/
def father : Side → Nat → Nat
  | .a, hook => hook - 8
  | .b, hook => hook

/-- The splayed descent; `pa` is `ahookpa` and `bhookpa`. -/
def splayLoop (u v : Nat) :
    Nat → (Side → Slot) → (Side → Slot) → State → Option (Nat × State)
  | 0, _, _, _ => none
  | n + 1, hook, pa, s =>
    let x := s.x
    let d := belongs v x.p
    let far := Slot.son d.other x.p
    if touch u v x ≠ 0 then some (touch u v x, { s with mem := promote s.mem hook s.y x })
    else if x.q ≠ (s.mem far).q then
      let m := promote s.mem hook s.y x
      some (0, { mem := m, x := m (hook d.other), y := next hook d x, z := s.y })
    else if x.p ≠ (s.mem (hook d)).p then
      let m := put s.mem (hook d) x
      splayLoop u v n (Function.update hook d far) (Function.update pa d (hook d))
        { s with mem := m, x := { x with p := (m far).p } }
    else
      let m := put s.mem (hook d) (s.mem (.son d x.p))
      let m := put m (.son d x.p) ⟨father d (g.addr (hook d)), x.q⟩
      let m := putP m (pa d) x.p
      -- the pointer in the new hook is cleared, so that the next node is not rotated again
      splayLoop u v n (Function.update hook d far) pa
        { s with mem := putP m far 0, x := { x with p := (m far).p } }

def splay (u v n : Nat) (s : State) : Option (Nat × State) :=
  let x := s.x
  let d := belongs v x.p
  let far := Slot.son d.other x.p
  if touch u v x ≠ 0 then some (touch u v x, s)
  else if x.q ≠ (s.mem far).q then
    some (0, { s with x := s.mem far, y := far, z := s.y })
  else
    let m := put s.mem (.stomp d) x
    splayLoop g u v n (Function.update .stomp d far) .stomp
      { s with mem := m, x := { x with p := (m far).p } }

end Aix413.Cartesian
