import Aix413.Lib.BlockMove
import Aix413.Lib.Partition

namespace Aix413.Qsort

open Lib.BlockMove

/-! ## Pointers into the array -/

abbrev Mem := Nat → UInt8

structure Qdata where
  qses : Nat
  qscmp : List UInt8 → List UInt8 → Int

/-- Addresses from `lo` on, below `hi`. -/
structure Span where
  lo : Nat
  hi : Nat

def Span.Mem (r : Span) (p : Nat) : Prop := r.lo ≤ p ∧ p < r.hi

instance (r : Span) (p : Nat) : Decidable (r.Mem p) := inferInstanceAs (Decidable (_ ∧ _))

/-- Outside `bytes` nothing may be read or written, and outside `ptrs` no pointer may be formed. -/
structure Env extends Qdata where
  bytes : Span
  ptrs : Span

namespace Env

variable (e : Env)

/-- A pointer is formed. -/
def ptr (p : Nat) : Option Nat := if e.ptrs.Mem p then some p else none

def back (p n : Nat) : Option Nat := if n ≤ p then e.ptr (p - n) else none

/-- The comparison function is called for the elements at `p` and `q`. -/
def compar (m : Mem) (p q : Nat) : Option Int :=
  if (e.bytes.lo ≤ p ∧ p + e.qses ≤ e.bytes.hi) ∧ e.bytes.lo ≤ q ∧ q + e.qses ≤ e.bytes.hi then
    some (e.qscmp (window m p e.qses) (window m q e.qses))
  else none

/-! ## Exchanges -/

def qsexcLoop : Nat → Nat → Nat → Mem → Option Mem
  | 0, _, _, m => some m
  | n + 1, ri, rj, m =>
    if e.bytes.Mem ri ∧ e.bytes.Mem rj then do
      let c := m ri
      let m := Function.update m ri (m rj)
      let m := Function.update m rj c
      let ri ← e.ptr (ri + 1)
      let rj ← e.ptr (rj + 1)
      qsexcLoop n ri rj m
    else none

def qsexc (i j : Nat) (m : Mem) : Option Mem := e.qsexcLoop e.qses i j m

def qstexcLoop : Nat → Nat → Nat → Nat → Mem → Option Mem
  | 0, _, _, _, m => some m
  | n + 1, ri, rj, rk, m =>
    if e.bytes.Mem ri ∧ e.bytes.Mem rj ∧ e.bytes.Mem rk then do
      let c := m ri
      let m := Function.update m ri (m rk)
      let m := Function.update m rk (m rj)
      let m := Function.update m rj c
      let ri ← e.ptr (ri + 1)
      let rj ← e.ptr (rj + 1)
      let rk ← e.ptr (rk + 1)
      qstexcLoop n ri rj rk m
    else none

def qstexc (i j k : Nat) (m : Mem) : Option Mem := e.qstexcLoop e.qses i j k m

end Env

/-! ## Quicker-sort -/

structure Scan where
  i : Nat
  j : Nat
  lp : Nat
  hp : Nat
  mem : Mem

/-- Where the loop of `qs1` goes on, or that it is left. -/
inductive Label
  | while1
  | loop
  | done

variable (e : Env)

/-- From `while(1)` to the label `loop`. -/
def scanUp (s : Scan) : Option (Label × Scan) :=
  if s.i < s.lp then do
    let c ← e.compar s.mem s.i s.lp
    if c = 0 then
      let lp ← e.back s.lp e.qses
      let m ← e.qsexc s.i lp s.mem
      some (.while1, { s with lp := lp, mem := m })
    else if c < 0 then
      let i ← e.ptr (s.i + e.qses)
      some (.while1, { s with i := i })
    else some (.loop, s)
  else some (.loop, s)

/-- From the label `loop` on. -/
def scanDown (s : Scan) : Option (Label × Scan) :=
  if s.hp < s.j then do
    let c ← e.compar s.mem s.hp s.j
    if c = 0 then
      let hp ← e.ptr (s.hp + e.qses)
      let m ← e.qsexc hp s.j s.mem
      some (.loop, { s with hp := hp, mem := m })
    else if 0 < c then
      if s.i = s.lp then
        let hp ← e.ptr (s.hp + e.qses)
        let m ← e.qstexc s.i hp s.j s.mem
        let lp ← e.ptr (s.lp + e.qses)
        some (.loop, { s with i := lp, lp := lp, hp := hp, mem := m })
      else
        let m ← e.qsexc s.i s.j s.mem
        let j ← e.back s.j e.qses
        let i ← e.ptr (s.i + e.qses)
        some (.while1, { s with i := i, j := j, mem := m })
    else
      let j ← e.back s.j e.qses
      some (.loop, { s with j := j })
  else if s.i = s.lp then some (.done, s)
  else do
    let lp ← e.back s.lp e.qses
    let m ← e.qstexc s.j lp s.i s.mem
    let hp ← e.back s.hp e.qses
    some (.while1, { s with j := hp, lp := lp, hp := hp, mem := m })

def scan : Nat → Label → Scan → Option Scan
  | _, .done, s => some s
  | 0, _, _ => none
  | fuel + 1, .while1, s => (scanUp e s).bind fun (l, s) => scan fuel l s
  | fuel + 1, .loop, s => (scanDown e s).bind fun (l, s) => scan fuel l s

def qs1 : Nat → Nat → Nat → Mem → Option Mem
  | 0, _, _, _ => none
  | fuel + 1, a, l, m =>
    let n := l - a
    if n ≤ e.qses then some m
    else do
      let n := e.qses * (n / (2 * e.qses))
      let lp ← e.ptr (a + n)
      let j ← e.back l e.qses
      let s ← scan e fuel .while1 ⟨a, j, lp, lp, m⟩
      if l - s.hp ≤ s.lp - a then
        let b ← e.ptr (s.hp + e.qses)
        let m ← qs1 fuel b l s.mem
        qs1 fuel a s.lp m
      else
        let m ← qs1 fuel a s.lp s.mem
        let a ← e.ptr (s.hp + e.qses)
        qs1 fuel a l m

/-- `qsort`, where pointers below `top` may be formed. -/
def qsort (fuel top base nmemb size : Nat) (compar : List UInt8 → List UInt8 → Int) (m : Mem) :
    Option Mem := do
  let e : Env := ⟨⟨size, compar⟩, ⟨base, base + nmemb * size⟩, ⟨base, top⟩⟩
  let l ← e.ptr (base + nmemb * size)
  qs1 e fuel base l m

end Aix413.Qsort
