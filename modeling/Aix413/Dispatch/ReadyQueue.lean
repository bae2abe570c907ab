import Mathlib.Logic.Function.Basic
import Mathlib.Tactic

namespace Aix413.Dispatch

/-! ## Threads and the dispatcher's data -/

inductive TState
  | tsnone | tsidl | tsrun | tssleep | tsswap | tsstop | tszomb
deriving DecidableEq

inductive WType
  | tnowait | twevent | twlock | twtimer | twcpu | twpgin | twpgout | twplock | twfreef | twmem
  | twlockread | twuexcept
deriving DecidableEq

inductive Policy
  | schedOther | schedFifo | schedRr
deriving DecidableEq

inductive Place
  | rqtail | rqhead
deriving DecidableEq

def pmask : Nat := 127
def pidle : Nat := pmask
def intbase : Nat := 11

/-- A thread, with the fields of its uthread that the dispatcher reads. Processors are numbers, and
`none` stands for `PROCESSOR_CLASS_ANY`. -/
structure Thread where
  tState : TState
  tWtype : WType
  tSuspend : Int
  tpmreqstop : Bool
  tpmstop : Bool
  tProcp : Nat
  tTicks : Nat
  tPrior : Nat
  tNext : Nat
  tCpuid : Option Nat
  tAffinity : Option Nat
  tPri : UInt8
  tPolicy : Policy
  tLockpri : UInt8
  tLockowner : Nat
  tBoosted : Int
  utyield : Bool
  intpri : Nat

def Thread.lvl (t : Thread) : Nat := t.tPri.toNat &&& pmask

/-- The data under `proc_int_lock`. Ghost: `clock` counts what was put in a queue so far, `arrived`
and `place` say when and at which end a thread was last put in. -/
structure Sys where
  thread : Nat → Thread
  threadRun : Nat → Option Nat
  runMask : Nat → Bool
  pSchedPri : Nat → UInt8
  curthread : Nat → Nat
  ficd : Nat → Bool
  runrun : Int
  ncpus : Nat
  affinityPriodelta : Int
  affinityScandelta : Int
  affinitySkipboosted : Bool
  timeslice : Int
  clock : Nat
  arrived : Nat → Nat
  place : Nat → Place

/-- The index of the first one bit. It is only called where there is one. -/
def bitindex (m : Nat → Bool) : Option Nat := (List.range (pmask + 1)).find? m

namespace Sys

variable (s : Sys)

def modify (t : Nat) (f : Thread → Thread) : Sys :=
  { s with thread := Function.update s.thread t (f (s.thread t)) }

def setRun (l : Nat) (r : Option Nat) : Sys :=
  { s with threadRun := Function.update s.threadRun l r }

def setMask (l : Nat) (b : Bool) : Sys := { s with runMask := Function.update s.runMask l b }

def stamp (t : Nat) (w : Place) : Sys :=
  { s with
    clock := s.clock + 1
    arrived := Function.update s.arrived t s.clock
    place := Function.update s.place t w }

/-! ## The four routines -/

/-- A thread is linked between the tail and the head. The text stands in `setrq` and again in
`dispatch`. -/
def link (t l : Nat) (w : Place) : Sys :=
  match s.threadRun l with
  | some r =>
    let s := s.modify t fun th => { th with tPrior := r }
    let s := s.modify t fun th => { th with tNext := (s.thread r).tNext }
    let s := s.modify (s.thread t).tPrior fun th => { th with tNext := t }
    let s := s.modify (s.thread t).tNext fun th => { th with tPrior := t }
    let s := if w = .rqtail then s.setRun l (some t) else s
    s.stamp t w
  | none =>
    let s := s.modify t fun th => { th with tNext := t, tPrior := t }
    let s := (s.setRun l (some t)).setMask l true
    s.stamp t w

/-- A thread is taken out of its level. The text stands in `remrq` and again in `dispatch`. -/
def unlink (t l : Nat) : Sys :=
  if (s.thread t).tNext = t then (s.setMask l false).setRun l none
  else
    let s := s.modify (s.thread t).tPrior fun th => { th with tNext := (s.thread t).tNext }
    let s := s.modify (s.thread t).tNext fun th => { th with tPrior := (s.thread t).tPrior }
    if s.threadRun l = some t then s.setRun l (some (s.thread t).tPrior) else s

/-- The part of `setrq` that asks for a call of the dispatcher. -/
def setRunrun (l : Nat) (preempt : Bool) : Sys :=
  if preempt ∧ s.runrun < s.ncpus ∧ ∃ i ∈ List.range s.ncpus, l < (s.thread (s.curthread i)).lvl
  then { s with runrun := s.runrun + 1 } else s

def setrq (t : Nat) (preempt : Bool) (w : Place) : Sys :=
  let s := s.modify t fun th => { th with tState := .tsrun }
  if (s.thread t).tpmreqstop ∧ (s.thread t).tSuspend = 0 then
    s.modify t fun th => { th with tpmstop := true, tWtype := .tnowait }
  else
    let s := s.modify t fun th => { th with tWtype := .twcpu }
    let l := (s.thread t).lvl
    (s.link t l w).setRunrun l preempt

def remrq (t : Nat) : Sys :=
  if (s.thread t).tWtype = .twcpu then
    let s := s.modify t fun th => { th with tWtype := .tnowait }
    s.unlink t (s.thread t).lvl
  else s

def setPri (t : Nat) (prio : Int) : Sys :=
  s.modify t fun th => { th with tPri := UInt8.ofInt prio }

def prioRequeue (t : Nat) (prio : Int) : Sys :=
  match (s.thread t).tWtype with
  | .twcpu =>
    if (s.thread t).tBoosted ≠ 0 then ((s.remrq t).setPri t prio).setrq t true .rqhead
    else if ((s.thread t).tPri.toNat : Int) ≠ prio then
      ((s.remrq t).setPri t prio).setrq t true .rqtail
    else s
  | .twmem =>
    let p := (s.thread t).tProcp
    let s := if prio < (s.pSchedPri p).toNat then
        { s with pSchedPri := Function.update s.pSchedPri p (UInt8.ofInt prio) } else s
    s.setPri t prio
  | .tnowait =>
    -- the thread's processor is told when the running thread becomes less favoured
    let s := if ((s.thread t).tPri.toNat : Int) < prio ∧ (s.thread t).tState = .tsrun then
        match (List.range s.ncpus).find? fun i => s.curthread i = t with
        | some i => { s with ficd := Function.update s.ficd i true }
        | none => s
      else s
    s.setPri t prio
  | _ => s.setPri t prio

/-! ### dispatch -/

/-- The lock's owner is boosted, and the state of a thread that waits becomes sleeping. -/
def goToSleep (old : Nat) : Sys :=
  let s :=
    if (s.thread old).tWtype = .twlock ∨ (s.thread old).tWtype = .twlockread then
      let ownt := (s.thread old).tLockowner
      if (s.thread old).tPri ≤ (s.thread ownt).tPri then
        let boosting := (s.thread old).tPri < (s.thread ownt).tPri
        let s := s.modify ownt fun th => { th with tBoosted := th.tBoosted + 1 }
        let s := s.modify ownt fun th => { th with tLockpri := (s.thread old).tPri }
        let s := s.prioRequeue ownt (s.thread old).tPri.toNat
        if boosting then s
        else s.modify ownt fun th => { th with tBoosted := th.tBoosted - 1 }
      else s
    else s
  s.modify old fun th => { th with tState := .tssleep }

/-- The current thread goes back to the ready queue. -/
def putBack (old : Nat) : Sys :=
  let s := s.modify old fun th => { th with tWtype := .twcpu }
  let l := (s.thread old).lvl
  if (s.thread old).tPolicy = .schedOther ∨ (s.thread old).utyield ∨
      ((s.thread old).tPolicy = .schedRr ∧ s.timeslice ≤ (s.thread old).tTicks) then
    (s.link old l .rqtail).modify old fun th => { th with tTicks := 0, utyield := false }
  else s.link old l .rqhead

def mayRun (cpu t : Nat) : Prop :=
  (s.thread t).tCpuid = none ∨ (s.thread t).tCpuid = some cpu

instance (cpu t : Nat) : Decidable (s.mayRun cpu t) :=
  inferInstanceAs (Decidable (_ ∨ _))

/-- The scan of a level from `t` on until `h` comes again, for a thread that may run. -/
def scanLevel (cpu h : Nat) : Nat → Nat → Option (Option Nat)
  | 0, _ => none
  | n + 1, t =>
    if s.mayRun cpu t then some (some t)
    else if (s.thread t).tNext = h then some none
    else scanLevel cpu h n (s.thread t).tNext

/-- The first level with a thread that may run, the thread, and the local copy of the mask. -/
def findLevel (cpu : Nat) : Nat → (Nat → Bool) → Option (Nat × Nat × (Nat → Bool))
  | 0, _ => none
  | n + 1, lrunmask => do
    let l ← bitindex lrunmask
    let r ← s.threadRun l
    let h := (s.thread r).tNext
    match ← s.scanLevel cpu h n h with
    | some t => some (l, t, lrunmask)
    | none => findLevel cpu n (Function.update lrunmask l false)

/-- The scan of a level from `tt` on for a thread that ran on this processor. `inl` stands for
`goto affinity_complete`, with the thread if there is one, and `inr` for the end of the level. -/
def scanAffinity (cpu h : Nat) : Nat → Nat → Int → Option (Option Nat ⊕ Int)
  | 0, _, _ => none
  | n + 1, tt, scan =>
    let scan := scan + 1
    if s.affinityScandelta < scan then some (.inl none)
    else if (s.thread tt).tAffinity = some cpu ∧ s.mayRun cpu tt then some (.inl (some tt))
    else if (s.thread tt).tPolicy ≠ .schedOther ∨
        (¬ s.affinitySkipboosted ∧ (s.thread tt).tBoosted ≠ 0) then some (.inl none)
    else if (s.thread tt).tNext = h then some (.inr scan)
    else scanAffinity cpu h n (s.thread tt).tNext scan

def affinityLoop (cpu l t : Nat) : Nat → Nat → (Nat → Bool) → Int → Option (Nat × Nat)
  | 0, _, _, _ => none
  | n + 1, newlvl, lrunmask, scan =>
    if (newlvl : Int) ≤ l + s.affinityPriodelta ∧ newlvl < pidle then do
      let r ← s.threadRun newlvl
      let h := (s.thread r).tNext
      match ← s.scanAffinity cpu h n (if newlvl = l then t else h) scan with
      | .inl (some tt) => some (newlvl, tt)
      | .inl none => some (l, t)
      | .inr scan =>
        let lrunmask := Function.update lrunmask newlvl false
        let newlvl ← bitindex lrunmask
        affinityLoop cpu l t n newlvl lrunmask scan
    else some (l, t)

/-- The level and the thread that are chosen. -/
def select (n cpu : Nat) : Option (Nat × Nat) := do
  let (l, t, lrunmask) ← s.findLevel cpu n s.runMask
  if (s.thread t).tAffinity ≠ some cpu then s.affinityLoop cpu l t n l lrunmask 0
  else some (l, t)

def incRunrun (inc : Int) : Sys :=
  { s with runrun := if s.runrun + inc ≤ 0 then 0 else min (s.runrun + inc) s.ncpus }

/-- The chosen thread is taken out of the ready queue and made the current one. -/
def take (cpu l t : Nat) : Sys :=
  let s := s.modify t fun th => { th with tAffinity := some cpu }
  let s := s.unlink t l
  let s := { s with ficd := Function.update s.ficd cpu false }
  let s := s.incRunrun (-1)
  let s := s.modify t fun th => { th with tWtype := .tnowait }
  { s with curthread := Function.update s.curthread cpu t }

/-- The ready queue as `dispatch` searches it, or `none` where the current thread is resumed. -/
def prepare (old : Nat) : Option Sys :=
  if (s.thread old).tState = .tsrun then
    if (s.thread old).tWtype ≠ .tnowait then some (s.goToSleep old)
    else if (s.thread old).intpri ≠ intbase then none
    else some (s.putBack old)
  else some s

/-- The new state and the thread whose process is returned. Without an end of the scans, or where a
null queue is followed, there is none; `n` bounds the scans. -/
def dispatch (n cpu : Nat) : Option (Sys × Nat) :=
  match s.prepare (s.curthread cpu) with
  | none => some (s, s.curthread cpu)
  | some s' => do
    let (l, t) ← s'.select n cpu
    some (s'.take cpu l t, t)

end Sys

end Aix413.Dispatch
