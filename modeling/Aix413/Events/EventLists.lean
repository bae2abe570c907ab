import Aix413.Dispatch.ReadyQueue

namespace Aix413.Events

open Dispatch (TState WType)

/-! ## Threads and event words -/

def threadAwakened : Int := 1
def threadInterrupted : Int := 4

/-- The slots of the thread table. -/
def nthread : Nat := 2 ^ 18

/-- Where a thread is between two critical sections of `e_block_thread`: in the switch, behind it, in
`remove_e_list` with `proc_base_lock` released, or at the return. `sig` tells that a signal was found. -/
inductive Pc
  | outside
  | switching
  | blocked
  | removing (e : Nat) (sig : Bool)
  | leaving
deriving DecidableEq

structure Thread where
  tState : TState
  tWtype : WType
  tEventlist : Option Nat
  tWchan : Option Nat
  tResult : Int
  twakeonsig : Bool
  tassertsig : Bool
  tPri : UInt8
  pc : Pc

/-- A call of `e_clear_wait` that is in `remove_e_list` with the lock released. -/
structure Clear where
  t : Nat
  e : Nat
  result : Int
deriving DecidableEq

/-- Event words name threads, and `none` stands for `EVENT_NULL`. `lock` is the thread that takes
`proc_base_lock` into the dispatcher. -/
structure Sys where
  thread : Nat → Thread
  word : Nat → Option Nat
  ready : List Nat
  curthread : Nat → Nat
  clears : List Clear
  lock : Option Nat

namespace Sys

variable (s : Sys)

def modify (t : Nat) (f : Thread → Thread) : Sys :=
  { s with thread := Function.update s.thread t (f (s.thread t)) }

def setWord (e : Nat) (w : Option Nat) : Sys := { s with word := Function.update s.word e w }

/-- `setrq` as far as it matters here, without the order of the ready queue. -/
def setrq (t : Nat) : Sys :=
  let s := s.modify t fun th => { th with tState := .tsrun, tWtype := .twcpu }
  { s with ready := s.ready ++ [t] }

/-- The switch that the wakers have in their text. -/
def post (t : Nat) : Sys :=
  if (s.thread t).tWtype = .twevent then
    match (s.thread t).tState with
    | .tssleep => s.setrq t
    | .tsrun => s.modify t fun th => { th with tWtype := .tnowait }
    | .tsstop => s.modify t fun th => { th with tWtype := .tnowait }
    | _ => s
  else s

/-! ## Lists -/

def eAssertWait (t e : Nat) (interruptible : Bool) : Sys :=
  let s := match s.word e with
    | none => s.modify t fun th => { th with tEventlist := some t }
    | some tend =>
      let s := s.modify t fun th => { th with tEventlist := (s.thread tend).tEventlist }
      s.modify tend fun th => { th with tEventlist := some t }
  let s := s.setWord e (some t)
  let s := s.modify t fun th => { th with tWchan := some e }
  let s := s.modify t fun th => { th with tResult := 0 }
  s.modify t fun th => { th with tassertsig := interruptible }

/-- A thread is taken off its list by `kwakeup` or `e_wakeup_one`. -/
def awaken (t : Nat) (result : Int) : Sys :=
  (s.modify t fun th => { th with tEventlist := none, tWchan := none, tResult := result }).post t

/-- The loop of `kwakeup`. A null link is followed nowhere. -/
def postLoop (result : Int) (lastt : Nat) : Nat → Option Nat → Sys → Option Sys
  | n + 1, some t, s =>
    let nextt := (s.thread t).tEventlist
    let s := s.awaken t result
    if t = lastt then some s else postLoop result lastt n nextt s
  | _, _, _ => none

def kwakeup (n e : Nat) (result : Int) : Option Sys :=
  match s.word e with
  | none => some s
  | some lastt => postLoop result lastt n (s.thread lastt).tEventlist (s.setWord e none)

/-- The search of `e_wakeup_one`, from `t` on until the first thread comes again. -/
def findMost (firstt : Nat) : Nat → Nat → Option Nat → Nat → Nat → Option (Nat × Nat)
  | n + 1, prevt, some t, waket, waketprev =>
    let (waket, waketprev) :=
      if (s.thread t).tPri < (s.thread waket).tPri then (t, prevt) else (waket, waketprev)
    if (s.thread t).tEventlist = some firstt then some (waket, waketprev)
    else findMost firstt n t (s.thread t).tEventlist waket waketprev
  | _, _, _, _, _ => none

/-- The new state and the thread that is awakened. -/
def eWakeupOne (n e : Nat) : Option (Sys × Option Nat) :=
  match s.word e with
  | none => some (s, none)
  | some waittid =>
    match (s.thread waittid).tEventlist with
    | none => none
    | some first =>
      if first = waittid then
        some ((s.setWord e none).awaken first threadAwakened, some first)
      else do
        let (waket, waketprev) ←
          s.findMost first n first (s.thread first).tEventlist first waittid
        let s := s.modify waketprev fun th => { th with tEventlist := (s.thread waket).tEventlist }
        let s := if waittid = waket then s.setWord e (some waketprev) else s
        some (s.awaken waket threadAwakened, some waket)

/-- The search of `remove_e_list` for the thread in front of `t`. -/
def findPrev (t : Nat) : Nat → Option Nat → Option Nat
  | n + 1, some prev =>
    if (s.thread prev).tEventlist = some t then some prev
    else findPrev t n (s.thread prev).tEventlist
  | _, _ => none

/-- `remove_e_list` behind its lock. The infinite loop catcher allows `nthread` turns. -/
def removeEList (t e : Nat) : Option Sys := do
  let s ← match s.word e with
    | none => some s
    | some tend =>
      if (s.thread t).tEventlist = none then some s
      else do
        let prev ← s.findPrev t (nthread + 1) (some tend)
        let s := s.modify prev fun th => { th with tEventlist := (s.thread t).tEventlist }
        if tend = t then
          if prev = t then some (s.setWord e none) else some (s.setWord e (some prev))
        else some s
  some (s.modify t fun th => { th with tEventlist := none, tWchan := none })

/-! ## e_clear_wait -/

def clearFlags (t : Nat) : Sys :=
  s.modify t fun th => { th with twakeonsig := false, tassertsig := false }

/-- Up to `remove_e_list`, which takes the list's word from `t_wchan`. -/
def eClearWait (t : Nat) (result : Int) : Option Sys :=
  if (s.thread t).tEventlist = none then some s
  else match (s.thread t).tWchan with
    | none => none
    | some e => some { s with clears := s.clears ++ [⟨t, e, result⟩] }

def clearEnd (c : Clear) : Option Sys := do
  let s ← { s with clears := s.clears.erase c }.removeEList c.t c.e
  let s := s.modify c.t fun th => { th with tResult := c.result }
  some ((s.clearFlags c.t).post c.t)

/-! ## e_block_thread -/

def setPc (t : Nat) (pc : Pc) : Sys := s.modify t fun th => { th with pc := pc }

/-- Behind the second look for signals. -/
def finish (t : Nat) (sig : Bool) : Option Sys :=
  let s := if sig then s.modify t fun th => { th with tResult := threadInterrupted } else s
  let s := s.clearFlags t
  if (s.thread t).tEventlist = none then some (s.setPc t .leaving)
  else match (s.thread t).tWchan with
    | none => none
    | some e => some (s.setPc t (.removing e sig))

/-- From the first look for signals up to the switch. `sig` and `sig'` tell what the two looks find
(the second one where there is no wait). -/
def eBlockThread (t : Nat) (sig sig' : Bool) : Option Sys :=
  if (s.thread t).tassertsig ∧ sig then s.finish t true
  else if (s.thread t).tEventlist = none then s.finish t ((s.thread t).tassertsig && sig')
  else
    let s := if (s.thread t).tassertsig then s.modify t fun th => { th with twakeonsig := true }
      else s
    let s := s.modify t fun th => { th with tWtype := .twevent }
    let s := if (s.thread t).twakeonsig then { s with lock := some t } else s
    some (s.setPc t .switching)

/-- Behind the switch. -/
def blockResume (t : Nat) (sig : Bool) : Option Sys := s.finish t ((s.thread t).tassertsig && sig)

/-- Behind the lock of `remove_e_list`. -/
def blockRemove (t : Nat) : Option Sys :=
  match (s.thread t).pc with
  | .removing e _ => do
    let s ← s.removeEList t e
    some (s.setPc t .leaving)
  | _ => none

/-! ## The dispatcher and signals -/

/-- The dispatcher lets go of the lock, and the thread is behind the switch when it runs again. -/
def switched (old : Nat) : Sys :=
  let s := if (s.thread old).pc = .switching then s.setPc old .blocked else s
  if s.lock = some old then { s with lock := none } else s

/-- The part of `dispatch` for the thread that ran. -/
def putAway (old : Nat) : Sys :=
  if (s.thread old).tState = .tsrun then
    if (s.thread old).tWtype ≠ .tnowait then s.modify old fun th => { th with tState := .tssleep }
    else
      let s := s.modify old fun th => { th with tWtype := .twcpu }
      { s with ready := s.ready ++ [old] }
  else s

/-- The part of `dispatch` for the thread that is chosen. -/
def take (cpu t : Nat) : Sys :=
  let s := { s with ready := s.ready.erase t }
  let s := s.modify t fun th => { th with tWtype := .tnowait }
  { s with curthread := Function.update s.curthread cpu t }

/-- The processor goes from the thread that ran to a ready one. -/
def dispatchTo (cpu t : Nat) : Sys :=
  let old := s.curthread cpu
  ((s.putAway old).switched old).take cpu t

/-- A look for signals stops the thread that looks, and another one runs. -/
def stopThread (cpu t : Nat) : Sys :=
  (s.modify (s.curthread cpu) fun th => { th with tState := .tsstop }).take cpu t

/-- A signal for the thread: `pidsig` and `tidsig` where they wake a thread. -/
def signal (t : Nat) : Sys :=
  match (s.thread t).tWtype with
  | .tnowait => s
  | .twcpu => s
  | .twpgin => s
  | _ =>
    if (s.thread t).twakeonsig then
      if (s.thread t).tState = .tssleep then s.setrq t
      else s.modify t fun th => { th with tWtype := .tnowait }
    else s

/-- A stop signal for one thread of the process, in user mode where it is ready to run. -/
def stop (t : Nat) (usermode : Bool) : Sys :=
  match (s.thread t).tWtype with
  | .tnowait => s
  | .twcpu =>
    if usermode then
      let s := s.modify t fun th => { th with tWtype := .tnowait }
      let s := { s with ready := s.ready.erase t }
      s.modify t fun th => { th with tState := .tsstop }
    else s
  | _ =>
    if (s.thread t).twakeonsig ∧ (s.thread t).tState ≠ .tsstop then
      s.modify t fun th => { th with tState := .tsstop }
    else s

/-- A stopped thread is continued. `sig` tells whether there is something for it to find. -/
def cont (t : Nat) (sig : Bool) : Sys :=
  if (s.thread t).tState = .tsstop then
    if (s.thread t).tWtype = .tnowait then s.setrq t
    else if (s.thread t).twakeonsig then
      if sig then s.setrq t else s.modify t fun th => { th with tState := .tssleep }
    else s.modify t fun th => { th with tState := .tssleep }
  else s

end Sys

end Aix413.Events
