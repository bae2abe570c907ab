import Aix413.Lib.LinkedPool

namespace Aix413.Callout

open Lib.LinkedPool

/-! ## Timer services -/

/-- A timer request block; its links are kept apart. -/
structure Trb where
  cpunum : Nat
  /-- `T_PENDING` and `T_ACTIVE`. -/
  pending : Bool
  active : Bool
  timeout : Nat
  /-- The completion handler is `timeout_end`, or null. -/
  func : Bool
  tof : Option Nat
  funcData : Nat
  /-- Which request the block was last used for. -/
  req : Nat

/-- The blocks, and for every processor its active list and the block it is calling. -/
structure Timers where
  knext : Nat → Nat
  kprev : Nat → Nat
  trb : Nat → Trb
  tActive : Nat → Nat
  trbCalled : Nat → Nat

namespace Timers

/-- `t` is taken off the active list. -/
def unlink (m : Timers) (t : Nat) : Timers :=
  let c := (m.trb t).cpunum
  let m :=
    if t = m.tActive c then
      if m.knext t = 0 then { m with tActive := Function.update m.tActive c 0 }
      else
        { m with
          tActive := Function.update m.tActive c (m.knext t)
          kprev := Function.update m.kprev (m.knext t) 0 }
    else if m.knext t = 0 then { m with knext := Function.update m.knext (m.kprev t) 0 }
    else
      { m with
        knext := Function.update m.knext (m.kprev t) (m.knext t)
        kprev := Function.update m.kprev (m.knext t) (m.kprev t) }
  { m with knext := Function.update m.knext t 0, kprev := Function.update m.kprev t 0 }

/-- `tstop` on a processor; `none` where it refuses. -/
def tstop (ncpus cpu t : Nat) (m : Timers) : Option Timers :=
  if ∃ i < ncpus, m.trbCalled i = t then
    if (m.trb t).cpunum = cpu then some m else none
  else if (m.trb t).pending then
    let m := m.unlink t
    let b := { m.trb t with pending := false, active := false }
    some { m with trb := Function.update m.trb t b }
  else some m

/-- The block behind which one with time `tv` goes, from `q` on. -/
def behind (m : Timers) (tv : Nat) : Nat → Nat → Option Nat
  | 0, _ => none
  | fuel + 1, q =>
    let n := m.knext q
    if n ≠ 0 ∧ (m.trb n).timeout < tv then behind m tv fuel n else some q

/-- `t` is put on the active list of the processor. -/
def enqueue (fuel cpu t : Nat) (m : Timers) : Option Timers :=
  let tv := (m.trb t).timeout
  let h := m.tActive cpu
  if h = 0 ∨ tv < (m.trb h).timeout then
    some
      { m with
        knext := Function.update m.knext t h
        kprev := store (Function.update m.kprev t 0) h t
        tActive := Function.update m.tActive cpu t }
  else do
    let q ← m.behind tv fuel h
    let n := m.knext q
    some
      { m with
        knext := Function.update (Function.update m.knext t n) q t
        kprev := store (Function.update m.kprev t q) n t }

/-- `tstart` on a processor, at time `now`; `none` where an assertion fails. -/
def tstart (fuel cpu now t : Nat) (m : Timers) : Option Timers :=
  if (m.trb t).pending then none
  else if (m.trb t).active ∧ m.trbCalled cpu ≠ t then none
  else do
    let b := { m.trb t with timeout := (m.trb t).timeout + now, cpunum := cpu }
    let m ← enqueue fuel cpu t { m with trb := Function.update m.trb t b }
    some { m with trb := Function.update m.trb t { m.trb t with pending := true, active := true } }

/-- The head of the active list is going to be called. -/
def expire (cpu : Nat) (m : Timers) : Timers :=
  let t := m.tActive cpu
  let n := m.knext t
  { m with
    trbCalled := Function.update m.trbCalled cpu t
    tActive := Function.update m.tActive cpu n
    kprev := Function.update (store m.kprev n 0) t 0
    knext := Function.update m.knext t 0
    trb := Function.update m.trb t { m.trb t with pending := false } }

/-- The handler of `t` has returned. -/
def finish (cpu t : Nat) (m : Timers) : Timers :=
  { m with
    trb :=
      if (m.trb t).pending then m.trb
      else Function.update m.trb t { m.trb t with active := false }
    trbCalled := Function.update m.trbCalled cpu 0 }

end Timers

/-! ## Callout table -/

/-- Where a processor is in `clock`, with the request whose time has come. -/
inductive Expiry
  | idle
  /-- `trb_called` is set. -/
  | called (t r : Nat)
  /-- `timeout_end` has read `tof`. -/
  | entered (t r : Nat) (f : Option Nat)
  /-- `timeout_end` has freed the entry. -/
  | cleared (t r : Nat) (f : Option Nat)
  | running (t r f a : Nat)

/-- What became of a request. -/
inductive Fate
  | replaced (n : Nat)
  | cancelled (n : Nat)
  | began (n f a : Nat)

def Fate.req : Fate → Nat
  | replaced n => n
  | cancelled n => n
  | began n _ _ => n

/-- The entries with their links, the blocks, the processors, what is allocated, and what has been
asked for so far and has become of it. -/
structure State where
  toprev : Nat → Nat
  tonext : Nat → Nat
  trbOf : Nat → Nat
  head : Nat
  ncallo : Nat
  timers : Timers
  expiry : Nat → Expiry
  tosLive : Nat → Bool
  trbLive : Nat → Bool
  asked : List (Nat × Nat)
  hist : List Fate

namespace State

variable (s : State)

/-- The entry set for a function and its argument, 0 if there is none. -/
def findSet (f a : Nat) : Option Nat :=
  find s.tonext (fun k => (s.timers.trb (s.trbOf k)).tof = some f ∧
    (s.timers.trb (s.trbOf k)).funcData = a) (s.ncallo + 1) s.head

def findFree : Option Nat :=
  find s.tonext (fun k => (s.timers.trb (s.trbOf k)).tof = none) (s.ncallo + 1) s.head

/-- The entry `timeout` uses. -/
def choice (f a : Nat) : Option Nat := do
  let tos ← s.findSet f a
  if tos = 0 then s.findFree else some tos

/-- One attempt of `timeout`: `none` where an assertion fails, `false` where `tstop` refuses. -/
def timeout (ncpus cpu f a ticks now : Nat) : Option (Bool × State) :=
  if s.ncallo = 0 then none
  else do
    let tos ← s.choice f a
    if tos = 0 then none
    else
      let t := s.trbOf tos
      match Timers.tstop ncpus cpu t s.timers with
      | none => some (false, s)
      | some m => do
        let b : Trb :=
          { cpunum := (m.trb t).cpunum, pending := false, active := false, timeout := ticks,
            func := true, tof := some f, funcData := a, req := s.asked.length }
        let m ← Timers.tstart (s.ncallo + 1) cpu now t
          { m with
            knext := Function.update m.knext t 0
            kprev := Function.update m.kprev t 0
            trb := Function.update m.trb t b }
        let old := s.timers.trb t
        some (true,
          { s with
            timers := m
            asked := s.asked ++ [(f, a)]
            hist := s.hist ++ if old.tof = none then [] else [.replaced old.req] })

/-- One attempt of `untimeout`. -/
def untimeout (ncpus cpu f a : Nat) : Option (Bool × State) := do
  let tos ← s.findSet f a
  if tos = 0 then some (true, s)
  else
    let t := s.trbOf tos
    match Timers.tstop ncpus cpu t s.timers with
    | none => some (false, s)
    | some m =>
      some (true,
        { s with
          timers :=
            { m with
              knext := Function.update m.knext t 0
              kprev := Function.update m.kprev t 0
              trb := Function.update m.trb t { m.trb t with tof := none } }
          hist := s.hist ++ [Fate.cancelled (m.trb t).req] })

/-- `timeoutcf` adds an entry. -/
def grow (tos t : Nat) : State :=
  let b : Trb :=
    { cpunum := 0, pending := false, active := false, timeout := 0, func := false, tof := none,
      funcData := 0, req := 0 }
  { s with
    trbOf := Function.update s.trbOf tos t
    tonext := Function.update s.tonext tos s.head
    toprev := store (Function.update s.toprev tos 0) s.head tos
    head := tos
    ncallo := s.ncallo + 1
    timers :=
      { s.timers with
        knext := Function.update s.timers.knext t 0
        kprev := Function.update s.timers.kprev t 0
        trb := Function.update s.timers.trb t b }
    tosLive := Function.update s.tosLive tos true
    trbLive := Function.update s.trbLive t true }

/-- One attempt of `timeoutcf` to take an entry away. -/
def shrink (ncpus cpu : Nat) : Option (Bool × State) :=
  if s.head = 0 then none
  else do
    let tos ← s.findFree
    if tos = 0 then none
    else
      let t := s.trbOf tos
      match Timers.tstop ncpus cpu t s.timers with
      | none => some (false, s)
      | some m =>
        -- `tfree`
        if (m.trb t).pending ∨ (m.trb t).active then none
        else
          let n := s.tonext tos
          let s := { s with
            timers := m
            ncallo := s.ncallo - 1
            tosLive := Function.update s.tosLive tos false
            trbLive := Function.update s.trbLive t false }
          if s.head = tos then
            some (true,
              { s with
                head := n
                toprev := store s.toprev n 0 })
          else if s.toprev tos = 0 then none
          else
            some (true,
              { s with
                tonext := Function.update s.tonext (s.toprev tos) n
                toprev := store s.toprev n (s.toprev tos) })

def setExpiry (cpu : Nat) (e : Expiry) : State :=
  { s with expiry := Function.update s.expiry cpu e }

/-- `clock` takes the head of the active list. -/
def expire (cpu : Nat) : State :=
  let t := s.timers.tActive cpu
  { s with timers := s.timers.expire cpu }.setExpiry cpu (.called t (s.timers.trb t).req)

/-- The next step of a processor in `clock`; `none` where a null handler is called. -/
def advance (cpu : Nat) : Option State :=
  match s.expiry cpu with
  | .idle => some s
  | .called t r =>
    let b := s.timers.trb t
    if b.func then some (s.setExpiry cpu (.entered t r b.tof)) else none
  | .entered t r f =>
    let b := { s.timers.trb t with func := false, tof := none }
    some ({ s with timers.trb := Function.update s.timers.trb t b }.setExpiry cpu (.cleared t r f))
  | .cleared _ _ none => none
  | .cleared t r (some f) =>
    let a := (s.timers.trb t).funcData
    some ({ s with hist := s.hist ++ [Fate.began r f a] }.setExpiry cpu (.running t r f a))
  | .running t _ _ _ => some ({ s with timers := s.timers.finish cpu t }.setExpiry cpu .idle)

end State

/-- What can happen. `self` stands for calls made by the function that is running on the
processor. -/
inductive Act
  | timeout (cpu : Nat) (self : Bool) (f a ticks now : Nat)
  | untimeout (cpu : Nat) (self : Bool) (f a : Nat)
  | grow (tos t : Nat)
  | shrink (cpu : Nat)
  | expire (cpu now : Nat)
  | advance (cpu : Nat)

namespace State

/-- The function that is running on a processor. -/
def runs (s : State) (cpu f : Nat) : Prop := ∃ t r a, s.expiry cpu = .running t r f a

def Enabled (ncpus : Nat) (s : State) : Act → Prop
  | .timeout cpu self _ _ _ _ => cpu < ncpus ∧ (self = true → ∃ f, s.runs cpu f)
  | .untimeout cpu self _ _ => cpu < ncpus ∧ (self = true → ∃ f, s.runs cpu f)
  | .grow tos t => (tos ≠ 0 ∧ s.tosLive tos = false) ∧ t ≠ 0 ∧ s.trbLive t = false
  | .shrink cpu => cpu < ncpus
  | .expire cpu now =>
    cpu < ncpus ∧ s.expiry cpu = .idle ∧ s.timers.tActive cpu ≠ 0 ∧
      (s.timers.trb (s.timers.tActive cpu)).timeout ≤ now
  | .advance cpu => s.expiry cpu ≠ .idle

/-- One step: whether a call has returned, and the new state. -/
def step (ncpus : Nat) (s : State) : Act → Option (Bool × State)
  | .timeout cpu _ f a ticks now => s.timeout ncpus cpu f a ticks now
  | .untimeout cpu _ f a => s.untimeout ncpus cpu f a
  | .grow tos t => some (true, s.grow tos t)
  | .shrink cpu => s.shrink ncpus cpu
  | .expire cpu _ => some (true, s.expire cpu)
  | .advance cpu => (s.advance cpu).map fun s => (true, s)

end State

end Aix413.Callout
