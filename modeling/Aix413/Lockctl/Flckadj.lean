import Aix413.Lockctl.LockTable

namespace Aix413.Lockctl.Flckadj

open LockTable

inductive StartRegion
  | sBefore
  | sStart
  | sMiddle
  | sEnd
  | sAfter
  deriving DecidableEq, Repr

inductive EndRegion
  | eBefore
  | eStart
  | eMiddle
  | eEnd
  | eAfter
  deriving DecidableEq, Repr

/-- The end region of `regflck`, from its second chain of tests. -/
def regflckEnd (ld : Eflock) (flp : Filock) : EndRegion :=
  if ld.lEnd < flp.set.lEnd then
    if ld.lEnd = flp.set.lStart - 1 then .eStart
    else if ld.lEnd < flp.set.lStart then .eBefore
    else .eMiddle
  else if ld.lEnd = flp.set.lEnd then .eEnd
  else .eAfter

/-- The span of a request relative to a lock that is already set. -/
def regflck (ld : Eflock) (flp : Filock) : StartRegion × EndRegion :=
  if ld.lStart > flp.set.lStart then
    if ld.lStart - 1 = flp.set.lEnd then (.sEnd, .eAfter)
    else if ld.lStart > flp.set.lEnd then (.sAfter, .eAfter)
    else (.sMiddle, regflckEnd ld flp)
  else if ld.lStart = flp.set.lStart then (.sStart, regflckEnd ld flp)
  else (.sBefore, regflckEnd ld flp)

/-- A set lock of another owner that stands in the way of `lckdat`. -/
def conflicts (f lckdat : Eflock) : Bool :=
  f.lType == .wrlck || (f.lType == .rdlck && lckdat.lType == .wrlck)

/-- First loop of `blocked`: the locks that start before the request. Either
it finds a blocker, or it gives the hint and the locks left for the second
loop. -/
def blockedBefore (lckdat : Eflock) : List Filock → Option Nat → Filock ⊕ (Option Nat × List Filock)
  | [], insrt => .inr (insrt, [])
  | f :: fs, insrt =>
    if f.set.lStart < lckdat.lStart then
      if sameOwner f.set lckdat then
        if lckdat.lStart - 1 ≤ f.set.lEnd then .inr (some f.addr, f :: fs)
        else blockedBefore lckdat fs (some f.addr)
      else if lckdat.lStart ≤ f.set.lEnd ∧ conflicts f.set lckdat then .inl f
      else blockedBefore lckdat fs (some f.addr)
    else .inr (insrt, f :: fs)

/-- Second loop of `blocked`. -/
def blockedAfter (lckdat : Eflock) : List Filock → Option Filock
  | [] => none
  | f :: fs =>
    if lckdat.lEnd < f.set.lStart then none
    else if lckdat.lStart ≤ f.set.lEnd ∧ ¬ sameOwner f.set lckdat ∧ conflicts f.set lckdat then some f
    else blockedAfter lckdat fs

/-- `blocked`: the lock in the way, if any, and the insertion hint. When a
blocker is found by the first loop the hint is the blocker itself. -/
def blocked (flp : List Filock) (lckdat : Eflock) : Option Filock × Option Nat :=
  match blockedBefore lckdat flp none with
  | .inl f => (some f, some f.addr)
  | .inr (insrt, rest) => (blockedAfter lckdat rest, insrt)

/-- State of the scan of `flckadj`: the locks already passed, those not yet
reached, the insertion point and the request as widened so far. -/
structure Scan where
  mem : Mem
  done : List Filock
  insrtp : Option Nat
  ld : Eflock
  deriving Repr

/-- How the scan ends: it returns early, or the rest of the list stands and
the request is to be inserted. -/
inductive Scanned
  | early (mem : Mem) (list : List Filock) (ld : Eflock) (rc : Bool)
  | insert (mem : Mem) (list : List Filock) (insrtp : Option Nat) (ld : Eflock)
  deriving Repr

/-- `flp->prev`. -/
def prev (done : List Filock) : Option Nat := done.getLast?.map Filock.addr

/-- `LOCK_WAKEUP(flp)` followed by `delflck(lck_list, flp)`. -/
def wakeDelete (m : Mem) (flp : Filock) : Mem := delflck (lockWakeup m flp) flp.addr

/-- The place of the piece after an (un)lock: past every lock that starts
before it. `flp` itself always does. -/
def placePiece (new : Filock) (l : List Filock) : List Filock :=
  l.takeWhile (fun f => f.set.lStart < new.set.lStart) ++
    new :: l.dropWhile (fun f => f.set.lStart < new.set.lStart)

def trimEnd (flp : Filock) (e : Int) : Filock := { flp with set := { flp.set with lEnd := e } }

/-- The part of `flp` past the end of the request is set up as a new lock.
The second component is the list after `flp`. -/
def splitAfter (m : Mem) (flp : Filock) (ld : Eflock) (rest : List Filock) :
    Option (Mem × List Filock) :=
  match takeFree m with
  | none => none
  | some (a, m) => some (m, placePiece (freshFilock a { flp.set with lStart := ld.lEnd + 1 }) rest)

/-- The case `S_BEFORE|E_MIDDLE`, shared by the two cases that fall into it.
The flag `keep` tells the case `S_MIDDLE|E_MIDDLE`, which keeps the front
of `flp`. -/
def middleCase (s : Scan) (flp : Filock) (rest : List Filock) (keep : Bool) : Scanned :=
  if s.ld.lType = flp.set.lType then
    .insert (wakeDelete s.mem flp) (s.done ++ rest) s.insrtp { s.ld with lEnd := flp.set.lEnd }
  else
    match splitAfter s.mem flp s.ld rest with
    | none => .early s.mem (s.done ++ flp :: rest) s.ld false
    | some (m, rest) =>
      if keep then
        .insert (lockWakeup m flp) (s.done ++ trimEnd (wokenLock m flp) (s.ld.lStart - 1) :: rest)
          (some flp.addr) s.ld
      else .insert (wakeDelete m flp) (s.done ++ rest) s.insrtp s.ld

/-- The `while` loop of `flckadj` over the locks from `insrtp` on. -/
def scan (s : Scan) : List Filock → Scanned
  | [] => .insert s.mem s.done s.insrtp s.ld
  | flp :: rest =>
    if sameOwner flp.set s.ld then
      match regflck s.ld flp with
      | (.sBefore, .eBefore) => .insert s.mem (s.done ++ flp :: rest) s.insrtp s.ld
      | (.sBefore, .eStart) =>
        if s.ld.lType = flp.set.lType then
          .insert (wakeDelete s.mem flp) (s.done ++ rest) s.insrtp { s.ld with lEnd := flp.set.lEnd }
        else .insert s.mem (s.done ++ flp :: rest) s.insrtp s.ld
      | (.sStart, .eEnd) =>
        if s.ld.lType = flp.set.lType then .early s.mem (s.done ++ flp :: rest) s.ld true
        else scan ⟨wakeDelete s.mem flp, s.done, prev s.done, s.ld⟩ rest
      | (.sStart, .eAfter) => scan ⟨wakeDelete s.mem flp, s.done, prev s.done, s.ld⟩ rest
      | (.sBefore, .eEnd) =>
        if s.ld.lType = flp.set.lType then
          .insert (wakeDelete s.mem flp) (s.done ++ rest) s.insrtp s.ld
        else scan { s with mem := wakeDelete s.mem flp } rest
      | (.sBefore, .eAfter) => scan { s with mem := wakeDelete s.mem flp } rest
      | (.sStart, .eMiddle) =>
        if s.ld.lType = flp.set.lType then .early s.mem (s.done ++ flp :: rest) s.ld true
        else middleCase { s with insrtp := prev s.done } flp rest false
      | (.sMiddle, .eMiddle) =>
        if s.ld.lType = flp.set.lType then .early s.mem (s.done ++ flp :: rest) s.ld true
        else middleCase s flp rest true
      | (.sBefore, .eMiddle) => middleCase s flp rest false
      | (.sMiddle, .eEnd) =>
        if s.ld.lType = flp.set.lType then .early s.mem (s.done ++ flp :: rest) s.ld true
        else
          scan ⟨lockWakeup s.mem flp,
            s.done ++ [trimEnd (wokenLock s.mem flp) (s.ld.lStart - 1)], some flp.addr, s.ld⟩ rest
      | (.sMiddle, .eAfter) =>
        if s.ld.lType = flp.set.lType then
          scan ⟨wakeDelete s.mem flp, s.done, prev s.done, { s.ld with lStart := flp.set.lStart }⟩ rest
        else
          scan ⟨lockWakeup s.mem flp,
            s.done ++ [trimEnd (wokenLock s.mem flp) (s.ld.lStart - 1)], some flp.addr, s.ld⟩ rest
      | (.sEnd, .eAfter) =>
        if s.ld.lType = flp.set.lType then
          scan ⟨wakeDelete s.mem flp, s.done, prev s.done, { s.ld with lStart := flp.set.lStart }⟩ rest
        else scan { s with done := s.done ++ [flp] } rest
      | (.sAfter, .eAfter) => scan { s with done := s.done ++ [flp], insrtp := some flp.addr } rest
      | _ => scan { s with done := s.done ++ [flp] } rest
    else scan { s with done := s.done ++ [flp] } rest

/-- Where the request goes: from `insrtp` on, past every lock that starts
before it. -/
def advance (ld : Eflock) : Option Nat → List Filock → Option Nat
  | none, _ => none
  | some a, l =>
    let from_ := l.dropWhile (fun f => f.addr != a)
    ((from_.takeWhile (fun f => f.set.lStart < ld.lStart)).getLast?.map Filock.addr).or (some a)

/-- The locks before `insrtp` and those from it on. -/
def splitAt (a : Option Nat) (l : List Filock) : List Filock × List Filock :=
  match a with
  | none => ([], l)
  | some a => l.span (fun f => f.addr != a)

/-- What `flckadj` leaves: the request is widened in place, and `rc` is false
for `ENOLCK`. -/
structure Result where
  mem : Mem
  list : List Filock
  ld : Eflock
  rc : Bool
  deriving Repr

/-- `flckadj`. -/
def flckadj (m : Mem) (l : List Filock) (insrtp : Option Nat) (ld : Eflock) : Result :=
  match scan ⟨m, (splitAt insrtp l).1, insrtp, ld⟩ (splitAt insrtp l).2 with
  | .early m l ld rc => ⟨m, l, ld, rc⟩
  | .insert m l insrtp ld =>
    if ld.lType = .unlck then ⟨m, l, ld, true⟩
    else
      match insflck m l ld (advance ld insrtp l) with
      | none => ⟨m, l, ld, false⟩
      | some (m, l) => ⟨m, l, ld, true⟩

end Aix413.Lockctl.Flckadj
