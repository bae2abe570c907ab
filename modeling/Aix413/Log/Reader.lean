import Aix413.Log.Format

namespace Aix413.Log.Reader

open Format

inductive LogError
  | reformat
  | major
  deriving DecidableEq, Repr

/-- The log buffer pool of `logredo`: four pages, and what `logread` counts. -/
structure RedoLog where
  logsize : Nat
  loglastp : Nat
  lognumread : Nat
  nextrep : Nat
  logptr : Nat → Nat
  logp : Nat → LogPage

/-- `getpage`: the slot of the page in the pool, the page read in if need be. -/
def getpage (disk : Nat → Except LogError LogPage) (s : RedoLog) (pno : Nat) :
    Except LogError (RedoLog × Nat) :=
  match (List.range 4).find? (fun k => s.logptr k == pno) with
  | some k => .ok (s, k)
  | none =>
    match disk pno with
    | .error e => .error e
    | .ok p =>
      let k := (s.nextrep + 1) % 4
      .ok ({ s with
        nextrep := k
        logptr := Function.update s.logptr k pno
        logp := Function.update s.logp k p }, k)

/-- The `n` words of a page that end at word `j` of the data area. -/
def wordsBefore (p : LogPage) (j n : Nat) : List Word :=
  (List.range n).map (fun i => p.ldata (j - n + i))

def prevPageNo (logsize pno : Nat) : Nat := if pno - 1 = 1 then logsize - 1 else pno - 1

/-- `movewords`: the words that end at the offset, and where they begin. -/
def movewords (disk : Nat → Except LogError LogPage) (s : RedoLog) (nwords buf off : Nat) :
    Except LogError (RedoLog × Nat × Nat × List Word) :=
  let j := (off - 8) / 4
  let words := min nwords j
  let last := wordsBefore (s.logp buf) j words
  if words ≠ nwords ∨ j = words then
    match getpage disk s (prevPageNo s.logsize (s.logptr buf)) with
    | .error e => .error e
    | .ok (s, buf) =>
      .ok (s, buf, pagesize - 8 - 4 * (nwords - words),
        wordsBefore (s.logp buf) ldataWords (nwords - words) ++ last)
  else .ok (s, buf, off - 4 * words, last)

/-- `xorcheck`: whether the words up to the end of the last record agree with the
redundancy check, which logs before `LOGMAGICV4` do not have. -/
def xorcheck (v4 : Bool) (p : LogPage) : Bool :=
  let nbytes := BitVec.ofInt 32 (p.hEor.toInt - 8)
  let xor : Word := ((List.range (nbytes.toNat / 4)).map p.ldata).foldl (· ^^^ ·) 0
  !v4 || xor == (p.hXor ++ p.tXor : Word)

/-- A record as it is read: its address, its descriptor, its data. -/
structure Record where
  addr : Nat
  ld : LogRDesc
  data : List Word
  deriving DecidableEq, Repr

/-- The count of pages in `logread`. -/
def countPage (s : RedoLog) (pno : Nat) : Except LogError RedoLog :=
  if pno = s.loglastp then .ok s
  else if s.lognumread + 1 > s.logsize - 2 then .error .major
  else .ok { s with loglastp := pno, lognumread := s.lognumread + 1 }

/-- `logread`: the record at `logaddr`, and the address of the preceding one. -/
def logread (disk : Nat → Except LogError LogPage) (s : RedoLog) (logaddr : Nat) :
    Except LogError (RedoLog × Record × Nat) := do
  let s ← countPage s (logaddr / pagesize)
  let (s, buf) ← getpage disk s (logaddr / pagesize)
  let (s, buf, off, ws) ← movewords disk s 8 buf (logaddr % pagesize)
  let ld := LogRDesc.ofWords ws
  if ld.length.toInt > 0 then
    let (s, buf, off, data) ← movewords disk s ld.nwords buf off
    .ok (s, ⟨logaddr, ld, data⟩, s.logptr buf * pagesize + off)
  else .ok (s, ⟨logaddr, ld, []⟩, s.logptr buf * pagesize + off)

/-- Read `n` records backwards from `logaddr`. -/
def readBack (disk : Nat → Except LogError LogPage) :
    Nat → RedoLog → Nat → Except LogError (List Record)
  | 0, _, _ => .ok []
  | n + 1, s, logaddr => do
    let (s, r, prev) ← logread disk s logaddr
    let rs ← readBack disk n s prev
    .ok (r :: rs)

end Aix413.Log.Reader
