import Mathlib.Data.Nat.Log
import Mathlib.Tactic

namespace Aix413.Bucket

/-! ## Storage -/

/-- What `getpagesize` returns. -/
def pageSize : Nat := 4096

/-- `sizeof (union overhead)`. -/
def overhead : Nat := 8

def magic : Nat := 0xef

def nbuckets : Nat := 30

def maxFreeSave : Nat := 30

/-- The address that a failing `sbrk` returns. -/
def failed : Nat := 2 ^ 32 - 1

/-- Subtraction of unsigned words. -/
def sub (a b : Nat) : Nat := (a + 2 ^ 32 - b) % 2 ^ 32

structure State where
  pagesz : Nat
  pagebucket : Nat
  sbrkadjust : Bool
  nextf : Nat → Nat
  blockIncr : Nat → Nat
  nmalloc : Nat → Nat
  /-- `free_save`, as far as it is used. -/
  saved : List Nat
  ovfl : Nat
  /-- The word at each address. -/
  word : Nat → Nat
  brk : Nat
  /-- The outstanding blocks with their buckets. -/
  live : List (Nat × Nat)

/-- Which of the calls of `sbrk` in one `malloc` succeed. -/
structure Grants where
  first : Bool
  grow : Bool
  align : Bool

namespace State

variable (s : State)

/-- The program break moves on from where it was. -/
def sbrk (incr : Int) (ok : Bool) : Nat × State :=
  if ok = true ∧ 0 ≤ s.brk + incr ∧ s.brk + incr < 2 ^ 32 then
    (s.brk, { s with brk := (s.brk + incr).toNat })
  else (failed, s)

/-- The bytes before the next header that puts its data on a page. -/
def slack (pagesz op : Nat) : Int :=
  let n : Int := pagesz - overhead - (op % pagesz : Nat)
  if n < 0 then n + pagesz else n

/-! ## Buckets -/

/-- The loop of `__whatbucket`, in 32-bit arithmetic. -/
def bucketFrom (nbytes n : Nat) : Nat → Nat → Nat → Int
  | 0, _, _ => -1
  | fuel + 1, amt, bucket =>
    if (amt + n) % 2 ^ 32 < nbytes then
      let amt := amt * 2 % 2 ^ 32
      if amt = 0 ∨ 2 ^ 31 ≤ amt then -1 else bucketFrom nbytes n fuel amt (bucket + 1)
    else bucket

/-- `__whatbucket`. -/
def whatbucket (nbytes : Nat) : Int :=
  let n := (s.pagesz + 2 ^ 32 - overhead) % 2 ^ 32
  if nbytes ≤ n then bucketFrom nbytes (2 ^ 32 - overhead) 32 8 0
  else bucketFrom nbytes n 32 s.pagesz s.pagebucket

def cntlz (x : Nat) : Nat := if x = 0 then 32 else 31 - Nat.log2 x

/-- `_WhatBucket`, in assembler. -/
def whatBucket (nbytes : Nat) : Int :=
  let r7 := (nbytes + overhead) % 2 ^ 32
  -- `cmpi` compares signed words
  if 4088 ≤ nbytes ∧ nbytes < 2 ^ 31 then s.whatbucket nbytes
  else
    let r5 := cntlz r7
    let r6 := 2 ^ 31 / 2 ^ r5
    let r3 : Int := 29 - r5
    if r6 < r7 then r3 else r3 - 1

/-! ## Splitting a block -/

def freeblock (op bucket : Nat) : State :=
  { s with
    word := Function.update s.word op (s.nextf bucket)
    nextf := Function.update s.nextf bucket op }

/-- `do … while ((rest -= sz) > 0)`, with `rest` unsigned. -/
def chop (bucket sz : Nat) : Nat → State → Nat → Nat → Option (State × Nat)
  | 0, _, _, _ => none
  | fuel + 1, s, op, rest =>
    let s := s.freeblock op bucket
    let rest := sub rest sz
    if 0 < rest then chop bucket sz fuel s (op + sz) rest else some (s, op + sz)

/-- `while (oamt > 0)`. -/
def spread (nbucket namt : Nat) : Nat → State → Nat → Nat → Option State
  | 0, _, _, _ => none
  | fuel + 1, s, op, oamt =>
    if oamt = 0 then some s
    else if s.pagesz < oamt then
      let bucket := (s.whatBucket (oamt - overhead)).toNat
      let bucket := if oamt < 2 ^ (bucket + 3) + s.pagesz then bucket - 1 else bucket
      let sz := 2 ^ (bucket + 3) + s.pagesz
      spread nbucket namt fuel (s.freeblock op bucket) (op + sz) (sub oamt sz)
    else do
      let bucket := if namt < s.pagesz then nbucket else s.pagebucket - 1
      let (s, op) ← chop bucket (2 ^ (bucket + 3)) (oamt + 1) s op oamt
      spread nbucket namt fuel s op 0

/-- The new bucket of the front of the block. -/
def carve (op obucket nbucket : Nat) : State :=
  let s := { s with
    word := Function.update s.word (op + 4) nbucket
    nmalloc := Function.update s.nmalloc obucket (sub (s.nmalloc obucket) 1) }
  { s with nmalloc := Function.update s.nmalloc nbucket ((s.nmalloc nbucket + 1) % 2 ^ 32) }

def fracture (op obucket nbytes : Nat) : Option State :=
  let oamt := 2 ^ (obucket + 3)
  let oamt := if s.pagesz ≤ oamt then oamt + s.pagesz else oamt
  let nbucket := (s.whatBucket nbytes).toNat
  let namt := 2 ^ (nbucket + 3)
  let s := s.carve op obucket nbucket
  if namt < s.pagesz then do
    let sz := if oamt < s.pagesz then sub oamt namt else sub s.pagesz namt
    let oamt := if oamt < s.pagesz then 0 else sub oamt s.pagesz
    let (s, op) ← chop nbucket namt (sz + 1) s (op + namt) sz
    s.spread nbucket namt (oamt + 1) op oamt
  else
    let namt := namt + s.pagesz
    let oamt := sub oamt namt
    s.spread nbucket namt (oamt + 1) (op + namt) oamt

/-! ## Growing -/

/-- `while (pagesz > amt)`. -/
def sizeBucket (pagesz : Nat) : Nat → Nat → Nat → Nat
  | 0, _, sbucket => sbucket
  | fuel + 1, amt, sbucket =>
    if amt < pagesz then sizeBucket pagesz fuel (amt * 2) (sbucket + 1) else sbucket

/-- What `morecore` does the first time; `false` if it returns at once. -/
def setup (ok : Bool) : Bool × State :=
  let s := { s with pagesz := pageSize }
  let op := s.brk
  let n := slack s.pagesz op
  let (r, s) := if n = 0 then (0, s) else s.sbrk n ok
  if r = failed then (false, s)
  else (true, { s with
    sbrkadjust := decide ((s.brk : Int) ≠ n + op)
    pagebucket := sizeBucket s.pagesz 32 8 0 })

/-- Gets storage and puts its first header in place. -/
def obtain (amt : Int) (o : Grants) : Nat × State :=
  let (op, s) := s.sbrk amt o.grow
  if op = failed then (op, s)
  else
    let n := slack s.pagesz op
    if n = 0 then (op, s)
    else
      let (r, s) := s.sbrk n o.align
      if 0 < r then (op + n.toNat + (if s.sbrkadjust then overhead else 0), s)
      else (failed, (s.sbrk (-amt) true).2)

/-- Takes room from a larger bucket. -/
def steal (bucket nbytes : Nat) : Option State :=
  match (List.range nbuckets).find? fun k => decide (bucket < k ∧ s.nextf k ≠ 0) with
  | none => some s
  | some sbucket => do
    let op := s.nextf sbucket
    let s ← s.fracture op sbucket nbytes
    let s := { s with nextf := Function.update s.nextf sbucket (s.word op) }
    some (s.freeblock op bucket)

/-- The links of `k` more blocks after the one at `op`. -/
def linkBlocks (sz : Nat) : Nat → (Nat → Nat) → Nat → Nat → Nat
  | 0, word, op => Function.update word op 0
  | k + 1, word, op => linkBlocks sz k (Function.update word op (op + sz)) (op + sz)

def prepare (o : Grants) : Bool × State :=
  if s.pagesz = 0 then s.setup o.first else (true, s)

def nblks (bucket : Nat) : Nat := if 2 ^ (bucket + 3) < s.pagesz then s.blockIncr bucket else 1

/-- `amt`, a signed word. -/
def amount (bucket : Nat) : Int :=
  if 2 ^ (bucket + 3) < s.pagesz then Int.bmod (s.blockIncr bucket * 2 ^ (bucket + 3)) (2 ^ 32)
  else 2 ^ (bucket + 3) + s.pagesz

def bump (bucket : Nat) : State :=
  if 2 ^ (bucket + 3) < s.pagesz then
    { s with blockIncr := Function.update s.blockIncr bucket (s.blockIncr bucket + 0x20) }
  else s

def morecore (o : Grants) (bucket : Nat) : Option State :=
  let (go, s) := s.prepare o
  if go = false ∨ Int.bmod (2 ^ (bucket + 3)) (2 ^ 32) ≤ 0 then some s
  else
    let sz := 2 ^ (bucket + 3)
    let nblks := s.nblks bucket
    let amt := s.amount bucket
    let (op, s) := (s.bump bucket).obtain amt o
    if op = failed then
      s.steal bucket ((if sz < s.pagesz then (sz : Int) else amt) - overhead).toNat
    else
      let op := if s.sbrkadjust then op - overhead else op
      some { s with
        nextf := Function.update s.nextf bucket op
        word := linkBlocks sz (nblks - 1) s.word op }

/-! ## Calls -/

/-- If nothing is in the bucket, more memory is requested. -/
def fill (o : Grants) (bucket : Nat) : Option State :=
  if s.nextf bucket = 0 then s.morecore o bucket else some s

/-- The pointer, null if there is no memory. -/
def malloc (o : Grants) (nbytes : Nat) : Option (Nat × State) :=
  if nbytes = 0 then some (0, s)
  else if s.whatBucket nbytes < 0 then some (0, s)
  else do
    let bucket := (s.whatBucket nbytes).toNat
    let s ← s.fill o bucket
    let op := s.nextf bucket
    if op = 0 then some (0, s)
    else
      some (op + overhead, { s with
        nextf := Function.update s.nextf bucket (s.word op)
        word := Function.update (Function.update s.word op magic) (op + 4) bucket
        nmalloc := Function.update s.nmalloc bucket ((s.nmalloc bucket + 1) % 2 ^ 32)
        saved := []
        ovfl := if s.saved = [] then s.ovfl else 0
        live := (op, bucket) :: s.live })

/-- The bucket that `free` counts the block in, and the saved pointers. -/
def save (cp size : Nat) : Nat × State :=
  if s.pagebucket ≤ size then
    if s.saved.length = maxFreeSave then
      let op := s.saved.getD s.ovfl 0 - overhead
      if s.word op ≠ magic then
        (s.word (op + 4), { s with
          saved := s.saved.set s.ovfl cp
          ovfl := (s.ovfl + 1) % maxFreeSave })
      else (size, s)
    else (size, { s with saved := s.saved ++ [cp] })
  else (size, s)

def free (cp : Nat) : State :=
  if cp = 0 then s
  else
    let op := cp - overhead
    if s.word op ≠ magic then s
    else
      let size := s.word (op + 4)
      let (size', s) := (s.freeblock op size).save cp size
      { s with
        nmalloc := Function.update s.nmalloc size' (sub (s.nmalloc size') 1)
        live := s.live.filter fun b => b.1 ≠ op }

/-- The bytes for data, as `realloc` computes them from `1 << k`. -/
def usable (k : Nat) : Nat :=
  let onb := 2 ^ k
  if onb < s.pagesz then onb - overhead else onb + (s.pagesz - overhead)

def realloc (o : Grants) (cp nbytes : Nat) : Option (Nat × State) :=
  if cp = 0 then s.malloc o nbytes
  else
    let op := cp - overhead
    let i := s.word (op + 4)
    if s.word op = magic then
      if nbytes = 0 then some (0, s.free cp)
      else if nbytes ≤ s.usable (i + 3) ∧ (if i = 0 then 0 else s.usable (i + 2)) < nbytes then
        some (cp, s)
      else do
        let (res, s) ← s.malloc o nbytes
        if res = 0 then some (0, s) else some (res, s.free cp)
    -- a block that is already free is copied only
    else if nbytes = 0 then some (0, s)
    else s.malloc o nbytes

end State

end Aix413.Bucket
