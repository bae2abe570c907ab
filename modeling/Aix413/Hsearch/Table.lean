import Aix413.Lib.OpenAddressing
import Mathlib.Data.BitVec

namespace Aix413.Hsearch

/-! ## The hash table -/

/-- The characters of a key, without the one that ends it. -/
abbrev Key := List UInt8

structure Entry (α : Type) where
  key : Key
  data : α
deriving DecidableEq

structure HsearchData (α : Type) where
  table : Nat → Option (Entry α)
  length : BitVec 32
  /-- The logarithm of `length`. -/
  dim : BitVec 32
  /-- Probes of the last search. -/
  prcnt : BitVec 32
  count : BitVec 32

inductive Action
  | find
  | enter
deriving DecidableEq

/-- What `hsearch_r` returns: the slot of the entry, or `errno`. -/
inductive Result
  | found (i : BitVec 32)
  | esrch
  | enomem
deriving DecidableEq

variable {α : Type}

def crunch (key : Key) : BitVec 32 :=
  (key.map fun c => BitVec.ofNat 32 c.toNat).sum + BitVec.ofNat 32 key.length

def factor : BitVec 32 := BitVec.ofNat 32 0o35761254233

namespace HsearchData

variable (d : HsearchData α)

def shift : Nat := (32 - d.dim).toNat

def hash (key : Key) : BitVec 32 := (crunch key * factor) >>> d.shift

def hash2 (key : Key) : BitVec 32 := ((crunch key * factor) <<< d.dim.toNat) >>> d.shift ||| 1

/-- From the label `D4` on, with `c` the secondary probe displacement. -/
def probe (key : Key) (c : BitVec 32) : Nat → BitVec 32 → BitVec 32 →
    Option (BitVec 32 × BitVec 32)
  | 0, _, _ => none
  | fuel + 1, i, prcnt =>
    let i := (i + c) % d.length
    let prcnt := prcnt + 1
    match d.table i.toNat with
    | none => some (i, prcnt)
    | some e => if e.key = key then some (i, prcnt) else probe key c fuel i prcnt

/-- The slot that is empty or holds the key. -/
def slot (fuel : Nat) (key : Key) : Option (BitVec 32 × BitVec 32) :=
  let i := d.hash key
  match d.table i.toNat with
  | none => some (i, 1)
  | some e => if e.key = key then some (i, 1) else d.probe key (d.hash2 key) fuel i 1

def hsearch (fuel : Nat) (item : Entry α) (action : Action) : Option (Result × HsearchData α) :=
  (d.slot fuel item.key).map fun (i, prcnt) =>
    let d := { d with prcnt := prcnt }
    match d.table i.toNat with
    | some _ => (.found i, d)
    | none =>
      if action = .find then (.esrch, d)
      else if d.count = d.length - 1 then (.enomem, d)
      else
        (.found i,
          { d with count := d.count + 1, table := Function.update d.table i.toNat (some item) })

end HsearchData

/-- The loop of `hcreate`. -/
def createLoop : Nat → BitVec 32 → BitVec 32 → BitVec 32 → Option (BitVec 32 × BitVec 32)
  | 0, _, _, _ => none
  | fuel + 1, unsize, length, dim =>
    if unsize = 0 then some (length, dim)
    else createLoop fuel (unsize >>> 1) (length <<< 1) (dim + 1)

/-- `hcreate`: nothing is made for no entries or without memory. -/
def hcreate (fuel : Nat) (size : BitVec 32) (memory : Bool) (d : HsearchData α) :
    Option (Bool × HsearchData α) :=
  if size = 0 then some (false, d)
  else
    (createLoop fuel size 1 0).map fun (length, dim) =>
      let d := { d with length := length, dim := dim, count := 0 }
      if memory then (true, { d with table := fun _ => none }) else (false, d)

/-- Searches one after the other. -/
def searches (fuel : Nat) : List (Entry α × Action) → HsearchData α →
    Option (List Result × HsearchData α)
  | [], d => some ([], d)
  | (item, action) :: ops, d => do
    let (r, d) ← d.hsearch fuel item action
    let (rs, d) ← searches fuel ops d
    some (r :: rs, d)

/-! ## What the table is for -/

inductive Answer (α : Type)
  | entry (e : Entry α)
  | missing
  | full

/-- A map of at most `room` entries, in the order in which they have been entered. -/
def answer (room : Nat) (m : List (Entry α)) (item : Entry α) (action : Action) :
    Answer α × List (Entry α) :=
  match m.find? fun e => e.key = item.key with
  | some e => (.entry e, m)
  | none =>
    if action = .find then (.missing, m)
    else if m.length = room then (.full, m)
    else (.entry item, m ++ [item])

def answers (room : Nat) : List (Entry α × Action) → List (Entry α) →
    List (Answer α) × List (Entry α)
  | [], m => ([], m)
  | (item, action) :: ops, m =>
    let (a, m) := answer room m item action
    let (as, m) := answers room ops m
    (a :: as, m)

/-- The result stands for the answer: an entry is where the pointer leads. -/
def Result.Gives (d : HsearchData α) : Result → Answer α → Prop
  | .found i, .entry e => d.table i.toNat = some e
  | .esrch, .missing => True
  | .enomem, .full => True
  | _, _ => False

end Aix413.Hsearch
