import Mathlib.Tactic

namespace Aix413.Ipc

/-! ## Identifier tables -/

def ipcCreat : BitVec 32 := BitVec.ofNat 32 0o1000
def ipcExcl : BitVec 32 := BitVec.ofNat 32 0o2000
def ipcAlloc : BitVec 32 := BitVec.ofNat 32 0o100000
def permBits : BitVec 32 := BitVec.ofNat 32 0o777
def ipcPrivate : Int := 0

structure Perm where
  uid : Nat
  gid : Nat
  cuid : Nat
  cgid : Nat
  mode : BitVec 32
  key : Int

def Perm.allocated (p : Perm) : Bool := p.mode &&& ipcAlloc ≠ 0

/-- The entries of a facility and its high water mark. -/
structure Table where
  perm : Nat → Perm
  mark : Nat

/-- What a caller gives, with its effective ids. -/
structure Args where
  key : Int
  flag : BitVec 32
  euid : Nat
  egid : Nat

inductive Errno
  | eexist
  | eacces
  | enoent
  | enospc
deriving DecidableEq

/-- What `ipcget` returns: an entry found (status 0), a new one (status 1), or none. -/
inductive Result
  | existing (i : Nat)
  | created (i : Nat)
  | failed (e : Errno)
deriving DecidableEq

namespace Args

variable (g : Args)

def newmode : BitVec 32 := ipcAlloc ||| (g.flag &&& permBits)

def creates : Bool := g.flag &&& ipcCreat ≠ 0

end Args

namespace Table

/-- An entry is read; there are `cnt`. -/
def read (cnt : Nat) (t : Table) (i : Nat) : Option Perm :=
  if i < cnt then some (t.perm i) else none

def write (t : Table) (i : Nat) (p : Perm) : Table := { t with perm := Function.update t.perm i p }

variable (cnt : Nat) (t : Table)

/-- The next `n` entries, up to one that is free. -/
def firstFree : Nat → Nat → Option (Option Nat)
  | 0, _ => some none
  | n + 1, i => do
    let p ← t.read cnt i
    if p.allocated then firstFree n (i + 1) else some (some i)

/-- The search for a key: a result, or the first free entry. -/
def findKey (g : Args) : Nat → Nat → Option Nat → Option (Result ⊕ Option Nat)
  | 0, _, a => some (.inr a)
  | n + 1, i, a => do
    let p ← t.read cnt i
    if p.allocated then
      if p.key = g.key then
        if g.flag &&& (ipcCreat ||| ipcExcl) = ipcCreat ||| ipcExcl then
          some (.inl (.failed .eexist))
        else if g.flag &&& permBits &&& ~~~p.mode ≠ 0 then some (.inl (.failed .eacces))
        else some (.inl (.existing i))
      else findKey g n (i + 1) a
    else findKey g n (i + 1) (a.or (some i))

end Table

/-! ## Uniprocessor build -/

/-- The label `init`. -/
def initUp (cnt : Nat) (g : Args) (i : Nat) (t : Table) : Option (Result × Table) :=
  if i < cnt then
    some (.created i, t.write i ⟨g.euid, g.egid, g.euid, g.egid, g.newmode, g.key⟩)
  else none

/-- `ipcget`, called with the lock of the facility held. -/
def ipcgetUp (cnt : Nat) (g : Args) (t : Table) : Option (Result × Table) :=
  if g.key = ipcPrivate then do
    match ← t.firstFree cnt t.mark 0 with
    | some i => initUp cnt g i t
    | none =>
      if t.mark < cnt then initUp cnt g t.mark { t with mark := t.mark + 1 }
      else some (.failed .enospc, t)
  else do
    match ← t.findKey cnt g t.mark 0 none with
    | .inl r => some (r, t)
    | .inr a =>
      if g.creates then
        match a with
        | some i => initUp cnt g i t
        | none =>
          if t.mark < cnt then initUp cnt g t.mark { t with mark := t.mark + 1 }
          else some (.failed .enospc, t)
      else some (.failed .enoent, t)

/-! ## Multiprocessor build -/

/-- Where a call is: before a `compare_and_swap`, or in its caller, which sets up the entry. -/
inductive Place
  | anyFree (i inmark : Nat)
  | belowMark (a base : Nat)
  | beyondMark (base i : Nat)
  | setup (i : Nat)

structure Call extends Args where
  place : Place

/-- The scan for a private key, with `n` entries to come. -/
def scanAny (cnt : Nat) (t : Table) (inmark : Nat) : Nat → Nat → Option (Result ⊕ Place)
  | 0, _ => some (.inl (.failed .enospc))
  | n + 1, i => do
    let p ← t.read cnt i
    if p.allocated then scanAny cnt t inmark n (i + 1) else some (.inr (.anyFree i inmark))

/-- The scan beyond the mark goes on with the counter `i` of the search. -/
def scanBeyond (cnt : Nat) (t : Table) : Nat → Nat → Nat → Option (Result ⊕ Place)
  | 0, _, _ => some (.inl (.failed .enospc))
  | n + 1, base, i => do
    let p ← t.read cnt base
    if p.allocated then scanBeyond cnt t n (base + 1) (i + 1)
    else some (.inr (.beyondMark base (i + 1)))

/-- From the call of `ipcget` to its first `compare_and_swap`. -/
def startMp (cnt : Nat) (g : Args) (t : Table) : Option (Result ⊕ Place) :=
  if g.key = ipcPrivate then scanAny cnt t t.mark cnt 0
  else do
    match ← t.findKey cnt g t.mark 0 none with
    | .inl r => some (.inl r)
    | .inr a =>
      if g.creates then
        match a with
        | some i => some (.inr (.belowMark i t.mark))
        | none => scanBeyond cnt t (cnt - (t.mark + 1)) t.mark (t.mark + 1)
      else some (.inl (.failed .enoent))

/-- `compare_and_swap` has stored the new mode, and the rest of `ipcget` is done. -/
def initMp (g : Args) (i : Nat) (raise : Bool) (t : Table) : Table :=
  let p := t.perm i
  let t := t.write i ⟨g.euid, g.egid, g.euid, g.egid, g.newmode, p.key⟩
  if raise then { t with mark := t.mark + 1 } else t

/-- From one `compare_and_swap` to the next. -/
def casMp (cnt : Nat) (g : Args) (t : Table) : Place → Option ((Result ⊕ Place) × Table)
  | .anyFree i inmark => do
    let p ← t.read cnt i
    if p.mode = 0 then some (.inl (.created i), initMp g i (inmark ≤ i + 1) t)
    else
      let r ← scanAny cnt t inmark (cnt - (i + 1)) (i + 1)
      some (r, t)
  | .belowMark a base => do
    let p ← t.read cnt a
    if p.mode = 0 then some (.inl (.created a), initMp g a false t)
    else
      let r ← scanBeyond cnt t (cnt - (base + 1)) base (base + 1)
      some (r, t)
  | .beyondMark base i => do
    let p ← t.read cnt base
    if p.mode = 0 then some (.inl (.created base), initMp g base true t)
    else
      let r ← scanBeyond cnt t (cnt - i) (base + 1) i
      some (r, t)
  | .setup i => some (.inr (.setup i), t)

/-- The table, the calls in progress, and who holds the lock for keyed creations. -/
structure Mp where
  table : Table
  calls : Nat → Option Call
  creat : Option Nat

inductive Act
  | start (k : Nat) (g : Args)
  | cas (k : Nat)
  /-- The caller sets the key of its new entry, or gives the entry up. -/
  | finish (k : Nat) (ok : Bool)
  | free (i : Nat)
  /-- The key is taken off an entry that is still in use. -/
  | forget (i : Nat)

def Args.locks (g : Args) : Bool := g.key ≠ ipcPrivate ∧ g.creates = true

namespace Mp

/-- Call `k` goes to `place`. -/
def goes (s : Mp) (k : Nat) (g : Args) (place : Place) : Mp :=
  { s with
    calls := Function.update s.calls k (some ⟨g, place⟩)
    creat := if g.locks then some k else s.creat }

def ends (s : Mp) (k : Nat) : Mp :=
  { s with
    calls := Function.update s.calls k none
    creat := if s.creat = some k then none else s.creat }

/-- `ipcget` returns, or goes on. -/
def answer (s : Mp) (k : Nat) (g : Args) : Result ⊕ Place → Option Result × Mp
  | .inl (.created i) => (some (.created i), s.goes k g (.setup i))
  | .inl r => (some r, s.ends k)
  | .inr place => (none, s.goes k g place)

def settingUp (s : Mp) (i : Nat) : Prop := ∃ k c, s.calls k = some c ∧ c.place = .setup i

/-- What can be done: keyed creations wait for the lock, and only entries that have been set up are
freed. -/
def Enabled (s : Mp) : Act → Prop
  | .start k g => s.calls k = none ∧ (g.locks = true → s.creat = none)
  | .cas k => ∃ c, s.calls k = some c ∧ ∀ i, c.place ≠ .setup i
  | .finish k _ => ∃ c i, s.calls k = some c ∧ c.place = .setup i
  | .free i => (s.table.perm i).allocated = true ∧ ¬s.settingUp i
  | .forget i => (s.table.perm i).allocated = true ∧ ¬s.settingUp i

/-- One step; it fails where an entry outside the table is read. -/
def step (cnt : Nat) (s : Mp) : Act → Option (Option Result × Mp)
  | .start k g => (startMp cnt g s.table).map (s.answer k g)
  | .cas k =>
    match s.calls k with
    | none => some (none, s)
    | some c =>
      (casMp cnt c.toArgs s.table c.place).map fun (r, t) =>
        { s with table := t }.answer k c.toArgs r
  | .finish k ok =>
    match s.calls k with
    | some ⟨g, .setup i⟩ =>
      let p := s.table.perm i
      let p := if ok then { p with key := g.key } else { p with mode := 0 }
      some (none, { s with table := s.table.write i p }.ends k)
    | _ => some (none, s)
  | .free i =>
    let p := { s.table.perm i with key := ipcPrivate, mode := 0 }
    some (none, { s with table := s.table.write i p })
  | .forget i =>
    let p := { s.table.perm i with key := ipcPrivate }
    some (none, { s with table := s.table.write i p })

end Mp

end Aix413.Ipc
