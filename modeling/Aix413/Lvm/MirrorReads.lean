import Aix413.Lvm.Recovery

namespace Aix413.Lvm.Sched

/-! ## Mirrored reads -/

namespace MirRead

/-- The routine `pb_sched` of an ordinary read points to. -/
inductive Routine where
  | mirread
  | fixup
deriving DecidableEq

structure Pbuf where
  sched : Routine := .mirread
  /-- The `B_READ` flag. -/
  read : Bool := true
  mirror : Mirror
  /-- The copy whose device and blocks `b_dev`, `pb_start` and `pb_pvol` name. -/
  target : Mirror
  miravoid : Mask
  mirbad : Mask := 0
  mirdone : Mask
deriving DecidableEq

/-- How a physical operation ends. One that fails leaves anything: a read in the
buffer, a write on the blocks of the copy. -/
inductive Outcome (α : Type) where
  | ok
  /-- `EMEDIA` -/
  | media (left : α)
  | other (left : α)

namespace Outcome

variable {α : Type}

def failed : Outcome α → Bool
  | ok => false
  | _ => true

def isMedia : Outcome α → Bool
  | media _ => true
  | _ => false

/-- What is there after an operation that was to bring `data`. -/
def brought (data : α) : Outcome α → α
  | ok => data
  | media left => left
  | other left => left

end Outcome

/-- What the scheduler has made of the read. -/
inductive After where
  /-- `hd_begin` has been called. -/
  | begin (pb : Pbuf)
  | finished (error : Bool)
deriving DecidableEq

def hdXlate (pb : Pbuf) (m : Mirror) : Pbuf := { pb with mirror := m, target := m }

/-- `hd_seqnext` for a read. -/
def hdSeqnext (pb : Pbuf) : Option Pbuf :=
  (firstMirror (pb.mirdone ||| pb.miravoid)).map fun m =>
    hdXlate { pb with mirdone := pb.mirdone ||| mirrorMask m } m

/-- The first read, of a copy under the name of another. -/
def Pbuf.first (mask : Mask) (sel target : Mirror) : Pbuf :=
  { mirror := sel, target := target, miravoid := mask, mirdone := mirrorMask sel }

/-- `hd_nearby`; the device and blocks are those of the mirror looked at last. -/
def hdNearby (lp : Lp) (mask : Mask) : Option Pbuf :=
  match mirrors (~~~mask) with
  | [] => none
  | m :: ms =>
    let (sel, last) := nearest lp m m (lp.xfcnt m) ms
    some (.first mask sel last)

/-- The pbuf of a read in the order of the mirrors. -/
def Pbuf.start (mask : Mask) : Pbuf :=
  { mirror := .prim, target := .prim, miravoid := mask, mirdone := 0 }

def hdFixup (pb : Pbuf) : After :=
  let pb := { pb with read := false, sched := .fixup }
  match firstMask pb.mirbad with
  | none => .finished false
  | some m => .begin (hdXlate { pb with mirbad := pb.mirbad &&& ~~~mirrorMask m } m)

section Scheduling

variable {α : Type} (noBbrel : Bool)

def hdMirread (pb : Pbuf) (o : Outcome α) : After :=
  if o.failed then
    let pb := if o.isMedia then { pb with mirbad := pb.mirbad ||| mirrorMask pb.mirror } else pb
    (hdSeqnext pb).elim (.finished true) .begin
  else if pb.mirbad ≠ 0 ∧ noBbrel = false then hdFixup pb
  else .finished false

/-- `HD_SCHED` -/
def hdSched (pb : Pbuf) (o : Outcome α) : After :=
  match pb.sched with
  | .mirread => hdMirread noBbrel pb o
  | .fixup => hdFixup pb

/-- `hd_sequential` and `hd_parallel` for a read that avoids `mask`. -/
def hdSchedule (lv : Lvol) (lp : Lp) (mask : Mask) : After :=
  if mask = allMirrors then .finished true
  else
    match lv.iSched with
    | .sequential | .parwrtseqrd =>
      (hdSeqnext (.start mask)).elim (.finished true) .begin
    | .parallel | .seqwrtparrd => (hdNearby lp mask).elim (.finished true) .begin

end Scheduling

/-! ## The physical operations of a read -/

/-- A physical operation: the copy it went to, what it read or wrote, how it ended. -/
structure Io (α : Type) where
  read : Bool
  copy : Mirror
  data : α
  outcome : Outcome α

structure State (α : Type) where
  /-- The blocks of the request on each copy. -/
  disk : Mirror → α
  buffer : α
  trace : List (Io α) := []

variable {α : Type}

namespace State

def transfer (s : State α) (pb : Pbuf) (o : Outcome α) : State α :=
  if pb.read then
    let data := o.brought (s.disk pb.target)
    { s with buffer := data, trace := s.trace ++ [⟨true, pb.target, data, o⟩] }
  else
    { s with
      disk := Function.update s.disk pb.target (o.brought s.buffer)
      trace := s.trace ++ [⟨false, pb.target, s.buffer, o⟩] }

def reads (s : State α) : List (Io α) := s.trace.filter Io.read

def writes (s : State α) : List (Io α) := s.trace.filter fun io => !io.read

end State

/-- The read until it is finished. `out k` is how physical operation `k` ends. -/
def run (noBbrel : Bool) (out : Nat → Outcome α) :
    Nat → After → State α → Option (Bool × State α)
  | _, .finished error, s => some (error, s)
  | 0, .begin _, _ => none
  | fuel + 1, .begin pb, s =>
    let o := out s.trace.length
    run noBbrel out fuel (hdSched noBbrel pb o) (s.transfer pb o)

/-- A read of the copies not in `mask`, whose blocks are `disk`, as it should be served. -/
structure Served (noBbrel : Bool) (mask : Mask) (disk : Mirror → α) (error : Bool)
    (s : State α) : Prop where
  once : (s.reads.map Io.copy).Nodup
  live : ∀ io ∈ s.reads, io.copy ∉ mask
  failed : error = true → ∀ m : Mirror, m ∉ mask →
    ∃ io ∈ s.reads, io.copy = m ∧ io.outcome.failed = true
  /-- The buffer is what a copy holds. -/
  fetched : error = false → ∃ io ∈ s.reads, io.outcome.failed = false ∧
    s.buffer = disk io.copy
  rewritten : error = false → noBbrel = false → (s.writes.map Io.copy).Nodup ∧
    ∀ m, m ∈ s.writes.map Io.copy ↔
      ∃ io ∈ s.reads, io.copy = m ∧ io.outcome.isMedia = true
  untouched : error = true ∨ noBbrel = true → s.writes = []
  data : ∀ io ∈ s.writes, io.data = s.buffer

/-! ### The read ends -/

variable {lv : Lvol} {lp : Lp} {mask : Mask} {noBbrel error : Bool} {out : Nat → Outcome α}
  {disk : Mirror → α} {pb : Pbuf} {o : Outcome α} {s s' : State α} {fuel : Nat} {nx : After}

/-- Physical operations a request may still need. -/
def Pbuf.left (pb : Pbuf) : Nat :=
  match pb.sched with
  | .mirread => 1 + 2 * mirrorCount (pb.mirdone ||| pb.miravoid) + mirrorCount (~~~pb.mirbad)
  | .fixup => 1 + mirrorCount (~~~pb.mirbad)

def After.left : After → Nat
  | .begin pb => pb.left
  | .finished _ => 0

theorem mirrorCount_mark (M : Mask) (m : Mirror) :
    mirrorCount (~~~(M ||| mirrorMask m)) ≤ mirrorCount (~~~M) + 1 := by
  revert M m
  decide

theorem hdFixup_none (h : firstMask pb.mirbad = none) : hdFixup pb = .finished false := by
  unfold hdFixup
  dsimp only
  rw [h]

theorem hdFixup_some {m : Mirror} (h : firstMask pb.mirbad = some m) :
    hdFixup pb = .begin (hdXlate { pb with
      read := false
      sched := .fixup
      mirbad := pb.mirbad &&& ~~~mirrorMask m } m) := by
  unfold hdFixup
  dsimp only
  rw [h]

theorem hdFixup_left (pb : Pbuf) : (hdFixup pb).left ≤ mirrorCount (~~~pb.mirbad) := by
  cases hm : firstMask pb.mirbad with
  | none =>
    rw [hdFixup_none hm]
    exact Nat.zero_le _
  | some m =>
    have hdrop := mirrorCount_drop hm
    rw [hdFixup_some hm]
    simp only [After.left, Pbuf.left, hdXlate]
    omega

theorem retry_left {bad : Mask} (hb : mirrorCount (~~~bad) ≤ mirrorCount (~~~pb.mirbad) + 1)
    (hs : pb.sched = .mirread) :
    ((hdSeqnext { pb with mirbad := bad }).elim (.finished true) After.begin).left < pb.left := by
  unfold hdSeqnext
  cases hm : firstMirror (pb.mirdone ||| pb.miravoid) with
  | none =>
    simp only [Option.map_none, Option.elim_none, After.left, Pbuf.left, hs]
    omega
  | some m =>
    have hnext := mirrorCount_next (firstMirror_notMem hm)
    rw [show pb.mirdone ||| pb.miravoid ||| mirrorMask m =
      pb.mirdone ||| mirrorMask m ||| pb.miravoid by
        rw [BitVec.or_assoc, BitVec.or_comm pb.miravoid, ← BitVec.or_assoc]] at hnext
    simp only [Option.map_some, Option.elim_some, After.left, Pbuf.left, hdXlate, hs]
    omega

theorem hdSched_left (noBbrel : Bool) (pb : Pbuf) (o : Outcome α) :
    (hdSched noBbrel pb o).left < pb.left := by
  unfold hdSched
  cases hs : pb.sched with
  | fixup =>
    have h := hdFixup_left pb
    simp only [Pbuf.left, hs]
    omega
  | mirread =>
    unfold hdMirread
    dsimp only
    split_ifs with hf hm hb
    · exact retry_left (mirrorCount_mark _ _) hs
    · exact retry_left (Nat.le_succ _) hs
    · have h := hdFixup_left pb
      simp only [Pbuf.left, hs]
      omega
    · simp only [After.left, Pbuf.left, hs]
      omega

theorem run_total (noBbrel : Bool) (out : Nat → Outcome α) (s : State α) (h : nx.left ≤ fuel) :
    ∃ error s', run noBbrel out fuel nx s = some (error, s') := by
  induction fuel generalizing nx s with
  | zero =>
    cases nx with
    | finished error => exact ⟨error, s, rfl⟩
    | begin pb =>
      cases hs : pb.sched with
      | mirread | fixup =>
        simp only [After.left, Pbuf.left, hs] at h
        omega
  | succ fuel ih =>
    cases nx with
    | finished error => exact ⟨error, s, rfl⟩
    | begin pb =>
      have hlt := hdSched_left noBbrel pb (out s.trace.length)
      have hle : pb.left ≤ fuel + 1 := h
      exact ih (s.transfer pb _) (by omega)

theorem hdSeqnext_start (mask : Mask) :
    hdSeqnext (.start mask) = (firstMirror mask).map fun m => .first mask m m := by
  have hz : ∀ M : Mask, 0 ||| M = M := by decide
  unfold hdSeqnext Pbuf.start
  dsimp only
  rw [hz]
  congr 1
  funext m
  rw [hz]
  rfl

/-- A read takes five operations at most. -/
theorem hdSchedule_left (lv : Lvol) (lp : Lp) (mask : Mask) : (hdSchedule lv lp mask).left ≤ 5 := by
  have hone : ∀ m : Mirror, mirrorCount (mirrorMask m ||| mask) ≤ 2 := by
    revert mask
    decide
  have hleft : ∀ sel target : Mirror, (Pbuf.first mask sel target).left ≤ 5 := by
    intro sel target
    have h0 : mirrorCount (~~~0#3) = 0 := by decide
    have h := hone sel
    change 1 + 2 * mirrorCount (mirrorMask sel ||| mask) + mirrorCount (~~~0#3) ≤ 5
    omega
  have hseq : ((hdSeqnext (.start mask)).elim (.finished true) After.begin).left ≤ 5 := by
    rw [hdSeqnext_start]
    cases firstMirror mask with
    | none => exact Nat.zero_le _
    | some m => exact hleft m m
  have hnear : ((hdNearby lp mask).elim (.finished true) After.begin).left ≤ 5 := by
    unfold hdNearby
    cases mirrors (~~~mask) with
    | nil => exact Nat.zero_le _
    | cons m ms => exact hleft _ _
  unfold hdSchedule
  split_ifs
  · exact Nat.zero_le _
  · cases lv.iSched with
    | sequential | parwrtseqrd => exact hseq
    | parallel | seqwrtparrd => exact hnear

/-! ### The reads name their copies -/

namespace State

theorem reads_read (hr : pb.read = true) (s : State α) (o : Outcome α) :
    (s.transfer pb o).reads =
      s.reads ++ [⟨true, pb.target, o.brought (s.disk pb.target), o⟩] := by
  simp [transfer, reads, hr]

theorem writes_read (hr : pb.read = true) (s : State α) (o : Outcome α) :
    (s.transfer pb o).writes = s.writes := by
  simp [transfer, writes, hr]

theorem buffer_read (hr : pb.read = true) (s : State α) (o : Outcome α) :
    (s.transfer pb o).buffer = o.brought (s.disk pb.target) := by
  simp [transfer, hr]

theorem disk_read (hr : pb.read = true) (s : State α) (o : Outcome α) :
    (s.transfer pb o).disk = s.disk := by
  simp [transfer, hr]

theorem reads_write (hr : pb.read = false) (s : State α) (o : Outcome α) :
    (s.transfer pb o).reads = s.reads := by
  simp [transfer, reads, hr]

theorem writes_write (hr : pb.read = false) (s : State α) (o : Outcome α) :
    (s.transfer pb o).writes = s.writes ++ [⟨false, pb.target, s.buffer, o⟩] := by
  simp [transfer, writes, hr]

theorem buffer_write (hr : pb.read = false) (s : State α) (o : Outcome α) :
    (s.transfer pb o).buffer = s.buffer := by
  simp [transfer, hr]

end State

/-- The reads are over; the copies in `bad` are yet to be rewritten. -/
structure Fixing (mask : Mask) (disk : Mirror → α) (bad : Mask) (s : State α) : Prop where
  once : (s.reads.map Io.copy).Nodup
  live : ∀ io ∈ s.reads, io.copy ∉ mask
  fetched : ∃ io ∈ s.reads, io.outcome.failed = false ∧ s.buffer = disk io.copy
  nodup : (s.writes.map Io.copy).Nodup
  split : ∀ m : Mirror, (m ∈ bad ∨ m ∈ s.writes.map Io.copy) ↔
    ∃ io ∈ s.reads, io.copy = m ∧ io.outcome.isMedia = true
  apart : ∀ m : Mirror, m ∈ bad → m ∉ s.writes.map Io.copy
  data : ∀ io ∈ s.writes, io.data = s.buffer

theorem Fixing.served (h : Fixing mask disk 0 s) : Served false mask disk false s where
  once := h.once
  live := h.live
  failed := fun he => absurd he (by decide)
  fetched := fun _ => h.fetched
  rewritten := by
    intro _ _
    refine ⟨h.nodup, fun m => ?_⟩
    rw [← h.split m]
    simp
  untouched := fun hor => absurd hor (by decide)
  data := h.data

/-- One copy is rewritten. -/
theorem Fixing.transfer {bad : Mask} {m : Mirror} (h : Fixing mask disk bad s) (hm : m ∈ bad)
    (hr : pb.read = false) (ht : pb.target = m) (o : Outcome α) :
    Fixing mask disk (bad &&& ~~~mirrorMask m) (s.transfer pb o) := by
  have hmap : (s.transfer pb o).writes.map Io.copy = s.writes.map Io.copy ++ [m] := by
    rw [State.writes_write hr, List.map_append, ht]
    rfl
  constructor
  case once =>
    rw [State.reads_write hr]
    exact h.once
  case live =>
    rw [State.reads_write hr]
    exact h.live
  case fetched =>
    rw [State.reads_write hr, State.buffer_write hr]
    exact h.fetched
  case nodup =>
    rw [hmap]
    exact List.nodup_append.mpr ⟨h.nodup, List.nodup_singleton m, by
      intro a ha b hb hab
      rw [List.mem_singleton.mp hb] at hab
      exact h.apart m hm (hab ▸ ha)⟩
  case split =>
    intro k
    rw [State.reads_write hr, ← h.split k, hmap]
    by_cases hk : k = m
    · subst hk
      simp [hm]
    · simp [hk]
  case apart =>
    intro k hk
    obtain ⟨hk, hne⟩ := mem_and.mp hk
    rw [mem_compl, mem_mirrorMask] at hne
    rw [hmap]
    simpa [hne] using h.apart k hk
  case data =>
    intro io hio
    rw [State.writes_write hr] at hio
    rw [State.buffer_write hr]
    rcases List.mem_append.mp hio with hio | hio
    · exact h.data io hio
    · rw [List.mem_singleton.mp hio]

/-- `hd_fixup` rewrites the copies that are left, whatever becomes of the writes. -/
theorem Fixing.run (h : Fixing mask disk pb.mirbad s)
    (hr : run false out fuel (hdFixup pb) s = some (error, s')) :
    error = false ∧ Served false mask disk false s' := by
  induction fuel generalizing pb s with
  | zero =>
    cases hm : firstMask pb.mirbad with
    | none =>
      rw [hdFixup_none hm] at hr
      obtain ⟨rfl, rfl⟩ := Prod.mk.inj (Option.some.inj hr)
      rw [firstMask_none.mp hm] at h
      exact ⟨rfl, h.served⟩
    | some m =>
      rw [hdFixup_some hm] at hr
      cases hr
  | succ fuel ih =>
    cases hm : firstMask pb.mirbad with
    | none =>
      rw [hdFixup_none hm] at hr
      obtain ⟨rfl, rfl⟩ := Prod.mk.inj (Option.some.inj hr)
      rw [firstMask_none.mp hm] at h
      exact ⟨rfl, h.served⟩
    | some m =>
      rw [hdFixup_some hm] at hr
      exact ih (h.transfer (firstMask_mem hm) rfl rfl _) hr

/-- `mirbad` after a read of `pb` that ended with `o`. -/
def Pbuf.marked (pb : Pbuf) (o : Outcome α) : Mask :=
  if o.isMedia then pb.mirbad ||| mirrorMask pb.mirror else pb.mirbad

/-- Reads so far have failed, and the next one goes to a copy that has not been read. -/
structure Reading (mask : Mask) (disk : Mirror → α) (pb : Pbuf) (s : State α) : Prop where
  sched : pb.sched = .mirread
  read : pb.read = true
  avoid : pb.miravoid = mask
  target : pb.target = pb.mirror
  disk : s.disk = disk
  failed : ∀ io ∈ s.trace, io.read = true ∧ io.outcome.failed = true
  nodup : (s.trace.map Io.copy).Nodup
  fresh : pb.mirror ∉ s.trace.map Io.copy
  done : ∀ m : Mirror, m ∈ pb.mirdone ↔ m = pb.mirror ∨ m ∈ s.trace.map Io.copy
  live : ∀ m : Mirror, m ∈ pb.mirdone → m ∉ mask
  bad : ∀ m : Mirror, m ∈ pb.mirbad ↔
    ∃ io ∈ s.trace, io.copy = m ∧ io.outcome.isMedia = true

namespace Reading

theorem first {sel : Mirror} (hs : sel ∉ mask) (disk : Mirror → α) (buffer : α) :
    Reading mask disk (.first mask sel sel) ⟨disk, buffer, []⟩ where
  sched := rfl
  read := rfl
  avoid := rfl
  target := rfl
  disk := rfl
  failed := fun _ h => absurd h List.not_mem_nil
  nodup := List.nodup_nil
  fresh := List.not_mem_nil
  done := by
    intro m
    simp [Pbuf.first]
  live := by
    intro m hm
    rw [mem_mirrorMask.mp hm]
    exact hs
  bad := by
    intro m
    simp [Pbuf.first]

variable (h : Reading mask disk pb s)

include h

theorem reads_eq : s.reads = s.trace :=
  List.filter_eq_self.mpr fun io hio => (h.failed io hio).1

theorem writes_eq : s.writes = [] := by
  rw [State.writes, List.filter_eq_nil_iff]
  intro io hio
  simp [(h.failed io hio).1]

theorem map_copy (o : Outcome α) :
    (s.transfer pb o).reads.map Io.copy = s.trace.map Io.copy ++ [pb.mirror] := by
  rw [State.reads_read h.read, h.reads_eq, List.map_append, h.target]
  rfl

theorem once (o : Outcome α) : ((s.transfer pb o).reads.map Io.copy).Nodup := by
  rw [h.map_copy]
  exact List.nodup_append.mpr ⟨h.nodup, List.nodup_singleton _, by
    intro a ha b hb hab
    rw [List.mem_singleton.mp hb] at hab
    exact h.fresh (hab ▸ ha)⟩

theorem notMem (o : Outcome α) : ∀ io ∈ (s.transfer pb o).reads, io.copy ∉ mask := by
  intro io hio
  have hmem : io.copy ∈ (s.transfer pb o).reads.map Io.copy := List.mem_map_of_mem hio
  rw [h.map_copy, List.mem_append, List.mem_singleton] at hmem
  exact h.live _ ((h.done _).mpr hmem.symm)

/-- A failed read is followed by one of a mirror that is left. -/
theorem next (hf : o.failed = true) {m : Mirror} (hnew : m ∉ pb.mirdone ||| pb.miravoid) :
    Reading mask disk (hdXlate { pb with
      mirbad := pb.marked o
      mirdone := pb.mirdone ||| mirrorMask m } m) (s.transfer pb o) := by
  rw [mem_or, not_or, h.avoid] at hnew
  have htr : (s.transfer pb o).trace =
      s.trace ++ [⟨true, pb.mirror, o.brought (s.disk pb.target), o⟩] := by
    simp [State.transfer, h.read, h.target]
  have hmap : (s.transfer pb o).trace.map Io.copy = s.trace.map Io.copy ++ [pb.mirror] := by
    rw [htr, List.map_append]
    rfl
  constructor
  case sched => exact h.sched
  case read => exact h.read
  case avoid => exact h.avoid
  case target => rfl
  case disk =>
    rw [State.disk_read h.read]
    exact h.disk
  case failed =>
    intro io hio
    rw [htr] at hio
    rcases List.mem_append.mp hio with hio | hio
    · exact h.failed io hio
    · rw [List.mem_singleton.mp hio]
      exact ⟨rfl, hf⟩
  case nodup =>
    rw [hmap, ← h.map_copy o]
    exact h.once o
  case fresh =>
    rw [hmap]
    change m ∉ _
    intro hmem
    rw [List.mem_append, List.mem_singleton] at hmem
    exact hnew.1 ((h.done m).mpr hmem.symm)
  case done =>
    intro k
    change k ∈ pb.mirdone ||| mirrorMask m ↔ k = m ∨ _
    rw [mem_or, mem_mirrorMask, h.done k, hmap, List.mem_append, List.mem_singleton]
    tauto
  case live =>
    intro k hk
    rcases mem_or.mp hk with hk | hk
    · exact h.live k hk
    · rw [mem_mirrorMask.mp hk]
      exact hnew.2
  case bad =>
    intro k
    rw [htr]
    change k ∈ pb.marked o ↔ _
    unfold Pbuf.marked
    cases hmed : o.isMedia with
    | true =>
      rw [if_pos rfl, mem_or, mem_mirrorMask, h.bad k]
      constructor
      · rintro (⟨io, hio, hk⟩ | rfl)
        · exact ⟨io, List.mem_append_left _ hio, hk⟩
        · exact ⟨_, List.mem_append_right _ (List.mem_singleton_self _), rfl, hmed⟩
      · rintro ⟨io, hio, hk, hmd⟩
        rcases List.mem_append.mp hio with hio | hio
        · exact .inl ⟨io, hio, hk, hmd⟩
        · rw [List.mem_singleton.mp hio] at hk
          exact .inr hk.symm
    | false =>
      rw [if_neg (by decide), h.bad k]
      simp [or_and_right, exists_or, hmed]

/-- No mirror is left: all reads have failed. -/
theorem exhausted (hf : o.failed = true)
    (hm : firstMirror (pb.mirdone ||| pb.miravoid) = none) (noBbrel : Bool) :
    Served noBbrel mask disk true (s.transfer pb o) := by
  have hall := firstMirror_none.mp hm
  constructor
  case once => exact h.once o
  case live => exact h.notMem o
  case failed =>
    intro _ m hmask
    have hd : m ∈ pb.mirdone ||| pb.miravoid := hall ▸ mem_all m
    rw [mem_or, h.avoid, or_iff_left hmask, h.done m] at hd
    rw [State.reads_read h.read, h.reads_eq]
    rcases hd with rfl | hd
    · exact ⟨_, List.mem_append_right _ (List.mem_singleton_self _), h.target, hf⟩
    · obtain ⟨io, hio, rfl⟩ := List.mem_map.mp hd
      exact ⟨io, List.mem_append_left _ hio, rfl, (h.failed io hio).2⟩
  case fetched => exact fun he => absurd he (by decide)
  case rewritten => exact fun he => absurd he (by decide)
  case untouched =>
    intro _
    rw [State.writes_read h.read]
    exact h.writes_eq
  case data =>
    rw [State.writes_read h.read, h.writes_eq]
    exact fun _ hio => absurd hio List.not_mem_nil

/-- A read has succeeded: the mirrors with media errors are those to rewrite. -/
theorem fixing (ho : o.failed = false) : Fixing mask disk pb.mirbad (s.transfer pb o) := by
  have hok : o = .ok := by
    cases o with
    | ok => rfl
    | media left => cases ho
    | other left => cases ho
  subst hok
  have hw : (s.transfer pb .ok).writes = [] := (State.writes_read h.read s _).trans h.writes_eq
  have hr := State.reads_read h.read s .ok
  rw [h.reads_eq] at hr
  constructor
  case once => exact h.once _
  case live => exact h.notMem _
  case fetched =>
    rw [hr]
    refine ⟨_, List.mem_append_right _ (List.mem_singleton_self _), rfl, ?_⟩
    rw [State.buffer_read h.read, h.disk]
    rfl
  case nodup =>
    rw [hw]
    exact List.nodup_nil
  case split =>
    intro m
    rw [hw, hr, h.bad m]
    simp [or_and_right, exists_or, Outcome.isMedia]
  case apart =>
    intro m _
    rw [hw]
    exact List.not_mem_nil
  case data =>
    rw [hw]
    exact fun _ hio => absurd hio List.not_mem_nil

end Reading

/-- Nothing to rewrite, or relocation is off. -/
theorem Fixing.done {bad : Mask} (h : Fixing mask disk bad s) (hw : s.writes = [])
    (hb : bad = 0 ∨ noBbrel = true) : Served noBbrel mask disk false s where
  once := h.once
  live := h.live
  failed := fun he => absurd he (by decide)
  fetched := fun _ => h.fetched
  rewritten := by
    intro _ hn
    obtain rfl := hb.resolve_right (by rw [hn]; decide)
    exact h.served.rewritten rfl rfl
  untouched := fun _ => hw
  data := h.data

theorem run_finished (noBbrel : Bool) (out : Nat → Outcome α) (fuel : Nat) (s : State α) :
    run noBbrel out fuel (.finished error) s = some (error, s) := by
  cases fuel with
  | zero | succ fuel => rfl

theorem hdSched_mirread (hs : pb.sched = .mirread) (o : Outcome α) :
    hdSched noBbrel pb o = hdMirread noBbrel pb o := by
  unfold hdSched
  rw [hs]

/-- The read that succeeds is the last physical operation. -/
theorem run_ok (hs : pb.sched = .mirread) (ho : (out s.trace.length).failed = false)
    (hb : pb.mirbad = 0 ∨ noBbrel = true) :
    run noBbrel out (fuel + 1) (.begin pb) s =
      some (false, s.transfer pb (out s.trace.length)) := by
  have hno : ¬(pb.mirbad ≠ 0 ∧ noBbrel = false) := by
    rintro ⟨hne, hn⟩
    rcases hb with hb | hb
    · exact hne hb
    · rw [hb] at hn
      cases hn
  rw [run, hdSched_mirread hs]
  unfold hdMirread
  rw [if_neg (by rw [ho]; decide), if_neg hno, run_finished]

theorem run_fix (hs : pb.sched = .mirread) (ho : (out s.trace.length).failed = false)
    (hb : pb.mirbad ≠ 0) :
    run false out (fuel + 1) (.begin pb) s =
      run false out fuel (hdFixup pb) (s.transfer pb (out s.trace.length)) := by
  rw [run, hdSched_mirread hs]
  unfold hdMirread
  rw [if_neg (by rw [ho]; decide), if_pos ⟨hb, rfl⟩]

theorem run_retry (hs : pb.sched = .mirread) (hf : (out s.trace.length).failed = true) :
    run noBbrel out (fuel + 1) (.begin pb) s =
      run noBbrel out fuel
        (((firstMirror (pb.mirdone ||| pb.miravoid)).map fun m =>
          hdXlate { pb with
            mirbad := pb.marked (out s.trace.length)
            mirdone := pb.mirdone ||| mirrorMask m } m).elim (.finished true) .begin)
        (s.transfer pb (out s.trace.length)) := by
  rw [run, hdSched_mirread hs]
  unfold hdMirread hdSeqnext Pbuf.marked
  rw [if_pos hf]
  cases (out s.trace.length).isMedia with
  | true | false => rfl

/-- The one copy that is marked is rewritten, and the request is finished. -/
theorem run_fix_one (fuel : Nat) {m : Mirror} (hs : pb.sched = .mirread)
    (ho : (out s.trace.length).failed = false) (hb : pb.mirbad = mirrorMask m) :
    ∃ (pb' : Pbuf) (o : Outcome α), pb'.read = false ∧ pb'.target = m ∧
      run false out (fuel + 2) (.begin pb) s =
        some (false, (s.transfer pb (out s.trace.length)).transfer pb' o) := by
  have hsome : firstMask pb.mirbad = some m := by
    rw [hb]
    cases m with
    | prim | sing | doub => rfl
  have hnone : firstMask (pb.mirbad &&& ~~~mirrorMask m) = none := by
    rw [hb]
    cases m with
    | prim | sing | doub => rfl
  have hne : pb.mirbad ≠ 0 := by
    rw [hb]
    exact ne_zero.mpr ⟨m, mem_mirrorMask.mpr rfl⟩
  refine ⟨hdXlate { pb with
    read := false
    sched := .fixup
    mirbad := pb.mirbad &&& ~~~mirrorMask m } m,
    out (s.transfer pb (out s.trace.length)).trace.length, rfl, rfl, ?_⟩
  rw [run_fix hs ho hne, hdFixup_some hsome, run]
  change run false out fuel (hdFixup _) _ = _
  rw [hdFixup_none hnone, run_finished]

/-- A read whose first operation reads the copy it names. -/
theorem Reading.run (h : Reading mask disk pb s)
    (hr : run noBbrel out fuel (.begin pb) s = some (error, s')) :
    Served noBbrel mask disk error s' := by
  induction fuel generalizing pb s with
  | zero => cases hr
  | succ fuel ih =>
    cases hf : (out s.trace.length).failed with
    | true =>
      rw [run_retry h.sched hf] at hr
      cases hm : firstMirror (pb.mirdone ||| pb.miravoid) with
      | none =>
        rw [hm, Option.map_none, Option.elim_none, run_finished] at hr
        obtain ⟨rfl, rfl⟩ := Prod.mk.inj (Option.some.inj hr)
        exact h.exhausted hf hm noBbrel
      | some m =>
        rw [hm] at hr
        exact ih (h.next hf (firstMirror_notMem hm)) hr
    | false =>
      have hfix := h.fixing hf
      by_cases hb : pb.mirbad = 0 ∨ noBbrel = true
      · rw [run_ok h.sched hf hb] at hr
        obtain ⟨rfl, rfl⟩ := Prod.mk.inj (Option.some.inj hr)
        exact hfix.done ((State.writes_read h.read s _).trans h.writes_eq) hb
      · rw [not_or, Bool.not_eq_true] at hb
        obtain ⟨hne, rfl⟩ := hb
        rw [run_fix h.sched hf hne] at hr
        obtain ⟨rfl, hs⟩ := hfix.run hr
        exact hs

/-! ### The copy `hd_nearby` names -/

/-- The mirror selected, with the fewest transfers of those looked at, is the one
looked at last. -/
def Aligned (lp : Lp) (mask : Mask) : Prop :=
  (looked lp (mirrors (~~~mask))).argmin lp.xfcnt = (looked lp (mirrors (~~~mask))).getLast?

/-- Where `hd_nearby` does not name the copy it reads, it has looked at all mirrors. -/
theorem nearest_getLast (lp : Lp) (sel last : Mirror) (ms : List Mirror)
    (hle : lp.xfcnt sel ≤ lp.xfcnt last) (h0 : lp.xfcnt sel = 0 → sel = last) :
    (nearest lp sel last (lp.xfcnt sel) ms).1 = (nearest lp sel last (lp.xfcnt sel) ms).2 ∨
    (last :: ms).getLast? = some (nearest lp sel last (lp.xfcnt sel) ms).2 := by
  induction ms generalizing sel last with
  | nil => exact .inr rfl
  | cons m ms ih =>
    rw [nearest, List.getLast?_cons_cons]
    split_ifs with hl hlt
    · exact .inl (h0 (Nat.le_zero.mp (hl ▸ hle)))
    · exact ih m m le_rfl fun _ => rfl
    · have hne : lp.xfcnt sel ≠ 0 := by
        intro hz
        rw [← h0 hz] at hl
        exact hl hz
      exact ih sel m (Nat.le_of_not_lt hlt) fun hz => absurd hz hne

theorem hdNearby_first (lp : Lp) (hmask : mask ≠ allMirrors) :
    ∃ sel last : Mirror, hdNearby lp mask = some (.first mask sel last) ∧
      sel ∉ mask ∧ last ∉ mask ∧ (Aligned lp mask ↔ sel = last) ∧
      (sel ≠ last → (mirrors (~~~mask)).getLast? = some last) := by
  unfold hdNearby Aligned
  cases hms : mirrors (~~~mask) with
  | nil =>
    obtain ⟨m, hm⟩ := ne_all.mp hmask
    have hmem : m ∈ mirrors (~~~mask) := mem_mirrors.mpr (mem_compl.mpr hm)
    rw [hms] at hmem
    cases hmem
  | cons m ms =>
    have hsel := nearest_sel lp m m ms
    have hlast := nearest_last lp m m (lp.xfcnt m) ms
    have hget := nearest_getLast lp m m ms le_rfl fun _ => rfl
    rw [← looked_cons] at hlast
    have hargmin : (looked lp (m :: ms)).argmin lp.xfcnt =
        some (nearest lp m m (lp.xfcnt m) ms).1 := by
      rw [looked_cons]
      exact hsel
    have hlive : ∀ k ∈ looked lp (m :: ms), k ∉ mask := by
      intro k hk
      have hmem := looked_subset hk
      rw [← hms, mem_mirrors, mem_compl] at hmem
      exact hmem
    refine ⟨_, _, rfl, hlive _ (List.argmin_mem hargmin), hlive _ (List.mem_of_getLast? hlast),
      ?_, hget.resolve_left⟩
    rw [hargmin, hlast, Option.some_inj]

/-- After a read under the name of another copy, the copy is read again, or a third
one is read first. -/
theorem reread_two {sel last : Mirror} :
    (mirrors (~~~mask)).getLast? = some last → sel ∉ mask → sel ≠ last → mask ≠ 0 →
    firstMirror (mirrorMask sel ||| mask) = some last := by
  revert mask sel last
  decide

theorem reread_three {sel last : Mirror} :
    (mirrors (~~~0#3)).getLast? = some last → sel ≠ last →
    ∃ m, m ≠ last ∧ firstMirror (mirrorMask sel ||| 0) = some m ∧
      firstMirror (mirrorMask sel ||| mirrorMask m ||| 0) = some last := by
  revert sel last
  decide

/-- What has been read or written remains so. -/
theorem run_trace (hr : run noBbrel out fuel nx s = some (error, s')) : s.trace <+: s'.trace := by
  induction fuel generalizing nx s with
  | zero =>
    cases nx with
    | begin pb => cases hr
    | finished e =>
      obtain ⟨-, rfl⟩ := Prod.mk.inj (Option.some.inj hr)
      exact List.prefix_rfl
  | succ fuel ih =>
    cases nx with
    | finished e =>
      obtain ⟨-, rfl⟩ := Prod.mk.inj (Option.some.inj hr)
      exact List.prefix_rfl
    | begin pb =>
      rw [run] at hr
      have hstep : ∀ o, s.trace <+: (s.transfer pb o).trace := by
        intro o
        unfold State.transfer
        split_ifs
        · exact List.prefix_append _ _
        · exact List.prefix_append _ _
      exact (hstep _).trans (ih hr)

/-- A copy that is read twice stays read twice. -/
theorem not_served (hr : run noBbrel out fuel nx s = some (error, s'))
    (htwice : ¬(s.reads.map Io.copy).Nodup) : ¬Served noBbrel mask disk error s' := by
  intro hs
  have hsub : (s.reads.map Io.copy).Sublist (s'.reads.map Io.copy) :=
    ((run_trace hr).filter _ |>.map _).sublist
  exact htwice (hsub.nodup hs.once)

/-- When a mirrored read is served as it should be: it is one in the order of the
mirrors, or the first read goes to the copy it names, or succeeds, or it fails
without a media error to repair and the read of a third copy succeeds. -/
def Meets (lv : Lvol) (lp : Lp) (mask : Mask) (noBbrel : Bool) (out : Nat → Outcome α) : Prop :=
  lv.iSched = .sequential ∨ lv.iSched = .parwrtseqrd ∨ Aligned lp mask ∨
  (out 0).failed = false ∨
  mask = 0 ∧ (out 1).failed = false ∧ ((out 0).isMedia = false ∨ noBbrel = true)

/-- A copy that has not been read is rewritten. -/
theorem misfixed {sel : Mirror} (hr : run false out (fuel + 2) (.begin pb) s = some (error, s'))
    (hs : pb.sched = .mirread) (hread : pb.read = true) (hb : pb.mirbad = mirrorMask sel)
    (ho : (out s.trace.length).failed = false) (hsel : ∀ io ∈ s.reads, io.copy ≠ sel) :
    ¬Served false mask disk error s' := by
  intro hserved
  obtain ⟨pb', o, hwrite, htarget, hrun⟩ := run_fix_one fuel hs ho hb
  rw [hrun] at hr
  obtain ⟨rfl, rfl⟩ := Prod.mk.inj (Option.some.inj hr)
  have hmem : sel ∈ ((s.transfer pb (out s.trace.length)).transfer pb' o).writes.map Io.copy := by
    rw [State.writes_write hwrite, htarget]
    simp
  obtain ⟨io, hio, hcopy, hmed⟩ := ((hserved.rewritten rfl rfl).2 sel).mp hmem
  rw [State.reads_write hwrite, State.reads_read hread] at hio
  rcases List.mem_append.mp hio with hio | hio
  · exact hsel io hio hcopy
  · rw [List.mem_singleton.mp hio] at hmed
    cases hout : out s.trace.length with
    | ok =>
      rw [hout] at hmed
      cases hmed
    | media left | other left =>
      rw [hout] at ho
      cases ho

/-- A read that `hd_nearby` starts under the name of another copy. -/
theorem misnamed_iff {sel last : Mirror} (hsel : sel ∉ mask) (hlast : last ∉ mask)
    (hne : sel ≠ last) (hget : (mirrors (~~~mask)).getLast? = some last) (buffer : α)
    (hr : run noBbrel out 5 (.begin (.first mask sel last)) ⟨disk, buffer, []⟩ =
      some (error, s')) :
    Served noBbrel mask disk error s' ↔ (out 0).failed = false ∨
      mask = 0 ∧ (out 1).failed = false ∧ ((out 0).isMedia = false ∨ noBbrel = true) := by
  have hlast₀ : Reading mask disk (.first mask last last) ⟨disk, buffer, []⟩ :=
    .first hlast disk buffer
  cases h0 : (out 0).failed with
  | false =>
    -- the copy is read under the wrong name, but need not be read again
    rw [run_ok rfl h0 (.inl rfl)] at hr
    obtain ⟨rfl, rfl⟩ := Prod.mk.inj (Option.some.inj hr)
    exact ⟨fun _ => .inl rfl, fun _ => (hlast₀.fixing h0).done rfl (.inl rfl)⟩
  | true =>
    rw [run_retry rfl h0] at hr
    change run noBbrel out 4 (((firstMirror (mirrorMask sel ||| mask)).map _).elim _ _) _ = _ at hr
    by_cases hmask : mask = 0
    · subst hmask
      obtain ⟨m, hml, hm, hm'⟩ := reread_three hget hne
      rw [hm, Option.map_some, Option.elim_some] at hr
      cases h1 : (out 1).failed with
      | true =>
        -- the third read goes to the first copy again
        rw [run_retry rfl h1] at hr
        change run noBbrel out 3 (((firstMirror (mirrorMask sel ||| mirrorMask m ||| 0)).map
          _).elim _ _) _ = _ at hr
        rw [hm', Option.map_some, Option.elim_some, run] at hr
        have htwice : ¬Served noBbrel 0 disk error s' := by
          apply not_served hr
          change ¬[last, m, last].Nodup
          simp
        constructor
        · exact fun hs => absurd hs htwice
        · rintro (hok | ⟨-, hok, -⟩)
          · cases hok
          · cases hok
      | false =>
        have hnew : m ∉ (Pbuf.first 0 last last).mirdone ||| (Pbuf.first 0 last last).miravoid := by
          change m ∉ mirrorMask last ||| 0
          simp [hml]
        have hfix := (hlast₀.next h0 hnew).fixing h1
        by_cases hmed : (out 0).isMedia = false ∨ noBbrel = true
        · have hb : ∀ k t : Mirror, (Pbuf.first 0 k t).marked (out 0) = 0 ∨ noBbrel = true := by
            intro k t
            refine hmed.imp_left fun hno => ?_
            unfold Pbuf.marked
            rw [if_neg (by rw [hno]; decide)]
            rfl
          rw [run_ok rfl h1 (hb sel last)] at hr
          obtain ⟨rfl, rfl⟩ := Prod.mk.inj (Option.some.inj hr)
          exact ⟨fun _ => .inr ⟨rfl, rfl, hmed⟩, fun _ => hfix.done rfl (hb last last)⟩
        · -- the copy that was named is rewritten instead of the one that failed
          rw [not_or, Bool.not_eq_false, Bool.not_eq_true] at hmed
          obtain ⟨hmed, rfl⟩ := hmed
          have hmark : (Pbuf.first 0 sel last).marked (out 0) = mirrorMask sel := by
            unfold Pbuf.marked
            rw [if_pos hmed]
            exact BitVec.zero_or
          have hmis : ¬Served false 0 disk error s' := by
            refine misfixed hr rfl rfl hmark h1 fun io hio => ?_
            have hmem : io ∈ [(⟨true, last, _, out 0⟩ : Io α)] := hio
            rw [List.mem_singleton.mp hmem]
            exact hne.symm
          constructor
          · exact fun hs => absurd hs hmis
          · rintro (hok | ⟨-, -, hno | hno⟩)
            · cases hok
            · rw [hmed] at hno
              cases hno
            · cases hno
    · rw [reread_two hget hsel hne hmask, Option.map_some, Option.elim_some, run] at hr
      have htwice : ¬Served noBbrel mask disk error s' := by
        apply not_served hr
        change ¬[last, last].Nodup
        simp
      constructor
      · exact fun hs => absurd hs htwice
      · rintro (hok | ⟨hz, -⟩)
        · cases hok
        · exact absurd hz hmask

/-! ### Mirrored reads are served -/

/-- A mirrored read comes to its end, whatever its physical operations come to, and
it is served as it should be exactly if the condition is met. -/
theorem mirrored_read_iff (lv : Lvol) (lp : Lp) (mask : Mask) (hmask : mask ≠ allMirrors)
    (noBbrel : Bool) (out : Nat → Outcome α) (disk : Mirror → α) (buffer : α) :
    ∃ error s, run noBbrel out 5 (hdSchedule lv lp mask) ⟨disk, buffer, []⟩ = some (error, s) ∧
      (Served noBbrel mask disk error s ↔ Meets lv lp mask noBbrel out) := by
  obtain ⟨error, s, hr⟩ := run_total noBbrel out ⟨disk, buffer, []⟩ (hdSchedule_left lv lp mask)
  refine ⟨error, s, hr, ?_⟩
  have hnear : lv.iSched = .parallel ∨ lv.iSched = .seqwrtparrd →
      hdSchedule lv lp mask = (hdNearby lp mask).elim (.finished true) .begin := by
    intro hs
    unfold hdSchedule
    rw [if_neg hmask]
    rcases hs with hs | hs
    · rw [hs]
    · rw [hs]
  have hseq : lv.iSched = .sequential ∨ lv.iSched = .parwrtseqrd →
      Served noBbrel mask disk error s := by
    intro hs
    have hsched : hdSchedule lv lp mask =
        (hdSeqnext (.start mask)).elim (.finished true) .begin := by
      unfold hdSchedule
      rw [if_neg hmask]
      rcases hs with hs | hs
      · rw [hs]
      · rw [hs]
    rw [hsched, hdSeqnext_start] at hr
    cases hm : firstMirror mask with
    | none => exact absurd (firstMirror_none.mp hm) hmask
    | some m =>
      rw [hm] at hr
      exact (Reading.first (firstMirror_notMem hm) disk buffer).run hr
  unfold Meets
  have hpar : lv.iSched = .parallel ∨ lv.iSched = .seqwrtparrd →
      (Served noBbrel mask disk error s ↔ Aligned lp mask ∨ (out 0).failed = false ∨
        mask = 0 ∧ (out 1).failed = false ∧ ((out 0).isMedia = false ∨ noBbrel = true)) := by
    intro hs
    obtain ⟨sel, last, hfirst, hsel, hlast, hal, hget⟩ := hdNearby_first lp hmask
    rw [hnear hs, hfirst] at hr
    by_cases hne : sel = last
    · subst hne
      have hserved := (Reading.first hsel disk buffer).run hr
      exact ⟨fun _ => .inl (hal.mpr rfl), fun _ => hserved⟩
    · rw [misnamed_iff hsel hlast hne (hget hne) buffer hr]
      exact (or_iff_right fun h => hne (hal.mp h)).symm
  cases hs : lv.iSched with
  | sequential => exact ⟨fun _ => .inl rfl, fun _ => hseq (.inl hs)⟩
  | parwrtseqrd => exact ⟨fun _ => .inr (.inl rfl), fun _ => hseq (.inr hs)⟩
  | parallel => simpa using hpar (.inl hs)
  | seqwrtparrd => simpa using hpar (.inr hs)

/-- Two copies, on volumes with one and two transfers outstanding. -/
def twoBusy : Lp where
  ppstate := fun _ => {}
  pvol := fun m => match m with
    | .prim => some { xfcnt := 1 }
    | .sing => some { xfcnt := 2 }
    | .doub => none
  primary := rfl
  syncTrk := none
  rip := false
  syncMsk := 0

def twoParallel : Lvol where
  nparts := 2
  copies := two_copies
  iSched := .parallel
  trkppart := 1

/-- The first read fails on the medium, which the second copy does not: it is repaired. -/
theorem mirrored_read_two :
    ∃ error s, run false (fun k => if k = 0 then .media 0 else .ok) 5
        (hdSchedule { twoParallel with iSched := .sequential } twoBusy (mirrorMask .doub))
        ⟨fun _ => 7, 0, []⟩ = some (error, s) ∧
      Served false (mirrorMask .doub) (fun _ => 7) error s := by
  obtain ⟨error, s, hr, hiff⟩ := mirrored_read_iff { twoParallel with iSched := .sequential }
    twoBusy (mirrorMask .doub) (by decide) false
    (fun k => if k = 0 then .media 0 else .ok) (fun _ => 7) 0
  exact ⟨error, s, hr, hiff.mpr (.inl rfl)⟩

/-- The secondary copy is read twice, and the read fails although the primary copy,
which could be read, never is. -/
theorem read_misnamed :
    ∃ s, run false (fun _ => .media 0) 5 (hdSchedule twoParallel twoBusy (mirrorMask .doub))
        ⟨fun _ => 7, 0, []⟩ = some (true, s) ∧
      s.reads.map Io.copy = [.sing, .sing] ∧
      ¬Served false (mirrorMask .doub) (fun _ => 7) true s := by
  refine ⟨_, rfl, rfl, fun hs => ?_⟩
  have honce : [Mirror.sing, .sing].Nodup := hs.once
  exact absurd honce (by decide)

end MirRead

end Aix413.Lvm.Sched
