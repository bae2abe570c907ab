import Aix413.Lvm.Marking

namespace Aix413.Lvm.Sched

/-! ## Requests on a partition, in any order -/

/-- A request under way: one physical request, the ring of a parallel write, or a
pbuf on the wheel. -/
inductive Flight where
  | single (pb : Pbuf)
  | ring (pbs : List Pbuf)
  | wheel (pb : Pbuf)

structure State where
  lp : Lp
  pending : List Lbuf := []
  flights : List Flight := []

inductive Event where
  /-- A request comes down from the strategy routine. -/
  | submit (lb : Lbuf)
  /-- Request `i` of the pending queue is scheduled with so many free pbufs. -/
  | schedule (i free : Nat) (bad : Mirror → Bool) (sa : Bool)
  /-- A physical operation of flight `i` ends, in a ring the one `j` further on. -/
  | ioDone (i j : Nat) (err sa : Bool)
  /-- The status areas are written, or the quorum is lost. -/
  | wheelDone (i : Nat) (quorum : Bool)
  /-- The physical volume of a copy goes missing. -/
  | lose (m : Mirror)
  /-- The transfer count of a physical volume changes. -/
  | transfers (m : Mirror) (n : Nat)

def After.flights : After → Option (List Flight)
  | .begin pb => some [.single pb]
  | .ring pbs => some [.ring pbs]
  | .wheel pb => some [.wheel pb]
  | .finished _ => some []
  | .blocked => some []
  | .wild => none

/-- The state after a request has been handled. -/
def settle (pending : List Lbuf) (others : List Flight) (r : Lp × After) : Option State :=
  r.2.flights.map fun fs => { lp := r.1, pending := pending, flights := others ++ fs }

def State.setPvol (s : State) (m : Mirror) (f : Pvol → Pvol) : State :=
  { s with lp := { s.lp with
      pvol := Function.update s.lp.pvol m ((s.lp.pvol m).map f)
      primary := by
        have := s.lp.primary
        cases m <;> simp [this] } }

/-- One event; the run ends where the scheduler goes wild. -/
def step (lv : Lvol) (s : State) : Event → Option State
  | .submit lb =>
    match validateResyncReq lv s.lp lb with
    | some lp => some { s with lp := lp, pending := s.pending ++ [lb] }
    | none => some s
  | .schedule i free bad sa =>
    match s.pending[i]? with
    | some lb =>
      let r := hdSchedule lv s.lp lb free bad sa
      settle (if r.2 = .blocked then s.pending else s.pending.eraseIdx i) s.flights r
    | none => none
  | .ioDone i j err sa =>
    match s.flights[i]? with
    | some (.single pb) =>
      settle s.pending (s.flights.eraseIdx i) (hdSched lv s.lp { pb with error := err } sa)
    | some (.ring pbs) =>
      match pbs.rotate j with
      | pb :: ring =>
        settle s.pending (s.flights.eraseIdx i)
          (hdParwrite lv s.lp { pb with error := err } ring sa)
      | [] => none
    | _ => none
  | .wheelDone i quorum =>
    match s.flights[i]? with
    | some (.wheel pb) =>
      settle s.pending (s.flights.eraseIdx i)
        (hdSched lv s.lp { pb with error := pb.error || !quorum } true)
    | _ => none
  | .lose m => some (s.setPvol m fun p => { p with missing := true })
  | .transfers m n => some (s.setPvol m fun p => { p with xfcnt := n })

def exec (lv : Lvol) (s : State) : List Event → Option State
  | [] => some s
  | e :: es => (step lv s e).bind (exec lv · es)

/-! ## What holds of the requests under way -/

variable {lv : Lvol} {lp lp' : Lp} {lb : Lbuf} {pb : Pbuf}

/-- The bad mirrors of a write are none it avoids. -/
def Clean (pb : Pbuf) : Prop := ∀ m ∈ pb.mirbad, m ∉ pb.miravoid

structure Sound (lv : Lvol) (lp : Lp) (pb : Pbuf) : Prop where
  covers : Covers lv lp pb.miravoid
  write : pb.lbuf.op = .write → pb.sched = .seqwrite ∧ pb.mirror ∉ pb.miravoid ∧ Clean pb
  other : pb.lbuf.op ≠ .write → pb.sched = .resyncpp
  /-- A recovery that writes holds all it avoids for bad. -/
  recover : pb.lbuf.op = .recover → pb.read = false → ∀ m ∈ pb.miravoid, m ∈ pb.mirbad

def RingSound (lv : Lvol) (lp : Lp) (pbs : List Pbuf) : Prop :=
  ∃ avoid, Covers lv lp avoid ∧
    ∀ pb ∈ pbs, pb.miravoid = avoid ∧ pb.mirror ∉ pb.miravoid ∧ Clean pb

def WheelSound (pb : Pbuf) : Prop := pb.sched = .staleppe ∨ pb.sched = .finished

def FlightSound (lv : Lvol) (lp : Lp) : Flight → Prop
  | .single pb => Sound lv lp pb
  | .ring pbs => RingSound lv lp pbs
  | .wheel pb => WheelSound pb

/-- A handled request leaves the volumes alone and is sound where it goes on. -/
structure Kept (lv : Lvol) (lp : Lp) (r : Lp × After) : Prop where
  pvol : r.1.pvol = lp.pvol
  flights : ∀ fs, r.2.flights = some fs → ∀ f ∈ fs, FlightSound lv lp f

theorem FlightSound.of_isSome {f : Flight} (h : ∀ m, (lp'.pvol m).isSome = (lp.pvol m).isSome)
    (hf : FlightSound lv lp f) : FlightSound lv lp' f := by
  cases f with
  | single pb => exact { hf with covers := hf.covers.of_isSome h }
  | ring pbs =>
    obtain ⟨avoid, hc, hp⟩ := hf
    exact ⟨avoid, hc.of_isSome h, hp⟩
  | wheel pb => exact hf

theorem fresh_of_stale (hp : lp'.pvol = lp.pvol)
    (hs : ∀ m, (lp'.ppstate m).stale = true → (lp.ppstate m).stale = true)
    (hf : lp.Fresh lv) : lp'.Fresh lv := by
  obtain ⟨m, hm, hms⟩ := hf
  refine ⟨m, ⟨hm.1, hp ▸ hm.2⟩, ?_⟩
  cases h : (lp'.ppstate m).stale with
  | false => rfl
  | true => rw [hs m h] at hms; exact hms

theorem kept_finished {error : Bool} (hp : lp'.pvol = lp.pvol) :
    Kept lv lp (lp', .finished error) := by
  refine ⟨hp, fun fs h f hf => ?_⟩
  obtain rfl : [] = fs := Option.some.inj h
  exact absurd hf (List.not_mem_nil)

/-- A request that goes on as one flight. -/
theorem kept_one {r : Lp × After} {f : Flight} (hp : r.1.pvol = lp.pvol)
    (hr : r.2.flights = some [f]) (hf : FlightSound lv lp f) : Kept lv lp r := by
  refine ⟨hp, fun fs h g hg => ?_⟩
  rw [hr] at h
  obtain rfl : [f] = fs := Option.some.inj h
  exact List.mem_singleton.mp hg ▸ hf

theorem hdStalepp_kept {sa : Bool} (hp : lp'.pvol = lp.pvol) :
    Kept lv lp (hdStalepp lv lp' pb sa) := by
  unfold hdStalepp
  dsimp only
  split
  · exact kept_finished hp
  · split
    · exact kept_one hp rfl (.inl rfl)
    · exact kept_finished hp

theorem hdFreshpp_kept {sa : Bool} (hp : lp'.pvol = lp.pvol) :
    Kept lv lp (hdFreshpp lp' pb sa) := by
  unfold hdFreshpp
  dsimp only
  split
  · exact kept_one hp rfl (.inr rfl)
  · exact kept_finished hp

theorem hdFreshpp_fresh {sa : Bool} (hf : lp.Fresh lv) : (hdFreshpp lp pb sa).1.Fresh lv := by
  refine fresh_of_stale (by rfl) (fun m h => ?_) hf
  simp only [hdFreshpp] at h
  split at h
  · simp at h
  · exact h

/-! ## Mirrored writes -/

theorem nextWrite_spec (lp : Lp) (ms : List Mirror) (pb : Pbuf)
    (hms : ∀ m ∈ ms, m ∉ pb.miravoid) (hc : Clean pb) :
    (nextWrite lp ms pb).2.lbuf = pb.lbuf ∧ (nextWrite lp ms pb).2.sched = pb.sched ∧
    (nextWrite lp ms pb).2.miravoid = pb.miravoid ∧ Clean (nextWrite lp ms pb).2 ∧
    ((nextWrite lp ms pb).1 = true → (nextWrite lp ms pb).2.mirror ∉ pb.miravoid) := by
  induction ms generalizing pb with
  | nil => exact ⟨rfl, rfl, rfl, hc, fun h => absurd h (by simp [nextWrite])⟩
  | cons m ms ih =>
    have hm := hms m List.mem_cons_self
    simp only [nextWrite]
    split
    · refine ih _ (fun k hk => hms k (List.mem_cons_of_mem m hk)) fun k hk => ?_
      rcases mem_or.mp hk with h | h
      · exact hc k h
      · rw [mem_mirrorMask.mp h]
        exact hm
    · exact ⟨rfl, rfl, rfl, hc, fun _ => hm⟩

theorem hdSeqnext_write (lp : Lp) (hw : pb.lbuf.op = .write) (hc : Clean pb) :
    (hdSeqnext lp pb).2.lbuf = pb.lbuf ∧ (hdSeqnext lp pb).2.sched = pb.sched ∧
    (hdSeqnext lp pb).2.miravoid = pb.miravoid ∧ Clean (hdSeqnext lp pb).2 ∧
    ((hdSeqnext lp pb).1 = true → (hdSeqnext lp pb).2.mirror ∉ pb.miravoid) := by
  have hr : pb.lbuf.read = false := by simp [Lbuf.read, hw]
  rw [hdSeqnext, hr]
  refine nextWrite_spec lp _ pb (fun m hm => ?_) hc
  rw [mem_mirrors, mem_compl, mem_or, not_or] at hm
  exact hm.2

theorem hdSeqnext_sound {b : Bool} {pb' : Pbuf} (h : hdSeqnext lp' pb = (b, pb'))
    (hw : pb.lbuf.op = .write) (hsc : pb.sched = .seqwrite) (hv : Covers lv lp pb.miravoid)
    (hc : Clean pb) :
    Covers lv lp pb'.miravoid ∧ Clean pb' ∧
      (b = true → Sound lv lp { pb' with error := false }) := by
  obtain ⟨hl, hs, ha, hcl, hm⟩ := hdSeqnext_write lp' hw hc
  rw [h] at hl hs ha hcl hm
  have hcov : Covers lv lp pb'.miravoid := ha ▸ hv
  refine ⟨hcov, hcl, fun hb => ?_⟩
  exact
    { covers := hcov
      write := fun _ => ⟨hs.trans hsc, fun hin => hm hb (ha ▸ hin), hcl⟩
      other := fun hn => absurd (congrArg Lbuf.op hl |>.trans hw) hn
      recover := fun hr => by rw [hl, hw] at hr; cases hr }

theorem clean_markBad (hm : pb.mirror ∉ pb.miravoid) (hc : Clean pb) :
    Clean (if pb.error then pb.markBad pb.mirror else pb) := by
  split
  · intro k hk
    rcases mem_or.mp hk with h | h
    · exact hc k h
    · rw [mem_mirrorMask.mp h]
      exact hm
  · exact hc

theorem hdSeqwrite_spec {sa : Bool} (hs : Sound lv lp pb) (hw : pb.lbuf.op = .write) :
    Kept lv lp (hdSeqwrite lv lp pb sa) ∧
      (lp.Fresh lv → (hdSeqwrite lv lp pb sa).1.Fresh lv) := by
  obtain ⟨hsc, hm, hc⟩ := hs.write hw
  have hc' := clean_markBad hm hc
  unfold hdSeqwrite
  dsimp only
  generalize hq : (if pb.error then pb.markBad pb.mirror else pb) = q at hc'
  have hqw : q.lbuf.op = .write := by rw [← hq]; split <;> exact hw
  have hqs : q.sched = .seqwrite := by rw [← hq]; split <;> exact hsc
  have hqv : Covers lv lp q.miravoid := by rw [← hq]; split <;> exact hs.covers
  split
  · rename_i pb' hn
    exact ⟨kept_one rfl rfl ((hdSeqnext_sound hn hqw hqs hqv hc').2.2 rfl), id⟩
  · rename_i pb' hn
    obtain ⟨hcov, hcl, -⟩ := hdSeqnext_sound hn hqw hqs hqv hc'
    split
    · exact ⟨kept_finished rfl, id⟩
    · exact ⟨hdStalepp_kept rfl, fun hf => hdStalepp_fresh hcov hf (.inr (.inl hcl))⟩

theorem parLast_spec {sa : Bool} (hc : Covers lv lp pb.miravoid) (hcl : Clean pb) :
    Kept lv lp (parLast lv lp pb sa) ∧ (lp.Fresh lv → (parLast lv lp pb sa).1.Fresh lv) := by
  unfold parLast
  split
  · exact ⟨kept_finished rfl, id⟩
  · exact ⟨hdStalepp_kept rfl, fun hf => hdStalepp_fresh hc hf (.inr (.inl hcl))⟩

/-- A pbuf of a ring may take over what another one found bad. -/
theorem clean_inherit {bad : Mask} (hc : Clean pb) (hb : ∀ m ∈ bad, m ∉ pb.miravoid) :
    Clean (pb.inherit bad) := by
  intro k hk
  rcases mem_or.mp hk with h | h
  · exact hc k h
  · exact hb k h

theorem hdParwrite_spec {ring : List Pbuf} {sa : Bool} (hs : RingSound lv lp (pb :: ring)) :
    Kept lv lp (hdParwrite lv lp pb ring sa) ∧
      (lp.Fresh lv → (hdParwrite lv lp pb ring sa).1.Fresh lv) := by
  obtain ⟨avoid, hv, hp⟩ := hs
  obtain ⟨rfl, hm, hc⟩ := hp pb List.mem_cons_self
  have hc' := clean_markBad hm hc
  unfold hdParwrite
  dsimp only
  generalize hq : (if pb.error then pb.markBad pb.mirror else pb) = q at hc'
  have hqa : q.miravoid = pb.miravoid := by rw [← hq]; split <;> rfl
  cases ring with
  | nil => exact parLast_spec (hqa ▸ hv) hc'
  | cons r ring =>
    refine ⟨kept_one rfl rfl ⟨pb.miravoid, hv, fun x hx => ?_⟩, id⟩
    rcases List.mem_cons.mp hx with rfl | hx
    · obtain ⟨ha, hrm, hrc⟩ := hp r (by simp)
      refine ⟨ha, hrm, clean_inherit hrc fun m hmem => ?_⟩
      rw [ha, ← hqa]
      exact hc' m hmem
    · exact hp x (by simp [hx])

/-! ## Recoveries and resyncs -/

/-- The operation is the last one of the request, and it leaves bad copies. -/
def Ends (lp : Lp) (pb : Pbuf) : Prop :=
  if pb.read then
    if pb.error then pb.mirdone ||| pb.miravoid = allMirrors
    else lp.syncMsk ^^^ mirrorMask pb.mirror = 0
  else
    lp.syncMsk = 0 ∧ (if pb.error then pb.markBad pb.mirror else pb).mirbad ≠ 0

/-- A recovery that ends with bad copies and no resync in progress finds a copy it
does not avoid that is not stale. -/
def Spares (lv : Lvol) (lp : Lp) (pb : Pbuf) : Prop :=
  pb.lbuf.op = .recover → lp.syncTrk = none → Ends lp pb →
    ∃ m, lp.Copy lv m ∧ m ∉ pb.miravoid ∧ (lp.ppstate m).stale = false

theorem spares_of_not_ends (h : ¬Ends lp pb) : Spares lv lp pb := fun _ _ he => absurd he h

theorem hdStalepp_recover {sa : Bool} (hc : Covers lv lp pb.miravoid)
    (hbad : ∀ m ∈ pb.miravoid, m ∈ pb.mirbad) (hf : lp.Fresh lv) :
    (hdStalepp lv lp pb sa).1.Fresh lv ↔
      (lp.syncTrk = none →
        ∃ m, lp.Copy lv m ∧ m ∉ pb.miravoid ∧ (lp.ppstate m).stale = false) := by
  constructor
  · intro h hsync
    by_contra hn
    refine hdStalepp_stale hc hsync hbad (fun m hm ha => ?_) h
    cases hs : (lp.ppstate m).stale with
    | true => rfl
    | false => exact absurd ⟨m, hm, ha, hs⟩ hn
  · intro h
    cases hsync : lp.syncTrk with
    | some t => exact hdStalepp_fresh hc hf (.inl (by simp [hsync]))
    | none => exact hdStalepp_fresh hc hf (.inr (.inr (h hsync)))

theorem iff_of_fresh {p : Prop} {r : Lp × After} (hr : r.1.Fresh lv) (hp : p) :
    r.1.Fresh lv ↔ p := ⟨fun _ => hp, fun _ => hr⟩

theorem Sound.xlate (hs : Sound lv lp pb) (ho : pb.lbuf.op ≠ .write) {pb' : Pbuf}
    (hl : pb'.lbuf = pb.lbuf) (hsc : pb'.sched = pb.sched) (ha : pb'.miravoid = pb.miravoid)
    (hb : pb'.read = false → ∀ m ∈ pb.miravoid, pb.lbuf.op = .recover → m ∈ pb'.mirbad) :
    Sound lv lp pb' where
  covers := ha ▸ hs.covers
  write := fun h => absurd (hl ▸ h) ho
  other := fun _ => hsc.trans (hs.other ho)
  recover := fun hr hd m hm => hb hd m (ha ▸ hm) (hl ▸ hr)

theorem resyncpp_readError {sa : Bool} (hs : Sound lv lp pb) (ho : pb.lbuf.op ≠ .write)
    (hr : pb.read = true) (he : pb.error = true) (hf : lp.Fresh lv) :
    Kept lv lp (hdResyncpp lv lp pb sa) ∧
      ((hdResyncpp lv lp pb sa).1.Fresh lv ↔ Spares lv lp pb) := by
  have hends : Ends lp pb ↔ pb.mirdone ||| pb.miravoid = allMirrors := by simp [Ends, hr, he]
  have hn := hdSeqnext_read lp (pb.markBad pb.mirror) ho
  unfold hdResyncpp
  rw [if_pos hr, if_pos he]
  dsimp only
  cases hm : firstMirror (pb.mirdone ||| pb.miravoid) with
  | some m =>
    have hm' : firstMirror ((pb.markBad pb.mirror).mirdone ||| (pb.markBad pb.mirror).miravoid)
        = some m := hm
    rw [hm'] at hn
    rw [hn]
    refine ⟨kept_one rfl rfl (hs.xlate ho rfl rfl rfl fun h => ?_), iff_of_fresh hf ?_⟩
    · exact absurd (hr.symm.trans h) (by decide)
    · refine spares_of_not_ends fun h => ?_
      rw [firstMirror_none.mpr (hends.mp h)] at hm
      cases hm
  | none =>
    have hm' : firstMirror ((pb.markBad pb.mirror).mirdone ||| (pb.markBad pb.mirror).miravoid)
        = none := hm
    rw [hm'] at hn
    rw [hn]
    dsimp only
    split
    · rename_i hrec
      refine ⟨hdStalepp_kept rfl, Iff.trans (hdStalepp_recover ?_ ?_ ?_) ?_⟩
      · exact hs.covers
      · exact fun m hm => mem_or.mpr (.inr hm)
      · exact hf
      exact ⟨fun h _ hsync _ => h hsync,
        fun h hsync => h hrec hsync (hends.mpr (firstMirror_none.mp hm))⟩
    · rename_i hrec
      exact ⟨kept_finished rfl, iff_of_fresh hf fun h => absurd h hrec⟩

theorem resyncpp_readDone {sa : Bool} (hs : Sound lv lp pb) (ho : pb.lbuf.op ≠ .write)
    (hr : pb.read = true) (he : pb.error = false) (hf : lp.Fresh lv) :
    Kept lv lp (hdResyncpp lv lp pb sa) ∧
      ((hdResyncpp lv lp pb sa).1.Fresh lv ↔ Spares lv lp pb) := by
  have hends : Ends lp pb ↔ lp.syncMsk ^^^ mirrorMask pb.mirror = 0 := by simp [Ends, hr, he]
  unfold hdResyncpp
  rw [if_pos hr, if_neg (by simp [he])]
  split
  · rename_i hrec
    dsimp only
    cases hm : firstMask (lp.syncMsk ^^^ mirrorMask pb.mirror) with
    | none =>
      refine ⟨hdStalepp_kept rfl, Iff.trans (hdStalepp_recover ?_ ?_ ?_) ?_⟩
      · exact hs.covers
      · exact fun m hm => hm
      · exact hf
      exact ⟨fun h _ hsync _ => h hsync,
        fun h hsync => h hrec hsync (hends.mpr (firstMask_none.mp hm))⟩
    | some m =>
      refine ⟨kept_one rfl rfl (hs.xlate ho rfl rfl rfl fun _ m hm _ => hm),
        iff_of_fresh hf (spares_of_not_ends fun h => ?_)⟩
      rw [firstMask_none.mpr (hends.mp h)] at hm
      cases hm
  · rename_i hrec
    have hsp : Spares lv lp pb := fun h => absurd h hrec
    split
    · exact ⟨⟨rfl, fun fs h => by cases h⟩, iff_of_fresh hf hsp⟩
    · exact ⟨kept_one rfl rfl (hs.xlate ho rfl rfl rfl fun _ _ _ h => absurd h hrec),
        iff_of_fresh hf hsp⟩

theorem resyncpp_written {sa : Bool} (hs : Sound lv lp pb) (ho : pb.lbuf.op ≠ .write)
    (hr : pb.read = false) (hf : lp.Fresh lv) :
    Kept lv lp (hdResyncpp lv lp pb sa) ∧
      ((hdResyncpp lv lp pb sa).1.Fresh lv ↔ Spares lv lp pb) := by
  unfold hdResyncpp
  rw [if_neg (by simp [hr])]
  dsimp only
  generalize hl : (if pb.error = true ∧ pb.lbuf.op = .resync then
    lp.setPpstate pb.mirror { lp.ppstate pb.mirror with syncerr := true } else lp) = l
  generalize hq : (if pb.error then pb.markBad pb.mirror else pb) = q
  have hlp : l.pvol = lp.pvol := by rw [← hl]; split <;> rfl
  have hlm : l.syncMsk = lp.syncMsk := by rw [← hl]; split <;> rfl
  have hlf : l.Fresh lv := by
    refine fresh_of_stale hlp (fun m h => ?_) hf
    rw [← hl] at h
    split at h
    · by_cases hm : m = pb.mirror
      · subst hm
        simpa [Lp.setPpstate] using h
      · simpa [Lp.setPpstate, hm] using h
    · exact h
  have hql : q.lbuf = pb.lbuf := by rw [← hq]; split <;> rfl
  have hqs : q.sched = pb.sched := by rw [← hq]; split <;> rfl
  have hqa : q.miravoid = pb.miravoid := by rw [← hq]; split <;> rfl
  have hqb : ∀ m ∈ pb.miravoid, pb.lbuf.op = .recover → m ∈ q.mirbad := by
    intro m hm hrec
    have hin := hs.recover hrec hr m hm
    rw [← hq]
    split
    · exact mem_or.mpr (.inl hin)
    · exact hin
  have hends : Ends lp pb ↔ lp.syncMsk = 0 ∧ q.mirbad ≠ 0 := by
    rw [Ends, if_neg (by simp [hr]), hq]
  rw [hlm, hql]
  cases hm : firstMask lp.syncMsk with
  | some m =>
    refine ⟨kept_one hlp rfl (hs.xlate ho rfl hqs hqa fun _ => hqb),
      iff_of_fresh hlf (spares_of_not_ends fun h => ?_)⟩
    rw [firstMask_none.mpr (hends.mp h).1] at hm
    cases hm
  | none =>
    have hzero := firstMask_none.mp hm
    by_cases hrec : pb.lbuf.op = .recover
    -- a recovery: `l` is the partition itself
    · have hll : l = lp := by rw [← hl, if_neg (by simp [hrec])]
      subst hll
      have hstale : ∀ p : Pbuf, p.miravoid = pb.miravoid → p.mirbad = q.mirbad →
          q.mirbad ≠ 0 → ((hdStalepp lv l p sa).1.Fresh lv ↔ Spares lv l pb) := by
        intro p hpa hpb hne
        refine Iff.trans (hdStalepp_recover ?_ ?_ ?_) ?_
        · exact hpa ▸ hs.covers
        · exact fun k hk => hpb ▸ hqb k (hpa ▸ hk) hrec
        · exact hf
        · rw [hpa]
          exact ⟨fun h _ hsync _ => h hsync,
            fun h hsync => h hrec hsync (hends.mpr ⟨hzero, hne⟩)⟩
      dsimp only
      rw [if_pos hrec, if_pos hrec]
      by_cases hne : q.mirbad = 0
      · have hno : Spares lv l pb := spares_of_not_ends fun h => (hends.mp h).2 hne
        split
        · refine ⟨hdStalepp_kept rfl, iff_of_fresh (hdStalepp_fresh ?_ hf (.inr (.inl ?_))) hno⟩
          · exact hqa ▸ hs.covers
          · exact fun k hk => absurd hk (eq_zero.mp hne k)
        · rw [if_neg (by simpa using hne)]
          exact ⟨kept_finished rfl, iff_of_fresh hf hno⟩
      · split
        · exact ⟨hdStalepp_kept rfl, hstale _ hqa rfl hne⟩
        · exact ⟨hdStalepp_kept rfl, hstale _ hqa rfl hne⟩
    · have hsp : Spares lv lp pb := fun h => absurd h hrec
      dsimp only
      rw [if_neg hrec, if_neg hrec]
      split
      · exact ⟨kept_finished hlp, iff_of_fresh hlf hsp⟩
      · split
        · exact ⟨hdFreshpp_kept hlp, iff_of_fresh (hdFreshpp_fresh hlf) hsp⟩
        · exact ⟨kept_finished hlp, iff_of_fresh hlf hsp⟩

theorem hdResyncpp_spec {sa : Bool} (hs : Sound lv lp pb) (ho : pb.lbuf.op ≠ .write)
    (hf : lp.Fresh lv) :
    Kept lv lp (hdResyncpp lv lp pb sa) ∧
      ((hdResyncpp lv lp pb sa).1.Fresh lv ↔ Spares lv lp pb) := by
  cases hr : pb.read with
  | false => exact resyncpp_written hs ho hr hf
  | true =>
    cases he : pb.error with
    | true => exact resyncpp_readError hs ho hr he hf
    | false => exact resyncpp_readDone hs ho hr he hf

/-! ## Scheduling -/

theorem firstTry_kept {mask : Mask} (hp : lp'.pvol = lp.pvol) (hc : Covers lv lp mask) :
    Kept lv lp (lp', firstTry lp' lb mask) := by
  unfold firstTry
  split
  · rename_i pb' hn
    refine kept_one hp rfl ?_
    by_cases ho : lb.op = .write
    · have hs := (hdSeqnext_sound hn ho (by simp [Lbuf.read, ho]) hc
        (fun m hm => absurd hm (not_mem_zero m))).2.2 rfl
      exact { covers := hs.covers, write := hs.write, other := hs.other, recover := hs.recover }
    · rw [hdSeqnext_read _ _ ho] at hn
      split at hn
      · obtain ⟨-, rfl⟩ := Prod.mk.inj hn
        have hr : lb.read = true := by simp [Lbuf.read, ho]
        exact
          { covers := hc
            write := fun h => absurd h ho
            other := fun _ => if_pos hr
            recover := fun _ h => by rw [show lb.read = false from h] at hr; cases hr }
      · exact absurd (Prod.mk.inj hn).1 (by decide)
  · exact kept_finished hp

theorem nearTry_kept {mask : Mask} (hp : lp'.pvol = lp.pvol) (hc : Covers lv lp mask)
    (ho : lb.op ≠ .write) : Kept lv lp (lp', nearTry lp' lb mask) := by
  unfold nearTry hdNearby
  split
  · exact ⟨hp, fun fs h => by cases h⟩
  · refine kept_one hp rfl ?_
    exact
      { covers := hc
        write := fun h => absurd h ho
        other := fun _ => rfl
        recover := fun _ h => by cases h }

theorem issue_spec (bad : Mirror → Bool) (sa : Bool) {avoid : Mask} (hc : Covers lv lp avoid)
    (todo : List Pbuf) (inh : Mask) (out : List Pbuf) (iss : Nat)
    (hp : ∀ pb ∈ todo ++ out, pb.miravoid = avoid ∧ pb.mirror ∉ pb.miravoid ∧ Clean pb)
    (hi : ∀ m ∈ inh, m ∉ avoid) :
    Kept lv lp (issue lv lp bad sa todo inh out iss) ∧
      (lp.Fresh lv → (issue lv lp bad sa todo inh out iss).1.Fresh lv) := by
  induction todo generalizing inh out iss with
  | nil =>
    cases out with
    | nil => exact ⟨kept_one rfl rfl ⟨avoid, hc, by simp⟩, id⟩
    | cons q out =>
      refine ⟨kept_one rfl rfl ⟨avoid, hc, fun x hx => ?_⟩, id⟩
      rcases List.mem_cons.mp hx with rfl | hx
      · obtain ⟨ha, hm, hcl⟩ := hp q (by simp)
        exact ⟨ha, hm, clean_inherit hcl (ha ▸ hi)⟩
      · exact hp x (by simp [hx])
  | cons pb todo ih =>
    obtain ⟨ha, hm, hcl⟩ := hp pb (by simp)
    have hcl' : Clean (pb.inherit inh) := clean_inherit hcl (ha ▸ hi)
    have hrest : ∀ x ∈ todo ++ out, x.miravoid = avoid ∧ x.mirror ∉ x.miravoid ∧ Clean x :=
      fun x hx => hp x (List.mem_cons_of_mem pb hx)
    simp only [issue]
    split
    · split
      · exact ⟨kept_finished rfl, id⟩
      · refine ih _ out iss hrest fun m h => ?_
        rcases mem_or.mp h with h | h
        · rw [mem_mirrorMask.mp h, ← ha]
          exact hm
        · rw [← ha]
          exact hcl' m h
    · split
      · have hbad : Clean { (pb.inherit inh).markBad pb.mirror with error := true } := by
          intro m h
          rcases mem_or.mp h with h | h
          · exact hcl' m h
          · rw [mem_mirrorMask.mp h]
            exact hm
        split
        · exact parLast_spec (ha ▸ hc) hbad
        · exact ih _ out _ hrest fun m h => ha ▸ hbad m h
      · refine ih 0 (out ++ [pb.inherit inh]) _ (fun x hx => ?_) fun m h => absurd h (not_mem_zero m)
        rw [← List.append_assoc, List.mem_append, List.mem_singleton] at hx
        rcases hx with hx | rfl
        · exact hrest x hx
        · exact ⟨ha, hm, hcl'⟩

theorem parwrites_sound {mask : Mask} {pb : Pbuf} (h : pb ∈ parwrites lb mask) :
    pb.miravoid = mask ∧ pb.mirror ∉ pb.miravoid ∧ Clean pb := by
  obtain ⟨m, hm, rfl⟩ := List.mem_map.mp h
  rw [mem_mirrors, mem_compl] at hm
  exact ⟨rfl, hm, fun k hk => absurd hk (not_mem_zero k)⟩

theorem kept_blocked (hp : lp'.pvol = lp.pvol) : Kept lv lp (lp', .blocked) := by
  refine ⟨hp, fun fs h f hf => ?_⟩
  obtain rfl : [] = fs := Option.some.inj h
  exact absurd hf (List.not_mem_nil)

theorem Kept.of_pvol {r : Lp × After} (hp : lp'.pvol = lp.pvol) (h : Kept lv lp' r) :
    Kept lv lp r :=
  ⟨h.pvol.trans hp, fun fs hfs f hf =>
    (h.flights fs hfs f hf).of_isSome fun m => by rw [hp]⟩

theorem hdSequential_spec (lv : Lvol) (lp : Lp) (lb : Lbuf) (free : Nat) :
    Kept lv lp (hdSequential lv lp lb free) ∧
      (lp.Fresh lv → (hdSequential lv lp lb free).1.Fresh lv) := by
  obtain ⟨hp, hst, hc⟩ := hdAvoid_spec lv lp lb
  have hf : lp.Fresh lv → (hdAvoid lv lp lb).1.Fresh lv :=
    fresh_of_stale hp fun m h => (hst m).symm.trans h
  unfold hdSequential
  split
  · exact ⟨kept_blocked rfl, id⟩
  · dsimp only
    split
    · exact ⟨kept_finished hp, hf⟩
    · split
      · rename_i h
        exact ⟨nearTry_kept hp hc (by simpa [Lbuf.read] using h.1), hf⟩
      · exact ⟨firstTry_kept hp hc, hf⟩

theorem hdParallel_spec (lv : Lvol) (lp : Lp) (lb : Lbuf) (free : Nat) (bad : Mirror → Bool)
    (sa : Bool) :
    Kept lv lp (hdParallel lv lp lb free bad sa) ∧
      (lp.Fresh lv → (hdParallel lv lp lb free bad sa).1.Fresh lv) := by
  obtain ⟨hp, hst, hc⟩ := hdAvoid_spec lv lp lb
  have hf : lp.Fresh lv → (hdAvoid lv lp lb).1.Fresh lv :=
    fresh_of_stale hp fun m h => (hst m).symm.trans h
  unfold hdParallel
  dsimp only
  split
  · exact ⟨kept_finished hp, hf⟩
  · split
    · rename_i hr
      split
      · exact ⟨kept_blocked hp, hf⟩
      · split
        · exact ⟨firstTry_kept hp hc, hf⟩
        · exact ⟨nearTry_kept hp hc (by simpa [Lbuf.read] using hr), hf⟩
    · split
      · exact ⟨kept_blocked hp, hf⟩
      · have h := issue_spec bad sa (hc.of_isSome fun m => by rw [hp])
          (parwrites lb (hdAvoid lv lp lb).2) 0 [] 0 (fun pb hpb => parwrites_sound (by simpa using hpb))
          (fun m hm => absurd hm (not_mem_zero m))
        exact ⟨h.1.of_pvol hp, fun h' => h.2 (hf h')⟩

theorem hdSchedule_spec (lv : Lvol) (lp : Lp) (lb : Lbuf) (free : Nat) (bad : Mirror → Bool)
    (sa : Bool) :
    Kept lv lp (hdSchedule lv lp lb free bad sa) ∧
      (lp.Fresh lv → (hdSchedule lv lp lb free bad sa).1.Fresh lv) := by
  unfold hdSchedule
  split
  all_goals first | exact hdSequential_spec .. | exact hdParallel_spec ..

/-! ## Runs -/

def Inv (lv : Lvol) (s : State) : Prop := ∀ f ∈ s.flights, FlightSound lv s.lp f

/-- What the event must meet for a copy to be left: the completion of a recovery
spares one. -/
def Meets (lv : Lvol) (s : State) : Event → Prop
  | .ioDone i _ err _ => ∀ pb, s.flights[i]? = some (.single pb) →
      Spares lv s.lp { pb with error := err }
  | _ => True

/-- The requests under way stay sound, and whether a copy is left shows in what
handling the request gave. -/
theorem settle_spec {pending : List Lbuf} {s s' : State} {r : Lp × After}
    {others : List Flight} {p : Prop} (h : settle pending others r = some s')
    (hk : Kept lv s.lp r ∧ (r.1.Fresh lv ↔ p)) (hi : Inv lv s)
    (ho : ∀ f ∈ others, f ∈ s.flights) : Inv lv s' ∧ (s'.lp.Fresh lv ↔ p) := by
  obtain ⟨fs, hfs, rfl⟩ := Option.map_eq_some_iff.mp h
  obtain ⟨hk, hp⟩ := hk
  refine ⟨fun f hf => ?_, hp⟩
  have hsome : ∀ m, (r.1.pvol m).isSome = (s.lp.pvol m).isSome := fun m => by rw [hk.pvol]
  rcases List.mem_append.mp hf with hf | hf
  · exact (hi f (ho f hf)).of_isSome hsome
  · exact (hk.flights fs hfs f hf).of_isSome hsome

theorem spec_of_fresh {r : Lp × After} {p : Prop} (h : Kept lv lp r ∧ (lp.Fresh lv → r.1.Fresh lv))
    (hf : lp.Fresh lv) (hp : p) : Kept lv lp r ∧ (r.1.Fresh lv ↔ p) :=
  ⟨h.1, iff_of_fresh (h.2 hf) hp⟩

/-- A physical request of its own ends. -/
theorem hdSched_spec {sa : Bool} (hs : Sound lv lp pb) (hf : lp.Fresh lv) :
    Kept lv lp (hdSched lv lp pb sa) ∧ ((hdSched lv lp pb sa).1.Fresh lv ↔ Spares lv lp pb) := by
  by_cases ho : pb.lbuf.op = .write
  · rw [hdSched, (hs.write ho).1]
    refine spec_of_fresh (hdSeqwrite_spec hs ho) hf fun hr => ?_
    rw [hr] at ho
    cases ho
  · rw [hdSched, hs.other ho]
    exact hdResyncpp_spec hs ho hf

/-- A request leaves the wheel. -/
theorem hdSched_wheel {sa : Bool} (hs : WheelSound pb) :
    Kept lv lp (hdSched lv lp pb sa) ∧ (lp.Fresh lv → (hdSched lv lp pb sa).1.Fresh lv) := by
  unfold hdSched
  rcases hs with h | h
  · rw [h]
    refine ⟨kept_finished rfl, fresh_of_stale rfl fun m hm => ?_⟩
    simp only [hdStaleppe] at hm
    split at hm <;> exact hm
  · rw [h]
    exact ⟨kept_finished rfl, id⟩

theorem rotate_mem {pbs ring : List Pbuf} {j : Nat} (h : pbs.rotate j = pb :: ring)
    {x : Pbuf} (hx : x ∈ pb :: ring) : x ∈ pbs := by
  rwa [← h, List.mem_rotate] at hx

theorem setPvol_inv {s : State} (m : Mirror) (f : Pvol → Pvol) (hi : Inv lv s) :
    Inv lv (s.setPvol m f) ∧ (s.lp.Fresh lv → (s.setPvol m f).lp.Fresh lv) := by
  have hsome : ∀ k, ((s.setPvol m f).lp.pvol k).isSome = (s.lp.pvol k).isSome := by
    intro k
    by_cases hk : k = m
    · subst hk
      simp [State.setPvol]
    · simp [State.setPvol, hk]
  refine ⟨fun g hg => (hi g hg).of_isSome hsome, fun hf => ?_⟩
  obtain ⟨k, hk, hs⟩ := hf
  exact ⟨k, ⟨hk.1, (hsome k).trans hk.2⟩, hs⟩

theorem validateResyncReq_spec {lb : Lbuf} (h : validateResyncReq lv lp lb = some lp') :
    lp'.pvol = lp.pvol ∧ ∀ m, (lp'.ppstate m).stale = (lp.ppstate m).stale := by
  unfold validateResyncReq at h
  split_ifs at h
  · cases h
    exact ⟨rfl, fun _ => rfl⟩
  · cases h
    refine ⟨rfl, fun m => ?_⟩
    dsimp only
    split <;> rfl
  · cases h
    exact ⟨rfl, fun _ => rfl⟩

theorem step_spec {s s' : State} {e : Event} (hi : Inv lv s) (hf : s.lp.Fresh lv)
    (h : step lv s e = some s') : Inv lv s' ∧ (s'.lp.Fresh lv ↔ Meets lv s e) := by
  have hothers : ∀ i, ∀ f ∈ s.flights.eraseIdx i, f ∈ s.flights := fun i f hf =>
    List.mem_of_mem_eraseIdx hf
  cases e with
  | submit lb =>
    simp only [step] at h
    split at h
    · rename_i lp hv
      cases h
      obtain ⟨hp, hst⟩ := validateResyncReq_spec hv
      refine ⟨fun f hf => (hi f hf).of_isSome fun m => by rw [hp], fun _ => trivial, fun _ => ?_⟩
      exact fresh_of_stale hp (fun m hm => (hst m).symm.trans hm) hf
    · cases h
      exact ⟨hi, fun _ => trivial, fun _ => hf⟩
  | schedule i free bad sa =>
    simp only [step] at h
    split at h
    · exact settle_spec h (spec_of_fresh (hdSchedule_spec ..) hf trivial) hi fun _ hf => hf
    · cases h
  | ioDone i j err sa =>
    simp only [step] at h
    split at h
    · rename_i pb hget
      have hs : Sound lv s.lp { pb with error := err } :=
        let h := hi _ (List.mem_of_getElem? hget)
        { covers := h.covers, write := h.write, other := h.other, recover := h.recover }
      have hmeets : Meets lv s (.ioDone i j err sa) ↔ Spares lv s.lp { pb with error := err } := by
        simp only [Meets, hget]
        exact ⟨fun h => h pb rfl, fun h q hq => by cases hq; exact h⟩
      rw [hmeets]
      exact settle_spec h (hdSched_spec hs hf) hi (hothers i)
    · rename_i pbs hget
      split at h
      · rename_i pb ring hrot
        obtain ⟨avoid, hc, hp⟩ := hi _ (List.mem_of_getElem? hget)
        have hs : RingSound lv s.lp ({ pb with error := err } :: ring) := by
          refine ⟨avoid, hc, fun x hx => ?_⟩
          rcases List.mem_cons.mp hx with rfl | hx
          · exact hp pb (rotate_mem hrot List.mem_cons_self)
          · exact hp x (rotate_mem hrot (List.mem_cons_of_mem pb hx))
        refine settle_spec h (spec_of_fresh (hdParwrite_spec hs) hf fun q hq => ?_) hi (hothers i)
        rw [hget] at hq
        cases hq
      · cases h
    · cases h
  | wheelDone i quorum =>
    simp only [step] at h
    split at h
    · rename_i pb hget
      have hs : WheelSound pb := hi _ (List.mem_of_getElem? hget)
      exact settle_spec h (spec_of_fresh (hdSched_wheel hs) hf trivial) hi (hothers i)
    · cases h
  | lose m =>
    cases h
    obtain ⟨h₁, h₂⟩ := setPvol_inv m (fun p => { p with missing := true }) hi
    exact ⟨h₁, fun _ => trivial, fun _ => h₂ hf⟩
  | transfers m n =>
    cases h
    obtain ⟨h₁, h₂⟩ := setPvol_inv m (fun p => { p with xfcnt := n }) hi
    exact ⟨h₁, fun _ => trivial, fun _ => h₂ hf⟩

/-- The states a run goes through keep a copy. -/
def AllFresh (lv : Lvol) (s : State) : List Event → Prop
  | [] => s.lp.Fresh lv
  | e :: es => s.lp.Fresh lv ∧ ∀ s', step lv s e = some s' → AllFresh lv s' es

/-- Every step of a run meets its condition. -/
def AllMeet (lv : Lvol) (s : State) : List Event → Prop
  | [] => True
  | e :: es => ∀ s', step lv s e = some s' → Meets lv s e ∧ AllMeet lv s' es

theorem allFresh_iff {s : State} (hi : Inv lv s) (hf : s.lp.Fresh lv) (es : List Event) :
    AllFresh lv s es ↔ AllMeet lv s es := by
  induction es generalizing s with
  | nil => exact ⟨fun _ => trivial, fun _ => hf⟩
  | cons e es ih =>
    constructor
    · rintro ⟨-, h⟩ s' hs'
      obtain ⟨hi', hiff⟩ := step_spec hi hf hs'
      have hf' : s'.lp.Fresh lv := by
        have := h s' hs'
        cases es with
        | nil => exact this
        | cons _ _ => exact this.1
      exact ⟨hiff.mp hf', (ih hi' hf').mp (h s' hs')⟩
    · refine fun h => ⟨hf, fun s' hs' => ?_⟩
      obtain ⟨hm, hrest⟩ := h s' hs'
      obtain ⟨hi', hiff⟩ := step_spec hi hf hs'
      exact (ih hi' (hiff.mpr hm)).mpr hrest

/-- From a partition with a copy that is not stale and no request under way, a run
keeps such a copy in all its states just when every recovery spares one as it
ends. -/
theorem copy_kept_iff (lv : Lvol) (lp : Lp) (hf : lp.Fresh lv) (es : List Event) :
    AllFresh lv { lp := lp } es ↔ AllMeet lv { lp := lp } es :=
  allFresh_iff (s := { lp := lp }) (fun _ h => absurd h List.not_mem_nil) hf es

/-- Two copies, the primary one on a missing volume but not stale. -/
def pair : Lvol :=
  { nparts := 2, copies := two_copies, iSched := .sequential, trkppart := 4 }

def halfMissing : Lp :=
  { ppstate := fun _ => {}
    pvol := fun
      | .prim => some { missing := true }
      | .sing => some {}
      | .doub => none
    primary := rfl
    syncTrk := none
    rip := false
    syncMsk := 0 }

theorem copy_kept_while_writing :
    AllFresh pair { lp := halfMissing }
      [.submit ⟨.write, 1, 0⟩, .schedule 0 1 (fun _ => false) true, .lose .sing] :=
  (copy_kept_iff pair halfMissing (by decide) _).mpr
    fun _ _ => ⟨trivial, fun _ _ => ⟨trivial, fun _ _ => ⟨trivial, trivial⟩⟩⟩

/-- A recovery of track group 0 reads the secondary copy. A write to track group 1
fails there as its volume goes missing, so that copy is marked stale and the primary
one stays active; then the recovery marks the primary copy for having avoided it. -/
theorem last_copy_lost :
    ∃ s s', exec pair { lp := halfMissing }
        [.submit ⟨.recover, 0, 0⟩, .schedule 0 2 (fun _ => false) true,
          .submit ⟨.write, 1, 0⟩, .schedule 0 1 (fun _ => false) true,
          .lose .sing, .ioDone 1 0 true true] = some s ∧
      s.lp.Fresh pair ∧ step pair s (.ioDone 0 0 false true) = some s' ∧
      ¬s'.lp.Fresh pair :=
  ⟨_, _, rfl, by decide, rfl, by decide⟩

end Aix413.Lvm.Sched
