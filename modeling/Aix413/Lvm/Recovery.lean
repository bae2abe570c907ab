import Mathlib.Data.List.MinMax
import Aix413.Lvm.Marking

namespace Aix413.Lvm.Sched

/-! ## A request runs to its end -/

section Running

variable {α : Type} (lv : Lvol) (err : Nat → Bool) (junk : Nat → α) (sa quorum : Bool)

/-- The copies of the track group after physical operation `k`; a write that fails
leaves anything. -/
def written (k : Nat) (data : Mirror → α) (buf : α) (pb : Pbuf) : Mirror → α :=
  if pb.read then data else Function.update data pb.target (if err k then junk k else buf)

/-- The buffer of the request after physical operation `k`. -/
def fetched (k : Nat) (data : Mirror → α) (buf : α) (pb : Pbuf) : α :=
  if pb.read then if err k then junk k else data pb.target else buf

/-- Runs of a request from its physical operation `k` on, to the partition, the
contents of its copies and the error it goes back with. -/
inductive Runs : Nat → Lp → (Mirror → α) → α → After → Lp → (Mirror → α) → Bool → Prop
  | finished {k lp data buf error} : Runs k lp data buf (.finished error) lp data error
  | wheel {k lp data buf pb lp' data' error} :
      Runs k (hdSched lv lp { pb with error := pb.error || !quorum } sa).1 data buf
        (hdSched lv lp { pb with error := pb.error || !quorum } sa).2 lp' data' error →
      Runs k lp data buf (.wheel pb) lp' data' error
  | io {k lp data buf pb lp' data' error} :
      Runs (k + 1) (hdSched lv lp { pb with error := err k } sa).1
        (written err junk k data buf pb) (fetched err junk k data buf pb)
        (hdSched lv lp { pb with error := err k } sa).2 lp' data' error →
      Runs k lp data buf (.begin pb) lp' data' error

end Running

/-! ## The mirror read first -/

/-- The mirrors `hd_nearby` looks at: up to the first without transfers. -/
def looked (lp : Lp) : List Mirror → List Mirror
  | [] => []
  | m :: ms => if lp.xfcnt m = 0 then [m] else m :: looked lp ms

variable {lv : Lvol} {lp : Lp} {lb : Lbuf} {pb : Pbuf}

/-- What is looked at after mirror `l`. -/
def seen (lp : Lp) (l : Mirror) (ms : List Mirror) : List Mirror :=
  if lp.xfcnt l = 0 then [] else looked lp ms

theorem looked_cons (lp : Lp) (m : Mirror) (ms : List Mirror) :
    looked lp (m :: ms) = m :: seen lp m ms := by
  rw [looked, seen]
  split <;> rfl

/-- `hd_nearby` selects the least busy mirror it looks at. -/
theorem nearest_sel (lp : Lp) (s l : Mirror) (ms : List Mirror) :
    (seen lp l ms).foldl (List.argAux fun b c => lp.xfcnt b < lp.xfcnt c) (some s) =
      some (nearest lp s l (lp.xfcnt s) ms).1 := by
  induction ms generalizing s l with
  | nil => simp [seen, looked, nearest]
  | cons m ms ih =>
    by_cases hl : lp.xfcnt l = 0
    · simp [seen, nearest, hl]
    · rw [seen, if_neg hl, looked_cons, nearest, if_neg hl, List.foldl_cons]
      split
      · rename_i hlt
        rw [show List.argAux (fun b c => lp.xfcnt b < lp.xfcnt c) (some s) m = some m from
          if_pos hlt]
        exact ih m m
      · rename_i hlt
        rw [show List.argAux (fun b c => lp.xfcnt b < lp.xfcnt c) (some s) m = some s from
          if_neg hlt]
        exact ih s m

/-- It leaves with the part structure of the mirror it looks at last. -/
theorem nearest_last (lp : Lp) (s l : Mirror) (n : Nat) (ms : List Mirror) :
    (l :: seen lp l ms).getLast? = some (nearest lp s l n ms).2 := by
  induction ms generalizing s l n with
  | nil => simp [seen, looked, nearest]
  | cons m ms ih =>
    by_cases hl : lp.xfcnt l = 0
    · simp [seen, nearest, hl]
    · rw [seen, if_neg hl, looked_cons, nearest, if_neg hl, List.getLast?_cons_cons]
      split
      · exact ih m m _
      · exact ih s m n

/-- A resync or recovery request that reads. -/
structure Reading (avoid : Mask) (pb : Pbuf) : Prop where
  op : pb.lbuf.op ≠ .write
  sched : pb.sched = .resyncpp
  read : pb.read = true
  miravoid : pb.miravoid = avoid
  mirror : pb.mirror ∉ avoid
  target : pb.target ∉ avoid
  bad : ∀ m ∈ pb.mirdone, m ∈ pb.mirbad ∨ m = pb.mirror

section Phases

variable {α : Type} {err : Nat → Bool} {junk : Nat → α} {sa quorum : Bool}
  {data data' : Mirror → α} {buf : α} {avoid : Mask} {lp' : Lp} {error : Bool}

theorem mirrorCount_markDone {m : Mirror} (h : firstMirror (pb.mirdone ||| avoid) = some m) :
    mirrorCount ((pb.mirdone ||| mirrorMask m) ||| avoid) + 1 =
      mirrorCount (pb.mirdone ||| avoid) := by
  rw [← mirrorCount_next (firstMirror_notMem h), BitVec.or_assoc, BitVec.or_comm (mirrorMask m), BitVec.or_assoc]

/-- A failed read goes on with the next mirror, read where it says. -/
theorem Reading.retry (lv : Lvol) (lp : Lp) {m : Mirror} (hr : Reading avoid pb)
    (hm : firstMirror (pb.mirdone ||| avoid) = some m) :
    ∃ pb₂, (∀ sa, hdResyncpp lv lp { pb with error := true } sa = (lp, .begin pb₂)) ∧
      Reading avoid pb₂ ∧ pb₂.lbuf = pb.lbuf ∧ pb₂.target = pb₂.mirror ∧
      pb₂.mirdone = pb.mirdone ||| mirrorMask m := by
  have hn := hdSeqnext_read lp ({ pb with error := true }.markBad pb.mirror) hr.op
  have hm' : firstMirror (({ pb with error := true }.markBad pb.mirror).mirdone |||
      ({ pb with error := true }.markBad pb.mirror).miravoid) = some m := hr.miravoid ▸ hm
  rw [hm'] at hn
  refine ⟨{ hdXlate (({ pb with error := true }.markBad pb.mirror).markDone m) m with
    error := false }, fun sa => ?_, ?_, ?_⟩
  · rw [hdResyncpp, if_pos hr.read, if_pos rfl]
    dsimp only
    rw [hn]
  · have hout := firstMirror_notMem hm
    rw [mem_or, not_or] at hout
    exact
      { op := hr.op
        sched := hr.sched
        read := hr.read
        miravoid := hr.miravoid
        mirror := hout.2
        target := hout.2
        bad := by
          intro c hc
          rcases mem_or.mp hc with hc | hc
          · left
            rcases hr.bad c hc with h | h
            · exact mem_or.mpr (.inl h)
            · exact mem_or.mpr (.inr (mem_mirrorMask.mpr h))
          · exact .inr (mem_mirrorMask.mp hc) }
  · exact ⟨rfl, rfl, rfl⟩

/-- From operation `k` with `pb` on, the read phase ends in operation `j` with `pb'`. -/
structure LastRead (avoid : Mask) (err : Nat → Bool) (k : Nat) (pb : Pbuf) (j : Nat)
    (pb' : Pbuf) : Prop where
  le : k ≤ j
  failed : ∀ i, k ≤ i → i < j → err i = true
  reading : Reading avoid pb'
  lbuf : pb'.lbuf = pb.lbuf
  first : j = k → pb' = pb
  later : k < j → pb'.target = pb'.mirror
  count : j + mirrorCount (pb'.mirdone ||| avoid) = k + mirrorCount (pb.mirdone ||| avoid)
  /-- A read that fails is the last one when no mirror is left. -/
  none : err j = true → mirrorCount (pb'.mirdone ||| avoid) = 0

theorem LastRead.next {k j : Nat} {pb₂ pb' : Pbuf} {m : Mirror} (he : err k = true)
    (hm : firstMirror (pb.mirdone ||| avoid) = some m) (hl : pb₂.lbuf = pb.lbuf)
    (ht : pb₂.target = pb₂.mirror) (hd : pb₂.mirdone = pb.mirdone ||| mirrorMask m)
    (h : LastRead avoid err (k + 1) pb₂ j pb') : LastRead avoid err k pb j pb' where
  le := (Nat.le_succ k).trans h.le
  failed := by
    intro i h₁ h₂
    rcases Nat.eq_or_lt_of_le h₁ with rfl | h₁
    · exact he
    · exact h.failed i h₁ h₂
  reading := h.reading
  lbuf := h.lbuf.trans hl
  first := fun hj => absurd h.le (by omega)
  later := by
    intro _
    rcases Nat.eq_or_lt_of_le h.le with hj | hj
    · rw [h.first hj.symm, ht]
    · exact h.later hj
  count := by
    have hcount := mirrorCount_markDone hm
    rw [← hd] at hcount
    have := h.count
    omega
  none := h.none

/-- What `hd_stalepp` and the wheel leave: the marks, and the data as it was. -/
theorem stalepp_run {k : Nat}
    (h : Runs lv err junk sa quorum k (hdStalepp lv lp pb sa).1 data buf
      (hdStalepp lv lp pb sa).2 lp' data' error) :
    data' = data ∧
      ∀ c, (lp'.ppstate c).stale = true ↔ (lp.ppstate c).stale = true ∨ c ∈ lp.marked lv pb := by
  have hmark : ∀ c, ((lp.mark (lp.marked lv pb)).ppstate c).stale = true ↔
      (lp.ppstate c).stale = true ∨ c ∈ lp.marked lv pb := by
    intro c
    simp only [Lp.mark]
    split <;> simp_all
  unfold hdStalepp at h
  dsimp only at h
  split at h
  · cases h
    exact ⟨rfl, hmark⟩
  · split at h
    · cases h with
      | wheel h =>
        rw [hdSched] at h
        cases h
        refine ⟨rfl, fun c => Iff.trans ?_ (hmark c)⟩
        simp only [hdStaleppe]
        split <;> rfl
    · cases h
      exact ⟨rfl, hmark⟩

/-- Of the copies to be written `T` those that are not stale in the end hold `v`,
of the others the bad ones are stale; `oks` tells whether some write succeeds. -/
structure Outcome (copy : Mirror → Prop) (bad T : Mask) (v : α) (data : Mirror → α)
    (lp' : Lp) (data' : Mirror → α) (oks : Prop) : Prop where
  untouched : ∀ c, c ∉ T → data' c = data c
  kept : ∀ c, copy c → c ∉ T → ((lp'.ppstate c).stale = false ↔ c ∉ bad)
  copied : ∀ c, c ∈ T → (lp'.ppstate c).stale = false → data' c = v
  some : (∃ c, c ∈ T ∧ (lp'.ppstate c).stale = false) ↔ oks

/-- One more copy is written. -/
theorem Outcome.write {bad R : Mask} {m : Mirror} {v : α} {k : Nat} {oks : Prop}
    {copy : Mirror → Prop} (hR : m ∉ R) (hbad : m ∉ bad) (hm : copy m)
    (h : Outcome copy (if err k then bad ||| mirrorMask m else bad) R v
      (Function.update data m (if err k then junk k else v)) lp' data' oks) :
    Outcome copy bad (mirrorMask m ||| R) v data lp' data' (err k = false ∨ oks) := by
  have hkept : (lp'.ppstate m).stale = false ↔ err k = false := by
    rw [h.kept m hm hR]
    cases err k <;> simp [hbad]
  constructor
  · intro c hc
    rw [mem_or, not_or, mem_mirrorMask] at hc
    rw [h.untouched c hc.2, Function.update_of_ne hc.1]
  · intro c hcopy hc
    rw [mem_or, not_or, mem_mirrorMask] at hc
    rw [h.kept c hcopy hc.2]
    cases err k <;> simp [hc.1]
  · intro c hc hs
    rw [mem_or, mem_mirrorMask] at hc
    rcases hc with rfl | hc
    · rw [h.untouched c hR, Function.update_self, hkept.mp hs]
      rfl
    · exact h.copied c hc hs
  · rw [← h.some, ← hkept]
    constructor
    · rintro ⟨c, hc, hs⟩
      rw [mem_or, mem_mirrorMask] at hc
      rcases hc with rfl | hc
      · exact .inl hs
      · exact .inr ⟨c, hc, hs⟩
    · rintro (hs | ⟨c, hc, hs⟩)
      · exact ⟨m, mem_or.mpr (.inl (mem_mirrorMask.mpr rfl)), hs⟩
      · exact ⟨c, mem_or.mpr (.inr hc), hs⟩

/-- A recovery that has read mirror `s` writes the others. -/
structure Writing (lv : Lvol) (lp : Lp) (s : Mirror) (pb : Pbuf) : Prop where
  op : pb.lbuf.op = .recover
  sched : pb.sched = .resyncpp
  read : pb.read = false
  target : pb.target = pb.mirror
  covers : Covers lv lp pb.miravoid
  stale : ∀ c, lp.Copy lv c → (lp.ppstate c).stale = true → c ∈ pb.miravoid
  avoided : ∀ c ∈ pb.miravoid, c ∈ pb.mirbad
  current : pb.mirror ∉ pb.mirbad
  left : ∀ c ∈ lp.syncMsk, c ∉ pb.mirbad ∧ c ≠ pb.mirror
  source : s ∉ pb.mirbad ∧ s ≠ pb.mirror ∧ s ∉ lp.syncMsk

/-- The pbuf after a write. -/
def Pbuf.wrote (pb : Pbuf) (failed : Bool) : Pbuf :=
  { if failed then pb.markBad pb.mirror else pb with error := false }

theorem wrote_mirbad (pb : Pbuf) (failed : Bool) :
    (pb.wrote failed).mirbad = if failed then pb.mirbad ||| mirrorMask pb.mirror else pb.mirbad := by
  cases failed <;> rfl

theorem Writing.resyncpp {s : Mirror} {failed : Bool} (hw : Writing lv lp s pb) :
    hdResyncpp lv lp { pb with error := failed } sa =
      match firstMask lp.syncMsk with
      | some m => ({ lp with syncMsk := lp.syncMsk &&& ~~~mirrorMask m },
          .begin (hdXlate ((pb.wrote failed).markDone m) m))
      | none =>
        if (pb.wrote failed).mirbad = (pb.wrote failed).mirdone ∨ (pb.wrote failed).mirbad ≠ 0 then
          hdStalepp lv lp { pb.wrote failed with read := true } sa
        else (lp, .finished false) := by
  have hop : (pb.wrote failed).lbuf.op = .recover := by
    cases failed <;> exact hw.op
  have hlp : hdResyncpp lv lp { pb with error := failed } sa =
      match firstMask lp.syncMsk with
      | some m => ({ lp with syncMsk := lp.syncMsk &&& ~~~mirrorMask m },
          .begin (hdXlate ((pb.wrote failed).markDone m) m))
      | none =>
        if (pb.wrote failed).mirbad = (pb.wrote failed).mirdone then
          if (pb.wrote failed).lbuf.op = .recover then
            hdStalepp lv lp { pb.wrote failed with read := true } sa
          else (cancelResync lp, .finished true)
        else if (pb.wrote failed).lbuf.op = .recover then
          if (pb.wrote failed).mirbad ≠ 0 then
            hdStalepp lv lp { pb.wrote failed with read := true } sa
          else (lp, .finished false)
        else if lp.syncTrk = some (lv.trkppart - 1) then
          hdFreshpp lp { pb.wrote failed with read := true } sa
        else ({ lp with rip := false, syncTrk := lp.syncTrk.map (· + 1) }, .finished false) := by
    rw [hdResyncpp, if_neg (by simp [hw.read]), if_neg (by simp [hw.op])]
    cases failed <;> rfl
  rw [hlp]
  cases firstMask lp.syncMsk with
  | some m => rfl
  | none =>
    dsimp only
    rw [if_pos hop, if_pos hop]
    by_cases h₁ : (pb.wrote failed).mirbad = (pb.wrote failed).mirdone
    · rw [if_pos h₁, if_pos (.inl h₁)]
    · rw [if_neg h₁]
      by_cases h₂ : (pb.wrote failed).mirbad ≠ 0
      · rw [if_pos h₂, if_pos (.inr h₂)]
      · rw [if_neg h₂, if_neg (by simpa [h₁] using h₂)]

/-- The run ends with the last write. -/
theorem Writing.last {s : Mirror} {failed : Bool} {k : Nat} {d : Mirror → α}
    (hw : Writing lv lp s pb) (hmsk : firstMask lp.syncMsk = none)
    (h : Runs lv err junk sa quorum k (hdResyncpp lv lp { pb with error := failed } sa).1 d buf
      (hdResyncpp lv lp { pb with error := failed } sa).2 lp' data' error) :
    data' = d ∧ ∀ c, lp.Copy lv c →
      ((lp'.ppstate c).stale = false ↔ c ∉ (pb.wrote failed).mirbad) := by
  have hstale : ∀ c, lp.Copy lv c → (lp.ppstate c).stale = true → c ∈ (pb.wrote failed).mirbad := by
    intro c hc hs
    have := hw.avoided c (hw.stale c hc hs)
    rw [wrote_mirbad]
    split
    · exact mem_or.mpr (.inl this)
    · exact this
  rw [hw.resyncpp, hmsk] at h
  dsimp only at h
  split at h
  · obtain ⟨hd, hst⟩ := stalepp_run h
    refine ⟨hd, fun c hc => ?_⟩
    have hsource : s ∉ (pb.wrote failed).mirbad := by
      rw [wrote_mirbad]
      split
      · rw [mem_or, mem_mirrorMask, not_or]
        exact ⟨hw.source.1, hw.source.2.1⟩
      · exact hw.source.1
    have havoid : s ∉ (pb.wrote failed).miravoid := by
      intro hin
      refine hw.source.1 (hw.avoided s ?_)
      cases failed <;> exact hin
    have hcopy : lp.Copy lv s := by
      refine hw.covers s fun hin => havoid ?_
      cases failed <;> exact hin
    have hfresh : (lp.ppstate s).stale = false := by
      cases hs : (lp.ppstate s).stale with
      | false => rfl
      | true => exact absurd (hstale s hcopy hs) hsource
    have hm : c ∈ lp.marked lv { pb.wrote failed with read := true } ↔
        c ∈ (pb.wrote failed).mirbad := mem_marked hfresh hsource havoid hc
    rw [← hm, ← Bool.not_eq_true, hst c]
    constructor
    · exact fun h hin => h (.inr hin)
    · rintro h (hs | hs)
      · exact h (hm.mpr (hstale c hc hs))
      · exact h hs
  · rename_i hne
    cases h
    rw [not_or, not_not] at hne
    refine ⟨rfl, fun c hc => ⟨fun _ => ?_, fun h => ?_⟩⟩
    · exact hne.2 ▸ not_mem_zero c
    · cases hs : (lp.ppstate c).stale with
      | false => rfl
      | true => exact absurd (hstale c hc hs) h

theorem Writing.next {s m : Mirror} {failed : Bool} (hw : Writing lv lp s pb)
    (hmsk : firstMask lp.syncMsk = some m) :
    Writing lv { lp with syncMsk := lp.syncMsk &&& ~~~mirrorMask m } s
      (hdXlate ((pb.wrote failed).markDone m) m) := by
  have hin := firstMask_mem hmsk
  have hmirbad : ∀ c, c ∉ pb.mirbad → c ≠ pb.mirror → c ∉ (pb.wrote failed).mirbad := by
    intro c hb hm
    rw [wrote_mirbad]
    split
    · rw [mem_or, mem_mirrorMask, not_or]
      exact ⟨hb, hm⟩
    · exact hb
  have hsub : ∀ c ∈ pb.mirbad, c ∈ (pb.wrote failed).mirbad := by
    intro c hb
    rw [wrote_mirbad]
    split
    · exact mem_or.mpr (.inl hb)
    · exact hb
  have havoid : (pb.wrote failed).miravoid = pb.miravoid := by cases failed <;> rfl
  exact
    { op := by cases failed <;> exact hw.op
      sched := by cases failed <;> exact hw.sched
      read := by cases failed <;> exact hw.read
      target := rfl
      covers := by
        intro c hc
        exact hw.covers c (havoid ▸ hc)
      stale := fun c hc hs => by
        show c ∈ (pb.wrote failed).miravoid
        exact havoid ▸ hw.stale c hc hs
      avoided := fun c hc => hsub c (hw.avoided c (havoid ▸ hc))
      current := hmirbad m (hw.left m hin).1 (hw.left m hin).2
      left := fun c hc => by
        rw [mem_and, mem_compl, mem_mirrorMask] at hc
        obtain ⟨hb, hm⟩ := hw.left c hc.1
        exact ⟨hmirbad c hb hm, hc.2⟩
      source := by
        obtain ⟨hb, hm, hR⟩ := hw.source
        refine ⟨hmirbad s hb hm, fun h => hR (h ▸ hin), fun h => hR (mem_and.mp h).1⟩ }

theorem looked_subset {m : Mirror} {ms : List Mirror} (h : m ∈ looked lp ms) : m ∈ ms := by
  induction ms with
  | nil => exact h
  | cons k ms ih =>
    rw [looked] at h
    split at h
    · exact List.mem_cons.mpr (.inl (List.mem_singleton.mp h))
    · rcases List.mem_cons.mp h with h | h
      · exact List.mem_cons.mpr (.inl h)
      · exact List.mem_cons_of_mem k (ih h)

/-- Whether reads of the volume go to a nearby mirror. -/
def Near (lv : Lvol) : Prop := lv.iSched = .seqwrtparrd ∨ lv.iSched = .parallel

/-- All copies that are not stale in the end hold what one of those not stale before
held. -/
def Same (lv : Lvol) (lp lp' : Lp) (data data' : Mirror → α) : Prop :=
  ∃ s, lp.Copy lv s ∧ (lp.ppstate s).stale = false ∧
    ∀ c, lp.Copy lv c → (lp'.ppstate c).stale = false → data' c = data s

/-- The pbuf of a recovery none of whose reads succeeded. -/
def Pbuf.unread (pb : Pbuf) : Pbuf :=
  { pb with error := false, mirbad := (pb.mirbad ||| mirrorMask pb.mirror) ||| pb.miravoid }

theorem Reading.failed (hr : Reading avoid pb) (ho : pb.lbuf.op = .recover)
    (hall : mirrorCount (pb.mirdone ||| avoid) = 0) :
    hdResyncpp lv lp { pb with error := true } sa = hdStalepp lv lp pb.unread sa := by
  have hn := hdSeqnext_read lp ({ pb with error := true }.markBad pb.mirror) hr.op
  have hnone : firstMirror (({ pb with error := true }.markBad pb.mirror).mirdone |||
      ({ pb with error := true }.markBad pb.mirror).miravoid) = none :=
    firstMirror_none.mpr (hr.miravoid ▸ mirrorCount_zero.mp hall)
  rw [hnone] at hn
  rw [hdResyncpp, if_pos hr.read, if_pos rfl]
  dsimp only
  rw [hn]
  exact if_pos ho

end Phases

end Aix413.Lvm.Sched
