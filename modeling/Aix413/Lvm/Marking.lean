import Aix413.Lvm.Policies

namespace Aix413.Lvm.Sched

variable {lv : Lvol} {lp lp' : Lp} {lb : Lbuf} {pb : Pbuf}

/-! ## The avoidance mask covers what does not exist -/

/-- Some existing copy is not marked stale. -/
def Lp.Fresh (lv : Lvol) (lp : Lp) : Prop := ∃ m, lp.Copy lv m ∧ (lp.ppstate m).stale = false

instance (lv : Lvol) (lp : Lp) : Decidable (lp.Fresh lv) :=
  inferInstanceAs (Decidable (∃ m, lp.Copy lv m ∧ (lp.ppstate m).stale = false))

/-- Every mirror outside the mask is a copy. -/
def Covers (lv : Lvol) (lp : Lp) (avoid : Mask) : Prop := ∀ m, m ∉ avoid → lp.Copy lv m

theorem Covers.of_isSome {avoid : Mask} (h : ∀ m, (lp'.pvol m).isSome = (lp.pvol m).isSome)
    (hc : Covers lv lp avoid) : Covers lv lp' avoid :=
  fun m hm => ⟨(hc m hm).1, (h m).trans (hc m hm).2⟩

theorem prim_copy (lv : Lvol) (lp : Lp) : lp.Copy lv .prim := by
  refine ⟨?_, lp.primary⟩
  obtain h | h | h : lv.nparts = 1 ∨ lv.nparts = 2 ∨ lv.nparts = 3 := by
    have := lv.copies
    omega
  all_goals rw [h]; decide

theorem look_spec {rdwr : Bool} {m : Mirror} {a : Mask} :
    (∀ k, k ∈ a → k ∈ (look lp rdwr m a).1) ∧
    (m ∉ (look lp rdwr m a).1 → (lp.pvol m).isSome) ∧
    ((look lp rdwr m a).2 = true → m ∉ a ∧ (lp.pvol m).isSome) := by
  unfold look
  split_ifs with ha hp hs
  · simp_all
  · simp_all
  · simp_all
  · exact ⟨fun k hk => mem_or.mpr (.inl hk), by simp, by simp⟩

theorem mem_avoidPrim {m : Mirror} (h : m ∈ mirrorExist lv.nparts) :
    m ∈ avoidPrim lv lp lb := by
  unfold avoidPrim
  split <;> simp [h]

theorem mem_avoidSing {m : Mirror} (h : m ∈ mirrorExist lv.nparts) :
    m ∈ (avoidSing lv lp lb).1 :=
  look_spec.1 m (mem_avoidPrim h)

theorem mem_avoidDoub {m : Mirror} (h : m ∈ mirrorExist lv.nparts) :
    m ∈ (avoidDoub lv lp lb).1 :=
  look_spec.1 m (mem_avoidSing h)

theorem avoidDoub_covers (lv : Lvol) (lp : Lp) (lb : Lbuf) :
    Covers lv lp (avoidDoub lv lp lb).1 := by
  intro m hm
  refine ⟨fun h => hm (mem_avoidDoub h), ?_⟩
  cases m with
  | prim => exact lp.primary
  | sing => exact look_spec.2.1 fun h => hm (look_spec.1 _ h)
  | doub => exact look_spec.2.1 hm

theorem taken_copy {m : Mirror} (h : taken lv lp lb m = true) : lp.Copy lv m := by
  cases m with
  | prim => exact prim_copy lv lp
  | sing => exact ⟨fun hm => (look_spec.2.2 h).1 (mem_avoidPrim hm), (look_spec.2.2 h).2⟩
  | doub => exact ⟨fun hm => (look_spec.2.2 h).1 (mem_avoidSing hm), (look_spec.2.2 h).2⟩

theorem behindSync_covers {a : Mask} (h : Covers lv lp a) :
    Covers lv lp (behindSync lp (taken lv lp lb) a) := by
  intro m hm
  simp only [behindSync, mem_and, mem_compl, mem_maskOf, not_and, not_not] at hm
  by_cases ha : m ∈ a
  · have ht := hm ha
    simp only [Bool.and_eq_true] at ht
    exact taken_copy ht.1.1
  · exact h m ha

/-- `hd_avoid` touches no stale mark. -/
theorem hdAvoid_spec (lv : Lvol) (lp : Lp) (lb : Lbuf) :
    (hdAvoid lv lp lb).1.pvol = lp.pvol ∧
    (∀ m, ((hdAvoid lv lp lb).1.ppstate m).stale = (lp.ppstate m).stale) ∧
    Covers lv lp (hdAvoid lv lp lb).2 := by
  have hc := avoidDoub_covers lv lp lb
  unfold hdAvoid
  cases lb.op with
  | recover => exact ⟨rfl, fun _ => rfl, hc⟩
  | resync =>
    dsimp only
    split
    · refine ⟨rfl, fun m => ?_, fun m hm => absurd (mem_all m) hm⟩
      simp only [cancelResync, resyncMask]
      split <;> rfl
    · refine ⟨rfl, fun m => ?_, hc⟩
      simp only [resyncMask]
      split <;> rfl
  | write =>
    dsimp only
    split
    · refine ⟨rfl, fun _ => rfl, ?_⟩
      dsimp only
      split
      · exact behindSync_covers hc
      · exact hc
    · exact ⟨rfl, fun _ => rfl, hc⟩

theorem hdSeqnext_read (lp : Lp) (pb : Pbuf) (hr : pb.lbuf.op ≠ .write) :
    hdSeqnext lp pb = match firstMirror (pb.mirdone ||| pb.miravoid) with
      | some m => (true, hdXlate (pb.markDone m) m)
      | none => (false, pb) := by
  have hread : pb.lbuf.read = true := by simp [Lbuf.read, hr]
  exact if_pos hread

/-! ## What `hd_stalepp` marks -/

theorem hdStalepp_fresh_iff {sa : Bool} :
    (hdStalepp lv lp pb sa).1.Fresh lv ↔
      ∃ m, lp.Copy lv m ∧ (lp.ppstate m).stale = false ∧ m ∉ lp.marked lv pb := by
  refine exists_congr fun m => and_congr_right fun _ => ?_
  simp only [hdStalepp, Lp.mark]
  split <;> simp_all

theorem mem_stlmirs {m : Mirror} :
    m ∈ lp.stlmirs lv ↔ lp.Copy lv m ∧ (lp.ppstate m).stale = true := by
  simp [Lp.stlmirs]

theorem notMem_nomirs {m : Mirror} (h : lp.Copy lv m) : m ∉ lp.nomirs lv := by
  have hp : lp.pvol m ≠ none := Option.isSome_iff_ne_none.mp h.2
  simp [Lp.nomirs, h.1, hp]

/-- Beside a copy that is neither stale, bad nor avoided the bad ones are marked. -/
theorem mem_marked {s c : Mirror} (hs : (lp.ppstate s).stale = false) (hb : s ∉ pb.mirbad)
    (ha : s ∉ pb.miravoid) (hc : lp.Copy lv c) : c ∈ lp.marked lv pb ↔ c ∈ pb.mirbad := by
  have hne : lp.stlmirs lv ||| (pb.mirbad &&& ~~~lp.nomirs lv) ||| pb.miravoid ≠ allMirrors := by
    rw [ne_all]
    refine ⟨s, ?_⟩
    rw [mem_or, mem_or, mem_and, mem_stlmirs, hs]
    simp [hb, ha]
  rw [Lp.marked, if_neg hne, mem_and, mem_compl]
  exact ⟨fun h => h.1, fun h => ⟨h, notMem_nomirs hc⟩⟩

/-- Where some mirror is neither avoided nor stale, the one left active is such. -/
theorem actmir_spec {avoid stl : Mask} (mpv : Mask) (h : avoid ||| stl ≠ allMirrors) :
    ∃ a, actmir avoid stl mpv = some a ∧ a ∉ avoid ∧ a ∉ stl := by
  unfold actmir
  split
  · obtain ⟨a, ha⟩ := Option.ne_none_iff_exists'.mp fun hn => h (firstMirror_none.mp hn)
    have hm := firstMirror_notMem ha
    rw [mem_or, not_or] at hm
    exact ⟨a, ha, hm.1, hm.2⟩
  · rename_i hall
    obtain ⟨a, ha⟩ := Option.ne_none_iff_exists'.mp fun hn => hall (firstMirror_none.mp hn)
    have hm := firstMirror_notMem ha
    rw [mem_or, mem_or, not_or, not_or] at hm
    exact ⟨a, ha, hm.1.1, hm.1.2⟩

/-- Where all are avoided or stale, the number of the active mirror is bit 3. -/
theorem actmir_none {avoid stl mpv : Mask} (h : avoid ||| stl = allMirrors) :
    actmir avoid stl mpv = none := by
  have hall : avoid ||| stl ||| mpv = allMirrors := by
    rw [eq_all] at h ⊢
    intro m
    rw [mem_or]
    exact .inl (h m)
  rw [actmir, if_pos hall, firstMirror_none, h]

/-- A copy stays active: while a resync is in progress, when the request has no
avoided copy among its bad ones, or when a copy it does not avoid is not stale. -/
theorem hdStalepp_fresh {sa : Bool} (hc : Covers lv lp pb.miravoid) (hf : lp.Fresh lv)
    (h : lp.syncTrk.isSome ∨ (∀ m ∈ pb.mirbad, m ∉ pb.miravoid) ∨
      ∃ m, lp.Copy lv m ∧ m ∉ pb.miravoid ∧ (lp.ppstate m).stale = false) :
    (hdStalepp lv lp pb sa).1.Fresh lv := by
  rw [hdStalepp_fresh_iff]
  have hfresh : ∀ m, m ∉ pb.miravoid → m ∉ lp.stlmirs lv →
      lp.Copy lv m ∧ (lp.ppstate m).stale = false := fun m ha hs =>
    ⟨hc m ha, by simpa using fun h => hs (mem_stlmirs.mpr ⟨hc m ha, h⟩)⟩
  unfold Lp.marked
  dsimp only
  split
  · by_cases hall : pb.miravoid ||| lp.stlmirs lv = allMirrors
    -- no copy is selected: the marks spare what is avoided
    · rw [actmir_none hall]
      obtain ⟨m, hm, hs⟩ := hf
      have hav : ∀ k, lp.Copy lv k → (lp.ppstate k).stale = false → k ∈ pb.miravoid := by
        intro k hk hks
        have hin := eq_all.mp hall k
        rw [mem_or, mem_stlmirs, hks] at hin
        simpa using hin
      refine ⟨m, hm, hs, ?_⟩
      obtain hsync | hbad | ⟨k, hk, hka, hks⟩ := h
      · simp [hsync, hav m hm hs]
      · split
        · simp [hav m hm hs]
        · intro hmem
          rw [mem_and, mem_and] at hmem
          exact hbad m hmem.1.1 (hav m hm hs)
      · exact absurd (hav k hk hks) hka
    · obtain ⟨a, ha, hav, hst⟩ := actmir_spec (lp.mpvmirs lv) hall
      obtain ⟨hcopy, hs⟩ := hfresh a hav hst
      refine ⟨a, hcopy, hs, ?_⟩
      rw [ha]
      split <;> simp [actMask]
  · rename_i hne
    obtain ⟨m, hm⟩ := ne_all.mp hne
    rw [mem_or, mem_or, not_or, not_or] at hm
    obtain ⟨hcopy, hs⟩ := hfresh m hm.2 hm.1.1
    exact ⟨m, hcopy, hs, hm.1.2⟩

/-- No copy stays active: all that the request avoids are bad, all others stale. -/
theorem hdStalepp_stale {sa : Bool} (hc : Covers lv lp pb.miravoid)
    (hsync : lp.syncTrk = none) (hbad : ∀ m ∈ pb.miravoid, m ∈ pb.mirbad)
    (h : ∀ m, lp.Copy lv m → m ∉ pb.miravoid → (lp.ppstate m).stale = true) :
    ¬(hdStalepp lv lp pb sa).1.Fresh lv := by
  rw [hdStalepp_fresh_iff]
  rintro ⟨m, hm, hs, hmark⟩
  have hav : m ∈ pb.miravoid := by
    by_contra hn
    rw [h m hm hn] at hs
    exact absurd hs (by decide)
  have hin : m ∈ pb.mirbad &&& ~~~lp.nomirs lv := by
    exact mem_and.mpr ⟨hbad m hav, mem_compl.mpr (notMem_nomirs hm)⟩
  apply hmark
  unfold Lp.marked
  dsimp only
  split
  · have hall : pb.miravoid ||| lp.stlmirs lv = allMirrors := by
      rw [eq_all]
      intro k
      by_cases hk : k ∈ pb.miravoid
      · exact mem_or.mpr (.inl hk)
      · exact mem_or.mpr (.inr (mem_stlmirs.mpr ⟨hc k hk, h k (hc k hk) hk⟩))
    rw [actmir_none hall, hsync]
    exact mem_and.mpr ⟨hin, mem_compl.mpr (not_mem_zero m)⟩
  · exact hin

end Aix413.Lvm.Sched
