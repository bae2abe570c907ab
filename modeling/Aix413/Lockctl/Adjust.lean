import Aix413.Lockctl.ScanLemmas

namespace Aix413.Lockctl.Adjust

open LockTable Flckadj LockMap LockPool Placement ScanLemmas
open Aix413.Lib.RangeMap

/-- The request ends inside `flp`, which is of another type: the part of
`flp` past the request becomes a lock of its own. -/
structure Splits (r : Eflock) (s : Scan) (flp new : Filock) : Prop where
  owner : flp.set.owner = r.owner
  type : flp.set.lType ≠ r.lType
  reaches : flp.set.lStart ≤ s.ld.lEnd
  inside : s.ld.lEnd < flp.set.lEnd
  piece : new.set = { flp.set with lStart := s.ld.lEnd + 1 }

theorem splitAfter_eq_some {m m' : Mem} {flp : Filock} {ld : Eflock} {rest l : List Filock}
    (h : splitAfter m flp ld rest = some (m', l)) :
    ∃ a, takeFree m = some (a, m') ∧
      l = placePiece (freshFilock a { flp.set with lStart := ld.lEnd + 1 }) rest := by
  unfold splitAfter at h
  cases hf : takeFree m with
  | none => simp [hf] at h
  | some p =>
    obtain ⟨a, n⟩ := p
    simp only [hf, Option.some.injEq, Prod.mk.injEq] at h
    exact ⟨a, by rw [h.1], h.2.symm⟩

section Split

variable {l₀ : List Filock} {r : Eflock} {s : Scan} {flp new : Filock} {rest : List Filock}

theorem Splits.valid (hs : Splits r s flp new) (h : ScanInv l₀ r s (flp :: rest)) :
    Valid new.set := by
  obtain ⟨_, hv, _, _⟩ := lockList_middle.mp h.wf
  have h1 := hs.reaches
  have h2 := hs.inside
  have h3 := hv.start_nonneg
  rw [hs.piece]
  exact ⟨by simp only; omega, by simp only; omega, hv.held⟩

theorem Splits.compatible (hs : Splits r s flp new) (h : ScanInv l₀ r s (flp :: rest)) :
    ∀ f ∈ s.done ++ rest, Compatible f.set new.set := by
  intro f hf
  refine (lockList_compatible h.wf hf).piece (by rw [hs.piece]; rfl) (by rw [hs.piece]) ?_ ?_
  · rw [hs.piece]
    have := hs.reaches
    simp only
    omega
  · rw [hs.piece]

theorem Splits.start_le (hs : Splits r s flp new) (h : ScanInv l₀ r s (flp :: rest)) :
    ∀ f ∈ s.done, f.set.lStart ≤ new.set.lStart := by
  intro f hf
  have h1 := ((lockList_middle.mp h.wf).2.2.1 f hf).start_le
  have h2 := hs.reaches
  rw [hs.piece]
  simp only
  omega

theorem Splits.lockList (hs : Splits r s flp new) (h : ScanInv l₀ r s (flp :: rest)) :
    LockList (s.done ++ placePiece new rest) :=
  lockList_placePiece (lockList_middle.mp h.wf).1 (hs.valid h) (hs.compatible h) (hs.start_le h)

/-- The locks of the owner that stand once the request has split `flp`. -/
theorem Splits.clear (hs : Splits r s flp new) (h : ScanInv l₀ r s (flp :: rest)) :
    ∀ f ∈ s.done ++ placePiece new rest, f.set.owner = r.owner →
      (f.set.lEnd < s.ld.lStart ∧ (f.set.lType = r.lType → f.set.lEnd + 1 < s.ld.lStart)) ∨
      (s.ld.lEnd < f.set.lStart ∧ (f.set.lType = r.lType → s.ld.lEnd + 1 < f.set.lStart)) := by
  intro f hf hfo
  rcases List.mem_append.mp hf with hf | hf
  · exact Or.inl (h.passed f hf hfo)
  · right
    rcases mem_placePiece.mp hf with rfl | hf
    · rw [hs.piece]
      exact ⟨by simp only; omega, fun ht => absurd ht hs.type⟩
    · have ha := (((lockList_middle.mp h.wf).2.2.2 f hf).apart (hs.owner.trans hfo.symm)).1
      have hi := hs.inside
      exact ⟨by omega, fun _ => by omega⟩

theorem Splits.granted (hs : Splits r s flp new) (h : ScanInv l₀ r s (flp :: rest)) :
    r.lType ≠ .unlck →
      Granted (s.done ++ placePiece new rest) r.owner r.lType s.ld.lStart s.ld.lEnd := by
  intro hu
  refine (h.granted hu).shrink (fun f hf hfo => ?_) le_rfl le_rfl
  rcases List.mem_append.mp hf with hf | hf
  · simp [hf]
  · rcases mem_placePiece.mp hf with rfl | hf
    · exact absurd (by rw [hs.piece]; exact hs.owner) hfo
    · simp [hf]

theorem Splits.others (hs : Splits r s flp new) (h : ScanInv l₀ r s (flp :: rest)) :
    ∀ o, o ≠ r.owner → runs o (s.done ++ placePiece new rest) = runs o l₀ := by
  intro o ho
  have hn : new.set.owner ≠ o := by
    rw [hs.piece]
    exact fun he => ho (he.symm.trans hs.owner)
  rw [runs_placePiece hn, ← h.others o ho]
  exact runs_drop hs.owner ho

/-- `flp` does not start before the request: only the piece after it stays. -/
theorem ready_split (hs : Splits r s flp new) (h : ScanInv l₀ r s (flp :: rest))
    (h₁ : s.ld.lStart ≤ flp.set.lStart) (insrtp : Option Nat)
    (hi : r.lType ≠ .unlck → Hint (s.done ++ placePiece new rest) insrtp s.ld.lStart) :
    Ready l₀ r (s.done ++ placePiece new rest) insrtp s.ld := by
  refine ⟨hs.lockList h, h.owner, h.type, h.start_nonneg, h.start_le_end, hs.clear h,
    hs.granted h, hi, ?_, hs.others h⟩
  rw [← h.bytes]
  apply overwrite_congr
  intro b hb
  have hb' : b < s.ld.lStart ∨ s.ld.lEnd < b := hb
  have hr := hs.reaches
  rw [lockAt_placePiece (hs.lockList h), lockAt_insert h.wf, hs.piece]
  have hc : (flp.set.owner = r.owner ∧ s.ld.lEnd + 1 ≤ b ∧ b ≤ flp.set.lEnd) ↔
      (flp.set.owner = r.owner ∧ flp.set.lStart ≤ b ∧ b ≤ flp.set.lEnd) := by
    constructor <;> rintro ⟨h1, h2, h3⟩ <;> exact ⟨h1, by omega, h3⟩
  exact if_congr hc rfl rfl

/-- `flp` starts before the request: the piece before it stays as well. -/
theorem ready_split_keep (hs : Splits r s flp new) (h : ScanInv l₀ r s (flp :: rest))
    (h₁ : flp.set.lStart < s.ld.lStart) {g : Filock}
    (hg : g.set = { flp.set with lEnd := s.ld.lStart - 1 }) :
    Ready l₀ r (s.done ++ g :: placePiece new rest) (some g.addr) s.ld := by
  have hle := h.start_le_end
  have hin := hs.inside
  have hog : g.set.owner = r.owner := by rw [hg]; exact hs.owner
  have hmem : ∀ f, f ∈ s.done ++ g :: placePiece new rest ↔
      f = g ∨ f ∈ s.done ++ placePiece new rest := by
    intro f
    simp only [List.mem_append, List.mem_cons]
    tauto
  have htrim : LockList ((s.done ++ [g]) ++ rest) := by
    have ht := h.wf.trim hg (by omega) (by omega)
    simpa using ht
  have hlist : LockList ((s.done ++ [g]) ++ placePiece new rest) := by
    refine lockList_placePiece htrim (hs.valid h) (fun f hf => ?_) (fun f hf => ?_)
    · by_cases hfg : f = g
      · subst hfg
        rw [hg, hs.piece]
        exact ⟨fun _ => Or.inl ⟨by simp only; omega, fun _ => by simp only; omega⟩,
          fun hne => absurd rfl hne⟩
      · exact hs.compatible h f (by simpa [hfg] using hf)
    · rcases List.mem_append.mp hf with hf | hf
      · exact hs.start_le h f hf
      · obtain rfl := List.mem_singleton.mp hf
        rw [hg, hs.piece]
        simp only
        omega
  have he : (s.done ++ [g]) ++ placePiece new rest = s.done ++ g :: placePiece new rest := by simp
  rw [he] at hlist
  refine ⟨hlist, h.owner, h.type, h.start_nonneg, h.start_le_end, ?_, ?_, ?_, ?_, ?_⟩
  · intro f hf hfo
    rcases (hmem f).mp hf with rfl | hf
    · left
      rw [hg]
      exact ⟨by simp only; omega, fun ht => absurd ht hs.type⟩
    · exact hs.clear h f hf hfo
  · intro hu
    refine (hs.granted h hu).shrink (fun f hf hfo => ?_) le_rfl le_rfl
    exact ((hmem f).mp hf).resolve_left fun hfg => hfo (hfg ▸ hog)
  · intro _
    exact ⟨g, by simp, rfl, by rw [hg]; simp only; omega⟩
  · rw [← h.bytes]
    apply overwrite_congr
    intro b hb
    have hb' : b < s.ld.lStart ∨ s.ld.lEnd < b := hb
    rw [← he] at hlist ⊢
    rw [lockAt_placePiece hlist, lockAt_insert h.wf]
    have hg' : LockList (s.done ++ g :: rest) := by simpa using htrim
    have hl : lockAt ((s.done ++ [g]) ++ rest) r.owner b = lockAt (s.done ++ g :: rest) r.owner b := by
      simp
    rw [hl, lockAt_insert hg', hg, hs.piece]
    have ho := hs.owner
    by_cases h2 : s.ld.lEnd < b
    · by_cases h3 : b ≤ flp.set.lEnd
      · rw [if_pos ⟨ho, by simp only; omega, h3⟩, if_pos ⟨ho, by omega, h3⟩]
      · rw [if_neg (fun hc => h3 hc.2.2), if_neg (fun hc => by have := hc.2.2; simp only at this; omega),
          if_neg (fun hc => h3 hc.2.2)]
    · rw [if_neg (fun hc => by have := hc.2.1; simp only at this; omega)]
      by_cases h3 : flp.set.lStart ≤ b
      · rw [if_pos ⟨ho, h3, by simp only; omega⟩, if_pos ⟨ho, h3, by omega⟩]
      · rw [if_neg (fun hc => h3 hc.2.1), if_neg (fun hc => h3 hc.2.1)]
  · intro o ho
    have hgo : g.set.owner ≠ o := by rw [hog]; exact ho.symm
    rw [← hs.others h o ho, runs_append, runs_append, runs_cons_other hgo]

end Split

def startHolds (ld f : Eflock) : StartRegion → Prop
  | .sBefore => ld.lStart < f.lStart
  | .sStart => ld.lStart = f.lStart
  | .sMiddle => f.lStart < ld.lStart ∧ ld.lStart ≤ f.lEnd
  | .sEnd => f.lStart < ld.lStart ∧ ld.lStart = f.lEnd + 1
  | .sAfter => f.lStart < ld.lStart ∧ f.lEnd + 1 < ld.lStart

def endHolds (ld f : Eflock) : EndRegion → Prop
  | .eBefore => ld.lEnd + 1 < f.lStart
  | .eStart => ld.lEnd + 1 = f.lStart
  | .eMiddle => f.lStart ≤ ld.lEnd ∧ ld.lEnd < f.lEnd
  | .eEnd => ld.lEnd = f.lEnd
  | .eAfter => f.lEnd < ld.lEnd

theorem regflckEnd_holds (ld : Eflock) (flp : Filock) :
    endHolds ld flp.set (regflckEnd ld flp) := by
  unfold regflckEnd
  split
  · split
    · simp only [endHolds]
      omega
    · split <;> simp only [endHolds] <;> omega
  · split <;> simp only [endHolds] <;> omega

/-- What the region says about the bounds of the request. -/
theorem regflck_holds {ld : Eflock} {flp : Filock} (hl : ld.lStart ≤ ld.lEnd) {x : StartRegion}
    {y : EndRegion} (h : regflck ld flp = (x, y)) :
    startHolds ld flp.set x ∧ endHolds ld flp.set y := by
  have he := regflckEnd_holds ld flp
  unfold regflck at h
  split at h
  · split at h
    · obtain ⟨rfl, rfl⟩ := Prod.mk.inj h
      simp only [startHolds, endHolds]
      omega
    · split at h
      · obtain ⟨rfl, rfl⟩ := Prod.mk.inj h
        simp only [startHolds, endHolds]
        omega
      · obtain ⟨rfl, rfl⟩ := Prod.mk.inj h
        refine ⟨?_, he⟩
        simp only [startHolds]
        omega
  · split at h
    · obtain ⟨rfl, rfl⟩ := Prod.mk.inj h
      refine ⟨?_, he⟩
      simp only [startHolds]
      omega
    · obtain ⟨rfl, rfl⟩ := Prod.mk.inj h
      refine ⟨?_, he⟩
      simp only [startHolds]
      omega

/-- What `flckadj` needs from the scan. -/
def ScanOk (l₀ : List Filock) (r : Eflock) : Scanned → Prop
  | .early _ l _ rc => LockList l ∧ (rc = true → Adjusted l₀ r l)
  | .insert _ l insrtp ld => Ready l₀ r l insrtp ld

theorem hint_drop {A B : List Filock} {f : Filock} {i : Option Nat} {x : Int}
    (h : Hint (A ++ f :: B) i x) (hf : x < f.set.lStart) : Hint (A ++ B) i x := by
  refine h.mono (fun g hg hs => ?_) (fun g hg => Or.inl ?_)
  · rcases List.mem_append.mp hg with hg | hg
    · simp [hg]
    · rcases List.mem_cons.mp hg with rfl | hg
      · omega
      · simp [hg]
  · rcases List.mem_append.mp hg with hg | hg <;> simp [hg]

section Scan

variable {l₀ : List Filock} {r : Eflock} {s : Scan} {flp : Filock} {rest : List Filock}

theorem hint_prev_drop (h : ScanInv l₀ r s (flp :: rest)) :
    Hint (s.done ++ rest) (prev s.done) flp.set.lStart := by
  refine hint_prev h.wf (fun f hf => List.mem_append_left _ hf) (fun f hf => ?_)
  rcases List.mem_append.mp hf with hf | hf
  · exact Or.inl hf
  · exact Or.inr (start_le_of_mem_rest h.wf hf)

/-- The request ends inside `flp`. -/
theorem middle_ok (h : ScanInv l₀ r s (flp :: rest)) (ho : flp.set.owner = r.owner)
    (h₁ : flp.set.lStart ≤ s.ld.lEnd) (h₂ : s.ld.lEnd < flp.set.lEnd) (i : Option Nat)
    (keep : Bool) (hk : keep = true → flp.set.lStart < s.ld.lStart ∧ flp.set.lType ≠ r.lType)
    (hn : keep = false → s.ld.lStart ≤ flp.set.lStart ∧
      (r.lType ≠ .unlck → Hint (s.done ++ rest) i s.ld.lStart)) :
    ScanOk l₀ r (middleCase { s with insrtp := i } flp rest keep) := by
  unfold middleCase
  split
  next ht =>
    have ht' : flp.set.lType = r.lType := ht.symm.trans h.type
    cases keep with
    | true => exact absurd ht' (hk rfl).2
    | false => exact ready_join h ho ht' (hn rfl).1 (by omega) (by omega) i (hn rfl).2
  next ht =>
    have ht' : flp.set.lType ≠ r.lType := fun he => ht (h.type.trans he.symm)
    split
    next => exact ⟨h.wf, fun hrc => absurd hrc (by simp)⟩
    next m rest' hs =>
      obtain ⟨a, _, rfl⟩ := splitAfter_eq_some hs
      have hsp : Splits r s flp (freshFilock a { flp.set with lStart := s.ld.lEnd + 1 }) :=
        ⟨ho, ht', h₁, h₂, rfl⟩
      cases keep with
      | true =>
        have hg := ready_split_keep hsp h (hk rfl).1
          (g := trimEnd (wokenLock m flp) (s.ld.lStart - 1)) (trimEnd_set m flp _)
        rw [trimEnd_addr] at hg
        exact hg
      | false =>
        refine ready_split hsp h (hn rfl).1 i fun hu => ?_
        refine ((hn rfl).2 hu).mono (fun f hf _ => ?_) (fun f hf => ?_)
        · rcases List.mem_append.mp hf with hf | hf
          · exact List.mem_append_left _ hf
          · exact List.mem_append_right _ (mem_placePiece.mpr (Or.inr hf))
        · rcases List.mem_append.mp hf with hf | hf
          · exact Or.inl (List.mem_append_left _ hf)
          · rcases mem_placePiece.mp hf with rfl | hf
            · have := h.start_le_end
              exact Or.inr (by simp only [freshFilock_set]; omega)
            · exact Or.inl (List.mem_append_right _ hf)

end Scan

/-- The loop of `flckadj` keeps its invariant to the end. -/
theorem scan_ok {l₀ : List Filock} {r : Eflock} {rest : List Filock} :
    ∀ {s : Scan}, ScanInv l₀ r s rest → ScanOk l₀ r (scan s rest) := by
  induction rest with
  | nil =>
    intro s h
    exact ready_nil h
  | cons flp rest ih =>
    intro s h
    have hle := h.start_le_end
    have hv := (h.wf.valid flp (by simp)).start_le_end
    rw [scan]
    split
    next hown =>
      have ho : flp.set.owner = r.owner := ((sameOwner_iff _ _).mp hown).trans h.owner
      have hsame : s.ld.lType = flp.set.lType → flp.set.lType = r.lType :=
        fun ht => ht.symm.trans h.type
      have hdiff : ¬ s.ld.lType = flp.set.lType → flp.set.lType ≠ r.lType :=
        fun ht he => ht (h.type.trans he.symm)
      have hkeep : flp.set.lStart ≤ s.ld.lStart → s.ld.lEnd ≤ flp.set.lEnd →
          s.ld.lType = flp.set.lType → Adjusted l₀ r (s.done ++ flp :: rest) :=
        fun h1 h2 ht => adjusted_inside h ho (hsame ht) h1 h2
      split
      next hr =>
        obtain ⟨h1, h2⟩ := regflck_holds hle hr
        simp only [startHolds, endHolds] at h1 h2
        exact ready_before h ho (by omega) (fun _ => h2)
      next hr =>
        obtain ⟨h1, h2⟩ := regflck_holds hle hr
        simp only [startHolds, endHolds] at h1 h2
        split
        next ht =>
          exact ready_join h ho (hsame ht) h1.le (by omega) (by omega) _
            fun hu => hint_drop (h.hint hu) h1
        next ht => exact ready_before h ho (by omega) (fun he => absurd he (hdiff ht))
      next hr =>
        obtain ⟨h1, h2⟩ := regflck_holds hle hr
        simp only [startHolds, endHolds] at h1 h2
        split
        next ht => exact ⟨h.wf, fun _ => hkeep (by omega) (by omega) ht⟩
        next ht =>
          exact ih (inv_delete h ho _ _ h2.ge (Or.inl ⟨rfl, h1.le⟩)
            fun _ => h1 ▸ hint_prev_drop h)
      next hr =>
        obtain ⟨h1, h2⟩ := regflck_holds hle hr
        simp only [startHolds, endHolds] at h1 h2
        exact ih (inv_delete h ho _ _ h2.le (Or.inl ⟨rfl, h1.le⟩) fun _ => h1 ▸ hint_prev_drop h)
      next hr =>
        obtain ⟨h1, h2⟩ := regflck_holds hle hr
        simp only [startHolds, endHolds] at h1 h2
        split
        next ht =>
          have hj := ready_join h ho (hsame ht) h1.le (by omega) (by omega) _
            fun hu => hint_drop (h.hint hu) h1
          rw [← h2] at hj
          exact hj
        next ht =>
          exact ih (inv_delete h ho _ _ h2.ge (Or.inl ⟨rfl, h1.le⟩)
            fun hu => hint_drop (h.hint hu) h1)
      next hr =>
        obtain ⟨h1, h2⟩ := regflck_holds hle hr
        simp only [startHolds, endHolds] at h1 h2
        exact ih (inv_delete h ho _ _ h2.le (Or.inl ⟨rfl, h1.le⟩)
          fun hu => hint_drop (h.hint hu) h1)
      next hr =>
        obtain ⟨h1, h2⟩ := regflck_holds hle hr
        simp only [startHolds, endHolds] at h1 h2
        split
        next ht => exact ⟨h.wf, fun _ => hkeep (by omega) (by omega) ht⟩
        next ht =>
          exact middle_ok h ho h2.1 h2.2 _ false (fun hc => absurd hc (by simp))
            (fun _ => ⟨h1.le, fun _ => h1 ▸ hint_prev_drop h⟩)
      next hr =>
        obtain ⟨h1, h2⟩ := regflck_holds hle hr
        simp only [startHolds, endHolds] at h1 h2
        split
        next ht => exact ⟨h.wf, fun _ => hkeep (by omega) (by omega) ht⟩
        next ht =>
          exact middle_ok h ho h2.1 h2.2 s.insrtp true (fun _ => ⟨h1.1, hdiff ht⟩)
            (fun hc => absurd hc (by simp))
      next hr =>
        obtain ⟨h1, h2⟩ := regflck_holds hle hr
        simp only [startHolds, endHolds] at h1 h2
        exact middle_ok h ho h2.1 h2.2 s.insrtp false (fun hc => absurd hc (by simp))
          (fun _ => ⟨h1.le, fun hu => hint_drop (h.hint hu) h1⟩)
      next hr =>
        obtain ⟨h1, h2⟩ := regflck_holds hle hr
        simp only [startHolds, endHolds] at h1 h2
        split
        next ht => exact ⟨h.wf, fun _ => hkeep (by omega) (by omega) ht⟩
        next ht =>
          have hi := inv_trim h ho (lockWakeup s.mem flp) (trimEnd_set s.mem flp _) (hdiff ht) h1.1
            h1.2 h2.ge
          rw [trimEnd_addr] at hi
          exact ih hi
      next hr =>
        obtain ⟨h1, h2⟩ := regflck_holds hle hr
        simp only [startHolds, endHolds] at h1 h2
        split
        next ht =>
          exact ih (inv_delete h ho _ _ h2.le
            (Or.inr ⟨rfl, hsame ht, h1.1.le, by omega⟩) fun _ => hint_prev_drop h)
        next ht =>
          have hi := inv_trim h ho (lockWakeup s.mem flp) (trimEnd_set s.mem flp _) (hdiff ht) h1.1
            h1.2 h2.le
          rw [trimEnd_addr] at hi
          exact ih hi
      next hr =>
        obtain ⟨h1, h2⟩ := regflck_holds hle hr
        simp only [startHolds, endHolds] at h1 h2
        split
        next ht =>
          exact ih (inv_delete h ho _ _ h2.le
            (Or.inr ⟨rfl, hsame ht, h1.1.le, by omega⟩) fun _ => hint_prev_drop h)
        next ht =>
          exact ih (inv_keep h s.insrtp
            (fun _ => ⟨by omega, fun he => absurd he (hdiff ht)⟩) h.hint)
      next hr =>
        obtain ⟨h1, h2⟩ := regflck_holds hle hr
        simp only [startHolds, endHolds] at h1 h2
        exact ih (inv_keep h (some flp.addr) (fun _ => ⟨by omega, fun _ => h1.2⟩)
          fun _ => ⟨flp, by simp, rfl, h1.1.le⟩)
      next hr1 hr2 hr3 hr4 hr5 hr6 hr7 hr8 hr9 hr10 hr11 hr12 hr13 =>
        exfalso
        rcases hr : regflck s.ld flp with ⟨x, y⟩
        obtain ⟨h1, h2⟩ := regflck_holds hle hr
        cases x <;> cases y <;> simp only [startHolds, endHolds] at h1 h2 <;>
          first | omega | simp_all
    next hown =>
      have ho : flp.set.owner ≠ r.owner := fun he =>
        hown ((sameOwner_iff _ _).mpr (he.trans h.owner.symm))
      exact ih (inv_keep h s.insrtp (fun he => absurd he ho) h.hint)

end Aix413.Lockctl.Adjust
