import Aix413.Lvm.MirrorConsistency

namespace Aix413.Lvm.Mwc

open Relation

variable {v : Layout} {n : Nat} {s s' : State} {lb : Lb} {p : Pv}

namespace Inv

/-! ## The end of a cache write -/

/-- The cache write is deducted; the last one settles the entries. -/
theorem deduct (h : Inv v n s 1 []) :
    Inv v n { s with infltCnt := s.infltCnt - 1 } 0 [] ∧
      (s.infltCnt - 1 = 0 → ∀ b cl, (b = true ∨ cl ≠ .reserved ∧ cl ≠ .written) →
        Inv v n { s with
          infltCnt := s.infltCnt - 1
          inflt := b
          cleaner := cl
          ca := s.ca.settle s.ca.size s.ca.lst } 0 []) := by
  have hb := h.recorded.busy
  have hpos : 0 < s.infltCnt := by omega
  obtain ⟨hin, hvg, hwrt⟩ := h.recorded.inflt hpos
  have hcl : ¬(s.cleaner = .reserved ∨ s.cleaner = .written) := by
    intro hr
    exact absurd (h.recorded.reserved hr).1 hpos.ne'
  have hrec : Recorded v s.ca { s.toVolumes with infltCnt := s.infltCnt - 1 } 0 := by
    constructor
    case snapshot => exact h.recorded.snapshot
    case wheel => exact h.recorded.wheel
    case busy =>
      dsimp only
      omega
    case inflt => exact fun _ => ⟨hin, hvg, hwrt⟩
    case reserved => exact fun hr => absurd hr hcl
    case written => exact h.recorded.written
    case changing => exact h.recorded.changing
  refine ⟨⟨h.size, h.counted, h.parked, hrec, h.covered⟩, ?_⟩
  intro h0 b cl hor
  obtain ⟨l, q, hk⟩ := h.counted.kept
  obtain ⟨st, hst, hval, hk'⟩ := hk.settle
  rw [hst]
  have hclean : ∀ e, ({ s.ca with state := st } : Cache).InUse e ↔ s.ca.InUse e := by
    intro e
    rw [hk'.inUse, hk.inUse]
    constructor
    · rintro ⟨hl, hs⟩
      refine ⟨hl, fun hc => hs ?_⟩
      change st e = _
      rw [hval e hl, Cache.settled_eq_caclean]
      exact hc
    · rintro ⟨hl, hs⟩
      refine ⟨hl, fun hc => hs ?_⟩
      change st e = _ at hc
      rwa [hval e hl, Cache.settled_eq_caclean] at hc
  refine ⟨h.size, ?_, h.parked, ?_, h.covered⟩
  · apply h.counted.recache ⟨l, q, hk'⟩
    · exact fun e he _ => ⟨(hclean e).mpr he, rfl⟩
    · exact fun e he => ⟨(hclean e).mp he, rfl, rfl⟩
  · have hs := hrec.settle (d := { s.ca with state := st }) h0 hwrt
      fun e he => ⟨(hclean e).mp he, hval e (hk'.inUse.mp he).1, rfl⟩
    constructor
    case snapshot => exact hs.snapshot
    case wheel => exact hs.wheel
    case busy => exact hs.busy
    case inflt => exact fun hp => absurd h0 hp.ne'
    case reserved =>
      intro hr
      rcases hor with rfl | ⟨h1, h2⟩
      · exact ⟨h0, rfl, hvg⟩
      · rcases hr with hr | hr
        · exact absurd hr h1
        · exact absurd hr h2
    case written => exact hs.written
    case changing => exact hs.changing

theorem wendDone (h : Inv v n s 1 []) (hd : s.missing p = true ∨ s.disk p = s.ca.part1) :
    ∃ s', wendDone p s = some s' ∧ Inv v n s' 0 [] := by
  obtain ⟨s₁, hs, h₁⟩ := h.sked rfl hd rfl
  obtain ⟨h₂, hlast⟩ := h₁.deduct
  have hpos : 0 < s₁.infltCnt := by
    rw [h₁.recorded.busy]
    exact Nat.succ_pos _
  unfold Mwc.wendDone
  rw [hs]
  dsimp only [Option.map_some]
  split_ifs with h0
  · cases hcl : s₁.cleaner with
    | waiting => exact ⟨_, rfl, hlast h0 true .reserved (.inl rfl)⟩
    | writing => exact ⟨_, rfl, hlast h0 true .written (.inl rfl)⟩
    | out => exact ⟨_, rfl, (hlast h0 false .out (.inr (by decide))).mvhld.1⟩
    | reserved => exact absurd (h₁.recorded.reserved (.inl hcl)).1 hpos.ne'
    | written => exact absurd (h₁.recorded.reserved (.inr hcl)).1 hpos.ne'
  · exact ⟨_, rfl, h₂⟩

/-- A cache write comes back, and the record is on the disk or the volume is
missing. -/
theorem back (h : Inv v n s 0 []) (hp : s.flight p ≠ none ∨ s.onWheel p = true) {w : Volumes}
    (hf : w.flight = Function.update s.flight p none)
    (hw : w.onWheel = Function.update s.onWheel p false)
    (hd : w.missing = s.missing ∧ w.disk = Function.update s.disk p s.ca.part1 ∨
      w.missing = Function.update s.missing p true ∧ w.disk = s.disk)
    (hrest : w.infltCnt = s.infltCnt ∧ w.inflt = s.inflt ∧ w.vgact = s.vgact ∧
      w.caPvWrt = s.caPvWrt ∧ w.cleaner = s.cleaner) :
    Inv v n { s with toVolumes := w } 1 [] ∧ (w.missing p = true ∨ w.disk p = s.ca.part1) := by
  have hdisk : ∀ a, w.missing a = false → s.missing a = false ∧
      (a = p → w.disk a = s.ca.part1) ∧ (a ≠ p → w.disk a = s.disk a) := by
    intro a ha
    rcases hd with ⟨hm, hd⟩ | ⟨hm, hd⟩
    · rw [hm] at ha
      rw [hd]
      refine ⟨ha, ?_, fun hap => Function.update_of_ne hap _ _⟩
      rintro rfl
      exact Function.update_self _ _ _
    · rw [hm] at ha
      have hap : a ≠ p := by
        rintro rfl
        rw [Function.update_self] at ha
        cases ha
      rw [Function.update_of_ne hap] at ha
      rw [hd]
      exact ⟨ha, fun heq => absurd heq hap, fun _ => rfl⟩
  obtain ⟨h1, h2, h3, h4, h5⟩ := hrest
  refine ⟨⟨h.size, h.counted, h.parked, ?_, ?_⟩, ?_⟩
  · refine h.recorded.endOne hp hf ?_ ?_ hdisk h1 h2 h3 h4 h5
    · rw [hw, Function.update_self]
    · intro a ha
      rw [hw, Function.update_of_ne ha]
  · intro i hi a ha
    obtain ⟨hm, heq, hne⟩ := hdisk a ha.2
    by_cases hap : a = p
    · right
      change w.disk a _ = s.ca.part1 _
      rw [heq hap]
    · change i ∈ s.caPv a ∨ w.disk a _ = s.ca.part1 _
      rw [hne hap]
      exact h.covered hi a ⟨ha.1, hm⟩
  · rcases hd with ⟨-, hd⟩ | ⟨hm, -⟩
    · right
      rw [hd, Function.update_self]
    · left
      rw [hm, Function.update_self]

theorem written (h : Inv v n s 0 []) {r : Record} (hf : s.flight p = some r) :
    ∃ s', Mwc.wendDone p { s with
      flight := Function.update s.flight p none
      disk := Function.update s.disk p r } = some s' ∧ Inv v n s' 0 [] := by
  obtain rfl := h.recorded.snapshot hf
  have hwheel : s.onWheel p = false := by
    by_contra hno
    have hnone := (h.recorded.wheel (by simpa using hno)).2
    rw [hf] at hnone
    cases hnone
  obtain ⟨h₁, hd⟩ := h.back (p := p) (w := { s.toVolumes with
      flight := Function.update s.flight p none
      disk := Function.update s.disk p s.ca.part1 })
    (.inl (by rw [hf]; exact Option.some_ne_none _)) rfl
    (by rw [← hwheel, Function.update_eq_self]) (.inl ⟨rfl, rfl⟩) ⟨rfl, rfl, rfl, rfl, rfl⟩
  exact h₁.wendDone hd

theorem failedClosing (h : Inv v n s 0 []) (hf : s.flight p ≠ none) :
    ∃ s', Mwc.wendDone p { s with
      flight := Function.update s.flight p none
      missing := Function.update s.missing p true } = some s' ∧ Inv v n s' 0 [] := by
  have hwheel : s.onWheel p = false := by
    by_contra hno
    exact hf (h.recorded.wheel (by simpa using hno)).2
  obtain ⟨h₁, hd⟩ := h.back (p := p) (w := { s.toVolumes with
      flight := Function.update s.flight p none
      missing := Function.update s.missing p true }) (.inl hf) rfl
    (by rw [← hwheel, Function.update_eq_self]) (.inr ⟨rfl, rfl⟩) ⟨rfl, rfl, rfl, rfl, rfl⟩
  exact h₁.wendDone hd

theorem wheelDone (h : Inv v n s 0 []) (hw : s.onWheel p = true) :
    ∃ s', Mwc.wendDone p { s with onWheel := Function.update s.onWheel p false } = some s' ∧
      Inv v n s' 0 [] := by
  obtain ⟨hm, hf⟩ := h.recorded.wheel hw
  obtain ⟨h₁, hd⟩ := h.back (p := p) (w := { s.toVolumes with
      onWheel := Function.update s.onWheel p false }) (.inr hw)
    (by rw [← hf, Function.update_eq_self]) rfl
    (.inr ⟨by rw [← hm, Function.update_eq_self], rfl⟩) ⟨rfl, rfl, rfl, rfl, rfl⟩
  exact h₁.wendDone hd

/-! ## Other changes of the volumes -/

/-- More volumes are known as missing, while the cache writes stay. -/
theorem miss (h : Inv v n s 0 []) {w : Volumes}
    (hmono : ∀ a, w.missing a = false → s.missing a = false)
    (hflight : ∀ a, w.flight a = s.flight a ∨ w.flight a = none ∧ w.missing a = true)
    (hwheel : ∀ a, w.onWheel a = true → w.missing a = true ∧ w.flight a = none)
    (hbusy : ∀ a, (w.flight a ≠ none ∨ w.onWheel a = true) ↔
      (s.flight a ≠ none ∨ s.onWheel a = true))
    (hdisk : w.disk = s.disk)
    (hrest : w.infltCnt = s.infltCnt ∧ w.inflt = s.inflt ∧ w.vgact = s.vgact ∧
      w.caPvWrt = s.caPvWrt ∧ w.cleaner = s.cleaner) : Inv v n { s with toVolumes := w } 0 [] := by
  obtain ⟨h1, h2, h3, h4, h5⟩ := hrest
  have hhas : ∀ {minor ltg a}, v.Has minor ltg w a → v.Has minor ltg s.toVolumes a :=
    fun ha => ⟨ha.1, hmono _ ha.2⟩
  refine ⟨h.size, h.counted, h.parked, ?_, ?_⟩
  · constructor
    case snapshot =>
      intro a r ha
      rcases hflight a with hf | ⟨hf, -⟩
      · exact h.recorded.snapshot (hf ▸ ha)
      · rw [hf] at ha
        cases ha
    case wheel => exact fun ha => hwheel _ ha
    case busy =>
      dsimp only
      rw [h1, h.recorded.busy]
      congr 2
      ext a
      rw [Finset.mem_filter, Finset.mem_filter]
      exact and_congr_right fun _ => (hbusy a).symm
    case inflt =>
      dsimp only
      rw [h1, h2, h3, h4]
      exact h.recorded.inflt
    case reserved =>
      dsimp only
      rw [h1, h2, h3, h5]
      exact h.recorded.reserved
    case written =>
      intro e he hs a ha
      dsimp only
      rw [hdisk]
      exact h.recorded.written he hs a (hhas ha)
    case changing =>
      intro e he hs a ha
      dsimp only
      rw [hdisk, h4]
      rcases hflight a with hf | ⟨-, hm⟩
      · rw [hf]
        exact h.recorded.changing he hs a (hhas ha)
      · have hno := ha.2
        dsimp only at hno
        rw [hm] at hno
        cases hno
  · intro i hi a ha
    dsimp only
    rw [hdisk]
    exact h.covered hi a (hhas ha)

theorem lose (h : Inv v n s 0 []) (p : Pv) :
    Inv v n { s with missing := Function.update s.missing p true } 0 [] := by
  apply h.miss (w := { s.toVolumes with missing := Function.update s.missing p true })
  · intro a ha
    by_cases hap : a = p
    · simp [hap] at ha
    · simpa [hap] using ha
  · exact fun _ => .inl rfl
  · intro a ha
    obtain ⟨hm, hf⟩ := h.recorded.wheel ha
    refine ⟨?_, hf⟩
    by_cases hap : a = p
    · simp [hap]
    · simpa [hap] using hm
  · exact fun _ => Iff.rfl
  · rfl
  · exact ⟨rfl, rfl, rfl, rfl, rfl⟩

theorem failed (h : Inv v n s 0 []) (hf : s.flight p ≠ none) :
    Inv v n { s with
      flight := Function.update s.flight p none
      missing := Function.update s.missing p true
      onWheel := Function.update s.onWheel p true } 0 [] := by
  apply h.miss (w := { s.toVolumes with
      flight := Function.update s.flight p none
      missing := Function.update s.missing p true
      onWheel := Function.update s.onWheel p true })
  · intro a ha
    by_cases hap : a = p
    · simp [hap] at ha
    · simpa [hap] using ha
  · intro a
    by_cases hap : a = p
    · simp [hap]
    · simp [hap]
  · intro a ha
    by_cases hap : a = p
    · simp [hap]
    · simp only [Function.update_of_ne hap] at ha ⊢
      exact h.recorded.wheel ha
  · intro a
    by_cases hap : a = p
    · simp [hap, hf]
    · simp [hap]
  · rfl
  · exact ⟨rfl, rfl, rfl, rfl, rfl⟩

/-- The flags of the cache change while no cache write is under way. -/
theorem flags (h : Inv v n s 0 []) (h0 : s.infltCnt = 0) (b vg : Bool) (cl : Cleaner)
    (hor : b = true ∧ vg = false ∨ cl ≠ .reserved ∧ cl ≠ .written) {pvWrt : Pv → Bool}
    (hmono : ∀ p, s.caPvWrt p = true → pvWrt p = true) :
    Inv v n { s with inflt := b, vgact := vg, cleaner := cl, caPvWrt := pvWrt } 0 [] := by
  refine ⟨h.size, h.counted, h.parked, ?_, h.covered⟩
  constructor
  case snapshot => exact h.recorded.snapshot
  case wheel => exact h.recorded.wheel
  case busy => exact h.recorded.busy
  case inflt => exact fun hp => absurd h0 hp.ne'
  case reserved =>
    intro hr
    rcases hor with ⟨rfl, rfl⟩ | ⟨h1, h2⟩
    · exact ⟨h0, rfl, rfl⟩
    · rcases hr with hr | hr
      · exact absurd hr h1
      · exact absurd hr h2
  case written => exact h.recorded.written
  case changing =>
    intro e he hs p hp
    rcases h.recorded.changing he hs p hp with hd | hd | hd
    · exact .inl hd
    · exact .inr (.inl (hmono p hd))
    · exact .inr (.inr hd)

theorem caWrt (h : Inv v n s 0 []) : Inv v n (caWrt s) 0 [] := by
  unfold Mwc.caWrt
  split_ifs with hvg
  · have h0 : s.infltCnt = 0 := by
      by_contra hne
      rw [(h.recorded.inflt (Nat.pos_of_ne_zero hne)).2.1] at hvg
      cases hvg
    have hcl : s.cleaner ≠ .reserved ∧ s.cleaner ≠ .written := by
      constructor
      · intro hr
        rw [(h.recorded.reserved (.inl hr)).2.2] at hvg
        cases hvg
      · intro hr
        rw [(h.recorded.reserved (.inr hr)).2.2] at hvg
        cases hvg
    exact ⟨h.size, h.counted, h.parked, h.recorded.start h0 hcl, h.covered⟩
  · exact h

theorem clnupBody (h : Inv v n s 0 []) (h0 : s.infltCnt = 0) :
    ∃ s', clnupBody v s = some s' ∧ Inv v n s' 0 [] := by
  obtain ⟨l, q, hk⟩ := h.counted.kept
  obtain ⟨chg, d, m, r, hd, hkd, hc⟩ := hk.cleanQueues hashQueues false
  have h₁ := h.cleaned h0 ⟨m, r, hkd⟩ hc
  unfold Mwc.clnupBody
  rw [hd]
  dsimp only [Option.map_some]
  have hmono : ∀ p, s.caPvWrt p = true → (if chg then
      fun p => s.caPvWrt p || (v.pvols p && !s.missing p) else s.caPvWrt) p = true := by
    intro p hp
    split_ifs
    · simp [hp]
    · exact hp
  have h₂ := fun b vg cl hor => h₁.flags h0 b vg cl hor hmono
  refine ⟨_, rfl, ?_⟩
  cases chg with
  | true =>
    simp only [↓reduceIte] at h₂ ⊢
    split_ifs
    · exact (h₂ s.inflt true .writing (.inr (by decide))).caWrt
    · exact (h₂ false s.vgact .out (.inr (by decide))).mvhld.1
  | false =>
    simp only [Bool.false_eq_true, ↓reduceIte] at h₂ ⊢
    split_ifs
    · exact (h₂ s.inflt true .writing (.inr (by decide))).caWrt
    · exact (h₂ false s.vgact .out (.inr (by decide))).mvhld.1

end Inv

end Aix413.Lvm.Mwc
