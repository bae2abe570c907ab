import Aix413.Lib.BitRuns

namespace Aix413.Dmap

open Lib.BitRuns

/-! ## Double words -/

abbrev Word := BitVec 32

def ones : Word := BitVec.allOnes 32
def uzbit : Word := 0x80000000#32

/-- Bit `i` of a double word, from the left. -/
def dbit (w₁ w₂ : Word) (i : Nat) : Bool := if i < 32 then w₁.getMsbD i else w₂.getMsbD (i - 32)

def cntlz (w : Word) : Nat := zeros w.getMsbD 32

/-- Rotation to the left, by the low five bits of the amount. -/
def rlnm (w : Word) (n : Nat) : Word := w.rotateLeft n

/-- A loop of `v_maxstring` over a word, from position `pos` on. The high bit of the input stops
the wrap-around. Gives the new maximum and the last string. -/
def maxLoop (comp : Word) : Nat → Nat → Word → Word → Nat → Nat × Nat
  | 0, max, _, _, _ => (max, 0)
  | fuel + 1, max, input, shifted, pos =>
    let r9 := cntlz shifted
    let pos := pos + r9
    let r10 := cntlz (rlnm comp pos)
    let max := if r9 ≤ max then max else r9
    let pos := pos + r10
    let input := input ||| uzbit
    if pos < 32 then maxLoop comp fuel max input (rlnm input pos) pos else (max, r9)

/-- The longest string of zeros in a double word. -/
def vMaxstring (w₁ w₂ : Word) : Nat :=
  let (max, r11) := maxLoop (~~~w₁) 32 0 w₁ w₁ 0
  let r11 := if (w₁ ||| uzbit).getLsbD 0 then 0 else r11
  let r9 := cntlz w₂ + r11
  let max := if r9 ≤ max then max else r9
  (maxLoop (~~~w₂) 32 max w₂ w₂ 0).1

/-- How a loop of `v_findstring` ends: a string is found, or the word is over behind zeros or
behind ones. -/
inductive Scan
  | found (pos : Nat)
  | zeros (pos r9 : Nat)
  | ones (pos : Nat)

def findLoop (comp : Word) (nbits stop : Nat) : Nat → Word → Word → Nat → Scan
  | 0, _, _, pos => .ones pos
  | fuel + 1, input, shifted, pos =>
    let r9 := cntlz shifted
    if nbits ≤ r9 then .found pos
    else
      let pos := pos + r9
      if stop ≤ pos then .zeros pos r9
      else
        let r10 := cntlz (rlnm comp pos)
        let pos := pos + r10
        let input := input ||| uzbit
        if pos < stop then findLoop comp nbits stop fuel input (rlnm input pos) pos else .ones pos

/-- The second word of `v_findstring`. -/
def findSecond (w₂ : Word) (nbits : Nat) : Nat :=
  match findLoop (~~~w₂) nbits 64 32 w₂ w₂ 32 with
  | .found pos => pos
  | .zeros pos _ => pos
  | .ones pos => pos

/-- The leftmost position of a string of `nbits` zeros, 64 or more where there is none. -/
def vFindstring (w₁ w₂ : Word) (nbits : Nat) : Nat :=
  match findLoop (~~~w₁) nbits 32 32 w₁ w₁ 0 with
  | .found pos => pos
  | .zeros pos r9 => if nbits ≤ r9 + cntlz w₂ then pos - r9 else findSecond w₂ nbits
  | .ones _ => findSecond w₂ nbits

/-! ## One turn of the loops -/

variable {w w₀ w₁ w₂ comp input shifted : Word} {i n m p pos fuel base nbits : Nat}

theorem rlnm_bit (w : Word) (n : Nat) (hi : i < 32) :
    (rlnm w n).getMsbD i = w.getMsbD ((n + i) % 32) := by
  rw [rlnm, BitVec.getMsbD_rotateLeft, decide_eq_true hi, Bool.true_and]

theorem uzbit_bit (hi : i < 32) : uzbit.getMsbD i = decide (i = 0) := by
  interval_cases i <;> rfl

/-- The registers where a turn begins: at the front of the word, or behind a one with the high bit
of the input set. -/
structure Turn (w₀ input shifted : Word) (p : Nat) : Prop where
  lt : p < 32
  regs : p = 0 ∧ input = w₀ ∧ shifted = w₀ ∨ 0 < p ∧ w₀.getMsbD (p - 1) = true ∧
    input = w₀ ||| uzbit ∧ shifted = rlnm input p

theorem Turn.start (w : Word) : Turn w w w 0 := ⟨by omega, .inl ⟨rfl, rfl, rfl⟩⟩

/-- The zeros that a turn finds. -/
theorem Turn.zeros (h : Turn w₀ input shifted p) :
    p + cntlz shifted ≤ 32 ∧ Run w₀.getMsbD p (cntlz shifted) ∧
      (p + cntlz shifted < 32 → w₀.getMsbD (p + cntlz shifted) = true) := by
  have hp := h.lt
  have hcount : cntlz shifted = Lib.BitRuns.zeros (fun k => w₀.getMsbD (p + k)) (32 - p) := by
    obtain ⟨h1, h2, h3⟩ := zeros_spec (32 - p) fun k => w₀.getMsbD (p + k)
    have hshift : ∀ k, p + k < 32 → (0 < p → 0 < p + k) → shifted.getMsbD k = w₀.getMsbD (p + k) := by
      intro k hk _
      rcases h.regs with ⟨rfl, -, rfl⟩ | ⟨hp0, -, rfl, rfl⟩
      · rw [Nat.zero_add]
      · rw [rlnm_bit _ _ (by omega), Nat.mod_eq_of_lt hk, BitVec.getMsbD_or, uzbit_bit hk,
          decide_eq_false (by omega), Bool.or_false]
    refine zeros_eq (by omega) (fun k hk1 hk2 => ?_) fun hz => ?_
    · rw [hshift k (by omega) (by omega)]
      exact h2 k hk1 hk2
    · by_cases hend : Lib.BitRuns.zeros (fun k => w₀.getMsbD (p + k)) (32 - p) < 32 - p
      · rw [hshift _ (by omega) (by omega)]
        exact h3 hend
      · -- the high bit of the input comes around
        have heq : Lib.BitRuns.zeros (fun k => w₀.getMsbD (p + k)) (32 - p) = 32 - p := by omega
        rcases h.regs with ⟨rfl, -, -⟩ | ⟨hp0, -, rfl, rfl⟩
        · omega
        · rw [heq, rlnm_bit _ _ (by omega)]
          have hmod : (p + (32 - p)) % 32 = 0 := by
            rw [Nat.add_sub_cancel' (by omega)]
          rw [hmod, BitVec.getMsbD_or, uzbit_bit (by omega)]
          simp
  rw [hcount]
  exact zeros_from w₀.getMsbD hp.le

/-- The ones behind them. -/
theorem ones_behind (w : Word) (pos : Nat) (hp : p ≤ 32) (hpos : pos % 32 = p % 32) :
    (∀ k, p ≤ k → k < p + cntlz (rlnm (~~~w) pos) → k < 32 → w.getMsbD k = true) ∧
      (p + cntlz (rlnm (~~~w) pos) < 32 → w.getMsbD (p + cntlz (rlnm (~~~w) pos)) = false) := by
  obtain ⟨h1, h2, h3⟩ := zeros_spec 32 (rlnm (~~~w) pos).getMsbD
  have hbit : ∀ k, p + k < 32 → (rlnm (~~~w) pos).getMsbD k = !w.getMsbD (p + k) := by
    intro k hk
    have hmod : (pos + k) % 32 = p + k := by omega
    rw [rlnm_bit _ _ (by omega), hmod, BitVec.getMsbD_not, decide_eq_true hk, Bool.true_and]
  unfold cntlz
  refine ⟨fun k hk1 hk2 hk3 => ?_, fun hlt => ?_⟩
  · obtain ⟨j, rfl⟩ := Nat.exists_eq_add_of_le hk1
    have hz := h2 j (Nat.zero_le j) (by omega)
    rw [hbit j hk3] at hz
    simpa using hz
  · have ho := h3 (by omega)
    rw [hbit _ hlt] at ho
    simpa using ho

/-- The next turn begins behind a one. -/
theorem Turn.next (h : Turn w₀ input shifted p) (pos : Nat) (hpos : pos % 32 = (p + cntlz shifted) % 32)
    (hlt : p + cntlz shifted + cntlz (rlnm (~~~w₀) pos) < 32) :
    Turn w₀ (input ||| uzbit)
      (rlnm (input ||| uzbit) (p + cntlz shifted + cntlz (rlnm (~~~w₀) pos)))
      (p + cntlz shifted + cntlz (rlnm (~~~w₀) pos)) ∧
    p < p + cntlz shifted + cntlz (rlnm (~~~w₀) pos) := by
  obtain ⟨h1, -, h3⟩ := h.zeros
  obtain ⟨h4, h5⟩ := ones_behind w₀ pos h1 hpos
  have hone := h3 (by omega)
  have hpos' : 0 < cntlz (rlnm (~~~w₀) pos) := by
    by_contra hn
    have h0 : cntlz (rlnm (~~~w₀) pos) = 0 := by omega
    rw [h0, Nat.add_zero] at h5
    rw [h5 (by omega)] at hone
    cases hone
  have hin : input ||| uzbit = w₀ ||| uzbit := by
    rcases h.regs with ⟨-, rfl, -⟩ | ⟨-, -, rfl, -⟩
    · rfl
    · rw [BitVec.or_assoc, BitVec.or_self]
  refine ⟨⟨hlt, .inr ⟨by omega, h4 _ (by omega) (by omega) (by omega), hin, rfl⟩⟩, by omega⟩

/-! ## v_maxstring -/

theorem keep_max (m n : Nat) : (if n ≤ m then m else n) = max m n := by
  split
  · exact (max_eq_left ‹_›).symm
  · exact (max_eq_right (by omega)).symm

/-- The trailing zeros of a word. -/
def Trailing (w : Word) (n : Nat) : Prop :=
  n ≤ 32 ∧ Run w.getMsbD (32 - n) n ∧ (n = 32 ∨ w.getMsbD (32 - n - 1) = true)

theorem maxLoop_spec (fuel : Nat) : ∀ {m p : Nat} {input shifted : Word}, Turn w₀ input shifted p →
    32 ≤ p + fuel → Longest w₀.getMsbD p 32 m (maxLoop (~~~w₀) fuel m input shifted p).1 ∧
      (w₀.getMsbD 31 = false → Trailing w₀ (maxLoop (~~~w₀) fuel m input shifted p).2) := by
  induction fuel with
  | zero =>
    intro m p input shifted h hf
    have hp := h.lt
    omega
  | succ fuel ih =>
    intro m p input shifted h hf
    obtain ⟨h1, h2, h3⟩ := h.zeros
    obtain ⟨h4, h5⟩ := ones_behind w₀ (p + cntlz shifted) h1 rfl
    rw [maxLoop, keep_max]
    by_cases hlt : p + cntlz shifted + cntlz (rlnm (~~~w₀) (p + cntlz shifted)) < 32
    · obtain ⟨hturn, hprog⟩ := h.next (p + cntlz shifted) rfl hlt
      rw [if_pos hlt]
      obtain ⟨h6, h7⟩ := ih (m := max m (cntlz shifted)) hturn (by omega)
      have hne : p + cntlz shifted < p + cntlz shifted + cntlz (rlnm (~~~w₀) (p + cntlz shifted)) := by
        by_contra hn
        have h0 : cntlz (rlnm (~~~w₀) (p + cntlz shifted)) = 0 := by omega
        rw [h0, Nat.add_zero] at h5 hlt
        have hz := h5 hlt
        rw [h3 hlt] at hz
        cases hz
      exact ⟨.step h2 h1 h4 h6 (by omega) (.inl hne), h7⟩
    · rw [if_neg hlt]
      refine ⟨.step h2 h1 h4 (.empty (by omega)) (by omega) (.inr (by omega)), fun hlast => ?_⟩
      have hend : p + cntlz shifted = 32 := by
        by_contra hn
        rw [h4 31 (by omega) (by omega) (by omega)] at hlast
        cases hlast
      have hfrom : 32 - cntlz shifted = p := by omega
      refine ⟨by omega, hfrom ▸ h2, ?_⟩
      rcases h.regs with ⟨rfl, -, -⟩ | ⟨-, hone, -, -⟩
      · exact .inl (by omega)
      · exact .inr (hfrom.symm ▸ hone)

theorem Trailing.most (h : Trailing w n) (hi : i ≤ 32) (hr : Run w.getMsbD i (32 - i)) :
    32 - i ≤ n := by
  rcases h.2.2 with h32 | hone
  · omega
  · have hn := h.1
    rcases hr.not_over hone with hlt | hge
    · omega
    · omega

theorem dbit_first (w₁ w₂ : Word) (hi : i < 32) : dbit w₁ w₂ i = w₁.getMsbD i := if_pos hi

theorem dbit_second (w₁ w₂ : Word) (i : Nat) : dbit w₁ w₂ (32 + i) = w₂.getMsbD i := by
  rw [dbit, if_neg (by omega), Nat.add_sub_cancel_left]

theorem run_first (w₂ : Word) (h : i + n ≤ 32) : Run (dbit w₁ w₂) i n ↔ Run w₁.getMsbD i n := by
  constructor
  · exact fun hr => hr.congr fun k _ hk => (dbit_first w₁ w₂ (by omega)).symm
  · exact fun hr => hr.congr fun k _ hk => dbit_first w₁ w₂ (by omega)

theorem run_second (w₁ w₂ : Word) (i n : Nat) :
    Run (dbit w₁ w₂) (32 + i) n ↔ Run w₂.getMsbD i n := by
  constructor
  · intro hr k h1 h2
    rw [← dbit_second w₁ w₂]
    exact hr (32 + k) (by omega) (by omega)
  · intro hr k h1 h2
    obtain ⟨j, rfl⟩ := Nat.exists_eq_add_of_le (show 32 ≤ k by omega)
    rw [dbit_second]
    exact hr j (by omega) (by omega)

/-- A run over the middle of a double word. -/
theorem run_over (w₁ w₂ : Word) (hi : i ≤ 32) : Run (dbit w₁ w₂) i (32 - i + n) ↔
    Run w₁.getMsbD i (32 - i) ∧ Run w₂.getMsbD 0 n := by
  rw [← run_first w₂ (by omega), ← run_second w₁ w₂ 0 n]
  constructor
  · exact fun hr => ⟨hr.mono le_rfl (by omega), hr.mono hi (by omega)⟩
  · rintro ⟨h1, h2⟩ k hk1 hk2
    by_cases hk : k < 32
    · exact h1 k hk1 (by omega)
    · exact h2 k (by omega) (by omega)

theorem cntlz_spec (w : Word) : cntlz w ≤ 32 ∧ Run w.getMsbD 0 (cntlz w) ∧
    ∀ n, n ≤ 32 → Run w.getMsbD 0 n → n ≤ cntlz w := by
  obtain ⟨h1, h2, h3⟩ := zeros_spec 32 w.getMsbD
  refine ⟨h1, h2, fun n hn hr => ?_⟩
  by_contra hno
  have hlt : cntlz w < n := by omega
  have hz := hr (cntlz w) (Nat.zero_le _) (by omega)
  rw [show w.getMsbD (cntlz w) = true from h3 (by unfold cntlz at hlt; omega)] at hz
  cases hz

theorem vMaxstring_spec (w₁ w₂ : Word) : Longest (dbit w₁ w₂) 0 64 0 (vMaxstring w₁ w₂) := by
  obtain ⟨h1, h2⟩ := maxLoop_spec (m := 0) 32 (Turn.start w₁) (by omega)
  obtain ⟨h3, h4, h5⟩ := cntlz_spec w₂
  have hlsb : (w₁ ||| uzbit).getLsbD 0 = w₁.getMsbD 31 := by
    rw [BitVec.getLsbD_or, BitVec.getMsbD_eq_getLsbD]
    exact Bool.or_false _
  unfold vMaxstring
  generalize maxLoop (~~~w₁) 32 0 w₁ w₁ 0 = res at h1 h2 ⊢
  obtain ⟨m, tz⟩ := res
  dsimp only at h1 h2 ⊢
  rw [keep_max, hlsb]
  obtain ⟨h6, -⟩ := maxLoop_spec (m := max m (cntlz w₂ + if w₁.getMsbD 31 = true then 0 else tz))
    32 (Turn.start w₂) (by omega)
  generalize (maxLoop (~~~w₂) 32 (max m (cntlz w₂ + if w₁.getMsbD 31 = true then 0 else tz)) w₂ w₂ 0).1
    = r at h6
  have hold := h6.old
  refine ⟨?_, fun i n _ hi hr => ?_, Nat.zero_le r⟩
  · rcases h6.found with hf | ⟨i, -, hi, hr⟩
    · rcases le_total m (cntlz w₂ + if w₁.getMsbD 31 = true then 0 else tz) with hle | hle
      · rw [max_eq_right hle] at hf
        by_cases hlast : w₁.getMsbD 31 = true
        · rw [if_pos hlast, Nat.add_zero] at hf
          exact .inr ⟨32 + 0, by omega, by omega, (run_second w₁ w₂ 0 r).mpr (hf ▸ h4)⟩
        · rw [if_neg hlast] at hf
          obtain ⟨h7, h8, -⟩ := h2 (by simpa using hlast)
          have hrun := (run_over w₁ w₂ (i := 32 - tz) (by omega)).mpr
            ⟨by rw [Nat.sub_sub_self h7]; exact h8, h4⟩
          refine .inr ⟨32 - tz, by omega, by omega, ?_⟩
          rw [Nat.sub_sub_self h7, Nat.add_comm, ← hf] at hrun
          exact hrun
      · rw [max_eq_left hle] at hf
        rcases h1.found with h0 | ⟨i, -, hi, hr⟩
        · exact .inl (hf.trans h0)
        · exact .inr ⟨i, by omega, by omega, hf.symm ▸ (run_first w₂ hi).mpr hr⟩
    · exact .inr ⟨32 + i, by omega, by omega, (run_second w₁ w₂ i r).mpr hr⟩
  · have hm := (le_max_left m (cntlz w₂ + if w₁.getMsbD 31 = true then 0 else tz)).trans hold
    have hs := (le_max_right m (cntlz w₂ + if w₁.getMsbD 31 = true then 0 else tz)).trans hold
    by_cases hfirst : i + n ≤ 32
    · exact (h1.most i n (Nat.zero_le i) hfirst ((run_first w₂ hfirst).mp hr)).trans hm
    · by_cases hsecond : 32 ≤ i
      · obtain ⟨j, rfl⟩ := Nat.exists_eq_add_of_le hsecond
        exact h6.most j n (Nat.zero_le j) (by omega) ((run_second w₁ w₂ j n).mp hr)
      · -- the run begins in the first word and ends in the second one
        obtain ⟨k, rfl⟩ : ∃ k, n = 32 - i + k := ⟨n - (32 - i), by omega⟩
        obtain ⟨hr1, hr2⟩ := (run_over w₁ w₂ (by omega)).mp hr
        have hlast : w₁.getMsbD 31 = false := hr1 31 (by omega) (by omega)
        have htz := (h2 hlast).most (by omega) hr1
        have hlz := h5 k (by omega) hr2
        rw [if_neg (by simp [hlast])] at hs
        omega

/-! ## v_findstring -/

/-- No string of `nbits` zeros begins in the word at `p` or later. -/
def NoRun (w : Word) (nbits p : Nat) : Prop := ∀ i, p ≤ i → i + nbits ≤ 32 → ¬Run w.getMsbD i nbits

/-- What the end of a loop of `v_findstring` says about its word. -/
def ScanSpec (w : Word) (nbits base p : Nat) : Scan → Prop
  | .found pos => ∃ j, pos = base + j ∧ p ≤ j ∧ j + nbits ≤ 32 ∧ Run w.getMsbD j nbits ∧
      ∀ i, p ≤ i → i < j → ¬Run w.getMsbD i nbits
  | .zeros pos r9 => pos = base + 32 ∧ r9 < nbits ∧ Trailing w r9 ∧ NoRun w nbits p
  | .ones pos => base + 32 ≤ pos ∧ w.getMsbD 31 = true ∧ NoRun w nbits p

theorem rlnm_base (hb : base % 32 = 0) (w : Word) (p : Nat) : rlnm w (base + p) = rlnm w p := by
  unfold rlnm
  rw [← BitVec.rotateLeft_mod_eq_rotateLeft, ← BitVec.rotateLeft_mod_eq_rotateLeft (r := p)]
  congr 1
  omega

theorem findLoop_spec (base : Nat) (hn : 0 < nbits) (hb : base % 32 = 0) (fuel : Nat) :
    ∀ {p : Nat} {input shifted : Word}, Turn w₀ input shifted p → 32 ≤ p + fuel →
      ScanSpec w₀ nbits base p
        (findLoop (~~~w₀) nbits (base + 32) fuel input shifted (base + p)) := by
  induction fuel with
  | zero =>
    intro p input shifted h hf
    have hp := h.lt
    omega
  | succ fuel ih =>
    intro p input shifted h hf
    obtain ⟨h1, h2, h3⟩ := h.zeros
    obtain ⟨h4, h5⟩ := ones_behind w₀ (base + p + cntlz shifted) h1 (by omega)
    rw [findLoop]
    dsimp only
    by_cases hfound : nbits ≤ cntlz shifted
    · rw [if_pos hfound]
      exact ⟨p, rfl, le_rfl, by omega, h2.mono le_rfl (by omega), fun i h1 h2 => by omega⟩
    · rw [if_neg hfound]
      -- a string from here on begins behind the zeros and the ones
      have hskip : ∀ mid, (∀ k, p + cntlz shifted ≤ k → k < mid → k < 32 → w₀.getMsbD k = true) →
          (p + cntlz shifted < mid ∨ 32 ≤ p + cntlz shifted) → ∀ i, p ≤ i → i < mid →
          i + nbits ≤ 32 → ¬Run w₀.getMsbD i nbits := by
        intro mid hones hmid i hpi him hi hr
        by_cases hlt : p + cntlz shifted < 32
        · rcases hr.not_over (h3 hlt) with hlt' | hge
          · have hz := hr i le_rfl (by omega)
            rw [hones i (by omega) him (by omega)] at hz
            cases hz
          · omega
        · omega
      by_cases hend : base + 32 ≤ base + p + cntlz shifted
      · rw [if_pos hend]
        have hfrom : 32 - cntlz shifted = p := by omega
        refine ⟨by omega, by omega, ⟨by omega, hfrom ▸ h2, ?_⟩, fun i hpi hi => ?_⟩
        · rcases h.regs with ⟨rfl, -, -⟩ | ⟨-, hone, -, -⟩
          · exact .inl (by omega)
          · exact .inr (hfrom.symm ▸ hone)
        · exact hskip 32 (fun k hk1 hk2 _ => by omega) (.inr (by omega)) i hpi (by omega) hi
      · rw [if_neg hend]
        have hne : 0 < cntlz (rlnm (~~~w₀) (base + p + cntlz shifted)) := by
          by_contra hno
          have h0 : cntlz (rlnm (~~~w₀) (base + p + cntlz shifted)) = 0 := by omega
          rw [h0, Nat.add_zero] at h5
          have hz := h5 (by omega)
          rw [h3 (by omega)] at hz
          cases hz
        by_cases hlt : base + p + cntlz shifted +
            cntlz (rlnm (~~~w₀) (base + p + cntlz shifted)) < base + 32
        · rw [if_pos hlt]
          obtain ⟨hturn, -⟩ := h.next (base + p + cntlz shifted) (by omega) (by omega)
          have hres := ih hturn (by omega)
          rw [← rlnm_base hb (input ||| uzbit)] at hres
          have hpos : base + (p + cntlz shifted + cntlz (rlnm (~~~w₀) (base + p + cntlz shifted))) =
              base + p + cntlz shifted + cntlz (rlnm (~~~w₀) (base + p + cntlz shifted)) := by omega
          rw [hpos] at hres
          have hbef := hskip _ h4 (.inl (by omega))
          generalize findLoop (~~~w₀) nbits (base + 32) fuel (input ||| uzbit)
            (rlnm (input ||| uzbit) (base + p + cntlz shifted +
              cntlz (rlnm (~~~w₀) (base + p + cntlz shifted)))) (base + p + cntlz shifted +
              cntlz (rlnm (~~~w₀) (base + p + cntlz shifted))) = res at hres ⊢
          have hno : NoRun w₀ nbits (p + cntlz shifted +
              cntlz (rlnm (~~~w₀) (base + p + cntlz shifted))) → NoRun w₀ nbits p := by
            intro hno i hpi hi
            rcases Nat.lt_or_ge i (p + cntlz shifted +
              cntlz (rlnm (~~~w₀) (base + p + cntlz shifted))) with hlt' | hge
            · exact hbef i hpi hlt' hi
            · exact hno i hge hi
          cases res with
          | found pos =>
            obtain ⟨j, hj, hpj, hj32, hr, hleft⟩ := hres
            refine ⟨j, hj, by omega, hj32, hr, fun i hpi hij => ?_⟩
            rcases Nat.lt_or_ge i (p + cntlz shifted +
              cntlz (rlnm (~~~w₀) (base + p + cntlz shifted))) with hlt' | hge
            · exact hbef i hpi hlt' (by omega)
            · exact hleft i hge hij
          | zeros pos r9 => exact ⟨hres.1, hres.2.1, hres.2.2.1, hno hres.2.2.2⟩
          | ones pos => exact ⟨hres.1, hres.2.1, hno hres.2.2⟩
        · rw [if_neg hlt]
          refine ⟨by omega, h4 31 (by omega) (by omega) (by omega), fun i hpi hi => ?_⟩
          exact hskip 32 (fun k hk1 hk2 hk3 => h4 k hk1 (by omega) hk3) (.inl (by omega)) i hpi
            (by omega) hi

/-- What a search for `nbits` zeros in a double word gives. -/
def Finds (w₁ w₂ : Word) (nbits pos : Nat) : Prop :=
  pos + nbits ≤ 64 ∧ Run (dbit w₁ w₂) pos nbits ∧ (∀ i < pos, ¬Run (dbit w₁ w₂) i nbits) ∨
  64 ≤ pos ∧ ∀ i, i + nbits ≤ 64 → ¬Run (dbit w₁ w₂) i nbits

/-- Where no string begins in the first word, the second one decides. -/
theorem findSecond_spec (hn : 0 < nbits)
    (hno : ∀ i < 32, i + nbits ≤ 64 → ¬Run (dbit w₁ w₂) i nbits) :
    Finds w₁ w₂ nbits (findSecond w₂ nbits) := by
  have hscan := findLoop_spec 32 hn rfl 32 (Turn.start w₂) (by omega)
  have hnone : NoRun w₂ nbits 0 → ∀ i, i + nbits ≤ 64 → ¬Run (dbit w₁ w₂) i nbits := by
    intro hno₂ i hi hr
    by_cases h32 : i < 32
    · exact hno i h32 hi hr
    · obtain ⟨j, rfl⟩ := Nat.exists_eq_add_of_le (show 32 ≤ i by omega)
      exact hno₂ j (Nat.zero_le j) (by omega) ((run_second w₁ w₂ j nbits).mp hr)
  unfold findSecond
  change ScanSpec w₂ nbits 32 0 (findLoop (~~~w₂) nbits 64 32 w₂ w₂ 32) at hscan
  generalize findLoop (~~~w₂) nbits 64 32 w₂ w₂ 32 = res at hscan ⊢
  cases res with
  | found pos =>
    obtain ⟨j, rfl, -, hj, hr, hleft⟩ := hscan
    change Finds w₁ w₂ nbits (32 + j)
    refine .inl ⟨by omega, (run_second w₁ w₂ j nbits).mpr hr, fun i hi hr' => ?_⟩
    by_cases h32 : i < 32
    · exact hno i h32 (by omega) hr'
    · obtain ⟨k, rfl⟩ := Nat.exists_eq_add_of_le (show 32 ≤ i by omega)
      exact hleft k (Nat.zero_le k) (by omega) ((run_second w₁ w₂ k nbits).mp hr')
  | zeros pos r9 => exact .inr ⟨hscan.1.ge, hnone hscan.2.2.2⟩
  | ones pos => exact .inr ⟨hscan.1, hnone hscan.2.2⟩

theorem vFindstring_spec (w₁ w₂ : Word) (hn : 0 < nbits) :
    Finds w₁ w₂ nbits (vFindstring w₁ w₂ nbits) := by
  have hscan := findLoop_spec 0 hn rfl 32 (Turn.start w₁) (by omega)
  change ScanSpec w₁ nbits 0 0 (findLoop (~~~w₁) nbits 32 32 w₁ w₁ 0) at hscan
  unfold vFindstring
  generalize findLoop (~~~w₁) nbits 32 32 w₁ w₁ 0 = res at hscan ⊢
  cases res with
  | found pos =>
    obtain ⟨j, rfl, -, hj, hr, hleft⟩ := hscan
    change Finds w₁ w₂ nbits (0 + j)
    rw [Nat.zero_add]
    refine .inl ⟨by omega, (run_first w₂ hj).mpr hr, fun i hi hr' => ?_⟩
    exact hleft i (Nat.zero_le i) hi ((run_first w₂ (by omega)).mp hr')
  | zeros pos r9 =>
    obtain ⟨rfl, hr9, htr, hno⟩ := hscan
    have hle := htr.1
    have hrun := htr.2.1
    obtain ⟨hlz, hlead, hmost⟩ := cntlz_spec w₂
    -- a string that begins in the first word takes some of its trailing zeros
    have hfirst : ∀ i < 32, i + nbits ≤ 64 → Run (dbit w₁ w₂) i nbits →
        32 - i ≤ r9 ∧ i + nbits - 32 ≤ cntlz w₂ := by
      intro i hi hin hr
      have hover : ¬i + nbits ≤ 32 := fun h => hno i (Nat.zero_le i) h ((run_first w₂ h).mp hr)
      have hsplit : nbits = 32 - i + (i + nbits - 32) := by omega
      rw [hsplit] at hr
      obtain ⟨hr1, hr2⟩ := (run_over w₁ w₂ (by omega)).mp hr
      exact ⟨htr.most (by omega) hr1, hmost _ (by omega) hr2⟩
    dsimp only
    rw [Nat.zero_add]
    by_cases hc : nbits ≤ r9 + cntlz w₂
    · rw [if_pos hc]
      have hall := (run_over w₁ w₂ (i := 32 - r9) (by omega)).mpr
        ⟨by rw [Nat.sub_sub_self hle]; exact hrun, hlead⟩
      rw [Nat.sub_sub_self hle] at hall
      refine .inl ⟨by omega, hall.mono le_rfl (by omega), fun i hi hr => ?_⟩
      have hf := hfirst i (by omega) (by omega) hr
      omega
    · rw [if_neg hc]
      refine findSecond_spec hn fun i hi h64 hr => ?_
      have hf := hfirst i hi h64 hr
      omega
  | ones pos =>
    obtain ⟨-, hlast, hno⟩ := hscan
    refine findSecond_spec hn fun i hi _ hr => ?_
    by_cases hover : i + nbits ≤ 32
    · exact hno i (Nat.zero_le i) hover ((run_first w₂ hover).mp hr)
    · have hz := hr 31 (by omega) (by omega)
      rw [dbit_first w₁ w₂ (by omega), hlast] at hz
      cases hz

end Aix413.Dmap
