import Mathlib.Tactic

namespace Aix413.Lib.BitRuns

/-! ## Runs of zeros -/

variable {b b' : Nat → Bool} {i j n m lo mid hi r : Nat}

/-- The `n` bits from `i` on are zero. -/
def Run (b : Nat → Bool) (i n : Nat) : Prop := ∀ k, i ≤ k → k < i + n → b k = false

theorem Run.mono (h : Run b i n) (hij : i ≤ j) (hn : j + m ≤ i + n) : Run b j m :=
  fun k h1 h2 => h k (by omega) (by omega)

theorem Run.congr (h : Run b i n) (hb : ∀ k, i ≤ k → k < i + n → b' k = b k) : Run b' i n :=
  fun k h1 h2 => (hb k h1 h2).trans (h k h1 h2)

theorem run_zero (b : Nat → Bool) (i : Nat) : Run b i 0 := fun _ h1 h2 => by omega

/-- A run does not pass over a one. -/
theorem Run.not_over (h : Run b i n) (hj : b j = true) : j < i ∨ i + n ≤ j := by
  by_contra hno
  push Not at hno
  have hz := h j hno.1 hno.2
  rw [hj] at hz
  cases hz

/-- The number of leading zeros among the first `n` bits. -/
def zeros : (Nat → Bool) → Nat → Nat
  | _, 0 => 0
  | b, n + 1 => if b 0 then 0 else zeros (fun i => b (i + 1)) n + 1

theorem zeros_spec (n : Nat) : ∀ b : Nat → Bool,
    zeros b n ≤ n ∧ Run b 0 (zeros b n) ∧ (zeros b n < n → b (zeros b n) = true) := by
  induction n with
  | zero => exact fun b => ⟨le_rfl, run_zero b 0, fun h => absurd h (Nat.lt_irrefl 0)⟩
  | succ n ih =>
    intro b
    obtain ⟨h1, h2, h3⟩ := ih fun i => b (i + 1)
    rw [zeros]
    cases hb : b 0 with
    | true => exact ⟨Nat.zero_le _, run_zero b 0, fun _ => hb⟩
    | false =>
      rw [if_neg (by simp)]
      refine ⟨Nat.succ_le_succ h1, fun k _ hk => ?_, fun hlt => h3 (Nat.lt_of_succ_lt_succ hlt)⟩
      cases k with
      | zero => exact hb
      | succ k => exact h2 k (Nat.zero_le k) (by omega)

/-- The zeros from `i` on up to `hi`. -/
theorem zeros_from (b : Nat → Bool) (h : i ≤ hi) :
    i + zeros (fun k => b (i + k)) (hi - i) ≤ hi ∧
      Run b i (zeros (fun k => b (i + k)) (hi - i)) ∧
      (i + zeros (fun k => b (i + k)) (hi - i) < hi →
        b (i + zeros (fun k => b (i + k)) (hi - i)) = true) := by
  obtain ⟨h1, h2, h3⟩ := zeros_spec (hi - i) fun k => b (i + k)
  refine ⟨by omega, fun k hk1 hk2 => ?_, fun hlt => h3 (by omega)⟩
  obtain ⟨j, rfl⟩ := Nat.exists_eq_add_of_le hk1
  exact h2 j (Nat.zero_le j) (by omega)

theorem zeros_eq {z : Nat} (hz : z ≤ n) (hr : Run b 0 z) (ho : z < n → b z = true) : zeros b n = z := by
  obtain ⟨h1, h2, h3⟩ := zeros_spec n b
  rcases Nat.lt_trichotomy (zeros b n) z with hlt | heq | hgt
  · have hno := hr (zeros b n) (Nat.zero_le _) (by omega)
    rw [h3 (by omega)] at hno
    cases hno
  · exact heq
  · have hno := h2 z (Nat.zero_le z) (by omega)
    rw [ho (by omega)] at hno
    cases hno

/-- `r` is the largest of `m` and the lengths of the runs between `lo` and `hi`. -/
structure Longest (b : Nat → Bool) (lo hi m r : Nat) : Prop where
  found : r = m ∨ ∃ i, lo ≤ i ∧ i + r ≤ hi ∧ Run b i r
  most : ∀ i n, lo ≤ i → i + n ≤ hi → Run b i n → n ≤ r
  old : m ≤ r

theorem Longest.empty (h : hi ≤ lo) : Longest b lo hi m m :=
  ⟨.inl rfl, fun i n h1 h2 _ => by omega, le_rfl⟩

/-- A stretch that begins with `n` zeros, goes on with ones up to `mid` and then with the rest. -/
theorem Longest.step {n r : Nat} (hrun : Run b lo n) (hhi : lo + n ≤ hi)
    (hones : ∀ k, lo + n ≤ k → k < mid → k < hi → b k = true)
    (h : Longest b mid hi (max m n) r) (hmid : lo + n ≤ mid)
    (hnext : lo + n < mid ∨ hi ≤ mid) : Longest b lo hi m r := by
  have hold := h.old
  refine ⟨?_, fun i k h1 h2 hr => ?_, (le_max_left _ _).trans hold⟩
  · rcases h.found with hf | ⟨i, h1, h2, hr⟩
    · rcases le_total m n with hmn | hmn
      · rw [max_eq_right hmn] at hf
        exact .inr ⟨lo, le_rfl, by omega, hf ▸ hrun⟩
      · rw [max_eq_left hmn] at hf
        exact .inl hf
    · exact .inr ⟨i, by omega, h2, hr⟩
  · have hn := (le_max_right m n).trans hold
    by_cases hi' : mid ≤ i
    · exact h.most i k hi' h2 hr
    · by_cases hlast : lo + n < hi
      · rcases hr.not_over (hones (lo + n) le_rfl (by omega) hlast) with hlt | hge
        · by_cases hk : k = 0
          · omega
          · have hz := hr i le_rfl (by omega)
            rw [hones i (by omega) (by omega) (by omega)] at hz
            cases hz
        · omega
      · omega

theorem Longest.unique {r' : Nat} (h : Longest b lo hi m r)
    (h' : Longest b lo hi m r') : r = r' := by
  have hle : ∀ {r r' : Nat}, Longest b lo hi m r → Longest b lo hi m r' → r ≤ r' := by
    intro r r' h h'
    rcases h.found with hf | ⟨i, h1, h2, h3⟩
    · exact hf ▸ h'.old
    · exact h'.most i r h1 h2 h3
  exact le_antisymm (hle h h') (hle h' h)

/-! ## A scan from the left -/

variable {p longest : Nat}

/-- The bits before `p` end in `m` zeros, and no string in them is longer than the larger one of
`longest` and `m`. -/
structure Scanned (b : Nat → Bool) (p longest m : Nat) : Prop where
  run : m ≤ p ∧ Run b (p - m) m
  before : ∀ i, i + 1 + m = p → b i = true
  most : Longest b 0 p 0 (max longest m)

theorem Scanned.one (h : Scanned b p longest m) (hb : b p = true) :
    Scanned b (p + 1) (max longest m) 0 := by
  refine ⟨⟨Nat.zero_le _, run_zero _ _⟩, fun i hi => ?_, ?_, fun i k _ hk hr => ?_, Nat.zero_le _⟩
  · obtain rfl : i = p := by omega
    exact hb
  · rw [Nat.max_zero]
    rcases h.most.found with hf | ⟨i, h1, h2, h3⟩
    · exact .inl hf
    · exact .inr ⟨i, h1, by omega, h3⟩
  · rw [Nat.max_zero]
    rcases hr.not_over hb with hlt | hle
    · by_cases hk0 : k = 0
      · omega
      · omega
    · exact h.most.most i k (Nat.zero_le _) hle hr

theorem Scanned.zero (h : Scanned b p longest m)
    (hb : b p = false) : Scanned b (p + 1) longest (m + 1) := by
  obtain ⟨hm, hrun⟩ := h.run
  have hrun' : Run b (p + 1 - (m + 1)) (m + 1) := by
    intro k h1 h2
    by_cases hk : k = p
    · rw [hk, hb]
    · exact hrun k (by omega) (by omega)
  refine ⟨⟨by omega, hrun'⟩, fun i hi => h.before i (by omega), ?_, fun i k _ hk hr => ?_,
    Nat.zero_le _⟩
  · by_cases hlm : m + 1 ≤ longest
    · rw [max_eq_left hlm]
      rcases h.most.found with hf | ⟨i, h1, h2, h3⟩
      · rw [max_eq_left (by omega)] at hf
        exact .inl hf
      · rw [max_eq_left (by omega)] at h2 h3
        exact .inr ⟨i, h1, by omega, h3⟩
    · rw [max_eq_right (by omega)]
      exact .inr ⟨p + 1 - (m + 1), Nat.zero_le _, by omega, hrun'⟩
  · by_cases hkp : i + k ≤ p
    · have hmost := h.most.most i k (Nat.zero_le _) hkp (hr.mono le_rfl (by omega))
      omega
    · by_cases him : p - m ≤ i
      · omega
      · -- the one before the zeros at the end is in the string
        have hone := h.before (p - m - 1) (by omega)
        rw [hr (p - m - 1) (by omega) (by omega)] at hone
        cases hone

end Aix413.Lib.BitRuns
