import Aix413.Qsort.Quicksort

namespace Aix413.Qsort

open Lib.BlockMove Lib.Partition

variable {e : Env} {m : Mem} {base n i j k ri rj rk : Nat}

/-! ## Pointers that may be formed -/

/-- All pointers into the array and the one to its end. -/
def Env.Closed (e : Env) : Prop := ∀ p, e.bytes.lo ≤ p → p ≤ e.bytes.hi → e.ptrs.Mem p

theorem Env.Closed.ptr (h : e.Closed) {p : Nat} (hlo : e.bytes.lo ≤ p) (hhi : p ≤ e.bytes.hi) :
    e.ptr p = some p := if_pos (h p hlo hhi)

/-- `n` bytes from `p` on belong to the array. -/
def Env.Holds (e : Env) (p n : Nat) : Prop := e.bytes.lo ≤ p ∧ p + n ≤ e.bytes.hi

/-! ## Bytes are exchanged -/

theorem qsexcLoop_spec (hc : e.Closed) (hi : e.Holds ri n) (hj : e.Holds rj n)
    (hd : ri = rj ∨ ri + n ≤ rj ∨ rj + n ≤ ri) :
    ∃ m', e.qsexcLoop n ri rj m = some m' ∧
      ∀ a, m' a = if ri ≤ a ∧ a < ri + n then m (rj + (a - ri))
        else if rj ≤ a ∧ a < rj + n then m (ri + (a - rj)) else m a := by
  induction n generalizing ri rj m with
  | zero =>
    refine ⟨m, rfl, fun a => ?_⟩
    rw [if_neg (by omega), if_neg (by omega)]
  | succ n ih =>
    obtain ⟨hi₁, hi₂⟩ := hi
    obtain ⟨hj₁, hj₂⟩ := hj
    obtain ⟨m', hrun, hval⟩ := ih (show e.Holds (ri + 1) n from ⟨by omega, by omega⟩)
      (show e.Holds (rj + 1) n from ⟨by omega, by omega⟩) (by omega)
      (m := Function.update (Function.update m ri (m rj)) rj (m ri))
    refine ⟨m', ?_, fun a => ?_⟩
    · unfold Env.qsexcLoop
      rw [if_pos ⟨⟨hi₁, by omega⟩, hj₁, by omega⟩, hc.ptr (by omega) (by omega),
        hc.ptr (by omega) (by omega)]
      exact hrun
    · rw [hval]
      simp only [Function.update_apply]
      split_ifs <;> first | omega | exact congrArg m (by omega)

theorem qstexcLoop_spec (hc : e.Closed) (hi : e.Holds ri n) (hj : e.Holds rj n)
    (hk : e.Holds rk n) (hdj : ri + n ≤ rj ∨ rj + n ≤ ri) (hdk : ri + n ≤ rk ∨ rk + n ≤ ri)
    (hd : rj = rk ∨ rj + n ≤ rk ∨ rk + n ≤ rj) :
    ∃ m', e.qstexcLoop n ri rj rk m = some m' ∧
      ∀ a, m' a = if ri ≤ a ∧ a < ri + n then m (rk + (a - ri))
        else if rj ≤ a ∧ a < rj + n then m (ri + (a - rj))
        else if rk ≤ a ∧ a < rk + n then m (rj + (a - rk)) else m a := by
  induction n generalizing ri rj rk m with
  | zero =>
    refine ⟨m, rfl, fun a => ?_⟩
    rw [if_neg (by omega), if_neg (by omega), if_neg (by omega)]
  | succ n ih =>
    obtain ⟨hi₁, hi₂⟩ := hi
    obtain ⟨hj₁, hj₂⟩ := hj
    obtain ⟨hk₁, hk₂⟩ := hk
    obtain ⟨m', hrun, hval⟩ := ih (show e.Holds (ri + 1) n from ⟨by omega, by omega⟩)
      (show e.Holds (rj + 1) n from ⟨by omega, by omega⟩)
      (show e.Holds (rk + 1) n from ⟨by omega, by omega⟩) (by omega) (by omega) (by omega)
      (m := Function.update (Function.update (Function.update m ri (m rk)) rk
        (Function.update m ri (m rk) rj)) rj (m ri))
    refine ⟨m', ?_, fun a => ?_⟩
    · unfold Env.qstexcLoop
      rw [if_pos ⟨⟨hi₁, by omega⟩, ⟨hj₁, by omega⟩, hk₁, by omega⟩, hc.ptr (by omega) (by omega),
        hc.ptr (by omega) (by omega), hc.ptr (by omega) (by omega)]
      exact hrun
    · rw [hval]
      simp only [Function.update_apply]
      split_ifs <;> first | omega | exact congrArg m (by omega)

/-! ## Elements are exchanged -/

/-- The `k`-th element of an array at `base`. -/
def elt (base size : Nat) (m : Mem) (k : Nat) : List UInt8 := window m (base + k * size) size

/-- Elements are apart. -/
theorem apart (base size : Nat) (h : i ≠ j) :
    base + i * size + size ≤ base + j * size ∨ base + j * size + size ≤ base + i * size := by
  rcases Nat.lt_or_gt_of_ne h with h | h
  · have hle := Nat.mul_le_mul_right size h
    rw [Nat.succ_mul] at hle
    omega
  · have hle := Nat.mul_le_mul_right size h
    rw [Nat.succ_mul] at hle
    omega

theorem qsexc_spec (hc : e.Closed) (hi : e.Holds (base + i * e.qses) e.qses)
    (hj : e.Holds (base + j * e.qses) e.qses) (m : Mem) :
    ∃ m', e.qsexc (base + i * e.qses) (base + j * e.qses) m = some m' ∧
      elt base e.qses m' = elt base e.qses m ∘ Equiv.swap i j ∧ ∀ a < base, m' a = m a := by
  have hd : base + i * e.qses = base + j * e.qses ∨
      base + i * e.qses + e.qses ≤ base + j * e.qses ∨
        base + j * e.qses + e.qses ≤ base + i * e.qses := by
    by_cases h : i = j
    · exact .inl (by rw [h])
    · exact .inr (apart base _ h)
  obtain ⟨m', hrun, hval⟩ := qsexcLoop_spec (m := m) hc hi hj hd
  refine ⟨m', hrun, funext fun k => ?_, fun a ha => ?_⟩
  · refine window_congr fun b hb => ?_
    rw [hval, Equiv.swap_apply_def]
    have hki := fun h : k ≠ i => apart base e.qses h
    have hkj := fun h : k ≠ j => apart base e.qses h
    by_cases h₁ : k = i
    · subst h₁
      rw [if_pos (by omega), if_pos rfl]
      exact congrArg m (by omega)
    · have h₁' := hki h₁
      rw [if_neg (by omega), if_neg h₁]
      by_cases h₂ : k = j
      · subst h₂
        rw [if_pos (by omega), if_pos rfl]
        exact congrArg m (by omega)
      · have h₂' := hkj h₂
        rw [if_neg (by omega), if_neg h₂]
  · rw [hval, if_neg (by omega), if_neg (by omega)]

theorem qstexc_spec (hc : e.Closed) (hi : e.Holds (base + i * e.qses) e.qses)
    (hj : e.Holds (base + j * e.qses) e.qses) (hk : e.Holds (base + k * e.qses) e.qses)
    (hij : i ≠ j) (hik : i ≠ k) (m : Mem) :
    ∃ m', e.qstexc (base + i * e.qses) (base + j * e.qses) (base + k * e.qses) m = some m' ∧
      elt base e.qses m' = elt base e.qses m ∘ Equiv.swap i k ∘ Equiv.swap j k ∧
      ∀ a < base, m' a = m a := by
  have hd : base + j * e.qses = base + k * e.qses ∨
      base + j * e.qses + e.qses ≤ base + k * e.qses ∨
        base + k * e.qses + e.qses ≤ base + j * e.qses := by
    by_cases h : j = k
    · exact .inl (by rw [h])
    · exact .inr (apart base _ h)
  obtain ⟨m', hrun, hval⟩ := qstexcLoop_spec (m := m) hc hi hj hk (apart base _ hij)
    (apart base _ hik) hd
  refine ⟨m', hrun, funext fun p => ?_, fun a ha => ?_⟩
  · refine window_congr fun b hb => ?_
    rw [hval]
    by_cases h₁ : p = i
    · subst h₁
      rw [if_pos (by omega), Function.comp_apply, Equiv.swap_apply_of_ne_of_ne hij hik,
        Equiv.swap_apply_left]
      exact congrArg m (by omega)
    · have h₁' := apart base e.qses h₁
      rw [if_neg (by omega)]
      by_cases h₂ : p = j
      · subst h₂
        rw [if_pos (by omega), Function.comp_apply, Equiv.swap_apply_left,
          Equiv.swap_apply_right]
        exact congrArg m (by omega)
      · have h₂' := apart base e.qses h₂
        rw [if_neg (by omega)]
        by_cases h₃ : p = k
        · subst h₃
          rw [if_pos (by omega), Function.comp_apply, Equiv.swap_apply_right,
            Equiv.swap_apply_of_ne_of_ne hij.symm (Ne.symm h₂)]
          exact congrArg m (by omega)
        · have h₃' := apart base e.qses h₃
          rw [if_neg (by omega), Function.comp_apply, Equiv.swap_apply_of_ne_of_ne h₂ h₃,
            Equiv.swap_apply_of_ne_of_ne h₁ h₃]
  · rw [hval, if_neg (by omega), if_neg (by omega), if_neg (by omega)]

end Aix413.Qsort
