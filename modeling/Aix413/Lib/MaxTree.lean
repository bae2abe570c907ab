import Mathlib.Logic.Function.Basic
import Mathlib.Tactic

namespace Aix413.Lib.MaxTree

/-! ## Trees of maxima, level by level

The cells are counted from the root's on, four in a word. The word under cell `b` is word `b + 1`. -/

variable {α : Type*} [LinearOrder α] {t : Nat → α} {b n d i k w x y : Nat} {c m : α}

/-- The largest value in a word. -/
def wordMax (t : Nat → α) (w : Nat) : α :=
  max (max (t (4 * w)) (t (4 * w + 1))) (max (t (4 * w + 2)) (t (4 * w + 3)))

/-- The first `n` cells hold the maxima of the words under them. -/
def IsMaxTree (t : Nat → α) (n : Nat) : Prop := ∀ b < n, t b = wordMax t (b + 1)

/-- The cells in the first `k` levels. -/
def rows : Nat → Nat
  | 0 => 0
  | k + 1 => 4 * rows k + 4

theorem rows_mono (h : i ≤ k) : rows i ≤ rows k := by
  induction h with
  | refl => exact le_rfl
  | step _ ih =>
    rw [rows]
    omega

theorem le_wordMax (t : Nat → α) (w : Nat) {j : Nat} (hj : j < 4) : t (4 * w + j) ≤ wordMax t w := by
  unfold wordMax
  interval_cases j
  · exact le_max_of_le_left (le_max_left _ _)
  · exact le_max_of_le_left (le_max_right _ _)
  · exact le_max_of_le_right (le_max_left _ _)
  · exact le_max_of_le_right (le_max_right _ _)

theorem le_wordMax_iff : c ≤ wordMax t w ↔ ∃ j < 4, c ≤ t (4 * w + j) := by
  constructor
  · intro h
    unfold wordMax at h
    rcases le_max_iff.mp h with h | h <;> rcases le_max_iff.mp h with h | h
    · exact ⟨0, by omega, h⟩
    · exact ⟨1, by omega, h⟩
    · exact ⟨2, by omega, h⟩
    · exact ⟨3, by omega, h⟩
  · rintro ⟨j, hj, h⟩
    exact h.trans (le_wordMax t w hj)

theorem wordMax_update_of_ne (h : x / 4 ≠ w) : wordMax (Function.update t x m) w = wordMax t w := by
  unfold wordMax
  rw [Function.update_of_ne, Function.update_of_ne, Function.update_of_ne, Function.update_of_ne]
  all_goals omega

/-! ## A value changes -/

/-- The new value goes into a cell and the new maxima above it, as long as something changes. -/
def climb : Nat → (Nat → α) → Nat → α → Nat → α
  | 0, t, _, _ => t
  | k + 1, t, x, m =>
    if t x = m then t
    else
      let t := Function.update t x m
      climb k t (x / 4 - 1) (wordMax t (x / 4))

/-- Where only the cell's own value is out of step, the tree is a tree of maxima again. -/
theorem climb_spec (k : Nat) : ∀ {t : Nat → α} {x : Nat} {m : α}, rows k ≤ x → x < rows (k + 1) →
    x < 4 * n + 4 → (∀ b < n, b ≠ x → t b = wordMax t (b + 1)) → (x < n → m = wordMax t (x + 1)) →
    IsMaxTree (climb (k + 1) t x m) n ∧
      ∀ y, n ≤ y → climb (k + 1) t x m y = Function.update t x m y := by
  have hstop : ∀ {t : Nat → α} {x : Nat} {m : α}, t x = m →
      (∀ b < n, b ≠ x → t b = wordMax t (b + 1)) → (x < n → m = wordMax t (x + 1)) →
      IsMaxTree t n ∧ ∀ y, n ≤ y → t y = Function.update t x m y := by
    intro t x m hm hok hself
    refine ⟨fun b hb => ?_, fun y _ => ?_⟩
    · by_cases hbx : b = x
      · subst hbx
        rw [hm, hself hb]
      · exact hok b hb hbx
    · rw [← hm, Function.update_eq_self]
  have hset : ∀ {t : Nat → α} {x : Nat} {m : α}, (∀ b < n, b ≠ x → t b = wordMax t (b + 1)) →
      (x < n → m = wordMax t (x + 1)) → ∀ b < n, b + 1 ≠ x / 4 →
      Function.update t x m b = wordMax (Function.update t x m) (b + 1) := by
    intro t x m hok hself b hb hbp
    rw [wordMax_update_of_ne hbp.symm]
    by_cases hbx : b = x
    · subst hbx
      rw [Function.update_self, hself hb]
    · rw [Function.update_of_ne hbx, hok b hb hbx]
  induction k with
  | zero =>
    intro t x m _ hx _ hok hself
    change x < 4 at hx
    rw [climb]
    split
    · exact hstop ‹_› hok hself
    · exact ⟨fun b hb => hset hok hself b hb (by omega), fun _ _ => rfl⟩
  | succ k ih =>
    intro t x m hlo hx hxn hok hself
    rw [rows] at hlo hx
    rw [climb]
    split
    · exact hstop ‹_› hok hself
    · have hpar : x / 4 - 1 + 1 = x / 4 := by omega
      have hup := ih (t := Function.update t x m) (x := x / 4 - 1)
        (m := wordMax (Function.update t x m) (x / 4)) (by omega) (by omega) (by omega)
        (fun b hb hbp => hset hok hself b hb (by omega)) fun _ => by rw [hpar]
      refine ⟨hup.1, fun y hy => (hup.2 y hy).trans ?_⟩
      exact Function.update_of_ne (by omega) _ _

/-- A leaf gets a value. -/
theorem climb_leaf (ht : IsMaxTree t (rows d)) (hlo : rows d ≤ x) (hx : x < rows (d + 1)) :
    IsMaxTree (climb (d + 1) t x m) (rows d) ∧
      ∀ y, rows d ≤ y → climb (d + 1) t x m y = Function.update t x m y := by
  refine climb_spec d hlo hx ?_ (fun b hb _ => ht b hb) fun hxd => ?_
  · rw [rows] at hx
    omega
  · omega

/-! ## The search for a large value -/

/-- The first leaf under a word with `k` levels between. -/
def firstLeaf : Nat → Nat → Nat
  | 0, w => 4 * w
  | k + 1, w => firstLeaf k (4 * w + 1)

theorem firstLeaf_add (k : Nat) : ∀ w j, firstLeaf k (w + j) = firstLeaf k w + j * 4 ^ (k + 1) := by
  induction k with
  | zero =>
    intro w j
    rw [firstLeaf, firstLeaf]
    omega
  | succ k ih =>
    intro w j
    have hw : 4 * (w + j) + 1 = 4 * w + 1 + 4 * j := by omega
    rw [firstLeaf, firstLeaf, hw, ih, pow_succ 4 (k + 1)]
    ring

/-- The word of cell `j` of a word covers the `j`-th quarter of its leaves. -/
theorem firstLeaf_child (k w j : Nat) :
    firstLeaf k (4 * w + 1 + j) = firstLeaf (k + 1) w + j * 4 ^ (k + 1) := firstLeaf_add k _ j

/-- No leaf under a word is larger than the largest value in it. -/
theorem le_wordMax_of_under (ht : IsMaxTree t (rows d)) (k : Nat) : ∀ {w i : Nat}, i + k = d →
    4 * w + 3 < rows (i + 1) → ∀ x, firstLeaf k w ≤ x → x < firstLeaf k w + 4 ^ (k + 1) →
    t x ≤ wordMax t w := by
  induction k with
  | zero =>
    intro w i _ _ x h1 h2
    rw [firstLeaf] at h1 h2
    obtain ⟨j, rfl⟩ := Nat.exists_eq_add_of_le h1
    exact le_wordMax t w (by omega)
  | succ k ih =>
    intro w i hd hw x h1 h2
    obtain ⟨j, hj, hj1, hj2⟩ : ∃ j < 4, firstLeaf (k + 1) w + j * 4 ^ (k + 1) ≤ x ∧
        x < firstLeaf (k + 1) w + j * 4 ^ (k + 1) + 4 ^ (k + 1) := by
      have hp : 0 < 4 ^ (k + 1) := Nat.pow_pos (by omega)
      have hdm := Nat.div_add_mod (x - firstLeaf (k + 1) w) (4 ^ (k + 1))
      have hml := Nat.mod_lt (x - firstLeaf (k + 1) w) hp
      rw [pow_succ 4 (k + 1)] at h2
      refine ⟨(x - firstLeaf (k + 1) w) / 4 ^ (k + 1), ?_, ?_, ?_⟩
      · exact Nat.div_lt_of_lt_mul (by omega)
      · rw [Nat.mul_comm]
        omega
      · rw [Nat.mul_comm]
        omega
    rw [← firstLeaf_child] at hj1 hj2
    have hrow : 4 * w + j < rows d := by
      have hm := rows_mono (show i + 1 ≤ d by omega)
      omega
    have hcell : t (4 * w + j) = wordMax t (4 * w + 1 + j) := by
      rw [ht _ hrow]
      congr 1
      omega
    refine (ih (i := i + 1) (by omega) ?_ x hj1 hj2).trans ?_
    · rw [rows]
      omega
    · rw [← hcell]
      exact le_wordMax t w hj

/-- The first cell of a word with a value that is large enough. -/
def firstIn (t : Nat → α) (c : α) (w : Nat) : Option Nat :=
  (List.range 4).find? fun j => c ≤ t (4 * w + j)

theorem firstIn_some (h : firstIn t c w = some i) :
    i < 4 ∧ c ≤ t (4 * w + i) ∧ ∀ j < i, t (4 * w + j) < c := by
  obtain ⟨h1, h2, h3⟩ := List.find?_range_eq_some.mp h
  refine ⟨List.mem_range.mp h2, of_decide_eq_true h1, fun j hj => ?_⟩
  have hn := h3 j hj
  simpa using hn

theorem firstIn_none : firstIn t c w = none ↔ wordMax t w < c := by
  rw [← not_le, le_wordMax_iff, firstIn, List.find?_eq_none]
  simp

/-- The descent along the first cells that are large enough, to a leaf. -/
def descend (t : Nat → α) (c : α) : Nat → Nat → Option Nat
  | 0, w => (firstIn t c w).map fun j => 4 * w + j
  | k + 1, w => (firstIn t c w).bind fun j => descend t c k (4 * w + 1 + j)

/-- The descent ends at the first leaf that is large enough. -/
theorem descend_spec (ht : IsMaxTree t (rows d)) (k : Nat) : ∀ {w i : Nat}, i + k = d →
    4 * w + 3 < rows (i + 1) → c ≤ wordMax t w → ∃ x, descend t c k w = some x ∧
      firstLeaf k w ≤ x ∧ x < firstLeaf k w + 4 ^ (k + 1) ∧ c ≤ t x ∧
      ∀ y, firstLeaf k w ≤ y → y < x → t y < c := by
  induction k with
  | zero =>
    intro w i _ _ hc
    cases hf : firstIn t c w with
    | none => exact absurd hc (not_le.mpr (firstIn_none.mp hf))
    | some j =>
      obtain ⟨hj, hcj, hbef⟩ := firstIn_some hf
      refine ⟨4 * w + j, by rw [descend, hf]; rfl, ?_, ?_, hcj, fun y h1 h2 => ?_⟩
      · rw [firstLeaf]
        omega
      · rw [firstLeaf]
        omega
      · rw [firstLeaf] at h1
        obtain ⟨j', rfl⟩ := Nat.exists_eq_add_of_le h1
        exact hbef j' (by omega)
  | succ k ih =>
    intro w i hd hw hc
    cases hf : firstIn t c w with
    | none => exact absurd hc (not_le.mpr (firstIn_none.mp hf))
    | some j =>
      obtain ⟨hj, hcj, hbef⟩ := firstIn_some hf
      have hcell : ∀ j < 4, t (4 * w + j) = wordMax t (4 * w + 1 + j) := by
        intro j hj
        have hm := rows_mono (show i + 1 ≤ d by omega)
        rw [ht _ (by omega)]
        congr 1
        omega
      have hrow : ∀ j < 4, 4 * (4 * w + 1 + j) + 3 < rows (i + 1 + 1) := by
        intro j hj
        rw [rows]
        omega
      rw [hcell j hj] at hcj
      obtain ⟨x, hx, h1, h2, h3, h4⟩ := ih (i := i + 1) (by omega) (hrow j hj) hcj
      rw [firstLeaf_child] at h1 h2 h4
      have hp : j * 4 ^ (k + 1) + 4 ^ (k + 1) ≤ 4 ^ (k + 1 + 1) := by
        rw [pow_succ 4 (k + 1), ← Nat.succ_mul, Nat.mul_comm]
        exact Nat.mul_le_mul_left _ hj
      refine ⟨x, by rw [descend, hf]; exact hx, by omega, by omega, h3, fun y hy1 hy2 => ?_⟩
      by_cases hy : firstLeaf (k + 1) w + j * 4 ^ (k + 1) ≤ y
      · exact h4 y hy hy2
      · -- a leaf under an earlier cell of the word
        have hpos : 0 < 4 ^ (k + 1) := Nat.pow_pos (by omega)
        have hdm := Nat.div_add_mod (y - firstLeaf (k + 1) w) (4 ^ (k + 1))
        have hml := Nat.mod_lt (y - firstLeaf (k + 1) w) hpos
        have hq : (y - firstLeaf (k + 1) w) / 4 ^ (k + 1) < j :=
          Nat.div_lt_of_lt_mul (by rw [Nat.mul_comm]; omega)
        rw [Nat.mul_comm] at hdm
        refine lt_of_le_of_lt ?_ (hbef _ hq)
        rw [hcell _ (by omega)]
        refine le_wordMax_of_under ht k (i := i + 1) (by omega) (hrow _ (by omega)) y ?_ ?_
        · rw [firstLeaf_child]
          omega
        · rw [firstLeaf_child]
          omega

end Aix413.Lib.MaxTree
