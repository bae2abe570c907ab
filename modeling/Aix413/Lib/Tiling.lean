import Mathlib.Tactic

namespace Aix413.Lib.Tiling

variable {α : Type} {start len : α → Nat} {a b c x : Nat} {l l' : List α}

/-- The pieces follow each other from `a` to `b`. -/
def Tiles (start len : α → Nat) : Nat → Nat → List α → Prop
  | a, b, [] => a = b
  | a, b, p :: l => start p = a ∧ Tiles start len (a + len p) b l

theorem Tiles.le (h : Tiles start len a b l) : a ≤ b := by
  induction l generalizing a with
  | nil => exact Nat.le_of_eq h
  | cons p l ih => exact Nat.le_trans (Nat.le_add_right a (len p)) (ih h.2)

theorem Tiles.append (h : Tiles start len a b l) (h' : Tiles start len b c l') :
    Tiles start len a c (l ++ l') := by
  induction l generalizing a with
  | nil =>
    obtain rfl : a = b := h
    exact h'
  | cons p l ih => exact ⟨h.1, ih h.2⟩

theorem Tiles.split (h : Tiles start len a c (l ++ l')) :
    ∃ b, Tiles start len a b l ∧ Tiles start len b c l' := by
  induction l generalizing a with
  | nil => exact ⟨a, rfl, h⟩
  | cons p l ih =>
    obtain ⟨b, h1, h2⟩ := ih h.2
    exact ⟨b, ⟨h.1, h1⟩, h2⟩

/-- The lengths add up. -/
theorem Tiles.sum (h : Tiles start len a b l) : a + (l.map len).sum = b := by
  induction l generalizing a with
  | nil => exact h
  | cons p l ih =>
    rw [List.map_cons, List.sum_cons, ← Nat.add_assoc]
    exact ih h.2

theorem Tiles.start_le (h : Tiles start len a b l) {p : α} (hp : p ∈ l) :
    a ≤ start p ∧ start p + len p ≤ b := by
  induction l generalizing a with
  | nil => cases hp
  | cons q l ih =>
    rcases List.mem_cons.mp hp with rfl | hp
    · rw [h.1]
      exact ⟨Nat.le_refl a, h.2.le⟩
    · have := ih h.2 hp
      omega

/-- The pieces are in order and do not overlap. -/
theorem Tiles.pairwise (h : Tiles start len a b l) :
    l.Pairwise fun p q => start p + len p ≤ start q := by
  induction l generalizing a with
  | nil => exact .nil
  | cons p l ih =>
    refine .cons (fun q hq => ?_) (ih h.2)
    rw [h.1]
    exact (h.2.start_le hq).1

/-- The pieces cover what is between the ends. -/
theorem Tiles.covers (h : Tiles start len a b l) (h1 : a ≤ x) (h2 : x < b) :
    ∃ p ∈ l, start p ≤ x ∧ x < start p + len p := by
  induction l generalizing a with
  | nil =>
    obtain rfl : a = b := h
    omega
  | cons p l ih =>
    by_cases hx : x < a + len p
    · exact ⟨p, List.mem_cons_self, by rw [h.1]; exact h1, by rw [h.1]; exact hx⟩
    · obtain ⟨q, hq, hcov⟩ := ih h.2 (Nat.not_lt.mp hx)
      exact ⟨q, List.mem_cons_of_mem p hq, hcov⟩


/-- Different pieces do not overlap. -/
theorem Tiles.apart (h : Tiles start len a b l) {p q : α} (hp : p ∈ l) (hq : q ∈ l) (hne : p ≠ q) :
    start p + len p ≤ start q ∨ start q + len q ≤ start p := by
  induction l generalizing a with
  | nil => exact nomatch hp
  | cons r l ih =>
    obtain ⟨hr, ht⟩ := h
    rcases List.mem_cons.mp hp with rfl | hp' <;> rcases List.mem_cons.mp hq with rfl | hq'
    · exact absurd rfl hne
    · exact .inl (hr ▸ (ht.start_le hq').1)
    · exact .inr (hr ▸ (ht.start_le hp').1)
    · exact ih ht hp' hq'

theorem tiles_map {β : Type} {f : β → α} {l : List β} :
    Tiles start len a b (l.map f) ↔ Tiles (start ∘ f) (len ∘ f) a b l := by
  induction l generalizing a with
  | nil => exact Iff.rfl
  | cons p l ih => exact and_congr Iff.rfl ih

end Aix413.Lib.Tiling
