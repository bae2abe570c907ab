import Mathlib.Tactic

namespace Aix413.Lib.Circle

/-- Steps forward from place `c` to place `j` on a circle of `n` places. -/
def ahead (n c j : Nat) : Nat := if c ≤ j then j - c else j + n - c

def next (n c : Nat) : Nat := (c + 1) % n

/-- Steps forward from `c` until `s` is come to, a whole lap when `s` is `c`. -/
def lap (n c s : Nat) : Nat := ahead n (next n c) s + 1

variable {n c j s : Nat}

theorem next_lt (hc : c < n) : next n c < n := Nat.mod_lt _ (by omega)

theorem next_cases (hc : c < n) : (c + 1 < n ∧ next n c = c + 1) ∨ (c + 1 = n ∧ next n c = 0) := by
  unfold next
  rcases Nat.lt_or_ge (c + 1) n with h | h
  · exact .inl ⟨h, Nat.mod_eq_of_lt h⟩
  · have heq : c + 1 = n := by omega
    exact .inr ⟨heq, by rw [heq, Nat.mod_self]⟩

theorem ahead_lt (hc : c < n) (hj : j < n) : ahead n c j < n := by
  unfold ahead
  split <;> omega

@[simp] theorem ahead_self (n c : Nat) : ahead n c c = 0 := by simp [ahead]

theorem ahead_eq_zero (hc : c < n) : ahead n c j = 0 ↔ j = c := by
  unfold ahead
  split <;> omega

/-- One step takes every other place one nearer. -/
theorem ahead_next (hc : c < n) (hj : j < n) (hne : j ≠ c) :
    ahead n c j = ahead n (next n c) j + 1 := by
  unfold ahead
  rcases next_cases hc with ⟨h, he⟩ | ⟨h, he⟩ <;> rw [he] <;> split <;> split <;> omega

/-- And one step takes it one further from every other place. -/
theorem ahead_to_next (hc : c < n) (hj : j < n) (hne : j ≠ next n c) :
    ahead n j (next n c) = ahead n j c + 1 := by
  unfold ahead
  rcases next_cases hc with ⟨h, he⟩ | ⟨h, he⟩ <;> rw [he] at hne ⊢ <;> split <;> split <;> omega

theorem ahead_next_self (hc : c < n) : ahead n (next n c) c + 1 = n := by
  unfold ahead
  rcases next_cases hc with ⟨h, he⟩ | ⟨h, he⟩ <;> rw [he] <;> split <;> omega

theorem lap_self (hc : c < n) : lap n c c = n := ahead_next_self hc

theorem lap_of_ne (hc : c < n) (hs : s < n) (hne : s ≠ c) : lap n c s = ahead n c s :=
  (ahead_next hc hs hne).symm

theorem lap_pos (n c s : Nat) : 0 < lap n c s := Nat.succ_pos _

theorem lap_le (hc : c < n) (hs : s < n) : lap n c s ≤ n := ahead_lt (next_lt hc) hs

theorem lap_eq_one (hc : c < n) : lap n c s = 1 ↔ s = next n c := by
  unfold lap
  rw [Nat.add_eq_right, ahead_eq_zero (next_lt hc)]

/-- One step, when it does not come to `s`. -/
theorem lap_next (hc : c < n) (hs : s < n) (hne : s ≠ next n c) :
    lap n c s = lap n (next n c) s + 1 := by
  unfold lap
  rw [ahead_next (next_lt hc) hs hne]

end Aix413.Lib.Circle
