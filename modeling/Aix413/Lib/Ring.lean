import Mathlib.Data.Nat.ModEq
import Mathlib.Tactic

namespace Aix413.Lib.Ring

/-- The slot of the `k`-th use of a cyclic store with slots `base` to
`base + n - 1`, when use 0 has slot `base + c % n`. -/
def slot (base n c k : Nat) : Nat := base + (c + k) % n

variable {base n c : Nat}

theorem slot_ge (base n c k : Nat) : base ≤ slot base n c k := by
  unfold slot
  omega

theorem slot_lt (base c : Nat) (hn : 0 < n) (k : Nat) : slot base n c k < base + n := by
  have h := Nat.mod_lt (c + k) hn
  unfold slot
  omega

theorem slot_succ (hn : 0 < n) (k : Nat) :
    slot base n c (k + 1) =
      if slot base n c k = base + n - 1 then base else slot base n c k + 1 := by
  have h := Nat.mod_lt (c + k) hn
  unfold slot
  rw [← Nat.add_assoc, Nat.add_mod]
  split
  next he =>
    have hm : (c + k) % n = n - 1 := by omega
    rw [hm]
    by_cases h1 : n = 1
    · subst h1
      rfl
    · rw [Nat.mod_eq_of_lt (by omega : 1 < n), Nat.sub_add_cancel (by omega), Nat.mod_self]
      rfl
  next he =>
    have hlt : (c + k) % n + 1 < n := by omega
    rw [Nat.mod_eq_of_lt (by omega : 1 < n), Nat.mod_eq_of_lt hlt]
    omega

theorem slot_pred (hn : 0 < n) (k : Nat) :
    slot base n c k =
      if slot base n c (k + 1) = base then base + n - 1 else slot base n c (k + 1) - 1 := by
  have h1 := slot_lt base c hn k
  have h2 := slot_ge base n c k
  rw [slot_succ hn]
  split
  · simp only [if_true]
    assumption
  · rw [if_neg (by omega)]
    omega

/-- Fewer than `n` uses apart two uses have different slots. -/
theorem slot_inj {k k' : Nat} (hk : k ≤ k') (hk' : k' < k + n)
    (h : slot base n c k = slot base n c k') : k = k' := by
  have hm : (c + k) % n = (c + k') % n := by
    unfold slot at h
    omega
  have hd : n ∣ (c + k') - (c + k) := (Nat.modEq_iff_dvd' (by omega)).mp hm
  have hz : (c + k') - (c + k) = 0 := Nat.eq_zero_of_dvd_of_lt hd (by omega)
  omega

theorem slot_of_mem {p k : Nat} (hp : base ≤ p) (hp' : p < base + n) (hk : n ∣ k) :
    slot base n (p - base) k = p := by
  obtain ⟨q, rfl⟩ := hk
  unfold slot
  rw [Nat.add_mul_mod_self_left, Nat.mod_eq_of_lt (by omega)]
  omega

end Aix413.Lib.Ring
