import Aix413.Dmap.Vmdmap

namespace Aix413.Dmap

variable {map map' : Nat → Word} {w x y : Word} {word rem n a i k : Nat}

/-! ## Bits of a map -/

/-- Bit `i` of a map is a one where the fragment is allocated. -/
def pbit (map : Nat → Word) (i : Nat) : Bool := (map (i / 32)).getMsbD (i % 32)

theorem word_ext (h : ∀ k < 32, x.getMsbD k = y.getMsbD k) : x = y :=
  BitVec.eq_of_getMsbD_eq fun k hk => h k hk

theorem pbit_word (map : Nat → Word) (word : Nat) (hk : k < 32) :
    pbit map (32 * word + k) = (map word).getMsbD k := by
  have h1 : (32 * word + k) / 32 = word := by omega
  have h2 : (32 * word + k) % 32 = k := by omega
  rw [pbit, h1, h2]

/-- A word is told by its bits. -/
theorem word_congr (h : ∀ i, 32 * word ≤ i → i < 32 * word + 32 → pbit map' i = pbit map i) :
    map' word = map word := by
  refine word_ext fun k hk => ?_
  rw [← pbit_word map' word hk, ← pbit_word map word hk]
  exact h _ (by omega) (by omega)

theorem zero_bit (k : Nat) : (0 : Word).getMsbD k = false := BitVec.getMsbD_zero

theorem pbit_update (map : Nat → Word) (word : Nat) (w : Word) (i : Nat) :
    pbit (Function.update map word w) i = if i / 32 = word then w.getMsbD (i % 32) else pbit map i := by
  unfold pbit
  by_cases h : i / 32 = word
  · rw [h, Function.update_self, if_pos rfl]
  · rw [Function.update_of_ne h, if_neg h]

/-! ## Masks -/

theorem bitmask_bit (hn : n ≤ 32) (hk : k < 32) : (bitmask n).getMsbD k = decide (k < n) := by
  have hamount : (((32 : Int) - n) % 64).toNat = 32 - n := by omega
  rw [bitmask, slw, hamount, BitVec.getMsbD_shiftLeft, ones, BitVec.getMsbD_allOnes, decide_eq_decide]
  omega

theorem mask₁_bit (hn : n ≤ 32) (hk : k < 32) :
    (mask₁ rem n).getMsbD k = decide (rem ≤ k ∧ k < rem + n) := by
  unfold mask₁
  split
  · rw [zero_bit]
    symm
    exact decide_eq_false (by omega)
  · rw [BitVec.getMsbD_ushiftRight]
    by_cases hlt : k < rem
    · rw [decide_eq_true hlt, decide_eq_false (p := rem ≤ k ∧ k < rem + n) (by omega)]
      simp
    · rw [bitmask_bit hn (by omega), decide_eq_true hk, decide_eq_false hlt]
      simp only [Bool.not_false, Bool.true_and, decide_eq_decide]
      omega

theorem mask₂_bit (hn : n ≤ 32) (hk : k < 32) :
    (mask₂ rem n).getMsbD k = decide (rem ≤ 32 + k ∧ 32 + k < rem + n) := by
  unfold mask₂
  split
  · rw [BitVec.getMsbD_ushiftRight]
    by_cases hlt : k < rem - 32
    · rw [decide_eq_true hlt, decide_eq_false (p := rem ≤ 32 + k ∧ 32 + k < rem + n) (by omega)]
      simp
    · rw [bitmask_bit hn (by omega), decide_eq_true hk, decide_eq_false hlt]
      simp only [Bool.not_false, Bool.true_and, decide_eq_decide]
      omega
  · split
    · rw [BitVec.getMsbD_shiftLeft]
      by_cases hin : k + (32 - rem) < 32
      · rw [bitmask_bit hn hin, decide_eq_decide]
        omega
      · rw [BitVec.getMsbD_of_ge _ _ (by omega)]
        symm
        exact decide_eq_false (by omega)
    · rw [zero_bit]
      symm
      exact decide_eq_false (by omega)

theorem and_eq_zero_iff : x &&& y = 0 ↔ ∀ k < 32, y.getMsbD k = true → x.getMsbD k = false := by
  constructor
  · intro h k _ hy
    have hb := congrArg (fun w : Word => w.getMsbD k) h
    simpa [hy] using hb
  · intro h
    refine word_ext fun k hk => ?_
    have hk' := h k hk
    rw [BitVec.getMsbD_and, zero_bit]
    cases hy : y.getMsbD k with
    | false => exact Bool.and_false _
    | true => rw [hk' hy, Bool.false_and]

theorem and_eq_mask_iff : x &&& y = y ↔ ∀ k < 32, y.getMsbD k = true → x.getMsbD k = true := by
  constructor
  · intro h k _ hy
    have hb := congrArg (fun w : Word => w.getMsbD k) h
    simpa [hy] using hb
  · intro h
    refine word_ext fun k hk => ?_
    have hk' := h k hk
    rw [BitVec.getMsbD_and]
    cases hy : y.getMsbD k with
    | false => exact Bool.and_false _
    | true => rw [hk' hy, Bool.true_and]

/-- What holds of the bits under both masks holds of the fragments. -/
theorem masks_iff (hn : n ≤ 32) (hrem : rem + n ≤ 64) (b : Bool) :
    ((∀ k < 32, (mask₁ rem n).getMsbD k = true → (map word).getMsbD k = b) ∧
      ∀ k < 32, (mask₂ rem n).getMsbD k = true → (map (word + 1)).getMsbD k = b) ↔
    ∀ i, 32 * word + rem ≤ i → i < 32 * word + rem + n → pbit map i = b := by
  constructor
  · rintro ⟨h1, h2⟩ i hi1 hi2
    obtain ⟨k, rfl⟩ := Nat.exists_eq_add_of_le (show 32 * word ≤ i by omega)
    by_cases hk : k < 32
    · rw [pbit_word map word hk]
      exact h1 k hk (by rw [mask₁_bit hn hk]; exact decide_eq_true (by omega))
    · obtain ⟨j, rfl⟩ := Nat.exists_eq_add_of_le (show 32 ≤ k by omega)
      have hj : j < 32 := by omega
      rw [show 32 * word + (32 + j) = 32 * (word + 1) + j by omega, pbit_word map _ hj]
      exact h2 j hj (by rw [mask₂_bit hn hj]; exact decide_eq_true (by omega))
  · intro h
    refine ⟨fun k hk hm => ?_, fun k hk hm => ?_⟩
    · rw [mask₁_bit hn hk] at hm
      have hm := of_decide_eq_true hm
      rw [← pbit_word map word hk]
      exact h _ (by omega) (by omega)
    · rw [mask₂_bit hn hk] at hm
      have hm := of_decide_eq_true hm
      rw [← pbit_word map _ hk]
      exact h _ (by omega) (by omega)

theorem busy_eq_false (hn : n ≤ 32) (hrem : rem + n ≤ 64) : busy map word rem n = false ↔
    ∀ i, 32 * word + rem ≤ i → i < 32 * word + rem + n → pbit map i = false := by
  rw [← masks_iff hn hrem, ← and_eq_zero_iff, ← and_eq_zero_iff]
  simp [busy]

theorem taken_eq_true (hn : n ≤ 32) (hrem : rem + n ≤ 64) : taken map word rem n = true ↔
    ∀ i, 32 * word + rem ≤ i → i < 32 * word + rem + n → pbit map i = true := by
  rw [← masks_iff hn hrem, ← and_eq_mask_iff, ← and_eq_mask_iff]
  simp [taken]

/-- The words of a map after a change to a double word. -/
theorem pbit_two (map : Nat → Word) (word : Nat) (w₁ w₂ : Word) (i : Nat) :
    pbit (Function.update (Function.update map word w₁) (word + 1) w₂) i =
      if i / 32 = word + 1 then w₂.getMsbD (i % 32)
      else if i / 32 = word then w₁.getMsbD (i % 32) else pbit map i := by
  rw [pbit_update, pbit_update]

theorem setBits_bit (hn : n ≤ 32) (hrem : rem + n ≤ 64) (i : Nat) : pbit (setBits map word rem n) i =
    (pbit map i || decide (32 * word + rem ≤ i ∧ i < 32 * word + rem + n)) := by
  have hmod : i % 32 < 32 := Nat.mod_lt _ (by omega)
  rw [setBits, pbit_two, Function.update_of_ne (by omega)]
  split
  · rename_i h
    rw [BitVec.getMsbD_or, mask₂_bit hn hmod, pbit, h]
    congr 1
    rw [decide_eq_decide]
    omega
  · split
    · rename_i h
      rw [BitVec.getMsbD_or, mask₁_bit hn hmod, pbit, h]
      congr 1
      rw [decide_eq_decide]
      omega
    · rw [decide_eq_false (by omega), Bool.or_false]

theorem clearBits_bit (hn : n ≤ 32) (hrem : rem + n ≤ 64) (i : Nat) : pbit (clearBits map word rem n) i =
    (pbit map i && !decide (32 * word + rem ≤ i ∧ i < 32 * word + rem + n)) := by
  have hmod : i % 32 < 32 := Nat.mod_lt _ (by omega)
  rw [clearBits, pbit_two, Function.update_of_ne (by omega)]
  split
  · rename_i h
    rw [BitVec.getMsbD_and, BitVec.getMsbD_not, decide_eq_true hmod, mask₂_bit hn hmod, pbit, h,
      Bool.true_and]
    congr 2
    rw [decide_eq_decide]
    omega
  · split
    · rename_i h
      rw [BitVec.getMsbD_and, BitVec.getMsbD_not, decide_eq_true hmod, mask₁_bit hn hmod, pbit, h,
        Bool.true_and]
      congr 2
      rw [decide_eq_decide]
      omega
    · rw [decide_eq_false (by omega), Bool.not_false, Bool.and_true]

/-! ## Maps before and after -/

/-- The fragments from `a` on are free in the first map and allocated in the second one, which is
otherwise the same. -/
structure Takes (map map' : Nat → Word) (a n : Nat) : Prop where
  bits : ∀ i, pbit map' i = (pbit map i || decide (a ≤ i ∧ i < a + n))
  free : ∀ i, a ≤ i → i < a + n → pbit map i = false

theorem Takes.far (h : Takes map map' a n) (hi : i < a ∨ a + n ≤ i) : pbit map' i = pbit map i := by
  rw [h.bits, decide_eq_false (by omega), Bool.or_false]

theorem Takes.same_word (h : Takes map map' a n) (hw : 32 * k + 32 ≤ a ∨ a + n ≤ 32 * k) :
    map' k = map k := word_congr fun i _ _ => h.far (by omega)

theorem takes_setBits (word : Nat) (hn : n ≤ 32) (hrem : rem + n ≤ 64) (h : busy map word rem n = false) :
    Takes map (setBits map word rem n) (32 * word + rem) n :=
  ⟨setBits_bit hn hrem, (busy_eq_false hn hrem).mp h⟩

theorem takes_clearBits (hn : n ≤ 32) (hrem : rem + n ≤ 64) (h : taken map word rem n = true) :
    Takes (clearBits map word rem n) map (32 * word + rem) n := by
  have hall := (taken_eq_true hn hrem).mp h
  refine ⟨fun i => ?_, fun i h1 h2 => ?_⟩
  · rw [clearBits_bit hn hrem]
    by_cases hin : 32 * word + rem ≤ i ∧ i < 32 * word + rem + n
    · rw [hall i hin.1 hin.2, decide_eq_true hin]
      rfl
    · rw [decide_eq_false hin, Bool.not_false, Bool.and_true, Bool.or_false]
  · rw [clearBits_bit hn hrem, decide_eq_true ⟨h1, h2⟩, Bool.not_true, Bool.and_false]

end Aix413.Dmap
