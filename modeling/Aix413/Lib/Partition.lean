import Mathlib.Tactic
import Mathlib.Logic.Equiv.Basic

namespace Aix413.Lib.Partition

/-! ## Comparison functions -/

variable {α : Type*}

/-- A comparison function as for sorting and searching: negative, zero or positive as the first
argument is less than, equal to or greater than the second. -/
structure TotalPreorder (cmp : α → α → Int) : Prop where
  swap : ∀ x y, cmp x y < 0 ↔ 0 < cmp y x
  trans : ∀ {x y z}, cmp x y ≤ 0 → cmp y z ≤ 0 → cmp x z ≤ 0

variable {cmp : α → α → Int} {x y z v : α}

theorem TotalPreorder.self (h : TotalPreorder cmp) (x : α) : cmp x x = 0 := by
  have hs := h.swap x x
  omega

theorem TotalPreorder.le_iff (h : TotalPreorder cmp) : cmp x y ≤ 0 ↔ 0 ≤ cmp y x := by
  have hs := h.swap y x
  omega

theorem TotalPreorder.zero_iff (h : TotalPreorder cmp) : cmp x y = 0 ↔ cmp y x = 0 := by
  have hs := h.swap x y
  have hs' := h.swap y x
  omega

theorem TotalPreorder.lt_of_le_of_lt (h : TotalPreorder cmp) (hxy : cmp x y ≤ 0)
    (hyz : cmp y z < 0) : cmp x z < 0 := by
  by_contra hn
  have hzx : cmp z x ≤ 0 := h.le_iff.mpr (by omega)
  have hzy := h.le_iff.mp (h.trans hzx hxy)
  omega

theorem TotalPreorder.lt_of_lt_of_le (h : TotalPreorder cmp) (hxy : cmp x y < 0)
    (hyz : cmp y z ≤ 0) : cmp x z < 0 := by
  by_contra hn
  have hzx : cmp z x ≤ 0 := h.le_iff.mpr (by omega)
  have hyx := h.le_iff.mp (h.trans hyz hzx)
  omega

/-- An argument may be replaced by one that is equal to it. -/
theorem TotalPreorder.congr (h : TotalPreorder cmp) (hyv : cmp y v = 0) :
    (cmp x y < 0 ↔ cmp x v < 0) ∧ (cmp x y = 0 ↔ cmp x v = 0) ∧ (0 < cmp x y ↔ 0 < cmp x v) := by
  have hvy := h.zero_iff.mp hyv
  have h₁ : cmp x y < 0 ↔ cmp x v < 0 :=
    ⟨fun hx => h.lt_of_lt_of_le hx hyv.le, fun hx => h.lt_of_lt_of_le hx hvy.le⟩
  have h₂ : cmp x y ≤ 0 ↔ cmp x v ≤ 0 :=
    ⟨fun hx => h.trans hx hyv.le, fun hx => h.trans hx hvy.le⟩
  omega

/-! ## Exchanges -/

variable {a l i j k a' l' lp hp : Nat} {e e' e'' : Nat → α}

/-- The elements from `a` on, below `l`, are in another order. -/
def Shuffled (a l : Nat) (e e' : Nat → α) : Prop :=
  ∃ σ : Equiv.Perm Nat, (∀ k, k < a ∨ l ≤ k → σ k = k) ∧ e' = e ∘ σ

theorem Shuffled.refl (a l : Nat) (e : Nat → α) : Shuffled a l e e := ⟨1, fun _ _ => rfl, rfl⟩

theorem Shuffled.trans (h : Shuffled a l e e') (h' : Shuffled a l e' e'') : Shuffled a l e e'' := by
  obtain ⟨σ, hσ, rfl⟩ := h
  obtain ⟨τ, hτ, rfl⟩ := h'
  refine ⟨τ.trans σ, fun k hk => ?_, rfl⟩
  rw [Equiv.trans_apply, hτ k hk, hσ k hk]

theorem Shuffled.mono (h : Shuffled a l e e') (ha : a' ≤ a) (hl : l ≤ l') :
    Shuffled a' l' e e' := by
  obtain ⟨σ, hσ, he⟩ := h
  exact ⟨σ, fun k hk => hσ k (by omega), he⟩

theorem shuffled_swap (e : Nat → α) (hi : a ≤ i ∧ i < l) (hj : a ≤ j ∧ j < l) :
    Shuffled a l e (e ∘ Equiv.swap i j) :=
  ⟨Equiv.swap i j, fun _ _ => Equiv.swap_apply_of_ne_of_ne (by omega) (by omega), rfl⟩

theorem Shuffled.out (h : Shuffled a l e e') (hk : k < a ∨ l ≤ k) : e' k = e k := by
  obtain ⟨σ, hσ, rfl⟩ := h
  exact congrArg e (hσ k hk)

/-- What holds of all elements holds of all in the other order. -/
theorem Shuffled.all {P : α → Prop} (h : Shuffled a l e e')
    (hp : ∀ k, a ≤ k → k < l → P (e k)) (k : Nat) (ha : a ≤ k) (hl : k < l) : P (e' k) := by
  obtain ⟨σ, hσ, rfl⟩ := h
  have hin : a ≤ σ k ∧ σ k < l := by
    by_contra hout
    have hfix : σ (σ k) = σ k := hσ _ (by omega)
    rw [σ.injective hfix] at hout
    omega
  exact hp _ hin.1 hin.2

theorem Shuffled.perm {n : Nat} (h : Shuffled 0 n e e') :
    ((List.range n).map e').Perm ((List.range n).map e) := by
  have hin := h.all (P := fun x => ∃ k < n, e k = x) fun k _ hk => ⟨k, hk, rfl⟩
  obtain ⟨σ, hσ, rfl⟩ := h
  have hmem : ∀ k < n, σ k < n := fun k hk => by
    by_contra hout
    have hfix : σ (σ k) = σ k := hσ _ (by omega)
    rw [σ.injective hfix] at hout
    omega
  have hsub : ((List.range n).map σ).Subperm (List.range n) := by
    refine List.subperm_of_subset (List.nodup_range.map σ.injective) fun k hk => ?_
    obtain ⟨k', hk', rfl⟩ := List.mem_map.mp hk
    exact List.mem_range.mpr (hmem k' (List.mem_range.mp hk'))
  have hperm := hsub.perm_of_length_le (by simp)
  rw [← List.map_map]
  exact hperm.map e

/-! ## Three-way partition -/

def SortedOn (cmp : α → α → Int) (a l : Nat) (e : Nat → α) : Prop :=
  ∀ p q, a ≤ p → p ≤ q → q < l → cmp (e p) (e q) ≤ 0

/-- The elements below `i` are less than `v`, those above `j` greater, and those from `lp` to `hp`
equal to it. -/
structure Parted (cmp : α → α → Int) (v : α) (a l i lp hp j : Nat) (e : Nat → α) : Prop where
  a_le : a ≤ i
  i_le : i ≤ lp
  lp_le : lp ≤ hp
  hp_le : hp ≤ j
  j_lt : j < l
  below : ∀ k, a ≤ k → k < i → cmp (e k) v < 0
  equal : ∀ k, lp ≤ k → k ≤ hp → cmp (e k) v = 0
  above : ∀ k, j < k → k < l → 0 < cmp (e k) v

theorem sorted_short (cmp : α → α → Int) (h : TotalPreorder cmp) (hl : l ≤ a + 1) :
    SortedOn cmp a l e := by
  intro p q hp hpq hq
  obtain rfl : p = q := by omega
  exact (h.self _).le

/-- The parts of a partition are sorted one by one. -/
theorem Parted.sorted (h : TotalPreorder cmp) (hpart : Parted cmp v a l lp lp hp hp e)
    (hlo : SortedOn cmp a lp e) (hhi : SortedOn cmp (hp + 1) l e) : SortedOn cmp a l e := by
  intro p q hap hpq hql
  have hcase : ∀ k, a ≤ k → k < l →
      (k < lp ∧ cmp (e k) v < 0) ∨ ((lp ≤ k ∧ k ≤ hp) ∧ cmp (e k) v = 0) ∨
        (hp < k ∧ 0 < cmp (e k) v) := by
    intro k hak hkl
    by_cases h₁ : k < lp
    · exact .inl ⟨h₁, hpart.below k hak h₁⟩
    · by_cases h₂ : k ≤ hp
      · exact .inr (.inl ⟨⟨by omega, h₂⟩, hpart.equal k (by omega) h₂⟩)
      · exact .inr (.inr ⟨by omega, hpart.above k (by omega) hkl⟩)
  rcases hcase p hap (by omega) with ⟨hp₁, hpv⟩ | ⟨hp₁, hpv⟩ | ⟨hp₁, hpv⟩
  · rcases hcase q (by omega) hql with ⟨hq₁, hqv⟩ | ⟨hq₁, hqv⟩ | ⟨hq₁, hqv⟩
    · exact hlo p q hap hpq hq₁
    · exact h.trans hpv.le (h.zero_iff.mp hqv).le
    · exact h.trans hpv.le ((h.swap _ _).mpr hqv).le
  · have hvq : cmp v (e q) ≤ 0 := by
      rcases hcase q (by omega) hql with ⟨hq₁, hqv⟩ | ⟨hq₁, hqv⟩ | ⟨hq₁, hqv⟩
      · omega
      · exact (h.zero_iff.mp hqv).le
      · exact ((h.swap _ _).mpr hqv).le
    exact h.trans hpv.le hvq
  · exact hhi p q hp₁ hpq hql

theorem SortedOn.congr (h : SortedOn cmp a l e) (he : ∀ k, a ≤ k → k < l → e' k = e k) :
    SortedOn cmp a l e' := by
  intro p q hp hpq hq
  rw [he p hp (by omega), he q (by omega) hq]
  exact h p q hp hpq hq

/-- A partition stays one while its left part is sorted. -/
theorem Parted.shuffle_left (hpart : Parted cmp v a l lp lp hp hp e) (h : Shuffled a lp e e') :
    Parted cmp v a l lp lp hp hp e' where
  a_le := hpart.a_le
  i_le := hpart.i_le
  lp_le := hpart.lp_le
  hp_le := hpart.hp_le
  j_lt := hpart.j_lt
  below := h.all (P := fun x => cmp x v < 0) hpart.below
  equal k hk₁ hk₂ := by
    rw [h.out (by omega)]
    exact hpart.equal k hk₁ hk₂
  above k hk hkl := by
    have hle := hpart.lp_le
    rw [h.out (by omega)]
    exact hpart.above k hk hkl

/-- A partition stays one while its right part is sorted. -/
theorem Parted.shuffle_right (hpart : Parted cmp v a l lp lp hp hp e)
    (h : Shuffled (hp + 1) l e e') : Parted cmp v a l lp lp hp hp e' where
  a_le := hpart.a_le
  i_le := hpart.i_le
  lp_le := hpart.lp_le
  hp_le := hpart.hp_le
  j_lt := hpart.j_lt
  below k hak hk := by
    have hle := hpart.lp_le
    rw [h.out (by omega)]
    exact hpart.below k hak hk
  equal k hk₁ hk₂ := by
    rw [h.out (by omega)]
    exact hpart.equal k hk₁ hk₂
  above := h.all (P := fun x => 0 < cmp x v) hpart.above

/-! ## What the scans do -/

/-- An element of the left part that equals the pivot goes to the middle. -/
theorem Parted.equal_left (h : Parted cmp v a l i lp hp j e) (hi : i < lp)
    (he : cmp (e i) v = 0) : Parted cmp v a l i (lp - 1) hp j (e ∘ Equiv.swap i (lp - 1)) := by
  obtain ⟨h₁, h₂, h₃, h₄, h₅, hbelow, hequal, habove⟩ := h
  constructor
  case below | equal | above =>
    intro k hk₁ hk₂
    simp only [Function.comp_apply, Equiv.swap_apply_def]
    grind
  all_goals omega

theorem Parted.less_left (h : Parted cmp v a l i lp hp j e) (hi : i < lp)
    (he : cmp (e i) v < 0) : Parted cmp v a l (i + 1) lp hp j e where
  a_le := h.a_le.trans (Nat.le_succ i)
  i_le := hi
  lp_le := h.lp_le
  hp_le := h.hp_le
  j_lt := h.j_lt
  below k hk₁ hk₂ := by
    rcases Nat.lt_succ_iff_lt_or_eq.mp hk₂ with hk | rfl
    · exact h.below k hk₁ hk
    · exact he
  equal := h.equal
  above := h.above

theorem Parted.equal_right (h : Parted cmp v a l i lp hp j e) (hj : hp < j)
    (he : cmp (e j) v = 0) : Parted cmp v a l i lp (hp + 1) j (e ∘ Equiv.swap (hp + 1) j) := by
  obtain ⟨h₁, h₂, h₃, h₄, h₅, hbelow, hequal, habove⟩ := h
  constructor
  case below | equal | above =>
    intro k hk₁ hk₂
    simp only [Function.comp_apply, Equiv.swap_apply_def]
    grind
  all_goals omega

theorem Parted.greater_right (h : Parted cmp v a l i lp hp j e) (hj : hp < j)
    (he : 0 < cmp (e j) v) : Parted cmp v a l i lp hp (j - 1) e where
  a_le := h.a_le
  i_le := h.i_le
  lp_le := h.lp_le
  hp_le := Nat.le_sub_one_of_lt hj
  j_lt := (Nat.sub_le j 1).trans_lt h.j_lt
  below := h.below
  equal := h.equal
  above k hk₁ hk₂ := by
    rcases (show k = j ∨ j < k by omega) with rfl | hk
    · exact he
    · exact h.above k hk hk₂

/-- The left part is done: a smaller element of the right part moves the middle up. -/
theorem Parted.less_right (h : Parted cmp v a l lp lp hp j e) (hj : hp < j)
    (he : cmp (e j) v < 0) :
    Parted cmp v a l (lp + 1) (lp + 1) (hp + 1) j
      (e ∘ Equiv.swap lp j ∘ Equiv.swap (hp + 1) j) := by
  obtain ⟨h₁, h₂, h₃, h₄, h₅, hbelow, hequal, habove⟩ := h
  constructor
  case below | equal | above =>
    intro k hk₁ hk₂
    simp only [Function.comp_apply, Equiv.swap_apply_def]
    grind
  all_goals omega

theorem Parted.exchange (h : Parted cmp v a l i lp hp j e) (hi : i < lp) (hj : hp < j)
    (hei : 0 < cmp (e i) v) (hej : cmp (e j) v < 0) :
    Parted cmp v a l (i + 1) lp hp (j - 1) (e ∘ Equiv.swap i j) := by
  obtain ⟨h₁, h₂, h₃, h₄, h₅, hbelow, hequal, habove⟩ := h
  constructor
  case below | equal | above =>
    intro k hk₁ hk₂
    simp only [Function.comp_apply, Equiv.swap_apply_def]
    grind
  all_goals omega

/-- The right part is done: a greater element of the left part moves the middle down. -/
theorem Parted.greater_left (h : Parted cmp v a l i lp hp hp e) (hi : i < lp)
    (hei : 0 < cmp (e i) v) :
    Parted cmp v a l i (lp - 1) (hp - 1) (hp - 1)
      (e ∘ Equiv.swap hp i ∘ Equiv.swap (lp - 1) i) := by
  obtain ⟨h₁, h₂, h₃, h₄, h₅, hbelow, hequal, habove⟩ := h
  constructor
  case below | equal | above =>
    intro k hk₁ hk₂
    simp only [Function.comp_apply, Equiv.swap_apply_def]
    grind
  all_goals omega

end Aix413.Lib.Partition
