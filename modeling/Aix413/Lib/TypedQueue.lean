import Mathlib.Order.Bounds.Basic
import Mathlib.Tactic

namespace Aix413.Lib.TypedQueue

variable {α κ : Type}

/-- `x` stands on `q` with `p` of it, and of none before it. -/
def First (p : α → Prop) (q : List α) (x : α) : Prop :=
  ∃ q₁ q₂, q = q₁ ++ x :: q₂ ∧ p x ∧ ∀ y ∈ q₁, ¬p y

variable {p p' : α → Prop} {q q' : List α} {x y : α}

theorem First.mem (h : First p q x) : x ∈ q := by
  obtain ⟨q₁, q₂, rfl, -⟩ := h
  simp

theorem first_cons (hx : p x) : First p (x :: q) x :=
  ⟨[], q, rfl, hx, fun _ hy => absurd hy List.not_mem_nil⟩

theorem First.cons (h : First p q x) (hy : ¬p y) : First p (y :: q) x := by
  obtain ⟨q₁, q₂, rfl, hx, hq⟩ := h
  refine ⟨y :: q₁, q₂, rfl, hx, ?_⟩
  intro z hz
  cases List.mem_cons.mp hz with
  | inl he => exact he ▸ hy
  | inr hm => exact hq z hm

theorem exists_first (hx : x ∈ q) (hp : p x) : ∃ y, First p q y := by
  classical
  induction q with
  | nil => cases hx
  | cons y q ih =>
    by_cases hy : p y
    · exact ⟨y, first_cons hy⟩
    · rcases List.mem_cons.mp hx with rfl | hx
      · exact absurd hp hy
      · obtain ⟨z, hz⟩ := ih hx
        exact ⟨z, hz.cons hy⟩

section Lowest

variable [LinearOrder κ]

/-- `x` is of the lowest key up to `b` on `q`, and the first of that key. -/
def Lowest (key : α → κ) (b : κ) (q : List α) (x : α) : Prop :=
  First (fun y => IsLeast {k | k ≤ b ∧ ∃ z ∈ q, key z = k} (key y)) q x

variable {key : α → κ} {b : κ}

/-- The form in which a scan of the queue keeps it. -/
theorem lowest_iff :
    Lowest key b q x ↔ ∃ q₁ q₂, q = q₁ ++ x :: q₂ ∧ key x ≤ b ∧
      (∀ y ∈ q₁, key y ≤ b → key x < key y) ∧ ∀ y ∈ q₂, key y ≤ b → key x ≤ key y := by
  constructor
  · rintro ⟨q₁, q₂, rfl, ⟨hb, hl⟩, hq⟩
    have hle : ∀ y ∈ q₁ ++ x :: q₂, key y ≤ b → key x ≤ key y :=
      fun y hy hyb => hl ⟨hyb, y, hy, rfl⟩
    refine ⟨q₁, q₂, rfl, hb.1, ?_, fun y hy => hle y (by simp [hy])⟩
    intro y hy hyb
    refine lt_of_le_of_ne (hle y (by simp [hy]) hyb) ?_
    intro he
    refine hq y hy ?_
    change IsLeast _ (key y)
    rw [← he]
    exact ⟨hb, hl⟩
  · rintro ⟨q₁, q₂, rfl, hb, h₁, h₂⟩
    refine ⟨q₁, q₂, rfl, ⟨⟨hb, x, by simp, rfl⟩, ?_⟩, ?_⟩
    · rintro k ⟨hkb, z, hz, rfl⟩
      rcases List.mem_append.mp hz with hz | hz
      · exact (h₁ z hz hkb).le
      · rcases List.mem_cons.mp hz with rfl | hz
        · exact le_rfl
        · exact h₂ z hz hkb
    · intro y hy hleast
      have hlt := h₁ y hy hleast.1.1
      have hge : key y ≤ key x := hleast.2 ⟨hb, x, by simp, rfl⟩
      exact absurd hge (not_le.mpr hlt)

theorem Lowest.le (h : Lowest key b q x) : key x ≤ b := by
  obtain ⟨q₁, q₂, -, hb, -⟩ := lowest_iff.mp h
  exact hb

theorem Lowest.le_of_mem (h : Lowest key b q x) (hy : y ∈ q) (hb : key y ≤ b) :
    key x ≤ key y := by
  obtain ⟨q₁, q₂, -, hleast, -⟩ := h
  exact hleast.2 ⟨hb, y, hy, rfl⟩

/-- A later one that is not lower leaves the choice. -/
theorem Lowest.snoc (h : Lowest key b q x) (hy : key y ≤ b → key x ≤ key y) :
    Lowest key b (q ++ [y]) x := by
  obtain ⟨q₁, q₂, rfl, hb, h₁, h₂⟩ := lowest_iff.mp h
  refine lowest_iff.mpr ⟨q₁, q₂ ++ [y], by simp, hb, h₁, ?_⟩
  intro z hz
  rcases List.mem_append.mp hz with hz | hz
  · exact h₂ z hz
  · rw [List.mem_singleton.mp hz]
    exact hy

/-- A later one that is lower than all is the new choice. -/
theorem lowest_snoc (hb : key y ≤ b) (h : ∀ z ∈ q, key z ≤ b → key y < key z) :
    Lowest key b (q ++ [y]) y :=
  lowest_iff.mpr ⟨q, [], rfl, hb, h, fun _ hz => absurd hz List.not_mem_nil⟩

theorem exists_lowest (hx : x ∈ q) (hb : key x ≤ b) : ∃ y, Lowest key b q y := by
  have hfin : {y | y ∈ q ∧ key y ≤ b}.Finite := (List.finite_toSet q).subset fun y hy => hy.1
  obtain ⟨y, ⟨hy, hyb⟩, hmin⟩ := Set.exists_min_image _ key hfin ⟨x, hx, hb⟩
  refine exists_first hy ⟨⟨hyb, y, hy, rfl⟩, ?_⟩
  rintro k ⟨hk, z, hz, rfl⟩
  exact hmin z ⟨hz, hk⟩

end Lowest

section Due

variable {key : α → ℤ} {t : ℤ}

/-- The rule of a receive by type: 0 takes the first of all, a positive type
the first of that type, a negative one the first of the lowest type up to its
absolute value. -/
def Due (key : α → ℤ) (t : ℤ) (q : List α) (x : α) : Prop :=
  if t = 0 then First (fun _ => True) q x
  else if 0 < t then First (fun y => key y = t) q x
  else Lowest key |t| q x

theorem Due.mem (h : Due key t q x) : x ∈ q := by
  unfold Due at h
  split_ifs at h
  · exact First.mem h
  · exact First.mem h
  · exact First.mem h

theorem due_zero : Due key 0 (x :: q) x := by
  unfold Due
  rw [if_pos rfl]
  exact first_cons trivial

theorem due_pos (ht : 0 < t) : Due key t q x ↔ First (fun y => key y = t) q x := by
  unfold Due
  rw [if_neg ht.ne', if_pos ht]

theorem due_neg (ht : t < 0) : Due key t q x ↔ Lowest key (-t) q x := by
  unfold Due
  rw [if_neg ht.ne, if_neg ht.not_gt, abs_of_neg ht]

/-- Where there is a message that a receive takes, one is due. -/
theorem exists_due (hx : x ∈ q) (h : t = 0 ∨ 0 < t ∧ key x = t ∨ t < 0 ∧ key x ≤ -t) :
    ∃ y, Due key t q y := by
  rcases h with rfl | ⟨ht, he⟩ | ⟨ht, hle⟩
  · cases q with
    | nil => cases hx
    | cons y q => exact ⟨y, due_zero⟩
  · obtain ⟨y, hy⟩ := exists_first (p := fun y => key y = t) hx he
    exact ⟨y, (due_pos ht).mpr hy⟩
  · obtain ⟨y, hy⟩ := exists_lowest hx hle
    exact ⟨y, (due_neg ht).mpr hy⟩

end Due

end Aix413.Lib.TypedQueue
