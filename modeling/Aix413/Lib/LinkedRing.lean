import Mathlib.Data.List.Chain
import Mathlib.Logic.Function.Basic
import Mathlib.Tactic

namespace Aix413.Lib.LinkedRing

variable {α : Type*}

/-- `y` comes after `x` in both directions. -/
def Joined (next prev : α → α) (x y : α) : Prop := next x = y ∧ prev y = x

/-- The links run through `l` and from its last cell back to the first. -/
structure IsRing (next prev : α → α) (l : List α) : Prop where
  nodup : l.Nodup
  chain : (l ++ l.take 1).IsChain (Joined next prev)

variable {next prev next' prev' : α → α} {a x y : α} {l l₁ l₂ : List α}

theorem isChain_congr (h : l.IsChain (Joined next prev))
    (hn : ∀ x ∈ l.dropLast, next' x = next x) (hp : ∀ y ∈ l.tail, prev' y = prev y) :
    l.IsChain (Joined next' prev') := by
  induction l with
  | nil => exact List.isChain_nil
  | cons x l ih =>
    cases l with
    | nil => exact List.isChain_singleton x
    | cons y l =>
      rw [List.isChain_cons_cons] at h ⊢
      refine ⟨⟨?_, ?_⟩, ih h.2 ?_ ?_⟩
      · rw [hn x (by simp)]
        exact h.1.1
      · rw [hp y (by simp)]
        exact h.1.2
      · exact fun z hz => hn z (by simp [hz])
      · exact fun z hz => hp z (List.mem_cons_of_mem y hz)

namespace IsRing

theorem rotate (l₁ : List α) (h : IsRing next prev (l₁ ++ l₂)) : IsRing next prev (l₂ ++ l₁) := by
  refine ⟨(List.perm_append_comm.nodup_iff).mp h.nodup, ?_⟩
  have hc := h.chain
  cases l₁ with
  | nil => simpa using hc
  | cons a s =>
    cases l₂ with
    | nil => simpa using hc
    | cons b t =>
      have hc : (a :: s ++ b :: (t ++ [a])).IsChain (Joined next prev) := by simpa using hc
      obtain ⟨h1, h2⟩ := List.isChain_split.mp hc
      have hgoal : (b :: t ++ a :: (s ++ [b])).IsChain (Joined next prev) :=
        List.isChain_split.mpr ⟨h2, h1⟩
      simpa using hgoal

theorem joined (l₁ : List α) (h : IsRing next prev (l₁ ++ x :: y :: l₂)) : Joined next prev x y := by
  have hc := h.chain
  rw [List.append_assoc, List.cons_append, List.cons_append, List.isChain_append_cons_cons] at hc
  exact hc.2.1

/-- The cells in a row, and the last one joined to the first. -/
theorem iff_inner : IsRing next prev (a :: l) ↔ (a :: l).Nodup ∧
    (a :: l).IsChain (Joined next prev) ∧ Joined next prev ((a :: l).getLast (by simp)) a := by
  have hch : (a :: l ++ [a]).IsChain (Joined next prev) ↔
      (a :: l).IsChain (Joined next prev) ∧ Joined next prev ((a :: l).getLast (by simp)) a := by
    rw [List.isChain_append]
    simp [List.getLast?_eq_getLast_of_ne_nil]
  constructor
  · exact fun h => ⟨h.nodup, hch.mp (by simpa using h.chain)⟩
  · exact fun h => ⟨h.1, by simpa using hch.mpr h.2⟩

theorem last_joined (h : IsRing next prev (a :: l)) :
    Joined next prev ((a :: l).getLast (by simp)) a := (iff_inner.mp h).2.2

theorem prev_mem (h : IsRing next prev l) (hx : x ∈ l) : prev x ∈ l := by
  obtain ⟨l₁, l₂, rfl⟩ := List.append_of_mem hx
  rcases List.eq_nil_or_concat l₁ with rfl | ⟨l₁, y, rfl⟩
  · rw [List.nil_append] at h ⊢
    rw [h.last_joined.2]
    exact List.getLast_mem _
  · rw [List.concat_append] at h ⊢
    rw [(h.joined l₁).2]
    simp

theorem next_prev (h : IsRing next prev l) (hx : x ∈ l) : next (prev x) = x := by
  obtain ⟨l₁, l₂, rfl⟩ := List.append_of_mem hx
  rcases List.eq_nil_or_concat l₁ with rfl | ⟨l₁, y, rfl⟩
  · rw [List.nil_append] at h
    have hj := h.last_joined
    rw [hj.2, hj.1]
  · rw [List.concat_append] at h
    have hj := h.joined l₁
    rw [hj.2, hj.1]

theorem next_mem (h : IsRing next prev l) (hx : x ∈ l) : next x ∈ l := by
  obtain ⟨l₁, l₂, rfl⟩ := List.append_of_mem hx
  cases l₂ with
  | nil =>
    cases l₁ with
    | nil =>
      have hn : next x = x := h.last_joined.1
      simp [hn]
    | cons a s => simp [((h.rotate (a :: s)).joined []).1]
  | cons y l₂ =>
    rw [(h.joined l₁).1]
    simp

theorem congr (h : IsRing next prev l) (hn : ∀ x ∈ l, next' x = next x)
    (hp : ∀ x ∈ l, prev' x = prev x) : IsRing next' prev' l := by
  refine ⟨h.nodup, ?_⟩
  have hsub : ∀ x ∈ l ++ l.take 1, x ∈ l := by
    intro x hx
    rcases List.mem_append.mp hx with hx | hx
    · exact hx
    · exact List.mem_of_mem_take hx
  apply isChain_congr h.chain
  · exact fun x hx => hn x (hsub x (List.dropLast_subset _ hx))
  · exact fun y hy => hp y (hsub y (List.mem_of_mem_tail hy))

theorem head_next (h : IsRing next prev l) (ha : a ∈ l.getLast?) : next a ∈ l.head? := by
  cases l with
  | nil => simp at ha
  | cons b l =>
    rw [List.getLast?_eq_getLast_of_ne_nil (by simp), Option.mem_some_iff] at ha
    rw [← ha, h.last_joined.1]
    rfl

/-- A cell that comes after itself is alone. -/
theorem alone (h : IsRing next prev l) (hx : x ∈ l) : next x = x ↔ l = [x] := by
  constructor
  · intro hn
    obtain ⟨l₁, l₂, rfl⟩ := List.append_of_mem hx
    have hr := h.rotate l₁
    cases hl : l₂ ++ l₁ with
    | nil => simp_all
    | cons y t =>
      rw [List.cons_append, hl] at hr
      have hy : y = x := by rw [← (hr.joined []).1, hn]
      have hnd := hr.nodup
      simp [hy] at hnd
  · rintro rfl
    exact h.last_joined.1

/-- A walk along the ring comes to the next cell of the list, or from the last one to the first. -/
theorem walk {h₀ : α} (h : IsRing next prev l) (hh : l.head? = some h₀) (hs : x :: l₂ <:+ l) :
    l₂ = [] ∧ next x = h₀ ∨ ∃ y t, l₂ = y :: t ∧ next x = y ∧ y ≠ h₀ := by
  obtain ⟨l₁, rfl⟩ := hs
  cases l₂ with
  | nil =>
    left
    have hn := h.head_next (a := x) (by simp)
    rw [hh] at hn
    exact ⟨rfl, (Option.mem_some_iff.mp hn).symm⟩
  | cons y t =>
    right
    refine ⟨y, t, rfl, (h.joined l₁).1, ?_⟩
    rintro rfl
    have hnd := h.nodup
    cases l₁ with
    | nil =>
      obtain rfl : x = y := by simpa using hh
      simp at hnd
    | cons a s =>
      obtain rfl : a = y := by simpa using hh
      simp at hnd

variable [DecidableEq α]

/-- The first cell is taken out. -/
theorem unlink (h : IsRing next prev (x :: l)) (hl : l ≠ []) :
    IsRing (Function.update next (prev x) (next x)) (Function.update prev (next x) (prev x)) l := by
  obtain ⟨n, t, rfl⟩ := List.exists_cons_of_ne_nil hl
  obtain ⟨hnd, hin, -, hpx⟩ := iff_inner.mp h
  obtain ⟨hxn, hin⟩ := List.isChain_cons_cons.mp hin
  obtain ⟨-, hnd⟩ := List.nodup_cons.mp hnd
  rw [List.getLast_cons (by simp)] at hpx
  rw [hxn.1, hpx]
  refine iff_inner.mpr ⟨hnd, isChain_congr hin ?_ ?_, ?_⟩
  · intro y hy
    apply Function.update_of_ne
    rintro rfl
    rw [← List.dropLast_append_getLast (l := n :: t) (by simp), List.nodup_append] at hnd
    exact hnd.2.2 _ hy _ (by simp) rfl
  · intro y hy
    apply Function.update_of_ne
    rintro rfl
    exact (List.nodup_cons.mp hnd).1 hy
  · exact ⟨Function.update_self _ _ _, Function.update_self _ _ _⟩

/-- A cell off the ring is put before the first one and becomes the first. -/
theorem link (h : IsRing next prev (a :: l)) (hx : x ∉ a :: l) :
    IsRing (Function.update (Function.update next x a) (prev a) x)
      (Function.update (Function.update prev x (prev a)) a x) (x :: a :: l) := by
  obtain ⟨hnd, hin, hlast⟩ := iff_inner.mp h
  have hxa : x ≠ a := fun he => hx (he ▸ List.mem_cons_self)
  have hz : (a :: l).getLast (by simp) ∈ a :: l := List.getLast_mem _
  have hxz : x ≠ (a :: l).getLast (by simp) := fun he => hx (he ▸ hz)
  rw [hlast.2]
  refine iff_inner.mpr ⟨List.nodup_cons.mpr ⟨hx, hnd⟩, List.isChain_cons_cons.mpr ⟨?_, ?_⟩, ?_⟩
  · refine ⟨?_, Function.update_self _ _ _⟩
    rw [Function.update_of_ne hxz, Function.update_self]
  · apply isChain_congr hin
    · intro y hy
      have hyz : y ≠ (a :: l).getLast (by simp) := by
        rintro rfl
        rw [← List.dropLast_append_getLast (l := a :: l) (by simp), List.nodup_append] at hnd
        exact hnd.2.2 _ hy _ (by simp) rfl
      have hyx : y ≠ x := fun he => hx (he ▸ List.dropLast_subset _ hy)
      rw [Function.update_of_ne hyz, Function.update_of_ne hyx]
    · intro y hy
      have hya : y ≠ a := fun he => (List.nodup_cons.mp hnd).1 (he ▸ hy)
      have hyx : y ≠ x := fun he => hx (he ▸ List.mem_cons_of_mem a hy)
      rw [Function.update_of_ne hya, Function.update_of_ne hyx]
  · rw [List.getLast_cons (List.cons_ne_nil a l)]
    refine ⟨Function.update_self _ _ _, ?_⟩
    rw [Function.update_of_ne hxa, Function.update_self]

/-- The same, and it becomes the last. -/
theorem link_last (h : IsRing next prev (a :: l)) (hx : x ∉ a :: l) :
    IsRing (Function.update (Function.update next x a) (prev a) x)
      (Function.update (Function.update prev x (prev a)) a x) (a :: l ++ [x]) :=
  (h.link hx).rotate [x]

/-- A cell that is not alone is taken out. -/
theorem erase (h : IsRing next prev l) (hx : x ∈ l) (hl : l ≠ [x]) :
    IsRing (Function.update next (prev x) (next x)) (Function.update prev (next x) (prev x))
      (l.erase x) := by
  obtain ⟨l₁, l₂, rfl⟩ := List.append_of_mem hx
  have hx₁ : x ∉ l₁ := fun hm => (List.nodup_append.mp h.nodup).2.2 x hm x List.mem_cons_self rfl
  rw [List.erase_append_right _ hx₁, List.erase_cons_head]
  apply IsRing.rotate l₂
  apply (h.rotate l₁).unlink
  intro he
  obtain ⟨rfl, rfl⟩ := List.append_eq_nil_iff.mp he
  exact hl rfl

/-- The last cell after one was taken out. -/
theorem getLast?_erase (h : IsRing next prev l) (hx : x ∈ l) (hl : l ≠ [x]) :
    (l.erase x).getLast? = if l.getLast? = some x then some (prev x) else l.getLast? := by
  obtain ⟨l₁, l₂, rfl⟩ := List.append_of_mem hx
  have hnd := h.nodup
  have hx₁ : x ∉ l₁ := fun hm => (List.nodup_append.mp hnd).2.2 x hm x List.mem_cons_self rfl
  have hx₂ : x ∉ l₂ := (List.nodup_cons.mp (List.nodup_append.mp hnd).2.1).1
  rw [List.erase_append_right _ hx₁, List.erase_cons_head]
  rcases List.eq_nil_or_concat l₂ with rfl | ⟨l₂, y, rfl⟩
  · rcases List.eq_nil_or_concat l₁ with rfl | ⟨l₁, y, rfl⟩
    · exact absurd rfl hl
    · have hy : prev x = y := by
        rw [List.concat_append] at h
        exact (h.joined l₁).2
      simp [hy]
  · have hyx : y ≠ x := fun he => hx₂ (by simp [he])
    simp [List.getLast?_cons, hyx]

end IsRing

end Aix413.Lib.LinkedRing
