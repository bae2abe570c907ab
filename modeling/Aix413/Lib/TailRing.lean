import Mathlib.Data.List.Nodup
import Mathlib.Logic.Function.Basic
import Mathlib.Tactic

namespace Aix413.Lib.TailRing

variable {α : Type*} {next next' : α → Option α} {a b x y : α} {l l₁ l₂ : List α}

/-- The links run through `l` and then to `b`. -/
def Path (next : α → Option α) : List α → α → Prop
  | [], _ => True
  | x :: l, b => next x = some (l.headD b) ∧ Path next l b

/-- The links run through `l` and from its last cell to the first. -/
def IsRing (next : α → Option α) : List α → Prop
  | [] => True
  | a :: l => (a :: l).Nodup ∧ Path next (a :: l) a

theorem path_congr (h : Path next l b) (hn : ∀ x ∈ l, next' x = next x) : Path next' l b := by
  induction l with
  | nil => trivial
  | cons x l ih =>
    refine ⟨(hn x List.mem_cons_self).trans h.1, ih h.2 ?_⟩
    exact fun y hy => hn y (List.mem_cons_of_mem x hy)

theorem path_append : Path next (l₁ ++ l₂) b ↔ Path next l₁ (l₂.headD b) ∧ Path next l₂ b := by
  induction l₁ with
  | nil => simp [Path]
  | cons x l₁ ih =>
    have hhead : (l₁ ++ l₂).headD b = l₁.headD (l₂.headD b) := by cases l₁ <;> rfl
    rw [List.cons_append, Path, Path, ih, hhead, and_assoc]

/-- Two paths through the same cell go on together. -/
theorem path_next (h : Path next (l₁ ++ x :: l₂) b) : next x = some (l₂.headD b) :=
  (path_append.mp h).2.1

namespace IsRing

theorem nodup (h : IsRing next l) : l.Nodup := by
  cases l with
  | nil => exact List.nodup_nil
  | cons a l => exact h.1

theorem congr (h : IsRing next l) (hn : ∀ x ∈ l, next' x = next x) : IsRing next' l := by
  cases l with
  | nil => trivial
  | cons a l => exact ⟨h.1, path_congr h.2 hn⟩

theorem next_isSome (h : IsRing next l) (hx : x ∈ l) : ∃ y, next x = some y := by
  obtain ⟨l₁, l₂, rfl⟩ := List.append_of_mem hx
  cases hl : l₁ ++ x :: l₂ with
  | nil => simp at hl
  | cons a l =>
    rw [hl] at h
    have hp := h.2
    rw [← hl] at hp
    exact ⟨_, path_next hp⟩

/-- The last cell goes to the first. -/
theorem next_last (h : IsRing next (a :: l)) : next ((a :: l).getLast (by simp)) = some a := by
  have hp := h.2
  rw [← List.dropLast_append_getLast (l := a :: l) (by simp)] at hp
  exact path_next hp

theorem rotate (l₁ : List α) (h : IsRing next (l₁ ++ l₂)) : IsRing next (l₂ ++ l₁) := by
  cases l₁ with
  | nil => simpa using h
  | cons a s =>
    cases l₂ with
    | nil => simpa using h
    | cons b t =>
      obtain ⟨hnd, hp⟩ := h
      change Path next (a :: s ++ b :: t) a at hp
      obtain ⟨h1, h2⟩ := path_append.mp hp
      have hnd' : (b :: t ++ a :: s).Nodup := (List.perm_append_comm.nodup_iff).mp hnd
      exact ⟨hnd', path_append.mpr ⟨h2, h1⟩⟩

/-- Only the last cell goes to the first. -/
theorem eq_last (h : IsRing next (a :: l)) (hx : x ∈ a :: l) (hn : next x = some a) :
    x = (a :: l).getLast (by simp) := by
  obtain ⟨l₁, l₂, hl⟩ := List.append_of_mem hx
  obtain ⟨hnd, hp⟩ := h
  rw [hl] at hp
  have hxn := (path_next hp).symm.trans hn
  cases l₂ with
  | nil => simp [hl]
  | cons y t =>
    exfalso
    obtain rfl : y = a := Option.some_inj.mp hxn
    rw [hl] at hnd
    cases l₁ with
    | nil =>
      obtain rfl : y = x := (List.cons.inj hl).1
      simp at hnd
    | cons c s =>
      obtain rfl : y = c := (List.cons.inj hl).1
      simp at hnd

/-- A walk along the ring comes to the next cell of the list, or from the last one to the first. -/
theorem walk (h : IsRing next l) (hs : x :: l₂ <:+ l) (hh : l.head? = some a) :
    next x = some (l₂.headD a) := by
  obtain ⟨l₁, rfl⟩ := hs
  cases hl : l₁ ++ x :: l₂ with
  | nil => simp at hl
  | cons c s =>
    rw [hl] at h hh
    obtain rfl : c = a := Option.some_inj.mp hh
    have hp := h.2
    rw [← hl] at hp
    exact path_next hp

/-- Each cell is reached. -/
theorem exists_prev (h : IsRing next l) (hx : x ∈ l) : ∃ p ∈ l, next p = some x := by
  obtain ⟨l₁, l₂, rfl⟩ := List.append_of_mem hx
  have hr := h.rotate l₁
  refine ⟨_, ?_, hr.next_last⟩
  have hm : (x :: (l₂ ++ l₁)).getLast (by simp) ∈ x :: (l₂ ++ l₁) := List.getLast_mem _
  simp only [List.mem_cons, List.mem_append] at hm ⊢
  tauto

theorem prev_unique (h : IsRing next l) {p q : α} (hp : p ∈ l) (hq : q ∈ l) (hpx : next p = some x)
    (hqx : next q = some x) (hx : x ∈ l) : p = q := by
  obtain ⟨l₁, l₂, rfl⟩ := List.append_of_mem hx
  have hr := h.rotate l₁
  have hmem : ∀ u, u ∈ l₁ ++ x :: l₂ → u ∈ x :: l₂ ++ l₁ := fun u hu => by
    simp only [List.mem_cons, List.mem_append] at hu ⊢
    tauto
  exact (eq_last hr (hmem p hp) hpx).trans (eq_last hr (hmem q hq) hqx).symm

/-- A cell that comes after itself is alone. -/
theorem alone (h : IsRing next l) (hx : x ∈ l) (hn : next x = some x) : l = [x] := by
  obtain ⟨l₁, l₂, rfl⟩ := List.append_of_mem hx
  have hr : IsRing next (x :: (l₂ ++ l₁)) := h.rotate l₁
  have hw := hr.walk (List.suffix_refl _) rfl
  cases hl : l₂ ++ l₁ with
  | nil => simp_all
  | cons c s =>
    rw [hl] at hw hr
    obtain rfl : x = c := Option.some_inj.mp (hn.symm.trans hw)
    have hnd := hr.nodup
    simp at hnd

variable [DecidableEq α]

/-- A cell is taken out by its predecessor. -/
theorem erase (h : IsRing next l) {p : α} (hp : p ∈ l) (hx : x ∈ l) (hpx : next p = some x) :
    IsRing (Function.update next p (next x)) (l.erase x) := by
  obtain ⟨l₁, l₂, rfl⟩ := List.append_of_mem hx
  have hx₁ : x ∉ l₁ := fun hm => (List.nodup_append.mp h.nodup).2.2 x hm x List.mem_cons_self rfl
  rw [List.erase_append_right _ hx₁, List.erase_cons_head]
  apply IsRing.rotate l₂
  have hr : IsRing next (x :: (l₂ ++ l₁)) := h.rotate l₁
  have hpm : p ∈ x :: (l₂ ++ l₁) := by
    simp only [List.mem_cons, List.mem_append] at hp ⊢
    tauto
  have hlast := eq_last hr hpm hpx
  have hnx := hr.walk (List.suffix_refl _) rfl
  cases hl : l₂ ++ l₁ with
  | nil => trivial
  | cons b m =>
    rw [hl] at hr hnx
    simp only [hl] at hlast
    rw [List.getLast_cons (by simp)] at hlast
    obtain ⟨hnd, -, hpath⟩ := hr
    have hnd := (List.nodup_cons.mp hnd).2
    refine ⟨hnd, ?_⟩
    rw [← List.dropLast_append_getLast (l := b :: m) (by simp), ← hlast] at hpath hnd ⊢
    obtain ⟨h1, h2⟩ := path_append.mp hpath
    refine path_append.mpr ⟨path_congr h1 ?_, ?_, trivial⟩
    · intro y hy
      apply Function.update_of_ne
      rintro rfl
      exact (List.nodup_append.mp hnd).2.2 y hy y (by simp) rfl
    · rw [Function.update_self, hnx]
      rfl

/-- The last cell after one was taken out. -/
theorem getLast?_erase (h : IsRing next l) {p : α} (hp : p ∈ l) (hx : x ∈ l) (hpx : next p = some x) :
    (l.erase x).getLast? =
      if l.getLast? = some x then if p = x then none else some p else l.getLast? := by
  obtain ⟨l₁, l₂, rfl⟩ := List.append_of_mem hx
  have hnd := h.nodup
  have hx₁ : x ∉ l₁ := fun hm => (List.nodup_append.mp hnd).2.2 x hm x List.mem_cons_self rfl
  have hx₂ : x ∉ l₂ := (List.nodup_cons.mp (List.nodup_append.mp hnd).2.1).1
  rw [List.erase_append_right _ hx₁, List.erase_cons_head]
  rcases List.eq_nil_or_concat l₂ with rfl | ⟨l₂, y, rfl⟩
  · rcases List.eq_nil_or_concat l₁ with rfl | ⟨l₁, y, rfl⟩
    · have hpe : p = x := by simpa using hp
      simp [hpe]
    · have hy : next y = some x := by
        have hs : y :: [x] <:+ l₁.concat y ++ [x] := by
          rw [List.concat_append]
          exact List.suffix_append _ _
        cases hl : (l₁.concat y ++ [x]).head? with
        | none => simp at hl
        | some a => exact h.walk hs hl
      obtain rfl : p = y := h.prev_unique hp (by simp) hpx hy hx
      have hyx : p ≠ x := fun he => hx₁ (by simp [he])
      simp [hyx]
  · have hyx : y ≠ x := fun he => hx₂ (by simp [he])
    simp [List.getLast?_cons, hyx]

/-- A cell comes behind the last one. -/
theorem snoc (h : IsRing next (a :: l)) (hx : x ∉ a :: l) :
    IsRing (Function.update (Function.update next x (next ((a :: l).getLast (by simp))))
      ((a :: l).getLast (by simp)) (some x)) (a :: l ++ [x]) := by
  have hz := h.next_last
  obtain ⟨hnd, hp⟩ := h
  generalize hlast : (a :: l).getLast (by simp) = z at hz ⊢
  have hsplit : (a :: l).dropLast ++ [z] = a :: l := by
    rw [← hlast]
    exact List.dropLast_append_getLast (by simp)
  have hzl : z ∈ a :: l := hlast ▸ List.getLast_mem _
  have hxz : x ≠ z := fun he => hx (he ▸ hzl)
  rw [hz]
  rw [← hsplit] at hp hnd
  obtain ⟨hpre, -⟩ := path_append.mp hp
  have hnew : Path (Function.update (Function.update next x (some a)) z (some x))
      ((a :: l).dropLast ++ ([z] ++ [x])) a := by
    refine path_append.mpr ⟨path_congr hpre ?_, ?_, ?_, trivial⟩
    · intro y hy
      have hyz : y ≠ z := by
        rintro rfl
        exact (List.nodup_append.mp hnd).2.2 y hy y (by simp) rfl
      have hyx : y ≠ x := fun he => hx (he ▸ List.dropLast_subset _ hy)
      rw [Function.update_of_ne hyz, Function.update_of_ne hyx]
    · exact Function.update_self _ _ _
    · rw [Function.update_of_ne hxz, Function.update_self]
      rfl
  rw [← List.append_assoc, hsplit] at hnew
  refine ⟨?_, hnew⟩
  rw [hsplit] at hnd
  change (a :: l ++ [x]).Nodup
  rw [List.nodup_append]
  refine ⟨hnd, List.nodup_singleton x, ?_⟩
  intro y hy u hu
  rw [List.mem_singleton.mp hu]
  exact fun he => hx (he ▸ hy)

end IsRing

end Aix413.Lib.TailRing
