import Aix413.Lib.LinkedRing
import Aix413.Lvm.Cache

namespace Aix413.Lvm.Mwc.Cache

open Lib.LinkedPool Lib.LinkedRing

variable {c : Cache} {e f : Ptr} {l : List Ptr}

/-! ## The ring of use -/

/-- The entries from the most to the least recently used. -/
structure Order (c : Cache) (l : List Ptr) : Prop where
  ring : IsRing c.next c.prev l
  head : l.head? = some c.lst

theorem erase_mid {a : Ptr} {l₁ : List Ptr} (l₂ : List Ptr) (h : (a :: (l₁ ++ e :: l₂)).Nodup) :
    (a :: (l₁ ++ e :: l₂)).erase e = a :: (l₁ ++ l₂) := by
  obtain ⟨ha, hl⟩ := List.nodup_cons.mp h
  have hea : a ≠ e := fun he => ha (by simp [he])
  have hel : e ∉ l₁ := fun hm => (List.nodup_append.mp hl).2.2 e hm e List.mem_cons_self rfl
  rw [List.erase_cons_tail (by simpa using hea), List.erase_append_right _ hel,
    List.erase_cons_head]

/-- The places of an entry: first, last, or between others. -/
theorem Order.cases (h : Order c l) (he : e ∈ l) :
    (∃ t, l = e :: t ∧ c.lst = e) ∨
    (∃ t, l = c.lst :: t ++ [e] ∧ c.prev c.lst = e ∧ e ≠ c.lst) ∨
    (∃ l₁ l₂, l = c.lst :: (l₁ ++ e :: l₂) ∧ l₂ ≠ [] ∧ e ≠ c.prev c.lst ∧ e ≠ c.lst) := by
  obtain ⟨t, rfl⟩ := List.head?_eq_some_iff.mp h.head
  have hnd := h.ring.nodup
  have hprev := h.ring.last_joined.2
  rcases List.mem_cons.mp he with rfl | he
  · exact .inl ⟨t, rfl, rfl⟩
  have hne : e ≠ c.lst := fun heq => (List.nodup_cons.mp hnd).1 (heq ▸ he)
  obtain ⟨l₁, l₂, rfl⟩ := List.append_of_mem he
  by_cases hl : l₂ = []
  · subst hl
    exact .inr (.inl ⟨l₁, rfl, by simpa using hprev, hne⟩)
  · refine .inr (.inr ⟨l₁, l₂, rfl, hl, ?_, hne⟩)
    have hlast : c.prev c.lst = l₂.getLast hl := by
      rw [hprev]
      simp [List.getLast_cons, hl]
    rw [hlast]
    intro heq
    have hin : e ∈ l₂ := heq ▸ List.getLast_mem hl
    exact (List.nodup_cons.mp (List.nodup_append.mp (List.nodup_cons.mp hnd).2).2.1).1 hin

theorem ring_relink {l₁ l₂ : List Ptr} (h : IsRing c.next c.prev (c.lst :: (l₁ ++ e :: l₂))) :
    IsRing (c.relink e).next (c.relink e).prev (e :: c.lst :: (l₁ ++ l₂)) := by
  have hnd := h.nodup
  have h1 : IsRing c.next c.prev (e :: (l₂ ++ c.lst :: l₁)) := by
    have hr : IsRing c.next c.prev ((c.lst :: l₁) ++ e :: l₂) := by simpa using h
    simpa using hr.rotate _
  have h2 := (h1.unlink (by simp)).rotate l₂
  rw [List.cons_append] at h2
  have hne : c.lst ≠ e := fun he => (List.nodup_cons.mp hnd).1 (by simp [he])
  have hnext : (c.relink e).next = Function.update (Function.update (Function.update c.next (c.prev e)
      (c.next e)) e c.lst) (Function.update c.prev (c.next e) (c.prev e) c.lst) e := by
    unfold relink
    simp only [Function.update_of_ne hne]
  rw [hnext]
  apply h2.link
  rw [← erase_mid _ hnd]
  exact hnd.not_mem_erase

theorem Order.useHead (h : Order c l) (he : e ∈ l) : Order (c.useHead e) (e :: l.erase e) := by
  unfold Cache.useHead
  rcases h.cases he with ⟨t, rfl, hlst⟩ | ⟨t, rfl, hprev, hne⟩ | ⟨l₁, l₂, rfl, hl, hprev, hne⟩
  · rw [if_pos hlst.symm, List.erase_cons_head]
    exact h
  · rw [if_neg hne, if_pos hprev.symm, List.cons_append, erase_mid [] h.ring.nodup]
    refine ⟨?_, rfl⟩
    have hr := h.ring.rotate (c.lst :: t)
    simpa using hr
  · rw [if_neg hne, if_neg hprev, erase_mid _ h.ring.nodup]
    exact ⟨ring_relink h.ring, rfl⟩

theorem Order.useTail (h : Order c l) (he : e ∈ l) : Order (c.useTail e) (l.erase e ++ [e]) := by
  unfold Cache.useTail
  rcases h.cases he with ⟨t, rfl, hlst⟩ | ⟨t, rfl, hprev, hne⟩ | ⟨l₁, l₂, rfl, hl, hprev, hne⟩
  · rw [List.erase_cons_head]
    cases t with
    | nil =>
      have hp : c.prev c.lst = e := hlst ▸ h.ring.last_joined.2
      rw [if_pos hp.symm]
      exact h
    | cons f t =>
      have hf : c.next e = f := (h.ring.joined []).1
      have hp : c.prev c.lst = (f :: t).getLast (by simp) := by
        rw [hlst, h.ring.last_joined.2, List.getLast_cons (by simp)]
      have hne : e ≠ c.prev c.lst := by
        rw [hp]
        intro heq
        exact (List.nodup_cons.mp h.ring.nodup).1 (heq ▸ List.getLast_mem _)
      rw [if_neg hne, if_pos hlst.symm]
      refine ⟨h.ring.rotate [e], ?_⟩
      rw [hlst, hf]
      rfl
  · rw [if_pos hprev.symm, List.cons_append, erase_mid [] h.ring.nodup]
    simpa using h
  · rw [if_neg hprev, if_neg hne, erase_mid _ h.ring.nodup]
    exact ⟨(ring_relink h.ring).rotate [e], rfl⟩

end Aix413.Lvm.Mwc.Cache
