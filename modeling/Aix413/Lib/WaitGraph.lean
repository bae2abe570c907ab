import Mathlib.Data.List.Basic
import Mathlib.Logic.Relation
import Mathlib.Tactic

namespace Aix413.Lib.WaitGraph

open Relation

variable {α : Type} {R S : α → α → Prop}

def Acyclic (R : α → α → Prop) : Prop := ∀ a, ¬ TransGen R a a

theorem Acyclic.mono (h : Acyclic S) (hs : ∀ a b, R a b → S a b) : Acyclic R :=
  fun a ha => h a (TransGen.mono hs a a ha)

/-- The relation with one more edge. -/
def insertEdge (R : α → α → Prop) (a b : α) : α → α → Prop :=
  fun x y => R x y ∨ (x = a ∧ y = b)

/-- A path of the larger relation uses the new edge at most once, when the
target of the edge does not lead back to its source. -/
theorem path_insertEdge {a b x y : α} (hb : ¬ ReflTransGen R b a)
    (h : ReflTransGen (insertEdge R a b) x y) :
    ReflTransGen R x y ∨ (ReflTransGen R x a ∧ ReflTransGen R b y) := by
  induction h using ReflTransGen.head_induction_on with
  | refl => exact Or.inl ReflTransGen.refl
  | head hstep _ ih =>
    rcases hstep with hR | ⟨rfl, rfl⟩
    · exact ih.imp (ReflTransGen.head hR) (And.imp_left (ReflTransGen.head hR))
    · rcases ih with ih | ⟨ih, _⟩
      · exact Or.inr ⟨ReflTransGen.refl, ih⟩
      · exact absurd ih hb

/-- An edge whose target does not lead back to its source closes no cycle. -/
theorem acyclic_insertEdge (h : Acyclic R) {a b : α} (hb : ¬ ReflTransGen R b a) :
    Acyclic (insertEdge R a b) := by
  intro x hx
  obtain ⟨y, hy, hpath⟩ := TransGen.head'_iff.mp hx
  rcases hy with hR | ⟨rfl, rfl⟩ <;> rcases path_insertEdge hb hpath with hp | ⟨hya, hbx⟩
  · exact h x (TransGen.head' hR hp)
  · exact hb (hbx.trans (ReflTransGen.head hR hya))
  · exact hb hp
  · exact hb hya

section Walk

variable [DecidableEq α] {next : α → Option α} {goal : α}

/-- Follow `next` until `goal` is met or the path ends, `none` when the fuel
runs out first. -/
def walk (next : α → Option α) (goal : α) : Nat → α → Option Bool
  | 0, _ => none
  | n + 1, a =>
    if a = goal then some true
    else match next a with
      | none => some false
      | some b => walk next goal n b

/-- A walk that ends has seen all that is reachable, when along it `next` is
the only edge. -/
theorem walk_false {n : Nat} {a : α}
    (hf : ∀ x, ReflTransGen R a x → x ≠ goal → ∀ y, R x y → next x = some y)
    (h : walk next goal n a = some false) :
    ¬ ReflTransGen R a goal := by
  induction n generalizing a with
  | zero => simp [walk] at h
  | succ n ih =>
    rw [walk] at h
    split at h
    · simp at h
    next hne =>
      intro hpath
      rcases ReflTransGen.cases_head hpath with he | ⟨b, hb, hrest⟩
      · exact hne he
      · have hnext := hf a ReflTransGen.refl hne b hb
        simp only [hnext] at h
        exact ih (fun x hx => hf x (ReflTransGen.head hb hx)) h hrest

end Walk

end Aix413.Lib.WaitGraph
