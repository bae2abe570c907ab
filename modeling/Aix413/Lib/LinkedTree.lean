import Mathlib.Data.Tree.Basic
import Mathlib.Tactic

namespace Aix413.Lib.LinkedTree

open BinaryTree

/-! ## Trees and places in them -/

variable {α : Type*}

def inorder : BinaryTree α → List α
  | nil => []
  | node a l r => inorder l ++ a :: inorder r

/-- A node on the way down, with the side that is not taken. -/
inductive Frame (α : Type*)
  | left (a : α) (r : BinaryTree α)
  | right (a : α) (l : BinaryTree α)

/-- The tree around a place, the innermost node first. -/
def plug : List (Frame α) → BinaryTree α → BinaryTree α
  | [], t => t
  | .left a r :: c, t => plug c (node a t r)
  | .right a l :: c, t => plug c (node a l t)

/-- The nodes before a place. -/
def before : List (Frame α) → List α
  | [] => []
  | .left _ _ :: c => before c
  | .right a l :: c => before c ++ inorder l ++ [a]

/-- The nodes after a place. -/
def after : List (Frame α) → List α
  | [] => []
  | .left a r :: c => a :: inorder r ++ after c
  | .right _ _ :: c => after c

theorem inorder_plug (c : List (Frame α)) (t : BinaryTree α) :
    inorder (plug c t) = before c ++ inorder t ++ after c := by
  induction c generalizing t with
  | nil => simp [plug, before, after]
  | cons f c ih =>
    cases f with
    | left a r =>
      rw [plug, ih, inorder, before, after]
      simp
    | right a l =>
      rw [plug, ih, inorder, before, after]
      simp

theorem plug_append (c₁ c₂ : List (Frame α)) (t : BinaryTree α) :
    plug (c₁ ++ c₂) t = plug c₂ (plug c₁ t) := by
  induction c₁ generalizing t with
  | nil => rfl
  | cons f c₁ ih => cases f <;> exact ih _

theorem before_append (c₁ c₂ : List (Frame α)) :
    before (c₁ ++ c₂) = before c₂ ++ before c₁ := by
  induction c₁ with
  | nil => simp [before]
  | cons f c₁ ih =>
    cases f with
    | left a r => exact ih
    | right a l =>
      change before (c₁ ++ c₂) ++ inorder l ++ [a] = before c₂ ++ (before c₁ ++ inorder l ++ [a])
      rw [ih]
      simp

theorem after_append (c₁ c₂ : List (Frame α)) : after (c₁ ++ c₂) = after c₁ ++ after c₂ := by
  induction c₁ with
  | nil => rfl
  | cons f c₁ ih =>
    cases f with
    | left a r =>
      change a :: inorder r ++ after (c₁ ++ c₂) = a :: inorder r ++ after c₁ ++ after c₂
      rw [ih]
      simp
    | right a l => exact ih

/-! ## Linked nodes -/

/-- Nodes are numbers, and 0 is none. -/
structure Links where
  root : Nat
  llink : Nat → Nat
  rlink : Nat → Nat

/-- Where a link is kept. -/
inductive Link
  | root
  | llink (a : Nat)
  | rlink (a : Nat)
deriving DecidableEq

variable {s s' : Links} {t u : BinaryTree Nat} {c : List (Frame Nat)} {a b p q : Nat}

def Links.get (s : Links) : Link → Nat
  | .root => s.root
  | .llink a => s.llink a
  | .rlink a => s.rlink a

def Links.set (s : Links) (k : Link) (q : Nat) : Links :=
  match k with
  | .root => { s with root := q }
  | .llink a => { s with llink := Function.update s.llink a q }
  | .rlink a => { s with rlink := Function.update s.rlink a q }

@[simp] theorem Links.get_set (s : Links) (k : Link) (q : Nat) : (s.set k q).get k = q := by
  cases k with
  | root => rfl
  | llink a => exact Function.update_self _ _ _
  | rlink a => exact Function.update_self _ _ _

theorem Links.get_set_ne (s : Links) {k k' : Link} (h : k' ≠ k) (q : Nat) :
    (s.set k q).get k' = s.get k' := by
  cases k <;> cases k' <;>
    first
    | exact absurd rfl h
    | rfl
    | exact Function.update_of_ne (fun he => h (congrArg _ he)) _ _

/-- Link `p` leads to the tree `t`. -/
def Shape (s : Links) : Nat → BinaryTree Nat → Prop
  | p, nil => p = 0
  | p, node a l r => p = a ∧ a ≠ 0 ∧ Shape s (s.llink a) l ∧ Shape s (s.rlink a) r

/-- The links of a node that is not in the tree do not matter. -/
theorem Shape.congr (h : Shape s p t)
    (hs : ∀ a ∈ inorder t, s'.llink a = s.llink a ∧ s'.rlink a = s.rlink a) : Shape s' p t := by
  induction t generalizing p with
  | nil => exact h
  | node a l r ihl ihr =>
    obtain ⟨hp, ha, hl, hr⟩ := h
    have hmem : ∀ b, b ∈ inorder l ∨ b = a ∨ b ∈ inorder r → b ∈ inorder (node a l r) := by
      intro b hb
      simpa [inorder] using hb
    obtain ⟨hla, hra⟩ := hs a (hmem a (.inr (.inl rfl)))
    refine ⟨hp, ha, ?_, ?_⟩
    · rw [hla]
      exact ihl hl fun b hb => hs b (hmem b (.inl hb))
    · rw [hra]
      exact ihr hr fun b hb => hs b (hmem b (.inr (.inr hb)))

theorem Shape.eq_nil (h : Shape s 0 t) : t = nil := by
  cases t with
  | nil => rfl
  | node a l r => exact absurd h.1.symm h.2.1

/-- The link that leads to a place. -/
def place : List (Frame Nat) → Link
  | [] => .root
  | .left a _ :: _ => .llink a
  | .right a _ :: _ => .rlink a

/-- The nodes around a place are linked. -/
def Hole (s : Links) : List (Frame Nat) → Prop
  | [] => True
  | .left a r :: c => s.get (place c) = a ∧ a ≠ 0 ∧ Shape s (s.rlink a) r ∧ Hole s c
  | .right a l :: c => s.get (place c) = a ∧ a ≠ 0 ∧ Shape s (s.llink a) l ∧ Hole s c

theorem shape_plug : Shape s s.root (plug c t) ↔ Hole s c ∧ Shape s (s.get (place c)) t := by
  induction c generalizing t with
  | nil =>
    simp only [plug, Hole, true_and]
    rfl
  | cons f c ih =>
    cases f with
    | left a r =>
      rw [plug, ih]
      change Hole s c ∧ _ = a ∧ a ≠ 0 ∧ Shape s (s.llink a) t ∧ Shape s (s.rlink a) r ↔
        (_ = a ∧ a ≠ 0 ∧ Shape s (s.rlink a) r ∧ Hole s c) ∧ Shape s (s.llink a) t
      tauto
    | right a l =>
      rw [plug, ih]
      change Hole s c ∧ _ = a ∧ a ≠ 0 ∧ Shape s (s.llink a) l ∧ Shape s (s.rlink a) t ↔
        (_ = a ∧ a ≠ 0 ∧ Shape s (s.llink a) l ∧ Hole s c) ∧ Shape s (s.rlink a) t
      tauto

/-- The link to a place is in one of the nodes around it. -/
theorem place_mem (c : List (Frame Nat)) :
    place c = .root ∨ ∃ a ∈ before c ++ after c, place c = .llink a ∨ place c = .rlink a := by
  cases c with
  | nil => exact .inl rfl
  | cons f c =>
    cases f with
    | left a r => exact .inr ⟨a, by simp [after], .inl rfl⟩
    | right a l => exact .inr ⟨a, by simp [before], .inr rfl⟩

theorem place_ne (ha : a ∉ before c ++ after c) : place c ≠ .llink a ∧ place c ≠ .rlink a := by
  rcases place_mem c with hp | ⟨b, hb, hp | hp⟩
  · rw [hp]
    exact ⟨nofun, nofun⟩
  · rw [hp]
    refine ⟨fun he => ?_, nofun⟩
    cases he
    exact ha hb
  · rw [hp]
    refine ⟨nofun, fun he => ?_⟩
    cases he
    exact ha hb

/-- The links of a node that is not around the place do not matter. -/
theorem Hole.congr (h : Hole s c) (hroot : s'.root = s.root)
    (hs : ∀ a ∈ before c ++ after c, s'.llink a = s.llink a ∧ s'.rlink a = s.rlink a) :
    Hole s' c := by
  induction c with
  | nil => trivial
  | cons f c ih =>
    have hget : (∀ a ∈ before c ++ after c, s'.llink a = s.llink a ∧ s'.rlink a = s.rlink a) →
        s'.get (place c) = s.get (place c) := by
      intro hs
      rcases place_mem c with hp | ⟨b, hb, hp | hp⟩
      · rw [hp]
        exact hroot
      · rw [hp]
        exact (hs b hb).1
      · rw [hp]
        exact (hs b hb).2
    cases f with
    | left a r =>
      obtain ⟨hp, ha, hr, hc⟩ := h
      have hs' : ∀ b ∈ before c ++ after c, s'.llink b = s.llink b ∧ s'.rlink b = s.rlink b := by
        intro b hb
        refine hs b ?_
        simp only [before, after, List.mem_append, List.mem_cons] at hb ⊢
        tauto
      refine ⟨(hget hs').trans hp, ha, ?_, ih hc hs'⟩
      rw [(hs a (by simp [after])).2]
      exact hr.congr fun b hb => hs b (by simp [after, hb])
    | right a l =>
      obtain ⟨hp, ha, hl, hc⟩ := h
      have hs' : ∀ b ∈ before c ++ after c, s'.llink b = s.llink b ∧ s'.rlink b = s.rlink b := by
        intro b hb
        refine hs b ?_
        simp only [before, after, List.mem_append, List.mem_cons] at hb ⊢
        tauto
      refine ⟨(hget hs').trans hp, ha, ?_, ih hc hs'⟩
      rw [(hs a (by simp [before])).1]
      exact hl.congr fun b hb => hs b (by simp [before, hb])

/-- The link to a place may be changed. -/
theorem Hole.set (h : Hole s c) (hnd : (before c ++ after c).Nodup) (q : Nat) :
    Hole (s.set (place c) q) c := by
  cases c with
  | nil => trivial
  | cons f c =>
    cases f with
    | left a r =>
      obtain ⟨hp, ha, hr, hc⟩ := h
      have hac : a ∉ before c ++ after c ∧ a ∉ inorder r := by
        simp only [before, after, List.cons_append, List.nodup_append, List.nodup_cons,
          List.mem_append, List.mem_cons] at hnd ⊢
        grind
      have hne : ∀ b, b ≠ a → (s.set (.llink a) q).llink b = s.llink b ∧
          (s.set (.llink a) q).rlink b = s.rlink b := fun b hb =>
        ⟨Function.update_of_ne hb _ _, rfl⟩
      refine ⟨?_, ha, hr.congr fun b hb => hne b fun he => hac.2 (he ▸ hb),
        hc.congr rfl fun b hb => hne b fun he => hac.1 (he ▸ hb)⟩
      rw [place, Links.get_set_ne _ (place_ne hac.1).1]
      exact hp
    | right a l =>
      obtain ⟨hp, ha, hl, hc⟩ := h
      have hac : a ∉ before c ++ after c ∧ a ∉ inorder l := by
        simp only [before, after, List.append_assoc, List.nodup_append, List.nodup_cons,
          List.mem_append, List.mem_cons] at hnd ⊢
        grind
      have hne : ∀ b, b ≠ a → (s.set (.rlink a) q).llink b = s.llink b ∧
          (s.set (.rlink a) q).rlink b = s.rlink b := fun b hb =>
        ⟨rfl, Function.update_of_ne hb _ _⟩
      refine ⟨?_, ha, hl.congr fun b hb => hne b fun he => hac.2 (he ▸ hb),
        hc.congr rfl fun b hb => hne b fun he => hac.1 (he ▸ hb)⟩
      rw [place, Links.get_set_ne _ (place_ne hac.1).2]
      exact hp

/-- Another tree is put in a place. -/
theorem shape_replace (h : Hole s c) (hu : Shape s q u) (hnd : (before c ++ after c).Nodup)
    (hdisj : ∀ a ∈ inorder u, a ∉ before c ++ after c) :
    Shape (s.set (place c) q) (s.set (place c) q).root (plug c u) := by
  refine shape_plug.mpr ⟨h.set hnd q, ?_⟩
  rw [Links.get_set]
  refine hu.congr fun a ha => ?_
  rcases place_mem c with hp | ⟨b, hb, hp | hp⟩
  · rw [hp]
    exact ⟨rfl, rfl⟩
  · rw [hp]
    exact ⟨Function.update_of_ne (fun he : a = b => hdisj a ha (he.symm ▸ hb)) _ _, rfl⟩
  · rw [hp]
    exact ⟨rfl, Function.update_of_ne (fun he : a = b => hdisj a ha (he.symm ▸ hb)) _ _⟩

/-! ## Search -/

section Search

variable {β : Type*} {ans : β → Int} {d : List (Frame β)} {v w : BinaryTree β} {x y : β}

theorem length_inorder_node (x : β) (v w : BinaryTree β) :
    (inorder (node x v w)).length = (inorder v).length + (inorder w).length + 1 := by
  rw [inorder, List.length_append, List.length_cons]
  rfl

/-- The nodes of `l` where the answer is positive, zero and negative come in this order, and it is
zero for one at most. -/
def Cuts (ans : β → Int) (l : List β) : Prop := l.Pairwise fun x y => 0 < ans x ∨ ans y < 0

theorem Cuts.unique {l : List β} (h : Cuts ans l) (hx : x ∈ l) (hy : y ∈ l) (hx0 : ans x = 0)
    (hy0 : ans y = 0) : x = y := by
  by_contra hne
  obtain ⟨l₁, l₂, rfl⟩ := List.append_of_mem hx
  obtain ⟨-, h₂, h₁⟩ := List.pairwise_append.mp h
  rcases List.mem_append.mp hy with hy | hy
  · have := h₁ y hy x List.mem_cons_self
    omega
  · have := (List.pairwise_cons.mp h₂).1 y ((List.mem_cons.mp hy).resolve_left (Ne.symm hne))
    omega

/-- Where the way down by the answers ends. -/
def seek (ans : β → Int) : List (Frame β) → BinaryTree β → List (Frame β) × BinaryTree β
  | d, nil => (d, nil)
  | d, node x v w =>
    if ans x = 0 then (d, node x v w)
    else if ans x < 0 then seek ans (.left x w :: d) v
    else seek ans (.right x v :: d) w

theorem plug_seek (ans : β → Int) (d : List (Frame β)) (v : BinaryTree β) :
    plug (seek ans d v).1 (seek ans d v).2 = plug d v := by
  induction v generalizing d with
  | nil => rfl
  | node x v w ihv ihw =>
    rw [seek]
    split_ifs
    · rfl
    · exact ihv _
    · exact ihw _

theorem seek_end (ans : β → Int) (d : List (Frame β)) (v : BinaryTree β) :
    (seek ans d v).2 = nil ∨ ∃ x l r, (seek ans d v).2 = node x l r ∧ ans x = 0 := by
  induction v generalizing d with
  | nil => exact .inl rfl
  | node x v w ihv ihw =>
    rw [seek]
    split_ifs with h
    · exact .inr ⟨x, v, w, rfl, h⟩
    · exact ihv _
    · exact ihw _

/-- Nodes before the end of the way have positive answers, and those after it negative ones. -/
theorem seek_sides (h : Cuts ans (inorder (plug d v))) (hb : ∀ x ∈ before d, 0 < ans x)
    (ha : ∀ x ∈ after d, ans x < 0) :
    (∀ x ∈ before (seek ans d v).1, 0 < ans x) ∧ ∀ x ∈ after (seek ans d v).1, ans x < 0 := by
  induction v generalizing d with
  | nil => exact ⟨hb, ha⟩
  | node x v w ihv ihw =>
    have hin := h
    rw [inorder_plug, inorder, List.append_assoc] at hin
    obtain ⟨-, hmid, -⟩ := List.pairwise_append.mp hin
    obtain ⟨hsub, -, -⟩ := List.pairwise_append.mp hmid
    obtain ⟨-, hw, hv⟩ := List.pairwise_append.mp hsub
    rw [seek]
    split_ifs with h₁ h₂
    · exact ⟨hb, ha⟩
    · refine ihv h hb fun y hy => ?_
      rcases List.mem_append.mp hy with hy | hy
      · rcases List.mem_cons.mp hy with rfl | hy
        · exact h₂
        · have := (List.pairwise_cons.mp hw).1 y hy
          omega
      · exact ha y hy
    · refine ihw h (fun y hy => ?_) ha
      rcases List.mem_append.mp hy with hy | hy
      · rcases List.mem_append.mp hy with hy | hy
        · exact hb y hy
        · have := hv y hy x List.mem_cons_self
          omega
      · rw [List.mem_singleton.mp hy]
        omega

end Search

end Aix413.Lib.LinkedTree
