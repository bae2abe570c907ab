import Aix413.Lib.Partition
import Aix413.Tsearch.Tree

namespace Aix413.Tsearch

open BinaryTree Lib.LinkedTree Lib.Partition

variable {κ : Type} {compar : κ → κ → Int} {t t' : Tree κ} {key : κ} {mem : Option Nat}
  {c : List (Frame Nat)} {s l r : BinaryTree Nat} {a b p q fuel : Nat}

/-! ## The way down -/

/-- What the comparison says of the nodes. -/
def Tree.ans (compar : κ → κ → Int) (t : Tree κ) (key : κ) (a : Nat) : Int := compar key (t.key a)

namespace Tree

theorem get_nil (h : Shape t.toLinks t.root (plug c nil)) : t.get (place c) = 0 :=
  (shape_plug.mp h).2

theorem get_node (h : Shape t.toLinks t.root (plug c (node a l r))) :
    t.get (place c) = a ∧ a ≠ 0 :=
  ⟨(shape_plug.mp h).2.1, (shape_plug.mp h).2.2.1⟩

/-- `tsearch` goes where the comparisons lead. -/
theorem tsearch_eq (h : Shape t.toLinks t.root (plug c s)) (hf : (inorder s).length < fuel) :
    t.tsearch compar key mem fuel (place c) =
      match seek (t.ans compar key) c s with
      | (_, node a _ _) => some (a, t)
      | (c', nil) =>
        match mem with
        | none => some (0, t)
        | some q => some (q, t.newNode (place c') q key) := by
  induction s generalizing c fuel with
  | nil =>
    obtain ⟨fuel, rfl⟩ : ∃ n, fuel = n + 1 := ⟨fuel - 1, by omega⟩
    unfold Tree.tsearch
    dsimp only
    rw [get_nil h, if_neg (by simp)]
    rfl
  | node a l r ihl ihr =>
    obtain ⟨fuel, rfl⟩ : ∃ n, fuel = n + 1 := ⟨fuel - 1, by omega⟩
    rw [length_inorder_node] at hf
    obtain ⟨hget, ha⟩ := get_node h
    unfold Tree.tsearch
    dsimp only
    rw [hget, if_pos ha, seek]
    have hans : t.ans compar key a = compar key (t.key a) := rfl
    rw [hans]
    split_ifs
    · rfl
    · exact ihl (c := .left a r :: c) h (by omega)
    · exact ihr (c := .right a l :: c) h (by omega)

theorem tfind_eq (h : Shape t.toLinks t.root (plug c s)) (hf : (inorder s).length < fuel) :
    t.tfind compar key fuel (place c) =
      match seek (t.ans compar key) c s with
      | (_, node a _ _) => some a
      | (_, nil) => some 0 := by
  induction s generalizing c fuel with
  | nil =>
    obtain ⟨fuel, rfl⟩ : ∃ n, fuel = n + 1 := ⟨fuel - 1, by omega⟩
    unfold Tree.tfind
    dsimp only
    rw [get_nil h, if_neg (by simp)]
    rfl
  | node a l r ihl ihr =>
    obtain ⟨fuel, rfl⟩ : ∃ n, fuel = n + 1 := ⟨fuel - 1, by omega⟩
    rw [length_inorder_node] at hf
    obtain ⟨hget, ha⟩ := get_node h
    unfold Tree.tfind
    dsimp only
    rw [hget, if_pos ha, seek]
    have hans : t.ans compar key a = compar key (t.key a) := rfl
    rw [hans]
    split_ifs
    · rfl
    · exact ihl (c := .left a r :: c) h (by omega)
    · exact ihr (c := .right a l :: c) h (by omega)

/-- The node above a place, `p` if there is none. -/
def parent (p : Nat) : List (Frame Nat) → Nat
  | [] => p
  | .left a _ :: _ => a
  | .right a _ :: _ => a

/-- The link that ends a search and the node it is in, with the outcome of the search. -/
def located (p : Nat) : List (Frame Nat) × BinaryTree Nat → Option (Option (Nat × Link))
  | (c, node _ _ _) => some (some (parent p c, place c))
  | (_, nil) => some none

theorem locate_eq (hs : s ≠ nil) (h : Shape t.toLinks t.root (plug c s))
    (hf : (inorder s).length ≤ fuel) :
    t.locate compar key fuel (parent p c) (place c) =
      located p (seek (t.ans compar key) c s) := by
  induction s generalizing c fuel with
  | nil => exact absurd rfl hs
  | node a l r ihl ihr =>
    rw [length_inorder_node] at hf
    obtain ⟨fuel, rfl⟩ : ∃ n, fuel = n + 1 := ⟨fuel - 1, by omega⟩
    obtain ⟨hget, ha⟩ := get_node h
    unfold Tree.locate
    dsimp only
    rw [hget, seek]
    have hans : t.ans compar key a = compar key (t.key a) := rfl
    rw [hans]
    by_cases h₁ : compar key (t.key a) = 0
    · rw [if_pos h₁, if_pos h₁]
      rfl
    rw [if_neg h₁, if_neg h₁]
    by_cases h₂ : compar key (t.key a) < 0
    · rw [if_pos h₂, if_pos h₂]
      cases l with
      | nil =>
        have hz : t.get (.llink a) = 0 := get_nil (c := .left a r :: c) h
        rw [if_pos hz]
        rfl
      | node b l' r' =>
        have hz : t.get (.llink a) ≠ 0 := by
          obtain ⟨hb, hb0⟩ := get_node (c := .left a r :: c) h
          exact hb.trans_ne hb0
        rw [if_neg hz]
        exact ihl (c := .left a r :: c) (by simp) h (by omega)
    · rw [if_neg h₂, if_neg h₂]
      cases r with
      | nil =>
        have hz : t.get (.rlink a) = 0 := get_nil (c := .right a l :: c) h
        rw [if_pos hz]
        rfl
      | node b l' r' =>
        have hz : t.get (.rlink a) ≠ 0 := by
          obtain ⟨hb, hb0⟩ := get_node (c := .right a l :: c) h
          exact hb.trans_ne hb0
        rw [if_neg hz]
        exact ihr (c := .right a l :: c) (by simp) h (by omega)

/-! ## A node is added -/

/-- A new node takes an empty place. -/
theorem newNode_shape (h : Shape t.toLinks t.root (plug c nil)) (hq : q ≠ 0)
    (hnd : (before c ++ after c).Nodup) (hnot : q ∉ before c ++ after c) (key : κ) :
    Shape (t.newNode (place c) q key).toLinks (t.newNode (place c) q key).root
      (plug c (node q nil nil)) := by
  obtain ⟨hhole, -⟩ := shape_plug.mp h
  -- writing the links of the new node changes nothing around the place
  have hhole₁ : Hole ((t.toLinks.set (.rlink q) 0).set (.llink q) 0) c :=
    hhole.congr rfl fun a ha => by
      have hne : a ≠ q := fun he => hnot (he ▸ ha)
      exact ⟨Function.update_of_ne hne _ _, Function.update_of_ne hne _ _⟩
  have hleaf : Shape ((t.toLinks.set (.rlink q) 0).set (.llink q) 0) q (node q nil nil) :=
    ⟨rfl, hq, Function.update_self _ _ _, Function.update_self _ _ _⟩
  have hput := shape_replace hhole₁ hleaf hnd fun a ha => by
    rw [show a = q by simpa [inorder] using ha]
    exact hnot
  have hcomm : (t.newNode (place c) q key).toLinks =
      ((t.toLinks.set (.rlink q) 0).set (.llink q) 0).set (place c) q := by
    obtain ⟨hl, hr⟩ := place_ne hnot
    change ((t.toLinks.set (place c) q).set (.rlink q) 0).set (.llink q) 0 = _
    cases hp : place c with
    | root => rfl
    | llink a =>
      have hne : a ≠ q := fun he => hl (he ▸ hp)
      exact congrArg (fun f => Links.mk t.root f (Function.update t.rlink q 0))
        (Function.update_comm hne _ _ _)
    | rlink a =>
      have hne : a ≠ q := fun he => hr (he ▸ hp)
      exact congrArg (fun f => Links.mk t.root (Function.update t.llink q 0) f)
        (Function.update_comm hne _ _ _)
  rw [hcomm]
  exact hput

/-! ## A node is deleted -/

/-- The first node of the tree `s`, with the way to it along left links. -/
theorem successor_spec (ha : Shape t.toLinks p (node a l r)) (hf : (inorder l).length < fuel)
    (b : Nat) :
    ∃ d q w, t.successor fuel b p = some (parent b d, q) ∧ before d = [] ∧
      plug d (node q nil w) = node a l r ∧ ∀ c, place (d ++ .left b s :: c) = .llink (parent b d) := by
  induction l generalizing p a r fuel b s with
  | nil =>
    obtain ⟨fuel, rfl⟩ : ∃ n, fuel = n + 1 := ⟨fuel - 1, by omega⟩
    obtain ⟨rfl, -, hl, -⟩ := ha
    refine ⟨[], p, r, ?_, rfl, rfl, fun c => rfl⟩
    unfold successor
    have hz : t.llink p = 0 := hl
    rw [if_neg (by simp [hz])]
    rfl
  | node a' l' r' ihl _ =>
    obtain ⟨fuel, rfl⟩ : ∃ n, fuel = n + 1 := ⟨fuel - 1, by omega⟩
    obtain ⟨rfl, -, hl, -⟩ := ha
    rw [length_inorder_node] at hf
    obtain ⟨d, q, w, hrun, hb, hplug, hplace⟩ :=
      ihl (s := r) hl (show _ < fuel by omega) p
    have hparent : parent b (d ++ [.left p r]) = parent p d := by
      cases d with
      | nil => rfl
      | cons f d => cases f <;> rfl
    have hget : t.llink p ≠ 0 := by
      rw [hl.1]
      exact hl.2.1
    refine ⟨d ++ [.left p r], q, w, ?_, ?_, ?_, fun c => ?_⟩
    · unfold successor
      rw [if_pos hget, hrun, hparent]
    · rw [before_append, hb]
      rfl
    · rw [plug_append, hplug]
      rfl
    · rw [hparent, List.append_assoc]
      exact hplace _

theorem put_llink (t : Tree κ) (b q : Nat) (ha : a ≠ b) :
    (t.put (.llink b) q).llink a = t.llink a ∧ (t.put (.llink b) q).rlink a = t.rlink a :=
  ⟨Function.update_of_ne ha _ _, rfl⟩

/-- `D2`: the right son has no left son. -/
theorem replacement_son (h : Shape t.toLinks t.root (plug c (node a l (node b nil r))))
    (hnd : (inorder (plug c (node a l (node b nil r)))).Nodup) :
    Hole (t.put (.llink b) (t.llink a)).toLinks c ∧
      Shape (t.put (.llink b) (t.llink a)).toLinks b (node b l r) ∧
      (t.put (.llink b) (t.llink a)).get (place c) = a := by
  obtain ⟨hhole, hget, ha, hl, -, hb, -, hr⟩ := shape_plug.mp h
  have hnot : b ∉ before c ++ after c ∧ b ∉ inorder l ∧ b ∉ inorder r := by
    rw [inorder_plug, inorder, inorder, inorder] at hnd
    simp only [List.append_assoc, List.nodup_append, List.nodup_cons, List.mem_append,
      List.mem_cons, List.nil_append, List.cons_append] at hnd ⊢
    grind
  refine ⟨hhole.congr rfl fun x hx => t.put_llink b _ fun he => hnot.1 (he ▸ hx), ⟨rfl, hb, ?_, ?_⟩,
    ?_⟩
  · have hself : (t.put (.llink b) (t.llink a)).llink b = t.llink a := Function.update_self _ _ _
    rw [hself]
    exact hl.congr fun x hx => t.put_llink b _ fun he => hnot.2.1 (he ▸ hx)
  · exact hr.congr fun x hx => t.put_llink b _ fun he => hnot.2.2 (he ▸ hx)
  · exact (t.toLinks.get_set_ne (place_ne hnot.1).1 _).trans hget

/-- `D3`: the successor `q` is taken out of the right subtree and gets the links of `a`. -/
theorem replacement_successor {d : List (Frame Nat)} {w : BinaryTree Nat}
    (h : Shape t.toLinks t.root (plug c (node a l (plug d (node q nil w)))))
    (hnd : (inorder (plug c (node a l (plug d (node q nil w))))).Nodup) (hb : before d = [])
    (hp : place (d ++ .right a l :: c) = .llink p) :
    let t₁ := t.put (.llink p) (t.rlink q)
    let t₂ := t₁.put (.llink q) (t₁.llink a)
    let t₃ := t₂.put (.rlink q) (t₂.rlink a)
    Hole t₃.toLinks c ∧ Shape t₃.toLinks q (node q l (plug d w)) ∧ t₃.get (place c) = a := by
  intro t₁ t₂ t₃
  have hwhole : ∀ v, plug (d ++ .right a l :: c) v = plug c (node a l (plug d v)) := fun v => by
    rw [plug_append]
    rfl
  have hin : ∀ v, inorder (plug c (node a l (plug d v))) =
      before c ++ (inorder l ++ a :: (inorder v ++ after d)) ++ after c := fun v => by
    rw [inorder_plug, inorder, inorder_plug, hb]
    rfl
  rw [← hwhole] at h
  obtain ⟨hhole, -, hq, -, hw⟩ := shape_plug.mp h
  rw [hin, inorder, inorder] at hnd
  have hq' : q ∉ inorder (plug c (node a l (plug d w))) := by
    rw [hin]
    simp only [List.append_assoc, List.nodup_append, List.nodup_cons, List.mem_append,
      List.mem_cons, List.nil_append, List.cons_append] at hnd ⊢
    grind
  have hsplit := inorder_plug (d ++ .right a l :: c) w
  rw [hwhole, hin] at hsplit
  have hnd' : (before (d ++ .right a l :: c) ++ inorder w ++ after (d ++ .right a l :: c)).Nodup := by
    have hsub : (inorder w ++ after d).Sublist (q :: (inorder w ++ after d)) :=
      List.sublist_cons_self q _
    rw [← hsplit]
    exact hnd.sublist (((List.Sublist.refl _).append ((List.Sublist.refl _).append
      (hsub.cons_cons a))).append (List.Sublist.refl _))
  have h₁ : Shape t₁.toLinks t₁.root (plug c (node a l (plug d w))) := by
    have hrep := shape_replace hhole hw (by
      simp only [List.append_assoc, List.nodup_append, List.mem_append] at hnd' ⊢
      grind) fun x hx => by
        simp only [List.append_assoc, List.nodup_append, List.mem_append] at hnd' ⊢
        grind
    rw [hp, hwhole] at hrep
    exact hrep
  have h₃ : Shape t₃.toLinks t₃.root (plug c (node a l (plug d w))) := by
    refine h₁.congr fun x hx => ?_
    have hne : x ≠ q := fun he => hq' (he ▸ hx)
    exact ⟨Function.update_of_ne hne _ _, Function.update_of_ne hne _ _⟩
  obtain ⟨hhole₃, hget, ha, hl, hr⟩ := shape_plug.mp h₃
  have haq : a ≠ q := by
    rintro rfl
    refine hq' ?_
    rw [hin]
    simp
  have hql : t₃.llink q = t₃.llink a := by
    change Function.update t₁.llink q (t₁.llink a) q = Function.update t₁.llink q (t₁.llink a) a
    rw [Function.update_self, Function.update_of_ne haq]
  have hqr : t₃.rlink q = t₃.rlink a := by
    change Function.update t₂.rlink q (t₂.rlink a) q = Function.update t₂.rlink q (t₂.rlink a) a
    rw [Function.update_self, Function.update_of_ne haq]
  refine ⟨hhole₃, ⟨rfl, hq, ?_, ?_⟩, hget⟩
  · rw [hql]
    exact hl
  · rw [hqr]
    exact hr

/-- What takes the place of `a` has the other nodes below `a`, in order. -/
theorem replacement_spec (h : Shape t.toLinks t.root (plug c (node a l r)))
    (hnd : (inorder (plug c (node a l r))).Nodup) (hf : (inorder r).length ≤ fuel) :
    ∃ q t' u, t.replacement fuel (place c) = some (q, t') ∧ t'.key = t.key ∧ t'.live = t.live ∧
      Hole t'.toLinks c ∧ Shape t'.toLinks q u ∧ inorder u = inorder l ++ inorder r ∧
      t'.get (place c) = a := by
  obtain ⟨hhole, hget, ha, hl, hr⟩ := shape_plug.mp h
  change t.get (place c) = a at hget
  unfold replacement
  dsimp only
  rw [hget]
  cases l with
  | nil =>
    have hz : t.llink a = 0 := hl
    rw [if_pos hz]
    exact ⟨_, t, r, rfl, rfl, rfl, hhole, hr, rfl, hget⟩
  | node a' l' r' =>
    have hz : t.llink a ≠ 0 := by
      rw [hl.1]
      exact hl.2.1
    rw [if_neg hz]
    cases r with
    | nil =>
      have hr0 : t.rlink a = 0 := hr
      rw [if_neg (by simp [hr0])]
      exact ⟨_, t, _, rfl, rfl, rfl, hhole, hl, (List.append_nil _).symm, hget⟩
    | node b rl rr =>
      obtain ⟨hb, hb0, hrl, hrr⟩ := id hr
      rw [hb, if_pos hb0]
      cases rl with
      | nil =>
        have hbl : t.llink b = 0 := hrl
        rw [if_pos hbl]
        obtain ⟨hhole', hshape, hget'⟩ := replacement_son h hnd
        exact ⟨b, _, _, rfl, rfl, rfl, hhole', hshape, by simp [inorder], hget'⟩
      | node b' l'' r'' =>
        have hbl : t.llink b ≠ 0 := by
          rw [hrl.1]
          exact hrl.2.1
        rw [if_neg hbl]
        rw [length_inorder_node, length_inorder_node] at hf
        obtain ⟨d, q, w, hrun, hd, hplug, hplace⟩ :=
          successor_spec (s := rr) hrl (show _ < fuel by omega) b
        have hplug' : plug (d ++ [.left b rr]) (node q nil w) = node b (node b' l'' r'') rr := by
          rw [plug_append, hplug]
          rfl
        have hbefore : before (d ++ [.left b rr]) = [] := by
          rw [before_append, hd]
          rfl
        rw [← hplug'] at h hnd ⊢
        obtain ⟨hhole', hshape, hget'⟩ := replacement_successor h hnd hbefore
          (by rw [List.append_assoc]; exact hplace _)
        rw [hrun, Option.map_some]
        refine ⟨q, _, _, rfl, rfl, rfl, hhole', hshape, ?_, hget'⟩
        rw [inorder, inorder_plug, inorder_plug, hbefore]
        rfl

end Tree

/-! ## The set -/

/-- The nodes of the tree are `l`, in the order of their keys, and no others are in use. -/
structure Ordered (compar : κ → κ → Int) (t : Tree κ) (l : List Nat) : Prop where
  nodes : ∃ s, Shape t.toLinks t.root s ∧ inorder s = l
  live : t.live = l.toFinset
  sorted : l.Pairwise fun a b => compar (t.key a) (t.key b) < 0

variable {l : List Nat}

theorem Ordered.nodup (hc : TotalPreorder compar) (h : Ordered compar t l) : l.Nodup :=
  h.sorted.imp fun {a b} hab he => by
    rw [he, hc.self] at hab
    exact lt_irrefl 0 hab

theorem Ordered.cuts (hc : TotalPreorder compar) (h : Ordered compar t l) (key : κ) :
    Cuts (t.ans compar key) l :=
  h.sorted.imp fun {a b} hab => by
    by_cases ha : 0 < t.ans compar key a
    · exact .inl ha
    · exact .inr (hc.lt_of_le_of_lt (Int.not_lt.mp ha) hab)

/-- The search ends at the node with an equal key, or at the place where it belongs. -/
theorem Ordered.seek (hc : TotalPreorder compar) (h : Ordered compar t l) (key : κ) :
    ∃ s c u, Shape t.toLinks t.root s ∧ (inorder s).length = l.length ∧
      Lib.LinkedTree.seek (t.ans compar key) [] s = (c, u) ∧ Shape t.toLinks t.root (plug c u) ∧
      l = before c ++ inorder u ++ after c ∧
      ((u = nil ∧ (∀ a ∈ before c, 0 < compar key (t.key a)) ∧
        (∀ a ∈ after c, compar key (t.key a) < 0) ∧ ∀ a ∈ l, compar key (t.key a) ≠ 0) ∨
      ∃ a v w, u = node a v w ∧ a ∈ l ∧ compar key (t.key a) = 0) := by
  obtain ⟨s, hs, rfl⟩ := h.nodes
  have hcuts : Cuts (t.ans compar key) (inorder (plug [] s)) := h.cuts hc key
  obtain ⟨hb, ha⟩ := seek_sides hcuts (fun _ hx => nomatch hx) fun _ hx => nomatch hx
  have hplug := plug_seek (t.ans compar key) [] s
  have hl : inorder s = before (Lib.LinkedTree.seek (t.ans compar key) [] s).1 ++
      inorder (Lib.LinkedTree.seek (t.ans compar key) [] s).2 ++
        after (Lib.LinkedTree.seek (t.ans compar key) [] s).1 := by
    rw [← inorder_plug, hplug]
    rfl
  refine ⟨s, _, _, hs, rfl, rfl, ?_, hl, ?_⟩
  · rw [hplug]
    exact hs
  · rcases seek_end (t.ans compar key) [] s with hnil | ⟨a, v, w, hnode, h0⟩
    · refine .inl ⟨hnil, hb, ha, fun a hal => ?_⟩
      rw [hl, hnil, inorder, List.append_nil] at hal
      rcases List.mem_append.mp hal with hal | hal
      · exact (hb a hal).ne'
      · exact (ha a hal).ne
    · refine .inr ⟨a, v, w, hnode, ?_, h0⟩
      rw [hl, hnode]
      simp [inorder]


/-- What `tsearch` promises. -/
def Enters (compar : κ → κ → Int) (t : Tree κ) (l : List Nat) (key : κ) (mem : Option Nat) (p : Nat)
    (t' : Tree κ) : Prop :=
  ((∃ a ∈ l, compar key (t.key a) = 0) → p ∈ l ∧ compar key (t.key p) = 0 ∧ t' = t) ∧
    ((∀ a ∈ l, compar key (t.key a) ≠ 0) →
      match mem with
      | none => p = 0 ∧ t' = t
      | some q => p = q ∧ t'.key = Function.update t.key q key ∧
        ∃ l₁ l₂, l = l₁ ++ l₂ ∧ Ordered compar t' (l₁ ++ q :: l₂))

theorem Ordered.tsearch (hc : TotalPreorder compar) (h : Ordered compar t l)
    (hmem : (Call.tsearch key mem).Allowed t) (hf : l.length < fuel) :
    ∃ p t', t.tsearch compar key mem fuel .root = some (p, t') ∧ Enters compar t l key mem p t' := by
  obtain ⟨s, c, u, hs, hlen, hseek, hplug, hl, hend⟩ := h.seek hc key
  have hrun : t.tsearch compar key mem fuel .root = _ :=
    Tree.tsearch_eq (c := []) hs (hlen ▸ hf)
  rw [hseek] at hrun
  rcases hend with ⟨rfl, hb, ha, hne⟩ | ⟨a, v, w, rfl, hal, h0⟩
  · rw [inorder, List.append_nil] at hl
    cases mem with
    | none =>
      refine ⟨0, t, hrun, ?_, fun _ => ⟨rfl, rfl⟩⟩
      rintro ⟨a, hal, h0⟩
      exact absurd h0 (hne a hal)
    | some q =>
      obtain ⟨hq, hlive⟩ := hmem
      rw [h.live, List.mem_toFinset, hl] at hlive
      have hnd := h.nodup hc
      rw [hl] at hnd
      refine ⟨q, t.newNode (place c) q key, hrun, ?_, fun _ =>
        ⟨rfl, rfl, before c, after c, hl, ⟨_, Tree.newNode_shape hplug hq hnd hlive key, ?_⟩,
          ?_, ?_⟩⟩
      · rintro ⟨a, hal, h0⟩
        exact absurd h0 (hne a hal)
      · rw [inorder_plug]
        simp [inorder]
      · change insert q t.live = _
        rw [h.live, hl]
        ext x
        simp only [Finset.mem_insert, List.mem_toFinset, List.mem_append, List.mem_cons]
        tauto
      · have hkey : ∀ a ∈ before c ++ after c, Function.update t.key q key a = t.key a :=
          fun a hal => Function.update_of_ne (fun he : a = q => hlive (he ▸ hal)) _ _
        have hself : Function.update t.key q key q = key := Function.update_self _ _ _
        have hsorted := h.sorted
        rw [hl] at hsorted
        obtain ⟨h₁, h₂, h₁₂⟩ := List.pairwise_append.mp hsorted
        have hkb : ∀ a ∈ before c, Function.update t.key q key a = t.key a :=
          fun a hal => hkey a (List.mem_append_left _ hal)
        have hka : ∀ a ∈ after c, Function.update t.key q key a = t.key a :=
          fun a hal => hkey a (List.mem_append_right _ hal)
        change (before c ++ q :: after c).Pairwise fun a b =>
          compar (Function.update t.key q key a) (Function.update t.key q key b) < 0
        refine List.pairwise_append.mpr ⟨h₁.imp_of_mem fun {x y} hx hy hxy => ?_,
          List.pairwise_cons.mpr ⟨fun y hy => ?_, h₂.imp_of_mem fun {x y} hx hy hxy => ?_⟩,
          fun x hx y hy => ?_⟩
        · rw [hkb x hx, hkb y hy]
          exact hxy
        · rw [hself, hka y hy]
          exact ha y hy
        · rw [hka x hx, hka y hy]
          exact hxy
        · rw [hkb x hx]
          rcases List.mem_cons.mp hy with rfl | hy
          · rw [hself]
            exact (hc.swap _ _).mpr (hb x hx)
          · rw [hka y hy]
            exact h₁₂ x hx y hy
  · exact ⟨a, t, hrun, fun _ => ⟨hal, h0, rfl⟩, fun hne => absurd h0 (hne a hal)⟩

theorem Ordered.tfind (hc : TotalPreorder compar) (h : Ordered compar t l) (key : κ)
    (hf : l.length < fuel) :
    ∃ p, t.tfind compar key fuel .root = some p ∧
      ((∃ a ∈ l, compar key (t.key a) = 0) → p ∈ l ∧ compar key (t.key p) = 0) ∧
      ((∀ a ∈ l, compar key (t.key a) ≠ 0) → p = 0) := by
  obtain ⟨s, c, u, hs, hlen, hseek, hplug, hl, hend⟩ := h.seek hc key
  have hrun : t.tfind compar key fuel .root = _ := Tree.tfind_eq (c := []) hs (hlen ▸ hf)
  rw [hseek] at hrun
  rcases hend with ⟨rfl, -, -, hne⟩ | ⟨a, v, w, rfl, hal, h0⟩
  · exact ⟨0, hrun, fun ⟨a, hal, h0⟩ => absurd h0 (hne a hal), fun _ => rfl⟩
  · exact ⟨a, hrun, fun _ => ⟨hal, h0⟩, fun hne => absurd h0 (hne a hal)⟩

/-- What `tdelete` promises. -/
def Deletes (compar : κ → κ → Int) (t : Tree κ) (l : List Nat) (key : κ) (p : Nat) (t' : Tree κ) :
    Prop :=
  ((∀ a ∈ l, compar key (t.key a) ≠ 0) → p = 0 ∧ t' = t) ∧
    ∀ a ∈ l, compar key (t.key a) = 0 →
      Ordered compar t' (l.erase a) ∧ t'.key = t.key ∧ p ≠ 0 ∧
        (a ≠ t.root → p ∈ l.erase a ∧ (t.llink p = a ∨ t.rlink p = a))

/-- The node above a place other than the root. -/
theorem parent_spec {c : List (Frame Nat)} (h : Shape t.toLinks t.root (plug c (node a s r)))
    (ha : a ≠ t.root) (p : Nat) :
    Tree.parent p c ∈ before c ++ after c ∧
      (t.llink (Tree.parent p c) = a ∨ t.rlink (Tree.parent p c) = a) := by
  have hget := (Tree.get_node h).1
  cases c with
  | nil => exact absurd hget.symm ha
  | cons f c =>
    have hhole := (shape_plug.mp h).1
    cases f with
    | left b v => exact ⟨by simp [Tree.parent, after], .inl hget⟩
    | right b v => exact ⟨by simp [Tree.parent, before], .inr hget⟩

theorem parent_ne_zero {c : List (Frame Nat)} (h : Hole t.toLinks c) (hp : p ≠ 0) :
    Tree.parent p c ≠ 0 := by
  cases c with
  | nil => exact hp
  | cons f c =>
    cases f with
    | left b v => exact h.2.1
    | right b v => exact h.2.1

theorem Ordered.tdelete (hc : TotalPreorder compar) (h : Ordered compar t l) (key : κ)
    (hf : l.length < fuel) :
    ∃ p t', t.tdelete compar key fuel = some (p, t') ∧ Deletes compar t l key p t' := by
  obtain ⟨s, c, u, hs, hlen, hseek, hplug, hl, hend⟩ := h.seek hc key
  unfold Tree.tdelete
  by_cases hroot : t.root = 0
  · rw [if_pos hroot]
    rw [hroot] at hs
    obtain rfl := hs.eq_nil
    obtain rfl := List.eq_nil_of_length_eq_zero hlen.symm
    exact ⟨0, t, rfl, fun _ => ⟨rfl, rfl⟩, fun _ ha => nomatch ha⟩
  rw [if_neg hroot]
  have hne : s ≠ nil := by
    rintro rfl
    exact hroot hs
  have hrun : t.locate compar key fuel t.root .root = _ :=
    Tree.locate_eq (c := []) (p := t.root) hne hs (hlen ▸ hf.le)
  rw [hseek] at hrun
  rw [hrun]
  rcases hend with ⟨rfl, -, -, hno⟩ | ⟨a, v, w, rfl, hal, h0⟩
  · exact ⟨0, t, rfl, fun _ => ⟨rfl, rfl⟩, fun a ha h0 => absurd h0 (hno a ha)⟩
  have hnd := h.nodup hc
  have hin : inorder (plug c (node a v w)) = l := by rw [inorder_plug, ← hl]
  have hw : (inorder w).length ≤ fuel := by
    have hle := congrArg List.length hl
    rw [List.length_append, List.length_append, length_inorder_node] at hle
    omega
  obtain ⟨q, t₁, u, hrep, hkey, hlive, hhole, hu, hinu, hget⟩ :=
    Tree.replacement_spec hplug (hin ▸ hnd) hw
  have hfree : a ∈ t₁.live := by
    rw [hlive, h.live]
    exact List.mem_toFinset.mpr hal
  -- the nodes that are left
  have herase : l.erase a = before c ++ (inorder v ++ inorder w) ++ after c := by
    have hl' : l = (before c ++ inorder v) ++ a :: (inorder w ++ after c) := by
      rw [hl, inorder]
      simp
    have hnot : a ∉ before c ++ inorder v := by
      intro hm
      rw [hl'] at hnd
      exact List.disjoint_of_nodup_append hnd hm List.mem_cons_self
    rw [hl', List.erase_append_right _ hnot, List.erase_cons_head]
    simp
  have hnd' : (before c ++ inorder u ++ after c).Nodup := by
    rw [hinu, ← herase]
    exact hnd.erase a
  refine ⟨Tree.parent t.root c, { t₁ with live := t₁.live.erase a }.put (place c) q, ?_,
    fun hno => absurd h0 (hno a hal), fun b hb hb0 => ?_⟩
  · change (t.replacement fuel (place c)).bind _ = _
    rw [hrep, Option.bind_some]
    change (t₁.free (t₁.get (place c))).bind _ = _
    rw [hget]
    unfold Tree.free
    rw [if_pos hfree, Option.bind_some]
  · obtain rfl := (h.cuts hc key).unique hb hal hb0 h0
    refine ⟨⟨⟨plug c u, ?_, ?_⟩, ?_, ?_⟩, hkey, parent_ne_zero (shape_plug.mp hplug).1 hroot,
      fun hbr => ?_⟩
    · refine shape_replace hhole hu ?_ fun x hx hm => ?_
      · rw [List.append_assoc, List.nodup_append] at hnd'
        rw [List.nodup_append]
        grind
      · rw [List.append_assoc, List.nodup_append, List.nodup_append] at hnd'
        grind
    · rw [inorder_plug, hinu, herase]
    · change t₁.live.erase b = _
      rw [hlive, h.live]
      ext x
      rw [Finset.mem_erase, List.mem_toFinset, List.mem_toFinset, hnd.mem_erase_iff]
    · change (l.erase b).Pairwise fun x y => compar (t₁.key x) (t₁.key y) < 0
      rw [hkey]
      exact h.sorted.sublist List.erase_sublist
    · obtain ⟨hmem, hlink⟩ := parent_spec hplug hbr t.root
      refine ⟨?_, hlink⟩
      rw [herase]
      simp only [List.mem_append] at hmem ⊢
      tauto

/-! ## Sequences of calls -/

/-- Trees that calls on one root lead to, beginning with none. -/
inductive Reached (compar : κ → κ → Int) : Tree κ → Prop
  | start {t : Tree κ} (hroot : t.root = 0) (hlive : t.live = ∅) : Reached compar t
  | call {t t' : Tree κ} {c : Call κ} {fuel p : Nat} (h : Reached compar t) (ha : c.Allowed t)
      (hf : t.live.card < fuel) (hrun : c.run compar fuel t = some (p, t')) : Reached compar t'

theorem Ordered.card (hc : TotalPreorder compar) (h : Ordered compar t l) :
    t.live.card = l.length := by
  rw [h.live, List.toFinset_card_of_nodup (h.nodup hc)]

theorem Ordered.start (hroot : t.root = 0) (hlive : t.live = ∅) : Ordered compar t [] :=
  ⟨⟨nil, hroot, rfl⟩, hlive, List.Pairwise.nil⟩

/-- Every call leaves an ordered tree. -/
theorem Ordered.call (hc : TotalPreorder compar) (h : Ordered compar t l) {c : Call κ}
    (ha : c.Allowed t) (hf : t.live.card < fuel) (hrun : c.run compar fuel t = some (p, t')) :
    ∃ l', Ordered compar t' l' := by
  rw [h.card hc] at hf
  cases c with
  | tsearch key mem =>
    obtain ⟨p', t₁, hrun', hold, hnew⟩ := h.tsearch hc ha hf
    cases Option.some.inj (hrun.symm.trans hrun')
    by_cases heq : ∃ a ∈ l, compar key (t.key a) = 0
    · obtain ⟨-, -, ht⟩ := hold heq
      exact ⟨l, ht.symm ▸ h⟩
    · have hput := hnew fun a hal h0 => heq ⟨a, hal, h0⟩
      cases mem with
      | none => exact ⟨l, hput.2.symm ▸ h⟩
      | some q =>
        obtain ⟨-, -, l₁, l₂, -, h'⟩ := hput
        exact ⟨_, h'⟩
  | tfind key =>
    obtain ⟨q, -, hq⟩ := Option.map_eq_some_iff.mp hrun
    cases hq
    exact ⟨l, h⟩
  | tdelete key =>
    obtain ⟨p', t₁, hrun', hkeep, hdel⟩ := h.tdelete hc key hf
    cases Option.some.inj (hrun.symm.trans hrun')
    by_cases heq : ∃ a ∈ l, compar key (t.key a) = 0
    · obtain ⟨a, hal, h0⟩ := heq
      exact ⟨_, (hdel a hal h0).1⟩
    · obtain ⟨-, rfl⟩ := hkeep fun a hal h0 => heq ⟨a, hal, h0⟩
      exact ⟨l, h⟩

/-- `tsearch`, `tfind` and `tdelete` implement a finite set of keys. -/
theorem tree_finite_set (hc : TotalPreorder compar) (h : Reached compar t) :
    ∃ l, Ordered compar t l ∧ ∀ key fuel, t.live.card < fuel →
      (∀ mem, (Call.tsearch key mem).Allowed t →
        ∃ p t', (Call.tsearch key mem).run compar fuel t = some (p, t') ∧
          Enters compar t l key mem p t') ∧
      (∃ p, (Call.tfind key).run compar fuel t = some (p, t) ∧
        ((∃ a ∈ l, compar key (t.key a) = 0) → p ∈ l ∧ compar key (t.key p) = 0) ∧
        ((∀ a ∈ l, compar key (t.key a) ≠ 0) → p = 0)) ∧
      ∃ p t', (Call.tdelete key).run compar fuel t = some (p, t') ∧
        Deletes compar t l key p t' := by
  have hord : ∃ l, Ordered compar t l := by
    induction h with
    | start hroot hlive => exact ⟨[], Ordered.start hroot hlive⟩
    | call _ ha hf hrun ih =>
      obtain ⟨l, h⟩ := ih
      exact h.call hc ha hf hrun
  obtain ⟨l, h⟩ := hord
  refine ⟨l, h, fun key fuel hf => ?_⟩
  rw [h.card hc] at hf
  obtain ⟨p, hfind, hspec⟩ := h.tfind hc key hf
  exact ⟨fun mem ha => h.tsearch hc ha hf, ⟨p, congrArg (Option.map fun p => (p, t)) hfind, hspec⟩,
    h.tdelete hc key hf⟩

def noTree : Tree Int := ⟨⟨0, fun _ => 0, fun _ => 0⟩, fun _ => 0, ∅⟩

theorem int_order : TotalPreorder fun x y : Int => x - y where
  swap x y := by omega
  trans h₁ h₂ := by omega

theorem tree_finite_set_one :
    ∃ p t', (Call.tsearch (5 : Int) (some 7)).run (fun x y => x - y) 1 noTree = some (p, t') ∧
      p = 7 := by
  obtain ⟨l, hord, hcalls⟩ := tree_finite_set int_order (t := noTree) (.start rfl rfl)
  obtain ⟨p, t', hrun, -, hnew⟩ :=
    (hcalls 5 1 (by decide)).1 (some 7) ⟨by decide, by decide⟩
  have hl : l = [] := (List.toFinset_eq_empty_iff l).mp hord.live.symm
  exact ⟨p, t', hrun, (hnew fun a ha => absurd (hl ▸ ha) List.not_mem_nil).1⟩

end Aix413.Tsearch
