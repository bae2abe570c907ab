import Aix413.Cartesian.Descents

namespace Aix413.Cartesian

open BinaryTree Lib.LinkedTree

variable {m m' : Mem} {t u t' : BinaryTree Adlen} {c c' c₁ : List (Frame Adlen)} {x z : Adlen}
  {d : Side} {s s' : State} {dir : Adlen → Side} {stop : Adlen → Prop} [DecidablePred stop]
  {a n q : Nat}

/-- The pieces stand in the order of their addresses and do not overlap, and no son is longer
than its father. -/
structure Ordered (t : BinaryTree Adlen) : Prop where
  heap : Heap t
  sorted : (inorder t).Pairwise fun x y => x.p + x.q ≤ y.p
  grain : ∀ x ∈ inorder t, 0 < x.q ∧ 16 ∣ x.p ∧ 16 ∣ x.q

/-- A cartesian tree hangs from the anchor. -/
structure Valid (m : Mem) (t : BinaryTree Adlen) : Prop where
  rep : Rep m .manchor t
  ordered : Ordered t

theorem pairwise_lt {l : List Adlen} (h : l.Pairwise fun x y => x.p + x.q ≤ y.p)
    (hq : ∀ x ∈ l, 0 < x.q) : l.Pairwise fun x y => x.p < y.p := by
  refine h.imp_of_mem fun hx _ hxy => ?_
  have := hq _ hx
  omega

namespace Ordered

theorem lt (h : Ordered t) : (inorder t).Pairwise fun x y => x.p < y.p :=
  pairwise_lt h.sorted fun x hx => (h.grain x hx).1

theorem apart (h : Ordered t) : Apart (inorder t) :=
  List.pairwise_map.mpr (h.lt.imp fun hxy => Nat.ne_of_lt hxy)

/-- A subtree may be rearranged below a root of the same length. -/
theorem replace (h : Ordered (plug c t)) (hu : Heap u) (hq : (top u).q = (top t).q)
    (hi : inorder u = inorder t) : Ordered (plug c u) := by
  have hi' : inorder (plug c u) = inorder (plug c t) := by
    rw [inorder_plug, inorder_plug, hi]
  refine ⟨h.heap.replace hu hq, ?_, ?_⟩
  · rw [hi']
    exact h.sorted
  · rw [hi']
    exact h.grain

theorem sub_lt (h : Ordered (plug c t)) : (inorder t).Pairwise fun x y => x.p < y.p := by
  have := h.lt
  rw [inorder_plug] at this
  exact (List.pairwise_append.mp (List.pairwise_append.mp this).1).2.1

theorem top_pos (h : Ordered (plug c t)) (ht : t ≠ nil) : 0 < (top t).q := by
  cases t with
  | nil => exact absurd rfl ht
  | node x l r =>
    refine (h.grain x ?_).1
    rw [inorder_plug]
    simp [inorder]

end Ordered

theorem Valid.planted (h : Valid m t) : Planted m .manchor t :=
  ⟨h.rep, h.ordered.apart, fun _ _ _ => nofun, fun _ => nofun, h.ordered.heap⟩

theorem Heap.le (h : Heap t) (hz : z ∈ inorder t) : z.q ≤ (top t).q := by
  induction t with
  | nil => exact absurd hz List.not_mem_nil
  | node x l r ihl ihr =>
    obtain ⟨hl, hr, hhl, hhr⟩ := h
    rcases List.mem_append.mp hz with hz | hz
    · exact (ihl hhl hz).trans hl
    · rcases List.mem_cons.mp hz with rfl | hz
      · exact le_rfl
      · exact (ihr hhr hz).trans hr

/-- What is below an attachment point may be rearranged with the tree `u` at the place `c'`. -/
structure Kept (m' : Mem) (c : List (Frame Adlen)) (t : BinaryTree Adlen) (c' : List (Frame Adlen))
    (u : BinaryTree Adlen) : Prop where
  valid : Valid m' (plug (c' ++ c) u)
  order : inorder (plug c' u) = inorder t

/-! ## The last node of a layer -/

/-- The last node on side `d` among those as long as the top. -/
def IsExtreme (d : Side) (x : Adlen) (t : BinaryTree Adlen) : Prop :=
  x ∈ inorder t ∧ x.q = (top t).q ∧ ∀ z ∈ inorder t, z.q = x.q → z ≠ x →
    match d with
    | .a => x.p < z.p
    | .b => z.p < x.p

/-- What `leftmost` and `rightmost` do: `x` is the last node of the layer, `u` what hangs from it
in the next one. -/
structure ExtremeKept (d : Side) (needed : Nat) (c : List (Frame Adlen)) (t : BinaryTree Adlen)
    (s : State) (r : Bool) (s' : State) (c' : List (Frame Adlen)) (x : Adlen)
    (u v : BinaryTree Adlen) : Prop where
  kept : Kept s'.mem c t c' (join d x u v)
  extreme : IsExtreme d x t
  lower : (top u).q < x.q
  result : r = true ↔ needed ≤ (top u).q
  found : r = false → s'.x = x ∧ s'.y = place .manchor (c' ++ c)
  fell : r = true → s'.x = top u ∧ s'.y = .son d x.p
  attached : s'.mem s'.y = s'.x
  same : s'.z = s.z

theorem extremeLoop_z (h : extremeLoop d n s = some s') : s'.z = s.z := by
  induction n generalizing s with
  | zero => exact nomatch h
  | succ n ih =>
    rw [extremeLoop] at h
    split at h
    · dsimp only at h
      split at h
      · rw [← Option.some.inj h]
      · have hz := ih h
        exact hz
    · rw [← Option.some.inj h]

theorem Extreme.isExtreme {v : BinaryTree Adlen} (h : Extreme d .manchor c t s' c' x u v)
    (hs : (inorder t).Pairwise fun x y => x.p < y.p) : IsExtreme d x t := by
  have horder : inorder t = before c' ++ inorder (join d x u v) ++ after c' := by
    rw [← inorder_plug, h.order]
  have hu : ∀ z ∈ inorder u, z.q ≠ x.q := by
    intro z hz
    have := (heap_join.mp h.heap).2.2.1.le hz
    have := h.sub
    omega
  have hmem : x ∈ inorder t := by
    rw [horder]
    cases d <;> simp [join, inorder]
  refine ⟨hmem, h.len, fun z hz hzq hne => ?_⟩
  rw [horder] at hs hz
  cases d with
  | a =>
    rw [h.along.before, List.nil_append, join, inorder, List.append_assoc] at hs hz
    rcases List.mem_append.mp hz with hz | hz
    · exact absurd hzq (hu z hz)
    · have hx := (List.pairwise_append.mp hs).2.1
      rcases List.mem_cons.mp hz with rfl | hz
      · exact absurd rfl hne
      · exact (List.pairwise_cons.mp hx).1 z hz
  | b =>
    rw [h.along.after, List.append_nil, join, inorder, ← List.append_assoc] at hs hz
    obtain ⟨_, _, hx⟩ := List.pairwise_append.mp hs
    rcases List.mem_append.mp hz with hz | hz
    · exact hx z hz x List.mem_cons_self
    · rcases List.mem_cons.mp hz with rfl | hz
      · exact absurd rfl hne
      · exact absurd hzq (hu z hz)

/-- The layer may be rearranged around a tree no longer than it. -/
theorem Ordered.layer (h : Ordered (plug c t)) (hc : Flat (top t).q c') (hu : Heap u)
    (hq : (top u).q ≤ (top t).q) (hroot : c' = [] → (top u).q = (top t).q)
    (hi : inorder (plug c' u) = inorder t) : Ordered (plug (c' ++ c) u) := by
  rw [plug_append]
  obtain ⟨hheap, htop⟩ := heap_plug hc hu hq
  refine h.replace hheap ?_ hi
  rcases htop with rfl | htop
  · exact hroot rfl
  · exact htop

theorem extreme_kept (needed : Nat) (h : Valid s.mem (plug c t)) (ht : t ≠ nil) (hx : s.x = top t)
    (hy : s.y = place .manchor c) (hn : (inorder t).length ≤ n) :
    ∃ r s', extreme d needed n s = some (r, s') ∧
      ∃ c' x u v, ExtremeKept d needed c t s r s' c' x u v := by
  have hqt := h.ordered.top_pos ht
  have hlt := h.ordered.sub_lt
  obtain rfl | ⟨x₀, u₀, v₀, rfl⟩ := exists_join d t
  · exact absurd rfl ht
  have hp := h.planted
  have hlen := (inorder_join_perm (e := d) (x := x₀) (u := u₀) (t := v₀)).length_eq
  rw [List.length_cons, List.length_append] at hlen
  rw [top_join] at hx hqt
  obtain ⟨s₁, hrun, c', x, u, v, he⟩ := extremeLoop_spec hp.rep hp.apart hp.root hp.heap.of_plug
    hqt hx hy (show (inorder u₀).length < n by omega)
  have hsame := extremeLoop_z hrun
  have hkept : Kept s₁.mem c (join d x₀ u₀ v₀) c' (join d x u v) := by
    refine ⟨⟨he.rep, h.ordered.layer he.flat he.heap ?_ (fun _ => ?_) he.order⟩, he.order⟩
    · rw [top_join]
      exact he.len.le
    · rw [top_join]
      exact he.len
  obtain ⟨_, hrep⟩ := rep_plug.mp he.rep
  obtain ⟨hatt, _, hu, _⟩ := rep_join.mp hrep
  rw [extreme, hrun, Option.map_some, he.cur, hu.top]
  by_cases hneed : (top u).q < needed
  · rw [if_pos hneed]
    refine ⟨_, _, rfl, c', x, u, v, hkept, he.isExtreme hlt, he.sub, ?_, fun _ => ⟨he.cur, he.att⟩,
      nofun, ?_, hsame⟩
    · exact iff_of_false nofun (Nat.not_le.mpr hneed)
    · rw [he.att, hatt, he.cur]
  · rw [if_neg hneed]
    refine ⟨_, _, rfl, c', x, u, v, hkept, he.isExtreme hlt, he.sub, ?_, nofun,
      fun _ => ⟨rfl, rfl⟩, hu.top, hsame⟩
    exact iff_of_true rfl (Nat.not_lt.mp hneed)

/-! ## The search path -/

/-- The nodes of the layer on the search path, to the first that stops it. -/
def path (dir : Adlen → Side) (stop : Adlen → Prop) [DecidablePred stop] :
    BinaryTree Adlen → List Adlen
  | nil => []
  | node x l r =>
    x :: if stop x then [] else
      match dir x with
      | .a => if (top r).q = x.q then path dir stop r else []
      | .b => if (top l).q = x.q then path dir stop l else []

theorem join_other {v : BinaryTree Adlen} : join d.other x v u = join d x u v := by cases d <;> rfl

theorem walk_join {v : BinaryTree Adlen} (hd : dir x = d) : walk dir stop c (join d x u v) =
    if stop x then (true, c, join d x u v)
    else if (top v).q = x.q then walk dir stop (hang d.other x u :: c) v
    else (false, hang d.other x u :: c, v) := by
  cases d <;> rw [join, walk, hd] <;> rfl

theorem path_join {v : BinaryTree Adlen} (hd : dir x = d) : path dir stop (join d x u v) =
    x :: if stop x then [] else if (top v).q = x.q then path dir stop v else [] := by
  cases d <;> rw [join, path, hd]

/-- The near son of each node first. -/
theorem near_induction (dir : Adlen → Side) {P : BinaryTree Adlen → Prop} (hnil : P nil)
    (hjoin : ∀ x u v, P u → P v → P (join (dir x) x u v)) (t : BinaryTree Adlen) : P t := by
  induction t with
  | nil => exact hnil
  | node x l r ihl ihr =>
    have h := hjoin x
    cases hd : dir x with
    | a =>
      rw [hd] at h
      exact h l r ihl ihr
    | b =>
      rw [hd] at h
      exact h r l ihr ihl

/-- The walk through a layer does not depend on the tree around it. -/
theorem walk_append (dir : Adlen → Side) (stop : Adlen → Prop) [DecidablePred stop]
    (c : List (Frame Adlen)) (t : BinaryTree Adlen) : walk dir stop c t =
    ((walk dir stop [] t).1, (walk dir stop [] t).2.1 ++ c, (walk dir stop [] t).2.2) := by
  induction t using near_induction dir generalizing c with
  | hnil => rfl
  | hjoin x u v _ ih =>
    rw [walk_join rfl, walk_join rfl]
    by_cases hs : stop x
    · rw [if_pos hs, if_pos hs]
      rfl
    · rw [if_neg hs, if_neg hs]
      by_cases hq : (top v).q = x.q
      · rw [if_pos hq, if_pos hq, ih, ih [_]]
        simp
      · rw [if_neg hq, if_neg hq]
        rfl

theorem plug_walk (dir : Adlen → Side) (stop : Adlen → Prop) [DecidablePred stop]
    (c : List (Frame Adlen)) (t : BinaryTree Adlen) :
    plug (walk dir stop c t).2.1 (walk dir stop c t).2.2 = plug c t := by
  induction t using near_induction dir generalizing c with
  | hnil => rfl
  | hjoin x u v _ ih =>
    rw [walk_join rfl]
    by_cases hs : stop x
    · rw [if_pos hs]
    · rw [if_neg hs]
      by_cases hq : (top v).q = x.q
      · rw [if_pos hq, ih, plug_hang, join_other]
      · rw [if_neg hq, plug_hang, join_other]

/-- The nodes passed on the way belong where they are left. -/
theorem walk_sides (a : Nat) (stop : Adlen → Prop) [DecidablePred stop] (c : List (Frame Adlen))
    (hs : (inorder t).Pairwise fun x y => x.p < y.p) :
    (∀ z ∈ before (walk (fun y => belongs a y.p) stop c t).2.1, z ∈ before c ∨ z.p < a) ∧
      ∀ z ∈ after (walk (fun y => belongs a y.p) stop c t).2.1, z ∈ after c ∨ a ≤ z.p := by
  induction t generalizing c with
  | nil => exact ⟨fun _ => Or.inl, fun _ => Or.inl⟩
  | node x l r ihl ihr =>
    obtain ⟨hl, hr, hlr⟩ := List.pairwise_append.mp hs
    obtain ⟨hxr, hr⟩ := List.pairwise_cons.mp hr
    by_cases hstop : stop x
    · rw [walk, if_pos hstop]
      exact ⟨fun _ => Or.inl, fun _ => Or.inl⟩
    by_cases hx : x.p < a
    · have hd : belongs a x.p = .a := if_pos hx
      have hbefore : ∀ z ∈ before (.right x l :: c), z ∈ before c ∨ z.p < a := by
        intro z hz
        rw [before, List.append_assoc, List.mem_append, List.mem_append, List.mem_singleton] at hz
        rcases hz with hz | hz | rfl
        · exact Or.inl hz
        · exact Or.inr ((hlr z hz x List.mem_cons_self).trans hx)
        · exact Or.inr hx
      rw [walk, if_neg hstop, hd]
      by_cases hq : (top r).q = x.q
      · obtain ⟨h1, h2⟩ := ihr (.right x l :: c) hr
        rw [if_pos hq]
        exact ⟨fun z hz => (h1 z hz).elim (hbefore z) Or.inr, h2⟩
      · rw [if_neg hq]
        exact ⟨hbefore, fun _ => Or.inl⟩
    · have hd : belongs a x.p = .b := if_neg hx
      have hafter : ∀ z ∈ after (.left x r :: c), z ∈ after c ∨ a ≤ z.p := by
        intro z hz
        rw [after, List.cons_append, List.mem_cons, List.mem_append] at hz
        rcases hz with rfl | hz | hz
        · exact Or.inr (Nat.not_lt.mp hx)
        · exact Or.inr ((Nat.not_lt.mp hx).trans (hxr z hz).le)
        · exact Or.inl hz
      rw [walk, if_neg hstop, hd]
      by_cases hq : (top l).q = x.q
      · obtain ⟨h1, h2⟩ := ihl (.left x r :: c) hl
        rw [if_pos hq]
        exact ⟨h1, fun z hz => (h2 z hz).elim (hafter z) Or.inr⟩
      · rw [if_neg hq]
        exact ⟨fun _ => Or.inl, hafter⟩

/-- A walk that is stopped ends at the last node of its path. -/
theorem walk_stopped (h : (walk dir stop c t).1 = true) :
    top (walk dir stop c t).2.2 ∈ path dir stop t ∧ stop (top (walk dir stop c t).2.2) := by
  induction t using near_induction dir generalizing c with
  | hnil => exact nomatch h
  | hjoin x u v _ ih =>
    rw [walk_join rfl] at h ⊢
    rw [path_join rfl]
    by_cases hs : stop x
    · rw [if_pos hs, if_pos hs, top_join]
      exact ⟨List.mem_cons_self, hs⟩
    · rw [if_neg hs] at h ⊢
      by_cases hq : (top v).q = x.q
      · rw [if_pos hq] at h ⊢
        rw [if_neg hs, if_pos hq]
        obtain ⟨h1, h2⟩ := ih h
        exact ⟨List.mem_cons_of_mem _ h1, h2⟩
      · rw [if_neg hq] at h
        exact nomatch h

/-- Only that node stops it. -/
theorem walk_stops (hz : z ∈ path dir stop t) (hs : stop z) :
    (walk dir stop c t).1 = true ∧ top (walk dir stop c t).2.2 = z := by
  induction t using near_induction dir generalizing c with
  | hnil => exact absurd hz List.not_mem_nil
  | hjoin x u v _ ih =>
    rw [walk_join rfl]
    rw [path_join rfl] at hz
    by_cases hx : stop x
    · rw [if_pos hx] at hz ⊢
      rw [List.mem_singleton.mp hz]
      exact ⟨rfl, top_join⟩
    · have hzx : z ≠ x := by
        rintro rfl
        exact hx hs
      have hz := (List.mem_cons.mp hz).resolve_left hzx
      rw [if_neg hx] at hz ⊢
      by_cases hq : (top v).q = x.q
      · rw [if_pos hq] at hz ⊢
        exact ih hz
      · rw [if_neg hq] at hz
        exact absurd hz List.not_mem_nil

/-! ## The layers of a valid tree -/

/-- A layer has been left: what was below it towards `a` is the tree `u`, which hangs at `y'` from
a node of the layer. -/
structure Below (m' : Mem) (c : List (Frame Adlen)) (t : BinaryTree Adlen) (a : Nat) (x' : Adlen)
    (y' : Slot) (c' : List (Frame Adlen)) (u : BinaryTree Adlen) : Prop where
  kept : Kept m' c t c' u
  layer : c' ≠ []
  flat : Flat (top t).q c'
  lower : (top u).q < (top t).q
  left : ∀ z ∈ before c', z.p < a
  right : ∀ z ∈ after c', a ≤ z.p
  cur : x' = top u
  att : y' = place .manchor (c' ++ c)

theorem Fallen.below {y' : Slot} (h : Fallen .manchor c (top t).q m' y' c₁ u c')
    (hwalk : walk (fun y => belongs a y.p) stop c t = (false, c₁, u))
    (ho : Ordered (plug c t)) : Below m' c t a (top u) y' c' u := by
  have hplug := plug_walk (fun y => belongs a y.p) stop [] t
  obtain ⟨hl, hr⟩ := walk_sides a stop [] ho.sub_lt
  rw [walk_append] at hwalk
  have hc₁ : (walk (fun y => belongs a y.p) stop [] t).2.1 ++ c = c₁ :=
    congrArg (fun o => o.2.1) hwalk
  have hu : (walk (fun y => belongs a y.p) stop [] t).2.2 = u := congrArg (fun o => o.2.2) hwalk
  have hb : before c' = before (walk (fun y => belongs a y.p) stop [] t).2.1 := by
    have := h.left
    rw [← hc₁, before_append, before_append] at this
    exact List.append_cancel_left this
  have ha : after c' = after (walk (fun y => belongs a y.p) stop [] t).2.1 := by
    have := h.right
    rw [← hc₁, after_append, after_append] at this
    exact List.append_cancel_right this
  have hi : inorder (plug c' u) = inorder t := by
    rw [inorder_plug, hb, ha, ← hu, ← inorder_plug, hplug]
    rfl
  refine ⟨⟨⟨h.rep, ho.layer h.flat h.heap h.lower.le (fun h0 => absurd h0 h.layer) hi⟩, hi⟩,
    h.layer, h.flat, h.lower, ?_, ?_, rfl, h.att⟩
  · rw [hb]
    exact fun z hz => (hl z hz).resolve_left List.not_mem_nil
  · rw [ha]
    exact fun z hz => (hr z hz).resolve_left List.not_mem_nil

theorem exists_node (ht : t ≠ nil) :
    ∃ (x : Adlen) (sub : Side → BinaryTree Adlen), t = node x (sub .a) (sub .b) := by
  cases t with
  | nil => exact absurd rfl ht
  | node x l r => exact ⟨x, fun e => match e with | .a => l | .b => r, rfl⟩

theorem splint_kept {g : Statics} {k' : Slot} (hc : Hole s.mem .manchor c) (hrep : Rep s.mem k' t)
    (ho : Ordered (plug c t)) (hk : Outside k' .manchor (inorder (plug c t))) (ht : t ≠ nil)
    (hy : s.y = place .manchor c) (hn : (inorder t).length ≤ n) :
    ∃ s', splint g k' n s = some s' ∧ s'.x = s.x ∧ s'.z = s.z ∧
      ∃ c', Below s'.mem c t (g.addr k') (s'.mem k') s'.y c'
        (walk (fun y => belongs (g.addr k') y.p) (fun _ => False) [] t).2.2 := by
  have hqt := ho.top_pos ht
  obtain ⟨w, sub, rfl⟩ := exists_node ht
  obtain ⟨s', hrun, hx, hz, hat, c', hf⟩ := splint_spec (g := g) hc hrep ho.apart
    (fun _ _ _ => nofun) (fun _ => nofun) ho.heap.of_plug hk hy hqt hn
  refine ⟨s', hrun, hx, hz, c', ?_⟩
  have hwalk : (walk (fun y => belongs (g.addr k') y.p) (fun _ => False) c
      (node w (sub .a) (sub .b))).1 = false := by
    by_contra hstop
    exact (walk_stopped (Bool.of_not_eq_false hstop)).2
  have hend := congrArg (fun o => o.2.2) (walk_append (fun y => belongs (g.addr k') y.p)
    (fun _ => False) c (node w (sub .a) (sub .b)))
  rw [hat, hend]
  rw [hend] at hf
  have hpair : walk (fun y => belongs (g.addr k') y.p) (fun _ => False) c
      (node w (sub .a) (sub .b)) = (false, _, (walk (fun y => belongs (g.addr k') y.p)
        (fun _ => False) [] (node w (sub .a) (sub .b))).2.2) :=
    Prod.ext hwalk (Prod.ext rfl hend)
  exact hf.below hpair ho

theorem touch_eq_one {u v : Nat} : touch u v z = 1 ↔ z.p < v ∧ z.p + z.q = u := by
  unfold touch
  grind

theorem touch_eq_two {u v : Nat} : touch u v z = 2 ↔ z.p = v := by
  unfold touch
  grind

theorem touch_eq_three {u v : Nat} : touch u v z = 3 ↔ z.p < v ∧ u < z.p + z.q := by
  unfold touch
  grind

theorem touch_le (u v : Nat) (z : Adlen) : touch u v z ≤ 3 := by
  unfold touch
  split_ifs <;> decide

/-- The search path of `splay`. -/
def splayPath (u v : Nat) : BinaryTree Adlen → List Adlen :=
  path (fun y => belongs v y.p) fun y => touch u v y ≠ 0

/-- What `splay` does, with the tree `t'` at the place `c'` in the end. -/
structure SplayKept (u v : Nat) (c : List (Frame Adlen)) (t : BinaryTree Adlen) (s : State)
    (r : Nat) (s' : State) (c' : List (Frame Adlen)) (t' : BinaryTree Adlen) : Prop where
  kept : Kept s'.mem c t c' t'
  range : r ≤ 3
  left : r = 1 ↔ ∃ z ∈ splayPath u v t, z.p < v ∧ z.p + z.q = u
  right : r = 2 ↔ ∃ z ∈ splayPath u v t, z.p = v
  lap : r = 3 ↔ ∃ z ∈ splayPath u v t, z.p < v ∧ u < z.p + z.q
  found : r ≠ 0 → c' = [] ∧ s'.x ∈ splayPath u v t ∧ touch u v s'.x = r ∧ s'.y = s.y ∧ s'.z = s.z
  fell : r = 0 → Below s'.mem c t v s'.x s'.y c' t' ∧ s'.z = s.y ∧ Quiet s'.mem t'
  cur : s'.x = top t'
  attached : s'.mem s'.y = s'.x

/-- The result is that of the last node of the path. -/
theorem result_iff {u v r : Nat} {b : Bool} (hwalk : walk (fun y => belongs v y.p)
    (fun y => touch u v y ≠ 0) c t = (b, c₁, t')) (hb : b = true → r = touch u v (top t'))
    (h0 : b = false → r = 0) {i : Nat} (hi : i ≠ 0) :
    r = i ↔ ∃ z ∈ splayPath u v t, touch u v z = i := by
  constructor
  · intro hr
    cases b with
    | false => exact absurd (hr.symm.trans (h0 rfl)) hi
    | true =>
      have hstop := walk_stopped (congrArg Prod.fst hwalk)
      rw [hwalk] at hstop
      exact ⟨top t', hstop.1, (hb rfl).symm.trans hr⟩
  · rintro ⟨z, hz, rfl⟩
    have hstops := walk_stops (c := c) hz hi
    rw [hwalk] at hstops
    rw [hb hstops.1, hstops.2]

theorem splay_kept {g : Statics} {u v : Nat} (h : Valid s.mem (plug c t)) (ht : t ≠ nil)
    (hx : s.x = top t) (hy : s.y = place .manchor c) (hquiet : Quiet s.mem t)
    (hn : (inorder t).length ≤ n) :
    ∃ r s', splay g u v n s = some (r, s') ∧ ∃ c' t', SplayKept u v c t s r s' c' t' := by
  have hqt := h.ordered.top_pos ht
  obtain ⟨w, sub, rfl⟩ := exists_node ht
  change s.x = w at hx
  subst hx
  obtain ⟨r, s', hrun, hs⟩ := splay_spec (g := g) (u := u) (v := v) h.planted hy hqt hquiet hn
  refine ⟨r, s', hrun, ?_⟩
  obtain ⟨b, c₁, t₁, hwalk⟩ : ∃ b c₁ t₁, walk (fun y => belongs v y.p)
    (fun y => touch u v y ≠ 0) c (node s.x (sub .a) (sub .b)) = (b, c₁, t₁) := ⟨_, _, _, rfl⟩
  rw [hwalk] at hs
  cases b with
  | true =>
    obtain ⟨hr, hx', hy', hz', t', hf⟩ := hs
    have hres := fun {i} => result_iff (i := i) hwalk (fun _ => hr) nofun
    have hstop := walk_stopped (congrArg Prod.fst hwalk)
    rw [hwalk] at hstop
    have hplug := congrArg inorder (plug_walk (fun y => belongs v y.p)
      (fun y => touch u v y ≠ 0) c (node s.x (sub .a) (sub .b)))
    rw [hwalk] at hplug
    have hi : inorder t' = inorder (node s.x (sub .a) (sub .b)) := by
      have := hf.order.trans hplug
      rw [inorder_plug, inorder_plug] at this
      exact List.append_cancel_left (List.append_cancel_right this)
    have hrep := rep_plug.mp hf.rep
    refine ⟨[], t', ⟨⟨hf.rep, h.ordered.replace hf.heap hf.len hi⟩, hi⟩, hr ▸ touch_le u v _,
      ?_, ?_, ?_, fun _ => ⟨rfl, hx' ▸ hstop.1, hx' ▸ hr.symm, hy', hz'⟩,
      fun h0 => absurd (hr.symm.trans h0) hstop.2, hx'.trans hf.root.symm, ?_⟩
    · simpa only [touch_eq_one] using hres (i := 1) one_ne_zero
    · simpa only [touch_eq_two] using hres (i := 2) two_ne_zero
    · simpa only [touch_eq_three] using hres (i := 3) three_ne_zero
    · rw [hy', hy, hrep.2.top, hx', hf.root]
  | false =>
    obtain ⟨hr, hz', hx', hq', c', hf⟩ := hs
    have hres := fun {i} => result_iff (i := i) hwalk nofun (fun _ => hr)
    have hbelow := hf.below (a := v) hwalk h.ordered
    have hrep := rep_plug.mp hf.rep
    refine ⟨c', t₁, hbelow.kept, hr ▸ Nat.zero_le _, ?_, ?_, ?_, fun h0 => absurd hr h0,
      fun _ => ⟨hx' ▸ hbelow, hz', hq'⟩, hx', ?_⟩
    · simpa only [touch_eq_one] using hres (i := 1) one_ne_zero
    · simpa only [touch_eq_two] using hres (i := 2) two_ne_zero
    · simpa only [touch_eq_three] using hres (i := 3) three_ne_zero
    · rw [hf.att, hrep.2.top, hx']

/-- At the top of any layer of a valid tree, each of the four routines ends and leaves a valid tree
of the same nodes. -/
theorem layers_kept {g : Statics} (ho : Ordered (plug c t)) (ht : t ≠ nil)
    (hy : s.y = place .manchor c) (hn : (inorder t).length ≤ n) :
    (Rep s.mem .manchor (plug c t) → s.x = top t →
      (∀ needed, (∃ r s', leftmost needed n s = some (r, s') ∧
          ∃ c' x u v, ExtremeKept .a needed c t s r s' c' x u v) ∧
        ∃ r s', rightmost needed n s = some (r, s') ∧
          ∃ c' x u v, ExtremeKept .b needed c t s r s' c' x u v) ∧
      (Quiet s.mem t → ∀ u v, ∃ r s', splay g u v n s = some (r, s') ∧
        ∃ c' t', SplayKept u v c t s r s' c' t')) ∧
    ∀ k, Hole s.mem .manchor c → Rep s.mem k t → Outside k .manchor (inorder (plug c t)) →
      ∃ s', splint g k n s = some s' ∧ s'.x = s.x ∧ s'.z = s.z ∧
        ∃ c', Below s'.mem c t (g.addr k) (s'.mem k) s'.y c'
          (walk (fun y => belongs (g.addr k) y.p) (fun _ => False) [] t).2.2 := by
  constructor
  · intro hrep hx
    have h : Valid s.mem (plug c t) := ⟨hrep, ho⟩
    refine ⟨fun needed => ⟨?_, ?_⟩, fun hquiet u v => ?_⟩
    · exact extreme_kept needed h ht hx hy hn
    · exact extreme_kept needed h ht hx hy hn
    · exact splay_kept h ht hx hy hquiet hn
  · intro k hc hrep hk
    exact splint_kept hc hrep ho hk ht hy hn

/-- A layer of three left sons. -/
def chain : BinaryTree Adlen :=
  node ⟨80, 16⟩ (node ⟨48, 16⟩ (node ⟨16, 16⟩ nil nil) nil) nil

def chainState : State where
  mem
    | .manchor => ⟨80, 16⟩
    | .son .a 80 => ⟨48, 16⟩
    | .son .a 48 => ⟨16, 16⟩
    | .son .a 208 => ⟨80, 16⟩
    | _ => ⟨0, 0⟩
  x := ⟨80, 16⟩
  y := .manchor
  z := .manchor

theorem chain_ordered : Ordered chain where
  heap := ⟨le_rfl, Nat.zero_le _, ⟨le_rfl, Nat.zero_le _, ⟨Nat.zero_le _, Nat.zero_le _, trivial,
    trivial⟩, trivial⟩, trivial⟩
  sorted := by decide
  grain := by decide

theorem chain_rep {k : Slot} (hk : chainState.mem k = ⟨80, 16⟩) : Rep chainState.mem k chain :=
  ⟨hk, by decide, ⟨rfl, by decide, ⟨rfl, by decide, rfl, rfl⟩, rfl⟩, rfl⟩

theorem chain_kept :
    ((∀ needed, (∃ r s', leftmost needed 3 chainState = some (r, s') ∧
        ∃ c' x u v, ExtremeKept .a needed [] chain chainState r s' c' x u v) ∧
      ∃ r s', rightmost needed 3 chainState = some (r, s') ∧
        ∃ c' x u v, ExtremeKept .b needed [] chain chainState r s' c' x u v) ∧
    ∀ u v, ∃ r s', splay ⟨1000, 2000⟩ u v 3 chainState = some (r, s') ∧
      ∃ c' t', SplayKept u v [] chain chainState r s' c' t') ∧
    ∃ s', splint ⟨1000, 2000⟩ (.son .a 208) 3 chainState = some s' ∧ s'.x = ⟨80, 16⟩ ∧
      s'.z = .manchor ∧
      ∃ c', Below s'.mem [] chain 208 (s'.mem (.son .a 208)) s'.y c'
        (walk (fun y => belongs 208 y.p) (fun _ => False) [] chain).2.2 := by
  obtain ⟨h1, h2⟩ := layers_kept (g := ⟨1000, 2000⟩) (c := []) (t := chain) (s := chainState)
    (n := 3) chain_ordered nofun rfl le_rfl
  obtain ⟨h3, h4⟩ := h1 (chain_rep rfl) rfl
  refine ⟨⟨h3, h4 ?_⟩, h2 (.son .a 208) trivial (chain_rep rfl) ⟨nofun, fun _ => nofun, ?_⟩⟩
  · intro e z hz
    have hpos : ∀ z ∈ ([⟨16, 16⟩, ⟨48, 16⟩] : List Adlen), 0 ≠ z.p := by decide
    exact hpos z hz
  · exact foreign_son.mpr (by decide)

/-- The first node of the chain ends below the second one, and not where the layer was attached;
a second neighbour further down the search path is not seen. -/
theorem chain_moved :
    (leftmost 1 3 chainState).map (fun o => (o.1, o.2.x, o.2.y, o.2.mem chainState.y)) =
      some (false, ⟨16, 16⟩, .son .a 48, ⟨48, 16⟩) ∧
    ⟨16, 16⟩ ∈ path (fun y => belongs 48 y.p) (fun _ => False) chain ∧
    (splay ⟨1000, 2000⟩ (16 + 16) 48 3 chainState).map Prod.fst = some 2 := by
  decide

end Aix413.Cartesian
