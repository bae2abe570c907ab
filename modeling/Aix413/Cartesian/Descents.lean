import Aix413.Cartesian.Rearranged

namespace Aix413.Cartesian

open BinaryTree Lib.LinkedTree

variable {m m' : Mem} {k k' : Slot} {t : BinaryTree Adlen} {c c₀ cy : List (Frame Adlen)}
  {x w x' d : Adlen} {e : Side} {part : Side → List (Frame Adlen)}
  {sub sub' : Side → BinaryTree Adlen} {hook pa : Side → Slot} {s s' : State} {g : Statics}
  {u v n q : Nat}

theorem Side.eq_or_other (i e : Side) : i = e ∨ i = e.other := by
  cases i <;> cases e <;> decide

/-- The descent starts with nothing in `stomp`. -/
theorem Working.start (hc : Hole m k c) (hs : ∀ e, Rep m (.son e x.p) (sub e)) (h0 : x.p ≠ 0)
    (ha : Apart (x :: (nodes c ++ (inorder (sub .a) ++ inorder (sub .b)))))
    (hk : Foreign k (x :: (nodes c ++ (inorder (sub .a) ++ inorder (sub .b)))))
    (hks : ∀ e, k ≠ .stomp e) : Working m k c (fun _ => []) x sub :=
  ⟨hc, fun _ => trivial, hs, h0, by simpa [whole, nodes, before, after] using ha,
    by simpa [whole, nodes, before, after] using hk, hks⟩

theorem hooks_nil : hooks (fun _ => []) = .stomp := rfl

theorem Tracks.start : Tracks c (fun _ => []) c :=
  ⟨fun _ => nofun, by simp [before], by simp [after]⟩

/-- A son of the same length is there. -/
theorem exists_son (hq : 0 < x.q) (h : (top t).q = x.q) :
    ∃ (x' : Adlen) (sub' : Side → BinaryTree Adlen), t = node x' (sub' .a) (sub' .b) := by
  cases t with
  | nil => exact absurd h (by simp only [top]; omega)
  | node x' l r => exact ⟨x', Side.both l r, rfl⟩

/-! ## `splay` -/

/-- What `splay`, entered with `y` and `z`, makes of the outcome of its descent. -/
def Splayed (k : Slot) (c : List (Frame Adlen)) (q u v : Nat) (y z : Slot) (r : Nat)
    (s' : State) : Bool × List (Frame Adlen) × BinaryTree Adlen → Prop
  | (true, c₁, t) => r = touch u v (top t) ∧ s'.x = top t ∧ s'.y = y ∧ s'.z = z ∧
      ∃ t', Found k c q s'.mem c₁ t t'
  | (false, c₁, t) => r = 0 ∧ s'.z = y ∧ s'.x = top t ∧ Quiet s'.mem t ∧
      ∃ c', Fallen k c q s'.mem s'.y c₁ t c'

theorem splayLoop_spec (h : Working s.mem k c part s.x sub) (hhook : hook = hooks part)
    (hpa : ∀ e f t lf, part e = hang e.other f t :: lf → pa e = place (.stomp e) lf)
    (hy : s.y = place k c) (hl : Level q [] part s.x sub) (ht : Tracks c part c₀)
    (hstale : ∀ e, part e = [] → ∀ z ∈ s.x :: (inorder (sub .a) ++ inorder (sub .b)),
      (s.mem (.stomp e)).p ≠ z.p)
    (hq : 0 < q) (hn : (inorder (sub .a)).length + (inorder (sub .b)).length < n) :
    ∃ r s', splayLoop g u v n hook pa s = some (r, s') ∧ Splayed k c q u v s.y s.z r s'
      (walk (fun y => belongs v y.p) (fun y => touch u v y ≠ 0) c₀
        (node s.x (sub .a) (sub .b))) := by
  induction n generalizing s part sub hook pa c₀ with
  | zero => omega
  | succ n ih =>
    subst hhook
    obtain ⟨e, he⟩ : ∃ e, belongs v s.x.p = e := ⟨_, rfl⟩
    rw [walk_node (fun y => belongs v y.p) _ he, splayLoop]
    dsimp only
    rw [he]
    by_cases htouch : touch u v s.x ≠ 0
    · rw [if_pos htouch, if_pos htouch]
      have hfound := h.find hl ht
      rw [← hy] at hfound
      exact ⟨_, _, rfl, rfl, rfl, rfl, rfl, _, hfound⟩
    rw [if_neg htouch, if_neg htouch, (h.sons e.other).top]
    by_cases hfar : (top (sub e.other)).q = s.x.q
    · have hxq : 0 < s.x.q := hl.len.symm ▸ hq
      obtain ⟨x', sub', hsub⟩ := exists_son hxq hfar
      rw [if_neg (not_not.mpr hfar.symm), if_pos hfar]
      have htop : top (sub e.other) = x' := by rw [hsub]; rfl
      have hx'q : x'.q = s.x.q := by rw [← hfar, htop]
      have hmem : ∀ z ∈ x' :: (inorder (sub' .a) ++ inorder (sub' .b)),
          z ∈ s.x :: (inorder (sub .a) ++ inorder (sub .b)) := by
        intro z hz
        have hz' : z ∈ inorder (sub e.other) := by
          rw [hsub]
          simp only [inorder, List.mem_append, List.mem_cons] at hz ⊢
          tauto
        cases e
        · exact List.mem_cons_of_mem _ (List.mem_append_right _ hz')
        · exact List.mem_cons_of_mem _ (List.mem_append_left _ hz')
      have hlen : (inorder (sub' .a)).length + (inorder (sub' .b)).length < n := by
        have h1 : (inorder (sub e.other)).length =
            (inorder (sub' .a)).length + (inorder (sub' .b)).length + 1 := by
          rw [hsub, length_inorder_node]
        cases e
        · simp only [Side.other] at h1
          omega
        · simp only [Side.other] at h1
          omega
      rw [hsub]
      by_cases hrot : s.x.p ≠ (s.mem (hooks part e)).p
      · rw [if_pos hrot]
        have hfar' : put s.mem (hooks part e) s.x (.son e.other s.x.p) = x' := by
          rw [put_of_ne _ _ (h.hook_ne_son e _).symm, (h.sons _).top, htop]
        rw [hfar', withP_eq hx'q]
        refine ih (s := ⟨put s.mem (hooks part e) s.x, x', s.y, s.z⟩)
          (h.attach hsub) (hooks_update _ _ rfl).symm
          (fun i f t lf hi => ?_) hy (hl.update (hl.near (hl.parts e)) hsub hfar) ht.grown
          (fun i hi z hz => ?_) hlen
        · by_cases hie : i = e
          · subst hie
            rw [grown, Function.update_self] at hi
            rw [Function.update_self, ← (List.cons.inj hi).2]
            rfl
          · rw [grown, Function.update_of_ne hie] at hi
            rw [Function.update_of_ne hie]
            exact hpa i f t lf hi
        · have hie : i ≠ e := by
            rintro rfl
            rw [grown, Function.update_self] at hi
            exact absurd hi (List.cons_ne_nil _ _)
          rw [grown, Function.update_of_ne hie] at hi
          change (put s.mem (hooks part e) s.x (.stomp i)).p ≠ z.p
          have hother : i = e.other := (i.eq_or_other e).resolve_left hie
          rw [put_of_ne _ _ (hother ▸ (hook_ne_stomp e).symm)]
          exact hstale i hi z (hmem z hz)
      · rw [if_neg hrot]
        rw [not_not] at hrot
        cases hpart : part e with
        | nil =>
          refine absurd hrot (Ne.symm ?_)
          rw [hooks_eq_stomp.mpr hpart]
          exact hstale e hpart s.x List.mem_cons_self
        | cons f lf =>
          obtain ⟨f, t, rfl⟩ := ht.sided e f (by rw [hpart]; exact List.mem_cons_self)
          have hpae := hpa e f t lf hpart
          have hH : hooks part e = .son e.other f.p := by rw [hooks, hpart, place_hang]
          have hfather : father e (g.addr (hooks part e)) = f.p := by
            rw [hH]
            cases e <;> simp [Side.other, Statics.addr, father]
          have hflat := hl.parts e
          rw [hpart] at hflat
          obtain ⟨hfq, htq, hth, hlf⟩ := flat_hang.mp hflat
          have hfq' : f.q = s.x.q := hfq.trans hl.len.symm
          have hf : (⟨f.p, s.x.q⟩ : Adlen) = f := withP_eq hfq'
          have hole := h.parts e
          rw [hpart] at hole
          obtain ⟨hmf, _, _, _⟩ := hole_hang.mp hole
          have hpa_son : ∀ i, pa e ≠ .son i s.x.p := by
            intro i
            rw [hpae]
            refine place_ne stomp_ne_son (foreign_son.mpr fun z hz => h.separate.parts e z ?_)
            rw [hpart]
            exact nodes_hang_perm.mem_iff.mpr (List.mem_cons_of_mem _ (List.mem_append_right _ hz))
          have hpa_hook : pa e ≠ hooks part e := by
            have hap := h.separate.parts_apart e
            rw [hpart] at hap
            rw [hpae, hH]
            refine place_ne stomp_ne_son (foreign_son.mpr fun z hz => ?_)
            exact (apart_cons.mp (hap.perm nodes_hang_perm)).1 z (List.mem_append_right _ hz)
          -- the father's slot takes the node, whose own slots are elsewhere
          have hupd : putP (put (put s.mem (hooks part e) (s.mem (.son e s.x.p)))
              (.son e s.x.p) f) (pa e) s.x.p =
              put (put (put s.mem (hooks part e) (s.mem (.son e s.x.p))) (.son e s.x.p) f)
                (pa e) s.x := by
            rw [putP, put_of_ne _ _ (hpa_son e), put_of_ne _ _ hpa_hook, hpae, hmf,
              withP_eq hfq'.symm]
          rw [hfather, hf, hupd]
          have hfar' : put (put (put s.mem (hooks part e) (s.mem (.son e s.x.p)))
              (.son e s.x.p) f) (pa e) s.x (.son e.other s.x.p) = x' := by
            have hne : Slot.son e.other s.x.p ≠ .son e s.x.p := fun he =>
              e.other_ne (Slot.son.inj he).1
            rw [put_of_ne _ _ (hpa_son _).symm, put_of_ne _ _ hne,
              put_of_ne _ _ (h.hook_ne_son e _).symm, (h.sons _).top, htop]
          have hturn : putP (put (put (put s.mem (hooks part e) (s.mem (.son e s.x.p)))
              (.son e s.x.p) f) (pa e) s.x) (.son e.other s.x.p) 0 =
              turn s.mem e (hooks part e) (place (.stomp e) lf) s.x f ⟨0, x'.q⟩ := by
            rw [putP, hfar', ← hpae]
            rfl
          rw [hfar', hturn, withP_eq hx'q]
          have hnear : Flat q (hang e.other s.x (join e.other f (sub e) t) :: lf) := by
            refine flat_hang.mpr ⟨hl.len, ?_, heap_join.mpr ⟨?_, ?_, (hl.subs e).2, hth⟩, hlf⟩
            · rw [top_join, hfq]
            · rw [hfq]
              exact (hl.subs e).1
            · rw [hfq]
              exact htq
          refine ih
            (s := ⟨turn s.mem e (hooks part e) (place (.stomp e) lf) s.x f ⟨0, x'.q⟩, x',
              s.y, s.z⟩)
            (h.rotate hpart hsub) (hooks_update _ _ rfl).symm
            (fun i f' t' lf' hi => ?_) hy (hl.update hnear hsub hfar) (ht.rotate hpart)
            (fun i hi z hz => ?_) hlen
          · by_cases hie : i = e
            · subst hie
              rw [Function.update_self] at hi
              rw [hpae, (List.cons.inj hi).2]
            · rw [Function.update_of_ne hie] at hi
              exact hpa i f' t' lf' hi
          · have hie : i ≠ e := by
              rintro rfl
              rw [Function.update_self] at hi
              exact absurd hi (List.cons_ne_nil _ _)
            rw [Function.update_of_ne hie] at hi
            change (turn s.mem e (hooks part e) (place (.stomp e) lf) s.x f ⟨0, x'.q⟩
              (.stomp i)).p ≠ z.p
            have hother : i = e.other := (i.eq_or_other e).resolve_left hie
            have hson : ∀ j, Slot.stomp i ≠ .son j s.x.p := fun _ => stomp_ne_son
            rw [turn_of_ne (hother ▸ (hook_ne_stomp e).symm) hson]
            · exact hstale i hi z (hmem z hz)
            · exact (place_ne (fun he => hie (Slot.stomp.inj he).symm) foreign_stomp).symm
    · rw [if_pos fun hh => hfar hh.symm, if_neg hfar]
      have hhook : promote s.mem (hooks part) s.y s.x (hooks part e.other) = top (sub e.other) := by
        rw [hy]
        exact h.promoted_hook
      have hfall : Fallen k c q (promote s.mem (hooks part) s.y s.x) (next (hooks part) e s.x)
          (hang e.other s.x (sub e) :: c₀) (sub e.other) (closed part e s.x sub []) := by
        rw [hy]
        exact h.fall hl ht fun hh => hfar hh.symm
      have hquiet : Quiet (promote s.mem (hooks part) s.y s.x) (sub e.other) := by
        rw [hy]
        exact h.quiet
      exact ⟨_, _, rfl, rfl, rfl, hhook, hquiet, _, hfall⟩

theorem Quiet.of_sub (h : Quiet m (node x (sub .a) (sub .b)))
    (hsub : sub e = node x' (sub' .a) (sub' .b)) (i : Side) :
    ∀ z ∈ x' :: (inorder (sub' .a) ++ inorder (sub' .b)), (m (.stomp i)).p ≠ z.p := by
  intro z hz
  refine h i z ?_
  have hz' : z ∈ inorder (sub e) := by
    rw [hsub]
    simp only [inorder, List.mem_append, List.mem_cons] at hz ⊢
    tauto
  cases e
  · exact List.mem_append_left _ hz'
  · exact List.mem_append_right _ hz'

theorem Quiet.far (h : Quiet m (node x (sub .a) (sub .b))) : Quiet m (sub e) := by
  cases hs : sub e with
  | nil => trivial
  | node x' l r =>
    intro i z hz
    have hs' : sub e = node x' (Side.both l r .a) (Side.both l r .b) := hs
    exact h.of_sub hs' i z (List.mem_cons_of_mem _ hz)

/-- The whole tree, its nodes apart, with the slot it hangs from. -/
structure Planted (m : Mem) (k : Slot) (t : BinaryTree Adlen) : Prop where
  rep : Rep m k t
  apart : Apart (inorder t)
  root : Foreign k (inorder t)
  anchored : ∀ e, k ≠ .stomp e
  heap : Heap t

theorem start_perm : (inorder (plug c (node x (sub .a) (sub .b)))).Perm
    (x :: (nodes c ++ (inorder (sub .a) ++ inorder (sub .b)))) :=
  plug_join_perm (e := .a)

theorem Planted.working (h : Planted m k (plug c (node x (sub .a) (sub .b)))) :
    Working m k c (fun _ => []) x sub := by
  obtain ⟨hc, hx⟩ := rep_plug.mp h.rep
  refine Working.start hc (fun e => ?_) hx.2.1 (h.apart.perm start_perm)
    (h.root.mono fun y hy => start_perm.mem_iff.mpr hy) h.anchored
  cases e
  · exact hx.2.2.1
  · exact hx.2.2.2

theorem Planted.level (h : Planted m k (plug c (node x (sub .a) (sub .b)))) :
    Level x.q [] (fun _ => []) x sub := by
  obtain ⟨h1, h2, h3, h4⟩ := h.heap.of_plug
  refine ⟨trivial, fun _ => trivial, rfl, fun e => ?_⟩
  cases e
  · exact ⟨h1, h3⟩
  · exact ⟨h2, h4⟩

theorem splay_spec (h : Planted s.mem k (plug c (node s.x (sub .a) (sub .b))))
    (hy : s.y = place k c) (hq : 0 < s.x.q) (hquiet : Quiet s.mem (node s.x (sub .a) (sub .b)))
    (hn : (inorder (node s.x (sub .a) (sub .b))).length ≤ n) :
    ∃ r s', splay g u v n s = some (r, s') ∧ Splayed k c s.x.q u v s.y s.z r s'
      (walk (fun y => belongs v y.p) (fun y => touch u v y ≠ 0) c
        (node s.x (sub .a) (sub .b))) := by
  obtain ⟨e, he⟩ : ∃ e, belongs v s.x.p = e := ⟨_, rfl⟩
  rw [walk_node (fun y => belongs v y.p) _ he, splay]
  dsimp only
  rw [he]
  have hw := h.working
  have hl := h.level
  by_cases htouch : touch u v s.x ≠ 0
  · rw [if_pos htouch, if_pos htouch]
    exact ⟨_, _, rfl, rfl, rfl, rfl, rfl, _, h.rep, rfl, rfl, h.heap.of_plug, rfl⟩
  rw [if_neg htouch, if_neg htouch, (hw.sons e.other).top]
  by_cases hfar : (top (sub e.other)).q = s.x.q
  · obtain ⟨x', sub', hsub⟩ := exists_son hq hfar
    have htop : top (sub e.other) = x' := by rw [hsub]; rfl
    rw [if_neg (not_not.mpr hfar.symm), if_pos hfar]
    have hfar' : put s.mem (.stomp e) s.x (.son e.other s.x.p) = x' := by
      rw [put_of_ne _ _ (show Slot.son e.other s.x.p ≠ .stomp e from nofun), (hw.sons _).top, htop]
    have hx'q : x'.q = s.x.q := by rw [← hfar, htop]
    rw [hfar', withP_eq hx'q, hsub]
    refine splayLoop_spec (s := ⟨put s.mem (.stomp e) s.x, x', s.y, s.z⟩) (hw.attach hsub)
      (by rw [grown, hooks_update _ _ rfl, hooks_nil]) (fun i f t lf hi => ?_) hy
      (hl.update (hl.near (hl.parts e)) hsub hfar) Tracks.start.grown (fun i hi z hz => ?_) hq ?_
    · by_cases hie : i = e
      · subst hie
        rw [grown, Function.update_self] at hi
        rw [← (List.cons.inj hi).2]
        rfl
      · rw [grown, Function.update_of_ne hie] at hi
        exact absurd hi.symm (List.cons_ne_nil _ _)
    · have hie : i ≠ e := by
        rintro rfl
        rw [grown, Function.update_self] at hi
        exact absurd hi (List.cons_ne_nil _ _)
      change (put s.mem (.stomp e) s.x (.stomp i)).p ≠ z.p
      rw [put_of_ne _ _ fun hh => hie (Slot.stomp.inj hh)]
      exact hquiet.of_sub hsub i z hz
    · have h1 : (inorder (sub e.other)).length =
          (inorder (sub' .a)).length + (inorder (sub' .b)).length + 1 := by
        rw [hsub, length_inorder_node]
      rw [length_inorder_node] at hn
      cases e <;> simp only [Side.other] at h1 <;> omega
  · rw [if_pos fun hh => hfar hh.symm, if_neg hfar]
    have hnode : plug ([hang e.other s.x (sub e)] ++ c) (sub e.other) =
        plug c (node s.x (sub .a) (sub .b)) := by
      rw [List.singleton_append, plug_hang]
      cases e <;> rfl
    refine ⟨_, _, rfl, rfl, rfl, rfl, hquiet.far, [hang e.other s.x (sub e)], ?_, ?_, rfl, rfl,
      hl.near trivial, List.cons_ne_nil _ _, ?_, (hl.subs _).2⟩
    · rw [hnode]
      exact h.rep
    · rw [List.singleton_append, place_hang]
    · have := (hl.subs e.other).1
      omega

/-! ## `splint` -/

/-- The slot is away from everything the descent works on. -/
structure Outside (k' k : Slot) (l : List Adlen) : Prop where
  root : k' ≠ k
  stomp : ∀ e, k' ≠ .stomp e
  foreign : Foreign k' l

/-- What a splice writes; `d` goes to the splice slot. -/
def splice (m : Mem) (e : Side) (h y k' : Slot) (w d : Adlen) : Mem :=
  let m := put (put (put m h (m (.son e w.p))) y w) k' d
  let m := put m (.son .a w.p) (m (.stomp .a))
  put m (.son .b w.p) (m (.stomp .b))

theorem splice_of_ne {h y : Slot} {l : Slot} (hs : ∀ i, l ≠ .son i w.p) (hk : l ≠ k') (hy : l ≠ y)
    (hh : l ≠ h) : splice m e h y k' w d l = m l := by
  unfold splice
  rw [put_of_ne _ _ (hs .b), put_of_ne _ _ (hs .a), put_of_ne _ _ hk, put_of_ne _ _ hy,
    put_of_ne _ _ hh]

theorem splice_son {h y : Slot} (i : Side) (hk : .stomp i ≠ k') (hy : .stomp i ≠ y) :
    splice m e h y k' w d (.son i w.p) = put m h (m (.son e w.p)) (.stomp i) := by
  unfold splice
  cases i
  · rw [put_of_ne _ _ (show Slot.son .a w.p ≠ .son .b w.p from nofun), put_same,
      put_of_ne _ _ hk, put_of_ne _ _ hy]
  · rw [put_same, put_of_ne _ _ (show Slot.stomp .b ≠ .son .a w.p from nofun),
      put_of_ne _ _ hk, put_of_ne _ _ hy]

namespace Working

/-- A splice differs from a promotion only where the next subtree will be attached. -/
theorem splice_apply (h : Working m k c part w sub) (ho : Outside k' k (whole c part w sub))
    {l : Slot} (hk : l ≠ k') (hs : l ≠ .stomp e.other) (hn : l ≠ next (hooks part) e w) :
    splice m e (hooks part e) (place k c) k' w d l =
      promote m (hooks part) (place k c) w l := by
  have hyk : place k c ≠ k' := place_ne ho.root.symm (ho.foreign.mono fun _ => mem_around)
  by_cases hl : ∃ i, l = .son i w.p
  · obtain ⟨i, rfl⟩ := hl
    rw [splice_son i (ho.stomp i).symm (h.att_ne_stomp i).symm]
    have hother : hooks part i.other ≠ .stomp i := by
      have hne : hooks part i.other ≠ .stomp i.other.other := hook_ne_stomp i.other
      rwa [Side.other_other] at hne
    rw [promote_son (h.att_ne_son i) (fun e e' => h.hook_ne_son e e') hother]
    rcases i.eq_or_other e with rfl | rfl
    · split
      · rename_i he
        rw [he, put_same]
      · rename_i he
        exact put_of_ne _ _ (Ne.symm he)
    · rw [put_of_ne _ _ (hook_ne_stomp e).symm, if_neg]
      intro he
      exact hn (if_pos he).symm
  · rw [not_exists] at hl
    by_cases hy : l = place k c
    · subst hy
      rw [promote_att]
      unfold splice
      rw [put_of_ne _ _ (hl .b), put_of_ne _ _ (hl .a), put_of_ne _ _ hk, put_same]
    · by_cases hh : l = hooks part e
      · subst hh
        rw [promote_hook (h.hook_ne_att e) (fun e e' => h.hook_ne_son e e') (h.hook_ne_hook e)]
        unfold splice
        rw [put_of_ne _ _ (hl .b), put_of_ne _ _ (hl .a), put_of_ne _ _ hk, put_of_ne _ _ hy,
          put_same]
      · rw [splice_of_ne hl hk hy hh, promote_else hy hl fun i hi => ?_]
        rcases i.eq_or_other e with rfl | rfl
        · exact hh hi
        · refine hn ?_
          rw [hi, next, if_neg (hi ▸ hs)]

theorem closed_perm (hsub : sub e.other = node x' (sub' .a) (sub' .b)) :
    (whole c part w sub).Perm (whole (closed part e w sub c) (fun _ => []) x' sub') := by
  refine (whole_perm hsub).trans ?_
  rw [List.perm_iff_count]
  intro z
  rw [count_whole e, count_whole e, grown, Function.update_self,
    Function.update_of_ne e.other_ne, closed, count_nodes_append, count_nodes_hang,
    count_nodes_hang, count_inorder_plug]
  simp only [nodes, before, after, List.append_nil, List.count_nil]
  omega

/-- The node, with the two trees in `stomp`, is attached; its far subtree will be attached below
them. -/
theorem spliced (h : Working m k c part w sub) (ho : Outside k' k (whole c part w sub))
    (hsub : sub e.other = node x' (sub' .a) (sub' .b)) :
    Working (splice m e (hooks part e) (place k c) k' w d) k (closed part e w sub c)
      (fun _ => []) x' sub' := by
  have hperm : (whole c part w sub).Perm (whole (closed part e w sub c) (fun _ => []) x' sub') :=
    closed_perm hsub
  have hap := h.apart.perm hperm
  have hroot : Foreign k (whole (closed part e w sub c) (fun _ => []) x' sub') :=
    h.root.mono fun z hz => hperm.mem_iff.mpr hz
  have hfor : Foreign k' (whole (closed part e w sub c) (fun _ => []) x' sub') :=
    ho.foreign.mono fun z hz => hperm.mem_iff.mpr hz
  have hsep := hap.separate
  obtain ⟨hhole, hfar⟩ := rep_plug.mp (plug_closed (e := e) ▸ h.promote_rep)
  rw [hsub] at hfar
  have hnext : next (hooks part) e w = place k (closed part e w sub c) := next_eq_place
  have hsame : ∀ z ∈ whole (closed part e w sub c) (fun _ => []) x' sub', ∀ i,
      Slot.son i z.p ≠ place k (closed part e w sub c) →
      splice m e (hooks part e) (place k c) k' w d (.son i z.p) =
        promote m (hooks part) (place k c) w (.son i z.p) := by
    intro z hz i hne
    exact h.splice_apply ho (hfor z hz i).symm nofun (hnext ▸ hne)
  refine ⟨hhole.at (fun hne => ?_) hsep.apart fun z hz i hne => hsame z (mem_around hz) i hne,
    fun _ => trivial, fun i => ?_, hfar.2.1, hap, hroot, h.anchored⟩
  · refine h.splice_apply ho ho.root.symm (h.anchored _) ?_
    rw [hnext]
    rcases place_cases k (closed part e w sub c) with ⟨h0, _⟩ | ⟨z, hz, i, hp⟩
    · exact absurd h0 hne
    · rw [hp]
      exact hroot z (mem_around hz) i
  · have hsi : Rep (promote m (hooks part) (place k c) w) (.son i x'.p) (sub' i) := by
      cases i
      · exact hfar.2.2.1
      · exact hfar.2.2.2
    refine hsi.at (hsame x' List.mem_cons_self i ?_) fun z hz j => hsame z (mem_sub hz) j ?_
    · refine (place_ne (hroot x' List.mem_cons_self i) ?_).symm
      exact foreign_son.mpr hsep.around
    · refine (place_foreign (hroot.mono fun _ => mem_sub (e := i)) ?_ z hz j).symm
      exact hsep.around_subs i

end Working

theorem Level.restart (h : Level q cy part w sub)
    (hsub : sub e.other = node x' (sub' .a) (sub' .b)) (hq : (top (sub e.other)).q = w.q) :
    Level q (Cartesian.closed part e w sub cy) (fun _ => []) x' sub' := by
  obtain ⟨hx, hs⟩ := h.descend hsub hq
  exact ⟨h.closed, fun _ => trivial, hx, hs⟩

theorem Tracks.restart (h : Tracks c part c₀) :
    Tracks (Cartesian.closed part e w sub c) (fun _ => []) (hang e.other w (sub e) :: c₀) := by
  obtain ⟨h1, h2⟩ :
      before (Cartesian.closed part e w sub c) = before (hang e.other w (sub e) :: c₀) ∧
      after (Cartesian.closed part e w sub c) = after (hang e.other w (sub e) :: c₀) := h.closed
  exact ⟨fun _ => nofun, by rw [← h1]; simp [before], by rw [← h2]; simp [after]⟩

/-- What `splint` makes of the outcome of its descent. -/
def Splinted (k : Slot) (c : List (Frame Adlen)) (q : Nat) (k' : Slot) (s s' : State)
    (o : Bool × List (Frame Adlen) × BinaryTree Adlen) : Prop :=
  s'.x = s.x ∧ s'.z = s.z ∧ s'.mem k' = top o.2.2 ∧
    ∃ c', Fallen k c q s'.mem s'.y o.2.1 o.2.2 c'

theorem Outside.perm {l l' : List Adlen} (h : Outside k' k l) (hp : l.Perm l') : Outside k' k l' :=
  ⟨h.root, h.stomp, h.foreign.mono fun _ hz => hp.mem_iff.mpr hz⟩

/-- The splice slot may be written when all is done. -/
theorem Fallen.put {y' : Slot} {c₁ c' : List (Frame Adlen)} (h : Fallen k c q m y' c₁ t c')
    (hk : k' ≠ k) (hf : Foreign k' (inorder (plug (c' ++ c) t))) :
    Fallen k c q (Cartesian.put m k' d) y' c₁ t c' :=
  ⟨h.rep.put hk hf, h.att, h.left, h.right, h.flat, h.layer, h.lower, h.heap⟩

theorem splintLoop_spec (h : Working s.mem k (cy ++ c) part w sub) (hw : s.mem k' = w)
    (ho : Outside k' k (whole (cy ++ c) part w sub)) (hhook : hook = hooks part)
    (hy : s.y = place k (cy ++ c)) (hl : Level q cy part w sub) (ht : Tracks (cy ++ c) part c₀)
    (hq : 0 < q) (hn : (inorder (sub .a)).length + (inorder (sub .b)).length < n) :
    ∃ s', splintLoop g k' n hook s = some s' ∧ Splinted k c q k' s s'
      (walk (fun y => belongs (g.addr k') y.p) (fun _ => False) c₀
        (node w (sub .a) (sub .b))) := by
  induction n generalizing s part sub hook c₀ w cy with
  | zero => omega
  | succ n ih =>
    subst hhook
    obtain ⟨e, he⟩ : ∃ e, belongs (g.addr k') w.p = e := ⟨_, rfl⟩
    rw [walk_node (fun y => belongs (g.addr k') y.p) _ he, splintLoop]
    dsimp only
    rw [hw, he, if_neg id, (h.sons e.other).top]
    by_cases hfar : (top (sub e.other)).q = w.q
    · have hwq : 0 < w.q := hl.len.symm ▸ hq
      obtain ⟨x', sub', hsub⟩ := exists_son hwq hfar
      rw [if_neg (not_not.mpr hfar.symm), if_pos hfar]
      have htop : top (sub e.other) = x' := by rw [hsub]; rfl
      have hx'q : x'.q = w.q := by rw [← hfar, htop]
      have hlen : (inorder (sub' .a)).length + (inorder (sub' .b)).length < n := by
        have h1 : (inorder (sub e.other)).length =
            (inorder (sub' .a)).length + (inorder (sub' .b)).length + 1 := by
          rw [hsub, length_inorder_node]
        cases e <;> simp only [Side.other] at h1 <;> omega
      have hk'son : ∀ i, k' ≠ .son i w.p := ho.foreign w List.mem_cons_self
      have hk'hook : k' ≠ hooks part e := (place_ne (ho.stomp e).symm
        (ho.foreign.mono fun _ => Working.mem_part)).symm
      rw [hsub]
      by_cases hrot : w.p = (s.mem (hooks part e)).p
      · rw [if_pos hrot]
        have hk'y : k' ≠ s.y := by
          rw [hy]
          exact (place_ne ho.root.symm (ho.foreign.mono fun _ => Working.mem_around)).symm
        have hyson : s.y ≠ .son e.other w.p := by
          rw [hy]
          exact h.att_ne_son _
        have hat : put (put s.mem (hooks part e) (s.mem (.son e w.p))) s.y w k' = w := by
          rw [put_of_ne _ _ hk'y, put_of_ne _ _ hk'hook, hw]
        have hfar' : put (put s.mem (hooks part e) (s.mem (.son e w.p))) s.y w
            (.son e.other w.p) = x' := by
          rw [put_of_ne _ _ hyson.symm, put_of_ne _ _ (h.hook_ne_son e _).symm, (h.sons _).top,
            htop]
        have hupd : putP (put (put s.mem (hooks part e) (s.mem (.son e w.p))) s.y w) k' x'.p =
            put (put (put s.mem (hooks part e) (s.mem (.son e w.p))) s.y w) k' x' := by
          rw [putP, hat, withP_eq hx'q]
        rw [hfar', hupd]
        have hnew := h.spliced (d := x') ho hsub
        rw [closed_append, ← hy] at hnew
        have hout := ho.perm (Working.closed_perm hsub)
        rw [closed_append] at hout
        have hk'new : splice s.mem e (hooks part e) s.y k' w x' k' = x' := by
          unfold splice
          rw [put_of_ne _ _ (hk'son .b), put_of_ne _ _ (hk'son .a), put_same]
        refine ih (s := ⟨splice s.mem e (hooks part e) s.y k' w x', s.x, next (hooks part) e w,
          s.z⟩) hnew hk'new hout hooks_nil.symm ?_ (hl.restart hsub hfar) ?_ hlen
        · rw [← closed_append]
          exact next_eq_place
        · rw [← closed_append]
          exact ht.restart
      · rw [if_neg hrot]
        have hfar' : put s.mem (hooks part e) w (.son e.other w.p) = x' := by
          rw [put_of_ne _ _ (h.hook_ne_son e _).symm, (h.sons _).top, htop]
        have hupd : putP (put s.mem (hooks part e) w) k' x'.p =
            put (put s.mem (hooks part e) w) k' x' := by
          rw [putP, put_of_ne _ _ hk'hook, hw, withP_eq hx'q]
        rw [hfar', hupd]
        have hout := ho.perm (Working.whole_perm hsub)
        exact ih (s := ⟨put (put s.mem (hooks part e) w) k' x', s.x, s.y, s.z⟩)
          ((h.attach hsub).put_outside hout.root hout.stomp hout.foreign) (put_same ..) hout
          (hooks_update _ _ rfl).symm hy (hl.update (hl.near (hl.parts e)) hsub hfar) ht.grown hlen
    · rw [if_pos fun hh => hfar hh.symm, if_neg hfar]
      have hhook : promote s.mem (hooks part) s.y w (hooks part e.other) = top (sub e.other) := by
        rw [hy]
        exact h.promoted_hook
      have hfall : Fallen k c q (promote s.mem (hooks part) s.y w) (next (hooks part) e w)
          (hang e.other w (sub e) :: c₀) (sub e.other) (closed part e w sub cy) := by
        rw [hy]
        exact h.fall hl ht fun hh => hfar hh.symm
      refine ⟨_, rfl, rfl, rfl, ?_, _, hfall.put ho.root ?_⟩
      · change put _ k' _ k' = _
        rw [put_same, hhook]
      · refine ho.foreign.mono fun z hz => ?_
        rw [← closed_append, plug_closed] at hz
        have hz' := (plug_join_perm (e := .a)).mem_iff.mp hz
        simp only [whole, List.mem_cons, List.mem_append, inorder_plug_perm.mem_iff] at hz' ⊢
        tauto

theorem splint_spec (hc : Hole s.mem k c) (hrep : Rep s.mem k' (node w (sub .a) (sub .b)))
    (ha : Apart (inorder (plug c (node w (sub .a) (sub .b)))))
    (hk : Foreign k (inorder (plug c (node w (sub .a) (sub .b))))) (hks : ∀ e, k ≠ .stomp e)
    (hheap : Heap (node w (sub .a) (sub .b)))
    (ho : Outside k' k (inorder (plug c (node w (sub .a) (sub .b)))))
    (hy : s.y = place k c) (hq : 0 < w.q)
    (hn : (inorder (node w (sub .a) (sub .b))).length ≤ n) :
    ∃ s', splint g k' n s = some s' ∧ Splinted k c w.q k' s s'
      (walk (fun y => belongs (g.addr k') y.p) (fun _ => False) c
        (node w (sub .a) (sub .b))) := by
  obtain ⟨e, he⟩ : ∃ e, belongs (g.addr k') w.p = e := ⟨_, rfl⟩
  have hw : s.mem k' = w := hrep.top
  have hworking : Working s.mem k c (fun _ => []) w sub := by
    refine Working.start hc (fun e => ?_) hrep.2.1 (ha.perm start_perm)
      (hk.mono fun y hy => start_perm.mem_iff.mpr hy) hks
    cases e
    · exact hrep.2.2.1
    · exact hrep.2.2.2
  have hl : Level w.q [] (fun _ => []) w sub := by
    obtain ⟨h1, h2, h3, h4⟩ := hheap
    refine ⟨trivial, fun _ => trivial, rfl, fun e => ?_⟩
    cases e
    · exact ⟨h1, h3⟩
    · exact ⟨h2, h4⟩
  have hout : Outside k' k (whole ([] ++ c) (fun _ => []) w sub) := by
    refine ho.perm (start_perm.trans ?_)
    simp [whole, nodes, before, after]
  rw [walk_node (fun y => belongs (g.addr k') y.p) _ he, splint]
  dsimp only
  rw [hw, he, if_neg id, (hworking.sons e.other).top]
  by_cases hfar : (top (sub e.other)).q = w.q
  · obtain ⟨x', sub', hsub⟩ := exists_son hq hfar
    have htop : top (sub e.other) = x' := by rw [hsub]; rfl
    have hx'q : x'.q = w.q := by rw [← hfar, htop]
    rw [if_neg (not_not.mpr hfar.symm), if_pos hfar]
    have hfar' : put s.mem (.stomp e) w (.son e.other w.p) = x' := by
      rw [put_of_ne _ _ stomp_ne_son.symm,
        (hworking.sons _).top, htop]
    have hupd : putP (put s.mem (.stomp e) w) k' x'.p = put (put s.mem (.stomp e) w) k' x' := by
      rw [putP, put_of_ne _ _ (ho.stomp e), hw, withP_eq hx'q]
    rw [hfar', hupd, hsub]
    have hout' := hout.perm (Working.whole_perm hsub)
    have hworking' : Working (put (put s.mem (.stomp e) w) k' x') k ([] ++ c)
        (grown (fun _ => []) e w (sub e)) x' sub' :=
      (hworking.attach hsub).put_outside hout'.root hout'.stomp hout'.foreign
    refine splintLoop_spec (s := ⟨put (put s.mem (.stomp e) w) k' x', s.x, s.y, s.z⟩)
      hworking' (put_same ..) hout'
      (by rw [grown, hooks_update _ _ rfl, hooks_nil]) hy
      (hl.update (hl.near (hl.parts e)) hsub hfar) Tracks.start.grown hq ?_
    have h1 : (inorder (sub e.other)).length =
        (inorder (sub' .a)).length + (inorder (sub' .b)).length + 1 := by
      rw [hsub, length_inorder_node]
    rw [length_inorder_node] at hn
    cases e <;> simp only [Side.other] at h1 <;> omega
  · rw [if_pos fun hh => hfar hh.symm, if_neg hfar]
    have hnode : plug ([hang e.other w (sub e)] ++ c) (sub e.other) =
        plug c (node w (sub .a) (sub .b)) := by
      rw [List.singleton_append, plug_hang]
      cases e <;> rfl
    have hyk : place k c ≠ k' := place_ne ho.root.symm
      (hout.foreign.mono fun _ => Working.mem_around)
    have hplanted : Rep (put s.mem s.y w) k (plug c (node w (sub .a) (sub .b))) := by
      have hsep := hworking.separate
      rw [hy]
      refine rep_plug.mpr ⟨hc.put_place hsep.apart (hworking.root.mono fun _ => Working.mem_around),
        put_same .., hrep.2.1, ?_, ?_⟩
      · exact (hworking.sons .a).put (hworking.att_ne_son .a) (hworking.att_foreign_sub .a)
      · exact (hworking.sons .b).put (hworking.att_ne_son .b) (hworking.att_foreign_sub .b)
    have hnext : put s.mem s.y w (.son e.other w.p) = top (sub e.other) := by
      rw [hy, put_of_ne _ _ (hworking.att_ne_son _).symm, (hworking.sons _).top]
    refine ⟨_, rfl, rfl, rfl, ?_, [hang e.other w (sub e)], ?_, ?_, rfl, rfl, hl.near trivial,
      List.cons_ne_nil _ _, ?_, (hl.subs _).2⟩
    · change put _ k' _ k' = _
      rw [put_same, hnext]
    · rw [hnode]
      exact hplanted.put ho.root ho.foreign
    · rw [List.singleton_append, place_hang]
    · change (top (sub e.other)).q < w.q
      have := (hl.subs e.other).1
      omega

end Aix413.Cartesian
