import Aix413.Cartesian.Layers
import Aix413.Lib.LinkedTree

namespace Aix413.Cartesian

open BinaryTree Lib.LinkedTree

variable {m m' : Mem} {k k' : Slot} {t u v : BinaryTree Adlen} {c c' : List (Frame Adlen)}
  {x w d : Adlen} {e : Side} {l : List Adlen}

@[simp] theorem put_same (m : Mem) (k : Slot) (d : Adlen) : put m k d k = d :=
  Function.update_self ..

theorem put_of_ne (m : Mem) (d : Adlen) (h : k' ≠ k) : put m k d k' = m k' :=
  Function.update_of_ne h ..

@[simp] theorem Side.other_other (e : Side) : e.other.other = e := by cases e <;> rfl

theorem Side.other_ne (e : Side) : e.other ≠ e := by cases e <;> decide

/-! ## Trees in memory -/

/-- The adlen that stands for a tree. -/
def top : BinaryTree Adlen → Adlen
  | nil => ⟨0, 0⟩
  | node x _ _ => x

/-- The tree below a slot. -/
def Rep (m : Mem) : Slot → BinaryTree Adlen → Prop
  | k, nil => m k = ⟨0, 0⟩
  | k, node x l r => m k = x ∧ x.p ≠ 0 ∧ Rep m (.son .a x.p) l ∧ Rep m (.son .b x.p) r

/-- A tree given by a side, the subtree on it, and the other one. -/
def join (e : Side) (x : Adlen) (u t : BinaryTree Adlen) : BinaryTree Adlen :=
  match e with
  | .a => node x u t
  | .b => node x t u

/-- A frame whose place is on side `e`. -/
def hang (e : Side) (x : Adlen) (t : BinaryTree Adlen) : Frame Adlen :=
  match e with
  | .a => .left x t
  | .b => .right x t

/-- The slot of a place below `k`. -/
def place (k : Slot) : List (Frame Adlen) → Slot
  | [] => k
  | .left x _ :: _ => .son .a x.p
  | .right x _ :: _ => .son .b x.p

/-- The nodes around a place are linked, whatever its slot holds. -/
def Hole (m : Mem) (k : Slot) : List (Frame Adlen) → Prop
  | [] => True
  | .left x r :: c => m (place k c) = x ∧ x.p ≠ 0 ∧ Rep m (.son .b x.p) r ∧ Hole m k c
  | .right x l :: c => m (place k c) = x ∧ x.p ≠ 0 ∧ Rep m (.son .a x.p) l ∧ Hole m k c

def nodes (c : List (Frame Adlen)) : List Adlen := before c ++ after c

theorem Rep.top (h : Rep m k t) : m k = top t := by
  cases t with
  | nil => exact h
  | node x l r => exact h.1

@[simp] theorem place_hang : place k (hang e x t :: c) = .son e x.p := by cases e <;> rfl

theorem rep_join : Rep m k (join e x u t) ↔
    m k = x ∧ x.p ≠ 0 ∧ Rep m (.son e x.p) u ∧ Rep m (.son e.other x.p) t := by
  cases e
  · exact Iff.rfl
  · exact and_congr_right fun _ => and_congr_right fun _ => and_comm

theorem hole_hang : Hole m k (hang e x t :: c) ↔
    m (place k c) = x ∧ x.p ≠ 0 ∧ Rep m (.son e.other x.p) t ∧ Hole m k c := by
  cases e <;> exact Iff.rfl

theorem plug_hang : plug (hang e x t :: c) u = plug c (join e x u t) := by cases e <;> rfl

@[simp] theorem top_join : Cartesian.top (join e x u t) = x := by cases e <;> rfl

theorem exists_join (e : Side) (t : BinaryTree Adlen) :
    t = nil ∨ ∃ x u v, t = join e x u v := by
  cases t with
  | nil => exact Or.inl rfl
  | node x l r =>
    cases e
    · exact Or.inr ⟨x, l, r, rfl⟩
    · exact Or.inr ⟨x, r, l, rfl⟩

theorem exists_hang (f : Frame Adlen) : ∃ e x t, f = hang e x t := by
  cases f with
  | left x t => exact ⟨.a, x, t, rfl⟩
  | right x t => exact ⟨.b, x, t, rfl⟩

theorem inorder_join_perm : (inorder (join e x u t)).Perm (x :: (inorder u ++ inorder t)) := by
  cases e
  · exact List.perm_middle
  · exact List.perm_middle.trans (List.perm_append_comm.cons x)

theorem nodes_hang_perm :
    (nodes (hang e x t :: c)).Perm (x :: (inorder t ++ nodes c)) := by
  rw [List.perm_iff_count]
  intro y
  cases e <;> simp [nodes, hang, before, after, List.count_cons] <;> omega

theorem rep_plug : Rep m k (plug c t) ↔ Hole m k c ∧ Rep m (place k c) t := by
  induction c generalizing t with
  | nil => exact (and_iff_right trivial).symm
  | cons f c ih =>
    obtain ⟨e, x, v, rfl⟩ := exists_hang f
    rw [plug_hang, ih, rep_join, hole_hang, place_hang]
    tauto

/-! ## Changes elsewhere -/

/-- The slot is in no header of the nodes. -/
def Foreign (k : Slot) (l : List Adlen) : Prop := ∀ x ∈ l, ∀ e, k ≠ .son e x.p

theorem Foreign.mono {l' : List Adlen} (h : Foreign k l) (hl : ∀ x ∈ l', x ∈ l) : Foreign k l' :=
  fun x hx => h x (hl x hx)

theorem foreign_son {n : Nat} : Foreign (.son e n) l ↔ ∀ x ∈ l, x.p ≠ n := by
  constructor
  · exact fun h x hx he => h x hx e (he ▸ rfl)
  · intro h x hx e' he
    cases he
    exact h x hx rfl

theorem stomp_ne_son {i : Side} {n : Nat} : Slot.stomp e ≠ .son i n := by
  intro h
  cases h

theorem foreign_stomp : Foreign (.stomp e) l := fun _ _ _ => nofun

/-- A tree is below any slot that holds its adlen, as long as its headers are as before. -/
theorem Rep.at (h : Rep m k t) (hk : m' k' = m k)
    (hs : ∀ x ∈ inorder t, ∀ e, m' (.son e x.p) = m (.son e x.p)) : Rep m' k' t := by
  induction t generalizing k k' with
  | nil => exact hk.trans h
  | node x l r ihl ihr =>
    obtain ⟨hx, h0, hl, hr⟩ := h
    refine ⟨hk.trans hx, h0, ihl hl (hs x (by simp [inorder]) .a) ?_,
      ihr hr (hs x (by simp [inorder]) .b) ?_⟩
    · exact fun y hy => hs y (by simp [inorder, hy])
    · exact fun y hy => hs y (by simp [inorder, hy])

theorem Rep.put (h : Rep m k t) (hk : k' ≠ k) (hf : Foreign k' (inorder t)) :
    Rep (put m k' d) k t :=
  h.at (put_of_ne m d hk.symm) fun x hx e => put_of_ne m d (hf x hx e).symm

theorem place_cases (k : Slot) (c : List (Frame Adlen)) :
    c = [] ∧ place k c = k ∨ ∃ x ∈ nodes c, ∃ e, place k c = .son e x.p := by
  cases c with
  | nil => exact Or.inl ⟨rfl, rfl⟩
  | cons f c =>
    obtain ⟨e, x, t, rfl⟩ := exists_hang f
    exact Or.inr ⟨x, nodes_hang_perm.mem_iff.mpr List.mem_cons_self, e, place_hang⟩

theorem place_ne (hk : k ≠ k') (hf : Foreign k' (nodes c)) : place k c ≠ k' := by
  rcases place_cases k c with ⟨_, h⟩ | ⟨x, hx, e, h⟩
  · rwa [h]
  · rw [h]
    exact (hf x hx e).symm

theorem place_foreign (hk : Foreign k l) (hd : ∀ x ∈ nodes c, ∀ y ∈ l, y.p ≠ x.p) :
    Foreign (place k c) l := by
  rcases place_cases k c with ⟨_, h⟩ | ⟨x, hx, e, h⟩
  · rwa [h]
  · rw [h]
    exact foreign_son.mpr (hd x hx)

/-- The slot of a place does not change with the root once there is a node above it. -/
theorem place_congr (k k' : Slot) (hc : c ≠ []) : place k c = place k' c := by
  cases c with
  | nil => exact absurd rfl hc
  | cons f c =>
    obtain ⟨e, x, t, rfl⟩ := exists_hang f
    rw [place_hang, place_hang]

theorem Hole.at (h : Hole m k c) (hk : c ≠ [] → m' k' = m k)
    (hnd : ((nodes c).map Adlen.p).Nodup)
    (hs : ∀ x ∈ nodes c, ∀ e, .son e x.p ≠ place k c → m' (.son e x.p) = m (.son e x.p)) :
    Hole m' k' c := by
  induction c with
  | nil => trivial
  | cons f c ih =>
    obtain ⟨e, x, t, rfl⟩ := exists_hang f
    obtain ⟨hx, h0, ht, hc⟩ := hole_hang.mp h
    have hperm := (nodes_hang_perm (e := e) (x := x) (t := t) (c := c)).map Adlen.p
    have hnd' := hperm.nodup_iff.mp hnd
    rw [List.map_cons, List.map_append, List.nodup_cons, List.nodup_append, List.mem_append] at hnd'
    have hmem : ∀ y, y = x ∨ y ∈ inorder t ∨ y ∈ nodes c → y ∈ nodes (hang e x t :: c) := by
      intro y hy
      refine nodes_hang_perm.mem_iff.mpr ?_
      rwa [List.mem_cons, List.mem_append]
    have hne : ∀ y, y ∈ inorder t ∨ y ∈ nodes c → y.p ≠ x.p := by
      rintro y (hy | hy) he
      · exact hnd'.1 (Or.inl (he ▸ List.mem_map_of_mem hy))
      · exact hnd'.1 (Or.inr (he ▸ List.mem_map_of_mem hy))
    have hs' : ∀ y, y ∈ inorder t ∨ y ∈ nodes c → ∀ e, m' (.son e y.p) = m (.son e y.p) := by
      intro y hy e'
      refine hs y (hmem y (Or.inr hy)) e' ?_
      rw [place_hang]
      intro he
      injection he with _ hp
      exact hne y hy hp
    refine hole_hang.mpr ⟨?_, h0, ?_, ?_⟩
    · rcases place_cases k c with ⟨rfl, _⟩ | ⟨y, hy, e', hp⟩
      · exact (hk (by simp)).trans hx
      · have hc' : c ≠ [] := by
          rintro rfl
          exact absurd hy (by simp [nodes, before, after])
        rw [place_congr k' k hc', ← hx, hp]
        exact hs' y (Or.inr hy) e'
    · refine ht.at (hs x (hmem x (Or.inl rfl)) e.other ?_) fun y hy => hs' y (Or.inl hy)
      rw [place_hang]
      intro he
      cases e <;> cases he
    · exact ih hc (fun _ => hk (by simp)) hnd'.2.2.1 fun y hy e' _ => hs' y (Or.inr hy) e'

theorem Hole.put (h : Hole m k c) (hnd : ((nodes c).map Adlen.p).Nodup) (hk : k' ≠ k)
    (hf : Foreign k' (nodes c)) : Hole (put m k' d) k c :=
  h.at (fun _ => put_of_ne m d hk.symm) hnd fun x hx e _ => put_of_ne m d (hf x hx e).symm

theorem Hole.put_place (h : Hole m k c) (hnd : ((nodes c).map Adlen.p).Nodup)
    (hf : Foreign k (nodes c)) : Hole (Cartesian.put m (place k c) d) k c := by
  refine h.at (fun hc => put_of_ne m d ?_) hnd fun x hx e hne => put_of_ne m d hne
  rcases place_cases k c with ⟨h0, _⟩ | ⟨x, hx, e, he⟩
  · exact absurd h0 hc
  · rw [he]
    exact hf x hx e

/-! ## Nodes apart from each other -/

/-- No two nodes have one address. -/
def Apart (l : List Adlen) : Prop := (l.map Adlen.p).Nodup

theorem Apart.perm {l' : List Adlen} (h : Apart l) (hp : l.Perm l') : Apart l' :=
  (hp.map Adlen.p).nodup_iff.mp h

theorem apart_cons : Apart (x :: l) ↔ (∀ y ∈ l, y.p ≠ x.p) ∧ Apart l := by
  rw [Apart, List.map_cons, List.nodup_cons, List.mem_map]
  refine and_congr_left fun _ => ⟨fun h y hy he => h ⟨y, hy, he⟩, ?_⟩
  rintro h ⟨y, hy, he⟩
  exact h y hy he

theorem apart_append {l' : List Adlen} :
    Apart (l ++ l') ↔ Apart l ∧ Apart l' ∧ ∀ x ∈ l, ∀ y ∈ l', y.p ≠ x.p := by
  rw [Apart, List.map_append, List.nodup_append]
  refine and_congr_right fun _ => and_congr_right fun _ => ⟨fun h x hx y hy he => ?_, ?_⟩
  · exact h _ (List.mem_map_of_mem hx) _ (List.mem_map_of_mem hy) he.symm
  · intro h i hi j hj he
    obtain ⟨x, hx, rfl⟩ := List.mem_map.mp hi
    obtain ⟨y, hy, rfl⟩ := List.mem_map.mp hj
    exact h x hx y hy he.symm

theorem inorder_plug_perm : (inorder (plug c t)).Perm (nodes c ++ inorder t) := by
  rw [inorder_plug, nodes, List.append_assoc, List.append_assoc]
  exact List.perm_append_comm.append_left _

/-! ## Lengths -/

/-- No son is longer than its father. -/
def Heap : BinaryTree Adlen → Prop
  | nil => True
  | node x l r => (top l).q ≤ x.q ∧ (top r).q ≤ x.q ∧ Heap l ∧ Heap r

/-- Frames of a layer of nodes of length `q`. -/
def Flat (q : Nat) : List (Frame Adlen) → Prop
  | [] => True
  | .left x t :: c => x.q = q ∧ (top t).q ≤ q ∧ Heap t ∧ Flat q c
  | .right x t :: c => x.q = q ∧ (top t).q ≤ q ∧ Heap t ∧ Flat q c

variable {q : Nat}

theorem heap_join : Heap (join e x u t) ↔
    (top u).q ≤ x.q ∧ (top t).q ≤ x.q ∧ Heap u ∧ Heap t := by
  cases e
  · exact Iff.rfl
  · simp only [join, Heap]
    tauto

theorem flat_hang : Flat q (hang e x t :: c) ↔
    x.q = q ∧ (top t).q ≤ q ∧ Heap t ∧ Flat q c := by
  cases e <;> exact Iff.rfl

theorem flat_append : Flat q (c ++ c') ↔ Flat q c ∧ Flat q c' := by
  induction c with
  | nil => exact (and_iff_right trivial).symm
  | cons f c ih =>
    obtain ⟨e, x, t, rfl⟩ := exists_hang f
    rw [List.cons_append, flat_hang, flat_hang, ih]
    tauto

theorem heap_plug (hc : Flat q c) (ht : Heap t) (hq : (top t).q ≤ q) :
    Heap (plug c t) ∧ (c = [] ∨ (top (plug c t)).q = q) := by
  induction c generalizing t with
  | nil => exact ⟨ht, Or.inl rfl⟩
  | cons f c ih =>
    obtain ⟨e, x, v, rfl⟩ := exists_hang f
    obtain ⟨hx, hv, hhv, hc⟩ := flat_hang.mp hc
    have hj : Heap (join e x t v) := heap_join.mpr ⟨hx ▸ hq, hx ▸ hv, ht, hhv⟩
    rw [plug_hang]
    obtain ⟨h1, h2⟩ := ih hc hj (by rw [top_join, hx])
    refine ⟨h1, Or.inr ?_⟩
    rcases h2 with rfl | h2
    · rw [plug, top_join, hx]
    · exact h2

theorem Heap.of_plug (h : Heap (plug c t)) : Heap t := by
  induction c generalizing t with
  | nil => exact h
  | cons f c ih =>
    obtain ⟨e, x, v, rfl⟩ := exists_hang f
    rw [plug_hang] at h
    exact (heap_join.mp (ih h)).2.2.1

/-- A tree may be replaced by one whose root has the same length. -/
theorem Heap.replace (h : Heap (plug c t)) (hu : Heap u) (hq : (top u).q = (top t).q) :
    Heap (plug c u) := by
  induction c generalizing t u with
  | nil => exact hu
  | cons f c ih =>
    obtain ⟨e, x, v, rfl⟩ := exists_hang f
    rw [plug_hang] at h ⊢
    obtain ⟨h1, h2, h3, h4⟩ := heap_join.mp h.of_plug
    exact ih h (heap_join.mpr ⟨hq ▸ h1, h2, hu, h4⟩) (by rw [top_join, top_join])

/-- Frames whose places are all on one side. -/
def Along (e : Side) (c : List (Frame Adlen)) : Prop := ∀ f ∈ c, ∃ x t, f = hang e x t

theorem Along.before (h : Along .a c) : before c = [] := by
  induction c with
  | nil => rfl
  | cons f c ih =>
    obtain ⟨x, t, rfl⟩ := h f List.mem_cons_self
    exact ih fun f hf => h f (List.mem_cons_of_mem _ hf)

theorem Along.after (h : Along .b c) : after c = [] := by
  induction c with
  | nil => rfl
  | cons f c ih =>
    obtain ⟨x, t, rfl⟩ := h f List.mem_cons_self
    exact ih fun f hf => h f (List.mem_cons_of_mem _ hf)

theorem along_cons : Along e (hang e x t :: c) ↔ Along e c := by
  constructor
  · exact fun h f hf => h f (List.mem_cons_of_mem _ hf)
  · rintro h f (_ | ⟨_, hf⟩)
    · exact ⟨x, t, rfl⟩
    · exact h f hf

theorem plug_join_perm :
    (inorder (plug c (join e x u t))).Perm (x :: (nodes c ++ (inorder u ++ inorder t))) :=
  inorder_plug_perm.trans ((inorder_join_perm.append_left _).trans List.perm_middle)

theorem plug_join_join_perm : (inorder (plug c (join e x (join e w u v) t))).Perm
    (x :: w :: (nodes c ++ (inorder u ++ (inorder v ++ inorder t)))) := by
  refine plug_join_perm.trans (List.Perm.cons x ?_)
  refine ((inorder_join_perm.append_right _).append_left _).trans ?_
  refine List.perm_middle.trans (List.Perm.cons w ?_)
  simp

theorem inorder_join_congr (h : inorder u = inorder v) :
    inorder (join e x u t) = inorder (join e x v t) := by
  cases e <;> simp only [join, inorder, h]

/-! ## Single rotations -/

theorem inorder_rotate :
    inorder (join e w u (join e x v t)) = inorder (join e x (join e w u v) t) := by
  cases e <;> simp [join, inorder]

/-- What a round of `extremeLoop` writes. -/
def rotate (m : Mem) (e : Side) (y : Slot) (x w : Adlen) : Mem :=
  put (put (put m y w) (.son e x.p) (m (.son e.other w.p))) (.son e.other w.p) x

theorem rotate_rep (h : Rep m k (plug c (join e x (join e w u v) t)))
    (ha : Apart (inorder (plug c (join e x (join e w u v) t))))
    (hk : Foreign k (inorder (plug c (join e x (join e w u v) t)))) :
    Rep (rotate m e (place k c) x w) k (plug c (join e w u (join e x v t))) := by
  obtain ⟨hc, hj⟩ := rep_plug.mp h
  obtain ⟨hx, hx0, hj, ht⟩ := rep_join.mp hj
  obtain ⟨hw, hw0, hu, hv⟩ := rep_join.mp hj
  have hperm := plug_join_join_perm (c := c) (e := e) (x := x) (w := w) (u := u) (v := v) (t := t)
  have hl := ha.perm hperm
  rw [apart_cons, apart_cons, apart_append] at hl
  obtain ⟨hxl, hwl, hcl, -, hcd⟩ := hl
  have hmem : ∀ y, y ∈ nodes c ∨ y ∈ inorder u ∨ y ∈ inorder v ∨ y ∈ inorder t →
      y ∈ nodes c ++ (inorder u ++ (inorder v ++ inorder t)) := by
    simp only [List.mem_append, imp_self, implies_true]
  have hxf : ∀ y, y ∈ nodes c ∨ y ∈ inorder u ∨ y ∈ inorder v ∨ y ∈ inorder t → y.p ≠ x.p :=
    fun y hy => hxl y (List.mem_cons_of_mem _ (hmem y hy))
  have hwf : ∀ y, y ∈ nodes c ∨ y ∈ inorder u ∨ y ∈ inorder v ∨ y ∈ inorder t → y.p ≠ w.p :=
    fun y hy => hwl y (hmem y hy)
  have hwx : w.p ≠ x.p := hxl w List.mem_cons_self
  have hkl : Foreign k (x :: w :: (nodes c ++ (inorder u ++ (inorder v ++ inorder t)))) :=
    hk.mono fun y hy => hperm.mem_iff.mpr hy
  have hkc : Foreign k (nodes c) :=
    hkl.mono fun y hy => List.mem_cons_of_mem _ (List.mem_cons_of_mem _ (hmem y (Or.inl hy)))
  have hpf : Foreign (place k c) (x :: w :: (inorder u ++ (inorder v ++ inorder t))) := by
    refine place_foreign (hkl.mono ?_) ?_
    · simp only [List.mem_cons, List.mem_append]
      tauto
    · intro y hy z hz
      rw [List.mem_cons, List.mem_cons] at hz
      rcases hz with rfl | rfl | hz
      · exact (hxf y (Or.inl hy)).symm
      · exact (hwf y (Or.inl hy)).symm
      · exact hcd y hy z hz
  have hpx : ∀ e, place k c ≠ .son e x.p := hpf x List.mem_cons_self
  have hpw : ∀ e, place k c ≠ .son e w.p := hpf w (List.mem_cons_of_mem _ List.mem_cons_self)
  have hxw : ∀ e e', Slot.son e x.p ≠ .son e' w.p := fun e e' he => by
    injection he with _ he
    exact hwx he.symm
  have hsame : ∀ y, y ∈ inorder u ∨ y ∈ inorder v ∨ y ∈ inorder t → ∀ e',
      rotate m e (place k c) x w (.son e' y.p) = m (.son e' y.p) := by
    intro y hy e'
    have h1 : Slot.son e' y.p ≠ .son e.other w.p := fun he => by
      injection he with _ he
      exact hwf y (Or.inr hy) he
    have h2 : Slot.son e' y.p ≠ .son e x.p := fun he => by
      injection he with _ he
      exact hxf y (Or.inr hy) he
    have h3 : Slot.son e' y.p ≠ place k c := (hpf y (by
      simp only [List.mem_cons, List.mem_append]
      tauto) e').symm
    rw [rotate, put_of_ne _ _ h1, put_of_ne _ _ h2, put_of_ne _ _ h3]
  have hne : Slot.son e.other x.p ≠ .son e x.p := fun he => by
    injection he with he
    exact e.other_ne he
  have hne' : Slot.son e w.p ≠ .son e.other w.p := fun he => by
    injection he with he
    exact e.other_ne he.symm
  refine rep_plug.mpr ⟨?_, rep_join.mpr ⟨?_, hw0, ?_, rep_join.mpr ⟨?_, hx0, ?_, ?_⟩⟩⟩
  · refine Hole.put (Hole.put (hc.put_place hcl hkc) hcl ?_ ?_) hcl ?_ ?_
    · exact (hkl x List.mem_cons_self e).symm
    · exact foreign_son.mpr fun y hy => hxf y (Or.inl hy)
    · exact (hkl w (List.mem_cons_of_mem _ List.mem_cons_self) e.other).symm
    · exact foreign_son.mpr fun y hy => hwf y (Or.inl hy)
  · rw [rotate, put_of_ne _ _ (hpw _), put_of_ne _ _ (hpx _), put_same]
  · refine hu.at ?_ fun y hy => hsame y (Or.inl hy)
    rw [rotate, put_of_ne _ _ hne', put_of_ne _ _ (hxw e e).symm, put_of_ne _ _ (hpw e).symm]
  · rw [rotate, put_same]
  · refine hv.at ?_ fun y hy => hsame y (Or.inr (Or.inl hy))
    rw [rotate, put_of_ne _ _ (hxw _ _), put_same]
  · refine ht.at ?_ fun y hy => hsame y (Or.inr (Or.inr hy))
    rw [rotate, put_of_ne _ _ (hxw _ _), put_of_ne _ _ hne, put_of_ne _ _ (hpx _).symm]

theorem withP_eq (h : w.q = x.q) : ({ x with p := w.p } : Adlen) = w := by
  cases w
  cases x
  simp only at h
  rw [h]

/-- One round of the loop at a son of the same length. -/
theorem extremeLoop_succ {s : State} {n : Nat} (hx : s.x = x) (hy : s.mem s.y = x)
    (hw : s.mem (.son e x.p) = w) (hq : w.q = x.q) (hyx : s.y ≠ .son e x.p)
    (hyw : s.y ≠ .son e.other w.p) (hu : rotate s.mem e s.y x w (.son e w.p) = d) :
    extremeLoop e (n + 1) s =
      if d.q < w.q then some { s with mem := rotate s.mem e s.y x w, x := w }
      else extremeLoop e n
        { s with mem := rotate s.mem e s.y x w, y := .son e w.p, x := { w with p := d.p } } := by
  have hput : putP s.mem s.y w.p = put s.mem s.y w := by
    rw [putP, hy, withP_eq hq]
  have hold : put s.mem s.y w (.son e.other w.p) = s.mem (.son e.other w.p) :=
    put_of_ne _ _ hyw.symm
  have hat : put (put s.mem s.y w) (.son e x.p) (s.mem (.son e.other w.p)) s.y = w := by
    rw [put_of_ne _ _ hyx, put_same]
  rw [extremeLoop, hx, hw, if_pos hq.symm]
  dsimp only
  rw [hput, put_same, hold, hat]
  have hrot : rotate s.mem e s.y x w s.y = w := by
    rw [rotate, put_of_ne _ _ hyw, put_of_ne _ _ hyx, put_same]
  rw [show put (put (put s.mem s.y w) (.son e x.p) (s.mem (.son e.other w.p)))
    (.son e.other w.p) x = rotate s.mem e s.y x w from rfl, hrot, hu, ← hq]

/-- The last node on side `e` of a layer, with the tree around it and its subtrees. -/
structure Extreme (e : Side) (k : Slot) (c : List (Frame Adlen)) (v : BinaryTree Adlen)
    (s' : State) (c' : List (Frame Adlen)) (x : Adlen) (u t : BinaryTree Adlen) : Prop where
  rep : Rep s'.mem k (plug (c' ++ c) (join e x u t))
  cur : s'.x = x
  att : s'.y = place k (c' ++ c)
  along : Along e c'
  flat : Flat (top v).q c'
  len : x.q = (top v).q
  sub : (top u).q < x.q
  order : inorder (plug c' (join e x u t)) = inorder v
  heap : Heap (join e x u t)

theorem extremeLoop_spec {s : State} {n : Nat} (h : Rep s.mem k (plug c (join e x u t)))
    (ha : Apart (inorder (plug c (join e x u t))))
    (hk : Foreign k (inorder (plug c (join e x u t)))) (hheap : Heap (join e x u t))
    (hq : 0 < x.q) (hx : s.x = x) (hy : s.y = place k c) (hn : (inorder u).length < n) :
    ∃ s', extremeLoop e n s = some s' ∧
      ∃ c' x' u' t', Extreme e k c (join e x u t) s' c' x' u' t' := by
  induction n generalizing s c x u t with
  | zero => omega
  | succ n ih =>
    obtain ⟨hc, hj⟩ := rep_plug.mp h
    obtain ⟨hmx, hx0, hu, ht⟩ := rep_join.mp hj
    obtain ⟨huq, htq, huh, hth⟩ := heap_join.mp hheap
    by_cases hlast : (top u).q < x.q
    · refine ⟨s, ?_, [], x, u, t, h, hx, hy, nofun, trivial, by rw [top_join], hlast, rfl, hheap⟩
      rw [extremeLoop, hx, hu.top, if_neg (by omega)]
    · rcases exists_join e u with rfl | ⟨w, u₁, v₁, rfl⟩
      · exact absurd hq (by simpa [top] using hlast)
      · rw [top_join] at huq hlast
        have hwq : w.q = x.q := by omega
        obtain ⟨hmw, hw0, hu₁, hv₁⟩ := rep_join.mp hu
        have hperm :=
          plug_join_join_perm (c := c) (e := e) (x := x) (w := w) (u := u₁) (v := v₁) (t := t)
        have hl := ha.perm hperm
        rw [apart_cons, apart_cons] at hl
        obtain ⟨hxl, hwl, -⟩ := hl
        have hkx : ∀ e', k ≠ .son e' x.p := hk x (hperm.mem_iff.mpr List.mem_cons_self)
        have hkw : ∀ e', k ≠ .son e' w.p :=
          hk w (hperm.mem_iff.mpr (List.mem_cons_of_mem _ List.mem_cons_self))
        have hyx : s.y ≠ .son e x.p := by
          rw [hy]
          refine place_ne (hkx e) (foreign_son.mpr fun y hy => hxl y ?_)
          exact List.mem_cons_of_mem _ (List.mem_append_left _ hy)
        have hyw : ∀ e', s.y ≠ .son e' w.p := by
          intro e'
          rw [hy]
          exact place_ne (hkw e') (foreign_son.mpr fun y hy => hwl y (List.mem_append_left _ hy))
        have hrot := rotate_rep h ha hk
        rw [← hy] at hrot
        have hnew := rep_join.mp (rep_plug.mp hrot).2
        have hround := extremeLoop_succ (n := n) hx (hy ▸ hmx) hmw hwq hyx (hyw _)
          hnew.2.2.1.top
        rw [hround]
        have hheap' : Heap (join e w u₁ (join e x v₁ t)) := by
          obtain ⟨h1, h2, h3, h4⟩ := heap_join.mp huh
          refine heap_join.mpr ⟨h1, by rw [top_join, hwq], h3, heap_join.mpr ⟨?_, htq, h4, hth⟩⟩
          exact h2.trans hwq.le
        by_cases hend : (top u₁).q < w.q
        · rw [if_pos hend]
          refine ⟨_, rfl, [], w, u₁, join e x v₁ t, hrot, rfl, hy, nofun, trivial, ?_, hend, ?_,
            hheap'⟩
          · rw [top_join, hwq]
          · exact inorder_rotate
        · rw [if_neg hend]
          obtain ⟨hu₁q, -, hu₁h, -⟩ := heap_join.mp hheap'
          have htop : (top u₁).q = w.q := by omega
          rcases exists_join e u₁ with rfl | ⟨w₁, u₂, v₂, rfl⟩
          · exact absurd htop (by simp [top]; omega)
          · rw [top_join] at htop ⊢
            have hcons : plug (hang e w (join e x v₁ t) :: c) (join e w₁ u₂ v₂) =
                plug c (join e w (join e w₁ u₂ v₂) (join e x v₁ t)) := plug_hang
            have horder : inorder (plug c (join e w (join e w₁ u₂ v₂) (join e x v₁ t))) =
                inorder (plug c (join e x (join e w (join e w₁ u₂ v₂) v₁) t)) := by
              rw [inorder_plug, inorder_plug, inorder_rotate]
            have hlen : (inorder u₂).length < n := by
              have h1 := (inorder_join_perm (e := e) (x := w) (u := join e w₁ u₂ v₂)
                (t := v₁)).length_eq
              have h2 := (inorder_join_perm (e := e) (x := w₁) (u := u₂) (t := v₂)).length_eq
              rw [List.length_cons, List.length_append] at h1 h2
              omega
            obtain ⟨s', hs', c', x', u', t', hE⟩ := ih
              (s := { s with
                mem := rotate s.mem e s.y x w
                y := .son e w.p
                x := { w with p := w₁.p } })
              (c := hang e w (join e x v₁ t) :: c) (hcons ▸ hrot)
              (by rw [hcons, horder]; exact ha) (by rw [hcons, horder]; exact hk) hu₁h
              (by omega) (withP_eq htop) place_hang.symm hlen
            refine ⟨s', hs', c' ++ [hang e w (join e x v₁ t)], x', u', t', ?_, hE.cur, ?_, ?_, ?_,
              ?_, hE.sub, ?_, hE.heap⟩
            · rw [List.append_assoc]
              exact hE.rep
            · rw [List.append_assoc]
              exact hE.att
            · intro f hf
              rcases List.mem_append.mp hf with hf | hf
              · exact hE.along f hf
              · exact ⟨w, _, List.mem_singleton.mp hf⟩
            · have hflat := hE.flat
              rw [top_join, htop, hwq] at hflat
              rw [top_join]
              obtain ⟨-, h2, -, h4⟩ := heap_join.mp hheap'
              exact flat_append.mpr ⟨hflat, flat_hang.mpr ⟨hwq, hwq ▸ h2, h4, trivial⟩⟩
            · rw [hE.len, top_join, top_join, htop, hwq]
            · rw [plug_append, plug_hang, plug, ← inorder_rotate]
              exact inorder_join_congr hE.order

/-! ## Root insertion -/

variable {part : Side → List (Frame Adlen)} {sub : Side → BinaryTree Adlen} {hook : Side → Slot}
  {y : Slot}

/-- All the nodes: the current one, those around the attachment point, those in the two trees in
`stomp`, and those below. -/
def whole (c : List (Frame Adlen)) (part : Side → List (Frame Adlen)) (x : Adlen)
    (sub : Side → BinaryTree Adlen) : List Adlen :=
  x :: (nodes c ++ (nodes (part .a) ++ (nodes (part .b) ++
    (inorder (sub .a) ++ inorder (sub .b)))))

/-- The parts have no node in common. -/
structure Separate (c : List (Frame Adlen)) (part : Side → List (Frame Adlen)) (x : Adlen)
    (sub : Side → BinaryTree Adlen) : Prop where
  around : ∀ z ∈ nodes c, z.p ≠ x.p
  parts : ∀ e, ∀ z ∈ nodes (part e), z.p ≠ x.p
  subs : ∀ e, ∀ z ∈ inorder (sub e), z.p ≠ x.p
  around_parts : ∀ e, ∀ z ∈ nodes c, ∀ w ∈ nodes (part e), w.p ≠ z.p
  around_subs : ∀ e, ∀ z ∈ nodes c, ∀ w ∈ inorder (sub e), w.p ≠ z.p
  parts_parts : ∀ e, ∀ z ∈ nodes (part e), ∀ w ∈ nodes (part e.other), w.p ≠ z.p
  parts_subs : ∀ e e', ∀ z ∈ nodes (part e), ∀ w ∈ inorder (sub e'), w.p ≠ z.p
  subs_subs : ∀ e, ∀ z ∈ inorder (sub e), ∀ w ∈ inorder (sub e.other), w.p ≠ z.p
  apart : Apart (nodes c)
  parts_apart : ∀ e, Apart (nodes (part e))
  subs_apart : ∀ e, Apart (inorder (sub e))

theorem Apart.separate (h : Apart (whole c part x sub)) : Separate c part x sub := by
  unfold whole at h
  simp only [apart_cons, apart_append, List.mem_append] at h
  obtain ⟨h1, h2, ⟨h3, ⟨h4, ⟨h5, h6, h7⟩, h8⟩, h9⟩, h10⟩ := h
  refine ⟨fun z hz => ?_, fun e z hz => ?_, fun e z hz => ?_, fun e z hz w hw => ?_,
    fun e z hz w hw => ?_, fun e z hz w hw => ?_, fun e e' z hz w hw => ?_,
    fun e z hz w hw => ?_, h2, fun e => ?_, fun e => ?_⟩
  · exact h1 z (Or.inl hz)
  · cases e
    · exact h1 z (Or.inr (Or.inl hz))
    · exact h1 z (Or.inr (Or.inr (Or.inl hz)))
  · cases e
    · exact h1 z (Or.inr (Or.inr (Or.inr (Or.inl hz))))
    · exact h1 z (Or.inr (Or.inr (Or.inr (Or.inr hz))))
  · cases e
    · exact h10 z hz w (Or.inl hw)
    · exact h10 z hz w (Or.inr (Or.inl hw))
  · cases e
    · exact h10 z hz w (Or.inr (Or.inr (Or.inl hw)))
    · exact h10 z hz w (Or.inr (Or.inr (Or.inr hw)))
  · cases e
    · exact h9 z hz w (Or.inl hw)
    · exact (h9 w hw z (Or.inl hz)).symm
  · cases e <;> cases e'
    · exact h9 z hz w (Or.inr (Or.inl hw))
    · exact h9 z hz w (Or.inr (Or.inr hw))
    · exact h8 z hz w (Or.inl hw)
    · exact h8 z hz w (Or.inr hw)
  · cases e
    · exact h7 z hz w hw
    · exact (h7 w hw z hz).symm
  · cases e
    · exact h3
    · exact h4
  · cases e
    · exact h5
    · exact h6

/-- The state of a descent at the node `x`: `part .a` and `part .b` are the trees in `stomp`, whose
places are the hooks, and `c` surrounds the attachment point. -/
structure Working (m : Mem) (k : Slot) (c : List (Frame Adlen)) (part : Side → List (Frame Adlen))
    (x : Adlen) (sub : Side → BinaryTree Adlen) : Prop where
  hole : Hole m k c
  parts : ∀ e, Hole m (.stomp e) (part e)
  sons : ∀ e, Rep m (.son e x.p) (sub e)
  pos : x.p ≠ 0
  apart : Apart (whole c part x sub)
  root : Foreign k (whole c part x sub)
  anchored : ∀ e, k ≠ .stomp e

/-- The hooks. -/
def hooks (part : Side → List (Frame Adlen)) (e : Side) : Slot := place (.stomp e) (part e)

theorem hook_ne_stomp (e : Side) : hooks part e ≠ .stomp e.other :=
  place_ne (fun he => e.other_ne (Slot.stomp.inj he).symm) foreign_stomp

namespace Working

theorem mem_around {z : Adlen} (hz : z ∈ nodes c) : z ∈ whole c part x sub :=
  List.mem_cons_of_mem _ (List.mem_append_left _ hz)

theorem mem_part {z : Adlen} (hz : z ∈ nodes (part e)) : z ∈ whole c part x sub := by
  unfold whole
  cases e <;> simp [hz]

theorem mem_sub {z : Adlen} (hz : z ∈ inorder (sub e)) : z ∈ whole c part x sub := by
  unfold whole
  cases e <;> simp [hz]

variable (h : Working m k c part x sub)

include h

theorem separate : Separate c part x sub := h.apart.separate

theorem hook_ne_son (e e' : Side) : hooks part e ≠ .son e' x.p :=
  place_ne nofun (foreign_son.mpr (h.separate.parts e))

theorem att_ne_son (e : Side) : place k c ≠ .son e x.p :=
  place_ne (h.root x List.mem_cons_self e) (foreign_son.mpr h.separate.around)

theorem att_ne_stomp (e : Side) : place k c ≠ .stomp e :=
  place_ne (h.anchored e) foreign_stomp

theorem hook_foreign_around (e : Side) : Foreign (hooks part e) (nodes c) :=
  place_foreign foreign_stomp fun z hz w hw => (h.separate.around_parts e w hw z hz).symm

theorem hook_foreign_part (e : Side) : Foreign (hooks part e) (nodes (part e.other)) :=
  place_foreign foreign_stomp (h.separate.parts_parts e)

theorem hook_foreign_sub (e e' : Side) : Foreign (hooks part e) (inorder (sub e')) :=
  place_foreign foreign_stomp (h.separate.parts_subs e e')

theorem att_foreign_part (e : Side) : Foreign (place k c) (nodes (part e)) :=
  place_foreign (h.root.mono fun _ => mem_part) (h.separate.around_parts e)

theorem att_foreign_sub (e : Side) : Foreign (place k c) (inorder (sub e)) :=
  place_foreign (h.root.mono fun _ => mem_sub) (h.separate.around_subs e)

theorem root_ne_hook (e : Side) : hooks part e ≠ k := by
  refine place_ne (h.anchored e).symm ?_
  exact h.root.mono fun _ => mem_part

theorem hook_ne_att (e : Side) : hooks part e ≠ place k c :=
  place_ne (h.att_ne_stomp e).symm (h.att_foreign_part e)

theorem hook_ne_hook (e : Side) : hooks part e ≠ hooks part e.other := by
  refine (place_ne (hook_ne_stomp e).symm ?_).symm
  exact h.hook_foreign_part e

theorem root_ne_son (e : Side) : k ≠ .son e x.p := h.root x List.mem_cons_self e

end Working

/-! ### The last step -/

section Promote

variable {y : Slot}

theorem promote_att : promote m hook y x y = x := put_same ..

theorem promote_else (hy : k ≠ y) (hs : ∀ e, k ≠ .son e x.p) (hh : ∀ e, k ≠ hook e) :
    promote m hook y x k = m k := by
  unfold promote
  rw [put_of_ne _ _ hy, put_of_ne _ _ (hs .b), put_of_ne _ _ (hs .a), put_of_ne _ _ (hh .b),
    put_of_ne _ _ (hh .a)]

theorem promote_hook (hy : hook e ≠ y) (hs : ∀ e e', hook e ≠ .son e' x.p)
    (hh : hook e ≠ hook e.other) : promote m hook y x (hook e) = m (.son e x.p) := by
  unfold promote
  rw [put_of_ne _ _ hy, put_of_ne _ _ (hs e .b), put_of_ne _ _ (hs e .a)]
  cases e
  · exact (put_of_ne _ _ hh).trans (put_same ..)
  · exact (put_same ..).trans (put_of_ne _ _ (hs .a .b).symm)

theorem promote_son (hy : y ≠ .son e x.p) (hs : ∀ e e', hook e ≠ .son e' x.p)
    (hh : hook e.other ≠ .stomp e) :
    promote m hook y x (.son e x.p) =
      if hook e = .stomp e then m (.son e x.p) else m (.stomp e) := by
  unfold promote
  rw [put_of_ne _ _ hy.symm]
  cases e
  · rw [put_of_ne _ _ (show Slot.son .a x.p ≠ .son .b x.p from nofun), put_same]
    refine (put_of_ne _ _ hh.symm).trans ?_
    split
    · rename_i he
      rw [he, put_same]
    · rename_i he
      exact put_of_ne _ _ (Ne.symm he)
  · rw [put_same, put_of_ne _ _ (show Slot.stomp .b ≠ .son .a x.p from nofun)]
    split
    · rename_i he
      rw [he, put_same]
      exact put_of_ne _ _ (hs .a .b).symm
    · rename_i he
      rw [put_of_ne _ _ (Ne.symm he)]
      exact put_of_ne _ _ hh.symm

end Promote

namespace Working

variable (h : Working m k c part x sub)

include h

/-- Whatever is below the node goes to the hooks, and the two trees in `stomp` below the node. -/
theorem promote_son_rep (e : Side) :
    Rep (promote m (hooks part) (place k c) x) (.son e x.p) (plug (part e) (sub e)) := by
  have hself : promote m (hooks part) (place k c) x (.son e x.p) =
      if hooks part e = .stomp e then m (.son e x.p) else m (.stomp e) := by
    refine promote_son (h.att_ne_son e) (fun e e' => h.hook_ne_son e e') ?_
    have hne : hooks part e.other ≠ .stomp e.other.other := hook_ne_stomp e.other
    rwa [Side.other_other] at hne
  have hhook : promote m (hooks part) (place k c) x (hooks part e) = m (.son e x.p) :=
    promote_hook (h.hook_ne_att e) (fun e e' => h.hook_ne_son e e') (h.hook_ne_hook e)
  have helse : ∀ z : Adlen, z.p ≠ x.p → ∀ e', (∀ i, hooks part i ≠ .son e' z.p) →
      place k c ≠ .son e' z.p →
      promote m (hooks part) (place k c) x (.son e' z.p) = m (.son e' z.p) := by
    intro z hz e' hi hy
    refine promote_else hy.symm (fun i he => ?_) fun i => (hi i).symm
    injection he with _ he
    exact hz he
  have hsub : ∀ z ∈ inorder (sub e), ∀ e',
      promote m (hooks part) (place k c) x (.son e' z.p) = m (.son e' z.p) := by
    intro z hz e'
    exact helse z (h.separate.subs e z hz) e' (fun i => h.hook_foreign_sub i e z hz e')
      (h.att_foreign_sub e z hz e')
  refine rep_plug.mpr ⟨(h.parts e).at (fun hne => ?_) (h.separate.parts_apart e) ?_,
    (h.sons e).at ?_ hsub⟩
  · rw [hself, if_neg]
    rcases place_cases (.stomp e) (part e) with ⟨h0, _⟩ | ⟨z, _, e', hz⟩
    · exact absurd h0 hne
    · rw [hooks, hz]
      exact nofun
  · intro z hz e' hne
    refine helse z (h.separate.parts e z hz) e' (fun i => ?_) (h.att_foreign_part e z hz e')
    by_cases hi : i = e
    · rw [hi]
      exact hne.symm
    · have hother : e = i.other := by
        cases i <;> cases e <;> first | rfl | exact absurd rfl hi
      subst hother
      exact h.hook_foreign_part i z hz e'
  · rcases place_cases (.stomp e) (part e) with ⟨h0, _⟩ | ⟨z, hz, e', hp⟩
    · rw [h0]
      change promote _ _ _ _ (.son e x.p) = _
      rw [hself, if_pos (by rw [hooks, h0]; rfl)]
    · have hne : part e ≠ [] := by
        intro h0
        rw [h0] at hz
        exact absurd hz (by simp [nodes, before, after])
      exact (congrArg _ (place_congr _ _ hne)).trans hhook

theorem promote_rep : Rep (promote m (hooks part) (place k c) x) k
    (plug c (node x (plug (part .a) (sub .a)) (plug (part .b) (sub .b)))) := by
  refine rep_plug.mpr ⟨?_, promote_att, h.pos, h.promote_son_rep .a, h.promote_son_rep .b⟩
  have hc := h.separate.apart
  unfold promote
  refine Hole.put_place (Hole.put (Hole.put (Hole.put (Hole.put h.hole hc ?_ ?_) hc ?_ ?_)
    hc ?_ ?_) hc ?_ ?_) hc (h.root.mono fun _ => mem_around)
  · exact h.root_ne_hook .a
  · exact h.hook_foreign_around .a
  · exact h.root_ne_hook .b
  · exact h.hook_foreign_around .b
  · exact (h.root_ne_son .a).symm
  · exact foreign_son.mpr h.separate.around
  · exact (h.root_ne_son .b).symm
  · exact foreign_son.mpr h.separate.around

end Working

/-! ### The steps of the descent -/

theorem place_append : place k (c ++ c') = place (place k c') c := by
  cases c with
  | nil => rfl
  | cons f c =>
    obtain ⟨e, x, t, rfl⟩ := exists_hang f
    rw [List.cons_append, place_hang, place_hang]

theorem count_nodes_hang (z : Adlen) : (nodes (hang e x t :: c)).count z =
    (if x = z then 1 else 0) + ((inorder t).count z + (nodes c).count z) := by
  rw [nodes_hang_perm.count_eq, List.count_cons, List.count_append]
  simp only [beq_iff_eq]
  omega

theorem count_inorder_join (z : Adlen) : (inorder (join e x u t)).count z =
    (if x = z then 1 else 0) + ((inorder u).count z + (inorder t).count z) := by
  rw [inorder_join_perm.count_eq, List.count_cons, List.count_append]
  simp only [beq_iff_eq]
  omega

theorem count_nodes_append (z : Adlen) :
    (nodes (c ++ c')).count z = (nodes c).count z + (nodes c').count z := by
  unfold nodes
  rw [before_append, after_append]
  simp only [List.count_append]
  omega

theorem count_inorder_plug (z : Adlen) :
    (inorder (plug c t)).count z = (nodes c).count z + (inorder t).count z := by
  rw [inorder_plug_perm.count_eq, List.count_append]

/-- The parts of the whole, seen from side `e`. -/
theorem count_whole (e : Side) (z : Adlen) : (whole c part x sub).count z =
    (if x = z then 1 else 0) + (nodes c).count z + (nodes (part e)).count z +
      (nodes (part e.other)).count z + (inorder (sub e)).count z +
      (inorder (sub e.other)).count z := by
  unfold whole
  simp only [List.count_cons, List.count_append, beq_iff_eq]
  cases e <;> simp only [Side.other] <;> omega

/-- The tree of side `e` grows by the node and its near subtree. -/
def grown (part : Side → List (Frame Adlen)) (e : Side) (x : Adlen) (t : BinaryTree Adlen) :
    Side → List (Frame Adlen) :=
  Function.update part e (hang e.other x t :: part e)

theorem hooks_update (f : Frame Adlen) (c : List (Frame Adlen)) (hf : f = hang e.other x t) :
    hooks (Function.update part e (f :: c)) =
      Function.update (hooks part) e (.son e.other x.p) := by
  funext i
  by_cases hi : i = e
  · subst hi
    rw [hooks, Function.update_self, Function.update_self, hf, place_hang]
  · rw [hooks, Function.update_of_ne hi, Function.update_of_ne hi, hooks]

variable {sub' : Side → BinaryTree Adlen} {x' : Adlen} {q : Nat}

namespace Working

/-- A slot outside may be written. -/
theorem put_outside (h : Working m k c part x sub) (hk : k' ≠ k) (hs : ∀ e, k' ≠ .stomp e)
    (hf : Foreign k' (whole c part x sub)) : Working (put m k' d) k c part x sub where
  hole := h.hole.put h.separate.apart hk (hf.mono fun _ => mem_around)
  parts e := (h.parts e).put (h.separate.parts_apart e) (hs e) (hf.mono fun _ => mem_part)
  sons e := (h.sons e).put (hf x List.mem_cons_self e) (hf.mono fun _ => mem_sub)
  pos := h.pos
  apart := h.apart
  root := h.root
  anchored := h.anchored

theorem whole_perm (hsub : sub e.other = node x' (sub' .a) (sub' .b)) :
    (whole c part x sub).Perm (whole c (grown part e x (sub e)) x' sub') := by
  rw [List.perm_iff_count]
  intro z
  have hfar : (inorder (sub e.other)).count z = (if x' = z then 1 else 0) +
      ((inorder (sub' e)).count z + (inorder (sub' e.other)).count z) := by
    rw [hsub]
    change (inorder (join .a x' (sub' .a) (sub' .b))).count z = _
    rw [count_inorder_join]
    cases e
    · rfl
    · simp only [Side.other]
      omega
  rw [count_whole e, count_whole e, grown, Function.update_self,
    Function.update_of_ne e.other_ne, count_nodes_hang, hfar]
  omega

/-- The node is attached at its hook, and the descent goes on at its far son. -/
theorem attach (h : Working m k c part x sub)
    (hsub : sub e.other = node x' (sub' .a) (sub' .b)) :
    Working (put m (hooks part e) x) k c (grown part e x (sub e)) x' sub' := by
  have hfar := h.sons e.other
  rw [hsub] at hfar
  have hmem : x' ∈ inorder (sub e.other) := by
    rw [hsub]
    simp [inorder]
  refine ⟨h.hole.put h.separate.apart (h.root_ne_hook e) (h.hook_foreign_around e), fun i => ?_,
    fun i => ?_, hfar.2.1, h.apart.perm (whole_perm hsub),
    h.root.mono fun z hz => (whole_perm hsub).mem_iff.mpr hz, h.anchored⟩
  · by_cases hi : i = e
    · subst hi
      rw [grown, Function.update_self]
      refine hole_hang.mpr ⟨put_same .., h.pos, ?_, (h.parts i).put_place
        (h.separate.parts_apart i) foreign_stomp⟩
      rw [Side.other_other]
      exact (h.sons i).put (h.hook_ne_son i i) (h.hook_foreign_sub i i)
    · have hother : i = e.other := by
        cases i <;> cases e <;> first | rfl | exact absurd rfl hi
      subst hother
      rw [grown, Function.update_of_ne hi]
      exact (h.parts _).put (h.separate.parts_apart _) (hook_ne_stomp e) (h.hook_foreign_part e)
  · have hsi : Rep m (.son i x'.p) (sub' i) := by
      cases i
      · exact hfar.2.2.1
      · exact hfar.2.2.2
    refine hsi.put (h.hook_foreign_sub e e.other x' hmem i) ?_
    refine (h.hook_foreign_sub e e.other).mono fun z hz => ?_
    rw [hsub]
    cases i <;> simp [inorder, hz]

end Working

/-- What a rotation of `splayLoop` writes; `d` is left in the new hook. -/
def turn (m : Mem) (e : Side) (h pa : Slot) (x f d : Adlen) : Mem :=
  put (put (put (put m h (m (.son e x.p))) (.son e x.p) f) pa x) (.son e.other x.p) d

theorem turn_of_ne {h pa : Slot} {f : Adlen} (h1 : k ≠ h) (h2 : ∀ i, k ≠ .son i x.p)
    (h3 : k ≠ pa) : turn m e h pa x f d k = m k := by
  rw [turn, put_of_ne _ _ (h2 _), put_of_ne _ _ h3, put_of_ne _ _ (h2 _), put_of_ne _ _ h1]

namespace Working

variable {f : Adlen} {s : BinaryTree Adlen} {lf : List (Frame Adlen)}

theorem rotated_perm (hpart : part e = hang e.other f s :: lf)
    (hsub : sub e.other = node x' (sub' .a) (sub' .b)) :
    (whole c part x sub).Perm (whole c
      (Function.update part e (hang e.other x (join e.other f (sub e) s) :: lf)) x' sub') := by
  refine (whole_perm hsub).trans ?_
  rw [List.perm_iff_count]
  intro z
  rw [count_whole e, count_whole e, grown, Function.update_self, Function.update_self,
    Function.update_of_ne e.other_ne, Function.update_of_ne e.other_ne, hpart, count_nodes_hang,
    count_nodes_hang, count_nodes_hang, count_inorder_join]
  omega

/-- The node's father in the tree of side `e` becomes its near son. -/
theorem rotate (h : Working m k c part x sub) (hpart : part e = hang e.other f s :: lf)
    (hsub : sub e.other = node x' (sub' .a) (sub' .b)) :
    Working (turn m e (hooks part e) (place (.stomp e) lf) x f d) k c
      (Function.update part e (hang e.other x (join e.other f (sub e) s) :: lf)) x' sub' := by
  have hH : hooks part e = .son e.other f.p := by rw [hooks, hpart, place_hang]
  have hmemf : f ∈ nodes (part e) := by
    rw [hpart]
    exact nodes_hang_perm.mem_iff.mpr List.mem_cons_self
  have hmems : ∀ z, z ∈ inorder s ∨ z ∈ nodes lf → z ∈ nodes (part e) := by
    intro z hz
    rw [hpart]
    exact nodes_hang_perm.mem_iff.mpr (List.mem_cons_of_mem _ (List.mem_append.mpr hz))
  have happ := (h.separate.parts_apart e)
  rw [hpart] at happ
  have happ' := happ.perm nodes_hang_perm
  rw [apart_cons, apart_append] at happ'
  obtain ⟨hf, -, hlf, hslf⟩ := happ'
  have hpart' := h.parts e
  rw [hpart] at hpart'
  obtain ⟨hmf, hf0, hs, hhole⟩ := hole_hang.mp hpart'
  rw [Side.other_other] at hs
  have hfx : f.p ≠ x.p := h.separate.parts e f hmemf
  -- the slot that holds the father
  have hpa_son : ∀ i, place (.stomp e) lf ≠ .son i x.p := fun i =>
    place_ne stomp_ne_son (foreign_son.mpr fun z hz => h.separate.parts e z (hmems z (Or.inr hz)))
  have hpa_f : ∀ i, place (.stomp e) lf ≠ .son i f.p := fun i =>
    place_ne stomp_ne_son (foreign_son.mpr fun z hz => hf z (List.mem_append_right _ hz))
  have hfor : ∀ l, (∀ z ∈ l, z.p ≠ x.p) → (∀ w ∈ nodes (part e), ∀ z ∈ l, z.p ≠ w.p) →
      Foreign (hooks part e) l ∧ (∀ i, Foreign (.son i x.p) l) ∧
        Foreign (place (.stomp e) lf) l := by
    intro l hx hd
    refine ⟨place_foreign foreign_stomp hd, fun i => foreign_son.mpr hx, ?_⟩
    exact place_foreign foreign_stomp fun w hw => hd w (hmems w (Or.inr hw))
  have hrep : ∀ {k' : Slot} {t : BinaryTree Adlen}, Rep m k' t → k' ≠ hooks part e →
      (∀ i, k' ≠ .son i x.p) → k' ≠ place (.stomp e) lf → (∀ z ∈ inorder t, z.p ≠ x.p) →
      (∀ w ∈ nodes (part e), ∀ z ∈ inorder t, z.p ≠ w.p) →
      Rep (turn m e (hooks part e) (place (.stomp e) lf) x f d) k' t := by
    intro k' t ht h1 h2 h3 h4 h5
    obtain ⟨f1, f2, f3⟩ := hfor _ h4 h5
    exact ht.at (turn_of_ne h1 h2 h3) fun z hz i =>
      turn_of_ne (f1 z hz i).symm (fun j => (f2 j z hz i).symm) (f3 z hz i).symm
  have hholes : ∀ {k' : Slot} {c : List (Frame Adlen)}, Hole m k' c → Apart (nodes c) →
      k' ≠ hooks part e → (∀ i, k' ≠ .son i x.p) → k' ≠ place (.stomp e) lf →
      (∀ z ∈ nodes c, z.p ≠ x.p) → (∀ w ∈ nodes (part e), ∀ z ∈ nodes c, z.p ≠ w.p) →
      Hole (turn m e (hooks part e) (place (.stomp e) lf) x f d) k' c := by
    intro k' c hc ha h1 h2 h3 h4 h5
    obtain ⟨f1, f2, f3⟩ := hfor _ h4 h5
    exact hc.at (fun _ => turn_of_ne h1 h2 h3) ha fun z hz i _ =>
      turn_of_ne (f1 z hz i).symm (fun j => (f2 j z hz i).symm) (f3 z hz i).symm
  have hfar := h.sons e.other
  rw [hsub] at hfar
  have hmemx : x' ∈ inorder (sub e.other) := by
    rw [hsub]
    simp [inorder]
  refine ⟨hholes h.hole h.separate.apart (h.root_ne_hook e).symm h.root_ne_son ?_
    h.separate.around ?_, fun i => ?_, fun i => ?_, hfar.2.1,
    h.apart.perm (rotated_perm hpart hsub),
    h.root.mono fun z hz => (rotated_perm hpart hsub).mem_iff.mpr hz, h.anchored⟩
  · refine (place_ne (h.anchored e).symm ?_).symm
    exact h.root.mono fun z hz => mem_part (hmems z (Or.inr hz))
  · exact fun w hw z hz => (h.separate.around_parts e z hz w hw).symm
  · by_cases hi : i = e
    · subst hi
      rw [Function.update_self]
      refine hole_hang.mpr ⟨?_, h.pos, ?_, ?_⟩
      · rw [turn, put_of_ne _ _ (hpa_son _), put_same]
      · rw [Side.other_other]
        refine rep_join.mpr ⟨?_, hf0, (h.sons i).at ?_ ?_, ?_⟩
        · have hne : Slot.son i x.p ≠ .son i.other x.p := fun he =>
            i.other_ne (Slot.son.inj he).1.symm
          rw [turn, put_of_ne _ _ hne, put_of_ne _ _ (hpa_son i).symm, put_same]
        · have hne : ∀ j, Slot.son i.other f.p ≠ .son j x.p := fun j he => hfx (Slot.son.inj he).2
          rw [turn, put_of_ne _ _ (hne _), put_of_ne _ _ (hpa_f _).symm, put_of_ne _ _ (hne _), hH,
            put_same]
        · obtain ⟨f1, f2, f3⟩ := hfor _ (h.separate.subs i) (h.separate.parts_subs i i)
          exact fun z hz j =>
            turn_of_ne (f1 z hz j).symm (fun j' => (f2 j' z hz j).symm) (f3 z hz j).symm
        · rw [Side.other_other]
          refine hs.at ?_ fun z hz j => ?_
          · refine turn_of_ne ?_ (fun j he => hfx (Slot.son.inj he).2) (hpa_f i).symm
            rw [hH]
            exact fun he => i.other_ne (Slot.son.inj he).1.symm
          · refine turn_of_ne ?_ ?_ ?_
            · rw [hH]
              exact fun he => hf z (List.mem_append_left _ hz) (Slot.son.inj he).2
            · exact fun j' he =>
                h.separate.parts i z (hmems z (Or.inl hz)) (Slot.son.inj he).2
            · exact (place_foreign foreign_stomp
                (fun w hw z hz => (hslf z hz w hw).symm) z hz j).symm
      · refine hhole.at (fun hne => turn_of_ne ?_ (fun _ => stomp_ne_son) ?_) hlf
          fun z hz j hne => ?_
        · rw [hH]
          exact stomp_ne_son
        · rcases place_cases (.stomp i) lf with ⟨h0, _⟩ | ⟨z, _, j, hz⟩
          · exact absurd h0 hne
          · rw [hz]
            exact stomp_ne_son
        · refine turn_of_ne ?_ ?_ hne
          · rw [hH]
            exact fun he => hf z (List.mem_append_right _ hz) (Slot.son.inj he).2
          · exact fun j' he => h.separate.parts i z (hmems z (Or.inr hz)) (Slot.son.inj he).2
    · have hother : i = e.other := by
        cases i <;> cases e <;> first | rfl | exact absurd rfl hi
      subst hother
      rw [Function.update_of_ne hi]
      refine hholes (h.parts _) (h.separate.parts_apart _) ?_ (fun _ => stomp_ne_son) ?_
        (h.separate.parts _) (h.separate.parts_parts e)
      · exact (hook_ne_stomp e).symm
      · exact (place_ne (fun he => e.other_ne (Slot.stomp.inj he).symm) foreign_stomp).symm
  · have hsi : Rep m (.son i x'.p) (sub' i) := by
      cases i
      · exact hfar.2.2.1
      · exact hfar.2.2.2
    have hmem : ∀ z ∈ inorder (sub' i), z ∈ inorder (sub e.other) := by
      intro z hz
      rw [hsub]
      cases i <;> simp [inorder, hz]
    obtain ⟨f1, f2, f3⟩ := hfor _ (h.separate.subs e.other) (h.separate.parts_subs e e.other)
    refine hrep hsi (f1 x' hmemx i).symm (fun j => (f2 j x' hmemx i).symm)
      (f3 x' hmemx i).symm ?_ ?_
    · exact fun z hz => h.separate.subs e.other z (hmem z hz)
    · exact fun w hw z hz => h.separate.parts_subs e e.other w hw z (hmem z hz)

end Working

/-! ## The path -/

/-- The frames around the far subtree once the node is promoted. -/
def closed (part : Side → List (Frame Adlen)) (e : Side) (x : Adlen)
    (sub : Side → BinaryTree Adlen) (c : List (Frame Adlen)) : List (Frame Adlen) :=
  part e.other ++ (hang e.other x (plug (part e) (sub e)) :: c)

theorem plug_closed : plug (closed part e x sub c) (sub e.other) =
    plug c (node x (plug (part .a) (sub .a)) (plug (part .b) (sub .b))) := by
  rw [closed, plug_append, plug_hang]
  cases e <;> rfl

theorem closed_append :
    closed part e x sub (c ++ c') = closed part e x sub c ++ c' := by
  simp [closed]

theorem next_eq_place : next (hooks part) e x = place k (closed part e x sub c) := by
  rw [closed, place_append, place_hang, next]
  rcases place_cases (.stomp e.other) (part e.other) with ⟨h0, hp⟩ | ⟨z, hz, i, hp⟩
  · rw [if_pos (by rw [hooks, hp]), h0]
    rfl
  · have hne : part e.other ≠ [] := by
      intro h0
      rw [h0] at hz
      exact absurd hz (by simp [nodes, before, after])
    rw [if_neg (by rw [hooks, hp]; exact stomp_ne_son.symm), hooks]
    exact place_congr _ _ hne

/-- The nodes left behind on each side are those the search path leaves behind. -/
structure Tracks (c : List (Frame Adlen)) (part : Side → List (Frame Adlen))
    (c₀ : List (Frame Adlen)) : Prop where
  sided : ∀ e, Along e.other (part e)
  left : before c ++ before (part .a) = before c₀
  right : after (part .b) ++ after c = after c₀

theorem Tracks.closed {c₀ : List (Frame Adlen)} (h : Tracks c part c₀) :
    before (Cartesian.closed part e x sub c) = before (hang e.other x (sub e) :: c₀) ∧
    after (Cartesian.closed part e x sub c) = after (hang e.other x (sub e) :: c₀) := by
  have ha : after (part .a) = [] := (h.sided .a).after
  have hb : before (part .b) = [] := (h.sided .b).before
  rw [Cartesian.closed, before_append, after_append]
  cases e
  · change (before c ++ inorder (plug (part .a) (sub .a)) ++ [x]) ++
        before (part .b) = before c₀ ++ inorder (sub .a) ++ [x] ∧
      after (part .b) ++ after c = after c₀
    rw [inorder_plug, ha, hb, ← h.left, ← h.right]
    simp
  · change before c ++ before (part .a) = before c₀ ∧
      after (part .a) ++
        (x :: inorder (plug (part .b) (sub .b)) ++ after c) =
        x :: inorder (sub .b) ++ after c₀
    rw [inorder_plug, ha, hb, ← h.left, ← h.right]
    simp

/-- A new outermost node of one tree keeps the path when it has the same nodes. -/
theorem Tracks.update {c₀ lf : List (Frame Adlen)} (h : Tracks c part c₀)
    (hlf : Along e.other lf)
    (hb : e = .a → before (hang e.other x t :: lf) =
      before (part e) ++ inorder (sub e) ++ [x])
    (ha : e = .b → after (hang e.other x t :: lf) =
      x :: inorder (sub e) ++ after (part e)) :
    Tracks c (Function.update part e (hang e.other x t :: lf))
      (hang e.other x (sub e) :: c₀) := by
  refine ⟨fun i => ?_, ?_, ?_⟩
  · by_cases hi : i = e
    · subst hi
      rw [Function.update_self]
      exact along_cons.mpr hlf
    · rw [Function.update_of_ne hi]
      exact h.sided i
  · cases e
    · rw [Function.update_self, hb rfl]
      change _ = before c₀ ++ inorder (sub .a) ++ [x]
      rw [← h.left]
      simp
    · rw [Function.update_of_ne (by decide)]
      exact h.left
  · cases e
    · rw [Function.update_of_ne (by decide)]
      exact h.right
    · rw [Function.update_self, ha rfl]
      change _ = x :: inorder (sub .b) ++ after c₀
      rw [← h.right]
      simp

theorem Tracks.grown {c₀ : List (Frame Adlen)} (h : Tracks c part c₀) :
    Tracks c (Cartesian.grown part e x (sub e)) (hang e.other x (sub e) :: c₀) := by
  refine h.update (h.sided e) (fun he => ?_) fun he => ?_
  · subst he
    rfl
  · subst he
    rfl

theorem Tracks.rotate {c₀ lf : List (Frame Adlen)} {f : Adlen} {s : BinaryTree Adlen}
    (h : Tracks c part c₀) (hpart : part e = hang e.other f s :: lf) :
    Tracks c (Function.update part e (hang e.other x (join e.other f (sub e) s) :: lf))
      (hang e.other x (sub e) :: c₀) := by
  have hs := h.sided e
  rw [hpart] at hs
  refine h.update (along_cons.mp hs) (fun he => ?_) fun he => ?_
  · subst he
    rw [hpart]
    simp [hang, before, join, inorder, Side.other]
  · subst he
    rw [hpart]
    simp [hang, after, join, inorder, Side.other]

/-- The descent through a layer: towards the far son of each node, until a node stops it or the
next layer is reached. -/
def walk (dir : Adlen → Side) (stop : Adlen → Prop) [DecidablePred stop] :
    List (Frame Adlen) → BinaryTree Adlen → Bool × List (Frame Adlen) × BinaryTree Adlen
  | c, nil => (false, c, nil)
  | c, node x l r =>
    if stop x then (true, c, node x l r)
    else
      match dir x with
      | .a =>
        if (top r).q = x.q then walk dir stop (.right x l :: c) r else (false, .right x l :: c, r)
      | .b =>
        if (top l).q = x.q then walk dir stop (.left x r :: c) l else (false, .left x r :: c, l)

theorem walk_node (dir : Adlen → Side) (stop : Adlen → Prop) [DecidablePred stop]
    (he : dir x = e) : walk dir stop c (node x (sub .a) (sub .b)) =
      if stop x then (true, c, node x (sub .a) (sub .b))
      else if (top (sub e.other)).q = x.q then
        walk dir stop (hang e.other x (sub e) :: c) (sub e.other)
      else (false, hang e.other x (sub e) :: c, sub e.other) := by
  rw [walk, he]
  cases e <;> rfl

/-! ## Lengths and exits -/

/-- The lengths in the state of a descent through the layer of length `q`. -/
structure Level (q : Nat) (c : List (Frame Adlen)) (part : Side → List (Frame Adlen)) (x : Adlen)
    (sub : Side → BinaryTree Adlen) : Prop where
  around : Flat q c
  parts : ∀ e, Flat q (part e)
  len : x.q = q
  subs : ∀ e, (top (sub e)).q ≤ q ∧ Heap (sub e)

namespace Level

theorem descend (h : Level q c part x sub) (hsub : sub e.other = node x' (sub' .a) (sub' .b))
    (hq : (top (sub e.other)).q = x.q) :
    x'.q = q ∧ ∀ i, (top (sub' i)).q ≤ q ∧ Heap (sub' i) := by
  obtain ⟨_, hheap⟩ := h.subs e.other
  rw [hsub] at hheap hq
  obtain ⟨h1, h2, h3, h4⟩ := hheap
  have hx : x'.q = q := hq.trans h.len
  refine ⟨hx, fun i => ?_⟩
  cases i
  · exact ⟨hx ▸ h1, h3⟩
  · exact ⟨hx ▸ h2, h4⟩

theorem near (h : Level q c part x sub) (hc : Flat q c') :
    Flat q (hang e.other x (sub e) :: c') :=
  flat_hang.mpr ⟨h.len, (h.subs e).1, (h.subs e).2, hc⟩

theorem update (h : Level q c part x sub) {f : Frame Adlen} {lf : List (Frame Adlen)}
    (hf : Flat q (f :: lf)) (hsub : sub e.other = node x' (sub' .a) (sub' .b))
    (hq : (top (sub e.other)).q = x.q) :
    Level q c (Function.update part e (f :: lf)) x' sub' := by
  obtain ⟨hx, hs⟩ := h.descend hsub hq
  refine ⟨h.around, fun i => ?_, hx, hs⟩
  by_cases hi : i = e
  · subst hi
    rwa [Function.update_self]
  · rw [Function.update_of_ne hi]
    exact h.parts i

theorem plugged (h : Level q c part x sub) (e : Side) :
    Heap (plug (part e) (sub e)) ∧ (top (plug (part e) (sub e))).q ≤ q := by
  obtain ⟨h1, h2⟩ := heap_plug (h.parts e) (h.subs e).2 (h.subs e).1
  refine ⟨h1, ?_⟩
  rcases h2 with h0 | h2
  · rw [h0]
    exact (h.subs e).1
  · exact h2.le

theorem closed (h : Level q c part x sub) : Flat q (closed part e x sub c) := by
  obtain ⟨h1, h2⟩ := h.plugged e
  exact flat_append.mpr ⟨h.parts e.other, flat_hang.mpr ⟨h.len, h2, h1, h.around⟩⟩

end Level

/-- The pointers in `stomp` are not those of nodes below the top. -/
def Quiet (m : Mem) : BinaryTree Adlen → Prop
  | nil => True
  | node _ l r => ∀ e, ∀ z ∈ inorder l ++ inorder r, (m (.stomp e)).p ≠ z.p

/-- The next layer has been reached: its top `u` is attached below the nodes of the layer, which
lie around it as the search path says. -/
structure Fallen (k : Slot) (c : List (Frame Adlen)) (q : Nat) (m' : Mem) (y' : Slot)
    (c₁ : List (Frame Adlen)) (u : BinaryTree Adlen) (c' : List (Frame Adlen)) : Prop where
  rep : Rep m' k (plug (c' ++ c) u)
  att : y' = place k (c' ++ c)
  left : before (c' ++ c) = before c₁
  right : after (c' ++ c) = after c₁
  flat : Flat q c'
  layer : c' ≠ []
  lower : (top u).q < q
  heap : Heap u

/-- A node of the layer has been brought to its top. -/
structure Found (k : Slot) (c : List (Frame Adlen)) (q : Nat) (m' : Mem)
    (c₁ : List (Frame Adlen)) (t : BinaryTree Adlen) (t' : BinaryTree Adlen) : Prop where
  rep : Rep m' k (plug c t')
  root : top t' = top t
  order : inorder (plug c t') = inorder (plug c₁ t)
  heap : Heap t'
  len : (top t').q = q

theorem Rep.pos (h : Rep m k t) : ∀ z ∈ inorder t, z.p ≠ 0 := by
  induction t generalizing k with
  | nil => exact fun _ => nofun
  | node x l r ihl ihr =>
    obtain ⟨_, h0, hl, hr⟩ := h
    intro z hz
    rcases List.mem_append.mp hz with hz | hz
    · exact ihl hl z hz
    · rcases List.mem_cons.mp hz with rfl | hz
      · exact h0
      · exact ihr hr z hz

theorem Hole.root_mem (h : Hole m k c) (hc : c ≠ []) : m k ∈ nodes c := by
  induction c with
  | nil => exact absurd rfl hc
  | cons f c ih =>
    obtain ⟨e, x, t, rfl⟩ := exists_hang f
    obtain ⟨hx, _, _, hh⟩ := hole_hang.mp h
    refine nodes_hang_perm.mem_iff.mpr ?_
    by_cases h0 : c = []
    · subst h0
      exact List.mem_cons.mpr (Or.inl hx)
    · exact List.mem_cons_of_mem _ (List.mem_append_right _ (ih hh h0))

theorem hooks_eq_stomp : hooks part e = .stomp e ↔ part e = [] := by
  rw [hooks]
  rcases place_cases (.stomp e) (part e) with ⟨h0, hp⟩ | ⟨z, hz, i, hp⟩
  · exact iff_of_true hp h0
  · rw [hp]
    refine iff_of_false nofun fun h0 => ?_
    rw [h0] at hz
    exact absurd hz (by simp [nodes, before, after])

namespace Working

variable {c₀ cy : List (Frame Adlen)}

theorem promoted_hook (h : Working m k c part x sub) :
    promote m (hooks part) (place k c) x (hooks part e) = top (sub e) := by
  rw [promote_hook (h.hook_ne_att e) (fun e e' => h.hook_ne_son e e') (h.hook_ne_hook e)]
  exact (h.sons e).top

theorem promoted_stomp (h : Working m k c part x sub) :
    promote m (hooks part) (place k c) x (.stomp e) =
      if part e = [] then top (sub e) else m (.stomp e) := by
  by_cases h0 : part e = []
  · rw [if_pos h0, ← hooks_eq_stomp.mpr h0]
    exact h.promoted_hook
  · rw [if_neg h0]
    refine promote_else (h.att_ne_stomp e).symm (fun _ => nofun) fun i he => ?_
    by_cases hi : i = e
    · subst hi
      exact h0 (hooks_eq_stomp.mp he.symm)
    · have hother : e = i.other := by
        cases i <;> cases e <;> first | rfl | exact absurd rfl hi
      subst hother
      exact hook_ne_stomp i he.symm

theorem quiet (h : Working m k c part x sub) :
    Quiet (promote m (hooks part) (place k c) x) (sub e) := by
  have hquiet : ∀ {t : BinaryTree Adlen}, t = sub e →
      Quiet (promote m (hooks part) (place k c) x) t := by
    intro t ht
    cases t with
    | nil => trivial
    | node y l r =>
      intro i z hz
      have hzs : z ∈ inorder (sub e) := by
        rw [← ht]
        rcases List.mem_append.mp hz with hz | hz <;> simp [inorder, hz]
      rw [h.promoted_stomp]
      split
      · by_cases hi : i = e
        · subst hi
          have hap := h.separate.subs_apart i
          rw [← ht] at hap ⊢
          exact (((apart_cons.mp (hap.perm List.perm_middle)).1) z hz).symm
        · have hother : e = i.other := by
            cases i <;> cases e <;> first | rfl | exact absurd rfl hi
          subst hother
          have hz0 := (h.sons i.other).pos z hzs
          have hsub := h.separate.subs_subs i
          cases hs : sub i with
          | nil => exact hz0.symm
          | node w l' r' =>
            exact (hsub w (by rw [hs]; simp [inorder]) z hzs).symm
      · rename_i hne
        exact (h.separate.parts_subs i e _ ((h.parts i).root_mem hne) z hzs).symm
  exact hquiet rfl

theorem fall (h : Working m k (cy ++ c) part x sub) (hl : Level q cy part x sub)
    (ht : Tracks (cy ++ c) part c₀) (hlow : x.q ≠ (top (sub e.other)).q) :
    Fallen k c q (promote m (hooks part) (place k (cy ++ c)) x) (next (hooks part) e x)
      (hang e.other x (sub e) :: c₀) (sub e.other) (closed part e x sub cy) := by
  refine ⟨?_, ?_, ?_, ?_, hl.closed, ?_, ?_, (hl.subs _).2⟩
  · rw [← closed_append, plug_closed]
    exact h.promote_rep
  · rw [← closed_append]
    exact next_eq_place
  · rw [← closed_append]
    exact ht.closed.1
  · rw [← closed_append]
    exact ht.closed.2
  · rw [closed]
    simp
  · have h1 := (hl.subs e.other).1
    have h2 := hl.len
    omega

theorem find (h : Working m k c part x sub) (hl : Level q [] part x sub)
    (ht : Tracks c part c₀) :
    Found k c q (promote m (hooks part) (place k c) x) c₀ (node x (sub .a) (sub .b))
      (node x (plug (part .a) (sub .a)) (plug (part .b) (sub .b))) := by
  obtain ⟨ha, hqa⟩ := hl.plugged .a
  obtain ⟨hb, hqb⟩ := hl.plugged .b
  have h1 : after (part .a) = [] := (ht.sided .a).after
  have h2 : before (part .b) = [] := (ht.sided .b).before
  refine ⟨h.promote_rep, rfl, ?_, ⟨hl.len ▸ hqa, hl.len ▸ hqb, ha, hb⟩, hl.len⟩
  rw [inorder_plug, inorder_plug, inorder, inorder, inorder_plug, inorder_plug, h1, h2, ← ht.left,
    ← ht.right]
  simp

end Working

end Aix413.Cartesian
