import Aix413.Bucket.Fracture

namespace Aix413.Bucket

open Lib.LinkedPool Lib.Tiling

/-! ## The free lists -/

/-- The free lists when blocks go on them. -/
def spillLists (free : Nat → List Nat) : List (Nat × Nat) → Nat → List Nat
  | [] => free
  | p :: pieces => spillLists (Function.update free p.2 (p.1 :: free p.2)) pieces

variable {s s' : State} {free : Nat → List Nat} {pieces layout : List (Nat × Nat)}
  {base op a b i j k m n : Nat}

theorem mem_spillLists : a ∈ spillLists free pieces i ↔ a ∈ free i ∨ (a, i) ∈ pieces := by
  induction pieces generalizing free with
  | nil => exact ⟨.inl, fun h => h.resolve_right nofun⟩
  | cons p pieces ih =>
    refine ih.trans ?_
    obtain ⟨c, j⟩ := p
    rw [List.mem_cons, Prod.mk.injEq]
    dsimp only
    by_cases hj : i = j
    · subst hj
      rw [Function.update_self, List.mem_cons]
      tauto
    · rw [Function.update_of_ne hj]
      tauto

theorem spillLists_of_ne (h : ∀ p ∈ pieces, p.2 ≠ i) : spillLists free pieces i = free i := by
  induction pieces generalizing free with
  | nil => rfl
  | cons p pieces ih =>
    refine (ih fun q hq => h q (List.mem_cons_of_mem _ hq)).trans ?_
    exact Function.update_of_ne (h p List.mem_cons_self).symm _ _

namespace State

theorem spill_word (h : ∀ p ∈ pieces, p.1 ≠ a) : (s.spill pieces).word a = s.word a := by
  induction pieces generalizing s with
  | nil => rfl
  | cons p pieces ih =>
    refine (ih fun q hq => h q (List.mem_cons_of_mem _ hq)).trans ?_
    exact Function.update_of_ne (h p List.mem_cons_self).symm _ _

theorem spill_linked (h : Linked s.word s.nextf free)
    (hnew : ∀ p ∈ pieces, p.1 ≠ 0 ∧ ∀ i, p.1 ∉ free i) (hnd : (pieces.map Prod.fst).Nodup) :
    Linked (s.spill pieces).word (s.spill pieces).nextf (spillLists free pieces) := by
  induction pieces generalizing s free with
  | nil => exact h
  | cons p pieces ih =>
    obtain ⟨h0, hfree⟩ := hnew p List.mem_cons_self
    obtain ⟨hp, hnd⟩ := List.nodup_cons.mp hnd
    refine ih (s := s.freeblock p.1 p.2) (h.push h0 hfree p.2) (fun q hq => ?_) hnd
    obtain ⟨hq0, hqf⟩ := hnew q (List.mem_cons_of_mem _ hq)
    refine ⟨hq0, fun i hi => ?_⟩
    have hne : q.1 ≠ p.1 := fun he => hp (he ▸ List.mem_map_of_mem hq)
    by_cases hip : i = p.2
    · subst hip
      rw [Function.update_self] at hi
      exact (List.mem_cons.mp hi).elim hne (hqf p.2)
    · rw [Function.update_of_ne hip] at hi
      exact hqf i hi

/-- New blocks in a row, linked in their order. -/
theorem linkBlocks_chain {sz : Nat} (hsz : 0 < sz) (k : Nat) (word : Nat → Nat) (hop : op ≠ 0) :
    Chain (linkBlocks sz k word op) op ((row b sz (k + 1) op).map Prod.fst) ∧
      ∀ a < op, linkBlocks sz k word op a = word a := by
  induction k generalizing word op with
  | zero =>
    exact ⟨⟨rfl, hop, Function.update_self _ _ _⟩, fun a ha => Function.update_of_ne ha.ne _ _⟩
  | succ k ih =>
    obtain ⟨hc, hbelow⟩ := ih (Function.update word op (op + sz)) (by omega : op + sz ≠ 0)
    have hnext : linkBlocks sz (k + 1) word op op = op + sz :=
      (hbelow op (by omega)).trans (Function.update_self _ _ _)
    refine ⟨⟨rfl, hop, ?_⟩, fun a ha => ?_⟩
    · rw [hnext]
      exact hc
    · exact (hbelow a (by omega)).trans (Function.update_of_ne ha.ne _ _)

end State

/-! ## The heap -/

/-- The storage obtained is tiled by blocks and gaps; free blocks are on the list of their bucket,
the others are outstanding. -/
structure Heap (s : State) (base : Nat) (layout : List (Nat × Nat)) (free : Nat → List Nat) :
    Prop where
  page : s.Paged ∨ s.pagesz = 0 ∧ (∀ i, free i = []) ∧ s.live = []
  adjust : s.sbrkadjust = false
  incr : ∀ i, 0 < s.blockIncr i
  linked : Linked s.word s.nextf free
  tiles : Tiles Prod.fst Prod.snd base s.brk layout
  pos : ∀ p ∈ layout, 0 < p.2
  room : 0 < base ∧ s.brk < 2 ^ 32
  freed : ∀ i, ∀ a ∈ free i, (a, blockSize i) ∈ layout ∧ i ≤ 27
  lives : ∀ p ∈ s.live, (p.1, blockSize p.2) ∈ layout ∧ p.2 ≤ 27
  header : ∀ p ∈ s.live, s.word p.1 = magic ∧ s.word (p.1 + 4) = p.2
  apart : ∀ p ∈ s.live, ∀ i, p.1 ∉ free i
  nodup : (s.live.map Prod.fst).Nodup

namespace Heap

/-- Blocks at different addresses do not overlap. -/
theorem disjoint (h : Heap s base layout free) (ha : (a, m) ∈ layout) (hb : (b, n) ∈ layout)
    (hne : a ≠ b) : a + m ≤ b ∨ b + n ≤ a :=
  h.tiles.apart ha hb fun he => hne (congrArg Prod.fst he)

theorem within (h : Heap s base layout free) (ha : (a, m) ∈ layout) : base ≤ a ∧ a + m ≤ s.brk :=
  h.tiles.start_le ha

/-- A block or its header is not inside of another one. -/
theorem outside (h : Heap s base layout free) (ha : (a, m) ∈ layout)
    (hb : (b, blockSize j) ∈ layout) (hne : b ≠ a) :
    (b < a ∨ a + m ≤ b) ∧ (b + 4 < a ∨ a + m ≤ b + 4) := by
  have h8 := eight_le_blockSize j
  rcases h.disjoint ha hb hne.symm with hd | hd <;> omega

/-- Words that are no headers of free or outstanding blocks do not matter. -/
theorem rewrite (h : Heap s base layout free) {word : Nat → Nat}
    (hfree : ∀ i, ∀ a ∈ free i, word a = s.word a)
    (hlive : ∀ p ∈ s.live, word p.1 = s.word p.1 ∧ word (p.1 + 4) = s.word (p.1 + 4)) :
    Heap { s with word := word } base layout free where
  page := h.page
  adjust := h.adjust
  incr := h.incr
  linked := h.linked.congr fun i a ha => hfree i a ha
  tiles := h.tiles
  pos := h.pos
  room := h.room
  freed := h.freed
  lives := h.lives
  header := fun p hp => by
    obtain ⟨h₁, h₂⟩ := h.header p hp
    obtain ⟨hw₁, hw₂⟩ := hlive p hp
    exact ⟨hw₁.trans h₁, hw₂.trans h₂⟩
  apart := h.apart
  nodup := h.nodup

/-- What `malloc` does to the first block of a free list. -/
theorem take (h : Heap s base layout free) {l : List Nat} (hb : free b = op :: l)
    (nmalloc : Nat → Nat) (saved : List Nat) (ovfl : Nat) :
    Heap { s with
      nextf := Function.update s.nextf b (s.word op)
      word := Function.update (Function.update s.word op magic) (op + 4) b
      nmalloc := nmalloc
      saved := saved
      ovfl := ovfl
      live := (op, b) :: s.live } base layout (Function.update free b l) := by
  have hmem : op ∈ free b := hb ▸ List.mem_cons_self
  obtain ⟨hop, hb27⟩ := h.freed b op hmem
  have hnd := (h.linked.chain b).nodup
  rw [hb, List.nodup_cons] at hnd
  have hsub : ∀ i, ∀ c ∈ Function.update free b l i, c ∈ free i ∧ c ≠ op := by
    intro i c hc
    by_cases hi : i = b
    · subst hi
      rw [Function.update_self] at hc
      exact ⟨hb ▸ List.mem_cons_of_mem _ hc, fun he => hnd.1 (he ▸ hc)⟩
    · rw [Function.update_of_ne hi] at hc
      refine ⟨hc, ?_⟩
      rintro rfl
      exact hi (h.linked.disjoint hc hmem)
  have hword : ∀ c j, (c, blockSize j) ∈ layout → c ≠ op →
      Function.update (Function.update s.word op magic) (op + 4) b c = s.word c ∧
        Function.update (Function.update s.word op magic) (op + 4) b (c + 4) = s.word (c + 4) := by
    intro c j hc hne
    have h8 := eight_le_blockSize b
    obtain ⟨h₁, h₂⟩ := h.outside hop hc hne
    refine ⟨?_, ?_⟩
    · rw [Function.update_of_ne (by omega), Function.update_of_ne hne]
    · rw [Function.update_of_ne (by omega), Function.update_of_ne (by omega)]
  have hlive : ∀ p ∈ s.live, p.1 ≠ op := by
    intro p hp he
    exact h.apart p hp b (he ▸ hmem)
  exact
    { page := h.page.imp id fun ⟨_, hnone, _⟩ => absurd (hnone b) (by rw [hb]; exact nofun)
      adjust := h.adjust
      incr := h.incr
      linked := (h.linked.pop hb).congr fun i c hc => by
        obtain ⟨hc, hne⟩ := hsub i c hc
        exact (hword c i (h.freed i c hc).1 hne).1
      tiles := h.tiles
      pos := h.pos
      room := h.room
      freed := fun i c hc => h.freed i c (hsub i c hc).1
      lives := fun p hp => by
        rcases List.mem_cons.mp hp with rfl | hp
        · exact ⟨hop, hb27⟩
        · exact h.lives p hp
      header := fun p hp => by
        rcases List.mem_cons.mp hp with rfl | hp
        · refine ⟨?_, Function.update_self _ _ _⟩
          change Function.update (Function.update s.word op magic) (op + 4) b op = magic
          rw [Function.update_of_ne (by omega), Function.update_self]
        · obtain ⟨h₁, h₂⟩ := h.header p hp
          obtain ⟨hw₁, hw₂⟩ := hword p.1 p.2 (h.lives p hp).1 (hlive p hp)
          exact ⟨hw₁.trans h₁, hw₂.trans h₂⟩
      apart := fun p hp i hi => by
        obtain ⟨hi, hne⟩ := hsub i _ hi
        rcases List.mem_cons.mp hp with rfl | hp
        · exact hne rfl
        · exact h.apart p hp i hi
      nodup := List.nodup_cons.mpr ⟨fun hm => by
        obtain ⟨p, hp, he⟩ := List.mem_map.mp hm
        exact hlive p hp he, h.nodup⟩ }

end Heap


namespace Heap

theorem nonzero (h : Heap s base layout free) (ha : (a, m) ∈ layout) : a ≠ 0 := by
  have hb := h.room.1
  have := (h.within ha).1
  omega

/-- What `free` does to an outstanding block. -/
theorem give (h : Heap s base layout free) (hp : (op, b) ∈ s.live) (nmalloc : Nat → Nat)
    (saved : List Nat) (ovfl : Nat) :
    Heap { s with
      word := Function.update s.word op (s.nextf b)
      nextf := Function.update s.nextf b op
      nmalloc := nmalloc
      saved := saved
      ovfl := ovfl
      live := s.live.filter fun p => p.1 ≠ op } base layout
      (Function.update free b (op :: free b)) := by
  obtain ⟨hop, hb27⟩ := h.lives _ hp
  dsimp only at hop hb27
  have hlive : ∀ p ∈ s.live.filter fun p => p.1 ≠ op, p ∈ s.live ∧ p.1 ≠ op := by
    intro p hp
    obtain ⟨hp, hne⟩ := List.mem_filter.mp hp
    exact ⟨hp, of_decide_eq_true hne⟩
  have hmem : ∀ i, ∀ c ∈ Function.update free b (op :: free b) i, c ∈ free i ∨ c = op ∧ i = b := by
    intro i c hc
    by_cases hi : i = b
    · subst hi
      rw [Function.update_self] at hc
      exact (List.mem_cons.mp hc).symm.imp id fun he => ⟨he, rfl⟩
    · rw [Function.update_of_ne hi] at hc
      exact .inl hc
  exact
    { page := h.page.imp id fun ⟨_, _, hnone⟩ => by
        rw [hnone] at hp
        exact nomatch hp
      adjust := h.adjust
      incr := h.incr
      linked := h.linked.push (h.nonzero hop) (h.apart _ hp) b
      tiles := h.tiles
      pos := h.pos
      room := h.room
      freed := fun i c hc => by
        rcases hmem i c hc with hc | ⟨rfl, rfl⟩
        · exact h.freed i c hc
        · exact ⟨hop, hb27⟩
      lives := fun p hp => h.lives p (hlive p hp).1
      header := fun p hp => by
        obtain ⟨hp, hne⟩ := hlive p hp
        obtain ⟨h₁, h₂⟩ := h.header p hp
        obtain ⟨hout, hout'⟩ := h.outside hop (h.lives p hp).1 hne
        have h8 := eight_le_blockSize b
        have hne4 : p.1 + 4 ≠ op := by omega
        exact ⟨(Function.update_of_ne hne _ _).trans h₁, (Function.update_of_ne hne4 _ _).trans h₂⟩
      apart := fun p hp i hi => by
        obtain ⟨hp, hne⟩ := hlive p hp
        rcases hmem i _ hi with hi | ⟨he, -⟩
        · exact h.apart p hp i hi
        · exact hne he
      nodup := h.nodup.sublist (List.filter_sublist.map _) }

/-- Storage passed over. -/
theorem skip (h : Heap s base layout free) (hm : s.brk + m < 2 ^ 32) :
    ∃ layout', Heap { s with brk := s.brk + m } base layout' free ∧ layout ⊆ layout' := by
  by_cases hm0 : m = 0
  · subst hm0
    exact ⟨layout, h, List.Subset.refl _⟩
  · refine ⟨layout ++ [(s.brk, m)], ?_, List.subset_append_left _ _⟩
    have hsub : ∀ {p}, p ∈ layout → p ∈ layout ++ [(s.brk, m)] := fun hp =>
      List.mem_append_left _ hp
    exact
      { page := h.page
        adjust := h.adjust
        incr := h.incr
        linked := h.linked
        tiles := h.tiles.append ⟨rfl, rfl⟩
        pos := fun p hp => by
          rcases List.mem_append.mp hp with hp | hp
          · exact h.pos p hp
          · rw [List.mem_singleton.mp hp]
            exact Nat.pos_of_ne_zero hm0
        room := ⟨h.room.1, hm⟩
        freed := fun i c hc => (h.freed i c hc).imp_left hsub
        lives := fun p hp => (h.lives p hp).imp_left hsub
        header := h.header
        apart := h.apart
        nodup := h.nodup }

/-- A block with its size. -/
def sized (p : Nat × Nat) : Nat × Nat := (p.1, blockSize p.2)

theorem tiles_sized (h : Tiled a b pieces) :
    Tiles Prod.fst Prod.snd a b (pieces.map sized) :=
  tiles_map.mpr h

theorem sized_pos : ∀ p ∈ pieces.map sized, 0 < p.2 := by
  intro p hp
  obtain ⟨q, -, rfl⟩ := List.mem_map.mp hp
  exact Nat.lt_of_lt_of_le (by norm_num) (eight_le_blockSize q.2)

theorem mem_row {sz : Nat} {p : Nat × Nat} (hp : p ∈ row b sz k op) : p.2 = b := by
  induction k generalizing op with
  | zero => exact nomatch hp
  | succ k ih =>
    rcases List.mem_cons.mp hp with rfl | hp
    · rfl
    · exact ih hp

/-- New storage, as blocks of one bucket. -/
theorem grow (h : Heap s base layout free) (hp : s.Paged) (hb : free b = []) (hb27 : b ≤ 27)
    (hend : s.brk + (k + 1) * blockSize b < 2 ^ 32) :
    Heap { s with
      nextf := Function.update s.nextf b s.brk
      word := State.linkBlocks (blockSize b) k s.word s.brk
      brk := s.brk + (k + 1) * blockSize b } base
      (layout ++ (row b (blockSize b) (k + 1) s.brk).map sized)
      (Function.update free b ((row b (blockSize b) (k + 1) s.brk).map Prod.fst)) := by
  have h8 := eight_le_blockSize b
  have hbase : base ≤ s.brk := h.tiles.le
  have h0 := h.room.1
  obtain ⟨hchain, hbelow⟩ := State.linkBlocks_chain (b := b) (by omega : 0 < blockSize b) k
    s.word (by omega : s.brk ≠ 0)
  have htiled := tiled_row (rfl : blockSize b = blockSize b) (k + 1) s.brk
  have hold : ∀ i, ∀ c ∈ free i, c < s.brk := by
    intro i c hc
    have := (h.within (h.freed i c hc).1).2
    have := eight_le_blockSize i
    omega
  have hlives : ∀ p ∈ s.live, p.1 + 4 < s.brk := by
    intro p hp
    have := (h.within (h.lives p hp).1).2
    have := eight_le_blockSize p.2
    omega
  have hnew : ∀ c ∈ (row b (blockSize b) (k + 1) s.brk).map Prod.fst,
      s.brk ≤ c ∧ (c, blockSize b) ∈ (row b (blockSize b) (k + 1) s.brk).map sized := by
    intro c hc
    obtain ⟨p, hp, rfl⟩ := List.mem_map.mp hc
    refine ⟨(htiled.start_le hp).1, List.mem_map.mpr ⟨p, hp, ?_⟩⟩
    rw [sized, mem_row hp]
  have hmem : ∀ i c,
      c ∈ Function.update free b ((row b (blockSize b) (k + 1) s.brk).map Prod.fst) i →
      c ∈ free i ∧ i ≠ b ∨ i = b ∧ c ∈ (row b (blockSize b) (k + 1) s.brk).map Prod.fst := by
    intro i c hc
    by_cases hi : i = b
    · subst hi
      rw [Function.update_self] at hc
      exact .inr ⟨rfl, hc⟩
    · rw [Function.update_of_ne hi] at hc
      exact .inl ⟨hc, hi⟩
  exact
    { page := .inl hp
      adjust := h.adjust
      incr := h.incr
      linked := by
        refine ⟨fun i => ?_, fun {i j c} hi hj => ?_⟩
        · dsimp only
          by_cases hi : i = b
          · subst hi
            rw [Function.update_self, Function.update_self]
            exact hchain
          · rw [Function.update_of_ne hi, Function.update_of_ne hi]
            exact (h.linked.chain i).congr fun c hc => hbelow c (hold i c hc)
        · rcases hmem i c hi with ⟨hi', -⟩ | ⟨hib, hi'⟩ <;>
            rcases hmem j c hj with ⟨hj', -⟩ | ⟨hjb, hj'⟩
          · exact h.linked.disjoint hi' hj'
          · exact absurd (hold i c hi') (Nat.not_lt_of_le (hnew c hj').1)
          · exact absurd (hold j c hj') (Nat.not_lt_of_le (hnew c hi').1)
          · exact hib.trans hjb.symm
      tiles := h.tiles.append (tiles_sized htiled)
      pos := fun p hp => (List.mem_append.mp hp).elim (h.pos p) (sized_pos p)
      room := ⟨h0, hend⟩
      freed := fun i c hc => by
        rcases hmem i c hc with ⟨hc', -⟩ | ⟨hib, hc'⟩
        · exact (h.freed i c hc').imp_left (List.mem_append_left _)
        · subst hib
          exact ⟨List.mem_append_right _ (hnew c hc').2, hb27⟩
      lives := fun p hp => (h.lives p hp).imp_left (List.mem_append_left _)
      header := fun p hp => by
        have hlt := hlives p hp
        obtain ⟨h₁, h₂⟩ := h.header p hp
        exact ⟨(hbelow _ (by omega)).trans h₁, (hbelow _ hlt).trans h₂⟩
      apart := fun p hp i hi => by
        have hlt := hlives p hp
        rcases hmem i _ hi with ⟨hi, -⟩ | ⟨-, hi⟩
        · exact h.apart p hp i hi
        · have := (hnew _ hi).1
          omega
      nodup := h.nodup }

end Heap


/-- The state after a block has been split and its front moved to its list. -/
def State.move (s : State) (pieces : List (Nat × Nat)) (op obucket nbucket : Nat) : State :=
  let s := (s.carve op obucket nbucket).spill pieces
  State.freeblock { s with nextf := Function.update s.nextf obucket (s.word op) } op nbucket

namespace Heap

/-- A block of a larger bucket is split. -/
theorem move (h : Heap s base layout free) {l : List Nat} (hl : free i = op :: l) (hlt : b < i)
    (htiled : Tiled op (op + blockSize i) ((op, b) :: pieces)) :
    ∃ layout' free' l', Heap (s.move pieces op i b) base layout' free' ∧ free' b = op :: l' := by
  have hmem : op ∈ free i := hl ▸ List.mem_cons_self
  obtain ⟨hop, hi27⟩ := h.freed i op hmem
  have h8 := eight_le_blockSize i
  have hb8 := eight_le_blockSize b
  have hin : ∀ p ∈ pieces, op + blockSize b ≤ p.1 ∧ p.1 + blockSize p.2 ≤ op + blockSize i :=
    fun p hp => htiled.2.start_le hp
  have hbucket : ∀ p ∈ pieces, p.2 < i := fun p hp =>
    lt_of_blockSize_lt (by have := hin p hp; omega)
  have hfresh : ∀ p ∈ pieces, ∀ m, (p.1, m) ∉ layout := by
    intro p hp m hm
    have hpos := h.pos _ hm
    have := hin p hp
    have := eight_le_blockSize p.2
    rcases h.disjoint hop hm (by omega) with hd | hd <;> dsimp only at hpos <;> omega
  have hnd : (pieces.map Prod.fst).Nodup := by
    refine List.pairwise_map.mpr (htiled.2.pairwise.imp fun {p q} hpq => ?_)
    have := eight_le_blockSize p.2
    omega
  have hnd' := (h.linked.chain i).nodup
  rw [hl, List.nodup_cons] at hnd'
  -- only words inside of the block change
  have hword : ∀ x, x < op ∨ op + blockSize i ≤ x →
      (s.move pieces op i b).word x = s.word x := by
    intro x hx
    refine (Function.update_of_ne (by omega) _ _).trans ?_
    refine (State.spill_word fun p hp => ?_).trans (Function.update_of_ne (by omega) _ _)
    have := hin p hp
    have := eight_le_blockSize p.2
    omega
  have hcarve : Linked (s.carve op i b).word (s.carve op i b).nextf free := by
    refine h.linked.congr fun j c hc => Function.update_of_ne ?_ _ _
    by_cases hco : c = op
    · omega
    · have := h.outside hop (h.freed j c hc).1 hco
      omega
  have hspill := State.spill_linked hcarve (fun p hp => ⟨by have := hin p hp; omega, fun j hj =>
    hfresh p hp _ (h.freed j p.1 hj).1⟩) hnd
  have hself : spillLists free pieces i = op :: l :=
    (spillLists_of_ne fun p hp => (hbucket p hp).ne).trans hl
  have hlists : ∀ j c, c ∈ Function.update (spillLists free pieces) i l j →
      c ∈ free j ∧ c ≠ op ∨ (c, j) ∈ pieces := by
    intro j c hc
    by_cases hji : j = i
    · subst hji
      rw [Function.update_self] at hc
      exact .inl ⟨hl ▸ List.mem_cons_of_mem _ hc, fun he => hnd'.1 (he ▸ hc)⟩
    · rw [Function.update_of_ne hji] at hc
      refine (mem_spillLists.mp hc).imp_left fun hcj => ⟨hcj, ?_⟩
      rintro rfl
      exact hji (h.linked.disjoint hcj hmem)
  have hno : ∀ j, op ∉ Function.update (spillLists free pieces) i l j := by
    intro j hj
    rcases hlists j op hj with ⟨-, hne⟩ | hp
    · exact hne rfl
    · have := (hin _ hp).1
      dsimp only at this
      omega
  obtain ⟨l₁, l₂, hsplit⟩ := List.append_of_mem hop
  have hold : ∀ {c j}, (c, blockSize j) ∈ layout → c ≠ op →
      (c, blockSize j) ∈ l₁ ++ (((op, b) :: pieces).map sized ++ l₂) := by
    intro c j hc hne
    rw [hsplit, List.mem_append, List.mem_cons] at hc
    rw [List.mem_append, List.mem_append]
    rcases hc with hc | hc | hc
    · exact .inl hc
    · exact absurd (congrArg Prod.fst hc) hne
    · exact .inr (.inr hc)
  have hnew : ∀ p ∈ (op, b) :: pieces, (p.1, blockSize p.2) ∈
      l₁ ++ (((op, b) :: pieces).map sized ++ l₂) := fun p hp =>
    List.mem_append_right _ (List.mem_append_left _ (List.mem_map_of_mem hp))
  have hlive : ∀ p ∈ s.live, p.1 ≠ op := fun p hp he => h.apart p hp i (he ▸ hmem)
  have hmem' : ∀ j c, c ∈ Function.update (Function.update (spillLists free pieces) i l) b
      (op :: Function.update (spillLists free pieces) i l b) j →
      c ∈ free j ∧ c ≠ op ∨ (c, j) ∈ (op, b) :: pieces := by
    intro j c hc
    by_cases hjb : j = b
    · subst hjb
      rw [Function.update_self] at hc
      rcases List.mem_cons.mp hc with rfl | hc
      · exact .inr List.mem_cons_self
      · exact (hlists j c hc).imp_right (List.mem_cons_of_mem _)
    · rw [Function.update_of_ne hjb] at hc
      exact (hlists j c hc).imp_right (List.mem_cons_of_mem _)
  have hsame : ∀ {A : Type} (f : State → A), (∀ t : State, ∀ word nextf nmalloc,
      f { t with word := word, nextf := nextf, nmalloc := nmalloc } = f t) →
      f (s.move pieces op i b) = f s := by
    intro A f hf
    unfold State.move State.freeblock
    rw [State.spill_eq]
    exact hf s _ _ _
  refine ⟨l₁ ++ (((op, b) :: pieces).map sized ++ l₂), Function.update (Function.update
    (spillLists free pieces) i l) b (op :: Function.update (spillLists free pieces) i l b), _, ?_,
    Function.update_self _ _ _⟩
  have htiles := h.tiles
  rw [hsplit] at htiles
  obtain ⟨c, ht₁, hc, ht₂⟩ := htiles.split
  dsimp only at hc
  subst hc
  exact
    { page := by
        refine h.page.imp (fun hp => ?_) fun ⟨_, hnone, _⟩ => ?_
        · unfold State.Paged
          rw [hsame State.pagesz fun _ _ _ _ => rfl, hsame State.pagebucket fun _ _ _ _ => rfl]
          exact hp
        · rw [hnone i] at hl
          exact nomatch hl
      adjust := (hsame State.sbrkadjust fun _ _ _ _ => rfl).trans h.adjust
      incr := by
        rw [hsame State.blockIncr fun _ _ _ _ => rfl]
        exact h.incr
      linked := (hspill.pop hself).push (h.nonzero hop) hno b
      tiles := by
        rw [hsame State.brk fun _ _ _ _ => rfl]
        exact ht₁.append ((tiles_sized htiled).append ht₂)
      pos := fun p hp => by
        rcases List.mem_append.mp hp with hp | hp
        · exact h.pos p (hsplit ▸ List.mem_append_left _ hp)
        · rcases List.mem_append.mp hp with hp | hp
          · exact sized_pos p hp
          · exact h.pos p (hsplit ▸ List.mem_append_right _ (List.mem_cons_of_mem _ hp))
      room := by
        rw [hsame State.brk fun _ _ _ _ => rfl]
        exact h.room
      freed := fun j c hc => by
        rcases hmem' j c hc with ⟨hcj, hne⟩ | hp
        · obtain ⟨h₁, h₂⟩ := h.freed j c hcj
          exact ⟨hold h₁ hne, h₂⟩
        · refine ⟨hnew _ hp, ?_⟩
          rcases List.mem_cons.mp hp with he | hp
          · cases he
            omega
          · have := hbucket _ hp
            dsimp only at this
            omega
      lives := by
        rw [hsame State.live fun _ _ _ _ => rfl]
        exact fun p hp => ⟨hold (h.lives p hp).1 (hlive p hp), (h.lives p hp).2⟩
      header := by
        rw [hsame State.live fun _ _ _ _ => rfl]
        intro p hp
        obtain ⟨h₁, h₂⟩ := h.header p hp
        obtain ⟨hout, hout'⟩ := h.outside hop (h.lives p hp).1 (hlive p hp)
        exact ⟨(hword _ hout).trans h₁, (hword _ hout').trans h₂⟩
      apart := by
        rw [hsame State.live fun _ _ _ _ => rfl]
        intro p hp j hj
        rcases hmem' j _ hj with ⟨hpj, -⟩ | hq
        · exact h.apart p hp j hpj
        · rcases List.mem_cons.mp hq with he | hq
          · exact hlive p hp (congrArg Prod.fst he)
          · exact hfresh _ hq _ (h.lives p hp).1
      nodup := by
        rw [hsame State.live fun _ _ _ _ => rfl]
        exact h.nodup }

end Heap

end Aix413.Bucket
