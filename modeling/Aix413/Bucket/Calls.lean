import Aix413.Bucket.Blocks
import Mathlib.Logic.Relation

namespace Aix413.Bucket

open Lib.LinkedPool Lib.Tiling

variable {s s' : State} {free : Nat → List Nat} {layout : List (Nat × Nat)}
  {base b i k m nbytes : Nat} {o : Grants} {amt : Int}

/-! ## What the calls of `sbrk` give -/

namespace State

theorem sbrk_cases (s : State) (amt : Int) (ok : Bool) : s.sbrk amt ok = (failed, s) ∨
    0 ≤ s.brk + amt ∧ s.brk + amt < 2 ^ 32 ∧
      s.sbrk amt ok = (s.brk, { s with brk := (s.brk + amt).toNat }) := by
  unfold sbrk
  split_ifs with h
  · exact .inr ⟨h.2.1, h.2.2, rfl⟩
  · exact .inl rfl

theorem slack_nonneg (op : Nat) : 0 ≤ slack pageSize op := by
  unfold slack pageSize overhead
  dsimp only
  split_ifs <;> omega

/-- The second call, for the bytes up to the first header, does not fail. -/
def Aligned (s : State) (amt : Int) (o : Grants) : Prop :=
  let (op, s) := s.sbrk amt o.grow
  op ≠ failed → slack s.pagesz op ≠ 0 → (s.sbrk (slack s.pagesz op) o.align).1 ≠ failed

theorem obtain_cases (hp : s.Paged) (hadj : s.sbrkadjust = false) (ha : s.Aligned amt o)
    (hamt : 0 < amt) (h0 : 0 < s.brk) : s.obtain amt o = (failed, s) ∨
      ∃ m : Nat, s.brk + m + amt.toNat < 2 ^ 32 ∧ s.brk + m ≠ failed ∧
        s.obtain amt o = (s.brk + m, { s with brk := s.brk + m + amt.toNat }) := by
  unfold Aligned at ha
  unfold obtain
  rcases s.sbrk_cases amt o.grow with he | ⟨h₁, h₂, he⟩
  · rw [he]
    exact .inl (if_pos rfl)
  · rw [he] at ha ⊢
    have hbrk : s.brk ≠ failed := by
      unfold failed
      omega
    dsimp only at ha ⊢
    rw [if_neg hbrk]
    right
    by_cases hn : slack s.pagesz s.brk = 0
    · rw [if_pos hn]
      refine ⟨0, by omega, hbrk, ?_⟩
      rw [Nat.add_zero, show (s.brk + amt).toNat = s.brk + amt.toNat by omega]
    · rw [if_neg hn]
      have hn0 := slack_nonneg s.brk
      rw [← hp.1] at hn0
      have hok := ha hbrk hn
      rcases sbrk_cases { s with brk := (s.brk + amt).toNat } (slack s.pagesz s.brk) o.align with
        he' | ⟨h₁', h₂', he'⟩
      · rw [he'] at hok
        exact absurd rfl hok
      · rw [he']
        dsimp only at h₁' h₂' ⊢
        rw [if_pos (by omega), hadj]
        refine ⟨(slack s.pagesz s.brk).toNat, by omega, ?_, ?_⟩
        · unfold failed
          omega
        · rw [show ((((s.brk : Int) + amt).toNat : Int) + slack s.pagesz s.brk).toNat =
            s.brk + (slack s.pagesz s.brk).toNat + amt.toNat by omega]
          rfl

/-- Setting up changes the page size, its bucket and the break. -/
theorem prepare_eq (s : State) (o : Grants) : ∃ pagesz pagebucket sbrkadjust brk,
    (s.prepare o).2 = { s with
      pagesz := pagesz
      pagebucket := pagebucket
      sbrkadjust := sbrkadjust
      brk := brk } := by
  unfold prepare
  by_cases hz : s.pagesz = 0
  · rw [if_pos hz]
    unfold setup
    dsimp only
    by_cases hn : slack pageSize s.brk = 0
    · rw [if_pos hn, if_neg (by decide : ¬(0 = failed))]
      exact ⟨_, _, _, _, rfl⟩
    · rw [if_neg hn]
      rcases sbrk_cases { s with pagesz := pageSize } (slack pageSize s.brk) o.first with
        he | ⟨-, -, he⟩
      · rw [he, if_pos rfl]
        exact ⟨_, _, _, _, rfl⟩
      · rw [he]
        split_ifs <;> exact ⟨_, _, _, _, rfl⟩
  · rw [if_neg hz]
    exact ⟨_, _, _, _, rfl⟩

end State

namespace Heap

theorem paged (h : Heap s base layout free) :
    Heap { s with pagesz := pageSize, pagebucket := 9, sbrkadjust := false } base layout free where
  page := .inl ⟨rfl, rfl⟩
  adjust := rfl
  incr := h.incr
  linked := h.linked
  tiles := h.tiles
  pos := h.pos
  room := h.room
  freed := h.freed
  lives := h.lives
  header := h.header
  apart := h.apart
  nodup := h.nodup

theorem prepare (h : Heap s base layout free) (hgo : (s.prepare o).1 = true) :
    ∃ layout', Heap (s.prepare o).2 base layout' free ∧ (s.prepare o).2.Paged := by
  unfold State.prepare at hgo ⊢
  by_cases hz : s.pagesz = 0
  · rw [if_pos hz] at hgo ⊢
    have hsize : State.sizeBucket pageSize 32 8 0 = 9 := by decide
    unfold State.setup at hgo ⊢
    dsimp only at hgo ⊢
    by_cases hn : State.slack pageSize s.brk = 0
    · rw [if_pos hn, if_neg (by decide : ¬(0 = failed))]
      dsimp only
      rw [hn, decide_eq_false (by omega), hsize]
      exact ⟨layout, h.paged, rfl, rfl⟩
    · rw [if_neg hn] at hgo ⊢
      have hn0 := State.slack_nonneg s.brk
      rcases State.sbrk_cases { s with pagesz := pageSize } (State.slack pageSize s.brk) o.first
        with he | ⟨h₁, h₂, he⟩
      · rw [he, if_pos rfl] at hgo
        exact nomatch hgo
      · dsimp only at h₁ h₂
        have hbrk : s.brk ≠ failed := by
          unfold failed
          omega
        rw [he, if_neg hbrk]
        dsimp only
        rw [decide_eq_false (by omega), hsize,
          show (s.brk + State.slack pageSize s.brk).toNat =
            s.brk + (State.slack pageSize s.brk).toNat by omega]
        obtain ⟨layout', h', -⟩ := h.skip (m := (State.slack pageSize s.brk).toNat) (by omega)
        exact ⟨layout', h'.paged, rfl, rfl⟩
  · rw [if_neg hz]
    exact ⟨layout, h, h.page.resolve_right fun hp => hz hp.1⟩

end Heap


/-! ## `morecore` -/

namespace State

/-- The first growth gets its storage, the number of bytes is a signed word, and storage got is
aligned. -/
def Granted (s : State) (o : Grants) (bucket : Nat) : Prop :=
  (s.prepare o).1 = true ∧
    let s := (s.prepare o).2
    bucket ≤ 27 → (2 ^ (bucket + 3) < s.pagesz → s.blockIncr bucket * 2 ^ (bucket + 3) < 2 ^ 31) ∧
      (s.bump bucket).Aligned (s.amount bucket) o

/-- There is no storage, but a larger block to take it from. -/
def Steals (s : State) (o : Grants) (bucket : Nat) : Prop :=
  let s := (s.prepare o).2
  ((s.bump bucket).obtain (s.amount bucket) o).1 = failed ∧
    ∃ k, bucket < k ∧ k < nbuckets ∧ s.nextf k ≠ 0

theorem small_iff (hp : s.Paged) : 2 ^ (b + 3) < s.pagesz ↔ b < 9 := by
  rw [hp.1, pageSize]
  exact pow_lt_page

theorem amount_eq (hp : s.Paged)
    (hb : 2 ^ (b + 3) < s.pagesz → s.blockIncr b * 2 ^ (b + 3) < 2 ^ 31) :
    s.amount b = (s.nblks b * blockSize b : Nat) := by
  unfold amount nblks
  by_cases hs : 2 ^ (b + 3) < s.pagesz
  · have hlt := hb hs
    have hcast : (s.blockIncr b : Int) * 2 ^ (b + 3) = (s.blockIncr b * 2 ^ (b + 3) : Nat) := by
      push_cast
      rfl
    rw [if_pos hs, if_pos hs, blockSize_small ((small_iff hp).mp hs), hcast,
      Int.bmod_eq_of_le (by omega) (by omega)]
  · rw [if_neg hs, if_neg hs, hp.1, Nat.one_mul,
      blockSize_large (Nat.le_of_not_lt fun h => hs ((small_iff hp).mpr h)), pageSize]
    push_cast
    rfl

end State

namespace Heap

theorem bump (h : Heap s base layout free) (b : Nat) : Heap (s.bump b) base layout free := by
  unfold State.bump
  split_ifs
  · exact
      { page := h.page
        adjust := h.adjust
        incr := fun i => by
          change 0 < Function.update s.blockIncr b _ i
          by_cases hi : i = b
          · rw [hi, Function.update_self]
            exact Nat.succ_pos _
          · rw [Function.update_of_ne hi]
            exact h.incr i
        linked := h.linked
        tiles := h.tiles
        pos := h.pos
        room := h.room
        freed := h.freed
        lives := h.lives
        header := h.header
        apart := h.apart
        nodup := h.nodup }
  · exact h

theorem steal (h : Heap s base layout free) (hp : s.Paged) (b : Nat) :
    ∃ s' layout' free', s.steal b (blockSize b - 8) = some s' ∧ Heap s' base layout' free' ∧
      s'.live = s.live ∧
      ((∀ k, b < k → k < nbuckets → s.nextf k = 0) → s'.nmalloc = s.nmalloc) := by
  unfold State.steal
  cases hf : (List.range nbuckets).find? fun k => decide (b < k ∧ s.nextf k ≠ 0) with
  | none => exact ⟨s, layout, free, rfl, h, rfl, fun _ => rfl⟩
  | some k =>
    have hk := List.find?_some hf
    have hk := of_decide_eq_true hk
    have hk30 := List.mem_range.mp (List.mem_of_find?_eq_some hf)
    have hchain := h.linked.chain k
    cases hl : free k with
    | nil =>
      rw [hl] at hchain
      exact absurd hchain hk.2
    | cons op l =>
      have hop : s.nextf k = op := by
        rw [hl] at hchain
        exact hchain.1
      have hk27 := (h.freed k op (hl ▸ List.mem_cons_self)).2
      obtain ⟨pieces, hfr, htiled⟩ := State.fracture_spec op hp hk.1 hk27
      obtain ⟨layout', free', -, h', -⟩ := h.move hl hk.1 htiled
      dsimp only
      rw [hop, hfr]
      refine ⟨s.move pieces op k b, layout', free', rfl, h', ?_, fun hno => ?_⟩
      · unfold State.move State.freeblock
        rw [State.spill_eq]
        rfl
      · exact absurd (hno k hk.1 hk30) hk.2

theorem morecore (h : Heap s base layout free) (hb : free b = []) (hb29 : b ≤ 29)
    (hg : s.Granted o b) :
    ∃ s' layout' free', s.morecore o b = some s' ∧ Heap s' base layout' free' ∧
      s'.live = s.live ∧ (¬s.Steals o b → s'.nmalloc = s.nmalloc) := by
  obtain ⟨hgo, hg⟩ := hg
  obtain ⟨layout, h, hp⟩ := h.prepare hgo
  obtain ⟨pagesz, pagebucket, sbrkadjust, brk, he⟩ := s.prepare_eq o
  have hlive : (s.prepare o).2.live = s.live := by rw [he]
  have hnm : (s.prepare o).2.nmalloc = s.nmalloc := by rw [he]
  unfold State.Steals State.morecore
  clear he
  generalize s.prepare o = r at *
  obtain ⟨go, t⟩ := r
  dsimp only at *
  rw [hgo]
  by_cases hb27 : b ≤ 27
  · have hsz : ∀ b ≤ 27, ¬Int.bmod (2 ^ (b + 3)) (2 ^ 32) ≤ 0 := by decide
    obtain ⟨hcount, halign⟩ := hg hb27
    have hamt := State.amount_eq hp hcount
    have hn : 0 < t.nblks b := by
      unfold State.nblks
      split_ifs
      · exact h.incr b
      · exact Nat.one_pos
    have h8 := eight_le_blockSize b
    have hpos : 0 < t.nblks b * blockSize b := by positivity
    rw [if_neg (not_or.mpr ⟨nofun, hsz b hb27⟩)]
    have hbump := h.bump b
    have hframe : (t.bump b).pagesz = t.pagesz ∧ (t.bump b).live = t.live ∧
        (t.bump b).nmalloc = t.nmalloc ∧ (t.bump b).nextf = t.nextf ∧
        (t.bump b).Paged := by
      unfold State.bump
      split_ifs <;> exact ⟨rfl, rfl, rfl, rfl, hp⟩
    obtain ⟨hpage, hlive', hnm', hnextf, hp'⟩ := hframe
    have hroom := hbump.tiles.le
    have hroom' := hbump.room.1
    rcases State.obtain_cases hp' hbump.adjust halign (by omega) (by omega) with
      he | ⟨m, hm, hne, he⟩
    · rw [he]
      dsimp only
      rw [if_pos rfl]
      have harg : ((if 2 ^ (b + 3) < (t.bump b).pagesz then ((2 ^ (b + 3) : Nat) : Int)
          else t.amount b) - overhead).toNat = blockSize b - 8 := by
        rw [hpage, hamt]
        unfold overhead State.nblks
        by_cases hs : 2 ^ (b + 3) < t.pagesz
        · rw [if_pos hs, blockSize_small ((State.small_iff hp).mp hs)]
          omega
        · rw [if_neg hs, if_neg hs, Nat.one_mul]
          omega
      rw [harg]
      obtain ⟨s', layout', free', hs', hheap, hl, hcnt⟩ := hbump.steal hp' b
      refine ⟨s', layout', free', hs', hheap, hl.trans (hlive'.trans hlive), fun hno => ?_⟩
      refine (hcnt fun k hk hk30 => ?_).trans (hnm'.trans hnm)
      by_contra hk0
      exact hno ⟨rfl, k, hk, hk30, by rwa [← hnextf]⟩
    · rw [he]
      dsimp only
      rw [if_neg hne]
      obtain ⟨layout', h', -⟩ := hbump.skip (m := m) (by omega)
      have hk : (t.nblks b - 1 + 1) * blockSize b = (t.amount b).toNat := by
        rw [Nat.sub_add_cancel hn, hamt]
        rfl
      have hgrow := h'.grow (k := t.nblks b - 1) hp' hb hb27 (by rw [hk]; exact hm)
      have hlink : State.linkBlocks (2 ^ (b + 3)) (t.nblks b - 1) =
          State.linkBlocks (blockSize b) (t.nblks b - 1) := by
        unfold State.nblks
        by_cases hs : 2 ^ (b + 3) < t.pagesz
        · rw [blockSize_small ((State.small_iff hp).mp hs)]
        · rw [if_neg hs]
          rfl
      rw [hk] at hgrow
      rw [if_neg (by rw [hbump.adjust]; decide), hlink]
      exact ⟨_, _, _, rfl, hgrow, hlive'.trans hlive, fun _ => hnm'.trans hnm⟩
  · have hsz : ∀ b ≤ 29, ¬b ≤ 27 → Int.bmod (2 ^ (b + 3)) (2 ^ 32) ≤ 0 := by decide
    rw [if_pos (.inr (hsz b hb29 hb27))]
    exact ⟨t, layout, free, rfl, h, hlive, fun _ => hnm⟩

end Heap


/-! ## Calls -/

namespace State

/-- `nmalloc` counts the outstanding blocks. -/
def Counted (s : State) : Prop := ∀ i, s.nmalloc i = s.live.countP fun p => p.2 = i

/-- The size is not one of the three that the assembler code takes for a small one, and storage
asked for is granted. -/
def Sound (s : State) (o : Grants) (nbytes : Nat) : Prop :=
  nbytes < 2 ^ 32 - 3 ∧ (nbytes ≠ 0 → 0 ≤ s.whatBucket nbytes →
    s.nextf (s.whatBucket nbytes).toNat = 0 → s.Granted o (s.whatBucket nbytes).toNat)

/-- No block is split for the request. -/
def Whole (s : State) (o : Grants) (nbytes : Nat) : Prop :=
  nbytes ≠ 0 → 0 ≤ s.whatBucket nbytes → s.nextf (s.whatBucket nbytes).toNat = 0 →
    ¬s.Steals o (s.whatBucket nbytes).toNat

/-- `free` finds its saved pointers full and the one to go out of another bucket. -/
def Displaced (s : State) (cp : Nat) : Prop :=
  let size := s.word (cp - overhead + 4)
  let s := s.freeblock (cp - overhead) size
  let op := s.saved.getD s.ovfl 0 - overhead
  s.pagebucket ≤ size ∧ s.saved.length = maxFreeSave ∧ s.word op ≠ magic ∧ s.word (op + 4) ≠ size

theorem save_eq (s : State) (cp size : Nat) : ∃ saved ovfl,
    (s.save cp size).2 = { s with saved := saved, ovfl := ovfl } := by
  unfold save
  dsimp only
  split_ifs <;> exact ⟨_, _, rfl⟩

end State

namespace Heap

theorem length_lt (h : Heap s base layout free) : s.live.length < 2 ^ 32 := by
  have hsub : s.live.map Prod.fst ⊆ List.range s.brk := by
    intro a ha
    obtain ⟨p, hp, rfl⟩ := List.mem_map.mp ha
    have := (h.within (h.lives p hp).1).2
    have := eight_le_blockSize p.2
    exact List.mem_range.mpr (by omega)
  have hle := h.nodup.length_le_of_subset hsub
  rw [List.length_map, List.length_range] at hle
  exact hle.trans_lt h.room.2

theorem malloc (h : Heap s base layout free) (hs : s.Sound o nbytes) :
    ∃ r s' layout' free', s.malloc o nbytes = some (r, s') ∧ Heap s' base layout' free' ∧
      (r = 0 ∧ s'.live = s.live ∨ ∃ a i, r = a + overhead ∧ s'.live = (a, i) :: s.live ∧
        nbytes + overhead ≤ blockSize i ∧ s'.saved = []) ∧
      (s.Whole o nbytes → s.Counted → s'.Counted) := by
  obtain ⟨hlt, hg⟩ := hs
  unfold State.malloc
  by_cases hz : nbytes = 0
  · rw [if_pos hz]
    exact ⟨0, s, layout, free, rfl, h, .inl ⟨rfl, rfl⟩, fun _ hc => hc⟩
  rw [if_neg hz]
  by_cases hneg : s.whatBucket nbytes < 0
  · rw [if_pos hneg]
    exact ⟨0, s, layout, free, rfl, h, .inl ⟨rfl, rfl⟩, fun _ hc => hc⟩
  rw [if_neg hneg]
  have h0 := Int.not_lt.mp hneg
  obtain ⟨hroom, hb29⟩ := State.whatBucket_room (h.page.imp id fun hp => hp.1) hlt h0
  have hwhole : s.Whole o nbytes → s.nextf (s.whatBucket nbytes).toNat = 0 →
      ¬s.Steals o (s.whatBucket nbytes).toNat := fun hw => hw hz h0
  have hg := hg hz h0
  generalize (s.whatBucket nbytes).toNat = b at *
  obtain ⟨s₁, layout₁, free₁, hs₁, h₁, hl₁, hc₁⟩ : ∃ s₁ layout₁ free₁,
      s.fill o b = some s₁ ∧ Heap s₁ base layout₁ free₁ ∧ s₁.live = s.live ∧
        ((s.nextf b = 0 → ¬s.Steals o b) → s₁.nmalloc = s.nmalloc) := by
    unfold State.fill
    by_cases hnext : s.nextf b = 0
    · rw [if_pos hnext]
      have hfree : free b = [] := by
        have hc := h.linked.chain b
        cases hl : free b with
        | nil => rfl
        | cons op l =>
          rw [hl] at hc
          exact absurd (hc.1.symm.trans hnext) hc.2.1
      obtain ⟨s₁, layout₁, free₁, hs₁, h₁, hl₁, hc₁⟩ := h.morecore hfree hb29 (hg hnext)
      exact ⟨s₁, layout₁, free₁, hs₁, h₁, hl₁, fun hn => hc₁ (hn hnext)⟩
    · rw [if_neg hnext]
      exact ⟨s, layout, free, rfl, h, rfl, fun _ => rfl⟩
  have hcounted : s.Whole o nbytes → s.Counted → s₁.Counted := by
    intro hw hc i
    rw [hc₁ (hwhole hw), hl₁]
    exact hc i
  dsimp only
  rw [hs₁, Option.bind_eq_bind, Option.bind_some]
  have hchain := h₁.linked.chain b
  cases hl : free₁ b with
  | nil =>
    rw [hl] at hchain
    rw [if_pos (show s₁.nextf b = 0 from hchain)]
    exact ⟨0, s₁, layout₁, free₁, rfl, h₁, .inl ⟨rfl, hl₁⟩, hcounted⟩
  | cons op l =>
    rw [hl] at hchain
    have hop : s₁.nextf b = op := hchain.1
    rw [hop, if_neg hchain.2.1]
    have htake := h₁.take hl (Function.update s₁.nmalloc b ((s₁.nmalloc b + 1) % 2 ^ 32)) []
      (if s₁.saved = [] then s₁.ovfl else 0)
    refine ⟨op + overhead, _, _, _, rfl, htake, .inr ⟨op, b, rfl, ?_, hroom, rfl⟩,
      fun hw hc i => ?_⟩
    · exact congrArg _ hl₁
    · have hc' := hcounted hw hc
      have hlen := htake.length_lt
      change Function.update s₁.nmalloc b ((s₁.nmalloc b + 1) % 2 ^ 32) i =
        ((op, b) :: s₁.live).countP fun p => p.2 = i
      change ((op, b) :: s₁.live).length < 2 ^ 32 at hlen
      rw [List.length_cons] at hlen
      rw [List.countP_cons]
      by_cases hi : i = b
      · subst hi
        have hle : s₁.live.countP (fun p => p.2 = i) ≤ s₁.live.length := List.countP_le_length
        rw [Function.update_self, hc', if_pos (decide_eq_true rfl), Nat.mod_eq_of_lt (by omega)]
      · rw [Function.update_of_ne hi, hc', if_neg (fun hb => hi (of_decide_eq_true hb).symm)]
        rfl

theorem free_spec (h : Heap s base layout free) (hp : (b, i) ∈ s.live) :
    ∃ free', Heap (s.free (b + overhead)) base layout free' ∧
      (s.free (b + overhead)).live = s.live.filter (fun p => p.1 ≠ b) ∧
      (¬s.Displaced (b + overhead) → s.Counted → (s.free (b + overhead)).Counted) := by
  obtain ⟨hmagic, hindex⟩ := h.header _ hp
  dsimp only at hmagic hindex
  obtain ⟨saved, ovfl, he⟩ := (s.freeblock b i).save_eq (b + overhead) i
  have hsize : ¬s.Displaced (b + overhead) →
      ((s.freeblock b i).save (b + overhead) i).1 = i := by
    unfold State.Displaced State.save
    rw [Nat.add_sub_cancel, hindex]
    intro hno
    dsimp only at hno ⊢
    split_ifs with h₁ h₂ h₃
    · by_contra hne
      exact hno ⟨h₁, h₂, h₃, hne⟩
    · rfl
    · rfl
    · rfl
  unfold State.free
  rw [if_neg (by unfold overhead; omega)]
  dsimp only
  rw [Nat.add_sub_cancel, if_neg (not_not.mpr hmagic), hindex]
  generalize (s.freeblock b i).save (b + overhead) i = r at *
  obtain ⟨size', t⟩ := r
  dsimp only at he hsize ⊢
  subst he
  refine ⟨_, h.give hp _ _ _, rfl, fun hno hc j => ?_⟩
  rw [hsize hno]
  change Function.update s.nmalloc i (sub (s.nmalloc i) 1) j =
    (s.live.filter fun p => p.1 ≠ b).countP fun p => p.2 = j
  obtain ⟨l₁, l₂, hl⟩ := List.append_of_mem hp
  have hnd := h.nodup
  rw [hl, List.map_append, List.map_cons, List.nodup_middle, List.nodup_cons,
    ← List.map_append] at hnd
  have hfilter : s.live.filter (fun p => p.1 ≠ b) = l₁ ++ l₂ := by
    rw [hl, List.filter_append, List.filter_cons_of_neg (by simp), ← List.filter_append]
    refine List.filter_eq_self.mpr fun p hp => decide_eq_true fun he => hnd.1 ?_
    exact List.mem_map.mpr ⟨p, hp, he⟩
  have hlen := h.length_lt
  have hcount : ∀ j, s.live.countP (fun p => p.2 = j) =
      (l₁ ++ l₂).countP (fun p => p.2 = j) + if i = j then 1 else 0 := by
    intro j
    rw [hl, List.countP_append, List.countP_append, List.countP_cons]
    by_cases hij : i = j
    · rw [if_pos (decide_eq_true hij), if_pos hij]
      omega
    · rw [if_neg fun hb => hij (of_decide_eq_true hb), if_neg hij]
      omega
  have hle : s.live.countP (fun p => p.2 = i) ≤ s.live.length := List.countP_le_length
  rw [hfilter]
  by_cases hj : j = i
  · subst hj
    have hcj := hcount j
    rw [if_pos rfl] at hcj
    rw [Function.update_self, hc, State.sub_eq (by omega) (by omega)]
    omega
  · rw [Function.update_of_ne hj, hc, hcount, if_neg (Ne.symm hj), Nat.add_zero]

end Heap


namespace State

/-- Whether `realloc` leaves the block where it is. -/
def Fits (s : State) (cp nbytes : Nat) : Prop :=
  let i := s.word (cp - overhead + 4)
  nbytes ≤ s.usable (i + 3) ∧ (if i = 0 then 0 else s.usable (i + 2)) < nbytes

/-- Whether `realloc` calls `malloc`, for an outstanding block or a null pointer. -/
def Moves (s : State) (cp nbytes : Nat) : Prop := cp = 0 ∨ nbytes ≠ 0 ∧ ¬s.Fits cp nbytes

def Outstanding (s : State) (cp : Nat) : Prop := ∃ p ∈ s.live, cp = p.1 + overhead

theorem usable_eq (hp : s.Paged) (i : Nat) : s.usable (i + 3) = blockSize i - overhead := by
  unfold usable
  dsimp only
  by_cases hs : 2 ^ (i + 3) < s.pagesz
  · rw [if_pos hs, blockSize_small ((small_iff hp).mp hs)]
  · rw [if_neg hs, blockSize_large (Nat.le_of_not_lt fun h => hs ((small_iff hp).mpr h)), hp.1]
    unfold overhead pageSize
    omega

end State

namespace Heap

theorem realloc (h : Heap s base layout free) {cp : Nat} (hcp : cp = 0 ∨ s.Outstanding cp)
    (hs : s.Moves cp nbytes → s.Sound o nbytes) :
    ∃ r s' layout' free', s.realloc o cp nbytes = some (r, s') ∧ Heap s' base layout' free' ∧
      (r = 0 ∨ ∃ a i, r = a + overhead ∧ (a, i) ∈ s'.live ∧ nbytes + overhead ≤ blockSize i) ∧
      ((s.Moves cp nbytes → s.Whole o nbytes) → (cp ≠ 0 → nbytes = 0 → ¬s.Displaced cp) →
        s.Counted → s'.Counted) := by
  unfold State.realloc
  rcases hcp with rfl | ⟨⟨b, i⟩, hp, rfl⟩
  · rw [if_pos rfl]
    obtain ⟨r, s', layout', free', he, h', hr, hc⟩ := h.malloc (hs (.inl rfl))
    refine ⟨r, s', layout', free', he, h', ?_, fun hw _ => hc (hw (.inl rfl))⟩
    refine hr.imp And.left fun ⟨a, i, hra, hl, hn, _⟩ => ⟨a, i, hra, ?_, hn⟩
    rw [hl]
    exact List.mem_cons_self
  · obtain ⟨hmagic, hindex⟩ := h.header _ hp
    dsimp only at hmagic hindex ⊢
    have hb0 : b + overhead ≠ 0 := by
      unfold overhead
      omega
    have hpage : s.Paged := h.page.resolve_right fun ⟨_, _, hnone⟩ => by
      rw [hnone] at hp
      exact nomatch hp
    have h8 := eight_le_blockSize i
    rw [if_neg hb0]
    have hfits : s.Fits (b + overhead) nbytes ↔ nbytes ≤ s.usable (i + 3) ∧
        (if i = 0 then 0 else s.usable (i + 2)) < nbytes := by
      unfold State.Fits
      rw [Nat.add_sub_cancel, hindex]
    rw [Nat.add_sub_cancel, hindex, if_pos hmagic]
    by_cases hz : nbytes = 0
    · rw [if_pos hz]
      obtain ⟨free', h', -, hc⟩ := h.free_spec hp
      exact ⟨0, _, layout, free', rfl, h', .inl rfl, fun _ hd => hc (hd hb0 hz)⟩
    · rw [if_neg hz]
      by_cases hfit : nbytes ≤ s.usable (i + 3) ∧ (if i = 0 then 0 else s.usable (i + 2)) < nbytes
      · rw [if_pos hfit]
        have hle := hfit.1
        rw [State.usable_eq hpage] at hle
        refine ⟨b + overhead, s, layout, free, rfl, h, .inr ⟨b, i, rfl, hp, ?_⟩, fun _ _ hc => hc⟩
        unfold overhead at *
        omega
      · rw [if_neg hfit]
        have hmoves : s.Moves (b + overhead) nbytes := .inr ⟨hz, fun hf => hfit (hfits.mp hf)⟩
        obtain ⟨r, s', layout', free', he, h', hr, hc⟩ := h.malloc (hs hmoves)
        rw [he, Option.bind_eq_bind, Option.bind_some]
        have hc' := fun hw : s.Moves (b + overhead) nbytes → s.Whole o nbytes => hc (hw hmoves)
        dsimp only
        rcases hr with ⟨rfl, hl⟩ | ⟨a, j, rfl, hl, hn, hsaved⟩
        · rw [if_pos rfl]
          exact ⟨0, s', layout', free', rfl, h', .inl rfl, fun hw _ => hc' hw⟩
        · have ha0 : a + overhead ≠ 0 := by
            unfold overhead
            omega
          rw [if_neg ha0]
          have hp' : (b, i) ∈ s'.live := hl ▸ List.mem_cons_of_mem _ hp
          have hab : a ≠ b := by
            have hnd := h'.nodup
            rw [hl, List.map_cons, List.nodup_cons] at hnd
            exact fun he => hnd.1 (List.mem_map.mpr ⟨(b, i), hp, he.symm⟩)
          obtain ⟨free'', h'', hl'', hcf⟩ := h'.free_spec hp'
          refine ⟨a + overhead, _, layout', free'', rfl, h'', .inr ⟨a, j, rfl, ?_, hn⟩,
            fun hw _ hcnt => hcf (fun hd => ?_) (hc' hw hcnt)⟩
          · rw [hl'']
            exact List.mem_filter.mpr ⟨hl ▸ List.mem_cons_self, decide_eq_true hab⟩
          · have hlen := hd.2.1
            rw [show ((s'.freeblock _ _).saved) = [] from hsaved] at hlen
            exact nomatch hlen

end Heap

/-! ## Runs -/

inductive Act
  | malloc (o : Grants) (nbytes : Nat)
  | free (cp : Nat)
  | realloc (o : Grants) (cp nbytes : Nat)
  /-- The program writes into its blocks. -/
  | store (word : Nat → Nat)

namespace State

/-- The bytes of a block of bucket `i`. -/
def gross (s : State) (i : Nat) : Nat := 2 ^ (i + 3) + if s.pagebucket ≤ i then s.pagesz else 0

structure Initial (s : State) : Prop where
  page : s.pagesz = 0
  adjust : s.sbrkadjust = false
  nextf : ∀ i, s.nextf i = 0
  incr : ∀ i, s.blockIncr i = [0x100, 0x100, 0x100, 0x100, 0x80, 0x40, 0x20, 0x10].getD i 1
  nmalloc : ∀ i, s.nmalloc i = 0
  saved : s.saved = []
  room : 0 < s.brk ∧ s.brk < 2 ^ 32
  live : s.live = []

def Enabled (s : State) : Act → Prop
  | .malloc _ nbytes => nbytes < 2 ^ 32
  | .free cp => cp = 0 ∨ s.Outstanding cp
  | .realloc _ cp nbytes => nbytes < 2 ^ 32 ∧ (cp = 0 ∨ s.Outstanding cp)
  | .store word => ∀ a, (∀ p ∈ s.live, ¬(p.1 + overhead ≤ a ∧ a < p.1 + s.gross p.2)) →
      word a = s.word a

def step (s : State) : Act → Option State
  | .malloc o nbytes => (s.malloc o nbytes).map Prod.snd
  | .free cp => some (s.free cp)
  | .realloc o cp nbytes => (s.realloc o cp nbytes).map Prod.snd
  | .store word => some { s with word := word }

/-- The storage that a call asks for is granted, as far as the code checks it. -/
def Meets (s : State) : Act → Prop
  | .malloc o nbytes => s.Sound o nbytes
  | .realloc o cp nbytes => s.Moves cp nbytes → s.Sound o nbytes
  | _ => True

/-- The call counts its blocks right. -/
def Counts (s : State) : Act → Prop
  | .malloc o nbytes => s.Whole o nbytes
  | .free cp => cp ≠ 0 → ¬s.Displaced cp
  | .realloc o cp nbytes => (s.Moves cp nbytes → s.Whole o nbytes) ∧
      (cp ≠ 0 → nbytes = 0 → ¬s.Displaced cp)
  | .store _ => True

def Next (P : State → Act → Prop) (s s' : State) : Prop :=
  ∃ act, s.Enabled act ∧ P s act ∧ s.step act = some s'

theorem Initial.heap (h : s.Initial) : Heap s s.brk [] fun _ => [] where
  page := .inr ⟨h.page, fun _ => rfl, h.live⟩
  adjust := h.adjust
  incr := fun i => by
    rw [h.incr]
    by_cases hi : i < 8
    · interval_cases i <;> decide
    · rw [List.getD_eq_getElem?_getD, List.getElem?_eq_none (by simpa using hi)]
      exact Nat.one_pos
  linked := ⟨h.nextf, nofun⟩
  tiles := rfl
  pos := nofun
  room := h.room
  freed := nofun
  lives := by
    rw [h.live]
    exact nofun
  header := by
    rw [h.live]
    exact nofun
  apart := by
    rw [h.live]
    exact nofun
  nodup := by
    rw [h.live]
    exact List.nodup_nil

theorem gross_eq (hp : s.Paged) (i : Nat) : s.gross i = blockSize i := by
  unfold gross blockSize
  rw [hp.1, hp.2]

end State

namespace Heap

theorem store (h : Heap s base layout free) {word : Nat → Nat} (hen : s.Enabled (.store word)) :
    Heap { s with word := word } base layout free := by
  have hkeep : ∀ a j, (a, blockSize j) ∈ layout → word a = s.word a ∧
      word (a + 4) = s.word (a + 4) := by
    intro a j ha
    have hno : ∀ c, c = a ∨ c = a + 4 → ∀ p ∈ s.live,
        ¬(p.1 + overhead ≤ c ∧ c < p.1 + s.gross p.2) := by
      intro c hc p hp
      have hpage : s.Paged := h.page.resolve_right fun ⟨_, _, hnone⟩ => by
        rw [hnone] at hp
        exact nomatch hp
      rw [State.gross_eq hpage]
      unfold overhead
      by_cases hpa : a = p.1
      · omega
      · have := h.outside (h.lives p hp).1 ha hpa
        omega
    exact ⟨hen a (hno a (.inl rfl)), hen _ (hno _ (.inr rfl))⟩
  exact h.rewrite (fun i a ha => (hkeep a i (h.freed i a ha).1).1) fun p hp =>
    hkeep p.1 p.2 (h.lives p hp).1

theorem step (h : Heap s base layout free) {act : Act} (hen : s.Enabled act) (hm : s.Meets act)
    (hstep : s.step act = some s') :
    (∃ layout' free', Heap s' base layout' free') ∧ (s.Counts act → s.Counted → s'.Counted) := by
  cases act with
  | malloc o nbytes =>
    obtain ⟨r, t, layout', free', he, h', -, hc⟩ := h.malloc hm
    unfold State.step at hstep
    dsimp only at hstep
    rw [he] at hstep
    cases hstep
    exact ⟨⟨layout', free', h'⟩, hc⟩
  | free cp =>
    cases hstep
    rcases hen with rfl | ⟨⟨b, i⟩, hp, rfl⟩
    · exact ⟨⟨layout, free, h⟩, fun _ hc => hc⟩
    · obtain ⟨free', h', -, hc⟩ := h.free_spec hp
      exact ⟨⟨layout, free', h'⟩, fun hd => hc (hd (by unfold overhead; omega))⟩
  | realloc o cp nbytes =>
    obtain ⟨r, t, layout', free', he, h', -, hc⟩ := h.realloc hen.2 hm
    unfold State.step at hstep
    dsimp only at hstep
    rw [he] at hstep
    cases hstep
    exact ⟨⟨layout', free', h'⟩, fun hcs => hc hcs.1 hcs.2⟩
  | store word =>
    cases hstep
    exact ⟨⟨layout, free, h.store hen⟩, fun _ hc => hc⟩

end Heap


theorem heap_of_run {s₀ : State} {P : State → Act → Prop} (hP : ∀ s act, P s act → s.Meets act)
    (h₀ : s₀.Initial) (hrun : Relation.ReflTransGen (State.Next P) s₀ s) :
    ∃ layout free, Heap s s₀.brk layout free := by
  induction hrun with
  | refl => exact ⟨_, _, h₀.heap⟩
  | tail _ hnext ih =>
    obtain ⟨layout, free, h⟩ := ih
    obtain ⟨act, hen, hp, hstep⟩ := hnext
    exact (h.step hen (hP _ _ hp) hstep).1

theorem counted_of_run {s₀ : State} (h₀ : s₀.Initial) (hrun : Relation.ReflTransGen
    (State.Next fun s act => s.Meets act ∧ s.Counts act) s₀ s) : s.Counted := by
  induction hrun with
  | refl =>
    intro i
    rw [h₀.nmalloc, h₀.live]
    rfl
  | tail hrun hnext ih =>
    obtain ⟨layout, free, h⟩ := heap_of_run (fun _ _ hp => hp.1) h₀ hrun
    obtain ⟨act, hen, ⟨hm, hc⟩, hstep⟩ := hnext
    exact (h.step hen hm hstep).2 hc ih

/-- A block of bucket `i`, free or outstanding. -/
def State.Block (s : State) (free : Nat → List Nat) (a i : Nat) : Prop :=
  a ∈ free i ∨ (a, i) ∈ s.live

theorem Heap.block (h : Heap s base layout free) {a : Nat} (ha : s.Block free a i) :
    (a, s.gross i) ∈ layout ∧ i ≤ 27 := by
  have hp : s.Paged := h.page.resolve_right fun ⟨_, hnone, hnone'⟩ => by
    rcases ha with ha | ha
    · rw [hnone] at ha
      exact nomatch ha
    · rw [hnone'] at ha
      exact nomatch ha
  rw [State.gross_eq hp]
  exact ha.elim (h.freed i a) (h.lives (a, i))

/-- The bucket allocator. -/
theorem bucket_heap {s₀ : State} (h₀ : s₀.Initial) :
    (∀ s, Relation.ReflTransGen (State.Next State.Meets) s₀ s →
      (∃ free, Linked s.word s.nextf free ∧
        (∀ a i, s.Block free a i → s₀.brk ≤ a ∧ a + s.gross i ≤ s.brk) ∧
        (∀ a i b j, s.Block free a i → s.Block free b j → a ≠ b →
          a + s.gross i ≤ b ∨ b + s.gross j ≤ a) ∧
        (∀ p ∈ s.live, ∀ i, p.1 ∉ free i) ∧ (s.live.map Prod.fst).Nodup) ∧
      (s.pagesz = pageSize ∧ s.pagebucket = 9 ∨ s.live = [] ∧ ∀ i, s.nextf i = 0) ∧
      (∀ o n, s.Meets (.malloc o n) → ∃ r s', s.malloc o n = some (r, s') ∧
        (r = 0 ∧ s'.live = s.live ∨ ∃ a i, r = a + overhead ∧ s'.live = (a, i) :: s.live ∧
          n + overhead ≤ s'.gross i)) ∧
      (∀ o cp n, s.Outstanding cp → s.Meets (.realloc o cp n) →
        ∃ r s', s.realloc o cp n = some (r, s') ∧ (r = 0 ∨ ∃ a i, r = a + overhead ∧
          (a, i) ∈ s'.live ∧ n + overhead ≤ s'.gross i)) ∧
      ∀ i j, j < i → s.nextf i ≠ 0 → ∃ pieces,
        s.fracture (s.nextf i) i (s.gross j - overhead) =
          some ((s.carve (s.nextf i) i j).spill pieces) ∧
        Tiles Prod.fst (fun p => s.gross p.2) (s.nextf i) (s.nextf i + s.gross i)
          ((s.nextf i, j) :: pieces)) ∧
    ∀ s, Relation.ReflTransGen
      (State.Next fun s act => s.Meets act ∧ s.Counts act) s₀ s →
      ∀ i, s.nmalloc i = s.live.countP fun p => p.2 = i := by
  refine ⟨fun s hrun => ?_, fun s hrun => counted_of_run h₀ hrun⟩
  obtain ⟨layout, free, h⟩ := heap_of_run (fun _ _ hp => hp) h₀ hrun
  have hempty : ∀ i, free i = [] → s.nextf i = 0 := by
    intro i hi
    have hc := h.linked.chain i
    rw [hi] at hc
    exact hc
  refine ⟨⟨free, h.linked, fun a i ha => h.within (h.block ha).1, fun a i b j ha hb hne =>
    h.disjoint (h.block ha).1 (h.block hb).1 hne, h.apart, h.nodup⟩, ?_, fun o n hs => ?_,
    fun o cp n hcp hs => ?_, fun i j hij hi => ?_⟩
  · exact h.page.imp id fun ⟨_, hnone, hlive⟩ => ⟨hlive, fun i => hempty i (hnone i)⟩
  · obtain ⟨r, s', layout', free', he, h', hr, -⟩ := h.malloc hs
    refine ⟨r, s', he, hr.imp id fun ⟨a, i, hra, hl, hn, _⟩ => ⟨a, i, hra, hl, ?_⟩⟩
    have hp : s'.Paged := h'.page.resolve_right fun ⟨_, _, hnone⟩ => nomatch hl.symm.trans hnone
    rwa [State.gross_eq hp]
  · obtain ⟨r, s', layout', free', he, h', hr, -⟩ := h.realloc (.inr hcp) hs
    refine ⟨r, s', he, hr.imp id fun ⟨a, i, hra, hl, hn⟩ => ⟨a, i, hra, hl, ?_⟩⟩
    have hp : s'.Paged := h'.page.resolve_right fun ⟨_, _, hnone⟩ => by
      rw [hnone] at hl
      exact nomatch hl
    rwa [State.gross_eq hp]
  · have hp : s.Paged := h.page.resolve_right fun ⟨_, hnone, _⟩ => hi (hempty i (hnone i))
    have hi27 : i ≤ 27 := by
      cases hl : free i with
      | nil => exact absurd (hempty i hl) hi
      | cons op l => exact (h.freed i op (hl ▸ List.mem_cons_self)).2
    obtain ⟨pieces, he, ht⟩ := State.fracture_spec (s.nextf i) hp hij hi27
    have hg : s.gross = blockSize := funext (State.gross_eq hp)
    refine ⟨pieces, ?_, ?_⟩
    · rw [hg]
      exact he
    · rw [hg]
      exact ht

/-- A process that has not called `malloc`. -/
def State.start : State where
  pagesz := 0
  pagebucket := 0
  sbrkadjust := false
  nextf := fun _ => 0
  blockIncr := fun i => [0x100, 0x100, 0x100, 0x100, 0x80, 0x40, 0x20, 0x10].getD i 1
  nmalloc := fun _ => 0
  saved := []
  ovfl := 0
  word := fun _ => 0
  brk := 0x20000000
  live := []

theorem State.start_initial : State.start.Initial :=
  ⟨rfl, rfl, fun _ => rfl, fun _ => rfl, fun _ => rfl, rfl, by decide, rfl⟩

theorem bucket_heap_one : ∃ r s, State.start.malloc ⟨true, true, true⟩ 100 = some (r, s) ∧
    ∀ i, s.nmalloc i = s.live.countP fun p => p.2 = i := by
  have hs : State.start.Sound ⟨true, true, true⟩ 100 :=
    ⟨by decide, fun _ _ _ => ⟨rfl, fun _ => ⟨by decide, fun _ _ => by decide⟩⟩⟩
  have hw : State.start.Whole ⟨true, true, true⟩ 100 := fun _ _ _ hs => absurd hs.1 (by decide)
  obtain ⟨r, s, -, -, he, -⟩ := State.start_initial.heap.malloc hs
  refine ⟨r, s, he, (bucket_heap State.start_initial).2 s (.tail .refl
    ⟨.malloc ⟨true, true, true⟩ 100, (by decide : 100 < 2 ^ 32), ⟨hs, hw⟩, ?_⟩)⟩
  unfold State.step
  dsimp only
  rw [he]
  rfl

/-- A huge request is taken for a small one; after a first failure a size of more than a page is
taken for the smallest; a block that is split counts twice, its old bucket below zero. -/
theorem malloc_too_small :
    (State.start.malloc ⟨true, true, true⟩ 4294967294).map (fun p => (p.1, p.2.live)) =
        some (0x20001000, [(0x20000ff8, 0)]) ∧
      (State.start.malloc ⟨false, true, true⟩ 5000).bind (fun p =>
          (p.2.malloc ⟨true, true, true⟩ 5000).map fun q => (q.1, q.2.live)) =
        some (0x20001000, [(0x20000ff8, 0)]) ∧
      (State.start.malloc ⟨true, true, true⟩ 5000).bind (fun p =>
          ((p.2.free p.1).malloc ⟨true, false, true⟩ 100).map fun q =>
            (q.2.live, q.2.nmalloc 4, q.2.nmalloc 10)) =
        some ([(0x20000ff8, 4)], 2, 4294967295) := by
  decide +kernel

end Aix413.Bucket
