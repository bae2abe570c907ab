import Aix413.Indirect.Blocks

namespace Aix413.Indirect

open Aix413.Lib.LinkedPool

variable {s s' : State} {l l' : List Nat} {p q pno n disk : Nat}

/-! ## Sizes -/

theorem bytes_eq (h : n < maxpages) : bytes n = n * 4096 := by
  unfold maxpages at h
  unfold bytes
  rw [BitVec.toInt_eq_toNat_of_lt, BitVec.toNat_ofNat, Nat.mod_eq_of_lt (by omega)]
  · push_cast
    ring
  · rw [BitVec.toNat_ofNat, Nat.mod_eq_of_lt (by omega)]
    omega

theorem not_noind_of_dblind (h : dblind s.size = true) : noind s.size = false := by
  unfold dblind noind at *
  have h := of_decide_eq_true h
  exact decide_eq_false (by omega)

theorem not_sglind_of_dblind (h : dblind s.size = true) : sglind s.size = false := by
  unfold dblind sglind at *
  have h := of_decide_eq_true h
  exact decide_eq_false (by omega)

theorem sglind_of_not_dblind (h : dblind s.size = false) : sglind s.size = true := by
  unfold dblind sglind at *
  have h := of_decide_eq_false h
  exact decide_eq_true (by omega)

theorem dblind_bytes (h : q + 1 < maxpages) : dblind (bytes (q + 1)) = decide (perblock ≤ q) := by
  rw [bytes_eq h, dblind, perblock, decide_eq_decide]
  omega

/-! ## v_findiblk -/

theorem find_noind (h : noind s.size = true) :
    s.vFindiblk q = if q < ndaddr then some (.inode q) else none := by
  unfold State.vFindiblk
  by_cases hq : q < ndaddr
  · rw [if_pos ⟨hq, .inl h⟩, if_pos hq]
  · rw [if_neg fun hn => hq hn.1, if_pos h, if_neg hq]

theorem find_single (h0 : noind s.size = false) (h1 : sglind s.size = true)
    (hn : s.number ≠ indirI) : s.vFindiblk q =
      if dblind (bytes (q + 1)) then none else some (.indirect s.vindirect (q % perblock)) := by
  unfold State.vFindiblk
  rw [if_neg, if_neg, if_pos h1]
  · rw [h0]
    exact Bool.false_ne_true
  · rintro ⟨-, h | h⟩
    · exact Bool.false_ne_true (h0.symm.trans h)
    · exact hn h

theorem find_double (h : dblind s.size = true) (hn : s.number ≠ indirI) : s.vFindiblk q =
    if s.vaddr s.vindirect (q / perblock) = 0 then none
    else some (.indirect (s.vaddr s.vindirect (q / perblock)) (q % perblock)) := by
  have h0 := not_noind_of_dblind h
  unfold State.vFindiblk
  rw [if_neg, if_neg, if_neg]
  · rw [not_sglind_of_dblind h]
    exact Bool.false_ne_true
  · rw [h0]
    exact Bool.false_ne_true
  · rintro ⟨-, hx | hx⟩
    · exact Bool.false_ne_true (h0.symm.trans hx)
    · exact hn hx

/-! ## Files -/

/-- A page of .indirect that is in use for something. -/
def State.Used (s : State) (l : List Nat) (p : Nat) : Prop := firstind ≤ p ∧ p < s.more ∧ p ∉ l

/-- The free list is `l`, and the blocks of the file are pages of .indirect that are in use, no
two of them the same. A file other than .indirect, whose own blocks are all there from the start. -/
structure Wf (s : State) (l : List Nat) : Prop where
  chain : Chain (fun p => (s.indptr p).toNat) s.free l
  range : ∀ p ∈ l, firstind ≤ p ∧ p < s.more
  more : firstind ≤ s.more ∧ s.more < 2 ^ 17
  number : s.number ≠ indirI
  direct : noind s.size = true → s.vindirect = 0 ∧ s.rindirect = 0
  root : noind s.size = false → s.Used l s.vindirect ∧ s.rindirect ≠ 0
  first : dblind s.size = true → s.vaddr s.vindirect 0 ≠ 0
  blocks : dblind s.size = true → ∀ k < 512, s.vaddr s.vindirect k ≠ 0 →
    s.Used l (s.vaddr s.vindirect k) ∧ s.vaddr s.vindirect k ≠ s.vindirect ∧
      ∀ j < 512, s.vaddr s.vindirect j = s.vaddr s.vindirect k → j = k

/-- No two of the first `N` pages have the same slot. -/
def Apart (s : State) (N : Nat) : Prop := ∀ q < N, ∀ q' < N, ∀ sl,
  s.vFindiblk q = some sl → s.vFindiblk q' = some sl → q = q'

/-- The first `N` pages, apart from `pno`, keep their pointers. -/
def Keeps (s s' : State) (pno N : Nat) : Prop := ∀ q < N, q ≠ pno → ∀ sl,
  s.vFindiblk q = some sl → ∃ sl', s'.vFindiblk q = some sl' ∧ s'.word sl' = s.word sl

theorem div_perblock_lt (h : q < maxpages) : q / perblock < 512 := by
  unfold maxpages at h
  unfold perblock
  omega

theorem page_eq {q' : Nat} (h1 : q / perblock = q' / perblock) (h2 : q % perblock = q' % perblock) :
    q = q' := by
  rw [← Nat.div_add_mod q perblock, ← Nat.div_add_mod q' perblock, h1, h2]

/-- With a double indirect block, or without indirect blocks. -/
theorem Wf.apart (h : Wf s l) (hs : dblind s.size = true ∨ noind s.size = true) :
    Apart s maxpages := by
  intro q hq q' hq' sl h1 h2
  rcases hs with hd | hn
  · rw [find_double hd h.number] at h1 h2
    split at h1
    · cases h1
    split at h2
    · cases h2
    rename_i hz hz'
    obtain rfl := Option.some.inj h1
    have heq := Slot.indirect.inj (Option.some.inj h2)
    obtain ⟨-, -, hinj⟩ := h.blocks hd _ (div_perblock_lt hq) hz
    exact page_eq (hinj _ (div_perblock_lt hq') heq.1).symm heq.2.symm
  · rw [find_noind hn] at h1 h2
    split at h1
    · split at h2
      · obtain rfl := Option.some.inj h1
        exact (Slot.inode.inj (Option.some.inj h2)).symm
      · cases h2
    · cases h1

/-- Without the last page of the largest file that is so for every file. -/
theorem Wf.apart_most (h : Wf s l) : Apart s (maxpages - 1) := by
  by_cases hs : dblind s.size = true ∨ noind s.size = true
  · intro q hq q' hq'
    exact h.apart hs q (by omega) q' (by omega)
  · obtain ⟨hd, hn⟩ := not_or.mp hs
    have hd := Bool.eq_false_iff.mpr hd
    have hn := Bool.eq_false_iff.mpr hn
    intro q hq q' hq' sl h1 h2
    rw [find_single hn (sglind_of_not_dblind hd) h.number, dblind_bytes (by omega)] at h1 h2
    split at h1
    · cases h1
    split at h2
    · cases h2
    rename_i hlt hlt'
    obtain rfl := Option.some.inj h1
    have heq := (Slot.indirect.inj (Option.some.inj h2)).2
    simp only [decide_eq_true_eq, not_le] at hlt hlt'
    rw [Nat.mod_eq_of_lt hlt, Nat.mod_eq_of_lt hlt'] at heq
    exact heq.symm

/-- In a file with one indirect block the last page gets the slot of another. -/
theorem Wf.not_apart (h : Wf s l) (hn : noind s.size = false) (hd : dblind s.size = false) :
    ¬Apart s maxpages := by
  intro hap
  have hfind : ∀ q, dblind (bytes (q + 1)) = false →
      s.vFindiblk q = some (.indirect s.vindirect (q % perblock)) := by
    intro q hq
    rw [find_single hn (sglind_of_not_dblind hd) h.number, hq]
    rfl
  have h1 := hfind 1023 (by decide)
  have h2 := hfind (maxpages - 1) (by decide)
  exact absurd (hap 1023 (by decide) (maxpages - 1) (by decide) _ h1 h2) (by decide)

/-! ## The free list -/

theorem msb_eq_false {w : Word} (h : w.toNat < 2 ^ 17) : w.msb = false := by
  rw [BitVec.msb_eq_decide, decide_eq_false]
  omega

theorem toNat_ofNat (h : n < 2 ^ 17) : (BitVec.ofNat 32 n).toNat = n := by
  rw [BitVec.toNat_ofNat, Nat.mod_eq_of_lt (by omega)]

theorem Wf.lt (h : Wf s l) (hp : p ∈ l) : p < 2 ^ 17 := by
  have h1 := (h.range p hp).2
  have h2 := h.more.2
  omega

/-- The next page of the free list, or its end. -/
theorem Wf.next_lt (h : Wf s l) (hp : p ∈ l) : (s.indptr p).toNat < 2 ^ 17 := by
  rcases h.chain.next_mem hp with hn | hn
  · have hn : (s.indptr p).toNat = 0 := hn
    omega
  · exact h.lt hn

theorem touchLoop_eq {indptr : Nat → Word} (hlt : ∀ p ∈ l, (indptr p).toNat < 2 ^ 17) :
    ∀ {n p : Nat}, Chain (fun p => (indptr p).toNat) p l →
      State.touchLoop indptr n p = some (decide (n ≤ l.length)) := by
  induction l with
  | nil =>
    rintro n p hc
    cases n with
    | zero => rfl
    | succ n =>
      rw [State.touchLoop, if_pos (show p = 0 from hc)]
      rfl
  | cons k l ih =>
    rintro n p ⟨rfl, hk0, hc⟩
    cases n with
    | zero => rfl
    | succ n =>
      have hmsb := msb_eq_false (hlt p List.mem_cons_self)
      rw [State.touchLoop, if_neg hk0, hmsb, if_neg Bool.false_ne_true,
        ih (fun q hq => hlt q (List.mem_cons_of_mem p hq)) hc, List.length_cons]
      simp only [Nat.add_le_add_iff_right]

/-- The same file, and another free list. -/
def Refilled (s t : State) : Prop :=
  ∃ free more indptr, t = { s with free := free, more := more, indptr := indptr }

theorem Wf.moreiblks (h : Wf s l) (hm : s.more < maxvpn) : s.vMoreiblks.2 = 0 ∧
    Refilled s s.vMoreiblks.1 ∧ Wf s.vMoreiblks.1 (List.range' s.more perblock ++ l) := by
  have hpos : s.more ≠ 0 := by
    have h1 := h.more.1
    unfold firstind at h1
    omega
  have hmore : s.more + perblock < 2 ^ 17 := by
    unfold maxvpn at hm
    unfold perblock
    omega
  unfold State.vMoreiblks
  rw [if_neg (Nat.not_le.mpr hm)]
  refine ⟨rfl, ⟨_, _, _, rfl⟩, ?_⟩
  have hfree : s.free < 2 ^ 17 := by
    have hc := h.chain.head_eq
    cases l with
    | nil =>
      have hc : s.free = 0 := hc
      omega
    | cons k l =>
      have hc : s.free = k := hc
      rw [hc]
      exact h.lt List.mem_cons_self
  have hold : ∀ p ∈ l, ¬(s.more ≤ p ∧ p < s.more + perblock - 1) ∧ p ≠ s.more + perblock - 1 := by
    intro p hp
    have hlt := (h.range p hp).2
    unfold perblock
    constructor <;> omega
  have hused : ∀ {p}, s.Used l p → firstind ≤ p ∧ p < s.more + perblock ∧
      p ∉ List.range' s.more perblock ++ l := by
    rintro p ⟨h1, h2, h3⟩
    refine ⟨h1, by omega, fun hm => ?_⟩
    rcases List.mem_append.mp hm with hm | hm
    · have hle := (List.mem_range'_1.mp hm).1
      omega
    · exact h3 hm
  refine ⟨?_, fun p hp => ?_, ⟨?_, hmore⟩, h.number, h.direct, fun hn => ?_, h.first,
    fun hd k hk hz => ?_⟩
  · change Chain _ s.more _
    refine chain_row hpos (by decide) (fun j hj hlt => ?_) ?_
    · dsimp only
      rw [if_pos ⟨hj, by omega⟩, toNat_ofNat (by omega)]
    · dsimp only
      rw [if_neg (by omega), if_pos rfl, toNat_ofNat hfree]
      refine h.chain.congr fun p hp => ?_
      rw [if_neg (hold p hp).1, if_neg (hold p hp).2]
  · change firstind ≤ p ∧ p < s.more + perblock
    rcases List.mem_append.mp hp with hp | hp
    · have hr := List.mem_range'_1.mp hp
      exact ⟨h.more.1.trans hr.1, hr.2⟩
    · have hr := h.range p hp
      exact ⟨hr.1, by omega⟩
  · exact h.more.1.trans (Nat.le_add_right _ _)
  · exact ⟨hused (h.root hn).1, (h.root hn).2⟩
  · obtain ⟨h1, h2⟩ := h.blocks hd k hk hz
    exact ⟨hused h1, h2⟩

/-- The free list afterwards. -/
def Supply (s : State) (l l₁ : List Nat) : Prop :=
  l₁ = l ∨ l₁ = List.range' s.more perblock ++ l

theorem Wf.touchptrs (h : Wf s l) (hn : n ≤ 3) {fuel : Nat} (hf : 2 ≤ fuel) :
    ∃ t rc, s.touchptrs n fuel = some (t, rc) ∧ (rc ≠ 0 ∧ t = s ∨
      rc = 0 ∧ Refilled s t ∧ ∃ l₁, Supply s l l₁ ∧ Wf t l₁ ∧ n ≤ l₁.length) := by
  obtain ⟨m, rfl⟩ := Nat.exists_eq_add_of_le' hf
  have hloop : ∀ {t : State} {l₁ : List Nat}, Wf t l₁ →
      State.touchLoop t.indptr n t.free = some (decide (n ≤ l₁.length)) :=
    fun ht => touchLoop_eq (fun p hp => ht.next_lt hp) ht.chain
  rw [State.touchptrs, hloop h]
  by_cases hlen : n ≤ l.length
  · rw [decide_eq_true hlen]
    exact ⟨s, 0, rfl, .inr ⟨rfl, ⟨_, _, _, rfl⟩, l, .inl rfl, h, hlen⟩⟩
  · rw [decide_eq_false hlen]
    by_cases hm : s.more < maxvpn
    · obtain ⟨hrc, hre, hwf⟩ := h.moreiblks hm
      have hlen' : n ≤ (List.range' s.more perblock ++ l).length := by
        rw [List.length_append, List.length_range']
        unfold perblock
        omega
      cases hmore : s.vMoreiblks with
      | mk t rc =>
        rw [hmore] at hrc hre hwf
        dsimp only at hrc hre hwf ⊢
        subst hrc
        rw [if_neg fun h => h rfl, State.touchptrs, hloop hwf, decide_eq_true hlen']
        exact ⟨t, 0, rfl, .inr ⟨rfl, hre, _, .inr rfl, hwf, hlen'⟩⟩
    · have hfull : s.vMoreiblks = (s, enomem) := if_pos (Nat.not_lt.mp hm)
      rw [hfull]
      exact ⟨s, enomem, rfl, .inl ⟨by decide, rfl⟩⟩

end Aix413.Indirect
