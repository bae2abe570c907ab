import Aix413.Dmap.Searching
import Aix413.Logredo.BitMaps

namespace Aix413.Logredo.BitMaps

open Aix413.Dmap Aix413.Lib.MaxTree Aix413.Lib.BitRuns

variable {map : Nat → Word} {s : Vmdmap} {pg : Page} {l : Layout} {a b n m w p k : Nat}

/-! ## The leaf of a double word is that of the kernel -/

set_option maxRecDepth 4000 in
theorem idmaptab_eq : ∀ k < 256, idmaptab k = dmaptab k := by decide +kernel

theorem charLoop_eq (maxc : Nat) (cs : List (BitVec 8)) :
    ∀ m, charLoop maxc m cs = charMax maxc m cs := by
  induction cs with
  | nil => exact fun _ => rfl
  | cons c cs ih =>
    intro m
    rw [charLoop, charMax, idmaptab_eq c.toNat c.isLt, ih]

theorem and_uzbit (word : Word) (hk : k < 32) :
    word &&& uzbit >>> k ≠ 0 ↔ word.getMsbD k = true := by
  rw [Ne, and_eq_zero_iff]
  constructor
  · intro h
    by_contra hz
    refine h fun j hj hm => ?_
    rw [uzbit_shift_bit hk hj] at hm
    obtain rfl := of_decide_eq_true hm
    exact Bool.eq_false_iff.mpr hz
  · intro h hall
    have hz := hall k hk (by rw [uzbit_shift_bit hk hk]; exact decide_eq_true rfl)
    rw [h] at hz
    cases hz

theorem stringLoop_spec {b : Nat → Bool} (word : Word) {base : Nat}
    (hb : ∀ k < 32, b (base + k) = word.getMsbD k) : ∀ {n bit : Nat} {r : Nat × Nat},
    bit + n = 32 → Scanned b (base + bit) r.1 r.2 →
    Scanned b (base + 32) (stringLoop word n bit r).1 (stringLoop word n bit r).2 := by
  intro n
  induction n with
  | zero =>
    rintro bit r hn h
    obtain rfl : bit = 32 := by omega
    exact h
  | succ n ih =>
    rintro bit ⟨longest, m⟩ hn h
    rw [stringLoop]
    by_cases hw : word.getMsbD bit = true
    · rw [if_pos ((and_uzbit word (by omega)).mpr hw)]
      exact ih (by omega) (h.one ((hb bit (by omega)).trans hw))
    · rw [if_neg fun hx => hw ((and_uzbit word (by omega)).mp hx)]
      exact ih (by omega) (h.zero ((hb bit (by omega)).trans (Bool.eq_false_iff.mpr hw)))

theorem maxstring_eq (w₁ w₂ : Word) : maxstring w₁ w₂ = vMaxstring w₁ w₂ := by
  have h0 : Scanned (dbit w₁ w₂) (0 + 0) 0 0 :=
    ⟨⟨le_rfl, run_zero _ _⟩, fun i hi => by omega, Longest.empty le_rfl⟩
  have h1 := stringLoop_spec w₁ (fun k hk => by rw [Nat.zero_add, dbit_first w₁ w₂ hk])
    (n := 32) (r := (0, 0)) rfl h0
  have h2 := stringLoop_spec w₂ (fun k _ => dbit_second w₁ w₂ k) (n := 32) rfl h1
  exact h2.most.unique (vMaxstring_spec w₁ w₂)

/-- `updtree` and the kernel's `v_updtree` do the same. -/
theorem updtree_eq (l : Layout) (pg : Page) (ind : Nat) : updtree l pg ind = vUpdtree l pg ind := by
  unfold updtree vUpdtree dwordMax
  cases l.version with
  | v3 =>
    dsimp only
    rw [charLoop_eq]
  | v4 =>
    dsimp only
    rw [maxstring_eq]

/-! ## The counts -/

theorem zeroCount_split {c : Nat} (map : Nat → Word) (h1 : a ≤ b) (h2 : b ≤ c) :
    zeroCount map (Finset.Ico a c) = zeroCount map (Finset.Ico a b) +
      zeroCount map (Finset.Ico b c) := by
  have hdis : Disjoint ((Finset.Ico a b).filter fun i => pbit map i = false)
      ((Finset.Ico b c).filter fun i => pbit map i = false) :=
    Finset.disjoint_filter_filter (Finset.Ico_disjoint_Ico_consecutive a b c)
  unfold zeroCount
  rw [← Finset.Ico_union_Ico_eq_Ico h1 h2, Finset.filter_union, Finset.card_union_of_disjoint hdis]

theorem zeroCount_one (map : Nat → Word) (a : Nat) :
    zeroCount map (Finset.Ico a (a + 1)) = if pbit map a = false then 1 else 0 := by
  unfold zeroCount
  rw [Nat.Ico_succ_singleton, Finset.filter_singleton]
  split <;> rfl

theorem bitLoop_spec (map : Nat → Word) (w : Nat) : ∀ {n : Nat} (bit free : Nat), bit + n ≤ 32 →
    bitLoop (map w) n bit free =
      free + zeroCount map (Finset.Ico (32 * w + bit) (32 * w + bit + n)) := by
  intro n
  induction n with
  | zero =>
    intro bit free _
    rw [Nat.add_zero, Finset.Ico_self]
    rfl
  | succ n ih =>
    intro bit free hn
    have hbit := pbit_word map w (show bit < 32 by omega)
    have hsplit := zeroCount_split map (a := 32 * w + bit) (b := 32 * w + bit + 1)
      (c := 32 * w + bit + (n + 1)) (by omega) (by omega)
    rw [zeroCount_one, hbit] at hsplit
    rw [bitLoop, ih _ _ (by omega), hsplit, ← Nat.add_assoc (32 * w),
      show 32 * w + bit + (n + 1) = 32 * w + bit + 1 + n by omega]
    have hz : uzbit >>> bit &&& map w = 0 ↔ (map w).getMsbD bit = false := by
      rw [BitVec.and_comm, ← not_iff_not, Bool.not_eq_false]
      exact and_uzbit (map w) (by omega)
    by_cases hf : (map w).getMsbD bit = false
    · rw [if_pos (hz.mpr hf), if_pos hf]
      omega
    · rw [if_neg (mt hz.mp hf), if_neg hf]
      omega

theorem wordLoop_spec (map : Nat → Word) : ∀ {n w : Nat} (free : Nat),
    wordLoop map n w free = free + zeroCount map (Finset.Ico (32 * w) (32 * (w + n))) := by
  intro n
  induction n with
  | zero =>
    intro w free
    rw [Nat.add_zero, Finset.Ico_self]
    rfl
  | succ n ih =>
    intro w free
    have hword := bitLoop_spec map w (n := 32) 0 free le_rfl
    have hsplit := zeroCount_split map (a := 32 * w) (b := 32 * (w + 1)) (c := 32 * (w + (n + 1)))
      (by omega) (by omega)
    rw [wordLoop, ih, hword, hsplit, show w + 1 + n = w + (n + 1) by omega, Nat.add_zero,
      show 32 * w + 32 = 32 * (w + 1) by omega]
    omega

theorem agLoop_spec (map : Nat → Word) {wperag ag : Nat} : ∀ {n : Nat} {fw : Nat}
    (r : (Nat → Int) × Int), fw = ag * wperag →
    agLoop map wperag n ag fw r =
      (fun k => if ag ≤ k ∧ k < ag + n then
          (zeroCount map (Finset.Ico (32 * (k * wperag)) (32 * ((k + 1) * wperag))) : Int)
        else r.1 k,
        r.2 + zeroCount map (Finset.Ico (32 * (ag * wperag)) (32 * ((ag + n) * wperag)))) := by
  intro n
  induction n generalizing ag with
  | zero =>
    rintro fw ⟨agfree, freecnt⟩ -
    rw [Nat.add_zero, Finset.Ico_self]
    refine Prod.ext (funext fun k => ?_) (Int.add_zero _).symm
    exact (if_neg (by omega)).symm
  | succ n ih =>
    rintro fw ⟨agfree, freecnt⟩ rfl
    have hfw : ag * wperag + wperag = (ag + 1) * wperag := (Nat.succ_mul _ _).symm
    have hgroup : wordLoop map wperag (ag * wperag) 0 =
        zeroCount map (Finset.Ico (32 * (ag * wperag)) (32 * ((ag + 1) * wperag))) := by
      rw [wordLoop_spec, Nat.zero_add, hfw]
    have hmono : (ag + 1) * wperag ≤ (ag + 1 + n) * wperag := Nat.mul_le_mul_right _ (by omega)
    have hsplit := zeroCount_split map (a := 32 * (ag * wperag)) (b := 32 * ((ag + 1) * wperag))
      (c := 32 * ((ag + 1 + n) * wperag)) (by omega) (by omega)
    rw [agLoop]
    dsimp only
    rw [ih _ hfw, hgroup, show ag + (n + 1) = ag + 1 + n by omega, hsplit]
    refine Prod.ext (funext fun k => ?_) (by push_cast; ring)
    by_cases hk : k = ag
    · subst hk
      dsimp only
      rw [if_neg (by omega), if_pos (by omega), Function.update_self]
    · dsimp only
      rw [Function.update_of_ne hk]
      exact if_congr (by omega) rfl rfl

/-! ## updatepage -/

/-- The loop makes the leaves of some double words right and leaves the maps and counts alone. -/
theorem dwordLoop_spec (l : Layout) : ∀ {n d : Nat} (pg : Page), IsMaxTree pg.tree 84 →
    d + n ≤ 256 → ∃ tree, dwordLoop l n (2 * d) pg = { pg with tree := tree } ∧ IsMaxTree tree 84 ∧
      ∀ k < 256, tree (84 + k) = if d ≤ k ∧ k < d + n then
        dwordMax l (pg.wmap (2 * k)) (pg.wmap (2 * k + 1)) else pg.tree (84 + k) := by
  intro n
  induction n with
  | zero =>
    intro d pg ht _
    exact ⟨pg.tree, rfl, ht, fun k _ => (if_neg (by omega)).symm⟩
  | succ n ih =>
    intro d pg ht hn
    obtain ⟨h1, h2⟩ := vUpdtree_spec (l := l) (2 * d) ht (by omega)
    rw [Nat.mul_div_cancel_left d (by decide)] at h2
    obtain ⟨tree, hrun, htree, hleaf⟩ := ih (d := d + 1) (vUpdtree l pg (2 * d)) h1 (by omega)
    refine ⟨tree, ?_, htree, fun k hk => (hleaf k hk).trans ?_⟩
    · rw [dwordLoop, updtree_eq, show 2 * d + 2 = 2 * (d + 1) by omega, hrun]
      rfl
    · rw [h2 k hk]
      by_cases hkd : k = d
      · subst hkd
        rw [if_neg (by omega), if_pos rfl, if_pos (by omega)]
      · rw [if_neg hkd]
        exact if_congr (by omega) rfl rfl

/-- The summaries of a page. -/
structure PageSums (l : Layout) (pg : Page) : Prop where
  tree : IsMaxTree pg.tree 84
  leaf : ∀ d < 256, pg.tree (84 + d) = leafValue l pg d
  agfree : ∀ nag < l.dbperpage / l.agsize, pg.agfree nag = zeroCount pg.wmap (agFrags l nag)

/-- A page after `updatepage`. -/
structure Updated (l : Layout) (pg pg' : Page) : Prop where
  sums : PageSums l pg'
  pmap : pg'.pmap = pg.pmap
  wmap : ∀ w < l.dbperpage / 32, pg'.wmap w = pg.pmap w
  agcnt : pg'.agcnt = pg.agcnt

/-- A map after `updatepage`. -/
structure PageStep (s s' : Vmdmap) (p : Nat) : Prop where
  lay : s'.lay = s.lay
  mapsize : s'.mapsize = s.mapsize
  totalags : s'.totalags = s.totalags
  npages : s'.npages = s.npages
  page : Updated s.lay (s.page p) (s'.page p)
  others : ∀ q, q ≠ p → s'.page q = s.page q
  freecnt : s'.freecnt =
    s.freecnt + zeroCount (s'.page p).wmap (Finset.range s.lay.dbperpage)

theorem isMaxTree_zero {t : Nat → Nat} (h : ∀ k < 340, t k = 0) : IsMaxTree t 84 := by
  intro b hb
  rw [h b (by omega), wordMax, h (4 * (b + 1)) (by omega), h (4 * (b + 1) + 1) (by omega),
    h (4 * (b + 1) + 2) (by omega), h (4 * (b + 1) + 3) (by omega)]
  rfl

theorem groupWords (l : Layout) : 32 * (l.agsize / 32) = l.agsize := by
  have h := l.dwords
  omega

theorem updatepage_spec (s : Vmdmap) (p : Nat) : PageStep s (updatepage s p) p := by
  obtain ⟨hle, h64⟩ := s.lay.dbperpage_le
  have hwords := groupWords s.lay
  have hgroup : ∀ k, 32 * (k * (s.lay.agsize / 32)) = k * s.lay.agsize := by
    intro k
    rw [Nat.mul_left_comm, hwords]
  have hall := Vmdmap.agsize_mul s.lay
  unfold updatepage
  dsimp only
  rw [agLoop_spec _ _ (Nat.zero_mul _).symm]
  dsimp only
  simp only [hgroup, Nat.zero_mul, Nat.zero_add, hall, Nat.zero_le, true_and]
  generalize hw : (fun w => if w < wperpage s then (s.page p).pmap w else (s.page p).wmap w) = wmap
  generalize hag : (fun k => if k < s.lay.dbperpage / s.lay.agsize then
    (zeroCount wmap (Finset.Ico (k * s.lay.agsize) ((k + 1) * s.lay.agsize)) : Int)
    else (s.page p).agfree k) = agfree
  generalize ht : (fun k => if k < 4 * treesize then 0 else (s.page p).tree k) = zeros
  have hzero : ∀ k < 340, zeros k = 0 := by
    intro k hk
    rw [← ht]
    exact if_pos hk
  obtain ⟨tree, hrun, htree, hleaf⟩ := dwordLoop_spec s.lay (d := 0) (n := wperpage s / 2)
    { s.page p with wmap := wmap, agfree := agfree, tree := zeros } (isMaxTree_zero hzero)
    (by unfold wperpage; omega)
  rw [Nat.mul_zero] at hrun
  rw [hrun]
  have hself : ∀ {t : Vmdmap} {pg : Page}, (t.setPage p pg).page p = pg :=
    fun {_ _} => Function.update_self _ _ _
  refine ⟨rfl, rfl, rfl, rfl, ?_, fun q hq => Function.update_of_ne hq _ _, ?_⟩
  · rw [hself]
    refine ⟨⟨htree, fun d hd => (hleaf d hd).trans ?_, fun nag hnag => ?_⟩, rfl,
      fun w hlt => ?_, rfl⟩
    · unfold leafValue wperpage
      by_cases hlt : 64 * d < s.lay.dbperpage
      · rw [if_pos hlt, if_pos (by omega)]
      · rw [if_neg hlt, if_neg (by omega)]
        exact hzero _ (by omega)
    · rw [← hag]
      exact if_pos hnag
    · rw [← hw]
      exact if_pos hlt
  · rw [hself, Finset.range_eq_Ico]
    rfl

/-- A map after the loop of `writemap` over its first `n` pages. -/
structure Rewritten (s s' : Vmdmap) (n : Nat) : Prop where
  lay : s'.lay = s.lay
  mapsize : s'.mapsize = s.mapsize
  totalags : s'.totalags = s.totalags
  npages : s'.npages = s.npages
  page : ∀ p < n, Updated s.lay (s.page p) (s'.page p)
  others : ∀ q, n ≤ q → s'.page q = s.page q
  freecnt : s'.freecnt = s.freecnt +
    ∑ p ∈ Finset.range n, (zeroCount (s'.page p).wmap (Finset.range s.lay.dbperpage) : Int)

theorem updatepage_loop (s : Vmdmap) (n : Nat) :
    Rewritten s ((List.range n).foldl updatepage s) n := by
  induction n with
  | zero =>
    exact ⟨rfl, rfl, rfl, rfl, fun p hp => absurd hp (Nat.not_lt_zero p), fun _ _ => rfl,
      (Int.add_zero _).symm⟩
  | succ n ih =>
    rw [List.range_succ, List.foldl_append]
    change Rewritten s (updatepage _ n) (n + 1)
    generalize (List.range n).foldl updatepage s = t at ih
    have hu := updatepage_spec t n
    have hsame : ∀ p < n, (updatepage t n).page p = t.page p := fun p hp => hu.others p (by omega)
    refine ⟨hu.lay.trans ih.lay, hu.mapsize.trans ih.mapsize, hu.totalags.trans ih.totalags,
      hu.npages.trans ih.npages, fun p hp => ?_, fun q hq => ?_, ?_⟩
    · by_cases hpn : p = n
      · subst hpn
        have hpage := hu.page
        rw [ih.lay, ih.others p le_rfl] at hpage
        exact hpage
      · rw [hsame p (by omega)]
        exact ih.page p (by omega)
    · exact (hu.others q (by omega)).trans (ih.others q (by omega))
    · have hsum : ∑ p ∈ Finset.range n,
          (zeroCount ((updatepage t n).page p).wmap (Finset.range s.lay.dbperpage) : Int) =
          ∑ p ∈ Finset.range n, (zeroCount (t.page p).wmap (Finset.range s.lay.dbperpage) : Int) :=
        Finset.sum_congr rfl fun p hp => by rw [hsame p (Finset.mem_range.mp hp)]
      rw [hu.freecnt, ih.freecnt, Finset.sum_range_succ, hsum, ih.lay]
      ring

/-- The summaries are those that the allocator relies on. -/
theorem Rewritten.sums {s' : Vmdmap} (h : Rewritten s s' s.npages) (hf : s.freecnt = 0) :
    Sums s' fun _ _ => False := by
  have hpage := h.page
  have hnp := h.npages
  refine ⟨fun p hp => (hpage p (hnp ▸ hp)).sums.tree, fun p hp d hd _ => ?_,
    fun p hp nag hnag => ?_, ?_⟩
  · rw [h.lay]
    exact (hpage p (hnp ▸ hp)).sums.leaf d hd
  · rw [h.lay] at hnag ⊢
    exact (hpage p (hnp ▸ hp)).sums.agfree nag hnag
  · rw [h.freecnt, hf, Int.zero_add, h.lay, hnp]

end Aix413.Logredo.BitMaps
