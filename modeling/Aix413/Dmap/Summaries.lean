import Aix413.Dmap.Masks
import Mathlib.Algebra.BigOperators.Group.Finset.Basic

namespace Aix413.Dmap

open Lib.MaxTree

variable {map map' : Nat → Word} {a n p nag d ind : Nat} {δ : Int} {l : Layout}

/-! ## Free fragments -/

/-- The number of free fragments among some of them. -/
def zeroCount (map : Nat → Word) (I : Finset Nat) : Nat := (I.filter fun i => pbit map i = false).card

theorem Takes.count (h : Takes map map' a n) {I : Finset Nat} (hI : Finset.Ico a (a + n) ⊆ I) :
    zeroCount map I = zeroCount map' I + n := by
  have hsplit : (I.filter fun i => pbit map i = false) =
      (I.filter fun i => pbit map' i = false) ∪ Finset.Ico a (a + n) := by
    ext i
    rw [Finset.mem_union, Finset.mem_filter, Finset.mem_filter, Finset.mem_Ico, h.bits]
    by_cases hin : a ≤ i ∧ i < a + n
    · have hi : i ∈ I := hI (Finset.mem_Ico.mpr hin)
      simp [hin, hi, h.free i hin.1 hin.2]
    · simp [hin]
  have hdis : Disjoint (I.filter fun i => pbit map' i = false) (Finset.Ico a (a + n)) := by
    rw [Finset.disjoint_right]
    intro i hi hf
    have hb := (Finset.mem_filter.mp hf).2
    rw [h.bits, decide_eq_true (Finset.mem_Ico.mp hi), Bool.or_true] at hb
    cases hb
  unfold zeroCount
  rw [hsplit, Finset.card_union_of_disjoint hdis, Nat.card_Ico, Nat.add_sub_cancel_left]

theorem Takes.count_far (h : Takes map map' a n) {I : Finset Nat}
    (hI : ∀ i ∈ I, i < a ∨ a + n ≤ i) : zeroCount map' I = zeroCount map I := by
  unfold zeroCount
  congr 1
  refine Finset.filter_congr fun i hi => ?_
  rw [h.far (hI i hi)]

/-- The fragments of an allocation group of a page. -/
def agFrags (l : Layout) (nag : Nat) : Finset Nat := Finset.Ico (nag * l.agsize) ((nag + 1) * l.agsize)

/-- Fragments are taken, or given back. -/
def Changes (map map' : Nat → Word) (a n : Nat) (δ : Int) : Prop :=
  Takes map map' a n ∧ δ = -n ∨ Takes map' map a n ∧ δ = n

theorem Changes.count (h : Changes map map' a n δ) {I : Finset Nat} (hI : Finset.Ico a (a + n) ⊆ I) :
    (zeroCount map' I : Int) = zeroCount map I + δ := by
  rcases h with ⟨ht, rfl⟩ | ⟨ht, rfl⟩
  · have hc := ht.count hI
    omega
  · have hc := ht.count hI
    omega

theorem Changes.count_far (h : Changes map map' a n δ) {I : Finset Nat}
    (hI : ∀ i ∈ I, i < a ∨ a + n ≤ i) : zeroCount map' I = zeroCount map I := by
  rcases h with ⟨ht, -⟩ | ⟨ht, -⟩
  · exact ht.count_far hI
  · exact (ht.count_far hI).symm

theorem Changes.same_word (h : Changes map map' a n δ) {k : Nat}
    (hk : 32 * k + 32 ≤ a ∨ a + n ≤ 32 * k) : map' k = map k := by
  rcases h with ⟨ht, -⟩ | ⟨ht, -⟩
  · exact ht.same_word hk
  · exact (ht.same_word hk).symm

/-! ## The summaries of a map -/

/-- What the leaf of a double word has to say. -/
def leafValue (l : Layout) (pg : Page) (d : Nat) : Nat :=
  if 64 * d < l.dbperpage then dwordMax l (pg.wmap (2 * d)) (pg.wmap (2 * d + 1)) else 0

/-- The counts are right, and the trees too apart from the leaves that are `stale`. -/
structure Sums (s : Vmdmap) (stale : Nat → Nat → Prop) : Prop where
  tree : ∀ p < s.npages, IsMaxTree (s.page p).tree 84
  leaf : ∀ p < s.npages, ∀ d < 256, ¬stale p d →
    (s.page p).tree (84 + d) = leafValue s.lay (s.page p) d
  agfree : ∀ p < s.npages, ∀ nag < s.lay.dbperpage / s.lay.agsize,
    (s.page p).agfree nag = zeroCount (s.page p).wmap (agFrags s.lay nag)
  freecnt : s.freecnt =
    ∑ p ∈ Finset.range s.npages, (zeroCount (s.page p).wmap (Finset.range s.lay.dbperpage) : Int)

theorem Layout.dbperpage_le (l : Layout) : l.dbperpage ≤ 16384 ∧ 64 ∣ l.dbperpage := by
  unfold dbperpage wbitsperpage
  cases l.version <;> decide

/-- A double word lies in one allocation group. -/
theorem Layout.same_ag (l : Layout) {i j : Nat} (h : i / 64 = j / 64) :
    i / l.agsize = j / l.agsize := by
  obtain ⟨k, hk⟩ := l.dwords
  rw [hk, ← Nat.div_div_eq_div_mul, ← Nat.div_div_eq_div_mul, h]

theorem mem_agFrags {i : Nat} : i ∈ agFrags l nag ↔ i / l.agsize = nag := by
  rw [agFrags, Finset.mem_Ico, Nat.div_eq_iff l.pos]
  have := l.pos
  constructor
  · rintro ⟨h1, h2⟩
    exact ⟨h1, by rw [Nat.succ_mul] at h2; omega⟩
  · rintro ⟨h1, h2⟩
    exact ⟨h1, by rw [Nat.succ_mul]; omega⟩

theorem sum_change {f f' : Nat → Int} {N : Nat} (hp : p < N) (hne : ∀ q, q ≠ p → f' q = f q)
    (hpe : f' p = f p + δ) : ∑ q ∈ Finset.range N, f' q = ∑ q ∈ Finset.range N, f q + δ := by
  have hmem := Finset.mem_range.mpr hp
  rw [← Finset.add_sum_erase _ _ hmem, ← Finset.add_sum_erase _ f hmem, hpe,
    Finset.sum_congr rfl fun q hq => hne q (Finset.ne_of_mem_erase hq)]
  ring

/-- Some fragments of an allocation group change hands, and the counts go along. -/
theorem Sums.change {s s' : Vmdmap} {stale : Nat → Nat → Prop} (h : Sums s stale)
    (nag : Nat) (hlay : s'.lay = s.lay) (hnp : s'.npages = s.npages) (hp : p < s.npages)
    (hpage : ∀ q, q ≠ p → s'.page q = s.page q) (htree : (s'.page p).tree = (s.page p).tree)
    (hc : Changes (s.page p).wmap (s'.page p).wmap a n δ) (hag : ∀ i, a ≤ i → i < a + n →
      i / s.lay.agsize = nag) (hin : a + n ≤ s.lay.dbperpage)
    (hagfree : (s'.page p).agfree =
      Function.update (s.page p).agfree nag ((s.page p).agfree nag + δ))
    (hfree : s'.freecnt = s.freecnt + δ) :
    Sums s' fun q d => stale q d ∨ q = p ∧ a < 64 * d + 64 ∧ 64 * d < a + n := by
  refine ⟨fun q hq => ?_, fun q hq d hd hn => ?_, fun q hq nag' hnag => ?_, ?_⟩
  · rw [hnp] at hq
    by_cases hqp : q = p
    · rw [hqp, htree]
      exact h.tree p hp
    · rw [hpage q hqp]
      exact h.tree q hq
  · rw [hnp] at hq
    rw [hlay]
    by_cases hqp : q = p
    · subst hqp
      have hfar : ¬(a < 64 * d + 64 ∧ 64 * d < a + n) := fun hx => hn (.inr ⟨rfl, hx⟩)
      rw [htree, h.leaf q hp d hd fun hx => hn (.inl hx), leafValue, leafValue,
        hc.same_word (k := 2 * d) (by omega), hc.same_word (k := 2 * d + 1) (by omega)]
    · rw [hpage q hqp]
      exact h.leaf q hq d hd fun hx => hn (.inl hx)
  · rw [hnp] at hq
    rw [hlay] at hnag ⊢
    by_cases hqp : q = p
    · subst hqp
      rw [hagfree]
      by_cases hnn : nag' = nag
      · subst hnn
        rw [Function.update_self, h.agfree q hp nag' hnag]
        refine (hc.count fun i hi => ?_).symm
        rw [Finset.mem_Ico] at hi
        exact mem_agFrags.mpr (hag i hi.1 hi.2)
      · rw [Function.update_of_ne hnn, h.agfree q hp nag' hnag]
        refine congrArg Nat.cast (hc.count_far fun i hi => ?_).symm
        have hia := mem_agFrags.mp hi
        by_contra hno
        exact hnn (hia.symm.trans (hag i (by omega) (by omega)))
    · rw [hpage q hqp]
      exact h.agfree q hq nag' hnag
  · rw [hfree, h.freecnt, hnp, hlay]
    symm
    refine sum_change hp (fun q hq => by rw [hpage q hq]) ?_
    refine hc.count fun i hi => ?_
    rw [Finset.mem_Ico] at hi
    exact Finset.mem_range.mpr (by omega)

theorem Sums.mono {s : Vmdmap} {stale stale' : Nat → Nat → Prop} (h : Sums s stale)
    (hs : ∀ p < s.npages, ∀ d < 256, stale p d → stale' p d) : Sums s stale' :=
  ⟨h.tree, fun p hp d hd hn => h.leaf p hp d hd fun hx => hn (hs p hp d hd hx), h.agfree, h.freecnt⟩

/-! ## v_updtree -/

theorem vUpdtree_spec {pg : Page} (ind : Nat) (ht : IsMaxTree pg.tree 84) (hd : ind / 2 < 256) :
    IsMaxTree (vUpdtree l pg ind).tree 84 ∧ ∀ d < 256, (vUpdtree l pg ind).tree (84 + d) =
      if d = ind / 2 then dwordMax l (pg.wmap (2 * (ind / 2))) (pg.wmap (2 * (ind / 2) + 1))
      else pg.tree (84 + d) := by
  have hcp : 4 * (leafind + ind / 2 * 2 / 8) + ind / 2 * 2 % 8 / 2 = 84 + ind / 2 := by
    unfold leafind
    omega
  have hw : ind / 2 * 2 = 2 * (ind / 2) := Nat.mul_comm _ _
  obtain ⟨h1, h2⟩ := climb_leaf (d := 3) (x := 84 + ind / 2) ht (Nat.le_add_right _ _)
    (by change 84 + ind / 2 < 340; omega)
    (m := dwordMax l (pg.wmap (2 * (ind / 2))) (pg.wmap (2 * (ind / 2) + 1)))
  have hrun : (vUpdtree l pg ind).tree = climb 4 pg.tree (84 + ind / 2)
      (dwordMax l (pg.wmap (2 * (ind / 2))) (pg.wmap (2 * (ind / 2) + 1))) := by
    unfold vUpdtree
    dsimp only
    rw [hcp, hw]
  rw [hrun]
  refine ⟨h1, fun d _ => (h2 (84 + d) (Nat.le_add_right _ _)).trans ?_⟩
  by_cases hdi : d = ind / 2
  · rw [if_pos hdi, hdi, Function.update_self]
  · rw [if_neg hdi, Function.update_of_ne (by omega)]

/-- `v_updtree` makes the leaf of a double word right. -/
theorem Sums.updtree {s s' : Vmdmap} {stale : Nat → Nat → Prop} (h : Sums s stale)
    (ind : Nat) (hp : p < s.npages) (hd : 64 * (ind / 2) < s.lay.dbperpage)
    (hs' : s' = s.setPage p (vUpdtree s.lay (s.page p) ind)) :
    Sums s' fun q d => stale q d ∧ ¬(q = p ∧ d = ind / 2) := by
  subst hs'
  obtain ⟨hle, -⟩ := s.lay.dbperpage_le
  obtain ⟨ht, hl⟩ := vUpdtree_spec (l := s.lay) ind (h.tree p hp) (by omega)
  have hself : (s.setPage p (vUpdtree s.lay (s.page p) ind)).page p =
      vUpdtree s.lay (s.page p) ind := Function.update_self _ _ _
  have hne : ∀ q, q ≠ p → (s.setPage p (vUpdtree s.lay (s.page p) ind)).page q = s.page q :=
    fun q hq => Function.update_of_ne hq _ _
  have hwmap : ∀ q, ((s.setPage p (vUpdtree s.lay (s.page p) ind)).page q).wmap = (s.page q).wmap := by
    intro q
    by_cases hq : q = p
    · rw [hq, hself]
      rfl
    · rw [hne q hq]
  have hagfree : ∀ q, ((s.setPage p (vUpdtree s.lay (s.page p) ind)).page q).agfree =
      (s.page q).agfree := by
    intro q
    by_cases hq : q = p
    · rw [hq, hself]
      rfl
    · rw [hne q hq]
  refine ⟨fun q hq => ?_, fun q hq d hd' hn => ?_, fun q hq nag hnag => ?_, ?_⟩
  · by_cases hqp : q = p
    · rw [hqp, hself]
      exact ht
    · rw [hne q hqp]
      exact h.tree q hq
  · have hlv : leafValue s.lay ((s.setPage p (vUpdtree s.lay (s.page p) ind)).page q) d =
        leafValue s.lay (s.page q) d := by
      unfold leafValue
      rw [hwmap]
    refine Eq.trans ?_ hlv.symm
    by_cases hqp : q = p
    · subst hqp
      rw [hself, hl d hd']
      by_cases hdi : d = ind / 2
      · rw [if_pos hdi, hdi, leafValue, if_pos hd]
      · rw [if_neg hdi]
        exact h.leaf q hp d hd' fun hx => hn ⟨hx, fun hy => hdi hy.2⟩
    · rw [hne q hqp]
      exact h.leaf q hq d hd' fun hx => hn ⟨hx, fun hy => hqp hy.1⟩
  · rw [hagfree, hwmap]
    exact h.agfree q hq nag hnag
  · refine h.freecnt.trans (Finset.sum_congr rfl fun q _ => ?_)
    rw [hwmap]
    rfl

end Aix413.Dmap
