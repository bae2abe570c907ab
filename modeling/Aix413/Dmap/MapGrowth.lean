import Aix413.Dmap.OneOwner

namespace Aix413.Dmap

open Lib.BitRuns Lib.MaxTree

/-! ## vm_growmapx -/

inductive MapType
  | fsdiskmap
  | inodemap
  | pgdiskmap
deriving DecidableEq

/-- `MAXMAPSIZE`. -/
def maxmapsize : Nat := 16 * 2 ^ 20

/-- `EINVAL` as a return code. -/
def growEinval : Nat := 22

/-- What `vm_growmapx` leaves: the map, the calls of `vcs_extendag` (count and
first fragment) that it made, and its return code. -/
structure Growth where
  map : Vmdmap
  calls : List (Nat × Nat)
  rc : Nat

namespace Vmdmap

variable (s : Vmdmap)

/-- Page `k` of the map is initialized, with all its bits allocated. -/
def growPage (k : Nat) : Vmdmap := { s.setPage k freshPage with npages := k + 1 }

/-- The loop over the additional pages. `pin` is what `pin` returns for a page
of a paging space map. -/
def makePages (type : MapType) (pin : Nat → Nat) : Nat → Nat → Vmdmap → Vmdmap × Nat
  | 0, _, s => (s, 0)
  | n + 1, k, s =>
    let s := s.growPage k
    if type = .pgdiskmap ∧ pin k ≠ 0 then (s, pin k) else makePages type pin n (k + 1) s

/-- The calls of `vcs_extendag` in a row. -/
def extendAll (calls : List (Nat × Nat)) : Vmdmap :=
  calls.foldl (fun s c => s.vExtendag c.1 c.2) s

end Vmdmap

/-- The calls of the last loop, for `nleft` fragments from `nextblk` on. -/
def growLoop (l : Layout) (type : MapType) (minsize : Int) : Nat → Nat → Nat → List (Nat × Nat)
  | 0, _, _ => []
  | n + 1, nleft, nextblk =>
    if nleft = 0 then []
    else if type = .fsdiskmap ∧ (nleft : Int) < minsize then []
    else
      let nb := min l.agsize nleft
      (nb, nextblk) :: growLoop l type minsize n (nleft - nb) (nextblk + nb)

/-- `vm_growmapx`, after the additional pages: `none` for the failing assert.
`nag` is the number of groups of the last page, `mapsize` the old size. -/
def growGroups (s : Vmdmap) (type : MapType) (minsize : Int) (mapsize newsize lastp : Nat) :
    Option Growth :=
  let nleft := newsize - mapsize
  let nextblk := mapsize
  let nag := (s.page lastp).agcnt
  let agsize := s.lay.agsize
  let blkshere := nextblk - lastp * s.lay.dbperpage
  let nb : Int := nag * agsize - blkshere
  if nb < 0 then
    if type ≠ .fsdiskmap then none
    else
      let nleft := nleft + (-nb).toNat
      let nextblk := nextblk - (-nb).toNat
      let n := min agsize nleft
      if (n : Int) < minsize then some ⟨s, [], 0⟩
      else
        let calls := (n, nextblk) :: growLoop s.lay type minsize nleft (nleft - n) (nextblk + n)
        some ⟨({ s with mapsize := s.mapsize - (-nb).toNat }).extendAll calls, calls, 0⟩
  else
    let n := min nb.toNat nleft
    let rest := growLoop s.lay type minsize nleft (nleft - n) (nextblk + n)
    let calls := if nb = 0 then rest else (n, nextblk) :: rest
    some ⟨s.extendAll calls, calls, 0⟩

/-- `vm_growmapx`. -/
def vmGrowmapx (s : Vmdmap) (newsize : Nat) (type : MapType) (minsize : Int) (pin : Nat → Nat) :
    Option Growth :=
  if newsize < s.mapsize ∨ maxmapsize < newsize then some ⟨s, [], growEinval⟩
  else
    let lastp := (s.mapsize - 1) / s.lay.dbperpage
    let newlastp := (newsize - 1) / s.lay.dbperpage
    match s.makePages type pin (newlastp - lastp) (lastp + 1) with
    | (s', rc) =>
      if rc ≠ 0 then some ⟨s', [], rc⟩
      else
        let s' := if type = .pgdiskmap then { s' with mapsize := newsize } else s'
        growGroups s' type minsize s.mapsize newsize lastp

namespace Vmdmap

variable {s : Vmdmap} {C k n : Nat} {type : MapType}

/-! ## What is covered -/

def wbit (s : Vmdmap) (k : Nat) : Bool :=
  pbit (s.page (k / s.lay.dbperpage)).wmap (k % s.lay.dbperpage)

def permbit (s : Vmdmap) (k : Nat) : Bool :=
  pbit (s.page (k / s.lay.dbperpage)).pmap (k % s.lay.dbperpage)

/-- The number of groups begun below a fragment. -/
def groupsBelow (l : Layout) (C : Nat) : Nat := (C + l.agsize - 1) / l.agsize

/-- Those of them that are in page `q`. -/
def groupsIn (l : Layout) (C q : Nat) : Nat :=
  min (l.dbperpage / l.agsize) (groupsBelow l C - q * (l.dbperpage / l.agsize))

/-- The groups up to fragment `C` are begun, and what comes behind is not in
the map yet. -/
structure Covers (s : Vmdmap) (C : Nat) : Prop where
  le : C ≤ s.npages * s.lay.dbperpage
  groups : ∀ q < s.npages, (s.page q).agcnt = groupsIn s.lay C q
  taken : ∀ k, C ≤ k → k < s.npages * s.lay.dbperpage → s.wbit k = true ∧ s.permbit k = true

/-! ## Groups -/

theorem groupsBelow_bounds (l : Layout) (C : Nat) :
    C ≤ groupsBelow l C * l.agsize ∧ groupsBelow l C * l.agsize < C + l.agsize := by
  have hpos := l.pos
  have hdm := Nat.div_add_mod (C + l.agsize - 1) l.agsize
  have hml := Nat.mod_lt (C + l.agsize - 1) hpos
  rw [Nat.mul_comm] at hdm
  unfold groupsBelow
  omega

theorem groupsBelow_eq (l : Layout) {C k : Nat} (h1 : C ≤ k * l.agsize)
    (h2 : k * l.agsize < C + l.agsize) : groupsBelow l C = k := by
  have hpos := l.pos
  rw [groupsBelow, Nat.div_eq_iff hpos]
  omega

theorem groupsBelow_mono (l : Layout) {C E : Nat} (h : C ≤ E) : groupsBelow l C ≤ groupsBelow l E :=
  Nat.div_le_div_right (by omega)

theorem groupsBelow_mul (l : Layout) (k : Nat) : groupsBelow l (k * l.agsize) = k :=
  groupsBelow_eq l le_rfl (by have := l.pos; omega)

/-- The groups of whole pages. -/
theorem groupsBelow_le (l : Layout) {C N : Nat} (h : C ≤ N * l.dbperpage) :
    groupsBelow l C ≤ N * (l.dbperpage / l.agsize) := by
  rw [← agsize_mul, ← Nat.mul_assoc] at h
  exact (groupsBelow_mono l h).trans_eq (groupsBelow_mul l _)

/-- The number of the group of a fragment. -/
theorem group_number (l : Layout) (C : Nat) : C / l.agsize =
    C / l.dbperpage * (l.dbperpage / l.agsize) + C % l.dbperpage / l.agsize := by
  obtain ⟨-, -, -, haddr⟩ := address l C
  have hdm := Nat.div_add_mod (C % l.dbperpage) l.agsize
  have hml := Nat.mod_lt (C % l.dbperpage) l.pos
  have hmul : C / l.dbperpage * (l.dbperpage / l.agsize) * l.agsize =
      C / l.dbperpage * l.dbperpage := by
    rw [Nat.mul_assoc, agsize_mul]
  rw [Nat.mul_comm] at hdm
  rw [Nat.div_eq_iff l.pos, Nat.add_mul, hmul]
  omega

/-- An extension that ends in the group of its first fragment begins no other group. -/
theorem groupsBelow_extend (l : Layout) {C n : Nat} (hpos : 0 < C % l.agsize + n)
    (hgroup : C % l.agsize + n ≤ l.agsize) : groupsBelow l (C + n) = C / l.agsize + 1 := by
  have hdm := Nat.div_add_mod C l.agsize
  rw [Nat.mul_comm] at hdm
  exact groupsBelow_eq l (by rw [Nat.succ_mul]; omega) (by rw [Nat.succ_mul]; omega)

theorem groupsBelow_cases (l : Layout) (C : Nat) :
    C % l.agsize = 0 ∧ groupsBelow l C = C / l.agsize ∨
      0 < C % l.agsize ∧ groupsBelow l C = C / l.agsize + 1 := by
  have hdm := Nat.div_add_mod C l.agsize
  have hml := Nat.mod_lt C l.pos
  rw [Nat.mul_comm] at hdm
  rcases Nat.eq_zero_or_pos (C % l.agsize) with h0 | h0
  · exact .inl ⟨h0, groupsBelow_eq l (by omega) (by have := l.pos; omega)⟩
  · exact .inr ⟨h0, groupsBelow_extend l (n := 0) h0 hml.le⟩

/-- The groups of all pages together. -/
theorem sum_groupsIn (l : Layout) (C N : Nat) : ∑ q ∈ Finset.range N, groupsIn l C q =
    min (N * (l.dbperpage / l.agsize)) (groupsBelow l C) := by
  induction N with
  | zero => rw [Finset.sum_range_zero, Nat.zero_mul, Nat.zero_min]
  | succ N ih =>
    rw [Finset.sum_range_succ, ih, groupsIn, Nat.succ_mul]
    generalize N * (l.dbperpage / l.agsize) = a
    generalize l.dbperpage / l.agsize = b
    omega

theorem Covers.totalags (hs : Sound s) (h : Covers s C) : s.totalags = groupsBelow s.lay C := by
  rw [hs.totalags, Finset.sum_congr rfl fun q hq => h.groups q (Finset.mem_range.mp hq),
    sum_groupsIn]
  exact Nat.min_eq_right (groupsBelow_le s.lay h.le)

/-! ## v_extendag -/

theorem treeLoop_pmap (s : Vmdmap) (lastw m : Nat) : ∀ (p1 : Page) (k : Nat),
    (s.treeLoop lastw m p1 k).pmap = p1.pmap := by
  induction m with
  | zero => exact fun _ _ => rfl
  | succ m ih =>
    intro p1 k
    rw [treeLoop]
    split
    · exact (ih _ _).trans rfl
    · rfl

@[simp] theorem vExtendag_lay (s : Vmdmap) (n f : Nat) : (s.vExtendag n f).lay = s.lay := by
  unfold vExtendag
  dsimp only
  split <;> rfl

@[simp] theorem vExtendag_npages (s : Vmdmap) (n f : Nat) :
    (s.vExtendag n f).npages = s.npages := by
  unfold vExtendag
  dsimp only
  split <;> rfl

@[simp] theorem vExtendag_mapsize (s : Vmdmap) (n f : Nat) :
    (s.vExtendag n f).mapsize = s.mapsize := by
  unfold vExtendag
  dsimp only
  split <;> rfl

theorem vExtendag_pmap (s : Vmdmap) (n f q : Nat) : ((s.vExtendag n f).page q).pmap =
    if q = f / s.lay.dbperpage then
      clearLoop n (s.page q).pmap (f % s.lay.dbperpage / 32)
        (uzbit >>> (f % s.lay.dbperpage - 32 * (f % s.lay.dbperpage / 32)))
    else (s.page q).pmap := by
  unfold vExtendag
  dsimp only
  rw [mod_page]
  by_cases hq : q = f / s.lay.dbperpage
  · subst hq
    rw [if_pos rfl]
    split
    · rw [setPage_self, treeLoop_pmap]
    · rw [setPage_self, treeLoop_pmap]
  · rw [if_neg hq]
    split
    · rw [setPage_of_ne hq]
    · rw [setPage_of_ne hq]

theorem vExtendag_agcnt (s : Vmdmap) (n f q : Nat) : ((s.vExtendag n f).page q).agcnt =
    if q = f / s.lay.dbperpage ∧ (s.page q).agcnt ≤ f % s.lay.dbperpage / s.lay.agsize then
      (s.page q).agcnt + 1
    else (s.page q).agcnt := by
  unfold vExtendag
  dsimp only
  rw [mod_page]
  by_cases hq : q = f / s.lay.dbperpage
  · subst hq
    by_cases hfresh : (s.page (f / s.lay.dbperpage)).agcnt ≤
        f % s.lay.dbperpage / s.lay.agsize
    · rw [if_pos hfresh, if_pos hfresh, if_pos ⟨rfl, hfresh⟩, setPage_self, treeLoop_agcnt]
    · rw [if_neg hfresh, if_neg hfresh, setPage_self, treeLoop_agcnt]
      exact (if_neg fun h => hfresh h.2).symm
  · refine Eq.trans ?_ (if_neg fun h => hq h.1).symm
    split
    · rw [setPage_of_ne hq]
    · rw [setPage_of_ne hq]

theorem clearLoop_page (l : Layout) (map : Nat → Word) {f n k : Nat}
    (hk : k / l.dbperpage = f / l.dbperpage) :
    pbit (clearLoop n map (f % l.dbperpage / 32)
        (uzbit >>> (f % l.dbperpage - 32 * (f % l.dbperpage / 32)))) (k % l.dbperpage) =
      (pbit map (k % l.dbperpage) && !decide (f ≤ k ∧ k < f + n)) := by
  obtain ⟨-, -, -, haddr⟩ := address l f
  obtain ⟨-, -, -, haddr'⟩ := address l k
  rw [hk] at haddr'
  rw [clearLoop_bit _ _ _ (by omega)]
  congr 2
  rw [decide_eq_decide]
  omega

/-- An extension that stays in its page leaves the fragments of other pages alone. -/
theorem other_page (l : Layout) {f n k : Nat} (hn : f % l.dbperpage + n ≤ l.dbperpage)
    (hk : k / l.dbperpage ≠ f / l.dbperpage) : ¬(f ≤ k ∧ k < f + n) := by
  rintro ⟨h1, h2⟩
  obtain ⟨-, -, -, haddr⟩ := address l f
  refine hk ((Nat.div_eq_iff (dbperpage_pos l)).mpr ?_)
  omega

theorem vExtendag_wbit (s : Vmdmap) {f n : Nat} (k : Nat)
    (hn : f % s.lay.dbperpage + n ≤ s.lay.dbperpage) :
    (s.vExtendag n f).wbit k = (s.wbit k && !decide (f ≤ k ∧ k < f + n)) := by
  unfold wbit
  rw [vExtendag_wmap, vExtendag_lay]
  split
  · rename_i hk
    exact clearLoop_page s.lay _ hk
  · rename_i hk
    rw [decide_eq_false (other_page s.lay hn hk), Bool.not_false, Bool.and_true]

theorem vExtendag_permbit (s : Vmdmap) {f n : Nat} (k : Nat)
    (hn : f % s.lay.dbperpage + n ≤ s.lay.dbperpage) :
    (s.vExtendag n f).permbit k = (s.permbit k && !decide (f ≤ k ∧ k < f + n)) := by
  unfold permbit
  rw [vExtendag_pmap, vExtendag_lay]
  split
  · rename_i hk
    exact clearLoop_page s.lay _ hk
  · rename_i hk
    rw [decide_eq_false (other_page s.lay hn hk), Bool.not_false, Bool.and_true]

/-- `v_updtree` has nothing to do where the leaf is right. -/
theorem vUpdtree_same (hs : Sound s) {p ind : Nat} (hp : p < s.npages)
    (hind : 64 * (ind / 2) < s.lay.dbperpage) : vUpdtree s.lay (s.page p) ind = s.page p := by
  obtain ⟨hle, -⟩ := s.lay.dbperpage_le
  have hleaf := hs.sums.leaf p hp (ind / 2) (by omega) not_false
  rw [leafValue, if_pos hind] at hleaf
  have hcp : 4 * (leafind + ind / 2 * 2 / 8) + ind / 2 * 2 % 8 / 2 = 84 + ind / 2 := by
    unfold leafind
    omega
  unfold vUpdtree
  dsimp only
  rw [hcp, Nat.mul_comm (ind / 2) 2, climb, if_pos hleaf]

theorem treeLoop_same (hs : Sound s) {p lastw : Nat} (hp : p < s.npages)
    (hlast : 32 * lastw < s.lay.dbperpage) (m : Nat) : ∀ k,
    s.treeLoop lastw m (s.page p) k = s.page p := by
  induction m with
  | zero => exact fun _ => rfl
  | succ m ih =>
    intro k
    rw [treeLoop]
    split
    · rw [vUpdtree_same hs hp (by omega)]
      exact ih _
    · rfl

/-- An extension by no fragments changes nothing where its group has begun. -/
theorem vExtendag_zero (hs : Sound s) {f : Nat} (hp : f / s.lay.dbperpage < s.npages)
    (hcnt : f % s.lay.dbperpage / s.lay.agsize < (s.page (f / s.lay.dbperpage)).agcnt) :
    s.vExtendag 0 f = s := by
  have hml := Nat.mod_lt f (dbperpage_pos s.lay)
  unfold vExtendag
  dsimp only
  rw [mod_page, if_neg (by omega), if_neg (by omega)]
  generalize f / s.lay.dbperpage = p at *
  generalize f % s.lay.dbperpage = b at *
  have hpg : ({ s.page p with
      wmap := clearLoop 0 (s.page p).wmap (b / 32) (uzbit >>> (b - 32 * (b / 32)))
      pmap := clearLoop 0 (s.page p).pmap (b / 32) (uzbit >>> (b - 32 * (b / 32)))
      agfree := Function.update (s.page p).agfree (b / s.lay.agsize)
        ((s.page p).agfree (b / s.lay.agsize) + ((0 : Nat) : Int)) } : Page) = s.page p := by
    rw [clearLoop, clearLoop, Nat.cast_zero, add_zero, Function.update_eq_self]
  have hsame : ({ s with freecnt := s.freecnt + ((0 : Nat) : Int) } : Vmdmap) = s := by
    rw [Nat.cast_zero, add_zero]
  rw [hsame, hpg, treeLoop_same hs hp (by omega), setPage_same]

/-! ## Extensions in a row -/

/-- Calls of `v_extendag` that go on from one another, from fragment `C` up to
`E`, each one in one allocation group. -/
inductive Consecutive (agsize : Nat) : Nat → List (Nat × Nat) → Nat → Prop
  | nil {C : Nat} : Consecutive agsize C [] C
  | cons {C E n : Nat} {calls : List (Nat × Nat)} (hpos : 0 < C % agsize + n)
      (hgroup : C % agsize + n ≤ agsize) (h : Consecutive agsize (C + n) calls E) :
      Consecutive agsize C ((n, C) :: calls) E

theorem Consecutive.le {A C E : Nat} {calls : List (Nat × Nat)} (h : Consecutive A C calls E) :
    C ≤ E := by
  induction h with
  | nil => exact le_rfl
  | cons _ _ _ ih => omega

/-- The fragments from `C` up to `E` were freed, and nothing else. -/
structure Extends (s t : Vmdmap) (C E : Nat) : Prop where
  sound : Sound t
  covers : Covers t E
  lay : t.lay = s.lay
  npages : t.npages = s.npages
  mapsize : t.mapsize = s.mapsize
  wbit : ∀ k, t.wbit k = (s.wbit k && !decide (C ≤ k ∧ k < E))
  permbit : ∀ k, t.permbit k = (s.permbit k && !decide (C ≤ k ∧ k < E))

theorem Extends.refl (hs : Sound s) (hc : Covers s C) : Extends s s C C := by
  have hno : ∀ k, decide (C ≤ k ∧ k < C) = false := fun k => decide_eq_false (by omega)
  refine ⟨hs, hc, rfl, rfl, rfl, fun k => ?_, fun k => ?_⟩
  · rw [hno, Bool.not_false, Bool.and_true]
  · rw [hno, Bool.not_false, Bool.and_true]

theorem Extends.trans {t u : Vmdmap} {E F : Nat} (h1 : Extends s t C E) (h2 : Extends t u E F)
    (hCE : C ≤ E) (hEF : E ≤ F) : Extends s u C F := by
  have hor : ∀ k, (!decide (C ≤ k ∧ k < E) && !decide (E ≤ k ∧ k < F)) =
      !decide (C ≤ k ∧ k < F) := by
    intro k
    rw [← Bool.not_or, ← Bool.decide_or]
    congr 1
    rw [decide_eq_decide]
    omega
  refine ⟨h2.sound, h2.covers, h2.lay.trans h1.lay, h2.npages.trans h1.npages,
    h2.mapsize.trans h1.mapsize, fun k => ?_, fun k => ?_⟩
  · rw [h2.wbit, h1.wbit, Bool.and_assoc, hor]
  · rw [h2.permbit, h1.permbit, Bool.and_assoc, hor]

/-- The counts of groups after an extension. -/
theorem groupsIn_extend (l : Layout) {q : Nat} (hpos : 0 < C % l.agsize + n)
    (hgroup : C % l.agsize + n ≤ l.agsize) : groupsIn l (C + n) q =
      if q = C / l.dbperpage ∧ groupsIn l C q ≤ C % l.dbperpage / l.agsize then groupsIn l C q + 1
      else groupsIn l C q := by
  have hnum := group_number l C
  have hlt := group_lt l (Nat.mod_lt C (dbperpage_pos l))
  have hcases := groupsBelow_cases l C
  unfold groupsIn
  rw [groupsBelow_extend l hpos hgroup]
  generalize C / l.agsize = g at *
  generalize C % l.dbperpage / l.agsize = nag at *
  generalize C / l.dbperpage = p at *
  generalize l.dbperpage / l.agsize = M at *
  rcases Nat.lt_trichotomy q p with hq | rfl | hq
  · have hmul : (q + 1) * M ≤ p * M := Nat.mul_le_mul_right M hq
    rw [Nat.succ_mul] at hmul
    rw [if_neg fun h => absurd h.1 (by omega)]
    omega
  · generalize q * M = a at *
    split
    · omega
    · rename_i hno
      have : ¬(min M (groupsBelow l C - a) ≤ nag) := fun h => hno ⟨rfl, h⟩
      omega
  · have hmul : (p + 1) * M ≤ q * M := Nat.mul_le_mul_right M hq
    rw [Nat.succ_mul] at hmul
    rw [if_neg fun h => absurd h.1 (by omega)]
    omega

/-- There is a page for an extension that has room for a fragment. -/
theorem Covers.page_lt (hc : Covers s C) (hpos : 0 < C % s.lay.agsize + n)
    (hend : C + n ≤ s.npages * s.lay.dbperpage) : C / s.lay.dbperpage < s.npages := by
  refine Nat.div_lt_of_lt_mul ?_
  rw [Nat.mul_comm]
  refine lt_of_le_of_ne hc.le fun heq => ?_
  have hdiv : s.lay.agsize ∣ s.npages * s.lay.dbperpage := s.lay.pages.mul_left _
  have hmod := Nat.mod_eq_zero_of_dvd hdiv
  rw [heq, hmod] at hpos
  omega

/-- The group of an extension by nothing has begun. -/
theorem Covers.begun (hc : Covers s C) (hpos : 0 < C % s.lay.agsize + 0)
    (hgroup : C % s.lay.agsize + 0 ≤ s.lay.agsize) (hp : C / s.lay.dbperpage < s.npages) :
    C % s.lay.dbperpage / s.lay.agsize < (s.page (C / s.lay.dbperpage)).agcnt := by
  have hstep := groupsIn_extend s.lay (q := C / s.lay.dbperpage) hpos hgroup
  rw [hc.groups _ hp]
  by_contra hle
  rw [if_pos ⟨rfl, not_lt.mp hle⟩, Nat.add_zero] at hstep
  omega

theorem Covers.extend (hc : Covers s C) (hpos : 0 < C % s.lay.agsize + n)
    (hgroup : C % s.lay.agsize + n ≤ s.lay.agsize) (hend : C + n ≤ s.npages * s.lay.dbperpage)
    (hn : C % s.lay.dbperpage + n ≤ s.lay.dbperpage) : Covers (s.vExtendag n C) (C + n) := by
  refine ⟨?_, fun q hq => ?_, fun k hk hlt => ?_⟩
  · rw [vExtendag_npages, vExtendag_lay]
    exact hend
  · rw [vExtendag_npages] at hq
    rw [vExtendag_agcnt, vExtendag_lay, groupsIn_extend s.lay hpos hgroup, hc.groups q hq]
  · rw [vExtendag_npages, vExtendag_lay] at hlt
    obtain ⟨hw, hp⟩ := hc.taken k (by omega) hlt
    have hno : decide (C ≤ k ∧ k < C + n) = false := decide_eq_false (by omega)
    rw [vExtendag_wbit s k hn, vExtendag_permbit s k hn, hw, hp, hno]
    exact ⟨rfl, rfl⟩

/-- One call. -/
theorem Sound.extends (hs : Sound s) (hc : Covers s C) (hpos : 0 < C % s.lay.agsize + n)
    (hgroup : C % s.lay.agsize + n ≤ s.lay.agsize) (hend : C + n ≤ s.npages * s.lay.dbperpage) :
    Extends s (s.vExtendag n C) C (C + n) := by
  obtain ⟨hin, -, -, haddr⟩ := address s.lay C
  have hdvd : C % s.lay.dbperpage % s.lay.agsize = C % s.lay.agsize :=
    Nat.mod_mod_of_dvd C s.lay.pages
  have hn := (group_end s.lay (n := n) hin (by rwa [hdvd])).1
  have hp := hc.page_lt hpos hend
  refine ⟨?_, hc.extend hpos hgroup hend hn, vExtendag_lay _ _ _, vExtendag_npages _ _ _,
    vExtendag_mapsize _ _ _, fun k => vExtendag_wbit s k hn, fun k => vExtendag_permbit s k hn⟩
  rcases Nat.eq_zero_or_pos n with rfl | h0
  · rw [vExtendag_zero hs hp (hc.begun hpos hgroup hp)]
    exact hs
  · refine hs.vExtendag h0 hp hgroup fun i h1 h2 => ?_
    have hk : (C + (i - C % s.lay.dbperpage)) / s.lay.dbperpage = C / s.lay.dbperpage ∧
        (C + (i - C % s.lay.dbperpage)) % s.lay.dbperpage = i := by
      have heq : C + (i - C % s.lay.dbperpage) = C / s.lay.dbperpage * s.lay.dbperpage + i := by
        omega
      rw [heq]
      exact (Nat.div_mod_unique (dbperpage_pos s.lay)).mpr ⟨by rw [Nat.mul_comm, Nat.add_comm],
        by omega⟩
    have htaken := (hc.taken (C + (i - C % s.lay.dbperpage)) (by omega) (by omega)).1
    rw [Vmdmap.wbit, hk.1, hk.2] at htaken
    exact htaken

/-- A run of calls. -/
theorem Consecutive.extends {E : Nat} {calls : List (Nat × Nat)}
    (h : Consecutive s.lay.agsize C calls E) (hs : Sound s) (hc : Covers s C)
    (hend : E ≤ s.npages * s.lay.dbperpage) : Extends s (s.extendAll calls) C E := by
  generalize hA : s.lay.agsize = A at h
  induction h generalizing s with
  | nil => exact .refl hs hc
  | cons hpos hgroup h ih =>
    subst hA
    have hle := h.le
    have hone := hs.extends hc hpos hgroup (by omega)
    have hrest := ih hone.sound hone.covers (by rwa [hone.npages, hone.lay]) (by rw [hone.lay])
    exact hone.trans hrest (by omega) hle

/-! ## The additional pages -/

/-- Only pages without groups were added. -/
structure Paged (s t : Vmdmap) (C N : Nat) : Prop where
  sound : Sound t
  covers : Covers t C
  lay : t.lay = s.lay
  npages : t.npages = N
  page : ∀ q < s.npages, t.page q = s.page q

theorem Covers.imappage (h : Covers s C) : Covers s.imappage C := by
  have hold : ∀ q < s.npages, s.imappage.page q = s.page q :=
    fun q hq => Function.update_of_ne (by omega) _ _
  have hnew : s.imappage.page s.npages = freshPage := Function.update_self _ _ _
  have hpos := dbperpage_pos s.lay
  have hle := h.le
  refine ⟨?_, fun q hq => ?_, fun k hk hlt => ?_⟩
  · change C ≤ (s.npages + 1) * s.lay.dbperpage
    rw [Nat.succ_mul]
    omega
  · rcases Nat.lt_succ_iff_lt_or_eq.mp hq with hq | rfl
    · rw [hold q hq]
      exact h.groups q hq
    · have hgroups := groupsBelow_le s.lay hle
      rw [hnew]
      change 0 = groupsIn s.lay C s.npages
      rw [groupsIn, Nat.sub_eq_zero_of_le hgroups, Nat.min_zero]
  · change k < (s.npages + 1) * s.lay.dbperpage at hlt
    change pbit (s.imappage.page (k / s.lay.dbperpage)).wmap (k % s.lay.dbperpage) = true ∧
      pbit (s.imappage.page (k / s.lay.dbperpage)).pmap (k % s.lay.dbperpage) = true
    have hq := Nat.div_lt_of_lt_mul (Nat.mul_comm _ s.lay.dbperpage ▸ hlt)
    rcases Nat.lt_succ_iff_lt_or_eq.mp hq with hq | hq
    · rw [hold _ hq]
      exact h.taken k hk ((Nat.div_lt_iff_lt_mul hpos).mp hq)
    · rw [hq, hnew]
      exact ⟨pbit_ones _, pbit_ones _⟩

theorem makePages_paged {pin : Nat → Nat} (hpin : type = .pgdiskmap → ∀ k, pin k = 0) (n : Nat) :
    ∀ {s : Vmdmap}, Sound s → Covers s C →
      ∃ t, s.makePages type pin n s.npages = (t, 0) ∧ Paged s t C (s.npages + n) := by
  induction n with
  | zero => exact fun hs hc => ⟨_, rfl, hs, hc, rfl, rfl, fun _ _ => rfl⟩
  | succ n ih =>
    intro s hs hc
    obtain ⟨t, hrun, ht⟩ := ih hs.imappage hc.imappage
    have hno : ¬(type = .pgdiskmap ∧ pin s.npages ≠ 0) := fun h => h.2 (hpin h.1 _)
    refine ⟨t, ?_, ht.sound, ht.covers, ht.lay, ?_, fun q hq => ?_⟩
    · rw [makePages]
      rw [if_neg hno]
      exact hrun
    · rw [ht.npages]
      change s.npages + 1 + n = s.npages + (n + 1)
      omega
    · rw [ht.page q (by change q < s.npages + 1; omega)]
      exact Function.update_of_ne (by omega) _ _

/-! ## The calls of a growth -/

/-- Where a growth ends: a group that is not whole is begun for at least
`minsize` fragments only. -/
def growthEnd (l : Layout) (type : MapType) (minsize : Int) (C newsize : Nat) : Nat :=
  if type ≠ .fsdiskmap ∨ newsize ≤ groupsBelow l C * l.agsize ∨ newsize % l.agsize = 0 ∨
      minsize ≤ (newsize % l.agsize : Nat) then newsize
  else newsize / l.agsize * l.agsize

/-- The calls go from `C` up to `E`, and what they leave of a disk map is not
enough for a group. -/
structure Ends (l : Layout) (type : MapType) (minsize : Int) (C newsize : Nat)
    (calls : List (Nat × Nat)) (E : Nat) : Prop where
  calls : Consecutive l.agsize C calls E
  le : E ≤ newsize
  short : E < newsize → type = .fsdiskmap ∧ E % l.agsize = 0 ∧
    ((min l.agsize (newsize - E) : Nat) : Int) < minsize
  last : type ≠ .fsdiskmap ∨ minsize ≤ l.agsize → E = growthEnd l type minsize C newsize

theorem growthEnd_self (l : Layout) (type : MapType) (minsize : Int) (C : Nat) :
    growthEnd l type minsize C C = C := if_pos (.inr (.inl (groupsBelow_bounds l C).1))

theorem growthEnd_congr {l : Layout} {minsize : Int} {C C' newsize : Nat}
    (h : groupsBelow l C = groupsBelow l C') :
    growthEnd l type minsize C newsize = growthEnd l type minsize C' newsize := by
  rw [growthEnd, growthEnd, h]

theorem Ends.refl (l : Layout) (type : MapType) (minsize : Int) (C : Nat) :
    Ends l type minsize C C [] C :=
  ⟨.nil, le_rfl, fun h => absurd h (lt_irrefl C), fun _ => (growthEnd_self l type minsize C).symm⟩

theorem groupsBelow_whole (l : Layout) {C : Nat} (hC : C % l.agsize = 0) :
    groupsBelow l C * l.agsize = C := by
  have hdm := Nat.div_add_mod C l.agsize
  rw [Nat.mul_comm] at hdm
  rcases groupsBelow_cases l C with ⟨-, h⟩ | ⟨h, -⟩
  · rw [h]
    omega
  · omega

/-- A whole group more. -/
theorem growthEnd_next (l : Layout) (minsize : Int) {C newsize : Nat} (hC : C % l.agsize = 0)
    (h : C + l.agsize < newsize) : growthEnd l type minsize (C + l.agsize) newsize =
      growthEnd l type minsize C newsize := by
  have h1 := groupsBelow_whole l hC
  have h2 := groupsBelow_whole l (C := C + l.agsize) (by rw [Nat.add_mod_right, hC])
  unfold growthEnd
  rw [h1, h2]
  congr 1
  rw [eq_iff_iff]
  have hno : ¬newsize ≤ C + l.agsize := by omega
  have hno' : ¬newsize ≤ C := by omega
  simp only [hno, hno', false_or]

/-- At most a group is left, and it is begun. -/
theorem growthEnd_last (l : Layout) {minsize : Int} {C n : Nat} (hC : C % l.agsize = 0)
    (hle : n ≤ l.agsize) (hmin : type = .fsdiskmap → minsize ≤ n) :
    growthEnd l type minsize C (C + n) = C + n := by
  refine if_pos ?_
  by_cases htype : type = .fsdiskmap
  · have hmod : (C + n) % l.agsize = n % l.agsize := by
      rw [Nat.add_mod, hC, Nat.zero_add, Nat.mod_mod]
    rw [hmod]
    rcases Nat.lt_or_eq_of_le hle with hlt | heq
    · rw [Nat.mod_eq_of_lt hlt]
      exact .inr (.inr (.inr (hmin htype)))
    · rw [heq, Nat.mod_self]
      exact .inr (.inr (.inl rfl))
  · exact .inl htype

/-- Nothing is begun for less than `minsize` fragments. -/
theorem growthEnd_stop (l : Layout) {minsize : Int} {C n : Nat} (hC : C % l.agsize = 0)
    (hpos : 0 < n) (hmin : (n : Int) < minsize) (hmax : minsize ≤ l.agsize) :
    growthEnd l .fsdiskmap minsize C (C + n) = C := by
  have hlt : n < l.agsize := by omega
  have hmod : (C + n) % l.agsize = n := by
    rw [Nat.add_mod, hC, Nat.zero_add, Nat.mod_mod, Nat.mod_eq_of_lt hlt]
  have hdm := Nat.div_add_mod (C + n) l.agsize
  rw [Nat.mul_comm] at hdm
  rw [growthEnd, groupsBelow_whole l hC, hmod, if_neg]
  · omega
  · rintro (h | h | h | h)
    · exact h rfl
    · omega
    · omega
    · omega

theorem growLoop_ends (l : Layout) (type : MapType) (minsize : Int) (fuel : Nat) :
    ∀ {n C : Nat}, n ≤ fuel → C % l.agsize = 0 →
      ∃ E, Ends l type minsize C (C + n) (growLoop l type minsize fuel n C) E := by
  have hA := l.pos
  induction fuel with
  | zero =>
    intro n C hn _
    obtain rfl := Nat.le_zero.mp hn
    exact ⟨C, .refl l type minsize C⟩
  | succ fuel ih =>
    intro n C hn hC
    rw [growLoop]
    split
    · rename_i h0
      subst h0
      exact ⟨C, .refl l type minsize C⟩
    split
    · rename_i h0 hmin
      obtain ⟨rfl, hmin⟩ := hmin
      refine ⟨C, .nil, by omega, fun _ => ⟨rfl, hC, by omega⟩, fun hmax => ?_⟩
      exact (growthEnd_stop l hC (by omega) hmin (hmax.resolve_left fun h => h rfl)).symm
    · rename_i h0 hmin
      have hgo : type = .fsdiskmap → minsize ≤ (n : Int) := fun h => by
        by_contra hlt
        exact hmin ⟨h, not_le.mp hlt⟩
      dsimp only
      by_cases hle : n ≤ l.agsize
      · rw [Nat.min_eq_right hle, Nat.sub_self]
        have hnil : growLoop l type minsize fuel 0 (C + n) = [] := by cases fuel <;> rfl
        rw [hnil]
        exact ⟨C + n, .cons (by omega) (by omega) .nil, le_rfl,
          fun h => absurd h (lt_irrefl _), fun _ => (growthEnd_last l hC hle hgo).symm⟩
      · rw [Nat.min_eq_left (by omega)]
        obtain ⟨E, hE⟩ := ih (n := n - l.agsize) (C := C + l.agsize) (by omega)
          (by rw [Nat.add_mod_right, hC])
        have hsum : C + l.agsize + (n - l.agsize) = C + n := by omega
        rw [hsum] at hE
        refine ⟨E, .cons (by omega) (by omega) hE.calls, hE.le, hE.short, fun hmax => ?_⟩
        rw [hE.last hmax, growthEnd_next l minsize hC (by omega)]

/-- A map between two growths: it covers the fragments below `C`, and only of
a disk map less than a group may be withheld. -/
structure Rest (s : Vmdmap) (type : MapType) (C : Nat) : Prop where
  sound : Sound s
  pos : 0 < s.mapsize
  npages : s.npages = (s.mapsize - 1) / s.lay.dbperpage + 1
  covers : Covers s C
  first : C = s.mapsize ∨ type = .fsdiskmap ∧ C % s.lay.agsize = 0 ∧ C < s.mapsize ∧
    s.mapsize < C + s.lay.agsize

/-- The size of a map lies in its last page. -/
theorem last_page (l : Layout) {mapsize : Nat} (hpos : 0 < mapsize) :
    (mapsize - 1) / l.dbperpage * l.dbperpage < mapsize ∧
      mapsize ≤ ((mapsize - 1) / l.dbperpage + 1) * l.dbperpage := by
  obtain ⟨hin, -, -, haddr⟩ := address l (mapsize - 1)
  rw [Nat.succ_mul]
  omega

/-- The groups of the last page are those of the whole map behind it. -/
theorem groupsIn_last (l : Layout) {mapsize : Nat} (hpos : 0 < mapsize) (hle : C ≤ mapsize)
    (hlt : mapsize < C + l.agsize) :
    (groupsIn l C ((mapsize - 1) / l.dbperpage) : Int) * l.agsize -
      (mapsize - (mapsize - 1) / l.dbperpage * l.dbperpage : Nat) =
      (groupsBelow l C * l.agsize : Nat) - (mapsize : Int) := by
  obtain ⟨h1, h2⟩ := last_page l hpos
  obtain ⟨hb, -⟩ := groupsBelow_bounds l C
  have hmost := groupsBelow_le l (hle.trans h2)
  unfold groupsIn
  generalize (mapsize - 1) / l.dbperpage = p at *
  have hpage : p * (l.dbperpage / l.agsize) * l.agsize = p * l.dbperpage := by
    rw [Nat.mul_assoc, agsize_mul]
  have hleast : p * (l.dbperpage / l.agsize) ≤ groupsBelow l C := by
    refine Nat.le_of_lt_succ (Nat.lt_of_mul_lt_mul_right (a := l.agsize) ?_)
    rw [hpage, Nat.succ_mul]
    omega
  rw [Nat.succ_mul] at hmost
  generalize l.dbperpage / l.agsize = M at *
  rw [Nat.min_eq_right (by omega), ← Nat.cast_mul, Nat.sub_mul, hpage]
  have hmul : p * l.dbperpage ≤ groupsBelow l C * l.agsize :=
    hpage.symm.trans_le (Nat.mul_le_mul_right _ hleast)
  omega

/-- The last group is completed, and the others follow. -/
theorem ends_complete (l : Layout) (type : MapType) (minsize : Int) (fuel : Nat) {newsize n : Nat}
    (hle : C ≤ newsize) (hn : n = min (groupsBelow l C * l.agsize - C) (newsize - C))
    (hfuel : newsize - C ≤ fuel) :
    ∃ E, Ends l type minsize C newsize
      (if (groupsBelow l C * l.agsize : Nat) - (C : Int) = 0 then
        growLoop l type minsize fuel (newsize - C - n) (C + n)
      else (n, C) :: growLoop l type minsize fuel (newsize - C - n) (C + n)) E := by
  have hb := groupsBelow_bounds l C
  have hcases := groupsBelow_cases l C
  split
  · rename_i h0
    have hC : C % l.agsize = 0 := by
      have hmod := Nat.mul_mod_left (groupsBelow l C) l.agsize
      have heq : groupsBelow l C * l.agsize = C := by omega
      rwa [heq] at hmod
    have hn0 : n = 0 := by omega
    subst hn0
    obtain ⟨E, hE⟩ := growLoop_ends l type minsize fuel (n := newsize - C) hfuel hC
    have hsum : C + (newsize - C) = newsize := by omega
    rw [hsum] at hE
    exact ⟨E, hE⟩
  · rename_i h0
    have hC : 0 < C % l.agsize ∧ groupsBelow l C * l.agsize = C - C % l.agsize + l.agsize := by
      have hdm := Nat.div_add_mod C l.agsize
      rw [Nat.mul_comm] at hdm
      rcases hcases with ⟨hm, hg⟩ | ⟨hm, hg⟩
      · rw [hg] at h0
        omega
      · rw [hg, Nat.succ_mul]
        omega
    have hmod := Nat.mod_le C l.agsize
    by_cases hall : newsize - C ≤ groupsBelow l C * l.agsize - C
    · have hnn : n = newsize - C := by omega
      have hnil : growLoop l type minsize fuel (newsize - C - n) (C + n) = [] := by
        rw [hnn, Nat.sub_self]
        cases fuel <;> rfl
      rw [hnil]
      have hend : C + n = newsize := by omega
      refine ⟨newsize, .cons (by omega) (by omega) (hend ▸ .nil), le_rfl,
        fun h => absurd h (lt_irrefl _), fun _ => ?_⟩
      exact (if_pos (.inr (.inl (by omega)))).symm
    · have hend : C + n = groupsBelow l C * l.agsize := by omega
      have hwhole : (C + n) % l.agsize = 0 := by
        rw [hend]
        exact Nat.mul_mod_left _ _
      obtain ⟨E, hE⟩ := growLoop_ends l type minsize fuel (n := newsize - C - n)
        (by omega) hwhole
      have hsum : C + n + (newsize - C - n) = newsize := by omega
      rw [hsum] at hE
      refine ⟨E, .cons (by omega) (by omega) hE.calls, hE.le, hE.short, fun hmax => ?_⟩
      rw [hE.last hmax]
      refine growthEnd_congr ?_
      rw [hend, groupsBelow_mul]

/-- Fragments were withheld, and the group is begun if there are enough now. -/
theorem ends_withheld (l : Layout) {minsize : Int} {newsize : Nat} (hC : C % l.agsize = 0)
    (hlt : C < newsize) (hmin : minsize ≤ (min l.agsize (newsize - C) : Nat)) :
    ∃ E, Ends l .fsdiskmap minsize C newsize
      ((min l.agsize (newsize - C), C) :: growLoop l .fsdiskmap minsize (newsize - C)
        (newsize - C - min l.agsize (newsize - C)) (C + min l.agsize (newsize - C))) E := by
  obtain ⟨E, hE⟩ := growLoop_ends l .fsdiskmap minsize (newsize - C + 1) (n := newsize - C)
    (C := C) (by omega) hC
  have hsum : C + (newsize - C) = newsize := by omega
  have hno : ¬(MapType.fsdiskmap = .fsdiskmap ∧ ((newsize - C : Nat) : Int) < minsize) := by
    rintro ⟨-, h⟩
    omega
  rw [hsum, growLoop, if_neg (by omega), if_neg hno] at hE
  exact ⟨E, hE⟩

/-- The calls where everything below the size is covered. -/
theorem growGroups_full {t : Vmdmap} (type : MapType) (minsize : Int) {newsize lastp : Nat}
    (hnb : ((t.page lastp).agcnt : Int) * t.lay.agsize - (C - lastp * t.lay.dbperpage : Nat) =
      (groupsBelow t.lay C * t.lay.agsize : Nat) - (C : Int)) (hle : C ≤ newsize) :
    ∃ calls E, growGroups t type minsize C newsize lastp =
      some ⟨t.extendAll calls, calls, 0⟩ ∧ Ends t.lay type minsize C newsize calls E := by
  have hb := groupsBelow_bounds t.lay C
  obtain ⟨E, hE⟩ := ends_complete t.lay type minsize (newsize - C) hle rfl le_rfl
  have htoNat : ((groupsBelow t.lay C * t.lay.agsize : Nat) - (C : Int)).toNat =
      groupsBelow t.lay C * t.lay.agsize - C := by omega
  unfold growGroups
  dsimp only
  rw [hnb, if_neg (by omega), htoNat]
  exact ⟨_, E, rfl, hE⟩

/-- The calls where fragments are withheld. -/
theorem growGroups_withheld {t : Vmdmap} (minsize : Int) {mapsize newsize lastp : Nat}
    (hnb : ((t.page lastp).agcnt : Int) * t.lay.agsize -
      (mapsize - lastp * t.lay.dbperpage : Nat) =
      (groupsBelow t.lay C * t.lay.agsize : Nat) - (mapsize : Int))
    (hC : C % t.lay.agsize = 0) (hlt : C < mapsize) (hle : mapsize ≤ newsize) :
    ∃ calls E z, growGroups t .fsdiskmap minsize mapsize newsize lastp =
        some ⟨({ t with mapsize := z } : Vmdmap).extendAll calls, calls, 0⟩ ∧
      z ≤ t.mapsize ∧ Ends t.lay .fsdiskmap minsize C newsize calls E := by
  have hwhole := groupsBelow_whole t.lay hC
  have htoNat : (-((groupsBelow t.lay C * t.lay.agsize : Nat) - (mapsize : Int))).toNat =
      mapsize - C := by omega
  have hleft : newsize - mapsize + (mapsize - C) = newsize - C := by omega
  have hnext : mapsize - (mapsize - C) = C := by omega
  unfold growGroups
  dsimp only
  rw [hnb, if_pos (by omega), if_neg fun h => h rfl, htoNat, hleft, hnext]
  split
  · rename_i hmin
    refine ⟨[], C, t.mapsize, rfl, le_rfl, .nil, by omega, fun _ => ⟨rfl, hC, hmin⟩,
      fun hmax => ?_⟩
    have hmax := hmax.resolve_left fun h => h rfl
    have hstop := growthEnd_stop t.lay hC (n := newsize - C) (by omega) (by omega) hmax
    have hsum : C + (newsize - C) = newsize := by omega
    rw [hsum] at hstop
    exact hstop.symm
  · rename_i hmin
    obtain ⟨E, hE⟩ := ends_withheld t.lay hC (lt_of_lt_of_le hlt hle) (not_lt.mp hmin)
    exact ⟨_, E, t.mapsize - (mapsize - C), rfl, Nat.sub_le _ _, hE⟩

/-! ## The growth of a map -/

/-- A fragment of the map is free. -/
def Free (s : Vmdmap) (k : Nat) : Prop := k < s.npages * s.lay.dbperpage ∧ s.wbit k = false

/-- The same in the permanent map. -/
def Released (s : Vmdmap) (k : Nat) : Prop :=
  k < s.npages * s.lay.dbperpage ∧ s.permbit k = false

/-- The growth freed the fragments from `C` up to `E`, and the groups of them
are begun. -/
structure Adds (s : Vmdmap) (C E : Nat) (g : Growth) : Prop where
  rc : g.rc = 0
  calls : Consecutive s.lay.agsize C g.calls E
  free : ∀ k, g.map.Free k ↔ s.Free k ∨ C ≤ k ∧ k < E
  released : ∀ k, g.map.Released k ↔ s.Released k ∨ C ≤ k ∧ k < E
  agcnt : ∀ q < g.map.npages, (g.map.page q).agcnt = groupsIn s.lay E q
  totalags : g.map.totalags = groupsBelow s.lay E
  sound : Sound g.map

theorem Sound.setMapsize (h : Sound s) {z : Nat} (hz : z ≤ s.npages * s.lay.dbperpage) :
    Sound { s with mapsize := z } :=
  ⟨⟨h.sums.tree, h.sums.leaf, h.sums.agfree, h.sums.freecnt⟩, hz, h.agcnt, h.totalags⟩

theorem Covers.setMapsize (h : Covers s C) (z : Nat) : Covers { s with mapsize := z } C :=
  ⟨h.le, h.groups, h.taken⟩

/-- The bits of the pages that were there before. -/
theorem Paged.bits {t : Vmdmap} {N : Nat} (h : Paged s t C N)
    (hk : k < s.npages * s.lay.dbperpage) :
    t.wbit k = s.wbit k ∧ t.permbit k = s.permbit k := by
  have hq : k / s.lay.dbperpage < s.npages := Nat.div_lt_of_lt_mul (by rwa [Nat.mul_comm])
  unfold wbit permbit
  rw [h.lay, h.page _ hq]
  exact ⟨rfl, rfl⟩

/-- Bits of a map, before and after: `a` and `b` fragments have a place in it. -/
theorem free_added {a b E : Nat} {old mid new : Nat → Bool} (hab : a ≤ b) (hCa : C ≤ a)
    (hE : E ≤ b) (hold : ∀ k < a, mid k = old k) (htaken : ∀ k, C ≤ k → k < b → mid k = true)
    (hnew : ∀ k, new k = (mid k && !decide (C ≤ k ∧ k < E))) (k : Nat) :
    (k < b ∧ new k = false) ↔ (k < a ∧ old k = false) ∨ C ≤ k ∧ k < E := by
  rw [hnew]
  by_cases hin : C ≤ k ∧ k < E
  · rw [decide_eq_true hin, Bool.not_true, Bool.and_false]
    exact ⟨fun _ => .inr hin, fun _ => ⟨by omega, rfl⟩⟩
  · rw [decide_eq_false hin, Bool.not_false, Bool.and_true]
    by_cases hk : k < a
    · rw [hold k hk]
      exact ⟨fun h => .inl ⟨hk, h.2⟩, fun h => h.elim (fun h => ⟨by omega, h.2⟩) (absurd · hin)⟩
    · constructor
      · rintro ⟨hkb, hf⟩
        rw [htaken k (by omega) hkb] at hf
        exact Bool.noConfusion hf
      · rintro (h | h)
        · exact absurd h.1 hk
        · exact absurd h hin

theorem Paged.setMapsize {t : Vmdmap} {N z : Nat} (h : Paged s t C N)
    (hz : z ≤ N * s.lay.dbperpage) : Paged s { t with mapsize := z } C N :=
  ⟨h.sound.setMapsize (by rwa [h.npages, h.lay]), h.covers.setMapsize z, h.lay, h.npages, h.page⟩

/-- The pages and then the calls. -/
theorem Paged.adds {t : Vmdmap} {N E : Nat} {calls : List (Nat × Nat)} (h : Paged s t C N)
    (hle : C ≤ s.npages * s.lay.dbperpage) (hN : s.npages ≤ N)
    (hcalls : Consecutive s.lay.agsize C calls E) (hE : E ≤ N * s.lay.dbperpage) :
    Adds s C E ⟨t.extendAll calls, calls, 0⟩ ∧ (t.extendAll calls).npages = N ∧
      (t.extendAll calls).lay = s.lay ∧ Covers (t.extendAll calls) E := by
  have hext := Consecutive.extends (s := t) (by rwa [h.lay]) h.sound h.covers
    (by rwa [h.npages, h.lay])
  have htotal := Covers.totalags hext.sound hext.covers
  have htaken := h.covers.taken
  have hgroups := hext.covers.groups
  have hlay := hext.lay.trans h.lay
  have hnp := hext.npages.trans h.npages
  rw [hlay] at htotal
  rw [h.npages, h.lay] at htaken
  have hab : s.npages * s.lay.dbperpage ≤ N * s.lay.dbperpage := Nat.mul_le_mul_right _ hN
  refine ⟨⟨rfl, hcalls, ?_, ?_, fun q hq => ?_, htotal, hext.sound⟩, hnp, hlay, hext.covers⟩
  · unfold Free
    rw [hnp, hlay]
    exact free_added hab hle hE (fun k hk => (h.bits hk).1)
      (fun k h1 h2 => (htaken k h1 h2).1) hext.wbit
  · unfold Released
    rw [hnp, hlay]
    exact free_added hab hle hE (fun k hk => (h.bits hk).2)
      (fun k h1 h2 => (htaken k h1 h2).2) hext.permbit
  · rw [hgroups q hq, hlay]

/-- Calls for no fragments. -/
theorem Consecutive.same {E : Nat} {calls : List (Nat × Nat)}
    (h : Consecutive s.lay.agsize C calls E) (hs : Sound s) (hc : Covers s C) (hE : E ≤ C) :
    s.extendAll calls = s := by
  generalize hA : s.lay.agsize = A at h
  induction h generalizing s with
  | nil => rfl
  | @cons C E n calls hpos hgroup h ih =>
    subst hA
    have hle := h.le
    obtain rfl : n = 0 := by omega
    have hp := hc.page_lt hpos hc.le
    have hzero := vExtendag_zero hs hp (hc.begun hpos hgroup hp)
    rw [extendAll, List.foldl_cons, hzero]
    exact ih hs (by rwa [Nat.add_zero]) (by omega) rfl

/-- The state of a map after it was grown up to `E` and its size was set. -/
structure Settled (s : Vmdmap) (type : MapType) (minsize : Int) (E : Nat) : Prop where
  sound : Sound s
  covers : Covers s E
  pos : 0 < s.mapsize
  npages : s.npages = (s.mapsize - 1) / s.lay.dbperpage + 1
  le : E ≤ s.mapsize
  short : E < s.mapsize → type = .fsdiskmap ∧ E % s.lay.agsize = 0 ∧
    ((min s.lay.agsize (s.mapsize - E) : Nat) : Int) < minsize

/-- Less than `minsize` fragments are left over, and stay so. -/
theorem growGroups_short {minsize : Int} {E lastp : Nat}
    (hcnt : (s.page lastp).agcnt = groupsIn s.lay E lastp) (hE : E % s.lay.agsize = 0)
    (hlt : E < s.mapsize) (hlast : lastp * s.lay.dbperpage < s.mapsize)
    (hpage : s.mapsize ≤ (lastp + 1) * s.lay.dbperpage)
    (hshort : ((min s.lay.agsize (s.mapsize - E) : Nat) : Int) < minsize) :
    growGroups s .fsdiskmap minsize s.mapsize s.mapsize lastp = some ⟨s, [], 0⟩ := by
  have hwhole := groupsBelow_whole s.lay hE
  have hmost := groupsBelow_le s.lay (hlt.le.trans hpage)
  have hmul : (groupsIn s.lay E lastp : Int) * s.lay.agsize =
      (E - lastp * s.lay.dbperpage : Nat) := by
    have hmin : groupsIn s.lay E lastp =
        groupsBelow s.lay E - lastp * (s.lay.dbperpage / s.lay.agsize) := by
      rw [Nat.succ_mul] at hmost
      exact Nat.min_eq_right (Nat.sub_le_iff_le_add'.mpr hmost)
    rw [hmin, ← Nat.cast_mul, Nat.sub_mul, hwhole, Nat.mul_assoc, agsize_mul]
  unfold growGroups
  dsimp only
  rw [hcnt, hmul, if_pos (by omega), if_neg fun h => h rfl, if_pos (by omega)]

theorem Settled.again {minsize : Int} {E : Nat} (h : Settled s type minsize E)
    (hmax : s.mapsize ≤ maxmapsize) (pin : Nat → Nat) :
    ∃ calls, vmGrowmapx s s.mapsize type minsize pin = some ⟨s, calls, 0⟩ := by
  obtain ⟨hlast, hpage⟩ := last_page s.lay h.pos
  have hp : (s.mapsize - 1) / s.lay.dbperpage < s.npages := by
    rw [h.npages]
    exact Nat.lt_succ_self _
  have hcnt := h.covers.groups _ hp
  have hsame : (if type = .pgdiskmap then { s with mapsize := s.mapsize } else s) = s :=
    ite_self s
  unfold vmGrowmapx
  dsimp only
  rw [if_neg (by omega), Nat.sub_self, makePages]
  dsimp only
  rw [if_neg fun h => h rfl, hsame]
  rcases Nat.lt_or_eq_of_le h.le with hlt | rfl
  · obtain ⟨rfl, hE, hshort⟩ := h.short hlt
    exact ⟨[], growGroups_short hcnt hE hlt hlast hpage hshort⟩
  · have hnb := groupsIn_last s.lay h.pos le_rfl (by have := s.lay.pos; omega)
    rw [← hcnt] at hnb
    obtain ⟨calls, E, hrun, hends⟩ := growGroups_full type minsize hnb le_rfl
    rw [hends.calls.same h.sound h.covers hends.le] at hrun
    exact ⟨calls, hrun⟩

theorem Rest.grows {newsize : Nat} (minsize : Int) {pin : Nat → Nat} (h : Rest s type C)
    (hle : s.mapsize ≤ newsize) (hmax : newsize ≤ maxmapsize)
    (hpin : type = .pgdiskmap → ∀ k, pin k = 0) :
    ∃ g E, vmGrowmapx s newsize type minsize pin = some g ∧ Adds s C E g ∧
      Ends s.lay type minsize C newsize g.calls E ∧ g.map.lay = s.lay ∧
      Settled { g.map with mapsize := newsize } type minsize E := by
  have hA := s.lay.pos
  have hpos : 0 < newsize := lt_of_lt_of_le h.pos hle
  obtain ⟨hlast, hpage⟩ := last_page s.lay h.pos
  obtain ⟨-, hpage'⟩ := last_page s.lay hpos
  have hmono : (s.mapsize - 1) / s.lay.dbperpage ≤ (newsize - 1) / s.lay.dbperpage :=
    Nat.div_le_div_right (by omega)
  have hbounds : C ≤ s.mapsize ∧ s.mapsize < C + s.lay.agsize := by
    rcases h.first with rfl | h <;> omega
  obtain ⟨t, hrun, ht⟩ := makePages_paged hpin
    ((newsize - 1) / s.lay.dbperpage - (s.mapsize - 1) / s.lay.dbperpage) h.sound h.covers
  have hN : s.npages + ((newsize - 1) / s.lay.dbperpage - (s.mapsize - 1) / s.lay.dbperpage) =
      (newsize - 1) / s.lay.dbperpage + 1 := by
    rw [h.npages]
    omega
  rw [hN] at ht
  rw [h.npages] at hrun
  have hp : (s.mapsize - 1) / s.lay.dbperpage < s.npages := by
    rw [h.npages]
    exact Nat.lt_succ_self _
  have hnb := groupsIn_last s.lay h.pos hbounds.1 hbounds.2
  rw [← h.covers.groups _ hp, ← ht.page _ hp, ← ht.lay] at hnb
  rw [h.npages] at hp
  have hle' : C ≤ s.npages * s.lay.dbperpage := h.covers.le
  have hstart : s.npages ≤ (newsize - 1) / s.lay.dbperpage + 1 := by
    rw [h.npages]
    omega
  -- what is left after the calls, for any size that was set before them
  have hfinish : ∀ {u : Vmdmap} {calls : List (Nat × Nat)} {E : Nat},
      Paged s u C ((newsize - 1) / s.lay.dbperpage + 1) →
      Ends s.lay type minsize C newsize calls E →
      ∃ g E, some (⟨u.extendAll calls, calls, 0⟩ : Growth) = some g ∧ Adds s C E g ∧
        Ends s.lay type minsize C newsize g.calls E ∧ g.map.lay = s.lay ∧
        Settled { g.map with mapsize := newsize } type minsize E := by
    intro u calls E hu hends
    obtain ⟨hadds, hnp, hlay, hcov⟩ := hu.adds hle' hstart hends.calls (hends.le.trans hpage')
    refine ⟨_, E, rfl, hadds, hends, hlay, ?_⟩
    refine ⟨hadds.sound.setMapsize ?_, hcov.setMapsize newsize, hpos, ?_, hends.le, ?_⟩
    · rw [hnp, hlay]
      exact hpage'
    · change (u.extendAll calls).npages = (newsize - 1) / (u.extendAll calls).lay.dbperpage + 1
      rw [hnp, hlay]
    · change E < newsize → type = .fsdiskmap ∧ E % (u.extendAll calls).lay.agsize = 0 ∧
        ((min (u.extendAll calls).lay.agsize (newsize - E) : Nat) : Int) < minsize
      rw [hlay]
      exact hends.short
  unfold vmGrowmapx
  dsimp only
  rw [if_neg (by omega), hrun]
  dsimp only
  rw [if_neg fun h => h rfl]
  rcases h.first with rfl | ⟨rfl, hC, hlt, -⟩
  · have hu : Paged s (if type = .pgdiskmap then { t with mapsize := newsize } else t) s.mapsize
        ((newsize - 1) / s.lay.dbperpage + 1) := by
      split
      · exact ht.setMapsize hpage'
      · exact ht
    have hpg : ∀ q, (if type = .pgdiskmap then { t with mapsize := newsize } else t).page q =
        t.page q := fun q => by split <;> rfl
    rw [ht.lay, ← hu.lay, ← hpg] at hnb
    obtain ⟨calls, E, hgrow, hends⟩ := growGroups_full type minsize hnb hle
    rw [hu.lay] at hends hgrow
    rw [hgrow]
    exact hfinish hu hends
  · rw [if_neg MapType.noConfusion]
    rw [ht.lay] at hnb
    obtain ⟨calls, E, z, hgrow, hz, hends⟩ := growGroups_withheld minsize (t := t)
      (by rw [ht.lay]; exact hnb) (by rwa [ht.lay]) hlt hle
    rw [ht.lay] at hends
    rw [hgrow]
    refine hfinish (ht.setMapsize (hz.trans ?_)) hends
    have hsize := ht.sound.size
    rwa [ht.npages, ht.lay] at hsize

theorem Settled.rest {minsize : Int} {E : Nat} (h : Settled s type minsize E)
    (hmin : type ≠ .fsdiskmap ∨ minsize ≤ s.lay.agsize) : Rest s type E := by
  refine ⟨h.sound, h.pos, h.npages, h.covers, ?_⟩
  rcases Nat.lt_or_eq_of_le h.le with hlt | heq
  · obtain ⟨htype, hE, hshort⟩ := h.short hlt
    have hmin := hmin.resolve_left fun hne => hne htype
    exact .inr ⟨htype, hE, hlt, by omega⟩
  · exact .inl heq

/-- A growth frees the fragments from the first one that is not covered up to
`newsize`, or to the last group that a disk map may begin, and begins their
groups. Once more it finds nothing to do. -/
theorem growth_adds {newsize : Nat} (minsize : Int) {pin : Nat → Nat} (h : Rest s type C)
    (hle : s.mapsize ≤ newsize) (hmax : newsize ≤ maxmapsize)
    (hpin : type = .pgdiskmap → ∀ k, pin k = 0) :
    ∃ g E, vmGrowmapx s newsize type minsize pin = some g ∧ Adds s C E g ∧ E ≤ newsize ∧
      (E < newsize → type = .fsdiskmap ∧ E % s.lay.agsize = 0) ∧
      (type ≠ .fsdiskmap ∨ minsize ≤ s.lay.agsize →
        E = growthEnd s.lay type minsize C newsize ∧
          Rest { g.map with mapsize := newsize } type E) ∧
      ∃ calls, vmGrowmapx { g.map with mapsize := newsize } newsize type minsize pin =
        some ⟨{ g.map with mapsize := newsize }, calls, 0⟩ := by
  obtain ⟨g, E, hrun, hadds, hends, hlay, hset⟩ := h.grows minsize hle hmax hpin
  refine ⟨g, E, hrun, hadds, hends.le, fun hlt => ?_, fun hmin => ⟨hends.last hmin, ?_⟩,
    hset.again hmax pin⟩
  · obtain ⟨htype, hE, -⟩ := hends.short hlt
    exact ⟨htype, hE⟩
  · exact hset.rest (by rwa [← hlay] at hmin)

/-- The map that `initmap` makes first: block 0 looks allocated. -/
def initmap (l : Layout) : Vmdmap where
  lay := l
  mapsize := 1
  freecnt := 0
  totalags := 1
  lastalloc := 0
  npages := 1
  page _ := { freshPage with agcnt := 1 }

theorem initmap_rest (l : Layout) (type : MapType) : Rest (initmap l) type 1 := by
  have hpos := dbperpage_pos l
  have hbelow : groupsBelow l 1 = 1 :=
    groupsBelow_eq l (by rw [Nat.one_mul]; exact l.pos) (by omega)
  have hgroups : 1 ≤ l.dbperpage / l.agsize :=
    (Nat.one_le_div_iff l.pos).mpr (Nat.le_of_dvd hpos l.pages)
  have hinit : Initial (initmap l) := ⟨rfl, rfl, le_rfl, rfl, le_rfl⟩
  refine ⟨hinit.sound, Nat.one_pos, ?_, ⟨?_, fun q hq => ?_, fun k _ _ => ?_⟩, .inl rfl⟩
  · change 1 = 0 / l.dbperpage + 1
    rw [Nat.zero_div]
  · change 1 ≤ 1 * l.dbperpage
    omega
  · obtain rfl : q = 0 := Nat.lt_one_iff.mp hq
    change 1 = groupsIn l 1 0
    rw [groupsIn, hbelow, Nat.zero_mul]
    omega
  · exact ⟨pbit_ones _, pbit_ones _⟩

/-- Groups of 512 fragments in pages of 16384. -/
def smallGroups : Layout where
  version := .v4
  agsize := 512
  clsize := 32
  pos := by decide
  dwords := by decide
  pages := by decide
  cluster := lateMap.lay.cluster

theorem growth_adds_pages : ∃ g E, vmGrowmapx (initmap smallGroups) 40000 .fsdiskmap 128
    (fun _ => 0) = some g ∧ Adds (initmap smallGroups) 1 E g ∧ E ≤ 40000 ∧
      (E < 40000 → MapType.fsdiskmap = .fsdiskmap ∧ E % 512 = 0) ∧
      (MapType.fsdiskmap ≠ .fsdiskmap ∨ (128 : Int) ≤ 512 →
        E = growthEnd smallGroups .fsdiskmap 128 1 40000 ∧
          Rest { g.map with mapsize := 40000 } .fsdiskmap E) ∧
      ∃ calls, vmGrowmapx { g.map with mapsize := 40000 } 40000 .fsdiskmap 128 (fun _ => 0) =
        some ⟨{ g.map with mapsize := 40000 }, calls, 0⟩ :=
  growth_adds 128 (initmap_rest smallGroups .fsdiskmap) (by decide) (by decide) nofun

/-- More than a group is asked for, and yet groups are begun. -/
theorem growth_begins_short : ¬∀ (s : Vmdmap) (C newsize : Nat) (minsize : Int) (g : Growth),
    Rest s .fsdiskmap C → s.mapsize ≤ newsize → newsize ≤ maxmapsize →
    vmGrowmapx s newsize .fsdiskmap minsize (fun _ => 0) = some g →
    ∀ c ∈ g.calls, c.2 % s.lay.agsize = 0 → minsize ≤ c.1 := by
  intro h
  have hrest := initmap_rest smallGroups .fsdiskmap
  have hcalls : (vmGrowmapx (initmap smallGroups) 1536 .fsdiskmap 600 fun _ => 0).map
      Growth.calls = some [(511, 1), (512, 512)] := by decide
  obtain ⟨g, hrun, hg⟩ := Option.map_eq_some_iff.mp hcalls
  have hmem : (512, 512) ∈ g.calls := by
    rw [hg]
    decide
  have hbad := h _ 1 1536 600 g hrest (by decide) (by decide) hrun _ hmem (by decide)
  exact absurd hbad (by decide)

end Vmdmap

end Aix413.Dmap
