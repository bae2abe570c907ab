import Aix413.Dmap.Summaries

namespace Aix413.Dmap

open Lib.MaxTree

variable {s : Vmdmap} {p q word rem nag n a : Nat} {δ : Int} {wmap : Nat → Word} {pg : Page}

namespace Vmdmap

/-! ## What a change of one page leaves -/

@[simp] theorem setPage_lay : (s.setPage p pg).lay = s.lay := rfl
@[simp] theorem setPage_npages : (s.setPage p pg).npages = s.npages := rfl
@[simp] theorem setPage_mapsize : (s.setPage p pg).mapsize = s.mapsize := rfl
@[simp] theorem setPage_totalags : (s.setPage p pg).totalags = s.totalags := rfl
@[simp] theorem setPage_freecnt : (s.setPage p pg).freecnt = s.freecnt := rfl
@[simp] theorem setPage_self : (s.setPage p pg).page p = pg := Function.update_self _ _ _

theorem setPage_of_ne (h : q ≠ p) : (s.setPage p pg).page q = s.page q :=
  Function.update_of_ne h _ _

theorem setPage_setPage (s : Vmdmap) (p : Nat) (pg pg' : Page) :
    (s.setPage p pg).setPage p pg' = s.setPage p pg' := by
  unfold setPage
  simp only [Function.update_idem]

theorem setPage_same : s.setPage p (s.page p) = s := by
  rw [setPage, Function.update_eq_self]

@[simp] theorem setWmap_lay : (s.setWmap p wmap).lay = s.lay := rfl
@[simp] theorem setWmap_npages : (s.setWmap p wmap).npages = s.npages := rfl
@[simp] theorem setWmap_mapsize : (s.setWmap p wmap).mapsize = s.mapsize := rfl
@[simp] theorem setWmap_totalags : (s.setWmap p wmap).totalags = s.totalags := rfl
@[simp] theorem setWmap_freecnt : (s.setWmap p wmap).freecnt = s.freecnt := rfl
@[simp] theorem setWmap_self : (s.setWmap p wmap).page p = { s.page p with wmap := wmap } :=
  setPage_self

theorem setWmap_of_ne (h : q ≠ p) : (s.setWmap p wmap).page q = s.page q := setPage_of_ne h

theorem setWmap_same : s.setWmap p (s.page p).wmap = s := setPage_same

@[simp] theorem account_lay : (s.account p nag word δ).lay = s.lay := rfl
@[simp] theorem account_npages : (s.account p nag word δ).npages = s.npages := rfl
@[simp] theorem account_mapsize : (s.account p nag word δ).mapsize = s.mapsize := rfl
@[simp] theorem account_totalags : (s.account p nag word δ).totalags = s.totalags := rfl
@[simp] theorem account_freecnt : (s.account p nag word δ).freecnt = s.freecnt + δ := rfl
@[simp] theorem account_lastalloc : (s.account p nag word δ).lastalloc = s.lastalloc := rfl

theorem account_of_ne (h : q ≠ p) : (s.account p nag word δ).page q = s.page q :=
  setPage_of_ne h

@[simp] theorem account_wmap : ((s.account p nag word δ).page q).wmap = (s.page q).wmap := by
  by_cases h : q = p
  · subst h
    rw [account, setPage_self]
    rfl
  · rw [account_of_ne h]

@[simp] theorem account_pmap : ((s.account p nag word δ).page q).pmap = (s.page q).pmap := by
  by_cases h : q = p
  · subst h
    rw [account, setPage_self]
    rfl
  · rw [account_of_ne h]

@[simp] theorem account_agcnt : ((s.account p nag word δ).page q).agcnt = (s.page q).agcnt := by
  by_cases h : q = p
  · subst h
    rw [account, setPage_self]
    rfl
  · rw [account_of_ne h]

theorem account_agfree : ((s.account p nag word δ).page p).agfree =
    Function.update (s.page p).agfree nag ((s.page p).agfree nag + δ) := by
  rw [account, setPage_self]
  rfl

/-- The tree after the change, as it follows from the one before and the work map now. -/
theorem account_tree (nag word : Nat) (ht : IsMaxTree (s.page p).tree 84) (hd : word / 2 < 256) :
    IsMaxTree ((s.account p nag word δ).page p).tree 84 ∧
      ∀ d < 256, ((s.account p nag word δ).page p).tree (84 + d) = if d = word / 2 then
        dwordMax s.lay ((s.page p).wmap (2 * (word / 2))) ((s.page p).wmap (2 * (word / 2) + 1))
      else (s.page p).tree (84 + d) := by
  rw [account, setPage_self]
  exact vUpdtree_spec word ht hd

end Vmdmap

/-- Some fragments of a double word change hands, and the summaries go along. -/
theorem Sums.account {stale : Nat → Nat → Prop} (h : Sums s stale) (hp : p < s.npages)
    (ha : a / 64 = word / 2) (hin : a % 64 + n ≤ 64) (hd : a < s.lay.dbperpage)
    (hc : Changes (s.page p).wmap wmap a n δ) (hnag : a / s.lay.agsize = nag) :
    Sums ((s.setWmap p wmap).account p nag word δ) stale := by
  obtain ⟨-, k, hk⟩ := s.lay.dbperpage_le
  have hag : ∀ i, a ≤ i → i < a + n → i / s.lay.agsize = nag := by
    intro i h1 h2
    rw [← hnag]
    exact s.lay.same_ag (by omega)
  let pg : Page := { s.page p with
    wmap := wmap
    agfree := Function.update (s.page p).agfree nag ((s.page p).agfree nag + δ) }
  have hmid : Sums ({ s with freecnt := s.freecnt + δ }.setPage p pg) _ :=
    h.change (p := p) (δ := δ) nag rfl rfl hp (fun q hq => Vmdmap.setPage_of_ne hq)
      (by rw [Vmdmap.setPage_self]) (by rw [Vmdmap.setPage_self]; exact hc) hag (by omega)
      (by rw [Vmdmap.setPage_self]) rfl
  have hend : Sums ((s.setWmap p wmap).account p nag word δ) _ :=
    hmid.updtree (p := p) word hp (by change 64 * (word / 2) < s.lay.dbperpage; omega) (by
      rw [Vmdmap.setPage_self, Vmdmap.account, Vmdmap.setWmap_self]
      unfold Vmdmap.setPage Vmdmap.setWmap
      simp only [Function.update_idem, Vmdmap.setPage]
      rfl)
  refine hend.mono fun q hq d hd' hx => ?_
  obtain ⟨hx | hx, hy⟩ := hx
  · exact hx
  · refine absurd ⟨hx.1, ?_⟩ hy
    omega

end Aix413.Dmap
