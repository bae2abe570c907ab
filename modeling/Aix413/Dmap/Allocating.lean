import Aix413.Dmap.Leaves

namespace Aix413.Dmap

open Lib.BitRuns Lib.MaxTree

namespace Vmdmap

variable {s : Vmdmap} {p q b c d i n nag k : Nat} {r : Ret} {R R' : Nat → Nat → Prop}

/-! ## What an allocation does -/

/-- Fragments from bit `b` of a page on are taken. -/
def take (s : Vmdmap) (p b n : Nat) : Vmdmap :=
  (s.setWmap p (setBits (s.page p).wmap (2 * (b / 64)) (b % 64) n)).account p (b / s.lay.agsize)
    (2 * (b / 64)) (-n)

/-- What `alloccp` does besides. -/
def allocate (s : Vmdmap) (p b n : Nat) : Vmdmap :=
  { s with lastalloc := p * s.lay.dbperpage + b }.take p b n

/-- Fragments that a request may have: in one double word, or byte, free and in the map. -/
def Room (s : Vmdmap) (p d n : Nat) : Prop :=
  ∃ i, i + n ≤ 64 ∧ (s.lay.version = .v3 → i % 8 + n ≤ 8) ∧
    Run (pbit (s.page p).wmap) (64 * d + i) n ∧ p * s.lay.dbperpage + (64 * d + i) < s.mapsize ∧
    p * s.lay.dbperpage + (64 * d + i) + n ≤ s.mapsize

/-- A search through some double words ends: it allocates free fragments, or nothing there has
room. -/
inductive Outcome (s : Vmdmap) (n : Nat) (R : Nat → Nat → Prop) : Ret → Prop
  | enospc (h : ∀ p d, R p d → ¬s.Room p d n) : Outcome s n R (some (s, .error .enospc))
  | found (p b : Nat) (hpg : p < s.npages) (hp : p * s.lay.dbperpage + b + n ≤ s.mapsize)
    (hb : b < s.lay.dbperpage) (hd : b % 64 + n ≤ 64) (hr : Run (pbit (s.page p).wmap) b n) :
    Outcome s n R (some (s.allocate p b n, .ok (p * s.lay.dbperpage + b)))

theorem Outcome.mono (h : Outcome s n R r) (hR : ∀ p d, R' p d → s.Room p d n → R p d) :
    Outcome s n R' r := by
  cases h with
  | enospc h => exact .enospc fun p d hr hroom => h p d (hR p d hr hroom) hroom
  | found p b hpg hp hb hd hr => exact .found p b hpg hp hb hd hr

/-- The leftmost string of free fragments in a double word. -/
def Leftmost (s : Vmdmap) (p d n i : Nat) : Prop :=
  i + n ≤ 64 ∧ i < 64 ∧ Run (pbit (s.page p).wmap) (64 * d + i) n ∧
    ∀ j < i, ¬Run (pbit (s.page p).wmap) (64 * d + j) n

/-- The leaf of a double word promises enough. -/
def Promises (s : Vmdmap) (p d n : Nat) : Prop :=
  dbfreemsk s.lay.version n ≤ (s.page p).tree (84 + d)

theorem alloccp_leftmost (hn : n ≤ 32) (hd : 64 * d < s.lay.dbperpage)
    (hfit : Fits s.lay.version ((s.page p).wmap (2 * d)) ((s.page p).wmap (2 * d + 1)) n) :
    ∃ i, s.Leftmost p d n i ∧ s.alloccp p (84 + d) n =
      if s.mapsize < p * s.lay.dbperpage + (64 * d + i) + n then some (s, .error .enospc)
      else some (s.allocate p (64 * d + i) n, .ok (p * s.lay.dbperpage + (64 * d + i))) := by
  obtain ⟨j, hj64, -, hj⟩ := hfit
  have hword : (84 + d - 4 * leafind) * 2 = 2 * d := by
    unfold leafind
    omega
  generalize hpos : vFindstring ((s.page p).wmap (2 * d)) ((s.page p).wmap (2 * d + 1)) n = i
  rcases hpos ▸ vFindstring_finds ((s.page p).wmap (2 * d)) ((s.page p).wmap (2 * d + 1)) n with
    ⟨h64, hr, hleft⟩ | ⟨-, hnone⟩
  · have hi : i < 64 := by
      by_contra hge
      exact hleft 0 (by omega) ((run_zero _ 0).mono le_rfl (by omega))
    refine ⟨i, ⟨h64, hi, (run_dword h64).mp hr, fun k hk hk' => ?_⟩, ?_⟩
    · exact hleft k hk ((run_dword (by omega)).mpr hk')
    · have hbit : 32 * (2 * d) + i = 64 * d + i := by omega
      have hdiv : (64 * d + i) / 64 = d := by omega
      have hmod : (64 * d + i) % 64 = i := by omega
      have hfree : busy (s.page p).wmap (2 * d) i n = false := by
        rw [busy_eq_false hn h64, hbit]
        exact (run_dword h64).mp hr
      unfold alloccp
      rw [if_neg (by change ¬32 < n; omega)]
      simp only [hword, hpos, hbit, dbperdword, hmod]
      rw [if_neg (by omega), Nat.add_comm (64 * d + i) (p * s.lay.dbperpage)]
      split
      · rfl
      · rw [hfree, if_neg Bool.false_ne_true, allocate, take, hdiv, hmod]
  · exact absurd hj (hnone j hj64)

/-- Where the leftmost string passes the end of the map, so do all others from there on. -/
theorem Leftmost.not_room (h : s.Leftmost p d n i)
    (hpast : s.mapsize < p * s.lay.dbperpage + (64 * d + i) + n) : ¬s.Room p d n := by
  rintro ⟨j, -, -, hr, -, hin⟩
  by_cases hj : j < i
  · exact h.2.2.2 j hj hr
  · omega

theorem promises_iff (h : Sums s fun _ _ => False) (hp : p < s.npages) (hn : n ≤ s.lay.clsize)
    (hd : 64 * d < s.lay.dbperpage) : s.Promises p d n ↔
      Fits s.lay.version ((s.page p).wmap (2 * d)) ((s.page p).wmap (2 * d + 1)) n := by
  obtain ⟨hle, -⟩ := s.lay.dbperpage_le
  rw [Promises, h.leaf p hp d (by omega) not_false, leafValue, if_pos hd]
  exact dbfreemsk_le s.lay _ _ hn

theorem Room.promises (h : Sums s fun _ _ => False) (hp : p < s.npages) (hn : n ≤ s.lay.clsize)
    (hd : 64 * d < s.lay.dbperpage) (hroom : s.Room p d n) : s.Promises p d n := by
  obtain ⟨i, h64, h8, hr, -, -⟩ := hroom
  exact (promises_iff h hp hn hd).mpr ⟨i, h64, h8, (run_dword h64).mpr hr⟩

theorem clsize_le (l : Layout) : l.clsize ≤ 32 := by
  refine l.cluster.2.trans ?_
  cases l.version <;> decide

/-- A search that ends with a double word whose leaf promises enough, where those before it do
not. -/
theorem alloccp_outcome (h : Sums s fun _ _ => False) (hp : p < s.npages) (hn : n ≤ s.lay.clsize)
    (hd : 64 * d < s.lay.dbperpage) (hprom : s.Promises p d n) (hR : ∀ q e, R q e → q = p ∧
      64 * e < s.lay.dbperpage ∧ (e < d → ¬s.Promises p e n)) :
    Outcome s n R (s.alloccp p (84 + d) n) := by
  have hcl := clsize_le s.lay
  obtain ⟨-, k, hk⟩ := s.lay.dbperpage_le
  obtain ⟨i, hleft, hrun⟩ := alloccp_leftmost (by omega) hd ((promises_iff h hp hn hd).mp hprom)
  have hi := hleft.2.1
  have h64 := hleft.1
  rw [hrun]
  split
  · rename_i hpast
    refine .enospc fun q e hqe hroom => ?_
    obtain ⟨rfl, he, hbefore⟩ := hR q e hqe
    rcases Nat.lt_trichotomy e d with hlt | rfl | hgt
    · exact hbefore hlt (hroom.promises h hp hn he)
    · exact hleft.not_room hpast hroom
    · obtain ⟨j, -, -, -, -, hin⟩ := hroom
      omega
  · rename_i hin
    exact .found p (64 * d + i) hp (by omega) (by omega) (by omega) hleft.2.2.1

/-! ## A page -/

theorem allocpg_outcome (h : Sums s fun _ _ => False) (hp : p < s.npages) (hn : n ≤ s.lay.clsize) :
    Outcome s n (fun q d => q = p ∧ 64 * d < s.lay.dbperpage) (s.allocpg p n) := by
  have ht := h.tree p hp
  have hle := s.lay.dbperpage_le.1
  have hfirst : firstLeaf 3 0 = 84 := rfl
  unfold allocpg
  dsimp only
  split
  · rename_i hnone
    rw [firstIn_none] at hnone
    refine .enospc fun q d hqd hroom => ?_
    obtain ⟨rfl, hd⟩ := hqd
    have hprom := hroom.promises h hp hn hd
    have hmax := le_wordMax_of_under (d := 3) ht 3 (w := 0) (i := 0) rfl (by decide) (84 + d)
      (by omega) (by rw [hfirst]; omega)
    exact absurd (hprom.trans hmax) (not_le.mpr hnone)
  · rename_i hsome
    rw [firstIn_none, not_lt] at hsome
    obtain ⟨x, hx, hlo, hhi, hcx, hleft⟩ :=
      descend_spec (d := 3) ht 3 (w := 0) (i := 0) rfl (by decide) hsome
    rw [hfirst] at hlo hhi hleft
    obtain ⟨d, rfl⟩ := Nat.exists_eq_add_of_le hlo
    have hd : 64 * d < s.lay.dbperpage := by
      by_contra hge
      have hpos := dbperpage_pos s.lay
      rw [h.leaf p hp d (by omega) not_false, leafValue, if_neg hge] at hcx
      have hzero := hleft 84 le_rfl (by omega)
      omega
    rw [hx]
    refine alloccp_outcome h hp hn hd hcx fun q e hqe => ⟨hqe.1, hqe.2, fun hlt => ?_⟩
    exact not_le.mpr (hleft (84 + e) (by omega) (by omega))

/-! ## All pages -/

theorem anyLoop_outcome (h : Sums s fun _ _ => False) (hn : n ≤ s.lay.clsize) (np m : Nat) :
    ∀ k, (∀ j < m, (if k + j < np then k + j else k + j - np) < s.npages) →
      Outcome s n (fun q d => (∃ j < m, q = if k + j < np then k + j else k + j - np) ∧
        64 * d < s.lay.dbperpage) (s.anyLoop p n np m k) := by
  induction m with
  | zero =>
    intro k _
    refine .enospc fun q d hqd => ?_
    obtain ⟨⟨j, hj, -⟩, -⟩ := hqd
    omega
  | succ m ih =>
    intro k hk
    have hhere := allocpg_outcome h (hk 0 (by omega)) hn
    rw [Nat.add_zero] at hhere
    rw [anyLoop]
    generalize s.allocpg (if k < np then k else k - np) n = r at hhere ⊢
    cases hhere with
    | found p b hpg hp hb hd hr => exact .found p b hpg hp hb hd hr
    | enospc hnone =>
      have hrest := ih (k + 1) fun j hj => by
        have := hk (j + 1) (by omega)
        rwa [show k + 1 + j = k + (j + 1) by omega]
      refine hrest.mono fun q d hqd hroom => ?_
      obtain ⟨⟨j, hj, hq⟩, hd⟩ := hqd
      refine ⟨?_, hd⟩
      cases j with
      | zero => exact absurd hroom (hnone q d ⟨hq, hd⟩)
      | succ j => exact ⟨j, by omega, by rw [show k + 1 + j = k + (j + 1) by omega]; exact hq⟩

/-- The pages that the map has. -/
def mapPages (s : Vmdmap) : Nat := (s.mapsize + s.lay.dbperpage - 1) / s.lay.dbperpage

theorem mapPages_le (hmap : s.mapsize ≤ s.npages * s.lay.dbperpage) : s.mapPages ≤ s.npages := by
  have hpos := dbperpage_pos s.lay
  refine Nat.le_of_lt_succ ((Nat.div_lt_iff_lt_mul hpos).mpr ?_)
  rw [Nat.succ_mul]
  omega

theorem lt_mapPages {f : Nat} (h : f < s.mapsize) : f / s.lay.dbperpage < s.mapPages := by
  have hpos := dbperpage_pos s.lay
  rw [Nat.div_lt_iff_lt_mul hpos]
  have hdm := Nat.div_add_mod (s.mapsize + s.lay.dbperpage - 1) s.lay.dbperpage
  have hml := Nat.mod_lt (s.mapsize + s.lay.dbperpage - 1) hpos
  rw [Nat.mul_comm] at hdm
  unfold mapPages
  omega

theorem Room.page (hroom : s.Room p d n) : p < s.mapPages := by
  obtain ⟨i, -, -, -, hin, -⟩ := hroom
  have hpos := dbperpage_pos s.lay
  have hlt := lt_mapPages hin
  refine lt_of_le_of_lt ?_ hlt
  rw [Nat.le_div_iff_mul_le hpos]
  omega

/-- In the whole map. -/
def everywhere (s : Vmdmap) (_ d : Nat) : Prop := 64 * d < s.lay.dbperpage

theorem allocany_outcome (h : Sums s fun _ _ => False) (hn : n ≤ s.lay.clsize)
    (hmap : s.mapsize ≤ s.npages * s.lay.dbperpage) (hp : p < s.mapPages) :
    Outcome s n s.everywhere (s.allocany p n) := by
  have hle := mapPages_le hmap
  have hno : ¬s.mapPages ≤ p := by omega
  change Outcome s n s.everywhere
    (if s.mapPages ≤ p then none else s.anyLoop p n s.mapPages s.mapPages p)
  rw [if_neg hno]
  refine (anyLoop_outcome h hn s.mapPages s.mapPages p fun j hj => ?_).mono
    fun q d hd hroom => ⟨?_, hd⟩
  · split <;> omega
  · have hq := hroom.page
    by_cases hqp : p ≤ q
    · exact ⟨q - p, by omega, by rw [if_pos (by omega)]; omega⟩
    · exact ⟨q + s.mapPages - p, by omega, by rw [if_neg (by omega)]; omega⟩

/-! ## An allocation group -/

/-- A scan over leaves from `d` on comes to `e`: no leaf before it promises enough. -/
def Passed (s : Vmdmap) (p c d e : Nat) : Prop :=
  d ≤ e ∧ ∀ x, d ≤ x → x < e → (s.page p).tree (84 + x) < c

theorem Passed.refl (s : Vmdmap) (p c d : Nat) : s.Passed p c d d :=
  ⟨le_rfl, fun x h1 h2 => by omega⟩

theorem Passed.trans {e f : Nat} (h : s.Passed p c d e) (h' : s.Passed p c e f) :
    s.Passed p c d f := by
  refine ⟨h.1.trans h'.1, fun x h1 h2 => ?_⟩
  by_cases hx : x < e
  · exact h.2 x h1 hx
  · exact h'.2 x (by omega) h2

theorem leafLoop_spec (p c : Nat) (more : Nat → Bool) (m : Nat) : ∀ d, more (2 * (d + m)) = false →
    ∃ e, s.Passed p c d e ∧
      (s.leafLoop p c more m (2 * d) = (2 * e, some (84 + e)) ∧ more (2 * e) = true ∧
          c ≤ (s.page p).tree (84 + e) ∨
        s.leafLoop p c more m (2 * d) = (2 * e, none) ∧ more (2 * e) = false) := by
  induction m with
  | zero =>
    intro d hstop
    exact ⟨d, Passed.refl s p c d, .inr ⟨rfl, hstop⟩⟩
  | succ m ih =>
    intro d hstop
    have hcp : 4 * leafind + 2 * d / 2 = 84 + d := by
      unfold leafind
      omega
    rw [leafLoop]
    cases hm : more (2 * d) with
    | false => exact ⟨d, Passed.refl s p c d, .inr ⟨if_neg Bool.false_ne_true, hm⟩⟩
    | true =>
      rw [if_pos rfl, hcp]
      by_cases hc : c ≤ (s.page p).tree (84 + d)
      · exact ⟨d, Passed.refl s p c d, .inl ⟨if_pos hc, hm, hc⟩⟩
      · dsimp only
        rw [if_neg hc, show 2 * d + 2 = 2 * (d + 1) by omega]
        obtain ⟨e, he, hres⟩ := ih (d + 1) (by rwa [show d + 1 + m = d + (m + 1) by omega])
        refine ⟨e, Passed.trans ⟨by omega, fun x h1 h2 => ?_⟩ he, hres⟩
        obtain rfl : x = d := by omega
        exact not_le.mp hc

/-- Where a character one level up promises enough, one of its leafword does. -/
theorem leafword_max (ht : IsMaxTree (s.page p).tree 84) (e : Nat) (he : e < 64) :
    c ≤ (s.page p).tree (20 + e) ↔ ∃ j < 4, c ≤ (s.page p).tree (84 + (4 * e + j)) := by
  rw [ht (20 + e) (by omega), le_wordMax_iff]
  have hcell : ∀ j, 4 * (20 + e + 1) + j = 84 + (4 * e + j) := fun j => by omega
  simp only [hcell]

theorem upLoop_spec (ht : IsMaxTree (s.page p).tree 84) {c w : Nat} (hw : w % 8 = 0)
    (hw512 : w ≤ 512) (m : Nat) : ∀ d, d % 4 = 0 ∨ w ≤ 2 * d → w ≤ 2 * d + 8 * m →
    ∃ e, s.Passed p c d e ∧
      ((s.upLoop p c w m (2 * d)).2 = some (some (84 + e)) ∧ 2 * e < w ∧
          c ≤ (s.page p).tree (84 + e) ∨
        s.upLoop p c w m (2 * d) = (2 * e, none) ∧ w ≤ 2 * e) := by
  induction m with
  | zero =>
    intro d _ hm
    exact ⟨d, Passed.refl s p c d, .inr ⟨rfl, by omega⟩⟩
  | succ m ih =>
    intro d hd hm
    rw [upLoop]
    by_cases hlt : 2 * d < w
    · obtain ⟨e, rfl⟩ : ∃ e, d = 4 * e := ⟨d / 4, by omega⟩
      have hlp : leafind + 2 * (4 * e) / 8 - 1 = 20 + e := by
        unfold leafind
        omega
      rw [if_pos hlt]
      dsimp only
      rw [hlp]
      by_cases hc : (s.page p).tree (20 + e) < c
      · -- the next leafword
        have hfour : s.Passed p c (4 * e) (4 * e + 4) := by
          refine ⟨by omega, fun x h1 h2 => ?_⟩
          obtain ⟨j, rfl⟩ := Nat.exists_eq_add_of_le h1
          by_contra hge
          exact absurd ((leafword_max ht e (by omega)).mpr ⟨j, by omega, not_lt.mp hge⟩)
            (not_le.mpr hc)
        rw [if_pos hc, show 2 * (4 * e) + 8 = 2 * (4 * e + 4) by omega]
        obtain ⟨f, hf, hres⟩ := ih (4 * e + 4) (by omega) (by omega)
        exact ⟨f, hfour.trans hf, hres⟩
      · rw [if_neg hc]
        obtain ⟨j, hj, hcj⟩ := (leafword_max ht e (by omega)).mp (not_lt.mp hc)
        obtain ⟨f, hf, ⟨hres, hmore, hcf⟩ | ⟨-, hstop⟩⟩ := leafLoop_spec (s := s) p c
          (fun w' => decide (w' < w)) w (4 * e) (decide_eq_false (by omega))
        · refine ⟨f, hf, .inl ⟨?_, of_decide_eq_true hmore, hcf⟩⟩
          rw [hres]
        · have hge := of_decide_eq_false hstop
          exact absurd (hf.2 (4 * e + j) (by omega) (by omega)) (not_lt.mpr hcj)
    · exact ⟨d, Passed.refl s p c d, .inr ⟨if_neg hlt, by omega⟩⟩

/-- In an allocation group of a page. -/
def inGroup (s : Vmdmap) (p nag q d : Nat) : Prop :=
  q = p ∧ 64 * d < s.lay.dbperpage ∧ 64 * d / s.lay.agsize = nag

theorem group_words (l : Layout) : ∃ k, 0 < k ∧ l.agsize = 64 * k ∧ l.agsize / 32 = 2 * k ∧
    ∀ d nag, 64 * d / l.agsize = nag ↔ nag * k ≤ d ∧ d < (nag + 1) * k := by
  obtain ⟨k, hk⟩ := l.dwords
  have hpos := l.pos
  refine ⟨k, by omega, hk, by omega, fun d nag => ?_⟩
  rw [hk, Nat.mul_div_mul_left _ _ (by omega), Nat.div_eq_iff (by omega), Nat.succ_mul]
  omega

theorem allocag_outcome (h : Sums s fun _ _ => False) (hp : p < s.npages) (hn : n ≤ s.lay.clsize)
    (hnag : nag < s.lay.dbperpage / s.lay.agsize) :
    Outcome s n (s.inGroup p nag) (s.allocag p nag n) := by
  obtain ⟨hle, -⟩ := s.lay.dbperpage_le
  unfold allocag
  split
  · exact (allocpg_outcome h hp hn).mono fun q d hqd _ => ⟨hqd.1, hqd.2.1⟩
  · obtain ⟨k, hk0, hk, hwper, hgroup⟩ := group_words s.lay
    have hend : (nag + 1) * s.lay.agsize ≤ s.lay.dbperpage :=
      (Nat.mul_le_mul_right _ hnag).trans (Nat.div_mul_le_self _ _)
    have hfirst : nag * (2 * k) = 2 * (nag * k) := by ring
    have hlast : (nag + 1) * (2 * k) = 2 * ((nag + 1) * k) := by ring
    have hsucc : (nag + 1) * k = nag * k + k := Nat.succ_mul _ _
    have hend' : 64 * ((nag + 1) * k) ≤ s.lay.dbperpage := by
      rw [hk] at hend
      linarith
    have hin := fun d => hgroup d nag
    rw [hwper]
    dsimp only
    rw [hfirst, hlast]
    generalize nag * k = d₀ at *
    generalize (nag + 1) * k = d₁ at *
    generalize hc : dbfreemsk s.lay.version n = c
    -- a leaf that was found
    have hfound : ∀ e, s.Passed p c d₀ e → e < d₁ → c ≤ (s.page p).tree (84 + e) →
        Outcome s n (s.inGroup p nag) (s.alloccp p (84 + e) n) := by
      intro e he hlt hce
      subst hc
      refine alloccp_outcome h hp hn (by omega) hce fun q x hqx => ?_
      obtain ⟨rfl, hx, hg⟩ := hqx
      exact ⟨rfl, hx, fun hlt => not_le.mpr (he.2 x ((hin x).mp hg).1 hlt)⟩
    obtain ⟨e, he, ⟨hres, hmore, hce⟩ | ⟨hres, hstop⟩⟩ := leafLoop_spec (s := s) p c
      (fun w => w / 2 % 4 ≠ 0 && w < 2 * d₁) (2 * k) d₀ (by simp; omega)
    · rw [hres]
      simp only [Bool.and_eq_true, decide_eq_true_eq] at hmore
      exact hfound e he (by omega) hce
    · rw [hres]
      dsimp only
      have hstop' : e % 4 = 0 ∨ d₁ ≤ e := by
        simp only [Bool.and_eq_false_iff, decide_eq_false_iff_not] at hstop
        omega
      obtain ⟨f, hf, ⟨hup, hlt, hcf⟩ | ⟨hup, hge⟩⟩ := upLoop_spec (s := s) (p := p) (h.tree p hp)
        (c := c) (w := 2 * d₁ / 8 * 8) (Nat.mul_mod_left _ _) (by omega) (2 * k) e (by omega)
        (by have := he.1; omega)
      · generalize s.upLoop p c (2 * d₁ / 8 * 8) (2 * k) (2 * e) = res at hup
        obtain ⟨w, r⟩ := res
        obtain rfl : r = some (some (84 + f)) := hup
        exact hfound f (he.trans hf) (by omega) hcf
      · rw [hup]
        dsimp only
        obtain ⟨g, hg, ⟨hres, hmore, hcg⟩ | ⟨hres, hstop⟩⟩ := leafLoop_spec (s := s) p c
          (fun w => w < 2 * d₁) (2 * k) f (by have := (he.trans hf).1; simp; omega)
        · rw [hres]
          have hlt := of_decide_eq_true hmore
          exact hfound g ((he.trans hf).trans hg) (by omega) hcg
        · rw [hres]
          have hge := of_decide_eq_false hstop
          refine .enospc fun q x hqx hroom => ?_
          obtain ⟨rfl, hx, hgx⟩ := hqx
          have hprom := hroom.promises h hp hn hx
          have hpass := ((he.trans hf).trans hg).2 x ((hin x).mp hgx).1 (by
            have := ((hin x).mp hgx).2
            omega)
          rw [Promises, hc] at hprom
          exact absurd hprom (not_le.mpr hpass)

end Vmdmap

end Aix413.Dmap
