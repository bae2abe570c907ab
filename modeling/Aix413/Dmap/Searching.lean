import Aix413.Dmap.Allocating

namespace Aix413.Dmap

open Lib.BitRuns Lib.MaxTree

namespace Vmdmap

variable {s : Vmdmap} {p b c d i n nag k pref : Nat}

/-- What holds of a map between two calls. -/
structure Sound (s : Vmdmap) : Prop where
  sums : Sums s fun _ _ => False
  size : s.mapsize ≤ s.npages * s.lay.dbperpage
  agcnt : ∀ p < s.npages, (s.page p).agcnt ≤ s.lay.dbperpage / s.lay.agsize
  totalags : s.totalags = ∑ p ∈ Finset.range s.npages, (s.page p).agcnt

theorem agsize_mul (l : Layout) : l.dbperpage / l.agsize * l.agsize = l.dbperpage :=
  Nat.div_mul_cancel l.pages

theorem group_lt {rem : Nat} (l : Layout) (h : rem < l.dbperpage) :
    rem / l.agsize < l.dbperpage / l.agsize := by
  rw [Nat.div_lt_iff_lt_mul l.pos, agsize_mul]
  exact h

theorem Sound.totalags_le (h : Sound s) :
    s.totalags ≤ s.npages * (s.lay.dbperpage / s.lay.agsize) := by
  rw [h.totalags]
  have hsum := Finset.sum_le_sum fun p hp => h.agcnt p (Finset.mem_range.mp hp)
  rw [Finset.sum_const, Finset.card_range, smul_eq_mul] at hsum
  exact hsum

/-! ## v_nextag -/

theorem agLoop_lt (avgfree : Int) (h0 : 0 < s.totalags) (m : Nat) : ∀ {ag f : Nat},
    s.agLoop avgfree m ag = some f → ∃ ag' < s.totalags, f = ag' * s.lay.agsize := by
  induction m with
  | zero => nofun
  | succ m ih =>
    intro ag f hf
    rw [agLoop] at hf
    generalize hag : (if s.totalags ≤ ag + 1 then 0 else ag + 1) = ag' at hf
    have hlt : ag' < s.totalags := by
      rw [← hag]
      split <;> omega
    split at hf
    · exact ⟨ag', hlt, (Option.some.inj hf).symm⟩
    · exact ih hf

/-- `v_nextag` gives a fragment of a page that is there. -/
theorem vNextag_page (h : Sound s) {f : Nat} (hf : f / s.lay.dbperpage < s.npages) :
    s.vNextag f / s.lay.dbperpage < s.npages := by
  unfold vNextag
  dsimp only
  cases hloop : s.agLoop (s.freecnt / s.totalags) s.totalags (f / s.lay.agsize) with
  | none => exact hf
  | some g =>
    have h0 : 0 < s.totalags := by
      by_contra hz
      rw [Nat.eq_zero_of_not_pos hz] at hloop
      cases hloop
    obtain ⟨ag, hag, rfl⟩ := agLoop_lt _ h0 _ hloop
    rw [Option.getD_some, Nat.div_lt_iff_lt_mul (dbperpage_pos s.lay)]
    calc ag * s.lay.agsize < s.totalags * s.lay.agsize := Nat.mul_lt_mul_of_pos_right hag s.lay.pos
      _ ≤ s.npages * (s.lay.dbperpage / s.lay.agsize) * s.lay.agsize :=
        Nat.mul_le_mul_right _ h.totalags_le
      _ = s.npages * s.lay.dbperpage := by rw [Nat.mul_assoc, agsize_mul]

/-! ## The double words next to the hint -/

/-- One of four double words from bit `b` of a page on, in its allocation group. -/
def near (s : Vmdmap) (b d : Nat) : Prop :=
  b / 64 ≤ d ∧ d < b / 64 + 4 ∧ 64 * d / s.lay.agsize = b / s.lay.agsize

theorem nearLoop_spec (p c d₁ m : Nat) : ∀ word,
    (∃ d, word / 2 ≤ d ∧ d < word / 2 + m ∧ d < d₁ ∧ s.nearLoop p c (2 * d₁) m word = some (84 + d) ∧
      c ≤ (s.page p).tree (84 + d) ∧ ∀ e, word / 2 ≤ e → e < d → (s.page p).tree (84 + e) < c) ∨
    s.nearLoop p c (2 * d₁) m word = none ∧
      ∀ e, word / 2 ≤ e → e < word / 2 + m → e < d₁ → (s.page p).tree (84 + e) < c := by
  induction m with
  | zero => exact fun word => .inr ⟨rfl, fun e h1 h2 => by omega⟩
  | succ m ih =>
    intro word
    have hcp : 4 * (leafind + word / 8) + word % 8 / 2 = 84 + word / 2 := by
      unfold leafind
      omega
    rw [nearLoop]
    split
    · rename_i hlt
      dsimp only
      rw [hcp]
      split
      · rename_i hc
        exact .inl ⟨word / 2, le_rfl, by omega, by omega, rfl, hc, fun e h1 h2 => by omega⟩
      · rename_i hc
        have hnext : (word + 2) / 2 = word / 2 + 1 := by omega
        rcases ih (word + 2) with ⟨d, h1, h2, h3, h4, h5, h6⟩ | ⟨h1, h2⟩
        · refine .inl ⟨d, by omega, by omega, h3, h4, h5, fun e he1 he2 => ?_⟩
          by_cases he : e = word / 2
          · rw [he]
            exact not_le.mp hc
          · exact h6 e (by omega) he2
        · refine .inr ⟨h1, fun e he1 he2 he3 => ?_⟩
          by_cases he : e = word / 2
          · rw [he]
            exact not_le.mp hc
          · exact h2 e (by omega) (by omega) he3
    · exact .inr ⟨rfl, fun e h1 h2 h3 => by omega⟩

/-- A double word of a page has room for a request, wherever the map ends. -/
def DwordFits (s : Vmdmap) (p d n : Nat) : Prop :=
  Fits s.lay.version ((s.page p).wmap (2 * d)) ((s.page p).wmap (2 * d + 1)) n

/-- The first double word next to a hint that has room for a request. -/
structure FirstNear (s : Vmdmap) (pref n d : Nat) : Prop where
  near : s.near (pref % s.lay.dbperpage) d
  fits : s.DwordFits (pref / s.lay.dbperpage) d n
  first : ∀ e, s.near (pref % s.lay.dbperpage) e → e < d →
    ¬s.DwordFits (pref / s.lay.dbperpage) e n

theorem FirstNear.unique {d' : Nat} (h : s.FirstNear pref n d) (h' : s.FirstNear pref n d') :
    d' = d := by
  rcases Nat.lt_trichotomy d' d with hlt | heq | hgt
  · exact absurd h'.fits (h.first d' h'.near hlt)
  · exact heq
  · exact absurd h.fits (h'.first d h.near hgt)

theorem near_lt (hb : b < s.lay.dbperpage) (hd : s.near b d) : 64 * d < s.lay.dbperpage := by
  have hgroup := (Nat.div_eq_iff s.lay.pos).mp hd.2.2
  have hend : (b / s.lay.agsize + 1) * s.lay.agsize ≤ s.lay.dbperpage :=
    (Nat.mul_le_mul_right _ (group_lt s.lay hb)).trans_eq (agsize_mul s.lay)
  rw [Nat.succ_mul] at hend
  have := s.lay.pos
  omega

/-! ## v_alloc -/

/-- Next to the hint the first candidate decides, the other searches go through the whole map. -/
theorem vAlloc_cases (h : Sound s) (hn : n ≤ s.lay.clsize) (hpref : pref < s.mapsize) :
    (pref ≠ 0 ∧ ∃ d, s.FirstNear pref n d ∧ 64 * d < s.lay.dbperpage ∧
      s.vAlloc n pref = s.alloccp (pref / s.lay.dbperpage) (84 + d) n) ∨
    (pref = 0 ∨ ∀ d, ¬s.FirstNear pref n d) ∧ Outcome s n s.everywhere (s.vAlloc n pref) := by
  have hmp := lt_mapPages hpref
  have hpage := mapPages_le h.size
  have hpos := dbperpage_pos s.lay
  unfold vAlloc
  split
  · rename_i h0
    exact .inr ⟨.inl h0, allocany_outcome h.sums hn h.size (lt_of_le_of_lt (Nat.zero_le _) hmp)⟩
  · rename_i h0
    obtain ⟨k, hk0, hk, hwper, hgroup⟩ := group_words s.lay
    have hrem : pref % s.lay.dbperpage < s.lay.dbperpage := Nat.mod_lt _ hpos
    have hnag := group_lt s.lay hrem
    have hlast : ∀ nag, (nag + 1) * (2 * k) = 2 * ((nag + 1) * k) := fun nag => by ring
    have hhere : pref % s.lay.dbperpage / 32 / 2 = pref % s.lay.dbperpage / 64 := by omega
    have hown := (hgroup (pref % s.lay.dbperpage / 64) (pref % s.lay.dbperpage / s.lay.agsize)).mp
      (s.lay.same_ag (by omega))
    simp only [mod_page, hwper, hlast]
    generalize hnagdef : pref % s.lay.dbperpage / s.lay.agsize = nag at *
    have hnear : ∀ d, s.near (pref % s.lay.dbperpage) d ↔ pref % s.lay.dbperpage / 32 / 2 ≤ d ∧
        d < pref % s.lay.dbperpage / 32 / 2 + 4 ∧ d < (nag + 1) * k := by
      intro d
      rw [near, hnagdef, hgroup d nag, hhere]
      omega
    have hfits : ∀ d, s.near (pref % s.lay.dbperpage) d →
        (s.DwordFits (pref / s.lay.dbperpage) d n ↔
          dbfreemsk s.lay.version n ≤ (s.page (pref / s.lay.dbperpage)).tree (84 + d)) :=
      fun d hd => (promises_iff h.sums (by omega) hn (near_lt hrem hd)).symm
    rcases nearLoop_spec (s := s) (pref / s.lay.dbperpage) (dbfreemsk s.lay.version n)
      ((nag + 1) * k) 4 (pref % s.lay.dbperpage / 32) with ⟨d, h1, h2, h3, h4, h5, h6⟩ | ⟨h1, h2⟩
    · rw [h4]
      have hd := (hnear d).mpr ⟨h1, h2, h3⟩
      refine .inl ⟨h0, d, ⟨hd, (hfits d hd).mpr h5, fun e he hlt hfe => ?_⟩, near_lt hrem hd, rfl⟩
      exact absurd ((hfits e he).mp hfe) (not_le.mpr (h6 e ((hnear e).mp he).1 hlt))
    · refine .inr ⟨.inr fun d hd => ?_, ?_⟩
      · obtain ⟨h3, h4, h5⟩ := (hnear d).mp hd.near
        exact absurd ((hfits d hd.near).mp hd.fits) (not_le.mpr (h2 d h3 h4 h5))
      · rw [h1]
        have hany := allocany_outcome h.sums hn h.size hmp
        have hag := allocag_outcome h.sums (by omega : pref / s.lay.dbperpage < s.npages) hn hnag
        dsimp only
        generalize s.allocag (pref / s.lay.dbperpage) nag n = r at hag
        cases hag with
        | found p b hpg hp hb hd hr => exact .found p b hpg hp hb hd hr
        | enospc hnone =>
          dsimp only
          split
          · have hap := vNextag_page h (by omega : pref / s.lay.dbperpage < s.npages)
            have hag' := allocag_outcome h.sums hap hn
              (group_lt s.lay (Nat.mod_lt (s.vNextag pref) hpos))
            generalize s.allocag (s.vNextag pref / s.lay.dbperpage)
              (s.vNextag pref % s.lay.dbperpage / s.lay.agsize) n = r at hag'
            cases hag' with
            | found p b hpg hp hb hd hr => exact .found p b hpg hp hb hd hr
            | enospc hnone => exact hany
          · exact hany

end Vmdmap

end Aix413.Dmap
