import Aix413.Dmap.Freeing
import Mathlib.Order.SuccPred.Archimedean

namespace Aix413.Dmap

open Lib.BitRuns

variable {map : Nat → Word} {w₁ w₂ : Word} {v : Version} {l : Layout} {a d i j m n : Nat}

/-! ## Double words and their bytes -/

theorem pbit_dword (map : Nat → Word) (d : Nat) (hi : i < 64) :
    pbit map (64 * d + i) = dbit (map (2 * d)) (map (2 * d + 1)) i := by
  by_cases h : i < 32
  · rw [dbit_first _ _ h, ← pbit_word map (2 * d) h]
    congr 1
    omega
  · obtain ⟨k, rfl⟩ := Nat.exists_eq_add_of_le (show 32 ≤ i by omega)
    rw [dbit_second, ← pbit_word map (2 * d + 1) (by omega)]
    congr 1
    omega

theorem run_dword (h : i + n ≤ 64) :
    Run (dbit (map (2 * d)) (map (2 * d + 1))) i n ↔ Run (pbit map) (64 * d + i) n := by
  constructor
  · intro hr k h1 h2
    obtain ⟨j, rfl⟩ := Nat.exists_eq_add_of_le (show 64 * d ≤ k by omega)
    rw [pbit_dword map d (by omega)]
    exact hr j (by omega) (by omega)
  · intro hr k h1 h2
    rw [← pbit_dword map d (by omega)]
    exact hr _ (by omega) (by omega)

theorem extract_bit (w : Word) (e : Nat) (he : e < 4) (hi : i < 8) :
    (w.extractLsb' (24 - 8 * e) 8).toNat.testBit (7 - i) = w.getMsbD (8 * e + i) := by
  have hback : 32 - 1 - (8 * e + i) = 24 - 8 * e + (7 - i) := by omega
  rw [BitVec.testBit_toNat, BitVec.getLsbD_extractLsb', decide_eq_true (by omega), Bool.true_and,
    BitVec.getMsbD_eq_getLsbD, decide_eq_true (by omega), Bool.true_and, hback]

/-- Bit `i` of a character of a double word. -/
theorem chars_bit (w₁ w₂ : Word) (hd : d < 8) (hi : i < 8) :
    ((chars w₁ w₂)[d]?).map (fun c => c.toNat.testBit (7 - i)) = some (dbit w₁ w₂ (8 * d + i)) := by
  have hfirst : ∀ e < 4, (w₁.extractLsb' (24 - 8 * e) 8).toNat.testBit (7 - i) =
      dbit w₁ w₂ (8 * e + i) :=
    fun e he => (extract_bit w₁ e he hi).trans (dbit_first w₁ w₂ (by omega)).symm
  have hsecond : ∀ e < 4, (w₂.extractLsb' (24 - 8 * e) 8).toNat.testBit (7 - i) =
      dbit w₁ w₂ (32 + (8 * e + i)) :=
    fun e he => (extract_bit w₂ e he hi).trans (dbit_second w₁ w₂ _).symm
  have hfour : ∀ e, 32 + (8 * e + i) = 8 * (e + 4) + i := fun e => by omega
  interval_cases d
  · exact congrArg some (hfirst 0 (by omega))
  · exact congrArg some (hfirst 1 (by omega))
  · exact congrArg some (hfirst 2 (by omega))
  · exact congrArg some (hfirst 3 (by omega))
  · exact congrArg some ((hsecond 0 (by omega)).trans (congrArg _ (hfour 0)))
  · exact congrArg some ((hsecond 1 (by omega)).trans (congrArg _ (hfour 1)))
  · exact congrArg some ((hsecond 2 (by omega)).trans (congrArg _ (hfour 2)))
  · exact congrArg some ((hsecond 3 (by omega)).trans (congrArg _ (hfour 3)))

/-- The byte has a string of `n` free fragments. -/
def byteFits (c n : Nat) : Bool :=
  (List.range 9).any fun j => j + n ≤ 8 && (List.range n).all fun i => !c.testBit (7 - (j + i))

theorem dmaptab_fits : ∀ c < 256, ∀ n < 9, decide (charMask n ≤ dmaptab c) = byteFits c n := by
  decide +kernel

theorem byteFits_iff (c n : Nat) :
    byteFits c n = true ↔ ∃ j, j + n ≤ 8 ∧ ∀ i < n, c.testBit (7 - (j + i)) = false := by
  unfold byteFits
  rw [List.any_eq_true]
  simp only [List.mem_range, Bool.and_eq_true, decide_eq_true_eq, List.all_eq_true,
    Bool.not_eq_true']
  constructor
  · rintro ⟨j, -, h⟩
    exact ⟨j, h⟩
  · rintro ⟨j, h1, h2⟩
    exact ⟨j, by omega, h1, h2⟩

theorem charMax_le {m : Nat} (maxc : Nat) (h : n ≤ maxc) (cs : List (BitVec 8)) :
    n ≤ charMax maxc m cs ↔ n ≤ m ∨ ∃ c ∈ cs, n ≤ dmaptab c.toNat := by
  induction cs generalizing m with
  | nil => simp [charMax]
  | cons c cs ih =>
    rw [charMax]
    split
    · rename_i hmax
      refine iff_of_true h ?_
      rcases le_max_iff.mp (h.trans hmax) with h' | h'
      · exact .inl h'
      · exact .inr ⟨c, List.mem_cons_self, h'⟩
    · rw [ih, le_max_iff]
      simp only [List.mem_cons, exists_eq_or_imp]
      exact or_assoc

/-- A double word has a string of `n` free fragments, in the older maps inside a byte. -/
def Fits (v : Version) (w₁ w₂ : Word) (n : Nat) : Prop :=
  ∃ i, i + n ≤ 64 ∧ (v = .v3 → i % 8 + n ≤ 8) ∧ Run (dbit w₁ w₂) i n

theorem fits_v3 (w₁ w₂ : Word) (n : Nat) :
    Fits .v3 w₁ w₂ n ↔ ∃ c ∈ chars w₁ w₂, byteFits c.toNat n = true := by
  constructor
  · rintro ⟨i, h64, h8, hr⟩
    have h8 := h8 rfl
    by_cases hn : n = 0
    · subst hn
      exact ⟨_, List.mem_cons_self, (byteFits_iff _ 0).mpr ⟨0, by omega, fun k hk => by omega⟩⟩
    · have hd : i / 8 < (chars w₁ w₂).length := by change i / 8 < 8; omega
      refine ⟨(chars w₁ w₂)[i / 8], List.getElem_mem hd, (byteFits_iff _ n).mpr
        ⟨i % 8, h8, fun k hk => ?_⟩⟩
      have hc := chars_bit w₁ w₂ (d := i / 8) (i := i % 8 + k) (by omega) (by omega)
      rw [List.getElem?_eq_getElem hd, Option.map_some] at hc
      rw [Option.some.inj hc]
      exact hr _ (by omega) (by omega)
  · rintro ⟨c, hc, hfit⟩
    obtain ⟨d, hget⟩ := List.mem_iff_getElem?.mp hc
    obtain ⟨hd, -⟩ := List.getElem?_eq_some_iff.mp hget
    have hd : d < 8 := hd
    obtain ⟨j, hj, hz⟩ := (byteFits_iff _ n).mp hfit
    refine ⟨8 * d + j, by omega, fun _ => by omega, fun k h1 h2 => ?_⟩
    obtain ⟨i, rfl⟩ := Nat.exists_eq_add_of_le h1
    have hb := chars_bit w₁ w₂ (d := d) (i := j + i) hd (by omega)
    rw [hget, Option.map_some] at hb
    rw [Nat.add_assoc, ← Option.some.inj hb]
    exact hz i (by omega)

theorem fits_v4 (w₁ w₂ : Word) (n : Nat) : Fits .v4 w₁ w₂ n ↔ n ≤ vMaxstring w₁ w₂ := by
  have hlong := vMaxstring_spec w₁ w₂
  constructor
  · rintro ⟨i, h64, -, hr⟩
    exact hlong.most i n (Nat.zero_le i) h64 hr
  · intro hn
    rcases hlong.found with h0 | ⟨i, -, h64, hr⟩
    · rw [h0] at hn
      exact ⟨0, by omega, nofun, fun k h1 h2 => by omega⟩
    · exact ⟨i, by omega, nofun, hr.mono le_rfl (by omega)⟩

theorem charMask_mono : ∀ m < 9, ∀ n ≤ m, charMask n ≤ charMask m := by decide

/-- A leaf says whether its double word has room. -/
theorem dbfreemsk_le (l : Layout) (w₁ w₂ : Word) (hn : n ≤ l.clsize) :
    dbfreemsk l.version n ≤ dwordMax l w₁ w₂ ↔ Fits l.version w₁ w₂ n := by
  have hcl := l.cluster.2
  unfold dbfreemsk dwordMax
  cases hv : l.version with
  | v3 =>
    rw [hv] at hcl
    have hcl : l.clsize ≤ 8 := hcl
    have hbyte : ∀ c : BitVec 8, charMask n ≤ dmaptab c.toNat ↔ byteFits c.toNat n = true := by
      intro c
      rw [← dmaptab_fits c.toNat c.isLt n (by omega), decide_eq_true_eq]
    change charMask n ≤ charMax (charMask l.clsize) 0 (chars w₁ w₂) ↔ _
    rw [charMax_le _ (charMask_mono _ (by omega) n hn), fits_v3]
    constructor
    · rintro (h | ⟨c, hc, h⟩)
      · exact ⟨_, List.mem_cons_self, (hbyte _).mp (h.trans (Nat.zero_le _))⟩
      · exact ⟨c, hc, (hbyte c).mp h⟩
    · rintro ⟨c, hc, h⟩
      exact .inr ⟨c, hc, (hbyte c).mpr h⟩
  | v4 => exact (fits_v4 w₁ w₂ n).symm

/-! ## What a leaf encodes -/

/-- The encoding of a length is that of a longest string: in a double word as it is, in a byte with
high bits, and no more than the cluster size. -/
def Encodes (l : Layout) (w₁ w₂ : Word) (leaf : Nat) : Prop :=
  match l.version with
  | .v3 => ∃ m, IsGreatest {n | n ≤ 8 ∧ Fits .v3 w₁ w₂ n} m ∧ leaf = charMask (min m l.clsize)
  | .v4 => IsGreatest {n | Fits .v4 w₁ w₂ n} leaf

theorem fits_zero (v : Version) (w₁ w₂ : Word) : Fits v w₁ w₂ 0 :=
  ⟨0, by omega, fun _ => by omega, run_zero _ 0⟩

theorem Fits.mono (h : Fits v w₁ w₂ n) (hm : m ≤ n) : Fits v w₁ w₂ m := by
  obtain ⟨i, h1, h2, hr⟩ := h
  exact ⟨i, by omega, fun hv => by have := h2 hv; omega, hr.mono le_rfl (by omega)⟩

theorem dmaptab_form : ∀ c < 256, ∃ n ≤ 8, dmaptab c = charMask n := by
  decide +kernel

theorem charMask_lt_iff : ∀ n ≤ 8, ∀ m ≤ 8, charMask n ≤ charMask m ↔ n ≤ m := by decide

theorem charMax_form {maxn : Nat} (hmax : maxn ≤ 8) (cs : List (BitVec 8)) : ∀ {m : Nat}, m < maxn →
    ∃ k ≤ maxn, charMax (charMask maxn) (charMask m) cs = charMask k := by
  induction cs with
  | nil => exact fun {m} hm => ⟨m, by omega, rfl⟩
  | cons c cs ih =>
    intro m hm
    obtain ⟨n, hn, hc⟩ := dmaptab_form c.toNat c.isLt
    have hmono := charMask_lt_iff
    have hmaxc : max (charMask m) (dmaptab c.toNat) = charMask (max m n) := by
      rw [hc]
      rcases le_total m n with h | h
      · rw [max_eq_right h, max_eq_right ((hmono m (by omega) n hn).mpr h)]
      · rw [max_eq_left h, max_eq_left ((hmono n hn m (by omega)).mpr h)]
    rw [charMax, hmaxc]
    split
    · exact ⟨maxn, le_rfl, rfl⟩
    · rename_i hlt
      exact ih (by
        by_contra hge
        exact hlt ((hmono maxn hmax (max m n) (by omega)).mpr (by omega)))

theorem dwordMax_encodes (l : Layout) (w₁ w₂ : Word) : Encodes l w₁ w₂ (dwordMax l w₁ w₂) := by
  have hle := fun n => dbfreemsk_le (n := n) l w₁ w₂
  obtain ⟨hpos, hcl⟩ := l.cluster
  unfold Encodes
  cases hv : l.version with
  | v3 =>
    rw [hv] at hcl
    have hcl : l.clsize ≤ 8 := hcl
    obtain ⟨k, hk, hform⟩ : ∃ k ≤ l.clsize, dwordMax l w₁ w₂ = charMask k := by
      rw [dwordMax, hv]
      exact charMax_form hcl (chars w₁ w₂) (m := 0) hpos
    have hfit : ∀ n ≤ l.clsize, Fits .v3 w₁ w₂ n ↔ n ≤ k := by
      intro n hn
      have h := hle n hn
      rw [hv, hform] at h
      exact h.symm.trans (charMask_lt_iff n (by omega) k (by omega))
    have hbdd : BddAbove {n | n ≤ 8 ∧ Fits .v3 w₁ w₂ n} := ⟨8, fun n hn => hn.1⟩
    obtain ⟨m, hm⟩ := hbdd.exists_isGreatest_of_nonempty ⟨0, by omega, fits_zero _ _ _⟩
    refine ⟨m, hm, hform.trans (congrArg charMask ?_)⟩
    have hkm : k ≤ m := hm.2 ⟨by omega, (hfit k hk).mpr le_rfl⟩
    rcases le_total m l.clsize with h | h
    · rw [min_eq_left h]
      exact le_antisymm hkm ((hfit m h).mp hm.1.2)
    · rw [min_eq_right h]
      exact le_antisymm hk ((hfit l.clsize le_rfl).mp (hm.1.2.mono h))
  | v4 =>
    rw [dwordMax, hv]
    refine ⟨(fits_v4 w₁ w₂ _).mpr le_rfl, fun n hn => (fits_v4 w₁ w₂ n).mp hn⟩

/-! ## A string of fragments is found -/

theorem vFindstring_finds (w₁ w₂ : Word) (n : Nat) : Finds w₁ w₂ n (vFindstring w₁ w₂ n) := by
  by_cases hn : 0 < n
  · exact vFindstring_spec w₁ w₂ hn
  · obtain rfl : n = 0 := by omega
    have h0 : vFindstring w₁ w₂ 0 = 0 := by
      unfold vFindstring
      rw [findLoop, if_pos (Nat.zero_le _)]
    rw [h0]
    exact .inl ⟨by omega, run_zero _ 0, fun i hi => by omega⟩

end Aix413.Dmap
