import Aix413.Dmap.Accounts

namespace Aix413.Dmap

open Lib.MaxTree

variable {map : Nat → Word} {word rem n : Nat}

theorem mask₁_high (h : 32 ≤ rem) : mask₁ rem n = 0 := if_pos h

theorem mask₁_low (h : ¬32 ≤ rem) : mask₁ rem n = bitmask n >>> rem := if_neg h

theorem mask₂_high (h : 32 ≤ rem) : mask₂ rem n = bitmask n >>> (rem - 32) := if_pos h

theorem mask₂_low (h : ¬32 ≤ rem) (hn : 32 < rem + n) : mask₂ rem n = bitmask n <<< (32 - rem) := by
  rw [mask₂, if_neg h, if_pos hn]

theorem mask₂_none (h : ¬32 ≤ rem) (hn : ¬32 < rem + n) : mask₂ rem n = 0 := by
  rw [mask₂, if_neg h, if_neg hn]

theorem and_not_zero (w : Word) : w &&& ~~~(0 : Word) = w := by
  refine word_ext fun k hk => ?_
  rw [BitVec.getMsbD_and, BitVec.getMsbD_not, zero_bit, decide_eq_true hk]
  simp

theorem and_zero_word (w : Word) : w &&& (0 : Word) = 0 := BitVec.and_zero

/-! ## Addresses -/

theorem dbperpage_pos (l : Layout) : 0 < l.dbperpage := by
  unfold Layout.dbperpage wbitsperpage
  cases l.version <;> decide

theorem mod_page (l : Layout) (f : Nat) :
    f - f / l.dbperpage * l.dbperpage = f % l.dbperpage := by
  have hdm := Nat.div_add_mod f l.dbperpage
  rw [Nat.mul_comm] at hdm
  omega

/-- The parts of a fragment number. -/
theorem address (l : Layout) (f : Nat) : f % l.dbperpage < l.dbperpage ∧
    f % l.dbperpage / 32 / 2 * 2 = 2 * (f % l.dbperpage / 64) ∧
    f % l.dbperpage % 64 = f % 64 ∧ f / l.dbperpage * l.dbperpage + f % l.dbperpage = f := by
  refine ⟨Nat.mod_lt f (dbperpage_pos l), by omega, Nat.mod_mod_of_dvd f l.dbperpage_le.2, ?_⟩
  rw [Nat.mul_comm]
  exact Nat.div_add_mod f l.dbperpage

/-! ## Fragments in the permanent map -/

/-- Some of the fragments are allocated. -/
def held (map : Nat → Word) (a n : Nat) : Prop := ∃ i, a ≤ i ∧ i < a + n ∧ pbit map i = true

theorem held_first (hn : n ≤ 32) : map word &&& mask₁ rem n ≠ 0 ↔ ∃ i, 32 * word + rem ≤ i ∧
    i < 32 * word + rem + n ∧ i < 32 * word + 32 ∧ pbit map i = true := by
  rw [ne_eq, and_eq_zero_iff]
  push Not
  constructor
  · rintro ⟨k, hk, hm, hb⟩
    rw [mask₁_bit hn hk] at hm
    have hm := of_decide_eq_true hm
    refine ⟨32 * word + k, by omega, by omega, by omega, ?_⟩
    rw [pbit_word map word hk]
    exact Bool.eq_true_of_not_eq_false hb
  · rintro ⟨i, h1, h2, h3, hb⟩
    obtain ⟨k, rfl⟩ := Nat.exists_eq_add_of_le (show 32 * word ≤ i by omega)
    have hk : k < 32 := by omega
    rw [pbit_word map word hk] at hb
    refine ⟨k, hk, ?_, by rw [hb]; decide⟩
    rw [mask₁_bit hn hk]
    exact decide_eq_true (by omega)

theorem held_second (hn : n ≤ 32) (hrem : rem + n ≤ 64) : map (word + 1) &&& mask₂ rem n ≠ 0 ↔
    ∃ i, 32 * word + rem ≤ i ∧ i < 32 * word + rem + n ∧ 32 * word + 32 ≤ i ∧ pbit map i = true := by
  rw [ne_eq, and_eq_zero_iff]
  push Not
  constructor
  · rintro ⟨k, hk, hm, hb⟩
    rw [mask₂_bit hn hk] at hm
    have hm := of_decide_eq_true hm
    refine ⟨32 * (word + 1) + k, by omega, by omega, by omega, ?_⟩
    rw [pbit_word map _ hk]
    exact Bool.eq_true_of_not_eq_false hb
  · rintro ⟨i, h1, h2, h3, hb⟩
    obtain ⟨k, rfl⟩ := Nat.exists_eq_add_of_le (show 32 * (word + 1) ≤ i by omega)
    have hk : k < 32 := by omega
    rw [pbit_word map _ hk] at hb
    refine ⟨k, hk, ?_, by rw [hb]; decide⟩
    rw [mask₂_bit hn hk]
    exact decide_eq_true (by omega)

namespace Vmdmap

variable {s : Vmdmap} {fragno : Nat}

/-- `v_bitfree` word by word. -/
theorem vBitfree_eq (hn : 0 < n) (hmap : fragno + n ≤ s.mapsize) {p bitno : Nat}
    (hp : fragno / s.lay.dbperpage = p) (hbit : fragno - p * s.lay.dbperpage = bitno)
    (hword : bitno / 32 / 2 * 2 = word) (hrem : bitno % 64 = rem)
    (htaken : taken (s.page p).wmap word rem n = true) :
    s.vBitfree fragno n =
      if (s.page p).pmap word &&& mask₁ rem n ≠ 0 then some s
      else if (s.page p).pmap (word + 1) &&& mask₂ rem n ≠ 0 then
        some (s.setWmap p (Function.update (s.page p).wmap word
          ((s.page p).wmap word &&& ~~~mask₁ rem n)))
      else some ((s.setWmap p (clearBits (s.page p).wmap word rem n)).account p
        (bitno / s.lay.agsize) word n) := by
  have htw := htaken
  unfold taken at htw
  rw [Bool.and_eq_true, decide_eq_true_eq, decide_eq_true_eq] at htw
  obtain ⟨h1, h2⟩ := htw
  have hok : ¬(n = 0 ∨ s.mapsize < fragno + n) := by omega
  have hne : word + 1 ≠ word := by omega
  unfold vBitfree
  rw [if_neg hok]
  simp only [hp, hbit, hword, dbperdword, hrem, clearBits]
  split
  · -- the fragments are in the second word
    rename_i hhigh
    rw [mask₂_high hhigh] at h2
    rw [if_neg (not_not.mpr h2), mask₁_high hhigh, mask₂_high hhigh, and_not_zero,
      Function.update_eq_self, setWmap_same, if_neg (not_not.mpr (and_zero_word _))]
  · rename_i hlow
    rw [mask₁_low hlow] at h1
    rw [if_neg (not_not.mpr h1), mask₁_low hlow]
    split
    · rfl
    · split
      · rename_i hcross
        rw [mask₂_low hlow hcross] at h2
        rw [Function.update_of_ne hne, if_neg (not_not.mpr h2), mask₂_low hlow hcross]
      · rename_i hcross
        rw [mask₂_none hlow hcross, if_neg (not_not.mpr (and_zero_word _)), and_not_zero,
          Function.update_eq_self]

/-! ## All or nothing -/

/-- The tree of a page is right. -/
def TreeRight (s : Vmdmap) (p : Nat) : Prop :=
  IsMaxTree (s.page p).tree 84 ∧
    ∀ d < 256, (s.page p).tree (84 + d) = leafValue s.lay (s.page p) d

/-- Just these fragments are free now, and the summaries of their page say so. -/
structure Freed (s s' : Vmdmap) (p bitno n : Nat) : Prop where
  wmap : Takes (s'.page p).wmap (s.page p).wmap bitno n
  pmap : (s'.page p).pmap = (s.page p).pmap
  others : ∀ q, q ≠ p → s'.page q = s.page q
  agfree : (s'.page p).agfree = Function.update (s.page p).agfree (bitno / s.lay.agsize)
    ((s.page p).agfree (bitno / s.lay.agsize) + n)
  freecnt : s'.freecnt = s.freecnt + n
  tree : s.TreeRight p → s'.TreeRight p

/-- Either all of the fragments are freed or, where the permanent map holds some of them, nothing
happens. -/
def AllOrNothing (s : Vmdmap) (fragno n : Nat) : Prop :=
  let p := fragno / s.lay.dbperpage
  let bitno := fragno - p * s.lay.dbperpage
  (held (s.page p).pmap bitno n → s.vBitfree fragno n = some s) ∧
    (¬held (s.page p).pmap bitno n → ∃ s', s.vBitfree fragno n = some s' ∧ Freed s s' p bitno n)

/-- The permanent map holds only fragments in the second word of the double word. -/
def HeldLate (s : Vmdmap) (fragno n : Nat) : Prop :=
  let p := fragno / s.lay.dbperpage
  let bitno := fragno - p * s.lay.dbperpage
  let next := (bitno / 32 + 1) * 32
  bitno % 64 < 32 ∧ ¬held (s.page p).pmap bitno (next - bitno) ∧
    held (s.page p).pmap next (bitno + n - next)

theorem masks_of_long (rem : Nat) (h : 32 < n) (h64 : n ≤ 64) :
    mask₁ rem n = 0 ∧ mask₂ rem n = 0 := by
  have hamount : (((32 : Int) - n) % 64).toNat = 96 - n := by omega
  have hzero : bitmask n = 0 := by
    rw [bitmask, slw, hamount, BitVec.shiftLeft_eq_zero (by omega)]
    rfl
  unfold mask₁ mask₂
  rw [hzero]
  constructor
  · split <;> simp
  · split
    · simp
    · split <;> simp

theorem clearBits_of_zero (map : Nat → Word) (word : Nat) (h1 : mask₁ rem n = 0)
    (h2 : mask₂ rem n = 0) : clearBits map word rem n = map := by
  unfold clearBits
  rw [h1, h2, and_not_zero, Function.update_eq_self]
  dsimp only
  rw [and_not_zero, Function.update_eq_self]

theorem freed_account {p bitno : Nat} (hn : n ≤ 32) (hrem : rem + n ≤ 64)
    (hword : bitno / 64 * 2 = word) (hbit : bitno % 64 = rem) (hin : bitno < s.lay.dbperpage)
    (htaken : taken (s.page p).wmap word rem n = true) :
    Freed s ((s.setWmap p (clearBits (s.page p).wmap word rem n)).account p
      (bitno / s.lay.agsize) word n) p bitno n := by
  obtain ⟨hle, -⟩ := s.lay.dbperpage_le
  have hb : 32 * word + rem = bitno := by omega
  have hd : word / 2 = bitno / 64 := by omega
  have htakes : Takes (clearBits (s.page p).wmap word rem n) (s.page p).wmap bitno n := by
    rw [← hb]
    exact takes_clearBits hn hrem htaken
  refine ⟨?_, ?_, fun q hq => ?_, ?_, ?_, fun ⟨ht, hl⟩ => ?_⟩
  · rw [account_wmap, setWmap_self]
    exact htakes
  · rw [account_pmap, setWmap_self]
  · rw [account_of_ne hq, setWmap_of_ne hq]
  · rw [account_agfree, setWmap_self]
  · rw [account_freecnt, setWmap_freecnt]
  · obtain ⟨h1, h2⟩ := account_tree (s := s.setWmap p (clearBits (s.page p).wmap word rem n))
      (p := p) (δ := n) (bitno / s.lay.agsize) word (by rw [setWmap_self]; exact ht) (by omega)
    refine ⟨h1, fun d hd' => ?_⟩
    rw [h2 d hd', setWmap_self, leafValue, account_lay, account_wmap, setWmap_lay, setWmap_self]
    by_cases hdw : d = word / 2
    · rw [if_pos hdw, hdw, if_pos (by omega)]
    · have hsame : ∀ k, k / 2 = d → clearBits (s.page p).wmap word rem n k = (s.page p).wmap k :=
        fun k hk => (htakes.same_word (by omega)).symm
      rw [if_neg hdw, hl d hd', leafValue]
      dsimp only
      rw [hsame (2 * d) (by omega), hsame (2 * d + 1) (by omega)]

/-- What `v_bitfree` does with too many fragments. -/
theorem vBitfree_long (hn : 32 < n) (hmap : fragno + n ≤ s.mapsize) (hd : fragno % 64 + n ≤ 64)
    {p bitno : Nat} (hp : fragno / s.lay.dbperpage = p)
    (hbit : fragno - p * s.lay.dbperpage = bitno) (hmod : bitno % 64 = fragno % 64) :
    s.vBitfree fragno n = some (s.account p (bitno / s.lay.agsize) (bitno / 32 / 2 * 2) n) := by
  obtain ⟨h1, h2⟩ := masks_of_long (bitno % 64) hn (by omega)
  have htaken : taken (s.page p).wmap (bitno / 32 / 2 * 2) (bitno % 64) n = true := by
    rw [taken, h1, h2]
    simp
  rw [vBitfree_eq (by omega) hmap hp hbit rfl rfl htaken, h1, h2,
    if_neg (not_not.mpr (and_zero_word _)), if_neg (not_not.mpr (and_zero_word _)),
    clearBits_of_zero _ _ h1 h2, setWmap_same]

/-- All fragments are clear in the permanent map. -/
theorem vBitfree_frees {p bitno : Nat} (hn : 0 < n) (h32 : n ≤ 32) (hmap : fragno + n ≤ s.mapsize)
    (hd : bitno % 64 + n ≤ 64) (hp : fragno / s.lay.dbperpage = p)
    (hbit : fragno - p * s.lay.dbperpage = bitno)
    (halloc : ∀ i, bitno ≤ i → i < bitno + n → pbit (s.page p).wmap i = true)
    (hnone : ¬held (s.page p).pmap bitno n) :
    taken (s.page p).wmap (bitno / 64 * 2) (bitno % 64) n = true ∧ s.vBitfree fragno n =
      some ((s.setWmap p (clearBits (s.page p).wmap (bitno / 64 * 2) (bitno % 64) n)).account p
        (bitno / s.lay.agsize) (bitno / 64 * 2) n) := by
  have hb : 32 * (bitno / 64 * 2) + bitno % 64 = bitno := by omega
  have htaken : taken (s.page p).wmap (bitno / 64 * 2) (bitno % 64) n = true := by
    rw [taken_eq_true h32 hd, hb]
    exact halloc
  refine ⟨htaken, ?_⟩
  rw [vBitfree_eq hn hmap hp hbit (by omega) rfl htaken, if_neg, if_neg]
  · rw [held_second h32 hd, hb]
    rintro ⟨i, h1, h2, -, hi⟩
    exact hnone ⟨i, h1, h2, hi⟩
  · rw [held_first h32, hb]
    rintro ⟨i, h1, h2, -, hi⟩
    exact hnone ⟨i, h1, h2, hi⟩

/-- Some fragment is in the permanent map: nothing happens, or the first word is lost. -/
theorem vBitfree_held {p bitno : Nat} (hn : 0 < n) (h32 : n ≤ 32) (hmap : fragno + n ≤ s.mapsize)
    (hd : bitno % 64 + n ≤ 64) (hp : fragno / s.lay.dbperpage = p)
    (hbit : fragno - p * s.lay.dbperpage = bitno)
    (halloc : ∀ i, bitno ≤ i → i < bitno + n → pbit (s.page p).wmap i = true)
    (hheld : held (s.page p).pmap bitno n) :
    s.vBitfree fragno n = some s ↔
      (bitno % 64 < 32 → held (s.page p).pmap bitno ((bitno / 32 + 1) * 32 - bitno)) := by
  have hb : 32 * (bitno / 64 * 2) + bitno % 64 = bitno := by omega
  have htaken : taken (s.page p).wmap (bitno / 64 * 2) (bitno % 64) n = true := by
    rw [taken_eq_true h32 hd, hb]
    exact halloc
  rw [vBitfree_eq hn hmap hp hbit (by omega) rfl htaken]
  by_cases hfirst : (s.page p).pmap (bitno / 64 * 2) &&& mask₁ (bitno % 64) n ≠ 0
  · -- nothing was touched yet
    obtain ⟨i, h1, h2, h3, hi⟩ := (held_first h32).mp hfirst
    exact iff_of_true (if_pos hfirst) fun _ => ⟨i, by omega, by omega, hi⟩
  · rw [if_neg hfirst]
    have hfree : ∀ i, bitno ≤ i → i < bitno + n → i < 32 * (bitno / 64 * 2) + 32 →
        pbit (s.page p).pmap i ≠ true :=
      fun i h1 h2 h3 hi => hfirst ((held_first h32).mpr ⟨i, by omega, by omega, h3, hi⟩)
    obtain ⟨i, h1, h2, hi⟩ := hheld
    have h3 : 32 * (bitno / 64 * 2) + 32 ≤ i := by
      by_contra h3
      exact hfree i h1 h2 (by omega) hi
    rw [if_pos ((held_second h32 hd).mpr ⟨i, by omega, by omega, h3, hi⟩)]
    by_cases hlow : bitno % 64 < 32
    · refine iff_of_false (fun heq => ?_) fun hall => ?_
      · have hw := congrArg (fun r => (r.page p).wmap) (Option.some.inj heq)
        simp only [setWmap_self] at hw
        have hbit := congrArg (fun m => pbit m bitno) hw
        simp only [pbit_update] at hbit
        rw [if_pos (by omega), BitVec.getMsbD_and, BitVec.getMsbD_not, mask₁_bit h32 (by omega),
          halloc bitno le_rfl (by omega), decide_eq_true (p := bitno % 64 ≤ bitno % 32 ∧
            bitno % 32 < bitno % 64 + n) (by omega)] at hbit
        simp at hbit
      · obtain ⟨j, h4, h5, hj⟩ := hall hlow
        exact hfree j h4 (by omega) (by omega) hj
    · rw [mask₁_high (by omega), and_not_zero, Function.update_eq_self, setWmap_same]
      exact iff_of_true rfl fun h => absurd h hlow

theorem vBitfree_all_or_nothing_iff (s : Vmdmap) (fragno n : Nat) (hn : 0 < n)
    (hmap : fragno + n ≤ s.mapsize) (hd : fragno % 64 + n ≤ 64)
    (halloc : ∀ i, fragno % s.lay.dbperpage ≤ i → i < fragno % s.lay.dbperpage + n →
      pbit (s.page (fragno / s.lay.dbperpage)).wmap i = true) :
    s.AllOrNothing fragno n ↔ n ≤ 32 ∧ ¬s.HeldLate fragno n := by
  obtain ⟨hin, -, hmod, -⟩ := address s.lay fragno
  have hbit := mod_page s.lay fragno
  unfold AllOrNothing HeldLate
  dsimp only
  rw [hbit]
  generalize hp : fragno / s.lay.dbperpage = p at *
  generalize fragno % s.lay.dbperpage = bitno at *
  by_cases h32 : n ≤ 32
  · rw [and_iff_right h32]
    by_cases hheld : held (s.page p).pmap bitno n
    · have hrun := vBitfree_held hn h32 hmap (by omega) hp hbit halloc hheld
      obtain ⟨i, h1, h2, hi⟩ := hheld
      constructor
      · rintro hall ⟨hlow, hfirst, -⟩
        exact hfirst (hrun.mp (hall.1 ⟨i, h1, h2, hi⟩) hlow)
      · refine fun hlate => ⟨fun _ => hrun.mpr fun hlow => ?_, fun hno => absurd ⟨i, h1, h2, hi⟩ hno⟩
        by_contra hfirst
        refine hlate ⟨hlow, hfirst, i, ?_, by omega, hi⟩
        by_contra hlt
        exact hfirst ⟨i, h1, by omega, hi⟩
    · obtain ⟨htaken, hrun⟩ := vBitfree_frees hn h32 hmap (by omega) hp hbit halloc hheld
      refine iff_of_true ⟨fun hyes => absurd hyes hheld, fun _ => ⟨_, hrun, ?_⟩⟩ ?_
      · exact freed_account h32 (by omega) rfl rfl hin htaken
      · rintro ⟨-, -, i, h1, h2, hi⟩
        exact hheld ⟨i, by omega, by omega, hi⟩
  · refine iff_of_false (fun hall => ?_) fun hc => h32 hc.1
    have hrun := vBitfree_long (by omega) hmap hd hp hbit hmod
    by_cases hheld : held (s.page p).pmap bitno n
    · have hcnt := congrArg Vmdmap.freecnt (Option.some.inj (hrun.symm.trans (hall.1 hheld)))
      rw [account_freecnt] at hcnt
      omega
    · obtain ⟨s', hs', hf⟩ := hall.2 hheld
      have hkept := congrArg (fun r => (r.page p).wmap) (Option.some.inj (hrun.symm.trans hs'))
      simp only [account_wmap] at hkept
      have hgone := hf.wmap.free bitno le_rfl (by omega)
      rw [← hkept, halloc bitno le_rfl (by omega)] at hgone
      cases hgone

/-- One page of 16 allocation groups with all fragments allocated. The permanent map has lost
those of the first word. -/
def lateMap : Vmdmap where
  lay :=
    { version := .v4, agsize := 1024, clsize := 32, pos := by decide, dwords := by decide
      pages := by decide, cluster := by decide }
  mapsize := 16384
  freecnt := 0
  totalags := 16
  lastalloc := 0
  npages := 1
  page _ := { freshPage with agcnt := 16, pmap := Function.update (fun _ => ones) 0 0 }

/-- Fragment 32 is still in the permanent map, and fragment 31 is freed without a count. -/
theorem vBitfree_drops_fragment : (∀ i, 31 ≤ i → i < 33 → pbit (lateMap.page 0).wmap i = true) ∧
    held (lateMap.page 0).pmap 31 2 ∧ ¬lateMap.AllOrNothing 31 2 := by
  refine ⟨fun i h1 h2 => ?_, ⟨32, by decide, by decide, by decide⟩, fun hall => ?_⟩
  · interval_cases i <;> decide
  · have hsame := hall.1 ⟨32, by decide, by decide, by decide⟩
    have hword := congrArg (fun r => r.map fun t : Vmdmap => (t.page 0).wmap 0) hsame
    revert hword
    decide

/-- Fragments 0 and 1 come back. -/
theorem lateMap_frees : lateMap.AllOrNothing 0 2 := by
  refine (vBitfree_all_or_nothing_iff lateMap 0 2 (by decide) (by decide) (by decide) ?_).mpr
    ⟨by decide, ?_⟩
  · intro i _ h2
    have h2 : i < 2 := h2
    interval_cases i <;> decide
  · rintro ⟨-, -, i, h1, h2, -⟩
    have h1 : 32 ≤ i := h1
    have h2 : i < 32 + (0 + 2 - 32) := h2
    omega

end Vmdmap

end Aix413.Dmap
