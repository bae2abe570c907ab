import Aix413.Dmap.Operations

namespace Aix413.Dmap

open Lib.BitRuns Lib.MaxTree

variable {map : Nat → Word}

/-! ## The bits of an extension -/

theorem uzbit_shift_bit {k j : Nat} (hk : k < 32) (hj : j < 32) :
    (uzbit >>> k).getMsbD j = decide (j = k) := by
  rw [BitVec.getMsbD_ushiftRight]
  by_cases hlt : j < k
  · rw [decide_eq_true hlt, decide_eq_false (p := j = k) (by omega)]
    simp
  · rw [uzbit_bit (by omega), decide_eq_false hlt, decide_eq_true hj]
    simp only [Bool.not_false, Bool.true_and, decide_eq_decide]
    omega

theorem uzbit_shift_eq_zero {k : Nat} (hk : k ≤ 32) : uzbit >>> k = 0 ↔ k = 32 := by
  constructor
  · intro h
    by_contra hne
    have hb := uzbit_shift_bit (k := k) (j := k) (by omega) (by omega)
    rw [h, zero_bit] at hb
    simp at hb
  · rintro rfl
    decide

/-- `clearLoop` clears `nf` bits from the one on where it starts. -/
theorem clearLoop_bit (nf : Nat) : ∀ (map : Nat → Word) (word : Nat) {k : Nat}, k < 32 → ∀ i,
    pbit (Vmdmap.clearLoop nf map word (uzbit >>> k)) i =
      (pbit map i && !decide (32 * word + k ≤ i ∧ i < 32 * word + k + nf)) := by
  induction nf with
  | zero =>
    intro map word k _ i
    rw [Vmdmap.clearLoop, decide_eq_false (by omega), Bool.not_false, Bool.and_true]
  | succ nf ih =>
    intro map word k hk i
    have hstep : pbit (Function.update map word (map word &&& ~~~(uzbit >>> k))) i =
        (pbit map i && !decide (i = 32 * word + k)) := by
      have hmod : i % 32 < 32 := Nat.mod_lt _ (by omega)
      rw [pbit_update]
      split
      · rename_i h
        rw [BitVec.getMsbD_and, BitVec.getMsbD_not, decide_eq_true hmod, uzbit_shift_bit hk hmod,
          pbit, h, Bool.true_and]
        congr 2
        rw [decide_eq_decide]
        omega
      · rw [decide_eq_false (by omega), Bool.not_false, Bool.and_true]
    have hnext : uzbit >>> k >>> 1 = uzbit >>> (k + 1) := (BitVec.shiftRight_add _ _ _).symm
    rw [Vmdmap.clearLoop, hnext]
    split
    · rename_i hzero
      have h32 := (uzbit_shift_eq_zero (by omega)).mp hzero
      have hrest := ih (Function.update map word (map word &&& ~~~(uzbit >>> k)))
        (word + 1) (k := 0) (by omega) i
      rw [BitVec.ushiftRight_zero] at hrest
      rw [hrest, hstep, Bool.and_assoc, ← Bool.not_or, ← Bool.decide_or]
      congr 2
      rw [decide_eq_decide]
      omega
    · rename_i hzero
      have hlt : k + 1 < 32 := by
        have := mt (uzbit_shift_eq_zero (k := k + 1) (by omega)).mpr hzero
        omega
      rw [ih _ _ hlt, hstep, Bool.and_assoc, ← Bool.not_or, ← Bool.decide_or]
      congr 2
      rw [decide_eq_decide]
      omega

/-- The fragments of an extension become free. -/
theorem takes_clearLoop (map : Nat → Word) (word : Nat) {n k : Nat} (hk : k < 32)
    (hall : ∀ i, 32 * word + k ≤ i → i < 32 * word + k + n → pbit map i = true) :
    Takes (Vmdmap.clearLoop n map word (uzbit >>> k)) map (32 * word + k) n := by
  refine ⟨fun i => ?_, fun i h1 h2 => ?_⟩
  · rw [clearLoop_bit n map word hk]
    by_cases hin : 32 * word + k ≤ i ∧ i < 32 * word + k + n
    · rw [hall i hin.1 hin.2, decide_eq_true hin]
      rfl
    · rw [decide_eq_false hin, Bool.not_false, Bool.and_true, Bool.or_false]
  · rw [clearLoop_bit n map word hk, decide_eq_true ⟨h1, h2⟩, Bool.not_true, Bool.and_false]

namespace Vmdmap

variable {s : Vmdmap} {p n : Nat}

/-- `treeLoop` makes the leaves right from its double word on. -/
theorem treeLoop_sums (lastw m : Nat) : ∀ {stale : Nat → Nat → Prop} {p1 : Page} {k : Nat},
    p < s.npages → k % 2 = 0 → 32 * lastw < s.lay.dbperpage → lastw < k + 2 * m →
    Sums (s.setPage p p1) stale → Sums (s.setPage p (s.treeLoop lastw m p1 k))
      fun q d => stale q d ∧ ¬(q = p ∧ k ≤ 2 * d ∧ 2 * d ≤ lastw) := by
  induction m with
  | zero =>
    intro stale p1 k _ _ _ hm h
    exact h.mono fun q _ d _ hs => ⟨hs, by omega⟩
  | succ m ih =>
    intro stale p1 k hp hk hw hm h
    rw [treeLoop]
    split
    · rename_i hle
      have hone := h.updtree (p := p) k hp (by rw [setPage_lay]; omega) rfl
      rw [setPage_lay, setPage_self, setPage_setPage] at hone
      have hrest := ih (k := k + 2) hp (by omega) hw (by omega) hone
      exact hrest.mono fun q _ d _ hs => ⟨hs.1.1, by omega⟩
    · exact h.mono fun q _ d _ hs => ⟨hs, by omega⟩

/-- The counts of allocation groups after an extension. -/
theorem agcnt_extend {nag : Nat} (agcnt agcnt' : Nat → Nat) {total N M : Nat} (hp : p < N)
    (hle : ∀ q < N, agcnt q ≤ M) (hnag : nag < M) (htotal : total = ∑ q ∈ Finset.range N, agcnt q)
    (hne : ∀ q, q ≠ p → agcnt' q = agcnt q)
    (hpe : agcnt' p = if agcnt p ≤ nag then agcnt p + 1 else agcnt p) :
    (∀ q < N, agcnt' q ≤ M) ∧
      (if agcnt p ≤ nag then total + 1 else total) = ∑ q ∈ Finset.range N, agcnt' q := by
  constructor
  · intro q hq
    by_cases hqp : q = p
    · rw [hqp, hpe]
      have := hle p hp
      split <;> omega
    · rw [hne q hqp]
      exact hle q hq
  · have hmem := Finset.mem_range.mpr hp
    have hrest : ∑ q ∈ (Finset.range N).erase p, agcnt' q =
        ∑ q ∈ (Finset.range N).erase p, agcnt q :=
      Finset.sum_congr rfl fun q hq => hne q (Finset.ne_of_mem_erase hq)
    rw [← Finset.add_sum_erase _ agcnt hmem] at htotal
    rw [← Finset.add_sum_erase _ agcnt' hmem, hrest, hpe, htotal]
    split <;> omega

theorem treeLoop_agcnt (s : Vmdmap) (lastw m : Nat) : ∀ (p1 : Page) (k : Nat),
    (s.treeLoop lastw m p1 k).agcnt = p1.agcnt := by
  induction m with
  | zero => exact fun _ _ => rfl
  | succ m ih =>
    intro p1 k
    rw [treeLoop]
    split
    · exact (ih _ _).trans rfl
    · rfl

/-- An allocation group does not go over the end of its page. -/
theorem group_end (l : Layout) {b : Nat} (hb : b < l.dbperpage)
    (hgroup : b % l.agsize + n ≤ l.agsize) : b + n ≤ l.dbperpage ∧
      ∀ i, b ≤ i → i < b + n → i / l.agsize = b / l.agsize := by
  have hdm := Nat.div_add_mod b l.agsize
  rw [Nat.mul_comm] at hdm
  have hend : (b / l.agsize + 1) * l.agsize ≤ l.dbperpage :=
    (Nat.mul_le_mul_right _ (group_lt l hb)).trans_eq (agsize_mul l)
  have hsucc : (b / l.agsize + 1) * l.agsize = b / l.agsize * l.agsize + l.agsize :=
    Nat.succ_mul _ _
  refine ⟨by omega, fun i h1 h2 => ?_⟩
  rw [Nat.div_eq_iff l.pos]
  omega

/-- The state with the counts of an extension. -/
theorem Sound.extend {b total agcnt : Nat} {pmap : Nat → Word} (h : Sound s) (hn : 0 < n)
    (hp : p < s.npages) (hb : b < s.lay.dbperpage) (hgroup : b % s.lay.agsize + n ≤ s.lay.agsize)
    (hall : ∀ i, b ≤ i → i < b + n → pbit (s.page p).wmap i = true)
    (hagcnt : agcnt = if (s.page p).agcnt ≤ b / s.lay.agsize then (s.page p).agcnt + 1
      else (s.page p).agcnt)
    (htotal : total = if (s.page p).agcnt ≤ b / s.lay.agsize then s.totalags + 1
      else s.totalags) :
    Sound ({ s with freecnt := s.freecnt + n, totalags := total }.setPage p
      ({ s with freecnt := s.freecnt + n, totalags := total }.treeLoop ((b + n - 1) / 32)
        ((b + n - 1) / 32 + 1)
        { s.page p with
          wmap := clearLoop n (s.page p).wmap (b / 32) (uzbit >>> (b - 32 * (b / 32)))
          pmap := pmap
          agfree := Function.update (s.page p).agfree (b / s.lay.agsize)
            ((s.page p).agfree (b / s.lay.agsize) + n)
          agcnt := agcnt } (b / 32 / 2 * 2))) := by
  obtain ⟨hend, hag⟩ := group_end s.lay hb hgroup
  have hbit : 32 * (b / 32) + (b - 32 * (b / 32)) = b := by omega
  have htakes := takes_clearLoop (s.page p).wmap (b / 32) (n := n)
    (k := b - 32 * (b / 32)) (by omega) (by rwa [hbit])
  rw [hbit] at htakes
  generalize hpg : ({ s.page p with
    wmap := clearLoop n (s.page p).wmap (b / 32) (uzbit >>> (b - 32 * (b / 32)))
    pmap := pmap
    agfree := Function.update (s.page p).agfree (b / s.lay.agsize)
      ((s.page p).agfree (b / s.lay.agsize) + n)
    agcnt := agcnt } : Page) = pg
  have hmid : Sums ({ s with freecnt := s.freecnt + n, totalags := total }.setPage p pg) _ :=
    h.sums.change (p := p) (δ := n) (a := b) (n := n) (b / s.lay.agsize) rfl rfl hp
      (fun q hq => setPage_of_ne hq) (by rw [setPage_self, ← hpg])
      (.inr ⟨by rw [setPage_self, ← hpg]; exact htakes, rfl⟩) hag hend
      (by rw [setPage_self, ← hpg]) rfl
  have htree := treeLoop_sums (s := { s with freecnt := s.freecnt + n, totalags := total })
    ((b + n - 1) / 32) ((b + n - 1) / 32 + 1) (k := b / 32 / 2 * 2) hp (Nat.mul_mod_left _ _)
    (by change _ < s.lay.dbperpage; omega) (by omega) hmid
  obtain ⟨h1, h2⟩ := agcnt_extend (N := s.npages) (fun q => (s.page q).agcnt)
    (fun q => if q = p then agcnt else (s.page q).agcnt) hp h.agcnt
    (group_lt s.lay hb) h.totalags (fun q hq => if_neg hq) ((if_pos rfl).trans hagcnt)
  generalize hs' : ({ s with freecnt := s.freecnt + n, totalags := total } : Vmdmap) = s' at *
  have hpage : ∀ q, s'.page q = s.page q := fun q => by rw [← hs']
  have hcnt : ∀ q, ((s'.setPage p (s'.treeLoop ((b + n - 1) / 32) ((b + n - 1) / 32 + 1) pg
      (b / 32 / 2 * 2))).page q).agcnt = if q = p then agcnt else (s.page q).agcnt := by
    intro q
    by_cases hq : q = p
    · rw [hq, setPage_self, treeLoop_agcnt, if_pos rfl, ← hpg]
    · rw [setPage_of_ne hq, if_neg hq, hpage]
  subst hs'
  refine ⟨htree.mono fun q _ d _ hs => ?_, h.size, fun q hq => ?_, ?_⟩
  · obtain ⟨hs | hs, hno⟩ := hs
    · exact hs
    · exact hno ⟨hs.1, by omega, by omega⟩
  · rw [hcnt]
    exact h1 q hq
  · refine (htotal.trans h2).trans (Finset.sum_congr rfl fun q _ => ?_)
    exact (hcnt q).symm

theorem Sound.vExtendag {fragno : Nat} (h : Sound s) (hn : 0 < n)
    (hp : fragno / s.lay.dbperpage < s.npages)
    (hgroup : fragno % s.lay.agsize + n ≤ s.lay.agsize)
    (hall : ∀ i, fragno % s.lay.dbperpage ≤ i → i < fragno % s.lay.dbperpage + n →
      pbit (s.page (fragno / s.lay.dbperpage)).wmap i = true) : Sound (s.vExtendag n fragno) := by
  obtain ⟨hin, -, hmod, haddr⟩ := address s.lay fragno
  have hdvd : fragno % s.lay.dbperpage % s.lay.agsize = fragno % s.lay.agsize :=
    Nat.mod_mod_of_dvd fragno s.lay.pages
  rw [← hdvd] at hgroup
  unfold Vmdmap.vExtendag
  dsimp only
  rw [mod_page]
  generalize fragno / s.lay.dbperpage = p at *
  generalize fragno % s.lay.dbperpage = b at *
  by_cases hfresh : (s.page p).agcnt ≤ b / s.lay.agsize
  · rw [if_pos hfresh, if_pos hfresh]
    exact h.extend hn hp hin hgroup hall (if_pos hfresh).symm (if_pos hfresh).symm
  · rw [if_neg hfresh, if_neg hfresh]
    exact h.extend hn hp hin hgroup hall (if_neg hfresh).symm (if_neg hfresh).symm

/-! ## A new page -/

theorem dwordMax_ones (l : Layout) : dwordMax l ones ones = 0 := by
  have hchars : chars ones ones = List.replicate 8 255 := by decide
  have hstring : vMaxstring ones ones = 0 := by decide
  have hmax : ∀ m k, charMax m 0 (List.replicate k 255) = 0 := by
    intro m k
    induction k with
    | zero => rfl
    | succ k ih =>
      rw [List.replicate_succ, charMax]
      have h0 : max 0 (dmaptab (BitVec.toNat (255 : BitVec 8))) = 0 := by decide
      rw [h0, ih]
      split <;> omega
  unfold dwordMax
  cases l.version with
  | v3 => rw [hchars]; exact hmax _ 8
  | v4 => exact hstring

theorem pbit_ones (i : Nat) : pbit (fun _ => ones) i = true := by
  have hmod : i % 32 < 32 := Nat.mod_lt _ (by omega)
  rw [pbit, ones, BitVec.getMsbD_allOnes, decide_eq_true hmod]

theorem zeroCount_ones (I : Finset Nat) : zeroCount (fun _ => ones) I = 0 := by
  unfold zeroCount
  rw [Finset.card_eq_zero, Finset.filter_eq_empty_iff]
  intro i _
  rw [pbit_ones]
  exact Bool.noConfusion

theorem leafValue_ones (l : Layout) {pg : Page} (h : pg.wmap = fun _ => ones) (d : Nat) :
    leafValue l pg d = 0 := by
  rw [leafValue, h, dwordMax_ones]
  split <;> rfl

theorem Sound.imappage (h : Sound s) : Sound s.imappage := by
  have hold : ∀ q < s.npages, s.imappage.page q = s.page q :=
    fun q hq => Function.update_of_ne (by omega) _ _
  have hnew : s.imappage.page s.npages = freshPage := Function.update_self _ _ _
  have hcases : ∀ q < s.npages + 1, q < s.npages ∨ q = s.npages := fun q hq => by omega
  refine ⟨⟨fun q hq => ?_, fun q hq d hd _ => ?_, fun q hq nag hnag => ?_, ?_⟩, ?_,
    fun q hq => ?_, ?_⟩
  · rcases hcases q hq with hq | rfl
    · rw [hold q hq]
      exact h.sums.tree q hq
    · rw [hnew]
      exact fun b _ => rfl
  · rcases hcases q hq with hq | rfl
    · rw [hold q hq]
      exact h.sums.leaf q hq d hd not_false
    · rw [hnew, leafValue_ones _ rfl]
      rfl
  · rcases hcases q hq with hq | rfl
    · rw [hold q hq]
      exact h.sums.agfree q hq nag hnag
    · rw [hnew]
      exact (congrArg Nat.cast (zeroCount_ones _)).symm
  · change s.freecnt = ∑ q ∈ Finset.range (s.npages + 1), _
    rw [Finset.sum_range_succ, hnew]
    have hzero : (zeroCount freshPage.wmap (Finset.range s.imappage.lay.dbperpage) : Int) = 0 :=
      congrArg Nat.cast (zeroCount_ones _)
    rw [hzero, add_zero, h.sums.freecnt]
    exact Finset.sum_congr rfl fun q hq => by rw [hold q (Finset.mem_range.mp hq)]; rfl
  · change s.mapsize ≤ (s.npages + 1) * s.lay.dbperpage
    rw [Nat.succ_mul]
    have := h.size
    omega
  · rcases hcases q hq with hq | rfl
    · rw [hold q hq]
      exact h.agcnt q hq
    · rw [hnew]
      exact Nat.zero_le _
  · change s.totalags = ∑ q ∈ Finset.range (s.npages + 1), _
    rw [Finset.sum_range_succ, hnew, h.totalags]
    exact Finset.sum_congr rfl fun q hq => by rw [hold q (Finset.mem_range.mp hq)]

end Vmdmap

end Aix413.Dmap
