import Aix413.Dmap.Searching

namespace Aix413.Dmap

open Lib.BitRuns Lib.MaxTree

namespace Vmdmap

variable {s : Vmdmap} {p b a d i n m nag word rem fragno pref : Nat} {δ : Int}
  {map wmap : Nat → Word}

/-! ## Fragments of one double word -/

theorem Sound.account (h : Sound s) (word : Nat) (hp : p < s.npages) (ha : a / 64 = word / 2)
    (hin : a % 64 + n ≤ 64) (hd : a < s.lay.dbperpage)
    (hc : Changes (s.page p).wmap wmap a n δ) (hnag : a / s.lay.agsize = nag) :
    Sound ((s.setWmap p wmap).account p nag word δ) := by
  have hagcnt : ∀ q, (((s.setWmap p wmap).account p nag word δ).page q).agcnt =
      (s.page q).agcnt := by
    intro q
    rw [account_agcnt]
    by_cases hq : q = p
    · rw [hq, setWmap_self]
    · rw [setWmap_of_ne hq]
  refine ⟨h.sums.account hp ha hin hd hc hnag, h.size, fun q hq => ?_, ?_⟩
  · rw [hagcnt]
    exact h.agcnt q hq
  · exact h.totalags.trans (Finset.sum_congr rfl fun q _ => (hagcnt q).symm)

theorem Sound.lastalloc (h : Sound s) (f : Nat) : Sound { s with lastalloc := f } :=
  ⟨⟨h.sums.tree, h.sums.leaf, h.sums.agfree, h.sums.freecnt⟩, h.size, h.agcnt, h.totalags⟩

theorem takes_take (hn : n ≤ 32) (hd : b % 64 + n ≤ 64) (hr : Run (pbit map) b n) :
    Takes map (setBits map (2 * (b / 64)) (b % 64) n) b n := by
  have hb : 32 * (2 * (b / 64)) + b % 64 = b := by omega
  have ht := takes_setBits (2 * (b / 64)) hn hd ((busy_eq_false hn hd).mpr (by rwa [hb]))
  rwa [hb] at ht

theorem Sound.take (h : Sound s) (hp : p < s.npages) (hb : b < s.lay.dbperpage) (hn : n ≤ 32)
    (hd : b % 64 + n ≤ 64) (hr : Run (pbit (s.page p).wmap) b n) : Sound (s.take p b n) :=
  h.account (2 * (b / 64)) hp (by omega) hd hb (.inl ⟨takes_take hn hd hr, rfl⟩) rfl

theorem Sound.allocate (h : Sound s) (hp : p < s.npages) (hb : b < s.lay.dbperpage) (hn : n ≤ 32)
    (hd : b % 64 + n ≤ 64) (hr : Run (pbit (s.page p).wmap) b n) : Sound (s.allocate p b n) :=
  (h.lastalloc _).take hp hb hn hd hr

/-- The permanent map has no part in the summaries. -/
theorem Sound.setPmap (h : Sound s) (p : Nat) (pmap : Nat → Word) :
    Sound (s.setPage p { s.page p with pmap := pmap }) := by
  have hpage : ∀ q, ∃ pm, (s.setPage p { s.page p with pmap := pmap }).page q =
      { s.page q with pmap := pm } := by
    intro q
    by_cases hq : q = p
    · subst hq
      exact ⟨pmap, setPage_self⟩
    · exact ⟨(s.page q).pmap, setPage_of_ne hq⟩
  refine ⟨⟨fun q hq => ?_, fun q hq d hd _ => ?_, fun q hq nag hnag => ?_, ?_⟩, h.size,
    fun q hq => ?_, ?_⟩
  · obtain ⟨pm, hpm⟩ := hpage q
    rw [hpm]
    exact h.sums.tree q hq
  · obtain ⟨pm, hpm⟩ := hpage q
    rw [hpm]
    exact h.sums.leaf q hq d hd not_false
  · obtain ⟨pm, hpm⟩ := hpage q
    rw [hpm]
    exact h.sums.agfree q hq nag hnag
  · refine h.sums.freecnt.trans (Finset.sum_congr rfl fun q _ => ?_)
    obtain ⟨pm, hpm⟩ := hpage q
    rw [hpm]
    rfl
  · obtain ⟨pm, hpm⟩ := hpage q
    rw [hpm]
    exact h.agcnt q hq
  · refine h.totalags.trans (Finset.sum_congr rfl fun q _ => ?_)
    obtain ⟨pm, hpm⟩ := hpage q
    rw [hpm]

/-- `v_mapd` sets one bit. -/
theorem takes_bit (hb : pbit map b = false) :
    Takes map (Function.update map (b / 32) (map (b / 32) ||| uzbit >>> (b % 32))) b 1 := by
  refine ⟨fun i => ?_, fun i h1 h2 => by rwa [show i = b by omega]⟩
  rw [pbit_update]
  by_cases hi : i / 32 = b / 32
  · rw [if_pos hi, BitVec.getMsbD_or, BitVec.getMsbD_ushiftRight, pbit, hi]
    congr 1
    have hmod : i % 32 < 32 := Nat.mod_lt _ (by omega)
    by_cases hlt : i % 32 < b % 32
    · rw [decide_eq_true hlt, decide_eq_false (p := b ≤ i ∧ i < b + 1) (by omega)]
      simp
    · rw [uzbit_bit (by omega), decide_eq_false hlt, decide_eq_true hmod]
      simp only [Bool.not_false, Bool.true_and, decide_eq_decide]
      omega
  · rw [if_neg hi, decide_eq_false (p := b ≤ i ∧ i < b + 1) (by
      rintro ⟨h1, h2⟩
      exact hi (by rw [show i = b by omega])), Bool.or_false]

theorem Sound.vMapd {daddr : Nat} (h : Sound s) (hp : daddr / s.lay.dbperpage < s.npages)
    (hfree : pbit (s.page (daddr / s.lay.dbperpage)).wmap (daddr % s.lay.dbperpage) = false) :
    Sound (s.vMapd daddr) := by
  have hin := Nat.mod_lt daddr (dbperpage_pos s.lay)
  have hbit : daddr % s.lay.dbperpage - 32 * (daddr % s.lay.dbperpage / 32) =
      daddr % s.lay.dbperpage % 32 := by omega
  unfold Vmdmap.vMapd
  dsimp only
  rw [mod_page, hbit]
  generalize daddr / s.lay.dbperpage = p at *
  generalize daddr % s.lay.dbperpage = b at *
  have hpm := h.setPmap p (Function.update (s.page p).pmap (b / 32)
    ((s.page p).pmap (b / 32) ||| uzbit >>> (b % 32)))
  have hres := hpm.account (p := p) (a := b) (n := 1) (δ := -1) (b / 32) hp (by omega)
    (by omega) hin (.inl ⟨by rw [setPage_self]; exact takes_bit hfree, rfl⟩) rfl
  rw [setWmap, setPage_self, setPage, setPage, Function.update_idem] at hres
  exact hres

/-! ## Given fragments -/

/-- The bits of the fragments in a map of their page. -/
def AllBits (s : Vmdmap) (map : Page → Nat → Word) (fragno n : Nat) (b : Bool) : Prop :=
  ∀ i, fragno % s.lay.dbperpage ≤ i → i < fragno % s.lay.dbperpage + n →
    pbit (map (s.page (fragno / s.lay.dbperpage))) i = b

/-- A call asks for the fragments from `f` on: it takes them, or it fails. -/
inductive Given (s : Vmdmap) (n f : Nat) (can : Prop) : Ret → Prop
  | error (e : Errno) (h : ¬can) : Given s n f can (some (s, .error e))
  | ok (p b : Nat) (h : can) (hf : p * s.lay.dbperpage + b = f) (hp : p < s.npages)
    (hb : b < s.lay.dbperpage) (hd : b % 64 + n ≤ 64) (hr : Run (pbit (s.page p).wmap) b n) :
    Given s n f can (some (s.take p b n, .ok f))

theorem Given.congr {f : Nat} {can can' : Prop} {r : Ret} (hg : Given s n f can r)
    (h : can ↔ can') : Given s n f can' r := by
  cases hg with
  | error e hc => exact .error e (mt h.mpr hc)
  | ok p b hc hf hp hb hd hr => exact .ok p b (h.mp hc) hf hp hb hd hr

theorem Given.sound {f : Nat} {can : Prop} {r : Ret} (h : Sound s) (hn : n ≤ 32)
    (hg : Given s n f can r) : ∃ s', r.map Prod.fst = some s' ∧ Sound s' := by
  cases hg with
  | error e => exact ⟨s, rfl, h⟩
  | ok p b hc hf hp hb hd hr => exact ⟨_, rfl, h.take hp hb hn hd hr⟩

/-- In whole pages a bit tells its fragment. -/
theorem bit_address (l : Layout) (hb : b < l.dbperpage) :
    (p * l.dbperpage + b) / l.dbperpage = p ∧ (p * l.dbperpage + b) % l.dbperpage = b := by
  have hpos := dbperpage_pos l
  rw [Nat.mul_comm]
  exact ⟨by rw [Nat.mul_add_div hpos, Nat.div_eq_of_lt hb, Nat.add_zero],
    by rw [Nat.mul_add_mod, Nat.mod_eq_of_lt hb]⟩

theorem bit_group (l : Layout) (p b : Nat) :
    (p * l.dbperpage + b) / l.agsize = p * (l.dbperpage / l.agsize) + b / l.agsize := by
  have hmul : p * l.dbperpage = l.agsize * (p * (l.dbperpage / l.agsize)) := by
    rw [Nat.mul_left_comm, Nat.mul_comm l.agsize, agsize_mul]
  rw [hmul, Nat.mul_add_div l.pos]

theorem allocBits_given {e : Errno} {f : Nat} (hp : p < s.npages) (hn : n ≤ 32)
    (hin : rem + n ≤ 64) (hrem : rem < 64) (hd : 64 * d < s.lay.dbperpage)
    (hnag : 64 * d / s.lay.agsize = nag) (hf : p * s.lay.dbperpage + 64 * d + rem = f) :
    Given s n f (s.AllBits Page.wmap f n false) (s.allocBits p nag (2 * d) rem n e) := by
  obtain ⟨-, k, hk⟩ := s.lay.dbperpage_le
  have hbit : 32 * (2 * d) = 64 * d := by omega
  have hb : 64 * d + rem < s.lay.dbperpage := by omega
  obtain rfl : p * s.lay.dbperpage + 32 * (2 * d) + rem = f := by omega
  have hfree : s.AllBits Page.wmap (p * s.lay.dbperpage + 32 * (2 * d) + rem) n false ↔
      busy (s.page p).wmap (2 * d) rem n = false := by
    obtain ⟨h1, h2⟩ := bit_address (p := p) s.lay hb
    rw [busy_eq_false hn hin, AllBits, hbit, Nat.add_assoc, h1, h2]
  refine Given.congr ?_ hfree.symm
  rw [Vmdmap.allocBits]
  cases hbusy : busy (s.page p).wmap (2 * d) rem n with
  | true => exact .error e Bool.noConfusion
  | false =>
    have hr := (busy_eq_false hn hin).mp hbusy
    have hdiv : (64 * d + rem) / 64 = d := by omega
    have hmod : (64 * d + rem) % 64 = rem := by omega
    have hag : (64 * d + rem) / s.lay.agsize = nag := by
      rw [← hnag]
      exact s.lay.same_ag (by omega)
    rw [hbit] at hr
    have hres := Given.ok (s := s) (n := n) (f := p * s.lay.dbperpage + 32 * (2 * d) + rem) p
      (64 * d + rem) (rfl : false = false) (by omega) hp hb (by omega) hr
    rw [Vmdmap.take, hdiv, hmod, hag] at hres
    rw [if_neg Bool.false_ne_true]
    exact hres

/-- The number of fragments of a block. -/
def Frag.size (fperpage : Nat) (old : Frag) : Nat := fperpage - old.nfrags

/-- The fragments behind a block, where they are free and where the next ones may be. -/
structure Behind (s : Vmdmap) (fperpage : Nat) (prev : Frag) (n : Nat) : Prop where
  block : prev.addr % 64 + Frag.size fperpage prev ≤ 64
  dword : (prev.addr + Frag.size fperpage prev) % 64 + n ≤ 64
  group : (prev.addr + Frag.size fperpage prev) / s.lay.agsize = prev.addr / s.lay.agsize
  free : s.AllBits Page.wmap (prev.addr + Frag.size fperpage prev) n false

theorem dword_bounds (l : Layout) (hb : b < l.dbperpage) :
    64 * (b / 64) < l.dbperpage ∧ 64 * (b / 64) / l.agsize = b / l.agsize :=
  ⟨by omega, l.same_ag (by omega)⟩

/-- The next double word, where it is in the same allocation group. -/
theorem next_bounds (l : Layout) (hb : b < l.dbperpage)
    (hw : 2 * (b / 64) + 2 < (b / l.agsize + 1) * (l.agsize / 32)) :
    64 * (b / 64 + 1) < l.dbperpage ∧ 64 * (b / 64 + 1) / l.agsize = b / l.agsize := by
  obtain ⟨k, hk0, hk, hwper, hgroup⟩ := group_words l
  have hown := (hgroup (b / 64) (b / l.agsize)).mp (l.same_ag (by omega))
  have hend : (b / l.agsize + 1) * l.agsize ≤ l.dbperpage :=
    (Nat.mul_le_mul_right _ (group_lt l hb)).trans_eq (agsize_mul l)
  rw [hwper, show (b / l.agsize + 1) * (2 * k) = 2 * ((b / l.agsize + 1) * k) by ring] at hw
  rw [hgroup]
  have hend' : 64 * ((b / l.agsize + 1) * k) ≤ l.dbperpage :=
    calc 64 * ((b / l.agsize + 1) * k) = (b / l.agsize + 1) * (64 * k) := by ring
      _ = (b / l.agsize + 1) * l.agsize := by rw [← hk]
      _ ≤ l.dbperpage := hend
  omega

theorem next_group (l : Layout) (b : Nat) :
    (b / l.agsize + 1) * (l.agsize / 32) ≤ 2 * (b / 64) + 2 ↔
      64 * (b / 64 + 1) / l.agsize ≠ b / l.agsize := by
  obtain ⟨k, hk0, hk, hwper, hgroup⟩ := group_words l
  have hown := (hgroup (b / 64) (b / l.agsize)).mp (l.same_ag (by omega))
  rw [hwper, show (b / l.agsize + 1) * (2 * k) = 2 * ((b / l.agsize + 1) * k) by ring, ne_eq,
    hgroup]
  omega

/-- The fragments behind a block are in its double word. -/
theorem behind_iff {fperpage : Nat} {prev : Frag}
    (hlt : prev.addr % 64 + Frag.size fperpage prev < 64) : Behind s fperpage prev n ↔
      prev.addr % 64 + Frag.size fperpage prev + n ≤ 64 ∧
        s.AllBits Page.wmap (prev.addr + Frag.size fperpage prev) n false := by
  have hmod : (prev.addr + Frag.size fperpage prev) % 64 =
      prev.addr % 64 + Frag.size fperpage prev := by omega
  constructor
  · intro h
    have hd := h.dword
    exact ⟨by omega, h.free⟩
  · exact fun h => ⟨hlt.le, by omega, s.lay.same_ag (by omega), h.2⟩

/-- Those behind a block at the end of its double word are in the next one. -/
theorem behind_next_iff {fperpage : Nat} {prev : Frag} (hn : n ≤ 64)
    (hend : prev.addr % 64 + Frag.size fperpage prev = 64) : Behind s fperpage prev n ↔
      (prev.addr + Frag.size fperpage prev) / s.lay.agsize = prev.addr / s.lay.agsize ∧
        s.AllBits Page.wmap (prev.addr + Frag.size fperpage prev) n false :=
  ⟨fun h => ⟨h.group, h.free⟩, fun h => ⟨hend.le, by omega, h.1, h.2⟩⟩

theorem vAllocnxt_given {fperpage : Nat} {prev : Frag}
    (hp : prev.addr / s.lay.dbperpage < s.npages) (hprev : prev.nfrags < fperpage) (hn : n ≤ 32) :
    Given s n (prev.addr + Frag.size fperpage prev) (Behind s fperpage prev n)
      (s.vAllocnxt fperpage prev n) := by
  obtain ⟨hin, hword, hmod, haddr⟩ := address s.lay prev.addr
  obtain ⟨hd, hag⟩ := dword_bounds s.lay hin
  have hpos : 0 < Frag.size fperpage prev := Nat.sub_pos_of_lt hprev
  have hsize : fperpage - prev.nfrags = Frag.size fperpage prev := rfl
  unfold Vmdmap.vAllocnxt dbperdword
  dsimp only
  rw [mod_page, hword]
  simp only [hsize]
  by_cases hfull : prev.addr % 64 + Frag.size fperpage prev = 64
  · -- the next double word
    have hnext : (prev.addr + Frag.size fperpage prev) / s.lay.agsize =
        prev.addr / s.lay.dbperpage * (s.lay.dbperpage / s.lay.agsize) +
          64 * (prev.addr % s.lay.dbperpage / 64 + 1) / s.lay.agsize := by
      rw [← bit_group]
      congr 1
      omega
    have hhere : prev.addr / s.lay.agsize =
        prev.addr / s.lay.dbperpage * (s.lay.dbperpage / s.lay.agsize) +
          prev.addr % s.lay.dbperpage / s.lay.agsize := by
      rw [← bit_group, haddr]
    rw [if_pos hfull, if_neg (by omega), if_pos rfl]
    split
    · rename_i hover
      refine .error _ fun h => (next_group s.lay _).mp hover ?_
      have hgroup := h.group
      omega
    · rename_i hover
      have hgroup := not_not.mp (mt (next_group s.lay _).mpr hover)
      obtain ⟨hd', hag'⟩ := next_bounds s.lay hin (not_le.mp hover)
      refine (allocBits_given (d := prev.addr % s.lay.dbperpage / 64 + 1) hp hn (by omega)
        (by omega) hd' hag' (by omega)).congr ?_
      rw [behind_next_iff (by omega) hfull, and_iff_right]
      omega
  · rw [if_neg hfull]
    split
    · rename_i hover
      refine .error _ fun h => ?_
      have hblock := h.block
      have hdword := h.dword
      omega
    · rw [if_neg (by omega)]
      refine (allocBits_given hp hn (by omega) (by omega) hd hag (by omega)).congr ?_
      rw [behind_iff (by omega), and_iff_right (by omega)]

theorem vFallocnxt_given {fperpage : Nat} {cur : Frag}
    (hp : cur.addr / s.lay.dbperpage < s.npages) (hcur : cur.nfrags < fperpage) (hn : n ≤ 32) :
    Given s n (cur.addr + Frag.size fperpage cur)
      (Behind s fperpage cur n ∧ cur.addr % 64 + Frag.size fperpage cur ≠ 64)
      (s.vFallocnxt fperpage cur n) := by
  obtain ⟨hin, hword, hmod, haddr⟩ := address s.lay cur.addr
  obtain ⟨hd, hag⟩ := dword_bounds s.lay hin
  have hpos : 0 < Frag.size fperpage cur := Nat.sub_pos_of_lt hcur
  have hsize : fperpage - cur.nfrags = Frag.size fperpage cur := rfl
  unfold Vmdmap.vFallocnxt dbperdword
  dsimp only
  rw [mod_page, hword]
  simp only [hsize]
  by_cases hfull : cur.addr % 64 + Frag.size fperpage cur = 64
  · rw [if_pos hfull, if_pos (.inl rfl)]
    exact .error _ fun h => h.2 hfull
  · rw [if_neg hfull]
    split
    · rename_i hover
      refine .error _ fun h => ?_
      have hblock := h.1.block
      have hdword := h.1.dword
      omega
    · refine (allocBits_given hp hn (by omega) (by omega) hd hag (by omega)).congr ?_
      rw [and_iff_left hfull, behind_iff (by omega), and_iff_right (by omega)]

theorem vAllocit_given {fperpage : Nat} {frag : Frag}
    (hp : frag.addr / s.lay.dbperpage < s.npages) (hn : Frag.size fperpage frag ≤ 32) :
    Given s (Frag.size fperpage frag) frag.addr (frag.addr + Frag.size fperpage frag ≤ s.mapsize ∧
      frag.addr % 64 + Frag.size fperpage frag ≤ 64 ∧
      s.AllBits Page.wmap frag.addr (Frag.size fperpage frag) false)
      (s.vAllocit fperpage frag) := by
  obtain ⟨hin, hword, hmod, haddr⟩ := address s.lay frag.addr
  obtain ⟨hd, hag⟩ := dword_bounds s.lay hin
  have hsize : fperpage - frag.nfrags = Frag.size fperpage frag := rfl
  unfold Vmdmap.vAllocit dbperdword
  dsimp only
  rw [mod_page, hword]
  simp only [hsize]
  split
  · rename_i hover
    exact .error _ fun h => by omega
  · split
    · rename_i hover
      exact .error _ fun h => by omega
    · refine (allocBits_given hp hn (by omega) (Nat.mod_lt _ (by omega)) hd hag
        (by omega)).congr ?_
      rw [and_iff_right (by omega), and_iff_right (by omega)]

end Vmdmap

end Aix413.Dmap
