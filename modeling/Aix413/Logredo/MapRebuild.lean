import Aix413.Logredo.PageUpdate

namespace Aix413.Logredo.BitMaps

open Aix413.Dmap BufferPool

variable {map : Nat → Word} {s s' : Vmdmap} {pg : Page} {n m w p k x bit : Nat} {val : Bool}

/-! ## One bit -/

theorem pbit_set (map : Nat → Word) (w : Nat) (hb : bit < 32) (i : Nat) :
    pbit (Function.update map w (map w ||| uzbit >>> bit)) i =
      (pbit map i || decide (i = 32 * w + bit)) := by
  have hmod : i % 32 < 32 := Nat.mod_lt _ (by omega)
  rw [pbit_update]
  split
  · rename_i h
    rw [BitVec.getMsbD_or, uzbit_shift_bit hb hmod, pbit, h]
    congr 1
    rw [decide_eq_decide]
    omega
  · rw [decide_eq_false (p := i = 32 * w + bit) (by omega), Bool.or_false]

theorem pbit_clear (map : Nat → Word) (w : Nat) (hb : bit < 32) (i : Nat) :
    pbit (Function.update map w (map w &&& ~~~(uzbit >>> bit))) i =
      (pbit map i && !decide (i = 32 * w + bit)) := by
  have hmod : i % 32 < 32 := Nat.mod_lt _ (by omega)
  rw [pbit_update]
  split
  · rename_i h
    rw [BitVec.getMsbD_and, BitVec.getMsbD_not, decide_eq_true hmod, uzbit_shift_bit hb hmod,
      Bool.true_and, pbit, h]
    congr 2
    rw [decide_eq_decide]
    omega
  · rw [decide_eq_false (p := i = 32 * w + bit) (by omega), Bool.not_false, Bool.and_true]

theorem pbit_put (val : Bool) (map : Nat → Word) (w : Nat) (hb : bit < 32) (i : Nat) :
    pbit (Function.update map w
      (if val then map w ||| uzbit >>> bit else map w &&& ~~~(uzbit >>> bit))) i =
      if i = 32 * w + bit then val else pbit map i := by
  cases val with
  | true =>
    refine (pbit_set map w hb i).trans ?_
    by_cases hi : i = 32 * w + bit
    · rw [if_pos hi, decide_eq_true hi, Bool.or_true]
    · rw [if_neg hi, decide_eq_false hi, Bool.or_false]
  | false =>
    refine (pbit_clear map w hb i).trans ?_
    by_cases hi : i = 32 * w + bit
    · rw [if_pos hi, decide_eq_true hi, Bool.not_true, Bool.and_false]
    · rw [if_neg hi, decide_eq_false hi, Bool.not_false, Bool.and_true]

/-! ## markit -/

/-- Some bits of a page are marked: those that were not decided get the value. -/
structure Marks (val : Bool) (a n : Nat) (pg pg' : Page) : Prop where
  rest : ∃ wmap pmap, pg' = { pg with wmap := wmap, pmap := pmap }
  wmap : ∀ i, pbit pg'.wmap i = (pbit pg.wmap i || decide (a ≤ i ∧ i < a + n))
  pmap : ∀ i, pbit pg'.pmap i =
    if (a ≤ i ∧ i < a + n) ∧ pbit pg.wmap i = false then val else pbit pg.pmap i

theorem marks_zero (val : Bool) (a : Nat) (pg : Page) : Marks val a 0 pg pg :=
  ⟨⟨_, _, rfl⟩, fun i => by rw [decide_eq_false (by omega), Bool.or_false],
    fun i => (if_neg (by omega)).symm⟩

theorem Marks.append {pg₁ pg₂ : Page} {a : Nat} (h : Marks val a n pg pg₁)
    (h' : Marks val (a + n) m pg₁ pg₂) : Marks val a (n + m) pg pg₂ := by
  refine ⟨?_, fun i => ?_, fun i => ?_⟩
  · obtain ⟨_, _, rfl⟩ := h.rest
    obtain ⟨_, _, rfl⟩ := h'.rest
    exact ⟨_, _, rfl⟩
  · rw [h'.wmap, h.wmap, Bool.or_assoc, ← Bool.decide_or]
    congr 1
    rw [decide_eq_decide]
    omega
  · rw [h'.pmap, h.pmap, h.wmap]
    by_cases hi : a ≤ i ∧ i < a + n
    · rw [decide_eq_true hi, Bool.or_true, if_neg fun hx => Bool.noConfusion hx.2]
      exact if_congr (and_congr_left fun _ => iff_of_true hi ⟨hi.1, by omega⟩) rfl rfl
    · rw [decide_eq_false hi, Bool.or_false, if_neg (mt And.left hi)]
      exact if_congr (and_congr_left fun _ => by omega) rfl rfl

theorem markLoop_spec (val : Bool) (w : Nat) : ∀ {n : Nat} (bit : Nat) (pg : Page),
    bit + n ≤ 32 → Marks val (32 * w + bit) n pg (markLoop val w n bit pg) := by
  intro n
  induction n with
  | zero => exact fun bit pg _ => marks_zero val _ pg
  | succ n ih =>
    intro bit pg hn
    have hb : bit < 32 := by omega
    have hbit := pbit_word pg.wmap w hb
    rw [markLoop, Nat.add_comm n 1]
    by_cases hw : pbit pg.wmap (32 * w + bit) = true
    · rw [if_pos ((and_uzbit _ hb).mpr (hbit.symm.trans hw))]
      have hrest := ih (bit + 1) pg (by omega)
      refine Marks.append ⟨⟨pg.wmap, pg.pmap, rfl⟩, fun i => ?_, fun i => ?_⟩ hrest
      · by_cases hi : i = 32 * w + bit
        · rw [hi, hw]
          rfl
        · rw [decide_eq_false (by omega), Bool.or_false]
      · rw [if_neg]
        rintro ⟨hi, hz⟩
        obtain rfl : i = 32 * w + bit := by omega
        exact Bool.false_ne_true (hz.symm.trans hw)
    · rw [if_neg fun hx => hw (hbit.trans ((and_uzbit _ hb).mp hx))]
      refine Marks.append ⟨⟨_, _, rfl⟩, fun i => ?_, fun i => ?_⟩ (ih (bit + 1) _ (by omega))
      · refine (pbit_set pg.wmap w hb i).trans ?_
        congr 1
        rw [decide_eq_decide]
        omega
      · refine (pbit_put val pg.pmap w hb i).trans (if_congr ⟨?_, fun hx => by omega⟩ rfl rfl)
        rintro rfl
        exact ⟨by omega, Bool.eq_false_iff.mpr hw⟩

/-! ## The bits of a map -/

/-- A bit of one of the maps, counted over the pages. -/
def mapBit (map : Page → Nat → Word) (s : Vmdmap) (x : Nat) : Bool :=
  pbit (map (s.page (x / s.lay.dbperpage))) (x % s.lay.dbperpage)

/-- What the marks leave alone. -/
structure Kept (s s' : Vmdmap) : Prop where
  lay : s'.lay = s.lay
  mapsize : s'.mapsize = s.mapsize
  totalags : s'.totalags = s.totalags
  npages : s'.npages = s.npages
  agcnt : ∀ p, (s'.page p).agcnt = (s.page p).agcnt

theorem Kept.refl (s : Vmdmap) : Kept s s := ⟨rfl, rfl, rfl, rfl, fun _ => rfl⟩

theorem Kept.trans {s'' : Vmdmap} (h : Kept s s') (h' : Kept s' s'') : Kept s s'' :=
  ⟨h'.lay.trans h.lay, h'.mapsize.trans h.mapsize, h'.totalags.trans h.totalags,
    h'.npages.trans h.npages, fun p => (h'.agcnt p).trans (h.agcnt p)⟩

/-- The bits from `a` on are marked. -/
structure Marked (val : Bool) (a n : Nat) (s s' : Vmdmap) : Prop extends Kept s s' where
  wmap : ∀ x, mapBit Page.wmap s' x = (mapBit Page.wmap s x || decide (a ≤ x ∧ x < a + n))
  pmap : ∀ x, mapBit Page.pmap s' x =
    if (a ≤ x ∧ x < a + n) ∧ mapBit Page.wmap s x = false then val else mapBit Page.pmap s x

/-- A double word lies in one page. -/
theorem run_in_page (l : Layout) {a x : Nat} (h : a % 64 + n ≤ 64) : a ≤ x ∧ x < a + n ↔
    x / l.dbperpage = a / l.dbperpage ∧ a % l.dbperpage ≤ x % l.dbperpage ∧
      x % l.dbperpage < a % l.dbperpage + n := by
  obtain ⟨k, hk⟩ := l.dbperpage_le.2
  have hpos := dbperpage_pos l
  have ha := Nat.div_add_mod a l.dbperpage
  have hx := Nat.div_add_mod x l.dbperpage
  have hlt := Nat.mod_lt x hpos
  have hlta := Nat.mod_lt a hpos
  have hend : a % l.dbperpage + n ≤ l.dbperpage := by
    have hmod : a % l.dbperpage % 64 = a % 64 := Nat.mod_mod_of_dvd a l.dbperpage_le.2
    omega
  constructor
  · rintro ⟨h1, h2⟩
    have hdiv : x / l.dbperpage = a / l.dbperpage := by
      refine Nat.div_eq_of_lt_le ?_ ?_
      · rw [Nat.mul_comm]
        omega
      · rw [Nat.succ_mul, Nat.mul_comm]
        omega
    rw [hdiv] at hx
    exact ⟨hdiv, by omega, by omega⟩
  · rintro ⟨h1, h2, h3⟩
    rw [h1] at hx
    exact ⟨by omega, by omega⟩

theorem Marks.marked {a : Nat} (h : a % 64 + n ≤ 64)
    (hm : Marks val (a % s.lay.dbperpage) n (s.page (a / s.lay.dbperpage)) pg) :
    Marked val a n s (s.setPage (a / s.lay.dbperpage) pg) := by
  have hself : (s.setPage (a / s.lay.dbperpage) pg).page (a / s.lay.dbperpage) = pg :=
    Function.update_self _ _ _
  have hne : ∀ q, q ≠ a / s.lay.dbperpage →
      (s.setPage (a / s.lay.dbperpage) pg).page q = s.page q :=
    fun q hq => Function.update_of_ne hq _ _
  refine ⟨⟨rfl, rfl, rfl, rfl, fun p => ?_⟩, fun x => ?_, fun x => ?_⟩
  · by_cases hp : p = a / s.lay.dbperpage
    · subst hp
      rw [hself]
      obtain ⟨_, _, hpg⟩ := hm.rest
      rw [hpg]
    · rw [hne p hp]
  · change pbit ((s.setPage _ pg).page (x / s.lay.dbperpage)).wmap (x % s.lay.dbperpage) = _
    by_cases hp : x / s.lay.dbperpage = a / s.lay.dbperpage
    · have hrun := run_in_page (x := x) s.lay h
      rw [hp, eq_self, true_and] at hrun
      rw [mapBit, hp, hself, hm.wmap]
      congr 1
      rw [decide_eq_decide, hrun]
    · rw [hne _ hp, decide_eq_false fun hx => hp ((run_in_page s.lay h).mp hx).1, Bool.or_false]
      rfl
  · change pbit ((s.setPage _ pg).page (x / s.lay.dbperpage)).pmap (x % s.lay.dbperpage) = _
    by_cases hp : x / s.lay.dbperpage = a / s.lay.dbperpage
    · unfold mapBit
      rw [hp, hself, hm.pmap]
      refine if_congr (and_congr_left fun _ => ?_) rfl rfl
      rw [run_in_page s.lay h, hp, eq_self, true_and]
    · rw [hne _ hp, if_neg fun hx => hp ((run_in_page s.lay h).mp hx.1).1]
      rfl

/-- The two loops of `markit` mark the bits of a run in a double word. -/
theorem markLoops (val : Bool) (pg : Page) (b : Nat) (nbits : Int)
    (h : (b % 64 : Nat) + nbits ≤ 64) : Marks val b nbits.toNat pg
      (markLoop val (b / 32 + 1) (nbits - min (32 - ((b - 32 * (b / 32) : Nat) : Int)) nbits).toNat 0
        (markLoop val (b / 32) (min (32 - ((b - 32 * (b / 32) : Nat) : Int)) nbits).toNat
          (b - 32 * (b / 32)) pg)) := by
  generalize hbit : b - 32 * (b / 32) = bit
  by_cases hfit : nbits ≤ 32 - bit
  · have hfirst := markLoop_spec val (b / 32) (n := nbits.toNat) bit pg (by omega)
    rw [show 32 * (b / 32) + bit = b by omega] at hfirst
    rw [min_eq_right hfit, Int.sub_self]
    exact hfirst
  · have hfirst := markLoop_spec val (b / 32) (n := 32 - bit) bit pg (by omega)
    have hsecond := markLoop_spec val (b / 32 + 1) (n := (nbits - (32 - bit)).toNat) 0
      (markLoop val (b / 32) (32 - bit) bit pg) (by omega)
    rw [show 32 * (b / 32) + bit = b by omega] at hfirst
    rw [show 32 * (b / 32 + 1) + 0 = b + (32 - bit) by omega] at hsecond
    have hboth := hfirst.append hsecond
    rw [show 32 - bit + (nbits - (32 - bit)).toNat = nbits.toNat by omega] at hboth
    rw [min_eq_left (by omega), show (32 - (bit : Int)).toNat = 32 - bit by omega]
    exact hboth

/-- The address and its bits are in one double word. -/
def Vopen.InDword (v : Vopen) (c : Call) : Prop :=
  (c.bn.addr % 64 : Nat) + v.nbits c.type c.bn ≤ 64

theorem markit_refused {v : Vopen} {bn : Fdaddr} {type : MarkType} (val : Bool)
    (h : (s.mapsize : Int) < (bn.addr + v.nbits type bn) % 2 ^ 32) :
    markit v s bn val type = ({ v with status := fmLogredo }, s, minorError) := if_pos h

theorem markit_accepted {v : Vopen} {bn : Fdaddr} {type : MarkType} (val : Bool)
    (h : ¬(s.mapsize : Int) < (bn.addr + v.nbits type bn) % 2 ^ 32)
    (hd : (bn.addr % 64 : Nat) + v.nbits type bn ≤ 64) :
    ∃ s', markit v s bn val type = (v, s', 0) ∧
      Marked val bn.addr (v.nbits type bn).toNat s s' := by
  generalize hnb : v.nbits type bn = nbits at *
  have hmod : bn.addr % s.lay.dbperpage % 64 = bn.addr % 64 :=
    Nat.mod_mod_of_dvd _ s.lay.dbperpage_le.2
  have hloops := markLoops val (s.page (bn.addr / s.lay.dbperpage)) (bn.addr % s.lay.dbperpage)
    nbits (by rw [hmod]; exact hd)
  have hrun : bn.addr % 64 + nbits.toNat ≤ 64 := by
    have hlt := Nat.mod_lt bn.addr (show 0 < 64 by decide)
    omega
  refine ⟨_, ?_, hloops.marked hrun⟩
  unfold markit
  dsimp only
  rw [hnb, if_neg h, mod_page]

/-! ## A run of calls -/

/-- The map of a type. -/
def Vopen.mapOf (v : Vopen) : MarkType → Vmdmap
  | .inotype => v.imap
  | .dbtype => v.dmap

/-- A call is about a bit of a map. -/
def Vopen.Covers (v : Vopen) (type : MarkType) (x : Nat) (c : Call) : Bool :=
  c.type = type ∧ c.bn.addr ≤ x ∧ (x : Int) < c.bn.addr + v.nbits c.type c.bn

/-- The calls stay below the sizes of the maps. -/
def Vopen.InMaps (v : Vopen) (calls : List Call) : Prop :=
  ∀ c ∈ calls, (c.bn.addr + v.nbits c.type c.bn) % 2 ^ 32 ≤ ((v.mapOf c.type).mapsize : Int)

/-- A volume after some calls: a bit has the value of the first call about it. -/
structure Ran (v v' : Vopen) (calls : List Call) : Prop where
  status : v'.status = v.status
  fperpage : v'.fperpage = v.fperpage
  kept : ∀ type, Kept (v.mapOf type) (v'.mapOf type)
  wmap : ∀ type x, mapBit Page.wmap (v'.mapOf type) x =
    (mapBit Page.wmap (v.mapOf type) x || calls.any (v.Covers type x))
  pmap : ∀ type x, mapBit Page.wmap (v.mapOf type) x = false → mapBit Page.pmap (v'.mapOf type) x =
    ((calls.find? (v.Covers type x)).map Call.val).getD (mapBit Page.pmap (v.mapOf type) x)
  decided : ∀ type x, mapBit Page.wmap (v.mapOf type) x = true →
    mapBit Page.pmap (v'.mapOf type) x = mapBit Page.pmap (v.mapOf type) x

variable {v v' v'' : Vopen} {calls cs ds : List Call} {c : Call} {type : MarkType}

theorem Ran.nbits (h : Ran v v' cs) : v'.nbits = v.nbits := by
  funext type bn
  cases type with
  | inotype => rfl
  | dbtype => exact congrArg (fun n : Nat => (n : Int) - bn.nfrags) h.fperpage

theorem Ran.covers (h : Ran v v' cs) (type : MarkType) (x : Nat) :
    v'.Covers type x = v.Covers type x := by
  funext c
  unfold Vopen.Covers
  rw [h.nbits]

theorem ran_nil (v : Vopen) : Ran v v [] :=
  ⟨rfl, rfl, fun _ => .refl _, fun _ _ => (Bool.or_false _).symm, fun _ _ _ => rfl,
    fun _ _ _ => rfl⟩

theorem Ran.append (h : Ran v v' cs) (h' : Ran v' v'' ds) : Ran v v'' (cs ++ ds) := by
  refine ⟨h'.status.trans h.status, h'.fperpage.trans h.fperpage,
    fun type => (h.kept type).trans (h'.kept type), fun type x => ?_, fun type x hx => ?_,
    fun type x hx => ?_⟩
  · rw [h'.wmap, h.wmap, h.covers, List.any_append, Bool.or_assoc]
  · have hw := h.wmap type x
    rw [hx, Bool.false_or] at hw
    rw [List.find?_append]
    cases hf : cs.find? (v.Covers type x) with
    | none =>
      have hany : cs.any (v.Covers type x) = false := by
        rw [List.any_eq_false]
        exact fun c hc => List.find?_eq_none.mp hf c hc
      rw [h'.pmap type x (hw.trans hany), h.covers, h.pmap type x hx, hf]
      rfl
    | some c =>
      have hany : cs.any (v.Covers type x) = true := by
        rw [List.any_eq_true]
        exact ⟨c, List.mem_of_find?_eq_some hf, List.find?_some hf⟩
      rw [h'.decided type x (hw.trans hany), h.pmap type x hx, hf]
      rfl
  · have hw := h.wmap type x
    rw [hx, Bool.true_or] at hw
    rw [h'.decided type x hw, h.decided type x hx]

theorem covers_iff {x : Nat} : v.Covers c.type x c = decide (c.bn.addr ≤ x ∧
    x < c.bn.addr + (v.nbits c.type c.bn).toNat) := by
  unfold Vopen.Covers
  rw [decide_eq_decide, eq_self, true_and]
  omega

theorem Vopen.mark_accepted (hd : v.InDword c)
    (h : (c.bn.addr + v.nbits c.type c.bn) % 2 ^ 32 ≤ ((v.mapOf c.type).mapsize : Int)) :
    Ran v (v.mark c) [c] := by
  obtain ⟨s', hrun, hm⟩ := markit_accepted c.val (not_lt.mpr h) hd
  -- the map of the call and the other one
  have hmark : v.mark c = (match c.type with
      | .inotype => { v with imap := s' }
      | .dbtype => { v with dmap := s' }) := by
    unfold Vopen.mark
    cases ht : c.type with
    | inotype =>
      rw [ht] at hrun
      change markit v v.imap c.bn c.val .inotype = _ at hrun
      dsimp only
      rw [hrun]
    | dbtype =>
      rw [ht] at hrun
      change markit v v.dmap c.bn c.val .dbtype = _ at hrun
      dsimp only
      rw [hrun]
  have hself : (v.mark c).mapOf c.type = s' := by
    rw [hmark]
    cases c.type <;> rfl
  have hother : ∀ type, type ≠ c.type → (v.mark c).mapOf type = v.mapOf type := by
    intro type hne
    rw [hmark]
    cases ht : c.type <;> cases type <;> first | rfl | exact absurd ht.symm hne
  have hno : ∀ type, type ≠ c.type → ∀ x, v.Covers type x c = false :=
    fun type hne x => decide_eq_false fun hx => hne hx.1.symm
  have hstatus : (v.mark c).status = v.status ∧ (v.mark c).fperpage = v.fperpage := by
    rw [hmark]
    cases c.type <;> exact ⟨rfl, rfl⟩
  refine ⟨hstatus.1, hstatus.2, fun type => ?_, fun type x => ?_, fun type x hx => ?_,
    fun type x hx => ?_⟩
  · by_cases hty : type = c.type
    · subst hty
      rw [hself]
      exact hm.toKept
    · rw [hother type hty]
      exact .refl _
  · rw [List.any_cons, List.any_nil, Bool.or_false]
    by_cases hty : type = c.type
    · subst hty
      rw [hself, hm.wmap, covers_iff]
    · rw [hother type hty, hno type hty, Bool.or_false]
  · rw [List.find?_cons, List.find?_nil]
    by_cases hty : type = c.type
    · subst hty
      rw [hself, hm.pmap, covers_iff]
      by_cases hin : c.bn.addr ≤ x ∧ x < c.bn.addr + (v.nbits c.type c.bn).toNat
      · rw [if_pos ⟨hin, hx⟩, decide_eq_true hin]
        rfl
      · rw [if_neg fun hx => hin hx.1, decide_eq_false hin]
        rfl
    · rw [hother type hty, hno type hty]
      rfl
  · by_cases hty : type = c.type
    · subst hty
      rw [hself, hm.pmap, if_neg]
      rintro ⟨-, hz⟩
      exact Bool.false_ne_true (hz.symm.trans hx)
    · rw [hother type hty]

theorem Vopen.mark_refused
    (h : ¬(c.bn.addr + v.nbits c.type c.bn) % 2 ^ 32 ≤ ((v.mapOf c.type).mapsize : Int)) :
    v.mark c = { v with status := fmLogredo } := by
  have hrun := markit_refused c.val (not_le.mp h)
  unfold Vopen.mark
  cases ht : c.type with
  | inotype =>
    rw [ht] at hrun
    change markit v v.imap c.bn c.val .inotype = _ at hrun
    dsimp only
    rw [hrun]
    rfl
  | dbtype =>
    rw [ht] at hrun
    change markit v v.dmap c.bn c.val .dbtype = _ at hrun
    dsimp only
    rw [hrun]
    rfl

/-- Calls inside the maps, in the order of the run: the first call about a bit decides it. -/
theorem ran_calls (hd : ∀ c ∈ calls, v.InDword c) (hin : v.InMaps calls) :
    Ran v (calls.foldl Vopen.mark v) calls := by
  induction calls generalizing v with
  | nil => exact ran_nil v
  | cons c calls ih =>
    have hone := Vopen.mark_accepted (hd c List.mem_cons_self) (hin c List.mem_cons_self)
    have hrest : Ran (v.mark c) (calls.foldl Vopen.mark (v.mark c)) calls := by
      refine ih (fun c' hc => ?_) fun c' hc => ?_
      · unfold Vopen.InDword
        rw [hone.nbits]
        exact hd c' (List.mem_cons_of_mem c hc)
      · rw [hone.nbits, (hone.kept c'.type).mapsize]
        exact hin c' (List.mem_cons_of_mem c hc)
    exact hone.append hrest

theorem mark_failed (h : v.status = fmLogredo) (c : Call) : (v.mark c).status = fmLogredo := by
  have hmark : ∀ (s : Vmdmap) (type : MarkType),
      (markit v s c.bn c.val type).1.status = fmLogredo := by
    intro s type
    unfold markit
    dsimp only
    split
    · rfl
    · exact h
  unfold Vopen.mark
  cases c.type with
  | inotype => exact hmark v.imap .inotype
  | dbtype => exact hmark v.dmap .dbtype

theorem calls_failed (h : v.status = fmLogredo) (calls : List Call) :
    (calls.foldl Vopen.mark v).status = fmLogredo := by
  induction calls generalizing v with
  | nil => exact h
  | cons c calls ih => exact ih (mark_failed h c)

/-- A call that is not inside its map makes the volume fail. -/
theorem calls_refused (hd : ∀ c ∈ calls, v.InDword c) (hin : ¬v.InMaps calls) :
    (calls.foldl Vopen.mark v).status = fmLogredo := by
  induction calls generalizing v with
  | nil => exact absurd (fun c hc => absurd hc List.not_mem_nil) hin
  | cons c calls ih =>
    by_cases hc : (c.bn.addr + v.nbits c.type c.bn) % 2 ^ 32 ≤ ((v.mapOf c.type).mapsize : Int)
    · have hone := Vopen.mark_accepted (hd c List.mem_cons_self) hc
      refine ih (fun c' hc' => ?_) fun hrest => hin fun c' hc' => ?_
      · unfold Vopen.InDword
        rw [hone.nbits]
        exact hd c' (List.mem_cons_of_mem c hc')
      · rcases List.mem_cons.mp hc' with rfl | hc'
        · exact hc
        · have hle := hrest c' hc'
          rw [hone.nbits, (hone.kept c'.type).mapsize] at hle
          exact hle
    · rw [List.foldl_cons, Vopen.mark_refused hc]
      exact calls_failed rfl calls

/-! ## The maps that are read -/

variable {file : MapFile} {fssize : Nat} {mtype : MapType} {io : Nat → Bool}

/-- Some bits of the permanent map are set. -/
structure Sets (a n : Nat) (s s' : Vmdmap) : Prop extends Kept s s' where
  wmap : ∀ x, mapBit Page.wmap s' x = mapBit Page.wmap s x
  pmap : ∀ x, mapBit Page.pmap s' x = (mapBit Page.pmap s x || decide (a ≤ x ∧ x < a + n))

theorem setPbit_sets (s : Vmdmap) (k : Nat) : Sets k 1 s (setPbit s k) := by
  have hpos := dbperpage_pos s.lay
  unfold setPbit
  dsimp only
  rw [mod_page]
  generalize hpg : ({ s.page (k / s.lay.dbperpage) with
    pmap := Function.update (s.page (k / s.lay.dbperpage)).pmap (k % s.lay.dbperpage / 32)
      ((s.page (k / s.lay.dbperpage)).pmap (k % s.lay.dbperpage / 32) |||
        uzbit >>> (k % s.lay.dbperpage - 32 * (k % s.lay.dbperpage / 32))) } : Page) = pg
  have hself : (s.setPage (k / s.lay.dbperpage) pg).page (k / s.lay.dbperpage) = pg :=
    Function.update_self _ _ _
  have hne : ∀ q, q ≠ k / s.lay.dbperpage →
      (s.setPage (k / s.lay.dbperpage) pg).page q = s.page q :=
    fun q hq => Function.update_of_ne hq _ _
  refine ⟨⟨rfl, rfl, rfl, rfl, fun p => ?_⟩, fun x => ?_, fun x => ?_⟩
  · by_cases hp : p = k / s.lay.dbperpage
    · rw [hp, hself, ← hpg]
    · rw [hne p hp]
  · change pbit ((s.setPage _ pg).page (x / s.lay.dbperpage)).wmap (x % s.lay.dbperpage) = _
    by_cases hp : x / s.lay.dbperpage = k / s.lay.dbperpage
    · rw [mapBit, hp, hself, ← hpg]
    · rw [hne _ hp]
      rfl
  · change pbit ((s.setPage _ pg).page (x / s.lay.dbperpage)).pmap (x % s.lay.dbperpage) = _
    have hx := Nat.div_add_mod x s.lay.dbperpage
    have hk := Nat.div_add_mod k s.lay.dbperpage
    by_cases hp : x / s.lay.dbperpage = k / s.lay.dbperpage
    · rw [hp] at hx
      rw [mapBit, hp, hself, ← hpg]
      refine (pbit_set _ _ (by omega) _).trans ?_
      congr 1
      rw [decide_eq_decide]
      omega
    · rw [hne _ hp, decide_eq_false, Bool.or_false]
      · rfl
      · intro hxk
        exact hp (by rw [show x = k by omega])

theorem setPbits_sets (s : Vmdmap) (a n : Nat) :
    Sets a n s ((List.range' a n).foldl setPbit s) := by
  induction n with
  | zero =>
    refine ⟨.refl s, fun _ => rfl, fun x => ?_⟩
    rw [decide_eq_false (by omega), Bool.or_false]
    rfl
  | succ n ih =>
    rw [List.range'_concat, List.foldl_append, Nat.one_mul]
    change Sets a (n + 1) s (setPbit _ (a + n))
    have hone := setPbit_sets ((List.range' a n).foldl setPbit s) (a + n)
    refine ⟨ih.toKept.trans hone.toKept, fun x => (hone.wmap x).trans (ih.wmap x), fun x => ?_⟩
    rw [hone.pmap, ih.pmap, Bool.or_assoc, ← Bool.decide_or]
    congr 1
    rw [decide_eq_decide]
    omega

/-- A map as `readmap` leaves it. -/
structure ReadIn (v : Vopen) (file : MapFile) (fssize : Nat) (mtype : MapType) (s : Vmdmap) :
    Prop where
  kept : Kept (v.cleared file.map fssize mtype) s
  wmap : ∀ x, mapBit Page.wmap s x = false
  pmap : ∀ x < s.npages * s.lay.dbperpage, mapBit Page.pmap s x =
    (mapBit Page.pmap file.map x || decide (v.firstbit fssize mtype ≤ x))

/-- The pages of a map with its control pages. -/
def Vopen.pages (v : Vopen) (file : MapFile) (fssize : Nat) (mtype : MapType) : Nat :=
  totalpages file.map (v.cleared file.map fssize mtype).npages

/-- The file is large enough, and all its pages are transferred. -/
def Vopen.Transferred (v : Vopen) (file : MapFile) (fssize : Nat) (mtype : MapType)
    (io : Nat → Bool) : Prop :=
  v.pages file fssize mtype ≤ file.pages ∧ ∀ k < v.pages file fssize mtype, io k = true

theorem readmap_spec (v : Vopen) (file : MapFile) (fssize : Nat) (mtype : MapType)
    (io : Nat → Bool) : (v.Transferred file fssize mtype io ∧
      ∃ s, readmap v file fssize mtype io = some s ∧ ReadIn v file fssize mtype s) ∨
    ¬v.Transferred file fssize mtype io ∧ readmap v file fssize mtype io = none := by
  have hpos := dbperpage_pos file.map.lay
  obtain ⟨-, h64⟩ := file.map.lay.dbperpage_le
  have hall : (List.range (v.pages file fssize mtype)).all io = true ↔
      ∀ k < v.pages file fssize mtype, io k = true := by
    rw [List.all_eq_true]
    simp only [List.mem_range]
  have hrun : readmap v file fssize mtype io =
      if file.pages < v.pages file fssize mtype then none
      else if (List.range (v.pages file fssize mtype)).all io then
        some ((List.range' (v.firstbit fssize mtype) ((v.cleared file.map fssize mtype).npages *
          file.map.lay.dbperpage - v.firstbit fssize mtype)).foldl setPbit
            (v.cleared file.map fssize mtype))
      else none := rfl
  by_cases hok : v.Transferred file fssize mtype io
  swap
  · refine .inr ⟨hok, ?_⟩
    rw [hrun]
    by_cases hpages : file.pages < v.pages file fssize mtype
    · exact if_pos hpages
    · rw [if_neg hpages, if_neg]
      exact fun h => hok ⟨not_lt.mp hpages, hall.mp h⟩
  rw [if_neg (not_lt.mpr hok.1), if_pos (hall.mpr hok.2)] at hrun
  have hset := setPbits_sets (v.cleared file.map fssize mtype) (v.firstbit fssize mtype)
    ((v.cleared file.map fssize mtype).npages * file.map.lay.dbperpage - v.firstbit fssize mtype)
  refine .inl ⟨hok, _, hrun, hset.toKept, fun x => ?_, fun x hx => ?_⟩
  · refine (hset.wmap x).trans ?_
    have hmod := Nat.mod_lt x hpos
    change (if x % file.map.lay.dbperpage / 32 < wperpage file.map then (0 : Word)
      else _).getMsbD _ = false
    rw [if_pos (by unfold wperpage; omega)]
    exact zero_bit _
  · rw [hset.npages, hset.lay] at hx
    change x < (v.cleared file.map fssize mtype).npages * file.map.lay.dbperpage at hx
    rw [hset.pmap]
    congr 1
    rw [decide_eq_decide]
    omega

/-! ## The maps that are written -/

theorem sum_min (A M : Nat) : ∀ N, ∑ k ∈ Finset.range N, min A (M - k * A) = min (N * A) M := by
  intro N
  induction N with
  | zero => rw [Finset.sum_range_zero, Nat.zero_mul, Nat.zero_min]
  | succ N ih =>
    rw [Finset.sum_range_succ, ih, Nat.succ_mul]
    omega

/-- The superblock and the maps agree on the allocation groups. -/
structure Consistent (v : Vopen) (f : Files) : Prop where
  fragsize : dinodeSize ≤ v.fragsize ∧ v.fragsize ≤ 4096
  imap : f.imap.map.lay.agsize = v.iagsize
  dmap : f.dmap.map.lay.agsize = v.agsize

theorem Consistent.minfrags_pos {f : Files} (h : Consistent v f) : 0 < v.minfrags := by
  obtain ⟨h1, h2⟩ := h.fragsize
  have hpos := f.imap.map.lay.pos
  have hle := Nat.le_of_dvd hpos f.imap.map.lay.dwords
  rw [h.imap] at hle
  unfold dinodeSize at h1
  unfold Vopen.minfrags dinodeSize
  have hdiv : 0 < v.fragsize / 128 ∧ v.fragsize / 128 ≤ 32 := by omega
  exact Nat.div_pos (by omega) hdiv.1

/-- There are pages for all allocation groups. -/
theorem nag_le {f : Files} (h : Consistent v f) (mtype : MapType) {d : Nat}
    (hd : (v.sizes fssize mtype).2 ∣ d) (hpos : 0 < (v.sizes fssize mtype).2) {N : Nat}
    (hN : (v.sizes fssize mtype).1 ≤ N * d) :
    v.nag fssize ≤ N * (d / (v.sizes fssize mtype).2) := by
  obtain ⟨e, rfl⟩ := hd
  rw [Nat.mul_div_cancel_left e hpos]
  have hblocks : ∀ {a : Nat}, 0 < a → fssize ≤ N * (a * e) → v.agsize = a →
      v.nag fssize ≤ N * e := by
    rintro a ha hle rfl
    have hmin := h.minfrags_pos
    have hdm := Nat.div_add_mod fssize v.agsize
    have hrem : v.rem fssize = fssize % v.agsize := by
      unfold Vopen.rem
      rw [Nat.mul_comm]
      omega
    rw [Nat.mul_left_comm] at hle
    unfold Vopen.nag
    rw [hrem]
    split
    · -- a group that is not whole
      refine Nat.succ_le_of_lt (Nat.lt_of_mul_lt_mul_left (a := v.agsize) ?_)
      omega
    · refine Nat.le_of_mul_le_mul_left (c := v.agsize) ?_ ha
      omega
  cases mtype with
  | inodemap =>
    change v.iagsize * v.nag fssize ≤ N * (v.iagsize * e) at hN
    rw [Nat.mul_left_comm] at hN
    exact Nat.le_of_mul_le_mul_left hN hpos
  | fsdiskmap => exact hblocks hpos hN rfl
  | pgdiskmap => exact hblocks hpos hN rfl

theorem pages_cover {a d : Nat} (hd : 0 < d) : a ≤ (a + d - 1) / d * d := by
  have hdm := Nat.div_add_mod (a + d - 1) d
  have hlt := Nat.mod_lt (a + d - 1) hd
  rw [Nat.mul_comm] at hdm
  omega

/-- The header of a map fits the allocator. -/
theorem cleared_sound {f : Files} (h : Consistent v f) (ptr : Vmdmap) (mtype : MapType)
    (hag : ptr.lay.agsize = (v.sizes fssize mtype).2)
    (hk : Kept (v.cleared ptr fssize mtype) s) (hs : Sums s fun _ _ => False) :
    Vmdmap.Sound s := by
  have hpos := dbperpage_pos ptr.lay
  have hcover := pages_cover (a := (v.sizes fssize mtype).1) hpos
  have hag0 : 0 < (v.sizes fssize mtype).2 := hag ▸ ptr.lay.pos
  have hdvd : (v.sizes fssize mtype).2 ∣ ptr.lay.dbperpage := hag ▸ ptr.lay.pages
  have hlay : s.lay = ptr.lay := hk.lay
  have hnp : s.npages = ((v.sizes fssize mtype).1 + ptr.lay.dbperpage - 1) / ptr.lay.dbperpage :=
    hk.npages
  have hagcnt : ∀ p, (s.page p).agcnt = min (ptr.lay.dbperpage / (v.sizes fssize mtype).2)
      (v.nag fssize - p * (ptr.lay.dbperpage / (v.sizes fssize mtype).2)) := hk.agcnt
  refine ⟨hs, ?_, fun p _ => ?_, ?_⟩
  · rw [hk.mapsize, hnp, hlay]
    exact hcover
  · rw [hagcnt, hlay, hag]
    exact min_le_left _ _
  · rw [Finset.sum_congr rfl fun p _ => hagcnt p, sum_min, hnp,
      min_eq_right (nag_le h mtype hdvd hag0 hcover)]
    exact hk.totalags

/-- `writemap` writes a map when it can. -/
theorem writemap_spec (v : Vopen) (s : Vmdmap) (pages : Nat) (io : Nat → Bool) {N : Nat}
    (hN : s.npages = N)
    (hsize : (s.mapsize + s.lay.dbperpage - 1) / s.lay.dbperpage = N) :
    (v.status ≠ fmLogredo ∧ totalpages s N ≤ pages ∧ (∀ k < totalpages s N, io k = true) ∧
      ∃ s', writemap v s pages io = some s' ∧ Rewritten { s with freecnt := 0 } s' N) ∨
    ¬(v.status ≠ fmLogredo ∧ totalpages s N ≤ pages ∧ ∀ k < totalpages s N, io k = true) ∧
      writemap v s pages io = none := by
  have hloop := updatepage_loop { s with freecnt := 0 } N
  generalize hs' : (List.range N).foldl updatepage { s with freecnt := 0 } = s' at hloop
  have htotal : totalpages s' N = totalpages s N := by
    unfold totalpages
    rw [hloop.lay]
  have hall : (List.range (totalpages s N)).all io = true ↔ ∀ k < totalpages s N, io k = true := by
    rw [List.all_eq_true]
    simp only [List.mem_range]
  have hrun : writemap v s pages io =
      if v.status = fmLogredo then none
      else if pages < totalpages s N then none
      else if (List.range (totalpages s N)).all io then some s' else none := by
    unfold writemap
    dsimp only
    rw [hsize, hs', htotal]
  by_cases hst : v.status = fmLogredo
  · exact .inr ⟨fun h => h.1 hst, by rw [hrun, if_pos hst]⟩
  rw [if_neg hst] at hrun
  by_cases hpages : pages < totalpages s N
  · exact .inr ⟨fun h => absurd h.2.1 (not_le.mpr hpages), by rw [hrun, if_pos hpages]⟩
  rw [if_neg hpages] at hrun
  by_cases hio : (List.range (totalpages s N)).all io = true
  · rw [if_pos hio] at hrun
    exact .inl ⟨hst, not_lt.mp hpages, hall.mp hio, s', hrun, hloop⟩
  · exact .inr ⟨fun h => hio (hall.mpr h.2.2), by rw [hrun, if_neg hio]⟩

/-- A map after the whole replay: a bit of the permanent map has the value of the first call about
it, and without one the value from the disk, or it is set where `readmap` sets it. The work map is
the same, and the rest is what the allocator relies on. -/
structure Rebuilt (v : Vopen) (file : MapFile) (fssize : Nat) (mtype : MapType)
    (value : Nat → Option Bool) (s : Vmdmap) : Prop where
  mapsize : s.mapsize = (v.sizes fssize mtype).1
  pmap : ∀ x < s.mapsize, mapBit Page.pmap s x = (value x).getD
    (mapBit Page.pmap file.map x || decide (v.firstbit fssize mtype ≤ x))
  wmap : ∀ x < s.npages * s.lay.dbperpage, mapBit Page.wmap s x = mapBit Page.pmap s x
  sound : Vmdmap.Sound s

theorem Rewritten.mapBits {N x : Nat} (h : Rewritten s s' N) (hx : x < N * s.lay.dbperpage) :
    mapBit Page.pmap s' x = mapBit Page.pmap s x ∧
      mapBit Page.wmap s' x = mapBit Page.pmap s x := by
  have hpos := dbperpage_pos s.lay
  obtain ⟨-, h64⟩ := s.lay.dbperpage_le
  have hp : x / s.lay.dbperpage < N := (Nat.div_lt_iff_lt_mul hpos).mpr hx
  have hmod := Nat.mod_lt x hpos
  have hpage := h.page _ hp
  unfold mapBit
  rw [h.lay]
  refine ⟨by rw [hpage.pmap], ?_⟩
  unfold pbit
  rw [hpage.wmap _ (by omega)]

/-- From the map that was read over the calls to the map that is written. -/
theorem rebuilt {f : Files} {s₁ s₂ : Vmdmap} {file : MapFile} {value : Nat → Option Bool}
    (h : Consistent v f) (hag : file.map.lay.agsize = (v.sizes fssize mtype).2)
    (hread : ReadIn v file fssize mtype s) (hkept : Kept s s₁)
    (hbits : ∀ x, mapBit Page.pmap s₁ x = (value x).getD (mapBit Page.pmap s x))
    (hwrite : Rewritten { s₁ with freecnt := 0 } s₂ (v.cleared file.map fssize mtype).npages) :
    Rebuilt v file fssize mtype value s₂ := by
  have hk := hread.kept.trans hkept
  have hnp : s₁.npages = (v.cleared file.map fssize mtype).npages := hk.npages
  have hsums : Sums s₂ fun _ _ => False := by
    rw [← hnp] at hwrite
    exact hwrite.sums rfl
  have hk₂ : Kept (v.cleared file.map fssize mtype) s₂ := by
    refine ⟨hwrite.lay.trans hk.lay, hwrite.mapsize.trans hk.mapsize,
      hwrite.totalags.trans hk.totalags, hwrite.npages.trans hk.npages, fun p => ?_⟩
    by_cases hp : p < (v.cleared file.map fssize mtype).npages
    · exact (hwrite.page p hp).agcnt.trans (hk.agcnt p)
    · rw [hwrite.others p (not_lt.mp hp)]
      exact hk.agcnt p
  have hsound := cleared_sound h file.map mtype hag hk₂ hsums
  have hlay : s₂.lay = s₁.lay := hwrite.lay
  have hbit : ∀ x < s₂.npages * s₂.lay.dbperpage, mapBit Page.pmap s₂ x = mapBit Page.pmap s₁ x ∧
      mapBit Page.wmap s₂ x = mapBit Page.pmap s₁ x := by
    intro x hx
    rw [hk₂.npages, hlay] at hx
    exact hwrite.mapBits hx
  refine ⟨hk₂.mapsize, fun x hx => ?_, fun x hx => ?_, hsound⟩
  · have hin := hx.trans_le hsound.size
    have hin' : x < s.npages * s.lay.dbperpage := by
      rw [hk₂.npages, hlay, hkept.lay, ← hread.kept.npages] at hin
      exact hin
    rw [(hbit x hin).1, hbits, hread.pmap x hin']
  · rw [(hbit x hx).1, (hbit x hx).2]

/-- The map of a type of `markit`. -/
def MarkType.mapType : MarkType → MapType
  | .inotype => .inodemap
  | .dbtype => .fsdiskmap

/-- The value of the first call about a bit. The log is read backwards, so it is the last one in
the log. -/
def Vopen.marked (v : Vopen) (calls : List Call) (type : MarkType) (x : Nat) : Option Bool :=
  (calls.find? (v.Covers type x)).map Call.val

/-- Nothing fails up to the writing of the maps. -/
structure Vopen.Runs (v : Vopen) (f : Files) (fssize : Nat) (io : Io) (calls : List Call) :
    Prop where
  status : v.status ≠ fmLogredo
  imap : v.Transferred f.imap fssize .inodemap io.readI
  dmap : v.Transferred f.dmap fssize .fsdiskmap io.readD
  inside : ∀ c ∈ calls, (c.bn.addr + v.nbits c.type c.bn) % 2 ^ 32 ≤
    ((v.sizes fssize c.type.mapType).1 : Int)

/-- A map is written if and only if nothing fails, and then it is right. -/
def Writes (ok : Prop) (right : Vmdmap → Prop) : Option Vmdmap → Prop
  | none => ¬ok
  | some s => ok ∧ right s

/-- Both maps after the log. -/
theorem maps_rebuilt {v : Vopen} {f : Files} (h : Consistent v f) {calls : List Call}
    (hd : ∀ c ∈ calls, v.InDword c) (fssize : Nat) (io : Io) :
    Writes (v.Runs f fssize io calls ∧ v.Transferred f.imap fssize .inodemap io.writeI)
      (Rebuilt v f.imap fssize .inodemap (v.marked calls .inotype)) (redo v f fssize io calls).1 ∧
    Writes (v.Runs f fssize io calls ∧ v.Transferred f.imap fssize .inodemap io.writeI ∧
        v.Transferred f.dmap fssize .fsdiskmap io.writeD)
      (Rebuilt v f.dmap fssize .fsdiskmap (v.marked calls .dbtype))
      (redo v f fssize io calls).2 := by
  have hfail : ∀ {A B : Prop} {P Q : Vmdmap → Prop}, redo v f fssize io calls = (none, none) →
      ¬A → ¬B → Writes A P (redo v f fssize io calls).1 ∧
        Writes B Q (redo v f fssize io calls).2 := by
    intro A B P Q hr hA hB
    rw [hr]
    exact ⟨hA, hB⟩
  rcases readmap_spec v f.imap fssize .inodemap io.readI with ⟨hti, si, hri, hreadi⟩ | ⟨hti, hri⟩
  swap
  · refine hfail ?_ (fun hx => hti hx.1.imap) fun hx => hti hx.1.imap
    rw [redo, initmaps, hri]
    rfl
  rcases readmap_spec v f.dmap fssize .fsdiskmap io.readD with ⟨htd, sd, hrd, hreadd⟩ | ⟨htd, hrd⟩
  swap
  · refine hfail ?_ (fun hx => htd hx.1.dmap) fun hx => htd hx.1.dmap
    rw [redo, initmaps, hri, hrd]
    rfl
  generalize hv : ({ v with imap := si, dmap := sd } : Vopen) = v₀
  have hredo : redo v f fssize io calls = updatemaps (calls.foldl Vopen.mark v₀) f io := by
    rw [redo, initmaps, hri, hrd, ← hv]
    rfl
  have hsame : v₀.status = v.status ∧ v₀.nbits = v.nbits ∧
      (∀ type x, v₀.Covers type x = v.Covers type x) ∧
      v₀.mapOf .inotype = si ∧ v₀.mapOf .dbtype = sd := by
    rw [← hv]
    exact ⟨rfl, rfl, fun _ _ => rfl, rfl, rfl⟩
  clear hv
  obtain ⟨hstatus, hnbits, hcovers, hmi, hmd⟩ := hsame
  have hd₀ : ∀ c ∈ calls, v₀.InDword c := by
    unfold Vopen.InDword
    rw [hnbits]
    exact hd
  have hsizes : ∀ type, ((v₀.mapOf type).mapsize : Int) = (v.sizes fssize type.mapType).1 := by
    intro type
    cases type with
    | inotype => rw [hmi, hreadi.kept.mapsize]; rfl
    | dbtype => rw [hmd, hreadd.kept.mapsize]; rfl
  have hinside : v₀.InMaps calls ↔ ∀ c ∈ calls, (c.bn.addr + v.nbits c.type c.bn) % 2 ^ 32 ≤
      ((v.sizes fssize c.type.mapType).1 : Int) := by
    unfold Vopen.InMaps
    simp only [hsizes, hnbits]
  by_cases hin : v₀.InMaps calls
  swap
  · -- a call fails, and no map is written
    have hlog := calls_refused hd₀ hin
    refine hfail ?_ (fun hx => hin (hinside.mpr hx.1.inside)) fun hx =>
      hin (hinside.mpr hx.1.inside)
    rw [hredo, updatemaps, writemap, if_pos hlog]
  have hran := ran_calls hd₀ hin
  generalize calls.foldl Vopen.mark v₀ = v₁ at *
  -- one of the two maps
  have hmap : ∀ (type : MarkType) (file : MapFile) (s : Vmdmap) (w : Nat → Bool),
      v₀.mapOf type = s → ReadIn v file fssize type.mapType s →
      file.map.lay.agsize = (v.sizes fssize type.mapType).2 →
      v.pages file fssize type.mapType ≤ file.pages →
      (v.status ≠ fmLogredo ∧ v.Transferred file fssize type.mapType w ∧
        ∃ s', writemap v₁ (v₁.mapOf type) file.pages w = some s' ∧
          Rebuilt v file fssize type.mapType (v.marked calls type) s') ∨
      ¬(v.status ≠ fmLogredo ∧ v.Transferred file fssize type.mapType w) ∧
        writemap v₁ (v₁.mapOf type) file.pages w = none := by
    intro type file s w hs hread hag hpages
    have hkept : Kept s (v₁.mapOf type) := hs ▸ hran.kept type
    have hk := hread.kept.trans hkept
    have htotal : totalpages (v₁.mapOf type) (v.cleared file.map fssize type.mapType).npages =
        v.pages file fssize type.mapType := by
      unfold totalpages Vopen.pages totalpages
      rw [hk.lay]
      rfl
    have hbits : ∀ x, mapBit Page.pmap (v₁.mapOf type) x =
        (v.marked calls type x).getD (mapBit Page.pmap s x) := by
      intro x
      have hx := hran.pmap type x (by rw [hs]; exact hread.wmap x)
      rw [hs, hcovers] at hx
      exact hx
    have hspec := writemap_spec v₁ (v₁.mapOf type) file.pages w hk.npages
      (by rw [hk.mapsize, hk.lay]; rfl)
    rw [htotal, hran.status, hstatus] at hspec
    rcases hspec with ⟨h1, h2, h3, s', hw, hre⟩ | ⟨hno, hw⟩
    · exact .inl ⟨h1, ⟨h2, h3⟩, s', hw, rebuilt h hag hread hkept hbits hre⟩
    · exact .inr ⟨fun hx => hno ⟨hx.1, hpages, hx.2.2⟩, hw⟩
  have hruns : v.status ≠ fmLogredo → v.Runs f fssize io calls :=
    fun hst => ⟨hst, hti, htd, hinside.mp hin⟩
  rcases hmap .inotype f.imap si io.writeI hmi hreadi h.imap hti.1 with
    ⟨hst, hwi, s', hw, hre⟩ | ⟨hno, hw⟩
  swap
  · refine hfail ?_ (fun hx => hno ⟨hx.1.status, hx.2⟩) fun hx => hno ⟨hx.1.status, hx.2.1⟩
    rw [hredo, updatemaps, show writemap v₁ v₁.imap f.imap.pages io.writeI = none from hw]
  have hboth : redo v f fssize io calls =
      (some s', writemap v₁ (v₁.mapOf .dbtype) f.dmap.pages io.writeD) := by
    rw [hredo, updatemaps, show writemap v₁ v₁.imap f.imap.pages io.writeI = some s' from hw]
    rfl
  rw [hboth]
  refine ⟨⟨⟨hruns hst, hwi⟩, hre⟩, ?_⟩
  rcases hmap .dbtype f.dmap sd io.writeD hmd hreadd h.dmap htd.1 with
    ⟨_, hwd, s'', hw', hre'⟩ | ⟨hno, hw'⟩
  · rw [hw']
    exact ⟨⟨hruns hst, hwi, hwd⟩, hre'⟩
  · rw [hw']
    exact fun hx => hno ⟨hst, hx.2.2⟩

/-- A map file with nothing allocated. -/
def emptyFile : MapFile where
  map :=
    { lay := Dmap.Vmdmap.smallGroups
      mapsize := 0
      freecnt := 0
      totalags := 0
      lastalloc := 0
      npages := 0
      page _ := ⟨0, fun _ => 0, fun _ => 0, fun _ => 0, fun _ => 0⟩ }
  pages := 4

/-- A volume of 512-byte fragments with 512 of them, and 512 inodes, to an allocation group. -/
def smallVolume : Vopen where
  status := 0
  fragsize := 512
  fperpage := 8
  agsize := 512
  iagsize := 512
  imap := emptyFile.map
  dmap := emptyFile.map

def smallFiles : Files := ⟨emptyFile, emptyFile⟩

def goodIo : Io := ⟨fun _ => true, fun _ => true, fun _ => true, fun _ => true⟩

theorem smallVolume_consistent : Consistent smallVolume smallFiles := ⟨by decide, rfl, rfl⟩

/-- A block of eight fragments is freed last, and an inode allocated. -/
def smallCalls : List Call := [⟨.dbtype, 0x48#32, false⟩, ⟨.inotype, 3#32, true⟩,
  ⟨.dbtype, 0x48#32, true⟩]

theorem maps_rebuilt_small :
    Writes (smallVolume.Runs smallFiles 16384 goodIo smallCalls ∧
        smallVolume.Transferred smallFiles.imap 16384 .inodemap goodIo.writeI)
      (Rebuilt smallVolume smallFiles.imap 16384 .inodemap
        (smallVolume.marked smallCalls .inotype))
      (redo smallVolume smallFiles 16384 goodIo smallCalls).1 ∧
    Writes (smallVolume.Runs smallFiles 16384 goodIo smallCalls ∧
        smallVolume.Transferred smallFiles.imap 16384 .inodemap goodIo.writeI ∧
        smallVolume.Transferred smallFiles.dmap 16384 .fsdiskmap goodIo.writeD)
      (Rebuilt smallVolume smallFiles.dmap 16384 .fsdiskmap
        (smallVolume.marked smallCalls .dbtype))
      (redo smallVolume smallFiles 16384 goodIo smallCalls).2 :=
  maps_rebuilt smallVolume_consistent (by unfold Vopen.InDword; decide) 16384 goodIo

/-- Without any call a free fragment behind the last group comes out allocated. -/
theorem maps_rebuilt_rest :
    mapBit Page.pmap smallFiles.dmap.map 15872 = false ∧
      (redo smallVolume smallFiles 15873 goodIo []).2.map
        (fun s => (s.mapsize, mapBit Page.pmap s 15872)) = some (15873, true) :=
  ⟨rfl, by decide +kernel⟩

end Aix413.Logredo.BitMaps
