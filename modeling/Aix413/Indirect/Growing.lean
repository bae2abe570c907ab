import Aix413.Indirect.Files

namespace Aix413.Indirect

open Aix413.Lib.LinkedPool

variable {s s' : State} {l l' : List Nat} {p q pno n disk : Nat}

/-! ## New blocks -/

/-- `l` is the free list. -/
def Stock (s : State) (l : List Nat) : Prop :=
  Chain (fun p => (s.indptr p).toNat) s.free l ∧ ∀ p ∈ l, p < 2 ^ 17

theorem Wf.stock (h : Wf s l) : Stock s l := ⟨h.chain, fun _ hp => h.lt hp⟩

/-- The page at the head of the free list is taken. -/
def State.taken (s : State) (p disk : Nat) : State :=
  { s with
    free := (s.indptr p).toNat
    indptr := Function.update s.indptr p (newEntry disk)
    page := Function.update s.page p fun _ => 0 }

theorem Stock.take (h : Stock s (p :: l)) (disk : Nat) :
    s.takePage disk = some (s.taken p disk, p) ∧ Stock (s.taken p disk) l := by
  obtain ⟨hc, hlt⟩ := h
  have hp := hc.1
  have hp17 := hlt p List.mem_cons_self
  have hmsb := msb_eq_false (w := BitVec.ofNat 32 p) (by rwa [toNat_ofNat hp17])
  constructor
  · unfold State.takePage
    dsimp only
    rw [hp, if_neg]
    · rfl
    · rintro (h0 | h0)
      · exact hc.2.1 h0
      · rw [hmsb] at h0
        exact Bool.false_ne_true h0
  · refine ⟨hc.2.2.congr fun q hq => ?_, fun q hq => hlt q (List.mem_cons_of_mem p hq)⟩
    have hne : q ≠ p := by
      rintro rfl
      exact (List.nodup_cons.mp hc.nodup).1 hq
    change (Function.update s.indptr p (newEntry disk) q).toNat = _
    rw [Function.update_of_ne hne]

theorem newEntry_ne_zero (disk : Nat) : newEntry disk ≠ 0 := by
  intro h
  have hmsb : (newEntry disk).msb = true := by
    rw [newEntry, BitVec.msb_or]
    rfl
  rw [h] at hmsb
  exact Bool.false_ne_true hmsb

theorem setRoot_page_of_ne {w : Nat} {r : Word} (h : q ≠ p) :
    (s.setRoot p n w r).page q = s.page q := by
  change Function.update (Function.update s.page p _) p _ q = _
  rw [Function.update_of_ne h, Function.update_of_ne h]

theorem setRoot_vaddr {w j : Nat} {r : Word} (hw : w < 2 ^ 17) :
    (s.setRoot p n w r).vaddr p j = if j = n then w else s.vaddr p j := by
  change (Function.update (Function.update s.page p _) p
    (Function.update (Function.update s.page p _ p) (2 * n + 1) r) p (2 * j)).toNat = _
  rw [Function.update_self, Function.update_self, Function.update_of_ne (by omega)]
  by_cases hj : j = n
  · subst hj
    rw [Function.update_self, if_pos rfl, toNat_ofNat hw]
  · rw [Function.update_of_ne (by omega), if_neg hj]
    rfl

theorem vaddr_congr {t : State} (h : t.page p = s.page p) (j : Nat) :
    t.vaddr p j = s.vaddr p j := by
  unfold State.vaddr
  rw [h]

theorem taken_page_of_ne {disk : Nat} (h : q ≠ p) : (s.taken p disk).page q = s.page q :=
  Function.update_of_ne h _ _

theorem taken_page {disk : Nat} : (s.taken p disk).page p = fun _ => 0 := Function.update_self _ _ _

theorem taken_vaddr {disk j : Nat} : (s.taken p disk).vaddr p j = 0 := by
  unfold State.vaddr
  rw [taken_page]
  rfl

/-- What `v_growiblk` makes of a file when it has got the disk blocks. -/
def State.grown (s : State) (pno numind disk fperpage : Nat) : Option State :=
  (s.makeindirect pno numind disk fperpage).bind fun t =>
    (t.vFindiblk pno).map fun xpt =>
      { t.setWord (newEntry (disk + numind * fperpage)) xpt with
        newdisk := t.newdisk + 1
        nblocks := t.nblocks + fperpage }

/-- The new pointer is in the slot of the page. -/
def Holds (s : State) (pno : Nat) (w : Word) : Prop :=
  ∃ sl, s.vFindiblk pno = some sl ∧ s.word sl = w

/-- What is said of a growth over the first `N` pages. -/
structure Maps (s s' : State) (pno N : Nat) (w : Word) : Prop where
  slot : Holds s' pno w
  keeps : Keeps s s' pno N
  apart : Apart s' N

theorem dblind_max {a b : Int} (h : dblind a = true ∨ dblind b = true) :
    dblind (max a b) = true := by
  unfold dblind at *
  rw [decide_eq_true_eq, decide_eq_true_eq] at h
  exact decide_eq_true (by omega)

/-- The new pointer goes into a slot of a page of pointers. -/
theorem setWord_page {i : Nat} {w : Word} :
    (s.setWord w (.indirect p i)).page p = Function.update (s.page p) i w :=
  Function.update_self _ _ _

theorem setWord_page_of_ne {i : Nat} {w : Word} (h : q ≠ p) :
    (s.setWord w (.indirect p i)).page q = s.page q := Function.update_of_ne h _ _

/-! ## Files with a double indirect block -/

/-- The double indirect block is page `r`, its entries point to the pages `v`, and `l` is the free
list. -/
structure Rooted (s : State) (r : Nat) (v : Nat → Nat) (l : List Nat) : Prop where
  stock : Stock s l
  size : dblind s.size = true
  vindirect : s.vindirect = r
  rindirect : s.rindirect ≠ 0
  vaddr : ∀ j, s.vaddr r j = v j

/-- What no new block changes. -/
def Kept (s u : State) : Prop :=
  u.number = s.number ∧ u.more = s.more ∧ u.rdaddr = s.rdaddr

variable {u : State} {r : Nat} {v : Nat → Nat}

theorem Kept.trans {t : State} (h : Kept s t) (h' : Kept t u) : Kept s u :=
  ⟨h'.1.trans h.1, h'.2.1.trans h.2.1, h'.2.2.trans h.2.2⟩

theorem Rooted.find (h : Rooted s r v l) (hn : s.number ≠ indirI) : s.vFindiblk q =
    if v (q / perblock) = 0 then none else some (.indirect (v (q / perblock)) (q % perblock)) := by
  rw [find_double h.size hn, h.vindirect, h.vaddr]

theorem Wf.rooted (h : Wf s l) (hd : dblind s.size = true) :
    Rooted s s.vindirect (s.vaddr s.vindirect) l :=
  ⟨h.stock, hd, rfl, (h.root (not_noind_of_dblind hd)).2, fun _ => rfl⟩

/-- The double indirect block itself. -/
theorem Stock.makeroot (h : Stock s (p :: l)) (hv : s.vindirect < 2 ^ 17) (disk : Nat) :
    ∃ u, s.vMakeiblk none disk = some u ∧ Kept s u ∧
      Rooted u p (fun j => if j = 0 then s.vindirect else 0) l ∧
      ∀ q, q ≠ p → u.page q = s.page q := by
  obtain ⟨htake, hstock⟩ := h.take disk
  have hmake : s.vMakeiblk none disk = some
      (((s.taken p disk).setRoot p 0 s.vindirect s.rindirect).setInode p (perblock + 1)) := by
    rw [State.vMakeiblk, htake]
    rfl
  refine ⟨_, hmake, ⟨rfl, rfl, rfl⟩, ⟨hstock, dblind_max (.inr (by decide)), rfl, ?_, fun j => ?_⟩,
    fun q hq => (setRoot_page_of_ne hq).trans (taken_page_of_ne hq)⟩
  · change Function.update s.indptr p (newEntry disk) p ≠ 0
    rw [Function.update_self]
    exact newEntry_ne_zero disk
  · refine (setRoot_vaddr hv).trans ?_
    rw [taken_vaddr]

/-- A block for the pages around `n`. -/
theorem Rooted.makeblock (h : Rooted s r v (p :: l)) (hr : r ≠ p) (n disk : Nat) :
    ∃ u, s.vMakeiblk (some n) disk = some u ∧ Kept s u ∧
      Rooted u r (Function.update v (n / perblock) p) l ∧ u.page p = (fun _ => 0) ∧
      ∀ q, q ≠ p → q ≠ r → u.page q = s.page q := by
  obtain ⟨htake, hstock⟩ := h.stock.take disk
  have hp17 := h.stock.2 p List.mem_cons_self
  obtain ⟨-, hsize, rfl, hrind, hvaddr⟩ := h
  generalize hu : ({ (s.taken p disk).setRoot s.vindirect (n / perblock) p
    ((s.taken p disk).indptr p) with size := max s.size (bytes (n + 1)) } : State) = u
  have hmake : s.vMakeiblk (some n) disk = some u := by
    unfold State.vMakeiblk
    rw [htake, ← hu, Option.map_some]
    exact congrArg some (if_neg hrind)
  refine ⟨u, hmake, ?_⟩
  subst hu
  refine ⟨⟨rfl, rfl, rfl⟩, ⟨hstock, dblind_max (.inl hsize), rfl, hrind, fun j => ?_⟩, ?_, ?_⟩
  · refine (setRoot_vaddr hp17).trans ?_
    rw [vaddr_congr (taken_page_of_ne hr), hvaddr, Function.update_apply]
  · exact (setRoot_page_of_ne hr.symm).trans taken_page
  · intro q hqp hqr
    exact (setRoot_page_of_ne hqr).trans (taken_page_of_ne hqp)

/-- A pointer is put into a block. -/
theorem Rooted.setWord (h : Rooted s r v l) (hr : r ≠ p) (w : Word) (i newdisk nblocks : Nat) :
    Rooted { s.setWord w (.indirect p i) with newdisk := newdisk, nblocks := nblocks } r v l :=
  ⟨h.stock, h.size, h.vindirect, h.rindirect,
    fun j => (vaddr_congr (setWord_page_of_ne hr) j).trans (h.vaddr j)⟩

/-- The pointers in the inode are copied to the first block. -/
theorem Rooted.inodecopy (h : Rooted s r v l) (hr : r ≠ v 0) : Kept s s.vInodecopy ∧
    Rooted s.vInodecopy r v l ∧
    (s.vInodecopy.page (v 0) = fun k => if k < ndaddr then s.rdaddr k else s.page (v 0) k) ∧
    ∀ q, q ≠ v 0 → s.vInodecopy.page q = s.page q := by
  have hp : (if sglind s.size then s.vindirect else s.vaddr s.vindirect 0) = v 0 := by
    rw [not_sglind_of_dblind h.size, if_neg Bool.false_ne_true, h.vindirect, h.vaddr]
  have hcopy : s.vInodecopy = { s with
      page := Function.update s.page (v 0) fun k =>
        if k < ndaddr then s.rdaddr k else s.page (v 0) k } := by
    rw [State.vInodecopy, hp]
  rw [hcopy]
  refine ⟨⟨rfl, rfl, rfl⟩, ⟨h.stock, h.size, h.vindirect, h.rindirect, fun j => ?_⟩,
    Function.update_self _ _ _, fun q hq => Function.update_of_ne hq _ _⟩
  exact (vaddr_congr (Function.update_of_ne hr _ _) j).trans (h.vaddr j)

/-- Every page of `v` is in use, and no two of them are the same. -/
def Blocks (s : State) (r : Nat) (v : Nat → Nat) (l : List Nat) : Prop :=
  ∀ k < 512, v k ≠ 0 → s.Used l (v k) ∧ v k ≠ r ∧ ∀ j < 512, v j = v k → j = k

theorem Rooted.wf (h : Rooted s r v l) (hrange : ∀ p ∈ l, firstind ≤ p ∧ p < s.more)
    (hmore : firstind ≤ s.more ∧ s.more < 2 ^ 17) (hn : s.number ≠ indirI) (hr : s.Used l r)
    (h0 : v 0 ≠ 0) (hb : Blocks s r v l) : Wf s l := by
  have hvaddr := h.vaddr
  obtain ⟨hstock, hsize, rfl, hrind, -⟩ := h
  refine ⟨hstock.1, hrange, hmore, hn, fun hno => ?_, fun _ => ⟨hr, hrind⟩, fun _ => ?_,
    fun _ k hk hz => ?_⟩
  · rw [not_noind_of_dblind hsize] at hno
    exact absurd hno Bool.false_ne_true
  · rw [hvaddr]
    exact h0
  · rw [hvaddr] at hz ⊢
    obtain ⟨hu, hne, hinj⟩ := hb k hk hz
    refine ⟨hu, hne, fun j hj he => ?_⟩
    rw [hvaddr] at he
    exact hinj j hj he

/-- The pointer of the page itself is written last. -/
theorem Rooted.grown {numind fperpage : Nat} (h : Rooted u r v l)
    (hmake : s.makeindirect pno numind disk fperpage = some u) (hn : u.number ≠ indirI)
    (hv : v (pno / perblock) ≠ 0) (hr : r ≠ v (pno / perblock)) :
    ∃ s', s.grown pno numind disk fperpage = some s' ∧ Kept u s' ∧ Rooted s' r v l ∧
      Holds s' pno (newEntry (disk + numind * fperpage)) ∧
      (∀ k, k ≠ pno % perblock →
        s'.page (v (pno / perblock)) k = u.page (v (pno / perblock)) k) ∧
      ∀ q, q ≠ v (pno / perblock) → s'.page q = u.page q := by
  generalize hw : newEntry (disk + numind * fperpage) = w
  have hfind : u.vFindiblk pno = some (.indirect (v (pno / perblock)) (pno % perblock)) := by
    rw [h.find hn, if_neg hv]
  have hgrown : s.grown pno numind disk fperpage = some
      { u.setWord w (.indirect (v (pno / perblock)) (pno % perblock)) with
        newdisk := u.newdisk + 1
        nblocks := u.nblocks + fperpage } := by
    rw [State.grown, hmake, Option.bind_some, hfind, hw]
    rfl
  have hset := h.setWord hr w (pno % perblock) (u.newdisk + 1) (u.nblocks + fperpage)
  refine ⟨_, hgrown, ⟨rfl, rfl, rfl⟩, hset,
    ⟨.indirect (v (pno / perblock)) (pno % perblock), ?_, ?_⟩, fun k hk => ?_,
    fun q hq => setWord_page_of_ne hq⟩
  · rw [hset.find hn, if_neg hv]
  · exact (congrFun setWord_page _).trans (Function.update_self _ _ _)
  · exact (congrFun setWord_page _).trans (Function.update_of_ne hk _ _)

theorem Blocks.take {m : Nat} (h : Blocks s r v (p :: l)) (hm : u.more = s.more)
    (hp : firstind ≤ p ∧ p < s.more) (hl : p ∉ l) (hr : r ≠ p) (hz : v m = 0) :
    Blocks u r (Function.update v m p) l := by
  have hnew : ∀ j < 512, v j ≠ p := by
    intro j hj he
    have hp0 : v j ≠ 0 := by
      have h1 := hp.1
      unfold firstind at h1
      omega
    exact (h j hj hp0).1.2.2 (he ▸ List.mem_cons_self)
  intro k hk hkz
  by_cases hkm : k = m
  · subst hkm
    rw [Function.update_self] at hkz ⊢
    refine ⟨⟨hp.1, hm.symm ▸ hp.2, hl⟩, hr.symm, fun j hj he => ?_⟩
    by_contra hjk
    rw [Function.update_of_ne hjk] at he
    exact hnew j hj he
  · rw [Function.update_of_ne hkm] at hkz ⊢
    obtain ⟨⟨h1, h2, h3⟩, h4, h5⟩ := h k hk hkz
    refine ⟨⟨h1, hm.symm ▸ h2, fun hx => h3 (List.mem_cons_of_mem p hx)⟩, h4, fun j hj he => ?_⟩
    by_cases hjm : j = m
    · subst hjm
      rw [Function.update_self] at he
      exact absurd he.symm (hnew k hk)
    · rw [Function.update_of_ne hjm] at he
      exact h5 j hj he

/-- A new block of a file that has a double indirect block. -/
theorem Wf.grow_double {fperpage : Nat} (h : Wf s (p :: l)) (hd : dblind s.size = true)
    (hno : s.vFindiblk pno = none) (hpno : pno < maxpages) :
    ∃ s', s.grown pno 1 disk fperpage = some s' ∧ Wf s' l ∧
      Maps s s' pno maxpages (newEntry (disk + 1 * fperpage)) := by
  have hroot := h.rooted hd
  obtain ⟨⟨hr1, hr2, hrl⟩, -⟩ := h.root (not_noind_of_dblind hd)
  have hfirst := h.first hd
  have hblocks : Blocks s s.vindirect (s.vaddr s.vindirect) (p :: l) := h.blocks hd
  generalize s.vindirect = r at *
  have hrp : r ≠ p := fun he => hrl (he ▸ List.mem_cons_self)
  have hp0 : p ≠ 0 := h.chain.ne_zero List.mem_cons_self
  have hz : s.vaddr r (pno / perblock) = 0 := by
    rw [hroot.find h.number] at hno
    by_contra hne
    rw [if_neg hne] at hno
    cases hno
  have hlow : ¬pno < perblock := by
    intro hlt
    rw [Nat.div_eq_of_lt hlt] at hz
    exact hfirst hz
  obtain ⟨u, hmk, ⟨hun, hum, -⟩, hu, -, hupage⟩ := hroot.makeblock hrp pno disk
  have hself : Function.update (s.vaddr r) (pno / perblock) p (pno / perblock) = p :=
    Function.update_self _ _ _
  have hmake : s.makeindirect pno 1 disk fperpage = some u := by
    rw [State.makeindirect, if_pos rfl, hmk, Option.map_some, if_neg hlow]
  obtain ⟨s', hg, ⟨hsn, hsm, -⟩, hs', hslot, -, hpage⟩ := hu.grown hmake
    (hun.symm ▸ h.number) (by rwa [hself]) (by rwa [hself])
  rw [hself] at hpage
  have hmore := hsm.trans hum
  have hnumber := hsn.trans hun
  have hwf : Wf s' l := by
    refine hs'.wf (fun x hx => ?_) (hmore.symm ▸ h.more) (hnumber.symm ▸ h.number) ?_ ?_ ?_
    · rw [hmore]
      exact h.range x (List.mem_cons_of_mem p hx)
    · exact ⟨hr1, hmore.symm ▸ hr2, fun hx => hrl (List.mem_cons_of_mem p hx)⟩
    · rw [Function.update_of_ne]
      · exact hfirst
      · exact (Nat.div_pos (Nat.not_lt.mp hlow) (by decide)).ne
    · exact hblocks.take hmore (h.range p List.mem_cons_self)
        (List.nodup_cons.mp h.chain.nodup).1 hrp hz
  refine ⟨s', hg, hwf, hslot, fun q hq hne sl hsl => ?_, hwf.apart (.inl hs'.size)⟩
  -- an old page is under another block
  rw [hroot.find h.number] at hsl
  split at hsl
  · cases hsl
  rename_i hk
  obtain rfl := Option.some.inj hsl
  have hdiv : q / perblock ≠ pno / perblock := by
    intro he
    rw [he] at hk
    exact hk hz
  obtain ⟨⟨-, -, hkl⟩, hkr, -⟩ := hblocks _ (div_perblock_lt hq) hk
  have hkp : s.vaddr r (q / perblock) ≠ p := fun he => hkl (he ▸ List.mem_cons_self)
  refine ⟨.indirect (s.vaddr r (q / perblock)) (q % perblock), ?_, ?_⟩
  · rw [hs'.find (hnumber.symm ▸ h.number), Function.update_of_ne hdiv, if_neg hk]
  · exact congrFun ((hpage _ hkp).trans (hupage _ hkp hkr)) _

/-- Before the block of the page itself there is at most one block, the first. -/
theorem Blocks.first {w : Nat} (h : w ≠ 0 → s.Used l w ∧ w ≠ r) :
    Blocks s r (fun j => if j = 0 then w else 0) l := by
  intro k _ hkz
  dsimp only at hkz ⊢
  split at hkz
  · rename_i hk0
    rw [if_pos hk0]
    refine ⟨(h hkz).1, (h hkz).2, fun j _ he => ?_⟩
    by_contra hjk
    rw [if_neg (hk0 ▸ hjk)] at he
    exact hkz he.symm
  · exact absurd rfl hkz

/-- The double indirect block, and a block for the pages around `pno`. -/
theorem Stock.makedouble {p₁ p₂ : Nat} (h : Stock s (p₁ :: p₂ :: l)) (hv : s.vindirect < 2 ^ 17)
    (pno disk fperpage : Nat) :
    ∃ t u, s.vMakeiblk none disk = some t ∧ t.vMakeiblk (some pno) (disk + fperpage) = some u ∧
      Kept s u ∧ Rooted u p₁
        (Function.update (fun j => if j = 0 then s.vindirect else 0) (pno / perblock) p₂) l ∧
      u.page p₂ = (fun _ => 0) ∧ ∀ q, q ≠ p₁ → q ≠ p₂ → u.page q = s.page q := by
  have hne : p₁ ≠ p₂ := by
    rintro rfl
    exact (List.nodup_cons.mp h.1.nodup).1 List.mem_cons_self
  obtain ⟨t, hmk, hkt, ht, htpage⟩ := h.makeroot hv disk
  obtain ⟨u, hmk', hku, hu, hzero, hupage⟩ := ht.makeblock hne pno (disk + fperpage)
  refine ⟨t, u, hmk, hmk', hkt.trans hku, hu, hzero, fun q hq1 hq2 => ?_⟩
  exact (hupage q hq2 hq1).trans (htpage q hq1)

theorem single_none (h : Wf s l) (hn : noind s.size = false) (hd : dblind s.size = false)
    (hno : s.vFindiblk pno = none) (hpno : pno < maxpages) :
    perblock ≤ pno ∧ pno < maxpages - 1 := by
  rw [find_single hn (sglind_of_not_dblind hd) h.number] at hno
  by_cases hlast : pno = maxpages - 1
  · subst hlast
    exact absurd hno (by rw [if_neg (by decide)]; exact nofun)
  · rw [dblind_bytes (by omega)] at hno
    refine ⟨?_, by omega⟩
    by_contra hlt
    rw [decide_eq_false hlt] at hno
    cases hno

/-- A file with one indirect block gets a double indirect block. -/
theorem Wf.grow_single {p₁ p₂ fperpage : Nat} (h : Wf s (p₁ :: p₂ :: l))
    (hn : noind s.size = false) (hd : dblind s.size = false) (hno : s.vFindiblk pno = none)
    (hpno : pno < maxpages) :
    ∃ s', s.grown pno 2 disk fperpage = some s' ∧ Wf s' l ∧
      Maps s s' pno (maxpages - 1) (newEntry (disk + 2 * fperpage)) ∧ dblind s'.size = true ∧
      (Keeps s s' pno maxpages ↔
        pno / perblock = 511 ∧ s.page s.vindirect (perblock - 1) = 0) := by
  obtain ⟨hlow, hlast⟩ := single_none h hn hd hno hpno
  obtain ⟨hused, -⟩ := h.root hn
  have hv17 : s.vindirect < 2 ^ 17 := hused.2.1.trans h.more.2
  have hfinds : ∀ q, s.vFindiblk q =
      if dblind (bytes (q + 1)) then none else some (.indirect s.vindirect (q % perblock)) :=
    fun q => find_single hn (sglind_of_not_dblind hd) h.number
  obtain ⟨t, u, hmk, hmk', ⟨hun, hum, -⟩, hu, hzero, hupage⟩ :=
    h.stock.makedouble hv17 pno disk fperpage
  have hmake : s.makeindirect pno 2 disk fperpage = some u := by
    rw [State.makeindirect, if_neg (by decide), hmk, Option.bind_some, hmk']
    rfl
  clear hmk hmk'
  generalize s.vindirect = d at *
  obtain ⟨hd1, hd2, hdl⟩ := hused
  have hd0 : d ≠ 0 := by
    unfold firstind at hd1
    omega
  have hdp1 : d ≠ p₁ := fun he => hdl (he ▸ List.mem_cons_self)
  have hdp2 : d ≠ p₂ := fun he => hdl (he ▸ List.mem_cons_of_mem _ List.mem_cons_self)
  obtain ⟨hp1, hnd⟩ := List.nodup_cons.mp h.chain.nodup
  have hp12 : p₁ ≠ p₂ := fun he => hp1 (he ▸ List.mem_cons_self)
  have hp20 : p₂ ≠ 0 := h.chain.ne_zero (List.mem_cons_of_mem _ List.mem_cons_self)
  have hdiv : pno / perblock ≠ 0 := (Nat.div_pos hlow (by decide)).ne'
  generalize hv : Function.update (fun j => if j = 0 then d else 0) (pno / perblock) p₂ = v at *
  have hvself : v (pno / perblock) = p₂ := by rw [← hv, Function.update_self]
  have hvfirst : v 0 = d := by rw [← hv, Function.update_of_ne hdiv.symm, if_pos rfl]
  obtain ⟨s', hg, ⟨hsn, hsm, -⟩, hs', hslot, hrest, hpage⟩ := hu.grown hmake
    (hun.symm ▸ h.number) (by rwa [hvself]) (by rwa [hvself])
  rw [hvself] at hrest hpage
  have hmore := hsm.trans hum
  have hnumber := hsn.trans hun
  have hwf : Wf s' l := by
    refine hs'.wf (fun x hx => ?_) (hmore.symm ▸ h.more) (hnumber.symm ▸ h.number) ?_ ?_ ?_
    · rw [hmore]
      exact h.range x (List.mem_cons_of_mem _ (List.mem_cons_of_mem _ hx))
    · have hr := h.range p₁ List.mem_cons_self
      exact ⟨hr.1, hmore.symm ▸ hr.2, fun hx => hp1 (List.mem_cons_of_mem _ hx)⟩
    · rwa [hvfirst]
    · rw [← hv]
      have hbase : Blocks s p₁ (fun j => if j = 0 then d else 0) (p₂ :: l) :=
        Blocks.first fun _ => ⟨⟨hd1, hd2, fun hx => hdl (List.mem_cons_of_mem _ hx)⟩, hdp1⟩
      exact hbase.take hmore (h.range p₂ (List.mem_cons_of_mem _ List.mem_cons_self))
        (List.nodup_cons.mp hnd).1 hp12 (if_neg hdiv)
  have hfind' : ∀ q, s'.vFindiblk q =
      if v (q / perblock) = 0 then none else some (.indirect (v (q / perblock)) (q % perblock)) :=
    fun q => hs'.find (hnumber.symm ▸ h.number)
  have hkeeps : Keeps s s' pno (maxpages - 1) := by
    intro q hq hne sl hsl
    rw [hfinds, dblind_bytes (by omega)] at hsl
    split at hsl
    · cases hsl
    rename_i hlt
    obtain rfl := Option.some.inj hsl
    simp only [decide_eq_true_eq, not_le] at hlt
    have hvq : v (q / perblock) = d := by rw [Nat.div_eq_of_lt hlt, hvfirst]
    refine ⟨.indirect d (q % perblock), ?_, ?_⟩
    · rw [hfind', hvq, if_neg hd0]
    · exact congrFun ((hpage d hdp2).trans (hupage d hdp1 hdp2)) _
  refine ⟨s', hg, hwf, ⟨hslot, hkeeps, hwf.apart_most⟩, hs'.size, ?_⟩
  -- the last page is the only one whose slot moves
  have hslot1 : s.vFindiblk (maxpages - 1) = some (.indirect d (perblock - 1)) := by
    rw [hfinds, if_neg (by decide)]
    rfl
  have hv511 : v 511 = if pno / perblock = 511 then p₂ else 0 := by
    rw [← hv, Function.update_apply]
    by_cases he : pno / perblock = 511
    · rw [if_pos he.symm, if_pos he]
    · rw [if_neg (Ne.symm he), if_neg he]
      rfl
  have hslot2 : s'.vFindiblk (maxpages - 1) =
      if v 511 = 0 then none else some (.indirect (v 511) (perblock - 1)) := hfind' _
  rw [hv511] at hslot2
  constructor
  · intro hk
    obtain ⟨sl', hfound, hword⟩ := hk _ (by decide) (by omega) _ hslot1
    rw [hslot2] at hfound
    by_cases he : pno / perblock = 511
    · rw [if_pos he, if_neg hp20] at hfound
      obtain rfl := Option.some.inj hfound
      have hoff : perblock - 1 ≠ pno % perblock := by
        unfold maxpages at hlast
        unfold perblock at he ⊢
        omega
      exact ⟨he, hword.symm.trans ((hrest _ hoff).trans (congrFun hzero _))⟩
    · rw [if_neg he, if_pos rfl] at hfound
      cases hfound
  · rintro ⟨he, hz⟩ q hq hne sl hsl
    by_cases hqlast : q = maxpages - 1
    · subst hqlast
      obtain rfl := Option.some.inj (hslot1.symm.trans hsl)
      have hoff : perblock - 1 ≠ pno % perblock := by
        unfold maxpages at hlast
        unfold perblock at he ⊢
        omega
      refine ⟨.indirect p₂ (perblock - 1), ?_, ?_⟩
      · rw [hslot2, if_pos he, if_neg hp20]
      · exact ((hrest _ hoff).trans (congrFun hzero _)).trans hz.symm
    · exact hkeeps q (by omega) hne sl hsl

/-- A file without indirect blocks gets a double indirect block, the first block and the block of
the page. -/
theorem Wf.grow_three {p₁ p₂ p₃ fperpage : Nat} (h : Wf s (p₁ :: p₂ :: p₃ :: l))
    (hn : noind s.size = true) (hlow : perblock ≤ pno) :
    ∃ s', s.grown pno 3 disk fperpage = some s' ∧ Wf s' l ∧
      Maps s s' pno maxpages (newEntry (disk + 3 * fperpage)) := by
  obtain ⟨hv0, -⟩ := h.direct hn
  obtain ⟨t, u, hmk, hmk', ⟨hun, hum, hur⟩, hu, hzero, -⟩ :=
    h.stock.makedouble (hv0 ▸ by decide) pno disk fperpage
  rw [hv0] at hu
  obtain ⟨hp1, hnd⟩ := List.nodup_cons.mp h.chain.nodup
  obtain ⟨hp2, hnd'⟩ := List.nodup_cons.mp hnd
  have hp12 : p₁ ≠ p₂ := fun he => hp1 (he ▸ List.mem_cons_self)
  have hp13 : p₁ ≠ p₃ := fun he => hp1 (he ▸ List.mem_cons_of_mem _ List.mem_cons_self)
  have hp23 : p₂ ≠ p₃ := fun he => hp2 (he ▸ List.mem_cons_self)
  have hmem : p₂ ∈ p₁ :: p₂ :: p₃ :: l := List.mem_cons_of_mem _ List.mem_cons_self
  have hmem' : p₃ ∈ p₁ :: p₂ :: p₃ :: l :=
    List.mem_cons_of_mem _ (List.mem_cons_of_mem _ List.mem_cons_self)
  have hdiv : pno / perblock ≠ 0 := (Nat.div_pos hlow (by decide)).ne'
  obtain ⟨x, hmk3, ⟨hxn, hxm, hxr⟩, hx, -, hxpage⟩ :=
    hu.makeblock hp13 0 (disk + 2 * fperpage)
  rw [Nat.zero_div] at hx
  generalize hv : Function.update (Function.update (fun j => if j = 0 then 0 else 0)
    (pno / perblock) p₂) 0 p₃ = v at *
  have hvself : v (pno / perblock) = p₂ := by
    rw [← hv, Function.update_of_ne hdiv, Function.update_self]
  have hvfirst : v 0 = p₃ := by rw [← hv, Function.update_self]
  obtain ⟨⟨hyn, hym, -⟩, hy, hcopy, hypage⟩ := hx.inodecopy (by rwa [hvfirst])
  have hmake : s.makeindirect pno 3 disk fperpage = some x.vInodecopy := by
    rw [State.makeindirect, if_neg (by decide), hmk, Option.bind_some, hmk', Option.bind_some,
      if_pos rfl, hmk3]
    rfl
  have hnumber := hyn.trans (hxn.trans hun)
  obtain ⟨s', hg, ⟨hsn, hsm, -⟩, hs', hslot, -, hpage⟩ := hy.grown hmake
    (hnumber.symm ▸ h.number) (by rw [hvself]; exact h.chain.ne_zero hmem) (by rwa [hvself])
  rw [hvself] at hpage
  have hmore := hsm.trans (hym.trans (hxm.trans hum))
  have hnumber := hsn.trans hnumber
  have hwf : Wf s' l := by
    refine hs'.wf (fun y hy => ?_) (hmore.symm ▸ h.more) (hnumber.symm ▸ h.number) ?_ ?_ ?_
    · rw [hmore]
      exact h.range y (List.mem_cons_of_mem _ (List.mem_cons_of_mem _ (List.mem_cons_of_mem _ hy)))
    · have hr := h.range p₁ List.mem_cons_self
      refine ⟨hr.1, hmore.symm ▸ hr.2, fun hx => hp1 ?_⟩
      exact List.mem_cons_of_mem _ (List.mem_cons_of_mem _ hx)
    · rw [hvfirst]
      exact h.chain.ne_zero hmem'
    · rw [← hv]
      have hbase : Blocks s p₁ (fun j => if j = 0 then 0 else 0) (p₂ :: p₃ :: l) :=
        Blocks.first fun h0 => absurd rfl h0
      have hblock : Blocks s p₁ _ (p₃ :: l) :=
        hbase.take rfl (h.range p₂ hmem) hp2 hp12 (if_neg hdiv)
      refine hblock.take hmore (h.range p₃ hmem') (List.nodup_cons.mp hnd').1 hp13 ?_
      rw [Function.update_of_ne hdiv.symm]
      rfl
  refine ⟨s', hg, hwf, hslot, fun q hq _ sl hsl => ?_, hwf.apart (.inl hs'.size)⟩
  -- the old pages are those of the inode
  rw [find_noind hn] at hsl
  split at hsl
  swap
  · cases hsl
  rename_i hq8
  obtain rfl := Option.some.inj hsl
  have hqlt : q < perblock := hq8.trans (by decide)
  have hvq : v (q / perblock) = p₃ := by rw [Nat.div_eq_of_lt hqlt, hvfirst]
  refine ⟨.indirect p₃ q, ?_, ?_⟩
  · rw [hs'.find (hnumber.symm ▸ h.number), hvq, if_neg (h.chain.ne_zero hmem'),
      Nat.mod_eq_of_lt hqlt]
  · rw [hvfirst] at hcopy
    refine (congrFun ((hpage p₃ hp23.symm).trans hcopy) q).trans ?_
    rw [if_pos hq8, hxr, hur]
    rfl

/-- A file without indirect blocks gets one. -/
theorem Wf.grow_one {fperpage : Nat} (h : Wf s (p :: l)) (hn : noind s.size = true)
    (hno : s.vFindiblk pno = none) (hlow : pno < perblock) :
    ∃ s', s.grown pno 1 disk fperpage = some s' ∧ Wf s' l ∧
      Maps s s' pno (maxpages - 1) (newEntry (disk + 1 * fperpage)) ∧ ¬Apart s' maxpages := by
  obtain ⟨-, hr0⟩ := h.direct hn
  obtain ⟨htake, hstock⟩ := h.stock.take disk
  have hhigh : ndaddr ≤ pno := by
    rw [find_noind hn] at hno
    by_contra hlt
    rw [if_pos (Nat.not_le.mp hlt)] at hno
    cases hno
  have hlast : pno + 1 < maxpages := by
    unfold perblock at hlow
    unfold maxpages
    omega
  have hmax : noind (max s.size (bytes (pno + 1))) = false ∧
      dblind (max s.size (bytes (pno + 1))) = false := by
    rw [bytes_eq hlast]
    unfold ndaddr at hhigh
    unfold perblock at hlow
    unfold noind at hn
    have hn := of_decide_eq_true hn
    unfold noind dblind
    rw [decide_eq_false_iff_not, decide_eq_false_iff_not]
    omega
  -- the file with its block, and the pointers of the inode in it
  have hmk : s.vMakeiblk (some pno) disk = some ((s.taken p disk).setInode p (pno + 1)) := by
    unfold State.vMakeiblk
    rw [htake, Option.map_some]
    exact congrArg some (if_pos hr0)
  generalize hu : ((s.taken p disk).setInode p (pno + 1)).vInodecopy = u
  have hmake : s.makeindirect pno 1 disk fperpage = some u := by
    rw [State.makeindirect, if_pos rfl, hmk, Option.map_some, if_pos hlow, hu]
  have hcopy : u = { (s.taken p disk).setInode p (pno + 1) with
      page := Function.update (s.taken p disk).page p fun k =>
        if k < ndaddr then s.rdaddr k else 0 } := by
    rw [← hu, State.vInodecopy,
      if_pos (sglind_of_not_dblind (s := (s.taken p disk).setInode p (pno + 1)) hmax.2)]
    congr 2
    funext k
    rw [show ((s.taken p disk).setInode p (pno + 1)).page = (s.taken p disk).page from rfl,
      show ((s.taken p disk).setInode p (pno + 1)).vindirect = p from rfl, taken_page]
    rfl
  have hpage : u.page p = fun k => if k < ndaddr then s.rdaddr k else 0 := by
    rw [hcopy]
    exact Function.update_self _ _ _
  have hrest : u.number = s.number ∧ u.more = s.more ∧ u.vindirect = p ∧
      u.size = max s.size (bytes (pno + 1)) ∧ Stock u l := by
    rw [hcopy]
    exact ⟨rfl, rfl, rfl, rfl, hstock⟩
  have hrind : u.rindirect ≠ 0 := by
    rw [hcopy]
    change Function.update s.indptr p (newEntry disk) p ≠ 0
    rw [Function.update_self]
    exact newEntry_ne_zero disk
  clear hu hcopy hmk
  obtain ⟨hnumber, hmore, hvind, hsize, hst⟩ := hrest
  rw [← hsize] at hmax
  generalize hw : newEntry (disk + 1 * fperpage) = w
  have hfind : ∀ {t : State}, t.number = u.number → t.size = u.size → t.vindirect = p → ∀ q,
      t.vFindiblk q =
        if dblind (bytes (q + 1)) then none else some (.indirect p (q % perblock)) := by
    intro t h1 h2 h3 q
    rw [find_single (h2 ▸ hmax.1) (sglind_of_not_dblind (h2 ▸ hmax.2))
      ((h1.trans hnumber).symm ▸ h.number), h3]
  have hlowfind : ∀ {t : State}, t.number = u.number → t.size = u.size → t.vindirect = p →
      ∀ q < perblock, t.vFindiblk q = some (.indirect p q) := by
    intro t h1 h2 h3 q hq
    have hq' : q + 1 < maxpages := (Nat.succ_le_of_lt hq).trans_lt (by decide)
    rw [hfind h1 h2 h3, dblind_bytes hq', decide_eq_false (Nat.not_le.mpr hq), Nat.mod_eq_of_lt hq]
    rfl
  have hgrown : s.grown pno 1 disk fperpage = some
      { u.setWord w (.indirect p pno) with
        newdisk := u.newdisk + 1
        nblocks := u.nblocks + fperpage } := by
    rw [State.grown, hmake, Option.bind_some, hlowfind rfl rfl hvind pno hlow, hw]
    rfl
  generalize hs' : ({ u.setWord w (.indirect p pno) with
      newdisk := u.newdisk + 1, nblocks := u.nblocks + fperpage } : State) = s' at hgrown
  have hspage : s'.page p = Function.update (u.page p) pno w := by
    rw [← hs']
    exact setWord_page
  have hsrest : s'.number = u.number ∧ s'.more = u.more ∧ s'.vindirect = p ∧ s'.size = u.size ∧
      s'.rindirect = u.rindirect ∧ Stock s' l := by
    rw [← hs']
    exact ⟨rfl, rfl, hvind, rfl, rfl, hst⟩
  clear hs'
  obtain ⟨hsn, hsm, hsv, hss, hsr, hsst⟩ := hsrest
  have hrange := h.range p List.mem_cons_self
  have hmore' := hsm.trans hmore
  have hnd : ¬dblind s'.size = true := by
    rw [hss, hmax.2]
    exact Bool.false_ne_true
  have hwf : Wf s' l := by
    refine ⟨hsst.1, fun x hx => ?_, hmore'.symm ▸ h.more, (hsn.trans hnumber).symm ▸ h.number,
      fun hno => ?_, fun _ => ⟨⟨?_, ?_, ?_⟩, hsr.symm ▸ hrind⟩, fun hdx => absurd hdx hnd,
      fun hdx => absurd hdx hnd⟩
    · rw [hmore']
      exact h.range x (List.mem_cons_of_mem p hx)
    · rw [hss, hmax.1] at hno
      exact absurd hno Bool.false_ne_true
    · rw [hsv]
      exact hrange.1
    · rw [hsv, hmore']
      exact hrange.2
    · rw [hsv]
      exact (List.nodup_cons.mp h.chain.nodup).1
  refine ⟨s', hgrown, hwf, ⟨⟨.indirect p pno, hlowfind hsn hss hsv pno hlow, ?_⟩,
    fun q _ hq sl hsl => ?_, hwf.apart_most⟩,
    hwf.not_apart (hss ▸ hmax.1) (Bool.eq_false_iff.mpr hnd)⟩
  · exact (congrFun hspage _).trans (Function.update_self _ _ _)
  · rw [find_noind hn] at hsl
    split at hsl
    swap
    · cases hsl
    rename_i hq8
    obtain rfl := Option.some.inj hsl
    refine ⟨.indirect p q, hlowfind hsn hss hsv q (hq8.trans (by decide)), ?_⟩
    refine (congrFun hspage _).trans ((Function.update_of_ne hq _ _).trans ?_)
    rw [hpage]
    exact if_pos hq8

end Aix413.Indirect
