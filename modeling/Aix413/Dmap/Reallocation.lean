import Aix413.Dmap.Growth

namespace Aix413.Dmap

open Lib.BitRuns Lib.MaxTree

namespace Vmdmap

variable {s s' : Vmdmap} {fperpage n : Nat} {old : Frag} {olds : List Frag}
  {stale : Nat → Nat → Prop}

/-- The first bit of a block within its page. -/
def bitno (s : Vmdmap) (old : Frag) : Nat := old.addr % s.lay.dbperpage

def pageno (s : Vmdmap) (old : Frag) : Nat := old.addr / s.lay.dbperpage

/-- A block lies in one double word of the map. -/
structure Block (s : Vmdmap) (fperpage : Nat) (old : Frag) : Prop where
  page : s.pageno old < s.npages
  short : Frag.size fperpage old ≤ 32
  dword : old.addr % 64 + Frag.size fperpage old ≤ 64

/-- What a block holds is allocated. -/
def Held (s : Vmdmap) (fperpage : Nat) (old : Frag) : Prop :=
  ∀ i, s.bitno old ≤ i → i < s.bitno old + Frag.size fperpage old →
    pbit (s.page (s.pageno old)).wmap i = true

theorem bitno_lt (s : Vmdmap) (old : Frag) : s.bitno old < s.lay.dbperpage :=
  (address s.lay old.addr).1

theorem Block.bits (hb : Block s fperpage old) :
    s.bitno old % 64 + Frag.size fperpage old ≤ 64 := by
  rw [bitno, (address s.lay old.addr).2.2.1]
  exact hb.dword

/-- The map after one turn of `freeLoop`. -/
def release (s : Vmdmap) (fperpage : Nat) (old : Frag) : Vmdmap :=
  let p := s.pageno old
  let b := s.bitno old
  { s with freecnt := s.freecnt + Frag.size fperpage old }.setPage p
    { s.page p with
      wmap := clearBits (s.page p).wmap (2 * (b / 64)) (b % 64) (Frag.size fperpage old)
      agfree := Function.update (s.page p).agfree (b / s.lay.agsize)
        ((s.page p).agfree (b / s.lay.agsize) + Frag.size fperpage old) }

theorem freeLoop_cons (hb : Block s fperpage old) :
    freeLoop fperpage (old :: olds) s = some s' ↔
      Held s fperpage old ∧ freeLoop fperpage olds (s.release fperpage old) = some s' := by
  obtain ⟨hin, hword, hmod, -⟩ := address s.lay old.addr
  have hbit : 32 * (2 * (old.addr % s.lay.dbperpage / 64)) + old.addr % 64 = s.bitno old := by
    unfold bitno
    omega
  have htaken : taken (s.page (s.pageno old)).wmap (2 * (old.addr % s.lay.dbperpage / 64)) _ _ =
      true ↔ _ := taken_eq_true hb.short hb.dword
  rw [hbit] at htaken
  rw [freeLoop]
  dsimp only
  rw [mod_page, hword]
  by_cases ht : taken (s.page (s.pageno old)).wmap (2 * (old.addr % s.lay.dbperpage / 64))
      (old.addr % 64) (Frag.size fperpage old) = true
  · have hheld : Held s fperpage old := htaken.mp ht
    rw [and_iff_right hheld, if_pos]
    · unfold release bitno
      dsimp only
      rw [hmod]
      rfl
    · exact ht
  · rw [if_neg]
    · exact iff_of_false nofun fun h => ht (htaken.mpr h.1)
    · exact ht

@[simp] theorem release_lay : (s.release fperpage old).lay = s.lay := rfl
@[simp] theorem release_npages : (s.release fperpage old).npages = s.npages := rfl
@[simp] theorem release_mapsize : (s.release fperpage old).mapsize = s.mapsize := rfl
@[simp] theorem release_totalags : (s.release fperpage old).totalags = s.totalags := rfl

theorem release_of_ne {q : Nat} (h : q ≠ s.pageno old) :
    (s.release fperpage old).page q = s.page q := setPage_of_ne h

theorem release_agcnt (q : Nat) :
    ((s.release fperpage old).page q).agcnt = (s.page q).agcnt := by
  by_cases h : q = s.pageno old
  · rw [h, release, setPage_self]
  · rw [release_of_ne h]

/-- Just the fragments of the block become free. -/
theorem release_takes (hb : Block s fperpage old) (hheld : Held s fperpage old) :
    Takes ((s.release fperpage old).page (s.pageno old)).wmap (s.page (s.pageno old)).wmap
      (s.bitno old) (Frag.size fperpage old) := by
  have hbit : 32 * (2 * (s.bitno old / 64)) + s.bitno old % 64 = s.bitno old := by omega
  have ht : Takes (clearBits (s.page (s.pageno old)).wmap (2 * (s.bitno old / 64))
      (s.bitno old % 64) (Frag.size fperpage old)) _ _ _ :=
    takes_clearBits hb.short hb.bits ((taken_eq_true hb.short hb.bits).mpr (by rwa [hbit]))
  rw [hbit] at ht
  rw [release, setPage_self]
  exact ht

theorem Block.release {old' : Frag} (hb : Block s fperpage old') :
    Block (s.release fperpage old) fperpage old' := ⟨hb.page, hb.short, hb.dword⟩

theorem sums_release (h : Sums s stale) (hb : Block s fperpage old) (hheld : Held s fperpage old) :
    Sums (s.release fperpage old) fun q d =>
      stale q d ∨ q = s.pageno old ∧ d = s.bitno old / 64 := by
  obtain ⟨-, k, hk⟩ := s.lay.dbperpage_le
  have hin := bitno_lt s old
  have hd := hb.bits
  have hch : Sums (s.release fperpage old) _ := h.change (p := s.pageno old)
    (δ := Frag.size fperpage old) (s.bitno old / s.lay.agsize) rfl rfl hb.page
    (fun q hq => release_of_ne hq) (by rw [Vmdmap.release, setPage_self])
    (.inr ⟨release_takes hb hheld, rfl⟩) (fun i h1 h2 => s.lay.same_ag (by omega)) (by omega)
    (by rw [Vmdmap.release, setPage_self]) rfl
  refine hch.mono fun q _ d _ hs => ?_
  rcases hs with hs | ⟨hq, h1, h2⟩
  · exact .inl hs
  · exact .inr ⟨hq, by omega⟩

/-! ## The loop over the trees -/

theorem reallocTrees_sums : ∀ {s : Vmdmap} (olds : List Frag) (last : Option (Nat × Nat))
    {stale : Nat → Nat → Prop}, Sums s stale → (∀ old ∈ olds, s.pageno old < s.npages) →
    (∀ p w, last = some (p, w) → w % 2 = 0 ∧ ¬stale p (w / 2)) →
    Sums (reallocTrees olds last s) fun q d =>
      stale q d ∧ ∀ old ∈ olds, ¬(q = s.pageno old ∧ d = s.bitno old / 64)
  | s, [], _, stale, h, _, _ => h.mono fun q _ d _ hs => ⟨hs, fun old ho => by cases ho⟩
  | s, old :: olds, last, stale, h, hp, hlast => by
    have hin := bitno_lt s old
    have hword : s.bitno old / 32 / 2 * 2 = 2 * (s.bitno old / 64) := by omega
    have hstep : ∀ s₁ : Vmdmap, s₁.lay = s.lay → s₁.npages = s.npages →
        Sums s₁ (fun q d => stale q d ∧ ¬(q = s.pageno old ∧ d = s.bitno old / 64)) →
        Sums (reallocTrees olds (some (s.pageno old, 2 * (s.bitno old / 64))) s₁) fun q d =>
          stale q d ∧ ∀ old' ∈ old :: olds, ¬(q = s.pageno old' ∧ d = s.bitno old' / 64) := by
      intro s₁ hlay hnp h₁
      have hrest := reallocTrees_sums olds (some (s.pageno old, 2 * (s.bitno old / 64))) h₁
        (fun old' ho => by
          rw [pageno, hlay, hnp]
          exact hp old' (List.mem_cons_of_mem _ ho))
        (fun p w heq => by
          obtain ⟨rfl, rfl⟩ := Prod.mk.inj (Option.some.inj heq)
          exact ⟨Nat.mul_mod_right 2 _, fun hs => hs.2 ⟨rfl, by omega⟩⟩)
      refine hrest.mono fun q _ d _ hs => ⟨hs.1.1, fun old' ho => ?_⟩
      rcases List.mem_cons.mp ho with rfl | ho
      · exact hs.1.2
      · have hold := hs.2 old' ho
        rwa [pageno, bitno, hlay] at hold
    rw [reallocTrees, mod_page]
    change Sums (reallocTrees olds (some (s.pageno old, s.bitno old / 32 / 2 * 2))
      (if last = some (s.pageno old, s.bitno old / 32 / 2 * 2) then s
        else s.setPage (s.pageno old)
          (vUpdtree s.lay (s.page (s.pageno old)) (s.bitno old / 32 / 2 * 2)))) _
    rw [hword]
    split
    · rename_i heq
      refine hstep s rfl rfl (h.mono fun q _ d _ hs => ⟨hs, ?_⟩)
      rintro ⟨rfl, rfl⟩
      have hfresh := (hlast _ _ heq).2
      rw [Nat.mul_div_cancel_left _ (by omega)] at hfresh
      exact hfresh hs
    · have hup := h.updtree (p := s.pageno old) (2 * (s.bitno old / 64))
        (hp old List.mem_cons_self) (by omega) rfl
      rw [Nat.mul_div_cancel_left _ (by omega)] at hup
      exact hstep _ rfl rfl hup

/-! ## What is not touched -/

/-- Nothing but counts, trees and fragments that became free differ. -/
structure Shrinks (s s' : Vmdmap) : Prop where
  lay : s'.lay = s.lay
  npages : s'.npages = s.npages
  mapsize : s'.mapsize = s.mapsize
  totalags : s'.totalags = s.totalags
  agcnt : ∀ q, (s'.page q).agcnt = (s.page q).agcnt
  bits : ∀ q i, pbit (s'.page q).wmap i = true → pbit (s.page q).wmap i = true

theorem Shrinks.refl (s : Vmdmap) : Shrinks s s :=
  ⟨rfl, rfl, rfl, rfl, fun _ => rfl, fun _ _ h => h⟩

theorem Shrinks.trans {s'' : Vmdmap} (h : Shrinks s s') (h' : Shrinks s' s'') : Shrinks s s'' :=
  ⟨h'.lay.trans h.lay, h'.npages.trans h.npages, h'.mapsize.trans h.mapsize,
    h'.totalags.trans h.totalags, fun q => (h'.agcnt q).trans (h.agcnt q),
    fun q i hb => h.bits q i (h'.bits q i hb)⟩

theorem Sound.shrinks (h : Sound s) (hs : Shrinks s s') (hsums : Sums s' fun _ _ => False) :
    Sound s' := by
  refine ⟨hsums, ?_, fun q hq => ?_, ?_⟩
  · rw [hs.mapsize, hs.npages, hs.lay]
    exact h.size
  · rw [hs.agcnt, hs.lay]
    exact h.agcnt q (hs.npages ▸ hq)
  · rw [hs.totalags, hs.npages, h.totalags]
    exact Finset.sum_congr rfl fun q _ => (hs.agcnt q).symm

theorem release_shrinks (hb : Block s fperpage old) (hheld : Held s fperpage old) :
    Shrinks s (s.release fperpage old) := by
  refine ⟨rfl, rfl, rfl, rfl, release_agcnt, fun q i hbit => ?_⟩
  by_cases hq : q = s.pageno old
  · subst hq
    rw [(release_takes hb hheld).bits, hbit, Bool.true_or]
  · rwa [release_of_ne hq] at hbit

theorem reallocTrees_shrinks : ∀ (olds : List Frag) (last : Option (Nat × Nat)) (s : Vmdmap),
    Shrinks s (reallocTrees olds last s)
  | [], _, s => Shrinks.refl s
  | old :: olds, last, s => by
    rw [reallocTrees]
    refine Shrinks.trans ?_ (reallocTrees_shrinks olds _ _)
    split
    · exact Shrinks.refl s
    · have hpage : ∀ (p ind q : Nat),
          ((s.setPage p (vUpdtree s.lay (s.page p) ind)).page q).agcnt = (s.page q).agcnt ∧
            ((s.setPage p (vUpdtree s.lay (s.page p) ind)).page q).wmap = (s.page q).wmap := by
        intro p ind q
        by_cases hq : q = p
        · rw [hq, setPage_self]
          exact ⟨rfl, rfl⟩
        · rw [setPage_of_ne hq]
          exact ⟨rfl, rfl⟩
      refine ⟨rfl, rfl, rfl, rfl, fun q => (hpage _ _ q).1, fun q i hb => ?_⟩
      rwa [(hpage _ _ q).2] at hb

/-- The blocks that `freeLoop` goes through. -/
theorem freeLoop_result : ∀ {olds : List Frag} {s s' : Vmdmap} {stale : Nat → Nat → Prop},
    (∀ old ∈ olds, Block s fperpage old) → Sums s stale → freeLoop fperpage olds s = some s' →
    Shrinks s s' ∧ Sums s' fun q d => stale q d ∨
      ∃ old ∈ olds, q = s.pageno old ∧ d = s.bitno old / 64
  | [], s, s', stale, _, h, hrun => by
    obtain rfl := Option.some.inj hrun
    exact ⟨Shrinks.refl s, h.mono fun q _ d _ hs => .inl hs⟩
  | old :: olds, s, s', stale, hb, h, hrun => by
    have hold := hb old List.mem_cons_self
    obtain ⟨hheld, hrest⟩ := (freeLoop_cons hold).mp hrun
    obtain ⟨h1, h2⟩ := freeLoop_result (fun old' ho => (hb old' (List.mem_cons_of_mem _ ho)).release)
      (sums_release h hold hheld) hrest
    refine ⟨(release_shrinks hold hheld).trans h1, h2.mono fun q _ d _ hs => ?_⟩
    rcases hs with (hs | hs) | ⟨old', ho, hs⟩
    · exact .inl hs
    · exact .inr ⟨old, List.mem_cons_self, hs⟩
    · exact .inr ⟨old', List.mem_cons_of_mem _ ho, hs⟩

/-- `v_realloc` after its allocation. -/
theorem realloc_rest {olds : List Frag} (hb : ∀ old ∈ olds, Block s fperpage old)
    (h : Sound s) (hrun : freeLoop fperpage olds s = some s') :
    Shrinks s (reallocTrees olds none s') ∧ Sound (reallocTrees olds none s') := by
  obtain ⟨hsh, hsums⟩ := freeLoop_result hb h.sums hrun
  have htrees := reallocTrees_sums olds none hsums
    (fun old ho => by
      rw [pageno, hsh.lay, hsh.npages]
      exact (hb old ho).page) nofun
  have hall := hsh.trans (reallocTrees_shrinks olds none s')
  refine ⟨hall, h.shrinks hall (htrees.mono fun q _ d _ hs => ?_)⟩
  obtain ⟨hs | ⟨old, ho, h1, h2⟩, hno⟩ := hs
  · exact hs
  · refine hno old ho ⟨?_, ?_⟩
    · rw [pageno, hsh.lay]
      exact h1
    · rw [bitno, hsh.lay]
      exact h2

/-! ## All blocks are freed -/

/-- Two blocks have no fragment in common. -/
def Apart (fperpage : Nat) (old old' : Frag) : Prop :=
  old.addr + Frag.size fperpage old ≤ old'.addr ∨ old'.addr + Frag.size fperpage old' ≤ old.addr

theorem Held.release {old' : Frag} (hb : Block s fperpage old) (hheld : Held s fperpage old)
    (h' : Held s fperpage old') (hapart : Apart fperpage old old') :
    Held (s.release fperpage old) fperpage old' := by
  intro i h1 h2
  have h1 : s.bitno old' ≤ i := h1
  have h2 : i < s.bitno old' + Frag.size fperpage old' := h2
  change pbit ((s.release fperpage old).page (s.pageno old')).wmap i = true
  have hset := h' i h1 h2
  by_cases hq : s.pageno old' = s.pageno old
  · rw [hq] at hset ⊢
    obtain ⟨-, -, -, haddr⟩ := address s.lay old.addr
    obtain ⟨-, -, -, haddr'⟩ := address s.lay old'.addr
    change s.pageno old * s.lay.dbperpage + s.bitno old = old.addr at haddr
    change s.pageno old' * s.lay.dbperpage + s.bitno old' = old'.addr at haddr'
    rw [hq] at haddr'
    unfold Apart at hapart
    have hfar := (release_takes hb hheld).far (i := i) (by omega)
    rwa [hfar] at hset
  · rw [release_of_ne hq]
    exact hset

theorem freeLoop_some : ∀ {olds : List Frag} {s : Vmdmap},
    (∀ old ∈ olds, Block s fperpage old ∧ Held s fperpage old) →
    olds.Pairwise (Apart fperpage) → ∃ s', freeLoop fperpage olds s = some s'
  | [], s, _, _ => ⟨s, rfl⟩
  | old :: olds, s, hall, hpair => by
    obtain ⟨hb, hheld⟩ := hall old List.mem_cons_self
    obtain ⟨hap, hpair⟩ := List.pairwise_cons.mp hpair
    obtain ⟨s', hs'⟩ := freeLoop_some (s := s.release fperpage old) (fun old' ho =>
      ⟨(hall old' (List.mem_cons_of_mem _ ho)).1.release,
        Held.release hb hheld (hall old' (List.mem_cons_of_mem _ ho)).2 (hap old' ho)⟩) hpair
    exact ⟨s', (freeLoop_cons hb).mpr ⟨hheld, hs'⟩⟩

/-- What holds of a request to `v_realloc`. -/
structure Realloc (s : Vmdmap) (fperpage : Nat) (olds : List Frag) : Prop where
  blocks : ∀ old ∈ olds, Block s fperpage old ∧ Held s fperpage old
  apart : olds.Pairwise (Apart fperpage)
  count : olds ≠ [] ∧ olds.length ≤ 4
  inside : ∀ old ∈ olds, old.addr < s.mapsize

theorem take_wmap_of_ne {p b q : Nat} (h : q ≠ p) : (s.take p b n).page q = s.page q := by
  rw [take, account_of_ne h, setWmap_of_ne h]

theorem take_wmap (s : Vmdmap) (p b n : Nat) : ((s.take p b n).page p).wmap =
    setBits (s.page p).wmap (2 * (b / 64)) (b % 64) n := by
  rw [take, account_wmap, setWmap_self]

/-- A string of free fragments is taken from the map, and no other bit changes. -/
theorem take_bits {p b : Nat} (hn : n ≤ 32) (hd : b % 64 + n ≤ 64)
    (hr : Run (pbit (s.page p).wmap) b n) (q i : Nat) : pbit ((s.take p b n).page q).wmap i =
      (pbit (s.page q).wmap i || decide (q = p ∧ b ≤ i ∧ i < b + n)) := by
  by_cases hq : q = p
  · subst hq
    rw [take_wmap, (takes_take hn hd hr).bits]
    simp
  · rw [take_wmap_of_ne hq, decide_eq_false (p := q = p ∧ b ≤ i ∧ i < b + n) (by tauto),
      Bool.or_false]

theorem allocate_bits {p b : Nat} (hn : n ≤ 32) (hd : b % 64 + n ≤ 64)
    (hr : Run (pbit (s.page p).wmap) b n) (q i : Nat) :
    pbit ((s.allocate p b n).page q).wmap i =
      (pbit (s.page q).wmap i || decide (q = p ∧ b ≤ i ∧ i < b + n)) :=
  take_bits (s := { s with lastalloc := p * s.lay.dbperpage + b }) hn hd hr q i

theorem release_bits (hb : Block s fperpage old) (hheld : Held s fperpage old) (q i : Nat) :
    pbit (s.page q).wmap i = (pbit ((s.release fperpage old).page q).wmap i || decide
      (q = s.pageno old ∧ s.bitno old ≤ i ∧ i < s.bitno old + Frag.size fperpage old)) := by
  by_cases hq : q = s.pageno old
  · subst hq
    rw [(release_takes hb hheld).bits i]
    simp
  · rw [release_of_ne hq, decide_eq_false (by tauto), Bool.or_false]

theorem reallocTrees_wmap : ∀ (olds : List Frag) (last : Option (Nat × Nat)) (s : Vmdmap) (q : Nat),
    ((reallocTrees olds last s).page q).wmap = (s.page q).wmap
  | [], _, _, _ => rfl
  | old :: olds, last, s, q => by
    rw [reallocTrees, reallocTrees_wmap olds]
    split
    · rfl
    · by_cases hq : q = old.addr / s.lay.dbperpage
      · rw [hq, setPage_self]
        rfl
      · rw [setPage_of_ne hq]

/-- Only fragments of the blocks become free. -/
theorem freeLoop_keeps : ∀ {olds : List Frag} {s s' : Vmdmap},
    (∀ old ∈ olds, Block s fperpage old) → freeLoop fperpage olds s = some s' → ∀ q i,
    pbit (s.page q).wmap i = true → (∀ old ∈ olds, ¬(q = s.pageno old ∧ s.bitno old ≤ i ∧
      i < s.bitno old + Frag.size fperpage old)) → pbit (s'.page q).wmap i = true
  | [], s, s', _, hrun, q, i, hset, _ => by
    obtain rfl := Option.some.inj hrun
    exact hset
  | old :: olds, s, s', hb, hrun, q, i, hset, hout => by
    have hold := hb old List.mem_cons_self
    obtain ⟨hheld, hrest⟩ := (freeLoop_cons hold).mp hrun
    have hbit := release_bits hold hheld q i
    rw [hset, decide_eq_false (hout old List.mem_cons_self), Bool.or_false] at hbit
    exact freeLoop_keeps (fun old' ho => (hb old' (List.mem_cons_of_mem _ ho)).release) hrest q i
      hbit.symm fun old' ho => hout old' (List.mem_cons_of_mem _ ho)

/-- What `v_realloc` comes to. -/
inductive Realloced (s : Vmdmap) (fperpage : Nat) (olds : List Frag) (n : Nat) : Ret → Prop
  | error (e : Errno) : Realloced s fperpage olds n (some (s, .error e))
  | ok (p b : Nat) (s' : Vmdmap) (hpg : p < s.npages)
    (hp : p * s.lay.dbperpage + b + n ≤ s.mapsize) (hb : b < s.lay.dbperpage)
    (hd : b % 64 + n ≤ 64) (hr : Run (pbit (s.page p).wmap) b n)
    (hrun : freeLoop fperpage olds (s.allocate p b n) = some s') :
    Realloced s fperpage olds n
      (some (reallocTrees olds none s', .ok (p * s.lay.dbperpage + b)))

/-- Whatever way `v_alloc` goes, it allocates fragments of the map or fails. -/
theorem vAlloc_outcome {pref : Nat} (h : Sound s) (hn : n ≤ s.lay.clsize)
    (hpref : pref < s.mapsize) : Outcome s n (fun _ _ => False) (s.vAlloc n pref) := by
  rcases vAlloc_cases h hn hpref with ⟨-, d, hd, hin, hrun⟩ | ⟨-, hout⟩
  · rw [hrun]
    have hpage := lt_of_lt_of_le (lt_mapPages hpref) (mapPages_le h.size)
    exact alloccp_outcome h.sums hpage hn hin ((promises_iff h.sums hpage hn hin).mpr hd.fits)
      fun q e hqe => hqe.elim
  · exact hout.mono fun p d hf _ => hf.elim

theorem vRealloc_cases {olds : List Frag} (h : Sound s) (hn : n ≤ s.lay.clsize)
    (hreq : Realloc s fperpage olds) : Realloced s fperpage olds n (s.vRealloc fperpage olds n) := by
  have hcl := clsize_le s.lay
  obtain ⟨hne, hlen⟩ := hreq.count
  unfold vRealloc
  rw [List.getLast?_eq_some_getLast hne]
  dsimp only
  rw [if_neg (by change ¬(4 < olds.length ∨ 32 < n); omega)]
  have hout := vAlloc_outcome h hn (hreq.inside _ (List.getLast_mem hne))
  generalize s.vAlloc n (olds.getLast hne).addr = r at hout
  cases hout with
  | enospc _ => exact .error _
  | found p b hpg hp hb hd hr =>
    have hblocks : ∀ old ∈ olds, Block (s.allocate p b n) fperpage old ∧
        Held (s.allocate p b n) fperpage old := by
      intro old ho
      obtain ⟨hblk, hheld⟩ := hreq.blocks old ho
      refine ⟨⟨hblk.page, hblk.short, hblk.dword⟩, fun i h1 h2 => ?_⟩
      rw [allocate_bits (by omega) hd hr]
      exact (Bool.or_eq_true _ _).mpr (.inl (hheld i h1 h2))
    obtain ⟨s', hs'⟩ := freeLoop_some hblocks hreq.apart
    dsimp only
    rw [hs']
    exact .ok p b s' hpg hp hb hd hr hs'

end Vmdmap

end Aix413.Dmap
