import Aix413.Dmap.Reallocation

namespace Aix413.Dmap

open Lib.BitRuns Lib.MaxTree

namespace Vmdmap

variable {s s' : Vmdmap} {fperpage p n nag : Nat}

/-! ## Calls -/

/-- The calls that allocate. -/
inductive Request
  | alloc (nfrags pref : Nat)
  | realloc (old : List Frag) (newfrags : Nat)
  | allocnxt (prev : Frag) (nfrags : Nat)
  | fallocnxt (cur : Frag) (newfrags : Nat)
  | allocit (frag : Frag)

inductive Call
  | request (r : Request)
  | bitfree (fragno nfrags : Nat)
  | mapd (daddr : Nat)
  | extendag (nfrags fragno : Nat)
  | imappage
  | setMapsize (mapsize : Nat)

def Request.nfrags (fperpage : Nat) : Request → Nat
  | .alloc nfrags _ => nfrags
  | .realloc _ newfrags => newfrags
  | .allocnxt _ nfrags => nfrags
  | .fallocnxt _ newfrags => newfrags
  | .allocit frag => Frag.size fperpage frag

def reply (s : Vmdmap) (fperpage : Nat) : Request → Ret
  | .alloc nfrags pref => s.vAlloc nfrags pref
  | .realloc old newfrags => s.vRealloc fperpage old newfrags
  | .allocnxt prev nfrags => s.vAllocnxt fperpage prev nfrags
  | .fallocnxt cur newfrags => s.vFallocnxt fperpage cur newfrags
  | .allocit frag => s.vAllocit fperpage frag

/-- The map after a call. -/
def call (s : Vmdmap) (fperpage : Nat) : Call → Option Vmdmap
  | .request r => (s.reply fperpage r).map Prod.fst
  | .bitfree fragno nfrags => s.vBitfree fragno nfrags
  | .mapd daddr => some (s.vMapd daddr)
  | .extendag nfrags fragno => some (s.vExtendag nfrags fragno)
  | .imappage => some s.imappage
  | .setMapsize mapsize => some { s with mapsize := mapsize }

/-- A fragment pointer of a block in the map. -/
def Pointer (s : Vmdmap) (fperpage : Nat) (frag : Frag) : Prop :=
  frag.nfrags < fperpage ∧ frag.addr < s.mapsize

/-- What a caller takes care of in a request. -/
def Request.Allowed (s : Vmdmap) (fperpage : Nat) (r : Request) : Prop :=
  r.nfrags fperpage ≤ s.lay.clsize ∧
    match r with
    | .alloc _ pref => pref < s.mapsize
    | .realloc old _ => Realloc s fperpage old
    | .allocnxt prev _ => Pointer s fperpage prev
    | .fallocnxt cur _ => Pointer s fperpage cur
    | .allocit frag => frag.nfrags < fperpage

def Call.Allowed (s : Vmdmap) (fperpage : Nat) : Call → Prop
  | .request r => r.Allowed s fperpage
  | .bitfree fragno nfrags => 0 < nfrags ∧ nfrags ≤ s.lay.clsize ∧
      fragno + nfrags ≤ s.mapsize ∧ fragno % 64 + nfrags ≤ 64 ∧
      s.AllBits Page.wmap fragno nfrags true ∧ s.AllBits Page.pmap fragno nfrags false
  | .mapd daddr => daddr < s.mapsize ∧ s.AllBits Page.wmap daddr 1 false
  | .extendag nfrags fragno => 0 < nfrags ∧ fragno / s.lay.dbperpage < s.npages ∧
      fragno % s.lay.agsize + nfrags ≤ s.lay.agsize ∧ s.AllBits Page.wmap fragno nfrags true
  | .imappage => True
  | .setMapsize mapsize => mapsize ≤ s.npages * s.lay.dbperpage

/-- A map with its first page, as `vm_definemap` makes it. -/
structure Initial (s : Vmdmap) : Prop where
  npages : s.npages = 1
  page : s.page 0 = { freshPage with agcnt := s.totalags }
  totalags : s.totalags ≤ 1
  freecnt : s.freecnt = 0
  mapsize : s.mapsize ≤ 1

inductive Reaches (fperpage : Nat) : Vmdmap → Prop
  | initial {s : Vmdmap} (h : Initial s) : Reaches fperpage s
  | call {s s' : Vmdmap} (c : Call) (h : Reaches fperpage s) (ha : c.Allowed s fperpage)
      (hrun : s.call fperpage c = some s') : Reaches fperpage s'

/-! ## Every call keeps the summaries -/

theorem Initial.sound (h : Initial s) : Sound s := by
  have hpos := dbperpage_pos s.lay
  have hzero : ∀ q < s.npages, q = 0 := fun q hq => by have := h.npages; omega
  have hgroups : 1 ≤ s.lay.dbperpage / s.lay.agsize :=
    (Nat.one_le_div_iff s.lay.pos).mpr (Nat.le_of_dvd hpos s.lay.pages)
  refine ⟨⟨fun q hq => ?_, fun q hq d hd _ => ?_, fun q hq nag hnag => ?_, ?_⟩, ?_,
    fun q hq => ?_, ?_⟩
  · rw [hzero q hq, h.page]
    exact fun b _ => rfl
  · rw [hzero q hq, h.page, leafValue_ones _ rfl]
    rfl
  · rw [hzero q hq, h.page]
    exact (congrArg Nat.cast (zeroCount_ones _)).symm
  · rw [h.npages, Finset.sum_range_one, h.page, h.freecnt]
    exact (congrArg Nat.cast (zeroCount_ones _)).symm
  · rw [h.npages, Nat.one_mul]
    exact h.mapsize.trans hpos
  · rw [hzero q hq, h.page]
    exact h.totalags.trans hgroups
  · rw [h.npages, Finset.sum_range_one, h.page]

theorem Sound.page_lt (h : Sound s) {f : Nat} (hf : f < s.mapsize) :
    f / s.lay.dbperpage < s.npages :=
  lt_of_lt_of_le (lt_mapPages hf) (mapPages_le h.size)

theorem Sound.request (h : Sound s) {r : Request} (ha : r.Allowed s fperpage) :
    ∃ s', (s.reply fperpage r).map Prod.fst = some s' ∧ Sound s' := by
  have hcl := clsize_le s.lay
  obtain ⟨hn, ha⟩ := ha
  cases r with
  | alloc nfrags pref =>
    change nfrags ≤ s.lay.clsize at hn
    have hout := vAlloc_outcome h hn ha
    change ∃ s', (s.vAlloc nfrags pref).map Prod.fst = some s' ∧ Sound s'
    generalize s.vAlloc nfrags pref = r at hout
    cases hout with
    | enospc _ => exact ⟨s, rfl, h⟩
    | found p b hpg hp hb hd hr => exact ⟨_, rfl, h.allocate hpg hb (by omega) hd hr⟩
  | realloc old newfrags =>
    change newfrags ≤ s.lay.clsize at hn
    have hout := vRealloc_cases h hn ha
    change ∃ s', (s.vRealloc fperpage old newfrags).map Prod.fst = some s' ∧ Sound s'
    generalize s.vRealloc fperpage old newfrags = r at hout
    cases hout with
    | error e => exact ⟨s, rfl, h⟩
    | ok p b s' hpg hp hb hd hr hrun =>
      have hblocks : ∀ o ∈ old, Block (s.allocate p b newfrags) fperpage o := fun o ho =>
        have hblk := (ha.blocks o ho).1
        ⟨hblk.page, hblk.short, hblk.dword⟩
      exact ⟨_, rfl, (realloc_rest hblocks (h.allocate hpg hb (by omega) hd hr) hrun).2⟩
  | allocnxt prev nfrags =>
    exact (vAllocnxt_given (h.page_lt ha.2) ha.1 (hn.trans hcl)).sound h (hn.trans hcl)
  | fallocnxt cur newfrags =>
    exact (vFallocnxt_given (h.page_lt ha.2) ha.1 (hn.trans hcl)).sound h (hn.trans hcl)
  | allocit frag =>
    have hfrag : frag.nfrags < fperpage := ha
    by_cases hmap : s.mapsize < frag.addr + (fperpage - frag.nfrags)
    · refine ⟨s, ?_, h⟩
      change (s.vAllocit fperpage frag).map Prod.fst = some s
      unfold vAllocit
      dsimp only
      rw [if_pos hmap]
      rfl
    · have hpage := h.page_lt (show frag.addr < s.mapsize by omega)
      exact (vAllocit_given hpage (hn.trans hcl)).sound h (hn.trans hcl)

/-- A call that is allowed comes back. -/
theorem Sound.call (h : Sound s) {c : Call} (ha : c.Allowed s fperpage) :
    ∃ s', s.call fperpage c = some s' ∧ Sound s' := by
  have hcl := clsize_le s.lay
  cases c with
  | request r => exact h.request ha
  | bitfree fragno nfrags =>
    obtain ⟨hpos, hn, hmap, hd, hw, hpm⟩ := ha
    obtain ⟨hin, -, hmod, -⟩ := address s.lay fragno
    obtain ⟨htaken, hrun⟩ := vBitfree_frees hpos (by omega) hmap
      (hmod.symm ▸ hd : fragno % s.lay.dbperpage % 64 + nfrags ≤ 64) rfl (mod_page s.lay fragno) hw
      (by
        rintro ⟨i, h1, h2, hi⟩
        exact Bool.false_ne_true ((hpm i h1 h2).symm.trans hi))
    have hbit : 32 * (fragno % s.lay.dbperpage / 64 * 2) + fragno % s.lay.dbperpage % 64 =
        fragno % s.lay.dbperpage := by omega
    have htakes := takes_clearBits (by omega) (by omega) htaken
    rw [hbit] at htakes
    exact ⟨_, hrun, h.account _ (h.page_lt (by omega)) (by omega) (by omega) hin
      (.inr ⟨htakes, rfl⟩) rfl⟩
  | mapd daddr =>
    obtain ⟨hmap, hfree⟩ := ha
    exact ⟨_, rfl, h.vMapd (h.page_lt hmap) (hfree _ le_rfl (by omega))⟩
  | extendag nfrags fragno =>
    obtain ⟨hn, hp, hg, hw⟩ := ha
    exact ⟨_, rfl, h.vExtendag hn hp hg hw⟩
  | imappage => exact ⟨_, rfl, h.imappage⟩
  | setMapsize mapsize =>
    exact ⟨_, rfl, ⟨⟨h.sums.tree, h.sums.leaf, h.sums.agfree, h.sums.freecnt⟩, ha, h.agcnt,
      h.totalags⟩⟩

theorem Reaches.sound (h : Reaches fperpage s) : Sound s := by
  induction h with
  | initial h => exact h.sound
  | call c _ ha hrun ih =>
    obtain ⟨s', hs', hsound⟩ := ih.call ha
    obtain rfl := Option.some.inj (hs'.symm.trans hrun)
    exact hsound

/-! ## The summaries -/

/-- What the counts and the tree of a map say. -/
structure Summaries (s : Vmdmap) : Prop where
  freecnt : s.freecnt =
    ∑ p ∈ Finset.range s.npages, (zeroCount (s.page p).wmap (Finset.range s.lay.dbperpage) : Int)
  agfree : ∀ p < s.npages, ∀ nag < s.lay.dbperpage / s.lay.agsize,
    (s.page p).agfree nag = zeroCount (s.page p).wmap (agFrags s.lay nag)
  leaf : ∀ p < s.npages, ∀ d, 64 * d < s.lay.dbperpage →
    Encodes s.lay ((s.page p).wmap (2 * d)) ((s.page p).wmap (2 * d + 1))
      ((s.page p).tree (4 * leafind + d))
  inner : ∀ p < s.npages, ∀ c < 4 * leafind,
    (s.page p).tree c = wordMax (s.page p).tree (c + 1)

theorem Sound.summaries (h : Sound s) : Summaries s := by
  refine ⟨h.sums.freecnt, h.sums.agfree, fun p hp d hd => ?_, h.sums.tree⟩
  have hle := s.lay.dbperpage_le.1
  have hleaf := h.sums.leaf p hp d (by omega) not_false
  rw [leafValue, if_pos hd] at hleaf
  change Encodes _ _ _ ((s.page p).tree (84 + d))
  rw [hleaf]
  exact dwordMax_encodes s.lay _ _

theorem Outcome.some {R : Nat → Nat → Prop} {r : Ret} (h : Outcome s n R r) : r ≠ none := by
  cases h <;> nofun

/-- The summaries are right in every state, so the searches of a page and of an allocation group
always come down to a double word with room. -/
theorem summaries_kept (h : Reaches fperpage s) : Summaries s ∧ ∀ p < s.npages,
    ∀ n ≤ s.lay.clsize, s.allocpg p n ≠ none ∧
      ∀ nag < s.lay.dbperpage / s.lay.agsize, s.allocag p nag n ≠ none := by
  have hs := h.sound
  exact ⟨hs.summaries, fun p hp n hn => ⟨(allocpg_outcome hs.sums hp hn).some,
    fun nag hnag => (allocag_outcome hs.sums hp hn hnag).some⟩⟩

/-- One page with no fragments yet. -/
def emptyMap : Vmdmap where
  lay := lateMap.lay
  mapsize := 0
  freecnt := 0
  totalags := 0
  lastalloc := 0
  npages := 1
  page _ := freshPage

theorem emptyMap_initial : Initial emptyMap := ⟨rfl, rfl, by decide, rfl, by decide⟩

/-- The first allocation group comes in. -/
theorem emptyMap_grows : Reaches 8 (emptyMap.vExtendag 1024 0) := by
  refine .call (.extendag 1024 0) (.initial emptyMap_initial) ⟨?_, ?_, ?_, ?_⟩ rfl
  · decide
  · decide
  · decide
  · exact fun i _ _ => pbit_ones i

theorem summaries_kept_grown : Summaries (emptyMap.vExtendag 1024 0) :=
  (summaries_kept emptyMap_grows).1

end Vmdmap

end Aix413.Dmap
