import Aix413.Dmap.Completeness

namespace Aix413.Dmap

open Lib.BitRuns

namespace Vmdmap

variable {s s' : Vmdmap} {fperpage n f p b : Nat}

/-! ## What a request gets -/

/-- The fragment is allocated in the working map. -/
def InUse (s : Vmdmap) (x : Nat) : Prop :=
  pbit (s.page (x / s.lay.dbperpage)).wmap (x % s.lay.dbperpage) = true

/-- A fragment of a block. -/
def Frag.has (fperpage : Nat) (old : Frag) (x : Nat) : Prop :=
  old.addr ≤ x ∧ x < old.addr + Frag.size fperpage old

/-- A request gives a fragment back. -/
def Request.Frees (fperpage : Nat) (r : Request) (x : Nat) : Prop :=
  match r with
  | .realloc olds _ => ∃ old ∈ olds, Frag.has fperpage old x
  | _ => False

/-- The fragments from `f` on were free, and they are in one double word and one allocation group.
They become allocated, and no others. -/
structure Taken (s s' : Vmdmap) (n f : Nat) : Prop where
  free : ∀ x, f ≤ x → x < f + n → ¬s.InUse x
  taken : ∀ x, f ≤ x → x < f + n → s'.InUse x
  others : ∀ x, s'.InUse x → s.InUse x ∨ f ≤ x ∧ x < f + n
  dword : f % 64 + n ≤ 64
  group : f % s.lay.agsize + n ≤ s.lay.agsize

/-- A request is granted: besides, they are all below the size of the map. -/
structure Granted (s s' : Vmdmap) (n f : Nat) : Prop extends Taken s s' n f where
  below : f + n ≤ s.mapsize

/-- The fragments that `v_allocnxt` and `v_fallocnxt` take end below the size of the map. -/
def Request.Meets (s : Vmdmap) (fperpage : Nat) : Request → Prop
  | .allocnxt prev n => Behind s fperpage prev n →
      prev.addr + Frag.size fperpage prev + n ≤ s.mapsize
  | .fallocnxt cur n => Behind s fperpage cur n ∧
      cur.addr % 64 + Frag.size fperpage cur ≠ 64 →
      cur.addr + Frag.size fperpage cur + n ≤ s.mapsize
  | _ => True

theorem group_fits (l : Layout) (h : f % 64 + n ≤ 64) : f % l.agsize + n ≤ l.agsize := by
  obtain ⟨k, hk⟩ := l.dwords
  have hpos := l.pos
  have hmod : f % l.agsize % 64 = f % 64 := Nat.mod_mod_of_dvd f l.dwords
  have hlt := Nat.mod_lt f hpos
  omega

/-- The fragments of a double word have their bits in one page. -/
theorem bit_of_fragment (l : Layout) {x : Nat} (hb : b < l.dbperpage) (hd : b % 64 + n ≤ 64)
    (h : p * l.dbperpage + b ≤ x ∧ x < p * l.dbperpage + b + n) :
    x / l.dbperpage = p ∧ b ≤ x % l.dbperpage ∧ x % l.dbperpage < b + n := by
  obtain ⟨-, k, hk⟩ := l.dbperpage_le
  obtain ⟨c, rfl⟩ := Nat.exists_eq_add_of_le h.1
  rw [Nat.add_assoc]
  obtain ⟨h1, h2⟩ := bit_address (p := p) (b := b + c) l (by omega)
  rw [h1, h2]
  omega

theorem fragment_of_bit (l : Layout) {x : Nat} (h : x / l.dbperpage = p ∧ b ≤ x % l.dbperpage ∧
    x % l.dbperpage < b + n) : p * l.dbperpage + b ≤ x ∧ x < p * l.dbperpage + b + n := by
  obtain ⟨-, -, -, haddr⟩ := address l x
  rw [h.1] at haddr
  omega

theorem taken_of_bits (hb : b < s.lay.dbperpage) (hd : b % 64 + n ≤ 64)
    (hr : Run (pbit (s.page p).wmap) b n) (hlay : s'.lay = s.lay)
    (hset : ∀ i, b ≤ i → i < b + n → pbit (s'.page p).wmap i = true)
    (hbits : ∀ q i, pbit (s'.page q).wmap i = true →
      (pbit (s.page q).wmap i || decide (q = p ∧ b ≤ i ∧ i < b + n)) = true) :
    Taken s s' n (p * s.lay.dbperpage + b) := by
  obtain ⟨hdiv, hmod⟩ := bit_address (p := p) s.lay hb
  have h64 : (p * s.lay.dbperpage + b) % 64 = b % 64 := by
    have h := Nat.mod_mod_of_dvd (p * s.lay.dbperpage + b) s.lay.dbperpage_le.2
    rw [hmod] at h
    exact h.symm
  refine ⟨fun x h1 h2 hx => ?_, fun x h1 h2 => ?_, fun x hx => ?_, by omega,
    group_fits s.lay (by omega)⟩
  · obtain ⟨h3, h4, h5⟩ := bit_of_fragment s.lay hb hd ⟨h1, h2⟩
    rw [InUse, h3, hr _ h4 h5] at hx
    cases hx
  · obtain ⟨h3, h4, h5⟩ := bit_of_fragment s.lay hb hd ⟨h1, h2⟩
    rw [InUse, hlay, h3]
    exact hset _ h4 h5
  · rw [InUse, hlay] at hx
    have h := hbits _ _ hx
    rw [Bool.or_eq_true, decide_eq_true_eq] at h
    exact h.imp_right (fragment_of_bit s.lay)

theorem taken_take (hb : b < s.lay.dbperpage) (hn : n ≤ 32) (hd : b % 64 + n ≤ 64)
    (hr : Run (pbit (s.page p).wmap) b n) : Taken s (s.take p b n) n (p * s.lay.dbperpage + b) :=
  taken_of_bits hb hd hr rfl (fun i h1 h2 => by
    rw [take_bits hn hd hr, decide_eq_true ⟨rfl, h1, h2⟩, Bool.or_true])
    fun q i hq => by rwa [take_bits hn hd hr] at hq

theorem taken_allocate (hb : b < s.lay.dbperpage) (hn : n ≤ 32) (hd : b % 64 + n ≤ 64)
    (hr : Run (pbit (s.page p).wmap) b n) :
    Taken s (s.allocate p b n) n (p * s.lay.dbperpage + b) :=
  taken_of_bits hb hd hr rfl (fun i h1 h2 => by
    rw [allocate_bits hn hd hr, decide_eq_true ⟨rfl, h1, h2⟩, Bool.or_true])
    fun q i hq => by rwa [allocate_bits hn hd hr] at hq

/-- What `v_realloc` leaves besides the old blocks. -/
theorem realloc_taken {olds : List Frag} (h : Sound s) (hpg : p < s.npages)
    (hb : b < s.lay.dbperpage) (hn : n ≤ 32) (hd : b % 64 + n ≤ 64)
    (hr : Run (pbit (s.page p).wmap) b n) (hreq : Realloc s fperpage olds)
    (hrun : freeLoop fperpage olds (s.allocate p b n) = some s') :
    Taken s (reallocTrees olds none s') n (p * s.lay.dbperpage + b) ∧
      ∀ x, s.InUse x → (∀ old ∈ olds, ¬Frag.has fperpage old x) →
        (reallocTrees olds none s').InUse x := by
  have hblocks : ∀ old ∈ olds, Block (s.allocate p b n) fperpage old := fun old ho =>
    have hblk := (hreq.blocks old ho).1
    ⟨hblk.page, hblk.short, hblk.dword⟩
  obtain ⟨hsh, -⟩ := realloc_rest hblocks (h.allocate hpg hb hn hd hr) hrun
  have hkeep : ∀ q i, pbit ((s.allocate p b n).page q).wmap i = true → (∀ old ∈ olds,
      ¬(q = s.pageno old ∧ s.bitno old ≤ i ∧ i < s.bitno old + Frag.size fperpage old)) →
      pbit ((reallocTrees olds none s').page q).wmap i = true := by
    intro q i hq hout
    rw [reallocTrees_wmap]
    exact freeLoop_keeps hblocks hrun q i hq hout
  refine ⟨taken_of_bits hb hd hr hsh.lay (fun i h1 h2 => ?_) fun q i hq => ?_, fun x hx hout => ?_⟩
  · refine hkeep p i ?_ ?_
    · rw [allocate_bits hn hd hr, decide_eq_true ⟨rfl, h1, h2⟩, Bool.or_true]
    · -- the old blocks were not free
      rintro old ho ⟨rfl, h3, h4⟩
      have hset := (hreq.blocks old ho).2 i h3 h4
      rw [hr i h1 h2] at hset
      cases hset
  · have hbit := hsh.bits q i hq
    rwa [allocate_bits hn hd hr] at hbit
  · have hlay : (reallocTrees olds none s').lay = s.lay := hsh.lay
    rw [InUse, hlay]
    refine hkeep _ _ ?_ ?_
    · rw [allocate_bits hn hd hr, show pbit _ _ = true from hx, Bool.true_or]
    · rintro old ho ⟨h1, h2, h3⟩
      have hhas := fragment_of_bit s.lay ⟨h1, h2, h3⟩
      obtain ⟨-, -, -, haddr⟩ := address s.lay old.addr
      rw [show s.pageno old * s.lay.dbperpage + s.bitno old = old.addr from haddr] at hhas
      exact hout old ho hhas

theorem take_keeps (hn : n ≤ 32) (hd : b % 64 + n ≤ 64) (hr : Run (pbit (s.page p).wmap) b n)
    {x : Nat} (hx : s.InUse x) : (s.take p b n).InUse x := by
  change pbit ((s.take p b n).page (x / s.lay.dbperpage)).wmap (x % s.lay.dbperpage) = true
  rw [take_bits hn hd hr, show pbit _ _ = true from hx, Bool.true_or]

theorem Given.taken {f' : Nat} {can : Prop} (hn : n ≤ 32)
    (hg : Given s n f can (some (s', .ok f'))) :
    can ∧ f' = f ∧ Taken s s' n f ∧ ∀ x, s.InUse x → s'.InUse x := by
  cases hg with
  | ok p b hc hf hp hb hd hr =>
    refine ⟨hc, rfl, ?_, fun x hx => take_keeps hn hd hr hx⟩
    rw [← hf]
    exact taken_take hb hn hd hr

/-- A request that comes back with fragments took them, wherever the map ends. -/
theorem reply_taken (h : Sound s) {r : Request} (ha : r.Allowed s fperpage)
    (hres : s.reply fperpage r = some (s', .ok f)) : Taken s s' (r.nfrags fperpage) f ∧
      (∀ x, s.InUse x → ¬r.Frees fperpage x → s'.InUse x) ∧
      (r.Meets s fperpage → f + r.nfrags fperpage ≤ s.mapsize) := by
  have hcl := clsize_le s.lay
  obtain ⟨hn, ha⟩ := ha
  have h32 := hn.trans hcl
  cases r with
  | alloc nfrags pref =>
    have hout : Outcome s nfrags _ (s.vAlloc nfrags pref) := vAlloc_outcome h hn ha
    change s.vAlloc nfrags pref = _ at hres
    rw [hres] at hout
    cases hout with
    | found p b hpg hp hb hd hr =>
      exact ⟨taken_allocate hb h32 hd hr, fun x hx _ => take_keeps h32 hd hr hx, fun _ => hp⟩
  | realloc olds newfrags =>
    have hout : Realloced s fperpage olds newfrags (s.vRealloc fperpage olds newfrags) :=
      vRealloc_cases h hn ha
    change s.vRealloc fperpage olds newfrags = _ at hres
    rw [hres] at hout
    cases hout with
    | ok p b t hpg hp hb hd hr hrun =>
      obtain ⟨h1, h2⟩ := realloc_taken h hpg hb h32 hd hr ha hrun
      exact ⟨h1, fun x hx hno => h2 x hx fun old ho hhas => hno ⟨old, ho, hhas⟩, fun _ => hp⟩
  | allocnxt prev nfrags =>
    have hg : Given s nfrags _ _ (s.vAllocnxt fperpage prev nfrags) :=
      vAllocnxt_given (h.page_lt ha.2) ha.1 h32
    change s.vAllocnxt fperpage prev nfrags = _ at hres
    rw [hres] at hg
    obtain ⟨hc, rfl, ht, hk⟩ := hg.taken h32
    exact ⟨ht, fun x hx _ => hk x hx, fun hm => hm hc⟩
  | fallocnxt cur newfrags =>
    have hg : Given s newfrags _ _ (s.vFallocnxt fperpage cur newfrags) :=
      vFallocnxt_given (h.page_lt ha.2) ha.1 h32
    change s.vFallocnxt fperpage cur newfrags = _ at hres
    rw [hres] at hg
    obtain ⟨hc, rfl, ht, hk⟩ := hg.taken h32
    exact ⟨ht, fun x hx _ => hk x hx, fun hm => hm hc⟩
  | allocit frag =>
    have hfrag : frag.nfrags < fperpage := ha
    change s.vAllocit fperpage frag = _ at hres
    by_cases hmap : s.mapsize < frag.addr + Frag.size fperpage frag
    · have herr : s.vAllocit fperpage frag = some (s, .error .einval) := if_pos hmap
      rw [herr] at hres
      cases (Prod.mk.inj (Option.some.inj hres)).2
    · have hpos : 0 < Frag.size fperpage frag := Nat.sub_pos_of_lt hfrag
      have hg : Given s (Frag.size fperpage frag) _ _ (s.vAllocit fperpage frag) :=
        vAllocit_given (h.page_lt (by omega)) h32
      rw [hres] at hg
      obtain ⟨hc, rfl, ht, hk⟩ := hg.taken h32
      exact ⟨ht, fun x hx _ => hk x hx, fun _ => hc.1⟩

end Vmdmap

end Aix413.Dmap
