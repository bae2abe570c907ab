import Aix413.Lvm.CacheCleaning
import Aix413.Lvm.MirrorCache

namespace Aix413.Lvm.Mwc

/-! ## Entries and the requests counted in them -/

namespace Cache

variable (c : Cache)

def InUse (e : Ptr) : Prop := (e ≠ 0 ∧ e ≤ c.size) ∧ c.state e ≠ .caclean

/-- Entry `e` is in use for the track group of a request. -/
def Holds (e : Ptr) (b : Buf) : Prop :=
  c.InUse e ∧ (c.part1 e).lvMinor = b.bDev ∧ (c.part1 e).lvLtg = blk2trk b.bBlkno

variable {c} {b : Buf} {e : Ptr} {l : List Ptr} {q : BitVec 32 → List Ptr}

theorem Kept.inUse (h : Kept c l q) : c.InUse e ↔ e ∈ l ∧ c.state e ≠ .caclean := by
  unfold InUse
  rw [h.cells]

theorem Kept.holds_unique (h : Kept c l q) {f : Ptr} (he : c.Holds e b) (hf : c.Holds f b) :
    e = f := by
  obtain ⟨hel, hes⟩ := h.inUse.mp he.1
  obtain ⟨hfl, hfs⟩ := h.inUse.mp hf.1
  exact h.unique hel hfl hes hfs (he.2.2.trans hf.2.2.symm) (he.2.1.trans hf.2.1.symm)

/-- The search for a request finds the entry that holds it. -/
theorem Kept.fnd_cases (h : Kept c l q) (b : Buf) :
    c.fnd b.bDev (blk2trk b.bBlkno) = 0 ∧ (∀ e, ¬c.Holds e b) ∨
    c.Holds (c.fnd b.bDev (blk2trk b.bBlkno)) b := by
  rcases h.fnd_spec b.bDev (blk2trk b.bBlkno) with ⟨h0, hno⟩ | ⟨hl, hs, ht, hm⟩
  · refine .inl ⟨h0, ?_⟩
    intro e he
    obtain ⟨hel, hes⟩ := h.inUse.mp he.1
    exact hno e hel hes he.2.2 he.2.1
  · exact .inr ⟨h.inUse.mpr ⟨hl, hs⟩, hm, ht⟩

theorem Kept.fnd_eq (h : Kept c l q) (he : c.Holds e b) : c.fnd b.bDev (blk2trk b.bBlkno) = e := by
  rcases h.fnd_cases b with ⟨-, hno⟩ | hf
  · exact absurd he (hno e)
  · exact h.holds_unique hf he

end Cache

namespace Requests

variable (r : Requests)

def Flagged (i : Lb) : Prop := (r.buf i).reqInCach = true

instance (i : Lb) : Decidable (r.Flagged i) := inferInstanceAs (Decidable (_ = _))

/-- The requests counted for the track group of an entry. -/
def counted (p : CaMwcDp) : Finset Lb :=
  (Finset.range r.next).filter fun i =>
    r.Flagged i ∧ (r.buf i).bDev = p.lvMinor ∧ blk2trk (r.buf i).bBlkno = p.lvLtg

variable {r} {i : Lb} {p : CaMwcDp}

theorem mem_counted : i ∈ r.counted p ↔ i < r.next ∧ r.Flagged i ∧ (r.buf i).bDev = p.lvMinor ∧
    blk2trk (r.buf i).bBlkno = p.lvLtg := by
  simp [counted]

/-- What the cache goes by in a request is the same. -/
structure Alike (r r' : Requests) : Prop where
  next : r'.next = r.next
  under : r'.under = r.under
  flag : ∀ i, (r'.buf i).reqInCach = (r.buf i).reqInCach
  dev : ∀ i, (r'.buf i).bDev = (r.buf i).bDev
  blkno : ∀ i, (r'.buf i).bBlkno = (r.buf i).bBlkno
  bcount : ∀ i, (r'.buf i).bBcount = (r.buf i).bBcount

theorem Alike.flagged {r' : Requests} (h : Alike r r') : r'.Flagged i ↔ r.Flagged i := by
  unfold Flagged
  rw [h.flag]

theorem Alike.counted {r' : Requests} (h : Alike r r') (p : CaMwcDp) :
    r'.counted p = r.counted p := by
  ext i
  rw [mem_counted, mem_counted, h.next, h.flagged, h.dev, h.blkno]

end Requests

theorem aligned_congr {b b' : Buf} (hk : b'.bBlkno = b.bBlkno) (hc : b'.bBcount = b.bBcount) :
    b'.Aligned ↔ b.Aligned := by
  unfold Buf.Aligned Buf.pwt Buf.pctm1 Buf.bwp
  rw [hk, hc]

theorem touches_congr {b b' : Buf} (hk : b'.bBlkno = b.bBlkno) (hc : b'.bBcount = b.bBcount)
    (k : Nat) : b'.Touches k ↔ b.Touches k := by
  unfold Buf.Touches Buf.pwt Buf.pctm1 Buf.bwp
  rw [hk, hc]

/-- Two requests that are counted for one track group have no page in common. -/
def Requests.Apart (r : Requests) : Prop :=
  ∀ {i j}, r.Flagged i → r.Flagged j → i ≠ j → (r.buf i).bDev = (r.buf j).bDev →
    blk2trk (r.buf i).bBlkno = blk2trk (r.buf j).bBlkno →
    ∀ k, ¬((r.buf i).Touches k ∧ (r.buf j).Touches k)

/-- Each counted request has its entry, and the entries count them. -/
structure Counted (c : Cache) (r : Requests) : Prop where
  kept : ∃ l q, c.Kept l q
  lt : ∀ {i}, r.Flagged i → i < r.next
  aligned : ∀ {i}, r.Flagged i → (r.buf i).Aligned
  holds : ∀ {i}, r.Flagged i → c.Holds (r.under i).1 (r.buf i).toBuf
  put : ∀ {i}, r.Flagged i → (c.part1 (r.under i).1).put = (r.under i).2
  apart : r.Apart
  count : ∀ {e}, c.InUse e → (c.iocnt e).toNat = (r.counted (c.part1 e)).card

namespace Counted

variable {c d : Cache} {r r' : Requests} {e : Ptr} {lb : Lb}

theorem congr (h : Counted c r) (ha : Requests.Alike r r') : Counted c r' where
  kept := h.kept
  lt := by
    intro i hi
    rw [ha.next]
    exact h.lt (ha.flagged.mp hi)
  aligned := by
    intro i hi
    exact (aligned_congr (ha.blkno i) (ha.bcount i)).mpr (h.aligned (ha.flagged.mp hi))
  holds := by
    intro i hi
    unfold Cache.Holds
    rw [ha.under, ha.dev, ha.blkno]
    exact h.holds (ha.flagged.mp hi)
  put := by
    intro i hi
    rw [ha.under]
    exact h.put (ha.flagged.mp hi)
  apart := by
    intro i j hi hj hne hd hk k
    rw [touches_congr (ha.blkno i) (ha.bcount i), touches_congr (ha.blkno j) (ha.bcount j)]
    rw [ha.dev, ha.dev] at hd
    rw [ha.blkno, ha.blkno] at hk
    exact h.apart (ha.flagged.mp hi) (ha.flagged.mp hj) hne hd hk k
  count := by
    intro e he
    rw [ha.counted]
    exact h.count he

variable (h : Counted c r)

include h

theorem mem_under (hi : r.Flagged lb) : lb ∈ r.counted (c.part1 (r.under lb).1) := by
  obtain ⟨-, hm, ht⟩ := h.holds hi
  exact Requests.mem_counted.mpr ⟨h.lt hi, hi, hm.symm, ht.symm⟩

theorem iocnt_ne_zero (hi : r.Flagged lb) : c.iocnt (r.under lb).1 ≠ 0 := by
  have hcard := h.count (h.holds hi).1
  have hpos := Finset.card_pos.mpr ⟨lb, h.mem_under hi⟩
  intro h0
  rw [h0] at hcard
  exact absurd hcard.symm hpos.ne'

/-- The first pages of the requests in one entry are different. -/
theorem card_le (p : CaMwcDp) : (r.counted p).card ≤ 32 := by
  have hmaps : Set.MapsTo (fun i => (r.buf i).pwt.toNat) (r.counted p) (Finset.range 32) := by
    intro i _
    exact Finset.mem_coe.mpr (Finset.mem_range.mpr (r.buf i).pwt_lt)
  have hinj : Set.InjOn (fun i => (r.buf i).pwt.toNat) (r.counted p) := by
    intro i hi j hj hp
    obtain ⟨-, hif, hid, hik⟩ := Requests.mem_counted.mp hi
    obtain ⟨-, hjf, hjd, hjk⟩ := Requests.mem_counted.mp hj
    by_contra hne
    apply h.apart hif hjf hne (hid.trans hjd.symm) (hik.trans hjk.symm) (r.buf i).pwt.toNat
    exact ⟨⟨le_rfl, Nat.le_add_right _ _⟩, ⟨hp.ge, hp.le.trans (Nat.le_add_right _ _)⟩⟩
  simpa using Finset.card_le_card_of_injOn _ hmaps hinj

/-- The cache changes, but not where there is I/O. -/
theorem recache (hk : ∃ l q, d.Kept l q)
    (hthere : ∀ e, c.InUse e → c.iocnt e ≠ 0 → d.InUse e ∧ d.part1 e = c.part1 e)
    (hback : ∀ e, d.InUse e → c.InUse e ∧ d.part1 e = c.part1 e ∧ d.iocnt e = c.iocnt e) :
    Counted d r where
  kept := hk
  lt := h.lt
  aligned := h.aligned
  holds := by
    intro i hi
    obtain ⟨hu, hkey⟩ := h.holds hi
    obtain ⟨hd, hp⟩ := hthere _ hu (h.iocnt_ne_zero hi)
    refine ⟨hd, ?_⟩
    rw [hp]
    exact hkey
  put := by
    intro i hi
    rw [(hthere _ (h.holds hi).1 (h.iocnt_ne_zero hi)).2]
    exact h.put hi
  apart := h.apart
  count := by
    intro e he
    obtain ⟨hc, hp, hio⟩ := hback e he
    rw [hp, hio]
    exact h.count hc

/-- A request is counted in entry `e`, which may be new for its track group. -/
theorem join (hk : ∃ l q, d.Kept l q) (he : d.Holds e (r.buf lb).toBuf) (hlt : lb < r.next)
    (hno : ¬r.Flagged lb) (hal : (r.buf lb).Aligned)
    (hap : ∀ i, r.Flagged i → (r.buf i).bDev = (r.buf lb).bDev →
      blk2trk (r.buf i).bBlkno = blk2trk (r.buf lb).bBlkno →
      ∀ k, ¬((r.buf i).Touches k ∧ (r.buf lb).Touches k))
    (hother : ∀ f, f ≠ e →
      (d.InUse f ↔ c.InUse f) ∧ d.part1 f = c.part1 f ∧ d.iocnt f = c.iocnt f)
    (hold : c.InUse e → c.iocnt e ≠ 0 → d.part1 e = c.part1 e)
    (hio : (d.iocnt e).toNat = (r.counted (d.part1 e)).card + 1)
    (hbuf : r'.buf = Function.update r.buf lb { r.buf lb with reqInCach := true })
    (hunder : r'.under = Function.update r.under lb (e, (d.part1 e).put))
    (hnext : r'.next = r.next) : Counted d r' := by
  have hself : (r'.buf lb).toBuf = (r.buf lb).toBuf := by
    rw [hbuf, Function.update_self]
  have hne : ∀ i, i ≠ lb → r'.buf i = r.buf i := by
    intro i hi
    rw [hbuf, Function.update_of_ne hi]
  have hbufs : ∀ i, (r'.buf i).toBuf = (r.buf i).toBuf := by
    intro i
    by_cases hi : i = lb
    · rw [hi, hself]
    · rw [hne i hi]
  have hflag : ∀ i, i ≠ lb → (r'.Flagged i ↔ r.Flagged i) := by
    intro i hi
    unfold Requests.Flagged
    rw [hne i hi]
  have hentry : ∀ i, r.Flagged i → d.InUse (r.under i).1 ∧
      d.part1 (r.under i).1 = c.part1 (r.under i).1 := by
    intro i hi
    obtain ⟨hu, hkey⟩ := h.holds hi
    by_cases hue : (r.under i).1 = e
    · rw [hue] at hu ⊢
      refine ⟨he.1, hold hu ?_⟩
      rw [← hue]
      exact h.iocnt_ne_zero hi
    · exact ⟨(hother _ hue).1.mpr hu, (hother _ hue).2.1⟩
  have hcount : ∀ p : CaMwcDp, r'.counted p =
      if p.lvMinor = (r.buf lb).bDev ∧ p.lvLtg = blk2trk (r.buf lb).bBlkno then
        insert lb (r.counted p) else r.counted p := by
    intro p
    ext i
    have hmem : i ∈ r'.counted p ↔ i ∈ r.counted p ∨
        i = lb ∧ p.lvMinor = (r.buf lb).bDev ∧ p.lvLtg = blk2trk (r.buf lb).bBlkno := by
      rw [Requests.mem_counted, Requests.mem_counted, hnext, hbufs]
      by_cases hi : i = lb
      · subst hi
        have hyes : r'.Flagged i := by
          unfold Requests.Flagged
          rw [hbuf, Function.update_self]
        simp only [hlt, hyes, hno, true_and, false_and, and_false, false_or]
        exact ⟨fun hm => ⟨hm.1.symm, hm.2.symm⟩, fun hm => ⟨hm.1.symm, hm.2.symm⟩⟩
      · rw [hflag i hi]
        simp [hi]
    rw [hmem]
    split_ifs with hp
    · simp [hp, or_comm]
    · simp [hp]
  refine ⟨hk, ?_, ?_, ?_, ?_, ?_, ?_⟩
  · intro i hi
    rw [hnext]
    by_cases heq : i = lb
    · exact heq ▸ hlt
    · exact h.lt ((hflag i heq).mp hi)
  · intro i hi
    rw [hbufs]
    by_cases heq : i = lb
    · exact heq ▸ hal
    · exact h.aligned ((hflag i heq).mp hi)
  · intro i hi
    rw [hunder, hbufs]
    by_cases heq : i = lb
    · rw [heq, Function.update_self]
      exact he
    · have hf := (hflag i heq).mp hi
      rw [Function.update_of_ne heq]
      refine ⟨(hentry i hf).1, ?_⟩
      rw [(hentry i hf).2]
      exact (h.holds hf).2
  · intro i hi
    rw [hunder]
    by_cases heq : i = lb
    · rw [heq, Function.update_self]
    · have hf := (hflag i heq).mp hi
      rw [Function.update_of_ne heq, (hentry i hf).2]
      exact h.put hf
  · intro i j hi hj hij hd ht k
    rw [hbufs, hbufs] at hd ht ⊢
    by_cases hil : i = lb
    · subst hil
      have hjf := (hflag j (Ne.symm hij)).mp hj
      exact fun hm => hap j hjf hd.symm ht.symm k hm.symm
    · by_cases hjl : j = lb
      · subst hjl
        exact hap i ((hflag i hil).mp hi) hd ht k
      · exact h.apart ((hflag i hil).mp hi) ((hflag j hjl).mp hj) hij hd ht k
  · intro f hf
    rw [hcount]
    by_cases hfe : f = e
    · subst hfe
      rw [if_pos he.2, Finset.card_insert_of_notMem, hio]
      exact fun hm => hno (Requests.mem_counted.mp hm).2.1
    · obtain ⟨hu, hp, hi⟩ := hother f hfe
      have hkey : ¬((d.part1 f).lvMinor = (r.buf lb).bDev ∧
          (d.part1 f).lvLtg = blk2trk (r.buf lb).bBlkno) := by
        intro hm
        obtain ⟨l, q, hkept⟩ := hk
        exact hfe (hkept.holds_unique ⟨hf, hm⟩ he)
      rw [if_neg hkey, hp, hi]
      exact h.count (hu.mp hf)

/-- A counted request has finished. -/
theorem leave (hf : r.Flagged lb)
    (hbuf : r'.buf = Function.update r.buf lb { r.buf lb with reqInCach := false })
    (hunder : r'.under = r.under) (hnext : r'.next = r.next) :
    Counted (c.setIocnt (r.under lb).1 (c.iocnt (r.under lb).1 - 1)) r' := by
  have hbufs : ∀ i, (r'.buf i).toBuf = (r.buf i).toBuf := by
    intro i
    rw [hbuf]
    by_cases hi : i = lb
    · rw [hi, Function.update_self]
    · rw [Function.update_of_ne hi]
  have hflag : ∀ i, r'.Flagged i ↔ r.Flagged i ∧ i ≠ lb := by
    intro i
    unfold Requests.Flagged
    rw [hbuf]
    by_cases hi : i = lb
    · simp [hi]
    · simp [hi]
  have hcount : ∀ p, r'.counted p = (r.counted p).erase lb := by
    intro p
    ext i
    rw [Finset.mem_erase, Requests.mem_counted, Requests.mem_counted, hnext, hbufs, hflag]
    tauto
  obtain ⟨l, q, hkept⟩ := h.kept
  obtain ⟨hu, hkey⟩ := h.holds hf
  refine ⟨⟨l, q, hkept.setIocnt hu.2 _⟩, ?_, ?_, ?_, ?_, ?_, ?_⟩
  · intro i hi
    rw [hnext]
    exact h.lt ((hflag i).mp hi).1
  · intro i hi
    rw [hbufs]
    exact h.aligned ((hflag i).mp hi).1
  · intro i hi
    rw [hunder, hbufs]
    exact h.holds ((hflag i).mp hi).1
  · intro i hi
    rw [hunder]
    exact h.put ((hflag i).mp hi).1
  · intro i j hi hj hij hd ht k
    rw [hbufs, hbufs] at hd ht ⊢
    exact h.apart ((hflag i).mp hi).1 ((hflag j).mp hj).1 hij hd ht k
  · intro e he
    have hc := h.count (e := e) he
    change ((Function.update c.iocnt _ _) e).toNat = (r'.counted (c.part1 e)).card
    rw [hcount]
    by_cases heq : e = (r.under lb).1
    · subst heq
      have hmem := h.mem_under hf
      have hpos := Finset.card_pos.mpr ⟨lb, hmem⟩
      have hone : (1#16).toNat = 1 := rfl
      rw [Function.update_self, Finset.card_erase_of_mem hmem]
      change (c.iocnt (r.under lb).1 - 1#16).toNat = _
      rw [BitVec.toNat_sub_of_le, hc, hone]
      rw [BitVec.le_def, hone, hc]
      exact hpos
    · rw [Function.update_of_ne heq, Finset.erase_eq_of_notMem]
      · exact hc
      · intro hm
        obtain ⟨-, -, hd, ht⟩ := Requests.mem_counted.mp hm
        exact heq (hkept.holds_unique (b := (r.buf lb).toBuf) ⟨he, hd.symm, ht.symm⟩ ⟨hu, hkey⟩)

end Counted

end Aix413.Lvm.Mwc
