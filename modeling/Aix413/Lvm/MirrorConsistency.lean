import Aix413.Lvm.MirrorSteps
import Mathlib.Logic.Relation

namespace Aix413.Lvm.Mwc

open Relation

variable {v : Layout} {n : Nat} {s s' : State} {lb : Lb} {c d : Cache} {e : Ptr}

/-! ## A mirrored write arrives at the cache -/

/-- What no other counted request may have in common with `lb`. -/
def State.Free (s : State) (lb : Lb) : Prop :=
  ∀ i, s.Flagged i → (s.buf i).bDev = (s.buf lb).bDev →
    blk2trk (s.buf i).bBlkno = blk2trk (s.buf lb).bBlkno →
    ∀ k, ¬((s.buf i).Touches k ∧ (s.buf lb).Touches k)

/-- Entry `e` of the cache `d` holds a request, and the others are as in `c`. -/
structure Cache.Entered (c d : Cache) (e : Ptr) (b : Buf) : Prop where
  kept : ∃ l q, d.Kept l q
  size : d.size = c.size
  holds : d.Holds e b
  other : ∀ f, f ≠ e → d.state f = c.state f ∧ d.part1 f = c.part1 f ∧ d.iocnt f = c.iocnt f
  old : c.InUse e → c.iocnt e ≠ 0 → d.part1 e = c.part1 e

theorem Cache.Entered.inUse {b : Buf} (h : Cache.Entered c d e b) {f : Ptr} (hf : f ≠ e) :
    d.InUse f ↔ c.InUse f := by
  unfold Cache.InUse
  rw [h.size, (h.other f hf).1]

/-- An entry in use gets another request. -/
theorem Cache.entered_useHead {l : List Ptr} {q : BitVec 32 → List Ptr} {b : Buf} (h : c.Kept l q)
    (he : c.Holds e b) (m : BitVec 16) :
    Cache.Entered c ((c.setIocnt e m).useHead e) e b ∧
      ((c.setIocnt e m).useHead e).state = c.state ∧
      ((c.setIocnt e m).useHead e).part1 = c.part1 ∧
      ((c.setIocnt e m).useHead e).iocnt e = m := by
  obtain ⟨h1, -, -, h4, h5, h6⟩ := useHead_fields (c.setIocnt e m) e
  obtain ⟨hl, hs⟩ := h.inUse.mp he.1
  have hio : ((c.setIocnt e m).useHead e).iocnt = Function.update c.iocnt e m := h5
  refine ⟨?_, h4, h6, by rw [hio, Function.update_self]⟩
  constructor
  case kept => exact ⟨_, _, (h.setIocnt hs m).useHead hl hs⟩
  case size => exact h1
  case holds =>
    unfold Holds InUse
    rw [h1, h4, h6]
    exact he
  case other =>
    intro f hf
    rw [h4, h6, hio, Function.update_of_ne hf]
    exact ⟨rfl, rfl, rfl⟩
  case old => exact fun _ _ => congrFun h6 e

/-- An entry that is off the queues is put in the record for a track group. -/
theorem Cache.entered_fill {l : List Ptr} {q : BitVec 32 → List Ptr} {b : Buf}
    {hash : BitVec 32 → Ptr} {hqNext : Ptr → Ptr}
    (h : Loose { c with hash := hash, hqNext := hqNext } l q e) (hno : ∀ f, ¬c.Holds f b)
    (put : Nat) :
    let d := fill { c with hash := hash, hqNext := hqNext } e ⟨blk2trk b.bBlkno, b.bDev, put⟩
    Cache.Entered c d e b ∧ d.state e = .cachg ∧
      d.part1 e = ⟨blk2trk b.bBlkno, b.bDev, put⟩ ∧ d.iocnt e = 1 := by
  intro d
  obtain ⟨h1, -, -, h4, h5, h6⟩ := useHead_fields { c with hash := hash, hqNext := hqNext } e
  have hst : d.state = Function.update c.state e .cachg := by
    change Function.update (useHead _ e).state e .cachg = _
    rw [h4]
  have hpt : d.part1 = Function.update c.part1 e ⟨blk2trk b.bBlkno, b.bDev, put⟩ := by
    change Function.update (useHead _ e).part1 e _ = _
    rw [h6]
  have hio : d.iocnt = Function.update c.iocnt e 1 := by
    change Function.update (useHead _ e).iocnt e 1 = _
    rw [h5]
  have hsize : d.size = c.size := h1
  have hself : d.state e = .cachg ∧ d.part1 e = ⟨blk2trk b.bBlkno, b.bDev, put⟩ ∧
      d.iocnt e = 1 := by
    rw [hst, hpt, hio]
    simp only [Function.update_self]
    exact ⟨trivial, trivial, trivial⟩
  refine ⟨?_, hself⟩
  constructor
  case kept =>
    refine ⟨_, _, h.fill (p := ⟨blk2trk b.bBlkno, b.bDev, put⟩) ?_⟩
    intro f hf _ hs ht hm
    exact hno f ⟨⟨(h.cells f).mp hf, hs⟩, hm, ht⟩
  case size => exact hsize
  case holds =>
    refine ⟨⟨?_, ?_⟩, ?_⟩
    · rw [hsize]
      exact (h.cells e).mp h.mem
    · rw [hself.1]
      decide
    · rw [hself.2.1]
      exact ⟨rfl, rfl⟩
  case other =>
    intro f hf
    rw [hst, hpt, hio]
    simp only [Function.update_of_ne hf]
    exact ⟨trivial, trivial, trivial⟩
  case old => exact fun _ hne => absurd h.noio hne

namespace Inv

variable (h : Inv v n s 0 []) (hi : s.Idle lb)

include h

/-- The number of requests in an entry stays within 16 bits. -/
theorem toNat_iocnt_succ (he : s.ca.InUse e) :
    (s.ca.iocnt e + 1).toNat = (s.counted (s.ca.part1 e)).card + 1 := by
  have hle := h.counted.card_le (s.ca.part1 e)
  have hone : (1#16).toNat = 1 := rfl
  change (s.ca.iocnt e + 1#16).toNat = _
  rw [BitVec.toNat_add, h.counted.count he, hone]
  omega

theorem join (hi : s.Idle lb) (he : Cache.Entered s.ca d e (s.buf lb).toBuf)
    (hal : (s.buf lb).Aligned) (hap : s.Free lb)
    (hio : (d.iocnt e).toNat = (s.counted (d.part1 e)).card + 1)
    {r' : Requests} (hbuf : r'.buf = Function.update s.buf lb { s.buf lb with reqInCach := true })
    (hunder : r'.under = Function.update s.under lb (e, (d.part1 e).put))
    (hnext : r'.next = s.next) : Counted d r' := by
  apply h.counted.join he.kept he.holds hi.lt hi.unflagged hal hap ?_ he.old hio hbuf hunder hnext
  intro f hf
  exact ⟨he.inUse hf, (he.other f hf).2⟩

theorem part1_under (he : Cache.Entered s.ca d e (s.buf lb).toBuf) {i : Lb} (hf : s.Flagged i) :
    d.part1 (s.under i).1 = s.ca.part1 (s.under i).1 := by
  by_cases hue : (s.under i).1 = e
  · rw [hue]
    apply he.old
    · rw [← hue]
      exact (h.counted.holds hf).1
    · rw [← hue]
      exact h.counted.iocnt_ne_zero hf
  · exact (he.other _ hue).2.1

/-- A cache hit: the entry is on the volumes, and the request goes to service. -/
theorem hit (hi : s.Idle lb) (he : Cache.Entered s.ca d e (s.buf lb).toBuf)
    (hal : (s.buf lb).Aligned) (hap : s.Free lb)
    (hio : (d.iocnt e).toNat = (s.counted (d.part1 e)).card + 1) (hst : d.state = s.ca.state)
    (hpt : d.part1 = s.ca.part1) (hno : s.ca.state e ≠ .cachg) :
    Inv v n (({ s with ca := d }.count lb e).serve lb) 0 [] := by
  refine ⟨he.size.trans h.size, h.join hi he hal hap hio rfl rfl rfl, ?_,
    h.recorded.congr he.size hst hpt, ?_⟩
  · exact h.parked.count hi rfl (fun _ => 0) rfl (push_zero lb s.caPv).symm
      (.inl ⟨fun _ => rfl, rfl⟩) rfl rfl rfl rfl
  · intro i hfi p hhas
    change i ∈ s.caPv p ∨ s.disk p (Function.update s.under lb _ i).1 =
      d.part1 (Function.update s.under lb _ i).1
    by_cases heq : i = lb
    · right
      subst heq
      rw [Function.update_self]
      change v.Has (Function.update s.buf i _ i).bDev (blk2trk (Function.update s.buf i _ i).bBlkno)
        s.toVolumes p at hhas
      rw [Function.update_self] at hhas
      obtain ⟨hu, hm, ht⟩ := he.holds
      have hu' : s.ca.InUse e := by
        unfold Cache.InUse at hu ⊢
        rwa [he.size, hst] at hu
      have hwritten : s.ca.state e = .canochg := by
        cases hc : s.ca.state e with
        | canochg => rfl
        | cachg => exact absurd hc hno
        | caclean => exact absurd hc hu'.2
      rw [hpt] at hm ht ⊢
      exact h.recorded.written hu' hwritten p (by rw [hm, ht]; exact hhas)
    · have hbuf : Function.update s.buf lb { s.buf lb with reqInCach := true } i = s.buf i :=
        Function.update_of_ne heq _ _
      change v.Has (Function.update s.buf lb _ i).bDev
        (blk2trk (Function.update s.buf lb _ i).bBlkno) s.toVolumes p at hhas
      change (Function.update s.buf lb _ i).reqInCach = true at hfi
      rw [hbuf] at hhas hfi
      rw [Function.update_of_ne heq, hpt]
      exact h.covered hfi p hhas

/-- The entry is marked for its volumes, and the request waits for them. -/
theorem wait (hi : s.Idle lb) (he : Cache.Entered s.ca d e (s.buf lb).toBuf)
    (hal : (s.buf lb).Aligned) (hap : s.Free lb)
    (hio : (d.iocnt e).toNat = (s.counted (d.part1 e)).card + 1) (hst : d.state e = .cachg)
    (hinflt : s.inflt = false) {ps : List Pv} (hps : ps = live s.missing (s.copies v lb))
    (hne : ps ≠ []) (hca : s'.ca = d)
    (hreq : s'.toRequests = { s.toRequests with
      buf := Function.update s.buf lb { s.buf lb with refCnt := ps.length, reqInCach := true }
      caPv := push lb (fun p => ps.count p) s.caPv
      under := Function.update s.under lb (e, (d.part1 e).put) })
    (hvol : s'.toVolumes = { s.toVolumes with
      caPvWrt := fun p => s.caPvWrt p || decide (p ∈ ps)
      vgact := true }) : Inv v n s' 0 [] := by
  have hsum : ∑ p, ps.count p = ps.length := by
    simpa using Multiset.sum_count_eq_card (s := Finset.univ) (m := (ps : Multiset Pv)) (by simp)
  have hhas : ∀ p, v.Has (s.buf lb).bDev (blk2trk (s.buf lb).bBlkno) s.toVolumes p → p ∈ ps := by
    intro p hp
    rw [hps, mem_live, copies_eq]
    exact hp
  have hbufs : ∀ i, i ≠ lb → s'.buf i = s.buf i := by
    intro i heq
    rw [hreq]
    exact Function.update_of_ne heq _ _
  have hself : s'.buf lb = { s.buf lb with refCnt := ps.length, reqInCach := true } := by
    rw [hreq]
    exact Function.update_self _ _ _
  have hmiss : s'.missing = s.missing := by rw [hvol]
  have hdisk : s'.disk = s.disk := by rw [hvol]
  refine ⟨?_, ?_, ?_, ?_, ?_⟩
  · rw [hca]
    exact he.size.trans h.size
  · have h1 : Counted d { s.toRequests with
        buf := Function.update s.buf lb { s.buf lb with reqInCach := true }
        under := Function.update s.under lb (e, (d.part1 e).put) } :=
      h.join hi he hal hap hio rfl rfl rfl
    rw [hca, hreq]
    apply h1.congr
    refine ⟨rfl, rfl, ?_, ?_, ?_, ?_⟩
    all_goals
      intro i
      by_cases heq : i = lb
      · subst heq
        simp
      · simp [heq]
  · rw [hreq]
    refine h.parked.count hi rfl (fun p => ps.count p) rfl rfl (.inr ⟨?_, hsum.symm, rfl⟩)
      rfl rfl rfl rfl
    rw [hsum]
    exact List.length_pos_of_ne_nil hne
  · rw [hca, hvol]
    apply h.recorded.mark hinflt (fun p hp => by simp [hp]) hst
    · intro p hp
      rw [he.holds.2.1, he.holds.2.2] at hp
      simp [hhas p hp]
    · intro f hf hu
      exact ⟨(he.inUse hf).mp hu, (he.other f hf).1, (he.other f hf).2.1⟩
  · intro i hfi p hp
    have hmissing : s'.missing p = false := hp.2
    rw [hca, hreq, hdisk]
    dsimp only
    rw [hmiss] at hmissing
    by_cases heq : i = lb
    · left
      subst heq
      have hin : p ∈ ps := hhas p ⟨by simpa [hself] using hp.1, hmissing⟩
      unfold push
      apply List.mem_append_right
      rw [List.mem_replicate]
      exact ⟨(List.count_pos_iff.mpr hin).ne', rfl⟩
    · have hf : s.Flagged i := by
        unfold Requests.Flagged at hfi ⊢
        rwa [hbufs i heq] at hfi
      rw [Function.update_of_ne heq, h.part1_under he hf]
      rcases h.covered hf p ⟨by simpa [hbufs i heq] using hp.1, hmissing⟩ with hm | hd
      · exact .inl (List.mem_append_left _ hm)
      · exact .inr hd

/-- Entries without I/O are cleaned. -/
theorem cleaned (h0 : s.infltCnt = 0) (hk : ∃ l q, d.Kept l q) (hc : Cache.Cleaned s.ca d) :
    Inv v n { s with ca := d } 0 [] := by
  have hthere : ∀ e, s.ca.InUse e → s.ca.iocnt e ≠ 0 → d.InUse e ∧ d.part1 e = s.ca.part1 e := by
    intro e he hio
    rcases hc.entry e with ⟨hs, hp⟩ | ⟨hio', -⟩
    · refine ⟨?_, hp⟩
      unfold Cache.InUse
      rw [hc.size, hs]
      exact he
    · exact absurd hio' hio
  have hback : ∀ e, d.InUse e → s.ca.InUse e ∧ d.state e = s.ca.state e ∧
      d.part1 e = s.ca.part1 e := by
    intro e he
    rcases hc.entry e with ⟨hs, hp⟩ | ⟨-, hs, -⟩
    · unfold Cache.InUse at he
      rw [hc.size, hs] at he
      exact ⟨he, hs, hp⟩
    · exact absurd hs he.2
  refine ⟨hc.size.trans h.size, ?_, h.parked, h.recorded.recache h0 hback, ?_⟩
  · apply h.counted.recache hk hthere
    intro e he
    obtain ⟨hu, -, hp⟩ := hback e he
    exact ⟨hu, hp, by rw [hc.iocnt]⟩
  · apply Covered.recache h.covered
    intro i hf
    exact (hthere _ (h.counted.holds hf).1 (h.counted.iocnt_ne_zero hf)).2

theorem setFull (b : Bool) : Inv v n { s with full := b } 0 [] := h.of_eq rfl rfl rfl

/-- The volumes cannot take the request, which has seen some of them. -/
theorem passed (hi : s.Idle lb) (fr pb m : Nat) :
    Inv v n { s with
      freepvw := fr
      pvwblked := pb
      buf := Function.update s.buf lb { s.buf lb with refCnt := m } } 0 [] ∧
    ({ s with
      freepvw := fr
      pvwblked := pb
      buf := Function.update s.buf lb { s.buf lb with refCnt := m } } : State).Idle lb :=
  ⟨(h.setRefCnt hi m).1.of_eq rfl rfl rfl, (h.setRefCnt hi m).2⟩

theorem ckcach_held (hi : s.Idle lb) (hal : (s.buf lb).Aligned) (hap : s.Free lb)
    {l : List Ptr} {q : BitVec 32 → List Ptr} (hk : s.ca.Kept l q)
    (he : s.ca.Holds (s.entry lb) (s.buf lb).toBuf) :
    ∃ s', ckcach v lb s = some s' ∧ Inv v n s' 0 [] := by
  obtain ⟨hent, hst, hpt, hio⟩ := Cache.entered_useHead hk he (s.ca.iocnt (s.entry lb) + 1)
  have hcount : (((s.ca.setIocnt (s.entry lb) (s.ca.iocnt (s.entry lb) + 1)).useHead
      (s.entry lb)).iocnt (s.entry lb)).toNat = (s.counted (((s.ca.setIocnt (s.entry lb)
        (s.ca.iocnt (s.entry lb) + 1)).useHead (s.entry lb)).part1 (s.entry lb))).card + 1 := by
    rw [hio, hpt]
    exact h.toNat_iocnt_succ he.1
  unfold ckcach
  dsimp only
  rw [if_pos he.1.1.1]
  by_cases hchg : s.ca.state (s.entry lb) = .cachg
  · rw [if_neg (not_not.mpr hchg)]
    by_cases hinf : s.inflt = true
    · rw [if_pos hinf]
      exact ⟨_, rfl, h.hold hi⟩
    · rw [if_neg hinf]
      rcases pvque_spec v lb s with ⟨fr, hpv, hne⟩ | ⟨rc, fr, pb, m, hpv, hrc⟩
      · rw [hpv]
        refine ⟨_, rfl, h.wait hi hent hal hap hcount (by rw [hst]; exact hchg)
          (by simpa using hinf) rfl hne rfl ?_ rfl⟩
        unfold State.count State.setBuf
        simp only [Function.update_idem, Function.update_self]
      · obtain ⟨hp, hpi⟩ := h.passed hi fr pb m
        rw [hpv]
        cases rc with
        | success => exact absurd rfl hrc
        | lbhold => exact ⟨_, rfl, hp.hold hpi⟩
        | failure => exact ⟨_, rfl, hp.terminate hpi⟩
  · rw [if_pos hchg]
    exact ⟨_, rfl, h.hit hi hent hal hap hcount hst hpt hchg⟩

theorem ckcach_missed (hi : s.Idle lb) (hal : (s.buf lb).Aligned) (hap : s.Free lb)
    {l : List Ptr} {q : BitVec 32 → List Ptr} (hk : s.ca.Kept l q) (h0 : s.entry lb = 0)
    (hno : ∀ e, ¬s.ca.Holds e (s.buf lb).toBuf) :
    ∃ s', ckcach v lb s = some s' ∧ Inv v n s' 0 [] := by
  unfold ckcach
  dsimp only
  rw [if_neg (not_not.mpr h0)]
  by_cases hinf : s.inflt = true
  · rw [if_pos hinf]
    exact ⟨_, rfl, h.hold hi⟩
  rw [if_neg hinf]
  have hidle : s.infltCnt = 0 := h.recorded.idle (by simpa using hinf)
  rcases hk.new with hnew | ⟨e, hash, hqNext, q', hnew, hloose⟩
  · rw [hnew]
    exact ⟨_, rfl, (h.setFull true).hold hi⟩
  · rw [hnew]
    dsimp only [Option.bind_some]
    rcases pvque_spec v lb { s with
        ca := { s.ca with hash := hash, hqNext := hqNext }, full := false } with
      ⟨fr, hpv, hne⟩ | ⟨rc, fr, pb, m, hpv, hrc⟩
    · obtain ⟨hent, hst, hpt, hio⟩ := Cache.entered_fill hloose hno (s.puts + 1)
      rw [hpv]
      have hcount : (1#16).toNat = (s.counted ⟨blk2trk (s.buf lb).bBlkno, (s.buf lb).bDev,
          s.puts + 1⟩).card + 1 := by
        have hnone : s.counted ⟨blk2trk (s.buf lb).bBlkno, (s.buf lb).bDev, s.puts + 1⟩ = ∅ := by
          apply Finset.eq_empty_of_forall_notMem
          intro i hm
          obtain ⟨-, hf, hd, ht⟩ := Requests.mem_counted.mp hm
          obtain ⟨hu, hkm, hkt⟩ := h.counted.holds hf
          exact hno _ ⟨hu, hkm.trans hd, hkt.trans ht⟩
        rw [hnone]
        rfl
      have hbuf : ∀ b : Lbuf, Function.update s.buf lb b lb = b := fun b =>
        Function.update_self _ _ _
      refine ⟨_, rfl, h.wait hi hent hal hap ?_ hst (by simpa using hinf) rfl hne ?_ ?_ rfl⟩
      · rw [hio, hpt]
        exact hcount
      · unfold State.count State.setBuf State.ltg State.minor
        simp only [hbuf]
      · unfold State.count State.setBuf State.ltg State.minor
        simp only [Function.update_idem, hbuf]
        rfl
    · have hclean := h.cleaned hidle ⟨_, _, hloose.clear⟩
        (Cache.clear_cleaned s.ca hash hqNext hloose.noio)
      obtain ⟨hp, hpi⟩ := (hclean.setFull false).passed hi fr pb m
      rw [hpv]
      cases rc with
      | success => exact absurd rfl hrc
      | lbhold => exact ⟨_, rfl, hp.hold hpi⟩
      | failure => exact ⟨_, rfl, hp.terminate hpi⟩

theorem ckcach (hi : s.Idle lb) (hal : (s.buf lb).Aligned) (hap : s.Free lb) :
    ∃ s', ckcach v lb s = some s' ∧ Inv v n s' 0 [] := by
  obtain ⟨l, q, hk⟩ := h.counted.kept
  rcases hk.fnd_cases (s.buf lb).toBuf with ⟨h0, hno⟩ | he
  · exact h.ckcach_missed hi hal hap hk h0 hno
  · exact h.ckcach_held hi hal hap hk he

end Inv

end Aix413.Lvm.Mwc
