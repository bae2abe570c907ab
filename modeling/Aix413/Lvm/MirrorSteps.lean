import Aix413.Lvm.MirrorWrites

namespace Aix413.Lvm.Mwc

variable {v : Layout} {n : Nat} {s s' : State} {k : Nat} {rest : List Lb} {lb : Lb} {c d : Cache}
  {r r' : Requests} {w w' : Volumes} {e : Ptr}

/-! ## Changes that the cache does not see -/

theorem Requests.Alike.update {b : Lbuf} (hbuf : r'.buf = Function.update r.buf lb b)
    (hf : b.reqInCach = (r.buf lb).reqInCach) (hd : b.bDev = (r.buf lb).bDev)
    (hk : b.bBlkno = (r.buf lb).bBlkno) (hc : b.bBcount = (r.buf lb).bBcount)
    (hnext : r'.next = r.next) (hunder : r'.under = r.under) : Alike r r' := by
  refine ⟨hnext, hunder, ?_, ?_, ?_, ?_⟩
  all_goals
    intro i
    rw [hbuf]
    by_cases hi : i = lb
    · subst hi
      simp [hf, hd, hk, hc]
    · simp [hi]

theorem Requests.Alike.of_buf (hbuf : r'.buf = r.buf) (hnext : r'.next = r.next)
    (hunder : r'.under = r.under) : Alike r r' := by
  refine ⟨hnext, hunder, ?_, ?_, ?_, ?_⟩
  all_goals
    intro i
    rw [hbuf]

theorem Covered.congr (h : Covered v c r w) (ha : Requests.Alike r r') (hpv : r'.caPv = r.caPv) :
    Covered v c r' w := by
  intro i hi p hp
  rw [ha.dev, ha.blkno] at hp
  rw [hpv, ha.under]
  exact h (ha.flagged.mp hi) p hp

theorem Covered.recache (h : Covered v c r w)
    (hp : ∀ i, r.Flagged i → d.part1 (r.under i).1 = c.part1 (r.under i).1) : Covered v d r w := by
  intro i hi p hhas
  rw [hp i hi]
  exact h hi p hhas

namespace Inv

theorem of_eq (h : Inv v n s k rest) (hca : s'.ca = s.ca) (hreq : s'.toRequests = s.toRequests)
    (hvol : s'.toVolumes = s.toVolumes) : Inv v n s' k rest := by
  obtain ⟨h0, h1, h2, h3, h4⟩ := h
  rw [← hca] at h0
  rw [← hca, ← hreq] at h1
  rw [← hreq] at h2
  rw [← hca, ← hvol] at h3
  rw [← hca, ← hreq, ← hvol] at h4
  exact ⟨h0, h1, h2, h3, h4⟩

/-- The requests have changed places only. -/
theorem requeue (h : Inv v n s k rest) {rest' : List Lb} (ha : s.Alike s'.toRequests)
    (hpv : s'.caPv = s.caPv) (hp : Parked s'.toRequests rest') (hca : s'.ca = s.ca)
    (hvol : s'.toVolumes = s.toVolumes) : Inv v n s' k rest' := by
  obtain ⟨h0, h1, -, h3, h4⟩ := h
  rw [← hca] at h0 h1
  rw [← hca, ← hvol] at h3
  rw [← hca, ← hvol] at h4
  exact ⟨h0, h1.congr ha, hp, h3, h4.congr ha hpv⟩

variable (h : Inv v n s k rest)

include h

theorem entry_eq (hf : s.Flagged lb) : s.entry lb = (s.under lb).1 := by
  obtain ⟨l, q, hk⟩ := h.counted.kept
  exact hk.fnd_eq (h.counted.holds hf)

theorem hold (hi : s.Idle lb) : Inv v n (s.hold lb) k rest :=
  h.requeue (.of_buf rfl rfl rfl) rfl (h.parked.hold hi) rfl rfl

theorem setRefCnt (hi : s.Idle lb) (m : Nat) :
    Inv v n (s.setBuf lb { s.buf lb with refCnt := m }) k rest ∧
      (s.setBuf lb { s.buf lb with refCnt := m }).Idle lb := by
  have hp := h.parked.rebuf (b := { s.buf lb with refCnt := m }) hi
    (Bool.eq_false_iff.mpr hi.unflagged)
  exact ⟨h.requeue (.update rfl rfl rfl rfl rfl rfl rfl) rfl hp.1 rfl rfl, hp.2⟩

theorem finish (hi : s.Idle lb) : Inv v n { s with done := s.done ++ [lb] } k rest :=
  h.requeue (.of_buf rfl rfl rfl) rfl (h.parked.finish hi) rfl rfl

theorem terminate (hi : s.Idle lb) : Inv v n (s.terminate lb) k rest := by
  have hp := h.parked.rebuf (b := { s.buf lb with
    error := true, bError := 5, bResid := (s.buf lb).bBcount }) hi
    (Bool.eq_false_iff.mpr hi.unflagged)
  exact h.requeue (.update rfl rfl rfl rfl rfl rfl rfl) rfl (hp.1.finish hp.2) rfl rfl

omit h in
theorem foldl_terminate_caHld (l l' : List Lb) (s : State) :
    l.foldl State.terminate { s with caHld := l' } =
      { l.foldl State.terminate s with caHld := l' } := by
  induction l generalizing s with
  | nil => rfl
  | cons lb l ih => exact ih (s.terminate lb)

omit h in
/-- A request that is idle stays so when another one is terminated. -/
theorem idle_terminate {i : Lb} (hi : s.Idle i) (hne : i ≠ lb) : (s.terminate lb).Idle i := by
  refine ⟨hi.lt, ?_, hi.unlisted, ?_⟩
  · have hno := hi.unflagged
    unfold Requests.Flagged State.terminate State.setBuf at *
    simpa [hne] using hno
  · intro hm
    rcases List.mem_append.mp hm with hm | hm
    · exact hi.undone hm
    · exact hne (List.mem_singleton.mp hm)

theorem terminateAll (l : List Lb) (hl : s.caHld = l) :
    Inv v n { l.foldl State.terminate s with caHld := [] } k rest ∧
      ∀ i, s.Idle i → ({ l.foldl State.terminate s with caHld := [] } : State).Idle i := by
  induction l generalizing s with
  | nil =>
    have heq : { s with caHld := [] } = s := by rw [← hl]
    rw [List.foldl_nil, heq]
    exact ⟨h, fun _ hi => hi⟩
  | cons lb l ih =>
    obtain ⟨hp, hi⟩ := h.parked.unhold hl
    have h1 : Inv v n { s with caHld := l } k rest :=
      h.requeue (.of_buf rfl rfl rfl) rfl hp rfl rfl
    obtain ⟨h2, h3⟩ := ih (h1.terminate hi) rfl
    have heq : l.foldl State.terminate (State.terminate { s with caHld := l } lb) =
        { (lb :: l).foldl State.terminate s with caHld := l } :=
      foldl_terminate_caHld (lb :: l) l s
    rw [heq] at h2 h3
    refine ⟨h2, ?_⟩
    intro i hii
    have hne : i ≠ lb := by
      rintro rfl
      exact hii.unlisted (by simp [hl])
    apply h3 i
    apply idle_terminate _ hne
    refine ⟨hii.lt, hii.unflagged, ?_, hii.undone⟩
    intro hm
    apply hii.unlisted
    rw [hl]
    rcases List.mem_append.mp hm with hm | hm
    · exact List.mem_append_left _ hm
    · exact List.mem_append_right _ (List.mem_cons_of_mem _ hm)

theorem mvhld : Inv v n (mvhld s) k rest ∧ ∀ i, s.Idle i → (mvhld s).Idle i := by
  unfold Mwc.mvhld
  split_ifs with hoff
  · exact h.terminateAll s.caHld rfl
  · refine ⟨h.requeue (.of_buf rfl rfl rfl) rfl h.parked.move rfl rfl, ?_⟩
    intro i hi
    exact ⟨hi.lt, hi.unflagged, by simpa using hi.unlisted, hi.undone⟩

end Inv

/-! ## Requests that finish -/

/-- `lb` is no longer counted in entry `e`. -/
def State.uncount (s : State) (lb : Lb) (e : Ptr) : State :=
  { s with ca := s.ca.setIocnt e (s.ca.iocnt e - 1) }.setBuf lb { s.buf lb with reqInCach := false }

theorem caTerm_cases (s : State) (h0 : s.entry lb ≠ 0) :
    caTerm lb s = some (s.uncount lb (s.entry lb)) ∨
      caTerm lb s = some (mvhld (s.uncount lb (s.entry lb))) := by
  unfold caTerm
  simp only [h0, if_false]
  by_cases hm : (s.uncount lb (s.entry lb)).ca.iocnt (s.entry lb) = 0 ∧
      (s.uncount lb (s.entry lb)).inflt = false ∧ (s.uncount lb (s.entry lb)).full ∧
      (s.uncount lb (s.entry lb)).caHld ≠ []
  · right
    exact if_pos hm
  · left
    exact if_neg hm

/-- A reference to `lb` and its pv_wait structure are gone. -/
def State.unref (s : State) (lb : Lb) : State :=
  { s.setBuf lb { s.buf lb with refCnt := (s.buf lb).refCnt - 1 } with freepvw := s.freepvw + 1 }

theorem skedOne_eq (lb : Lb) (s : State) : skedOne lb s =
    if (s.buf lb).refCnt - 1 = 0 then
      if s.forcedOff then (caTerm lb (s.unref lb)).map fun s => s.terminate lb
      else some ((s.unref lb).serve lb)
    else some (s.unref lb) := rfl

namespace Inv

variable (h : Inv v n s k rest)

include h

theorem under_ne_zero (hf : s.Flagged lb) : (s.under lb).1 ≠ 0 := (h.counted.holds hf).1.1.1

theorem uncount (hf : s.Flagged lb) (hrefs : s.refs rest lb = 0) {admitted : List Lb}
    (hadm : admitted = s.admitted.erase lb) :
    Inv v n { s.uncount lb (s.under lb).1 with admitted := admitted } k rest ∧
      ({ s.uncount lb (s.under lb).1 with admitted := admitted } : State).Idle lb := by
  have hp := h.parked.uncount (b := { s.buf lb with reqInCach := false })
    (h.counted.lt hf) hf hrefs rfl hadm
  refine ⟨⟨h.size, ?_, hp.1, ?_, ?_⟩, hp.2⟩
  · exact h.counted.leave hf rfl rfl rfl
  · exact h.recorded.congr rfl rfl rfl
  · intro i hi p hhas
    by_cases heq : i = lb
    · subst heq
      have hno : (Function.update s.buf i { s.buf i with reqInCach := false } i).reqInCach = true :=
        hi
      rw [Function.update_self] at hno
      cases hno
    · have hbuf : Function.update s.buf lb { s.buf lb with reqInCach := false } i = s.buf i :=
        Function.update_of_ne heq _ _
      have hfi : s.Flagged i := by
        change (Function.update s.buf lb _ i).reqInCach = true at hi
        rw [hbuf] at hi
        exact hi
      change v.Has (Function.update s.buf lb _ i).bDev
        (blk2trk (Function.update s.buf lb _ i).bBlkno) _ p at hhas
      rw [hbuf] at hhas
      exact h.covered hfi p hhas

/-- A request in service is terminated. -/
theorem serviceDone (hrest : rest = []) (ha : lb ∈ s.admitted) :
    ∃ s', caTerm lb { s with admitted := s.admitted.erase lb, done := s.done ++ [lb] } = some s' ∧
      Inv v n s' k rest := by
  subst hrest
  have hf := h.parked.admitted ha
  have hrefs : s.refs [] lb = 0 := by
    by_contra hne
    exact (h.parked.waiting (Nat.pos_of_ne_zero hne)).2.1 ha
  have he : State.entry { s with admitted := s.admitted.erase lb, done := s.done ++ [lb] } lb =
      (s.under lb).1 := h.entry_eq hf
  obtain ⟨h1, hi1⟩ := h.uncount hf hrefs rfl
  have h2 := h1.finish hi1
  rcases caTerm_cases { s with admitted := s.admitted.erase lb, done := s.done ++ [lb] }
      (by rw [he]; exact h.under_ne_zero hf) with hc | hc
  · rw [he] at hc
    exact ⟨_, hc, h2⟩
  · rw [he] at hc
    exact ⟨_, hc, h2.mvhld.1⟩

/-- The last reference is gone. -/
theorem lastRef {tail : List Lb} (hrest : rest = lb :: tail) (hz : (s.buf lb).refCnt - 1 = 0) :
    Inv v n ((s.unref lb).serve lb) k tail ∧ s.Flagged lb ∧
      ((s.unref lb).serve lb).refs tail lb = 0 ∧ lb ∉ s.admitted := by
  have hcons : s.refs rest lb = s.refs tail lb + 1 := hrest ▸ s.refs_cons tail lb
  obtain ⟨hf, hna, hcnt⟩ := h.parked.waiting (i := lb) (by omega)
  refine ⟨?_, hf, ?_, hna⟩
  · have hadm : ((s.unref lb).serve lb).admitted =
        if (s.buf lb).refCnt - 1 = 0 then s.admitted ++ [lb] else s.admitted := (if_pos hz).symm
    have hp : Parked ((s.unref lb).serve lb).toRequests tail :=
      h.parked.release ((s.unref lb).serve lb).toRequests hrest rfl hadm rfl rfl rfl rfl rfl
    exact h.requeue (.update rfl rfl rfl rfl rfl rfl rfl) rfl hp rfl rfl
  · have hsame : ((s.unref lb).serve lb).refs tail lb = s.refs tail lb := rfl
    omega

/-- One reference less, with others left. -/
theorem unref {tail : List Lb} (hrest : rest = lb :: tail) (hz : (s.buf lb).refCnt - 1 ≠ 0) :
    Inv v n (s.unref lb) k tail := by
  have hadm : (s.unref lb).admitted =
      if (s.buf lb).refCnt - 1 = 0 then s.admitted ++ [lb] else s.admitted := (if_neg hz).symm
  have hp : Parked (s.unref lb).toRequests tail :=
    h.parked.release (s.unref lb).toRequests hrest rfl hadm rfl rfl rfl rfl rfl
  exact h.requeue (.update rfl rfl rfl rfl rfl rfl rfl) rfl hp rfl rfl

theorem skedOne {tail : List Lb} (hrest : rest = lb :: tail) :
    ∃ s', skedOne lb s = some s' ∧ Inv v n s' k tail := by
  rw [skedOne_eq]
  by_cases hz : (s.buf lb).refCnt - 1 = 0
  · obtain ⟨hadm, hf, hrefs, hna⟩ := h.lastRef hrest hz
    rw [if_pos hz]
    split_ifs with hoff
    · have halike : s.Alike ((s.unref lb).serve lb).toRequests :=
        .update rfl rfl rfl rfl rfl rfl rfl
      have hf₁ : ((s.unref lb).serve lb).Flagged lb := halike.flagged.mpr hf
      have herase : (s.unref lb).admitted = ((s.unref lb).serve lb).admitted.erase lb := by
        change s.admitted = (s.admitted ++ [lb]).erase lb
        rw [List.erase_append_right _ hna, List.erase_cons_head, List.append_nil]
      obtain ⟨h₂, hi₂⟩ := hadm.uncount hf₁ hrefs herase
      have he : (s.unref lb).entry lb = (s.under lb).1 := hadm.entry_eq hf₁
      rcases caTerm_cases (s.unref lb)
        (by rw [he]; exact h.under_ne_zero hf) with hc | hc
      · rw [he] at hc
        rw [hc]
        exact ⟨_, rfl, h₂.terminate hi₂⟩
      · rw [he] at hc
        rw [hc]
        exact ⟨_, rfl, h₂.mvhld.1.terminate (h₂.mvhld.2 lb hi₂)⟩
    · exact ⟨_, rfl, hadm⟩
  · rw [if_neg hz]
    exact ⟨_, rfl, h.unref hrest hz⟩

theorem skedLoop : ∃ s', skedLoop rest s = some s' ∧ Inv v n s' k [] := by
  induction rest generalizing s with
  | nil => exact ⟨s, rfl, h⟩
  | cons lb rest ih =>
    obtain ⟨s₁, h₁, hi₁⟩ := h.skedOne rfl
    obtain ⟨s₂, h₂, hi₂⟩ := ih hi₁
    refine ⟨s₂, ?_, hi₂⟩
    rw [Mwc.skedLoop, h₁]
    exact h₂

/-- All requests that wait for volume `p` lose a reference. -/
theorem sked (hrest : rest = []) {p : Pv}
    (hd : w.missing p = true ∨ s.disk p = s.ca.part1) (hw : s.toVolumes = w) :
    ∃ s', sked p s = some s' ∧ Inv v n s' k [] := by
  have h₁ : Inv v n { s with caPv := Function.update s.caPv p [] } k (s.caPv p) := by
    refine ⟨h.size, h.counted.congr (.of_buf rfl rfl rfl), h.parked.drain p hrest, h.recorded, ?_⟩
    intro i hi a hhas
    by_cases hap : a = p
    · right
      rcases hd with hm | hd
      · have hno := hhas.2
        rw [hap] at hno
        subst hw
        rw [hm] at hno
        cases hno
      · change s.disk a _ = s.ca.part1 _
        rw [hap, hd]
    · change i ∈ Function.update s.caPv p [] a ∨ _
      rw [Function.update_of_ne hap]
      exact h.covered hi a hhas
  exact h₁.skedLoop

end Inv

end Aix413.Lvm.Mwc
