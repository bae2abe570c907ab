import Aix413.Lvm.MirrorCounts

namespace Aix413.Lvm.Mwc

/-! ## Waiting for cache writes -/

/-- The volumes among `cs` that a cache write goes to. -/
def live (missing : Pv → Bool) (cs : List (Option Pv)) : List Pv :=
  (cs.filterMap id).filter fun p => missing p = false

theorem mem_live {missing : Pv → Bool} {cs : List (Option Pv)} {p : Pv} :
    p ∈ live missing cs ↔ some p ∈ cs ∧ missing p = false := by
  simp [live]

section Pvque

variable {v : Layout} {lb : Lb} {s : State}

theorem unwind_eq (ps : List Pv) (s : State) :
    unwind ps s = { s with
      caPv := fun p => List.dropLast^[ps.count p] (s.caPv p)
      freepvw := s.freepvw + ps.length } := by
  induction ps generalizing s with
  | nil => rfl
  | cons a ps ih =>
    rw [unwind, ih]
    dsimp only
    congr 1
    · congr 1
      funext p
      by_cases hp : p = a
      · subst hp
        rw [Function.update_self, List.count_cons_self, Function.iterate_succ_apply]
      · rw [Function.update_of_ne hp, List.count_cons_of_ne (Ne.symm hp)]
    · rw [List.length_cons]
      omega

/-- The queues of the volumes with `n p` more references to a request. -/
def push (lb : Lb) (n : Pv → Nat) (caPv : Pv → List Lb) : Pv → List Lb :=
  fun p => caPv p ++ List.replicate (n p) lb

theorem push_zero (lb : Lb) (caPv : Pv → List Lb) : push lb (fun _ => 0) caPv = caPv := by
  funext p
  simp [push]

theorem push_push (lb : Lb) (m n : Pv → Nat) (caPv : Pv → List Lb) :
    push lb n (push lb m caPv) = push lb (fun p => m p + n p) caPv := by
  funext p
  unfold push
  rw [List.append_assoc, List.replicate_append_replicate]

theorem update_append_eq_push (p : Pv) (caPv : Pv → List Lb) :
    Function.update caPv p (caPv p ++ [lb]) = push lb (fun a => [p].count a) caPv := by
  funext a
  unfold push
  by_cases ha : a = p
  · subst ha
    simp
  · have hcount : [p].count a = 0 := List.count_eq_zero_of_not_mem (by simpa using ha)
    rw [Function.update_of_ne ha]
    simp only [hcount, List.replicate_zero, List.append_nil]

/-- Either all volumes have the request queued, or the queues are as at first. -/
theorem pvqueLoop_spec (lb : Lb) (cs : List (Option Pv)) (apvol : List Pv) (s : State) :
    (∃ fr, pvqueLoop lb cs apvol s =
      (if (live s.missing cs).reverse ++ apvol = [] then .failure else .success,
        (live s.missing cs).reverse ++ apvol,
        { s with
          freepvw := fr
          caPv := push lb (fun p => (live s.missing cs).count p) s.caPv
          buf := Function.update s.buf lb { s.buf lb with
            refCnt := (s.buf lb).refCnt + (live s.missing cs).length } })) ∨
    ∃ ps fr pb n, pvqueLoop lb cs apvol s = (.lbhold, ps,
      { s with
        freepvw := fr
        pvwblked := pb
        caPv := fun p => List.dropLast^[apvol.count p] (s.caPv p)
        buf := Function.update s.buf lb { s.buf lb with refCnt := n } }) := by
  induction cs generalizing apvol s with
  | nil =>
    left
    refine ⟨s.freepvw, ?_⟩
    unfold pvqueLoop
    simp [live, push_zero]
  | cons o cs ih =>
    cases o with
    | none => exact ih apvol s
    | some a =>
      unfold pvqueLoop
      by_cases hm : s.missing a = true
      · have hlive : live s.missing (some a :: cs) = live s.missing cs := by simp [live, hm]
        rw [if_pos hm, hlive]
        exact ih apvol s
      · rw [if_neg hm]
        by_cases hfr : s.freepvw = 0
        · right
          rw [if_pos hfr, unwind_eq]
          exact ⟨apvol, _, _, (s.buf lb).refCnt, by rw [Function.update_eq_self]⟩
        · rw [if_neg hfr]
          have hlive : live s.missing (some a :: cs) = a :: live s.missing cs := by
            simp [live, hm]
          rcases ih (a :: apvol) ({ s with
              freepvw := s.freepvw - 1
              caPv := Function.update s.caPv a (s.caPv a ++ [lb]) }.setBuf lb
                { s.buf lb with refCnt := (s.buf lb).refCnt + 1 }) with
            ⟨fr, hloop⟩ | ⟨ps, fr, pb, n, hloop⟩
          · left
            refine ⟨fr, ?_⟩
            rw [hloop, hlive]
            have hcount : ∀ p, [a].count p + (live s.missing cs).count p =
                (a :: live s.missing cs).count p := by
              intro p
              rw [← List.count_append, List.singleton_append]
            have hlen : (s.buf lb).refCnt + 1 + (live s.missing cs).length =
                (s.buf lb).refCnt + (a :: live s.missing cs).length := by
              rw [List.length_cons]
              omega
            simp only [State.setBuf, List.reverse_cons, List.append_assoc, List.singleton_append,
              update_append_eq_push, push_push, Function.update_idem, Function.update_self,
              hcount, hlen]
          · right
            refine ⟨ps, fr, pb, n, ?_⟩
            rw [hloop]
            simp only [State.setBuf, Function.update_idem, Function.update_self]
            congr 3
            congr 1
            funext p
            by_cases hp : p = a
            · subst hp
              rw [Function.update_self, List.count_cons_self, Function.iterate_succ_apply,
                List.dropLast_concat]
            · rw [Function.update_of_ne hp, List.count_cons_of_ne (Ne.symm hp)]

theorem pvque_spec (v : Layout) (lb : Lb) (s : State) :
    (∃ fr, pvque v lb s = (.success,
      { s with
        freepvw := fr
        caPv := push lb (fun p => (live s.missing (s.copies v lb)).count p) s.caPv
        buf := Function.update s.buf lb { s.buf lb with
          refCnt := (live s.missing (s.copies v lb)).length }
        caPvWrt := fun p => s.caPvWrt p || decide (p ∈ live s.missing (s.copies v lb)) }) ∧
      live s.missing (s.copies v lb) ≠ []) ∨
    ∃ rc fr pb n, pvque v lb s = (rc,
      { s with
        freepvw := fr
        pvwblked := pb
        buf := Function.update s.buf lb { s.buf lb with refCnt := n } }) ∧
      rc ≠ .success := by
  unfold pvque
  rcases pvqueLoop_spec lb (s.copies v lb) []
      (s.setBuf lb { s.buf lb with refCnt := 0 }) with ⟨fr, hloop⟩ | ⟨ps, fr, pb, n, hloop⟩
  · simp only [State.setBuf, Function.update_idem, Function.update_self, List.append_nil,
      List.reverse_eq_nil_iff, zero_add] at hloop
    by_cases hnil : live s.missing (s.copies v lb) = []
    · right
      rw [if_pos hnil] at hloop
      refine ⟨.failure, fr, s.pvwblked, 0, ?_, by decide⟩
      simp only [State.setBuf, hloop, hnil, List.count_nil, push_zero]
      rfl
    · left
      rw [if_neg hnil] at hloop
      refine ⟨fr, ?_, hnil⟩
      simp only [State.setBuf, hloop, List.mem_reverse]
  · right
    simp only [State.setBuf, Function.update_idem, Function.update_self] at hloop
    refine ⟨.lbhold, fr, pb, n, ?_, by decide⟩
    simp only [State.setBuf, hloop]
    rfl

end Pvque

/-! ## Where the requests are -/

/-- References to a request: from the queues of the volumes, and from the queue
`rest` that is being worked off. -/
def Requests.refs (r : Requests) (rest : List Lb) (i : Lb) : Nat :=
  ∑ p, (r.caPv p).count i + rest.count i

theorem Requests.refs_cons (r : Requests) (rest : List Lb) (i : Lb) :
    r.refs (i :: rest) i = r.refs rest i + 1 := by
  unfold Requests.refs
  rw [List.count_cons_self, Nat.add_assoc]

/-- A counted request is in service or has references, and these are counted in it. -/
structure Parked (r : Requests) (rest : List Lb) : Prop where
  waiting : ∀ {i}, 0 < r.refs rest i →
    r.Flagged i ∧ i ∉ r.admitted ∧ (r.buf i).refCnt = r.refs rest i
  flagged : ∀ {i}, r.Flagged i → i ∈ r.admitted ∨ 0 < r.refs rest i
  admitted : ∀ {i}, i ∈ r.admitted → r.Flagged i
  nodup : r.admitted.Nodup
  listed : (r.pendingQ ++ r.caHld).Nodup
  fresh : ∀ {i}, i ∈ r.pendingQ ++ r.caHld → i < r.next ∧ ¬r.Flagged i
  done : ∀ {i}, i ∈ r.done → i < r.next ∧ ¬r.Flagged i ∧ i ∉ r.pendingQ ++ r.caHld

/-- The request is on no queue, and never was counted. -/
structure Requests.Idle (r : Requests) (lb : Lb) : Prop where
  lt : lb < r.next
  unflagged : ¬r.Flagged lb
  unlisted : lb ∉ r.pendingQ ++ r.caHld
  undone : lb ∉ r.done

namespace Parked

variable {r : Requests} {rest : List Lb} {lb : Lb} {b : Lbuf}

theorem refs_pos {p : Pv} {i : Lb} (hi : i ∈ r.caPv p) : 0 < r.refs rest i := by
  have hcount : 0 < (r.caPv p).count i := List.count_pos_iff.mpr hi
  have hle := Finset.single_le_sum (f := fun p => (r.caPv p).count i) (fun _ _ => Nat.zero_le _)
    (Finset.mem_univ p)
  unfold Requests.refs
  omega

variable (h : Parked r rest)

include h

theorem idle_refs (hi : r.Idle lb) : r.refs rest lb = 0 := by
  by_contra hne
  exact hi.unflagged (h.waiting (Nat.pos_of_ne_zero hne)).1

theorem not_admitted (hi : r.Idle lb) : lb ∉ r.admitted := fun hm => hi.unflagged (h.admitted hm)

/-- A request is taken from the pending queue. -/
theorem take (hp : lb ∈ r.pendingQ) :
    Parked { r with pendingQ := r.pendingQ.erase lb } rest ∧
      Requests.Idle { r with pendingQ := r.pendingQ.erase lb } lb := by
  have hsub : (r.pendingQ.erase lb ++ r.caHld).Sublist (r.pendingQ ++ r.caHld) :=
    List.erase_sublist.append_right _
  have hmem := List.mem_append_left r.caHld hp
  constructor
  · constructor
    case waiting => exact h.waiting
    case flagged => exact h.flagged
    case admitted => exact h.admitted
    case nodup => exact h.nodup
    case listed => exact h.listed.sublist hsub
    case fresh => exact fun hi => h.fresh (hsub.mem hi)
    case done =>
      intro i hi
      obtain ⟨h1, h2, h3⟩ := h.done hi
      exact ⟨h1, h2, fun hm => h3 (hsub.mem hm)⟩
  · constructor
    case lt => exact (h.fresh hmem).1
    case unflagged => exact (h.fresh hmem).2
    case unlisted =>
      intro hm
      have hcons := (List.perm_cons_erase hp).append_right r.caHld
      have hnd := hcons.nodup_iff.mp h.listed
      exact (List.nodup_cons.mp hnd).1 hm
    case undone => exact fun hm => (h.done hm).2.2 hmem

theorem hold (hi : r.Idle lb) : Parked { r with caHld := r.caHld ++ [lb] } rest := by
  have hmem : ∀ i, i ∈ r.pendingQ ++ (r.caHld ++ [lb]) ↔ i ∈ r.pendingQ ++ r.caHld ∨ i = lb := by
    intro i
    rw [← List.append_assoc, List.mem_append, List.mem_singleton]
  constructor
  case waiting => exact h.waiting
  case flagged => exact h.flagged
  case admitted => exact h.admitted
  case nodup => exact h.nodup
  case listed =>
    rw [← List.append_assoc]
    exact h.listed.append (List.nodup_singleton lb) (by simpa using hi.unlisted)
  case fresh =>
    intro i him
    rcases (hmem i).mp him with hm | rfl
    · exact h.fresh hm
    · exact ⟨hi.lt, hi.unflagged⟩
  case done =>
    intro i hd
    obtain ⟨h1, h2, h3⟩ := h.done hd
    refine ⟨h1, h2, ?_⟩
    intro hm
    rcases (hmem i).mp hm with hm | rfl
    · exact h3 hm
    · exact hi.undone hd

/-- A request that is on no queue changes, but is not counted. -/
theorem rebuf (hi : r.Idle lb) (hb : b.reqInCach = false) :
    Parked { r with buf := Function.update r.buf lb b } rest ∧
      Requests.Idle { r with buf := Function.update r.buf lb b } lb := by
  have hflag : ∀ i, Requests.Flagged { r with buf := Function.update r.buf lb b } i ↔
      r.Flagged i := by
    intro i
    unfold Requests.Flagged
    by_cases heq : i = lb
    · subst heq
      have hno := hi.unflagged
      unfold Requests.Flagged at hno
      simp [hb, hno]
    · simp [heq]
  constructor
  · constructor
    case waiting =>
      intro i hpos
      obtain ⟨h1, h2, h3⟩ := h.waiting hpos
      refine ⟨(hflag i).mpr h1, h2, ?_⟩
      have hne : i ≠ lb := by
        rintro rfl
        exact hi.unflagged h1
      change (Function.update r.buf lb b i).refCnt = _
      rw [Function.update_of_ne hne]
      exact h3
    case flagged => exact fun hf => h.flagged ((hflag _).mp hf)
    case admitted => exact fun hm => (hflag _).mpr (h.admitted hm)
    case nodup => exact h.nodup
    case listed => exact h.listed
    case fresh =>
      intro i hm
      obtain ⟨h1, h2⟩ := h.fresh hm
      exact ⟨h1, fun hf => h2 ((hflag i).mp hf)⟩
    case done =>
      intro i hm
      obtain ⟨h1, h2, h3⟩ := h.done hm
      exact ⟨h1, fun hf => h2 ((hflag i).mp hf), h3⟩
  · exact ⟨hi.lt, fun hf => hi.unflagged ((hflag lb).mp hf), hi.unlisted, hi.undone⟩

theorem finish (hi : r.Idle lb) : Parked { r with done := r.done ++ [lb] } rest := by
  constructor
  case waiting => exact h.waiting
  case flagged => exact h.flagged
  case admitted => exact h.admitted
  case nodup => exact h.nodup
  case listed => exact h.listed
  case fresh => exact h.fresh
  case done =>
    intro i hm
    rcases List.mem_append.mp hm with hm | hm
    · exact h.done hm
    · obtain rfl := List.mem_singleton.mp hm
      exact ⟨hi.lt, hi.unflagged, hi.unlisted⟩

/-- A request is counted: it goes to service, or waits with `n` references. -/
theorem count {r' : Requests} (hi : r.Idle lb) (hb : b.reqInCach = true) (n : Pv → Nat)
    (hbuf : r'.buf = Function.update r.buf lb b) (hpv : r'.caPv = push lb n r.caPv)
    (hor : (∀ p, n p = 0) ∧ r'.admitted = r.admitted ++ [lb] ∨
      0 < ∑ p, n p ∧ b.refCnt = ∑ p, n p ∧ r'.admitted = r.admitted)
    (hnext : r'.next = r.next) (hpend : r'.pendingQ = r.pendingQ) (hhld : r'.caHld = r.caHld)
    (hdone : r'.done = r.done) : Parked r' rest := by
  have hlb : r.refs rest lb = 0 := h.idle_refs hi
  have hna := h.not_admitted hi
  have hself : r'.buf lb = b := by rw [hbuf, Function.update_self]
  have hother : ∀ i, i ≠ lb → r'.buf i = r.buf i := by
    intro i heq
    rw [hbuf, Function.update_of_ne heq]
  have hflag : ∀ i, i ≠ lb → (r'.Flagged i ↔ r.Flagged i) := by
    intro i heq
    unfold Requests.Flagged
    rw [hother i heq]
  have hflb : r'.Flagged lb := by
    unfold Requests.Flagged
    rw [hself]
    exact hb
  have hrefs : ∀ i, r'.refs rest i = r.refs rest i + if i = lb then ∑ p, n p else 0 := by
    intro i
    unfold Requests.refs push at *
    simp only [hpv, List.count_append, List.count_replicate, Finset.sum_add_distrib]
    by_cases heq : i = lb
    · subst heq
      simp only [beq_self_eq_true, if_true]
      omega
    · have hne : (lb == i) = false := by simpa using Ne.symm heq
      simp [heq, hne]
  have hmem : ∀ i, i ≠ lb → (i ∈ r'.admitted ↔ i ∈ r.admitted) := by
    intro i heq
    rcases hor with ⟨-, hadm⟩ | ⟨-, -, hadm⟩
    · simp [hadm, heq]
    · rw [hadm]
  have hlist : ∀ i, i ∈ r'.pendingQ ++ r'.caHld ↔ i ∈ r.pendingQ ++ r.caHld := by
    intro i
    rw [hpend, hhld]
  constructor
  case waiting =>
    intro i hpos
    rw [hrefs] at hpos ⊢
    by_cases heq : i = lb
    · subst heq
      rw [if_pos rfl, hlb, zero_add] at hpos ⊢
      rcases hor with ⟨hz, -⟩ | ⟨-, hn, hadm⟩
      · simp [hz] at hpos
      · exact ⟨hflb, hadm ▸ hna, hself ▸ hn⟩
    · rw [if_neg heq, add_zero] at hpos ⊢
      obtain ⟨h1, h2, h3⟩ := h.waiting hpos
      exact ⟨(hflag i heq).mpr h1, fun hm => h2 ((hmem i heq).mp hm), hother i heq ▸ h3⟩
  case flagged =>
    intro i hf
    rw [hrefs]
    by_cases heq : i = lb
    · subst heq
      rcases hor with ⟨-, hadm⟩ | ⟨hpos, -, -⟩
      · left
        simp [hadm]
      · right
        rw [if_pos rfl]
        omega
    · rw [if_neg heq, add_zero]
      rcases h.flagged ((hflag i heq).mp hf) with hm | hm
      · exact .inl ((hmem i heq).mpr hm)
      · exact .inr hm
  case admitted =>
    intro i hm
    by_cases heq : i = lb
    · exact heq ▸ hflb
    · exact (hflag i heq).mpr (h.admitted ((hmem i heq).mp hm))
  case nodup =>
    rcases hor with ⟨-, hadm⟩ | ⟨-, -, hadm⟩
    · rw [hadm]
      exact h.nodup.append (List.nodup_singleton lb) (by simpa using hna)
    · exact hadm ▸ h.nodup
  case listed =>
    rw [hpend, hhld]
    exact h.listed
  case fresh =>
    intro i hm
    have hm' := (hlist i).mp hm
    have heq : i ≠ lb := by
      rintro rfl
      exact hi.unlisted hm'
    obtain ⟨h1, h2⟩ := h.fresh hm'
    exact ⟨hnext ▸ h1, fun hf => h2 ((hflag i heq).mp hf)⟩
  case done =>
    intro i hm
    rw [hdone] at hm
    have heq : i ≠ lb := by
      rintro rfl
      exact hi.undone hm
    obtain ⟨h1, h2, h3⟩ := h.done hm
    exact ⟨hnext ▸ h1, fun hf => h2 ((hflag i heq).mp hf), fun hl => h3 ((hlist i).mp hl)⟩

/-- A counted request finishes that has no references and is not in service. -/
theorem uncount {admitted : List Lb} (hlt : lb < r.next) (hf : r.Flagged lb) (hrefs : r.refs rest lb = 0)
    (hb : b.reqInCach = false) (hadm : admitted = r.admitted.erase lb) :
    Parked { r with buf := Function.update r.buf lb b, admitted := admitted } rest ∧
      Requests.Idle { r with buf := Function.update r.buf lb b, admitted := admitted } lb := by
  subst hadm
  have hflag : ∀ i, Requests.Flagged { r with
      buf := Function.update r.buf lb b, admitted := r.admitted.erase lb } i ↔
        r.Flagged i ∧ i ≠ lb := by
    intro i
    unfold Requests.Flagged
    by_cases heq : i = lb
    · simp [heq, hb]
    · simp [heq]
  have hunlisted : lb ∉ r.pendingQ ++ r.caHld := fun hm => (h.fresh hm).2 hf
  have hundone : lb ∉ r.done := fun hm => (h.done hm).2.1 hf
  constructor
  · constructor
    case waiting =>
      intro i hpos
      have hne : i ≠ lb := by
        rintro rfl
        exact absurd hrefs hpos.ne'
      obtain ⟨h1, h2, h3⟩ := h.waiting hpos
      refine ⟨(hflag i).mpr ⟨h1, hne⟩, fun hm => h2 (List.mem_of_mem_erase hm), ?_⟩
      change (Function.update r.buf lb b i).refCnt = _
      rw [Function.update_of_ne hne]
      exact h3
    case flagged =>
      intro i hfi
      obtain ⟨h1, h2⟩ := (hflag i).mp hfi
      rcases h.flagged h1 with hm | hm
      · exact .inl ((List.mem_erase_of_ne h2).mpr hm)
      · exact .inr hm
    case admitted =>
      intro i hm
      obtain ⟨h1, h2⟩ := h.nodup.mem_erase_iff.mp hm
      exact (hflag i).mpr ⟨h.admitted h2, h1⟩
    case nodup => exact h.nodup.erase lb
    case listed => exact h.listed
    case fresh =>
      intro i hm
      obtain ⟨h1, h2⟩ := h.fresh hm
      exact ⟨h1, fun hfi => h2 ((hflag i).mp hfi).1⟩
    case done =>
      intro i hm
      obtain ⟨h1, h2, h3⟩ := h.done hm
      exact ⟨h1, fun hfi => h2 ((hflag i).mp hfi).1, h3⟩
  · exact ⟨hlt, fun hfi => ((hflag lb).mp hfi).2 rfl, hunlisted, hundone⟩

/-- A queue is taken off its volume to be worked off. -/
theorem drain (p : Pv) (hrest : rest = []) :
    Parked { r with caPv := Function.update r.caPv p [] } (r.caPv p) := by
  subst hrest
  have hrefs : ∀ i, Requests.refs { r with caPv := Function.update r.caPv p [] } (r.caPv p) i =
      r.refs [] i := by
    intro i
    unfold Requests.refs
    have hold := Finset.sum_erase_add (f := fun a => (r.caPv a).count i) _ (Finset.mem_univ p)
    rw [← hold, ← Finset.sum_erase_add _ _ (Finset.mem_univ p)]
    have heq : ∑ a ∈ Finset.univ.erase p, (Function.update r.caPv p [] a).count i =
        ∑ a ∈ Finset.univ.erase p, (r.caPv a).count i := by
      apply Finset.sum_congr rfl
      intro a ha
      rw [Function.update_of_ne (Finset.ne_of_mem_erase ha)]
    simp [heq]
  constructor
  case waiting =>
    intro i hpos
    rw [hrefs] at hpos ⊢
    exact h.waiting hpos
  case flagged =>
    intro i hf
    rw [hrefs]
    exact h.flagged hf
  case admitted => exact h.admitted
  case nodup => exact h.nodup
  case listed => exact h.listed
  case fresh => exact h.fresh
  case done => exact h.done

/-- A reference is gone. With the last one the request goes to service. -/
theorem release (r' : Requests) {tail : List Lb} (hrest : rest = lb :: tail)
    (hbuf : r'.buf =
      Function.update r.buf lb { r.buf lb with refCnt := (r.buf lb).refCnt - 1 })
    (hadm : r'.admitted =
      if (r.buf lb).refCnt - 1 = 0 then r.admitted ++ [lb] else r.admitted)
    (hpv : r'.caPv = r.caPv) (hnext : r'.next = r.next) (hpend : r'.pendingQ = r.pendingQ)
    (hhld : r'.caHld = r.caHld) (hdone : r'.done = r.done) : Parked r' tail := by
  subst hrest
  have hlb : r.refs (lb :: tail) lb = r'.refs tail lb + 1 := by
    rw [Requests.refs_cons]
    unfold Requests.refs
    rw [hpv]
  have hi : ∀ i, i ≠ lb → r.refs (lb :: tail) i = r'.refs tail i := by
    intro i heq
    unfold Requests.refs
    rw [hpv, List.count_cons_of_ne (Ne.symm heq)]
  obtain ⟨hf, hna, hcnt⟩ := h.waiting (i := lb) (by omega)
  have hzero : (r.buf lb).refCnt - 1 = 0 ↔ r'.refs tail lb = 0 := by omega
  have hflag : ∀ i, r'.Flagged i ↔ r.Flagged i := by
    intro i
    unfold Requests.Flagged
    rw [hbuf]
    by_cases heq : i = lb
    · simp [heq]
    · simp [heq]
  have hmem : ∀ i, i ≠ lb → (i ∈ r'.admitted ↔ i ∈ r.admitted) := by
    intro i heq
    rw [hadm]
    split_ifs
    · simp [heq]
    · rfl
  constructor
  case waiting =>
    intro i hpos
    by_cases heq : i = lb
    · subst heq
      have hne : ¬((r.buf i).refCnt - 1 = 0) := by omega
      refine ⟨(hflag i).mpr hf, ?_, ?_⟩
      · rw [hadm, if_neg hne]
        exact hna
      · rw [hbuf, Function.update_self]
        change (r.buf i).refCnt - 1 = _
        omega
    · rw [← hi i heq] at hpos ⊢
      obtain ⟨h1, h2, h3⟩ := h.waiting hpos
      refine ⟨(hflag i).mpr h1, fun hm => h2 ((hmem i heq).mp hm), ?_⟩
      rw [hbuf, Function.update_of_ne heq]
      exact h3
  case flagged =>
    intro i hfi
    by_cases heq : i = lb
    · subst heq
      by_cases hz : (r.buf i).refCnt - 1 = 0
      · left
        rw [hadm, if_pos hz]
        exact List.mem_append_right _ (List.mem_singleton_self _)
      · exact .inr (by omega)
    · rw [← hi i heq, hmem i heq]
      exact h.flagged ((hflag i).mp hfi)
  case admitted =>
    intro i hm
    by_cases heq : i = lb
    · exact (hflag i).mpr (heq ▸ hf)
    · exact (hflag i).mpr (h.admitted ((hmem i heq).mp hm))
  case nodup =>
    rw [hadm]
    split_ifs
    · exact h.nodup.append (List.nodup_singleton lb) (by simpa using hna)
    · exact h.nodup
  case listed =>
    rw [hpend, hhld]
    exact h.listed
  case fresh =>
    intro i hm
    rw [hpend, hhld] at hm
    rw [hnext, hflag]
    exact h.fresh hm
  case done =>
    intro i hm
    rw [hdone] at hm
    rw [hpend, hhld, hnext, hflag]
    exact h.done hm

/-- The hold queue is appended to the pending queue. -/
theorem move : Parked { r with pendingQ := r.pendingQ ++ r.caHld, caHld := [] } rest := by
  constructor
  case waiting => exact h.waiting
  case flagged => exact h.flagged
  case admitted => exact h.admitted
  case nodup => exact h.nodup
  case listed => simpa using h.listed
  case fresh =>
    intro i hm
    exact h.fresh (by simpa using hm)
  case done =>
    intro i hm
    obtain ⟨h1, h2, h3⟩ := h.done hm
    exact ⟨h1, h2, by simpa using h3⟩

/-- The first request of the hold queue is taken. -/
theorem unhold {t : List Lb} (hhld : r.caHld = lb :: t) :
    Parked { r with caHld := t } rest ∧ Requests.Idle { r with caHld := t } lb := by
  have hsub : (r.pendingQ ++ t).Sublist (r.pendingQ ++ r.caHld) := by
    rw [hhld]
    exact (List.sublist_cons_self lb t).append_left _
  have hmem : lb ∈ r.pendingQ ++ r.caHld := by simp [hhld]
  constructor
  · constructor
    case waiting => exact h.waiting
    case flagged => exact h.flagged
    case admitted => exact h.admitted
    case nodup => exact h.nodup
    case listed => exact h.listed.sublist hsub
    case fresh => exact fun hi => h.fresh (hsub.mem hi)
    case done =>
      intro i hi
      obtain ⟨h1, h2, h3⟩ := h.done hi
      exact ⟨h1, h2, fun hm => h3 (hsub.mem hm)⟩
  · refine ⟨(h.fresh hmem).1, (h.fresh hmem).2, ?_, fun hm => (h.done hm).2.2 hmem⟩
    have hnd := h.listed
    rw [hhld] at hnd
    exact (List.nodup_cons.mp (List.nodup_middle.mp hnd)).1

/-- A request arrives. -/
theorem arrive (hb : b.reqInCach = false) (hlt : ∀ i, r.Flagged i → i < r.next) :
    Parked { r with
      buf := Function.update r.buf r.next b
      next := r.next + 1
      pendingQ := r.pendingQ ++ [r.next] } rest := by
  have hnew : ¬r.Flagged r.next := fun hf => absurd (hlt _ hf) (Nat.lt_irrefl _)
  have hlisted : ∀ i, i ∈ r.pendingQ ++ [r.next] ++ r.caHld ↔
      i ∈ r.pendingQ ++ r.caHld ∨ i = r.next := by
    intro i
    simp only [List.mem_append, List.mem_singleton]
    tauto
  have hflag : ∀ i, Requests.Flagged { r with
      buf := Function.update r.buf r.next b
      next := r.next + 1
      pendingQ := r.pendingQ ++ [r.next] } i ↔ r.Flagged i := by
    intro i
    by_cases heq : i = r.next
    · subst heq
      unfold Requests.Flagged at *
      simp [hb, hnew]
    · unfold Requests.Flagged
      simp [heq]
  constructor
  case waiting =>
    intro i hpos
    obtain ⟨h1, h2, h3⟩ := h.waiting hpos
    have hne : i ≠ r.next := fun heq => hnew (heq ▸ h1)
    refine ⟨(hflag i).mpr h1, h2, ?_⟩
    change (Function.update r.buf r.next b i).refCnt = _
    rw [Function.update_of_ne hne]
    exact h3
  case flagged => exact fun hf => h.flagged ((hflag _).mp hf)
  case admitted => exact fun hm => (hflag _).mpr (h.admitted hm)
  case nodup => exact h.nodup
  case listed =>
    have hperm : (r.pendingQ ++ [r.next] ++ r.caHld).Perm (r.next :: (r.pendingQ ++ r.caHld)) := by
      rw [List.append_assoc]
      exact List.perm_middle
    rw [hperm.nodup_iff, List.nodup_cons]
    exact ⟨fun hm => absurd (h.fresh hm).1 (Nat.lt_irrefl _), h.listed⟩
  case fresh =>
    intro i hm
    rcases (hlisted i).mp hm with hm | rfl
    · exact ⟨Nat.lt_succ_of_lt (h.fresh hm).1, fun hf => (h.fresh hm).2 ((hflag i).mp hf)⟩
    · exact ⟨Nat.lt_succ_self _, fun hf => hnew ((hflag _).mp hf)⟩
  case done =>
    intro i hm
    obtain ⟨h1, h2, h3⟩ := h.done hm
    refine ⟨Nat.lt_succ_of_lt h1, fun hf => h2 ((hflag i).mp hf), ?_⟩
    intro hl
    rcases (hlisted i).mp hl with hl | rfl
    · exact h3 hl
    · exact absurd h1 (Nat.lt_irrefl _)

end Parked

end Aix413.Lvm.Mwc
