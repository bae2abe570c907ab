import Aix413.Lvm.Strategy
import Mathlib.Logic.Relation

namespace Aix413.Lvm.Strategy

/-! ## Conflicts -/

variable {b c b' c' : Buf}

theorem hdHash_congr (h : b'.key = b.key) : hdHash b' = hdHash b := by
  simp only [Buf.key, Prod.mk.injEq] at h
  unfold hdHash
  rw [h.2.1]

theorem hdHash_of_conflict (h : b.Conflict c) : hdHash b = hdHash c := by
  unfold hdHash
  rw [h.2.1]

theorem or_and_ne_zero (x y w : BitVec 32) :
    (x ||| y) &&& w ≠ 0 ↔ x &&& w ≠ 0 ∨ y &&& w ≠ 0 := by
  have hd : (x ||| y) &&& w = (x &&& w) ||| (y &&& w) := by
    apply BitVec.eq_of_getLsbD_eq
    intro i _
    simp only [BitVec.getLsbD_and, BitVec.getLsbD_or, Bool.and_or_distrib_right]
  rw [hd, Ne, Ne, Ne, ← not_and_or]
  exact not_congr BitVec.or_eq_zero_iff

@[simp] theorem setErrno_key (b : Buf) (e : Nat) : (b.setErrno e).key = b.key := rfl
@[simp] theorem setErrno_bError (b : Buf) (e : Nat) : (b.setErrno e).bError = e := rfl
@[simp] theorem setErrno_bDev (b : Buf) (e : Nat) : (b.setErrno e).bDev = b.bDev := rfl
@[simp] theorem hdHash_setErrno (b : Buf) (e : Nat) : hdHash (b.setErrno e) = hdHash b := rfl
@[simp] theorem setErrno_setErrno (b : Buf) (e f : Nat) :
    (b.setErrno e).setErrno f = b.setErrno f := rfl

/-- The mask of `conflicts` meets the request's own exactly when a request of
the list does. -/
theorem conflicts_ne_zero (s : State) (lb : Lb) (l : List Lb)
    (hd : ∀ i ∈ l, (s.buf i).bDev = (s.buf lb).bDev) :
    s.conflicts lb l &&& (s.buf lb).bWork ≠ 0 ↔ ∃ i ∈ l, (s.buf i).Conflict (s.buf lb) := by
  have hacc : ∀ (l : List Lb) (m : BitVec 32), (∀ i ∈ l, (s.buf i).bDev = (s.buf lb).bDev) →
      (l.foldl (fun c p => if blk2trk (s.buf p).bBlkno = blk2trk (s.buf lb).bBlkno
        then c ||| (s.buf p).bWork else c) m &&& (s.buf lb).bWork ≠ 0 ↔
      m &&& (s.buf lb).bWork ≠ 0 ∨ ∃ i ∈ l, (s.buf i).Conflict (s.buf lb)) := by
    intro l
    induction l with
    | nil => simp
    | cons p l ih =>
      intro m hd
      rw [List.foldl_cons, ih _ fun i hi => hd i (List.mem_cons_of_mem p hi)]
      simp only [List.mem_cons, exists_eq_or_imp]
      have hp := hd p List.mem_cons_self
      by_cases ht : blk2trk (s.buf p).bBlkno = blk2trk (s.buf lb).bBlkno
      · have hc : (s.buf p).Conflict (s.buf lb) ↔ (s.buf p).bWork &&& (s.buf lb).bWork ≠ 0 :=
          ⟨fun h => h.2.2, fun h => ⟨hp, ht, h⟩⟩
        rw [if_pos ht, or_and_ne_zero, hc, or_assoc]
      · have hc : ¬(s.buf p).Conflict (s.buf lb) := fun h => ht h.2.1
        rw [if_neg ht]
        simp only [hc, false_or]
  have h := hacc l 0 hd
  simpa [State.conflicts] using h

/-! ## The invariant -/

/-- The chains `q` stand for the work queue, which a walk over a chain writes
last. `stale` has the requests that the walk has not come to, and the one that
is being given back. -/
structure Inv (q : Nat → BitVec 32 → List Lb) (stale : List Lb) (s : State) : Prop where
  home : ∀ {d h lb}, lb ∈ q d h → (s.buf lb).bDev = d ∧ hdHash (s.buf lb) = h
  sorted : ∀ d h, (q d h).Pairwise (· < ·)
  arrived : ∀ {d h lb}, lb ∈ q d h → lb < s.next
  undone : ∀ {d h lb}, lb ∈ q d h → lb ∉ s.done
  queued : ∀ lb < s.next, lb ∉ s.done → lb ∉ stale → ∃ d h, lb ∈ q d h
  mark : ∀ {d h lb}, lb ∈ q d h → ((s.buf lb).bError = elbblocked ↔ lb ∉ s.released)
  reason : ∀ {d h lb}, lb ∈ q d h → (s.buf lb).bError = elbblocked → lb ∉ stale →
    ∃ i ∈ q d h, i < lb ∧ (s.buf i).Conflict (s.buf lb)
  ahead : ∀ {d h i j}, i ∈ q d h → j ∈ s.released → i < j → ¬(s.buf i).Conflict (s.buf j)
  old : ∀ lb, lb ∈ s.released ∨ lb ∈ s.done → lb < s.next
  held : ∀ lb, lb ∈ s.pendingQ ++ s.active ↔ lb ∈ s.released ∧ lb ∉ s.done
  once : (s.pendingQ ++ s.active).Nodup
  nodup : s.released.Nodup
  order : s.released.Pairwise fun i j => (s.buf i).Conflict (s.buf j) → i < j

section steps

variable {q : Nat → BitVec 32 → List Lb} {st : List Lb} {s s' : State} {lb : Lb} {d : Nat}
  {h : BitVec 32}

/-- Only what requests work on, their blocked marks on the chains and the queues
as sets matter. -/
theorem Inv.congr (hi : Inv q st s) (hkey : ∀ i, (s'.buf i).key = (s.buf i).key)
    (herr : ∀ {d h i}, i ∈ q d h → ((s'.buf i).bError = elbblocked ↔ (s.buf i).bError = elbblocked))
    (hn : s'.next = s.next) (hr : s'.released = s.released) (hd : s'.done = s.done)
    (hp : (s'.pendingQ ++ s'.active).Perm (s.pendingQ ++ s.active)) : Inv q st s' where
  home := by
    intro d h i hm
    obtain ⟨h1, h2⟩ := hi.home hm
    exact ⟨(congrArg Prod.fst (hkey i)).trans h1, (hdHash_congr (hkey i)).trans h2⟩
  sorted := hi.sorted
  arrived hm := by rw [hn]; exact hi.arrived hm
  undone hm := by rw [hd]; exact hi.undone hm
  queued := by rw [hn, hd]; exact hi.queued
  mark hm := by rw [hr, herr hm]; exact hi.mark hm
  reason hm hb hs := by
    obtain ⟨i, him, hlt, hc⟩ := hi.reason hm ((herr hm).mp hb) hs
    exact ⟨i, him, hlt, (conflict_congr (hkey _) (hkey _)).mpr hc⟩
  ahead him hj hlt hc := by
    rw [hr] at hj
    exact hi.ahead him hj hlt ((conflict_congr (hkey _) (hkey _)).mp hc)
  old := by rw [hr, hd, hn]; exact hi.old
  held i := by rw [hr, hd, hp.mem_iff]; exact hi.held i
  once := hp.nodup_iff.mpr hi.once
  nodup := by rw [hr]; exact hi.nodup
  order := by
    rw [hr]
    exact hi.order.imp fun hij hc => hij ((conflict_congr (hkey _) (hkey _)).mp hc)

theorem Inv.drop_stale (hi : Inv q (lb :: st) s)
    (hq : lb < s.next → lb ∉ s.done → ∃ d h, lb ∈ q d h)
    (hr : ∀ {d h}, lb ∈ q d h → (s.buf lb).bError = elbblocked →
      ∃ i ∈ q d h, i < lb ∧ (s.buf i).Conflict (s.buf lb)) : Inv q st s where
  home := hi.home
  sorted := hi.sorted
  arrived := hi.arrived
  undone := hi.undone
  queued i hn hd hs := by
    by_cases he : i = lb
    · subst he
      exact hq hn hd
    · exact hi.queued i hn hd (by simp [he, hs])
  mark := hi.mark
  reason := by
    intro d h i hm hb hs
    by_cases he : i = lb
    · subst he
      exact hr hm hb
    · exact hi.reason hm hb (by simp [he, hs])
  ahead := hi.ahead
  old := hi.old
  held := hi.held
  once := hi.once
  nodup := hi.nodup
  order := hi.order

/-- A blocked request that nothing before it is in the way of is released. -/
theorem Inv.release (hi : Inv q (lb :: st) s) (hm : lb ∈ q d h)
    (hb : (s.buf lb).bError = elbblocked)
    (hfree : ∀ i ∈ q d h, i < lb → ¬(s.buf i).Conflict (s.buf lb)) :
    Inv q st ((s.setBuf lb ((s.buf lb).setErrno 0)).release lb) := by
  have hnr : lb ∉ s.released := (hi.mark hm).mp hb
  have hkey : ∀ i, (((s.setBuf lb ((s.buf lb).setErrno 0)).release lb).buf i).key =
      (s.buf i).key := by
    intro i
    by_cases he : i = lb
    · subst he
      simp [State.release, State.setBuf]
    · simp [State.release, State.setBuf, Function.update_of_ne he]
  have herr : ∀ i, i ≠ lb → ((s.setBuf lb ((s.buf lb).setErrno 0)).release lb).buf i =
      s.buf i := fun i he => Function.update_of_ne he _ _
  have hlb : (((s.setBuf lb ((s.buf lb).setErrno 0)).release lb).buf lb).bError ≠
      elbblocked := by
    simp [State.release, State.setBuf, elbblocked]
  constructor
  case home =>
    intro d' h' i him
    obtain ⟨h1, h2⟩ := hi.home him
    exact ⟨(congrArg Prod.fst (hkey i)).trans h1, (hdHash_congr (hkey i)).trans h2⟩
  case sorted => exact hi.sorted
  case arrived => exact hi.arrived
  case undone => exact hi.undone
  case queued =>
    intro i hn hd hs
    by_cases he : i = lb
    · exact ⟨d, h, he ▸ hm⟩
    · exact hi.queued i hn hd (by simp [he, hs])
  case mark =>
    intro d' h' i him
    change _ ↔ i ∉ s.released ++ [lb]
    by_cases he : i = lb
    · subst he
      simp [hlb]
    · rw [herr i he, hi.mark him]
      simp [he]
  case reason =>
    intro d' h' i him hbi hs
    have he : i ≠ lb := fun he => hlb (he ▸ hbi)
    rw [herr i he] at hbi
    obtain ⟨k, hk, hlt, hc⟩ := hi.reason him hbi (by simp [he, hs])
    exact ⟨k, hk, hlt, (conflict_congr (hkey _) (hkey _)).mpr hc⟩
  case ahead =>
    intro d' h' i j him hj hlt hc
    have hc' := (conflict_congr (hkey _) (hkey _)).mp hc
    rcases List.mem_append.mp hj with hj | hj
    · exact hi.ahead him hj hlt hc'
    · obtain rfl := List.mem_singleton.mp hj
      obtain ⟨rfl, rfl⟩ := hi.home him
      obtain ⟨rfl, rfl⟩ := hi.home hm
      exact hfree i (by rw [← hc'.1, ← hdHash_of_conflict hc']; exact him) hlt hc'
  case old =>
    rintro i (hr | hd)
    · rcases List.mem_append.mp hr with hr | hr
      · exact hi.old i (.inl hr)
      · obtain rfl := List.mem_singleton.mp hr
        exact hi.arrived hm
    · exact hi.old i (.inr hd)
  case held =>
    intro i
    have hheld := hi.held i
    have hund := hi.undone hm
    change i ∈ (s.pendingQ ++ [lb]) ++ s.active ↔ i ∈ s.released ++ [lb] ∧ i ∉ s.done
    simp only [List.mem_append, List.mem_singleton] at hheld ⊢
    constructor
    · rintro ((hp | rfl) | ha)
      · exact ⟨.inl (hheld.mp (.inl hp)).1, (hheld.mp (.inl hp)).2⟩
      · exact ⟨.inr rfl, hund⟩
      · exact ⟨.inl (hheld.mp (.inr ha)).1, (hheld.mp (.inr ha)).2⟩
    · rintro ⟨hr | rfl, hd⟩
      · rcases hheld.mpr ⟨hr, hd⟩ with hp | ha
        · exact .inl (.inl hp)
        · exact .inr ha
      · exact .inl (.inr rfl)
  case once =>
    have hnot : lb ∉ s.pendingQ ++ s.active := fun hin => hnr ((hi.held lb).mp hin).1
    have hperm : ((s.pendingQ ++ [lb]) ++ s.active).Perm (lb :: (s.pendingQ ++ s.active)) := by
      rw [List.append_assoc]
      exact List.perm_middle
    exact hperm.nodup_iff.mpr (List.nodup_cons.mpr ⟨hnot, hi.once⟩)
  case nodup =>
    exact List.nodup_append.mpr ⟨hi.nodup, List.nodup_singleton lb,
      fun i hin j hj he => hnr (List.mem_singleton.mp hj ▸ he ▸ hin)⟩
  case order =>
    change (s.released ++ [lb]).Pairwise _
    rw [List.pairwise_append]
    refine ⟨hi.order.imp fun hij hc => hij ((conflict_congr (hkey _) (hkey _)).mp hc),
      List.pairwise_singleton _ _, ?_⟩
    intro i hin j hj hc
    obtain rfl := List.mem_singleton.mp hj
    have hc' := (conflict_congr (hkey _) (hkey _)).mp hc
    by_contra hge
    have hne : i ≠ j := fun he => hnr (he ▸ hin)
    exact hi.ahead hm hin (lt_of_le_of_ne (not_lt.mp hge) hne.symm) hc'.symm

/-- Taking `lb` out of its chain puts the marks of newer requests in question. -/
theorem Inv.unlink {q' : Nat → BitVec 32 → List Lb} {st' : List Lb} (hi : Inv q st s) (lb : Lb)
    (hsub : ∀ d h, (q' d h).Sublist (q d h)) (hno : ∀ d h, lb ∉ q' d h)
    (hkeep : ∀ {d h i}, i ∈ q d h → i ≠ lb → i ∈ q' d h) (hst : ∀ i ∈ st, i ∈ st')
    (hlb : lb ∈ st') (hnew : ∀ {d h i}, lb ∈ q d h → i ∈ q' d h → lb < i → i ∈ st') :
    Inv q' st' s where
  home hm := hi.home ((hsub _ _).mem hm)
  sorted d h := (hi.sorted d h).sublist (hsub d h)
  arrived hm := hi.arrived ((hsub _ _).mem hm)
  undone hm := hi.undone ((hsub _ _).mem hm)
  queued i hn hd hs := by
    obtain ⟨d, h, hm⟩ := hi.queued i hn hd fun hin => hs (hst i hin)
    exact ⟨d, h, hkeep hm fun he => hs (he ▸ hlb)⟩
  mark hm := hi.mark ((hsub _ _).mem hm)
  reason hm hb hs := by
    obtain ⟨k, hk, hlt, hc⟩ := hi.reason ((hsub _ _).mem hm) hb fun hin => hs (hst _ hin)
    refine ⟨k, hkeep hk ?_, hlt, hc⟩
    rintro rfl
    exact hs (hnew hk hm hlt)
  ahead him hj hlt := hi.ahead ((hsub _ _).mem him) hj hlt
  old := hi.old
  held := hi.held
  once := hi.once
  nodup := hi.nodup
  order := hi.order

/-- A request that is off the chains is given back. -/
theorem Inv.finish (hi : Inv q (lb :: st) s) (hno : ∀ d h, lb ∉ q d h) (hn : lb < s.next)
    (hp : lb ∉ s.pendingQ) :
    Inv q st ({ s with active := s.active.erase lb }.iodone lb) where
  home := hi.home
  sorted := hi.sorted
  arrived := hi.arrived
  undone := by
    intro d h i hm hd
    rcases List.mem_append.mp hd with hd | hd
    · exact hi.undone hm hd
    · exact hno d h (List.mem_singleton.mp hd ▸ hm)
  queued := by
    intro i hin hd hs
    have hne : i ≠ lb := fun he => hd (by simp [State.iodone, he])
    exact hi.queued i hin (fun h => hd (List.mem_append_left _ h)) (by simp [hne, hs])
  mark := hi.mark
  reason := by
    intro d h i hm hb hs
    have hne : i ≠ lb := fun he => hno d h (he ▸ hm)
    exact hi.reason hm hb (by simp [hne, hs])
  ahead := hi.ahead
  old := by
    rintro i (hr | hd)
    · exact hi.old i (.inl hr)
    · rcases List.mem_append.mp hd with hd | hd
      · exact hi.old i (.inr hd)
      · exact List.mem_singleton.mp hd ▸ hn
  held := by
    intro i
    have hheld := hi.held i
    have hnd := (List.nodup_append.mp hi.once).2.1
    change i ∈ s.pendingQ ++ s.active.erase lb ↔ i ∈ s.released ∧ i ∉ s.done ++ [lb]
    by_cases he : i = lb
    · subst he
      simp [hp, hnd.not_mem_erase]
    · simp only [List.mem_append, List.mem_erase_of_ne he, List.mem_singleton, he, or_false] at hheld ⊢
      exact hheld
  once := hi.once.sublist (List.erase_sublist.append_left _)
  nodup := hi.nodup
  order := hi.order

/-! ## The walk -/

theorem Inv.setChain (hi : Inv q st s) (d : Nat) (h : BitVec 32) (l : List Lb) :
    Inv q st (s.setChain d h l) :=
  hi.congr (fun _ => rfl) (fun _ => Iff.rfl) rfl rfl rfl (List.Perm.refl _)

/-- The chains with one of them replaced. -/
def putChain (q : Nat → BitVec 32 → List Lb) (d : Nat) (h : BitVec 32) (l : List Lb) :
    Nat → BitVec 32 → List Lb := fun d' h' => if d' = d ∧ h' = h then l else q d' h'

variable {l older rest : List Lb} {x i : Lb} {d' : Nat} {h' : BitVec 32}

@[simp] theorem putChain_self : putChain q d h l d h = l := by simp [putChain]

@[simp] theorem putChain_eq : putChain q d h (q d h) = q := by
  funext d' h'
  by_cases he : d' = d ∧ h' = h
  · obtain ⟨rfl, rfl⟩ := he
    simp
  · simp [putChain, he]

theorem mem_putChain_append : i ∈ putChain q d h (q d h ++ [x]) d' h' ↔
    i ∈ q d' h' ∨ i = x ∧ d' = d ∧ h' = h := by
  by_cases he : d' = d ∧ h' = h
  · obtain ⟨rfl, rfl⟩ := he
    simp
  · simp [putChain, he]

theorem Inv.lt_of_mem (hi : Inv (putChain q d h (older ++ lb :: rest)) st s) :
    (∀ i ∈ older, i < lb) ∧ ∀ i ∈ rest, lb < i := by
  have hs := hi.sorted d h
  rw [putChain_self, List.pairwise_append] at hs
  exact ⟨fun i hin => hs.2.2 i hin lb List.mem_cons_self, (List.pairwise_cons.mp hs.2.1).1⟩

theorem Inv.unlink_mid (hi : Inv (putChain q d h (older ++ lb :: rest)) st s)
    (hst : ∀ i ∈ st, i ∈ lb :: (rest ++ [x])) :
    Inv (putChain q d h (older ++ rest)) (lb :: (rest ++ [x])) s := by
  obtain ⟨hbefore, hafter⟩ := hi.lt_of_mem
  have hmem : ∀ {d' h'}, lb ∈ putChain q d h (older ++ lb :: rest) d' h' → d' = d ∧ h' = h := by
    intro d' h' hm
    have hlb := hi.home hm
    have hin : lb ∈ putChain q d h (older ++ lb :: rest) d h := by simp
    have hlb' := hi.home hin
    exact ⟨hlb.1.symm.trans hlb'.1, hlb.2.symm.trans hlb'.2⟩
  apply hi.unlink lb
  · intro d' h'
    unfold putChain
    split
    next => exact (List.sublist_cons_self lb rest).append_left older
    next => exact List.Sublist.refl _
  · intro d' h' hm
    by_cases he : d' = d ∧ h' = h
    · obtain ⟨rfl, rfl⟩ := he
      rw [putChain_self] at hm
      rcases List.mem_append.mp hm with hm | hm
      · exact (hbefore lb hm).false
      · exact (hafter lb hm).false
    · apply he
      apply hmem
      simpa [putChain, he] using hm
  · intro d' h' i hm hne
    by_cases he : d' = d ∧ h' = h
    · obtain ⟨rfl, rfl⟩ := he
      simpa [hne] using hm
    · simpa [putChain, he] using hm
  · exact hst
  · exact List.mem_cons_self
  · intro d' h' i hm him hlt
    obtain ⟨rfl, rfl⟩ := hmem hm
    rw [putChain_self] at him
    rcases List.mem_append.mp him with him | him
    · exact absurd hlt (lt_asymm (hbefore i him))
    · simp [him]

theorem clearInflight_frame (lb : Lb) (s : State) :
    (∀ i, ((clearInflight lb s).buf i).key = (s.buf i).key) ∧
    (∀ i, ((clearInflight lb s).buf i).bError = (s.buf i).bError) ∧
    (clearInflight lb s).next = s.next ∧ (clearInflight lb s).workQ = s.workQ ∧
    (clearInflight lb s).released = s.released ∧ (clearInflight lb s).done = s.done ∧
    (clearInflight lb s).pendingQ = s.pendingQ ∧ (clearInflight lb s).active = s.active := by
  unfold clearInflight
  split
  next =>
    refine ⟨?_, ?_, rfl, rfl, rfl, rfl, rfl, rfl⟩
    all_goals
      intro i
      by_cases he : i = lb
      · subst he
        simp [State.setBuf, Buf.key]
      · simp [State.setBuf, Function.update_of_ne he]
  next => exact ⟨fun _ => rfl, fun _ => rfl, rfl, rfl, rfl, rfl, rfl, rfl⟩

theorem Inv.clearInflight (hi : Inv q st s) (lb : Lb) : Inv q st (Strategy.clearInflight lb s) := by
  obtain ⟨h1, h2, h3, -, h5, h6, h7, h8⟩ := clearInflight_frame lb s
  apply hi.congr h1 _ h3 h5 h6
  · rw [h7, h8]
  · intro _ _ i _
    rw [h2]

/-- A request off the chains may get any result. -/
theorem Inv.setBuf (hi : Inv q st s) {b : Buf} (hb : b.key = (s.buf lb).key)
    (hno : ∀ d h, lb ∉ q d h) : Inv q st (s.setBuf lb b) := by
  apply hi.congr
  · intro i
    by_cases he : i = lb
    · subst he
      simp [State.setBuf, hb]
    · simp [State.setBuf, Function.update_of_ne he]
  · intro d h i hm
    have he : i ≠ lb := fun he => hno d h (he ▸ hm)
    simp [State.setBuf, Function.update_of_ne he]
  · rfl
  · rfl
  · rfl
  · exact List.Perm.refl _

theorem Inv.giveBack (hi : Inv q (lb :: st) s) (hno : ∀ d h, lb ∉ q d h) (ha : lb ∈ s.active) :
    Inv q st (giveBack lb s) := by
  have hp : lb ∉ s.pendingQ :=
    fun hp => (List.nodup_append.mp hi.once).2.2 lb hp lb ha rfl
  have hn : lb < s.next := hi.old lb (.inl ((hi.held lb).mp (List.mem_append_right _ ha)).1)
  unfold Strategy.giveBack
  by_cases he : (s.buf lb).error = true ∧ (s.buf lb).bError = esoft
  · simp only [if_pos he]
    exact (hi.setBuf (b := { s.buf lb with bError := eio, bResid := (s.buf lb).bBcount })
      rfl hno).finish hno hn hp
  · simp only [if_neg he]
    exact hi.finish hno hn hp

theorem giveBack_workQ (lb : Lb) (s : State) : (giveBack lb s).workQ = s.workQ := by
  unfold giveBack
  simp only
  split <;> rfl

/-- A blocked request is taken out and given back. -/
theorem Inv.errorOff (hi : Inv (putChain q d h (older ++ lb :: rest)) (lb :: (rest ++ [x])) s)
    (hb : (s.buf lb).bError = elbblocked) :
    Inv (putChain q d h (older ++ rest)) (rest ++ [x]) (errorOff lb s) := by
  have hm : lb ∈ putChain q d h (older ++ lb :: rest) d h := by simp
  have hnr := (hi.mark hm).mp hb
  have hnot : lb ∉ s.pendingQ ++ s.active := fun hin => hnr ((hi.held lb).mp hin).1
  have hu := hi.unlink_mid (x := x) (fun i hin => hin)
  have hno : ∀ d' h', lb ∉ putChain q d h (older ++ rest) d' h' := by
    intro d' h' hin
    obtain ⟨hbefore, hafter⟩ := hi.lt_of_mem
    by_cases he : d' = d ∧ h' = h
    · obtain ⟨rfl, rfl⟩ := he
      rw [putChain_self] at hin
      rcases List.mem_append.mp hin with hin | hin
      · exact (hbefore lb hin).false
      · exact (hafter lb hin).false
    · have hl := hu.home hin
      have hl' := hi.home hm
      exact he ⟨hl.1.symm.trans hl'.1, hl.2.symm.trans hl'.2⟩
  have hc := (hu.clearInflight lb).setBuf (b := { (Strategy.clearInflight lb s).buf lb with
    error := true, bError := eio, bResid := ((Strategy.clearInflight lb s).buf lb).bBcount }) rfl hno
  obtain ⟨-, -, h3, -, -, -, h7, h8⟩ := clearInflight_frame lb s
  have hf := hc.finish hno (h3.symm ▸ hi.arrived hm) (h7.symm ▸ fun hp => hnot (List.mem_append_left _ hp))
  rw [List.erase_of_not_mem] at hf
  · exact hf
  · exact h8.symm ▸ fun ha => hnot (List.mem_append_right _ ha)

theorem Inv.weaken {st' : List Lb} (hi : Inv q st s) (h : ∀ i ∈ st, i ∈ st') : Inv q st' s where
  home := hi.home
  sorted := hi.sorted
  arrived := hi.arrived
  undone := hi.undone
  queued i hn hd hs := hi.queued i hn hd fun hin => hs (h i hin)
  mark := hi.mark
  reason hm hb hs := hi.reason hm hb fun hin => hs (h _ hin)
  ahead := hi.ahead
  old := hi.old
  held := hi.held
  once := hi.once
  nodup := hi.nodup
  order := hi.order

theorem unblockNewer_sublist (older rest : List Lb) (s : State) :
    (unblockNewer older rest s).2.Sublist (older ++ rest) := by
  induction rest generalizing older s with
  | nil => simp [unblockNewer]
  | cons lb rest ih =>
    have hkeep : ∀ t, (unblockNewer (older ++ [lb]) rest t).2.Sublist (older ++ lb :: rest) := by
      intro t
      simpa using ih (older ++ [lb]) t
    unfold unblockNewer
    split
    next =>
      split
      next => exact (ih older _).trans ((List.sublist_cons_self lb rest).append_left older)
      next => exact hkeep _
    next => exact hkeep s

theorem unblockNewer_frame (older rest : List Lb) (s : State) :
    (unblockNewer older rest s).1.workQ = s.workQ ∧ (unblockNewer older rest s).1.active = s.active ∧
      (unblockNewer older rest s).1.next = s.next := by
  induction rest generalizing older s with
  | nil => exact ⟨rfl, rfl, rfl⟩
  | cons lb rest ih =>
    unfold unblockNewer
    split
    next =>
      split
      next =>
        obtain ⟨-, -, hn, hq, -, -, -, ha⟩ := clearInflight_frame lb s
        obtain ⟨h1, h2, h3⟩ := ih older (errorOff lb s)
        exact ⟨h1.trans hq, h2.trans ha, h3.trans hn⟩
      next =>
        have hf : (hdUnblock older lb s).workQ = s.workQ ∧ (hdUnblock older lb s).active = s.active ∧
            (hdUnblock older lb s).next = s.next := by
          unfold hdUnblock
          split <;> exact ⟨rfl, rfl, rfl⟩
        obtain ⟨h1, h2, h3⟩ := ih (older ++ [lb]) (hdUnblock older lb s)
        exact ⟨h1.trans hf.1, h2.trans hf.2.1, h3.trans hf.2.2⟩
    next => exact ih (older ++ [lb]) s

/-- The walk brings every mark of the chain up to date. -/
theorem Inv.unblockNewer (hi : Inv (putChain q d h (older ++ rest)) (rest ++ [x]) s) :
    Inv (putChain q d h (unblockNewer older rest s).2) [x] (unblockNewer older rest s).1 := by
  induction rest generalizing older s with
  | nil => simpa [Strategy.unblockNewer] using hi
  | cons lb rest ih =>
    have hm : lb ∈ putChain q d h (older ++ lb :: rest) d h := by simp
    obtain ⟨hbefore, hafter⟩ := hi.lt_of_mem
    have hassoc : older ++ lb :: rest = (older ++ [lb]) ++ rest := by simp
    unfold Strategy.unblockNewer
    by_cases hb : (s.buf lb).bError = elbblocked
    · rw [if_pos hb]
      by_cases hforce : s.vg.forcedOff = true
      · rw [if_pos hforce]
        exact ih (hi.errorOff hb)
      · rw [if_neg hforce]
        apply ih
        rw [← hassoc]
        have hconf := conflicts_ne_zero s lb older (by
          intro i hin
          have h1 := @Inv.home _ _ _ hi d h i (by simp [hin])
          exact h1.1.trans (hi.home hm).1.symm)
        unfold hdUnblock
        by_cases hz : s.conflicts lb older &&& (s.buf lb).bWork = 0
        · rw [if_pos hz]
          apply hi.release hm hb
          intro i hin hlt hc
          rw [putChain_self] at hin
          rcases List.mem_append.mp hin with hin | hin
          · exact hconf.mpr ⟨i, hin, hc⟩ hz
          · rcases List.mem_cons.mp hin with rfl | hin
            · exact hlt.false
            · exact absurd hlt (lt_asymm (hafter i hin))
        · rw [if_neg hz]
          obtain ⟨i, hin, hc⟩ := hconf.mp hz
          apply hi.drop_stale
          · exact fun _ _ => ⟨d, h, hm⟩
          · intro d' h' hm' _
            obtain ⟨rfl, rfl⟩ := hi.home hm
            obtain ⟨rfl, rfl⟩ := hi.home hm'
            exact ⟨i, by simp [hin], hbefore i hin, hc⟩
    · rw [if_neg hb]
      apply ih
      rw [← hassoc]
      exact hi.drop_stale (fun _ _ => ⟨d, h, hm⟩) fun _ hb' => absurd hb' hb

/-! ## The steps -/

theorem split_chain {lb : Lb} {l : List Lb} (h : lb ∈ l) :
    l.takeWhile (· ≠ lb) ++ lb :: (l.dropWhile (· ≠ lb)).tail = l := by
  induction l with
  | nil => simp at h
  | cons i l ih =>
    by_cases he : i = lb
    · subst he
      simp
    · have hl : lb ∈ l := (List.mem_cons.mp h).resolve_left fun h => he h.symm
      simpa [he] using ih hl

/-- A new request joins its chain. -/
theorem Inv.arrive (hi : Inv q [] s) (vg : Volgrp) (b : Buf) :
    Inv (putChain q b.bDev (hdHash b) (q b.bDev (hdHash b) ++ [s.next])) [s.next]
      ((s.number vg).setBuf s.next (b.setErrno elbblocked)) := by
  have hold : ∀ i, i < s.next →
      ((s.number vg).setBuf s.next (b.setErrno elbblocked)).buf i = s.buf i :=
    fun i hlt => Function.update_of_ne hlt.ne _ _
  have hnew : ((s.number vg).setBuf s.next (b.setErrno elbblocked)).buf s.next =
      b.setErrno elbblocked := Function.update_self _ _ _
  have hnr : s.next ∉ s.released := fun hin => (hi.old _ (.inl hin)).false
  have hnd : s.next ∉ s.done := fun hin => (hi.old _ (.inr hin)).false
  constructor
  case home =>
    intro d h i hm
    rcases mem_putChain_append.mp hm with hm | ⟨rfl, rfl, rfl⟩
    · rw [hold i (hi.arrived hm)]
      exact hi.home hm
    · rw [hnew]
      exact ⟨rfl, rfl⟩
  case sorted =>
    intro d h
    by_cases he : d = b.bDev ∧ h = hdHash b
    · obtain ⟨rfl, rfl⟩ := he
      rw [putChain_self, List.pairwise_append]
      refine ⟨hi.sorted _ _, List.pairwise_singleton _ _, ?_⟩
      intro i hin j hj
      exact List.mem_singleton.mp hj ▸ hi.arrived hin
    · simpa [putChain, he] using hi.sorted d h
  case arrived =>
    intro d h i hm
    change i < s.next + 1
    rcases mem_putChain_append.mp hm with hm | ⟨rfl, -, -⟩
    · exact (hi.arrived hm).trans (Nat.lt_succ_self _)
    · exact Nat.lt_succ_self _
  case undone =>
    intro d h i hm
    rcases mem_putChain_append.mp hm with hm | ⟨rfl, -, -⟩
    · exact hi.undone hm
    · exact hnd
  case queued =>
    intro i hlt hd hs
    have hne : i ≠ s.next := by simpa using hs
    have hlt' : i < s.next := lt_of_le_of_ne (Nat.lt_succ_iff.mp hlt) hne
    obtain ⟨d, h, hm⟩ := hi.queued i hlt' hd (by simp)
    exact ⟨d, h, mem_putChain_append.mpr (.inl hm)⟩
  case mark =>
    intro d h i hm
    rcases mem_putChain_append.mp hm with hm | ⟨rfl, -, -⟩
    · rw [hold i (hi.arrived hm)]
      exact hi.mark hm
    · rw [hnew]
      exact iff_of_true rfl hnr
  case reason =>
    intro d h i hm hbi hs
    have hne : i ≠ s.next := by simpa using hs
    have hm := (mem_putChain_append.mp hm).resolve_right fun h => hne h.1
    rw [hold i (hi.arrived hm)] at hbi ⊢
    obtain ⟨k, hk, hlt, hc⟩ := hi.reason hm hbi (by simp)
    refine ⟨k, mem_putChain_append.mpr (.inl hk), hlt, ?_⟩
    rw [hold k (hi.arrived hk)]
    exact hc
  case ahead =>
    intro d h i j hm hj hlt
    have hjn := hi.old j (.inl hj)
    rcases mem_putChain_append.mp hm with hm | ⟨rfl, -, -⟩
    · rw [hold i (hi.arrived hm), hold j hjn]
      exact hi.ahead hm hj hlt
    · exact absurd hlt (lt_asymm hjn)
  case old => exact fun i h => (hi.old i h).trans (Nat.lt_succ_self _)
  case held => exact hi.held
  case once => exact hi.once
  case nodup => exact hi.nodup
  case order =>
    apply hi.order.imp_of_mem
    intro i j him hj hij
    rw [hold i (hi.old i (.inl him)), hold j (hi.old j (.inl hj))]
    exact hij

/-- A request that fails validation is given back at once. -/
theorem Inv.refuse (hi : Inv q [] s) (vg : Volgrp) (b : Buf) :
    Inv q [] (((s.number vg).setBuf s.next b).iodone s.next) := by
  have ha := hi.arrive vg b
  have hnr : s.next ∉ s.pendingQ ++ s.active :=
    fun hin => (hi.old _ (.inl ((hi.held _).mp hin).1)).false
  have hno : ∀ d h, s.next ∉ q d h := fun d h hm => (hi.arrived hm).false
  have hu : Inv q [s.next]
      ((s.number vg).setBuf s.next (b.setErrno elbblocked)) := by
    apply ha.unlink s.next _ hno
    · exact fun hm hne => (mem_putChain_append.mp hm).resolve_right fun h => hne h.1
    · exact fun i hin => hin
    · exact List.mem_cons_self
    · exact fun _ hm hlt => absurd (hi.arrived hm) (lt_asymm hlt)
    · intro d h
      by_cases he : d = b.bDev ∧ h = hdHash b
      · obtain ⟨rfl, rfl⟩ := he
        rw [putChain_self]
        exact List.sublist_append_left _ _
      · simp [putChain, he]
  have hf := hu.finish hno (Nat.lt_succ_self s.next) fun hp => hnr (List.mem_append_left _ hp)
  apply hf.congr
  · intro i
    by_cases he : i = s.next
    · subst he
      simp [State.iodone, State.setBuf]
    · simp [State.iodone, State.setBuf, Function.update_of_ne he]
  · intro d h i hm
    have hne : i ≠ s.next := fun he => hno d h (he ▸ hm)
    simp [State.iodone, State.setBuf, Function.update_of_ne hne]
  · rfl
  · rfl
  · rfl
  · change (s.pendingQ ++ s.active).Perm (s.pendingQ ++ s.active.erase s.next)
    rw [List.erase_of_not_mem fun ha => hnr (List.mem_append_right _ ha)]

theorem validateReq_bError (vg : Volgrp) (b : Buf) (hs : (validateReq vg b).2.2 = .schedule) :
    (validateReq vg b).2.1 = { b with bWork := b.pageMask } := by
  unfold validateReq at hs ⊢
  split at hs
  next => cases hs
  next lv _ =>
    simp only at hs ⊢
    split_ifs at hs ⊢ <;> try cases hs
    · split at hs
      next => cases hs
      next => rfl
    · rfl

/-- A request that passes validation is queued: blocked, or released. -/
theorem Inv.serialize (hi : Inv s.workQ [] s) (vg : Volgrp) (b : Buf)
    (hb : b.bError ≠ elbblocked) {t u : State}
    (ht : t = serializeDataAccess s.next ((s.number vg).setBuf s.next b))
    (hu : u = if (t.buf s.next).bError ≠ elbblocked then
      (t.setBuf s.next ((t.buf s.next).setErrno 0)).release s.next else t) :
    Inv u.workQ [] u := by
  have ha := hi.arrive vg b
  have hm : s.next ∈ putChain s.workQ b.bDev (hdHash b) (s.workQ b.bDev (hdHash b) ++ [s.next])
      b.bDev (hdHash b) := by simp
  have hbuf : ((s.number vg).setBuf s.next b).buf s.next = b := Function.update_self _ _ _
  have hbuf' : ((s.number vg).setBuf s.next (b.setErrno elbblocked)).buf s.next =
      b.setErrno elbblocked := Function.update_self _ _ _
  have hold : ∀ c, ∀ i ∈ s.workQ b.bDev (hdHash b),
      ((s.number vg).setBuf s.next c).buf i = s.buf i :=
    fun c i hin => Function.update_of_ne (hi.arrived hin).ne _ _
  have hconf : ((s.number vg).setBuf s.next b).conflicts s.next (s.workQ b.bDev (hdHash b)) &&&
      b.bWork ≠ 0 ↔ ∃ i ∈ s.workQ b.bDev (hdHash b), (s.buf i).Conflict b := by
    have hc := conflicts_ne_zero ((s.number vg).setBuf s.next b) s.next (s.workQ b.bDev (hdHash b))
    rw [hbuf] at hc
    rw [hc fun i hin => (congrArg Buf.bDev (hold b i hin)).trans (hi.home hin).1]
    constructor
    · rintro ⟨i, hin, h⟩
      exact ⟨i, hin, hold b i hin ▸ h⟩
    · rintro ⟨i, hin, h⟩
      exact ⟨i, hin, (hold b i hin).symm ▸ h⟩
  by_cases hz : ((s.number vg).setBuf s.next b).conflicts s.next (s.workQ b.bDev (hdHash b)) &&&
      b.bWork = 0
  · have hte : t = ((s.number vg).setBuf s.next b).setChain b.bDev (hdHash b)
        (s.workQ b.bDev (hdHash b) ++ [s.next]) := by
      rw [ht]
      unfold serializeDataAccess State.chain
      simp only [hbuf]
      exact if_neg (not_not.mpr hz)
    have htb : t.buf s.next = b := hte ▸ hbuf
    rw [htb, if_pos hb] at hu
    have hr := ha.release hm (by rw [hbuf']; rfl) (by
      intro i hin hlt hc
      rcases mem_putChain_append.mp hin with hin | ⟨rfl, -, -⟩
      · rw [hbuf', hold _ i hin] at hc
        exact hconf.mpr ⟨i, hin, hc⟩ hz
      · exact hlt.false)
    have hbufs : ∀ i, u.buf i = Function.update s.buf s.next (b.setErrno 0) i := by
      intro i
      rw [hu, hte]
      simp [State.release, State.setBuf, State.setChain, State.number]
    have hq : u.workQ = putChain s.workQ b.bDev (hdHash b)
        (s.workQ b.bDev (hdHash b) ++ [s.next]) := by
      rw [hu, hte]
      rfl
    rw [hq]
    rw [hbuf'] at hr
    apply hr.congr
    · intro i
      rw [hbufs]
      simp [State.release, State.setBuf, State.number]
    · intro d h i _
      rw [hbufs]
      simp [State.release, State.setBuf, State.number]
    all_goals rw [hu, hte]; rfl
  · have hte : t = (((s.number vg).setBuf s.next b).setChain b.bDev (hdHash b)
        (s.workQ b.bDev (hdHash b) ++ [s.next])).setBuf s.next (b.setErrno elbblocked) := by
      rw [ht]
      unfold serializeDataAccess State.chain
      simp only [hbuf]
      exact if_pos hz
    have htb : t.buf s.next = b.setErrno elbblocked := by
      rw [hte]
      exact Function.update_self _ _ _
    rw [htb, setErrno_bError, if_neg fun h => h rfl] at hu
    obtain ⟨k, hk, hc⟩ := hconf.mp hz
    have hd := ha.drop_stale (fun _ _ => ⟨_, _, hm⟩) (by
      intro d h hm' _
      obtain ⟨h1, h2⟩ := ha.home hm'
      rw [hbuf'] at h1 h2
      refine ⟨k, mem_putChain_append.mpr (.inl (h1 ▸ h2 ▸ hk)), hi.arrived hk, ?_⟩
      rw [hbuf', hold _ k hk]
      exact hc)
    have hq : u.workQ = putChain s.workQ b.bDev (hdHash b)
        (s.workQ b.bDev (hdHash b) ++ [s.next]) := by
      rw [hu, hte]
      rfl
    rw [hq]
    have hbufs : ∀ i, u.buf i = Function.update s.buf s.next (b.setErrno elbblocked) i := by
      intro i
      rw [hu, hte]
      simp [State.setBuf, State.setChain, State.number]
    apply hd.congr
    · intro i
      rw [hbufs]
      simp [State.setBuf, State.number]
    · intro d h i _
      rw [hbufs]
      simp [State.setBuf, State.number]
    all_goals rw [hu, hte]; rfl

theorem Inv.initiateOne (hi : Inv s.workQ [] s) (b : Buf) (hb : b.bError ≠ elbblocked) :
    Inv (initiateOne s b).workQ [] (initiateOne s b) := by
  unfold Strategy.initiateOne
  cases hv : (validateReq s.vg b).2.2 with
  | giveBack =>
    simp only [hv]
    exact hi.refuse _ _
  | schedule =>
    have hbe := validateReq_bError s.vg b hv
    simp only [hv]
    apply hi.serialize (validateReq s.vg b).1 _ _ rfl rfl
    rw [hbe]
    exact hb

end steps

end Aix413.Lvm.Strategy
