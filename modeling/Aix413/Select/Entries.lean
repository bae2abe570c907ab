import Aix413.Select.Reported
import Mathlib.Algebra.Order.BigOperators.Group.Finset

namespace Aix413.Select

variable {a : Args} {env : Env} {elem e n : Nat} {u v w : Which} {s s' : Sel} {l d : List Which}

/-! ## The call an entry is polled with -/

theorem later_asymm (h : v ∈ later w) : w ∉ later v := by
  revert h
  cases v <;> cases w <;> decide

theorem owner_cases (hw : a.present w) :
    owner a elem w = w ∨ w ∈ later (owner a elem w) := by
  unfold owner
  split_ifs <;> cases w <;> simp_all [later]

theorem Wanted.owner (h : Wanted a elem w) :
    Wanted a elem (owner a elem w) ∧ a.ids (owner a elem w) elem = a.ids w elem := by
  unfold Select.owner
  split_ifs with hr hw
  · exact ⟨⟨hr.1, hr.2 ▸ h.2⟩, hr.2⟩
  · exact ⟨⟨hw.1, hw.2 ▸ h.2⟩, hw.2⟩
  · exact ⟨h, rfl⟩

theorem owner_eq (hv : a.present v) (hw : a.present w) (h : a.ids v elem = a.ids w elem) :
    owner a elem v = owner a elem w := by
  unfold owner
  rw [h]
  split_ifs with h1 h2
  · rfl
  · rfl
  · cases v <;> cases w <;> simp_all

theorem owner_eq_iff (hv : Wanted a elem v) (hw : Wanted a elem w) :
    owner a elem v = owner a elem w ↔ a.ids v elem = a.ids w elem := by
  constructor
  · intro h
    rw [← hv.owner.2, ← hw.owner.2, h]
  · exact owner_eq hv.1 hw.1

theorem Wanted.owner_owner (h : Wanted a elem w) :
    Select.owner a elem (Select.owner a elem w) = Select.owner a elem w :=
  (owner_eq_iff h.owner.1 h).mpr h.owner.2

/-! ## One call -/

variable {q : Queue} {msgId : Int} {req rtn : Events} {chain : List SelCb}

theorem has_any (h : has req w.poll) : has req (pollIn ||| pollOut ||| pollPri) := by
  intro hz
  refine h ?_
  have hw : w.poll = (pollIn ||| pollOut ||| pollPri) &&& w.poll := by cases w <;> decide
  rw [hw, ← BitVec.and_assoc, hz]
  exact BitVec.zero_and ..

theorem has_ite_poll {p : Prop} [Decidable p] :
    has (if p then u.poll else 0) v.poll ↔ p ∧ u = v := by
  split <;> simp [*]

/-- What a call that goes on returns. -/
structure Selected (q : Queue) (msgId : Int) (elem : Nat) (req : Events) (chain : List SelCb)
    (r : Int × Events × List SelCb) : Prop where
  rtn : ∀ v, has r.2.1 v.poll ↔ has req v.poll ∧ Ready q v
  zero : (∀ v : Which, ¬has r.2.1 v.poll) → r.2.1 = 0
  chain : r.2.2 = if ¬has req pollSync ∧ r.2.1 = 0 then
    ⟨true, elem, msgId, req, q.notified⟩ :: chain else chain

theorem msgselect_selected (hreq : has req w.poll)
    (h : ¬((msgselect q msgId elem req chain).1 ≠ 0 ∧
      ((msgselect q msgId elem req chain).1 = EINVAL ∨
        (msgselect q msgId elem req chain).2.1 = 0))) :
    Selected q msgId elem req chain (msgselect q msgId elem req chain) := by
  unfold msgselect at h ⊢
  by_cases hvalid : q.valid
  · rw [if_pos hvalid] at h ⊢
    dsimp only at h ⊢
    rw [if_pos (has_any hreq)] at h ⊢
    have hrtn : ∀ v : Which, has ((if has req pollIn ∧ q.data then pollIn else 0) |||
        (if has req pollOut ∧ q.room then pollOut else 0)) v.poll ↔ has req v.poll ∧ Ready q v := by
      intro v
      rw [has_or]
      refine ((has_ite_poll (u := .read)).or (has_ite_poll (u := .write))).trans ?_
      cases v <;> simp [Ready, Which.poll]
    have hzero : (∀ v : Which, ¬has ((if has req pollIn ∧ q.data then pollIn else 0) |||
        (if has req pollOut ∧ q.room then pollOut else 0)) v.poll) →
        (if has req pollIn ∧ q.data then pollIn else 0) |||
        (if has req pollOut ∧ q.room then pollOut else 0) = 0 := by
      intro hall
      have hr := hall .read
      have hw := hall .write
      split_ifs at hr hw ⊢
      · exact absurd (by decide) hr
      · exact absurd (by decide) hr
      · exact absurd (by decide) hw
      · rfl
    generalize (if has req pollIn ∧ q.data then pollIn else 0) |||
      (if has req pollOut ∧ q.room then pollOut else 0) = rtn at h hrtn hzero ⊢
    by_cases hsync : ¬has req pollSync ∧ rtn = 0
    · rw [if_pos hsync] at h ⊢
      by_cases hstorage : q.storage
      · rw [if_pos hstorage] at h ⊢
        refine ⟨hrtn, hzero, ?_⟩
        rw [if_pos hsync, selreg, if_neg hsync.1]
      · rw [if_neg hstorage] at h
        exact absurd ⟨show EAGAIN ≠ 0 by decide, Or.inr hsync.2⟩ h
    · rw [if_neg hsync] at h ⊢
      exact ⟨hrtn, hzero, (if_neg hsync).symm⟩
  · rw [if_neg hvalid] at h
    exact absurd ⟨show EINVAL ≠ 0 by decide, Or.inl rfl⟩ h

theorem foldl_join (s : Sel) (elem : Nat) (w : Which) (l : List Which)
    (r : Events × (Which → Bool)) :
    (∀ v, has (l.foldl (join a s elem w) r).1 v.poll ↔ has r.1 v.poll ∨
      v ∈ l ∧ ¬r.2 v ∧ a.present v ∧ s.ids w elem = s.ids v elem) ∧
    (has (l.foldl (join a s elem w) r).1 pollSync ↔ has r.1 pollSync) ∧
    (∀ v, (l.foldl (join a s elem w) r).2 v ↔ r.2 v ∨
      v ∈ l ∧ a.present v ∧ s.ids w elem = s.ids v elem) := by
  induction l generalizing r with
  | nil => simp
  | cons x l ih =>
    obtain ⟨hreq, hsync, hdid⟩ := ih (join a s elem w r x)
    rw [List.foldl_cons]
    by_cases hx : ¬r.2 x ∧ a.present x ∧ s.ids w elem = s.ids x elem
    · have he : join a s elem w r x = (r.1 ||| x.poll, Function.update r.2 x true) := if_pos hx
      rw [he] at hreq hsync hdid ⊢
      refine ⟨fun v => ?_, by simpa using hsync, fun v => ?_⟩
      · rw [hreq, has_or, has_poll, List.mem_cons]
        by_cases hv : v = x
        · subst hv
          simp [hx]
        · simp [hv, Ne.symm hv]
      · rw [hdid, List.mem_cons]
        by_cases hv : v = x
        · subst hv
          simp [hx]
        · simp [hv]
    · have he : join a s elem w r x = r := if_neg hx
      rw [he] at hreq hsync hdid ⊢
      refine ⟨fun v => ?_, hsync, fun v => ?_⟩
      · rw [hreq, List.mem_cons]
        refine or_congr_right ⟨fun h => ⟨Or.inr h.1, h.2⟩, fun h => ⟨?_, h.2⟩⟩
        exact h.1.resolve_left fun hvx => hx (hvx ▸ h.2)
      · rw [hdid, List.mem_cons]
        constructor
        · exact Or.imp_right fun h => ⟨Or.inr h.1, h.2⟩
        · rintro (h | ⟨rfl | h, hv⟩)
          · exact Or.inl h
          · exact Or.inl (not_not.mp fun hn => hx ⟨hn, hv⟩)
          · exact Or.inr ⟨h, hv⟩

/-! ## The checks of one position -/

/-- A block's notice for a list. -/
def SelCb.Hit (cb : SelCb) (w : Which) : Prop := has (cb.reqevents &&& cb.rtnevents) w.poll

instance (cb : SelCb) (w : Which) : Decidable (cb.Hit w) := inferInstanceAs (Decidable (has _ _))

/-- The state before a position is done. -/
structure Fresh (a : Args) (env : Env) (elem : Nat) (s : Sel) : Prop where
  ids : ∀ w, s.ids w elem = a.ids w elem
  sync : KnownMsg a env elem ∧ s.reqevMsk = pollSync ∨ ¬KnownMsg a env elem ∧ s.reqevMsk = 0

theorem Fresh.known_iff (h : Fresh a env elem s) :
    has s.reqevMsk pollSync ↔ KnownMsg a env elem := by
  rcases h.sync with ⟨hk, hs⟩ | ⟨hk, hs⟩ <;> simp [hk, hs]

theorem Fresh.no_poll (h : Fresh a env elem s) : ¬has s.reqevMsk w.poll := by
  rcases h.sync with ⟨_, hs⟩ | ⟨_, hs⟩ <;> simp [hs]

/-- Blocks of calls at a position. -/
def At (a : Args) (elem : Nat) (cb : SelCb) : Prop :=
  cb.msg = true ∧ cb.corl = elem ∧ ∀ v, has cb.reqevents v.poll → cb.uniqueId = a.ids v elem

open Classical in
/-- After the checks of the lists in `d`. `reqevents` belongs to the last call made. -/
structure Checked (a : Args) (env : Env) (elem : Nat) (chain : List SelCb) (d : List Which)
    (t : Turn) : Prop where
  did : ∀ v, v ∉ d → (t.did v ↔ Wanted a elem v ∧ owner a elem v ∈ d)
  rtn : ∀ v, has t.rtnevents v.poll ↔ Reported a env elem v ∧ owner a elem v ∈ d
  zero : (∀ v : Which, ¬has t.rtnevents v.poll) → t.rtnevents = 0
  req : (∃ v, Wanted a elem v ∧ owner a elem v ∈ d) → ∀ v, has t.reqevents v.poll ↔
    Wanted a elem v ∧ owner a elem v ∈ d ∧
      ∀ u, Wanted a elem u → owner a elem u ∈ d → owner a elem u ∉ later (owner a elem v)
  chain : ∃ new, t.selchn = new ++ chain ∧ (∀ cb ∈ new, At a elem cb) ∧
    ∀ v, new.countP (fun cb => cb.Hit v) =
      if NotifiedMsg a env elem v ∧ owner a elem v ∈ d then 1 else 0

/-- Everything an entry needs to be polled by its own list's call. -/
structure Turned (d : List Which) (w : Which) : Prop where
  new : w ∉ d
  before : ∀ v ∈ d, w ∈ later v
  cover : ∀ v, v ∈ d ∨ v = w ∨ v ∈ later w

variable {t t' : Turn}

open Classical in
/-- A list whose entry has been polled with an earlier one, or is not wanted. -/
theorem Checked.skip (h : Checked a env elem chain d t) (hd : Turned d w)
    (hw : ¬(¬t.did w ∧ a.present w ∧ a.ids w elem ≠ -1)) :
    Checked a env elem chain (d ++ [w]) t := by
  have hnone : ∀ v, Wanted a elem v → (owner a elem v ∈ d ++ [w] ↔ owner a elem v ∈ d) := by
    intro v hv
    rw [List.mem_append, List.mem_singleton, or_iff_left_iff_imp]
    intro he
    have hww : Wanted a elem w := he ▸ hv.owner.1
    have howner : owner a elem w = w := by rw [← he, hv.owner_owner]
    by_contra hn
    refine hw ⟨fun hdid => hd.new ?_, hww.1, hww.2⟩
    exact howner ▸ ((h.did w hd.new).mp hdid).2
  refine ⟨fun v hv => ?_, fun v => ?_, h.zero, ?_, ?_⟩
  · rw [h.did v fun hm => hv (List.mem_append_left _ hm)]
    exact and_congr_right fun hv => (hnone v hv).symm
  · rw [h.rtn]
    exact and_congr_right fun hv => (hnone v hv.1).symm
  · rintro ⟨v, hv, hm⟩ u
    rw [h.req ⟨v, hv, (hnone v hv).mp hm⟩]
    refine and_congr_right fun hu => and_congr (hnone u hu).symm ?_
    exact forall_congr' fun x => forall_congr' fun hx => by rw [hnone x hx]
  · obtain ⟨new, hnew, hat, hhit⟩ := h.chain
    refine ⟨new, hnew, hat, fun v => ?_⟩
    rw [hhit]
    exact if_congr (and_congr_right fun hv => (hnone v hv.1).symm) rfl rfl

/-- A list whose entry is polled by a call of its own. -/
theorem Checked.poll (hs : Fresh a env elem s) (h : Checked a env elem chain d t)
    (hd : Turned d w) (hdid : ¬t.did w) (hw : Wanted a elem w) {r : Events × (Which → Bool)}
    (hr : r = (later w).foldl (join a s elem w) (s.reqevMsk ||| w.poll, t.did))
    {m : Int × Events × List SelCb}
    (hm : Selected (env.queue elem w) (a.ids w elem) elem r.1 t.selchn m) :
    Checked a env elem chain (d ++ [w]) ⟨r.1, t.rtnevents ||| m.2.1, r.2, m.2.2⟩ := by
  obtain ⟨hjreq, hjsync, hjdid⟩ :=
    foldl_join (a := a) s elem w (later w) (s.reqevMsk ||| w.poll, t.did)
  rw [← hr] at hjreq hjsync hjdid
  have howner : owner a elem w = w := by
    rcases hd.cover (owner a elem w) with hmem | he | hl
    · exact absurd ((h.did w hd.new).mpr ⟨hw, hmem⟩) hdid
    · exact he
    · exact (owner_cases hw.1).resolve_right (later_asymm hl)
  have hsame : ∀ v, (a.present v ∧ s.ids w elem = s.ids v elem) ↔
      Wanted a elem v ∧ owner a elem v = w := by
    intro v
    rw [hs.ids, hs.ids]
    constructor
    · rintro ⟨hp, hid⟩
      have hv : Wanted a elem v := ⟨hp, hid ▸ hw.2⟩
      exact ⟨hv, by rw [(owner_eq_iff hv hw).mpr hid.symm, howner]⟩
    · rintro ⟨hv, ho⟩
      exact ⟨hv.1, ((owner_eq_iff hv hw).mp (ho.trans howner.symm)).symm⟩
  have hnd : ∀ v ∈ later w, v ∉ d := fun v hv hm => later_asymm hv (hd.before v hm)
  have hdid' : ∀ v ∉ d, Wanted a elem v → owner a elem v = w → ¬t.did v := by
    intro v hv hvw ho hdv
    exact hd.new (ho ▸ ((h.did v hv).mp hdv).2)
  have hreq : ∀ v, has r.1 v.poll ↔ Wanted a elem v ∧ owner a elem v = w := by
    intro v
    rw [hjreq, has_or, has_poll, or_iff_right hs.no_poll, hsame]
    constructor
    · rintro (rfl | ⟨_, _, hv⟩)
      · exact ⟨hw, howner⟩
      · exact hv
    · rintro ⟨hv, ho⟩
      rcases owner_cases hv.1 with he | hl
      · exact Or.inl (ho.symm.trans he)
      · rw [ho] at hl
        exact Or.inr ⟨hl, hdid' v (hnd v hl) hv ho, hv, ho⟩
  have hsync : has r.1 pollSync ↔ KnownMsg a env elem := by
    rw [hjsync, has_or_sync, hs.known_iff]
    simp
  have hrtn : ∀ v, has m.2.1 v.poll ↔ Reported a env elem v ∧ owner a elem v = w := by
    intro v
    rw [hm.rtn, hreq]
    constructor
    · rintro ⟨⟨hv, rfl⟩, hready⟩
      exact ⟨⟨hv, hready⟩, rfl⟩
    · rintro ⟨⟨hv, hready⟩, rfl⟩
      exact ⟨⟨hv, rfl⟩, hready⟩
  have hlast : ∀ v, owner a elem v ∈ d → w ∈ later (owner a elem v) :=
    fun v hv => hd.before _ hv
  refine ⟨fun v hv => ?_, fun v => ?_, fun hz => ?_, fun _ v => ?_, ?_⟩
  · rw [List.mem_append, List.mem_singleton, not_or] at hv
    rw [hjdid, hsame, h.did v hv.1, List.mem_append, List.mem_singleton]
    have hl : v ∈ later w := ((hd.cover v).resolve_left hv.1).resolve_left hv.2
    constructor
    · rintro (h1 | h1)
      · exact ⟨h1.1, Or.inl h1.2⟩
      · exact ⟨h1.2.1, Or.inr h1.2.2⟩
    · rintro ⟨h1, h2 | h2⟩
      · exact Or.inl ⟨h1, h2⟩
      · exact Or.inr ⟨hl, h1, h2⟩
  · rw [has_or, h.rtn, hrtn, List.mem_append, List.mem_singleton, and_or_left]
  · have h1 := h.zero fun v hv => hz v ((has_or ..).mpr (Or.inl hv))
    have h2 := hm.zero fun v hv => hz v ((has_or ..).mpr (Or.inr hv))
    change t.rtnevents ||| m.2.1 = 0
    rw [h1, h2]
    rfl
  · rw [hreq]
    constructor
    · rintro ⟨hv, rfl⟩
      refine ⟨hv, List.mem_append_right _ (List.mem_singleton_self _), fun u hu hmem => ?_⟩
      rcases List.mem_append.mp hmem with hmem | hmem
      · exact later_asymm (hlast u hmem)
      · rw [List.mem_singleton.mp hmem]
        cases owner a elem v <;> decide
    · rintro ⟨hv, hmem, hall⟩
      refine ⟨hv, ?_⟩
      rcases List.mem_append.mp hmem with hmem | hmem
      · refine absurd (hlast v hmem) ?_
        have := hall w hw (by simp [howner])
        rwa [howner] at this
      · exact List.mem_singleton.mp hmem
  · classical
    obtain ⟨new, hnew, hat, hhit⟩ := h.chain
    have hnot : ∀ v, NotifiedMsg a env elem v ∧ owner a elem v = w ↔
        (¬KnownMsg a env elem ∧ m.2.1 = 0) ∧
          has r.1 v.poll ∧ has (env.queue elem w).notified v.poll := by
      intro v
      rw [hreq]
      constructor
      · rintro ⟨⟨hv, hk, hno, hn⟩, rfl⟩
        refine ⟨⟨hk, hm.zero fun u hu => ?_⟩, ⟨hv, rfl⟩, hn⟩
        obtain ⟨hu, ho⟩ := (hrtn u).mp hu
        exact hno u ho hu
      · rintro ⟨⟨hk, hz⟩, ⟨hv, rfl⟩, hn⟩
        refine ⟨⟨hv, hk, fun u ho hu => ?_, hn⟩, rfl⟩
        have := (hrtn u).mpr ⟨hu, ho⟩
        rw [hz] at this
        exact zero_has _ this
    by_cases hc : ¬has r.1 pollSync ∧ m.2.1 = 0
    · refine ⟨⟨true, elem, a.ids w elem, r.1, (env.queue elem w).notified⟩ :: new, ?_, ?_, ?_⟩
      · change m.2.2 = _
        rw [hm.chain, if_pos hc, hnew, List.cons_append]
      · rintro cb (_ | ⟨_, hcb⟩)
        · refine ⟨rfl, rfl, fun v hv => ?_⟩
          obtain ⟨hv, ho⟩ := (hreq v).mp hv
          exact (owner_eq_iff hw hv).mp (howner.trans ho.symm)
        · exact hat cb hcb
      · intro v
        have hv := hnot v
        rw [hsync] at hc
        simp only [List.countP_cons, hhit, List.mem_append, List.mem_singleton]
        by_cases ho : owner a elem v = w
        · simp only [ho, hd.new, and_false, if_false, or_true, and_true, decide_eq_true_eq,
            SelCb.Hit, has_and] at hv ⊢
          rw [Nat.zero_add]
          exact if_congr (by simp [hv, hc]) rfl rfl
        · have hhit' : ¬SelCb.Hit ⟨true, elem, a.ids w elem, r.1,
              (env.queue elem w).notified⟩ v := fun hh =>
            ho ((hreq v).mp ((has_and ..).mp hh).1).2
          simp [ho, hhit']
    · refine ⟨new, ?_, hat, fun v => ?_⟩
      · change m.2.2 = _
        rw [hm.chain, if_neg hc, hnew]
      · rw [hhit]
        refine if_congr ?_ rfl rfl
        rw [List.mem_append, List.mem_singleton, and_or_left, iff_comm, or_iff_left_iff_imp]
        intro hn
        rw [hsync] at hc
        exact absurd ((hnot v).mp hn).1 hc

theorem Checked.check (hs : Fresh a env elem s) (h : Checked a env elem chain d t)
    (hd : Turned d w) (hc : check a env elem s w t = .ok t') :
    Checked a env elem chain (d ++ [w]) t' := by
  unfold Select.check at hc
  rw [hs.ids] at hc
  by_cases hw : ¬t.did w ∧ a.present w ∧ a.ids w elem ≠ -1
  · rw [if_pos hw] at hc
    dsimp only at hc
    split at hc
    · cases hc
    · rename_i hok
      obtain rfl := Except.ok.inj hc
      refine h.poll hs hd hw.1 hw.2 rfl (msgselect_selected (w := w) ?_ hok)
      obtain ⟨hreq, _, _⟩ := foldl_join (a := a) s elem w (later w)
        (s.reqevMsk ||| w.poll, t.did)
      rw [hreq]
      simp
  · rw [if_neg hw] at hc
    exact Except.ok.inj hc ▸ h.skip hd hw

/-- The checks of a position, in their order. -/
theorem position_checked (hs : Fresh a env elem s) (h : position a env elem s = .ok s') :
    ∃ t, Checked a env elem s.selchn lists t ∧ s' = conclude a env elem s t := by
  unfold position at h
  obtain ⟨t₁, h1, h⟩ := bind_ok h
  obtain ⟨t₂, h2, h⟩ := bind_ok h
  obtain ⟨t₃, h3, h⟩ := bind_ok h
  have h0 : Checked a env elem s.selchn [] ⟨s.reqevents, 0, fun _ => false, s.selchn⟩ :=
    ⟨by simp, by simp, by simp, by simp, [], by simp⟩
  have hd1 : Turned [] .read := ⟨by decide, by decide, by decide⟩
  have hd2 : Turned [.read] .write := ⟨by decide, by decide, by decide⟩
  have hd3 : Turned [.read, .write] .except := ⟨by decide, by decide, by decide⟩
  exact ⟨t₃, ((h0.check hs hd1 h1).check hs hd2 h2).check hs hd3 h3, (Except.ok.inj h).symm⟩

/-! ## The message lists -/

theorem foldl_settle (req rtn : Events) (elem : Nat) (hl : l.Nodup) (s : Sel) :
    (∀ v e, (l.foldl (settle req rtn elem) s).ids v e =
      if e = elem ∧ v ∈ l ∧ has req v.poll ∧ ¬has rtn v.poll then -1 else s.ids v e) ∧
    (l.foldl (settle req rtn elem) s).numMsgs =
      s.numMsgs + l.countP (fun v => decide (has req v.poll ∧ has rtn v.poll)) ∧
    (l.foldl (settle req rtn elem) s).mask = s.mask ∧
    (l.foldl (settle req rtn elem) s).numFdes = s.numFdes ∧
    SameRest s (l.foldl (settle req rtn elem) s) := by
  induction l generalizing s with
  | nil => exact ⟨by simp, by simp, rfl, rfl, rfl, rfl, rfl⟩
  | cons x l ih =>
    obtain ⟨hids, hnum, hmask, hfdes, hrest⟩ :=
      ih (List.nodup_cons.mp hl).2 (settle req rtn elem s x)
    rw [List.foldl_cons]
    by_cases hreq : has req x.poll
    · by_cases hrtn : has rtn x.poll
      · have he : settle req rtn elem s x = { s with numMsgs := s.numMsgs + 1 } := by
          rw [settle, if_pos hreq, if_pos hrtn]
        rw [he] at hids hnum hmask hfdes hrest ⊢
        refine ⟨fun v e => ?_, ?_, hmask, hfdes, ⟨hrest.1, hrest.2, hrest.3⟩⟩
        · rw [hids]
          refine if_congr (and_congr_right fun _ => ?_) rfl rfl
          rw [List.mem_cons, and_congr_left_iff]
          exact fun hv => ⟨Or.inr, fun h => h.resolve_left fun hvx => hv.2 (hvx ▸ hrtn)⟩
        · rw [hnum, List.countP_cons, if_pos (by simp [hreq, hrtn])]
          push_cast
          ring
      · have he : settle req rtn elem s x =
            { s with ids := Function.update s.ids x (Function.update (s.ids x) elem (-1)) } := by
          rw [settle, if_pos hreq, if_neg hrtn]
        rw [he] at hids hnum hmask hfdes hrest ⊢
        refine ⟨fun v e => ?_, ?_, hmask, hfdes, ⟨hrest.1, hrest.2, hrest.3⟩⟩
        · rw [hids]
          by_cases hvx : v = x
          · subst hvx
            by_cases he : e = elem <;> simp [he, hreq, hrtn]
          · simp [hvx]
        · rw [hnum, List.countP_cons, if_neg (by simp [hrtn])]
          rfl
    · have he : settle req rtn elem s x = s := by rw [settle, if_neg hreq]
      rw [he] at hids hnum hmask hfdes hrest ⊢
      refine ⟨fun v e => ?_, ?_, hmask, hfdes, hrest⟩
      · rw [hids]
        refine if_congr (and_congr_right fun _ => ?_) rfl rfl
        rw [List.mem_cons, and_congr_left_iff]
        exact fun hv => ⟨Or.inr, fun h => h.resolve_left fun hvx => hreq (hvx ▸ hv.1)⟩
      · rw [hnum, List.countP_cons, if_neg (by simp [hreq])]
        rfl

theorem foldl_blank (elem : Nat) (l : List Which) (s : Sel) :
    (∀ v e, (l.foldl (blank a elem) s).ids v e =
      if e = elem ∧ v ∈ l ∧ a.present v then -1 else s.ids v e) ∧
    (l.foldl (blank a elem) s).numMsgs = s.numMsgs ∧
    (l.foldl (blank a elem) s).mask = s.mask ∧
    (l.foldl (blank a elem) s).numFdes = s.numFdes ∧
    SameRest s (l.foldl (blank a elem) s) := by
  induction l generalizing s with
  | nil => exact ⟨by simp, rfl, rfl, rfl, rfl, rfl, rfl⟩
  | cons x l ih =>
    obtain ⟨hids, hnum, hmask, hfdes, hrest⟩ := ih (blank a elem s x)
    rw [List.foldl_cons]
    by_cases hx : a.present x
    · have he : blank a elem s x =
          { s with ids := Function.update s.ids x (Function.update (s.ids x) elem (-1)) } :=
        if_pos hx
      rw [he] at hids hnum hmask hfdes hrest ⊢
      refine ⟨fun v e => ?_, hnum, hmask, hfdes, ⟨hrest.1, hrest.2, hrest.3⟩⟩
      rw [hids]
      by_cases hvx : v = x
      · subst hvx
        by_cases he : e = elem <;> simp [he, hx]
      · simp [hvx]
    · have he : blank a elem s x = s := if_neg hx
      rw [he] at hids hnum hmask hfdes hrest ⊢
      refine ⟨fun v e => ?_, hnum, hmask, hfdes, hrest⟩
      rw [hids]
      refine if_congr (and_congr_right fun _ => ?_) rfl rfl
      rw [List.mem_cons, and_congr_left_iff]
      exact fun hv => ⟨Or.inr, fun h => h.resolve_left fun hvx => hx (hvx ▸ hv)⟩

/-- The entry is kept by its position's round. -/
def Kept (a : Args) (env : Env) (elem : Nat) (w : Which) : Prop :=
  (∃ v, Reported a env elem v) ∧ (Early a elem w ∨ Reported a env elem w)

open Classical in
/-- What a position's round makes of the state. -/
structure Rounded (a : Args) (env : Env) (elem : Nat) (s s' : Sel) : Prop where
  other : ∀ w e, e ≠ elem → s'.ids w e = s.ids w e
  entry : ∀ w, a.present w → s'.ids w elem = if Kept a env elem w then a.ids w elem else -1
  msgs : s'.numMsgs = s.numMsgs +
    (∑ w, if Reported a env elem w ∧ ¬Early a elem w then 1 else 0 : Nat)
  mask : s'.mask = s.mask
  fdes : s'.numFdes = s.numFdes
  known : (∃ w, Reported a env elem w) ∨ env.off elem → s'.reqevMsk = pollSync
  unknown : ¬((∃ w, Reported a env elem w) ∨ env.off elem) → s'.reqevMsk = s.reqevMsk
  chain : ∃ new, s'.selchn = new ++ s.selchn ∧ (∀ cb ∈ new, At a elem cb) ∧
    ∀ v, new.countP (fun cb => cb.Hit v) = if NotifiedMsg a env elem v then 1 else 0

theorem position_rounded (hs : Fresh a env elem s) (h : position a env elem s = .ok s') :
    Rounded a env elem s s' := by
  classical
  obtain ⟨t, ht, rfl⟩ := position_checked hs h
  obtain ⟨new, hnew, hat, hhit⟩ := ht.chain
  have hrtn : ∀ v, has t.rtnevents v.poll ↔ Reported a env elem v := by
    intro v
    rw [ht.rtn]
    exact and_iff_left (mem_lists _)
  have hhit' : ∀ v, new.countP (fun cb => cb.Hit v) =
      if NotifiedMsg a env elem v then 1 else 0 := by
    intro v
    rw [hhit]
    exact if_congr (and_iff_left (mem_lists _)) rfl rfl
  unfold conclude
  dsimp only
  by_cases hz : t.rtnevents ≠ 0
  · rw [if_pos hz]
    have hsome : ∃ v, Reported a env elem v := by
      by_contra hno
      exact hz (ht.zero fun v hv => hno ⟨v, (hrtn v).mp hv⟩)
    have hreq : ∀ v, has t.reqevents v.poll ↔ Wanted a elem v ∧ ¬Early a elem v := by
      intro v
      obtain ⟨x, hx⟩ := hsome
      rw [ht.req ⟨x, hx.1, mem_lists _⟩]
      refine and_congr_right fun hv => ⟨?_, fun hn => ⟨mem_lists _, ?_⟩⟩
      · rintro ⟨_, hall⟩ ⟨_, u, hu, hl⟩
        exact hall u hu (mem_lists _) hl
      · exact fun u hu _ hl => hn ⟨hv, u, hu, hl⟩
    obtain ⟨hids, hnum, hmask, hfdes, hrest⟩ := foldl_settle t.reqevents t.rtnevents elem
      nodup_lists { s with reqevents := t.reqevents, selchn := t.selchn }
    refine ⟨fun w e he => ?_, fun w hw => ?_, ?_, hmask, hfdes, fun _ => rfl, fun hk => ?_,
      new, ?_, hat, hhit'⟩
    · exact (hids w e).trans (if_neg fun hh => he hh.1)
    · refine (hids w elem).trans ?_
      by_cases hk : Kept a env elem w
      · rw [if_pos hk, if_neg]
        · exact hs.ids w
        · rintro ⟨_, _, hq, hr⟩
          exact hk.2.elim ((hreq w).mp hq).2 fun hv => hr ((hrtn w).mpr hv)
      · rw [if_neg hk]
        by_cases hww : Wanted a elem w
        · refine if_pos ⟨rfl, mem_lists w, (hreq w).mpr ⟨hww, fun he => ?_⟩, fun hr => ?_⟩
          · exact hk ⟨hsome, Or.inl he⟩
          · exact hk ⟨hsome, Or.inr ((hrtn w).mp hr)⟩
        · rw [if_neg fun hh => hww ((hreq w).mp hh.2.2.1).1]
          exact (hs.ids w).trans (not_not.mp fun hne => hww ⟨hw, hne⟩)
    · refine hnum.trans ?_
      rw [countP_lists]
      simp only [hreq, hrtn]
      refine congrArg (fun k : Nat => s.numMsgs + (k : Int)) (Finset.sum_congr rfl fun w _ => ?_)
      refine if_congr ⟨fun hh => ⟨hh.2, hh.1.2⟩, fun hh => ⟨⟨hh.1.1, hh.2⟩, hh.1⟩⟩ rfl rfl
    · exact absurd (Or.inl hsome) hk
    · exact hrest.selchn.trans hnew
  · rw [if_neg hz]
    have hnone : ∀ v, ¬Reported a env elem v := by
      intro v hv
      have := (hrtn v).mpr hv
      rw [not_not.mp hz] at this
      exact zero_has _ this
    obtain ⟨hids, hnum, hmask, hfdes, hrest⟩ := foldl_blank (a := a) elem lists
      { s with reqevents := t.reqevents, selchn := t.selchn }
    have hoff : (∃ w, Reported a env elem w) ∨ env.off elem ↔ env.off elem = true :=
      or_iff_right fun ⟨v, hv⟩ => hnone v hv
    refine ⟨fun w e he => ?_, fun w hw => ?_, ?_, hmask, hfdes, fun hk => ?_, fun hk => ?_,
      new, ?_, hat, hhit'⟩
    · exact (hids w e).trans (if_neg fun hh => he hh.1)
    · refine (hids w elem).trans ((if_pos ⟨rfl, mem_lists w, hw⟩).trans (if_neg ?_).symm)
      exact fun hk => hk.1.elim hnone
    · refine hnum.trans ?_
      simp [hnone]
    · exact if_pos (hoff.mp hk)
    · exact (if_neg fun he => hk (hoff.mpr he)).trans hrest.reqevMsk
    · exact hrest.selchn.trans hnew

theorem knownMsg_succ : KnownMsg a env (elem + 1) ↔
    KnownMsg a env elem ∨ (∃ w, Reported a env elem w) ∨ env.off elem := by
  unfold KnownMsg
  constructor
  · rintro (h | ⟨e, he, h⟩)
    · exact Or.inl (Or.inl h)
    · rcases Nat.lt_succ_iff_lt_or_eq.mp he with hlt | rfl
      · exact Or.inl (Or.inr ⟨e, hlt, h⟩)
      · exact Or.inr h
  · rintro ((h | ⟨e, he, h⟩) | h)
    · exact Or.inl h
    · exact Or.inr ⟨e, by omega, h⟩
    · exact Or.inr ⟨elem, by omega, h⟩

open Classical in
/-- The state between the rounds, `s₀` being the one after the descriptors. -/
structure Positions (a : Args) (env : Env) (s₀ : Sel) (elem : Nat) (s : Sel) : Prop where
  rest : ∀ w e, elem ≤ e → s.ids w e = a.ids w e
  done : ∀ w, ∀ e < elem, a.present w →
    s.ids w e = if Kept a env e w then a.ids w e else -1
  mask : s.mask = s₀.mask
  fdes : s.numFdes = s₀.numFdes
  msgs : s.numMsgs = entryCount (fun e w => Reported a env e w ∧ ¬Early a e w) elem
  sync : KnownMsg a env elem ∧ s.reqevMsk = pollSync ∨ ¬KnownMsg a env elem ∧ s.reqevMsk = 0
  chain : ∃ new, s.selchn = new ++ s₀.selchn ∧ (∀ cb ∈ new, At a cb.corl cb) ∧
    (∀ v, new.countP (fun cb => cb.Hit v) =
      ((Finset.range elem).filter fun e => NotifiedMsg a env e v).card) ∧
    ∀ v e, (∃ cb ∈ new, cb.corl = e ∧ cb.Hit v) ↔ e < elem ∧ NotifiedMsg a env e v

namespace Positions

variable {s₀ : Sel}

theorem start {f : Nat} (hf : f = nfds a.nfdsmsgs) (h : Columns a env f s) :
    Positions a env s 0 s := by
  subst hf
  refine ⟨fun w e _ => by rw [h.ids], fun w e he => absurd he (Nat.not_lt_zero e), rfl, rfl,
    ?_, ?_, [], rfl, by simp, by simp, by simp⟩
  · rw [h.msgs]
    simp [entryCount]
  · simpa [KnownMsg] using h.sync

theorem step (hI : Positions a env s₀ elem s) (h : position a env elem s = .ok s') :
    Positions a env s₀ (elem + 1) s' := by
  classical
  have hr := position_rounded ⟨fun w => hI.rest w elem le_rfl, hI.sync⟩ h
  obtain ⟨new, hnew, hat, hcount, hhit⟩ := hI.chain
  obtain ⟨new', hnew', hat', hcount'⟩ := hr.chain
  refine ⟨fun w e he => ?_, fun w e he hw => ?_, hr.mask.trans hI.mask, hr.fdes.trans hI.fdes,
    ?_, ?_, new' ++ new, ?_, fun cb hcb => ?_, fun v => ?_, fun v e => ?_⟩
  · rw [hr.other w e (by omega), hI.rest w e (by omega)]
  · rcases Nat.lt_succ_iff_lt_or_eq.mp he with hlt | rfl
    · rw [hr.other w e (by omega), hI.done w e hlt hw]
    · exact hr.entry w hw
  · rw [hr.msgs, hI.msgs, entryCount_succ]
    push_cast
    rfl
  · by_cases hk : (∃ w, Reported a env elem w) ∨ env.off elem
    · exact Or.inl ⟨knownMsg_succ.mpr (Or.inr hk), hr.known hk⟩
    · have hstep : KnownMsg a env (elem + 1) ↔ KnownMsg a env elem :=
        knownMsg_succ.trans (or_iff_left hk)
      rw [hr.unknown hk, hstep]
      exact hI.sync
  · rw [hnew', hnew, List.append_assoc]
  · rcases List.mem_append.mp hcb with hm | hm
    · have := hat' cb hm
      rwa [← this.2.1] at this
    · exact hat cb hm
  · rw [List.countP_append, hcount, hcount', Finset.range_add_one, Finset.filter_insert]
    split
    · rw [Finset.card_insert_of_notMem (by simp), Nat.add_comm]
    · rw [Nat.zero_add]
  · have hpos : (∃ cb ∈ new', cb.Hit v) ↔ NotifiedMsg a env elem v := by
      have : 0 < new'.countP (fun cb => cb.Hit v) ↔ ∃ cb ∈ new', cb.Hit v := by
        simp [List.countP_pos_iff]
      rw [← this, hcount']
      split <;> simp [*]
    constructor
    · rintro ⟨cb, hcb, hce, hv⟩
      rcases List.mem_append.mp hcb with hm | hm
      · have he : e = elem := hce.symm.trans (hat' cb hm).2.1
        exact ⟨by omega, he ▸ hpos.mp ⟨cb, hm, hv⟩⟩
      · obtain ⟨he, hn⟩ := (hhit v e).mp ⟨cb, hm, hce, hv⟩
        exact ⟨by omega, hn⟩
    · rintro ⟨he, hn⟩
      rcases Nat.lt_succ_iff_lt_or_eq.mp he with hlt | rfl
      · obtain ⟨cb, hm, hce, hv⟩ := (hhit v e).mpr ⟨hlt, hn⟩
        exact ⟨cb, List.mem_append_right _ hm, hce, hv⟩
      · obtain ⟨cb, hm, hv⟩ := hpos.mpr hn
        exact ⟨cb, List.mem_append_left _ hm, (hat' cb hm).2.1, hv⟩

theorem messageLoop (hI : Positions a env s₀ elem s) (h : messageLoop a env n elem s = .ok s') :
    Positions a env s₀ (elem + n) s' := by
  induction n generalizing elem s with
  | zero => exact Except.ok.inj h ▸ hI
  | succ n ih =>
    obtain ⟨s₁, h1, h⟩ := bind_ok h
    rw [← Nat.succ_add_eq_add_succ]
    exact ih (hI.step h1) h

end Positions

/-! ## Collection -/

variable {cb : SelCb} {f g fdes : Nat}

theorem foldl_collectFd (cb : SelCb) (hl : l.Nodup) (s : Sel) :
    (∀ w g, bit (l.foldl (collectFd a cb) s).mask w g ↔ bit s.mask w g ∨
      w ∈ l ∧ a.present w ∧ g = cb.corl ∧ has (cb.rtnevents &&& cb.reqevents) w.poll) ∧
    (l.foldl (collectFd a cb) s).numFdes = s.numFdes + l.countP (fun w =>
      decide (a.present w ∧ has (cb.rtnevents &&& cb.reqevents) w.poll ∧
        ¬bit s.mask w cb.corl)) ∧
    (l.foldl (collectFd a cb) s).ids = s.ids ∧
    (l.foldl (collectFd a cb) s).numMsgs = s.numMsgs := by
  induction l generalizing s with
  | nil => exact ⟨by simp, by simp, rfl, rfl⟩
  | cons x l ih =>
    obtain ⟨hx, hl⟩ := List.nodup_cons.mp hl
    obtain ⟨hbits, hnum, hids, hmsgs⟩ := ih hl (collectFd a cb s x)
    rw [List.foldl_cons]
    by_cases hc : has (cb.rtnevents &&& cb.reqevents) x.poll ∧ a.present x ∧
        ¬bit s.mask x cb.corl
    · have he : collectFd a cb s x = { s with
          mask := Function.update s.mask x (Function.update (s.mask x) (cb.corl / nbits)
            (setBit (s.mask x (cb.corl / nbits)) (cb.corl % nbits)))
          numFdes := s.numFdes + 1 } := if_pos hc
      rw [he] at hbits hnum hids hmsgs ⊢
      refine ⟨fun w g => ?_, ?_, hids, hmsgs⟩
      · rw [hbits, bit_setBit, List.mem_cons, or_assoc]
        refine or_congr_right ⟨?_, ?_⟩
        · rintro (⟨rfl, hg⟩ | ⟨hw, h⟩)
          · exact ⟨Or.inl rfl, hc.2.1, hg, hc.1⟩
          · exact ⟨Or.inr hw, h⟩
        · rintro ⟨rfl | hw, h⟩
          · exact Or.inl ⟨rfl, h.2.1⟩
          · exact Or.inr ⟨hw, h⟩
      · rw [hnum, List.countP_cons, if_pos (decide_eq_true ⟨hc.2.1, hc.1, hc.2.2⟩)]
        have hsame : ∀ w ∈ l, (decide (a.present w ∧
            has (cb.rtnevents &&& cb.reqevents) w.poll ∧ ¬bit (Function.update s.mask x
              (Function.update (s.mask x) (cb.corl / nbits)
                (setBit (s.mask x (cb.corl / nbits)) (cb.corl % nbits)))) w cb.corl) = true ↔
            decide (a.present w ∧ has (cb.rtnevents &&& cb.reqevents) w.poll ∧
              ¬bit s.mask w cb.corl) = true) := by
          intro w hw
          simp only [decide_eq_true_eq, bit_setBit, show w ≠ x from fun he => hx (he ▸ hw),
            false_and, or_false]
        rw [List.countP_congr hsame]
        push_cast
        ring
    · have he : collectFd a cb s x = s := if_neg hc
      rw [he] at hbits hnum hids hmsgs ⊢
      refine ⟨fun w g => ?_, ?_, hids, hmsgs⟩
      · rw [hbits, List.mem_cons]
        constructor
        · exact Or.imp_right fun h => ⟨Or.inr h.1, h.2⟩
        · rintro (h | ⟨rfl | hw, h⟩)
          · exact Or.inl h
          · refine Or.inl (h.2.1 ▸ not_not.mp fun hn => hc ⟨h.2.2, h.1, hn⟩)
          · exact Or.inr ⟨hw, h⟩
      · rw [hnum, List.countP_cons, if_neg (by
          simp only [decide_eq_true_eq]
          exact fun h => hc ⟨h.2.1, h.1, h.2.2⟩)]
        rfl

theorem foldl_collectMsg (cb : SelCb) (hl : l.Nodup) (s : Sel) :
    (∀ w e, (l.foldl (collectMsg a cb) s).ids w e =
      if w ∈ l ∧ a.present w ∧ e = cb.corl ∧ cb.Hit w then cb.uniqueId else s.ids w e) ∧
    (l.foldl (collectMsg a cb) s).numMsgs =
      s.numMsgs + l.countP (fun w => decide (a.present w ∧ cb.Hit w)) ∧
    (l.foldl (collectMsg a cb) s).mask = s.mask ∧
    (l.foldl (collectMsg a cb) s).numFdes = s.numFdes := by
  induction l generalizing s with
  | nil => exact ⟨by simp, by simp, rfl, rfl⟩
  | cons x l ih =>
    obtain ⟨hx, hl⟩ := List.nodup_cons.mp hl
    obtain ⟨hids, hnum, hmask, hfdes⟩ := ih hl (collectMsg a cb s x)
    rw [List.foldl_cons]
    by_cases hc : a.present x ∧ cb.Hit x
    · have he : collectMsg a cb s x = { s with
          ids := Function.update s.ids x (Function.update (s.ids x) cb.corl cb.uniqueId)
          numMsgs := s.numMsgs + 1 } := if_pos hc
      rw [he] at hids hnum hmask hfdes ⊢
      refine ⟨fun w e => ?_, ?_, hmask, hfdes⟩
      · rw [hids]
        by_cases hw : w = x
        · subst hw
          by_cases he : e = cb.corl <;> simp [hx, hc, he]
        · simp [hw]
      · rw [hnum, List.countP_cons, if_pos (by simpa using hc)]
        push_cast
        ring
    · have he : collectMsg a cb s x = s := if_neg hc
      rw [he] at hids hnum hmask hfdes ⊢
      refine ⟨fun w e => ?_, ?_, hmask, hfdes⟩
      · rw [hids]
        refine if_congr ?_ rfl rfl
        rw [List.mem_cons]
        refine ⟨fun h => ⟨Or.inr h.1, h.2⟩, fun h => ⟨?_, h.2⟩⟩
        exact h.1.resolve_left fun he => hc (he ▸ ⟨h.2.1, h.2.2.2⟩)
      · rw [hnum, List.countP_cons, if_neg (by simpa using hc)]
        rfl

/-- What the run along the chain makes of the lists. -/
structure Collected (a : Args) (fdes : Nat) (chain : List SelCb) (s s' : Sel) : Prop where
  bits : ∀ w g, a.present w → (bit s'.mask w g ↔ bit s.mask w g ∨
    ∃ cb ∈ chain, cb.msg = false ∧ cb.corl = g ∧ has (cb.rtnevents &&& cb.reqevents) w.poll)
  fdes : s'.numFdes - bitCount a s'.mask fdes = s.numFdes - bitCount a s.mask fdes
  ids : ∀ w e, a.present w →
    ((∃ cb ∈ chain, cb.msg = true ∧ cb.corl = e ∧ cb.Hit w) → s'.ids w e = a.ids w e) ∧
    (¬(∃ cb ∈ chain, cb.msg = true ∧ cb.corl = e ∧ cb.Hit w) → s'.ids w e = s.ids w e)
  msgs : s'.numMsgs = s.numMsgs +
    (∑ w, chain.countP fun cb => decide (cb.msg = true ∧ a.present w ∧ cb.Hit w) : Nat)

theorem bitCount_setBits {m m' : Which → Nat → BitVec 32} {p : Which → Prop} [DecidablePred p]
    (hf : f < n) (h : ∀ w g, bit m' w g ↔ bit m w g ∨ a.present w ∧ g = f ∧ p w) :
    bitCount a m' n = bitCount a m n +
      ∑ w, if a.present w ∧ p w ∧ ¬bit m w f then 1 else 0 := by
  unfold bitCount
  rw [← Finset.sum_add_distrib]
  refine Finset.sum_congr rfl fun w _ => ?_
  by_cases hw : a.present w ∧ p w ∧ ¬bit m w f
  · rw [if_pos hw, ← Finset.card_insert_of_notMem (a := f) (by simp [hw])]
    refine congrArg Finset.card (Finset.ext fun g => ?_)
    simp only [Finset.mem_filter, Finset.mem_range, Finset.mem_insert, h]
    constructor
    · rintro ⟨hg, hp, hb | ⟨_, rfl, _⟩⟩
      · exact Or.inr ⟨hg, hp, hb⟩
      · exact Or.inl rfl
    · rintro (rfl | ⟨hg, hp, hb⟩)
      · exact ⟨hf, hw.1, Or.inr ⟨hw.1, rfl, hw.2.1⟩⟩
      · exact ⟨hg, hp, Or.inl hb⟩
  · rw [if_neg hw, Nat.add_zero]
    refine congrArg Finset.card (Finset.filter_congr fun g hg => and_congr_right fun hp => ?_)
    rw [h, or_iff_left_iff_imp]
    rintro ⟨_, rfl, hpw⟩
    exact not_not.mp fun hn => hw ⟨hp, hpw, hn⟩

theorem collect_collected {chain : List SelCb}
    (hat : ∀ cb ∈ chain, cb.msg = true → At a cb.corl cb)
    (h : collect a fdes chain s = .ok s') : Collected a fdes chain s s' := by
  induction chain generalizing s with
  | nil =>
    obtain rfl := Except.ok.inj h
    exact ⟨by simp, rfl, by simp, by simp⟩
  | cons cb chain ih =>
    rw [collect] at h
    by_cases hmsg : cb.msg = true
    · rw [if_pos hmsg] at h
      obtain ⟨hids, hnum, hmask, hfdes⟩ := foldl_collectMsg (a := a) cb nodup_lists s
      have hc := ih (fun c hm => hat c (List.mem_cons_of_mem _ hm)) h
      refine ⟨fun w g hw => ?_, ?_, fun w e hw => ?_, ?_⟩
      · rw [hc.bits w g hw, hmask]
        simp [hmsg]
      · rw [hc.fdes, hmask, hfdes]
      · obtain ⟨hin, hout⟩ := hc.ids w e hw
        by_cases hlate : ∃ c ∈ chain, c.msg = true ∧ c.corl = e ∧ c.Hit w
        · refine ⟨fun _ => hin hlate, fun hn => absurd ?_ hn⟩
          obtain ⟨c, hm, hc⟩ := hlate
          exact ⟨c, List.mem_cons_of_mem _ hm, hc⟩
        · rw [hout hlate, hids]
          by_cases hhit : e = cb.corl ∧ cb.Hit w
          · rw [if_pos ⟨mem_lists w, hw, hhit⟩]
            refine ⟨fun _ => ?_, fun hn => absurd ?_ hn⟩
            · rw [hhit.1]
              exact (hat cb List.mem_cons_self hmsg).2.2 w ((has_and ..).mp hhit.2).1
            · exact ⟨cb, List.mem_cons_self, hmsg, hhit.1.symm, hhit.2⟩
          · rw [if_neg fun hh => hhit hh.2.2]
            refine ⟨?_, fun _ => rfl⟩
            rintro ⟨c, hm, hcm, hce, hcw⟩
            rcases List.mem_cons.mp hm with rfl | hm
            · exact absurd ⟨hce.symm, hcw⟩ hhit
            · exact absurd ⟨c, hm, hcm, hce, hcw⟩ hlate
      · rw [hc.msgs, hnum, countP_lists]
        simp only [List.countP_cons, Finset.sum_add_distrib, hmsg, true_and, decide_eq_true_eq]
        push_cast
        ring
    · rw [if_neg hmsg] at h
      have hmsg' : cb.msg = false := by simpa using hmsg
      split at h
      · rename_i hcorl
        obtain ⟨hbits, hnum, hids, hmsgs⟩ := foldl_collectFd (a := a) cb nodup_lists s
        have hc := ih (fun c hm => hat c (List.mem_cons_of_mem _ hm)) h
        refine ⟨fun w g hw => ?_, ?_, fun w e hw => ?_, ?_⟩
        · rw [hc.bits w g hw, hbits]
          simp only [List.mem_cons, exists_eq_or_imp, hmsg', true_and, hw, mem_lists, or_assoc,
            eq_comm (a := g)]
        · rw [hc.fdes, hnum, countP_lists, bitCount_setBits (a := a) hcorl (m := s.mask)
            (p := fun w => has (cb.rtnevents &&& cb.reqevents) w.poll)
            fun w g => (hbits w g).trans (or_congr_right (and_iff_right (mem_lists w)))]
          push_cast
          ring
        · have hsame : (∃ c ∈ cb :: chain, c.msg = true ∧ c.corl = e ∧ c.Hit w) ↔
              ∃ c ∈ chain, c.msg = true ∧ c.corl = e ∧ c.Hit w := by
            simp [hmsg']
          rw [hsame, ← hids]
          exact hc.ids w e hw
        · rw [hc.msgs, hmsgs]
          simp [hmsg']
      · cases h

/-! ## The result -/

theorem nfds_eq (x : BitVec 32) : nfds x = x.toNat % 2 ^ 16 := by
  rw [nfds, BitVec.toNat_and]
  exact Nat.and_two_pow_sub_one_eq_mod x.toNat 16

theorem nmsgs_eq (x : BitVec 32) : nmsgs x = x.toNat / 2 ^ 16 := by
  have hx := x.isLt
  rw [nmsgs, BitVec.toNat_and, BitVec.toNat_ushiftRight, Nat.shiftRight_eq_div_pow]
  refine (Nat.and_two_pow_sub_one_eq_mod _ 16).trans (Nat.mod_eq_of_lt ?_)
  omega

theorem halves {i j : Nat} (hi : i < 2 ^ 16) :
    nfds (BitVec.ofInt 32 i ||| BitVec.ofInt 32 j <<< 16) = i ∧
      nmsgs (BitVec.ofInt 32 i ||| BitVec.ofInt 32 j <<< 16) = j % 2 ^ 16 := by
  have htoNat : (BitVec.ofInt 32 i ||| BitVec.ofInt 32 j <<< 16).toNat =
      j % 2 ^ 16 * 2 ^ 16 + i := by
    rw [BitVec.ofInt_natCast, BitVec.ofInt_natCast, BitVec.toNat_or, BitVec.toNat_shiftLeft,
      BitVec.toNat_ofNat, BitVec.toNat_ofNat, Nat.mod_eq_of_lt (show i < 2 ^ 32 by omega),
      Nat.or_comm]
    have hshift : (j % 2 ^ 32) <<< 16 % 2 ^ 32 = (j % 2 ^ 16) <<< 16 := by
      rw [Nat.shiftLeft_eq, Nat.shiftLeft_eq]
      omega
    rw [hshift, ← Nat.shiftLeft_add_eq_or_of_lt hi, Nat.shiftLeft_eq]
  rw [nfds_eq, nmsgs_eq, htoNat]
  omega

theorem entryCount_le (p : Nat → Which → Prop) (n : Nat) : entryCount p n ≤ 3 * n := by
  classical
  unfold entryCount
  have hle : ∀ w, ((Finset.range n).filter fun e => p e w).card ≤ n :=
    fun w => (Finset.card_filter_le _ _).trans (Finset.card_range n).le
  rw [sum_which]
  have h1 := hle .read
  have h2 := hle .write
  have h3 := hle .except
  omega

theorem bitCount_le (m : Which → Nat → BitVec 32) (f : Nat) : bitCount a m f ≤ 3 * f := by
  have h := entryCount_le (fun g w => a.present w ∧ bit m w g) f
  unfold entryCount at h
  unfold bitCount
  convert h

theorem entryCount_mono {p q : Nat → Which → Prop} (h : ∀ w, ∀ e < n, p e w → q e w) :
    entryCount p n ≤ entryCount q n := by
  classical
  refine Finset.sum_le_sum fun w _ => Finset.card_le_card fun e he => ?_
  rw [Finset.mem_filter, Finset.mem_range] at he ⊢
  exact ⟨he.1, h w e he.1 he.2⟩

/-- Conditions met equally often are met by the same entries. -/
theorem of_entryCount_eq {p q : Nat → Which → Prop} (h : ∀ w, ∀ e < n, p e w → q e w)
    (hc : entryCount p n = entryCount q n) (he : e < n) (hq : q e w) : p e w := by
  classical
  have hsub : ∀ w, ((Finset.range n).filter fun e => p e w) ⊆
      (Finset.range n).filter fun e => q e w := by
    intro w e he
    rw [Finset.mem_filter, Finset.mem_range] at he ⊢
    exact ⟨he.1, h w e he.1 he.2⟩
  have hcard := (Finset.sum_eq_sum_iff_of_le fun w _ => Finset.card_le_card (hsub w)).mp hc
  have heq := Finset.eq_of_subset_of_card_le (hsub w) (hcard w (Finset.mem_univ w)).ge
  have hmem : e ∈ (Finset.range n).filter fun e => p e w :=
    heq ▸ Finset.mem_filter.mpr ⟨Finset.mem_range.mpr he, hq⟩
  exact (Finset.mem_filter.mp hmem).2

variable {r : Returned}

/-- A call that returns: with no lists, or after the polls and the collection. -/
theorem select_cases (hfd : nfds a.nfdsmsgs ≤ openMax) (h : select a env = .ok r) :
    ((∀ w, ¬a.present w) ∧ r.result = 0) ∨
    ∃ s₀ s s', Columns a env (nfds a.nfdsmsgs) s₀ ∧
      Positions a env s₀ (nmsgs a.nfdsmsgs) s ∧
      Collected a (nfds a.nfdsmsgs) s.selchn s s' ∧
      r = ⟨BitVec.ofInt 32 s'.numFdes ||| BitVec.ofInt 32 s'.numMsgs <<< 16, s'.mask, s'.ids⟩ := by
  unfold select at h
  dsimp only at h
  generalize hwords : (if nfds a.nfdsmsgs % nbits ≠ 0 then 1 + nfds a.nfdsmsgs / nbits
    else nfds a.nfdsmsgs / nbits) = nfilewords at h
  split at h
  · cases h
  split at h
  · rename_i hnone
    refine Or.inl ⟨hnone, ?_⟩
    split at h
    · cases h
    · split at h
      · cases h
      · rw [← Except.ok.inj h]
  split at h
  · cases h
  split at h
  · cases h
  split at h
  · cases h
  rename_i reqevMsk htime
  rw [min_eq_left hfd] at h
  refine Or.inr ?_
  obtain ⟨s, hpolls, h⟩ := bind_ok h
  obtain ⟨s₀, hloop, hpos⟩ := bind_ok hpolls
  have hstart : Columns a env (min (0 * nbits) (nfds a.nfdsmsgs))
      ⟨a.mask, a.ids, 0, 0, reqevMsk, 0, []⟩ := by
    rw [Nat.zero_mul, Nat.zero_min]
    refine ⟨fun _ _ _ => Iff.rfl, fun w g hg => absurd hg (Nat.not_lt_zero g), rfl, ?_, rfl, ?_,
      by simp, by simp [FdHit]⟩
    · simp [bitCount]
    · rw [chkTimeout.eq_def] at htime
      unfold KnownFd
      rw [chkTimeout.eq_def]
      split at htime
      · obtain rfl := Option.some.inj htime
        exact Or.inr ⟨by simp; decide, rfl⟩
      · split at htime
        · cases htime
        · rename_i hneg
          rw [if_neg hneg]
          split at htime
          · rename_i hzero
            obtain rfl := Option.some.inj htime
            exact Or.inl ⟨Or.inl (if_pos hzero), rfl⟩
          · rename_i hzero
            obtain rfl := Option.some.inj htime
            rw [if_neg hzero]
            exact Or.inr ⟨by simp; decide, rfl⟩
  have hcols : Columns a env (nfds a.nfdsmsgs) s₀ := by
    have hle : nfds a.nfdsmsgs ≤ (0 + nfilewords) * nbits := by
      rw [← hwords]
      unfold nbits
      split <;> omega
    rw [← min_eq_right hle]
    exact hstart.wordLoop hloop
  have hposns : Positions a env s₀ (nmsgs a.nfdsmsgs) s := by
    have := (Positions.start rfl hcols).messageLoop hpos
    rwa [Nat.zero_add] at this
  unfold finish at h
  split at h
  · cases h
  obtain ⟨s', hcollect, h⟩ := bind_ok h
  split at h
  · cases h
  refine ⟨s₀, s, s', hcols, hposns, collect_collected ?_ hcollect, (Except.ok.inj h).symm⟩
  obtain ⟨new, hnew, hat, _, _⟩ := hposns.chain
  intro cb hcb hmsg
  rw [hnew] at hcb
  rcases List.mem_append.mp hcb with hm | hm
  · exact hat cb hm
  · rw [(hcols.chain cb hm).1] at hmsg
    exact absurd hmsg (by decide)

theorem Reported.not_notified (h : Reported a env elem w) : ¬NotifiedMsg a env elem w :=
  fun hn => hn.2.2.1 w rfl h

theorem Kept.wanted (h : Kept a env elem w) : Wanted a elem w :=
  h.2.elim And.left And.left

/-- The entries counted one way or the other. -/
def Counted (a : Args) (env : Env) (elem : Nat) (w : Which) : Prop :=
  Reported a env elem w ∧ ¬Early a elem w ∨ NotifiedMsg a env elem w

/-- Entries that keep their id. -/
def Remains (a : Args) (env : Env) (elem : Nat) (w : Which) : Prop :=
  NotifiedMsg a env elem w ∨ Kept a env elem w

theorem Counted.remains (h : Counted a env elem w) : Remains a env elem w := by
  rcases h with h | h
  · exact Or.inr ⟨⟨w, h.1⟩, Or.inr h.1⟩
  · exact Or.inl h

theorem Settled.counted_iff (h : Settled a env) (he : elem < nmsgs a.nfdsmsgs) :
    Counted a env elem w ↔ OccurredMsg a env elem w := by
  constructor
  · exact Or.imp_left And.left
  · rintro (hr | hn)
    · by_cases hearly : Early a elem w
      · exact Or.inr (h.early elem he ⟨w, hr⟩ w hearly)
      · exact Or.inl ⟨hr, hearly⟩
    · exact Or.inr hn

theorem Settled.remains_iff (h : Settled a env) (he : elem < nmsgs a.nfdsmsgs) :
    Remains a env elem w ↔ OccurredMsg a env elem w := by
  constructor
  · rintro (hn | ⟨hsome, hearly | hr⟩)
    · exact Or.inr hn
    · exact Or.inr (h.early elem he hsome w hearly)
    · exact Or.inl hr
  · rintro (hr | hn)
    · exact Or.inr ⟨⟨w, hr⟩, Or.inr hr⟩
    · exact Or.inl hn

/-- What the polls and the collection leave. -/
structure Outcome (a : Args) (env : Env) (r : Returned) : Prop where
  bits : ∀ w f, f < nfds a.nfdsmsgs → a.present w → (bit r.mask w f ↔
    Asked a f w ∧ (Failed env f ∨ OccurredFd a env f w))
  ids : ∀ w e, e < nmsgs a.nfdsmsgs → a.present w →
    (Remains a env e w → r.ids w e = a.ids w e) ∧ (¬Remains a env e w → r.ids w e = -1)
  low : nfds r.result = bitCount a r.mask (nfds a.nfdsmsgs)
  high : nmsgs r.result = entryCount (Counted a env) (nmsgs a.nfdsmsgs) % 2 ^ 16

theorem outcome {s₀ : Sel} (hfd : nfds a.nfdsmsgs ≤ openMax)
    (h0 : Columns a env (nfds a.nfdsmsgs) s₀) (h : Positions a env s₀ (nmsgs a.nfdsmsgs) s)
    (hc : Collected a (nfds a.nfdsmsgs) s.selchn s s') :
    Outcome a env
      ⟨BitVec.ofInt 32 s'.numFdes ||| BitVec.ofInt 32 s'.numMsgs <<< 16, s'.mask, s'.ids⟩ := by
  classical
  obtain ⟨new, hnew, hat, hcount, hhit⟩ := h.chain
  have hfdes : s'.numFdes = bitCount a s'.mask (nfds a.nfdsmsgs) := by
    have h1 := hc.fdes
    have h2 := h0.fdes
    rw [h.mask, h.fdes] at h1
    omega
  have hmsg : ∀ cb ∈ new, cb.msg = true := fun cb hm => (hat cb hm).1
  have hmsgs : s'.numMsgs = entryCount (Counted a env) (nmsgs a.nfdsmsgs) := by
    have hnotice : ∀ w, s.selchn.countP (fun cb =>
        decide (cb.msg = true ∧ a.present w ∧ cb.Hit w)) =
        ((Finset.range (nmsgs a.nfdsmsgs)).filter fun e => NotifiedMsg a env e w).card := by
      intro w
      have hold : s₀.selchn.countP (fun cb =>
          decide (cb.msg = true ∧ a.present w ∧ cb.Hit w)) = 0 := by
        rw [List.countP_eq_zero]
        intro cb hm
        simp [(h0.chain cb hm).1]
      rw [hnew, List.countP_append, hold, ← hcount, Nat.add_zero]
      by_cases hw : a.present w
      · refine List.countP_congr fun cb hm => ?_
        simp [hmsg cb hm, hw]
      · have hnone : ∀ e, ¬NotifiedMsg a env e w := fun e hn => hw hn.1.1
        rw [hcount]
        simp [hw, hnone]
    rw [hc.msgs, h.msgs]
    simp only [hnotice, entryCount]
    rw [← Nat.cast_add, ← Finset.sum_add_distrib]
    refine congrArg Nat.cast (Finset.sum_congr rfl fun w _ => ?_)
    rw [← Finset.card_union_of_disjoint]
    · refine congrArg Finset.card (Finset.ext fun e => ?_)
      rw [Finset.mem_union, Finset.mem_filter, Finset.mem_filter, Finset.mem_filter, ← and_or_left]
      rfl
    · rw [Finset.disjoint_filter]
      exact fun e _ hr hn => hr.1.not_notified hn
  have hhalves := halves (j := entryCount (Counted a env) (nmsgs a.nfdsmsgs))
    (show bitCount a s'.mask (nfds a.nfdsmsgs) < 2 ^ 16 by
      have := bitCount_le (a := a) s'.mask (nfds a.nfdsmsgs)
      unfold openMax at hfd
      omega)
  rw [← hfdes, ← hmsgs] at hhalves
  refine ⟨fun w f hf hw => ?_, fun w e he hw => ?_, hhalves.1, hhalves.2⟩
  · have hchain : (∃ cb ∈ s.selchn, cb.msg = false ∧ cb.corl = f ∧
        has (cb.rtnevents &&& cb.reqevents) w.poll) ↔ FdHit s₀.selchn f w := by
      rw [hnew]
      constructor
      · rintro ⟨cb, hm, hfalse, hcb⟩
        rcases List.mem_append.mp hm with hm | hm
        · rw [hmsg cb hm] at hfalse
          exact absurd hfalse (by decide)
        · exact ⟨cb, hm, hcb⟩
      · rintro ⟨cb, hm, hcb⟩
        exact ⟨cb, List.mem_append_right _ hm, (h0.chain cb hm).1, hcb⟩
    change bit s'.mask w f ↔ _
    rw [hc.bits w f hw, h.mask, h0.done w f hf hw, hchain, h0.hit]
    constructor
    · rintro (⟨ha, hf | hr⟩ | ⟨_, ha, hn⟩)
      · exact ⟨ha, Or.inl hf⟩
      · exact ⟨ha, Or.inr (Or.inl hr)⟩
      · exact ⟨ha, Or.inr (Or.inr hn)⟩
    · rintro ⟨ha, hf | hr | hn⟩
      · exact Or.inl ⟨ha, Or.inl hf⟩
      · exact Or.inl ⟨ha, Or.inr hr⟩
      · exact Or.inr ⟨hf, ha, hn⟩
  · have hchain : (∃ cb ∈ s.selchn, cb.msg = true ∧ cb.corl = e ∧ cb.Hit w) ↔
        NotifiedMsg a env e w := by
      rw [← and_iff_right he (b := NotifiedMsg a env e w), ← hhit, hnew]
      constructor
      · rintro ⟨cb, hm, htrue, hcb⟩
        rcases List.mem_append.mp hm with hm | hm
        · exact ⟨cb, hm, hcb⟩
        · rw [(h0.chain cb hm).1] at htrue
          exact absurd htrue (by decide)
      · rintro ⟨cb, hm, hcb⟩
        exact ⟨cb, List.mem_append_left _ hm, hmsg cb hm, hcb⟩
    have hids := hc.ids w e hw
    rw [hchain, h.done w e he hw] at hids
    refine ⟨?_, fun hn => ?_⟩
    · rintro (hn | hk)
      · exact hids.1 hn
      · by_cases hn : NotifiedMsg a env e w
        · exact hids.1 hn
        · exact (hids.2 hn).trans (if_pos hk)
    · exact (hids.2 fun hh => hn (Or.inl hh)).trans (if_neg fun hk => hn (Or.inr hk))

theorem Outcome.exact_iff (h : Outcome a env r) : Exact a env r ↔ Settled a env := by
  have hremains : ∀ w, ∀ e < nmsgs a.nfdsmsgs,
      (a.present w ∧ r.ids w e ≠ -1) ↔ Remains a env e w := by
    intro w e he
    constructor
    · rintro ⟨hw, hne⟩
      by_contra hn
      exact hne ((h.ids w e he hw).2 hn)
    · intro hr
      have hw : Wanted a e w := hr.elim And.left Kept.wanted
      exact ⟨hw.1, (h.ids w e he hw.1).1 hr ▸ hw.2⟩
  have hreturned := entryCount_congr hremains
  have hsub : ∀ w, ∀ e < nmsgs a.nfdsmsgs, Counted a env e w → Remains a env e w :=
    fun w e _ => Counted.remains
  constructor
  · intro hx
    have hhigh := hx.high
    rw [hreturned, h.high] at hhigh
    -- the count is taken modulo the upper half, and counts no more entries than remain
    have hle := entryCount_mono hsub
    have hmod := Nat.mod_le (entryCount (Counted a env) (nmsgs a.nfdsmsgs)) (2 ^ 16)
    have hall := fun w e (he : e < nmsgs a.nfdsmsgs) =>
      of_entryCount_eq (w := w) (e := e) hsub (by omega) he
    have hearly : ∀ e < nmsgs a.nfdsmsgs, (∃ w, Reported a env e w) →
        ∀ w, Early a e w → NotifiedMsg a env e w := by
      intro e he hsome w hw
      exact (hall w e he (Or.inr ⟨hsome, Or.inl hw⟩)).resolve_left fun hc => hc.2 hw
    refine ⟨hearly, ?_⟩
    have hocc : entryCount (OccurredMsg a env) (nmsgs a.nfdsmsgs) ≤
        entryCount (Remains a env) (nmsgs a.nfdsmsgs) := by
      refine entryCount_mono fun w e _ => ?_
      rintro (hr | hn)
      · exact Or.inr ⟨⟨w, hr⟩, Or.inr hr⟩
      · exact Or.inl hn
    omega
  · intro hs
    have hcounted : entryCount (Counted a env) (nmsgs a.nfdsmsgs) =
        entryCount (OccurredMsg a env) (nmsgs a.nfdsmsgs) :=
      entryCount_congr fun w e he => hs.counted_iff he
    refine ⟨fun w f hf hw => (h.bits w f hf hw).mp, fun w f hf ha hr => ?_, fun w e he hw => ?_,
      fun w e he hr => ?_, h.low, ?_⟩
    · exact (h.bits w f hf ha.1).mpr ⟨ha, Or.inr (Or.inl hr)⟩
    · by_cases hr : Remains a env e w
      · exact Or.inr ⟨(h.ids w e he hw).1 hr, (hs.remains_iff he).mp hr⟩
      · exact Or.inl ((h.ids w e he hw).2 hr)
    · exact (h.ids w e he hr.1.1).1 (Or.inr ⟨⟨w, hr⟩, Or.inr hr⟩)
    · rw [h.high, hreturned, hcounted, Nat.mod_eq_of_lt hs.count]
      exact (entryCount_congr fun w e he => hs.remains_iff he).symm

/-- A call without lists reports nothing, and nothing is asked for. -/
theorem exact_iff_of_timer (hnone : ∀ w, ¬a.present w) (hr : r.result = 0) :
    Exact a env r ↔ Settled a env := by
  have hwanted : ∀ e w, ¬Wanted a e w := fun e w hw => hnone w hw.1
  have hocc : ∀ e w, ¬OccurredMsg a env e w := fun e w ho =>
    ho.elim (fun h => hwanted e w h.1) fun h => hwanted e w h.1
  refine iff_of_true ⟨fun w f _ hw => absurd hw (hnone w), fun w f _ ha => absurd ha.1 (hnone w),
    fun w e _ hw => absurd hw (hnone w), fun w e _ hw => absurd hw.1 (hwanted e w), ?_, ?_⟩
    ⟨fun e _ _ w hw => absurd hw.1 (hwanted e w), ?_⟩
  · rw [hr]
    simp [bitCount, hnone, nfds]
  · rw [hr]
    simp [entryCount, hnone, nmsgs]
  · simp [entryCount, hocc]

theorem select_exact_iff (hfd : nfds a.nfdsmsgs ≤ openMax) (h : select a env = .ok r) :
    Exact a env r ↔ Settled a env := by
  rcases select_cases hfd h with ⟨hnone, hr⟩ | ⟨s₀, s, s', h0, hpos, hc, rfl⟩
  · exact exact_iff_of_timer hnone hr
  · exact (outcome hfd h0 hpos hc).exact_iff

/-- One position, with an id in the read list and one in the write list. -/
def entries (i j : Int) : Args where
  nfdsmsgs := 0x10000#32
  present w := w ≠ .except
  mask _ _ := 0
  ids w _ := if w = .read then i else j
  timeout := none

/-- Every queue has room; `data` says whether they have messages. -/
def roomy (data : Bool) : Env where
  timeIn := true
  malloc := true
  copyin _ := true
  poll _ := ⟨0, 0, [], false⟩
  queue _ _ := ⟨true, data, true, true, 0⟩
  off _ := false
  offWait := false
  wait := 0
  copyout _ := true

/-- The same id in both lists is polled with one call. -/
theorem equal_ids_exact :
    ∃ r, select (entries 1 1) (roomy true) = .ok r ∧ Exact (entries 1 1) (roomy true) r := by
  refine ⟨_, rfl, (select_exact_iff (by decide) rfl).mpr ⟨?_, ?_⟩⟩
  · rintro e he _ w ⟨_, v, _, hl⟩
    obtain rfl : e = 0 := Nat.lt_one_iff.mp he
    cases w <;> cases v <;> exact absurd hl (by decide)
  · exact lt_of_le_of_lt (entryCount_le _ _) (by decide)

/-- The room in queue 2 leaves the id of queue 1 in the read list. -/
theorem unready_id_kept : ∃ r, select (entries 1 2) (roomy false) = .ok r ∧
    r.ids .read 0 = 1 ∧ ¬OccurredMsg (entries 1 2) (roomy false) 0 .read ∧
      ¬Exact (entries 1 2) (roomy false) r := by
  have hocc : ¬OccurredMsg (entries 1 2) (roomy false) 0 .read := by
    rintro (⟨_, hready⟩ | ⟨_, _, _, hnotified⟩)
    · exact absurd hready Bool.false_ne_true
    · exact absurd hnotified (by decide)
  refine ⟨_, rfl, by decide, hocc, fun hx => ?_⟩
  rcases hx.ids .read 0 (by decide) (by decide) with h | h
  · exact absurd h (by decide)
  · exact hocc h.2

end Aix413.Select
