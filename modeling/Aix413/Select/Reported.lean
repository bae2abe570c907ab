import Aix413.Select.Polling
import Mathlib.Algebra.BigOperators.Fin
import Mathlib.Algebra.BigOperators.Ring.Finset
import Mathlib.Tactic.Ring

namespace Aix413.Select

variable {a : Args} {env : Env}

/-! ## Bits -/

theorem and_bit_ne_zero {n i : Nat} (x : BitVec n) (hi : i < n) :
    x &&& 1#n <<< i ≠ 0 ↔ x.getLsbD i = true := by
  have hne : BitVec.twoPow n i ≠ 0#n := by
    intro h
    have := congrArg (fun y => y.getLsbD i) h
    simp [hi] at this
  rw [← BitVec.twoPow_eq, BitVec.and_twoPow]
  by_cases h : x.getLsbD i = true
  · simp [h, hne]
  · simp [h]

theorem isSet_iff {x : BitVec 32} {b : Nat} (hb : b < 32) : isSet x b ↔ x.getLsbD b = true :=
  and_bit_ne_zero x hb

theorem isSet_setBit {x : BitVec 32} {b c : Nat} (hb : b < 32) (hc : c < 32) :
    isSet (setBit x b) c ↔ isSet x c ∨ c = b := by
  rw [isSet_iff hc, isSet_iff hc, setBit, ← BitVec.twoPow_eq, BitVec.getLsbD_or,
    BitVec.getLsbD_twoPow]
  simp [hb, eq_comm (a := c)]

theorem isSet_clrBit {x : BitVec 32} {b c : Nat} (hb : b < 32) (hc : c < 32) :
    isSet (clrBit x b) c ↔ isSet x c ∧ c ≠ b := by
  rw [isSet_iff hc, isSet_iff hc, clrBit, ← BitVec.twoPow_eq, BitVec.getLsbD_and,
    BitVec.getLsbD_not, BitVec.getLsbD_twoPow]
  simp [hb, hc, eq_comm (a := c)]

/-- The number of a list's event bit. -/
def Which.index : Which → Nat
  | .read => 0
  | .write => 1
  | .except => 2

theorem has_poll_iff (e : Events) (w : Which) : has e w.poll ↔ e.getLsbD w.index = true := by
  cases w
  · exact and_bit_ne_zero e (i := 0) (by decide)
  · exact and_bit_ne_zero e (i := 1) (by decide)
  · exact and_bit_ne_zero e (i := 2) (by decide)

theorem has_sync_iff (e : Events) : has e pollSync ↔ e.getLsbD 15 = true :=
  and_bit_ne_zero e (i := 15) (by decide)

section
variable (e f : Events) (v w : Which)

@[simp] theorem has_or : has (e ||| f) w.poll ↔ has e w.poll ∨ has f w.poll := by
  simp [has_poll_iff]

@[simp] theorem has_and : has (e &&& f) w.poll ↔ has e w.poll ∧ has f w.poll := by
  simp [has_poll_iff]

@[simp] theorem has_or_sync : has (e ||| f) pollSync ↔ has e pollSync ∨ has f pollSync := by
  simp [has_sync_iff]

@[simp] theorem has_and_sync : has (e &&& f) pollSync ↔ has e pollSync ∧ has f pollSync := by
  simp [has_sync_iff]

@[simp] theorem has_poll : has v.poll w.poll ↔ v = w := by
  cases v <;> cases w <;> decide

@[simp] theorem poll_not_sync : ¬has w.poll pollSync := by
  cases w <;> decide

@[simp] theorem sync_not_poll : ¬has pollSync w.poll := by
  cases w <;> decide

@[simp] theorem sync_has_sync : has pollSync pollSync := by decide

@[simp] theorem zero_has : ¬has 0#16 f := by
  simp [has]

end

/-! ## What is requested and what occurs -/

/-- A descriptor's bit in a list. -/
def bit (m : Which → Nat → BitVec 32) (w : Which) (f : Nat) : Prop :=
  isSet (m w (f / nbits)) (f % nbits)

instance (m : Which → Nat → BitVec 32) (w : Which) (f : Nat) : Decidable (bit m w f) :=
  inferInstanceAs (Decidable (isSet _ _))

/-- The poll of the descriptor fails with an error other than EINTR and EBADF. -/
def Failed (env : Env) (f : Nat) : Prop :=
  ((env.poll f).rc ≠ 0 ∧ (env.poll f).rc ≠ EINTR ∧ (env.poll f).rc ≠ EBADF) ∨
    has (env.poll f).rtn (pollHup ||| pollErr)

instance (f : Nat) : Decidable (Failed env f) := inferInstanceAs (Decidable (_ ∨ _))

variable (a env)

/-- The descriptor is given in the list. -/
def Asked (f : Nat) (w : Which) : Prop := a.present w ∧ bit a.mask w f

/-- When the descriptor's turn comes, an event is known, or no waiting is wanted: polls are
synchronous from here on and nothing is notified to them. -/
def KnownFd (f : Nat) : Prop :=
  chkTimeout a.timeout = some pollSync ∨
    ∃ g < f, (∃ w, Asked a g w) ∧ (Failed env g ∨ (env.poll g).rtn ≠ 0 ∨ (env.poll g).off)

/-- The event the list asks for is notified to a control block of the descriptor. -/
def NotifiedFd (f : Nat) (w : Which) : Prop :=
  ¬KnownFd a env f ∧ ∃ cb ∈ (env.poll f).cbs, has cb.1 w.poll ∧ has cb.2 w.poll

/-- The event the list asks for has occurred. -/
def OccurredFd (f : Nat) (w : Which) : Prop :=
  has (env.poll f).rtn w.poll ∨ NotifiedFd a env f w

/-- The list has an id at the position. -/
def Wanted (elem : Nat) (w : Which) : Prop := a.present w ∧ a.ids w elem ≠ -1

/-- The first list with the same id there: the entry is polled with its call. -/
def owner (elem : Nat) (w : Which) : Which :=
  if a.present .read ∧ a.ids .read elem = a.ids w elem then .read
  else if a.present .write ∧ a.ids .write elem = a.ids w elem then .write
  else w

/-- A later call at the same position polls another id. -/
def Early (elem : Nat) (w : Which) : Prop :=
  Wanted a elem w ∧ ∃ v, Wanted a elem v ∧ owner a elem v ∈ later (owner a elem w)

/-- The queue has what the list asks for. -/
def Ready (q : Queue) : Which → Prop
  | .read => q.data
  | .write => q.room
  | .except => False

/-- The call that polls the entry reports its event. -/
def Reported (elem : Nat) (w : Which) : Prop :=
  Wanted a elem w ∧ Ready (env.queue elem (owner a elem w)) w

/-- The same for the message queues. -/
def KnownMsg (elem : Nat) : Prop :=
  KnownFd a env (nfds a.nfdsmsgs) ∨
    ∃ e < elem, (∃ w, Reported a env e w) ∨ env.off e

/-- The event is notified to the control block of the entry's call, which has one when it reports
no event. -/
def NotifiedMsg (elem : Nat) (w : Which) : Prop :=
  Wanted a elem w ∧ ¬KnownMsg a env elem ∧
    (∀ v, owner a elem v = owner a elem w → ¬Reported a env elem v) ∧
    has (env.queue elem (owner a elem w)).notified w.poll

/-- The event of the entry has occurred. -/
def OccurredMsg (elem : Nat) (w : Which) : Prop :=
  Reported a env elem w ∨ NotifiedMsg a env elem w

section
open Classical

/-- The number of bits set below a descriptor. -/
noncomputable def bitCount (m : Which → Nat → BitVec 32) (f : Nat) : Nat :=
  ∑ w, ((Finset.range f).filter fun g => a.present w ∧ bit m w g).card

/-- The number of entries below a position that meet a condition. -/
noncomputable def entryCount (p : Nat → Which → Prop) (elem : Nat) : Nat :=
  ∑ w, ((Finset.range elem).filter fun e => p e w).card

end

/-- The result and the lists say exactly what is ready. -/
structure Exact (r : Returned) : Prop where
  bits : ∀ w f, f < nfds a.nfdsmsgs → a.present w → bit r.mask w f →
    Asked a f w ∧ (Failed env f ∨ OccurredFd a env f w)
  bits_kept : ∀ w f, f < nfds a.nfdsmsgs → Asked a f w → has (env.poll f).rtn w.poll →
    bit r.mask w f
  ids : ∀ w e, e < nmsgs a.nfdsmsgs → a.present w →
    r.ids w e = -1 ∨ r.ids w e = a.ids w e ∧ OccurredMsg a env e w
  ids_kept : ∀ w e, e < nmsgs a.nfdsmsgs → Reported a env e w → r.ids w e = a.ids w e
  low : nfds r.result = bitCount a r.mask (nfds a.nfdsmsgs)
  high : nmsgs r.result =
    entryCount (fun e w => a.present w ∧ r.ids w e ≠ -1) (nmsgs a.nfdsmsgs)

/-- Wherever a call reports an event, the entries polled by an earlier call at the same position
are notified, and the entries with an event can be counted in the upper half. -/
structure Settled : Prop where
  early : ∀ e < nmsgs a.nfdsmsgs, (∃ w, Reported a env e w) →
    ∀ w, Early a e w → NotifiedMsg a env e w
  count : entryCount (OccurredMsg a env) (nmsgs a.nfdsmsgs) < 2 ^ 16

/-! ## Counting -/

variable {a env} {f g fd elem : Nat} {v w : Which} {s s' : Sel} {m m' : Which → Nat → BitVec 32}

theorem sum_which {M : Type} [AddCommMonoid M] (p : Which → M) :
    ∑ w, p w = p .read + (p .write + p .except) := by
  have huniv : (Finset.univ : Finset Which) = {.read, .write, .except} := rfl
  rw [huniv, Finset.sum_insert (by decide), Finset.sum_insert (by decide), Finset.sum_singleton]

/-- A count over the three lists, one after the other. -/
theorem countP_lists (p : Which → Prop) [DecidablePred p] :
    lists.countP (fun w => decide (p w)) = ∑ w, if p w then 1 else 0 := by
  rw [sum_which]
  simp only [lists, List.countP_cons, List.countP_nil, decide_eq_true_eq]
  ring

theorem mem_lists (w : Which) : w ∈ lists := by cases w <;> decide

theorem nodup_lists : lists.Nodup := by decide

theorem bitCount_congr (h : ∀ w, ∀ g < f, a.present w → (bit m w g ↔ bit m' w g)) :
    bitCount a m f = bitCount a m' f := by
  refine Finset.sum_congr rfl fun w _ => congrArg Finset.card (Finset.filter_congr ?_)
  intro g hg
  exact and_congr_right (h w g (Finset.mem_range.mp hg))

theorem bitCount_succ (m : Which → Nat → BitVec 32) (f : Nat) :
    bitCount a m (f + 1) =
      bitCount a m f + ∑ w, if a.present w ∧ bit m w f then 1 else 0 := by
  unfold bitCount
  rw [← Finset.sum_add_distrib]
  refine Finset.sum_congr rfl fun w _ => ?_
  rw [Finset.range_add_one, Finset.filter_insert]
  split
  · rw [Finset.card_insert_of_notMem (by simp)]
  · rfl

open Classical in
theorem entryCount_succ (p : Nat → Which → Prop) (elem : Nat) :
    entryCount p (elem + 1) = entryCount p elem + ∑ w, if p elem w then 1 else 0 := by
  unfold entryCount
  rw [← Finset.sum_add_distrib]
  refine Finset.sum_congr rfl fun w _ => ?_
  rw [Finset.range_add_one, Finset.filter_insert]
  split
  · rw [Finset.card_insert_of_notMem (by simp)]
  · rfl

open Classical in
theorem entryCount_congr {p q : Nat → Which → Prop} (h : ∀ w, ∀ e < elem, (p e w ↔ q e w)) :
    entryCount p elem = entryCount q elem := by
  refine Finset.sum_congr rfl fun w _ => congrArg Finset.card (Finset.filter_congr ?_)
  exact fun e he => h w e (Finset.mem_range.mp he)

theorem bit_update {x : BitVec 32} :
    bit (Function.update m v (Function.update (m v) (f / nbits) x)) w g ↔
      if w = v ∧ g / nbits = f / nbits then isSet x (g % nbits) else bit m w g := by
  unfold bit
  by_cases hw : w = v
  · subst hw
    by_cases hg : g / nbits = f / nbits <;> simp [hg]
  · simp [hw]

theorem bit_lt (f : Nat) : f % nbits < 32 := Nat.mod_lt _ (by decide)

theorem column_eq (hd : g / nbits = f / nbits) : g % nbits = f % nbits ↔ g = f := by
  unfold nbits at *
  omega

theorem bit_clrBit :
    bit (Function.update m v (Function.update (m v) (f / nbits)
      (clrBit (m v (f / nbits)) (f % nbits)))) w g ↔ bit m w g ∧ ¬(w = v ∧ g = f) := by
  rw [bit_update]
  by_cases h : w = v ∧ g / nbits = f / nbits
  · obtain ⟨rfl, hd⟩ := h
    rw [if_pos ⟨rfl, hd⟩, isSet_clrBit (bit_lt f) (bit_lt g), ne_eq, column_eq hd, bit, hd]
    simp
  · rw [if_neg h]
    exact ⟨fun hb => ⟨hb, fun he => h ⟨he.1, he.2 ▸ rfl⟩⟩, And.left⟩

theorem bit_setBit :
    bit (Function.update m v (Function.update (m v) (f / nbits)
      (setBit (m v (f / nbits)) (f % nbits)))) w g ↔ bit m w g ∨ w = v ∧ g = f := by
  rw [bit_update]
  by_cases h : w = v ∧ g / nbits = f / nbits
  · obtain ⟨rfl, hd⟩ := h
    rw [if_pos ⟨rfl, hd⟩, isSet_setBit (bit_lt f) (bit_lt g), column_eq hd, bit, hd]
    simp
  · rw [if_neg h]
    exact ⟨Or.inl, fun hb => hb.resolve_right fun he => h ⟨he.1, he.2 ▸ rfl⟩⟩

theorem bind_ok {α β : Type} {x : Except Stop α} {k : α → Except Stop β} {y : β}
    (h : x >>= k = .ok y) : ∃ z, x = .ok z ∧ k z = .ok y := by
  cases x with
  | error e => cases h
  | ok z => exact ⟨z, rfl, h⟩

/-! ## Descriptors -/

variable {l : List Which} {req rtn : Events}

open Classical in
theorem foldl_ask (s : Sel) (elem b : Nat) (l : List Which) (r : Events × Int) :
    (∀ v, has (l.foldl (ask a s elem b) r).1 v.poll ↔
      has r.1 v.poll ∨ v ∈ l ∧ a.present v ∧ isSet (s.mask v elem) b) ∧
    (has (l.foldl (ask a s elem b) r).1 pollSync ↔ has r.1 pollSync) ∧
    (l.foldl (ask a s elem b) r).2 =
      r.2 + l.countP (fun v => decide (a.present v ∧ isSet (s.mask v elem) b)) := by
  induction l generalizing r with
  | nil => simp
  | cons x l ih =>
    obtain ⟨hreq, hsync, hnum⟩ := ih (ask a s elem b r x)
    rw [List.foldl_cons]
    by_cases hx : a.present x ∧ isSet (s.mask x elem) b
    · have he : ask a s elem b r x = (r.1 ||| x.poll, r.2 + 1) := if_pos hx
      rw [he] at hreq hsync hnum ⊢
      refine ⟨fun v => ?_, by simpa using hsync, ?_⟩
      · rw [hreq, has_or, has_poll, List.mem_cons]
        constructor
        · rintro ((h | rfl) | h)
          · exact Or.inl h
          · exact Or.inr ⟨Or.inl rfl, hx⟩
          · exact Or.inr ⟨Or.inr h.1, h.2⟩
        · rintro (h | ⟨rfl | h, hv⟩)
          · exact Or.inl (Or.inl h)
          · exact Or.inl (Or.inr rfl)
          · exact Or.inr ⟨h, hv⟩
      · rw [hnum, List.countP_cons, if_pos (by simpa using hx)]
        push_cast
        ring
    · have he : ask a s elem b r x = r := if_neg hx
      rw [he] at hreq hsync hnum ⊢
      refine ⟨fun v => ?_, hsync, ?_⟩
      · rw [hreq, List.mem_cons]
        refine or_congr_right ⟨fun h => ⟨Or.inr h.1, h.2⟩, fun h => ⟨?_, h.2⟩⟩
        exact h.1.resolve_left fun hvx => hx (hvx ▸ h.2)
      · rw [hnum, List.countP_cons_of_neg (by simpa using hx)]

/-- Nothing but the bits, the ids and the counters differs. -/
structure SameRest (s s' : Sel) : Prop where
  reqevMsk : s'.reqevMsk = s.reqevMsk
  reqevents : s'.reqevents = s.reqevents
  selchn : s'.selchn = s.selchn

/-- The bits turned off. -/
def Off (a : Args) (req rtn : Events) (w : Which) : Prop :=
  has req w.poll ∧ ¬has rtn w.poll ∧ a.present w

open Classical in
theorem foldl_turnOff (req rtn : Events) (f : Nat) (hl : l.Nodup) (s : Sel) :
    (∀ w g, bit (l.foldl (turnOff a req rtn (f / nbits) (f % nbits)) s).mask w g ↔
      bit s.mask w g ∧ ¬(w ∈ l ∧ Off a req rtn w ∧ g = f)) ∧
    (l.foldl (turnOff a req rtn (f / nbits) (f % nbits)) s).numFdes =
      s.numFdes - l.countP (fun w => decide (Off a req rtn w)) ∧
    (l.foldl (turnOff a req rtn (f / nbits) (f % nbits)) s).ids = s.ids ∧
    (l.foldl (turnOff a req rtn (f / nbits) (f % nbits)) s).numMsgs = s.numMsgs ∧
    SameRest s (l.foldl (turnOff a req rtn (f / nbits) (f % nbits)) s) := by
  induction l generalizing s with
  | nil => exact ⟨by simp, by simp, rfl, rfl, rfl, rfl, rfl⟩
  | cons x l ih =>
    obtain ⟨hbits, hnum, hids, hmsgs, hrest⟩ :=
      ih (List.nodup_cons.mp hl).2 (turnOff a req rtn (f / nbits) (f % nbits) s x)
    rw [List.foldl_cons]
    by_cases hx : Off a req rtn x
    · have he : turnOff a req rtn (f / nbits) (f % nbits) s x = { s with
          mask := Function.update s.mask x (Function.update (s.mask x) (f / nbits)
            (clrBit (s.mask x (f / nbits)) (f % nbits)))
          numFdes := s.numFdes - 1 } := if_pos hx
      rw [he] at hbits hnum hids hmsgs hrest ⊢
      refine ⟨fun w g => ?_, ?_, hids, hmsgs, ⟨hrest.1, hrest.2, hrest.3⟩⟩
      · rw [hbits, bit_clrBit, List.mem_cons, and_assoc]
        refine and_congr_right fun _ => ?_
        constructor
        · rintro ⟨h1, h2⟩ ⟨rfl | hw, ho, hg⟩
          · exact h1 ⟨rfl, hg⟩
          · exact h2 ⟨hw, ho, hg⟩
        · refine fun h => ⟨fun hg => h ⟨Or.inl hg.1, hg.1 ▸ hx, hg.2⟩,
            fun hg => h ⟨Or.inr hg.1, hg.2⟩⟩
      · rw [hnum, List.countP_cons, if_pos (by simpa using hx)]
        push_cast
        ring
    · have he : turnOff a req rtn (f / nbits) (f % nbits) s x = s := if_neg hx
      rw [he] at hbits hnum hids hmsgs hrest ⊢
      refine ⟨fun w g => ?_, ?_, hids, hmsgs, hrest⟩
      · rw [hbits, List.mem_cons]
        refine and_congr_right fun _ => not_congr ⟨fun h => ⟨Or.inr h.1, h.2⟩, fun h => ⟨?_, h.2⟩⟩
        exact h.1.resolve_left fun hwx => hx (hwx ▸ h.2.1)
      · rw [hnum, List.countP_cons_of_neg (by simpa using hx)]

/-- Control blocks are registered unless the poll is synchronous. -/
theorem mem_registered {chain : List SelCb} {cb : SelCb} :
    cb ∈ registered env f req chain ↔ cb ∈ chain ∨ ¬has req pollSync ∧
      ∃ c ∈ (env.poll f).cbs, cb = ⟨false, f, 0, req &&& (c.1 ||| pollSync), c.2⟩ := by
  unfold registered
  induction (env.poll f).cbs generalizing chain with
  | nil => simp
  | cons c cbs ih =>
    rw [List.foldl_cons, ih]
    unfold selreg
    by_cases hsync : has req pollSync
    · simp [hsync]
    · simp [hsync, or_assoc, or_comm]

/-- The chain's notices for a list's bit at a descriptor. -/
def FdHit (chain : List SelCb) (f : Nat) (w : Which) : Prop :=
  ∃ cb ∈ chain, cb.corl = f ∧ has (cb.rtnevents &&& cb.reqevents) w.poll

/-- The state between the polls: the descriptors below `f` are done. -/
structure Columns (a : Args) (env : Env) (f : Nat) (s : Sel) : Prop where
  rest : ∀ w g, f ≤ g → (bit s.mask w g ↔ bit a.mask w g)
  done : ∀ w, ∀ g < f, a.present w →
    (bit s.mask w g ↔ Asked a g w ∧ (Failed env g ∨ has (env.poll g).rtn w.poll))
  ids : s.ids = a.ids
  fdes : s.numFdes = bitCount a s.mask f
  msgs : s.numMsgs = 0
  sync : KnownFd a env f ∧ s.reqevMsk = pollSync ∨ ¬KnownFd a env f ∧ s.reqevMsk = 0
  chain : ∀ cb ∈ s.selchn, cb.msg = false ∧ cb.corl < f
  hit : ∀ w g, FdHit s.selchn g w ↔ g < f ∧ Asked a g w ∧ NotifiedFd a env g w

theorem knownFd_succ : KnownFd a env (f + 1) ↔ KnownFd a env f ∨
    (∃ w, Asked a f w) ∧ (Failed env f ∨ (env.poll f).rtn ≠ 0 ∨ (env.poll f).off) := by
  unfold KnownFd
  constructor
  · rintro (h | ⟨g, hg, h⟩)
    · exact Or.inl (Or.inl h)
    · rcases Nat.lt_succ_iff_lt_or_eq.mp hg with hlt | rfl
      · exact Or.inl (Or.inr ⟨g, hlt, h⟩)
      · exact Or.inr h
  · rintro ((h | ⟨g, hg, h⟩) | h)
    · exact Or.inl h
    · exact Or.inr ⟨g, by omega, h⟩
    · exact Or.inr ⟨f, by omega, h⟩

/-- The requested events and the count after the three lists have been looked at. -/
def asked (a : Args) (f : Nat) (s : Sel) : Events × Int :=
  lists.foldl (ask a s (f / nbits) (f % nbits)) (s.reqevMsk, s.numFdes)

namespace Columns

theorem asked_iff (hI : Columns a env f s) :
    (a.present w ∧ isSet (s.mask w (f / nbits)) (f % nbits)) ↔ Asked a f w :=
  and_congr_right fun _ => hI.rest w f le_rfl

theorem known_iff (hI : Columns a env f s) : has s.reqevMsk pollSync ↔ KnownFd a env f := by
  rcases hI.sync with ⟨hk, hs⟩ | ⟨hk, hs⟩ <;> simp [hk, hs]

theorem no_poll (hI : Columns a env f s) : ¬has s.reqevMsk w.poll := by
  rcases hI.sync with ⟨_, hs⟩ | ⟨_, hs⟩ <;> simp [hs]

theorem has_asked (hI : Columns a env f s) : has (asked a f s).1 w.poll ↔ Asked a f w := by
  obtain ⟨hreq, _, _⟩ := foldl_ask (a := a) s (f / nbits) (f % nbits) lists (s.reqevMsk, s.numFdes)
  rw [asked, hreq, hI.asked_iff]
  simp [hI.no_poll, mem_lists]

theorem asked_sync (hI : Columns a env f s) :
    has (asked a f s).1 pollSync ↔ KnownFd a env f := by
  obtain ⟨_, hsync, _⟩ := foldl_ask (a := a) s (f / nbits) (f % nbits) lists
    (s.reqevMsk, s.numFdes)
  rw [asked, hsync, hI.known_iff]

open Classical in
theorem asked_count (hI : Columns a env f s) :
    (asked a f s).2 = s.numFdes + ((∑ w, if Asked a f w then 1 else 0 : Nat) : Int) := by
  obtain ⟨_, _, hnum⟩ := foldl_ask (a := a) s (f / nbits) (f % nbits) lists (s.reqevMsk, s.numFdes)
  rw [asked, hnum, ← countP_lists]
  simp only [hI.asked_iff]

end Columns

/-- The bits of a polled descriptor that are turned off. -/
def Dropped (a : Args) (env : Env) (f : Nat) (w : Which) : Prop :=
  Asked a f w ∧ ¬(Failed env f ∨ has (env.poll f).rtn w.poll)

/-- What the poll of a descriptor makes of the state. -/
structure Polled (a : Args) (env : Env) (f : Nat) (s s' : Sel) : Prop where
  bits : ∀ w g, bit s'.mask w g ↔ bit s.mask w g ∧ ¬(g = f ∧ Dropped a env f w)
  count : ∃ n : Nat, n = (open Classical in ∑ w, if Dropped a env f w then 1 else 0) ∧
    s'.numFdes = (asked a f s).2 - (n : Int)
  ids : s'.ids = s.ids
  msgs : s'.numMsgs = s.numMsgs
  chain : s'.selchn = registered env f (asked a f s).1 s.selchn
  known : Failed env f ∨ (env.poll f).rtn ≠ 0 ∨ (env.poll f).off → s'.reqevMsk = pollSync
  unknown : ¬(Failed env f ∨ (env.poll f).rtn ≠ 0 ∨ (env.poll f).off) → s'.reqevMsk = s.reqevMsk

theorem column_polled (hI : Columns a env f s) (hask : ∃ w, Asked a f w)
    (h : column a env f s = .ok s') : Polled a env f s s' := by
  unfold column at h
  dsimp only at h
  rw [if_neg (by
    obtain ⟨w, hw⟩ := hask
    exact fun hall => hall w (hI.asked_iff.mpr hw))] at h
  change (if _ then _ else if _ then _ else _) = _ at h
  by_cases hok : (env.poll f).rc = 0 ∧ ¬has (env.poll f).rtn (pollHup ||| pollErr)
  · rw [if_pos hok] at h
    have hfail : ¬Failed env f := by
      rintro (hf | hf)
      · exact hf.1 hok.1
      · exact hok.2 hf
    obtain ⟨hbits, hnum, hids, hmsgs, hrest⟩ := foldl_turnOff (a := a)
      (asked a f s).1 (env.poll f).rtn f nodup_lists { s with
        numFdes := (asked a f s).2
        reqevents := (asked a f s).1
        selchn := registered env f (asked a f s).1 s.selchn }
    have hoff : ∀ w, Off a (asked a f s).1 (env.poll f).rtn w ↔ Dropped a env f w := by
      intro w
      unfold Off Dropped
      rw [hI.has_asked]
      simp only [hfail, false_or]
      exact ⟨fun ho => ⟨ho.1, ho.2.1⟩, fun ho => ⟨ho.1, ho.2, ho.1.1⟩⟩
    obtain rfl := Except.ok.inj h
    refine ⟨fun w g => ?_, ⟨_, rfl, ?_⟩, hids, hmsgs, hrest.selchn, fun hk => ?_, fun hk => ?_⟩
    · refine (hbits w g).trans (and_congr_right fun _ => not_congr ?_)
      rw [hoff]
      simp [mem_lists, and_comm]
    · rw [← countP_lists, ← show Off a (asked a f s).1 (env.poll f).rtn = Dropped a env f from
        funext fun w => propext (hoff w)]
      exact hnum
    · exact if_pos (by simpa [hfail] using hk)
    · exact (if_neg (by simpa [hfail] using hk)).trans hrest.reqevMsk
  · rw [if_neg hok] at h
    split at h
    · cases h
    · rename_i hrc
      have hfail : Failed env f := by
        by_cases h0 : (env.poll f).rc = 0
        · exact Or.inr (not_not.mp fun hh => hok ⟨h0, hh⟩)
        · exact Or.inl ⟨h0, fun he => hrc (Or.inl he), fun he => hrc (Or.inr he)⟩
      have hdrop : ∀ w, ¬Dropped a env f w := fun w hw => hw.2 (Or.inl hfail)
      have hne : (asked a f s).1 &&& ~~~pollSync ≠ 0 := by
        obtain ⟨w, hw⟩ := hask
        intro hz
        have : has ((asked a f s).1 &&& ~~~pollSync) w.poll := by
          rw [has_and, hI.has_asked]
          exact ⟨hw, by cases w <;> decide⟩
        rw [hz] at this
        exact zero_has _ this
      obtain rfl := Except.ok.inj h
      refine ⟨fun w g => ?_, ⟨_, rfl, ?_⟩, rfl, rfl, rfl, fun _ => ?_, fun hk => ?_⟩
      · simp only [hdrop, and_false, not_false_eq_true, and_true]
        rfl
      · simp [hdrop, observe]
        rfl
      · exact if_pos (Or.inl hne)
      · exact absurd (Or.inl hfail) hk

theorem fdHit_registered {chain : List SelCb} : FdHit (registered env f req chain) g w ↔
    FdHit chain g w ∨ f = g ∧ has req w.poll ∧ ¬has req pollSync ∧
      ∃ c ∈ (env.poll f).cbs, has c.1 w.poll ∧ has c.2 w.poll := by
  unfold FdHit
  constructor
  · rintro ⟨cb, hcb, hg, hhas⟩
    rcases mem_registered.mp hcb with hmem | ⟨hsync, c, hc, rfl⟩
    · exact Or.inl ⟨cb, hmem, hg, hhas⟩
    · simp only [has_and, has_or, sync_not_poll, or_false] at hhas
      exact Or.inr ⟨hg, hhas.2.1, hsync, c, hc, hhas.2.2, hhas.1⟩
  · rintro (⟨cb, hmem, h⟩ | ⟨hg, hreq, hsync, c, hc, h1, h2⟩)
    · exact ⟨cb, mem_registered.mpr (Or.inl hmem), h⟩
    · refine ⟨_, mem_registered.mpr (Or.inr ⟨hsync, c, hc, rfl⟩), hg, ?_⟩
      simp only [has_and, has_or, sync_not_poll, or_false]
      exact ⟨h2, hreq, h1⟩

namespace Columns

/-- A descriptor no list asks for. -/
theorem skip (hI : Columns a env f s) (hask : ¬∃ w, Asked a f w) : Columns a env (f + 1) s where
  rest w g hg := hI.rest w g (by omega)
  done w g hg hp := by
    rcases Nat.lt_succ_iff_lt_or_eq.mp hg with hlt | rfl
    · exact hI.done w g hlt hp
    · rw [hI.rest w g le_rfl]
      exact ⟨fun hb => absurd ⟨w, hp, hb⟩ hask, fun hb => hb.1.2⟩
  ids := hI.ids
  fdes := by
    have hnone : ∀ w, ¬(a.present w ∧ bit s.mask w f) := by
      rintro w ⟨hp, hb⟩
      exact hask ⟨w, hp, (hI.rest w f le_rfl).mp hb⟩
    rw [hI.fdes, bitCount_succ]
    simp [hnone]
  msgs := hI.msgs
  sync := by
    have hstep : KnownFd a env (f + 1) ↔ KnownFd a env f :=
      knownFd_succ.trans (or_iff_left fun he => hask he.1)
    rw [hstep]
    exact hI.sync
  chain cb hcb := ⟨(hI.chain cb hcb).1, by have := (hI.chain cb hcb).2; omega⟩
  hit w g := by
    rw [hI.hit]
    refine and_congr_left fun hg => ⟨fun hlt => by omega, fun hlt => ?_⟩
    exact (Nat.lt_succ_iff_lt_or_eq.mp hlt).resolve_right fun he => hask ⟨w, he ▸ hg.1⟩

/-- A polled descriptor. -/
theorem polled (hI : Columns a env f s) (hask : ∃ w, Asked a f w) (h : Polled a env f s s') :
    Columns a env (f + 1) s' where
  rest w g hg := by
    rw [h.bits, hI.rest w g (by omega)]
    exact and_iff_left fun he => by omega
  done w g hg hp := by
    rw [h.bits]
    rcases Nat.lt_succ_iff_lt_or_eq.mp hg with hlt | rfl
    · rw [hI.done w g hlt hp]
      exact and_iff_left fun he => by omega
    · rw [hI.rest w g le_rfl]
      constructor
      · rintro ⟨hb, hd⟩
        exact ⟨⟨hp, hb⟩, not_not.mp fun hn => hd ⟨rfl, ⟨hp, hb⟩, hn⟩⟩
      · exact fun hb => ⟨hb.1.2, fun hd => hd.2.2 hb.2⟩
  ids := h.ids.trans hI.ids
  fdes := by
    classical
    obtain ⟨n, hn, hcount⟩ := h.count
    have hbelow : bitCount a s'.mask f = bitCount a s.mask f := by
      refine bitCount_congr fun w g hg _ => ?_
      rw [h.bits]
      exact and_iff_left fun he => by omega
    have hsum : (∑ w, if Asked a f w then 1 else 0 : Nat) =
        (∑ w, if a.present w ∧ bit s'.mask w f then 1 else 0) + n := by
      rw [hn, ← Finset.sum_add_distrib]
      refine Finset.sum_congr rfl fun w _ => ?_
      have hb : (a.present w ∧ bit s'.mask w f) ↔ Asked a f w ∧ ¬Dropped a env f w := by
        rw [h.bits, hI.rest w f le_rfl]
        simp [Asked, and_assoc]
      by_cases hw : Asked a f w
      · by_cases hd : Dropped a env f w <;> simp [hb, hw, hd]
      · simp [hb, hw, show ¬Dropped a env f w from fun hd => hw hd.1]
    rw [hcount, hI.asked_count, hI.fdes, bitCount_succ, hbelow, hsum]
    push_cast
    ring
  msgs := h.msgs.trans hI.msgs
  sync := by
    by_cases hk : Failed env f ∨ (env.poll f).rtn ≠ 0 ∨ (env.poll f).off
    · exact Or.inl ⟨knownFd_succ.mpr (Or.inr ⟨hask, hk⟩), h.known hk⟩
    · have hstep : KnownFd a env (f + 1) ↔ KnownFd a env f :=
        knownFd_succ.trans (or_iff_left fun he => hk he.2)
      rw [h.unknown hk, hstep]
      exact hI.sync
  chain cb hcb := by
    rw [h.chain] at hcb
    rcases mem_registered.mp hcb with hmem | ⟨_, c, _, rfl⟩
    · exact ⟨(hI.chain cb hmem).1, by have := (hI.chain cb hmem).2; omega⟩
    · exact ⟨rfl, Nat.lt_succ_self f⟩
  hit w g := by
    rw [h.chain, fdHit_registered, hI.hit, hI.has_asked, hI.asked_sync]
    unfold NotifiedFd
    constructor
    · rintro (⟨hg, ha⟩ | ⟨rfl, ha, hk⟩)
      · exact ⟨by omega, ha⟩
      · exact ⟨Nat.lt_succ_self f, ha, hk⟩
    · rintro ⟨hg, ha, hk⟩
      rcases Nat.lt_succ_iff_lt_or_eq.mp hg with hlt | rfl
      · exact Or.inl ⟨hlt, ha, hk⟩
      · exact Or.inr ⟨rfl, ha, hk⟩

theorem column (hI : Columns a env f s) (h : column a env f s = .ok s') :
    Columns a env (f + 1) s' := by
  by_cases hask : ∃ w, Asked a f w
  · exact hI.polled hask (column_polled hI hask h)
  · have hnone : ∀ w, ¬(a.present w ∧ isSet (s.mask w (f / nbits)) (f % nbits)) :=
      fun w hw => hask ⟨w, hI.asked_iff.mp hw⟩
    rw [Select.column] at h
    dsimp only at h
    rw [if_pos hnone] at h
    exact Except.ok.inj h ▸ hI.skip hask

theorem bitLoop {fdes n : Nat} (hf : f ≤ fdes) (hI : Columns a env f s)
    (h : bitLoop a env fdes n f s = .ok s') : Columns a env (min (f + n) fdes) s' := by
  induction n generalizing f s with
  | zero =>
    obtain rfl := Except.ok.inj h
    rwa [Nat.add_zero, min_eq_left hf]
  | succ n ih =>
    rw [Select.bitLoop] at h
    by_cases hlt : f < fdes
    · rw [if_pos hlt] at h
      obtain ⟨s₁, hs₁, hs'⟩ := bind_ok h
      have := ih hlt (hI.column hs₁) hs'
      rwa [Nat.succ_add_eq_add_succ] at this
    · rw [if_neg hlt] at h
      obtain rfl := Except.ok.inj h
      obtain rfl : f = fdes := by omega
      rwa [min_eq_right (by omega)]

/-- A word of descriptors no list asks for. -/
theorem skipWord {fdes : Nat} (n : Nat) (hf : f ≤ fdes) (hI : Columns a env f s)
    (hask : ∀ g, f ≤ g → g < f + n → ¬∃ w, Asked a g w) :
    Columns a env (min (f + n) fdes) s := by
  induction n generalizing f with
  | zero => rwa [Nat.add_zero, min_eq_left hf]
  | succ n ih =>
    by_cases hlt : f < fdes
    · have := ih hlt (hI.skip (hask f le_rfl (by omega)))
        fun g hg hgn => hask g (by omega) (by omega)
      rwa [Nat.succ_add_eq_add_succ] at this
    · obtain rfl : f = fdes := by omega
      rwa [min_eq_right (by omega)]

theorem wordLoop {fdes n : Nat} (hI : Columns a env (min (elem * nbits) fdes) s)
    (h : wordLoop a env fdes n elem s = .ok s') :
    Columns a env (min ((elem + n) * nbits) fdes) s' := by
  induction n generalizing elem s with
  | zero => exact Except.ok.inj h ▸ hI
  | succ n ih =>
    rw [Select.wordLoop] at h
    by_cases hlt : elem * nbits < fdes
    · rw [if_pos hlt] at h
      rw [min_eq_left hlt.le] at hI
      rw [show elem + (n + 1) = elem + 1 + n by omega]
      by_cases hzero : ∀ w, ¬(a.present w ∧ s.mask w elem ≠ 0)
      · rw [if_pos hzero] at h
        refine ih ?_ h
        rw [Nat.succ_mul]
        refine hI.skipWord nbits hlt.le fun g hg hgn => ?_
        rintro ⟨w, hp, hb⟩
        have hword : g / nbits = elem := by
          unfold nbits at *
          omega
        have hz : s.mask w elem = 0 := not_not.mp fun hne => hzero w ⟨hp, hne⟩
        rw [← hI.rest w g hg, bit, hword, hz] at hb
        exact hb (BitVec.zero_and ..)
      · rw [if_neg hzero] at h
        obtain ⟨s₁, hs₁, hs'⟩ := bind_ok h
        refine ih ?_ hs'
        rw [Nat.succ_mul]
        exact hI.bitLoop hlt.le hs₁
    · rw [if_neg hlt] at h
      have hle : fdes ≤ (elem + (n + 1)) * nbits := by
        unfold nbits at *
        omega
      rw [min_eq_right (by omega)] at hI
      rw [min_eq_right hle]
      exact Except.ok.inj h ▸ hI

end Columns

end Aix413.Select
