import Aix413.Lvm.CacheRing

namespace Aix413.Lvm.Mwc.Cache

open Lib.LinkedPool Lib.LinkedRing

variable {c : Cache} {e f : Ptr} {l : List Ptr} {q : BitVec 32 → List Ptr}

/-! ## The invariant -/

/-- The entries `l` in the order of their use, and the hash queues `q`. -/
structure Kept (c : Cache) (l : List Ptr) (q : BitVec 32 → List Ptr) : Prop where
  order : Order c l
  cells : ∀ e, e ∈ l ↔ e ≠ 0 ∧ e ≤ c.size
  linked : Linked c.hqNext c.hash q
  queued : ∀ {e a}, e ∈ q a ↔ e ∈ l ∧ c.state e ≠ .caclean ∧ caThash (c.part1 e).lvLtg = a
  unique : ∀ {e f}, e ∈ l → f ∈ l → c.state e ≠ .caclean → c.state f ≠ .caclean →
    (c.part1 e).lvLtg = (c.part1 f).lvLtg → (c.part1 e).lvMinor = (c.part1 f).lvMinor → e = f
  suffix : ∃ used clean, l = used ++ clean ∧ (∀ e ∈ used, c.state e ≠ .caclean) ∧
    ∀ e ∈ clean, c.state e = .caclean
  idle : ∀ {e}, e ∈ l → c.state e = .caclean → c.iocnt e = 0

/-- The same of all entries but `e`, which has no I/O and is on no queue. -/
structure Loose (c : Cache) (l : List Ptr) (q : BitVec 32 → List Ptr) (e : Ptr) : Prop where
  order : Order c l
  cells : ∀ e, e ∈ l ↔ e ≠ 0 ∧ e ≤ c.size
  linked : Linked c.hqNext c.hash q
  mem : e ∈ l
  noio : c.iocnt e = 0
  off : ∀ a, e ∉ q a
  queued : ∀ {f a}, f ≠ e →
    (f ∈ q a ↔ f ∈ l ∧ c.state f ≠ .caclean ∧ caThash (c.part1 f).lvLtg = a)
  unique : ∀ {f g}, f ∈ l → g ∈ l → f ≠ e → g ≠ e → c.state f ≠ .caclean →
    c.state g ≠ .caclean → (c.part1 f).lvLtg = (c.part1 g).lvLtg →
    (c.part1 f).lvMinor = (c.part1 g).lvMinor → f = g
  suffix : ∃ used clean, l.erase e = used ++ clean ∧ (∀ f ∈ used, c.state f ≠ .caclean) ∧
    ∀ f ∈ clean, c.state f = .caclean
  idle : ∀ {f}, f ∈ l → f ≠ e → c.state f = .caclean → c.iocnt f = 0

theorem useHead_fields (c : Cache) (e : Ptr) :
    (c.useHead e).size = c.size ∧ (c.useHead e).hash = c.hash ∧ (c.useHead e).hqNext = c.hqNext ∧
      (c.useHead e).state = c.state ∧ (c.useHead e).iocnt = c.iocnt ∧
      (c.useHead e).part1 = c.part1 := by
  unfold useHead
  split_ifs <;> exact ⟨rfl, rfl, rfl, rfl, rfl, rfl⟩

theorem useTail_fields (c : Cache) (e : Ptr) :
    (c.useTail e).size = c.size ∧ (c.useTail e).hash = c.hash ∧ (c.useTail e).hqNext = c.hqNext ∧
      (c.useTail e).state = c.state ∧ (c.useTail e).iocnt = c.iocnt ∧
      (c.useTail e).part1 = c.part1 := by
  unfold useTail
  split_ifs <;> exact ⟨rfl, rfl, rfl, rfl, rfl, rfl⟩

theorem mem_erase_or (e f : Ptr) (h : l.Nodup) (he : e ∈ l) :
    f ∈ e :: l.erase e ↔ f ∈ l := by
  rw [List.mem_cons, h.mem_erase_iff]
  constructor
  · rintro (rfl | h)
    · exact he
    · exact h.2
  · intro hf
    by_cases heq : f = e
    · exact .inl heq
    · exact .inr ⟨heq, hf⟩

namespace Kept

variable (h : Kept c l q)

include h

theorem nodup : l.Nodup := h.order.ring.nodup

theorem lst_mem : c.lst ∈ l := List.mem_of_head? h.order.head

theorem length : l.length = c.size := by
  have hperm : l.Perm (List.range' 1 c.size) := by
    rw [List.perm_ext_iff_of_nodup h.nodup List.nodup_range']
    intro e
    rw [h.cells, List.mem_range'_1, Nat.one_le_iff_ne_zero, Nat.lt_one_add_iff]
  simpa using hperm.length_eq

theorem queue_length (a : BitVec 32) : (q a).length ≤ c.size := by
  rw [← h.length]
  exact ((h.linked.chain a).nodup.subperm fun e he => (h.queued.mp he).1).length_le

/-- An entry without I/O that is clean already. -/
theorem loose_of_clean (he : e ∈ l) (hc : c.state e = .caclean) : Loose c l q e where
  order := h.order
  cells := h.cells
  linked := h.linked
  mem := he
  noio := h.idle he hc
  off a hm := (h.queued.mp hm).2.1 hc
  queued _ := h.queued
  unique hf hg _ _ := h.unique hf hg
  suffix := by
    obtain ⟨used, clean, rfl, hu, hcl⟩ := h.suffix
    have hnot : e ∉ used := fun hm => hu e hm hc
    refine ⟨used, clean.erase e, List.erase_append_right _ hnot, hu, ?_⟩
    exact fun f hf => hcl f (List.mem_of_mem_erase hf)
  idle hf _ := h.idle hf

/-- Taking an entry in use off its hash queue finds it there. -/
theorem qunlk (he : e ∈ l) (hs : c.state e ≠ .caclean) (hio : c.iocnt e = 0) :
    ∃ hash hqNext q', c.qunlk e = some { c with hash := hash, hqNext := hqNext } ∧
      Loose { c with hash := hash, hqNext := hqNext } l q' e ∧
      q' = Function.update q (caThash (c.part1 e).lvLtg)
        ((q (caThash (c.part1 e).lvLtg)).erase e) ∧
      ∀ f, f ∉ q (caThash (c.part1 e).lvLtg) → f ≠ e → hqNext f = c.hqNext f := by
  have hq : e ∈ q (caThash (c.part1 e).lvLtg) := h.queued.mpr ⟨he, hs, rfl⟩
  have hlen : (q (caThash (c.part1 e).lvLtg)).length ≤ c.size + 1 :=
    (h.queue_length _).trans (Nat.le_succ _)
  obtain ⟨prev, hbefore, hprev, hlinked⟩ := h.linked.unlink hq hlen
  have hmem := fun b j => h.linked.mem_erase hq (b := b) (j := j)
  simp only [Cache.qunlk, hbefore]
  refine ⟨_, _, _, rfl, ?_, rfl, ?_⟩
  · constructor
    case order => exact ⟨h.order.ring, h.order.head⟩
    case cells => exact h.cells
    case linked =>
      apply hlinked.congr
      intro a k hk
      exact Function.update_of_ne ((hmem a k).mp hk).2 _ _
    case mem => exact he
    case noio => exact hio
    case off => exact fun a hm => ((hmem a e).mp hm).2 rfl
    case queued =>
      intro f a hf
      rw [hmem]
      exact ⟨fun hm => h.queued.mp hm.1, fun hm => ⟨h.queued.mpr hm, hf⟩⟩
    case unique => exact fun hf hg _ _ => h.unique hf hg
    case suffix =>
      obtain ⟨used, clean, rfl, hu, hcl⟩ := h.suffix
      have hin : e ∈ used := by
        rcases List.mem_append.mp he with hm | hm
        · exact hm
        · exact absurd (hcl e hm) hs
      refine ⟨used.erase e, clean, List.erase_append_left _ hin, ?_, hcl⟩
      exact fun f hf => hu f (List.mem_of_mem_erase hf)
    case idle => exact fun hf _ => h.idle hf
  · intro f hf hne
    rw [Function.update_of_ne hne]
    apply unlinkNext_of_ne
    rintro p hp rfl
    exact hf (hprev _ hp)

/-- The search of a hash queue finds the entry in use of a track group. -/
theorem fnd_spec (minor : Nat) (ltg : BitVec 32) :
    c.fnd minor ltg = 0 ∧ (∀ e ∈ l, c.state e ≠ .caclean → (c.part1 e).lvLtg = ltg →
      (c.part1 e).lvMinor ≠ minor) ∨
    c.fnd minor ltg ∈ l ∧ c.state (c.fnd minor ltg) ≠ .caclean ∧
      (c.part1 (c.fnd minor ltg)).lvLtg = ltg ∧ (c.part1 (c.fnd minor ltg)).lvMinor = minor := by
  have hfind : c.fnd minor ltg = ((q (caThash ltg)).find? fun e =>
      decide ((c.part1 e).lvLtg = ltg ∧ (c.part1 e).lvMinor = minor)).getD 0 := by
    unfold fnd
    rw [find_eq (h.linked.chain _) (Nat.lt_succ_of_le (h.queue_length _))]
    rfl
  rw [hfind]
  cases hf : (q (caThash ltg)).find? fun e =>
      decide ((c.part1 e).lvLtg = ltg ∧ (c.part1 e).lvMinor = minor) with
  | none =>
    refine .inl ⟨rfl, ?_⟩
    intro e he hs ht hm
    have hq : e ∈ q (caThash ltg) := h.queued.mpr ⟨he, hs, ht ▸ rfl⟩
    have hno := List.find?_eq_none.mp hf e hq
    simp [ht, hm] at hno
  | some e =>
    have hq := h.queued.mp (List.mem_of_find?_eq_some hf)
    have hp := List.find?_some hf
    simp only [decide_eq_true_eq] at hp
    exact .inr ⟨hq.1, hq.2.1, hp.1, hp.2⟩

/-- Only the order of the ring changes. -/
theorem reorder {d : Cache} {m : List Ptr} (ho : Order d m) (hm : ∀ e, e ∈ m ↔ e ∈ l)
    (hf : d.size = c.size ∧ d.hash = c.hash ∧ d.hqNext = c.hqNext ∧ d.state = c.state ∧
      d.iocnt = c.iocnt ∧ d.part1 = c.part1)
    (hs : ∃ used clean, m = used ++ clean ∧ (∀ e ∈ used, c.state e ≠ .caclean) ∧
      ∀ e ∈ clean, c.state e = .caclean) : Kept d m q := by
  obtain ⟨h1, h2, h3, h4, h5, h6⟩ := hf
  constructor
  case order => exact ho
  case cells =>
    intro e
    rw [hm, h1]
    exact h.cells e
  case linked =>
    rw [h2, h3]
    exact h.linked
  case queued =>
    intro e a
    rw [hm, h4, h6]
    exact h.queued
  case unique =>
    intro e f
    rw [hm, hm, h4, h6]
    exact h.unique
  case suffix =>
    rw [h4]
    exact hs
  case idle =>
    intro e
    rw [hm, h4, h5]
    exact h.idle

theorem setIocnt (hs : c.state e ≠ .caclean) (n : BitVec 16) : Kept (c.setIocnt e n) l q where
  order := ⟨h.order.ring, h.order.head⟩
  cells := h.cells
  linked := h.linked
  queued := h.queued
  unique := h.unique
  suffix := h.suffix
  idle := by
    intro f hf hc
    have hne : f ≠ e := fun he => hs (he ▸ hc)
    change Function.update c.iocnt e n f = 0
    rw [Function.update_of_ne hne]
    exact h.idle hf hc

theorem useHead (he : e ∈ l) (hs : c.state e ≠ .caclean) :
    Kept (c.useHead e) (e :: l.erase e) q := by
  apply h.reorder (h.order.useHead he) (mem_erase_or e · h.nodup he) (useHead_fields c e)
  obtain ⟨used, clean, rfl, hu, hcl⟩ := h.suffix
  have hin : e ∈ used := by
    rcases List.mem_append.mp he with hm | hm
    · exact hm
    · exact absurd (hcl e hm) hs
  refine ⟨e :: used.erase e, clean, by rw [List.erase_append_left _ hin]; rfl, ?_, hcl⟩
  intro f hf
  rcases List.mem_cons.mp hf with rfl | hf
  · exact hs
  · exact hu f (List.mem_of_mem_erase hf)

end Kept

namespace Loose

variable (h : Loose c l q e)

include h

theorem nodup : l.Nodup := h.order.ring.nodup

theorem clear : Kept (c.clear e) (l.erase e ++ [e]) q := by
  obtain ⟨h1, h2, h3, h4, h5, h6⟩ := useTail_fields c e
  have hmem : ∀ f, f ∈ l.erase e ++ [e] ↔ f ∈ l := by
    intro f
    rw [← mem_erase_or e f h.nodup h.mem, List.mem_append, List.mem_singleton, List.mem_cons,
      or_comm]
  have hstate : (c.clear e).state = Function.update c.state e .caclean := by
    unfold Cache.clear setPart1 setState
    rw [h4]
  have hpart : (c.clear e).part1 = Function.update c.part1 e ⟨0, 0, 0⟩ := by
    unfold Cache.clear setPart1 setState
    rw [h6]
  have hclean : (c.clear e).state e = .caclean := by rw [hstate, Function.update_self]
  have hother : ∀ f, f ≠ e → (c.clear e).state f = c.state f ∧ (c.clear e).part1 f = c.part1 f := by
    intro f hf
    rw [hstate, hpart, Function.update_of_ne hf, Function.update_of_ne hf]
    exact ⟨rfl, rfl⟩
  constructor
  case order =>
    have ho := h.order.useTail h.mem
    exact ⟨ho.ring, ho.head⟩
  case cells =>
    intro f
    rw [hmem]
    change f ∈ l ↔ f ≠ 0 ∧ f ≤ (c.useTail e).size
    rw [h1]
    exact h.cells f
  case linked =>
    change Linked (c.useTail e).hqNext (c.useTail e).hash q
    rw [h2, h3]
    exact h.linked
  case queued =>
    intro f a
    by_cases hf : f = e
    · subst hf
      exact iff_of_false (h.off a) fun hm => hm.2.1 hclean
    · rw [hmem, (hother f hf).1, (hother f hf).2]
      exact h.queued hf
  case unique =>
    intro f g hfm hgm hfs hgs
    have hf : f ≠ e := fun he => hfs (he ▸ hclean)
    have hg : g ≠ e := fun he => hgs (he ▸ hclean)
    rw [(hother f hf).1] at hfs
    rw [(hother g hg).1] at hgs
    rw [(hother f hf).2, (hother g hg).2]
    exact h.unique ((hmem f).mp hfm) ((hmem g).mp hgm) hf hg hfs hgs
  case suffix =>
    obtain ⟨used, clean, hl, hu, hcl⟩ := h.suffix
    have hne : ∀ f, f ∈ used ++ clean → f ≠ e := by
      intro f hf he
      subst he
      exact h.nodup.not_mem_erase (hl ▸ hf)
    refine ⟨used, clean ++ [e], by rw [hl, List.append_assoc], ?_, ?_⟩
    · intro f hf
      rw [(hother f (hne f (List.mem_append_left _ hf))).1]
      exact hu f hf
    · intro f hf
      rcases List.mem_append.mp hf with hf | hf
      · rw [(hother f (hne f (List.mem_append_right _ hf))).1]
        exact hcl f hf
      · exact List.mem_singleton.mp hf ▸ hclean
  case idle =>
    intro f hf hs
    change (c.useTail e).iocnt f = 0
    rw [h5]
    by_cases heq : f = e
    · exact heq ▸ h.noio
    · rw [(hother f heq).1] at hs
      exact h.idle ((hmem f).mp hf) heq hs

/-- The entry is put in the record for a track group that has none. -/
theorem fill {p : CaMwcDp} (hnew : ∀ f ∈ l, f ≠ e → c.state f ≠ .caclean →
      (c.part1 f).lvLtg = p.lvLtg → (c.part1 f).lvMinor ≠ p.lvMinor) :
    Kept (c.fill e p) (e :: l.erase e)
      (Function.update q (caThash p.lvLtg) (e :: q (caThash p.lvLtg))) := by
  obtain ⟨h1, h2, h3, h4, h5, h6⟩ := useHead_fields c e
  have hmem := fun f => mem_erase_or e f h.nodup h.mem
  have hstate : (c.fill e p).state = Function.update c.state e .cachg := by
    unfold Cache.fill setPart1 setState setIocnt
    rw [h4]
  have hpart : (c.fill e p).part1 = Function.update c.part1 e p := by
    unfold Cache.fill setPart1 setState setIocnt
    rw [h6]
  have hself : (c.fill e p).state e = .cachg ∧ (c.fill e p).part1 e = p := by
    rw [hstate, hpart, Function.update_self, Function.update_self]
    exact ⟨rfl, rfl⟩
  have hother : ∀ f, f ≠ e → (c.fill e p).state f = c.state f ∧ (c.fill e p).part1 f = c.part1 f := by
    intro f hf
    rw [hstate, hpart, Function.update_of_ne hf, Function.update_of_ne hf]
    exact ⟨rfl, rfl⟩
  constructor
  case order =>
    have ho := h.order.useHead h.mem
    exact ⟨ho.ring, ho.head⟩
  case cells =>
    intro f
    rw [hmem]
    change f ∈ l ↔ f ≠ 0 ∧ f ≤ (c.useHead e).size
    rw [h1]
    exact h.cells f
  case linked =>
    change Linked (Function.update (c.useHead e).hqNext e ((c.useHead e).hash (caThash p.lvLtg)))
      (Function.update (c.useHead e).hash (caThash p.lvLtg) e) _
    rw [h2, h3]
    exact h.linked.push ((h.cells e).mp h.mem).1 h.off _
  case queued =>
    intro f a
    by_cases hf : f = e
    · subst hf
      rw [hself.1, hself.2]
      by_cases ha : a = caThash p.lvLtg
      · subst ha
        simp
      · rw [Function.update_of_ne ha]
        exact iff_of_false (h.off a) fun hm => ha hm.2.2.symm
    · rw [hmem, (hother f hf).1, (hother f hf).2, ← h.queued hf]
      by_cases ha : a = caThash p.lvLtg
      · subst ha
        simp [hf]
      · rw [Function.update_of_ne ha]
  case unique =>
    intro f g hfm hgm hfs hgs ht hm
    by_cases hf : f = e <;> by_cases hg : g = e
    · rw [hf, hg]
    · subst hf
      rw [(hother g hg).1] at hgs
      rw [hself.2, (hother g hg).2] at ht hm
      exact absurd hm.symm (hnew g ((hmem g).mp hgm) hg hgs ht.symm)
    · subst hg
      rw [(hother f hf).1] at hfs
      rw [hself.2, (hother f hf).2] at ht hm
      exact absurd hm (hnew f ((hmem f).mp hfm) hf hfs ht)
    · rw [(hother f hf).1] at hfs
      rw [(hother g hg).1] at hgs
      rw [(hother f hf).2, (hother g hg).2] at ht hm
      exact h.unique ((hmem f).mp hfm) ((hmem g).mp hgm) hf hg hfs hgs ht hm
  case suffix =>
    obtain ⟨used, clean, hl, hu, hcl⟩ := h.suffix
    have hne : ∀ f, f ∈ used ++ clean → f ≠ e := by
      intro f hf he
      subst he
      exact h.nodup.not_mem_erase (hl ▸ hf)
    refine ⟨e :: used, clean, by rw [hl]; rfl, ?_, ?_⟩
    · intro f hf
      rcases List.mem_cons.mp hf with rfl | hf
      · rw [hself.1]
        decide
      · rw [(hother f (hne f (List.mem_append_left _ hf))).1]
        exact hu f hf
    · intro f hf
      rw [(hother f (hne f (List.mem_append_right _ hf))).1]
      exact hcl f hf
  case idle =>
    intro f hf hs
    have heq : f ≠ e := by
      rintro rfl
      rw [hself.1] at hs
      cases hs
    rw [(hother f heq).1] at hs
    change Function.update (c.useHead e).iocnt e 1 f = 0
    rw [Function.update_of_ne heq, h5]
    exact h.idle ((hmem f).mp hf) heq hs

end Loose

end Aix413.Lvm.Mwc.Cache
