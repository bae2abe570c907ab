import Aix413.Lvm.CacheKept

namespace Aix413.Lvm.Mwc.Cache

open Lib.LinkedPool Lib.LinkedRing

variable {c : Cache} {e f : Ptr} {l : List Ptr} {q : BitVec 32 → List Ptr}

/-! ## An entry for a new track group -/

theorem idle_spec (hr : IsRing c.next c.prev l) {start : Ptr} {fuel : Nat} {lru : Ptr}
    (hl : lru ∈ l) (hi : c.idle start fuel lru = some e) : e ∈ l ∧ c.iocnt e = 0 := by
  induction fuel generalizing lru with
  | zero => cases hi
  | succ fuel ih =>
    unfold Cache.idle at hi
    split_ifs at hi with h0 hs
    · cases hi
      exact ⟨hl, h0⟩
    · exact ih (hr.prev_mem hl) hi

/-- The entry that is found is off the queues; the others are as before. -/
theorem Kept.new (h : Kept c l q) :
    c.new = some (none, c) ∨
    ∃ e hash hqNext q', c.new = some (some e, { c with hash := hash, hqNext := hqNext }) ∧
      Loose { c with hash := hash, hqNext := hqNext } l q' e := by
  unfold Cache.new
  cases hi : c.idle (c.prev c.lst) c.size (c.prev c.lst) with
  | none =>
    left
    simp only [hi]
  | some e =>
    obtain ⟨he, h0⟩ := idle_spec h.order.ring (h.order.ring.prev_mem h.lst_mem) hi
    right
    by_cases hs : c.state e = .caclean
    · refine ⟨e, c.hash, c.hqNext, q, ?_, h.loose_of_clean he hs⟩
      simp only [hi, hs, if_true]
    · obtain ⟨hash, hqNext, q', hq, hloose, -, -⟩ := h.qunlk he hs h0
      refine ⟨e, hash, hqNext, q', ?_, hloose⟩
      simp only [hi, hs, if_false, hq, Option.map_some]

/-! ## Cleaning up -/

/-- What cleaning up leaves of `c`. -/
structure Cleaned (c d : Cache) : Prop where
  size : d.size = c.size
  iocnt : d.iocnt = c.iocnt
  entry : ∀ e, d.state e = c.state e ∧ d.part1 e = c.part1 e ∨
    c.iocnt e = 0 ∧ d.state e = .caclean ∧ d.part1 e = ⟨0, 0, 0⟩

theorem Cleaned.refl (c : Cache) : Cleaned c c := ⟨rfl, rfl, fun _ => .inl ⟨rfl, rfl⟩⟩

theorem Cleaned.trans {a b c : Cache} (h : Cleaned a b) (h' : Cleaned b c) : Cleaned a c := by
  refine ⟨h'.size.trans h.size, h'.iocnt.trans h.iocnt, ?_⟩
  intro e
  rcases h'.entry e with ⟨hs, hp⟩ | ⟨h0, hs⟩
  · rw [hs, hp]
    exact h.entry e
  · exact .inr ⟨h.iocnt ▸ h0, hs⟩

theorem clear_cleaned (c : Cache) (hash : BitVec 32 → Ptr) (hqNext : Ptr → Ptr)
    (h0 : c.iocnt e = 0) :
    Cleaned c (clear { c with hash := hash, hqNext := hqNext } e) := by
  obtain ⟨h1, -, -, h4, h5, h6⟩ := useTail_fields { c with hash := hash, hqNext := hqNext } e
  refine ⟨h1, h5, ?_⟩
  intro f
  unfold clear setPart1 setState
  simp only [h4, h6]
  by_cases hf : f = e
  · subst hf
    exact .inr ⟨h0, Function.update_self _ _ _, Function.update_self _ _ _⟩
  · exact .inl ⟨Function.update_of_ne hf _ _, Function.update_of_ne hf _ _⟩

/-- The rest of a queue is cleaned; `l₁` is the part behind. -/
theorem Kept.cleanQueue (h : Kept c l q) {a : BitVec 32} (l₁ : List Ptr) {l₂ : List Ptr} (hq : q a = l₁ ++ l₂)
    {fuel : Nat} (hf : l₂.length < fuel) (chg : Bool) :
    ∃ chg' d m r, c.cleanQueue fuel (l₂.headD 0) chg = some (chg', d) ∧ Kept d m r ∧
      Cleaned c d := by
  induction fuel generalizing c l q l₁ l₂ chg with
  | zero => exact absurd hf (Nat.not_lt_zero _)
  | succ fuel ih =>
    have hchain := h.linked.chain a
    rw [hq] at hchain
    unfold Cache.cleanQueue
    cases l₂ with
    | nil => exact ⟨chg, c, l, q, by simp, h, Cleaned.refl c⟩
    | cons e l₂ =>
      have hea : e ∈ q a := by simp [hq]
      obtain ⟨he, hs, hidx⟩ := h.queued.mp hea
      have hlen : l₂.length < fuel := Nat.succ_lt_succ_iff.mp hf
      rw [List.headD_cons, if_neg ((h.cells e).mp he).1, hchain.next_eq]
      split_ifs with h0
      · obtain ⟨hash, hqNext, q', hqunlk, hloose, hq', -⟩ := h.qunlk he hs h0
        rw [hqunlk]
        have hrest : q' a = l₁ ++ l₂ := by
          have hnot : e ∉ l₁ := by
            have hnd := hchain.nodup
            exact fun hm => (List.nodup_append.mp hnd).2.2 e hm e List.mem_cons_self rfl
          rw [hq', hidx, Function.update_self, hq, List.erase_append_right _ hnot,
            List.erase_cons_head]
        obtain ⟨chg', d, m, r, hd, hk, hc⟩ := ih hloose.clear l₁ hrest hlen true
        exact ⟨chg', d, m, r, hd, hk, (clear_cleaned c hash hqNext h0).trans hc⟩
      · exact ih h (l₁ ++ [e]) (by rw [hq, List.append_assoc]; rfl) hlen chg

theorem Kept.cleanQueues (h : Kept c l q) (as : List (BitVec 32)) (chg : Bool) :
    ∃ chg' d m r, c.cleanQueues as chg = some (chg', d) ∧ Kept d m r ∧ Cleaned c d := by
  induction as generalizing c l q chg with
  | nil => exact ⟨chg, c, l, q, rfl, h, Cleaned.refl c⟩
  | cons a as ih =>
    have hlen : (q a).length < c.size + 1 := Nat.lt_succ_of_le (h.queue_length a)
    obtain ⟨chg₁, d₁, m₁, r₁, h₁, hk₁, hc₁⟩ := h.cleanQueue [] rfl hlen chg
    obtain ⟨chg₂, d₂, m₂, r₂, h₂, hk₂, hc₂⟩ := ih hk₁ chg₁
    refine ⟨chg₂, d₂, m₂, r₂, ?_, hk₂, hc₁.trans hc₂⟩
    unfold Cache.cleanQueues
    rw [(h.linked.chain a).head_eq, h₁]
    exact h₂

/-! ## The record has been written -/

def settled (st : CaState) : CaState := if st = .cachg then .canochg else st

/-- From `e` on to the end of the ring. -/
theorem settle_spec (l₁ : List Ptr) {l₂ : List Ptr} (ho : Order c (l₁ ++ e :: l₂))
    (hs : ∃ used clean, e :: l₂ = used ++ clean ∧ (∀ f ∈ used, c.state f ≠ .caclean) ∧
      ∀ f ∈ clean, c.state f = .caclean) {fuel : Nat} (hf : l₂.length < fuel) :
    ∃ st, c.settle fuel e = { c with state := st } ∧
      ∀ f, st f = if f ∈ e :: l₂ then settled (c.state f) else c.state f := by
  induction fuel generalizing c e l₁ l₂ with
  | zero => exact absurd hf (Nat.not_lt_zero _)
  | succ fuel ih =>
    have hnd := ho.ring.nodup
    obtain ⟨used, clean, hl, hu, hcl⟩ := hs
    unfold settle
    by_cases he : c.state e = .caclean
    · rw [if_pos he]
      have hused : used = [] := by
        cases used with
        | nil => rfl
        | cons g used =>
          obtain ⟨rfl, -⟩ := List.cons.inj hl
          exact absurd he (hu e List.mem_cons_self)
      subst hused
      refine ⟨c.state, rfl, ?_⟩
      intro f
      split_ifs with hm
      · rw [hcl f (by simpa [hl] using hm)]
        rfl
      · rfl
    · rw [if_neg he]
      have hset : (if c.state e = .cachg then c.setState e .canochg else c) =
          c.setState e (settled (c.state e)) := by
        unfold settled
        split_ifs with hchg
        · rfl
        · unfold setState
          rw [Function.update_eq_self]
      rw [hset]
      have hself : ∀ f, f ≠ e → (c.setState e (settled (c.state e))).state f = c.state f :=
        fun f hf => Function.update_of_ne hf _ _
      cases l₂ with
      | nil =>
        have hlast : c.next e = c.lst := by
          obtain ⟨t, ht⟩ := List.head?_eq_some_iff.mp ho.head
          have hr := ho.ring
          rw [ht] at hr
          have hj := hr.last_joined.1
          have hg : (c.lst :: t).getLast (by simp) = e := by
            simp only [← ht]
            simp
          rwa [hg] at hj
        rw [if_pos hlast]
        refine ⟨Function.update c.state e (settled (c.state e)), rfl, ?_⟩
        intro f
        by_cases hf : f = e
        · subst hf
          simp
        · simp [hf]
      | cons g l₂ =>
        have hg : c.next e = g := (ho.ring.joined l₁).1
        have hne : g ≠ c.lst := by
          intro heq
          obtain ⟨t, ht⟩ := List.head?_eq_some_iff.mp ho.head
          cases l₁ with
          | nil =>
            have h1 : e = c.lst := (List.cons.inj ht).1
            simp [h1, heq] at hnd
          | cons a l₁ =>
            have h1 : a = c.lst := (List.cons.inj ht).1
            simp [h1, heq] at hnd
        rw [hg, if_neg hne]
        have hetail : ∀ f ∈ g :: l₂, f ≠ e := by
          rintro f hm rfl
          exact (List.nodup_cons.mp (List.nodup_append.mp hnd).2.1).1 hm
        have htail : ∃ u, used = e :: u := by
          cases used with
          | nil => exact absurd (hcl e (by rw [List.nil_append] at hl; simp [← hl])) he
          | cons g' u =>
            obtain ⟨rfl, -⟩ := List.cons.inj hl
            exact ⟨u, rfl⟩
        obtain ⟨u, rfl⟩ := htail
        have hl' : g :: l₂ = u ++ clean := (List.cons.inj hl).2
        have ho' : Order (c.setState e (settled (c.state e))) ((l₁ ++ [e]) ++ g :: l₂) := by
          rw [List.append_assoc]
          exact ⟨ho.ring, ho.head⟩
        have hs' : ∃ used clean, g :: l₂ = used ++ clean ∧
            (∀ f ∈ used, (c.setState e (settled (c.state e))).state f ≠ .caclean) ∧
            ∀ f ∈ clean, (c.setState e (settled (c.state e))).state f = .caclean := by
          refine ⟨u, clean, hl', ?_, ?_⟩
          · intro f hm
            rw [hself f (hetail f (by rw [hl']; exact List.mem_append_left _ hm))]
            exact hu f (List.mem_cons_of_mem _ hm)
          · intro f hm
            rw [hself f (hetail f (by rw [hl']; exact List.mem_append_right _ hm))]
            exact hcl f hm
        obtain ⟨st, hst, hval⟩ := ih (l₁ ++ [e]) ho' hs' (Nat.succ_lt_succ_iff.mp hf)
        refine ⟨st, hst, ?_⟩
        intro f
        rw [hval f]
        by_cases hfe : f = e
        · subst hfe
          rw [if_neg fun hm => hetail f hm rfl, if_pos List.mem_cons_self]
          exact Function.update_self _ _ _
        · rw [hself f hfe]
          simp [hfe]

theorem settled_eq_caclean {st : CaState} : settled st = .caclean ↔ st = .caclean := by
  cases st <;> decide

theorem Kept.settle (h : Kept c l q) :
    ∃ st, c.settle c.size c.lst = { c with state := st } ∧
      (∀ f ∈ l, st f = settled (c.state f)) ∧ Kept { c with state := st } l q := by
  obtain ⟨t, rfl⟩ := List.head?_eq_some_iff.mp h.order.head
  have hlen : t.length < c.size := by
    rw [← h.length]
    exact Nat.lt_succ_self _
  obtain ⟨st, hst, hval⟩ := settle_spec [] h.order h.suffix hlen
  have hin : ∀ f ∈ c.lst :: t, st f = settled (c.state f) := by
    intro f hf
    rw [hval, if_pos hf]
  have hclean : ∀ f ∈ c.lst :: t, (st f = .caclean ↔ c.state f = .caclean) := by
    intro f hf
    rw [hin f hf, settled_eq_caclean]
  refine ⟨st, hst, hin, ?_⟩
  constructor
  case order => exact ⟨h.order.ring, h.order.head⟩
  case cells => exact h.cells
  case linked => exact h.linked
  case queued =>
    intro e a
    rw [h.queued]
    constructor
    · rintro ⟨hm, hs, ha⟩
      exact ⟨hm, fun hc => hs ((hclean e hm).mp hc), ha⟩
    · rintro ⟨hm, hs, ha⟩
      exact ⟨hm, fun hc => hs ((hclean e hm).mpr hc), ha⟩
  case unique =>
    intro e f he hf hes hfs
    exact h.unique he hf (fun hc => hes ((hclean e he).mpr hc)) fun hc => hfs ((hclean f hf).mpr hc)
  case suffix =>
    obtain ⟨used, clean, hl, hu, hcl⟩ := h.suffix
    refine ⟨used, clean, hl, ?_, ?_⟩
    · intro f hf hc
      exact hu f hf ((hclean f (hl ▸ List.mem_append_left _ hf)).mp hc)
    · intro f hf
      exact (hclean f (hl ▸ List.mem_append_right _ hf)).mpr (hcl f hf)
  case idle =>
    intro e he hc
    exact h.idle he ((hclean e he).mp hc)

end Aix413.Lvm.Mwc.Cache
