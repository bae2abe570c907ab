import Aix413.Callout.Timeout

namespace Aix413.Callout

open Lib.LinkedPool

variable {ncpus cpu now fuel t p q : Nat} {m : Timers} {blocks : List Nat}
  {lists : Nat → List Nat}

/-- The active lists hold the pending blocks, each on the list of its processor. -/
structure Queues (blocks : List Nat) (m : Timers) (lists : Nat → List Nat) : Prop where
  doubly : Doubly m.knext m.kprev m.tActive lists
  listed : ∀ p t, t ∈ lists p ↔ t ∈ blocks ∧ (m.trb t).pending = true ∧ (m.trb t).cpunum = p

namespace Queues

theorem length_le (h : Queues blocks m lists) (p : Nat) : (lists p).length ≤ blocks.length :=
  (h.doubly.chain p).nodup.length_le_of_subset fun t ht => ((h.listed p t).mp ht).1

theorem not_mem (h : Queues blocks m lists) (hpend : (m.trb t).pending = false) (p : Nat) :
    t ∉ lists p := by
  intro ht
  have := ((h.listed p t).mp ht).2.1
  rw [hpend] at this
  exact nomatch this

/-- Links of a block that is on no list may be written. -/
theorem unlinked (h : Queues blocks m lists) (hno : ∀ p, t ∉ lists p) (v w : Nat) :
    Queues blocks { m with
      knext := Function.update m.knext t v
      kprev := Function.update m.kprev t w } lists := by
  have hne : ∀ a, ∀ j ∈ lists a, j ≠ t := by
    rintro a j hj rfl
    exact hno a hj
  exact ⟨h.doubly.congr (fun a j hj => Function.update_of_ne (hne a j hj) _ _)
    fun a j hj => Function.update_of_ne (hne a j hj) _ _, h.listed⟩

/-- A block that is not pending may be written. -/
theorem write (h : Queues blocks m lists) (hpend : (m.trb t).pending = false) {b : Trb}
    (hb : b.pending = false) : Queues blocks { m with trb := Function.update m.trb t b } lists := by
  refine ⟨h.doubly, fun p j => ?_⟩
  dsimp only
  by_cases hjt : j = t
  · subst hjt
    rw [Function.update_self]
    exact ⟨fun hm => absurd hm (h.not_mem hpend p), fun hm => nomatch hb.symm.trans hm.2.1⟩
  · rw [Function.update_of_ne hjt]
    exact h.listed p j

/-- The list of `t` loses it. -/
theorem listed_erase (h : Queues blocks m lists) (hp : (m.trb t).cpunum = p) {l : List Nat}
    (hl : ∀ j, j ∈ l ↔ j ∈ lists p ∧ j ≠ t) (trb : Nat → Trb)
    (hself : (trb t).pending = false) (hother : ∀ j, j ≠ t → trb j = m.trb j) :
    ∀ a j, j ∈ Function.update lists p l a ↔
      j ∈ blocks ∧ (trb j).pending = true ∧ (trb j).cpunum = a := by
  intro a j
  by_cases hjt : j = t
  · subst hjt
    rw [hself]
    refine ⟨fun hm => ?_, fun hm => nomatch hm.2.1⟩
    by_cases ha : a = p
    · subst ha
      rw [Function.update_self] at hm
      exact absurd rfl ((hl j).mp hm).2
    · rw [Function.update_of_ne ha] at hm
      exact absurd (((h.listed a j).mp hm).2.2.symm.trans hp) ha
  · rw [hother j hjt, ← h.listed]
    by_cases ha : a = p
    · subst ha
      rw [Function.update_self, hl]
      exact and_iff_left hjt
    · rw [Function.update_of_ne ha]

end Queues

/-- The block before the links of `t` are cleared. -/
theorem unlink_doubly (h : Doubly m.knext m.kprev m.tActive lists)
    (hmem : t ∈ lists (m.trb t).cpunum) :
    ∃ l, (∀ j, j ∈ l ↔ j ∈ lists (m.trb t).cpunum ∧ j ≠ t) ∧
      Doubly (m.unlink t).knext (m.unlink t).kprev (m.unlink t).tActive
        (Function.update lists (m.trb t).cpunum l) := by
  have hc := h.chain (m.trb t).cpunum
  have hnd := hc.nodup
  have hclear : ∀ {next prev : Nat → Nat} {head : Nat → Nat} {l},
      (∀ j, j ∈ l ↔ j ∈ lists (m.trb t).cpunum ∧ j ≠ t) →
      Doubly next prev head (Function.update lists (m.trb t).cpunum l) →
      Doubly (Function.update next t 0) (Function.update prev t 0) head
        (Function.update lists (m.trb t).cpunum l) := by
    intro next prev head l hl hd
    have hne : ∀ a, ∀ j ∈ Function.update lists (m.trb t).cpunum l a, j ≠ t := by
      rintro a j hj rfl
      by_cases ha : a = (m.trb j).cpunum
      · subst ha
        rw [Function.update_self] at hj
        exact ((hl j).mp hj).2 rfl
      · rw [Function.update_of_ne ha] at hj
        exact ha (h.disjoint hj hmem)
    exact hd.congr (fun a j hj => Function.update_of_ne (hne a j hj) _ _)
      fun a j hj => Function.update_of_ne (hne a j hj) _ _
  obtain ⟨l₁, l₂, hl⟩ := List.append_of_mem hmem
  rw [hl] at hnd
  cases l₁.eq_nil_or_concat with
  | inl hnil =>
    subst hnil
    have hhead : t = m.tActive (m.trb t).cpunum := by
      rw [hc.head_eq, hl]
      rfl
    have hmeml : ∀ j, j ∈ l₂ ↔ j ∈ lists (m.trb t).cpunum ∧ j ≠ t := by
      intro j
      rw [hl]
      have ht₂ := (List.nodup_cons.mp hnd).1
      refine ⟨fun hj => ⟨List.mem_cons_of_mem t hj, fun he => ht₂ (he ▸ hj)⟩, fun ⟨hj, hne⟩ => ?_⟩
      exact (List.mem_cons.mp hj).resolve_left hne
    refine ⟨l₂, hmeml, ?_⟩
    have hd := h.behead hl
    unfold Timers.unlink
    dsimp only
    rw [if_pos hhead]
    by_cases hn : m.knext t = 0
    · rw [if_pos hn]
      rw [hn] at hd
      exact hclear hmeml hd
    · rw [if_neg hn]
      rw [store, if_neg hn] at hd
      exact hclear hmeml hd
  | inr hcat =>
    obtain ⟨l₁, q, rfl⟩ := hcat
    rw [List.concat_eq_append, List.append_assoc, List.singleton_append] at hl hnd
    have hhead : t ≠ m.tActive (m.trb t).cpunum := by
      rw [hc.head_eq, hl]
      intro he
      cases l₁ with
      | nil => exact (List.nodup_cons.mp hnd).1 (he ▸ List.mem_cons_self)
      | cons i l₁ => exact (List.nodup_cons.mp hnd).1 (by rw [← show t = i from he]; simp)
    have hmeml : ∀ j, j ∈ l₁ ++ q :: l₂ ↔ j ∈ lists (m.trb t).cpunum ∧ j ≠ t := by
      intro j
      rw [hl]
      rw [show l₁ ++ q :: t :: l₂ = (l₁ ++ [q]) ++ t :: l₂ by simp, List.nodup_append,
        List.nodup_cons] at hnd
      have h₁ : j ∈ l₁ ++ [q] → j ≠ t := fun hj => hnd.2.2 j hj t List.mem_cons_self
      have h₂ : j ∈ l₂ → j ≠ t := fun hj he => hnd.2.1.1 (he ▸ hj)
      simp only [List.mem_append, List.mem_cons, List.not_mem_nil, or_false] at h₁ ⊢
      tauto
    refine ⟨l₁ ++ q :: l₂, hmeml, ?_⟩
    obtain ⟨hprev, hd⟩ := h.bypass hl
    unfold Timers.unlink
    dsimp only
    rw [if_neg hhead, hprev]
    by_cases hn : m.knext t = 0
    · rw [if_pos hn]
      rw [hn] at hd
      exact hclear hmeml hd
    · rw [if_neg hn]
      rw [store, if_neg hn] at hd
      exact hclear hmeml hd

theorem unlink_trb (m : Timers) (t : Nat) :
    (m.unlink t).trb = m.trb ∧ (m.unlink t).trbCalled = m.trbCalled := by
  unfold Timers.unlink
  dsimp only
  split_ifs <;> exact ⟨rfl, rfl⟩

/-- `tstop` of a block that no processor is calling. -/
theorem tstop_spec (h : Queues blocks m lists) (ht : t ∈ blocks)
    (hno : ∀ i < ncpus, m.trbCalled i ≠ t) :
    ∃ m' lists', Timers.tstop ncpus cpu t m = some m' ∧ Queues blocks m' lists' ∧
      m'.trbCalled = m.trbCalled ∧ (∀ j, j ≠ t → m'.trb j = m.trb j) ∧
      ∃ b, m'.trb t = { m.trb t with pending := false, active := b } := by
  unfold Timers.tstop
  rw [if_neg fun ⟨i, hi, hc⟩ => hno i hi hc]
  by_cases hpend : (m.trb t).pending = true
  · rw [if_pos hpend]
    obtain ⟨l, hl, hd⟩ := unlink_doubly h.doubly ((h.listed _ t).mpr ⟨ht, hpend, rfl⟩)
    obtain ⟨htrb, hcalled⟩ := unlink_trb m t
    have hother : ∀ j, j ≠ t → Function.update (m.unlink t).trb t
        { (m.unlink t).trb t with pending := false, active := false } j = m.trb j := by
      intro j hj
      rw [Function.update_of_ne hj, htrb]
    have hself : Function.update (m.unlink t).trb t
        { (m.unlink t).trb t with pending := false, active := false } t =
        { m.trb t with pending := false, active := false } := by
      rw [Function.update_self, htrb]
    exact ⟨_, _, rfl, ⟨hd, h.listed_erase rfl hl _ (congrArg Trb.pending hself) hother⟩, hcalled,
      hother, _, hself⟩
  · rw [if_neg hpend]
    refine ⟨m, lists, rfl, h, rfl, fun _ _ => rfl, (m.trb t).active, ?_⟩
    rw [← Bool.eq_false_of_not_eq_true hpend]

/-- Where a block goes on a list. -/
theorem behind_spec (m : Timers) (tv fuel : Nat) {h : Nat} {l₁ l₂ : List Nat}
    (hc : Chain m.knext h (l₁ ++ q :: l₂)) (hf : l₂.length < fuel) :
    ∃ q' l₁' l₂', m.behind tv fuel q = some q' ∧ l₁ ++ q :: l₂ = l₁' ++ q' :: l₂' := by
  induction l₂ generalizing q l₁ fuel with
  | nil =>
    obtain ⟨fuel, rfl⟩ : ∃ n, fuel = n + 1 := ⟨fuel - 1, by omega⟩
    refine ⟨q, l₁, [], ?_, rfl⟩
    unfold Timers.behind
    exact if_neg fun hn => hn.1 hc.next_eq
  | cons n l₂ ih =>
    obtain ⟨fuel, rfl⟩ : ∃ n, fuel = n + 1 := ⟨fuel - 1, by omega⟩
    have hn : m.knext q = n := hc.next_eq
    unfold Timers.behind
    dsimp only
    rw [hn]
    split_ifs with hlt
    · have hsplit : l₁ ++ q :: n :: l₂ = (l₁ ++ [q]) ++ n :: l₂ := by simp
      rw [hsplit] at hc ⊢
      exact ih fuel hc (by simp only [List.length_cons] at hf; omega)
    · exact ⟨q, l₁, n :: l₂, rfl, rfl⟩

/-- The block joins the list of the processor. -/
theorem enqueue_spec (h : Queues blocks m lists) (ht0 : t ≠ 0) (hno : ∀ p, t ∉ lists p)
    (hf : (lists cpu).length < fuel) :
    ∃ m' l, Timers.enqueue fuel cpu t m = some m' ∧ (∀ j, j ∈ l ↔ j = t ∨ j ∈ lists cpu) ∧
      m'.trb = m.trb ∧ m'.trbCalled = m.trbCalled ∧
      Doubly m'.knext m'.kprev m'.tActive (Function.update lists cpu l) := by
  have hc := h.doubly.chain cpu
  unfold Timers.enqueue
  dsimp only
  split_ifs with hfirst
  · exact ⟨_, t :: lists cpu, rfl, fun j => List.mem_cons, rfl, rfl, h.doubly.push ht0 hno cpu⟩
  · cases hl : lists cpu with
    | nil =>
      rw [hl] at hc
      exact absurd (.inl hc) hfirst
    | cons i l =>
      rw [hl] at hc hf
      have hi : m.tActive cpu = i := hc.1
      have hc' : Chain m.knext (m.tActive cpu) ([] ++ i :: l) := hc
      rw [hi] at hc' ⊢
      obtain ⟨q, l₁, l₂, hq, hsplit⟩ := behind_spec m (m.trb t).timeout fuel hc'
        (by simp only [List.length_cons] at hf; omega)
      rw [hq, Option.bind_eq_bind, Option.bind_some]
      have hl' : lists cpu = l₁ ++ q :: l₂ := hl.trans hsplit
      refine ⟨_, l₁ ++ q :: t :: l₂, rfl, fun j => ?_, rfl, rfl, h.doubly.insert hl' ht0 hno⟩
      rw [← hl, hl']
      simp only [List.mem_append, List.mem_cons]
      tauto

/-- `tstart` of a block that is on no list. -/
theorem tstart_spec (cpu now : Nat) (h : Queues blocks m lists) (ht : t ∈ blocks) (ht0 : t ≠ 0)
    (hpend : (m.trb t).pending = false) (hact : (m.trb t).active = false)
    (hf : blocks.length < fuel) :
    ∃ m' lists', Timers.tstart fuel cpu now t m = some m' ∧ Queues blocks m' lists' ∧
      m'.trbCalled = m.trbCalled ∧ (∀ j, j ≠ t → m'.trb j = m.trb j) ∧
      m'.trb t = { m.trb t with
        timeout := (m.trb t).timeout + now, cpunum := cpu, pending := true, active := true } := by
  have hno := h.not_mem hpend
  unfold Timers.tstart
  rw [if_neg (by rw [hpend]; decide), if_neg (by rw [hact]; exact fun hn => nomatch hn.1)]
  dsimp only
  let b : Trb := { m.trb t with timeout := (m.trb t).timeout + now, cpunum := cpu }
  have hq : Queues blocks { m with trb := Function.update m.trb t b } lists := h.write hpend hpend
  obtain ⟨m', l, hm', hl, htrb, hcalled, hd⟩ := enqueue_spec hq ht0 hno
    ((h.length_le cpu).trans_lt hf)
  rw [hm', Option.bind_eq_bind, Option.bind_some]
  have hother : ∀ j, j ≠ t → Function.update m'.trb t
      { m'.trb t with pending := true, active := true } j = m.trb j := by
    intro j hj
    rw [Function.update_of_ne hj, htrb]
    exact Function.update_of_ne hj _ _
  have hself : Function.update m'.trb t { m'.trb t with pending := true, active := true } t =
      { b with pending := true, active := true } := by
    rw [Function.update_self, htrb]
    dsimp only
    rw [Function.update_self]
  refine ⟨_, _, rfl, ⟨hd, fun p j => ?_⟩, hcalled, hother, hself⟩
  dsimp only
  by_cases hjt : j = t
  · subst hjt
    rw [hself]
    by_cases hp : p = cpu
    · subst hp
      rw [Function.update_self, hl]
      exact ⟨fun _ => ⟨ht, rfl, rfl⟩, fun _ => .inl rfl⟩
    · rw [Function.update_of_ne hp]
      exact ⟨fun hm => absurd hm (hno p), fun hm => absurd hm.2.2.symm hp⟩
  · rw [hother j hjt, ← h.listed]
    by_cases hp : p = cpu
    · subst hp
      rw [Function.update_self, hl]
      exact or_iff_right hjt
    · rw [Function.update_of_ne hp]

/-- The head of a list is taken off to be called. -/
theorem expire_spec (h : Queues blocks m lists) (hh : m.tActive cpu ≠ 0) :
    ∃ l, lists cpu = m.tActive cpu :: l ∧
      Queues blocks (m.expire cpu) (Function.update lists cpu l) := by
  have hc := h.doubly.chain cpu
  cases hl : lists cpu with
  | nil =>
    rw [hl] at hc
    exact absurd hc hh
  | cons t l =>
    rw [hl] at hc
    have ht : m.tActive cpu = t := hc.1
    have hnd := hc.nodup
    refine ⟨l, by rw [ht], ?_⟩
    have hmem : t ∈ lists cpu := by simp [hl]
    have hmeml : ∀ j, j ∈ l ↔ j ∈ lists cpu ∧ j ≠ t := by
      intro j
      rw [hl]
      have ht₂ := (List.nodup_cons.mp hnd).1
      refine ⟨fun hj => ⟨List.mem_cons_of_mem t hj, fun he => ht₂ (he ▸ hj)⟩, fun ⟨hj, hne⟩ => ?_⟩
      exact (List.mem_cons.mp hj).resolve_left hne
    have hlisted := h.listed_erase ((h.listed cpu t).mp hmem).2.2 hmeml
      (Function.update m.trb t { m.trb t with pending := false })
      (by rw [Function.update_self]) fun j hj => Function.update_of_ne hj _ _
    have hne : ∀ a, ∀ j ∈ Function.update lists cpu l a, j ≠ t := by
      rintro a j hj rfl
      have := ((hlisted a j).mp hj).2.1
      rw [Function.update_self] at this
      exact nomatch this
    unfold Timers.expire
    rw [ht]
    exact ⟨(h.doubly.behead hl).congr (fun a j hj => Function.update_of_ne (hne a j hj) _ _)
      fun a j hj => Function.update_of_ne (hne a j hj) _ _, hlisted⟩

end Aix413.Callout
