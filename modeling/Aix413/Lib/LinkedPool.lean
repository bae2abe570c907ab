import Mathlib.Data.List.Basic
import Mathlib.Data.List.Nodup
import Mathlib.Logic.Function.Basic
import Mathlib.Tactic

namespace Aix413.Lib.LinkedPool

/-- The cells `l` in the order of their links, from `h` to the null index 0. -/
def Chain (next : Nat → Nat) : Nat → List Nat → Prop
  | h, [] => h = 0
  | h, k :: l => h = k ∧ k ≠ 0 ∧ Chain next (next k) l

section Chain

variable {next next' : Nat → Nat} {h k : Nat} {l l₁ l₂ : List Nat}

theorem Chain.ne_zero (hc : Chain next h l) (hk : k ∈ l) : k ≠ 0 := by
  induction l generalizing h with
  | nil => exact absurd hk List.not_mem_nil
  | cons k' l ih =>
    cases List.mem_cons.mp hk with
    | inl he => exact he ▸ hc.2.1
    | inr hm => exact ih hc.2.2 hm

theorem chain_unique (hc : Chain next h l₁) (hc' : Chain next h l₂) : l₁ = l₂ := by
  induction l₁ generalizing h l₂ with
  | nil =>
    cases l₂ with
    | nil => rfl
    | cons k l₂ => exact absurd (hc'.1.symm.trans hc) hc'.2.1
  | cons k l₁ ih =>
    cases l₂ with
    | nil => exact absurd (hc.1.symm.trans hc') hc.2.1
    | cons k' l₂ =>
      have hk : k = k' := hc.1.symm.trans hc'.1
      subst hk
      rw [ih hc.2.2 hc'.2.2]

theorem Chain.split (hc : Chain next h (l₁ ++ k :: l₂)) : Chain next k (k :: l₂) := by
  induction l₁ generalizing h with
  | nil => exact ⟨rfl, hc.2.1, hc.2.2⟩
  | cons k' l₁ ih => exact ih hc.2.2

theorem Chain.head_eq (hc : Chain next h l) : h = l.headD 0 := by
  cases l with
  | nil => exact hc
  | cons k l => exact hc.1

theorem Chain.next_eq (hc : Chain next h (l₁ ++ k :: l₂)) : next k = l₂.headD 0 :=
  Chain.head_eq hc.split.2.2

/-- A chain that ends has no cycle. -/
theorem Chain.nodup (hc : Chain next h l) : l.Nodup := by
  induction l generalizing h with
  | nil => exact List.nodup_nil
  | cons k l ih =>
    refine List.nodup_cons.mpr ⟨?_, ih hc.2.2⟩
    intro hk
    obtain ⟨l₁, l₂, rfl⟩ := List.append_of_mem hk
    have hlong : Chain next k (k :: (l₁ ++ k :: l₂)) := ⟨rfl, hc.2.1, hc.2.2⟩
    have hlen := congrArg List.length (chain_unique hlong hc.2.2.split)
    simp only [List.length_cons, List.length_append] at hlen
    omega

/-- The list determines where the chain begins and its links. -/
theorem Chain.agree {h' : Nat} (hc : Chain next h l) (hc' : Chain next' h' l) :
    h = h' ∧ ∀ k ∈ l, next k = next' k := by
  induction l generalizing h h' with
  | nil => exact ⟨Eq.trans hc hc'.symm, fun k hk => absurd hk List.not_mem_nil⟩
  | cons k l ih =>
    obtain ⟨hn, hl⟩ := ih hc.2.2 hc'.2.2
    refine ⟨hc.1.trans hc'.1.symm, fun j hj => ?_⟩
    rcases List.mem_cons.mp hj with rfl | hj
    · exact hn
    · exact hl j hj

theorem Chain.congr (hc : Chain next h l) (heq : ∀ k ∈ l, next' k = next k) :
    Chain next' h l := by
  induction l generalizing h with
  | nil => exact hc
  | cons k l ih =>
    refine ⟨hc.1, hc.2.1, ?_⟩
    rw [heq k List.mem_cons_self]
    exact ih hc.2.2 (fun k' hk' => heq k' (List.mem_cons_of_mem _ hk'))

theorem Chain.update (hc : Chain next h l) (hk : k ∉ l) (v : Nat) :
    Chain (Function.update next k v) h l := by
  refine hc.congr ?_
  intro k' hk'
  have hne : k' ≠ k := by
    rintro rfl
    exact hk hk'
  exact Function.update_of_ne hne _ _

theorem Chain.length_le {n : Nat} (hc : Chain next h l) (hb : ∀ k ∈ l, k < n) : l.length ≤ n := by
  have hsub := hc.nodup.subperm (fun k hk => List.mem_range.mpr (hb k hk))
  simpa using hsub.length_le

/-- Cells in a row, each linked to the one after it, before a chain. -/
theorem chain_row {n : Nat} (hk : k ≠ 0) (hn : n ≠ 0)
    (hrow : ∀ j, k ≤ j → j + 1 < k + n → next j = j + 1)
    (hend : Chain next (next (k + n - 1)) l) : Chain next k (List.range' k n ++ l) := by
  induction n generalizing k with
  | zero => exact absurd rfl hn
  | succ n ih =>
    refine ⟨rfl, hk, ?_⟩
    by_cases hz : n = 0
    · subst hz
      exact hend
    · rw [hrow k le_rfl (by omega)]
      refine ih (Nat.succ_ne_zero k) hz (fun j hj hj' => hrow j (by omega) (by omega)) ?_
      rwa [show k + 1 + n - 1 = k + (n + 1) - 1 by omega]

theorem chain_range' {n : Nat} (hk : k ≠ 0) (hn : n ≠ 0)
    (hrow : ∀ j, k ≤ j → j + 1 < k + n → next j = j + 1) (hend : next (k + n - 1) = 0) :
    Chain next k (List.range' k n) := by
  have hc := chain_row hk hn hrow (l := []) hend
  rwa [List.append_nil] at hc

/-- A cell that is not the first has a cell before it. -/
theorem Chain.exists_before (hc : Chain next h l) (hk : k ∈ l) (hne : k ≠ h) :
    ∃ j ∈ l, next j = k := by
  induction l generalizing h with
  | nil => exact absurd hk List.not_mem_nil
  | cons i l ih =>
    have hki : k ∈ l := (List.mem_cons.mp hk).resolve_left fun he => hne (he.trans hc.1.symm)
    by_cases he : k = next i
    · exact ⟨i, List.mem_cons_self, he.symm⟩
    · obtain ⟨j, hj, hn⟩ := ih hc.2.2 hki he
      exact ⟨j, List.mem_cons_of_mem _ hj, hn⟩

/-- After a cell of a chain comes another one or the end. -/
theorem Chain.next_mem (hc : Chain next h l) (hk : k ∈ l) : next k = 0 ∨ next k ∈ l := by
  obtain ⟨l₁, l₂, rfl⟩ := List.append_of_mem hk
  rw [hc.next_eq]
  cases l₂ with
  | nil => exact Or.inl rfl
  | cons j l₂ => exact Or.inr (by simp)

/-- The cell after `p` is taken out. -/
theorem Chain.bypass {p : Nat} (hc : Chain next h (l₁ ++ p :: k :: l₂)) :
    Chain (Function.update next p (next k)) h (l₁ ++ p :: l₂) := by
  have hnd := hc.nodup
  induction l₁ generalizing h with
  | nil =>
    obtain ⟨hp, hp0, hnk, _, hrest⟩ := hc
    refine ⟨hp, hp0, ?_⟩
    rw [Function.update_self]
    apply Chain.update hrest
    simp only [List.nil_append, List.nodup_cons, List.mem_cons, not_or] at hnd
    exact hnd.1.2
  | cons k' l₁ ih =>
    rw [List.cons_append, List.nodup_cons] at hnd
    refine ⟨hc.1, hc.2.1, ?_⟩
    rw [Function.update_of_ne (fun he => hnd.1 (by simp [he]))]
    exact ih hc.2.2 hnd.2

/-- A cell is put after the last one. -/
theorem Chain.snoc {p : Nat} (hc : Chain next h (l ++ [p])) (hk0 : k ≠ 0) (hk : k ∉ l ++ [p])
    (hnk : next k = 0) : Chain (Function.update next p k) h (l ++ [p, k]) := by
  have hnd := hc.nodup
  induction l generalizing h with
  | nil =>
    have hkp : k ≠ p := by simpa using hk
    refine ⟨hc.1, hc.2.1, Function.update_self _ _ _, hk0, ?_⟩
    rw [Function.update_of_ne hkp]
    exact hnk
  | cons k' l ih =>
    rw [List.cons_append, List.nodup_cons] at hnd
    refine ⟨hc.1, hc.2.1, ?_⟩
    rw [Function.update_of_ne (fun he => hnd.1 (by simp [he]))]
    exact ih hc.2.2 (fun hm => hk (List.mem_cons_of_mem _ hm)) hnd.2

end Chain

/-- The first cell from `k` on that satisfies `p`, 0 if there is none; `none`
if the chain is longer than the fuel. -/
def find (next : Nat → Nat) (p : Nat → Bool) : Nat → Nat → Option Nat
  | 0, _ => none
  | fuel + 1, k => if k = 0 then some 0 else if p k then some k else find next p fuel (next k)

/-- The cell before `target` on the chain from `k` on, `prev` if `k` is the
target; `none` if the fuel does not reach it. -/
def before (next : Nat → Nat) (target : Nat) : Nat → Option Nat → Nat → Option (Option Nat)
  | 0, _, _ => none
  | fuel + 1, prev, k =>
    if k = target then some prev else before next target fuel (some k) (next k)

/-- The links when `k`, with `prev` before it, has been taken out. -/
def unlinkNext (next : Nat → Nat) (prev : Option Nat) (k : Nat) : Nat → Nat :=
  match prev with
  | none => next
  | some p => Function.update next p (next k)

theorem unlinkNext_of_ne {next : Nat → Nat} {prev : Option Nat} {k j : Nat}
    (h : ∀ p ∈ prev, j ≠ p) : unlinkNext next prev k j = next j := by
  cases prev with
  | none => rfl
  | some p => exact Function.update_of_ne (h p rfl) _ _

/-- The anchors when a cell of list `a` has been taken out, with `prev` before
it and `v` after it. -/
def unlinkHead {A : Type} [DecidableEq A] (head : A → Nat) (a : A) (prev : Option Nat) (v : Nat) :
    A → Nat :=
  match prev with
  | none => Function.update head a v
  | some _ => head

/-- The links when `k` is put after `prev`. -/
def linkNext (next : Nat → Nat) (prev : Option Nat) (k : Nat) : Nat → Nat :=
  match prev with
  | none => next
  | some p => Function.update next p k

section Search

variable {next : Nat → Nat} {h k : Nat} {l : List Nat} {p : Nat → Bool}

theorem find_eq (hc : Chain next h l) {fuel : Nat} (hf : l.length < fuel) :
    find next p fuel h = some ((l.find? p).getD 0) := by
  induction fuel generalizing h l with
  | zero => exact absurd hf (Nat.not_lt_zero _)
  | succ fuel ih =>
    cases l with
    | nil =>
      rw [find, if_pos (show h = 0 from hc)]
      rfl
    | cons k l =>
      rw [find, hc.1, if_neg hc.2.1, List.find?_cons]
      by_cases hp : p k
      · simp [hp]
      · simp only [hp, if_false, Bool.false_eq_true]
        exact ih hc.2.2 (by simpa using hf)

/-- What is found satisfies the test, and nothing does if nothing is found. -/
theorem find_cases (hc : Chain next h l) {fuel : Nat} (hf : l.length < fuel) :
    ∃ k, find next p fuel h = some k ∧
      (k = 0 ∧ (∀ j ∈ l, p j = false) ∨ k ∈ l ∧ p k = true) := by
  refine ⟨_, find_eq hc hf, ?_⟩
  cases hfind : l.find? p with
  | none => exact .inl ⟨rfl, fun j hj => by simpa using List.find?_eq_none.mp hfind j hj⟩
  | some k => exact .inr ⟨List.mem_of_find?_eq_some hfind, List.find?_some hfind⟩

/-- Fuel does not matter to what is found. -/
theorem find_unique {a b n : Nat} (ha : find next p n h = some a) :
    ∀ {m : Nat}, find next p m h = some b → a = b := by
  induction n generalizing h with
  | zero => exact nomatch ha
  | succ n ih =>
    intro m hb
    cases m with
    | zero => exact nomatch hb
    | succ m =>
      rw [find] at ha hb
      by_cases hh : h = 0
      · rw [if_pos hh] at ha hb
        exact Option.some.inj (ha.symm.trans hb)
      · rw [if_neg hh] at ha hb
        by_cases hp : p h
        · rw [if_pos hp] at ha hb
          exact Option.some.inj (ha.symm.trans hb)
        · rw [if_neg hp] at ha hb
          exact ih ha hb

theorem before_eq {l₁ l₂ : List Nat} (hc : Chain next h (l₁ ++ k :: l₂)) {fuel : Nat}
    {prev : Option Nat} (hf : l₁.length < fuel) :
    before next k fuel prev h = some (l₁.getLast?.or prev) := by
  have hnd := hc.nodup
  induction fuel generalizing h l₁ prev with
  | zero => exact absurd hf (Nat.not_lt_zero _)
  | succ fuel ih =>
    cases l₁ with
    | nil =>
      rw [before, if_pos hc.1]
      rfl
    | cons k' l₁ =>
      rw [List.cons_append, List.nodup_cons] at hnd
      have hne : k' ≠ k := fun he => hnd.1 (by simp [he])
      rw [before, hc.1, if_neg hne, ih hc.2.2 (by simpa using hf) hnd.2]
      cases hl : l₁.getLast? with
      | none => simp [List.getLast?_eq_none_iff.mp hl]
      | some x => simp [List.getLast?_cons, hl]

end Search

/-! ## Links backwards -/

/-- Every cell of `l` is linked to the one before it, the first to `p`. -/
def Backed (prev : Nat → Nat) : Nat → List Nat → Prop
  | _, [] => True
  | p, k :: l => prev k = p ∧ Backed prev k l

section Backed

variable {prev prev' : Nat → Nat} {p k : Nat} {l l₁ l₂ : List Nat}

theorem Backed.congr (h : Backed prev p l) (heq : ∀ k ∈ l, prev' k = prev k) :
    Backed prev' p l := by
  induction l generalizing p with
  | nil => trivial
  | cons k l ih =>
    refine ⟨(heq k List.mem_cons_self).trans h.1, ?_⟩
    exact ih h.2 fun j hj => heq j (List.mem_cons_of_mem k hj)

theorem Backed.update (h : Backed prev p l) (hk : k ∉ l) (v : Nat) :
    Backed (Function.update prev k v) p l := by
  refine h.congr fun j hj => Function.update_of_ne ?_ _ _
  rintro rfl
  exact hk hj

/-- The cell before another one. -/
theorem Backed.prev_eq (h : Backed prev p (l₁ ++ k :: l₂)) :
    prev k = l₁.getLast?.getD p := by
  induction l₁ generalizing p with
  | nil => exact h.1
  | cons j l₁ ih =>
    rw [ih h.2, List.getLast?_cons]
    rfl

/-- A cell is taken out. -/
theorem Backed.cut (h : Backed prev p (l₁ ++ k :: l₂)) (hnd : (l₁ ++ k :: l₂).Nodup)
    (hpos : ∀ j ∈ l₁, j ≠ 0) :
    Backed (Function.update prev (l₂.headD 0) (prev k)) p (l₁ ++ l₂) := by
  induction l₁ generalizing p with
  | nil =>
    cases l₂ with
    | nil => trivial
    | cons j l₂ =>
      rw [List.nil_append, List.nodup_cons, List.nodup_cons] at hnd
      exact ⟨(Function.update_self _ _ _).trans h.1, h.2.2.update hnd.2.1 _⟩
  | cons i l₁ ih =>
    rw [List.cons_append, List.nodup_cons] at hnd
    refine ⟨(Function.update_of_ne ?_ _ _).trans h.1,
      ih h.2 hnd.2 fun j hj => hpos j (List.mem_cons_of_mem i hj)⟩
    cases l₂ with
    | nil => exact hpos i List.mem_cons_self
    | cons j l₂ =>
      rintro rfl
      exact hnd.1 (by simp)

/-- A cell is put before the first one. -/
theorem Backed.push (h : Backed prev p l) (hk : k ∉ l) (hnd : l.Nodup) (hk0 : k ≠ 0) :
    Backed (Function.update (Function.update prev k p) (l.headD 0) k) p (k :: l) := by
  cases l with
  | nil => exact ⟨(Function.update_of_ne hk0 _ _).trans (Function.update_self _ _ _), trivial⟩
  | cons j l =>
    have hkj : k ≠ j := fun he => hk (he ▸ List.mem_cons_self)
    refine ⟨(Function.update_of_ne hkj _ _).trans (Function.update_self _ _ _),
      Function.update_self _ _ _, ?_⟩
    exact (h.2.update (fun hm => hk (List.mem_cons_of_mem j hm)) _).update
      (List.nodup_cons.mp hnd).1 _

end Backed

/-- Lists that share the cells of one pool, one list to an anchor. -/
structure Linked {A : Type} (next : Nat → Nat) (head : A → Nat) (lists : A → List Nat) : Prop where
  chain : ∀ a, Chain next (head a) (lists a)
  disjoint : ∀ {a b k}, k ∈ lists a → k ∈ lists b → a = b

namespace Linked

variable {A : Type} {next : Nat → Nat} {head : A → Nat} {lists : A → List Nat} {a : A} {k : Nat}

theorem congr {next' : Nat → Nat} (h : Linked next head lists)
    (heq : ∀ a, ∀ k ∈ lists a, next' k = next k) : Linked next' head lists :=
  ⟨fun a => (h.chain a).congr (heq a), h.disjoint⟩

variable [DecidableEq A]

theorem mem_erase (h : Linked next head lists) (hk : k ∈ lists a) {b : A} {j : Nat} :
    j ∈ Function.update lists a ((lists a).erase k) b ↔ j ∈ lists b ∧ j ≠ k := by
  by_cases hb : b = a
  · subst hb
    rw [Function.update_self, (h.chain b).nodup.mem_erase_iff]
    exact and_comm
  · rw [Function.update_of_ne hb]
    refine ⟨fun hj => ⟨hj, ?_⟩, fun hj => hj.1⟩
    rintro rfl
    exact hb (h.disjoint hj hk)

/-- A cell on no list goes to the front of one. -/
theorem push (h : Linked next head lists) (hk : k ≠ 0) (hfree : ∀ b, k ∉ lists b) (a : A) :
    Linked (Function.update next k (head a)) (Function.update head a k)
      (Function.update lists a (k :: lists a)) := by
  constructor
  · intro b
    by_cases hb : b = a
    · subst hb
      rw [Function.update_self, Function.update_self]
      refine ⟨rfl, hk, ?_⟩
      rw [Function.update_self]
      exact (h.chain b).update (hfree b) _
    · rw [Function.update_of_ne hb, Function.update_of_ne hb]
      exact (h.chain b).update (hfree b) _
  · intro b c j hb hc
    by_cases hba : b = a <;> by_cases hca : c = a
    · rw [hba, hca]
    · subst hba
      rw [Function.update_self] at hb
      rw [Function.update_of_ne hca] at hc
      cases List.mem_cons.mp hb with
      | inl he => exact absurd (he ▸ hc) (hfree c)
      | inr hm => exact h.disjoint hm hc
    · subst hca
      rw [Function.update_self] at hc
      rw [Function.update_of_ne hba] at hb
      cases List.mem_cons.mp hc with
      | inl he => exact absurd (he ▸ hb) (hfree b)
      | inr hm => exact h.disjoint hb hm
    · rw [Function.update_of_ne hba] at hb
      rw [Function.update_of_ne hca] at hc
      exact h.disjoint hb hc

/-- A cell on no list goes to the end of one. -/
theorem append (h : Linked next head lists) (hk : k ≠ 0) (hfree : ∀ b, k ∉ lists b)
    (hn : next k = 0) (a : A) :
    Linked (linkNext next (lists a).getLast? k) (unlinkHead head a (lists a).getLast? k)
      (Function.update lists a (lists a ++ [k])) := by
  constructor
  · intro b
    have hc := h.chain b
    cases (lists a).eq_nil_or_concat with
    | inl hnil =>
      rw [hnil]
      change Chain next (Function.update head a k b) (Function.update lists a [k] b)
      by_cases hb : b = a
      · subst hb
        rw [Function.update_self, Function.update_self]
        exact ⟨rfl, hk, hn⟩
      · rw [Function.update_of_ne hb, Function.update_of_ne hb]
        exact hc
    | inr hcat =>
      obtain ⟨l, p, hl⟩ := hcat
      rw [List.concat_eq_append] at hl
      have hlast : (lists a).getLast? = some p := by rw [hl, List.getLast?_concat]
      rw [hlast]
      change Chain (Function.update next p k) (head b) (Function.update lists a (lists a ++ [k]) b)
      by_cases hb : b = a
      · subst hb
        rw [Function.update_self, hl, List.append_assoc]
        rw [hl] at hc
        exact hc.snoc hk (hl ▸ hfree b) hn
      · rw [Function.update_of_ne hb]
        refine hc.update (fun hp => hb (h.disjoint hp ?_)) k
        rw [hl]
        exact List.mem_append_right l List.mem_cons_self
  · have hsub : ∀ b j, j ∈ Function.update lists a (lists a ++ [k]) b →
        j ∈ lists b ∨ j = k ∧ b = a := by
      intro b j hj
      by_cases hb : b = a
      · subst hb
        rw [Function.update_self] at hj
        rcases List.mem_append.mp hj with hj | hj
        · exact .inl hj
        · exact .inr ⟨List.mem_singleton.mp hj, rfl⟩
      · rw [Function.update_of_ne hb] at hj
        exact .inl hj
    intro b c j hjb hjc
    rcases hsub b j hjb with hb | ⟨hk, hb⟩ <;> rcases hsub c j hjc with hc | ⟨hk', hc⟩
    · exact h.disjoint hb hc
    · exact absurd (hk' ▸ hb) (hfree b)
    · exact absurd (hk ▸ hc) (hfree c)
    · exact hb.trans hc.symm

/-- A list is replaced by one of some of its cells. -/
theorem shrink {next' : Nat → Nat} {head' : A → Nat} (h : Linked next head lists) {l : List Nat}
    (hl : ∀ k ∈ l, k ∈ lists a) (hc : Chain next' (head' a) l)
    (hother : ∀ b, b ≠ a → Chain next' (head' b) (lists b)) :
    Linked next' head' (Function.update lists a l) := by
  have hsub : ∀ b, ∀ k ∈ Function.update lists a l b, k ∈ lists b := by
    intro b k hk
    by_cases hb : b = a
    · subst hb
      rw [Function.update_self] at hk
      exact hl k hk
    · rwa [Function.update_of_ne hb] at hk
  constructor
  · intro b
    by_cases hb : b = a
    · subst hb
      rwa [Function.update_self]
    · rw [Function.update_of_ne hb]
      exact hother b hb
  · intro b c j hb hc
    exact h.disjoint (hsub b j hb) (hsub c j hc)

theorem pop (h : Linked next head lists) {l : List Nat} (hl : lists a = k :: l) :
    Linked next (Function.update head a (next k)) (Function.update lists a l) := by
  have hc := h.chain a
  rw [hl] at hc
  refine h.shrink (fun j hj => by simp [hl, hj]) ?_ ?_
  · rw [Function.update_self]
    exact hc.2.2
  · intro b hb
    rw [Function.update_of_ne hb]
    exact h.chain b

theorem bypass (h : Linked next head lists) {l₁ l₂ : List Nat} {p : Nat}
    (hl : lists a = l₁ ++ p :: k :: l₂) :
    Linked (Function.update next p (next k)) head (Function.update lists a (l₁ ++ p :: l₂)) := by
  have hc := h.chain a
  rw [hl] at hc
  have hp : p ∈ lists a := by simp [hl]
  refine h.shrink ?_ hc.bypass ?_
  · intro j hj
    rw [hl]
    simp only [List.mem_append, List.mem_cons] at hj ⊢
    tauto
  · intro b hb
    exact (h.chain b).update (fun hpb => hb (h.disjoint hpb hp)) _

/-- A cell is taken out, with the one before it known. -/
theorem cut (h : Linked next head lists) {l₁ l₂ : List Nat} (hl : lists a = l₁ ++ k :: l₂) :
    Linked (unlinkNext next l₁.getLast? k) (unlinkHead head a l₁.getLast? (next k))
      (Function.update lists a (l₁ ++ l₂)) := by
  cases l₁.eq_nil_or_concat with
  | inl hnil =>
    subst hnil
    exact h.pop hl
  | inr hcat =>
    obtain ⟨l, p, rfl⟩ := hcat
    simp only [List.concat_eq_append, List.append_assoc, List.singleton_append] at hl ⊢
    simp only [List.getLast?_append, List.getLast?_singleton, Option.some_or, unlinkNext,
      unlinkHead]
    exact h.bypass hl

/-- A cell is searched on its list and taken out. -/
theorem unlink (h : Linked next head lists) (hk : k ∈ lists a) {fuel : Nat}
    (hf : (lists a).length ≤ fuel) :
    ∃ prev, before next k fuel none (head a) = some prev ∧ (∀ p ∈ prev, p ∈ lists a) ∧
      Linked (unlinkNext next prev k) (unlinkHead head a prev (next k))
        (Function.update lists a ((lists a).erase k)) := by
  have hnd := (h.chain a).nodup
  obtain ⟨l₁, l₂, hl⟩ := List.append_of_mem hk
  have hc := h.chain a
  rw [hl] at hc hnd
  have hk₁ : k ∉ l₁ := fun hm => (List.nodup_append.mp hnd).2.2 k hm k List.mem_cons_self rfl
  have hlen : l₁.length < fuel := by
    rw [hl, List.length_append, List.length_cons] at hf
    omega
  refine ⟨_, before_eq hc hlen, ?_, ?_⟩
  · intro p hp
    rw [Option.or_none] at hp
    rw [hl]
    exact List.mem_append_left _ (List.mem_of_getLast? hp)
  rw [hl, List.erase_append_right _ hk₁, List.erase_cons_head, Option.or_none]
  exact h.cut hl

end Linked


/-! ## Links both ways -/

/-- A store through a pointer, which may be null. -/
def store (f : Nat → Nat) (k v : Nat) : Nat → Nat := if k = 0 then f else Function.update f k v

theorem store_of_ne {f : Nat → Nat} {k j v : Nat} (h : j ≠ k) : store f k v j = f j := by
  unfold store
  split_ifs with hk
  · rfl
  · exact Function.update_of_ne h _ _

theorem store_self {f : Nat → Nat} {k v : Nat} (h : k ≠ 0) : store f k v k = v := by
  rw [store, if_neg h, Function.update_self]

theorem backed_append {prev : Nat → Nat} {p : Nat} {l₁ l₂ : List Nat} :
    Backed prev p (l₁ ++ l₂) ↔ Backed prev p l₁ ∧ Backed prev (l₁.getLast?.getD p) l₂ := by
  induction l₁ generalizing p with
  | nil => exact ⟨fun h => ⟨trivial, h⟩, fun h => h.2⟩
  | cons k l₁ ih =>
    have hlast : (k :: l₁).getLast?.getD p = l₁.getLast?.getD k := by rw [List.getLast?_cons]; rfl
    rw [hlast]
    exact ⟨fun h => ⟨⟨h.1, (ih.mp h.2).1⟩, (ih.mp h.2).2⟩, fun h => ⟨h.1.1, ih.mpr ⟨h.1.2, h.2⟩⟩⟩

/-- The first cell gets another one before it. -/
theorem Backed.first {prev : Nat → Nat} {p : Nat} {l : List Nat} (h : Backed prev p l)
    (hnd : l.Nodup) (hpos : ∀ j ∈ l, j ≠ 0) (q : Nat) :
    Backed (store prev (l.headD 0) q) q l := by
  cases l with
  | nil => trivial
  | cons k l =>
    have hk := (List.nodup_cons.mp hnd).1
    refine ⟨store_self (hpos k List.mem_cons_self), h.2.congr fun j hj => store_of_ne ?_⟩
    rintro rfl
    exact hk hj

theorem Chain.insert {next : Nat → Nat} {h k q : Nat} {l₁ l₂ : List Nat}
    (hc : Chain next h (l₁ ++ q :: l₂)) (hk : k ∉ l₁ ++ q :: l₂) (hk0 : k ≠ 0) :
    Chain (Function.update (Function.update next k (next q)) q k) h (l₁ ++ q :: k :: l₂) := by
  have hnd := hc.nodup
  induction l₁ generalizing h with
  | nil =>
    have hkq : k ≠ q := fun he => hk (he ▸ List.mem_cons_self)
    have hkl : k ∉ l₂ := fun hm => hk (List.mem_cons_of_mem q hm)
    refine ⟨hc.1, hc.2.1, Function.update_self _ _ _, hk0, ?_⟩
    rw [Function.update_of_ne hkq, Function.update_self]
    exact (hc.2.2.update hkl _).update (List.nodup_cons.mp hnd).1 _
  | cons i l₁ ih =>
    rw [List.cons_append, List.nodup_cons] at hnd
    have hik : i ≠ k := fun he => hk (he ▸ List.mem_cons_self)
    have hiq : i ≠ q := fun he => hnd.1 (by simp [he])
    refine ⟨hc.1, hc.2.1, ?_⟩
    rw [Function.update_of_ne hiq, Function.update_of_ne hik]
    exact ih hc.2.2 (fun hm => hk (List.mem_cons_of_mem i hm)) hnd.2

/-- Lists with links both ways. -/
structure Doubly {A : Type} (next prev : Nat → Nat) (head : A → Nat) (lists : A → List Nat) :
    Prop extends Linked next head lists where
  backed : ∀ a, Backed prev 0 (lists a)

namespace Doubly

variable {A : Type} {next prev next' prev' : Nat → Nat} {head head' : A → Nat}
  {lists : A → List Nat} {a : A} {k q : Nat} {l l₁ l₂ : List Nat}

/-- Cells that are on no list may be written. -/
theorem congr (h : Doubly next prev head lists) (hn : ∀ a, ∀ j ∈ lists a, next' j = next j)
    (hp : ∀ a, ∀ j ∈ lists a, prev' j = prev j) : Doubly next' prev' head lists :=
  ⟨h.toLinked.congr hn, fun a => (h.backed a).congr (hp a)⟩

theorem pos (h : Doubly next prev head lists) (a : A) : ∀ j ∈ lists a, j ≠ 0 :=
  fun _ hj => (h.chain a).ne_zero hj

theorem fresh (h : Doubly next prev head lists) {b : A} (hba : b ≠ a) {j i : Nat}
    (hj : j ∈ lists b) (hi : i ∈ lists a) : j ≠ i := by
  rintro rfl
  exact hba (h.disjoint hj hi)

variable [DecidableEq A]

/-- One list becomes another one, of its own cells and of cells that are on no list. -/
theorem relist (h : Doubly next prev head lists)
    (hl : ∀ j ∈ l, j ∈ lists a ∨ ∀ b, j ∉ lists b) (hc : Chain next' (head' a) l)
    (hb : Backed prev' 0 l) (hhead : ∀ b, b ≠ a → head' b = head b)
    (hother : ∀ b, b ≠ a → ∀ j ∈ lists b, next' j = next j ∧ prev' j = prev j) :
    Doubly next' prev' head' (Function.update lists a l) := by
  refine ⟨⟨fun b => ?_, fun {b c j} hjb hjc => ?_⟩, fun b => ?_⟩
  · by_cases hba : b = a
    · subst hba
      rwa [Function.update_self]
    · rw [Function.update_of_ne hba, hhead b hba]
      exact (h.chain b).congr fun j hj => (hother b hba j hj).1
  · by_cases hba : b = a <;> by_cases hca : c = a
    · rw [hba, hca]
    · subst hba
      rw [Function.update_self] at hjb
      rw [Function.update_of_ne hca] at hjc
      rcases hl j hjb with hm | hno
      · exact h.disjoint hm hjc
      · exact absurd hjc (hno c)
    · subst hca
      rw [Function.update_self] at hjc
      rw [Function.update_of_ne hba] at hjb
      rcases hl j hjc with hm | hno
      · exact h.disjoint hjb hm
      · exact absurd hjb (hno b)
    · rw [Function.update_of_ne hba] at hjb
      rw [Function.update_of_ne hca] at hjc
      exact h.disjoint hjb hjc
  · by_cases hba : b = a
    · subst hba
      rwa [Function.update_self]
    · rw [Function.update_of_ne hba]
      exact (h.backed b).congr fun j hj => (hother b hba j hj).2

/-- The first cell is taken off. -/
theorem behead (h : Doubly next prev head lists) (hl : lists a = k :: l) :
    Doubly next (store prev (next k) 0) (Function.update head a (next k))
      (Function.update lists a l) := by
  have hc := h.chain a
  have hb := h.backed a
  have hpos := h.pos a
  have hnd := hc.nodup
  rw [hl] at hc hb hpos hnd
  have hhead : next k = l.headD 0 := hc.2.2.head_eq
  refine h.relist (fun j hj => .inl (by simp [hl, hj])) ?_ ?_
    (fun b hba => Function.update_of_ne hba _ _) fun b hba j hj => ⟨rfl, ?_⟩
  · rw [Function.update_self]
    exact hc.2.2
  · rw [hhead]
    exact hb.2.first (List.nodup_cons.mp hnd).2 (fun j hj => hpos j (List.mem_cons_of_mem k hj)) 0
  · refine store_of_ne ?_
    rw [hhead]
    cases l with
    | nil => exact (h.chain b).ne_zero hj
    | cons i l => exact h.fresh hba hj (by simp [hl])

/-- A cell behind another one is taken off. -/
theorem bypass (h : Doubly next prev head lists) (hl : lists a = l₁ ++ q :: k :: l₂) :
    prev k = q ∧ Doubly (Function.update next q (next k)) (store prev (next k) q) head
      (Function.update lists a (l₁ ++ q :: l₂)) := by
  have hc := h.chain a
  have hb := h.backed a
  have hpos := h.pos a
  have hnd := hc.nodup
  rw [hl] at hc hb hpos hnd
  have hsplit : l₁ ++ q :: k :: l₂ = (l₁ ++ [q]) ++ k :: l₂ := by simp
  have hprev : prev k = q := by
    rw [hsplit] at hb
    rw [hb.prev_eq]
    simp
  have hnext : next k = l₂.headD 0 := by
    rw [hsplit] at hc
    exact hc.next_eq
  refine ⟨hprev, h.relist (fun j hj => .inl ?_) hc.bypass ?_ (fun _ _ => rfl)
    fun b hba j hj => ⟨Function.update_of_ne (h.fresh hba hj (by simp [hl])) _ _, ?_⟩⟩
  · rw [hl]
    simp only [List.mem_append, List.mem_cons] at hj ⊢
    tauto
  · rw [hsplit, List.nodup_append, List.nodup_cons] at hnd
    rw [hsplit, backed_append] at hb
    rw [show l₁ ++ q :: l₂ = (l₁ ++ [q]) ++ l₂ by simp, backed_append, hnext]
    refine ⟨hb.1.congr fun j hj => store_of_ne ?_, ?_⟩
    · cases l₂ with
      | nil => exact hpos j (by simp only [List.mem_append, List.mem_cons] at hj ⊢; tauto)
      | cons i l₂ => exact hnd.2.2 j hj i (by simp)
    · rw [show (l₁ ++ [q]).getLast?.getD 0 = q by simp]
      exact hb.2.2.first hnd.2.1.2 (fun j hj => hpos j (by simp [hj])) q
  · refine store_of_ne ?_
    rw [hnext]
    cases l₂ with
    | nil => exact (h.chain b).ne_zero hj
    | cons i l₂ => exact h.fresh hba hj (by simp [hl])

/-- A cell is put before the first one. -/
theorem push (h : Doubly next prev head lists) (hk : k ≠ 0) (hfree : ∀ b, k ∉ lists b) (a : A) :
    Doubly (Function.update next k (head a)) (store (Function.update prev k 0) (head a) k)
      (Function.update head a k) (Function.update lists a (k :: lists a)) := by
  have hc := h.chain a
  have hhead : head a = (lists a).headD 0 := hc.head_eq
  have hne : ∀ {b j}, j ∈ lists b → j ≠ k := by
    rintro b j hj rfl
    exact hfree b hj
  refine h.relist (fun j hj => ?_) ?_ ?_ (fun b hba => Function.update_of_ne hba _ _)
    fun b hba j hj => ⟨Function.update_of_ne (hne hj) _ _, ?_⟩
  · rcases List.mem_cons.mp hj with rfl | hj
    · exact .inr hfree
    · exact .inl hj
  · rw [Function.update_self]
    refine ⟨rfl, hk, ?_⟩
    rw [Function.update_self]
    exact hc.update (hfree a) _
  · refine ⟨?_, ?_⟩
    · rw [hhead]
      refine (store_of_ne ?_).trans (Function.update_self _ _ _)
      cases hla : lists a with
      | nil => exact hk
      | cons i l => exact (hne (b := a) (by simp [hla])).symm
    · rw [hhead]
      exact ((h.backed a).update (hfree a) 0).first hc.nodup (h.pos a) k
  · have hj' : j ≠ (lists a).headD 0 := by
      cases hla : lists a with
      | nil => exact (h.chain b).ne_zero hj
      | cons i l => exact h.fresh hba hj (by simp [hla])
    rw [hhead, store_of_ne hj', Function.update_of_ne (hne hj)]

/-- A cell is put behind another one. -/
theorem insert (h : Doubly next prev head lists) (hl : lists a = l₁ ++ q :: l₂) (hk : k ≠ 0)
    (hfree : ∀ b, k ∉ lists b) :
    Doubly (Function.update (Function.update next k (next q)) q k)
      (store (Function.update prev k q) (next q) k) head
      (Function.update lists a (l₁ ++ q :: k :: l₂)) := by
  have hc := h.chain a
  have hb := h.backed a
  have hpos := h.pos a
  have hnd := hc.nodup
  have hka := hfree a
  rw [hl] at hc hb hpos hnd hka
  have hne : ∀ {b j}, j ∈ lists b → j ≠ k := by
    rintro b j hj rfl
    exact hfree b hj
  have hnext : next q = l₂.headD 0 := hc.next_eq
  have hk₂ : k ∉ l₂ := fun hm => hka (by simp [hm])
  have hsplit : l₁ ++ q :: l₂ = (l₁ ++ [q]) ++ l₂ := by simp
  rw [hsplit, List.nodup_append] at hnd
  rw [hsplit, backed_append] at hb
  refine h.relist (fun j hj => ?_) (hc.insert hka hk) ?_ (fun _ _ => rfl)
    fun b hba j hj => ⟨?_, ?_⟩
  · by_cases hjk : j = k
    · exact .inr (hjk ▸ hfree)
    · rw [hl]
      simp only [List.mem_append, List.mem_cons] at hj ⊢
      tauto
  · rw [show l₁ ++ q :: k :: l₂ = (l₁ ++ [q]) ++ k :: l₂ by simp, backed_append, hnext]
    refine ⟨hb.1.congr fun j hj => ?_, ?_, ?_⟩
    · have hj' : j ≠ l₂.headD 0 := by
        cases l₂ with
        | nil => exact hpos j (by simp only [List.mem_append, List.mem_cons] at hj ⊢; tauto)
        | cons i l₂ => exact hnd.2.2 j hj i (by simp)
      have hjk : j ≠ k := by
        rintro rfl
        exact hka (by simp only [List.mem_append, List.mem_cons] at hj ⊢; tauto)
      rw [store_of_ne hj', Function.update_of_ne hjk]
    · have hk' : k ≠ l₂.headD 0 := by
        cases l₂ with
        | nil => exact hk
        | cons i l₂ => exact fun he => hk₂ (he ▸ List.mem_cons_self)
      rw [store_of_ne hk', Function.update_self]
      simp
    · exact (hb.2.update hk₂ q).first hnd.2.1 (fun j hj => hpos j (by simp [hj])) k
  · rw [Function.update_of_ne (h.fresh hba hj (by simp [hl])), Function.update_of_ne (hne hj)]
  · have hj' : j ≠ l₂.headD 0 := by
      cases l₂ with
      | nil => exact (h.chain b).ne_zero hj
      | cons i l₂ => exact h.fresh hba hj (by simp [hl])
    rw [hnext, store_of_ne hj', Function.update_of_ne (hne hj)]

end Doubly

end Aix413.Lib.LinkedPool
