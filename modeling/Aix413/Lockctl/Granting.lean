import Aix413.Lockctl.Adjust
import Aix413.Lockctl.Edits

namespace Aix413.Lockctl.Granting

open LockTable Flckadj LockMap LockPool Placement ScanLemmas Adjust Edits
open Aix413.Lib.RangeMap

/-- A lock of another owner that overlaps the request and conflicts with it. -/
def Blocks (r f : Eflock) : Prop :=
  f.owner ≠ r.owner ∧ f.lStart ≤ r.lEnd ∧ r.lStart ≤ f.lEnd ∧ conflicts f r = true

instance (r f : Eflock) : Decidable (Blocks r f) := by unfold Blocks; infer_instance

/-- What holds of a lock that the first loop of `blocked` has passed. -/
structure Before (r f : Eflock) : Prop where
  start_lt : f.lStart < r.lStart
  clear : ¬ Blocks r f
  own : f.owner = r.owner → f.lEnd + 1 < r.lStart

theorem blockedBefore_inl {r : Eflock} {l : List Filock} {i : Option Nat} {f : Filock}
    (hr : r.lStart ≤ r.lEnd) (h : blockedBefore r l i = .inl f) : f ∈ l ∧ Blocks r f.set := by
  induction l generalizing i with
  | nil => simp [blockedBefore] at h
  | cons g l ih =>
    rw [blockedBefore] at h
    split at h
    next hs =>
      split at h
      next =>
        split at h
        · simp at h
        · exact (ih h).imp_left (List.mem_cons_of_mem g)
      next ho =>
        split at h
        next hc =>
          obtain rfl := Sum.inl.inj h
          rw [sameOwner_iff] at ho
          exact ⟨by simp, ho, by omega, hc.1, hc.2⟩
        next => exact (ih h).imp_left (List.mem_cons_of_mem g)
    next => simp at h

/-- The hint of the first loop: the last lock passed, or a lock of the owner
that reaches the request. -/
theorem blockedBefore_inr {r : Eflock} {l rest : List Filock} {i j : Option Nat}
    (h : blockedBefore r l i = .inr (j, rest)) :
    ∃ A, l = A ++ rest ∧ (∀ f ∈ A, Before r f.set) ∧
      ((j = (A.getLast?.map Filock.addr).or i ∧ ∀ f ∈ rest.head?, r.lStart ≤ f.set.lStart) ∨
        ∃ f Q, rest = f :: Q ∧ j = some f.addr ∧ f.set.lStart < r.lStart) := by
  induction l generalizing i with
  | nil =>
    simp only [blockedBefore, Sum.inr.injEq, Prod.mk.injEq] at h
    obtain ⟨rfl, rfl⟩ := h
    exact ⟨[], rfl, by simp, Or.inl ⟨by simp, by simp⟩⟩
  | cons g l ih =>
    have hpass : Before r g.set → blockedBefore r l (some g.addr) = .inr (j, rest) →
        ∃ A, g :: l = A ++ rest ∧ (∀ f ∈ A, Before r f.set) ∧
          ((j = (A.getLast?.map Filock.addr).or i ∧ ∀ f ∈ rest.head?, r.lStart ≤ f.set.lStart) ∨
            ∃ f Q, rest = f :: Q ∧ j = some f.addr ∧ f.set.lStart < r.lStart) := by
      intro hb hrec
      obtain ⟨A, hl, hA, hj⟩ := ih hrec
      refine ⟨g :: A, by rw [hl]; rfl, ?_, hj.imp_left fun hj => ⟨?_, hj.2⟩⟩
      · intro f hf
        rcases List.mem_cons.mp hf with rfl | hf
        · exact hb
        · exact hA f hf
      · rw [hj.1, List.getLast?_cons]
        cases A.getLast? <;> rfl
    rw [blockedBefore] at h
    split at h
    next hs =>
      split at h
      next ho =>
        rw [sameOwner_iff] at ho
        split at h
        next he =>
          simp only [Sum.inr.injEq, Prod.mk.injEq] at h
          obtain ⟨rfl, rfl⟩ := h
          exact ⟨[], rfl, by simp, Or.inr ⟨g, l, rfl, rfl, hs⟩⟩
        next he => exact hpass ⟨hs, fun hb => hb.1 ho, fun _ => by omega⟩ h
      next ho =>
        rw [sameOwner_iff] at ho
        split at h
        next => simp at h
        next hc =>
          exact hpass ⟨hs, fun hb => hc ⟨hb.2.2.1, hb.2.2.2⟩, fun he => absurd he ho⟩ h
    next hs =>
      simp only [Sum.inr.injEq, Prod.mk.injEq] at h
      obtain ⟨rfl, rfl⟩ := h
      exact ⟨[], rfl, by simp, Or.inl ⟨by simp, by simpa using hs⟩⟩

theorem blockedAfter_some {r : Eflock} {l : List Filock} {f : Filock}
    (h : blockedAfter r l = some f) : f ∈ l ∧ Blocks r f.set := by
  induction l with
  | nil => simp [blockedAfter] at h
  | cons g l ih =>
    rw [blockedAfter] at h
    split at h
    · simp at h
    next he =>
      split at h
      next hc =>
        obtain rfl := Option.some.inj h
        rw [sameOwner_iff] at hc
        exact ⟨by simp, hc.2.1, by omega, hc.1, hc.2.2⟩
      next => exact (ih h).imp_left (List.mem_cons_of_mem g)

/-- The second loop may stop at the first lock past the request, as the list
is sorted. -/
theorem blockedAfter_none {r : Eflock} {l : List Filock}
    (hl : l.Pairwise (fun f g => f.set.lStart ≤ g.set.lStart)) (h : blockedAfter r l = none) :
    ∀ f ∈ l, ¬ Blocks r f.set := by
  induction l with
  | nil => simp
  | cons g l ih =>
    obtain ⟨hg, hl⟩ := List.pairwise_cons.mp hl
    rw [blockedAfter] at h
    intro f hf hb
    split at h
    next he =>
      have hb1 := hb.2.1
      rcases List.mem_cons.mp hf with rfl | hf
      · omega
      · have := hg f hf
        omega
    next he =>
      split at h
      · simp at h
      next hc =>
        rcases List.mem_cons.mp hf with rfl | hf
        · refine hc ⟨hb.2.2.1, ?_, hb.2.2.2⟩
          rw [sameOwner_iff]
          exact hb.1
        · exact ih hl h f hf hb

/-- `blocked` gives a lock that stands in the way of the request. -/
theorem blocked_some {r : Eflock} {l : List Filock} {f : Filock} (hr : r.lStart ≤ r.lEnd)
    (h : (blocked l r).1 = some f) : f ∈ l ∧ Blocks r f.set := by
  unfold blocked at h
  cases hb : blockedBefore r l none with
  | inl g =>
    rw [hb] at h
    obtain rfl := Option.some.inj h
    exact blockedBefore_inl hr hb
  | inr p =>
    obtain ⟨j, rest⟩ := p
    rw [hb] at h
    obtain ⟨A, rfl, _, _⟩ := blockedBefore_inr hb
    exact (blockedAfter_some h).imp_left (List.mem_append_right A)

theorem blocked_none {r : Eflock} {l : List Filock} (hl : LockList l)
    (h : (blocked l r).1 = none) : ∀ f ∈ l, ¬ Blocks r f.set := by
  unfold blocked at h
  cases hb : blockedBefore r l none with
  | inl g => simp [hb] at h
  | inr p =>
    obtain ⟨j, rest⟩ := p
    rw [hb] at h
    obtain ⟨A, rfl, hA, _⟩ := blockedBefore_inr hb
    intro f hf
    rcases List.mem_append.mp hf with hf | hf
    · exact (hA f hf).clear
    · have hs := lockList_sorted (hl.sublist (List.sublist_append_right A rest))
      exact blockedAfter_none hs h f hf

theorem granted_of_clear {r : Eflock} {l : List Filock} (hl : LockList l)
    (ht : r.lType = .rdlck ∨ r.lType = .wrlck) (h : ∀ f ∈ l, ¬ Blocks r f.set) :
    Granted l r.owner r.lType r.lStart r.lEnd := by
  intro f hf ho hs he
  have hc : ¬ conflicts f.set r = true := fun hc => h f hf ⟨ho, hs, he, hc⟩
  rcases (hl.valid f hf).held with hft | hft <;> rcases ht with hrt | hrt <;>
    simp_all [conflicts]

/-- The locks before the insertion point. -/
theorem mem_splitAt {P Q : List Filock} {f g : Filock}
    (h : g ∈ (splitAt (some f.addr) (P ++ f :: Q)).1) : g ∈ P := by
  simp only [splitAt, List.span_eq_takeWhile_dropWhile] at h
  induction P with
  | nil => simp at h
  | cons p P ih =>
    rw [List.cons_append, List.takeWhile_cons] at h
    split at h
    · rcases List.mem_cons.mp h with rfl | h
      · simp
      · exact List.mem_cons_of_mem p (ih h)
    · simp at h

theorem splitAt_append (i : Option Nat) (l : List Filock) :
    (splitAt i l).1 ++ (splitAt i l).2 = l := by
  cases i with
  | none => rfl
  | some a =>
    simp only [splitAt, List.span_eq_takeWhile_dropWhile]
    exact List.takeWhile_append_dropWhile

/-- The hint of `blocked`: a right place to insert, and no lock of the owner
before it meets the request. -/
theorem blocked_hint {r : Eflock} {l : List Filock} (hl : LockList l)
    (h : (blocked l r).1 = none) :
    Hint l (blocked l r).2 r.lStart ∧
      ∀ f ∈ (splitAt (blocked l r).2 l).1, f.set.owner = r.owner → f.set.lEnd + 1 < r.lStart := by
  unfold blocked at h ⊢
  cases hb : blockedBefore r l none with
  | inl g => simp [hb] at h
  | inr p =>
    obtain ⟨j, rest⟩ := p
    simp only
    obtain ⟨A, rfl, hA, hj⟩ := blockedBefore_inr hb
    have hsort := lockList_sorted (hl.sublist (List.sublist_append_right A rest))
    rcases hj with ⟨rfl, hhead⟩ | ⟨f, Q, rfl, rfl, hf⟩
    · rcases List.eq_nil_or_concat' A with rfl | ⟨P, g, rfl⟩
      · refine ⟨fun f hf => ?_, by simp [splitAt]⟩
        rw [List.nil_append] at hf
        cases rest with
        | nil => simp at hf
        | cons q rest =>
          have hq := hhead q (by simp)
          rcases List.mem_cons.mp hf with rfl | hf
          · exact hq
          · exact hq.trans ((List.pairwise_cons.mp hsort).1 f hf)
      · have hlast : ((P ++ [g]).getLast?.map Filock.addr).or none = some g.addr := by simp
        rw [hlast]
        refine ⟨⟨g, by simp, rfl, (hA g (by simp)).start_lt.le⟩, fun f hf => ?_⟩
        rw [List.append_assoc, List.singleton_append] at hf
        exact (hA f (by simp [mem_splitAt hf])).own
    · exact ⟨⟨f, by simp, rfl, hf.le⟩, fun g hg => (hA g (mem_splitAt hg)).own⟩

/-- A request to be applied: granted by `blocked`, or an unlock. -/
structure Applies (l : List Filock) (r : Eflock) (insrtp : Option Nat) : Prop where
  granted : r.lType ≠ .unlck → Granted l r.owner r.lType r.lStart r.lEnd
  hint : r.lType ≠ .unlck → Hint l insrtp r.lStart
  before : ∀ f ∈ (splitAt insrtp l).1, f.set.owner = r.owner → f.set.lEnd + 1 < r.lStart

theorem applies_lock {l : List Filock} {r : Eflock} (hl : LockList l)
    (ht : r.lType = .rdlck ∨ r.lType = .wrlck) (h : (blocked l r).1 = none) :
    Applies l r (blocked l r).2 :=
  ⟨fun _ => granted_of_clear hl ht (blocked_none hl h), fun _ => (blocked_hint hl h).1,
    (blocked_hint hl h).2⟩

/-- An unlock starts at the head of the list. -/
theorem applies_unlock {l : List Filock} {r : Eflock} (ht : r.lType = .unlck) :
    Applies l r (l.head?.map Filock.addr) := by
  refine ⟨fun h => absurd ht h, fun h => absurd ht h, fun f hf => ?_⟩
  cases l with
  | nil => simp [splitAt] at hf
  | cons g l => exact absurd (mem_splitAt (P := []) hf) (by simp)

theorem scanInv_start {m : Mem} {l : List Filock} {r : Eflock} {i : Option Nat} (hl : LockList l)
    (hr : Request r) (ha : Applies l r i) :
    ScanInv l r ⟨m, (splitAt i l).1, i, r⟩ (splitAt i l).2 := by
  refine ⟨?_, rfl, rfl, hr.start_nonneg, hr.start_le_end, ?_, ?_, ?_, ?_, ?_⟩
  · rw [splitAt_append]
    exact hl
  · intro f hf ho
    have := ha.before f hf ho
    exact ⟨by simp only; omega, fun _ => this⟩
  · rw [splitAt_append]
    exact ha.granted
  · rw [splitAt_append]
    exact ha.hint
  · rw [splitAt_append]
  · rw [splitAt_append]
    exact fun _ _ => rfl

/-- The widened request, linked in where it belongs. -/
theorem adjusted_insert {l₀ A B : List Filock} {r ld : Eflock} {i : Option Nat} {a : Nat}
    (hr : Request r) (hu : r.lType ≠ .unlck) (h : Ready l₀ r (A ++ B) i ld)
    (hA : ∀ f ∈ A, f.set.lStart ≤ ld.lStart) (hB : ∀ f ∈ B, ld.lStart ≤ f.set.lStart) :
    Adjusted l₀ r (A ++ freshFilock a ld :: B) := by
  have htype : ld.lType = .rdlck ∨ ld.lType = .wrlck := by
    rw [h.type]
    cases ht : r.lType with
    | rdlck => simp
    | wrlck => simp
    | unlck => exact absurd ht hu
    | invalid => exact absurd ht hr.type
  have hv : Valid ld := ⟨h.start_nonneg, h.start_le_end, htype⟩
  have hc : ∀ f ∈ A ++ B, Compatible f.set ld := by
    intro f hf
    constructor
    · intro ho
      have hcl := h.clear f hf (ho.trans h.owner)
      rwa [← h.type] at hcl
    · intro ho h1 h2
      have hg := h.granted hu f hf (by rwa [← h.owner]) h1 h2
      rwa [← h.type] at hg
  have hwf : LockList (A ++ freshFilock a ld :: B) := lockList_insert h.wf hv hc hA hB
  refine ⟨hwf, ?_, ?_⟩
  · funext b
    rw [lockAt_insert hwf, ← h.bytes]
    simp only [freshFilock_set, h.owner, true_and]
    by_cases hb : ld.lStart ≤ b ∧ b ≤ ld.lEnd
    · rw [if_pos hb, overwrite_in hb, ← h.type, requested_of_held hv]
    · rw [if_neg hb, overwrite_out (by omega)]
  · intro o ho
    have hne : (freshFilock a ld).set.owner ≠ o := by
      rw [freshFilock_set, h.owner]
      exact ho.symm
    rw [runs_append, runs_cons_other hne, ← runs_append]
    exact h.others o ho

/-- An unlock is done when the scan is. -/
theorem adjusted_unlock {l₀ l : List Filock} {r ld : Eflock} {i : Option Nat}
    (hu : r.lType = .unlck) (h : Ready l₀ r l i ld) : Adjusted l₀ r l := by
  refine ⟨h.wf, ?_, h.others⟩
  funext b
  rw [← h.bytes]
  by_cases hb : ld.lStart ≤ b ∧ b ≤ ld.lEnd
  · rw [overwrite_in hb, hu, requested, if_pos rfl]
    refine lockAt_eq_none fun f hf ho => ?_
    rcases h.clear f hf ho with hc | hc
    · exact Or.inr (by omega)
    · exact Or.inl (by omega)
  · rw [overwrite_out (by omega)]

/-- What `flckadj` does with a request that applies. -/
structure Done (m : Mem) (l : List Filock) (r : Eflock) (x : Result) : Prop where
  edited : Edited r.owner (m, l) (x.mem, x.list)
  wf : LockList x.list
  adjusted : x.rc = true → Adjusted l r x.list

theorem flckadj_done {m : Mem} {l : List Filock} {r : Eflock} {i : Option Nat} (hp : Pool m l)
    (hl : LockList l) (hr : Request r) (ha : Applies l r i) : Done m l r (flckadj m l i r) := by
  have hed := scan_edited (splitAt i l).2 m (splitAt i l).1 i r rfl
  rw [splitAt_append] at hed
  have hok := scan_ok (scanInv_start (m := m) hl hr ha)
  unfold flckadj
  cases hs : scan ⟨m, (splitAt i l).1, i, r⟩ (splitAt i l).2 with
  | early m₁ l₁ ld rc =>
    rw [hs] at hed hok
    exact ⟨hed, hok.1, hok.2⟩
  | insert m₁ l₁ i₁ ld =>
    rw [hs] at hed hok
    have hready : Ready l r l₁ i₁ ld := hok
    simp only
    split
    next hu =>
      have hadj := adjusted_unlock (hready.type.symm.trans hu) hready
      exact ⟨hed, hready.wf, fun _ => hadj⟩
    next hu =>
      have hu' : r.lType ≠ .unlck := fun he => hu (hready.type.trans he)
      have hn : (addrs l₁).Nodup := (edited_pool hed hp).nodup_list
      unfold insflck
      cases ht : takeFree m₁ with
      | none => exact ⟨hed, hready.wf, fun hrc => absurd hrc (by simp)⟩
      | some p =>
        obtain ⟨a, m₂⟩ := p
        obtain ⟨A, B, rfl, he, hA, hB⟩ := insAfter_advance hready.wf hn (hready.hint hu')
          (freshFilock a ld)
        have hadj := adjusted_insert (a := a) hr hu' hready hA hB
        simp only [he]
        exact ⟨hed.tail (Edit.link ht hready.owner), hadj.wf, fun _ => hadj⟩

end Aix413.Lockctl.Granting
