import Aix413.Lib.RangeMap
import Aix413.Lockctl.Flckadj

namespace Aix413.Lockctl.LockMap

open LockTable Flckadj
open Aix413.Lib.RangeMap

def toRun (f : Filock) : Run LockType := ⟨f.set.lStart, f.set.lEnd, f.set.lType⟩

/-- The locks of one owner, as runs. -/
def runs (o : Owner) (l : List Filock) : List (Run LockType) :=
  (l.filter (fun f => f.set.owner = o)).map toRun

/-- The type with which an owner has a byte locked. -/
def lockAt (l : List Filock) (o : Owner) : Int → Option LockType := look (runs o l)

/-- What a request leaves on the bytes it names. -/
def requested (t : LockType) : Option LockType := if t = .unlck then none else some t

@[simp] theorem runs_append (o : Owner) (l r : List Filock) :
    runs o (l ++ r) = runs o l ++ runs o r := by
  simp [runs]

theorem runs_cons_own {o : Owner} {f : Filock} (h : f.set.owner = o) (l : List Filock) :
    runs o (f :: l) = toRun f :: runs o l := by
  simp [runs, h]

theorem runs_cons_other {o : Owner} {f : Filock} (h : f.set.owner ≠ o) (l : List Filock) :
    runs o (f :: l) = runs o l := by
  simp [runs, h]

theorem lockAt_append (l r : List Filock) (o : Owner) (b : Int) :
    lockAt (l ++ r) o b = (lockAt l o b).or (lockAt r o b) := by
  simp only [lockAt, runs_append, look_append]

theorem lockAt_cons (f : Filock) (l : List Filock) (o : Owner) (b : Int) :
    lockAt (f :: l) o b =
      if f.set.owner = o ∧ f.set.lStart ≤ b ∧ b ≤ f.set.lEnd then some f.set.lType
      else lockAt l o b := by
  by_cases ho : f.set.owner = o
  · simp only [lockAt, runs_cons_own ho, look_cons, toRun, ho, true_and]
  · simp only [lockAt, runs_cons_other ho, ho, false_and, if_false]

theorem lockAt_eq_none {l : List Filock} {o : Owner} {b : Int}
    (h : ∀ f ∈ l, f.set.owner = o → b < f.set.lStart ∨ f.set.lEnd < b) : lockAt l o b = none := by
  apply look_eq_none
  intro r hr
  obtain ⟨f, hf, rfl⟩ := List.mem_map.mp hr
  have hf' := List.mem_filter.mp hf
  exact h f hf'.1 (of_decide_eq_true hf'.2)

/-- Locks that are really locks: a nonempty range, read or write. -/
structure Valid (e : Eflock) : Prop where
  start_nonneg : 0 ≤ e.lStart
  start_le_end : e.lStart ≤ e.lEnd
  held : e.lType = .rdlck ∨ e.lType = .wrlck

/-- How a lock may stand to a later one of the list. -/
structure Beside (f g : Eflock) : Prop where
  start_le : f.lStart ≤ g.lStart
  apart : f.owner = g.owner → f.lEnd < g.lStart ∧ (f.lType = g.lType → f.lEnd + 1 < g.lStart)
  agree : f.owner ≠ g.owner → f.lStart ≤ g.lEnd → g.lStart ≤ f.lEnd →
    f.lType = .rdlck ∧ g.lType = .rdlck

/-- The invariant of a gnode's list: sorted by start, the locks of one owner
apart and coalesced, no conflict between owners. -/
structure LockList (l : List Filock) : Prop where
  pairs : l.Pairwise (fun f g => Beside f.set g.set)
  valid : ∀ f ∈ l, Valid f.set

theorem lockList_nil : LockList [] := ⟨List.Pairwise.nil, by simp⟩

theorem LockList.sublist {l l' : List Filock} (h : LockList l) (hs : l'.Sublist l) : LockList l' :=
  ⟨h.pairs.sublist hs, fun f hf => h.valid f (hs.subset hf)⟩

theorem lockList_of_sets {l l' : List Filock} (h : LockList l)
    (he : l'.map Filock.set = l.map Filock.set) : LockList l' := by
  have hp : (l.map Filock.set).Pairwise Beside := List.pairwise_map.mpr h.pairs
  constructor
  · rw [← he] at hp
    exact List.pairwise_map.mp hp
  · intro f hf
    have hm : f.set ∈ l.map Filock.set := he ▸ List.mem_map_of_mem hf
    obtain ⟨g, hg, hgf⟩ := List.mem_map.mp hm
    exact hgf ▸ h.valid g hg

theorem lockList_middle {A B : List Filock} {f : Filock} :
    LockList (A ++ f :: B) ↔ LockList (A ++ B) ∧ Valid f.set ∧
      (∀ a ∈ A, Beside a.set f.set) ∧ ∀ b ∈ B, Beside f.set b.set := by
  constructor
  · intro h
    have hp := List.pairwise_append.mp h.pairs
    have hc := List.pairwise_cons.mp hp.2.1
    refine ⟨h.sublist ?_, h.valid f (by simp), fun a ha => hp.2.2 a ha f (by simp), hc.1⟩
    exact List.Sublist.append (List.Sublist.refl A) (List.sublist_cons_self f B)
  · rintro ⟨h, hv, ha, hb⟩
    have hp := List.pairwise_append.mp h.pairs
    constructor
    · refine List.pairwise_append.mpr ⟨hp.1, List.pairwise_cons.mpr ⟨hb, hp.2.1⟩, ?_⟩
      intro a haA g hg
      rcases List.mem_cons.mp hg with rfl | hg
      · exact ha a haA
      · exact hp.2.2 a haA g hg
    · intro g hg
      rcases List.mem_append.mp hg with hg | hg
      · exact h.valid g (by simp [hg])
      · rcases List.mem_cons.mp hg with rfl | hg
        · exact hv
        · exact h.valid g (by simp [hg])

theorem Beside.trim_left {f g : Eflock} (h : Beside f g) {e : Int} (he : e ≤ f.lEnd) :
    Beside { f with lEnd := e } g := by
  refine ⟨h.start_le, fun ho => ?_, fun ho h1 h2 => h.agree ho h1 (by simp only at h2; omega)⟩
  have ha := h.apart ho
  exact ⟨by simp only; omega, fun ht => by have := ha.2 ht; simp only; omega⟩

theorem Beside.trim_right {f g : Eflock} (h : Beside f g) {e : Int} (he : e ≤ g.lEnd) :
    Beside f { g with lEnd := e } :=
  ⟨h.start_le, h.apart, fun ho h1 h2 => h.agree ho (by simp only at h1; omega) h2⟩

/-- The end of a lock may be cut off. -/
theorem LockList.trim {A B : List Filock} {f g : Filock} (h : LockList (A ++ f :: B)) {e : Int}
    (hg : g.set = { f.set with lEnd := e }) (hs : f.set.lStart ≤ e) (he : e ≤ f.set.lEnd) :
    LockList (A ++ g :: B) := by
  obtain ⟨hAB, hv, ha, hb⟩ := lockList_middle.mp h
  rw [lockList_middle, hg]
  exact ⟨hAB, ⟨hv.start_nonneg, hs, hv.held⟩, fun a m => (ha a m).trim_right he,
    fun b m => (hb b m).trim_left he⟩

/-- A byte belongs to the owner's type exactly when a lock of the list covers it. -/
theorem lockAt_eq_some_iff {l : List Filock} (h : LockList l) (o : Owner) (b : Int) (t : LockType) :
    lockAt l o b = some t ↔
      ∃ f ∈ l, f.set.owner = o ∧ f.set.lStart ≤ b ∧ b ≤ f.set.lEnd ∧ f.set.lType = t := by
  have hv : ∀ r ∈ runs o l, r.lo ≤ r.hi := by
    intro r hr
    obtain ⟨f, hf, rfl⟩ := List.mem_map.mp hr
    exact (h.valid f (List.mem_filter.mp hf).1).start_le_end
  have ha : (runs o l).Pairwise Apart := by
    refine List.pairwise_map.mpr (List.Pairwise.imp_of_mem ?_ (h.pairs.filter _))
    intro f g hf hg hb
    have hf' := of_decide_eq_true (List.mem_filter.mp hf).2
    have hg' := of_decide_eq_true (List.mem_filter.mp hg).2
    exact hb.apart (hf'.trans hg'.symm)
  rw [lockAt, look_eq_some_iff hv ha]
  constructor
  · rintro ⟨r, hr, h1, h2, h3⟩
    obtain ⟨f, hf, rfl⟩ := List.mem_map.mp hr
    obtain ⟨hm, ho⟩ := List.mem_filter.mp hf
    exact ⟨f, hm, of_decide_eq_true ho, h1, h2, h3⟩
  · rintro ⟨f, hf, ho, h1, h2, h3⟩
    exact ⟨toRun f, List.mem_map.mpr ⟨f, List.mem_filter.mpr ⟨hf, by simp [ho]⟩, rfl⟩, h1, h2, h3⟩

end Aix413.Lockctl.LockMap
