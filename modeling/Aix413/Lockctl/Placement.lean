import Aix413.Lockctl.LockMap
import Mathlib.Data.List.TakeWhile

namespace Aix413.Lockctl.Placement

open LockTable Flckadj LockMap

/-- Two locks that may be in one list, in either order. -/
structure Compatible (f g : Eflock) : Prop where
  apart : f.owner = g.owner →
    (f.lEnd < g.lStart ∧ (f.lType = g.lType → f.lEnd + 1 < g.lStart)) ∨
    (g.lEnd < f.lStart ∧ (f.lType = g.lType → g.lEnd + 1 < f.lStart))
  agree : f.owner ≠ g.owner → f.lStart ≤ g.lEnd → g.lStart ≤ f.lEnd →
    f.lType = .rdlck ∧ g.lType = .rdlck

theorem Compatible.symm {f g : Eflock} (h : Compatible f g) : Compatible g f := by
  constructor
  · intro ho
    rcases h.apart ho.symm with ⟨h1, h2⟩ | ⟨h1, h2⟩
    · exact Or.inr ⟨h1, fun ht => h2 ht.symm⟩
    · exact Or.inl ⟨h1, fun ht => h2 ht.symm⟩
  · intro ho h1 h2
    exact (h.agree ho.symm h2 h1).symm

theorem beside_compatible {f g : Eflock} (h : Beside f g) : Compatible f g :=
  ⟨fun ho => Or.inl (h.apart ho), h.agree⟩

theorem Compatible.beside {f g : Eflock} (h : Compatible f g) (hg : g.lStart ≤ g.lEnd)
    (hs : f.lStart ≤ g.lStart) : Beside f g := by
  refine ⟨hs, fun ho => ?_, h.agree⟩
  rcases h.apart ho with h | h
  · exact h
  · omega

/-- A piece of a lock is compatible with what the lock is compatible with. -/
theorem Compatible.piece {f g g' : Eflock} (h : Compatible f g) (ho : g'.owner = g.owner)
    (ht : g'.lType = g.lType) (hs : g.lStart ≤ g'.lStart) (he : g'.lEnd ≤ g.lEnd) :
    Compatible f g' := by
  constructor
  · intro hfo
    rw [ht]
    rcases h.apart (hfo.trans ho) with ⟨h1, h2⟩ | ⟨h1, h2⟩
    · exact Or.inl ⟨by omega, fun hft => by have := h2 hft; omega⟩
    · exact Or.inr ⟨by omega, fun hft => by have := h2 hft; omega⟩
  · intro hfo h1 h2
    rw [ht]
    exact h.agree (by rwa [← ho]) (by omega) (by omega)

theorem lockList_compatible {A B : List Filock} {f g : Filock} (h : LockList (A ++ f :: B))
    (hg : g ∈ A ++ B) : Compatible g.set f.set := by
  obtain ⟨_, _, hA, hB⟩ := lockList_middle.mp h
  rcases List.mem_append.mp hg with hm | hm
  · exact beside_compatible (hA g hm)
  · exact (beside_compatible (hB g hm)).symm

/-- A lock compatible with the list may be linked in where the starts allow it. -/
theorem lockList_insert {A B : List Filock} {new : Filock} (h : LockList (A ++ B))
    (hv : Valid new.set) (hc : ∀ f ∈ A ++ B, Compatible f.set new.set)
    (hA : ∀ f ∈ A, f.set.lStart ≤ new.set.lStart) (hB : ∀ f ∈ B, new.set.lStart ≤ f.set.lStart) :
    LockList (A ++ new :: B) := by
  refine lockList_middle.mpr ⟨h, hv, fun f hf => ?_, fun f hf => ?_⟩
  · exact (hc f (by simp [hf])).beside hv.start_le_end (hA f hf)
  · exact (hc f (by simp [hf])).symm.beside (h.valid f (by simp [hf])).start_le_end (hB f hf)

/-- The map after linking in a lock. -/
theorem lockAt_insert {A B : List Filock} {new : Filock} (h : LockList (A ++ new :: B)) (o : Owner)
    (b : Int) : lockAt (A ++ new :: B) o b =
      if new.set.owner = o ∧ new.set.lStart ≤ b ∧ b ≤ new.set.lEnd then some new.set.lType
      else lockAt (A ++ B) o b := by
  split
  next hb =>
    rw [lockAt_eq_some_iff h]
    exact ⟨new, by simp, hb.1, hb.2.1, hb.2.2, rfl⟩
  next hb => simp only [lockAt_append, lockAt_cons, if_neg hb]

theorem start_le_of_mem_takeWhile {l : List Filock} {x : Int} {f : Filock}
    (hf : f ∈ l.takeWhile (fun g => g.set.lStart < x)) : f.set.lStart ≤ x := by
  have h := List.mem_takeWhile_imp hf
  exact (of_decide_eq_true h).le

/-- In a sorted list the locks from the first that does not start before `x`
on do not start before `x`. -/
theorem le_start_of_mem_dropWhile {l : List Filock} {x : Int} {f : Filock}
    (hl : l.Pairwise (fun f g => f.set.lStart ≤ g.set.lStart))
    (hf : f ∈ l.dropWhile (fun g => g.set.lStart < x)) : x ≤ f.set.lStart := by
  induction l with
  | nil => simp at hf
  | cons g l ih =>
    obtain ⟨hg, hl⟩ := List.pairwise_cons.mp hl
    by_cases hx : g.set.lStart < x
    · rw [List.dropWhile_cons_of_pos (by simpa using hx)] at hf
      exact ih hl hf
    · rw [List.dropWhile_cons_of_neg (by simpa using hx)] at hf
      rcases List.mem_cons.mp hf with rfl | hf
      · omega
      · have := hg f hf
        omega

theorem lockList_sorted {l : List Filock} (h : LockList l) :
    l.Pairwise (fun f g => f.set.lStart ≤ g.set.lStart) :=
  h.pairs.imp fun hb => hb.start_le

theorem placePiece_split (new : Filock) (P l : List Filock) : ∃ A B, l = A ++ B ∧
    P ++ placePiece new l = (P ++ A) ++ new :: B ∧
    A = l.takeWhile (fun f => f.set.lStart < new.set.lStart) ∧
    B = l.dropWhile (fun f => f.set.lStart < new.set.lStart) :=
  ⟨_, _, List.takeWhile_append_dropWhile.symm, by simp [placePiece], rfl, rfl⟩

theorem mem_placePiece {new f : Filock} {l : List Filock} :
    f ∈ placePiece new l ↔ f = new ∨ f ∈ l := by
  obtain ⟨A, B, hl, hp, _, _⟩ := placePiece_split new [] l
  rw [List.nil_append, List.nil_append] at hp
  rw [hp, hl]
  simp only [List.mem_append, List.mem_cons]
  tauto

theorem lockList_placePiece {P l : List Filock} {new : Filock} (h : LockList (P ++ l))
    (hv : Valid new.set) (hc : ∀ f ∈ P ++ l, Compatible f.set new.set)
    (hP : ∀ f ∈ P, f.set.lStart ≤ new.set.lStart) : LockList (P ++ placePiece new l) := by
  obtain ⟨A, B, hl, hp, hA, hB⟩ := placePiece_split new P l
  have hs := lockList_sorted (h.sublist (List.sublist_append_right P l))
  rw [hl, ← List.append_assoc] at h hc
  rw [hp]
  refine lockList_insert h hv hc (fun f hf => ?_) (fun f hf => ?_)
  · rcases List.mem_append.mp hf with hf | hf
    · exact hP f hf
    · exact start_le_of_mem_takeWhile (hA ▸ hf)
  · exact le_start_of_mem_dropWhile hs (hB ▸ hf)

theorem lockAt_placePiece {P l : List Filock} {new : Filock} (h : LockList (P ++ placePiece new l))
    (o : Owner) (b : Int) : lockAt (P ++ placePiece new l) o b =
      if new.set.owner = o ∧ new.set.lStart ≤ b ∧ b ≤ new.set.lEnd then some new.set.lType
      else lockAt (P ++ l) o b := by
  obtain ⟨A, B, hl, hp, _, _⟩ := placePiece_split new P l
  rw [hp] at h ⊢
  rw [lockAt_insert h, hl, List.append_assoc]

theorem runs_placePiece {P l : List Filock} {new : Filock} {o : Owner} (h : new.set.owner ≠ o) :
    runs o (P ++ placePiece new l) = runs o (P ++ l) := by
  obtain ⟨A, B, hl, hp, _, _⟩ := placePiece_split new P l
  rw [hp, hl]
  simp only [runs_append, runs_cons_other h, List.append_assoc]

/-- The insertion point is a lock that does not start after `start`, or null
when there is no lock before `start`. -/
def Hint (l : List Filock) (insrtp : Option Nat) (start : Int) : Prop :=
  match insrtp with
  | none => ∀ f ∈ l, start ≤ f.set.lStart
  | some a => ∃ f ∈ l, f.addr = a ∧ f.set.lStart ≤ start

theorem Hint.mono {l l' : List Filock} {insrtp : Option Nat} {s : Int} (h : Hint l insrtp s)
    (hl : ∀ f ∈ l, f.set.lStart ≤ s → f ∈ l') (hr : ∀ f ∈ l', f ∈ l ∨ s ≤ f.set.lStart) :
    Hint l' insrtp s := by
  cases insrtp with
  | none =>
    intro f hf
    rcases hr f hf with hf | hf
    · exact h f hf
    · exact hf
  | some a =>
    obtain ⟨f, hf, ha, hs⟩ := h
    exact ⟨f, hl f hf hs, ha, hs⟩

/-- `insAfter` links in after the last lock of the part before. -/
theorem insAfter_append {A B : List Filock} {new g : Filock} (hA : A.getLast? = some g)
    (hn : (addrs (A ++ B)).Nodup) : insAfter new (some g.addr) (A ++ B) = A ++ new :: B := by
  induction A with
  | nil => simp at hA
  | cons f A ih =>
    rw [List.cons_append, addrs_cons, List.nodup_cons] at hn
    cases A with
    | nil =>
      obtain rfl : f = g := by simpa using hA
      simp [insAfter]
    | cons f' A =>
      have hA' : (f' :: A).getLast? = some g := by simpa using hA
      have hne : f.addr ≠ g.addr := fun he =>
        hn.1 (he ▸ mem_addrs (List.mem_append_left B (List.mem_of_getLast? hA')))
      rw [List.cons_append, insAfter, if_neg hne, ih hA' hn.2]
      rfl

/-- From the hint on, `advance` goes past the locks that start before the request. -/
theorem advance_some {A B : List Filock} {ld : Eflock} {f : Filock}
    (hA : ∀ g ∈ A, g.addr ≠ f.addr) :
    advance ld (some f.addr) (A ++ f :: B) =
      (((f :: B).takeWhile (fun g => g.set.lStart < ld.lStart)).getLast?.map Filock.addr).or
        (some f.addr) := by
  have hd : (A ++ f :: B).dropWhile (fun g => g.addr != f.addr) = f :: B := by
    induction A with
    | nil => simp
    | cons g A ih =>
      rw [List.cons_append, List.dropWhile_cons_of_pos (by simpa using hA g (by simp))]
      exact ih fun g hg => hA g (by simp [hg])
  simp only [advance, hd]

/-- The last two steps of `flckadj` link the request in where the starts allow it. -/
theorem insAfter_advance {l : List Filock} {ld : Eflock} {insrtp : Option Nat} (h : LockList l)
    (hn : (addrs l).Nodup) (hi : Hint l insrtp ld.lStart) (new : Filock) :
    ∃ A B, l = A ++ B ∧ insAfter new (advance ld insrtp l) l = A ++ new :: B ∧
      (∀ f ∈ A, f.set.lStart ≤ ld.lStart) ∧ ∀ f ∈ B, ld.lStart ≤ f.set.lStart := by
  cases insrtp with
  | none => exact ⟨[], l, rfl, by simp [advance, insAfter], by simp, hi⟩
  | some a =>
    obtain ⟨f, hf, rfl, hs⟩ := hi
    obtain ⟨P, Q, rfl⟩ := List.append_of_mem hf
    obtain ⟨hPQ, _, hP, hQ⟩ := lockList_middle.mp h
    have hP' : ∀ g ∈ P, g.set.lStart ≤ ld.lStart := fun g hg => (hP g hg).start_le.trans hs
    have hPa : ∀ g ∈ P, g.addr ≠ f.addr := by
      intro g hg he
      rw [addrs_append, List.nodup_append] at hn
      exact hn.2.2 _ (mem_addrs hg) _ (by simp) he
    rw [advance_some hPa]
    have hT := List.takeWhile_append_dropWhile (p := fun g => decide (g.set.lStart < ld.lStart))
      (l := f :: Q)
    have hsort : (f :: Q).Pairwise (fun f g => f.set.lStart ≤ g.set.lStart) :=
      lockList_sorted (h.sublist (List.sublist_append_right P _))
    have hD := fun g => le_start_of_mem_dropWhile (x := ld.lStart) (f := g) hsort
    have hW := fun g => start_le_of_mem_takeWhile (l := f :: Q) (x := ld.lStart) (f := g)
    generalize (f :: Q).takeWhile (fun g => decide (g.set.lStart < ld.lStart)) = T at hT hW ⊢
    generalize (f :: Q).dropWhile (fun g => decide (g.set.lStart < ld.lStart)) = D at hT hD
    cases hg : T.getLast? with
    | none =>
      have hnil : T = [] := List.getLast?_eq_none_iff.mp hg
      rw [hnil, List.nil_append] at hT
      refine ⟨P ++ [f], Q, by simp, ?_, ?_, ?_⟩
      · have he : P ++ f :: Q = (P ++ [f]) ++ Q := by simp
        rw [he] at hn ⊢
        exact insAfter_append (by simp) hn
      · intro g hg
        rcases List.mem_append.mp hg with hg | hg
        · exact hP' g hg
        · obtain rfl := List.mem_singleton.mp hg
          exact hs
      · intro g hg
        exact hD g (hT ▸ List.mem_cons_of_mem f hg)
    | some g =>
      refine ⟨P ++ T, D, by rw [List.append_assoc, hT], ?_, ?_, hD⟩
      · have he : P ++ f :: Q = (P ++ T) ++ D := by rw [List.append_assoc, hT]
        rw [he] at hn ⊢
        exact insAfter_append (by simp [hg]) hn
      · intro g hg
        rcases List.mem_append.mp hg with hg | hg
        · exact hP' g hg
        · exact hW g hg

end Aix413.Lockctl.Placement
