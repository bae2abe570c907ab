import Aix413.Semop.Passes

namespace Aix413.Semop.UndoRemoval

open Ipc.Access Sem UndoTable Operations Sets UndoChain Passes

def Store.table (S : Store) (p : Int) : List Undo := (S.semundo p).getD []

/-- The id under which set `k` is known. -/
def idOf (S : Store) (k : Nat) : Int := (S.sema k).semPerm.seq.toNat * semmni + k

/-- The semaphore is one of a set that is there. -/
def Live (S : Store) (id : Int) (num : BitVec 16) : Prop :=
  ∃ k, k < S.semMark ∧ (S.sema k).alloc ∧ id = idOf S k ∧ num.toNat < (S.sema k).semNsems.toNat

variable {S S' : Store} {id : Int} {low high num : BitVec 16} {ents : List Undo} {e : Undo}
  {j k : Nat}

/-! ## Ids -/

theorem semconv_spec {s : UInt32} (h : semconv S s = some k) :
    k < S.semMark ∧ (S.sema k).alloc ∧ (s.toNat : Int) = idOf S k := by
  unfold semconv at h
  simp only at h
  split at h
  next => cases h
  next hm =>
    split at h
    next => cases h
    next hno =>
      cases h
      rw [not_or, not_not] at hno
      refine ⟨not_le.mp hm, by simpa using hno.2, ?_⟩
      unfold idOf
      rw [← hno.1]
      have hdiv := Nat.div_add_mod s.toNat semmni
      rw [mul_comm] at hdiv
      exact_mod_cast hdiv.symm

/-- The entries that `semunrm` is to take away. -/
def Hit (id : Int) (low high : BitVec 16) (e : Undo) : Prop :=
  e.unId = id ∧ low.toNat ≤ e.unNum.toNat ∧ e.unNum.toNat ≤ high.toNat

instance : DecidablePred (Hit id low high) := fun _ => inferInstanceAs (Decidable (_ ∧ _ ∧ _))

/-- Each table is on the chain once if it has entries, and not at all if it
has none. -/
def Chained (S : Store) : Prop :=
  ∀ p, S.semunp.count p = if Store.table S p = [] then 0 else 1

theorem Chained.nodup (h : Chained S) : S.semunp.Nodup := by
  refine List.nodup_iff_count_le_one.mpr fun p => ?_
  rw [h p]
  split <;> decide

theorem Chained.mem_iff (h : Chained S) (p : Int) : p ∈ S.semunp ↔ Store.table S p ≠ [] := by
  rw [← List.count_pos_iff, h p]
  split <;> simp_all

end Aix413.Semop.UndoRemoval
