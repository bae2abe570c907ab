import Aix413.Semop.UndoLedger

namespace Aix413.Semop.SetCalls

open Ipc.Access Sem UndoTable Operations Sets UndoChain Passes UndoRemoval UndoLedger

variable {S S' : Store} {l l' : Ledger} {k : Nat} {id : Int} {low high n : BitVec 16} {env : Env}
  {ents : List Undo}

theorem toNat_ofInt_of_lt {i : Int} (h0 : 0 ≤ i) (h : i < 65536) :
    (BitVec.ofInt 16 i).toNat = i.toNat := by
  have hmod : i % ((2 ^ 16 : Nat) : Int) = i := Int.emod_eq_of_lt h0 h
  rw [BitVec.toNat_ofInt, hmod]

/-- The adjustment of a value by an entry, or none. -/
def AdjustedBy (S S' : Store) (ents : List Undo) : Prop :=
  ∀ k n, (S'.sem k n).semval = (S.sem k n).semval ∨
    ∃ e ∈ ents, (S.sema k).alloc ∧ e.unId = idOf S k ∧ e.unNum.toNat = n ∧
      ((S'.sem k n).semval.toNat : Int) = (S.sem k n).semval.toNat + e.unAoe.toInt

/-- All but the semaphores is as it was. -/
structure OnlySems (S S' : Store) : Prop where
  sema : S'.sema = S.sema
  mark : S'.semMark = S.semMark
  semunp : S'.semunp = S.semunp
  semundo : S'.semundo = S.semundo
  threads : S'.threads = S.threads

theorem OnlySems.same (h : OnlySems S S') : SameSets S S' := SameSets.refl h.sema h.mark

end Aix413.Semop.SetCalls
