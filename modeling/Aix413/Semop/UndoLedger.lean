import Aix413.Semop.UndoRemoval

namespace Aix413.Semop.UndoLedger

open Ipc.Access Sem UndoTable Operations Sets UndoChain Passes UndoRemoval

/-- For a process, a set and a semaphore the sum of the process's operations
with `SEM_UNDO` since the value was last set. -/
abbrev Ledger := Int → Int → BitVec 16 → Int

def undone (n : BitVec 16) (ops : List Sembuf) : Int :=
  (ops.map fun op => if op.semUndo ∧ op.semNum = n then op.semOp.toInt else 0).sum

def enter (l : Ledger) : Deed → Ledger
  | .nothing => l
  | .ops pid semid ops => fun p id n => l p id n + if p = pid ∧ id = semid then undone n ops else 0
  | .setval semid low high => fun p id n =>
    if id = semid ∧ low ≤ n.toNat ∧ n.toNat ≤ high then 0 else l p id n
  | .removed semid => fun p id n => if id = semid then 0 else l p id n
  | .exited pid => fun p id n => if p = pid then 0 else l p id n

/-- All that the steps keep. An undo entry is always for a semaphore of a set
that is there. -/
structure Inv (S : Store) (l : Ledger) : Prop where
  vals : ∀ k n, ((S.sem k n).semval.toNat : Int) ≤ semvmx
  table : ∀ p, Table (Store.table S p)
  live : ∀ p, ∀ e ∈ Store.table S p, Live S e.unId e.unNum
  chain : Chained S
  entry : ∀ p id n, total id n (Store.table S p) = -l p id n
  mark : ∀ k, (S.sema k).alloc → k < S.semMark
  mark_le : S.semMark ≤ semmni
  sleep : ∀ tid w, S.threads tid = some w → w.caller.semid = w.seq.toNat * semmni + w.qid

variable {S S' : Store} {l : Ledger} {k : Nat} {c : Caller} {w : Sleeper} {env : Env}

/-- What sets, ids and marks do not tell apart. -/
structure SameSets (S S' : Store) : Prop where
  mark : S'.semMark = S.semMark
  alloc : ∀ k, (S'.sema k).alloc = (S.sema k).alloc
  seq : ∀ k, (S'.sema k).semPerm.seq = (S.sema k).semPerm.seq
  nsems : ∀ k, (S'.sema k).semNsems = (S.sema k).semNsems

theorem SameSets.idOf (h : SameSets S S') (k : Nat) : idOf S' k = idOf S k := by
  unfold UndoRemoval.idOf
  rw [h.seq]

theorem SameSets.live (h : SameSets S S') (id : Int) (num : BitVec 16) :
    Live S' id num ↔ Live S id num := by
  unfold Live
  simp only [h.mark, h.alloc, h.nsems, h.idOf]

theorem SameSets.refl (h : S'.sema = S.sema) (hm : S'.semMark = S.semMark) : SameSets S S' :=
  ⟨hm, fun _ => by rw [h], fun _ => by rw [h], fun _ => by rw [h]⟩

/-- A step that leaves the sets as they are. -/
theorem Inv.same {l' : Ledger} (h : Inv S l) (hs : SameSets S S')
    (hv : ∀ k n, ((S'.sem k n).semval.toNat : Int) ≤ semvmx)
    (ht : ∀ p, Table (Store.table S' p))
    (hl : ∀ p, ∀ e ∈ Store.table S' p, Live S e.unId e.unNum) (hc : Chained S')
    (he : ∀ p id n, total id n (Store.table S' p) = -l' p id n)
    (hw : ∀ tid w, S'.threads tid = some w → S.threads tid = some w ∨
      w.caller.semid = w.seq.toNat * semmni + w.qid) : Inv S' l' where
  vals := hv
  table := ht
  live := fun p e hm => (hs.live _ _).mpr (hl p e hm)
  chain := hc
  entry := he
  mark := fun k ha => hs.mark ▸ h.mark k (hs.alloc k ▸ ha)
  mark_le := hs.mark ▸ h.mark_le
  sleep := fun tid w hth => by
    rcases hw tid w hth with hold | hnew
    · exact h.sleep tid w hold
    · exact hnew

/-! ## Turns of semop -/

end Aix413.Semop.UndoLedger
