import Mathlib.Data.List.Count
import Aix413.Semop.AllOrNothing
import Aix413.Semop.Sets

namespace Aix413.Semop.UndoChain

open Lib.Rollback Sem UndoTable Operations Sets

/-- The order of an undo table. -/
def Precedes (a b : Undo) : Prop :=
  a.unId < b.unId ∨ (a.unId = b.unId ∧ a.unNum.toNat < b.unNum.toNat)

/-- An undo table as it should be. -/
structure Table (ents : List Undo) : Prop where
  sorted : ents.Pairwise Precedes
  bounded : Bounded ents
  length_le : ents.length ≤ semume

variable {id : Int} {num val : BitVec 16} {ents ents' : List Undo} {e : Undo} {c : Caller}
  {op : Sembuf} {s s₀ : State} {q : Int → BitVec 16 → Prop}

theorem Precedes.trans {a b d : Undo} (h1 : Precedes a b) (h2 : Precedes b d) : Precedes a d := by
  unfold Precedes at *
  omega

theorem table_nil : Table [] := ⟨List.Pairwise.nil, fun _ he => absurd he List.not_mem_nil, Nat.zero_le _⟩

theorem Table.kept (h : Table ents) (id : Int) : Kept id ents := by
  refine ⟨h.sorted.imp ?_, h.bounded, h.length_le⟩
  rintro a b (hlt | ⟨he, hlt⟩)
  · exact .inl hlt
  · exact .inr ⟨he, fun _ => hlt⟩

/-- What a pass for a process keeps: its table in order, with entries for
semaphores within `q` only, its place on the chain, and the places of the
others as they were in `s₀`. -/
structure Linked (q : Int → BitVec 16 → Prop) (c : Caller) (s₀ s : State) : Prop where
  table : Table s.entries
  mem : ∀ e ∈ s.entries, q e.unId e.unNum
  count : s.semunp.count c.pid = if s.entries = [] then 0 else 1
  others : ∀ p, p ≠ c.pid → s.semunp.count p = s₀.semunp.count p

/-- The operation makes no entry for a number that is negative as a `short`, nor
one outside of `q`. -/
def Proper (q : Int → BitVec 16 → Prop) (c : Caller) (op : Sembuf) : Prop :=
  ¬WideUndo op ∧ q c.semid op.semNum

end Aix413.Semop.UndoChain
