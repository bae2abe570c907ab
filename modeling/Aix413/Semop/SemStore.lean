import Aix413.Semop.SetCalls

namespace Aix413.Semop.SemStore

open Ipc.Access Sem UndoTable Operations Sets UndoChain Passes UndoRemoval UndoLedger SetCalls

/-- The values, the undo tables and the chain of a store, the tables going by a
ledger of the calls made. -/
structure Sound (S : Store) (l : Ledger) : Prop where
  vals : ∀ k n, (S.sema k).alloc → n < (S.sema k).semNsems.toNat →
    0 ≤ ((S.sem k n).semval.toNat : Int) ∧ ((S.sem k n).semval.toNat : Int) ≤ semvmx
  sorted : ∀ p, (Store.table S p).Pairwise Precedes
  nonzero : ∀ p, ∀ e ∈ Store.table S p, e.unAoe ≠ 0
  room : ∀ p, (Store.table S p).length ≤ semume
  chain : ∀ p, S.semunp.count p = if Store.table S p = [] then 0 else 1
  entry : ∀ p k, (S.sema k).alloc → ∀ n : BitVec 16, n.toNat < (S.sema k).semNsems.toNat →
    total (idOf S k) n (Store.table S p) = -l p (idOf S k) n

/-- A process that exits has its entries applied, each at most once, and is
left with none. -/
def ExitsOnce (S : Store) : Event → Prop
  | .call tid env .exit => S.threads tid = none →
    AdjustedBy S (semexit S env.pid).1 (Store.table S env.pid) ∧
      Store.table (semexit S env.pid).1 env.pid = []
  | _ => True

/-- What is claimed of a run: the store is sound in every state, and no turn
reads or writes a semaphore outside of its set. -/
def Upholds (S : Store) (l : Ledger) : List Event → Prop
  | [] => Sound S l
  | e :: es => Sound S l ∧ (step S e).2.2 ≠ .wild ∧ ExitsOnce S e ∧
    Upholds (step S e).1 (enter l (step S e).2.1) es

/-- A command on one semaphore that gets as far as its value has a number from
0 on. No pass comes to an operation with `SEM_UNDO` for a semaphore from 32768
on. A thread that wakes finds its set as long as it was. -/
def Meets (S : Store) : Event → Prop
  | .call tid env (.semctl semid semnum cmd arg) => S.threads tid = none →
    ∀ k, semconv S semid = some k → 3 ≤ cmd ∧ cmd ≤ 8 ∧ cmd ≠ 6 →
      ipcaccess env.toCred (S.sema k).semPerm (if cmd = 8 then IPC_W else IPC_R) = true →
      (cmd = 8 → (UInt32.ofInt arg.val).toNat ≤ semvmx.toNat) → 0 ≤ semnum
  | .call tid env (.semop semid sops) => S.threads tid = none →
    ∀ k c w, semopCheck S env tid semid sops = .ok (k, c, w) →
      ∀ op ∈ touched c w (S.part k c.pid), ¬WideUndo op
  | .call _ _ _ => True
  | .resume tid env signal => ∀ w, S.threads tid = some w → S.live w →
    if signal then S.inside w
    else ¬S.listed tid w → ((∃ rest, w.call = .order rest) → S.inside w) ∧
      ∀ op ∈ touched { w.caller with mem := env.mem } w.call (S.part w.qid w.caller.pid),
        ¬WideUndo op ∧ op.semNum.toNat < (S.sema w.qid).semNsems.toNat

def AllMeet (S : Store) : List Event → Prop
  | [] => True
  | e :: es => Meets S e ∧ AllMeet (step S e).1 es

variable {S : Store} {l : Ledger} {k tid : Nat} {c : Caller} {w : Sleeper} {env : Env}
  {sops : List Sembuf} {s : State}

theorem Inv.sound (h : Inv S l) : Sound S l where
  vals := fun k n _ _ => ⟨Int.natCast_nonneg _, h.vals k n⟩
  sorted := fun p => (h.table p).sorted
  nonzero := fun p e he => ((h.table p).bounded e he).1
  room := fun p => (h.table p).length_le
  chain := h.chain
  entry := fun p k _ n _ => h.entry p (idOf S k) n

/-! ## semop -/

/-- The operations that a call has still to make. -/
def remaining : Sleeper → List Sembuf
  | .atomic sops => sops
  | .order rest => rest

theorem reached_subset : reached c sops s ⊆ sops := by
  induction sops generalizing s with
  | nil => exact List.Subset.refl _
  | cons op sops ih =>
    rw [reached]
    refine List.cons_subset_cons op ?_
    split
    next => exact ih
    next => exact List.nil_subset _

theorem orderPass_subset :
    (orderPass c sops s).done ++ (orderPass c sops s).stop.toList ⊆ sops := by
  induction sops generalizing s with
  | nil => exact List.Subset.refl _
  | cons op sops ih =>
    rw [orderPass]
    split
    next t _ =>
      rw [List.cons_append]
      exact List.cons_subset_cons op ih
    next => exact List.cons_subset_cons op (List.nil_subset _)
    next => split <;> exact List.cons_subset_cons op (List.nil_subset _)

theorem touched_subset : touched c w s ⊆ remaining w := by
  cases w with
  | atomic sops => exact reached_subset
  | order rest => exact orderPass_subset

theorem semopCheck_spec {semid : UInt32} (h : semopCheck S env tid semid sops = .ok (k, c, w)) :
    semconv S semid = some k ∧ c.semid = semid.toNat ∧ remaining w = sops ∧ c.thread = tid ∧
      ∀ op ∈ sops, op.semNum.toNat < (S.sema k).semNsems.toNat := by
  unfold semopCheck at h
  split at h
  next => cases h
  split at h
  next => cases h
  split at h
  next => cases h
  cases hid : semconv S semid with
  | none =>
    rw [hid] at h
    cases h
  | some j =>
    rw [hid] at h
    simp only at h
    by_cases hin : (sops.any fun op => (S.sema j).semNsems.toNat ≤ op.semNum.toNat) = true
    · rw [if_pos hin] at h
      cases h
    rw [if_neg hin] at h
    by_cases hacc : ipcaccess env.toCred (S.sema j).semPerm
        (if sops.any fun op => op.semOp ≠ 0 then IPC_W else IPC_R) = false
    · rw [if_pos hacc] at h
      cases h
    · rw [if_neg hacc] at h
      cases h
      rw [Bool.not_eq_true, List.any_eq_false] at hin
      refine ⟨rfl, rfl, ?_, rfl, fun op ho => by simpa using hin op ho⟩
      split <;> rfl

@[simp] theorem semval_leave (tid : Nat) (zero : Bool) (v : Semaphore) :
    (leave tid zero v).semval = v.semval := by
  unfold leave
  split_ifs <;> rfl

theorem inv_boot : Inv boot fun _ _ _ => 0 where
  vals := fun _ _ => (by decide : (0 : Int) ≤ semvmx)
  table := fun _ => table_nil
  live := fun _ _ he => absurd he List.not_mem_nil
  chain := fun _ => rfl
  entry := fun _ _ _ => rfl
  mark := fun _ ha => by simp [boot, SemidDs.alloc, isSet] at ha
  mark_le := Nat.zero_le _
  sleep := fun _ _ hw => by cases hw

/-- A process that may do all. -/
def root : Env where
  pid := 17
  uid := 0
  gid := 0
  member := fun _ => true
  priv := fun _ => true
  time := 0
  xmalloc := 1
  mem := true
  readable := true
  writable := true

def five : Arg := ⟨5, fun _ => 0, 0, 0, 0⟩

end Aix413.Semop.SemStore
