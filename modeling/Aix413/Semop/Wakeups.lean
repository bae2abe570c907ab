import Aix413.Semop.SemStore
import Aix413.Semop.WaitLists

namespace Aix413.Semop.Wakeups

open Ipc.Access Sem Operations Sets UndoChain UndoRemoval UndoLedger SetCalls SemStore WaitLists

/-- The set, the caller and the operations whose pass the event runs. -/
def turnOf (S : Store) : Event → Option (Nat × Caller × Sleeper)
  | .call tid env (.semop semid sops) =>
    if (S.threads tid).isSome ∨ sops.length = 0 then none
    else (semopCheck S env tid semid sops).toOption
  | .call _ _ _ => none
  | .resume tid env signal =>
    match S.threads tid with
    | none => none
    | some w =>
      if signal ∨ S.listed tid w ∨ S.live w = false then none
      else some (w.qid, { w.caller with mem := env.mem }, w.call)

/-- Of a thread that sleeps the operations before the one it sleeps on, and this one. -/
abbrev Stops := Nat → List Sembuf × Option Sembuf

def note (S : Store) (st : Stops) (e : Event) : Stops :=
  match turnOf S e with
  | none => st
  | some (k, c, w) =>
    let p := pass c w (S.part k c.pid)
    if p.ending = .asleep then Function.update st c.thread (ahead c w (S.part k c.pid), p.stop)
    else st

/-! ## What is claimed -/

/-- The operation that the thread sleeps on, behind those before it, cannot be performed. -/
def Stuck (S : Store) (st : Stops) (k n : Nat) (zero : Bool) (t : Nat) : Prop :=
  ∃ pre op, st t = (pre, some op) ∧ op.semNum.toNat = n ∧
    Blocks zero op ((S.sem k n).semval.toNat + opSum n pre)

/-- Threads sleep only behind a count that is not zero, and on operations that cannot be
performed. -/
structure Awake (S : Store) (st : Stops) : Prop where
  count : ∀ k n zero, waitList zero (S.sem k n) ≠ [] → waitCount zero (S.sem k n) ≠ 0
  stuck : ∀ k n zero, ∀ t ∈ waitList zero (S.sem k n), Stuck S st k n zero t

/-- Where a change lets the operation of a sleeper go on, all the sleepers of its list are
woken. -/
def WakesAll (S S' : Store) (st : Stops) : Prop :=
  ∀ k n zero, (∃ t ∈ waitList zero (S.sem k n), ¬Stuck S' st k n zero t) →
    ∀ t ∈ waitList zero (S.sem k n), t ∉ waitList zero (S'.sem k n)

def Upholds (S : Store) (st : Stops) : List Event → Prop
  | [] => Awake S st
  | e :: es =>
    Awake S st ∧ (step S e).2.2 ≠ .wild ∧ WakesAll S (step S e).1 st ∧
      Upholds (step S e).1 (note S st e) es

/-! ## The condition -/

/-- The step reads and writes no semaphore outside of its set. -/
def Within (S : Store) : Event → Prop
  | .call tid env (.semctl semid semnum cmd arg) => S.threads tid = none →
    ∀ k, semconv S semid = some k → 3 ≤ cmd ∧ cmd ≤ 8 ∧ cmd ≠ 6 →
      ipcaccess env.toCred (S.sema k).semPerm (if cmd = 8 then IPC_W else IPC_R) = true →
      (cmd = 8 → (UInt32.ofInt arg.val).toNat ≤ semvmx.toNat) → 0 ≤ semnum
  | .call tid env .exit => S.threads tid = none → ∀ up ∈ Store.table S env.pid, ∀ k,
    semconv S (UInt32.ofInt up.unId) = some k → up.unNum.toNat < (S.sema k).semNsems.toNat
  | .call _ _ _ => True
  | .resume tid env signal => ∀ w, S.threads tid = some w → S.live w →
    if signal then S.inside w
    else ¬S.listed tid w → ((∃ rest, w.call = .order rest) → S.inside w) ∧
      ∀ op ∈ touched { w.caller with mem := env.mem } w.call (S.part w.qid w.caller.pid),
        op.semNum.toNat < (S.sema w.qid).semNsems.toNat

/-- A pass that goes to sleep finds a count that can be incremented, and a wait for zero does not
come behind operations that lower the semaphore. -/
def Rests (S : Store) (k : Nat) (c : Caller) (w : Sleeper) : Prop :=
  (pass c w (S.part k c.pid)).ending = .asleep → ∀ op ∈ (pass c w (S.part k c.pid)).stop,
    waitCount (op.semOp = 0) (S.sem k op.semNum.toNat) ≠ 65535#16 ∧
    (op.semOp = 0 → 0 ≤ opSum op.semNum.toNat (ahead c w (S.part k c.pid)))

def Quiet (S : Store) (e : Event) : Prop :=
  Within S e ∧ ∀ k c w, turnOf S e = some (k, c, w) → Rests S k c w

def AllQuiet (S : Store) : List Event → Prop
  | [] => True
  | e :: es => Quiet S e ∧ AllQuiet (step S e).1 es

variable {S S' : Store} {st st' : Stops} {k n t tid : Nat} {zero : Bool} {c : Caller} {w : Sleeper}
  {env : Env} {e : Event}

/-! ## The threads of the lists -/

/-- A thread that sleeps on semaphore `n` of set `k`. -/
structure Sleeping (S : Store) (st : Stops) (k n : Nat) (zero : Bool) (t : Nat) (x : Waiting) :
    Prop where
  thread : S.threads t = some x
  qid : x.qid = k
  semNum : x.semNum = n
  isZero : x.zero = zero
  live : S.live x = true
  inside : S.inside x = true
  stuck : Stuck S st k n zero t
  low : ∀ pre op, st t = (pre, some op) → zero = true → 0 ≤ opSum n pre

structure Listed (S : Store) (st : Stops) : Prop where
  mark : ∀ k, (S.sema k).alloc → k < S.semMark
  mark_le : S.semMark ≤ semmni
  counted : ∀ k n, Counted (S.sem k n)
  sleeping : ∀ k n zero, ∀ t ∈ waitList zero (S.sem k n), ∃ x, Sleeping S st k n zero t x
  nodup : ∀ k n zero, (waitList zero (S.sem k n)).Nodup
  own : ∀ t x, S.threads t = some x → x.caller.thread = t

theorem Listed.awake (h : Listed S st) : Awake S st where
  count := fun k n => counted_iff.mp (h.counted k n)
  stuck := fun k n zero t ht => (h.sleeping k n zero t ht).choose_spec.stuck

/-- The thread is on no list. -/
def Free (S : Store) (t : Nat) : Prop := ∀ k n zero, t ∉ waitList zero (S.sem k n)

theorem Listed.free_of_none (h : Listed S st) (ht : S.threads t = none) : Free S t := by
  intro k n zero hm
  obtain ⟨x, hx⟩ := h.sleeping k n zero t hm
  have hth := hx.thread
  rw [ht] at hth
  cases hth

theorem Listed.free_of_woken (h : Listed S st) {x : Waiting} (ht : S.threads t = some x)
    (hl : S.listed t x = false) : Free S t := by
  intro k n zero hm
  obtain ⟨y, hy⟩ := h.sleeping k n zero t hm
  obtain rfl := Option.some.inj (ht.symm.trans hy.thread)
  have hmem : t ∈ (if x.zero then (S.sem x.qid x.semNum).semzwait
      else (S.sem x.qid x.semNum).semnwait) := by
    rw [hy.qid, hy.semNum, hy.isZero]
    exact hm
  unfold Store.listed at hl
  simp [hy.live, hy.inside, hmem] at hl

/-- A set that a thread on one of its lists cannot tell from the one before. -/
def SamePlace (sp sp' : SemidDs) : Prop :=
  sp'.alloc = sp.alloc ∧ sp'.semPerm.seq = sp.semPerm.seq ∧ sp'.semBase = sp.semBase ∧
    sp'.semNsems = sp.semNsems

/-- The set stays and its sleepers are served, or nobody is on its lists. -/
def Attended (S S' : Store) (k : Nat) : Prop :=
  SamePlace (S.sema k) (S'.sema k) ∧ (∀ n, Served (S.sem k n) (S'.sem k n)) ∨
    ∀ n zero, waitList zero (S'.sem k n) = []

theorem Attended.refl (h : S'.sema k = S.sema k) (hs : S'.sem k = S.sem k) : Attended S S' k := by
  unfold Attended SamePlace
  rw [h, hs]
  exact .inl ⟨⟨rfl, rfl, rfl, rfl⟩, fun n => .refl _⟩

/-- Steps that serve the sleepers. -/
structure Serves (S S' : Store) (st st' : Stops) : Prop where
  mark : ∀ k, (S'.sema k).alloc → k < S'.semMark
  mark_le : S'.semMark ≤ semmni
  attended : ∀ k, Attended S S' k
  others : ∀ t, S'.threads t = S.threads t ∧ st' t = st t ∨ S'.threads t = none ∧ Free S t

/-- A thread found on a list was there before, and its list is as it was. -/
theorem Serves.mem (h : Serves S S' st st') (ht : t ∈ waitList zero (S'.sem k n)) :
    t ∈ waitList zero (S.sem k n) ∧ SamePlace (S.sema k) (S'.sema k) ∧
      Served (S.sem k n) (S'.sem k n) := by
  rcases h.attended k with ⟨hp, hs⟩ | hnil
  · rcases (hs n).waitList zero with ⟨hnil, -⟩ | ⟨heq, -⟩
    · exact absurd hnil (List.ne_nil_of_mem ht)
    · exact ⟨heq ▸ ht, hp, hs n⟩
  · exact absurd (hnil n zero) (List.ne_nil_of_mem ht)

theorem Serves.listed (h : Serves S S' st st') (hl : Listed S st) : Listed S' st' where
  mark := h.mark
  mark_le := h.mark_le
  own := fun t x hx => by
    rcases h.others t with ⟨hth, -⟩ | ⟨hnone, -⟩
    · exact hl.own t x (hth ▸ hx)
    · rw [hnone] at hx
      cases hx
  counted := fun k n => by
    rcases h.attended k with ⟨-, hs⟩ | hnil
    · exact (hs n).counted (hl.counted k n)
    · exact counted_iff.mpr fun zero hne => absurd (hnil n zero) hne
  nodup := fun k n zero => by
    rcases h.attended k with ⟨-, hs⟩ | hnil
    · rcases (hs n).waitList zero with ⟨hnil, -⟩ | ⟨heq, -⟩
      · rw [hnil]
        exact List.nodup_nil
      · rw [heq]
        exact hl.nodup k n zero
    · rw [hnil n zero]
      exact List.nodup_nil
  sleeping := fun k n zero t ht => by
    obtain ⟨hold, ⟨ha, hseq, hbase, hn⟩, hs⟩ := h.mem ht
    obtain ⟨x, hx⟩ := hl.sleeping k n zero t hold
    obtain ⟨hth, hst⟩ := (h.others t).resolve_right fun hf => hf.2 k n zero hold
    obtain ⟨pre, op, hpre, hnum, hb⟩ := hx.stuck
    have hlow := hx.low pre op hpre
    refine ⟨x, hth.trans hx.thread, hx.qid, hx.semNum, hx.isZero, ?_, ?_,
      ⟨pre, op, hst.trans hpre, hnum, hs.blocks ht hlow hb⟩, fun p o ho => ?_⟩
    · have hlive := hx.live
      unfold Store.live at hlive ⊢
      rw [hx.qid] at hlive ⊢
      rw [ha, hseq]
      exact hlive
    · have hin := hx.inside
      unfold Store.inside at hin ⊢
      rw [hx.qid] at hin ⊢
      rw [hbase, hn]
      exact hin
    · exact hx.low p o (hst ▸ ho)

theorem Serves.wakesAll (h : Serves S S' st st') (hl : Listed S st) : WakesAll S S' st := by
  rintro k n zero ⟨t, ht, hno⟩ u - hu
  refine hno ?_
  obtain ⟨-, -, hs⟩ := h.mem hu
  have heq : waitList zero (S'.sem k n) = waitList zero (S.sem k n) :=
    ((hs.waitList zero).resolve_left fun hnil => List.ne_nil_of_mem hu hnil.1).1
  obtain ⟨x, hx⟩ := hl.sleeping k n zero t ht
  obtain ⟨pre, op, hpre, hnum, hb⟩ := hx.stuck
  exact ⟨pre, op, hpre, hnum, hs.blocks (heq.symm ▸ ht) (hx.low pre op hpre) hb⟩


/-- What the steps owe. -/
def Fine (S : Store) (st st' : Stops) (r : Store × Deed × Result) : Prop :=
  Listed r.1 st' ∧ WakesAll S r.1 st ∧ r.2.2 ≠ .wild

theorem Serves.fine {r : Store × Deed × Result} (h : Serves S r.1 st st') (hl : Listed S st)
    (hr : r.2.2 ≠ .wild) : Fine S st st' r :=
  ⟨h.listed hl, h.wakesAll hl, hr⟩

/-- The sets are in the same places, and their sleepers served. -/
theorem Listed.serves (hl : Listed S st) (hm : S'.semMark = S.semMark)
    (hp : ∀ k, SamePlace (S.sema k) (S'.sema k)) (hs : ∀ k n, Served (S.sem k n) (S'.sem k n))
    (ho : ∀ t, S'.threads t = S.threads t ∧ st' t = st t ∨ S'.threads t = none ∧ Free S t) :
    Serves S S' st st' where
  mark := fun k ha => by
    rw [hm]
    exact hl.mark k ((hp k).1 ▸ ha)
  mark_le := hm ▸ hl.mark_le
  attended := fun k => .inl ⟨hp k, hs k⟩
  others := ho

theorem fine_same {d : Deed} {res : Result} (hl : Listed S st) (hr : res ≠ .wild) :
    Fine S st st (S, d, res) :=
  (hl.serves rfl (fun _ => ⟨rfl, rfl, rfl, rfl⟩) (fun _ _ => .refl _)
    fun _ => .inl ⟨rfl, rfl⟩ : Serves S S st st).fine (r := (S, d, res)) hl hr

/-! ## semctl -/

theorem served_setVal {v : Semaphore} (hc : Counted v) (val : BitVec 16) (pid : Int) :
    Served v (setVal v val pid) := by
  unfold setVal
  simp only
  split
  next hne => exact served_wakeN hc ⟨rfl, rfl, rfl, rfl⟩ fun h0 => absurd h0 hne
  next h0 =>
    refine served_wakeZ hc ⟨rfl, rfl, rfl, rfl⟩ ?_
    change val.toNat ≤ _
    rw [not_not.mp h0]
    exact Nat.zero_le _

theorem waitList_clear {v : Semaphore} (hc : Counted v) (zero : Bool) :
    waitList zero (clear v) = [] := by
  have hcx : Counted { v with semval := 0, sempid := 0 } := ⟨hc.ncnt, hc.zcnt⟩
  have hn := npart_wakeN hcx
  cases zero with
  | true =>
    refine (zpart_wakeZ ⟨fun hne => absurd hn.1 hne, ?_⟩ ?_).1
    · rw [(zpart_wakeN _).1, (zpart_wakeN _).2]
      exact hc.zcnt
    · rw [semval_wakeN]
  | false => exact (npart_wakeZ _).1.trans hn.1

theorem fine_rmid (hl : Listed S st) (semid : Int) {d : Deed} :
    Fine S st st (rmid S semid k, d, .ok 0) := by
  refine Serves.fine (r := (rmid S semid k, d, .ok 0)) ⟨fun j ha => ?_, hl.mark_le, fun j => ?_,
    fun _ => .inl ⟨rfl, rfl⟩⟩ hl (by simp)
  · by_cases hj : j = k
    · subst hj
      simp [rmid, SemidDs.alloc, isSet] at ha
    · refine hl.mark j ?_
      simpa [rmid, semunrm, Function.update_of_ne hj] using ha
  · by_cases hj : j = k
    · subst hj
      refine .inr fun n zero => ?_
      simp only [rmid, semunrm, Function.update_self]
      split
      next => exact waitList_clear (hl.counted j n) zero
      next hn =>
        by_contra hne
        obtain ⟨t, ht⟩ := List.exists_mem_of_ne_nil _ hne
        obtain ⟨x, hx⟩ := hl.sleeping j n zero t ht
        have hin := hx.inside
        unfold Store.inside at hin
        rw [hx.qid, hx.semNum] at hin
        simp only [Bool.and_eq_true, decide_eq_true_eq] at hin
        exact hn hin.2
    · refine .refl ?_ ?_ <;> simp [rmid, semunrm, Function.update_of_ne hj]

/-- Values are set within one set. -/
theorem fine_values {d : Deed} (hl : Listed S st) (hm : S'.semMark = S.semMark)
    (hsema : S'.sema = S.sema) (hth : S'.threads = S.threads)
    (hs : ∀ j n, S'.sem j n = S.sem j n ∨
      ∃ val pid, S'.sem j n = setVal (S.sem j n) val pid) : Fine S st st (S', d, .ok 0) := by
  refine Serves.fine (r := (S', d, .ok 0)) (hl.serves hm (fun j => ?_) (fun j n => ?_)
    fun t => .inl ⟨by rw [hth], rfl⟩) hl (by simp)
  · rw [hsema]
    exact ⟨rfl, rfl, rfl, rfl⟩
  · rcases hs j n with h | ⟨val, pid, h⟩
    · rw [h]
      exact .refl _
    · rw [h]
      exact served_setVal (hl.counted j n) val pid

theorem fine_oneSem (hl : Listed S st) {semid semnum cmd : Int} {arg : Arg}
    (hm : ipcaccess env.toCred (S.sema k).semPerm (if cmd = 8 then IPC_W else IPC_R) = true →
      (cmd = 8 → (UInt32.ofInt arg.val).toNat ≤ semvmx.toNat) → 0 ≤ semnum) :
    Fine S st st (oneSem S env semid k semnum cmd arg) := by
  unfold oneSem
  simp only
  by_cases hacc : ipcaccess env.toCred (S.sema k).semPerm (if cmd = 8 then IPC_W else IPC_R) = false
  · rw [if_pos hacc]
    exact fine_same hl (by simp)
  rw [if_neg hacc]
  by_cases hin : ((S.sema k).semNsems.toNat : Int) ≤ semnum
  · rw [if_pos hin]
    exact fine_same hl (by simp)
  rw [if_neg hin]
  by_cases harg : cmd = 8 ∧ semvmx.toNat < (UInt32.ofInt arg.val).toNat
  · rw [if_pos harg]
    exact fine_same hl (by simp)
  rw [if_neg harg]
  have h0 : 0 ≤ semnum := hm (by simpa using hacc) fun h8 => not_lt.mp fun hlt => harg ⟨h8, hlt⟩
  rw [if_neg (not_lt.mpr h0)]
  split
  next => exact fine_same hl (by simp)
  split
  next => exact fine_same hl (by simp)
  split
  next => exact fine_same hl (by simp)
  split
  next => exact fine_same hl (by simp)
  next =>
    refine fine_values hl rfl rfl rfl fun j n => ?_
    by_cases hj : j = k
    · subst hj
      by_cases hn : n = semnum.toNat
      · subst hn
        right
        exact ⟨BitVec.ofInt 16 arg.val, env.pid, by simp [semunrm]⟩
      · exact .inl (by simp [semunrm, Function.update_of_ne hn])
    · exact .inl (by simp [semunrm, Function.update_of_ne hj])

theorem fine_allSems (hl : Listed S st) {semid cmd : Int} {arg : Arg} :
    Fine S st st (allSems S env semid k cmd arg) := by
  unfold allSems
  simp only
  by_cases hacc : ipcaccess env.toCred (S.sema k).semPerm (if cmd = 9 then IPC_W else IPC_R) = false
  · rw [if_pos hacc]
    exact fine_same hl (by simp)
  rw [if_neg hacc]
  by_cases hmem : env.mem = false
  · rw [if_pos hmem]
    exact fine_same hl (by simp)
  rw [if_neg hmem]
  by_cases h6 : cmd = 6
  · rw [if_pos h6]
    split <;> exact fine_same hl (by simp)
  rw [if_neg h6]
  split
  next => exact fine_same hl (by simp)
  split
  next => exact fine_same hl (by simp)
  next =>
    refine fine_values hl rfl rfl rfl fun j n => ?_
    by_cases hj : j = k
    · subst hj
      simp only [Function.update_self]
      split
      next => exact .inr ⟨arg.array n, env.pid, rfl⟩
      next => exact .inl rfl
    · exact .inl (by simp [semunrm, Function.update_of_ne hj])

theorem fine_semctl (hl : Listed S st) {semid : UInt32} {semnum cmd : Int} {arg : Arg}
    (hm : ∀ k, semconv S semid = some k → 3 ≤ cmd ∧ cmd ≤ 8 ∧ cmd ≠ 6 →
      ipcaccess env.toCred (S.sema k).semPerm (if cmd = 8 then IPC_W else IPC_R) = true →
      (cmd = 8 → (UInt32.ofInt arg.val).toNat ≤ semvmx.toNat) → 0 ≤ semnum) :
    Fine S st st (semctl S env semid semnum cmd arg) := by
  unfold semctl
  cases hid : semconv S semid with
  | none => exact fine_same hl (by simp)
  | some k =>
    obtain ⟨-, ha, -⟩ := semconv_spec hid
    simp only
    split
    next =>
      split
      next => exact fine_same hl (by simp)
      next => exact fine_rmid hl _
    split
    next =>
      split
      next => exact fine_same hl (by simp)
      split
      next => exact fine_same hl (by simp)
      next =>
        refine Serves.fine (hl.serves rfl (fun j => ?_) (fun _ _ => .refl _)
          fun _ => .inl ⟨rfl, rfl⟩) hl (by simp)
        by_cases hj : j = k
        · subst hj
          simp only [Store.setSp, Function.update_self]
          exact ⟨(isSet_or_self (by decide) _).trans ha.symm, rfl, rfl, rfl⟩
        · simp only [Store.setSp, Function.update_of_ne hj]
          exact ⟨rfl, rfl, rfl, rfl⟩
    split
    next =>
      split
      next => exact fine_same hl (by simp)
      next => split <;> exact fine_same hl (by simp)
    split
    next => exact fine_allSems hl
    next hno =>
    split
    next hin => exact fine_oneSem hl (hm k hid ⟨hin.1, hin.2, fun h6 => hno (.inl h6)⟩)
    next => exact fine_same hl (by simp)


/-! ## semget -/

theorem Listed.waitList_unused (hl : Listed S st) (ha : (S.sema k).alloc = false) (n : Nat)
    (zero : Bool) : waitList zero (S.sem k n) = [] := by
  by_contra hne
  obtain ⟨t, ht⟩ := List.exists_mem_of_ne_nil _ hne
  obtain ⟨x, hx⟩ := hl.sleeping k n zero t ht
  have hlive := hx.live
  unfold Store.live at hlive
  rw [hx.qid, ha] at hlive
  cases hlive

theorem fine_semget (hl : Listed S st) {key nsems : Int} {semflg : BitVec 32} :
    Fine S st st (semget S env key nsems semflg) := by
  unfold semget
  cases hg : ipcget (fun i => (S.sema i).semPerm) S.semMark semmni key semflg with
  | error e => exact fine_same hl (by simp)
  | ok r =>
    obtain ⟨k, new⟩ := r
    cases new with
    | false =>
      simp only
      split <;> exact fine_same hl (by simp)
    | true =>
      have hfree : (S.sema k).alloc = false := ipcget_new hl.mark hg
      have hlt := ipcget_lt hl.mark_le hg
      have hset : ∀ (sp : SemidDs) (sem : Nat → Semaphore), (∀ n zero, waitList zero (sem n) = []) →
          Serves S { S with
            semMark := max S.semMark (k + 1)
            sema := Function.update S.sema k sp
            sem := Function.update S.sem k sem } st st := by
        intro sp sem hnil
        refine ⟨fun j ha => ?_, max_le hl.mark_le hlt, fun j => ?_, fun _ => .inl ⟨rfl, rfl⟩⟩
        · by_cases hj : j = k
          · subst hj
            exact lt_max_of_lt_right (Nat.lt_succ_self j)
          · refine lt_max_of_lt_left (hl.mark j ?_)
            simpa [Function.update_of_ne hj] using ha
        · by_cases hj : j = k
          · subst hj
            refine .inr fun n zero => ?_
            simp only [Function.update_self]
            exact hnil n zero
          · exact .refl (Function.update_of_ne hj _ _) (Function.update_of_ne hj _ _)
      have hold : ∀ sp : SemidDs, Serves S
          { S with semMark := max S.semMark (k + 1), sema := Function.update S.sema k sp } st st := by
        intro sp
        have h := hset sp (S.sem k) (hl.waitList_unused hfree)
        rwa [Function.update_eq_self] at h
      simp only
      split
      next => exact (hold _).fine hl (by simp)
      split
      next => exact (hold _).fine hl (by simp)
      next => exact (hset _ _ fun n zero => by cases zero <;> rfl).fine hl (by simp)

/-! ## semexit -/

theorem adjust_served {up : Undo} (hc : ∀ j n, Counted (S.sem j n)) (h : adjust S up = some S') :
    OnlySems S S' ∧ ∀ j n, Served (S.sem j n) (S'.sem j n) := by
  unfold adjust at h
  cases hconv : semconv S (UInt32.ofInt up.unId) with
  | none =>
    rw [hconv] at h
    cases h
    exact ⟨⟨rfl, rfl, rfl, rfl, rfl⟩, fun _ _ => .refl _⟩
  | some k =>
    rw [hconv] at h
    simp only at h
    split at h
    next => cases h
    split at h
    next =>
      cases h
      exact ⟨⟨rfl, rfl, rfl, rfl, rfl⟩, fun _ _ => .refl _⟩
    next hv =>
      cases h
      refine ⟨⟨rfl, rfl, rfl, rfl, rfl⟩, fun j n => ?_⟩
      by_cases hj : j = k
      · subst hj
        by_cases hn : n = up.unNum.toNat
        · subst hn
          simp only [Function.update_self]
          rw [not_or, not_lt, not_lt] at hv
          have hcount := hc j up.unNum.toNat
          generalize S.sem j up.unNum.toNat = v at hv hcount ⊢
          have hmx : semvmx = 32767 := rfl
          have hval := toNat_ofInt_of_lt hv.1 (by omega)
          set d := BitVec.ofInt 16 (v.semval.toNat + up.unAoe.toInt) with hd
          split
          next hpos =>
            -- both lists may be concerned only if the value is zero, and then it has not risen
            have hz : wakeZ { v with semval := d } = { v with semval := d } := by
              unfold wakeZ
              refine if_neg fun hh => ?_
              have h0 : d.toNat = 0 := by
                rw [show d = 0 from hh.1]
                rfl
              omega
            rw [hz]
            refine served_wakeN hcount ⟨rfl, rfl, rfl, rfl⟩ fun h0 => ?_
            have h0' : d.toNat = 0 := by
              rw [show d = 0 from h0]
              rfl
            omega
          next hpos =>
            refine served_wakeZ hcount ⟨rfl, rfl, rfl, rfl⟩ ?_
            change d.toNat ≤ v.semval.toNat
            omega
        · simp only [Function.update_self, Function.update_of_ne hn]
          exact .refl _
      · simp only [Function.update_of_ne hj]
        exact .refl _

theorem adjustAll_served {ents : List Undo} (hc : ∀ j n, Counted (S.sem j n))
    (h : adjustAll S ents = some S') : OnlySems S S' ∧ ∀ j n, Served (S.sem j n) (S'.sem j n) := by
  induction ents generalizing S' with
  | nil =>
    cases h
    exact ⟨⟨rfl, rfl, rfl, rfl, rfl⟩, fun _ _ => .refl _⟩
  | cons up ents ih =>
    rw [adjustAll] at h
    obtain ⟨T, hT, hup⟩ := Option.bind_eq_some_iff.mp h
    obtain ⟨ho, hs⟩ := ih hT
    obtain ⟨ho', hs'⟩ := adjust_served (fun j n => (hs j n).counted (hc j n)) hup
    exact ⟨⟨ho'.sema.trans ho.sema, ho'.mark.trans ho.mark, ho'.semunp.trans ho.semunp,
      ho'.semundo.trans ho.semundo, ho'.threads.trans ho.threads⟩,
      fun j n => (hs j n).trans (hs' j n)⟩

/-- The entries of a process that exits stay within the sets. -/
theorem adjustAll_some {ents : List Undo} (hc : ∀ j n, Counted (S.sem j n))
    (hin : ∀ up ∈ ents, ∀ k, semconv S (UInt32.ofInt up.unId) = some k →
      up.unNum.toNat < (S.sema k).semNsems.toNat) : ∃ S', adjustAll S ents = some S' := by
  induction ents with
  | nil => exact ⟨S, rfl⟩
  | cons up ents ih =>
    obtain ⟨T, hT⟩ := ih fun x hx => hin x (List.mem_cons_of_mem up hx)
    have ho := (adjustAll_served hc hT).1
    have hconv : semconv T (UInt32.ofInt up.unId) = semconv S (UInt32.ofInt up.unId) := by
      unfold semconv
      rw [ho.sema, ho.mark]
    rw [adjustAll, hT]
    change ∃ S', adjust T up = some S'
    unfold adjust
    rw [hconv]
    cases hk : semconv S (UInt32.ofInt up.unId) with
    | none => exact ⟨T, rfl⟩
    | some k =>
      have hlt := hin up List.mem_cons_self k hk
      simp only
      rw [ho.sema, if_neg (not_le.mpr hlt)]
      split
      next => exact ⟨_, rfl⟩
      next => exact ⟨_, rfl⟩

theorem fine_semexit (hl : Listed S st) {pid : Int}
    (hin : ∀ up ∈ Store.table S pid, ∀ k, semconv S (UInt32.ofInt up.unId) = some k →
      up.unNum.toNat < (S.sema k).semNsems.toNat) : Fine S st st (semexit S pid) := by
  unfold semexit
  cases hu : S.semundo pid with
  | none => exact fine_same hl (by simp)
  | some ents =>
    have htab : Store.table S pid = ents := by
      unfold Store.table
      rw [hu]
      rfl
    rw [htab] at hin
    simp only
    generalize hT : (if ents = [] then S else { S with semunp := S.semunp.erase pid }) = T
    have hbase : T.sema = S.sema ∧ T.semMark = S.semMark ∧ T.threads = S.threads ∧
        T.sem = S.sem := by
      rw [← hT]
      split <;> exact ⟨rfl, rfl, rfl, rfl⟩
    obtain ⟨hsema, hmark, hthreads, hsem⟩ := hbase
    have hconv : ∀ id, semconv T id = semconv S id := by
      intro id
      unfold semconv
      rw [hsema, hmark]
    have hc : ∀ j n, Counted (T.sem j n) := hsem ▸ hl.counted
    obtain ⟨S', hall⟩ := adjustAll_some hc fun up hup k hk =>
      hsema ▸ hin up hup k ((hconv _).symm.trans hk)
    obtain ⟨ho, hs⟩ := adjustAll_served hc hall
    rw [hall]
    refine Serves.fine (hl.serves (ho.mark.trans hmark) (fun j => ?_) (fun j n => ?_)
      fun t => .inl ⟨?_, rfl⟩) hl (by simp)
    · change SamePlace (S.sema j) (S'.sema j)
      rw [ho.sema, hsema]
      exact ⟨rfl, rfl, rfl, rfl⟩
    · exact hsem ▸ hs j n
    · change S'.threads t = S.threads t
      rw [ho.threads, hthreads]


/-! ## Going to sleep -/

/-- A thread that is on no list is put on one, behind a count that can be incremented. -/
theorem Listed.sleep {x : Waiting} {pre : List Sembuf} {op : Sembuf} (hl : Listed S st)
    (hfree : Free S t) (hsema : S'.sema = S.sema) (hm : S'.semMark = S.semMark)
    (hsem : S'.sem = Function.update S.sem k
      (Function.update (S.sem k) n (asleep t zero (S.sem k n))))
    (hth : S'.threads = Function.update S.threads t (some x))
    (hcnt : waitCount zero (S.sem k n) + 1 ≠ 0) (hown : x.caller.thread = t)
    (hx : x.qid = k ∧ x.semNum = n ∧ x.zero = zero) (hlive : S.live x = true)
    (hin : S.inside x = true) (hnum : op.semNum.toNat = n)
    (hb : Blocks zero op ((S.sem k n).semval.toNat + opSum n pre))
    (hlow : zero = true → 0 ≤ opSum n pre) :
    Listed S' (Function.update st t (pre, some op)) := by
  have hval : ∀ j m, (S'.sem j m).semval = (S.sem j m).semval := by
    intro j m
    rw [hsem]
    by_cases hj : j = k
    · subst hj
      by_cases hmn : m = n
      · subst hmn
        simp only [Function.update_self, semval_asleep]
      · simp only [Function.update_self, Function.update_of_ne hmn]
    · rw [Function.update_of_ne hj]
  have hlist : ∀ j m z, waitList z (S'.sem j m) =
      if j = k ∧ m = n ∧ z = zero then t :: waitList z (S.sem j m) else waitList z (S.sem j m) := by
    intro j m z
    rw [hsem]
    by_cases hj : j = k
    · subst hj
      by_cases hmn : m = n
      · subst hmn
        simp only [Function.update_self, waitList_asleep, true_and]
      · simp only [Function.update_self, Function.update_of_ne hmn]
        rw [if_neg fun hh => hmn hh.2.1]
    · rw [Function.update_of_ne hj, if_neg fun hh => hj hh.1]
  have hcount : ∀ j m z, waitCount z (S'.sem j m) =
      if j = k ∧ m = n ∧ z = zero then waitCount z (S.sem j m) + 1
      else waitCount z (S.sem j m) := by
    intro j m z
    rw [hsem]
    by_cases hj : j = k
    · subst hj
      by_cases hmn : m = n
      · subst hmn
        simp only [Function.update_self, waitCount_asleep, true_and]
      · simp only [Function.update_self, Function.update_of_ne hmn]
        rw [if_neg fun hh => hmn hh.2.1]
    · rw [Function.update_of_ne hj, if_neg fun hh => hj hh.1]
  have hlv : ∀ y, S'.live y = S.live y := by
    intro y
    unfold Store.live
    rw [hsema]
  have hins : ∀ y, S'.inside y = S.inside y := by
    intro y
    unfold Store.inside
    rw [hsema]
  refine ⟨?_, ?_, fun j m => counted_iff.mpr fun z hne => ?_, fun j m z u hu => ?_,
    fun j m z => ?_, fun u y hy => ?_⟩
  · rw [hsema, hm]
    exact hl.mark
  · exact hm ▸ hl.mark_le
  · rw [hcount]
    rw [hlist] at hne
    split at hne
    next hh =>
      obtain ⟨rfl, rfl, rfl⟩ := hh
      rw [if_pos ⟨rfl, rfl, rfl⟩]
      exact hcnt
    next hh =>
      rw [if_neg hh]
      exact counted_iff.mp (hl.counted j m) z hne
  · by_cases hut : u = t
    · subst hut
      have hh : j = k ∧ m = n ∧ z = zero := by
        by_contra hno
        rw [hlist, if_neg hno] at hu
        exact hfree j m z hu
      obtain ⟨rfl, rfl, rfl⟩ := hh
      refine ⟨x, by rw [hth, Function.update_self], hx.1, hx.2.1, hx.2.2, (hlv x).trans hlive,
        (hins x).trans hin, ⟨pre, op, Function.update_self _ _ _, hnum, ?_⟩, fun p o ho => ?_⟩
      · rw [hval]
        exact hb
      · rw [Function.update_self] at ho
        cases ho
        exact hlow
    · have hold : u ∈ waitList z (S.sem j m) := by
        rw [hlist] at hu
        split at hu
        next => exact (List.mem_cons.mp hu).resolve_left hut
        next => exact hu
      obtain ⟨y, hy⟩ := hl.sleeping j m z u hold
      refine ⟨y, by rw [hth, Function.update_of_ne hut, hy.thread], hy.qid, hy.semNum, hy.isZero,
        (hlv y).trans hy.live, (hins y).trans hy.inside, ?_, fun p o ho => ?_⟩
      · obtain ⟨p, o, hst, hno, hbl⟩ := hy.stuck
        refine ⟨p, o, by rw [Function.update_of_ne hut, hst], hno, ?_⟩
        rw [hval]
        exact hbl
      · rw [Function.update_of_ne hut] at ho
        exact hy.low p o ho
  · rw [hlist]
    split
    next => exact List.nodup_cons.mpr ⟨hfree j m z, hl.nodup j m z⟩
    next => exact hl.nodup j m z
  · rw [hth] at hy
    by_cases hut : u = t
    · subst hut
      rw [Function.update_self] at hy
      cases hy
      exact hown
    · rw [Function.update_of_ne hut] at hy
      exact hl.own u y hy

theorem stop_mem_touched {s : State} {op : Sembuf} (h : (pass c w s).stop = some op) :
    op ∈ touched c w s := by
  cases w with
  | atomic sops => exact List.mem_of_getLast? h
  | order rest =>
    refine List.mem_append_right _ ?_
    rw [show (orderPass c rest s).stop = some op from h]
    exact List.mem_cons_self

theorem zero_of_blocks {op : Sembuf} {m : Int} (h : Blocks zero op m) :
    zero = decide (op.semOp = 0) := by
  cases zero with
  | true => exact (decide_eq_true h.1).symm
  | false =>
    refine (decide_eq_false fun h0 => ?_).symm
    have hneg : op.semOp.toInt < 0 := h.1
    simp [h0] at hneg

/-- The ghost record of a pass. -/
def noted (S : Store) (st : Stops) (k : Nat) (c : Caller) (w : Sleeper) : Stops :=
  if (pass c w (S.part k c.pid)).ending = .asleep then
    Function.update st c.thread
      (ahead c w (S.part k c.pid), (pass c w (S.part k c.pid)).stop)
  else st

/-- The pass comes to no operation outside of the set. -/
def InSet (S : Store) (k : Nat) (c : Caller) (w : Sleeper) : Prop :=
  ∀ op ∈ touched c w (S.part k c.pid), op.semNum.toNat < (S.sema k).semNsems.toNat

theorem InSet.any (h : InSet S k c w) : ((touched c w (S.part k c.pid)).any
    fun op => (S.sema k).semNsems.toNat ≤ op.semNum.toNat) = false := by
  rw [List.any_eq_false]
  intro op ho
  simpa using h op ho

theorem fine_turn_awake (hl : Listed S st) (hfree : Free S c.thread) (hn : InSet S k c w)
    (hend : (pass c w (S.part k c.pid)).ending ≠ .asleep) :
    Fine S st st (turn S env k c w) := by
  have hserve := passServed (c := c) (s := S.part k c.pid) (fun n => hl.counted k n) w
  have hawake : ∀ S' : Store, S'.semMark = S.semMark →
      (∀ j, SamePlace (S.sema j) (S'.sema j)) →
      S'.sem = Function.update S.sem k (pass c w (S.part k c.pid)).state.sem →
      S'.threads = Function.update S.threads c.thread none → Serves S S' st st := by
    intro S' hm hp hsem hth
    refine hl.serves hm hp (fun j n => ?_) fun t => ?_
    · rw [hsem]
      by_cases hj : j = k
      · subst hj
        rw [Function.update_self]
        exact hserve.awake hend n
      · rw [Function.update_of_ne hj]
        exact .refl _
    · by_cases ht : t = c.thread
      · subst ht
        exact .inr ⟨by rw [hth, Function.update_self], hfree⟩
      · exact .inl ⟨by rw [hth, Function.update_of_ne ht], rfl⟩
  unfold turn
  cases hend' : (pass c w (S.part k c.pid)).ending with
  | done =>
    simp only [hn.any, Bool.false_eq_true, if_false, hend']
    refine Serves.fine ?_ hl (by simp)
    refine hawake _ rfl (fun j => ?_) rfl rfl
    by_cases hj : j = k
    · subst hj
      simp only [Store.setThread, Store.setSp, Store.put, Function.update_self]
      exact ⟨rfl, rfl, rfl, rfl⟩
    · simp only [Store.setThread, Store.setSp, Store.put, Function.update_of_ne hj]
      exact ⟨rfl, rfl, rfl, rfl⟩
  | failed =>
    simp only [hn.any, Bool.false_eq_true, if_false, hend']
    refine Serves.fine ?_ hl (by simp)
    exact hawake _ rfl (fun _ => ⟨rfl, rfl, rfl, rfl⟩) rfl rfl
  | asleep => exact absurd hend' hend

/-- The thread as `turn` leaves it asleep. -/
def waiting (S : Store) (k : Nat) (c : Caller) (w : Sleeper) (op : Sembuf) : Waiting :=
  ⟨c, k, (S.sema k).semPerm.seq, (S.sema k).semBase, op.semNum.toNat, decide (op.semOp = 0),
    (pass c w (S.part k c.pid)).call⟩

theorem turn_asleep {op : Sembuf} (hn : InSet S k c w)
    (hend : (pass c w (S.part k c.pid)).ending = .asleep)
    (hstop : (pass c w (S.part k c.pid)).stop = some op) :
    turn S env k c w =
      ((S.put k c.pid (pass c w (S.part k c.pid)).state).setThread c.thread
        (some (waiting S k c w op)),
        .ops c.pid c.semid (pass c w (S.part k c.pid)).done, .asleep) := by
  unfold turn
  simp only [hn.any, Bool.false_eq_true, if_false, hend, hstop]
  rfl

theorem fine_turn_asleep (hl : Listed S st) (hfree : Free S c.thread)
    (ha : (S.sema k).alloc = true) (hn : InSet S k c w) (hr : Rests S k c w)
    (hend : (pass c w (S.part k c.pid)).ending = .asleep) :
    Fine S st (Function.update st c.thread
      (ahead c w (S.part k c.pid), (pass c w (S.part k c.pid)).stop)) (turn S env k c w) := by
  have hserve := passServed (c := c) (s := S.part k c.pid) (fun n => hl.counted k n) w
  obtain ⟨op, z, u, hstop, hsu, hb, hstate⟩ := hserve.asleep hend
  obtain ⟨hcnt, hlow⟩ := hr hend op hstop
  have hz := zero_of_blocks hb
  -- the pass up to the sleep, and then the sleep
  obtain ⟨S₁, hS₁⟩ : ∃ S₁ : Store, S₁ = { S.put k c.pid u with threads := S.threads } := ⟨_, rfl⟩
  have hsem₁ : S₁.sem = Function.update S.sem k u.sem := by rw [hS₁]; rfl
  have hsema₁ : S₁.sema = S.sema := by rw [hS₁]; rfl
  have h₁ : Serves S S₁ st st := by
    refine hl.serves (by rw [hS₁]; rfl) (fun j => ?_) (fun j n => ?_)
      fun _ => .inl ⟨by rw [hS₁], rfl⟩
    · rw [hsema₁]
      exact ⟨rfl, rfl, rfl, rfl⟩
    · rw [hsem₁]
      by_cases hj : j = k
      · subst hj
        rw [Function.update_self]
        exact hsu n
      · rw [Function.update_of_ne hj]
        exact .refl _
  have hfree₁ : Free S₁ c.thread := fun j n z hm => hfree j n z (h₁.mem hm).1
  have hu : S₁.sem k op.semNum.toNat = u.sem op.semNum.toNat := by
    rw [hsem₁, Function.update_self]
  have hnum := hn op (stop_mem_touched hstop)
  have hinc : waitCount z (S₁.sem k op.semNum.toNat) + 1 ≠ 0 := by
    rw [hu]
    rcases (hsu op.semNum.toNat).waitList z with ⟨-, h0⟩ | ⟨-, heq⟩
    · rw [h0]
      decide
    · rw [heq, hz]
      intro h0
      refine hcnt ?_
      change waitCount (decide (op.semOp = 0)) ((S.part k c.pid).sem op.semNum.toNat) = _
      generalize waitCount _ _ = x at h0 ⊢
      rw [← BitVec.add_sub_cancel x 1, h0]
      rfl
  rw [turn_asleep hn hend hstop, hstop]
  have hsem₂ : ((S.put k c.pid (pass c w (S.part k c.pid)).state).setThread c.thread
      (some (waiting S k c w op))).sem = Function.update S₁.sem k
      (Function.update (S₁.sem k) op.semNum.toNat
        (asleep c.thread z (S₁.sem k op.semNum.toNat))) := by
    rw [hstate, hsem₁, Function.update_idem, Function.update_self]
    rfl
  refine ⟨?_, ?_, by simp⟩
  · refine (h₁.listed hl).sleep hfree₁ hsema₁.symm (by rw [hS₁]; rfl) hsem₂ (by rw [hS₁]; rfl) hinc
      rfl ⟨rfl, rfl, hz.symm⟩ ?_ ?_ rfl (by rw [hu]; exact hb) fun h => hlow (by simpa [hz] using h)
    · unfold Store.live
      rw [hsema₁]
      simp [waiting, ha]
    · unfold Store.inside
      rw [hsema₁]
      simp [waiting, hnum]
  · rintro j m y ⟨t, ht, hno⟩ v hv hin
    have hval : ∀ j m, (((S.put k c.pid (pass c w (S.part k c.pid)).state).setThread c.thread
        (some (waiting S k c w op))).sem j m).semval = (S₁.sem j m).semval := by
      intro j m
      rw [hsem₂]
      by_cases hj : j = k
      · subst hj
        by_cases hmn : m = op.semNum.toNat
        · subst hmn
          simp only [Function.update_self, semval_asleep]
        · simp only [Function.update_self, Function.update_of_ne hmn]
      · rw [Function.update_of_ne hj]
    have hno₁ : ¬Stuck S₁ st j m y t := by
      rintro ⟨p, o, hst, hom, hbl⟩
      refine hno ⟨p, o, hst, hom, ?_⟩
      change Blocks y o (((((S.put k c.pid (pass c w (S.part k c.pid)).state).setThread c.thread
        (some (waiting S k c w op))).sem j m).semval.toNat : Int) + _)
      rw [hval]
      exact hbl
    refine h₁.wakesAll hl j m y ⟨t, ht, hno₁⟩ v hv ?_
    have hvt : v ≠ c.thread := by
      rintro rfl
      exact hfree j m y hv
    change v ∈ waitList y (((S.put k c.pid (pass c w (S.part k c.pid)).state).setThread c.thread
        (some (waiting S k c w op))).sem j m) at hin
    rw [hsem₂] at hin
    by_cases hj : j = k
    · subst hj
      by_cases hmn : m = op.semNum.toNat
      · subst hmn
        simp only [Function.update_self, waitList_asleep] at hin
        split at hin
        next => exact (List.mem_cons.mp hin).resolve_left hvt
        next => exact hin
      · simpa only [Function.update_self, Function.update_of_ne hmn] using hin
    · rwa [Function.update_of_ne hj] at hin

theorem fine_turn (hl : Listed S st) (hfree : Free S c.thread) (ha : (S.sema k).alloc = true)
    (hn : InSet S k c w) (hr : Rests S k c w) :
    Fine S st (noted S st k c w) (turn S env k c w) := by
  unfold noted
  split
  next hend => exact fine_turn_asleep hl hfree ha hn hr hend
  next hend => exact fine_turn_awake hl hfree hn hend

theorem note_some (h : turnOf S e = some (k, c, w)) : note S st e = noted S st k c w := by
  unfold note noted
  rw [h]

theorem note_none (h : turnOf S e = none) : note S st e = st := by
  unfold note
  rw [h]

theorem fine_semop {semid : UInt32} {sops : List Sembuf} (hl : Listed S st)
    (hth : S.threads tid = none)
    (hr : ∀ k c w, turnOf S (.call tid env (.semop semid sops)) = some (k, c, w) → Rests S k c w) :
    Fine S st (note S st (.call tid env (.semop semid sops))) (semop S env tid semid sops) := by
  unfold semop
  by_cases hlen : sops.length = 0
  · have hnone : turnOf S (.call tid env (.semop semid sops)) = none := by simp [turnOf, hlen]
    rw [if_pos hlen, note_none hnone]
    exact fine_same hl (by simp)
  rw [if_neg hlen]
  have hturn : turnOf S (.call tid env (.semop semid sops)) =
      (semopCheck S env tid semid sops).toOption := by simp [turnOf, hth, hlen]
  cases hc : semopCheck S env tid semid sops with
  | error err =>
    rw [hc] at hturn
    rw [note_none hturn]
    exact fine_same hl (by simp)
  | ok r =>
    obtain ⟨k, c, w⟩ := r
    rw [hc] at hturn
    obtain ⟨hid, -, hrest, htid, hin⟩ := semopCheck_spec hc
    rw [note_some hturn]
    refine fine_turn hl ?_ (semconv_spec hid).2.1
      (fun op ho => hin op (hrest ▸ touched_subset ho)) (hr k c w hturn)
    rw [htid]
    exact hl.free_of_none hth

/-! ## Coming back -/

/-- A thread that is on no list leaves. -/
theorem fine_gone {d : Deed} {res : Result} (hl : Listed S st) (hfree : Free S tid)
    (hr : res ≠ .wild) : Fine S st st (S.setThread tid none, d, res) := by
  refine Serves.fine ?_ hl hr
  refine hl.serves rfl (fun _ => ⟨rfl, rfl, rfl, rfl⟩) (fun _ _ => .refl _) fun t => ?_
  by_cases ht : t = tid
  · subst ht
    exact .inr ⟨Function.update_self _ _ _, hfree⟩
  · exact .inl ⟨Function.update_of_ne ht _ _, rfl⟩

theorem Listed.free_of_dead (hl : Listed S st) {x : Waiting} (ht : S.threads t = some x)
    (hlive : S.live x = false) : Free S t := by
  intro k n zero hm
  obtain ⟨y, hy⟩ := hl.sleeping k n zero t hm
  obtain rfl := Option.some.inj (ht.symm.trans hy.thread)
  have hl' := hy.live
  rw [hlive] at hl'
  cases hl'

/-- A signal: the thread leaves the list that it may still be on. -/
theorem fine_signal {x : Waiting} {d : Deed} {res : Result} (hl : Listed S st)
    (ht : S.threads t = some x) (hr : res ≠ .wild) :
    Fine S st st (({ S with
      sem := Function.update S.sem x.qid
        (Function.update (S.sem x.qid) x.semNum
          (leave t x.zero (S.sem x.qid x.semNum))) } : Store).setThread t none, d, res) := by
  generalize hS' : ({ S with
      sem := Function.update S.sem x.qid
        (Function.update (S.sem x.qid) x.semNum
          (leave t x.zero (S.sem x.qid x.semNum))) } : Store).setThread t none = S'
  have hsem : S'.sem = Function.update S.sem x.qid
      (Function.update (S.sem x.qid) x.semNum (leave t x.zero (S.sem x.qid x.semNum))) := by
    rw [← hS']
    rfl
  have hsema : S'.sema = S.sema := by rw [← hS']; rfl
  have hth : S'.threads = Function.update S.threads t none := by rw [← hS']; rfl
  have hval : ∀ j m, (S'.sem j m).semval = (S.sem j m).semval := by
    intro j m
    rw [hsem]
    by_cases hj : j = x.qid
    · subst hj
      by_cases hm : m = x.semNum
      · subst hm
        simp only [Function.update_self, semval_leave]
      · simp only [Function.update_self, Function.update_of_ne hm]
    · rw [Function.update_of_ne hj]
  -- a list is empty, or one thread shorter, or as it was
  have hlist : ∀ j m z, waitList z (S'.sem j m) = [] ∨
      waitList z (S'.sem j m) = (waitList z (S.sem j m)).erase t ∧
        (waitList z (S.sem j m) ≠ [] → waitCount z (S'.sem j m) ≠ 0) := by
    intro j m z
    have hother : ∀ v : Semaphore, v = S.sem j m → ¬(j = x.qid ∧ m = x.semNum ∧ z = x.zero) →
        waitList z v = (waitList z (S.sem j m)).erase t ∧
          (waitList z (S.sem j m) ≠ [] → waitCount z v ≠ 0) := by
      rintro v rfl hne
      refine ⟨(List.erase_of_not_mem fun hm => ?_).symm, counted_iff.mp (hl.counted j m) z⟩
      obtain ⟨y, hy⟩ := hl.sleeping j m z t hm
      obtain rfl := Option.some.inj (ht.symm.trans hy.thread)
      exact hne ⟨hy.qid.symm, hy.semNum.symm, hy.isZero.symm⟩
    rw [hsem]
    by_cases hj : j = x.qid
    · subst hj
      by_cases hm : m = x.semNum
      · subst hm
        simp only [Function.update_self]
        obtain ⟨h1, h2, h3⟩ := leave_cases t x.zero (S.sem x.qid x.semNum)
        by_cases hz : z = x.zero
        · subst hz
          exact h1.imp id fun h => ⟨h.1, fun _ => h.2⟩
        · obtain rfl : z = !x.zero := Bool.eq_not_iff.mpr hz
          right
          rw [h2, h3]
          exact hother _ rfl fun hh => hz hh.2.2
      · simp only [Function.update_self, Function.update_of_ne hm]
        exact .inr (hother _ rfl fun hh => hm hh.2.1)
    · rw [Function.update_of_ne hj]
      exact .inr (hother _ rfl fun hh => hj hh.1)
  have hmem : ∀ j m z u, u ∈ waitList z (S'.sem j m) → u ≠ t ∧ u ∈ waitList z (S.sem j m) := by
    intro j m z u hu
    rcases hlist j m z with hnil | ⟨heq, -⟩
    · exact absurd hnil (List.ne_nil_of_mem hu)
    · rw [heq, (hl.nodup j m z).mem_erase_iff] at hu
      exact hu
  have hstuck : ∀ j m z u, Stuck S st j m z u → Stuck S' st j m z u := by
    rintro j m z u ⟨p, o, hst, hom, hb⟩
    exact ⟨p, o, hst, hom, by rw [hval]; exact hb⟩
  refine ⟨⟨?_, ?_, fun j m => counted_iff.mpr fun z hne => ?_, fun j m z u hu => ?_,
    fun j m z => ?_, fun u y hy => ?_⟩, ?_, hr⟩
  · rw [show S'.semMark = S.semMark by rw [← hS']; rfl]
    change ∀ j, (S'.sema j).alloc = true → _
    rw [hsema]
    exact hl.mark
  · rw [← hS']
    exact hl.mark_le
  · obtain ⟨heq, hcnt⟩ := (hlist j m z).resolve_left hne
    refine hcnt fun hnil => hne ?_
    rw [heq, hnil]
    rfl
  · obtain ⟨hut, hold⟩ := hmem j m z u hu
    obtain ⟨y, hy⟩ := hl.sleeping j m z u hold
    refine ⟨y, ?_, hy.qid, hy.semNum, hy.isZero, ?_, ?_, hstuck j m z u hy.stuck, hy.low⟩
    · change S'.threads u = some y
      rw [hth, Function.update_of_ne hut]
      exact hy.thread
    · have hlive := hy.live
      unfold Store.live at hlive ⊢
      rw [hsema]
      exact hlive
    · have hin := hy.inside
      unfold Store.inside at hin ⊢
      rw [hsema]
      exact hin
  · rcases hlist j m z with hnil | ⟨heq, -⟩
    · rw [hnil]
      exact List.nodup_nil
    · rw [heq]
      exact (hl.nodup j m z).erase t
  · change S'.threads u = some y at hy
    rw [hth] at hy
    by_cases hut : u = t
    · rw [hut, Function.update_self] at hy
      cases hy
    · rw [Function.update_of_ne hut] at hy
      exact hl.own u y hy
  · rintro j m z ⟨u, hu, hno⟩
    obtain ⟨y, hy⟩ := hl.sleeping j m z u hu
    exact absurd (hstuck j m z u hy.stuck) hno

theorem fine_resume {signal : Bool} (hl : Listed S st)
    (hq : Quiet S (.resume tid env signal)) :
    Fine S st (note S st (.resume tid env signal)) (resume S env tid signal) := by
  obtain ⟨hwithin, hrest⟩ := hq
  unfold resume
  cases hth : S.threads tid with
  | none =>
    rw [note_none (by simp [turnOf, hth])]
    exact fine_same hl (by simp)
  | some x =>
    have hx := hwithin x hth
    simp only
    cases signal with
    | true =>
      rw [note_none (by simp [turnOf, hth]), if_pos rfl]
      split
      next hlive =>
        have hin : S.inside x = true := by simpa using hx hlive
        rw [if_pos hin]
        exact fine_signal hl hth (by simp)
      next hlive => exact fine_gone hl (hl.free_of_dead hth (by simpa using hlive)) (by simp)
    | false =>
      rw [if_neg (by simp)]
      by_cases hlist : S.listed tid x = true
      · rw [note_none (by simp [turnOf, hth, hlist]), if_pos hlist]
        exact fine_same hl (by simp)
      rw [if_neg hlist]
      have hfree := hl.free_of_woken hth (by simpa using hlist)
      by_cases hlive : S.live x = true
      · have hturn : turnOf S (.resume tid env false) =
            some (x.qid, { x.caller with mem := env.mem }, x.call) := by
          simp [turnOf, hth, hlist, hlive]
        obtain ⟨hin, hops⟩ := hx hlive hlist
        have ha : (S.sema x.qid).alloc = true := by
          unfold Store.live at hlive
          exact (Bool.and_eq_true _ _ ▸ hlive).1
        have hfine : Fine S st (noted S st x.qid { x.caller with mem := env.mem } x.call)
            (turn S env x.qid { x.caller with mem := env.mem } x.call) := fine_turn hl
          (by rw [show ({ x.caller with mem := env.mem } : Caller).thread = tid from hl.own tid x hth]
              exact hfree) ha hops (hrest _ _ _ hturn)
        rw [note_some hturn, if_pos hlive]
        cases hcall : x.call with
        | atomic sops =>
          rw [hcall] at hfine
          exact hfine
        | order rest =>
          rw [hcall] at hfine
          simp only
          rw [if_pos (hin ⟨rest, hcall⟩)]
          exact hfine
      · rw [note_none (by simp [turnOf, hth, hlive]), if_neg hlive]
        exact fine_gone hl hfree (by simp)

/-! ## Every run -/

theorem fine_step (hl : Listed S st) (e : Event) (hq : Quiet S e) :
    Fine S st (note S st e) (step S e) := by
  cases e with
  | resume tid env signal => exact fine_resume hl hq
  | call tid env call =>
    by_cases hth : S.threads tid = none
    · have hstep : ∀ r, r = step S (.call tid env call) → Fine S st (note S st (.call tid env call)) r →
          Fine S st (note S st (.call tid env call)) (step S (.call tid env call)) := by
        rintro r rfl h
        exact h
      cases call with
      | semget key nsems semflg =>
        refine hstep (semget S env key nsems semflg) (by simp [step, hth]) ?_
        exact fine_semget hl
      | semctl semid semnum cmd arg =>
        refine hstep (semctl S env semid semnum cmd arg) (by simp [step, hth]) ?_
        exact fine_semctl hl (hq.1 hth)
      | semop semid sops =>
        refine hstep (semop S env tid semid sops) (by simp [step, hth]) ?_
        exact fine_semop hl hth hq.2
      | exit =>
        refine hstep (semexit S env.pid) (by simp [step, hth]) ?_
        exact fine_semexit hl (hq.1 hth)
    · obtain ⟨x, hx⟩ := Option.ne_none_iff_exists'.mp hth
      have hnone : turnOf S (.call tid env call) = none := by
        cases call <;> simp [turnOf, hx]
      have hidle : step S (.call tid env call) = (S, .nothing, .idle) := by simp [step, hx]
      rw [note_none hnone, hidle]
      exact fine_same hl (by simp)

theorem upholds_of_allQuiet (hl : Listed S st) (es : List Event) (hq : AllQuiet S es) :
    Upholds S st es := by
  induction es generalizing S st with
  | nil => exact hl.awake
  | cons e es ih =>
    obtain ⟨hl', hw, hr⟩ := fine_step hl e hq.1
    exact ⟨hl.awake, hr, hw, ih hl' hq.2⟩

theorem listed_boot : Listed boot fun _ => ([], none) where
  mark := fun _ ha => by simp [boot, SemidDs.alloc, isSet] at ha
  mark_le := Nat.zero_le _
  counted := fun _ _ => ⟨fun hne => absurd rfl hne, fun hne => absurd rfl hne⟩
  sleeping := fun _ _ zero _ ht => by cases zero <;> cases ht
  nodup := fun _ _ zero => by cases zero <;> exact List.nodup_nil
  own := fun _ _ hx => by cases hx

/-- In every run whose steps are quiet threads sleep only behind a count that is not zero and on
operations that cannot be performed, and a change that lets one of them go on wakes all of its
list. -/
theorem no_lost_semop_wakeup (es : List Event) (hq : AllQuiet boot es) :
    Upholds boot (fun _ => ([], none)) es :=
  upholds_of_allQuiet listed_boot es hq


/-- A thread waits to take 1, and another adds 1. -/
def addOne : List Event :=
  [.call 1 root (.semget 0 1 0), .call 1 root (.semop 0 [⟨0, -1, 0⟩]),
    .call 2 root (.semop 0 [⟨0, 1, 0⟩])]

theorem allQuiet_addOne : AllQuiet boot addOne := by
  refine ⟨⟨trivial, fun k c w h => by cases h⟩, ⟨trivial, fun k c w h => ?_⟩,
    ⟨trivial, fun k c w h => ?_⟩, trivial⟩
  · have he : turnOf (step boot (.call 1 root (.semget 0 1 0))).1
        (.call 1 root (.semop 0 [⟨0, -1, 0⟩])) =
        some (0, ⟨0, 17, 1, true⟩, .atomic [⟨0, -1, 0⟩]) := rfl
    rw [he] at h
    cases h
    intro _ op hop
    have hstop : (pass ⟨0, 17, 1, true⟩ (.atomic [⟨0, -1, 0⟩])
        ((step boot (.call 1 root (.semget 0 1 0))).1.part 0 17)).stop = some ⟨0, -1, 0⟩ := by
      decide +kernel
    rw [hstop] at hop
    cases hop
    exact ⟨by decide +kernel, fun h0 => absurd h0 (by decide)⟩
  · have he : turnOf (step (step boot (.call 1 root (.semget 0 1 0))).1
          (.call 1 root (.semop 0 [⟨0, -1, 0⟩]))).1
        (.call 2 root (.semop 0 [⟨0, 1, 0⟩])) =
        some (0, ⟨0, 17, 2, true⟩, .atomic [⟨0, 1, 0⟩]) := rfl
    rw [he] at h
    cases h
    exact fun hend => absurd hend (by decide +kernel)

theorem no_lost_semop_wakeup_add :
    AllQuiet boot addOne ∧ Upholds boot (fun _ => ([], none)) addOne :=
  ⟨allQuiet_addOne, no_lost_semop_wakeup addOne allQuiet_addOne⟩

/-- With the value 2 a thread is to take 1 and then wait for zero. Another thread takes 1: the first
could go on, but is not woken as the value is not zero. -/
theorem semop_wakeup_lost : ¬∀ es, Upholds boot (fun _ => ([], none)) es := by
  intro h
  have hrun := h [.call 1 root (.semget 0 1 0), .call 1 root (.semctl 0 0 8 { five with val := 2 }),
    .call 1 root (.semop 0 [⟨0, -1, 0⟩, ⟨0, 0, 0⟩]), .call 2 root (.semop 0 [⟨0, -1, 0⟩])]
  have hawake := hrun.2.2.2.2.2.2.2.2.2.2.2.2
  obtain ⟨pre, op, hst, -, hb⟩ := hawake.stuck 0 0 true 1 (by decide +kernel)
  have hst' : (([⟨0, -1, 0⟩], some ⟨0, 0, 0⟩) : List Sembuf × Option Sembuf) = (pre, some op) :=
    (by decide +kernel : _ = _).trans hst
  cases hst'
  exact hb.2 (by decide +kernel)

end Aix413.Semop.Wakeups
