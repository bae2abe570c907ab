import Aix413.Rename.Steps

namespace Aix413.Rename.Locks

open FileSystem Steps

variable {ι : Type}

/-- The inodes that a rename has locked where it stands. -/
def held (x : Proc) : List Ino :=
  match x.pc with
  | .locking todo => (lockList x.args).take ((lockList x.args).length - todo.length)
  | .locked | .wantMount | .wantAncestor _ | .acting => lockList x.args
  | .walking ip => walked x.args ip ++ lockList x.args
  | .start | .done _ | .panic => []

def inIncest : Pc → Bool
  | .walking _ | .wantAncestor _ => true
  | _ => false

/-- Each lock is owned by the rename that has it where it stands, and by no
other. -/
structure LockInv (s : State ι) : Prop where
  owner : ∀ p i, s.lockOf i = some p ↔ i ∈ held (s.procs p)
  mount : ∀ p, s.mount = some p ↔ inIncest (s.procs p).pc = true
  nodup : ∀ p, (held (s.procs p)).Nodup
  todo : ∀ p todo, (s.procs p).pc = .locking todo → todo <:+ lockList (s.procs p).args

variable {s s' : State ι} {p q : ι} {r : Refusals} {a : Args} {i : Ino}

theorem LockInv.exclusive (h : LockInv s) (hp : i ∈ held (s.procs p)) (hq : i ∈ held (s.procs q)) :
    p = q := by
  rw [← h.owner] at hp hq
  exact Option.some.inj (hp.symm.trans hq)

theorem lockList_perm (a : Args) : List.Perm (lockList a)
    (if a.spip = a.dpip then a.spip :: a.sip :: a.dip.toList
    else a.spip :: a.dpip :: a.sip :: a.dip.toList) := List.perm_insertionSort _ _

theorem mem_lockList : i ∈ lockList a ↔ i = a.spip ∨ i = a.dpip ∨ i = a.sip ∨ a.dip = some i := by
  rw [(lockList_perm a).mem_iff]
  split
  next h => simp [h]
  next => simp

theorem lockList_sorted (a : Args) : (lockList a).Pairwise (· ≥ ·) :=
  List.pairwise_insertionSort _ _

theorem lockList_drop_dest {d : Ino} (hd : a.dip = some d) (hn : (lockList a).Nodup) :
    (lockList { a with dip := none }).Nodup ∧
    ∀ i, i ∈ lockList { a with dip := none } ↔ i ∈ lockList a ∧ i ≠ d := by
  rw [(lockList_perm a).nodup_iff] at hn
  rw [(lockList_perm _).nodup_iff]
  simp only [mem_lockList, hd]
  split at hn
  next h =>
    simp only [hd, Option.toList_some, List.nodup_cons, List.mem_cons, List.not_mem_nil] at hn
    rw [if_pos h]
    constructor
    · simp only [Option.toList_none, List.nodup_cons, List.mem_cons, List.not_mem_nil]
      tauto
    · intro i
      constructor
      · rintro (rfl | rfl | rfl | hi)
        · exact ⟨.inl rfl, fun he => hn.1 (.inr (.inl he))⟩
        · exact ⟨.inr (.inl rfl), fun he => hn.1 (.inr (.inl (h.trans he)))⟩
        · exact ⟨.inr (.inr (.inl rfl)), fun he => hn.2.1 (.inl he)⟩
        · cases hi
      · rintro ⟨h1 | h1 | h1 | h1, h2⟩
        · exact .inl h1
        · exact .inr (.inl h1)
        · exact .inr (.inr (.inl h1))
        · exact absurd (Option.some.inj h1).symm h2
  next h =>
    simp only [hd, Option.toList_some, List.nodup_cons, List.mem_cons, List.not_mem_nil] at hn
    rw [if_neg h]
    constructor
    · simp only [Option.toList_none, List.nodup_cons, List.mem_cons, List.not_mem_nil]
      tauto
    · intro i
      constructor
      · rintro (rfl | rfl | rfl | hi)
        · exact ⟨.inl rfl, fun he => hn.1 (.inr (.inr (.inl he)))⟩
        · exact ⟨.inr (.inl rfl), fun he => hn.2.1 (.inr (.inl he))⟩
        · exact ⟨.inr (.inr (.inl rfl)), fun he => hn.2.2.1 (.inl he)⟩
        · cases hi
      · rintro ⟨h1 | h1 | h1 | h1, h2⟩
        · exact .inl h1
        · exact .inr (.inl h1)
        · exact .inr (.inr (.inl h1))
        · exact absurd (Option.some.inj h1).symm h2

theorem lock_other (hfree : s.lockOf i = none) (hq : q ≠ p) (j : Ino) :
    (s.lock p i).lockOf j = some q ↔ s.lockOf j = some q := by
  unfold State.lock
  by_cases hj : j = i
  · subst hj
    simp [hfree, Ne.symm hq]
  · simp [hj]

theorem lock_self (j : Ino) : (s.lock p i).lockOf j = some p ↔ j = i ∨ s.lockOf j = some p := by
  unfold State.lock
  by_cases hj : j = i
  · simp [hj]
  · simp [hj]

theorem unlock_other {l : List Ino} (hl : ∀ i ∈ l, s.lockOf i = some p) (hq : q ≠ p) (j : Ino) :
    (s.unlock l).lockOf j = some q ↔ s.lockOf j = some q := by
  unfold State.unlock
  by_cases hj : j ∈ l
  · simp [hj, hl j hj, Ne.symm hq]
  · simp [hj]

theorem unlock_self {l : List Ino} (j : Ino) :
    (s.unlock l).lockOf j = some p ↔ j ∉ l ∧ s.lockOf j = some p := by
  unfold State.unlock
  by_cases hj : j ∈ l
  · simp [hj]
  · simp [hj]

variable [DecidableEq ι]

/-- The invariant after a step of `p`, from what the step does to the locks of
`p` and that it leaves those of the others. -/
theorem LockInv.update (h : LockInv s) (x : Proc) (hprocs : s'.procs = Function.update s.procs p x)
    (hown : ∀ i, s'.lockOf i = some p ↔ i ∈ held x)
    (hother : ∀ q, q ≠ p → ∀ i, s'.lockOf i = some q ↔ s.lockOf i = some q)
    (hmount : s'.mount = some p ↔ inIncest x.pc = true)
    (hmother : ∀ q, q ≠ p → (s'.mount = some q ↔ s.mount = some q))
    (hnodup : (held x).Nodup) (htodo : ∀ todo, x.pc = .locking todo → todo <:+ lockList x.args) :
    LockInv s' := by
  refine ⟨?_, ?_, ?_, ?_⟩
  · intro q i
    rw [hprocs]
    by_cases hq : q = p
    · subst hq
      rw [Function.update_self]
      exact hown i
    · rw [Function.update_of_ne hq, hother q hq]
      exact h.owner q i
  · intro q
    rw [hprocs]
    by_cases hq : q = p
    · subst hq
      rw [Function.update_self]
      exact hmount
    · rw [Function.update_of_ne hq, hmother q hq]
      exact h.mount q
  · intro q
    rw [hprocs]
    by_cases hq : q = p
    · subst hq
      rw [Function.update_self]
      exact hnodup
    · rw [Function.update_of_ne hq]
      exact h.nodup q
  · intro q todo
    rw [hprocs]
    by_cases hq : q = p
    · subst hq
      rw [Function.update_self]
      exact htodo todo
    · rw [Function.update_of_ne hq]
      exact h.todo q todo

/-- All locks are released. -/
theorem LockInv.release (h : LockInv s) {x : Proc} (hprocs : s'.procs = Function.update s.procs p x)
    (hlocks : s'.lockOf = (s.unlock (held (s.procs p))).lockOf)
    (hmount : s'.mount = if inIncest (s.procs p).pc then none else s.mount)
    (hx : held x = []) (hi : inIncest x.pc = false) (ht : ∀ todo, x.pc ≠ .locking todo) :
    LockInv s' := by
  have hl : ∀ i ∈ held (s.procs p), s.lockOf i = some p := fun i hi => (h.owner p i).mpr hi
  have hm := h.mount p
  apply h.update x hprocs
  · intro i
    rw [hlocks, hx, unlock_self, h.owner]
    simp
  · intro q hq i
    rw [hlocks]
    exact unlock_other hl hq i
  · rw [hmount, hi]
    split
    next => simp
    next hn =>
      rw [hm]
      simpa using hn
  · intro q hq
    rw [hmount]
    split
    next hn =>
      rw [hm.mpr hn]
      simp [Ne.symm hq]
    next => rfl
  · rw [hx]
    exact List.nodup_nil
  · exact fun todo he => absurd he (ht todo)

theorem act_pc (r : Refusals) (fs : Fs) (a : Args) :
    (∃ rc, (act r fs a).2 = .done rc) ∨ (act r fs a).2 = .panic := by
  unfold act
  split
  next => exact .inl ⟨_, rfl⟩
  next =>
    split
    next => exact .inl ⟨_, rfl⟩
    next =>
      split
      next => exact .inr rfl
      next =>
        split
        next =>
          split
          next => exact .inr rfl
          next => exact .inl ⟨_, rfl⟩
        next => exact .inl ⟨_, rfl⟩

/-- No lock is taken or released. -/
theorem LockInv.same (h : LockInv s) {x : Proc} (hprocs : s'.procs = Function.update s.procs p x)
    (hlocks : s'.lockOf = s.lockOf) (hmount : s'.mount = s.mount)
    (hx : held x = held (s.procs p)) (hi : inIncest x.pc = inIncest (s.procs p).pc)
    (ht : ∀ todo, x.pc = .locking todo → todo <:+ lockList x.args) : LockInv s' := by
  apply h.update x hprocs
  · intro i
    rw [hlocks, hx]
    exact h.owner p i
  · exact fun q _ i => by rw [hlocks]
  · rw [hmount, hi]
    exact h.mount p
  · exact fun q _ => by rw [hmount]
  · rw [hx]
    exact h.nodup p
  · exact ht

/-- One more lock is taken. -/
theorem LockInv.take (h : LockInv s) {x : Proc} (hprocs : s'.procs = Function.update s.procs p x)
    (hfree : s.lockOf i = none) (hlocks : s'.lockOf = (s.lock p i).lockOf)
    (hmount : s'.mount = s.mount) (hx : List.Perm (held x) (i :: held (s.procs p)))
    (hi : inIncest x.pc = inIncest (s.procs p).pc)
    (ht : ∀ todo, x.pc = .locking todo → todo <:+ lockList x.args) : LockInv s' := by
  apply h.update x hprocs
  · intro j
    rw [hlocks, hx.mem_iff, lock_self, h.owner, List.mem_cons]
  · intro q hq j
    rw [hlocks]
    exact lock_other hfree hq j
  · rw [hmount, hi]
    exact h.mount p
  · exact fun q _ => by rw [hmount]
  · rw [hx.nodup_iff, List.nodup_cons]
    refine ⟨?_, h.nodup p⟩
    rw [← h.owner, hfree]
    simp
  · exact ht

/-- The locks of the list `l` are released, and those of `x` are left. -/
theorem LockInv.drop (h : LockInv s) {x : Proc} {l : List Ino}
    (hprocs : s'.procs = Function.update s.procs p x)
    (hlocks : s'.lockOf = (s.unlock l).lockOf) (hl : ∀ i ∈ l, i ∈ held (s.procs p))
    (hmount : s'.mount = some p ↔ inIncest x.pc = true)
    (hmother : ∀ q, q ≠ p → (s'.mount = some q ↔ s.mount = some q))
    (hx : ∀ i, i ∈ held x ↔ i ∉ l ∧ i ∈ held (s.procs p)) (hn : (held x).Nodup)
    (ht : ∀ todo, x.pc ≠ .locking todo) : LockInv s' := by
  apply h.update x hprocs
  · intro i
    rw [hlocks, unlock_self, hx, h.owner]
  · intro q hq i
    rw [hlocks]
    exact unlock_other (fun i hi => (h.owner p i).mpr (hl i hi)) hq i
  · exact hmount
  · exact hmother
  · exact hn
  · exact fun todo he => absurd he (ht todo)

theorem lockInv_step (h : LockInv s) (hs : step r p s = some s') : LockInv s' := by
  have hm := h.mount p
  have hn := h.nodup p
  cases turn_of_step hs with
  | ends rc hpc =>
    apply h.same (p := p)
    · rfl
    · rfl
    · rfl
    · simp [held, hpc]
    · simp [inIncest, hpc]
    · simp
  | begins hpc _ _ _ _ _ =>
    apply h.same (p := p)
    · rfl
    · rfl
    · rfl
    · simp [held, hpc]
    · simp [inIncest, hpc]
    · rintro todo he
      cases he
      exact List.suffix_rfl
  | gotAll hpc =>
    apply h.same (p := p)
    · rfl
    · rfl
    · rfl
    · simp [held, hpc]
    · simp [inIncest, hpc]
    · simp
  | gets i todo hpc hfree =>
    obtain ⟨pre, hpre⟩ := h.todo p _ hpc
    apply h.take (p := p) (i := i)
    · rfl
    · exact hfree
    · rfl
    · rfl
    · have hold : held (s.procs p) = pre := by
        simp [held, hpc, ← hpre]
      have hnew : (lockList (s.procs p).args).take
          ((lockList (s.procs p).args).length - todo.length) = pre ++ [i] := by
        have hlen : (pre ++ i :: todo).length - todo.length = (pre ++ [i]).length := by
          simp
          omega
        have hsplit : pre ++ i :: todo = (pre ++ [i]) ++ todo := by simp
        rw [← hpre, hlen, hsplit, List.take_left]
      rw [hold]
      simp only [held, State.procs_lock, hnew]
      exact List.perm_append_singleton i pre
    · simp [inIncest, hpc]
    · rintro _ he
      cases he
      exact ⟨pre ++ [i], by simp [← hpre]⟩
  | fails e hpc =>
    apply h.release (p := p)
    · rfl
    · simp [held, hpc, State.goto, State.setProc]
    · simp [inIncest, hpc, State.goto, State.setProc, State.unlock]
    · rfl
    · rfl
    · simp
  | moved a hpc _ _ =>
    apply h.release (p := p)
    · rfl
    · simp [held, hpc, State.setProc]
    · simp [inIncest, hpc, State.setProc, State.unlock]
    · rfl
    · rfl
    · simp
  | passes dip hpc hv =>
    have hheld : held (s.procs p) = lockList (s.procs p).args := by simp [held, hpc]
    have hpc' : ∀ pc, pc = (if moves s.fs (s.procs p).args ∧ (s.procs p).args.dpip ≠ rootIno then
        Pc.wantMount else Pc.acting) → ∀ a, held ⟨a, pc⟩ = lockList a ∧ inIncest pc = false ∧
        ∀ todo, pc ≠ .locking todo := by
      rintro _ rfl a
      split <;> simp [held, inIncest]
    generalize (if moves s.fs (s.procs p).args ∧ (s.procs p).args.dpip ≠ rootIno then
      Pc.wantMount else Pc.acting) = pc at hpc'
    obtain ⟨h1, h2, h3⟩ := hpc' pc rfl { (s.procs p).args with dip := dip }
    have hsame : dip = (s.procs p).args.dip → LockInv (s.setProc p
        ⟨{ (s.procs p).args with dip := dip }, pc⟩) := by
      rintro rfl
      apply h.same (p := p)
      · rfl
      · rfl
      · rfl
      · rw [h1, hheld]
      · rw [h2, hpc]
        rfl
      · exact fun todo he => absurd he (h3 todo)
    cases hd : (s.procs p).args.dip with
    | none =>
      have hdip : dip = none := by
        rcases (checks_pass hv).2.2.2.1 with ⟨-, h⟩ | ⟨-, h⟩
        · exact h
        · simpa [hd] using h
      have hun : s.unlock [] = s := by simp [State.unlock]
      rw [if_pos hdip, Option.toList_none, hun]
      exact hsame (hdip.trans hd.symm)
    | some d =>
      by_cases hdip : dip = none
      · subst hdip
        rw [hheld] at hn
        obtain ⟨hdn, hdm⟩ := lockList_drop_dest hd hn
        rw [if_pos rfl]
        apply h.drop (p := p) (l := [d])
        · rfl
        · rfl
        · intro i hi
          rw [List.mem_singleton] at hi
          subst hi
          rw [hheld, mem_lockList]
          exact .inr (.inr (.inr hd))
        · rw [hpc] at hm
          rw [h2]
          simpa [inIncest] using hm
        · exact fun q _ => Iff.rfl
        · intro i
          rw [h1, hheld, hdm, List.mem_singleton]
          exact and_comm
        · rw [h1]
          exact hdn
        · exact h3
      · rw [if_neg hdip]
        apply hsame
        rcases (checks_pass hv).2.2.2.1 with ⟨-, h⟩ | ⟨-, h⟩
        · exact absurd h hdip
        · rw [h, hd] at hdip ⊢
          rw [Option.filter_some] at hdip ⊢
          split at hdip
          next hc => rw [if_pos hc]
          next => exact absurd rfl hdip
  | mounts hpc hfree =>
    apply h.update (p := p) ⟨(s.procs p).args, .walking (s.procs p).args.dpip⟩
    · rfl
    · intro i
      rw [← show held (s.procs p) = held ⟨(s.procs p).args, .walking (s.procs p).args.dpip⟩ by
        simp [held, hpc, walked]]
      exact h.owner p i
    · exact fun q _ i => Iff.rfl
    · simp [inIncest, State.goto, State.setProc]
    · intro q hq
      simp [State.goto, State.setProc, hfree, Ne.symm hq]
    · simpa [held, hpc, walked] using hn
    · simp
  | walkFails ip e hpc =>
    apply h.release (p := p)
    · rfl
    · simp [held, hpc, State.goto, State.setProc, State.unlock, State.unmount]
    · simp [inIncest, hpc, State.goto, State.setProc, State.unlock, State.unmount]
    · rfl
    · rfl
    · simp
  | walkEnds ip ino hpc hl he =>
    have hheld : held (s.procs p) = walked (s.procs p).args ip ++ lockList (s.procs p).args := by
      simp [held, hpc]
    rw [hheld, List.nodup_append] at hn
    apply h.drop (p := p) (l := walked (s.procs p).args ip)
    · rfl
    · rfl
    · intro i hi
      rw [hheld]
      exact List.mem_append_left _ hi
    · simp [inIncest, State.goto, State.setProc, State.unlock, State.unmount]
    · intro q hq
      simp only [State.goto, State.setProc, State.unlock, State.unmount]
      rw [hm.mpr (by simp [inIncest, hpc])]
      simp [Ne.symm hq]
    · intro i
      rw [hheld, List.mem_append]
      have := fun h1 h2 => hn.2.2 i h1 i h2 rfl
      simp only [held]
      tauto
    · exact hn.2.1
    · simp
  | climbs ip ino hpc hl _ _ _ =>
    have hheld : held (s.procs p) = walked (s.procs p).args ip ++ lockList (s.procs p).args := by
      simp [held, hpc]
    rw [hheld, List.nodup_append] at hn
    apply h.drop (p := p) (l := walked (s.procs p).args ip)
    · rfl
    · rfl
    · intro i hi
      rw [hheld]
      exact List.mem_append_left _ hi
    · simpa [inIncest, hpc, State.goto, State.setProc, State.unlock] using hm
    · exact fun q _ => Iff.rfl
    · intro i
      rw [hheld, List.mem_append]
      have := fun h1 h2 => hn.2.2 i h1 i h2 rfl
      simp only [held]
      tauto
    · exact hn.2.1
    · simp
  | getsAncestor ino hpc hfree =>
    have hne : ino ∉ held (s.procs p) := by
      rw [← h.owner, hfree]
      simp
    have hdp : ino ≠ (s.procs p).args.dpip := by
      rintro rfl
      exact hne (by simp [held, hpc, mem_lockList])
    apply h.take (p := p) (i := ino)
    · rfl
    · exact hfree
    · rfl
    · rfl
    · have hwalked : walked (s.procs p).args ino = [ino] := if_neg hdp
      simp only [held, hpc, State.procs_lock, hwalked]
      exact List.Perm.refl _
    · simp [inIncest, hpc]
    · simp
  | acts hpc =>
    apply h.release (p := p)
    · rfl
    · simp [held, hpc, State.goto, State.setProc, State.unlock]
    · simp [inIncest, hpc, State.goto, State.setProc, State.unlock]
    · rcases act_pc r s.fs (s.procs p).args with ⟨rc, hrc⟩ | hrc <;> simp [held, hrc]
    · rcases act_pc r s.fs (s.procs p).args with ⟨rc, hrc⟩ | hrc <;> simp [inIncest, hrc]
    · rcases act_pc r s.fs (s.procs p).args with ⟨rc, hrc⟩ | hrc <;> simp [hrc]

end Aix413.Rename.Locks
