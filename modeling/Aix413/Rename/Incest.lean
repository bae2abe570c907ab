import Aix413.Rename.Acting
import Aix413.Rename.Locks

namespace Aix413.Rename.Incest

open Relation
open Lib.WaitGraph FileSystem Steps Hierarchy Locks Acting

variable {ι : Type}

/-- Rename `p` is past its checks and is to put directory `d` under `e`. -/
def Pending (s : State ι) (p : ι) (d e : Ino) : Prop :=
  (s.procs p).pc = .acting ∧ moves s.fs (s.procs p).args = true ∧
    d = (s.procs p).args.sip ∧ e = (s.procs p).args.dpip

/-- The ways up as they are, and as the renames past their checks will make
them. -/
def Up (s : State ι) (d e : Ino) : Prop := Parent s.fs d e ∨ ∃ p, Pending s p d e

/-- The inode at which a walk stands or whose lock it asks for. -/
def position : Pc → Option Ino
  | .walking ip => some ip
  | .wantAncestor ino => some ino
  | _ => none

/-- The inodes that a walk has left behind have no way up but to the inode at
which it stands, or to the root. -/
structure Walk (s : State ι) (a : Args) (x : Ino) (V : Set Ino) : Prop where
  start : a.dpip ∈ V ∨ a.dpip = x
  unseen : a.sip ∉ V ∧ a.sip ≠ x
  closed : ∀ v ∈ V, ∀ w, Up s v w → w ∈ V ∨ w = x ∨ w = rootIno

/-- The first tests of `jfs_rename` on its arguments. -/
structure Admitted (a : Args) : Prop where
  dname : isDots a.dname = false
  sname : isDots a.sname = false
  dip_ne_sip : a.dip ≠ some a.sip
  sip_ne_dpip : a.sip ≠ a.dpip
  dip_ne_spip : a.dip ≠ some a.spip

/-- What holds of a rename where it stands. -/
structure ProcInv (s : State ι) (x : Proc) : Prop where
  admitted : x.pc = .locked ∨ (∃ todo, x.pc = .locking todo) → Admitted x.args
  ready : x.pc = .wantMount ∨ inIncest x.pc = true ∨ x.pc = .acting → Ready s.fs x.args
  moving : x.pc = .wantMount ∨ inIncest x.pc = true → moves s.fs x.args = true
  walk : ∀ i, position x.pc = some i → ∃ V, Walk s x.args i V
  noPanic : x.pc ≠ .panic

structure Inv (s : State ι) : Prop where
  locks : LockInv s
  tree : IsTree s.fs
  acyclic : Acyclic (Up s)
  proc : ∀ p, ProcInv s (s.procs p)

variable {s s' : State ι} {p q : ι} {r : Refusals} {a : Args}

theorem inIncest_of_position {pc : Pc} {i : Ino} (h : position pc = some i) :
    inIncest pc = true := by
  unfold position at h
  split at h <;> first | rfl | cases h

theorem Walk.mono {x : Ino} {V : Set Ino} (h : Walk s a x V)
    (hup : ∀ v w, Up s' v w → Up s v w ∨ w = rootIno) : Walk s' a x V := by
  refine ⟨h.start, h.unseen, ?_⟩
  intro v hv w hw
  rcases hup v w hw with hw | rfl
  · exact h.closed v hv w hw
  · exact .inr (.inr rfl)

theorem Inv.root_top (h : Inv s) {e : Ino} : ¬Up s rootIno e := by
  rintro (hp | ⟨p, hpc, -, hd, -⟩)
  · exact hp.1 rfl
  · have hr := (h.proc p).ready (.inr (.inr hpc))
    exact h.tree.rootUnnamed _ _ hr.snameDots hr.source (hr.sname.trans (congrArg some hd.symm))

/-- From a locked inode that is not to be moved there is one way up. -/
theorem Inv.up_unique (h : Inv s) {d e : Ino} (hd : d ∈ held (s.procs p))
    (hpc : (s.procs p).pc ≠ .acting) (hl : s.fs.lookup d dotdot = some e) {e' : Ino}
    (hup : Up s d e') : e' = e := by
  rcases hup with hp | ⟨q, hq, -, rfl, rfl⟩
  · exact Option.some.inj (hp.2.2.symm.trans hl)
  · have hheld : (s.procs q).args.sip ∈ held (s.procs q) := by
      simp [held, hq, mem_lockList]
    obtain rfl := h.locks.exclusive hd hheld
    exact absurd hq hpc

theorem Inv.walk_up (h : Inv s) {ip ino : Ino} (hpc : (s.procs p).pc = .walking ip)
    (hl : dirLookup r.walk s.fs ip dotdot = .ok ino) (w : Ino) (hup : Up s ip w) : w = ino := by
  have hheld : ip ∈ held (s.procs p) := by
    unfold held
    rw [hpc, List.mem_append, walked, mem_lockList]
    split
    next he => exact .inr (.inr (.inl he))
    next => exact .inl (List.mem_singleton_self ip)
  exact h.up_unique hheld (by simp [hpc]) (dirLookup_ok hl).2 hup

/-- The destination is not below the source: the walk has come to the root or
to the parent of the source. -/
theorem not_below (h : Inv s) {i ino : Ino} {V : Set Ino} (hw : Walk s a i V)
    (hr : Ready s.fs a) (hm : moves s.fs a = true) (hi : ∀ w, Up s i w → w = ino)
    (hend : ino = rootIno ∨ ino = a.spip) : ¬ReflTransGen (Up s) a.dpip a.sip := by
  have hroot := h.tree.sip_ne_root hr.snameDots hr.source hr.sname
  have hsource : Up s a.sip a.spip :=
    .inl (hr.sourceParent h.tree (moves_iff.mp hm).1)
  have hend' : ∀ x, x = ino ∨ x = rootIno → ¬ReflTransGen (Up s) x a.sip := by
    rintro x hx hpath
    have hx' : x = rootIno ∨ x = a.spip := by
      rcases hx with rfl | rfl
      · exact hend
      · exact .inl rfl
    rcases hx' with rfl | rfl
    · rcases ReflTransGen.cases_head hpath with he | ⟨y, hy, -⟩
      · exact hroot he.symm
      · exact h.root_top hy
    · exact h.acyclic _ (TransGen.head' hsource hpath)
  have hall : ∀ x, ReflTransGen (Up s) x a.sip → x ∉ V ∧ x ≠ i := by
    intro x hpath
    induction hpath using ReflTransGen.head_induction_on with
    | refl => exact hw.unseen
    | @head x y hstep hrest ih =>
      constructor
      · intro hx
        rcases hw.closed x hx y hstep with hy | rfl | rfl
        · exact ih.1 hy
        · exact ih.2 rfl
        · exact hend' _ (.inr rfl) hrest
      · rintro rfl
        obtain rfl := hi y hstep
        exact hend' _ (.inl rfl) hrest
  intro hpath
  rcases hw.start with hs | hs
  · exact (hall _ hpath).1 hs
  · exact (hall _ hpath).2 hs

variable [DecidableEq ι]

/-- A step of `p` that leaves the file system as it is. -/
theorem Inv.step_proc (h : Inv s) (hlocks : LockInv s') (x : Proc)
    (hprocs : s'.procs = Function.update s.procs p x) (hfs : s'.fs = s.fs) (hacyc : Acyclic (Up s'))
    (hup : ∀ q, q ≠ p → inIncest (s.procs q).pc = true →
      ∀ v w, Up s' v w → Up s v w ∨ w = rootIno)
    (hx : ProcInv s' x) : Inv s' := by
  refine ⟨hlocks, by rw [hfs]; exact h.tree, hacyc, ?_⟩
  intro q
  rw [hprocs]
  by_cases hq : q = p
  · subst hq
    rw [Function.update_self]
    exact hx
  · rw [Function.update_of_ne hq]
    have hi := h.proc q
    refine ⟨hi.admitted, ?_, ?_, ?_, hi.noPanic⟩
    · rw [hfs]
      exact hi.ready
    · rw [hfs]
      exact hi.moving
    · intro i hpos
      obtain ⟨V, hw⟩ := hi.walk i hpos
      exact ⟨V, hw.mono (hup q hq (inIncest_of_position hpos))⟩

theorem up_of_step {x : Proc} (hprocs : s'.procs = Function.update s.procs p x)
    (hfs : s'.fs = s.fs) {d e : Ino} (hup : Up s' d e) :
    Up s d e ∨ (x.pc = .acting ∧ moves s.fs x.args = true ∧ d = x.args.sip ∧ e = x.args.dpip) := by
  rcases hup with hp | ⟨q, hq⟩
  · rw [hfs] at hp
    exact .inl (.inl hp)
  · unfold Pending at hq
    rw [hprocs, hfs] at hq
    by_cases hqp : q = p
    · subst hqp
      rw [Function.update_self] at hq
      exact .inr hq
    · rw [Function.update_of_ne hqp] at hq
      exact .inl (.inr ⟨q, hq⟩)

/-- A step after which `p` is not about to move a directory. -/
theorem Inv.step_idle (h : Inv s) (hlocks : LockInv s') (x : Proc)
    (hprocs : s'.procs = Function.update s.procs p x) (hfs : s'.fs = s.fs)
    (hidle : x.pc ≠ .acting ∨ moves s.fs x.args = false)
    (hx : (∀ d e, Up s' d e → Up s d e) → ProcInv s' x) : Inv s' := by
  have hup : ∀ d e, Up s' d e → Up s d e := by
    intro d e hup
    rcases up_of_step hprocs hfs hup with h | ⟨h1, h2, -, -⟩
    · exact h
    · rcases hidle with h | h
      · exact absurd h1 h
      · rw [h] at h2
        cases h2
  apply h.step_proc hlocks x hprocs hfs
  · exact h.acyclic.mono hup
  · exact fun q _ _ v w hvw => .inl (hup v w hvw)
  · exact hx hup

/-- A step after which `p` is about to put its source under `a.dpip`. -/
theorem Inv.step_pending (h : Inv s) (hlocks : LockInv s') (a : Args)
    (hprocs : s'.procs = Function.update s.procs p ⟨a, .acting⟩) (hfs : s'.fs = s.fs) (hr : Ready s.fs a)
    (hbelow : moves s.fs a = true → ¬ReflTransGen (Up s) a.dpip a.sip)
    (hother : moves s.fs a = true → a.dpip ≠ rootIno → ∀ q, q ≠ p →
      inIncest (s.procs q).pc = false) : Inv s' := by
  have hx : ProcInv s' ⟨a, .acting⟩ := by
    refine ⟨by simp, ?_, by simp [inIncest], by simp [position], by simp⟩
    rw [hfs]
    exact fun _ => hr
  by_cases hm : moves s.fs a = true
  · apply h.step_proc hlocks _ hprocs hfs
    · apply (acyclic_insertEdge h.acyclic (hbelow hm)).mono
      intro d e hup
      rcases up_of_step hprocs hfs hup with h | ⟨-, -, h3, h4⟩
      · exact .inl h
      · exact .inr ⟨h3, h4⟩
    · intro q hq hin v w hup
      rcases up_of_step hprocs hfs hup with h | ⟨-, -, -, h4⟩
      · exact .inl h
      · right
        by_contra hne
        rw [hother hm (fun he => hne (h4.trans he)) q hq] at hin
        cases hin
    · exact hx
  · exact h.step_idle hlocks _ hprocs hfs (.inr (Bool.eq_false_iff.mpr hm)) fun _ => hx

theorem ready_of_pass {fs : Fs} {dip : Option Ino} (ht : IsTree fs) (ha : Admitted a)
    (hv : checks r fs a = .pass dip) : Ready fs { a with dip := dip } := by
  obtain ⟨h1, h2, h3, h4, -, h6, -⟩ := checks_pass hv
  have hdip : fs.lookup a.dpip a.dname = dip ∧ (dip = none ∨ dip = a.dip) := by
    rcases h4 with ⟨h4, rfl⟩ | ⟨h4, h5⟩
    · exact ⟨h4, .inl rfl⟩
    · cases hd : a.dip with
      | none =>
        rw [hd] at h4 h5
        exact ⟨h4.trans h5.symm, .inl h5⟩
      | some d =>
        rw [hd] at h4 h5
        have hone := ht.one_le h3 h4
        rw [Option.filter_some, if_pos (by simpa using hone)] at h5
        exact ⟨h4.trans h5.symm, .inr h5⟩
  refine ⟨h1, h2, h3, hdip.1, h6, ha.sname, ha.dname, ?_, ha.sip_ne_dpip, ?_⟩
  · rcases hdip.2 with rfl | rfl
    · simp
    · exact ha.dip_ne_sip
  · rcases hdip.2 with rfl | rfl
    · simp
    · exact ha.dip_ne_spip

theorem inv_step (h : Inv s) (hs : step r p s = some s') : Inv s' := by
  have hlocks := lockInv_step h.locks hs
  have hp := h.proc p
  cases turn_of_step hs with
  | ends rc hpc =>
    apply h.step_idle hlocks (p := p) ⟨(s.procs p).args, .done rc⟩ rfl rfl (.inl (by simp))
    intro _
    exact ⟨by simp, by simp [inIncest], by simp [inIncest], by simp [position], by simp⟩
  | begins hpc hd hsn hds hsd hdp =>
    apply h.step_idle hlocks (p := p) ⟨(s.procs p).args, _⟩ rfl rfl (.inl (by simp))
    intro _
    exact ⟨fun _ => ⟨hd, hsn, hds, hsd, hdp⟩, by simp [inIncest], by simp [inIncest],
      by simp [position], by simp⟩
  | gotAll hpc =>
    apply h.step_idle hlocks (p := p) ⟨(s.procs p).args, _⟩ rfl rfl (.inl (by simp))
    intro _
    exact ⟨fun _ => hp.admitted (.inr ⟨_, hpc⟩), by simp [inIncest], by simp [inIncest],
      by simp [position], by simp⟩
  | gets i todo hpc hfree =>
    apply h.step_idle hlocks (p := p) ⟨(s.procs p).args, _⟩ rfl rfl (.inl (by simp))
    intro _
    exact ⟨fun _ => hp.admitted (.inr ⟨_, hpc⟩), by simp [inIncest], by simp [inIncest],
      by simp [position], by simp⟩
  | fails e hpc =>
    apply h.step_idle hlocks (p := p) ⟨(s.procs p).args, _⟩ rfl rfl (.inl (by simp))
    intro _
    exact ⟨by simp, by simp [inIncest], by simp [inIncest], by simp [position], by simp⟩
  | moved a hpc hn hsn =>
    apply h.step_idle hlocks (p := p) ⟨a, .start⟩ rfl rfl (.inl (by simp))
    intro _
    exact ⟨by simp, by simp [inIncest], by simp [inIncest], by simp [position], by simp⟩
  | passes dip hpc hv =>
    have hr := ready_of_pass h.tree (hp.admitted (.inl hpc)) hv
    have hfs : (if dip = none then s.unlock (s.procs p).args.dip.toList else s).fs = s.fs := by
      split <;> rfl
    have hprocs : (if dip = none then s.unlock (s.procs p).args.dip.toList else s).procs =
        s.procs := by
      split <;> rfl
    by_cases hc : moves s.fs (s.procs p).args = true ∧ (s.procs p).args.dpip ≠ rootIno
    · apply h.step_idle hlocks (p := p) ⟨{ (s.procs p).args with dip := dip }, .wantMount⟩
      · rw [State.procs_setProc, hprocs, if_pos hc]
      · exact hfs
      · exact .inl (by simp)
      · intro _
        refine ⟨by simp, fun _ => ?_, fun _ => ?_, by simp [position], by simp⟩
        · rw [State.fs_setProc, hfs]
          exact hr
        · rw [State.fs_setProc, hfs]
          exact hc.1
    · apply h.step_pending hlocks (p := p) { (s.procs p).args with dip := dip }
      · rw [State.procs_setProc, hprocs, if_neg hc]
      · exact hfs
      · exact hr
      · intro hm hpath
        have hroot : (s.procs p).args.dpip = rootIno := by
          by_contra hne
          exact hc ⟨hm, hne⟩
        simp only [hroot] at hpath
        rcases ReflTransGen.cases_head hpath with he | ⟨y, hy, -⟩
        · exact h.tree.sip_ne_root hr.snameDots hr.source hr.sname he.symm
        · exact h.root_top hy
      · exact fun hm hne => absurd ⟨hm, hne⟩ hc
  | mounts hpc hfree =>
    apply h.step_idle hlocks (p := p) ⟨(s.procs p).args, _⟩ rfl rfl (.inl (by simp))
    intro _
    have hr := hp.ready (.inl hpc)
    refine ⟨by simp, fun _ => hr, fun _ => hp.moving (.inl hpc), ?_, by simp⟩
    intro i hi
    obtain rfl : (s.procs p).args.dpip = i := Option.some.inj hi
    exact ⟨∅, .inr rfl, ⟨by simp, hr.sip_ne_dpip⟩, by simp⟩
  | walkFails ip e hpc =>
    apply h.step_idle hlocks (p := p) ⟨(s.procs p).args, _⟩ rfl rfl (.inl (by simp))
    intro _
    exact ⟨by simp, by simp [inIncest], by simp [inIncest], by simp [position], by simp⟩
  | walkEnds ip ino hpc hl he =>
    have hin : inIncest (s.procs p).pc = true := by rw [hpc]; rfl
    have hr := hp.ready (.inr (.inl hin))
    obtain ⟨V, hw⟩ := hp.walk ip (by rw [hpc]; rfl)
    apply h.step_pending hlocks (p := p) (s.procs p).args rfl rfl hr
    · exact fun hm => not_below h hw hr hm (h.walk_up hpc hl) he
    · intro _ _ q hq
      rw [Bool.eq_false_iff, Ne, ← h.locks.mount q, (h.locks.mount p).mpr hin]
      exact fun he => hq (Option.some.inj he).symm
  | climbs ip ino hpc hl hroot hsp hsip =>
    have hin : inIncest (s.procs p).pc = true := by rw [hpc]; rfl
    obtain ⟨V, hw⟩ := hp.walk ip (by rw [hpc]; rfl)
    apply h.step_idle hlocks (p := p) ⟨(s.procs p).args, _⟩ rfl rfl (.inl (by simp))
    intro hup
    refine ⟨by simp, fun _ => hp.ready (.inr (.inl hin)), fun _ => hp.moving (.inr hin), ?_,
      by simp⟩
    intro i hi
    obtain rfl : ino = i := Option.some.inj hi
    refine ⟨insert ip V, ?_, ?_, ?_⟩
    · exact .inl (hw.start.elim (Set.mem_insert_of_mem ip) fun he => he ▸ Set.mem_insert _ V)
    · exact ⟨fun hmem => hmem.elim hw.unseen.2 hw.unseen.1, Ne.symm hsip⟩
    · rintro v (rfl | hv) w hvw
      · exact .inr (.inl (h.walk_up hpc hl w (hup v w hvw)))
      · rcases hw.closed v hv w (hup v w hvw) with h1 | h1 | h1
        · exact .inl (Set.mem_insert_of_mem ip h1)
        · exact .inl (h1 ▸ Set.mem_insert _ V)
        · exact .inr (.inr h1)
  | getsAncestor ino hpc hfree =>
    have hin : inIncest (s.procs p).pc = true := by rw [hpc]; rfl
    apply h.step_idle hlocks (p := p) ⟨(s.procs p).args, _⟩ rfl rfl (.inl (by simp))
    intro hup
    refine ⟨by simp, fun _ => hp.ready (.inr (.inl hin)), fun _ => hp.moving (.inr hin), ?_,
      by simp⟩
    intro i hi
    obtain rfl : ino = i := Option.some.inj hi
    obtain ⟨V, hw⟩ := hp.walk ino (by rw [hpc]; rfl)
    exact ⟨V, hw.mono fun v w hvw => .inl (hup v w hvw)⟩
  | acts hpc =>
    have hr := hp.ready (.inr (.inr hpc))
    have hinc : moves s.fs (s.procs p).args = true →
        ¬ReflTransGen (Parent s.fs) (s.procs p).args.dpip (s.procs p).args.sip := by
      intro hm hpath
      have hpend : Up s (s.procs p).args.sip (s.procs p).args.dpip := .inr ⟨p, hpc, hm, rfl, rfl⟩
      exact h.acyclic _ (TransGen.head' hpend (ReflTransGen.mono (fun _ _ => .inl) _ _ hpath))
    obtain ⟨htree, hpanic, hframe, hparent⟩ := act_spec (r := r) h.tree hr hinc
    have hpc' := act_pc r s.fs (s.procs p).args
    generalize act r s.fs (s.procs p).args = out at *
    obtain ⟨fs', pc'⟩ := out
    have hdone : ∃ rc, pc' = .done rc := hpc'.resolve_right hpanic
    obtain ⟨rc, rfl⟩ := hdone
    have hup : ∀ d e, Up (({ s with fs := fs' }.unlock (lockList (s.procs p).args)).goto p
        (.done rc)) d e → Up s d e := by
      rintro d e (hpar | ⟨q, hq⟩)
      · rcases hparent d e hpar with h1 | ⟨h1, h2, h3⟩
        · exact .inl h1
        · exact .inr ⟨p, hpc, h1, h2, h3⟩
      · by_cases hqp : q = p
        · subst hqp
          simp [Pending, State.goto] at hq
        · obtain ⟨h1, h2, h3⟩ := hq
          simp only [State.goto, State.procs_setProc, State.procs_unlock, State.fs_setProc,
            State.fs_unlock, Function.update_of_ne hqp] at h1 h2 h3
          rw [moves_congr hframe.1] at h2
          exact .inr ⟨q, h1, h2, h3⟩
    refine ⟨hlocks, htree, h.acyclic.mono hup, ?_⟩
    intro q
    by_cases hqp : q = p
    · subst hqp
      simp only [State.goto, State.procs_setProc, Function.update_self]
      exact ⟨by simp, by simp [inIncest], by simp [inIncest], by simp [position], by simp⟩
    · have hq := h.proc q
      simp only [State.goto, State.procs_setProc, State.procs_unlock, Function.update_of_ne hqp]
      refine ⟨hq.admitted, ?_, ?_, ?_, hq.noPanic⟩
      · intro hstate
        apply (hq.ready hstate).congr hframe.1
        intro i hi'
        have hi : i ∈ lockList (s.procs q).args := by
          rw [mem_lockList]
          simp only [List.mem_cons, List.not_mem_nil, or_false] at hi'
          exact hi'.elim .inl fun h => .inr (.inl h)
        have hiq : i ∈ held (s.procs q) := by
          unfold held
          rcases hstate with h1 | h1 | h1
          · simpa [h1] using hi
          · unfold inIncest at h1
            split at h1
            next hpcq => simp [hpcq, hi]
            next hpcq => simpa [hpcq] using hi
            next => cases h1
          · simpa [h1] using hi
        have hnot : i ∉ lockList (s.procs p).args := by
          intro hip
          have hheld : i ∈ held (s.procs p) := by simpa [held, hpc] using hip
          exact hqp (h.locks.exclusive hiq hheld)
        rw [mem_lockList] at hnot
        push Not at hnot
        exact hframe.2 i hnot.1 hnot.2.2.1 hnot.2.1 hnot.2.2.2
      · intro hstate
        rw [State.fs_setProc, State.fs_unlock, moves_congr hframe.1]
        exact hq.moving hstate
      · intro i hi
        obtain ⟨V, hw⟩ := hq.walk i hi
        exact ⟨V, hw.mono fun v w hvw => .inl (hup v w hvw)⟩

end Aix413.Rename.Incest
