import Aix413.Lockctl.Turns

namespace Aix413.Lockctl.RecordLocks

open LockTable Flckadj LockMap LockPool Placement ScanLemmas Adjust Edits Granting Reclock Turns
open Aix413.Lib.RangeMap

/-- A request that is served with success is applied by `flckadj`. -/
theorem turn_applied {n : Nat} {m m' : Mem} {l l' : List Filock} {c : Call} {w : Whence}
    {ld : Eflock} (hl : LockList l) (hc : Converted c) (hset : c.cmd.setflck = true)
    (hn : ¬ Cancels c) (h : turn n m l c w = some (.ret m' l' ld none)) :
    Request c.lckdat ∧ ∃ i, Applies l c.lckdat i ∧ m' = (flckadj m l i c.lckdat).mem ∧
      l' = (flckadj m l i c.lckdat).list ∧ (flckadj m l i c.lckdat).rc = true := by
  have ht := turn_turned hl hc h
  generalize hx : Turn.ret m' l' ld none = x at ht
  cases ht with
  | idle hrv =>
    simp only [Turn.ret.injEq] at hx
    exact absurd hx.2.2.2.symm (hrv hset)
  | @adjust i hr ha =>
    simp only [adjustTurn, Turn.ret.injEq] at hx
    obtain ⟨hm, hl', _, hrc⟩ := hx
    refine ⟨hr, i, ha, hm, hl', ?_⟩
    by_contra hne
    simp [hne] at hrc
  | cancel _ hcan => exact absurd hcan hn
  | retry => simp at hx
  | sleep => simp at hx

/-- A call on the gnode that is served with success. -/
structure Served (gp : Nat) (st : State) (c : Call) (st' : State) : Prop where
  gnode : c.gp = gp
  converted : Converted c
  setflck : c.cmd.setflck = true
  uncancelled : ¬ Cancels c
  serve : ∃ n w ld, serve n st c w = some (st', .returned ld none)

/-- The states of a gnode and of the lock table after a sequence of successful
requests on the gnode. In between, whatever happens on other gnodes and on the
sleep list may change the table, as long as the entries on the gnode's list
stay its own. -/
inductive Reached (gp : Nat) : State → Prop
  | start {st : State} (hp : Pool st.mem (st.gnodes gp)) (hl : st.gnodes gp = []) : Reached gp st
  | request {st st' : State} {c : Call} (h : Reached gp st) (hs : Served gp st c st') :
      Reached gp st'
  | other {st st' : State} (h : Reached gp st) (hp : Pool st'.mem (st'.gnodes gp))
      (hl : (st'.gnodes gp).map Filock.set = (st.gnodes gp).map Filock.set) : Reached gp st'

theorem served_adjusted {gp : Nat} {st st' : State} {c : Call}
    (hp : Pool st.mem (st.gnodes gp)) (hl : LockList (st.gnodes gp)) (h : Served gp st c st') :
    Pool st'.mem (st'.gnodes gp) ∧ Adjusted (st.gnodes gp) c.lckdat (st'.gnodes gp) := by
  obtain ⟨rfl, hc, hset, hn, n, w, ld, hs⟩ := h
  unfold serve at hs
  cases ht : turn n st.mem (st.gnodes c.gp) c w with
  | none => simp [ht] at hs
  | some t =>
    cases t with
    | sleep m l => simp [ht] at hs
    | ret m l ld' rv =>
      simp only [ht, Option.some.injEq, Prod.mk.injEq, Reply.returned.injEq] at hs
      obtain ⟨rfl, _, rfl⟩ := hs
      obtain ⟨hr, i, ha, rfl, rfl, hrc⟩ := turn_applied hl hc hset hn ht
      have hd := flckadj_done hp hl hr ha
      simp only [Function.update_self]
      exact ⟨edited_pool hd.edited hp, hd.adjusted hrc⟩

/-- The list of the gnode is well formed after any sequence of requests. -/
theorem reached_lockList {gp : Nat} {st : State} (h : Reached gp st) :
    Pool st.mem (st.gnodes gp) ∧ LockList (st.gnodes gp) := by
  induction h with
  | start hp hl => exact ⟨hp, hl ▸ lockList_nil⟩
  | request _ hs ih =>
    have ha := served_adjusted ih.1 ih.2 hs
    exact ⟨ha.1, ha.2.wf⟩
  | other _ hp hl ih => exact ⟨hp, lockList_of_sets ih.2 hl⟩

/-- Locks of one owner do not meet, and are not adjacent when of one type. -/
def OwnApart (l : List Filock) : Prop :=
  ∀ f ∈ l, ∀ g ∈ l, f ≠ g → f.set.owner = g.set.owner →
    (f.set.lEnd < g.set.lStart ∨ g.set.lEnd < f.set.lStart) ∧
    (f.set.lType = g.set.lType →
      f.set.lEnd + 1 < g.set.lStart ∨ g.set.lEnd + 1 < f.set.lStart)

/-- Locks of different owners that overlap do not conflict. -/
def NoConflict (l : List Filock) : Prop :=
  ∀ f ∈ l, ∀ g ∈ l, f.set.owner ≠ g.set.owner → f.set.lStart ≤ g.set.lEnd →
    g.set.lStart ≤ f.set.lEnd → conflicts f.set g.set = false

theorem lockList_pair {l : List Filock} (h : LockList l) {f g : Filock} (hf : f ∈ l) (hg : g ∈ l)
    (hne : f ≠ g) : Compatible f.set g.set := by
  obtain ⟨A, B, rfl⟩ := List.append_of_mem hg
  have hm : f ∈ A ++ B := by simpa [hne] using hf
  exact lockList_compatible h hm

theorem lockList_ownApart {l : List Filock} (h : LockList l) : OwnApart l := by
  intro f hf g hg hne ho
  rcases (lockList_pair h hf hg hne).apart ho with ⟨h1, h2⟩ | ⟨h1, h2⟩
  · exact ⟨Or.inl h1, fun ht => Or.inl (h2 ht)⟩
  · exact ⟨Or.inr h1, fun ht => Or.inr (h2 ht)⟩

theorem lockList_noConflict {l : List Filock} (h : LockList l) : NoConflict l := by
  intro f hf g hg ho h1 h2
  have hne : f ≠ g := fun he => ho (congrArg _ (congrArg _ he))
  obtain ⟨hft, hgt⟩ := (lockList_pair h hf hg hne).agree ho h1 h2
  simp [conflicts, hft, hgt]

/-- `blocked` finds a lock exactly when one stands in the way. -/
theorem blocked_iff {l : List Filock} {r : Eflock} (hl : LockList l) (hr : r.lStart ≤ r.lEnd) :
    (blocked l r).1.isSome ↔ ∃ f ∈ l, Blocks r f.set := by
  constructor
  · intro h
    obtain ⟨f, hf⟩ := Option.isSome_iff_exists.mp h
    exact ⟨f, blocked_some hr hf⟩
  · rintro ⟨f, hf, hb⟩
    cases hn : (blocked l r).1 with
    | none => exact absurd hb (blocked_none hl hn f hf)
    | some g => rfl

/-- The lock list of a gnode after any sequence of successful requests, and
what the next one does to it. -/
theorem record_locks {gp : Nat} {st : State} (h : Reached gp st) :
    (st.gnodes gp).Pairwise (fun f g => f.set.lStart ≤ g.set.lStart) ∧
    OwnApart (st.gnodes gp) ∧ NoConflict (st.gnodes gp) ∧
    (∀ r : Eflock, r.lStart ≤ r.lEnd →
      ((blocked (st.gnodes gp) r).1.isSome ↔ ∃ f ∈ st.gnodes gp, Blocks r f.set) ∧
      ∀ f, (blocked (st.gnodes gp) r).1 = some f → f ∈ st.gnodes gp ∧ Blocks r f.set) ∧
    ∀ c st', Served gp st c st' →
      lockAt (st'.gnodes gp) c.lckdat.owner =
        overwrite (lockAt (st.gnodes gp) c.lckdat.owner) c.lckdat.lStart c.lckdat.lEnd
          (requested c.lckdat.lType) ∧
      ∀ o, o ≠ c.lckdat.owner → lockAt (st'.gnodes gp) o = lockAt (st.gnodes gp) o := by
  obtain ⟨hp, hl⟩ := reached_lockList h
  refine ⟨lockList_sorted hl, lockList_ownApart hl, lockList_noConflict hl, ?_, ?_⟩
  · exact fun r hr => ⟨blocked_iff hl hr, fun f hf => blocked_some hr hf⟩
  · intro c st' hs
    have ha := (served_adjusted hp hl hs).2
    refine ⟨ha.bytes, fun o ho => ?_⟩
    unfold lockAt
    rw [ha.others o ho]

theorem flckinit_pool (gp : Nat) : Pool flckinit.mem (flckinit.gnodes gp) := by
  have hp : pool flckinit.mem (flckinit.gnodes gp) = (List.range nfloxMin).reverse := by
    simp [pool, flckinit]
  refine ⟨?_, ?_, ?_⟩
  · rw [hp]
    exact List.nodup_reverse.mpr List.nodup_range
  · intro a ha
    rw [hp, List.mem_reverse] at ha
    exact List.mem_range.mp ha
  · simp [flckinit, nfloxMin, nfloxMax]

/-- A write lock on ten bytes, asked for by process 1. -/
def firstCall : Call :=
  ⟨0, 100, 0, ⟨.wrlck, .seekSet, 0, 1, 3, 10, 19⟩, ⟨true, true, false⟩, none, 0⟩

def firstState : State := ((serve 0 flckinit firstCall .seekSet).map Prod.fst).getD flckinit

theorem firstState_served : Served 0 flckinit firstCall firstState :=
  ⟨rfl, ⟨by decide, by decide⟩, rfl, by simp [Cancels, firstCall], 0, .seekSet, _, rfl⟩

theorem record_locks_first :
    Reached 0 firstState ∧ NoConflict (firstState.gnodes 0) ∧
      lockAt (firstState.gnodes 0) (1, 0, 3) = overwrite (fun _ => none) 10 19 (some .wrlck) := by
  have h₀ : Reached 0 flckinit := Reached.start (flckinit_pool 0) rfl
  have h₁ : Reached 0 firstState := Reached.request h₀ firstState_served
  refine ⟨h₁, (record_locks h₁).2.2.1, ?_⟩
  exact ((record_locks h₀).2.2.2.2 firstCall firstState firstState_served).1

end Aix413.Lockctl.RecordLocks
