import Aix413.Lockctl.Granting
import Aix413.Lockctl.Reclock

namespace Aix413.Lockctl.Turns

open LockTable Flckadj LockMap LockPool Placement ScanLemmas Adjust Edits Granting Reclock

/-- A call whose range is converted. -/
structure Converted (c : Call) : Prop where
  start_nonneg : 0 ≤ c.lckdat.lStart
  start_le_end : c.lckdat.lStart ≤ c.lckdat.lEnd

theorem convoff_seekSet {size offset : Int} {e e' : Eflock}
    (h : convoff size offset e .seekSet = .ok e') : 0 ≤ e'.lStart ∧ e'.owner = e.owner := by
  unfold convoff at h
  split at h
  · simp at h
  next start _ =>
    split at h
    · simp at h
    next hs =>
      simp only [Except.ok.injEq] at h
      subst h
      exact ⟨by simp only; omega, rfl⟩

theorem convert_converted {c c' : Call} (h : convert c = .ok c') : Converted c' := by
  unfold convert at h
  split at h
  · simp at h
  next ld hld =>
    have hs := (convoff_seekSet hld).1
    split at h
    · simp at h
    · split at h
      · simp at h
      next he =>
        simp only [Except.ok.injEq] at h
        subst h
        exact ⟨hs, by simp only; omega⟩

/-- The conversion only touches the range. -/
theorem convert_eq {c c' : Call} (h : convert c = .ok c') :
    c'.gp = c.gp ∧ c'.cmd = c.cmd ∧ c'.retryFcn = c.retryFcn ∧ c'.retryId = c.retryId ∧
      c'.lckdat.owner = c.lckdat.owner := by
  unfold convert at h
  split at h
  · simp at h
  next ld hld =>
    have ho := (convoff_seekSet hld).2
    split at h
    · simp at h
    · split at h
      · simp at h
      · simp only [Except.ok.injEq] at h
        subst h
        exact ⟨rfl, rfl, rfl, rfl, ho⟩

/-- The NFS lock daemon takes a request back: no lock is touched. -/
def Cancels (c : Call) : Prop :=
  c.lckdat.lType = .unlck ∧ c.lckdat.lVfs = mntNfs ∧ c.retryId ≠ 0

/-- All that a turn of the loop of `common_reclock` can do. -/
inductive Turned (n : Nat) (m : Mem) (l : List Filock) (c : Call) (w : Whence) : Turn → Prop
  | idle {ld : Eflock} {rv : Option Errno} (h : c.cmd.setflck = true → rv ≠ none) :
      Turned n m l c w (.ret m l ld rv)
  | adjust {i : Option Nat} (hr : Request c.lckdat) (ha : Applies l c.lckdat i) :
      Turned n m l c w (adjustTurn (flckadj m l i c.lckdat))
  | cancel (hs : c.cmd.setflck = true) (hc : Cancels c) :
      Turned n m l c w (.ret (cancelNfs m c.lckdat) l c.lckdat none)
  | retry {f : Filock} {m' : Mem} {l' : List Filock} {sf : Nat} (hr : c.retryFcn.isSome)
      (ht : c.lckdat.lType = .rdlck ∨ c.lckdat.lType = .wrlck)
      (hb : (blocked l c.lckdat).1 = some f) (hd : deadflck n m f c.lckdat = some false)
      (hq : enqueue m l c.lckdat f c.retryFcn = some (m', l', sf)) :
      Turned n m l c w (.ret m' l' c.lckdat (some .eagain))
  | sleep {f : Filock} {m' : Mem} {l' : List Filock} {sf : Nat} (hr : c.retryFcn = none)
      (hs : c.cmd.slpflck = true) (ht : c.lckdat.lType = .rdlck ∨ c.lckdat.lType = .wrlck)
      (hb : (blocked l c.lckdat).1 = some f) (hd : deadflck n m f c.lckdat = some false)
      (hq : enqueue m l c.lckdat f none = some (m', l', sf)) :
      Turned n m l c w
        (.sleep { m' with sleepers := ⟨f.addr, sf, c, w, false⟩ :: m'.sleepers } l')

section Turn

variable {n : Nat} {m : Mem} {l : List Filock} {c : Call} {w : Whence} {x : Turn}

theorem blockedTurn_turned {f : Filock} (ht : c.lckdat.lType = .rdlck ∨ c.lckdat.lType = .wrlck)
    (hb : (blocked l c.lckdat).1 = some f) (h : blockedTurn n m l c w f = some x) :
    Turned n m l c w x := by
  unfold blockedTurn at h
  split at h
  next hor =>
    split at h
    · simp at h
    · obtain rfl := Option.some.inj h
      exact Turned.idle fun _ => by simp
    next hd =>
      split at h
      · obtain rfl := Option.some.inj h
        exact Turned.idle fun _ => by simp
      next m' l' sf hq =>
        split at h
        next hr =>
          obtain rfl := Option.some.inj h
          exact Turned.retry hr ht hb hd hq
        next hr =>
          obtain rfl := Option.some.inj h
          have hr' : c.retryFcn = none := by simpa using hr
          rw [hr'] at hq
          exact Turned.sleep hr' (hor.resolve_left hr) ht hb hd hq
  next =>
    split at h
    next =>
      obtain rfl := Option.some.inj h
      exact Turned.idle fun _ => by simp
    next hset =>
      obtain rfl := Option.some.inj h
      exact Turned.idle fun hs => absurd hs hset

theorem turn_turned (hl : LockList l) (hc : Converted c) (h : turn n m l c w = some x) :
    Turned n m l c w x := by
  have hlock : c.lckdat.lType = .rdlck ∨ c.lckdat.lType = .wrlck → ∀ y,
      (∀ f i, blocked l c.lckdat = (some f, i) → y = blockedTurn n m l c w f) →
      (∀ i, blocked l c.lckdat = (none, i) →
        y = if c.cmd.setflck then some (adjustTurn (flckadj m l i c.lckdat))
          else some (.ret m l { c.lckdat with lType := .unlck } none)) →
      y = some x → Turned n m l c w x := by
    intro ht y hsome hnone h
    have hr : Request c.lckdat :=
      ⟨hc.start_nonneg, hc.start_le_end, by rcases ht with ht | ht <;> simp [ht]⟩
    rcases hb : blocked l c.lckdat with ⟨_ | f, i⟩
    · have ha := applies_lock hl ht (by rw [hb])
      rw [hb] at ha
      rw [hnone i hb] at h
      split at h
      · obtain rfl := Option.some.inj h
        exact Turned.adjust hr ha
      next hset =>
        obtain rfl := Option.some.inj h
        exact Turned.idle fun hs => absurd hs hset
    · rw [hsome f i hb] at h
      exact blockedTurn_turned ht (by rw [hb]) h
  unfold turn at h
  cases ht : c.lckdat.lType with
  | rdlck =>
    rw [ht] at h
    exact hlock (Or.inl ht) _ (fun f i hb => by simp only [hb]) (fun i hb => by simp only [hb]) h
  | wrlck =>
    rw [ht] at h
    exact hlock (Or.inr ht) _ (fun f i hb => by simp only [hb]) (fun i hb => by simp only [hb]) h
  | unlck =>
    rw [ht] at h
    simp only at h
    split at h
    next hset =>
      split at h
      next hcan =>
        obtain rfl := Option.some.inj h
        exact Turned.cancel hset ⟨ht, hcan⟩
      next =>
        obtain rfl := Option.some.inj h
        exact Turned.adjust ⟨hc.start_nonneg, hc.start_le_end, by simp [ht]⟩ (applies_unlock ht)
    next hset =>
      obtain rfl := Option.some.inj h
      exact Turned.idle fun hs => absurd hs hset
  | invalid =>
    rw [ht] at h
    obtain rfl := Option.some.inj h
    exact Turned.idle fun _ => by simp

end Turn

end Aix413.Lockctl.Turns
