import Aix413.Quota.OwnerChange

namespace Aix413.Quota

open Call

variable {c : Call} {s s' : Fs} {t : QType} {p q : Nat}

/-- The process has no dquot locked, the inode's pointers are references to the
dquots of its owners, which are charged at least what it holds. -/
structure Ready (c : Call) (s : Fs) : Prop where
  held : ∀ q, s.held q = false
  refs : ∀ q, refs s.iDquot q ≤ (s.dquots q).dqCnt
  old : ∀ t q, s.iDquot t = some q → (s.dquots q).dqType = t ∧ (s.dquots q).dqId = c.oldid t
  new : ∀ t q, c.ndp t = some q → (s.dquots q).dqType = t ∧ (s.dquots q).dqId = c.newid t
  charged : ∀ t q, c.newid t ≠ c.oldid t → s.iDquot t = some q → Charged c (s.dquots q)

theorem Ready.ne (h : Ready c s) (hids : c.newid t ≠ c.oldid t) (q : Nat)
    (ho : s.iDquot t = some q) : c.ndp t ≠ some q := fun hn =>
  hids (((h.new t q hn).2).symm.trans (h.old t q ho).2)

theorem Ready.type (h : Ready c s) (hi : Involved c s.iDquot t q) : (s.dquots q).dqType = t :=
  hi.2.elim (fun ho => (h.old t q ho).1) fun hn => (h.new t q hn).1

/-- No dquot is left locked and each is counted as often as before but for the
inode's pointers. -/
structure Settled (s s' : Fs) : Prop where
  held : ∀ q, s'.held q = false
  cnt : ∀ q, (s'.dquots q).dqCnt + refs s.iDquot q = (s.dquots q).dqCnt + refs s'.iDquot q

/-- An error is found before usage is changed. -/
def Refused (c : Call) (s : Fs) : Prop :=
  (∃ t, (c.got t).rc ≠ none) ∨ c.crUid ≠ 0 ∧ ∃ t q, c.newid t ≠ c.oldid t ∧ c.ndp t = some q ∧
    refuses c (s.dquots q) = true

/-- Nothing is done for an inode without dquots or without a mode. -/
def Passed (c : Call) (s : Fs) : Prop := (∀ t, s.iDquot t = none) ∨ c.iMode = 0

/-- When usage is conserved: where nothing is done there is no dquot to change, and
where usage is changed the counts come out right. -/
def Holds (c : Call) (s : Fs) : Prop :=
  (Passed c s → ∀ t q, ¬Involved c s.iDquot t q) ∧
    (¬Passed c s → Refused c s ∨ ∀ t q, c.newid t ≠ c.oldid t →
      (s.iDquot t = some q → OldOk c (s.dquots q)) ∧ (c.ndp t = some q → NewOk c (s.dquots q)))

/-! ## Where nothing is done -/

/-- The state in which the dquots of both types are locked. -/
structure Locked (c : Call) (s l : Fs) : Prop where
  dquots : ∀ q, ∃ n, l.dquots q = { s.dquots q with dqCnt := n }
  cnt : ∀ q, (l.dquots q).dqCnt = (s.dquots q).dqCnt + refs c.ndp q
  held : ∀ q, l.held q = (decide (Involved c s.iDquot .usrquota q) ||
    decide (Involved c s.iDquot .grpquota q))
  iDquot : l.iDquot = s.iDquot

theorem Locked.same (h : Locked c s s') : SameUsage s s' := by
  intro q
  obtain ⟨n, hn⟩ := h.dquots q
  rw [hn]
  exact ⟨rfl, rfl, rfl⟩

theorem Locked.refused (hr : Ready c s) (h : Locked c s s') (he : ∀ t, (c.got t).rc = none) :
    (checkAll c s').1 = true ↔ Refused c s := by
  have hne : ∀ q, c.ndp .grpquota = some q → c.ndp .usrquota ≠ some q := by
    intro q hg hu
    have hty := (hr.new _ q hg).1
    rw [(hr.new _ q hu).1] at hty
    cases hty
  have hsame : ∀ q, refuses c (s'.dquots q) = refuses c (s.dquots q) := by
    intro q
    obtain ⟨n, hn⟩ := h.dquots q
    rw [hn, refuses_setCnt]
  rw [checkAll_fst c s' hne]
  simp only [hsame]
  exact ⟨.inr, fun hx => hx.resolve_left fun ⟨t, ht⟩ => ht (he t)⟩

theorem TypeChanged.rest (h : TypeChanged c t s s') (hi : ¬Involved c s.iDquot t q) :
    (s'.dquots q).usage = (s.dquots q).usage := by
  rw [h.usage]
  by_cases hids : c.newid t = c.oldid t
  · rw [if_pos hids]
  · rw [if_neg hids, if_neg fun ho => hi ⟨hids, .inl ho⟩, if_neg fun hn => hi ⟨hids, .inr hn⟩]

theorem TypeChanged.old (h : TypeChanged c t s s') (hids : c.newid t ≠ c.oldid t)
    (ho : s.iDquot t = some q) : (s'.dquots q).usage = (takeFrom c (s.dquots q)).usage := by
  rw [h.usage, if_neg hids, if_pos ho]

theorem TypeChanged.new (h : TypeChanged c t s s') (hids : c.newid t ≠ c.oldid t)
    (ho : s.iDquot t ≠ some q) (hn : c.ndp t = some q) :
    (s'.dquots q).usage = (giveTo c (s.dquots q)).usage := by
  rw [h.usage, if_neg hids, if_neg ho, if_pos hn]

/-- The superuser gives an inode of some fragments of 512 bytes to user 2. -/
def give (fragments : UInt32) : Call where
  iMode := 1
  iNblocks := fragments
  iFperpage := 8
  fragments := by decide
  oldid := fun _ => 1
  newid := fun | .usrquota => 2 | .grpquota => 1
  crUid := 0
  got := fun | .usrquota => .ok 1 | .grpquota => .ok 2
  time := 0
  jmBtime := fun _ => 0
  jmItime := fun _ => 0

/-- The dquots of users 1 and 2 and of the group, each charged with two blocks. -/
def twoBlocks : Fs where
  dquots := fun q =>
    { dqType := if q = 2 then .grpquota else .usrquota
      dqId := if q = 1 then 2 else 1
      dqCnt := 1
      dqBhardlimit := 0, dqBsoftlimit := 0, dqCurblocks := 2
      dqIhardlimit := 0, dqIsoftlimit := 0, dqCurinodes := 1
      dqBtime := 0, dqItime := 0, dqMod := false, dqBlks := false, dqInods := false }
  held := fun _ => false
  iDquot := fun | .usrquota => some 0 | .grpquota => some 2

end Aix413.Quota
