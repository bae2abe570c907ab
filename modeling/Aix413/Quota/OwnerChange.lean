import Aix413.Quota.Ownership

namespace Aix413.Quota

open Call

variable {c : Call} {s s' : Fs} {t : QType} {p q : Nat} {o : Option Nat} {f : QType → Option Nat}

/-! ## Locks and references -/

/-- The dquots are for the same ids and have the same usage. -/
def SameUsage (s s' : Fs) : Prop :=
  ∀ q, (s'.dquots q).usage = (s.dquots q).usage ∧ (s'.dquots q).dqType = (s.dquots q).dqType ∧
    (s'.dquots q).dqId = (s.dquots q).dqId

theorem SameUsage.refl (s : Fs) : SameUsage s s := fun _ => ⟨rfl, rfl, rfl⟩

theorem SameUsage.trans {s'' : Fs} (h : SameUsage s s') (h' : SameUsage s' s'') :
    SameUsage s s'' := fun q =>
  ⟨(h' q).1.trans (h q).1, (h' q).2.1.trans (h q).2.1, (h' q).2.2.trans (h q).2.2⟩

/-- How often the dquot is pointed to. -/
def one (o : Option Nat) (q : Nat) : Nat := if o = some q then 1 else 0

def refs (f : QType → Option Nat) (q : Nat) : Nat := one (f .usrquota) q + one (f .grpquota) q

/-- `s'` is `s` with other counts of references. -/
structure Counted (s s' : Fs) (cnt : Nat → Nat) : Prop where
  same : SameUsage s s'
  held : s'.held = s.held
  iDquot : s'.iDquot = s.iDquot
  cnt : ∀ q, (s'.dquots q).dqCnt = cnt q

/-- The dquots that a change of owner of the type is about. -/
def Involved (c : Call) (f : QType → Option Nat) (t : QType) (q : Nat) : Prop :=
  c.newid t ≠ c.oldid t ∧ (f t = some q ∨ c.ndp t = some q)

instance : Decidable (Involved c f t q) := inferInstanceAs (Decidable (_ ∧ _))

theorem Counted.trans {s'' : Fs} {n m : Nat → Nat} (h : Counted s s' n)
    (h' : Counted s' s'' m) : Counted s s'' m :=
  ⟨h.same.trans h'.same, h'.held.trans h.held, h'.iDquot.trans h.iDquot, h'.cnt⟩

/-- The limits of a new owner are hit. -/
def refuses (c : Call) (d : Dquot) : Bool :=
  let sendmsg := c.newid .usrquota ≠ 0
  (ckdq c sendmsg d).1 || (ckiq c sendmsg (ckdq c sendmsg d).2).1

theorem refuses_setCnt (c : Call) (d : Dquot) (n : Nat) :
    refuses c { d with dqCnt := n } = refuses c d := by
  have hb : ∀ m, ckdq c m { d with dqCnt := n } =
      ((ckdq c m d).1, { (ckdq c m d).2 with dqCnt := n }) := by
    intro m
    unfold ckdq
    simp only
    split
    next => cases m <;> rfl
    next =>
      split
      next =>
        split
        next => rfl
        next =>
          split
          next => cases m <;> rfl
          next => rfl
      next => rfl
  have hi : ∀ m d, (ckiq c m { d with dqCnt := n }).1 = (ckiq c m d).1 := by
    intro m d
    unfold ckiq
    simp only
    split
    next => rfl
    next =>
      split
      next =>
        split
        next => rfl
        next => split <;> rfl
      next => rfl
  unfold refuses
  simp only [hb, hi]

theorem checkType_fst (c : Call) (t : QType) (s : Fs) :
    (checkType c t s).1 = true ↔
      c.newid t ≠ c.oldid t ∧ ∃ p, c.ndp t = some p ∧ refuses c (s.dquots p) = true := by
  unfold checkType refuses
  split
  next h => simp [h]
  next h =>
    split
    next hn => simp [hn]
    next p hn =>
      simp only
      have hor : ∀ m, ((c.newid t ≠ c.oldid t ∧ ∃ q, some p = some q ∧
          ((ckdq c m (s.dquots q)).1 || (ckiq c m (ckdq c m (s.dquots q)).2).1) = true) ↔
          (ckdq c m (s.dquots p)).1 = true ∨ (ckiq c m (ckdq c m (s.dquots p)).2).1 = true) := by
        intro m
        simp [h]
      rw [hn, hor]
      split
      next hb => exact ⟨fun _ => .inl hb, fun _ => rfl⟩
      next hb => exact ⟨fun hi => .inr hi, fun ho => ho.resolve_left hb⟩

theorem checkType_dquots (c : Call) (t : QType) (s : Fs) {q : Nat} (hq : c.ndp t ≠ some q) :
    (checkType c t s).2.dquots q = s.dquots q := by
  unfold checkType
  split
  next => rfl
  next =>
    split
    next => rfl
    next p hn =>
      have hqp : q ≠ p := by
        rintro rfl
        exact hq hn
      simp only
      split
      next => exact Function.update_of_ne hqp ..
      next => exact (Function.update_of_ne hqp ..).trans (Function.update_of_ne hqp ..)

theorem checkAll_fst (c : Call) (s : Fs)
    (hne : ∀ q, c.ndp .grpquota = some q → c.ndp .usrquota ≠ some q) :
    (checkAll c s).1 = true ↔ c.crUid ≠ 0 ∧ ∃ t p, c.newid t ≠ c.oldid t ∧ c.ndp t = some p ∧
      refuses c (s.dquots p) = true := by
  have hu := checkType_fst c .usrquota s
  have hg := checkType_fst c .grpquota (checkType c .usrquota s).2
  have hsame : ∀ p, c.ndp .grpquota = some p →
      (checkType c .usrquota s).2.dquots p = s.dquots p :=
    fun p hp => checkType_dquots c .usrquota s (hne p hp)
  unfold checkAll
  split
  next h0 => simp [h0]
  next h0 =>
    simp only
    constructor
    · intro h
      refine ⟨h0, ?_⟩
      split at h
      next hu' =>
        obtain ⟨hc, p, hp, hr⟩ := hu.mp hu'
        exact ⟨_, p, hc, hp, hr⟩
      next =>
        obtain ⟨hc, p, hp, hr⟩ := hg.mp h
        exact ⟨_, p, hc, hp, hsame p hp ▸ hr⟩
    · rintro ⟨-, t, p, hc, hp, hr⟩
      split
      next hu' => exact hu'
      next hu' =>
        cases t with
        | usrquota => exact absurd (hu.mpr ⟨hc, p, hp, hr⟩) hu'
        | grpquota => exact hg.mpr ⟨hc, p, hp, (hsame p hp).symm ▸ hr⟩

/-! ## The dquots of a type -/

/-- What a change of owner of the type does to usage and to references. -/
structure TypeChanged (c : Call) (t : QType) (s s' : Fs) : Prop where
  usage : ∀ q, (s'.dquots q).usage =
    if c.newid t = c.oldid t then (s.dquots q).usage
    else if s.iDquot t = some q then (takeFrom c (s.dquots q)).usage
    else if c.ndp t = some q then (giveTo c (s.dquots q)).usage
    else (s.dquots q).usage
  held : ∀ q, s'.held q = (s.held q && !decide (Involved c s.iDquot t q))
  iDquot : s'.iDquot =
    if c.newid t = c.oldid t then s.iDquot else Function.update s.iDquot t (c.ndp t)
  cnt : ∀ q, (s'.dquots q).dqCnt =
    (s.dquots q).dqCnt - one (if c.newid t = c.oldid t then c.ndp t else s.iDquot t) q

end Aix413.Quota
