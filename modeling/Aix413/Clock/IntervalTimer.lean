import Mathlib.Logic.Relation
import Mathlib.Tactic.Ring
import Mathlib.Tactic.Linarith

namespace Aix413.Clock

/-- `NS_PER_SEC`. -/
def nsPerSec : Int := 1000000000

structure Timestruc where
  sec : Nat
  nsec : Int
deriving DecidableEq

structure Itimerstruc where
  interval : Timestruc
  value : Timestruc
deriving DecidableEq

namespace Timestruc

/-- `ntimerisset`. -/
def isSet (t : Timestruc) : Prop := t.sec ≠ 0 ∨ t.nsec ≠ 0

instance (t : Timestruc) : Decidable t.isSet := inferInstanceAs (Decidable (_ ∨ _))

/-- Normalised and not negative. -/
def Normal (t : Timestruc) : Prop := 0 ≤ t.nsec ∧ t.nsec < nsPerSec

instance (t : Timestruc) : Decidable t.Normal := inferInstanceAs (Decidable (_ ∧ _))

/-- The time in nanoseconds. -/
def total (t : Timestruc) : Int := t.sec * nsPerSec + t.nsec

end Timestruc

/-- The end of `itimerdecr`, with `ns` left over. -/
def reload (tv : Itimerstruc) (ns : Int) : Itimerstruc :=
  if tv.interval.isSet then
    let value := { tv.interval with nsec := tv.interval.nsec - ns }
    if value.nsec < 0 then
      if value.sec ≠ 0 then { tv with value := ⟨value.sec - 1, value.nsec + nsPerSec⟩ }
      else { tv with value := tv.interval }
    else { tv with value := value }
  else { tv with value := { tv.value with nsec := 0 } }

/-- The timer after the call and the result. -/
def itimerdecr (tv : Itimerstruc) (ns : Int) : Itimerstruc × Nat :=
  if tv.value.nsec < ns then
    if tv.value.sec = 0 then (reload tv (ns - tv.value.nsec), 0)
    else
      let value : Timestruc := ⟨tv.value.sec - 1, tv.value.nsec + nsPerSec - ns⟩
      if value.isSet then ({ tv with value := value }, 1)
      else (reload { tv with value := value } 0, 0)
  else
    let value := { tv.value with nsec := tv.value.nsec - ns }
    if value.isSet then ({ tv with value := value }, 1)
    else (reload { tv with value := value } 0, 0)

variable {t : Timestruc} {tv tv' : Itimerstruc} {ns d : Int} {r : Nat}

namespace Timestruc

theorem Normal.total_nonneg (h : t.Normal) : 0 ≤ t.total := by
  unfold Normal total nsPerSec at *
  omega

theorem Normal.isSet_iff (h : t.Normal) : t.isSet ↔ 0 < t.total := by
  unfold Normal isSet total nsPerSec at *
  omega

theorem Normal.not_isSet_iff (h : t.Normal) : ¬t.isSet ↔ t.total = 0 := by
  rw [h.isSet_iff]
  have := h.total_nonneg
  omega

end Timestruc

/-- A timer with normalised values. -/
structure Normal (tv : Itimerstruc) : Prop where
  interval : tv.interval.Normal
  value : tv.value.Normal

/-- What a call with `ns` makes of the timer. -/
structure Decremented (tv tv' : Itimerstruc) (ns : Int) (r : Nat) : Prop where
  interval : tv'.interval = tv.interval
  value : tv'.value.Normal
  result : r = 1 ∧ ns < tv.value.total ∨ r = 0 ∧ tv.value.total ≤ ns
  running : r = 1 → tv'.value.total = tv.value.total - ns
  oneShot : r = 0 → tv.interval.total = 0 → tv'.value.total = 0
  armed : r = 0 → tv.interval.total ≠ 0 → tv'.value.isSet
  exact : r = 0 → ns - tv.value.total < tv.interval.total →
    tv'.value.total = tv.interval.total - (ns - tv.value.total)

/-- The time left over is the whole interval. -/
def Spent (tv : Itimerstruc) (ns : Int) : Prop :=
  tv.interval.isSet ∧ ns - tv.value.total = tv.interval.total

/-! ## One call -/

/-- The reloaded value: the interval less what was left over, or all of it. -/
theorem reload_spec (hi : tv.interval.Normal) (hv : tv.value.sec = 0) (h0 : 0 ≤ d)
    (hd : d < nsPerSec) :
    (reload tv d).interval = tv.interval ∧ (reload tv d).value.Normal ∧
      (tv.interval.total = 0 → (reload tv d).value.total = 0) ∧
      (0 < tv.interval.total → (reload tv d).value.total =
        if tv.interval.total < d then tv.interval.total else tv.interval.total - d) := by
  unfold reload
  by_cases hset : tv.interval.isSet
  · have hpos := hi.isSet_iff.mp hset
    rw [if_pos hset]
    dsimp only
    unfold Timestruc.Normal Timestruc.total nsPerSec at *
    by_cases hneg : tv.interval.nsec - d < 0
    · rw [if_pos hneg]
      by_cases hsec : tv.interval.sec ≠ 0
      · rw [if_pos hsec]
        refine ⟨rfl, ?_, fun hz => by omega, fun _ => ?_⟩
        · dsimp only
          omega
        · rw [if_neg (by omega)]
          dsimp only
          omega
      · rw [if_neg hsec]
        refine ⟨rfl, hi, fun hz => by omega, fun _ => ?_⟩
        rw [if_pos (by omega)]
    · rw [if_neg hneg]
      refine ⟨rfl, ?_, fun hz => by omega, fun _ => ?_⟩
      · dsimp only
        omega
      · rw [if_neg (by omega)]
        dsimp only
        omega
  · have hz := hi.not_isSet_iff.mp hset
    rw [if_neg hset]
    unfold Timestruc.Normal Timestruc.total nsPerSec at *
    dsimp only
    refine ⟨rfl, by omega, fun _ => by omega, fun hpos => by omega⟩

/-- The call runs on, or ends with what was left over taken from the interval. -/
theorem itimerdecr_cases (h : Normal tv) (h1 : 0 < ns) (h2 : ns < nsPerSec) :
    (ns < tv.value.total ∧ (itimerdecr tv ns).2 = 1 ∧
        (itimerdecr tv ns).1.interval = tv.interval ∧ (itimerdecr tv ns).1.value.Normal ∧
        (itimerdecr tv ns).1.value.total = tv.value.total - ns) ∨
      tv.value.total ≤ ns ∧ ∃ tv₁, tv₁.interval = tv.interval ∧ tv₁.value.sec = 0 ∧
        itimerdecr tv ns = (reload tv₁ (ns - tv.value.total), 0) := by
  have hn := h.value
  unfold itimerdecr
  by_cases hlt : tv.value.nsec < ns
  · rw [if_pos hlt]
    by_cases hsec : tv.value.sec = 0
    · rw [if_pos hsec]
      have htotal : tv.value.total = tv.value.nsec := by
        unfold Timestruc.total
        rw [hsec]
        ring
      rw [htotal]
      exact .inr ⟨hlt.le, tv, rfl, hsec, rfl⟩
    · rw [if_neg hsec]
      have hset : (⟨tv.value.sec - 1, tv.value.nsec + nsPerSec - ns⟩ : Timestruc).isSet := by
        unfold Timestruc.Normal Timestruc.isSet at *
        dsimp only
        omega
      dsimp only
      rw [if_pos hset]
      unfold Timestruc.Normal Timestruc.total nsPerSec at *
      exact .inl ⟨by omega, rfl, rfl, by dsimp only; omega, by dsimp only; omega⟩
  · rw [if_neg hlt]
    dsimp only
    by_cases hset : (⟨tv.value.sec, tv.value.nsec - ns⟩ : Timestruc).isSet
    · rw [if_pos hset]
      unfold Timestruc.Normal Timestruc.total Timestruc.isSet nsPerSec at *
      dsimp only at hset ⊢
      exact .inl ⟨by omega, rfl, rfl, by omega, by omega⟩
    · rw [if_neg hset]
      have hz : tv.value.sec = 0 ∧ tv.value.nsec - ns = 0 := by
        unfold Timestruc.isSet at hset
        dsimp only at hset
        omega
      have htotal : tv.value.total = ns := by
        unfold Timestruc.total
        rw [hz.1]
        push_cast
        omega
      rw [htotal, sub_self]
      exact .inr ⟨le_rfl, _, rfl, hz.1, rfl⟩

/-- A call does what it should unless just the interval is left over. -/
theorem decremented_iff (h : Normal tv) (hset : tv.value.isSet) (h1 : 0 < ns)
    (h2 : ns < nsPerSec) :
    Decremented tv (itimerdecr tv ns).1 ns (itimerdecr tv ns).2 ↔ ¬Spent tv ns := by
  have hpos := h.value.isSet_iff.mp hset
  have hi0 := h.interval.total_nonneg
  unfold Spent
  rw [h.interval.isSet_iff]
  rcases itimerdecr_cases h h1 h2 with ⟨hlt, hr, hint, hval, htot⟩ | ⟨hle, tv₁, hint₁, hsec, he⟩
  · rw [hr]
    exact ⟨fun _ hs => by omega, fun _ => ⟨hint, hval, .inl ⟨rfl, hlt⟩, fun _ => htot, nofun, nofun,
      nofun⟩⟩
  · rw [he]
    obtain ⟨hint, hval, hone, hper⟩ := reload_spec (hint₁ ▸ h.interval) hsec
      (by omega : 0 ≤ ns - tv.value.total) (by omega)
    rw [hint₁] at hint hone hper
    constructor
    · intro hd hs
      have hz := hper hs.1
      rw [if_neg (by omega), ← hs.2, sub_self] at hz
      exact hval.not_isSet_iff.mpr hz (hd.armed rfl (by omega))
    · intro hs
      refine ⟨hint, hval, .inr ⟨rfl, hle⟩, nofun, fun _ => hone, fun _ hne => ?_, fun _ hlt => ?_⟩
      · rw [hval.isSet_iff, hper (by omega)]
        split_ifs <;> omega
      · rw [hper (by omega), if_neg (by omega)]

/-- Whatever the time left over, the values stay normalised. -/
theorem Normal.itimerdecr (h : Normal tv) (h1 : 0 < ns) (h2 : ns < nsPerSec) :
    Normal (itimerdecr tv ns).1 ∧ (itimerdecr tv ns).1.interval = tv.interval := by
  have hv0 := h.value.total_nonneg
  rcases itimerdecr_cases h h1 h2 with ⟨-, -, hint, hval, -⟩ | ⟨hle, tv₁, hint₁, hsec, he⟩
  · exact ⟨⟨hint ▸ h.interval, hval⟩, hint⟩
  · rw [he]
    obtain ⟨hint, hval, -⟩ := reload_spec (hint₁ ▸ h.interval) hsec
      (by omega : 0 ≤ ns - tv.value.total) (by omega)
    exact ⟨⟨(hint.trans hint₁) ▸ h.interval, hval⟩, hint.trans hint₁⟩

/-! ## Runs -/

/-- A timer, the time taken off it and how often it has expired. -/
structure Run where
  timer : Itimerstruc
  elapsed : Int
  expired : Nat

/-- A call for a timer that is set. -/
def Run.Next (P : Itimerstruc → Int → Prop) (s s' : Run) : Prop :=
  ∃ ns, 0 < ns ∧ ns < nsPerSec ∧ s.timer.value.isSet ∧ P s.timer ns ∧
    s' = ⟨(itimerdecr s.timer ns).1, s.elapsed + ns, s.expired + (1 - (itimerdecr s.timer ns).2)⟩

variable {s s₀ : Run} {P : Itimerstruc → Int → Prop}

theorem normal_of_run (h₀ : Normal s₀.timer) (hrun : Relation.ReflTransGen (Run.Next P) s₀ s) :
    Normal s.timer ∧ s.timer.interval = s₀.timer.interval := by
  induction hrun with
  | refl => exact ⟨h₀, rfl⟩
  | tail _ hnext ih =>
    obtain ⟨ns, h1, h2, -, -, rfl⟩ := hnext
    obtain ⟨hn, hi⟩ := ih.1.itimerdecr h1 h2
    exact ⟨hn, hi.trans ih.2⟩

/-- A periodic timer stays set. -/
theorem isSet_of_run (h₀ : Normal s₀.timer) (hset : s₀.timer.value.isSet)
    (hint : s₀.timer.interval.isSet)
    (hrun : Relation.ReflTransGen (Run.Next fun tv ns => ¬Spent tv ns) s₀ s) :
    s.timer.value.isSet := by
  induction hrun with
  | refl => exact hset
  | tail hrun hnext ih =>
    obtain ⟨ns, h1, h2, -, hp, rfl⟩ := hnext
    obtain ⟨hn, hi⟩ := normal_of_run h₀ hrun
    have hd := (decremented_iff hn ih h1 h2).mpr hp
    rcases hd.result with ⟨hr, hlt⟩ | ⟨hr, -⟩
    · rw [hd.value.isSet_iff, hd.running hr]
      omega
    · rw [← hi, hn.interval.isSet_iff] at hint
      exact hd.armed hr hint.ne'

/-- The time elapsed and the time to come are whole intervals after the first value. -/
theorem elapsed_of_run (h₀ : Normal s₀.timer)
    (hrun : Relation.ReflTransGen
      (Run.Next fun tv ns => ns - tv.value.total < tv.interval.total) s₀ s) :
    s₀.expired ≤ s.expired ∧ s.elapsed - s₀.elapsed + s.timer.value.total =
      s₀.timer.value.total + (s.expired - s₀.expired : Nat) * s₀.timer.interval.total := by
  induction hrun with
  | refl => simp
  | tail hrun hnext ih =>
    obtain ⟨ns, h1, h2, hset, hp, rfl⟩ := hnext
    obtain ⟨hn, hi⟩ := normal_of_run h₀ hrun
    have hd := (decremented_iff hn hset h1 h2).mpr fun hs => hp.ne hs.2
    obtain ⟨hle, he⟩ := ih
    dsimp only
    rcases hd.result with ⟨hr, -⟩ | ⟨hr, -⟩
    · rw [hr, Nat.sub_self, Nat.add_zero, hd.running hr]
      exact ⟨hle, by linarith⟩
    · rw [hr, hd.exact hr hp, Nat.sub_zero, Nat.sub_add_comm hle, hi]
      refine ⟨by omega, ?_⟩
      push_cast
      linarith

/-- `itimerdecr`, call by call and over runs. -/
theorem itimer_runs {s₀ : Run} (h₀ : Normal s₀.timer) :
    (∀ ns, s₀.timer.value.isSet → 0 < ns → ns < nsPerSec →
      (Decremented s₀.timer (itimerdecr s₀.timer ns).1 ns (itimerdecr s₀.timer ns).2 ↔
        ¬Spent s₀.timer ns)) ∧
    (∀ s P, Relation.ReflTransGen (Run.Next P) s₀ s → Normal s.timer) ∧
    (∀ s, s₀.timer.value.isSet → s₀.timer.interval.isSet →
      Relation.ReflTransGen (Run.Next fun tv ns => ¬Spent tv ns) s₀ s → s.timer.value.isSet) ∧
    ∀ s, Relation.ReflTransGen
      (Run.Next fun tv ns => ns - tv.value.total < tv.interval.total) s₀ s →
      s.elapsed - s₀.elapsed + s.timer.value.total =
        s₀.timer.value.total + (s.expired - s₀.expired : Nat) * s₀.timer.interval.total :=
  ⟨fun _ hset h1 h2 => decremented_iff h₀ hset h1 h2,
    fun _ _ hrun => (normal_of_run h₀ hrun).1,
    fun _ hset hint hrun => isSet_of_run h₀ hset hint hrun,
    fun _ hrun => (elapsed_of_run h₀ hrun).2⟩

theorem itimer_runs_tick : Decremented ⟨⟨1, 5⟩, ⟨0, 7⟩⟩ ⟨⟨1, 5⟩, ⟨1, 2⟩⟩ 10 0 := by
  have h₀ : Normal (Run.timer ⟨⟨⟨1, 5⟩, ⟨0, 7⟩⟩, 0, 0⟩) := ⟨by decide, by decide⟩
  exact ((itimer_runs h₀).1 10 (.inr (by decide)) (by decide) (by decide)).mpr
    fun hs => absurd hs.2 (by decide)

/-- A periodic timer is disarmed when just its interval is left over. -/
theorem periodic_disarmed : itimerdecr ⟨⟨0, 9⟩, ⟨0, 1⟩⟩ 10 = (⟨⟨0, 9⟩, ⟨0, 0⟩⟩, 0) := by
  decide

end Aix413.Clock
