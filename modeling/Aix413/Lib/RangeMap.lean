import Mathlib.Data.List.Basic
import Mathlib.Data.Option.Basic
import Mathlib.Tactic

namespace Aix413.Lib.RangeMap

variable {V : Type}

/-- A closed range of integers that carries one value. -/
structure Run (V : Type) where
  lo : Int
  hi : Int
  val : V
  deriving DecidableEq, Repr

/-- The partial map a list of runs stands for; the first run wins. -/
def look : List (Run V) → Int → Option V
  | [], _ => none
  | r :: rs, x => if r.lo ≤ x ∧ x ≤ r.hi then some r.val else look rs x

@[simp] theorem look_nil (x : Int) : look ([] : List (Run V)) x = none := rfl

theorem look_cons (r : Run V) (rs : List (Run V)) (x : Int) :
    look (r :: rs) x = if r.lo ≤ x ∧ x ≤ r.hi then some r.val else look rs x := rfl

theorem look_cons_of_out {r : Run V} {rs : List (Run V)} {x : Int} (h : x < r.lo ∨ r.hi < x) :
    look (r :: rs) x = look rs x := by
  rw [look_cons, if_neg (by omega)]

theorem look_append (rs ss : List (Run V)) (x : Int) :
    look (rs ++ ss) x = (look rs x).or (look ss x) := by
  induction rs with
  | nil => simp
  | cons r rs ih =>
    simp only [List.cons_append, look_cons]
    split
    · rfl
    · exact ih

theorem look_eq_none {rs : List (Run V)} {x : Int} (h : ∀ r ∈ rs, x < r.lo ∨ r.hi < x) :
    look rs x = none := by
  induction rs with
  | nil => rfl
  | cons r rs ih =>
    rw [look_cons_of_out (h r (by simp))]
    exact ih fun s hs => h s (by simp [hs])

theorem exists_of_look {rs : List (Run V)} {x : Int} {v : V} (h : look rs x = some v) :
    ∃ r ∈ rs, r.lo ≤ x ∧ x ≤ r.hi ∧ r.val = v := by
  induction rs with
  | nil => simp at h
  | cons r rs ih =>
    rw [look_cons] at h
    split at h
    next hx => exact ⟨r, by simp, hx.1, hx.2, Option.some.inj h⟩
    next hx =>
      obtain ⟨s, hs, hx⟩ := ih h
      exact ⟨s, by simp [hs], hx⟩

/-- The map `f` with the range `[lo, hi]` set to `v`. -/
def overwrite (f : Int → Option V) (lo hi : Int) (v : Option V) (x : Int) : Option V :=
  if lo ≤ x ∧ x ≤ hi then v else f x

theorem overwrite_in {f : Int → Option V} {lo hi : Int} {v : Option V} {x : Int}
    (h : lo ≤ x ∧ x ≤ hi) : overwrite f lo hi v x = v := if_pos h

theorem overwrite_out {f : Int → Option V} {lo hi : Int} {v : Option V} {x : Int}
    (h : x < lo ∨ hi < x) : overwrite f lo hi v x = f x := if_neg (by omega)

/-- Two maps that agree off the range have the same overwriting. -/
theorem overwrite_congr {f g : Int → Option V} {lo hi : Int} {v : Option V}
    (h : ∀ x, x < lo ∨ hi < x → f x = g x) : overwrite f lo hi v = overwrite g lo hi v := by
  funext x
  by_cases hx : lo ≤ x ∧ x ≤ hi
  · rw [overwrite_in hx, overwrite_in hx]
  · rw [overwrite_out (by omega), overwrite_out (by omega), h x (by omega)]

/-- A range that already carries the value may be joined to the overwriting,
on either side. -/
theorem overwrite_widen {f g : Int → Option V} {lo hi lo' hi' : Int} {v : Option V}
    (hlo : lo' ≤ lo) (hhi : hi ≤ hi')
    (hin : ∀ x, lo' ≤ x → x ≤ hi' → x < lo ∨ hi < x → f x = v)
    (hout : ∀ x, x < lo' ∨ hi' < x → g x = f x) :
    overwrite g lo' hi' v = overwrite f lo hi v := by
  funext x
  by_cases h' : lo' ≤ x ∧ x ≤ hi'
  · rw [overwrite_in h']
    by_cases h : lo ≤ x ∧ x ≤ hi
    · rw [overwrite_in h]
    · rw [overwrite_out (by omega), hin x h'.1 h'.2 (by omega)]
  · rw [overwrite_out (by omega), overwrite_out (by omega), hout x (by omega)]

/-- `r` lies before `s`, and does not touch it when the values are equal. -/
def Apart (r s : Run V) : Prop := r.hi < s.lo ∧ (r.val = s.val → r.hi + 1 < s.lo)

/-- In a list of separated runs any run that covers a point gives its value. -/
theorem look_of_mem {rs : List (Run V)} (hv : ∀ r ∈ rs, r.lo ≤ r.hi) (h : rs.Pairwise Apart)
    {r : Run V} (hr : r ∈ rs) {x : Int} (hx : r.lo ≤ x ∧ x ≤ r.hi) : look rs x = some r.val := by
  induction rs with
  | nil => simp at hr
  | cons s rs ih =>
    obtain ⟨hs, h⟩ := List.pairwise_cons.mp h
    rcases List.mem_cons.mp hr with rfl | hr
    · rw [look_cons, if_pos hx]
    · have hsr := (hs r hr).1
      rw [look_cons_of_out (by omega)]
      exact ih (fun q hq => hv q (by simp [hq])) h hr

theorem look_eq_some_iff {rs : List (Run V)} (hv : ∀ r ∈ rs, r.lo ≤ r.hi) (h : rs.Pairwise Apart)
    (x : Int) (v : V) :
    look rs x = some v ↔ ∃ r ∈ rs, r.lo ≤ x ∧ x ≤ r.hi ∧ r.val = v := by
  constructor
  · exact exists_of_look
  · rintro ⟨r, hr, hlo, hhi, rfl⟩
    exact look_of_mem hv h hr ⟨hlo, hhi⟩

end Aix413.Lib.RangeMap
