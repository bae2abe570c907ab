import Mathlib.Data.List.Basic
import Mathlib.Algebra.BigOperators.Group.List.Basic
import Mathlib.Tactic

namespace Aix413.Lib.Rollback

variable {σ α κ : Type*} (step : α → σ → Option σ) (revert : α → σ → σ)

/-- Take operations back in the order of the list. -/
def rollback : List α → σ → σ
  | [], s => s
  | a :: as, s => rollback as (revert a s)

variable {step revert}

theorem rollback_congr {view : σ → κ}
    (hv : ∀ a s t, view s = view t → view (revert a s) = view (revert a t)) (as : List α)
    {s t : σ} (h : view s = view t) : view (rollback revert as s) = view (rollback revert as t) := by
  induction as generalizing s t with
  | nil => exact h
  | cons a as ih => exact ih (hv a s t h)

end Aix413.Lib.Rollback
