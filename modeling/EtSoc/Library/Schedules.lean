import Mathlib.Data.List.Basic
import Mathlib.Data.Nat.Notation

/-! # Schedules

Parties that share a state and take one step at a time, in any order. -/

namespace Schedules

variable {Party State : Type} {step : Party → State → State} {s : State}

/-- The state after the parties of a schedule took their steps. -/
def runs (step : Party → State → State) (schedule : List Party) (s : State) : State :=
  schedule.foldl (fun s party => step party s) s

@[simp] theorem runs_nil : runs step [] s = s := rfl

@[simp] theorem runs_cons (party : Party) (schedule : List Party) :
    runs step (party :: schedule) s = runs step schedule (step party s) := rfl

/-- What every step preserves holds after any schedule. -/
theorem invariant (Inv : State → Prop) (hstep : ∀ party s, Inv s → Inv (step party s)) (h : Inv s)
    (schedule : List Party) : Inv (runs step schedule s) := by
  induction schedule generalizing s with
  | nil => exact h
  | cons party schedule ih => exact ih (hstep party s h)

/-- The work left to one party: its own steps lower it, and the others leave it alone. -/
theorem measure_le [DecidableEq Party] (Inv : State → Prop) (left : State → ℕ) {own : Party}
    (hstep : ∀ party s, Inv s → Inv (step party s))
    (hown : ∀ s, Inv s → left (step own s) ≤ left s - 1)
    (hother : ∀ party s, party ≠ own → left (step party s) = left s) (h : Inv s)
    (schedule : List Party) : left (runs step schedule s) ≤ left s - schedule.count own := by
  induction schedule generalizing s with
  | nil => simp
  | cons party schedule ih =>
    have hrest := ih (hstep party s h)
    rw [runs_cons, List.count_cons]
    by_cases heq : party = own
    · subst heq
      have := hown s h
      simp only [beq_self_eq_true, if_true]
      omega
    · rw [hother party s heq] at hrest
      simpa [heq] using hrest

end Schedules
