import Mathlib.Logic.Basic

/-! Systems that take labelled steps, the states that runs reach, and invariants of such runs. -/
namespace Hoglet.System
variable {σ α : Type}

/-- The states that runs from `start` reach when every step meets `ok`. -/
inductive Reached (start : σ) (step : α → σ → σ → Prop) (ok : α → σ → Prop) : σ → Prop
  | start : Reached start step ok start
  | step {a : α} {s s' : σ} (h : Reached start step ok s) (hok : ok a s) (hstep : step a s s') :
      Reached start step ok s'

/-- A run whose steps need not meet anything. -/
def anyStep (_ : α) (_ : σ) : Prop := True

/-- A run with its labels in order, and the state that it reaches. -/
inductive Run (start : σ) (step : α → σ → σ → Prop) (ok : α → σ → Prop) : List α → σ → Prop
  | start : Run start step ok [] start
  | step {labels : List α} {a : α} {s s' : σ} (h : Run start step ok labels s) (hok : ok a s) (hstep : step a s s') :
      Run start step ok (labels ++ [a]) s'

variable {start : σ} {step : α → σ → σ → Prop} {ok : α → σ → Prop}

theorem Reached.invariant {P : σ → Prop} (h0 : P start) (hstep : ∀ a s s', P s → ok a s → step a s s' → P s')
    {s : σ} (h : Reached start step ok s) : P s := by
  induction h with
  | start => exact h0
  | step _ hok hs ih => exact hstep _ _ _ ih hok hs

/-- Runs under a stronger condition are runs under a weaker one. -/
theorem Reached.mono {ok' : α → σ → Prop} (himp : ∀ a s, ok a s → ok' a s) {s : σ} (h : Reached start step ok s) :
    Reached start step ok' s := by
  induction h with
  | start => exact .start
  | step _ hok hs ih => exact .step ih (himp _ _ hok) hs

theorem Reached.any {s : σ} (h : Reached start step ok s) : Reached start step anyStep s := h.mono fun _ _ _ => trivial

theorem Run.reached {labels : List α} {s : σ} (h : Run start step ok labels s) : Reached start step ok s := by
  induction h with
  | start => exact .start
  | step _ hok hs ih => exact .step ih hok hs

end Hoglet.System
