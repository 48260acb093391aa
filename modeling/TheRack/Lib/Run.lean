/-
  Lib/Run.lean --- runs of a labelled transition system.

  A run starts in an initial state and takes finitely many steps, each under an
  action.  What clients use is the invariant rule, where a step may rely on what is
  already established of the run, and that a run under fewer actions is a run
  under more.
-/
import Mathlib.Init

set_option autoImplicit false

namespace Lib

variable {σ α : Type}

/-- The states some run from an initial state ends in. -/
inductive Run (init : σ → Prop) (step : σ → α → σ → Prop) : σ → Prop
  | start {s : σ} (h : init s) : Run init step s
  | step {s s' : σ} (a : α) (hrun : Run init step s) (h : step s a s') : Run init step s'

namespace Run

variable {init : σ → Prop} {step : σ → α → σ → Prop}

/-- What holds initially and is kept by every step holds at the end of every
run. -/
theorem invariant {P : σ → Prop} (h0 : ∀ s, init s → P s)
    (hstep : ∀ s a s', P s → step s a s' → P s') {s : σ} (h : Run init step s) : P s := by
  induction h with
  | start hi => exact h0 _ hi
  | step a _ hs ih => exact hstep _ a _ ih hs

/-- The same, where a step may also use that its source state ends a run. -/
theorem invariant_of_run {P : σ → Prop} (h0 : ∀ s, init s → P s)
    (hstep : ∀ s a s', Run init step s → P s → step s a s' → P s') {s : σ}
    (h : Run init step s) : P s := by
  induction h with
  | start hi => exact h0 _ hi
  | step a hr hs ih => exact hstep _ a _ hr ih hs

/-- A run under fewer actions is a run under more. -/
theorem mono {init' : σ → Prop} {step' : σ → α → σ → Prop} (hi : ∀ s, init s → init' s)
    (hs : ∀ s a s', step s a s' → step' s a s') {s : σ} (h : Run init step s) :
    Run init' step' s := by
  induction h with
  | start h => exact .start (hi _ h)
  | step a _ h ih => exact .step a ih (hs _ a _ h)

end Run

end Lib
