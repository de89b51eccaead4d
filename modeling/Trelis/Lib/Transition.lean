import Mathlib.Tactic.Common

/-!
# Transition systems

The states that a system can reach, and the induction over a run.

A system is a predicate `init` on its first states and a relation `step`.  A
property that holds first and that every step keeps holds of every state that
is reached (`Reachable.invariant`).
-/

namespace Trelis

variable {σ : Type} {init : σ → Prop} {step : σ → σ → Prop} {s : σ}

/-- The states that a run passes through. -/
inductive Reachable (init : σ → Prop) (step : σ → σ → Prop) : σ → Prop
  | start {s : σ} (h : init s) : Reachable init step s
  | next {s t : σ} (h : Reachable init step s) (hstep : step s t) : Reachable init step t

namespace Reachable

/-- What holds first and is kept by every step holds throughout. -/
theorem invariant {I : σ → Prop} (hinit : ∀ s, init s → I s)
    (hstep : ∀ s t, I s → step s t → I t) (h : Reachable init step s) : I s := by
  induction h with
  | start h => exact hinit _ h
  | next _ h ih => exact hstep _ _ ih h

end Reachable

end Trelis
