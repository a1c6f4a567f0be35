import Mathlib

/-!
Runs of a system that takes labelled steps, and the rules by which a property of
the initial states becomes one of all states reached. `ok` restricts the runs to
those whose steps all meet a condition on the state before the step.
-/
namespace TestEnvironment.Lib
universe u v

/-- The states reached from `init` by steps that all meet `ok`. -/
inductive Reach {σ : Type u} {α : Type v} (init : σ → Prop) (step : σ → α → σ → Prop) (ok : σ → α → Prop) : σ → Prop
  | start {s : σ} : init s → Reach init step ok s
  | step {s t : σ} {a : α} : Reach init step ok s → ok s a → step s a t → Reach init step ok t

namespace Reach
variable {σ : Type u} {α : Type v} {init : σ → Prop} {step : σ → α → σ → Prop} {ok ok' : σ → α → Prop} {I J : σ → Prop}

/-- What holds at the start and is kept by every step holds in every state reached. -/
theorem invariant (initial : ∀ s, init s → I s) (kept : ∀ s a t, I s → ok s a → step s a t → I t) {s : σ}
    (reached : Reach init step ok s) : I s := by
  induction reached with
  | start first => exact initial _ first
  | step _ allowed next ih => exact kept _ _ _ ih allowed next
/-- A property already known of all states reached may be used at each step. -/
theorem invariant_with (known : ∀ s, Reach init step ok s → J s) (initial : ∀ s, init s → I s)
    (kept : ∀ s a t, J s → I s → ok s a → step s a t → I t) {s : σ} (reached : Reach init step ok s) : I s := by
  induction reached with
  | start first => exact initial _ first
  | step before allowed next ih => exact kept _ _ _ (known _ before) ih allowed next
theorem mono (weaker : ∀ s a, ok s a → ok' s a) {s : σ} (reached : Reach init step ok s) : Reach init step ok' s := by
  induction reached with
  | start first => exact .start first
  | step _ allowed next ih => exact .step ih (weaker _ _ allowed) next
end Reach
end TestEnvironment.Lib
