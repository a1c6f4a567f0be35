import Mathlib
/-!
Two computations that may fail, compared: they fail alike, or their results are related.
-/
namespace TestEnvironment.Lib
universe u v
variable {α α' β β' : Type u} {ε : Type v} {R : α → β → Prop} {S : α' → β' → Prop}

inductive Alike (R : α → β → Prop) : Except ε α → Except ε β → Prop
  | ok {a : α} {b : β} (related : R a b) : Alike R (.ok a) (.ok b)
  | error (e : ε) : Alike R (.error e) (.error e)

namespace Alike
variable {x : Except ε α} {y : Except ε β}

theorem of_eq {a : α} {b : β} (first : x = .ok a) (second : y = .ok b) (related : R a b) : Alike R x y := by
  subst first second
  exact .ok related
theorem bind {f : α → Except ε α'} {g : β → Except ε β'} (first : Alike R x y) (second : ∀ a b, R a b → Alike S (f a) (g b)) :
    Alike S (x >>= f) (y >>= g) := by
  cases first with
  | ok related => exact second _ _ related
  | error e => exact .error e
/-- The same computation first. -/
theorem bind_same (x : Except ε α) {f : α → Except ε α'} {g : α → Except ε β'} (second : ∀ a, x = .ok a → Alike S (f a) (g a)) :
    Alike S (x >>= f) (x >>= g) := by
  cases x with
  | ok a => exact second a rfl
  | error e => exact .error e
theorem outcome (alike : Alike R x y) : (∃ e, x = .error e ∧ y = .error e) ∨ ∃ a b, x = .ok a ∧ y = .ok b ∧ R a b := by
  cases alike with
  | ok related => exact .inr ⟨_,_,rfl,rfl,related⟩
  | error e => exact .inl ⟨e,rfl,rfl⟩

end Alike
end TestEnvironment.Lib
