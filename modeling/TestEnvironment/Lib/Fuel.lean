import TestEnvironment.Lib.Names

/-!
Loops with fuel: the result that a computation has from some fuel on, and how such
results compose. For computations in a state that may fail there are rules for what
every result meets, and for a result from some fuel on that meets it.
-/
namespace TestEnvironment.Lib
universe u v
variable {α β : Type u} {ε : Type v}

/-- The result from some fuel on. -/
def Settles (f : Nat → α) (r : α) : Prop := ∃ least, ∀ fuel ≥ least, f fuel = r

namespace Settles
variable {f : Nat → α} {r s : α}

theorem always (same : ∀ fuel, f fuel = r) : Settles f r := ⟨0,fun fuel _ => same fuel⟩
theorem unique (first : Settles f r) (second : Settles f s) : r = s := by
  obtain ⟨n,one⟩ := first
  obtain ⟨m,two⟩ := second
  exact (one (max n m) (le_max_left n m)).symm.trans (two (max n m) (le_max_right n m))
/-- The first step takes a unit of the fuel. -/
theorem of_succ (rest : Settles (fun fuel => f (fuel+1)) r) : Settles f r := by
  obtain ⟨n,later⟩ := rest
  refine ⟨n+1,fun fuel enough => ?_⟩
  obtain ⟨k,rfl⟩ := succ_of_lt enough
  exact later k (by omega)
theorem congr {g : Nat → α} (settled : Settles f r) (same : ∀ fuel, g fuel = f fuel) : Settles g r := by
  obtain ⟨n,later⟩ := settled
  exact ⟨n,fun fuel enough => (same fuel).trans (later fuel enough)⟩
theorem map {g : Nat → Except ε β} {a : β} (settled : Settles g (.ok a)) (h : β → α) :
    Settles (fun fuel => (g fuel).map h) (.ok (h a)) := by
  obtain ⟨n,later⟩ := settled
  exact ⟨n,fun fuel enough => congrArg (Except.map h) (later fuel enough)⟩
theorem map_error {g : Nat → Except ε β} {e : ε} (settled : Settles g (.error e)) (h : β → α) :
    Settles (fun fuel => (g fuel).map h) (.error e) := by
  obtain ⟨n,later⟩ := settled
  exact ⟨n,fun fuel enough => congrArg (Except.map h) (later fuel enough)⟩
theorem bind {g : Nat → Except ε α} {h : Nat → α → Except ε β} {a : α} {b : Except ε β}
    (first : Settles g (.ok a)) (second : Settles (fun fuel => h fuel a) b) : Settles (fun fuel => g fuel >>= h fuel) b := by
  obtain ⟨n,one⟩ := first
  obtain ⟨m,two⟩ := second
  refine ⟨max n m,fun fuel enough => ?_⟩
  show (g fuel >>= h fuel) = b
  rw [one fuel (le_trans (le_max_left n m) enough)]
  exact two fuel (le_trans (le_max_right n m) enough)

end Settles

section
variable {σ : Type} {α β : Type}

/-- Every result of the computation meets the condition. -/
def Meets (m : StateT σ Option α) (s : σ) (Q : α → σ → Prop) : Prop := ∀ a t, m s = some (a,t) → Q a t
/-- From some fuel on the computation has a result, which meets the condition. -/
def Ends (m : Nat → StateT σ Option α) (s : σ) (Q : α → σ → Prop) : Prop :=
  ∃ a t, Settles (fun fuel => m fuel s) (some (a,t)) ∧ Q a t

variable {m : StateT σ Option α} {s : σ} {Q R : α → σ → Prop}

namespace Meets
theorem pure {a : α} (holds : Q a s) : Meets (Pure.pure a) s Q := by
  rintro _ _ ⟨⟩
  exact holds
theorem failure : Meets (failure : StateT σ Option α) s Q := by rintro _ _ ⟨⟩
theorem get {Q : σ → σ → Prop} (holds : Q s s) : Meets (MonadState.get : StateT σ Option σ) s Q := by
  rintro _ _ ⟨⟩
  exact holds
theorem bind {f : α → StateT σ Option β} {P : β → σ → Prop} (first : Meets m s fun a t => Meets (f a) t P) :
    Meets (m >>= f) s P := by
  intro b u got
  obtain ⟨⟨a,t⟩,one,two⟩ := of_bind got
  exact first a t one b u two
theorem mono (meets : Meets m s Q) (weaker : ∀ a t, Q a t → R a t) : Meets m s R :=
  fun a t got => weaker a t (meets a t got)
theorem lift {o : Option α} (holds : ∀ a, o = some a → Q a s) : Meets (liftM o) s Q := by
  intro a t got
  obtain ⟨b,same,rest⟩ := of_bind got
  cases rest
  exact holds a same
theorem of_some {a : α} {t : σ} (got : m s = some (a,t)) (holds : Q a t) : Meets m s Q := by
  intro _ _ other
  cases got.symm.trans other
  exact holds
end Meets

namespace Ends
variable {f : Nat → StateT σ Option α}

theorem pure {a : α} (holds : Q a s) : Ends (fun _ => Pure.pure a) s Q := ⟨a,s,.always fun _ => rfl,holds⟩
theorem of_some {a : α} {t : σ} (got : m s = some (a,t)) (holds : Q a t) : Ends (fun _ => m) s Q :=
  ⟨a,t,.always fun _ => got,holds⟩
theorem bind {g : Nat → α → StateT σ Option β} {P : β → σ → Prop}
    (first : Ends f s fun a t => Ends (fun fuel => g fuel a) t P) : Ends (fun fuel => f fuel >>= g fuel) s P := by
  obtain ⟨a,t,⟨n,one⟩,b,u,⟨k,two⟩,holds⟩ := first
  refine ⟨b,u,⟨max n k,fun fuel enough => ?_⟩,holds⟩
  have here : f fuel s = some (a,t) := one fuel (le_trans (le_max_left n k) enough)
  show ((f fuel s).bind fun r => g fuel r.1 r.2) = _
  rw [here]
  exact two fuel (le_trans (le_max_right n k) enough)
theorem mono (ends : Ends f s Q) (weaker : ∀ a t, Q a t → R a t) : Ends f s R := by
  obtain ⟨a,t,settled,holds⟩ := ends
  exact ⟨a,t,settled,weaker a t holds⟩
/-- Only large fuels matter. -/
theorem congr {g : Nat → StateT σ Option α} (ends : Ends f s Q) (k : Nat) (same : ∀ fuel ≥ k, g fuel s = f fuel s) :
    Ends g s Q := by
  obtain ⟨a,t,⟨n,settled⟩,holds⟩ := ends
  refine ⟨a,t,⟨max n k,fun fuel enough => ?_⟩,holds⟩
  exact (same fuel (le_trans (le_max_right n k) enough)).trans (settled fuel (le_trans (le_max_left n k) enough))
theorem of_succ (rest : Ends (fun fuel => f (fuel+1)) s Q) : Ends f s Q := by
  obtain ⟨a,t,settled,holds⟩ := rest
  exact ⟨a,t,settled.of_succ,holds⟩
end Ends
end
end TestEnvironment.Lib
