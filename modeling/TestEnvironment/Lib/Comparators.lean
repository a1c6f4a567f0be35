import Mathlib

/-!
Comparison functions whose sign tells the order of two values. Such a function follows a view of the values in a linear
order, and comparisons one after the other follow the lexicographic order of their views.
-/
namespace TestEnvironment.Lib
variable {α β γ δ : Type} [LinearOrder β] [LinearOrder γ]

/-- The values are compared by their views. -/
def Follows (cmp : α → α → Int) (view : α → β) : Prop := ∀ p q, (cmp p q < 0 ↔ view p < view q) ∧ (cmp p q = 0 ↔ view p = view q)
/-- A total preorder: the sign turns with the operands, and what is not greater is so along a chain. -/
structure Preorders (cmp : α → α → Int) : Prop where
  turned : ∀ p q, (cmp p q).sign = -(cmp q p).sign
  trans : ∀ p q r, cmp p q ≤ 0 → cmp q r ≤ 0 → cmp p r ≤ 0
/-- The second comparison decides where the first one tells no difference. -/
def andThen (c d : α → α → Int) (p q : α) : Int := if c p q ≠ 0 then c p q else d p q

variable {c d : α → α → Int} {f : α → β} {g : α → γ}

theorem Follows.le_iff (follows : Follows c f) (p q : α) : c p q ≤ 0 ↔ f p ≤ f q := by
  rw [le_iff_lt_or_eq,le_iff_lt_or_eq,(follows p q).1,(follows p q).2]
theorem Follows.preorders (follows : Follows c f) : Preorders c where
  turned p q := by
    obtain less | same | more := lt_trichotomy (f p) (f q)
    · have above : 0 < c q p := not_le.mp ((follows.le_iff q p).not.mpr (not_le.mpr less))
      rw [Int.sign_eq_neg_one_of_neg ((follows p q).1.mpr less),Int.sign_eq_one_of_pos above]
    · rw [(follows p q).2.mpr same,(follows q p).2.mpr same.symm]
      rfl
    · have above : 0 < c p q := not_le.mp ((follows.le_iff p q).not.mpr (not_le.mpr more))
      rw [Int.sign_eq_neg_one_of_neg ((follows q p).1.mpr more),Int.sign_eq_one_of_pos above]
      rfl
  trans p q r first second := (follows.le_iff p r).mpr (((follows.le_iff p q).mp first).trans ((follows.le_iff q r).mp second))
theorem Follows.comap (follows : Follows c f) (h : δ → α) : Follows (fun p q => c (h p) (h q)) (f ∘ h) := fun p q => follows (h p) (h q)
theorem Follows.andThen (first : Follows c f) (second : Follows d g) : Follows (andThen c d) fun p => toLex (f p,g p) := by
  intro p q
  obtain ⟨less,same⟩ := first p q
  obtain ⟨less',same'⟩ := second p q
  rw [Lib.andThen,Prod.Lex.toLex_lt_toLex,toLex_inj,Prod.mk.injEq]
  by_cases zero : c p q = 0
  · rw [if_neg (not_not.mpr zero),less',same']
    have equal := same.mp zero
    exact ⟨⟨fun lt => .inr ⟨equal,lt⟩,fun either => (either.resolve_left equal.not_lt).2⟩,(and_iff_right equal).symm⟩
  · rw [if_pos zero,less]
    have other := same.not.mp zero
    exact ⟨⟨.inl,fun either => either.resolve_right fun both => other both.1⟩,iff_of_false zero fun both => other both.1⟩
/-- Nothing is compared. -/
theorem Follows.nothing (b : β) : Follows (fun _ _ : α => 0) fun _ => b := fun _ _ => ⟨iff_of_false (lt_irrefl _) (lt_irrefl _),iff_of_true rfl rfl⟩
end TestEnvironment.Lib
