import TestEnvironment.Lib.Strings

/-!
Integers in decimal notation: what `printf` writes for them and what `strtol` makes of it.
-/
namespace TestEnvironment.Lib

def isdigit (c : Char) : Bool := '0' ≤ c && c ≤ '9'
def digitValue (c : Char) : Nat := c.toNat-48
/-- `%u`. -/
def natText (n : Nat) : CStr := Nat.toDigits 10 n
/-- `%d`. -/
def intText (z : Int) : CStr := if z < 0 then '-' :: natText z.natAbs else natText z.natAbs
/-- The number that digits make. -/
def digitsNumber (digits : CStr) : Nat := digits.foldl (fun n c => 10*n+digitValue c) 0

section
variable {n : Nat} {c : Char}

theorem digit_not_space (digit : isdigit c = true) : isspace c = false := by
  rw [isdigit,and_eq_true,decide_eq_true_eq,decide_eq_true_eq,Char.le_def,Char.le_def] at digit
  have low : 48 ≤ c.toNat := digit.1
  simp only [isspace,Bool.or_eq_false_iff,decide_eq_false_iff_not,Bool.and_eq_false_iff]
  refine ⟨?_,.inr (by omega)⟩
  rintro rfl
  exact absurd low (by decide)
theorem digitChar_isdigit (low : n < 10) : isdigit n.digitChar = true ∧ digitValue n.digitChar = n := by
  have all : ∀ k, k < 10 → isdigit k.digitChar = true ∧ digitValue k.digitChar = k := by decide
  exact all n low
theorem natText_small (low : n < 10) : natText n = [n.digitChar] := Nat.toDigits_of_lt_base low
theorem natText_large (high : 10 ≤ n) : natText n = natText (n/10) ++ [(n%10).digitChar] := Nat.toDigits_of_base_le (by decide) high
theorem natText_digits (n : Nat) : ∀ c ∈ natText n, isdigit c = true := by
  induction n using Nat.strong_induction_on with
  | _ n ih =>
    intro c member
    by_cases low : n < 10
    · rw [natText_small low] at member
      rw [mem_singleton.mp member]
      exact (digitChar_isdigit low).1
    · rw [natText_large (by omega)] at member
      obtain front | last := mem_append.mp member
      · exact ih (n/10) (by omega) c front
      · rw [mem_singleton.mp last]
        exact (digitChar_isdigit (mod_lt _ (by decide))).1
theorem natText_plain (plain : isdigit c = false) : c ∉ natText n := fun member =>
  absurd (natText_digits n c member) (by rw [plain]; decide)
theorem natText_number (n : Nat) : digitsNumber (natText n) = n := by
  induction n using Nat.strong_induction_on with
  | _ n ih =>
    by_cases low : n < 10
    · rw [natText_small low,digitsNumber,foldl_cons,foldl_nil,(digitChar_isdigit low).2]
      omega
    · have front := ih (n/10) (by omega)
      rw [natText_large (by omega),digitsNumber,foldl_append]
      rw [digitsNumber] at front
      rw [front,foldl_cons,foldl_nil,(digitChar_isdigit (mod_lt _ (by decide))).2]
      omega
theorem natText_nonempty (n : Nat) : natText n ≠ [] := by
  by_cases low : n < 10
  · rw [natText_small low]
    exact cons_ne_nil _ _
  · rw [natText_large (by omega)]
    simp
/-- Only zero starts with a zero. -/
theorem natText_first (positive : 0 < n) : ∃ d ds, natText n = d :: ds ∧ '1' ≤ d ∧ d ≤ '9' := by
  induction n using Nat.strong_induction_on with
  | _ n ih =>
    by_cases low : n < 10
    · have all : ∀ k, k < 10 → 0 < k → '1' ≤ k.digitChar ∧ k.digitChar ≤ '9' := by decide
      exact ⟨_,[],natText_small low,all n low positive⟩
    · obtain ⟨d,ds,front,first⟩ := ih (n/10) (by omega) (by omega)
      exact ⟨d,ds ++ [(n%10).digitChar],by rw [natText_large (by omega),front]; rfl,first⟩
end
end TestEnvironment.Lib
