import TestEnvironment.Lib.Strings

/-!
The first occurrence of a text in another: where it stands, when it is found, and the
occurrences met one behind the other from the left.
-/
namespace TestEnvironment.Lib
variable {pattern s before : CStr} {cut : CStr × CStr}

theorem strstr_parts (found : strstr pattern s = some cut) : s = cut.1 ++ pattern ++ cut.2 := by
  induction s generalizing cut with
  | nil =>
    rw [strstr] at found
    split_ifs at found with empty
    obtain rfl := some.inj found
    simp [empty]
  | cons c s ih =>
    rw [strstr] at found
    split_ifs at found with here
    · obtain rfl := some.inj found
      obtain ⟨rest,split⟩ := startsWith_iff.mp here
      rw [← split]
      simp
    · obtain ⟨later,found',rfl⟩ := of_map found
      rw [ih found']
      rfl
theorem strstr_here (nonempty : pattern ≠ []) (rest : CStr) : strstr pattern (pattern ++ rest) = some ([],rest) := by
  obtain ⟨c,tail,rfl⟩ := exists_cons_of_ne_nil nonempty
  have here : startsWith (c :: tail) (c :: (tail ++ rest)) = true := startsWith_iff.mpr ⟨rest,rfl⟩
  rw [cons_append,strstr,if_pos here]
  simp
/-- Text in which no occurrence begins is passed. -/
theorem strstr_pass (absent : ∀ p < before.length, ¬ pattern <+: before.drop p ++ s) :
    strstr pattern (before ++ s) = (strstr pattern s).map fun cut => (before ++ cut.1,cut.2) := by
  induction before with
  | nil => simp
  | cons c before ih =>
    have here : ¬ startsWith pattern (c :: (before ++ s)) = true := fun starts => absent 0 (by simp) (startsWith_iff.mp starts)
    rw [cons_append,strstr,if_neg here,ih fun p inside => absent (p+1) (by simpa using inside),Option.map_map]
    rfl
theorem strstr_found (nonempty : pattern ≠ []) {p : Nat} (there : pattern <+: s.drop p) : strstr pattern s ≠ none := by
  induction s generalizing p with
  | nil => exact absurd (List.prefix_nil.mp (by simpa using there)) nonempty
  | cons c s ih =>
    rw [strstr]
    split_ifs with here
    · simp
    · cases p with
      | zero => exact absurd (startsWith_iff.mpr there) here
      | succ p => simpa using ih there
theorem strstr_short (short : s.length < pattern.length) : strstr pattern s = none := by
  cases found : strstr pattern s with
  | none => rfl
  | some cut =>
    have parts := congrArg List.length (strstr_parts found)
    simp only [length_append] at parts
    omega

/-- The occurrences met from the left, none overlapping the one before: the text before each, since the
    last one, and all text behind it; and what is left behind the last one. -/
def occurrencesFrom (pattern : CStr) : Nat → CStr → List (CStr × CStr) × CStr
  | 0, s => ([],s)
  | fuel+1, s =>
    match strstr pattern s with
    | none => ([],s)
    | some cut =>
      let (cuts,rest) := occurrencesFrom pattern fuel cut.2
      (cut :: cuts,rest)
/-- Each occurrence takes a character. -/
def occurrences (pattern s : CStr) : List (CStr × CStr) × CStr := occurrencesFrom pattern s.length s
/-- The text with another one in place of its occurrences. -/
def substituted (new pattern s : CStr) : CStr := ((occurrences pattern s).1.flatMap fun cut => cut.1 ++ new) ++ (occurrences pattern s).2

theorem occurrencesFrom_enough (nonempty : pattern ≠ []) {n m : Nat} (enough : s.length ≤ n) (enough' : s.length ≤ m) :
    occurrencesFrom pattern n s = occurrencesFrom pattern m s := by
  induction n generalizing s m with
  | zero =>
    obtain rfl := length_eq_zero_iff.mp (le_zero.mp enough)
    cases m <;> simp [occurrencesFrom,strstr,nonempty]
  | succ n ih =>
    cases m with
    | zero =>
      obtain rfl := length_eq_zero_iff.mp (le_zero.mp enough')
      simp [occurrencesFrom,strstr,nonempty]
    | succ m =>
      rw [occurrencesFrom,occurrencesFrom]
      cases found : strstr pattern s with
      | none => rfl
      | some cut =>
        have shorter := strstr_shorter nonempty found
        simp only
        rw [ih (by omega) (show cut.2.length ≤ m by omega)]
theorem occurrences_none (none' : strstr pattern s = none) : occurrences pattern s = ([],s) := by
  rw [occurrences]
  cases s.length with
  | zero => rfl
  | succ n => rw [occurrencesFrom,none']
theorem occurrences_some (nonempty : pattern ≠ []) (found : strstr pattern s = some cut) :
    occurrences pattern s = (cut :: (occurrences pattern cut.2).1,(occurrences pattern cut.2).2) := by
  have shorter := strstr_shorter nonempty found
  obtain ⟨n,length⟩ : ∃ n, s.length = n+1 := ⟨s.length-1,by omega⟩
  rw [occurrences,length,occurrencesFrom,found]
  simp only
  rw [occurrences,occurrencesFrom_enough nonempty (show cut.2.length ≤ n by omega) le_rfl]
end TestEnvironment.Lib
