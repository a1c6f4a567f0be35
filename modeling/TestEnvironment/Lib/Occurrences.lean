import TestEnvironment.Lib.Names

/-!
The different elements of a list, each where it occurs first, for any notion of being the same.
-/
namespace TestEnvironment.Lib

variable {α : Type} (same : α → α → Bool)

def firstOccurrences : List α → List α
  | [] => []
  | x :: l => x :: (firstOccurrences l).filter (fun y => !same x y)

variable {same} {l : List α} {x : α}

/-- An element behind a list is new there, or the same as one that is kept. -/
theorem firstOccurrences_concat (trans : ∀ {x y z}, same x y = true → same y z = true → same x z = true) (l : List α) (x : α) :
    firstOccurrences same (l ++ [x]) =
      if (firstOccurrences same l).any (same · x) then firstOccurrences same l else firstOccurrences same l ++ [x] := by
  induction l with
  | nil => rfl
  | cons y l ih =>
    rw [cons_append,firstOccurrences,ih,firstOccurrences,List.any_cons]
    by_cases before : (firstOccurrences same l).any (same · x) = true
    · obtain ⟨z,member,like⟩ := any_eq_true.mp before
      rw [if_pos before,if_pos]
      cases first : same y z with
      | true => rw [trans first like,Bool.true_or]
      | false =>
        rw [or_eq_true]
        exact .inr (any_eq_true.mpr ⟨z,mem_filter.mpr ⟨member,by rw [first]; rfl⟩,like⟩)
    · rw [if_neg before,filter_append]
      have others : ((firstOccurrences same l).filter fun z => !same y z).any (same · x) = false := by
        refine Bool.eq_false_iff.mpr fun some => before ?_
        obtain ⟨z,member,like⟩ := any_eq_true.mp some
        exact any_eq_true.mpr ⟨z,(mem_filter.mp member).1,like⟩
      rw [others,Bool.or_false]
      cases first : same y x with
      | true => rw [if_pos rfl,filter_cons_of_neg (by rw [first]; decide),List.filter_nil,append_nil]
      | false =>
        rw [if_neg Bool.false_ne_true,filter_cons_of_pos (by rw [first]; rfl)]
        rfl
end TestEnvironment.Lib
