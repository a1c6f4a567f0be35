import TestEnvironment.Lib.Names

/-!
A walk over a linked list that replaces the elements it looks for, or takes them out. When an element has been taken out,
the cursor is moved to the next one before the loop moves it once more, so that this one is never looked at.
-/
namespace TestEnvironment.Lib

variable {α : Type} (found : α → Bool) (new : Option α)

/-- Every element that is found is replaced, or left out. -/
def edited (l : List α) : List α := l.flatMap fun x => if found x then new.toList else [x]
/-- The list behind the walk, and whether it was changed. -/
def editWalk : List α → List α × Bool
  | [] => ([],false)
  | x :: l =>
    if found x then match new with
      | some y => (y :: (editWalk l).1,true)
      | none => match l with
        | [] => ([],true)
        | z :: l => (z :: (editWalk l).1,true)
    else (x :: (editWalk l).1,(editWalk l).2)
/-- No two neighbours are found. -/
def NoNeighbours (l : List α) : Prop := l.IsChain fun x y => ¬ (found x = true ∧ found y = true)
instance (l : List α) : Decidable (NoNeighbours found l) := inferInstanceAs (Decidable (l.IsChain fun x y => ¬ (found x = true ∧ found y = true)))

variable {found new} {x y : α} {l : List α}

theorem edited_found (here : found x = true) : edited found new (x :: l) = new.toList ++ edited found new l := by
  rw [edited,flatMap_cons,if_pos here]
  rfl
theorem edited_other (other : ¬ found x = true) : edited found new (x :: l) = x :: edited found new l := by
  rw [edited,flatMap_cons,if_neg other]
  rfl
theorem mem_edited_none (member : x ∈ edited found none l) : ¬ found x = true := by
  obtain ⟨y,_,inside⟩ := mem_flatMap.mp member
  split_ifs at inside with here
  · exact absurd inside not_mem_nil
  · exact mem_singleton.mp inside ▸ here
theorem editWalk_some : (editWalk found (some y) l).1 = edited found (some y) l := by
  induction l with
  | nil => rfl
  | cons x l ih =>
    rw [editWalk]
    by_cases here : found x = true
    · simp [here,ih,edited_found]
    · simp [here,ih,edited_other]
theorem noNeighbours_behind (apart : NoNeighbours found (x :: l)) : NoNeighbours found l := List.IsChain.tail apart
theorem noNeighbours_other (other : ¬ found x = true) : NoNeighbours found (x :: l) ↔ NoNeighbours found l := by
  refine ⟨noNeighbours_behind,fun apart => ?_⟩
  cases l with
  | nil => exact List.IsChain.singleton x
  | cons z l => exact List.isChain_cons_cons.mpr ⟨fun both => other both.1,apart⟩
/-- Where elements are taken out, the walk misses the second of two neighbours. -/
theorem editWalk_none : (editWalk found none l).1 = edited found none l ↔ NoNeighbours found l := by
  induction l using List.twoStepInduction with
  | nil => exact iff_of_true rfl List.IsChain.nil
  | singleton x =>
    refine iff_of_true ?_ (List.IsChain.singleton x)
    by_cases here : found x = true
    · rw [edited_found here,editWalk,if_pos here]
      rfl
    · rw [edited_other here,editWalk,if_neg here]
      rfl
  | cons_cons x z l ih ih' =>
    rw [editWalk.eq_def]
    dsimp only
    by_cases here : found x = true
    · rw [if_pos here,edited_found here]
      by_cases second : found z = true
      · refine iff_of_false (fun same => ?_) (fun apart => (List.isChain_cons_cons.mp apart).1 ⟨here,second⟩)
        have left : z ∈ edited found none (z :: l) := by grind
        exact mem_edited_none left second
      · rw [edited_other second,NoNeighbours,List.isChain_cons_cons,← NoNeighbours,noNeighbours_other second,← ih,and_iff_right fun both => second both.2]
        exact List.cons_inj_right z
    · simp [here,ih',edited_other,noNeighbours_other]
/-- The walk is right if and only if it has something to put in, or what it takes out stands apart. -/
theorem editWalk_iff : (editWalk found new l).1 = edited found new l ↔ new.isSome ∨ NoNeighbours found l := by
  cases new with
  | none => exact editWalk_none.trans (or_iff_right Bool.false_ne_true).symm
  | some y => exact iff_of_true editWalk_some (.inl rfl)
/-- Elements that are like what replaces them leave a list that is like the one before. -/
theorem edited_alike {like : α → α → Prop} (refl : ∀ x, like x x) (alike : ∀ x, found x = true → like x y) (l : List α) :
    List.Forall₂ like l (edited found (some y) l) := by
  induction l with
  | nil => exact .nil
  | cons x l ih =>
    by_cases here : found x = true
    · rw [edited_found here]
      exact .cons (alike x here) ih
    · rw [edited_other here]
      exact .cons (refl x) ih
theorem edited_same (same : ∀ x, found x = true → x = y) (l : List α) : edited found (some y) l = l :=
  (List.forall₂_eq_eq_eq ▸ edited_alike (fun _ => rfl) same l : l = _).symm
end TestEnvironment.Lib
