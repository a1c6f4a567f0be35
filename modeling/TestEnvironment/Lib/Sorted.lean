import TestEnvironment.Lib.Names

/-!
Lists sorted by a key: inserting between what is not above and what is not below, the parts that
a scan from either end passes, and a binary search for the first key that is large enough.
-/
namespace TestEnvironment.Lib

section
variable {α β : Type*} [LinearOrder β] {key : α → β} {l l₁ l₂ : List α} {x : α} {k : β}

def SortedBy (key : α → β) (l : List α) : Prop := l.Pairwise fun a b => key a ≤ key b

theorem SortedBy.append_iff : SortedBy key (l₁ ++ l₂) ↔ SortedBy key l₁ ∧ SortedBy key l₂ ∧ ∀ a ∈ l₁, ∀ b ∈ l₂, key a ≤ key b :=
  pairwise_append
theorem SortedBy.cons_iff : SortedBy key (x :: l) ↔ (∀ b ∈ l, key x ≤ key b) ∧ SortedBy key l := pairwise_cons
/-- A new element between elements that are not above and elements that are not below. -/
theorem SortedBy.insert (sorted : SortedBy key (l₁ ++ l₂)) (low : ∀ a ∈ l₁, key a ≤ key x) (high : ∀ b ∈ l₂, key x ≤ key b) :
    SortedBy key (l₁ ++ x :: l₂) := by
  obtain ⟨first,second,between⟩ := append_iff.mp sorted
  refine append_iff.mpr ⟨first,cons_iff.mpr ⟨high,second⟩,?_⟩
  intro a left b right
  obtain rfl | later := mem_cons.mp right
  · exact low a left
  · exact between a left b later
theorem takeWhile_lt (key : α → β) (passed : x ∈ l.takeWhile fun a => key a < k) : key x < k := by simpa using List.mem_takeWhile_imp passed
theorem takeWhile_gt (key : α → β) (passed : x ∈ l.takeWhile fun a => k < key a) : k < key x := by simpa using List.mem_takeWhile_imp passed
/-- Behind the first element that is not passed none would be, if that spreads along the list. -/
theorem stops_dropWhile {R : α → α → Prop} {p : α → Bool} (pairs : l.Pairwise R) (spreads : ∀ {a b}, R a b → p a = false → p b = false) :
    ∀ b ∈ l.dropWhile p, p b = false := by
  induction l with
  | nil => simp
  | cons a l ih =>
    obtain ⟨first,rest⟩ := pairwise_cons.mp pairs
    cases passes : p a with
    | true =>
      rw [dropWhile_cons_of_pos passes]
      exact ih rest
    | false =>
      rw [dropWhile_cons_of_neg (by simp [passes])]
      exact forall_mem_cons.mpr ⟨passes,fun b later => spreads (first b later) passes⟩
/-- A scan from the front stops before the first key that is large enough. -/
theorem SortedBy.dropWhile_ge (sorted : SortedBy key l) : ∀ b ∈ l.dropWhile (fun a => key a < k), k ≤ key b := by
  have stops := stops_dropWhile (p := fun a => decide (key a < k)) sorted fun order high => by
    simp only [decide_eq_false_iff_not,not_lt] at high ⊢
    exact high.trans order
  simpa using stops
/-- A scan from the back stops behind the last key that is small enough. -/
theorem SortedBy.back_le (sorted : SortedBy key l) : ∀ b ∈ l.reverse.dropWhile (fun a => k < key a), key b ≤ k := by
  have stops := stops_dropWhile (p := fun a => decide (k < key a)) (List.pairwise_reverse.mpr sorted) fun order low => by
    simp only [decide_eq_false_iff_not,not_lt] at low ⊢
    exact order.trans low
  simpa using stops
theorem SortedBy.map_iff {γ : Type*} {f : γ → α} {c : List γ} : SortedBy key (c.map f) ↔ SortedBy (fun x => key (f x)) c := pairwise_map
/-- No key is above the last one. -/
theorem SortedBy.le_last (sorted : SortedBy key (l ++ [x])) : ∀ a ∈ l ++ [x], key a ≤ key x := by
  obtain ⟨-,-,between⟩ := append_iff.mp sorted
  intro a member
  obtain old | new := mem_append.mp member
  · exact between a old x mem_cons_self
  · rw [mem_singleton.mp new]
end
end TestEnvironment.Lib
