import TestEnvironment.Lib.Names

/-!
Lists of intervals that follow one another without a gap, and the interval of such a list that a number is in.
-/
namespace TestEnvironment.Lib

variable {α : Type} (first last : α → Nat)

/-- The intervals fill the numbers from `s` up to, but without, `e`. -/
def Covers : Nat → Nat → List α → Prop
  | s, e, [] => s = e
  | s, e, x :: l => first x = s ∧ s ≤ last x ∧ Covers (last x+1) e l
def Contains (d : Nat) (x : α) : Prop := first x ≤ d ∧ d ≤ last x
instance (d : Nat) (x : α) : Decidable (Contains first last d x) := inferInstanceAs (Decidable (_ ∧ _))
/-- The first interval that has the number. -/
def intervalAt (l : List α) (d : Nat) : Option α := l.find? fun x => Contains first last d x

variable {first last} {s e m d : Nat} {l l' : List α} {x : α}

theorem covers_append : Covers first last s e (l ++ l') ↔ ∃ m, Covers first last s m l ∧ Covers first last m e l' := by
  induction l generalizing s with
  | nil => exact ⟨fun covers => ⟨s,rfl,covers⟩,fun ⟨m,same,covers⟩ => (show s = m from same) ▸ covers⟩
  | cons x l ih =>
    rw [cons_append,Covers,ih]
    exact ⟨fun ⟨here,full,m,front,behind⟩ => ⟨m,⟨here,full,front⟩,behind⟩,fun ⟨m,⟨here,full,front⟩,behind⟩ => ⟨here,full,m,front,behind⟩⟩
theorem covers_le (covers : Covers first last s e l) : s ≤ e := by
  induction l generalizing s with
  | nil => exact Nat.le_of_eq covers
  | cons x l ih => exact Nat.le_trans (Nat.le_trans covers.2.1 (le_succ _)) (ih covers.2.2)
theorem covers_mem (covers : Covers first last s e l) (member : x ∈ l) : s ≤ first x ∧ first x ≤ last x ∧ last x < e := by
  induction l generalizing s with
  | nil => exact absurd member not_mem_nil
  | cons y l ih =>
    obtain ⟨here,full,later⟩ := covers
    obtain rfl | member := mem_cons.mp member
    · exact ⟨Nat.le_of_eq here.symm,here ▸ full,covers_le later⟩
    · obtain ⟨low,inside,high⟩ := ih later member
      exact ⟨Nat.le_trans (Nat.le_trans full (le_succ _)) low,inside,high⟩
/-- Every number of the range is in an interval. -/
theorem covers_split (covers : Covers first last s e l) (low : s ≤ d) (high : d < e) :
    ∃ front x rest, l = front ++ x :: rest ∧ Contains first last d x ∧ Covers first last s (first x) front ∧ Covers first last (last x+1) e rest := by
  induction l generalizing s with
  | nil => exact absurd (show s = e from covers) (by omega)
  | cons y l ih =>
    obtain ⟨here,full,later⟩ := covers
    by_cases inside : d ≤ last y
    · exact ⟨[],y,l,rfl,⟨here ▸ low,inside⟩,here.symm,later⟩
    · obtain ⟨front,x,rest,rfl,has,before,behind⟩ := ih later (by omega)
      exact ⟨y :: front,x,rest,rfl,has,⟨here,full,before⟩,behind⟩
theorem intervalAt_front (front : Covers first last s m l) (high : m ≤ d) (l' : List α) : intervalAt first last (l ++ l') d = intervalAt first last l' d := by
  rw [intervalAt,List.find?_append,find?_eq_none.mpr,Option.none_or]
  · rfl
  · intro x member has
    have := covers_mem front member
    have := of_decide_eq_true has
    exact absurd this.2 (by omega)
/-- The interval that has a number is the only one. -/
theorem intervalAt_mem (covers : Covers first last s e l) (member : x ∈ l) (has : Contains first last d x) : intervalAt first last l d = some x := by
  obtain ⟨front,rest,rfl⟩ := append_of_mem member
  obtain ⟨m,before,behind⟩ := covers_append.mp covers
  rw [intervalAt_front before (by rw [← behind.1]; exact has.1),intervalAt,List.find?_cons,decide_eq_true has]
end TestEnvironment.Lib
