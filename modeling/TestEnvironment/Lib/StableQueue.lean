import TestEnvironment.Lib.Sorted

/-!
Stable priority queues: a list in the order of keys that keeps the order of what has equal
keys. Its first element is the least of those that wait, the first one of these.
-/
namespace TestEnvironment.Lib
variable {α β : Type*} [LinearOrder β] {key : α → β} {served waiting front behind : List α} {x : α}

/-- `served` is `waiting` in the order of keys, elements with equal keys in their order. -/
structure StableBy (key : α → β) (served waiting : List α) : Prop where
  sorted : SortedBy key served
  ties : ∀ k, served.filter (fun a => key a = k) = waiting.filter fun a => key a = k

theorem StableBy.nil : StableBy key [] [] := ⟨List.Pairwise.nil,fun _ => rfl⟩
theorem StableBy.mem_iff (stable : StableBy key served waiting) {a : α} : a ∈ served ↔ a ∈ waiting := by
  have ties := stable.ties (key a)
  have mine : ∀ l : List α, a ∈ l ↔ a ∈ l.filter fun b => key b = key a := fun l => by simp
  rw [mine served,mine waiting,ties]
theorem StableBy.empty (stable : StableBy key [] waiting) : waiting = [] :=
  List.eq_nil_iff_forall_not_mem.mpr fun _ mem => not_mem_nil (stable.mem_iff.mpr mem)
/-- What comes in is put behind all that is not above it and before all that is. -/
theorem StableBy.insert (stable : StableBy key (front ++ behind) waiting) (low : ∀ a ∈ front, key a ≤ key x)
    (high : ∀ b ∈ behind, key x < key b) : StableBy key (front ++ x :: behind) (waiting ++ [x]) := by
  refine ⟨stable.sorted.insert low fun b mem => (high b mem).le,fun k => ?_⟩
  have ties := stable.ties k
  rw [filter_append] at ties
  rw [filter_append,filter_append,← ties]
  by_cases mine : key x = k
  · have none : behind.filter (fun a => key a = k) = [] := filter_eq_nil_iff.mpr fun b mem => by
      have above := high b mem
      simp [← mine,above.ne']
    rw [filter_cons_of_pos (by simpa using mine),none,filter_cons_of_pos (by simpa using mine),append_nil]
    rfl
  · simp [mine]

section
variable [DecidableEq α]

theorem idxOf_first {p : α → Bool} {l rest : List α} {a : α} (first : l.filter p = x :: rest) (mem : a ∈ l) (mine : p a = true) :
    l.idxOf x ≤ l.idxOf a := by
  induction l with
  | nil => simp at mem
  | cons b l ih => grind
/-- What leaves is the least of what waits, the first of those, and the rest stays in order. -/
theorem StableBy.serve (stable : StableBy key (x :: served) waiting) :
    waiting.argmin key = some x ∧ StableBy key served (waiting.erase x) := by
  obtain ⟨least,sorted⟩ := SortedBy.cons_iff.mp stable.sorted
  have mine := stable.ties (key x)
  rw [filter_cons_of_pos (by simp)] at mine
  constructor
  · refine List.mem_argmin_iff.mpr ⟨stable.mem_iff.mp mem_cons_self,fun a mem => ?_,fun a mem low => ?_⟩
    · rcases mem_cons.mp (stable.mem_iff.mpr mem) with rfl | later
      · exact le_rfl
      · exact least a later
    · have same : key a = key x := by
        refine low.antisymm ?_
        rcases mem_cons.mp (stable.mem_iff.mpr mem) with rfl | later
        · exact le_rfl
        · exact least a later
      exact idxOf_first mine.symm mem (by simpa using same)
  · refine ⟨sorted,fun k => ?_⟩
    have ties := stable.ties k
    rw [← List.erase_filter,← ties]
    by_cases same : key x = k
    · simp [same]
    · rw [filter_cons_of_neg (by simpa using same),List.erase_of_not_mem fun mem => same (by simpa using (mem_filter.mp mem).2)]
theorem StableBy.perm (stable : StableBy key served waiting) : served.Perm waiting := by
  refine List.perm_iff_count.mpr fun a => ?_
  have mine : ∀ l : List α, l.count a = (l.filter fun b => key b = key a).count a := fun l =>
    (List.count_filter (by simp)).symm
  rw [mine served,mine waiting,stable.ties]
end
end TestEnvironment.Lib
