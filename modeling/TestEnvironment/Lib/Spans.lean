import TestEnvironment.Lib.Names

/-!
Ranges of consecutive numbers, and lists of things that each stand for one
range. Sorted lists of disjoint ranges stand for functions of the numbers: the
value of the range that has the number, or a default.
-/
namespace TestEnvironment.Lib
universe u v

/-- The numbers from `first` to `last`. -/
structure Span where
  first : Nat
  last : Nat
  deriving DecidableEq, Repr

namespace Span
variable {s : Span} {i j : Nat}

def Has (s : Span) (i : Nat) : Prop := s.first ≤ i ∧ i ≤ s.last
instance (s : Span) (i : Nat) : Decidable (s.Has i) := inferInstanceAs (Decidable (_ ∧ _))
/-- The numbers in their order. -/
def ids (s : Span) : List Nat := List.range' s.first (s.last+1-s.first)

@[simp] theorem mem_ids : i ∈ s.ids ↔ s.Has i := by
  rw [ids,List.mem_range'_1,Has]
  omega
theorem ids_empty (empty : s.last < s.first) : s.ids = [] := by
  rw [ids,show s.last+1-s.first = 0 by omega]
  rfl
/-- A range cut in front of `j`. -/
theorem ids_cut (above : s.first ≤ j) (below : j ≤ s.last+1) : s.ids = List.range' s.first (j-s.first) ++ ids ⟨j,s.last⟩ := by
  rw [ids,ids,show s.last+1-s.first = (j-s.first)+(s.last+1-j) by omega,← List.range'_append_1]
  rw [show s.first+(j-s.first) = j by omega]
end Span

/-- The ranges are not empty, and each is behind the ones before it. -/
structure Apart (l : List Span) : Prop where
  proper : ∀ s ∈ l, s.first ≤ s.last
  sorted : l.Pairwise fun s t => s.last < t.first

namespace Apart
variable {s : Span} {l l' : List Span}

theorem nil : Apart [] := ⟨by simp,.nil⟩
theorem cons_iff : Apart (s :: l) ↔ s.first ≤ s.last ∧ (∀ t ∈ l, s.last < t.first) ∧ Apart l := by
  constructor
  · intro apart
    obtain ⟨behind,sorted⟩ := pairwise_cons.mp apart.sorted
    exact ⟨apart.proper s (by simp),behind,fun t member => apart.proper t (by simp [member]),sorted⟩
  · rintro ⟨proper,behind,rest⟩
    exact ⟨fun t member => (mem_cons.mp member).elim (fun same => same ▸ proper) (rest.proper t),
      pairwise_cons.mpr ⟨behind,rest.sorted⟩⟩
theorem append_iff : Apart (l ++ l') ↔ Apart l ∧ Apart l' ∧ ∀ s ∈ l, ∀ t ∈ l', s.last < t.first := by
  constructor
  · intro apart
    obtain ⟨left,right,across⟩ := pairwise_append.mp apart.sorted
    exact ⟨⟨fun s member => apart.proper s (by simp [member]),left⟩,
      ⟨fun s member => apart.proper s (by simp [member]),right⟩,across⟩
  · rintro ⟨left,right,across⟩
    exact ⟨fun s member => (mem_append.mp member).elim (left.proper s) (right.proper s),
      pairwise_append.mpr ⟨left.sorted,right.sorted,across⟩⟩
end Apart

section
variable {α : Type u} {V : Type v} (span : α → Span) (val : α → V) (zero : V)

/-- The value of the first range with the number. -/
def valueAt : List α → Nat → V
  | [], _ => zero
  | a :: l, i => if (span a).Has i then val a else valueAt l i

variable {span val zero} {a : α} {l l' : List α} {i : Nat}

@[simp] theorem valueAt_nil : valueAt span val zero [] i = zero := rfl
theorem valueAt_cons : valueAt span val zero (a :: l) i = if (span a).Has i then val a else valueAt span val zero l i := rfl
/-- No range has the number. -/
theorem valueAt_none (none' : ∀ a ∈ l, ¬ (span a).Has i) : valueAt span val zero l i = zero := by
  induction l with
  | nil => rfl
  | cons a l ih => simp_all [valueAt_cons]
theorem valueAt_append_left (none' : ∀ a ∈ l', ¬ (span a).Has i) :
    valueAt span val zero (l ++ l') i = valueAt span val zero l i := by
  induction l with
  | nil => exact valueAt_none none'
  | cons a l ih => rw [cons_append,valueAt_cons,valueAt_cons,ih]
theorem valueAt_append_right (none' : ∀ a ∈ l, ¬ (span a).Has i) :
    valueAt span val zero (l ++ l') i = valueAt span val zero l' i := by
  induction l with
  | nil => rfl
  | cons a l ih =>
    rw [cons_append,valueAt_cons,if_neg (none' a (by simp))]
    exact ih fun b member => none' b (by simp [member])
/-- In a sorted list of disjoint ranges every range gives its own numbers its value. -/
theorem valueAt_mem (apart : Apart (l.map span)) (member : a ∈ l) (has : (span a).Has i) :
    valueAt span val zero l i = val a := by
  induction l with
  | nil => simp at member
  | cons b l ih =>
    rw [map_cons,Apart.cons_iff] at apart
    obtain ⟨_,behind,rest⟩ := apart
    rcases mem_cons.mp member with rfl | inside
    · rw [valueAt_cons,if_pos has]
    · have after := behind (span a) (mem_map_of_mem inside)
      rw [valueAt_cons,if_neg (by rintro ⟨_,low⟩; have := has.1; omega)]
      exact ih rest inside
end
end TestEnvironment.Lib
