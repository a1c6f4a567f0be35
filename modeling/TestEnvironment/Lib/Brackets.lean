import TestEnvironment.Lib.Names

/-!
Texts with brackets: how deep a text ends, balanced texts, and separators outside all brackets.
-/
namespace TestEnvironment.Lib
universe u
variable {α : Type u} [DecidableEq α] {up down : α} {s t front : List α} {c : α} {limit : Int}

/-- The opening brackets less the closing ones. -/
def net (up down : α) (s : List α) : Int := s.count up-s.count down
/-- No closing bracket without an opening one before it, and none left open. -/
structure Balanced (up down : α) (s : List α) : Prop where
  inside : ∀ front, front <+: s → 0 ≤ net up down front
  even : net up down s = 0
/-- No position is as deep as the limit. -/
def Shallow (up down : α) (limit : Int) (s : List α) : Prop := ∀ front, front <+: s → net up down front < limit
/-- No separator stands outside all brackets. -/
def TopFree (up down : α) (sep : α) (s : List α) : Prop := ∀ front, front ++ [sep] <+: s → net up down front ≠ 0

@[simp] theorem net_nil : net up down [] = 0 := by simp [net]
@[simp] theorem net_append (s t : List α) : net up down (s ++ t) = net up down s+net up down t := by
  simp only [net,List.count_append]
  omega
theorem net_cons (c : α) (s : List α) : net up down (c :: s) = net up down [c]+net up down s := net_append [c] s
theorem net_up (different : up ≠ down) : net up down [up] = 1 := by simp [net,different]
theorem net_down (different : up ≠ down) : net up down [down] = -1 := by simp [net,different.symm]
theorem net_plain (notUp : c ≠ up) (notDown : c ≠ down) : net up down [c] = 0 := by simp [net,notUp,notDown]
theorem net_reverse (up down : α) (s : List α) : net down up s.reverse = -net up down s := by
  simp only [net,List.count_reverse]
  omega
omit [DecidableEq α] in
/-- A prefix of a text is one of its first part, or reaches into the second. -/
theorem prefix_parts (start : front <+: s ++ t) : front <+: s ∨ ∃ rest, rest <+: t ∧ front = s ++ rest := by
  rcases List.prefix_or_prefix_of_prefix start (prefix_append s t) with within | ⟨rest,rfl⟩
  · exact .inl within
  · exact .inr ⟨rest,(List.prefix_append_right_inj s).mp start,rfl⟩

namespace Balanced
theorem plain (notUp : c ≠ up) (notDown : c ≠ down) : Balanced up down [c] := by
  refine ⟨fun front start => ?_,net_plain notUp notDown⟩
  cases front with
  | nil => simp
  | cons d rest =>
    obtain ⟨rfl,later⟩ := List.cons_prefix_cons.mp start
    rw [List.prefix_nil.mp later]
    exact Int.le_of_eq (net_plain notUp notDown).symm
theorem append (first : Balanced up down s) (second : Balanced up down t) : Balanced up down (s ++ t) := by
  constructor
  · intro front start
    rcases prefix_parts start with within | ⟨rest,later,rfl⟩
    · exact first.inside front within
    · simp [first.even,second.inside,later]
  · rw [net_append,first.even,second.even,Int.zero_add]
/-- Read from its end, a balanced text is balanced, with the brackets the other way. -/
theorem reverse (balanced : Balanced up down s) : Balanced down up s.reverse := by
  constructor
  · intro front start
    obtain ⟨rest,parts⟩ := start
    have whole : s = rest.reverse ++ front.reverse := by rw [← reverse_append,parts,reverse_reverse]
    have deep := balanced.inside rest.reverse (by rw [whole]; exact prefix_append _ _)
    have even := balanced.even
    rw [whole,net_append] at even
    have turned := net_reverse down up front
    omega
  · rw [net_reverse,balanced.even,Int.neg_zero]
end Balanced

theorem Shallow.reverse (balanced : Balanced up down s) (shallow : Shallow up down limit s) : Shallow down up limit s.reverse := by
  intro front start
  obtain ⟨rest,parts⟩ := start
  have whole : s = rest.reverse ++ front.reverse := by rw [← reverse_append,parts,reverse_reverse]
  have deep := shallow rest.reverse (by rw [whole]; exact prefix_append _ _)
  have even := balanced.even
  rw [whole,net_append] at even
  have turned := net_reverse down up front
  omega
theorem Shallow.before (shallow : Shallow up down limit (s ++ t)) : Shallow up down limit s :=
  fun front start => shallow front (start.trans (prefix_append s t))
theorem Shallow.behind (shallow : Shallow up down limit (s ++ t)) (first : net up down s = 0) : Shallow up down limit t := by
  intro front start
  have deep := shallow (s ++ front) ((List.prefix_append_right_inj s).mpr start)
  rwa [net_append,first,Int.zero_add] at deep
theorem Shallow.mono {limit' : Int} (shallow : Shallow up down limit s) (more : limit ≤ limit') : Shallow up down limit' s :=
  fun front start => Int.lt_of_lt_of_le (shallow front start) more
/-- Without opening brackets no position is deep. -/
theorem Shallow.absent (none' : up ∉ s) (positive : 0 < limit) : Shallow up down limit s := by
  rintro front ⟨rest,rfl⟩
  have zero : front.count up = 0 := List.count_eq_zero.mpr fun member => none' (mem_append_left rest member)
  rw [net,zero]
  omega
theorem TopFree.absent {sep : α} (none' : sep ∉ s) : TopFree up down sep s := by
  rintro front ⟨rest,rfl⟩
  exact absurd (by simp) none'
theorem TopFree.reverse {sep : α} (balanced : Balanced up down s) (free : TopFree up down sep s) (notUp : sep ≠ up) (notDown : sep ≠ down) :
    TopFree down up sep s.reverse := by
  rintro front ⟨rest,parts⟩ zero
  have whole : s = rest.reverse ++ ([sep] ++ front.reverse) := by
    have turned := congrArg List.reverse parts
    simpa using turned.symm
  have even := balanced.even
  rw [whole,net_append,net_append,net_plain notUp notDown] at even
  have turned := net_reverse down up front
  refine free rest.reverse ⟨front.reverse,by rw [whole]; simp⟩ ?_
  omega
end TestEnvironment.Lib
