import TestEnvironment.Lib.Names

/-!
Lists in chunks of a length: all but the last one are full, and there is at least one.
-/
namespace TestEnvironment.Lib
variable {α : Type} {most : Nat} {front l : List α}

def chunksFrom (most : Nat) : Nat → List α → List (List α)
  | 0, l => [l]
  | fuel+1, l => if most < l.length then l.take most :: chunksFrom most fuel (l.drop most) else [l]
def chunks (most : Nat) (l : List α) : List (List α) := chunksFrom most l.length l

theorem chunksFrom_enough (positive : 0 < most) {fuel : Nat} (enough : l.length ≤ fuel) : chunksFrom most fuel l = chunks most l := by
  suffices same : ∀ first second (l : List α), l.length ≤ first → l.length ≤ second → chunksFrom most first l = chunksFrom most second l from
    same fuel l.length l enough (Nat.le_refl _)
  intro first
  induction first with
  | zero =>
    intro second l none _
    obtain rfl := length_eq_zero_iff.mp (le_zero.mp none)
    cases second <;> rfl
  | succ first ih =>
    intro second l enough enough'
    cases second with
    | zero =>
      obtain rfl := length_eq_zero_iff.mp (le_zero.mp enough')
      rfl
    | succ second =>
      rw [chunksFrom,chunksFrom]
      split_ifs with long
      · rw [ih second _ (by rw [length_drop]; omega) (by rw [length_drop]; omega)]
      · rfl
theorem chunks_short (short : l.length ≤ most) : chunks most l = [l] := by
  rw [chunks]
  cases l.length with
  | zero => rfl
  | succ fuel => exact if_neg (Nat.not_lt.mpr short)
/-- A full chunk with something behind it. -/
theorem chunks_full (positive : 0 < most) (full : front.length = most) (more : l ≠ []) :
    chunks most (front ++ l) = front :: chunks most l := by
  have some_more := List.length_pos_of_ne_nil more
  obtain ⟨fuel,length⟩ : ∃ fuel, (front ++ l).length = fuel+1 := ⟨(front ++ l).length-1,by rw [length_append]; omega⟩
  rw [chunks,length,chunksFrom,if_pos (by rw [length_append]; omega),List.take_left' full,List.drop_left' full]
  rw [chunksFrom_enough positive (by rw [length_append] at length; omega)]
/-- Lists by their chunks. -/
theorem chunks_induction {P : List α → Prop} (positive : 0 < most) (last : ∀ l, l.length ≤ most → P l)
    (full : ∀ front l, front.length = most → l ≠ [] → P l → P (front ++ l)) (l : List α) : P l := by
  induction length : l.length using Nat.strongRecOn generalizing l with
  | ind n ih =>
    by_cases short : l.length ≤ most
    · exact last l short
    · have rest : (l.drop most).length < n := by rw [length_drop]; omega
      have step := full (l.take most) (l.drop most) (by rw [length_take]; omega) (List.ne_nil_of_length_pos (by rw [length_drop]; omega))
        (ih _ rest _ rfl)
      rwa [take_append_drop] at step

theorem chunks_most (positive : 0 < most) (l : List α) : ∀ chunk ∈ chunks most l, chunk.length ≤ most := by
  induction l using chunks_induction positive with
  | last l short => rw [chunks_short short]; exact forall_mem_singleton.mpr short
  | full front l full more ih => rw [chunks_full positive full more]; exact forall_mem_cons.mpr ⟨Nat.le_of_eq full,ih⟩
end TestEnvironment.Lib
