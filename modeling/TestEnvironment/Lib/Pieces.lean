import TestEnvironment.Lib.Names

/-!
Texts cut into pieces at a delimiter, read in one go or in parts: the pieces that are complete
and the beginning of the next one.
-/
namespace TestEnvironment.Lib
variable {α β : Type} [DecidableEq α] (stop : α) (finish : List α → β)

/-- The finished pieces and what is left behind the last delimiter, `cur` being what was left before. -/
def pieces : List α → List α → List β × List α
  | cur, [] => ([],cur)
  | cur, c :: s =>
    if c = stop then
      let (done,rest) := pieces [] s
      (finish cur :: done,rest)
    else pieces (cur ++ [c]) s
/-- All pieces; what is left at the end is one, unless it is empty. -/
def allPieces (s : List α) : List β :=
  (pieces stop finish [] s).1 ++ if (pieces stop finish [] s).2 = [] then [] else [finish (pieces stop finish [] s).2]

variable {stop finish} {cur s t : List α}

theorem pieces_plain (plain : stop ∉ s) (cur : List α) : pieces stop finish cur s = ([],cur ++ s) := by
  induction s generalizing cur with
  | nil => simp [pieces]
  | cons c s ih =>
    obtain ⟨other,later⟩ := List.ne_and_not_mem_of_not_mem_cons plain
    rw [pieces,if_neg (Ne.symm other),ih later]
    simp
theorem pieces_append (cur s t : List α) : pieces stop finish cur (s ++ t) =
    ((pieces stop finish cur s).1 ++ (pieces stop finish (pieces stop finish cur s).2 t).1,
      (pieces stop finish (pieces stop finish cur s).2 t).2) := by
  induction s generalizing cur with
  | nil => rfl
  | cons c s ih =>
    rw [cons_append,pieces,pieces]
    split_ifs
    · rw [ih]
      rfl
    · exact ih _
theorem pieces_stop (plain : stop ∉ s) (t : List α) :
    pieces stop finish [] (s ++ stop :: t) = (finish s :: (pieces stop finish [] t).1,(pieces stop finish [] t).2) := by
  rw [pieces_append,pieces_plain plain,nil_append,pieces,if_pos rfl]
  rfl
theorem pieces_rest (plain : stop ∉ cur) (s : List α) : stop ∉ (pieces stop finish cur s).2 := by
  induction s generalizing cur with
  | nil => exact plain
  | cons c s ih =>
    rw [pieces]
    split_ifs with here
    · exact ih not_mem_nil
    · exact ih (by simpa [Ne.symm here] using plain)
/-- What was left before is as if it had come with the text. -/
theorem pieces_left (plain : stop ∉ cur) (s : List α) : pieces stop finish [] (cur ++ s) = pieces stop finish cur s := by
  rw [pieces_append,pieces_plain plain]
  rfl
theorem pieces_subset (cur s : List α) : (pieces stop finish cur s).2 ⊆ cur ++ s := by
  induction s generalizing cur with
  | nil => simp [pieces]
  | cons c s ih =>
    rw [pieces]
    split_ifs
    · exact fun x member => mem_append_right _ (mem_cons_of_mem _ (ih [] member))
    · exact fun x member => by simpa using ih _ member
theorem pieces_length (cur s : List α) : (pieces stop finish cur s).2.length ≤ cur.length+s.length := by
  induction s generalizing cur with
  | nil => exact Nat.le_refl _
  | cons c s ih =>
    have short := ih []
    have long := ih (cur ++ [c])
    simp only [length_nil,length_append,length_cons] at short long ⊢
    rw [pieces]
    split_ifs
    · exact Nat.le_trans short (by omega)
    · omega
end TestEnvironment.Lib
