import TestEnvironment.Lib.Names

/-!
Buffers as lists of cells: consecutive cells overwritten, and what the buffer starts with
afterwards.
-/
namespace TestEnvironment.Lib
variable {α : Type} {cells front new : List α} {off : Nat}

/-- The cells from `off` on overwritten by the new ones. -/
def overwrite (cells : List α) (off : Nat) (new : List α) : List α :=
  cells.take off ++ new ++ cells.drop (off+new.length)

theorem overwrite_length (inside : off+new.length ≤ cells.length) : (overwrite cells off new).length = cells.length := by
  simp only [overwrite,length_append,length_take,length_drop]
  omega
theorem take_of_start (start : front <+: cells) (within : off ≤ front.length) : cells.take off = front.take off := by
  obtain ⟨rest,rfl⟩ := start
  exact take_append_of_le_length within
/-- What the buffer starts with is kept up to the first cell overwritten. -/
theorem overwrite_front (start : front <+: cells) (within : off ≤ front.length) : front.take off ++ new <+: overwrite cells off new := by
  rw [overwrite,take_of_start start within]
  exact prefix_append _ _
/-- New cells right behind what the buffer starts with. -/
theorem overwrite_append (start : front <+: cells) : front ++ new <+: overwrite cells front.length new := by
  have kept := @overwrite_front _ _ _ new _ start le_rfl
  rwa [take_length] at kept
/-- One cell overwritten within what the buffer starts with. -/
theorem overwrite_cell {before behind : List α} {old put : α} (start : before ++ old :: behind <+: cells) :
    before ++ put :: behind <+: overwrite cells before.length [put] := by
  obtain ⟨rest,rfl⟩ := start
  have front : (before ++ old :: behind ++ rest).take before.length = before := by
    rw [append_assoc,take_left]
  have rear : (before ++ old :: behind ++ rest).drop (before.length+[put].length) = behind ++ rest := by
    rw [append_assoc,List.drop_append,drop_of_length_le (by simp)]
    simp
  rw [overwrite,front,rear]
  exact ⟨rest,by simp⟩
theorem prefix_resize {size : Nat} {fill : α} (start : front <+: cells) :
    front <+: cells ++ replicate (size-cells.length) fill := start.trans (prefix_append _ _)
/-- A part replaced: what stands behind it is moved first, then the new cells are written. -/
theorem overwrite_move {before part behind : List α} (start : before ++ part ++ behind <+: cells)
    (fits : before.length+new.length+behind.length ≤ cells.length) :
    before ++ new ++ behind <+:
      overwrite (overwrite cells (before.length+new.length) ((cells.drop (before.length+part.length)).take behind.length)) before.length new := by
  obtain ⟨rest,rfl⟩ := start
  have moved : ((before ++ part ++ behind ++ rest).drop (before.length+part.length)).take behind.length = behind := by
    rw [append_assoc (before ++ part),← length_append,drop_left,take_left]
  rw [moved]
  generalize whole : before ++ part ++ behind ++ rest = cells at fits
  have front : cells.take before.length = before := by
    rw [← whole,append_assoc,append_assoc,take_left]
  have twice : (cells.take (before.length+new.length)).take before.length = before := by
    rw [List.take_take,Nat.min_eq_left (Nat.le_add_right _ _),front]
  have long : (cells.take (before.length+new.length)).length = before.length+new.length := by
    rw [length_take]
    omega
  have kept : (overwrite cells (before.length+new.length) behind).take before.length = before := by
    rw [overwrite,append_assoc,take_append_of_le_length (by omega),twice]
  have rear : (overwrite cells (before.length+new.length) behind).drop (before.length+new.length) =
      behind ++ cells.drop (before.length+new.length+behind.length) := by
    rw [overwrite,append_assoc,List.drop_left' long]
  rw [overwrite,kept,rear,← append_assoc]
  exact prefix_append _ _

end TestEnvironment.Lib
