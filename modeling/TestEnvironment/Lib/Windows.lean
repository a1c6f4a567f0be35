import TestEnvironment.Lib.Names

/-!
Memory as a function from addresses: the values of a stretch of it, and a list that is
put at an address.
-/
namespace TestEnvironment.Lib

variable {α : Type} {mem mem' : Nat → α} {start n m i : Nat} {values values' : List α}

/-- The `n` values from `start` on. -/
def window (mem : Nat → α) (start n : Nat) : List α := (List.range n).map fun i => mem (start+i)
/-- `values` at `start`, and what was there everywhere else. -/
def place (mem : Nat → α) (start : Nat) (values : List α) : Nat → α := fun i => if i < start then mem i else (values[i-start]?).getD (mem i)

section

theorem window_length : (window mem start n).length = n := by rw [window,length_map,List.length_range]
theorem window_congr (same : ∀ i < n, mem' (start+i) = mem (start+i)) : window mem' start n = window mem start n :=
  map_congr_left fun i member => same i (mem_range.mp member)
theorem window_append : window mem start (n+m) = window mem start n ++ window mem (start+n) m := by
  rw [window,List.range_add,map_append,map_map]
  exact congrArg (window mem start n ++ ·) (map_congr_left fun i _ => congrArg mem (Nat.add_assoc start n i).symm)
/-- A value in a stretch that is known. -/
theorem window_get (known : window mem start n = values) (inside : i < n) : some (mem (start+i)) = values[i]? := by
  rw [← known,window,getElem?_map,List.getElem?_range inside]
  rfl

end

section

theorem place_before (before : i < start) : place mem start values i = mem i := if_pos before
theorem place_behind (behind : start+values.length ≤ i) : place mem start values i = mem i := by
  rw [place,if_neg (by omega),getElem?_eq_none (by omega)]
  rfl
theorem place_inside (inside : i < values.length) : some (place mem start values (start+i)) = values[i]? := by
  rw [place,if_neg (by omega),Nat.add_sub_cancel_left,getElem?_eq_getElem inside]
  rfl
theorem window_place : window (place mem start values) start values.length = values := by
  refine List.ext_getElem? fun i => ?_
  by_cases inside : i < values.length
  · rw [← @place_inside α mem start i values inside,← window_get rfl inside]
  · rw [getElem?_eq_none (by rw [window_length]; omega),getElem?_eq_none (by omega)]
theorem window_place_prefix : window (place mem start (values ++ values')) start values.length = values := by
  have whole := @window_place α mem start (values ++ values')
  rw [length_append,window_append] at whole
  exact List.append_inj_left whole window_length
/-- A list that is put over the front of a stretch leaves the rest of the stretch. -/
theorem window_place_front (length : values.length = n) :
    window (place mem start values) start (n+m) = values ++ window mem (start+n) m := by
  subst length
  rw [window_append,window_place]
  exact congrArg (values ++ ·) (window_congr fun i _ => place_behind (by omega))

end

end TestEnvironment.Lib
