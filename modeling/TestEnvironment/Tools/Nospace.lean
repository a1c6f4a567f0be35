import TestEnvironment.Lib.Gaps
import TestEnvironment.Lib.Strings

/-!
Comparison of strings up to white space (`te_str_is_equal_nospace` of `te_str.c`) against the
`normalize` filter of `te_expand.c`. The destination of the filter is given by its text.
-/
namespace TestEnvironment.Tools
open Lib

section
/-- An inner loop of `te_str_is_equal_nospace`, with the flag that it sets. -/
def skipSpaces (has_space : Bool) : CStr → Bool × CStr
  | [] => (has_space,[])
  | c :: str => if isspace c then skipSpaces true str else (has_space,c :: str)
/-- The outer loop; a character read at the end of a string is the terminating zero. -/
def equalLoop : Nat → Bool → Bool → CStr → CStr → Bool
  | 0, _, _, _, _ => true
  | fuel+1, has_space1, has_space2, str1, str2 =>
    if str1 ≠ [] ∨ str2 ≠ [] then
      let (has_space1,str1) := skipSpaces has_space1 str1
      let (has_space2,str2) := skipSpaces has_space2 str2
      if str1.head? ≠ str2.head? then false
      else if has_space1 ≠ has_space2 ∧ str1 ≠ [] then false
      else equalLoop fuel false false str1.tail str2.tail
    else true
/-- Every turn but the last reads a character of one of the strings. -/
def te_str_is_equal_nospace (str1 str2 : CStr) : Bool := equalLoop (str1.length+str2.length+1) true true str1 str2
end

section
/-- The loop of `normalize_filter`. -/
def normalizeLoop : Bool → CStr → CStr → Bool × CStr
  | after_space, [], dest => (after_space,dest)
  | after_space, c :: iter, dest =>
    normalizeLoop (isspace c) iter (if ¬ isspace c then dest ++ [c] else if ¬ after_space then dest ++ [' '] else dest)
/-- The status and the destination. -/
def normalize_filter (src dest : CStr) : Nat × CStr :=
  let prev_len := dest.length
  let (after_space,dest) := normalizeLoop true src dest
  (0,if after_space ∧ prev_len < dest.length then dest.take (dest.length-1) else dest)
end

section
variable {str str1 str2 : CStr}

/-- White space is skipped up to a character that is marked with the flag. -/
theorem skipSpaces_marked (has_space : Bool) (str : CStr) :
    marked isspace has_space str = (match (skipSpaces has_space str).2 with
      | [] => []
      | c :: rest => ((skipSpaces has_space str).1,c) :: marked isspace false rest) ∧
    (skipSpaces has_space str).2.length ≤ str.length := by
  induction str generalizing has_space with
  | nil => exact ⟨rfl,le_rfl⟩
  | cons c str ih =>
    cases space : isspace c with
    | true => simp [space,ih,marked_blank,Nat.le_succ_of_le,skipSpaces]
    | false =>
      rw [marked_symbol space,skipSpaces,if_neg (by simp [space])]
      exact ⟨rfl,le_rfl⟩
theorem equalLoop_marked {fuel : Nat} (has_space1 has_space2 : Bool) (enough : str1.length+str2.length < fuel) :
    equalLoop fuel has_space1 has_space2 str1 str2 = true ↔ marked isspace has_space1 str1 = marked isspace has_space2 str2 := by
  induction fuel generalizing has_space1 has_space2 str1 str2 with
  | zero => omega
  | succ fuel ih =>
    rw [equalLoop]
    by_cases more : str1 ≠ [] ∨ str2 ≠ []
    · obtain ⟨marks1,shorter1⟩ := skipSpaces_marked has_space1 str1
      obtain ⟨marks2,shorter2⟩ := skipSpaces_marked has_space2 str2
      rw [if_pos more,marks1,marks2]
      clear marks1 marks2
      generalize skipSpaces has_space1 str1 = skipped1 at shorter1 ⊢
      generalize skipSpaces has_space2 str2 = skipped2 at shorter2 ⊢
      obtain ⟨gap1,rest1⟩ := skipped1
      obtain ⟨gap2,rest2⟩ := skipped2
      cases rest1 with
      | nil =>
        cases rest2 with
        | nil =>
          have positive : 0 < str1.length+str2.length := by
            rcases more with some1 | some2
            · have := length_pos_iff.mpr some1; omega
            · have := length_pos_iff.mpr some2; omega
          have ended := @ih [] [] false false (by simp only [length_nil]; omega)
          simpa [marked] using ended
        | cons d rest2 => simp
      | cons c rest1 => grind
    · obtain ⟨rfl,rfl⟩ : str1 = [] ∧ str2 = [] := by simpa using more
      simp [marked]
theorem equal_nospace_iff : te_str_is_equal_nospace str1 str2 = true ↔ marked isspace true str1 = marked isspace true str2 :=
  equalLoop_marked true true (lt_succ_self _)

/-- Nothing is written for white space behind a space. -/
theorem normalizeLoop_blank (dest : CStr) (none : marked isspace true str = []) : normalizeLoop true str dest = (true,dest) := by
  induction str with
  | nil => rfl
  | cons c str ih => grind [marked_blank,marked_symbol,normalizeLoop]
/-- What is written behind a character, and behind a space: where white space is the last, a space for it. -/
theorem normalizeLoop_marked (str dest : CStr) :
    (normalizeLoop false str dest).2 =
      dest ++ filled ' ' (marked isspace false str) ++ (if (normalizeLoop false str dest).1 then [' '] else []) ∧
    (marked isspace true str ≠ [] → (normalizeLoop true str dest).2 =
      dest ++ (filled ' ' (marked isspace true str)).tail ++ (if (normalizeLoop true str dest).1 then [' '] else [])) := by
  induction str generalizing dest with
  | nil => simp [normalizeLoop,marked,filled]
  | cons c str ih =>
    cases space : isspace c with
    | true =>
      rw [marked_blank space,marked_blank space]
      have next : normalizeLoop false (c :: str) dest = normalizeLoop true str (dest ++ [' ']) := by simp [normalizeLoop,space]
      have skip : normalizeLoop true (c :: str) dest = normalizeLoop true str dest := by simp [normalizeLoop,space]
      refine ⟨?_,fun some' => by rw [skip]; exact (ih dest).2 some'⟩
      rw [next]
      -- the space is the gap before the next word, if there is one
      rcases @marked_gap _ isspace str with none | ⟨d,later,_,first⟩
      · simp [normalizeLoop_blank _ none,none,filled]
      · simp [ih,first,filled]
    | false =>
      have rest := (ih (dest ++ [c])).1
      rw [marked_symbol space,marked_symbol space]
      constructor
      · simpa [normalizeLoop,space,filled] using rest
      · intro _
        simpa [normalizeLoop,space,filled] using rest
theorem normalize_filter_squeeze (src dest : CStr) : normalize_filter src dest = (0,dest ++ squeeze isspace ' ' src) := by
  have written := (normalizeLoop_marked src dest).2
  rw [normalize_filter,squeeze]
  by_cases none : marked isspace true src = []
  · simp [normalizeLoop_blank dest none,none,filled]
  · have text := written none
    rcases loop : normalizeLoop true src dest with ⟨after_space,dest'⟩
    rw [loop] at text
    simp only at text ⊢
    rw [text]
    cases after_space with
    | true =>
      rw [if_pos rfl,if_pos ⟨rfl,by simp⟩,length_append,length_singleton,Nat.add_sub_cancel,take_left]
    | false => simp

/-- Strings are equal up to white space exactly if the filter turns both into the same text. -/
theorem is_equal_nospace_iff_normalize :
    (∀ str1 str2 dest, te_str_is_equal_nospace str1 str2 = true ↔ normalize_filter str1 dest = normalize_filter str2 dest) ∧
    Equivalence fun str1 str2 => te_str_is_equal_nospace str1 str2 = true := by
  constructor
  · intro str1 str2 dest
    rw [equal_nospace_iff,normalize_filter_squeeze,normalize_filter_squeeze,← @squeeze_eq_iff _ isspace ' ' rfl]
    simp
  · refine ⟨fun str => ?_,fun same => ?_,fun first second => ?_⟩
    · exact equal_nospace_iff.mpr rfl
    · exact equal_nospace_iff.mpr (equal_nospace_iff.mp same).symm
    · exact equal_nospace_iff.mpr ((equal_nospace_iff.mp first).trans (equal_nospace_iff.mp second))
example : te_str_is_equal_nospace " a  b".toList "a\tb\n".toList = true ∧ te_str_is_equal_nospace "a b".toList "ab".toList = false := by decide
end
end TestEnvironment.Tools
