import TestEnvironment.Lib.Fuel
import TestEnvironment.Lib.Search
import TestEnvironment.Tools.Substring

/-!
Replacing all occurrences of a text (`te_substring_find`, `te_substring_replace` and
`te_string_replace_all_substrings` of `te_string.c`). The cursor of the loop stays at the
start of the text inserted last, so that the search goes over that text again.
-/
namespace TestEnvironment.Tools
open Lib

section
/-- `te_substring_find`; a substring that is invalidated is nothing. -/
def te_substring_find (base : CStr) (substr : TeSubstring) (str : CStr) : Option TeSubstring :=
  if te_substring_is_valid base substr then
    (strstr str (base.drop substr.start)).map fun cut => ⟨substr.start+cut.1.length,str.length⟩
  else none
/-- `te_substring_replace` with the formatted text, which an assertion limits to `INT_MAX` characters. -/
def te_substring_replace (base : CStr) (substr : TeSubstring) (text : CStr) : Except Stop (CStr × TeSubstring) :=
  if te_substring_is_valid base substr ∧ INT_MAX < text.length then .error .fatal
  else .ok (te_substring_modify base substr .REPLACE text)
def te_str_empty_if_null (str : Option CStr) : CStr := str.getD []
/-- The string and the cursor behind a replacement, if there was one. -/
def replace_next_substring (base : CStr) (substr : TeSubstring) (new : Option CStr) (old : CStr) :
    Except Stop (Option (CStr × TeSubstring)) :=
  match te_substring_find base substr old with
  | none => .ok none
  | some substr => (te_substring_replace base substr (te_str_empty_if_null new)).map some
/-- The loop of `te_string_replace_all_substrings`; nothing if it is still running when the fuel is spent. -/
def replaceLoop (new : Option CStr) (old : CStr) : Nat → CStr → TeSubstring → Nat → Except Stop (Option (CStr × Nat))
  | 0, _, _, _ => .ok none
  | fuel+1, str, iter, count => do
    match ← replace_next_substring str iter new old with
    | none => .ok (some (str,count))
    | some (str,iter) => replaceLoop new old fuel str iter (count+1)
def TE_SUBSTRING_INIT : TeSubstring := ⟨0,0⟩
def te_string_replace_all_substrings (fuel : Nat) (str : CStr) (new : Option CStr) (old : CStr) : Except Stop (Option (CStr × Nat)) :=
  replaceLoop new old fuel str TE_SUBSTRING_INIT 0
end

section
variable {new : Option CStr} {old done s : CStr} {cut : CStr × CStr} {len count fuel : Nat}

theorem find_behind (valid : len ≤ s.length) :
    te_substring_find (done ++ s) ⟨done.length,len⟩ old = (strstr old s).map fun cut => ⟨done.length+cut.1.length,old.length⟩ := by
  simp [valid,te_substring_is_valid,te_substring_find]
theorem replace_found (nonempty : old ≠ []) (text : CStr) (short : text.length ≤ INT_MAX) (front behind : CStr) :
    te_substring_replace (front ++ old ++ behind) ⟨front.length,old.length⟩ text = .ok (front ++ text ++ behind,⟨front.length,text.length⟩) := by
  have here : te_substring_is_valid (front ++ old ++ behind) ⟨front.length,old.length⟩ = true := by
    rw [te_substring_is_valid]
    simp
  have inside : ¬ (front ++ old ++ behind).length ≤ front.length := by
    have := length_pos_iff.mpr nonempty
    simp only [length_append]
    omega
  have taken : (front ++ old ++ behind).take front.length = front := by rw [append_assoc,take_left]
  have dropped : (front ++ old ++ behind).drop (front.length+old.length) = behind := by rw [← length_append,drop_left]
  rw [te_substring_replace,if_neg fun long => not_lt.mpr short long.2,te_substring_modify,if_pos here,modSegment]
  simp only [if_true]
  rw [replaceText,if_neg inside,taken,dropped]
/-- A turn from a cursor behind `done`: the cursor is left at the text inserted. -/
theorem replaceLoop_found (nonempty : old ≠ []) (valid : len ≤ s.length) (found : strstr old s = some cut)
    (short : (te_str_empty_if_null new).length ≤ INT_MAX) :
    replaceLoop new old (fuel+1) (done ++ s) ⟨done.length,len⟩ count =
      replaceLoop new old fuel (done ++ cut.1 ++ (te_str_empty_if_null new ++ cut.2))
        ⟨(done ++ cut.1).length,(te_str_empty_if_null new).length⟩ (count+1) := by
  have parts := strstr_parts found
  have replaced := replace_found nonempty _ short (done ++ cut.1) cut.2
  have whole : done ++ cut.1 ++ old ++ cut.2 = done ++ s := by rw [parts]; simp
  rw [whole,length_append] at replaced
  rw [replaceLoop,replace_next_substring,find_behind valid,found,map_some]
  simp only
  rw [replaced,length_append,append_assoc]
  rfl
theorem replaceLoop_none (valid : len ≤ s.length) (none' : strstr old s = none) :
    replaceLoop new old (fuel+1) (done ++ s) ⟨done.length,len⟩ count = .ok (some (done ++ s,count)) := by
  rw [replaceLoop,replace_next_substring,find_behind valid,none']
  rfl
/-- The program ends at the first replacement that cannot be printed. -/
theorem replaceLoop_long (found : strstr old (old ++ s) = some ([],s)) (long : INT_MAX < (te_str_empty_if_null new).length) :
    replaceLoop new old (fuel+1) (old ++ s) ⟨0,0⟩ count = .error .fatal := by
  have located : te_substring_find (old ++ s) ⟨0,0⟩ old = some ⟨0,old.length⟩ := by
    have first := @find_behind old [] (old ++ s) 0 (Nat.zero_le _)
    rw [found] at first
    simpa using first
  have here : te_substring_is_valid (old ++ s) ⟨0,old.length⟩ = true := by
    rw [te_substring_is_valid]
    simp
  rw [replaceLoop,replace_next_substring,located]
  simp only
  rw [te_substring_replace,if_pos ⟨here,long⟩]
  rfl
/-- The loop counts on. -/
theorem replaceLoop_count {str text : CStr} {iter : TeSubstring} {total : Nat}
    (result : replaceLoop new old fuel str iter count = .ok (some (text,total))) : count ≤ total := by
  induction fuel generalizing str iter count with
  | zero => cases result
  | succ fuel ih =>
    rw [replaceLoop] at result
    cases next : replace_next_substring str iter new old with
    | error stop => rw [next] at result; cases result
    | ok replaced =>
      rw [next] at result
      cases replaced with
      | none =>
        obtain ⟨rfl,rfl⟩ : str = text ∧ count = total := by simpa [bind,Except.bind] using result
        exact le_rfl
      | some state =>
        obtain ⟨str1,iter1⟩ := state
        exact Nat.le_of_succ_le (ih result)
end

section
variable {new : Option CStr} {old s : CStr}

/-- No occurrence begins within an inserted text that others follow, and the text can be printed. -/
def CleanAt (new old behind : CStr) : Prop := new.length ≤ INT_MAX ∧ ∀ p < new.length, ¬ old <+: new.drop p ++ behind
/-- The condition at each of the occurrences that are met from the left in the original string. -/
def Clean (new old s : CStr) : Prop := ∀ cut ∈ (occurrences old s).1, CleanAt new old cut.2
/-- The call returns the number of occurrences and leaves the string with just these replaced. -/
def ReplacesAll (new : Option CStr) (old s : CStr) : Prop :=
  Settles (fun fuel => te_string_replace_all_substrings fuel s new old)
    (.ok (some (substituted (te_str_empty_if_null new) old s,(occurrences old s).1.length)))

theorem substituted_none {new : CStr} (none' : strstr old s = none) : substituted new old s = s := by
  rw [substituted,occurrences_none none']
  rfl
theorem substituted_some {new : CStr} {cut : CStr × CStr} (nonempty : old ≠ []) (found : strstr old s = some cut) :
    substituted new old s = cut.1 ++ new ++ substituted new old cut.2 := by
  rw [substituted,occurrences_some nonempty found,substituted]
  simp
theorem Clean.next {new : CStr} {cut : CStr × CStr} (nonempty : old ≠ []) (found : strstr old s = some cut) (clean : Clean new old s) :
    CleanAt new old cut.2 ∧ Clean new old cut.2 := by grind [occurrences_some,Clean]
/-- The run on text behind `before`, in which no occurrence begins. -/
theorem replaceLoop_clean (nonempty : old ≠ []) (fuel : Nat) (enough : s.length < fuel) (done before : CStr) {len count : Nat}
    (pass : strstr old (before ++ s) = (strstr old s).map fun cut => (before ++ cut.1,cut.2)) (valid : len ≤ (before ++ s).length)
    (clean : Clean (te_str_empty_if_null new) old s) :
    replaceLoop new old fuel (done ++ (before ++ s)) ⟨done.length,len⟩ count =
      .ok (some (done ++ before ++ substituted (te_str_empty_if_null new) old s,count+(occurrences old s).1.length)) := by
  induction fuel generalizing s done before len count with
  | zero => omega
  | succ fuel ih =>
    cases found : strstr old s with
    | none => grind [replaceLoop_none,substituted_none,occurrences_none]
    | some cut =>
      rw [found] at pass
      obtain ⟨here,later⟩ := clean.next nonempty found
      have shorter := strstr_shorter nonempty found
      -- the search goes over the inserted text and on behind it
      have passed := strstr_pass here.2
      have rest := @ih cut.2 (by omega) (done ++ (before ++ cut.1)) (te_str_empty_if_null new) (te_str_empty_if_null new).length (count+1)
        passed (by simp) later
      rw [replaceLoop_found nonempty valid pass here.1,rest,substituted_some nonempty found,occurrences_some nonempty found]
      have total : count+1+(occurrences old cut.2).1.length = count+((occurrences old cut.2).1.length+1) := by omega
      simp only [append_assoc,length_cons,total]
/-- The call does what it is to do where no occurrence begins within an inserted text. -/
theorem replace_all_clean (nonempty : old ≠ []) (clean : Clean (te_str_empty_if_null new) old s) : ReplacesAll new old s := by
  refine ⟨s.length+1,fun fuel enough => ?_⟩
  have run := @replaceLoop_clean new old s nonempty fuel (by omega) [] [] 0 0 (by simp) (Nat.zero_le _) clean
  simpa [te_string_replace_all_substrings,TE_SUBSTRING_INIT] using run

/-- No occurrence can begin within the text, whatever follows: no end of it goes with the start of the pattern. -/
def NeverStarts (new old : CStr) : Prop := new.length ≤ INT_MAX ∧ ∀ p < new.length, ¬ new.drop p <+: old ∧ ¬ old <+: new.drop p

theorem NeverStarts.clean {new : CStr} (apart : NeverStarts new old) (s : CStr) : Clean new old s := by
  intro cut _
  refine ⟨apart.1,fun p inside starts => ?_⟩
  rcases List.prefix_or_prefix_of_prefix (prefix_append (new.drop p) cut.2) starts with front | whole
  · exact (apart.2 p inside).1 front
  · exact (apart.2 p inside).2 whole
/-- A second occurrence is found in what the first one of a string is replaced with and the text behind it. -/
theorem second_found (nonempty : old ≠ []) {behind : CStr} (less : behind.length < old.length) {p : Nat}
    (inside : old <+: (te_str_empty_if_null new ++ behind).drop p) : ¬ ReplacesAll new old (old ++ behind) := by
  rintro ⟨least,settled⟩
  have first := strstr_here nonempty behind
  have once : (occurrences old (old ++ behind)).1.length = 1 := by
    rw [occurrences_some nonempty first,occurrences_none (strstr_short less)]
    rfl
  have result : replaceLoop new old (least+2) (old ++ behind) TE_SUBSTRING_INIT 0 = _ := settled (least+2) (by omega)
  rw [once] at result
  by_cases short : (te_str_empty_if_null new).length ≤ INT_MAX
  · obtain ⟨cut,again⟩ := ne_none_iff_exists'.mp (strstr_found nonempty inside)
    have turn1 := @replaceLoop_found new old [] (old ++ behind) _ 0 0 (least+1) nonempty (Nat.zero_le _) first short
    have turn2 := @replaceLoop_found new old [] _ _ (te_str_empty_if_null new).length 1 least nonempty (by simp) again short
    have both := (turn1.symm.trans result).symm.trans turn2
    exact absurd (replaceLoop_count both.symm) (by decide)
  · have ended := @replaceLoop_long new old behind 0 (least+1) first (by omega)
    cases ended.symm.trans result
/-- A pattern and a replacement are right for all strings exactly if they are apart. -/
theorem replace_all_always (nonempty : old ≠ []) : (∀ s, ReplacesAll new old s) ↔ NeverStarts (te_str_empty_if_null new) old := by
  constructor
  · intro always
    refine ⟨?_,fun p inside => ⟨fun front => ?_,fun whole => ?_⟩⟩
    · by_contra long
      obtain ⟨least,settled⟩ := always (old ++ [])
      have ended := @replaceLoop_long new old [] 0 least (strstr_here nonempty []) (by omega)
      cases ended.symm.trans (settled (least+1) (by omega))
    · -- what the end of the replacement lacks of the pattern follows the occurrence
      obtain ⟨rest,split⟩ := front
      refine @second_found new old nonempty rest ?_ p ?_ (always (old ++ rest))
      · have lengths := congrArg List.length split
        simp only [length_append,length_drop] at lengths
        omega
      · rw [drop_append_of_le_length (le_of_lt inside),split]
    · refine @second_found new old nonempty [] (length_pos_iff.mpr nonempty) p ?_ (always (old ++ []))
      rw [append_nil]
      exact whole
  · exact fun apart s => replace_all_clean nonempty (apart.clean s)

/-- A string is replaced as documented where no occurrence begins within an inserted text; all strings are,
    for a pattern and a replacement, exactly if these two are apart. -/
theorem replace_all_substrings (nonempty : old ≠ []) :
    (∀ s, Clean (te_str_empty_if_null new) old s → ReplacesAll new old s) ∧
    ((∀ s, ReplacesAll new old s) ↔ NeverStarts (te_str_empty_if_null new) old) :=
  ⟨fun _ clean => replace_all_clean nonempty clean,replace_all_always nonempty⟩
theorem replace_all_substrings_slash : (∀ s, Clean ['/'] ['_'] s → ReplacesAll (some ['/']) ['_'] s) ∧
    ((∀ s, ReplacesAll (some ['/']) ['_'] s) ↔ NeverStarts ['/'] ['_']) :=
  @replace_all_substrings (some ['/']) ['_'] (by decide)
/-- A replacement that contains the pattern is replaced again and again. -/
theorem replaces_inserted : ¬ ∀ s new old, old ≠ [] → ReplacesAll new old s := by
  intro claim
  exact @second_found (some ['a','a']) ['a'] (by decide) [] (by decide) 0 (by decide) (claim ['a'] (some ['a','a']) ['a'] (by decide))
end
end TestEnvironment.Tools
