import TestEnvironment.Lib.Names

/-!
Zero-terminated strings, without their zero, and the standard functions on them
that callers rely on: comparison, prefixes, the first occurrence of a character
or a text, and the tokens between delimiters.
-/
namespace TestEnvironment.Lib

/-- The characters before the terminating zero. -/
abbrev CStr := List Char
instance : LawfulBEq CStr := inferInstance

/-- `strcmp(a, b) < 0`: character by character, a proper prefix first. -/
def strLess (a b : CStr) : Bool := decide (a < b)
/-- `strncmp(pattern, s, strlen(pattern)) == 0`. -/
def startsWith (pattern s : CStr) : Bool := pattern.isPrefixOf s

variable {pattern s a b t : CStr} {c d : Char} {cut : CStr × CStr}

theorem startsWith_iff : startsWith pattern s = true ↔ pattern <+: s :=
  List.isPrefixOf_iff_prefix
theorem strLess_irrefl (a : CStr) : strLess a a = false := by simp [strLess]
/-- Strings that are neither equal nor in order are in the other order. -/
theorem strLess_of_not (notLess : strLess a b = false) (different : a ≠ b) : strLess b a = true := by
  simp_all [lt_of_le_of_ne,Ne.symm,strLess]

def isspace (c : Char) : Bool := c = ' ' || (9 ≤ c.toNat && c.toNat ≤ 13)
/-- The text before the first `c` and the text behind it. -/
def strchr (c : Char) : CStr → Option (CStr × CStr)
  | [] => none
  | x :: s => if x = c then some ([],s) else (strchr c s).map fun cut => (x :: cut.1,cut.2)
/-- The text before the first `pattern` and the text behind it. -/
def strstr (pattern : CStr) : CStr → Option (CStr × CStr)
  | [] => if pattern = [] then some ([],[]) else none
  | x :: s =>
    if startsWith pattern (x :: s) then some ([],(x :: s).drop pattern.length)
    else (strstr pattern s).map fun cut => (x :: cut.1,cut.2)

theorem strchr_append (absent : c ∉ s) (t : CStr) : strchr c (s ++ c :: t) = some (s,t) := by
  induction s with
  | nil => simp [strchr]
  | cons x s ih => simp_all [Ne.symm,strchr]
theorem strchr_spec (found : strchr c s = some cut) : s = cut.1 ++ c :: cut.2 ∧ c ∉ cut.1 := by
  induction s generalizing cut with
  | nil => simp [strchr] at found
  | cons x s ih =>
    by_cases same : x = c
    · simp only [strchr,same,if_true,some_inj] at found
      subst found; simp [same]
    · simp only [strchr,same,if_false,map_eq_some_iff] at found
      obtain ⟨rest,later,rfl⟩ := found
      obtain ⟨split,absent⟩ := ih later
      exact ⟨by simp [split],by simp [absent,Ne.symm same]⟩
theorem strchr_none : strchr c s = none ↔ c ∉ s := by
  induction s with
  | nil => simp [strchr]
  | cons x s ih =>
    by_cases same : x = c
    · simp [strchr,same]
    · simp [strchr,same,ih,Ne.symm same]
/-- What is left behind an occurrence of a non-empty text is shorter. -/
theorem strstr_shorter (nonempty : pattern ≠ []) (found : strstr pattern s = some cut) : cut.2.length < s.length := by
  induction s generalizing cut with
  | nil => simp [strstr,nonempty] at found
  | cons x s ih =>
    by_cases here : startsWith pattern (x :: s)
    · simp only [strstr,here,if_true,some_inj] at found
      subst found
      have := length_pos_iff.mpr nonempty
      simp; omega
    · rw [strstr,if_neg here] at found
      obtain ⟨rest,later,rfl⟩ := of_map found
      have := ih later
      simp; omega

/-- Text without its first character is passed by a search. -/
theorem strstr_absent (absent : c ∉ s) (t : CStr) :
    strstr (c :: pattern) (s ++ t) = (strstr (c :: pattern) t).map fun cut => (s ++ cut.1,cut.2) := by
  induction s with
  | nil => exact (congrFun Option.map_id (strstr (c :: pattern) t)).symm
  | cons x s ih =>
    have differs : c ≠ x := fun same => absent (by rw [same]; exact mem_cons_self)
    have not_here : ¬startsWith (c :: pattern) (x :: (s ++ t)) = true := by simp [startsWith,differs]
    rw [cons_append,strstr,if_neg not_here,ih fun member => absent (mem_cons_of_mem x member),Option.map_map]
    rfl

/-- The tokens that repeated `strtok` calls return, `cur` being the characters
    of the current token read so far. -/
def strtokFrom (d : Char) : CStr → CStr → List CStr
  | cur, [] => if cur = [] then [] else [cur]
  | cur, c :: s =>
    if c = d then if cur = [] then strtokFrom d [] s else cur :: strtokFrom d [] s
    else strtokFrom d (cur ++ [c]) s
def strtok (d : Char) (s : CStr) : List CStr := strtokFrom d [] s

theorem strtokFrom_append (d : Char) (s t cur : CStr) :
    strtokFrom d cur (s ++ d :: t) = strtokFrom d cur s ++ strtok d t := by
  induction s generalizing cur with
  | nil => by_cases empty : cur = [] <;> simp [strtokFrom,strtok,empty]
  | cons c s ih => grind [strtokFrom]
/-- A delimiter separates the tokens before it from those behind it. -/
theorem strtok_append (d : Char) (s t : CStr) : strtok d (s ++ d :: t) = strtok d s ++ strtok d t :=
  strtokFrom_append d s t []
theorem strtok_delimiter (d : Char) (s : CStr) : strtok d (d :: s) = strtok d s := by simp [strtok,strtokFrom]
theorem strtokFrom_plain (absent : d ∉ s) (cur : CStr) : strtokFrom d cur s = if cur ++ s = [] then [] else [cur ++ s] := by
  induction s generalizing cur with
  | nil => simp [strtokFrom]
  | cons c s ih => simp_all [Ne.symm,strtokFrom]
theorem strtok_token (absent : d ∉ s) (nonempty : s ≠ []) : strtok d s = [s] := by
  simp [strtok,strtokFrom_plain absent,nonempty]
theorem strtok_delimited {tokens : List CStr} (plain : ∀ t ∈ tokens, d ∉ t ∧ t ≠ []) (s : CStr) :
    strtok d (s ++ tokens.flatMap fun t => d :: t) = strtok d s ++ tokens := by
  induction tokens generalizing s with
  | nil => simp
  | cons t tokens ih => simp_all [strtok_append,strtok_token]
/-- Every token costs a delimiter. -/
theorem strtokFrom_length (s cur : CStr) : ((strtokFrom d cur s).map fun t => t.length+1).sum ≤ cur.length+s.length+1 := by
  induction s generalizing cur with
  | nil => by_cases none' : cur = [] <;> simp [strtokFrom,none']
  | cons c s ih =>
    have onward := ih (cur ++ [c])
    have afresh := ih []
    simp only [strtokFrom]
    grind
theorem strtokFrom_mem {cur : CStr} (clean : d ∉ cur) (member : t ∈ strtokFrom d cur s) : t ≠ [] ∧ d ∉ t := by
  induction s generalizing cur with
  | nil =>
    by_cases empty : cur = []
    · simp [strtokFrom,empty] at member
    · simp_all [strtokFrom]
  | cons c s ih =>
    by_cases delimiter : c = d
    · by_cases empty : cur = []
      · simp only [strtokFrom,delimiter,empty,if_true] at member
        exact ih (by simp) member
      · simp only [strtokFrom,delimiter,empty,if_true,if_false,mem_cons] at member
        rcases member with rfl | later
        · exact ⟨empty,clean⟩
        · exact ih (by simp) later
    · simp only [strtokFrom,delimiter,if_false] at member
      exact ih (by simp [clean,Ne.symm delimiter]) member
/-- Tokens are not empty and hold no delimiter. -/
theorem strtok_mem (member : t ∈ strtok d s) : t ≠ [] ∧ d ∉ t :=
  strtokFrom_mem (by simp) member
end TestEnvironment.Lib
