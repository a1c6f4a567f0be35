import TestEnvironment.Lib.Strings

/-!
Words of a command line by the rules of the POSIX shell for single quotes, the backslash and
blanks, and how text that is quoted piece by piece adds to the current word.
-/
namespace TestEnvironment.Lib

def isblank (c : Char) : Bool := c = ' ' || c = '\t'
/-- The words of the rest of a line, within single quotes or not, `cur` being what has been read of
    the current word; nothing if quotes are not closed or nothing follows a backslash. -/
def shellWordsFrom : Bool → Option CStr → CStr → Option (List CStr)
  | true, _, [] => none
  | true, cur, c :: s => if c = '\'' then shellWordsFrom false cur s else shellWordsFrom true (some (cur.getD [] ++ [c])) s
  | false, cur, [] => some cur.toList
  | false, _, ['\\'] => none
  | false, cur, '\\' :: c :: s => shellWordsFrom false (some (cur.getD [] ++ [c])) s
  | false, cur, c :: s =>
    if c = '\'' then shellWordsFrom true (some (cur.getD [])) s
    else if isblank c then (shellWordsFrom false none s).map (cur.toList ++ ·)
    else shellWordsFrom false (some (cur.getD [] ++ [c])) s
def shellWords (line : CStr) : Option (List CStr) := shellWordsFrom false none line

/-- Text that adds to the current word, or starts one, wherever it stands outside of quotes. -/
def Quotes (text word : CStr) : Prop :=
  ∀ cur rest, shellWordsFrom false cur (text ++ rest) = shellWordsFrom false (some (cur.getD [] ++ word)) rest

theorem quoted_plain {s : CStr} (plain : '\'' ∉ s) (word rest : CStr) :
    shellWordsFrom true (some word) (s ++ '\'' :: rest) = shellWordsFrom false (some (word ++ s)) rest := by
  induction s generalizing word with
  | nil => simp [shellWordsFrom]
  | cons c s ih =>
    obtain ⟨other,later⟩ := List.ne_and_not_mem_of_not_mem_cons plain
    simp [shellWordsFrom,Ne.symm other,ih later]

namespace Quotes
variable {s text1 text2 word1 word2 : CStr}

theorem single (plain : '\'' ∉ s) : Quotes ('\'' :: s ++ ['\'']) s := by
  intro cur rest
  have inside := quoted_plain plain (cur.getD []) rest
  simpa [shellWordsFrom] using inside
theorem escaped (c : Char) : Quotes ['\\',c] [c] := fun _ _ => rfl
theorem append (first : Quotes text1 word1) (second : Quotes text2 word2) : Quotes (text1 ++ text2) (word1 ++ word2) := by
  intro cur rest
  rw [append_assoc,first,second,getD_some,append_assoc]
theorem blank (quotes : Quotes text1 word1) (rest : CStr) :
    shellWords (text1 ++ ' ' :: rest) = (shellWords rest).map (word1 :: ·) := by
  rw [shellWords,quotes]
  rfl
theorem last (quotes : Quotes text1 word1) : shellWords text1 = some [word1] := by
  have read := quotes none []
  rw [append_nil] at read
  exact read
end Quotes
end TestEnvironment.Lib
