import TestEnvironment.Lib.Pieces
import TestEnvironment.Lib.ShellWords
import TestEnvironment.Tools.LogicExpr
import TestEnvironment.Tools.TeStringOps

/-!
Quoting of shell arguments (`te_string_append_shell_arg_as_is` and
`te_string_append_shell_args_as_is` of `te_string.c`) against the rules by which a shell
splits a line into words. Dynamic strings are given by their text.
-/
namespace TestEnvironment.Tools
open Lib

section
/-- `te_string_append` by the text: `vsnprintf` fails for more than `INT_MAX` characters, and an assertion ends the program. -/
def appendPrinted (str text : CStr) : Except Stop CStr := if INT_MAX < text.length then .error .fatal else .ok (str ++ text)
/-- `%.*s`: a negative precision is taken as none. -/
def precisionText (precision : Int) (s : CStr) : CStr := if precision < 0 then s else s.take precision.toNat
/-- The loop of `te_string_append_shell_arg_as_is`. -/
def shellArgLoop : Nat → CStr → CStr → Except Stop CStr
  | 0, str, _ => .ok str
  | fuel+1, str, arg =>
    match strchr '\'' arg with
    | none => appendPrinted str ('\'' :: arg ++ ['\''])
    | some (piece,rest) => do
      let str ← appendPrinted str ('\'' :: precisionText (toInt piece.length) arg ++ ['\'','\\','\''])
      shellArgLoop fuel str rest
/-- Every turn but the last passes a quote. -/
def te_string_append_shell_arg_as_is (str arg : CStr) : Except Stop CStr := shellArgLoop (arg.length+1) str arg
/-- The blank before an argument, unless the string is empty. -/
def separate (str : CStr) : Except Stop CStr := if str.length ≠ 0 then appendPrinted str [' '] else .ok str
def te_string_append_shell_args_as_is : CStr → List CStr → Except Stop CStr
  | str, [] => .ok str
  | str, arg :: args => do
    let str ← separate str
    let str ← te_string_append_shell_arg_as_is str arg
    te_string_append_shell_args_as_is str args

end

section
variable {str arg text piece rest : CStr} {args : List CStr} {fuel : Nat}

/-- The stretches of an argument before its quotes, and the one behind the last of them. -/
def stretches (arg : CStr) : List CStr × CStr := pieces '\'' id [] arg
/-- No stretch is too long for its length to be an `int` with the characters printed around it. -/
def ArgFits (arg : CStr) : Prop := (∀ piece ∈ (stretches arg).1, piece.length+4 ≤ INT_MAX) ∧ (stretches arg).2.length+2 ≤ INT_MAX

theorem argFits_plain (plain : '\'' ∉ arg) : ArgFits arg ↔ arg.length+2 ≤ INT_MAX := by
  rw [ArgFits,stretches,pieces_plain plain]
  simp
theorem argFits_quote (plain : '\'' ∉ piece) (rest : CStr) : ArgFits (piece ++ '\'' :: rest) ↔ piece.length+4 ≤ INT_MAX ∧ ArgFits rest := by
  rw [ArgFits,ArgFits,stretches,pieces_stop plain,stretches]
  simp [and_assoc]
theorem appendPrinted_iff : appendPrinted str text = .ok rest ↔ text.length ≤ INT_MAX ∧ rest = str ++ text := by
  rw [appendPrinted]
  split_ifs with long
  · exact ⟨nofun,fun ⟨short,_⟩ => absurd long (by omega)⟩
  · grind
theorem toInt_small {n : Nat} (small : n ≤ INT_MAX) : toInt n = n := by
  have limit : INT_MAX = 2^31-1 := rfl
  exact Int.bmod_eq_of_le (by omega) (by omega)
theorem toInt_le (n : Nat) : toInt n ≤ n := by
  simp only [toInt,Int.bmod]
  split_ifs <;> omega
/-- What is printed of a stretch: all of it, or fewer characters, unless it is too long to be printed. -/
theorem precisionText_stretch (printed : (precisionText (toInt piece.length) (piece ++ '\'' :: rest)).length+4 ≤ INT_MAX) :
    ∃ k ≤ piece.length, precisionText (toInt piece.length) (piece ++ '\'' :: rest) = piece.take k ∧
      (k = piece.length ↔ piece.length+4 ≤ INT_MAX) := by
  have above := toInt_le piece.length
  rw [precisionText] at printed ⊢
  split_ifs at printed ⊢ with negative
  · grind [toInt_small]
  · have within : (toInt piece.length).toNat ≤ piece.length := by omega
    rw [take_append_of_le_length within,length_take,Nat.min_eq_left within] at printed
    refine ⟨_,within,take_append_of_le_length within,fun whole => by omega,fun short => ?_⟩
    rw [toInt_small (by omega)]
    rfl
theorem quoted_length (s : CStr) : ('\'' :: s ++ ['\'','\\','\'']).length = s.length+4 := by simp
/-- The text for an argument is read as a word no longer than it, and as the argument itself if nothing was too long. -/
theorem shellArgLoop_word (enough : arg.length < fuel) (result : shellArgLoop fuel str arg = .ok text) :
    ∃ quoted word, text = str ++ quoted ∧ quoted ≠ [] ∧ Quotes quoted word ∧ word.length ≤ arg.length ∧ (word = arg ↔ ArgFits arg) := by
  induction fuel generalizing str arg with
  | zero => omega
  | succ fuel ih =>
    rw [shellArgLoop] at result
    cases found : strchr '\'' arg with
    | none =>
      rw [found] at result
      have plain := strchr_none.mp found
      obtain ⟨short,rfl⟩ := appendPrinted_iff.mp result
      refine ⟨_,arg,rfl,by simp,Quotes.single plain,le_rfl,iff_of_true rfl ((argFits_plain plain).mpr ?_)⟩
      simp only [length_append,length_cons,length_nil] at short
      omega
    | some cut =>
      obtain ⟨piece,rest⟩ := cut
      rw [found] at result
      obtain ⟨rfl,plain⟩ := strchr_spec found
      simp only at result plain enough ⊢
      cases printed : appendPrinted str ('\'' :: precisionText (toInt piece.length) (piece ++ '\'' :: rest) ++ ['\'','\\','\'']) with
      | error stop => rw [printed] at result; cases result
      | ok str1 =>
        rw [printed] at result
        obtain ⟨short,rfl⟩ := appendPrinted_iff.mp printed
        rw [quoted_length] at short
        obtain ⟨k,within,taken,whole⟩ := @precisionText_stretch piece rest short
        clear short
        rw [length_append,length_cons] at enough
        obtain ⟨quoted,word,rfl,_,quotes,shorter,same⟩ := ih (by omega) result
        have clean : '\'' ∉ piece.take k := fun member => plain (List.mem_of_mem_take member)
        have both := ((Quotes.single clean).append (Quotes.escaped '\'')).append quotes
        have size : (piece.take k).length = k := by rw [length_take]; omega
        rw [taken]
        refine ⟨_,_,?_,?_,both,?_,?_⟩
        · simp
        · simp
        · simp only [length_append,length_cons,length_nil,size]
          omega
        · rw [argFits_quote plain,← whole,← same]
          constructor
          · intro equal
            have lengths := congrArg List.length equal
            simp only [length_append,length_cons,length_nil,size] at lengths
            obtain rfl : k = piece.length := by omega
            rw [take_length,append_assoc] at equal
            exact ⟨rfl,cons.inj (append_cancel_left equal) |>.2⟩
          · rintro ⟨rfl,rfl⟩
            rw [take_length,append_assoc]
            rfl
theorem shellArgLoop_returns (enough : arg.length < fuel) (fits : ArgFits arg) : ∃ text, shellArgLoop fuel str arg = .ok text := by
  induction fuel generalizing str arg with
  | zero => omega
  | succ fuel ih =>
    rw [shellArgLoop]
    cases found : strchr '\'' arg with
    | none =>
      have plain := strchr_none.mp found
      have short := (argFits_plain plain).mp fits
      have length : ('\'' :: arg ++ ['\'']).length = arg.length+2 := by rw [length_append,length_cons,length_singleton]
      exact ⟨_,appendPrinted_iff.mpr ⟨by rwa [length],rfl⟩⟩
    | some cut =>
      obtain ⟨piece,rest⟩ := cut
      obtain ⟨rfl,plain⟩ := strchr_spec found
      obtain ⟨short,others⟩ := (argFits_quote plain rest).mp fits
      have whole : precisionText (toInt piece.length) (piece ++ '\'' :: rest) = piece := by
        rw [toInt_small (le_trans (Nat.le_add_right _ _) short),precisionText,if_neg (by omega)]
        simp
      have printed : appendPrinted str ('\'' :: piece ++ ['\'','\\','\'']) = .ok (str ++ ('\'' :: piece ++ ['\'','\\','\''])) :=
        appendPrinted_iff.mpr ⟨by rw [quoted_length]; exact short,rfl⟩
      simp only
      rw [whole,printed]
      clear short
      simp only [length_append,length_cons] at enough
      exact ih (by omega) others

/-- The text for arguments behind others is read as a word for each of them. -/
theorem shell_args_more (some' : str ≠ []) (result : te_string_append_shell_args_as_is str args = .ok text) :
    ∃ tail words, text = str ++ tail ∧ (∀ before word, Quotes before word → shellWords (before ++ tail) = some (word :: words)) ∧
      (words = args ↔ ∀ arg ∈ args, ArgFits arg) := by
  induction args generalizing str with
  | nil =>
    obtain rfl := ok.inj result
    exact ⟨[],[],by simp,fun before word quotes => by rw [append_nil]; exact quotes.last,by simp⟩
  | cons arg args ih =>
    have blank : separate str = .ok (str ++ [' ']) := by
      rw [separate,if_pos (by simpa using some')]
      exact appendPrinted_iff.mpr ⟨show 1 ≤ INT_MAX by decide,rfl⟩
    rw [te_string_append_shell_args_as_is,blank] at result
    change (te_string_append_shell_arg_as_is (str ++ [' ']) arg >>= fun str => te_string_append_shell_args_as_is str args) = _ at result
    cases quotedArg : te_string_append_shell_arg_as_is (str ++ [' ']) arg with
    | error stop => rw [quotedArg] at result; cases result
    | ok str1 =>
      rw [quotedArg] at result
      obtain ⟨quoted,own,rfl,_,quotes,_,same⟩ := shellArgLoop_word (lt_succ_self _) quotedArg
      obtain ⟨tail,words,rfl,split,all⟩ := ih (by simp) result
      refine ⟨' ' :: quoted ++ tail,own :: words,by simp,fun before word quotes' => ?_,?_⟩
      · rw [cons_append,quotes'.blank,split quoted own quotes]
        rfl
      · rw [List.cons.injEq,same,all,forall_mem_cons]
/-- The text for arguments on an empty string splits into a word for each of them. -/
theorem shell_args_words (result : te_string_append_shell_args_as_is [] args = .ok text) :
    ∃ words, shellWords text = some words ∧ (words = args ↔ ∀ arg ∈ args, ArgFits arg) := by
  cases args with
  | nil =>
    obtain rfl := ok.inj result
    exact ⟨[],rfl,by simp⟩
  | cons arg args =>
    change (te_string_append_shell_arg_as_is [] arg >>= fun str => te_string_append_shell_args_as_is str args) = _ at result
    cases quotedArg : te_string_append_shell_arg_as_is [] arg with
    | error stop => rw [quotedArg] at result; cases result
    | ok str1 =>
      rw [quotedArg] at result
      obtain ⟨quoted,own,rfl,some',quotes,_,same⟩ := shellArgLoop_word (lt_succ_self _) quotedArg
      obtain ⟨tail,words,rfl,split,all⟩ := shell_args_more (by simpa using some') result
      refine ⟨own :: words,?_,?_⟩
      · exact split _ own quotes
      · rw [List.cons.injEq,same,all,forall_mem_cons]
theorem shell_args_return (fits : ∀ arg ∈ args, ArgFits arg) : ∃ text, te_string_append_shell_args_as_is str args = .ok text := by
  induction args generalizing str with
  | nil => exact ⟨str,rfl⟩
  | cons arg args ih =>
    obtain ⟨first,rest⟩ := forall_mem_cons.mp fits
    have blank : ∃ str1, separate str = .ok str1 := by
      rw [separate]
      split_ifs
      · exact ⟨_,appendPrinted_iff.mpr ⟨show 1 ≤ INT_MAX by decide,rfl⟩⟩
      · exact ⟨_,rfl⟩
    obtain ⟨str1,separated⟩ := blank
    obtain ⟨str2,quoted⟩ := @shellArgLoop_returns str1 _ _ (lt_succ_self _) first
    rw [te_string_append_shell_args_as_is,separated]
    change ∃ text, (te_string_append_shell_arg_as_is str1 arg >>= fun str => te_string_append_shell_args_as_is str args) = .ok text
    rw [te_string_append_shell_arg_as_is,quoted]
    exact ih rest
end

section
variable {args : List CStr}

/-- The arguments are quoted, and the shell splits the text into just these arguments. -/
def SplitsBack (args : List CStr) : Prop :=
  ∃ text, te_string_append_shell_args_as_is [] args = .ok text ∧ shellWords text = some args

/-- Arguments come back exactly if none of their stretches is too long. -/
theorem shell_args_split_iff : SplitsBack args ↔ ∀ arg ∈ args, ArgFits arg := by
  constructor
  · rintro ⟨text,result,split⟩
    obtain ⟨words,read,same⟩ := shell_args_words result
    exact same.mp (some.inj (read.symm.trans split))
  · intro fits
    obtain ⟨text,result⟩ := @shell_args_return [] _ fits
    obtain ⟨words,read,same⟩ := shell_args_words result
    exact ⟨text,result,by rw [read,same.mpr fits]⟩
/-- Of 2^32 characters before a quote none is printed. -/
theorem long_stretch_lost : ¬ ∀ args, SplitsBack args := by
  intro claim
  obtain ⟨text,result,split⟩ := claim [replicate (2^32) 'a' ++ ['\'']]
  obtain ⟨words,read,same⟩ := shell_args_words result
  have fits := same.mp (some.inj (read.symm.trans split)) _ mem_cons_self
  have plain : '\'' ∉ replicate (2^32) 'a' := fun member => absurd (List.eq_of_mem_replicate member) (by decide)
  have short := ((argFits_quote plain []).mp fits).1
  rw [length_replicate] at short
  exact absurd short (by decide)
example : te_string_append_shell_args_as_is [] ["a'b".toList,[]] = .ok "'a'\\''b' ''".toList := by decide
end
end TestEnvironment.Tools
