import TestEnvironment.Lib.Gaps
import TestEnvironment.Tools.ShellArgs

/-!
Long texts in the log (`te_log_message_split` of `te_log_fmt.c`): a text is cut at newlines
where there are some, and otherwise where a message is full.
-/
namespace TestEnvironment.Tools
open Lib

section

/-- The most that a field of a raw message can hold. -/
def TE_LOG_FIELD_MAX : Nat := 2^16-1-1
def inter_str : CStr := "[continuation]\n".toList
def isNewline (c : Char) : Bool := c = '\n'
/-- The loop that goes back from an offset to a newline, or to the begin of the text. -/
def newlineBefore (p_begin : CStr) : Nat → Nat
  | 0 => 0
  | p_end+1 => if p_begin[p_end+1]? = some '\n' then p_end+1 else newlineBefore p_begin p_end
/-- The offset of the last character of a message. -/
def messageEnd (p_begin : CStr) (step_len : Nat) : Nat :=
  if p_begin.length < step_len then p_begin.length
  else if newlineBefore p_begin step_len = 0 then step_len
  else newlineBefore p_begin step_len
/-- The loop of `te_log_message_split`, with the messages. When the last character is the
    terminating zero, the rest of the text is the message. -/
def splitMsgLoop : Nat → Nat → CStr → List CStr
  | 0, _, _ => []
  | fuel+1, add_len, p =>
    let p_begin := p.dropWhile isNewline
    if p_begin = [] then []
    else
      let p_end := messageEnd p_begin (TE_LOG_FIELD_MAX-1-add_len)
      ((if 0 < add_len then inter_str else []) ++ (p_begin.take (p_end+1)).rdropWhile isNewline) ::
        if p_end+1 < p_begin.length then splitMsgLoop fuel inter_str.length (p_begin.drop (p_end+1)) else []
/-- The messages for a formatted text. Every turn but the last passes a character of it. -/
def te_log_message_split (text : CStr) : Except Stop (List CStr) := do
  let str ← appendPrinted [] text
  .ok (splitMsgLoop (str.length+1) 0 str)

end

section
variable {p_begin p : CStr} {fuel step_len add_len : Nat}

/-- The messages with some contents: all but the first begin with the mark, and the first
    does if something has been sent before. -/
def withMarks (add_len : Nat) : List CStr → List CStr
  | [] => []
  | first :: others => ((if 0 < add_len then inter_str else []) ++ first) :: others.map (inter_str ++ ·)

theorem newlineBefore_most (p_begin : CStr) (step_len : Nat) : newlineBefore p_begin step_len ≤ step_len := by
  induction step_len with
  | zero => exact le_refl 0
  | succ p_end ih =>
    rw [newlineBefore]
    split_ifs
    · exact le_rfl
    · exact Nat.le_succ_of_le ih
theorem message_length (p_begin : CStr) (step_len : Nat) :
    ((p_begin.take (messageEnd p_begin step_len+1)).rdropWhile isNewline).length ≤ step_len+1 := by
  grind [newlineBefore_most,List.rdropWhile_prefix,messageEnd]
theorem withMarks_later (contents : List CStr) : withMarks inter_str.length contents = contents.map (inter_str ++ ·) := by
  cases contents <;> rfl
/-- The loop sends messages that fit, and their contents make up the text. -/
theorem splitMsgLoop_spec (enough : p.length < fuel) (mark : add_len = 0 ∨ add_len = inter_str.length) :
    ∃ contents, splitMsgLoop fuel add_len p = withMarks add_len contents ∧
      (∀ message ∈ withMarks add_len contents, message.length ≤ TE_LOG_FIELD_MAX) ∧ Threaded isNewline contents p := by
  induction fuel generalizing add_len p with
  | zero => cases enough
  | succ fuel ih =>
    have cut : p = p.takeWhile isNewline ++ p.dropWhile isNewline := takeWhile_append_dropWhile.symm
    have blanks : ∀ c ∈ p.takeWhile isNewline, isNewline c := fun c member => List.mem_takeWhile_imp member
    have shorter : (p.dropWhile isNewline).length ≤ p.length := (dropWhile_sublist _).length_le
    rw [splitMsgLoop]
    generalize p.dropWhile isNewline = p_begin at cut shorter
    by_cases done : p_begin = []
    · refine ⟨[],if_pos done,nofun,?_⟩
      rw [cut,done,append_nil]
      exact blanks
    · simp only [if_neg done]
      have fits := message_length p_begin (TE_LOG_FIELD_MAX-1-add_len)
      generalize messageEnd p_begin (TE_LOG_FIELD_MAX-1-add_len) = p_end at fits
      have first : ((if 0 < add_len then inter_str else []) ++ (p_begin.take (p_end+1)).rdropWhile isNewline).length ≤ TE_LOG_FIELD_MAX := by
        rcases mark with rfl | rfl
        · exact fits.trans (by decide)
        · rw [if_pos (by decide),length_append]
          exact (Nat.add_le_add_left fits _).trans (by decide)
      have parts := List.rdropWhile_append_rtakeWhile (p := isNewline) (l := p_begin.take (p_end+1))
      have trimmed : ∀ c ∈ (p_begin.take (p_end+1)).rtakeWhile isNewline, isNewline c := fun c member => List.mem_rtakeWhile_imp member
      have split : p = p.takeWhile isNewline ++ ((p_begin.take (p_end+1)).rdropWhile isNewline ++
          ((p_begin.take (p_end+1)).rtakeWhile isNewline ++ p_begin.drop (p_end+1))) := by
        rw [← append_assoc (List.rdropWhile _ _),parts,take_append_drop]
        exact cut
      by_cases more : p_end+1 < p_begin.length
      · simp only [if_pos more]
        obtain ⟨contents,rest,short,threaded⟩ := @ih (p_begin.drop (p_end+1)) inter_str.length (by rw [length_drop]; omega) (.inr rfl)
        rw [withMarks_later] at rest short
        refine ⟨_ :: contents,congrArg _ rest,forall_mem_cons.mpr ⟨first,short⟩,_,_,split,blanks,threaded.gap trimmed⟩
      · simp only [if_neg more]
        refine ⟨[_],rfl,forall_mem_cons.mpr ⟨first,nofun⟩,_,_,split,blanks,?_⟩
        rw [List.drop_eq_nil_of_le (Nat.le_of_not_lt more),append_nil]
        exact trimmed
/-- Every text that can be formatted is sent in messages that fit into a field, together with
    the mark. Their contents without the marks, with newlines between and around them, are the
    text, and so they have all other characters of it in their order. -/
theorem te_log_message_split_threaded (text : CStr) :
    (INT_MAX < text.length ∧ te_log_message_split text = .error .fatal) ∨
    ∃ contents, te_log_message_split text = .ok (withMarks 0 contents) ∧
      (∀ message ∈ withMarks 0 contents, message.length ≤ TE_LOG_FIELD_MAX) ∧
      Threaded isNewline contents text ∧ contents.flatten.filter (!isNewline ·) = text.filter (!isNewline ·) := by
  rw [te_log_message_split,appendPrinted]
  by_cases long : INT_MAX < text.length
  · rw [if_pos long]
    exact .inl ⟨long,rfl⟩
  · rw [if_neg long]
    obtain ⟨contents,sent,short,threaded⟩ := splitMsgLoop_spec (lt_succ_self text.length) (.inl rfl)
    exact .inr ⟨contents,congrArg Except.ok sent,short,threaded,threaded.symbols⟩

end

end TestEnvironment.Tools
