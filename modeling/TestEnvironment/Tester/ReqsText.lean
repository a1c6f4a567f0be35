import TestEnvironment.Tester.Reqs
import TestEnvironment.Tools.ExprGrammar

/-!
The text of a requirements expression (`tester_reqs_expr_to_string`), and how printed expressions are
parsed.
-/
namespace TestEnvironment.Tester
open Lib Tools

/-- The operators of which the operand may need brackets. -/
inductive PrevOp | VALUE | NOT | AND | OR
  deriving DecidableEq
/-- The size of the static buffer. -/
def REQS_BUF_SIZE : Nat := 0x10000
/-- The text in the buffer and the space that is left. A negative size is taken for a huge one, with
which the code writes behind the buffer. -/
def snprintf (text : CStr) (st : CStr × Int) : Option (CStr × Int) :=
  if st.2 < 0 then none else some (st.1 ++ text.take (st.2-1).toNat,st.2-text.length)
def enclosing (enclose : Bool) (c : Char) (st : CStr × Int) : Option (CStr × Int) := if enclose then snprintf [c] st else some st
/-- `reqs_expr_to_string_buf`; a comparison fails an assertion. -/
def reqs_expr_to_string_buf : LogicExpr → PrevOp → CStr × Int → Option (CStr × Int)
  | .value value,_,st => snprintf value st
  | .not unary,_,st => do
    let st ← snprintf ['!'] st
    reqs_expr_to_string_buf unary .NOT st
  | .and lhv rhv,prev_op,st => do
    let st ← enclosing (prev_op = .NOT) '(' st
    let st ← reqs_expr_to_string_buf lhv .AND st
    let st ← snprintf [' ','&',' '] st
    let st ← reqs_expr_to_string_buf rhv .AND st
    enclosing (prev_op = .NOT) ')' st
  | .or lhv rhv,prev_op,st => do
    let st ← enclosing (prev_op = .NOT ∨ prev_op = .AND) '(' st
    let st ← reqs_expr_to_string_buf lhv .OR st
    let st ← snprintf [' ','|',' '] st
    let st ← reqs_expr_to_string_buf rhv .OR st
    enclosing (prev_op = .NOT ∨ prev_op = .AND) ')' st
  | .rel ..,_,_ => none
def tester_reqs_expr_to_string (expr : LogicExpr) : Option CStr :=
  (reqs_expr_to_string_buf expr .VALUE ([],REQS_BUF_SIZE)).map Prod.fst

def enclosed (enclose : Bool) (text : CStr) : CStr := if enclose then parenthesized text else text
/-- The text that a buffer of any size would hold. -/
def reqsText : LogicExpr → PrevOp → CStr
  | .value value,_ => value
  | .not unary,_ => '!' :: reqsText unary .NOT
  | .and lhv rhv,prev_op => enclosed (prev_op = .NOT) (reqsText lhv .AND ++ ([' ','&',' '] ++ reqsText rhv .AND))
  | .or lhv rhv,prev_op => enclosed (prev_op = .NOT ∨ prev_op = .AND) (reqsText lhv .OR ++ ([' ','|',' '] ++ reqsText rhv .OR))
  | .rel ..,_ => []

variable {left : Int} {enclose : Bool} {c : Char} {e : LogicExpr}

theorem snprintf_fits {text buf : CStr} (fits : (text.length : Int) < left) :
    snprintf text (buf,left) = some (buf ++ text,left-text.length) := by
  rw [snprintf,if_neg (by show ¬ left < 0; omega)]
  dsimp only
  rw [take_of_length_le (by omega)]
theorem enclosing_fits {buf : CStr} (fits : (if enclose then 1 else 0 : Int) < left) :
    enclosing enclose c (buf,left) = some (buf ++ (if enclose then [c] else []),left-if enclose then 1 else 0) := by
  cases enclose with
  | true =>
    exact snprintf_fits fits
  | false => simp [enclosing]
/-- An operator with its operands and brackets. -/
theorem binary_fits {first second : CStr × Int → Option (CStr × Int)} {l sep r buf : CStr}
    (prints : ∀ buf (left : Int), (l.length : Int) < left → first (buf,left) = some (buf ++ l,left-l.length))
    (prints' : ∀ buf (left : Int), (r.length : Int) < left → second (buf,left) = some (buf ++ r,left-r.length))
    (fits : ((enclosed enclose (l ++ (sep ++ r))).length : Int) < left) : (do
      let st ← enclosing enclose '(' (buf,left)
      let st ← first st
      let st ← snprintf sep st
      let st ← second st
      enclosing enclose ')' st) = some (buf ++ enclosed enclose (l ++ (sep ++ r)),left-(enclosed enclose (l ++ (sep ++ r))).length) := by
  have length : ((enclosed enclose (l ++ (sep ++ r))).length : Int) = l.length+sep.length+r.length+2*if enclose then 1 else 0 := by
    cases enclose <;> simp [enclosed,parenthesized] <;> omega
  rw [length] at fits ⊢
  rw [enclosing_fits (by omega)]
  simp only [bind_eq_bind,bind_some]
  rw [prints _ _ (by omega)]
  simp only [bind_some]
  rw [snprintf_fits (by omega)]
  simp only [bind_some]
  rw [prints' _ _ (by omega)]
  simp only [bind_some]
  rw [enclosing_fits (by omega)]
  refine congrArg some (Prod.ext ?_ ?_)
  · cases enclose <;> simp [enclosed,parenthesized]
  · dsimp only
    omega
theorem reqs_text_fits (plain : NoComparison e) (prev_op : PrevOp) (buf : CStr) (left : Int)
    (fits : ((reqsText e prev_op).length : Int) < left) :
    reqs_expr_to_string_buf e prev_op (buf,left) = some (buf ++ reqsText e prev_op,left-(reqsText e prev_op).length) := by
  induction e generalizing prev_op buf left with
  | value value => exact snprintf_fits fits
  | not unary ih =>
    rw [reqsText,length_cons] at fits
    rw [reqs_expr_to_string_buf,snprintf_fits (by simp; omega)]
    simp only [bind_eq_bind,bind_some]
    rw [ih plain _ _ _ (by simp; omega),reqsText]
    refine congrArg some (Prod.ext (append_assoc _ _ _) ?_)
    simp
    omega
  | and l r first second =>
    exact binary_fits (fun buf left => first plain.1 .AND buf left) (fun buf left => second plain.2 .AND buf left) fits
  | or l r first second =>
    exact binary_fits (fun buf left => first plain.1 .OR buf left) (fun buf left => second plain.2 .OR buf left) fits
  | rel => exact absurd plain id
theorem blank_separates {t : ExprToken} {oper : Oper} (lexed : ∀ rest, lexFrom [] (' ' :: c :: ' ' :: rest) = t :: lexFrom [] rest)
    (is_oper : t.oper = some oper) : Separates [' ',c,' '] oper :=
  ⟨fun _ => by rintro d ⟨⟩; decide,fun rest _ => ⟨t,is_oper,lexed rest⟩⟩
theorem reqs_prints : Prints false [' ','|',' '] [' ','&',' '] (reqsText · .VALUE) (reqsText · .OR) (reqsText · .AND) (reqsText · .NOT) where
  or_separates := blank_separates (fun _ => rfl) rfl
  and_separates := blank_separates (fun _ => rfl) rfl
  or_text _ _ := rfl
  or_in_or _ _ := rfl
  or_in_and _ _ := rfl
  and_text _ _ := rfl
  and_in_and _ _ := rfl
  and_in_or _ _ := .inl rfl
  value_text _ := rfl
  not_text _ := rfl
  rel_text comparisons := absurd comparisons (by decide)
  others e no_or no_and := by
    cases e with
    | or => cases no_or
    | and => cases no_and
    | value | not | rel => exact ⟨rfl,rfl⟩
  in_not e readable := by
    cases e with
    | value | not => exact .inr ⟨rfl,rfl⟩
    | and | or => exact .inl rfl
    | rel => exact absurd readable.1 (by decide)
theorem readable_plain (readable : ReadableExpr true e) (plain : NoComparison e) : ReadableExpr false e := by
  induction e with
  | value => exact readable
  | not unary ih => exact ih readable plain
  | and l r left right | or l r left right => exact ⟨left readable.1 plain.1,right readable.2 plain.2⟩
  | rel => exact absurd plain id
/-- Printed expressions parse back, with the same result of matching. -/
theorem printed_expr_parses (e : LogicExpr) (readable : ReadableExpr true e) :
    (∃ e', logic_expr_parse (logic_expr_to_str e) = some e' ∧ ∀ set, logic_expr_match set e' = logic_expr_match set e) ∧
    (NoComparison e → (reqsText e .VALUE).length < REQS_BUF_SIZE → ∃ text e', tester_reqs_expr_to_string e = some text ∧
      logic_expr_parse text = some e' ∧ ∀ set, logic_expr_match set e' = logic_expr_match set e) := by
  constructor
  · obtain ⟨e',parsed,same⟩ := to_str_prints.parsed readable
    exact ⟨e',parsed,fun set => (same set).symm⟩
  · intro plain fits
    obtain ⟨e',parsed,same⟩ := reqs_prints.parsed (readable_plain readable plain)
    refine ⟨_,e',?_,parsed,fun set => (same set).symm⟩
    rw [tester_reqs_expr_to_string,reqs_text_fits plain .VALUE [] _ (by exact_mod_cast fits)]
    rfl
/-- A disjunction of a conjunction, negated. -/
theorem printed_expr_parses_nested : ∃ e', logic_expr_parse (logic_expr_to_str (.not (.or (.and (.value ['a']) (.value ['b'])) (.value ['c'])))) = some e' ∧
    ∀ set, logic_expr_match set e' = logic_expr_match set (.not (.or (.and (.value ['a']) (.value ['b'])) (.value ['c']))) :=
  (printed_expr_parses (.not (.or (.and (.value ['a']) (.value ['b'])) (.value ['c'])))
    ⟨⟨lexerToken_letter rfl,lexerToken_letter rfl⟩,lexerToken_letter rfl⟩).1
end TestEnvironment.Tester
