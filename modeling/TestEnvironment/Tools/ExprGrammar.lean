import TestEnvironment.Tools.LogicExpr

/-!
The lexer and the grammar of logical expressions (`logic_expr_lex.l`, `logic_expr_gram.y`), and why what
is printed with brackets where an operator binds less is read back with the same meaning.
-/
namespace TestEnvironment.Tools
open Lib

inductive ExprToken
  | OR
  | AND
  | rel (type : Relation)
  | NOT
  | OPEN
  | CLOSE
  | TOKEN (str : CStr)
  | DOUBLE_QUOTE
  | NOMATCH
  deriving DecidableEq, Repr
def isTokenChar (c : Char) : Bool := c.isAlphanum || ['-','_',':','.','$','{','}'].contains c
def charToken (c : Char) : List ExprToken :=
  if isspace c then []
  else match c with
    | '(' => [.OPEN]
    | ')' => [.CLOSE]
    | '&' => [.AND]
    | '|' => [.OR]
    | '>' => [.rel .GT]
    | '<' => [.rel .LT]
    | '!' => [.NOT]
    | '=' => [.rel .EQ]
    | '"' => [.DOUBLE_QUOTE]
    | _ => [.NOMATCH]
def endToken (word : CStr) : List ExprToken := if word = [] then [] else [.TOKEN word]
/-- The tokens of a text behind the characters of a word. -/
def lexFrom : CStr → CStr → List ExprToken
  | word,[] => endToken word
  | word,'>' :: '=' :: s => endToken word ++ .rel .GE :: lexFrom [] s
  | word,'<' :: '=' :: s => endToken word ++ .rel .LE :: lexFrom [] s
  | word,'!' :: '=' :: s => endToken word ++ .rel .NEQ :: lexFrom [] s
  | word,c :: s => if isTokenChar c then lexFrom (word ++ [c]) s else endToken word ++ charToken c ++ lexFrom [] s

/-- The binary operators. -/
inductive Oper
  | OR
  | AND
  | rel (type : Relation)
  deriving DecidableEq, Repr
/-- The precedences of the grammar; every operator is right associative. -/
def Oper.prec : Oper → Nat
  | OR => 1
  | AND => 2
  | rel .GT => 3
  | rel .GE => 4
  | rel .LT => 5
  | rel .LE => 6
  | rel .EQ => 7
  | rel .NEQ => 8
def ExprToken.oper : ExprToken → Option Oper
  | OR => some .OR
  | AND => some .AND
  | rel type => some (.rel type)
  | _ => none
def logic_expr_binary (lhv rhv : LogicExpr) : Oper → LogicExpr
  | .OR => .or lhv rhv
  | .AND => .and lhv rhv
  | .rel type => .rel type lhv rhv
/-- What stands on the stack of the parser below an operand. -/
inductive Frame
  | binary (oper : Oper) (lhv : LogicExpr)
  | not
  | bracket
/-- The reductions in front of a token of the precedence; a negation binds closer than any operator. -/
def reduceAbove (prec : Nat) : List Frame → LogicExpr → List Frame × LogicExpr
  | .binary oper lhv :: frames,rhv => if prec < oper.prec then reduceAbove prec frames (logic_expr_binary lhv rhv oper) else (.binary oper lhv :: frames,rhv)
  | .not :: frames,unary => reduceAbove prec frames (.not unary)
  | frames,e => (frames,e)
/-- The parser, with the operand on the top of the stack if there is one. -/
def parseFrom : List Frame → Option LogicExpr → List ExprToken → Option LogicExpr
  | frames,none,.TOKEN str :: ts => parseFrom frames (some (.value str)) ts
  | frames,none,.DOUBLE_QUOTE :: .TOKEN str :: .DOUBLE_QUOTE :: ts => parseFrom frames (some (.value str)) ts
  | frames,none,.DOUBLE_QUOTE :: .DOUBLE_QUOTE :: ts => parseFrom frames (some (.value [])) ts
  | frames,none,.OPEN :: ts => parseFrom (.bracket :: frames) none ts
  | frames,none,.NOT :: ts => parseFrom (.not :: frames) none ts
  | frames,some e,[] =>
    match reduceAbove 0 frames e with
    | ([],e) => some e
    | _ => none
  | frames,some e,t :: ts =>
    match t.oper with
    | some oper => parseFrom (.binary oper (reduceAbove oper.prec frames e).2 :: (reduceAbove oper.prec frames e).1) none ts
    | none =>
      if t = .CLOSE then
        match reduceAbove 0 frames e with
        | (.bracket :: frames,e) => parseFrom frames (some e) ts
        | _ => none
      else none
  | _,_,_ => none
def logic_expr_parse (str : CStr) : Option LogicExpr := parseFrom [] none (lexFrom [] str)

example : logic_expr_parse "a&!b|c>=1".toList = some (.or (.and (.value ['a']) (.not (.value ['b']))) (.rel .GE (.value ['c']) (.value ['1']))) := by
  decide +kernel

/-- No character of a word comes next. -/
def Breaks (rest : CStr) : Prop := ∀ c ∈ rest.head?, isTokenChar c = false
/-- A token of the lexer. -/
def LexerToken (str : CStr) : Prop := str ≠ [] ∧ ∀ c ∈ str, isTokenChar c = true
variable {c : Char} {t : ExprToken}

theorem lexerToken_letter (letter : isTokenChar c = true) : LexerToken [c] :=
  ⟨cons_ne_nil _ _,fun d member => by rw [mem_singleton.mp member]; exact letter⟩

section
variable {word str rest : CStr}

theorem lex_char (token : isTokenChar c = true) : lexFrom word (c :: str) = lexFrom (word ++ [c]) str := by
  have other : ∀ d, isTokenChar d = false → c ≠ d := by
    rintro d no_token rfl
    exact absurd token (by rw [no_token]; decide)
  rw [lexFrom,if_pos token]
  · exact fun _ same => absurd same (other '>' (by decide))
  · exact fun _ same => absurd same (other '<' (by decide))
  · exact fun _ same => absurd same (other '!' (by decide))
theorem lex_word (token : ∀ c ∈ str, isTokenChar c = true) : lexFrom word (str ++ rest) = lexFrom (word ++ str) rest := by
  induction str generalizing word with
  | nil => rw [append_nil,nil_append]
  | cons c str ih => grind [lex_char]
theorem lex_breaks (breaks : Breaks rest) : lexFrom word rest = endToken word ++ lexFrom [] rest := by
  rw [lexFrom.eq_def,lexFrom.eq_def []]
  split
  · rw [show endToken [] = [] from rfl,append_nil]
  · rfl
  · rfl
  · rfl
  · rename_i c _ _ _ _
    rw [if_neg (by rw [breaks c rfl]; decide),if_neg (by rw [breaks c rfl]; decide),append_assoc]
    rfl
/-- A value in front of anything that ends a word. -/
theorem lex_value (token : LexerToken str) (breaks : Breaks rest) : lexFrom [] (str ++ rest) = .TOKEN str :: lexFrom [] rest := by
  rw [lex_word token.2,nil_append,lex_breaks breaks,endToken,if_neg token.1]
  rfl
/-- An operator of one character, in front of anything but an equality sign. -/
theorem lex_sign (sign : isTokenChar c = false) (no_equality : rest.head? ≠ some '=') :
    lexFrom [] (c :: rest) = charToken c ++ lexFrom [] rest := by
  rw [lexFrom,if_neg (by rw [sign]; decide)]
  · rfl
  all_goals
    rintro _ - rfl
    exact no_equality rfl
end

/-- The precedence of the next token, if it is an operator. -/
def lookahead : List ExprToken → Nat
  | t :: _ => (t.oper.map Oper.prec).getD 0
  | [] => 0
/-- An operator of the precedence reduces nothing. -/
def Stable (prec : Nat) : List Frame → Prop
  | .binary oper _ :: _ => oper.prec ≤ prec
  | .not :: _ => False
  | _ => True

section
variable {frames : List Frame} {e lhv rhv : LogicExpr} {ts : List ExprToken} {oper : Oper} {prec prec' : Nat}

theorem Stable.mono (stable : Stable prec frames) (le : prec ≤ prec') : Stable prec' frames := by
  rcases frames with _ | ⟨⟨oper,l⟩ | _ | _,frames⟩
  · trivial
  · exact le_trans stable le
  · exact stable
  · trivial
/-- The parser in front of a token reduces first. -/
theorem parse_congr {frames' : List Frame} {e' : LogicExpr} (same : ∀ la ≤ lookahead ts, reduceAbove la frames e = reduceAbove la frames' e') :
    parseFrom frames (some e) ts = parseFrom frames' (some e') ts := by
  cases ts with
  | nil => rw [parseFrom,parseFrom,same 0 (Nat.zero_le _)]
  | cons t ts =>
    rw [parseFrom,parseFrom]
    rcases found : t.oper with _ | oper
    · simp [same]
    · simp [same,found,lookahead]
theorem parse_not : parseFrom (.not :: frames) (some e) ts = parseFrom frames (some (.not e)) ts := parse_congr fun _ _ => rfl
theorem parse_binary (less : lookahead ts < oper.prec) :
    parseFrom (.binary oper lhv :: frames) (some rhv) ts = parseFrom frames (some (logic_expr_binary lhv rhv oper)) ts :=
  parse_congr fun la le => by rw [reduceAbove,if_pos (lt_of_le_of_lt le less)]
theorem reduce_stable (stable : Stable prec frames) : reduceAbove prec frames e = (frames,e) := by
  rcases frames with _ | ⟨⟨oper,l⟩ | _ | _,frames⟩
  · rfl
  · rw [reduceAbove,if_neg (not_lt.mpr stable)]
  · exact absurd stable id
  · rfl
theorem parse_oper (is_oper : t.oper = some oper) (stable : Stable oper.prec frames) :
    parseFrom frames (some e) (t :: ts) = parseFrom (.binary oper e :: frames) none ts := by
  rw [parseFrom,is_oper]
  dsimp only
  rw [reduce_stable stable]
theorem parse_close : parseFrom (.bracket :: frames) (some e) (.CLOSE :: ts) = parseFrom frames (some e) ts := rfl
end

/-- A text that is read as one operand, in front of any token. -/
def ReadsUnit (text : CStr) (e : LogicExpr) : Prop :=
  text ≠ [] ∧ text.head? ≠ some '=' ∧ ∀ frames rest, Breaks rest →
    parseFrom frames none (lexFrom [] (text ++ rest)) = parseFrom frames (some e) (lexFrom [] rest)
/-- A text that is read as one operand if the tokens around it bind less. -/
def Reads (prec : Nat) (text : CStr) (e : LogicExpr) : Prop :=
  text ≠ [] ∧ text.head? ≠ some '=' ∧ ∀ frames rest, Stable prec frames → Breaks rest → lookahead (lexFrom [] rest) < prec →
    parseFrom frames none (lexFrom [] (text ++ rest)) = parseFrom frames (some e) (lexFrom [] rest)

section
variable {text : CStr} {e : LogicExpr} {prec prec' : Nat}

theorem ReadsUnit.reads (reads : ReadsUnit text e) : Reads prec text e := ⟨reads.1,reads.2.1,fun frames rest _ breaks _ => reads.2.2 frames rest breaks⟩
theorem Reads.mono (reads : Reads prec' text e) (le : prec ≤ prec') : Reads prec text e :=
  ⟨reads.1,reads.2.1,fun frames rest stable breaks less => reads.2.2 frames rest (stable.mono le) breaks (lt_of_lt_of_le less le)⟩
theorem head_append {text rest : CStr} (some_text : text ≠ []) : (text ++ rest).head? = text.head? := by
  cases text with
  | nil => exact absurd rfl some_text
  | cons c text => rfl
theorem reads_value {value : CStr} (token : LexerToken value) : ReadsUnit value (.value value) := by
  refine ⟨token.1,fun equality => ?_,fun frames rest breaks => by rw [lex_value token breaks]; rfl⟩
  exact absurd (token.2 '=' (List.mem_of_head? equality)) (by decide)
theorem reads_not (reads : ReadsUnit text e) : ReadsUnit ('!' :: text) (.not e) := by
  obtain ⟨some_text,no_equality,reads⟩ := reads
  refine ⟨cons_ne_nil _ _,by simp,fun frames rest breaks => ?_⟩
  rw [cons_append,lex_sign (by decide) (by rw [head_append some_text]; exact no_equality)]
  show parseFrom (.not :: frames) none (lexFrom [] (text ++ rest)) = _
  rw [reads _ rest breaks,parse_not]
theorem reads_parenthesized (reads : Reads 1 text e) : ReadsUnit (parenthesized text) e := by
  obtain ⟨some_text,no_equality,reads⟩ := reads
  refine ⟨cons_ne_nil _ _,by simp [parenthesized],fun frames rest breaks => ?_⟩
  have split : parenthesized text ++ rest = '(' :: (text ++ ')' :: rest) := by simp [parenthesized]
  have closing : lexFrom [] (')' :: rest) = .CLOSE :: lexFrom [] rest := by
    rw [lexFrom] <;> first | rfl | exact fun _ same => absurd same (by decide)
  rw [split,lex_sign (by decide) (by rw [head_append some_text]; exact no_equality)]
  show parseFrom (.bracket :: frames) none (lexFrom [] (text ++ ')' :: rest)) = _
  rw [reads (.bracket :: frames) (')' :: rest) trivial (by rintro c ⟨⟩; decide) (by rw [closing]; exact Nat.one_pos),closing]
  exact parse_close
end

section
/-- A separator that is read as one operator. -/
def Separates (sep : CStr) (oper : Oper) : Prop :=
  (∀ rest : CStr, Breaks (sep ++ rest)) ∧ ∀ rest : CStr, rest.head? ≠ some '=' → ∃ t : ExprToken, t.oper = some oper ∧ lexFrom [] (sep ++ rest) = t :: lexFrom [] rest
/-- Operands with their texts, the last one by itself. -/
def joined (sep : CStr) : List (CStr × LogicExpr) → CStr × LogicExpr → CStr
  | [],last => last.1
  | item :: items,last => item.1 ++ (sep ++ joined sep items last)
def nested (oper : Oper) : List (CStr × LogicExpr) → CStr × LogicExpr → LogicExpr
  | [],last => last.2
  | item :: items,last => logic_expr_binary item.2 (nested oper items last) oper

variable {sep : CStr} {oper : Oper} {items more : List (CStr × LogicExpr)} {last item : CStr × LogicExpr}

theorem joined_append : joined sep (items ++ item :: more) last = joined sep items item ++ (sep ++ joined sep more last) := by
  induction items with
  | nil => rfl
  | cons x items ih => simp [ih,joined]
/-- A chain of operands that bind closer is read as the nested expression. -/
theorem reads_chain (separates : Separates sep oper) (each : ∀ item ∈ items, Reads (oper.prec+1) item.1 item.2)
    (closing : Reads (oper.prec+1) last.1 last.2) : Reads oper.prec (joined sep items last) (nested oper items last) := by
  induction items with
  | nil => exact closing.mono (le_succ _)
  | cons item items ih =>
    obtain ⟨first,later⟩ := forall_mem_cons.mp each
    obtain ⟨some_text,no_equality,reads⟩ := ih later
    refine ⟨by simp [joined,first.1],by rw [joined,head_append first.1]; exact first.2.1,fun frames rest stable breaks less => ?_⟩
    obtain ⟨t,is_oper,lexed⟩ := separates.2 (joined sep items last ++ rest) (by rw [head_append some_text]; exact no_equality)
    have before : lookahead (lexFrom [] (sep ++ (joined sep items last ++ rest))) < oper.prec+1 := by
      rw [lexed,lookahead,is_oper]
      exact lt_succ_self _
    rw [joined,nested,append_assoc,append_assoc,
      first.2.2 frames _ (stable.mono (le_succ _)) (separates.1 _) before,lexed,parse_oper is_oper stable,
      reads (.binary oper item.2 :: frames) rest (le_refl oper.prec) breaks less,parse_binary less]

def SameMatch (e e' : LogicExpr) : Prop := ∀ set, logic_expr_match set e = logic_expr_match set e'
/-- The text of an expression as operands of one operator, which may be nested in another way. -/
def Chained (oper : Oper) (sep : CStr) (text : CStr) (e : LogicExpr) : Prop :=
  ∃ items last, text = joined sep items last ∧ (∀ item ∈ items, Reads (oper.prec+1) item.1 item.2) ∧ Reads (oper.prec+1) last.1 last.2 ∧
    SameMatch e (nested oper items last)
/-- Conjunctions and disjunctions may be nested in any way. -/
def Oper.Associates (oper : Oper) : Prop := oper = .OR ∨ oper = .AND

theorem match_congr (oper : Oper) {l l' r r' : LogicExpr} (left : SameMatch l l') (right : SameMatch r r') :
    SameMatch (logic_expr_binary l r oper) (logic_expr_binary l' r' oper) := by
  intro set
  cases oper <;> simp only [logic_expr_binary,logic_expr_match,left set,right set]
theorem match_assoc (associates : oper.Associates) (a b c : LogicExpr) :
    SameMatch (logic_expr_binary (logic_expr_binary a b oper) c oper) (logic_expr_binary a (logic_expr_binary b c oper) oper) := by
  intro set
  obtain rfl | rfl := associates
  · simp only [logic_expr_binary,logic_expr_match]
    split_ifs <;> omega
  · simp only [logic_expr_binary,logic_expr_match]
    split_ifs <;> omega
theorem match_nested (associates : oper.Associates) (items : List (CStr × LogicExpr)) :
    SameMatch (logic_expr_binary (nested oper items item) (nested oper more last) oper) (nested oper (items ++ item :: more) last) := by
  induction items with
  | nil => exact fun _ => rfl
  | cons x items ih =>
    intro set
    rw [nested,match_assoc associates _ _ _ set]
    exact match_congr oper (fun _ => rfl) ih set
theorem Reads.chained {text : CStr} {e e' : LogicExpr} (reads : Reads (oper.prec+1) text e') (same : SameMatch e e') : Chained oper sep text e :=
  ⟨[],(text,e'),rfl,fun _ none_there => (by cases none_there),reads,same⟩
theorem Chained.append {text text' : CStr} {e e' : LogicExpr} (associates : oper.Associates) (first : Chained oper sep text e)
    (second : Chained oper sep text' e') : Chained oper sep (text ++ (sep ++ text')) (logic_expr_binary e e' oper) := by
  obtain ⟨items,item,rfl,each,closing,same⟩ := first
  obtain ⟨more,last,rfl,each',closing',same'⟩ := second
  refine ⟨items ++ item :: more,last,joined_append.symm,?_,closing',fun set => ?_⟩
  · grind
  · rw [match_congr oper same same' set]
    exact match_nested associates items set
theorem Chained.reads {text : CStr} {e : LogicExpr} (chained : Chained oper sep text e) (separates : Separates sep oper) :
    ∃ e', SameMatch e e' ∧ Reads oper.prec text e' := by
  obtain ⟨items,last,rfl,each,closing,same⟩ := chained
  exact ⟨_,same,reads_chain separates each closing⟩
end

/-- Expressions whose values are tokens and whose comparisons, if there may be any, are between values. -/
def ReadableExpr (comparisons : Bool) : LogicExpr → Prop
  | .value value => LexerToken value
  | .not unary => ReadableExpr comparisons unary
  | .and lhv rhv | .or lhv rhv => ReadableExpr comparisons lhv ∧ ReadableExpr comparisons rhv
  | .rel _ lhv rhv => comparisons = true ∧ ∃ l r, lhv = .value l ∧ rhv = .value r ∧ LexerToken l ∧ LexerToken r
/-- What a printer makes of an expression at the top, and as an operand of a disjunction, a
conjunction and a negation. -/
structure Prints (comparisons : Bool) (orSep andSep : CStr) (top inOr inAnd inNot : LogicExpr → CStr) : Prop where
  or_separates : Separates orSep .OR
  and_separates : Separates andSep .AND
  or_text : ∀ l r, top (.or l r) = inOr l ++ (orSep ++ inOr r)
  or_in_or : ∀ l r, inOr (.or l r) = top (.or l r)
  or_in_and : ∀ l r, inAnd (.or l r) = parenthesized (top (.or l r))
  and_text : ∀ l r, top (.and l r) = inAnd l ++ (andSep ++ inAnd r)
  and_in_and : ∀ l r, inAnd (.and l r) = top (.and l r)
  and_in_or : ∀ l r, inOr (.and l r) = top (.and l r) ∨ inOr (.and l r) = parenthesized (top (.and l r))
  value_text : ∀ value, top (.value value) = value
  not_text : ∀ unary, top (.not unary) = '!' :: inNot unary
  rel_text : comparisons = true → ∀ type l r, top (.rel type (.value l) (.value r)) = l ++ (relText type ++ r)
  others : ∀ e, isOr e = false → isAnd e = false → inOr e = top e ∧ inAnd e = top e
  in_not : ∀ e, ReadableExpr comparisons e → inNot e = parenthesized (top e) ∨ ((isValue e || isNot e) = true ∧ inNot e = top e)

theorem relText_separates (type : Relation) : Separates (relText type) (.rel type) := by
  refine ⟨fun rest => ?_,fun rest no_equality => ⟨.rel type,rfl,?_⟩⟩
  · cases type <;> · rintro c ⟨⟩; decide
  · cases type with
    | GT | LT | EQ => exact lex_sign (by decide) no_equality
    | GE | LE | NEQ => rfl
theorem rel_prec (type : Relation) : 3 ≤ (Oper.rel type).prec := by cases type <;> decide

section
variable {comparisons : Bool} {orSep andSep : CStr} {top inOr inAnd inNot : LogicExpr → CStr}

/-- Everything that is printed is read back with the same meaning. -/
theorem Prints.reads (prints : Prints comparisons orSep andSep top inOr inAnd inNot) {e : LogicExpr} (readable : ReadableExpr comparisons e) :
    (∃ e', SameMatch e e' ∧ Reads 1 (top e) e') ∧ Chained .OR orSep (inOr e) e ∧ Chained .AND andSep (inAnd e) e ∧
      ∃ e', SameMatch e e' ∧ ReadsUnit (inNot e) e' := by
  -- what is no conjunction or disjunction has one text
  have alone : ∀ {e e'}, ReadableExpr comparisons e → isOr e = false → isAnd e = false → SameMatch e e' → Reads 3 (top e) e' →
      ((isValue e || isNot e) = true → ReadsUnit (top e) e') →
      (∃ e', SameMatch e e' ∧ Reads 1 (top e) e') ∧ Chained .OR orSep (inOr e) e ∧ Chained .AND andSep (inAnd e) e ∧
        ∃ e', SameMatch e e' ∧ ReadsUnit (inNot e) e' := by
    intro e e' readable no_or no_and same reads whole
    obtain ⟨or_same,and_same⟩ := prints.others e no_or no_and
    refine ⟨⟨e',same,reads.mono (by decide)⟩,?_,?_,e',same,?_⟩
    · rw [or_same]
      exact (reads.mono (by decide)).chained same
    · rw [and_same]
      exact @Reads.chained _ .AND _ _ _ reads same
    · obtain brackets | ⟨kind,plain⟩ := prints.in_not e readable
      · rw [brackets]
        exact reads_parenthesized (reads.mono (by decide))
      · rw [plain]
        exact whole kind
  -- a conjunction or a disjunction has brackets below a negation
  have below_not : ∀ {e e'}, ReadableExpr comparisons e → (isValue e || isNot e) = false → Reads 1 (top e) e' → ReadsUnit (inNot e) e' := by
    intro e e' readable kind reads
    obtain brackets | ⟨kind',-⟩ := prints.in_not e readable
    · rw [brackets]
      exact reads_parenthesized reads
    · exact absurd kind' (by rw [kind]; decide)
  induction e with
  | value value =>
    have unit : ReadsUnit (top (.value value)) (.value value) := by
      rw [prints.value_text]
      exact reads_value readable
    exact alone readable rfl rfl (fun _ => rfl) unit.reads fun _ => unit
  | not unary ih =>
    obtain ⟨-,-,-,e',same,unit⟩ := ih readable
    have negated : ReadsUnit (top (.not unary)) (.not e') := by
      rw [prints.not_text]
      exact reads_not unit
    exact alone readable rfl rfl (fun set => by rw [logic_expr_match,logic_expr_match,same set]) negated.reads fun _ => negated
  | and l r left right =>
    obtain ⟨-,-,first,-⟩ := left readable.1
    obtain ⟨-,-,second,-⟩ := right readable.2
    have chained := first.append (.inr rfl) second
    rw [← prints.and_text] at chained
    obtain ⟨e',same,reads⟩ := chained.reads prints.and_separates
    refine ⟨⟨e',same,reads.mono (by decide)⟩,?_,by rw [prints.and_in_and]; exact chained,e',same,below_not readable rfl (reads.mono (by decide))⟩
    obtain plain | brackets := prints.and_in_or l r
    · rw [plain]
      exact @Reads.chained _ .OR _ _ _ reads same
    · rw [brackets]
      exact (reads_parenthesized (reads.mono (by decide))).reads.chained same
  | or l r left right =>
    obtain ⟨-,first,-⟩ := left readable.1
    obtain ⟨-,second,-⟩ := right readable.2
    have chained := first.append (.inl rfl) second
    rw [← prints.or_text] at chained
    obtain ⟨e',same,reads⟩ := chained.reads prints.or_separates
    refine ⟨⟨e',same,reads⟩,by rw [prints.or_in_or]; exact chained,?_,e',same,below_not readable rfl reads⟩
    rw [prints.or_in_and]
    exact (reads_parenthesized reads).reads.chained same
  | rel type l r =>
    have whole := readable
    obtain ⟨allowed,left,right,rfl,rfl,token,token'⟩ := readable
    have reads : Reads (Oper.rel type).prec (top (.rel type (.value left) (.value right))) (.rel type (.value left) (.value right)) := by
      rw [prints.rel_text allowed]
      exact @reads_chain _ _ [(left,.value left)] (right,.value right) (relText_separates type)
        (fun item member => by rw [mem_singleton.mp member]; exact (reads_value token).reads) (reads_value token').reads
    exact alone whole rfl rfl (fun _ => rfl) (reads.mono (rel_prec type)) fun kind => by cases kind
/-- What is printed at the top is parsed. -/
theorem Prints.parsed (prints : Prints comparisons orSep andSep top inOr inAnd inNot) {e : LogicExpr} (readable : ReadableExpr comparisons e) :
    ∃ e', logic_expr_parse (top e) = some e' ∧ SameMatch e e' := by
  obtain ⟨⟨e',same,reads⟩,-⟩ := prints.reads readable
  refine ⟨e',?_,same⟩
  have parsed := reads.2.2 [] [] trivial (fun c none_there => by cases none_there) Nat.one_pos
  rw [append_nil] at parsed
  exact parsed
end
theorem sign_separates {oper : Oper} (sign : isTokenChar c = false) (one : charToken c = [t]) (is_oper : t.oper = some oper) :
    Separates [c] oper := by
  refine ⟨fun rest => ?_,fun rest no_equality => ⟨t,is_oper,?_⟩⟩
  · rintro d ⟨⟩
    exact sign
  · rw [singleton_append,lex_sign sign no_equality,one]
    rfl
/-- Of the parent only the kind of operator matters. -/
theorem to_str_parent {p p' : Option LogicExpr} (e : LogicExpr) (disjunction : (p.all fun p => isOr p || isNot p) = p'.all fun p => isOr p || isNot p)
    (conjunction : (p.all fun p => isAnd p || isNot p) = p'.all fun p => isAnd p || isNot p) :
    logic_expr_to_str_gen p e = logic_expr_to_str_gen p' e := by
  cases e with
  | or l r => rw [logic_expr_to_str_gen,logic_expr_to_str_gen,disjunction]
  | and l r => rw [logic_expr_to_str_gen,logic_expr_to_str_gen,conjunction]
  | value | not | rel => rfl
/-- The printer of `logic_expr_to_str`. -/
theorem to_str_prints : Prints true ['|'] ['&'] logic_expr_to_str (fun e => logic_expr_to_str_gen (some (.or e e)) e)
    (fun e => logic_expr_to_str_gen (some (.and e e)) e) (fun e => if isValue e then logic_expr_to_str e else parenthesized (logic_expr_to_str e)) where
  or_separates := sign_separates (by decide) rfl rfl
  and_separates := sign_separates (by decide) rfl rfl
  or_text l r := by
    rw [logic_expr_to_str,logic_expr_to_str_gen,@to_str_parent (some (.or l r)) (some (.or l l)) l rfl rfl,@to_str_parent (some (.or l r)) (some (.or r r)) r rfl rfl]
    rfl
  or_in_or _ _ := rfl
  or_in_and _ _ := rfl
  and_text l r := by
    rw [logic_expr_to_str,logic_expr_to_str_gen,@to_str_parent (some (.and l r)) (some (.and l l)) l rfl rfl,@to_str_parent (some (.and l r)) (some (.and r r)) r rfl rfl]
    rfl
  and_in_and _ _ := rfl
  and_in_or _ _ := .inr rfl
  value_text _ := rfl
  not_text unary := by
    rw [logic_expr_to_str,logic_expr_to_str_gen,logic_expr_to_str,@to_str_parent (some (.not unary)) none unary rfl rfl]
  rel_text _ type l r := by simp [logic_expr_to_str,logic_expr_to_str_gen]
  others e no_or no_and := by
    cases e with
    | or => cases no_or
    | and => cases no_and
    | value | not | rel => exact ⟨rfl,rfl⟩
  in_not e _ := by
    split_ifs with value
    · exact .inr ⟨by rw [value]; rfl,rfl⟩
    · exact .inl rfl
end TestEnvironment.Tools
