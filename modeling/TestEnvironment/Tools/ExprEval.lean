import TestEnvironment.Tools.LogicExpr

/-!
Evaluation of logical expressions whose values a callback gives (`logic_expr_eval`): typing, the
operators on Boolean results, and comparisons as integers or as strings.
-/
namespace TestEnvironment.Tools
open Lib

/-- `logic_expr_res`. -/
inductive LogicExprRes
  | UNSPEC
  | SIMPLE (simple : CStr)
  | BOOLEAN (boolean : Bool)
  deriving DecidableEq, Repr
/-- The status of an expression that is not well typed, and those of the callback. -/
inductive EvalError
  | TE_EINVAL
  | errno (code : Nat)
  deriving DecidableEq, Repr

/-- Conversion to `long`. -/
def toLong (n : Int) : Int := n.bmod (2^64)
def digitValue (c : Char) : Option Nat :=
  if c.isDigit then some (c.toNat-48)
  else if 97 ≤ c.toNat ∧ c.toNat ≤ 102 then some (c.toNat-87)
  else if 65 ≤ c.toNat ∧ c.toNat ≤ 70 then some (c.toNat-55)
  else none
def isDigitOf (base : Nat) (c : Char) : Bool := (digitValue c).any (· < base)
/-- The base that a prefix tells, and the digits. -/
def numberBase : CStr → Nat × CStr
  | '0' :: x :: c :: s => if (x = 'x' ∨ x = 'X') ∧ isDigitOf 16 c then (16,c :: s) else (8,'0' :: x :: c :: s)
  | '0' :: s => (8,'0' :: s)
  | s => (10,s)
/-- `te_strtol_silent(s, 0, &n)`: the number if the status is 0. -/
def te_strtol_silent (s : CStr) : Option Int :=
  let t := s.dropWhile isspace
  let negative := t.head? = some '-'
  let t := if negative ∨ t.head? = some '+' then t.drop 1 else t
  let (base,digits) := numberBase t
  if digits = [] ∨ ¬ digits.all (isDigitOf base) then none
  else
    let n : Int := digits.foldl (fun n c => base*n+(digitValue c).getD 0) 0
    let n := if negative then -n else n
    if LONG_MIN ≤ n ∧ n ≤ LONG_MAX then some n else none
/-- `strcmp`, of which callers use the sign only. -/
def strcmp (a b : CStr) : Int := if strLess a b then -1 else if a = b then 0 else 1

/-- `cmp_res`: the difference of two integers wraps around. -/
def cmp_res (l r : CStr) : Int :=
  match te_strtol_silent l,te_strtol_silent r with
  | some l_val,some r_val => toLong (l_val-r_val)
  | _,_ => strcmp l r
def cmpHolds (cmp : Int) : Relation → Bool
  | .GT => cmp > 0
  | .GE => cmp ≥ 0
  | .LT => cmp < 0
  | .LE => cmp ≤ 0
  | .EQ => cmp = 0
  | .NEQ => cmp ≠ 0
def logic_expr_parse_binary_logic_oper (oper : Bool → Bool → Bool) : LogicExprRes → LogicExprRes → Except EvalError LogicExprRes
  | .BOOLEAN l,.BOOLEAN r => .ok (.BOOLEAN (oper l r))
  | _,_ => .error .TE_EINVAL
def logic_expr_parse_comparison_oper (type : Relation) : LogicExprRes → LogicExprRes → Except EvalError LogicExprRes
  | .SIMPLE l,.SIMPLE r => .ok (.BOOLEAN (cmpHolds (cmp_res l r) type))
  | _,_ => .error .TE_EINVAL

section
variable (get_val : CStr → Except EvalError LogicExprRes)

def logic_expr_eval : LogicExpr → Except EvalError LogicExprRes
  | .value value => get_val value
  | .not unary => do
    match ← logic_expr_eval unary with
    | .BOOLEAN boolean => return .BOOLEAN (!boolean)
    | _ => throw .TE_EINVAL
  | .and lhv rhv => do
    let res_l ← logic_expr_eval lhv
    let res_r ← logic_expr_eval rhv
    logic_expr_parse_binary_logic_oper and res_l res_r
  | .or lhv rhv => do
    let res_l ← logic_expr_eval lhv
    let res_r ← logic_expr_eval rhv
    logic_expr_parse_binary_logic_oper or res_l res_r
  | .rel type (.value lhv) (.value rhv) => do
    let res_l ← get_val lhv
    let res_r ← get_val rhv
    logic_expr_parse_comparison_oper type res_l res_r
  | .rel .. => .error .TE_EINVAL

/-- A value whose result is a string. -/
def PlainLeaf (e : LogicExpr) (text : CStr) : Prop := ∃ value, e = .value value ∧ get_val value = .ok (.SIMPLE text)
/-- Boolean operators on Boolean results, comparisons between plain leaves. -/
def BooleanTyped : LogicExpr → Prop
  | .value value => ∃ boolean, get_val value = .ok (.BOOLEAN boolean)
  | .not unary => BooleanTyped unary
  | .and lhv rhv | .or lhv rhv => BooleanTyped lhv ∧ BooleanTyped rhv
  | .rel _ lhv rhv => (∃ l, PlainLeaf get_val lhv l) ∧ ∃ r, PlainLeaf get_val rhv r
def WellTyped (e : LogicExpr) : Prop := BooleanTyped get_val e ∨ ∃ value res, e = .value value ∧ get_val value = .ok res
/-- What a comparison says of two elements of an order. -/
def Relation.holds {α : Type*} [LinearOrder α] (l r : α) : Relation → Bool
  | .GT => r < l
  | .GE => r ≤ l
  | .LT => l < r
  | .LE => l ≤ r
  | .EQ => l = r
  | .NEQ => l ≠ r
/-- As integers if both are integers of type `long`, and as strings otherwise. -/
def rightComparison (l r : CStr) (type : Relation) : Bool :=
  match te_strtol_silent l,te_strtol_silent r with
  | some l_val,some r_val => type.holds l_val r_val
  | _,_ => type.holds l r
/-- A comparison for order of two integers whose difference is no `long`. -/
def wraps (l r : CStr) (type : Relation) : Bool :=
  match te_strtol_silent l,te_strtol_silent r with
  | some l_val,some r_val => type ≠ .EQ ∧ type ≠ .NEQ ∧ ¬ (LONG_MIN ≤ l_val-r_val ∧ l_val-r_val ≤ LONG_MAX)
  | _,_ => false
/-- Comparisons that wrap are taken for their opposites. -/
def invertedWraps (l r : CStr) (type : Relation) : Bool := if wraps l r type then !rightComparison l r type else rightComparison l r type
/-- The truth value over a meaning of comparisons. -/
def truth (comparison : CStr → CStr → Relation → Bool) : LogicExpr → Bool
  | .value value =>
    match get_val value with
    | .ok (.BOOLEAN boolean) => boolean
    | _ => false
  | .not unary => !truth comparison unary
  | .and lhv rhv => truth comparison lhv && truth comparison rhv
  | .or lhv rhv => truth comparison lhv || truth comparison rhv
  | .rel type (.value lhv) (.value rhv) =>
    match get_val lhv,get_val rhv with
    | .ok (.SIMPLE l),.ok (.SIMPLE r) => comparison l r type
    | _,_ => false
  | .rel .. => false
/-- No comparison of the expression wraps. -/
def NoWraps : LogicExpr → Prop
  | .value _ => True
  | .not unary => NoWraps unary
  | .and lhv rhv | .or lhv rhv => NoWraps lhv ∧ NoWraps rhv
  | .rel type lhv rhv => ∀ l r, PlainLeaf get_val lhv l → PlainLeaf get_val rhv r → wraps l r type = false
/-- Evaluation succeeds for expressions that are well typed, with the result of a single value and
the truth value of anything else. -/
structure EvaluatesRight (e : LogicExpr) : Prop where
  succeeds : (∃ res, logic_expr_eval get_val e = .ok res) ↔ WellTyped get_val e
  meaning : ∀ res, logic_expr_eval get_val e = .ok res → (∃ value, e = .value value ∧ get_val value = .ok res) ∨
    ((∀ value, e ≠ .value value) ∧ res = .BOOLEAN (truth get_val rightComparison e))
end

section
variable {get_val : CStr → Except EvalError LogicExprRes}

theorem te_strtol_silent_range {s : CStr} {n : Int} (parsed : te_strtol_silent s = some n) : LONG_MIN ≤ n ∧ n ≤ LONG_MAX := by
  grind [te_strtol_silent]
/-- The sign of a difference that wraps is the wrong one, and never zero. -/
theorem toLong_difference {l r : Int} (left : LONG_MIN ≤ l ∧ l ≤ LONG_MAX) (right : LONG_MIN ≤ r ∧ r ≤ LONG_MAX) :
    if LONG_MIN ≤ l-r ∧ l-r ≤ LONG_MAX then toLong (l-r) = l-r
    else (toLong (l-r) < 0 ∧ r < l) ∨ (0 < toLong (l-r) ∧ l < r) := by
  have size : ((2^64 : Nat) : Int) = 18446744073709551616 := rfl
  simp only [LONG_MIN,LONG_MAX,toLong,Int.bmod,size] at *
  split_ifs <;> omega
theorem strcmp_sign (l r : CStr) : (strcmp l r < 0 ↔ l < r) ∧ (strcmp l r = 0 ↔ l = r) := by
  rw [strcmp]
  by_cases less : l < r
  · rw [if_pos (by simpa [strLess] using less)]
    exact ⟨⟨fun _ => less,fun _ => by decide⟩,⟨fun zero => absurd zero (by decide),fun same => absurd less (same ▸ lt_irrefl l)⟩⟩
  · rw [if_neg (by simpa [strLess] using less)]
    by_cases same : l = r
    · grind
    · grind
/-- A comparison by the sign of a number that has the sign of the order. -/
theorem cmpHolds_sign {α : Type*} [LinearOrder α] {cmp : Int} {l r : α} (less : cmp < 0 ↔ l < r) (same : cmp = 0 ↔ l = r) (type : Relation) :
    cmpHolds cmp type = type.holds l r := by
  have greater : 0 < cmp ↔ r < l := by
    rw [← not_le,← not_le,le_iff_lt_or_eq,le_iff_lt_or_eq,less,same]
  cases type with
  | GT => exact decide_eq_decide.mpr greater
  | GE => exact decide_eq_decide.mpr (by rw [ge_iff_le,← not_lt,← not_lt,less])
  | LT => exact decide_eq_decide.mpr less
  | LE => exact decide_eq_decide.mpr (by rw [← not_lt,← not_lt,greater])
  | EQ => exact decide_eq_decide.mpr same
  | NEQ => exact decide_eq_decide.mpr (not_congr same)
/-- What the code makes of two strings. -/
theorem cmp_res_inverted (l r : CStr) (type : Relation) : cmpHolds (cmp_res l r) type = invertedWraps l r type := by
  rw [invertedWraps,wraps,rightComparison,cmp_res]
  rcases left : te_strtol_silent l with _ | l_val
  · exact cmpHolds_sign (strcmp_sign l r).1 (strcmp_sign l r).2 type
  · rcases right : te_strtol_silent r with _ | r_val
    · exact cmpHolds_sign (strcmp_sign l r).1 (strcmp_sign l r).2 type
    · have difference := toLong_difference (te_strtol_silent_range left) (te_strtol_silent_range right)
      dsimp only
      split_ifs at difference with fits
      · rw [if_neg (fun wrapped => (of_decide_eq_true wrapped).2.2 fits),difference]
        exact cmpHolds_sign (by omega) (by omega) type
      · cases type with
        | EQ | NEQ =>
          rw [if_neg (by simp)]
          exact decide_eq_decide.mpr (by omega)
        | GT | GE | LT | LE =>
          rw [if_pos (decide_eq_true ⟨by decide,by decide,fits⟩)]
          simp only [cmpHolds,Relation.holds,← decide_not]
          exact decide_eq_decide.mpr (by omega)
variable {e : LogicExpr}

/-- A Boolean result, with the meaning that the code gives to comparisons. -/
theorem eval_boolean (typed : BooleanTyped get_val e) :
    logic_expr_eval get_val e = .ok (.BOOLEAN (truth get_val invertedWraps e)) := by
  induction e with
  | value value =>
    obtain ⟨boolean,got⟩ := typed
    rw [logic_expr_eval,truth,got]
  | not unary ih =>
    rw [logic_expr_eval,ih typed]
    rfl
  | and l r left right | or l r left right =>
    rw [logic_expr_eval,left typed.1,right typed.2]
    rfl
  | rel type l r =>
    obtain ⟨⟨left,_,rfl,got⟩,right,_,rfl,got'⟩ := typed
    rw [logic_expr_eval,truth,got,got']
    exact congrArg (fun b => Except.ok (LogicExprRes.BOOLEAN b)) (cmp_res_inverted left right type)
theorem bind_ok {ε α β : Type} {x : Except ε α} {f : α → Except ε β} {b : β} (done : (x >>= f) = .ok b) : ∃ a, x = .ok a ∧ f a = .ok b := by
  cases x with
  | error e => cases done
  | ok a => exact ⟨a,rfl,done⟩
theorem oper_boolean {oper : Bool → Bool → Bool} {l r res : LogicExprRes} (done : logic_expr_parse_binary_logic_oper oper l r = .ok res) :
    ∃ a b, l = .BOOLEAN a ∧ r = .BOOLEAN b := by
  cases l <;> cases r <;> first | exact ⟨_,_,rfl,rfl⟩ | cases done
/-- Only expressions that are well typed have a Boolean result. -/
theorem eval_typed {boolean : Bool} (done : logic_expr_eval get_val e = .ok (.BOOLEAN boolean)) : BooleanTyped get_val e := by
  induction e generalizing boolean with
  | value value => exact ⟨boolean,done⟩
  | not unary ih =>
    obtain ⟨res,inner,rest⟩ := bind_ok done
    cases res with
    | BOOLEAN a => exact ih inner
    | UNSPEC | SIMPLE => cases rest
  | and l r left right | or l r left right =>
    obtain ⟨res_l,inner,rest⟩ := bind_ok done
    obtain ⟨res_r,inner',rest⟩ := bind_ok rest
    obtain ⟨a,a',rfl,rfl⟩ := oper_boolean rest
    exact ⟨left inner,right inner'⟩
  | rel type l r =>
    cases l with
    | value left =>
      cases r with
      | value right =>
        obtain ⟨res_l,got,rest⟩ := bind_ok done
        obtain ⟨res_r,got',rest⟩ := bind_ok rest
        cases res_l with
        | SIMPLE a =>
          cases res_r with
          | SIMPLE a' => exact ⟨⟨a,left,rfl,got⟩,a',right,rfl,got'⟩
          | UNSPEC | BOOLEAN => cases rest
        | UNSPEC | BOOLEAN => cases rest
      | not | and | or | rel => cases done
    | not | and | or | rel => cases done
theorem eval_result {res : LogicExprRes} (done : logic_expr_eval get_val e = .ok res) :
    (∃ value, e = .value value ∧ get_val value = .ok res) ∨ ((∀ value, e ≠ .value value) ∧ ∃ boolean, res = .BOOLEAN boolean) := by
  cases e with
  | value value => exact .inl ⟨value,rfl,done⟩
  | not unary =>
    refine .inr ⟨fun _ => LogicExpr.noConfusion,?_⟩
    obtain ⟨inner,-,rest⟩ := bind_ok done
    cases inner with
    | BOOLEAN a => exact ⟨_,(ok.inj rest).symm⟩
    | UNSPEC | SIMPLE => cases rest
  | and l r | or l r =>
    refine .inr ⟨fun _ => LogicExpr.noConfusion,?_⟩
    obtain ⟨res_l,-,rest⟩ := bind_ok done
    obtain ⟨res_r,-,rest⟩ := bind_ok rest
    obtain ⟨a,a',rfl,rfl⟩ := oper_boolean rest
    exact ⟨_,(ok.inj rest).symm⟩
  | rel type l r =>
    refine .inr ⟨fun _ => LogicExpr.noConfusion,?_⟩
    cases l with
    | value left =>
      cases r with
      | value right =>
        obtain ⟨res_l,-,rest⟩ := bind_ok done
        obtain ⟨res_r,-,rest⟩ := bind_ok rest
        cases res_l with
        | SIMPLE a =>
          cases res_r with
          | SIMPLE a' => exact ⟨_,(ok.inj rest).symm⟩
          | UNSPEC | BOOLEAN => cases rest
        | UNSPEC | BOOLEAN => cases rest
      | not | and | or | rel => cases done
    | not | and | or | rel => cases done
theorem eval_succeeds (e : LogicExpr) : (∃ res, logic_expr_eval get_val e = .ok res) ↔ WellTyped get_val e := by
  constructor
  · rintro ⟨res,done⟩
    obtain ⟨value,rfl,got⟩ | ⟨-,boolean,rfl⟩ := eval_result done
    · exact .inr ⟨value,res,rfl,got⟩
    · exact .inl (eval_typed done)
  · rintro (typed | ⟨value,res,rfl,got⟩)
    · exact ⟨_,eval_boolean typed⟩
    · exact ⟨res,got⟩
theorem truth_no_wraps (typed : BooleanTyped get_val e) (small : NoWraps get_val e) :
    truth get_val invertedWraps e = truth get_val rightComparison e := by
  induction e with
  | value value => rfl
  | not unary ih => rw [truth,truth,ih typed small]
  | and l r left right | or l r left right => rw [truth,truth,left typed.1 small.1,right typed.2 small.2]
  | rel type l r =>
    obtain ⟨⟨left,value,rfl,got⟩,right,value',rfl,got'⟩ := typed
    have fits : wraps left right type = false := small left right ⟨value,rfl,got⟩ ⟨value',rfl,got'⟩
    rw [truth,truth,got,got']
    dsimp only
    rw [invertedWraps,fits,if_neg Bool.false_ne_true]
/-- Evaluation is right if and only if the comparisons whose difference wraps around, all of which
come out inverted, do not change the truth value; in particular if there are none. -/
theorem eval_right_iff (e : LogicExpr) :
    (EvaluatesRight get_val e ↔ (BooleanTyped get_val e → truth get_val invertedWraps e = truth get_val rightComparison e)) ∧
    (NoWraps get_val e → EvaluatesRight get_val e) := by
  have iff : EvaluatesRight get_val e ↔ (BooleanTyped get_val e → truth get_val invertedWraps e = truth get_val rightComparison e) := by
    constructor
    · intro right typed
      have done := eval_boolean typed
      obtain ⟨value,rfl,-⟩ | ⟨-,same⟩ := right.meaning _ done
      · rfl
      · exact LogicExprRes.BOOLEAN.inj same
    · intro same
      refine ⟨eval_succeeds e,fun res done => ?_⟩
      obtain leaf | ⟨no_value,boolean,rfl⟩ := eval_result done
      · exact .inl leaf
      · have typed := eval_typed done
        refine .inr ⟨no_value,?_⟩
        rw [← same typed]
        exact ok.inj (done.symm.trans (eval_boolean typed))
  exact ⟨iff,fun small => iff.mpr fun typed => truth_no_wraps typed small⟩
end
/-- The largest integer is not found greater than -1. -/
theorem eval_difference_wraps : ¬ EvaluatesRight (fun value => .ok (.SIMPLE value))
    (.rel .GT (.value "9223372036854775807".toList) (.value "-1".toList)) := by
  intro right
  have wrapped : cmpHolds (cmp_res "9223372036854775807".toList "-1".toList) .GT = false := by decide +kernel
  have larger : rightComparison "9223372036854775807".toList "-1".toList .GT = true := by decide +kernel
  obtain ⟨value,other,-⟩ | ⟨-,same⟩ := right.meaning (.BOOLEAN false) (congrArg (fun b => Except.ok (LogicExprRes.BOOLEAN b)) wrapped)
  · cases other
  · exact absurd (LogicExprRes.BOOLEAN.inj (same.trans (congrArg LogicExprRes.BOOLEAN larger))) (by decide)
end TestEnvironment.Tools
