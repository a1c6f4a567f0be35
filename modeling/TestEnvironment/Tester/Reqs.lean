import TestEnvironment.Tester.Iterations
import TestEnvironment.Tools.LogicExpr

/-!
Requirements of tests (`engine/tester/reqs.c`): whether the requirements that are attached to a context,
a test and its arguments meet an expression, and the text of such an expression.
-/
namespace TestEnvironment.Tester
open Lib Tools

/-- `test_requirement`: an identifier, or the name of the argument whose value it is. -/
structure TestRequirement where
  id : Option CStr
  ref : Option CStr
  named : id.isSome ∨ ref.isSome
/-- The fields of `test_iter_arg` that requirements use besides its name and value. -/
structure TestReqArg extends TestIterArg where
  reqs : List TestRequirement
  isVariable : Bool

def test_req_id (req : TestRequirement) (args : List TestReqArg) : CStr :=
  match req.id with
  | some id => id
  | none => ((args.find? fun arg => some arg.name = req.ref).map fun arg => arg.value).getD []
def is_req_in_set (req : CStr) (set : List TestRequirement) (args : List TestReqArg) : Bool := set.any fun s => req = test_req_id s args
def is_req_in_args (req : CStr) (args : List TestReqArg) : Bool := args.any fun p => !p.isVariable && is_req_in_set req p.reqs args

section
variable (ctx_set test_set : List TestRequirement) (args : List TestReqArg)

/-- The result and the flag afterwards, from `set_force` and the flag before. A comparison fails an
assertion. -/
def is_reqs_expr_match : LogicExpr → Bool → Bool → Bool × Bool
  | .value value,_,force => (is_req_in_set value ctx_set args || is_req_in_set value test_set args || is_req_in_args value args,force)
  | .not unary,set_force,force =>
    let (inner,force) := is_reqs_expr_match unary false force
    (!inner,if inner ∧ set_force ∧ isValue unary then true else force)
  | .and lhv rhv,set_force,force =>
    let (lhr,force) := is_reqs_expr_match lhv set_force force
    let (rhr,force) := if lhr ∨ (set_force ∧ ¬ force) then is_reqs_expr_match rhv set_force force else (false,force)
    (lhr && rhr,force)
  | .or lhv rhv,_,force =>
    let (lhr,force) := is_reqs_expr_match lhv false force
    if lhr then (true,force) else is_reqs_expr_match rhv false force
  | .rel ..,_,_ => (false,true)

/-- The requirements of the context, the test and the arguments that are no variables. -/
def collected : List TestRequirement := ctx_set ++ test_set ++ (args.filter fun arg => !arg.isVariable).flatMap TestReqArg.reqs
def Present (req : CStr) : Prop := ∃ s ∈ collected ctx_set test_set args, test_req_id s args = req
end

/-- Expressions of values and Boolean operators. -/
def NoComparison : LogicExpr → Prop
  | .value _ => True
  | .not unary => NoComparison unary
  | .and lhv rhv | .or lhv rhv => NoComparison lhv ∧ NoComparison rhv
  | .rel .. => False
instance decidableNoComparison : (e : LogicExpr) → Decidable (NoComparison e)
  | .value _ => isTrue trivial
  | .not unary => decidableNoComparison unary
  | .and lhv rhv | .or lhv rhv => @instDecidableAnd _ _ (decidableNoComparison lhv) (decidableNoComparison rhv)
  | .rel .. => isFalse id
def boolean (valuation : CStr → Prop) : LogicExpr → Prop
  | .value value => valuation value
  | .not unary => ¬ boolean valuation unary
  | .and lhv rhv => boolean valuation lhv ∧ boolean valuation rhv
  | .or lhv rhv => boolean valuation lhv ∨ boolean valuation rhv
  | .rel .. => False
/-- The operands of the chain of conjunctions at the top. -/
def andOperands : LogicExpr → List LogicExpr
  | .and lhv rhv => andOperands lhv ++ andOperands rhv
  | e => [e]

section
variable {ctx_set test_set : List TestRequirement} {args : List TestReqArg}

variable {req : CStr} {e : LogicExpr}

theorem in_set_iff {set : List TestRequirement} : is_req_in_set req set args = true ↔ ∃ s ∈ set, test_req_id s args = req := by
  rw [is_req_in_set,any_eq_true]
  exact exists_congr fun s => and_congr_right fun _ => decide_eq_true_iff.trans eq_comm
theorem in_args_iff : is_req_in_args req args = true ↔
    ∃ s ∈ (args.filter fun arg => !arg.isVariable).flatMap TestReqArg.reqs, test_req_id s args = req := by
  rw [is_req_in_args,any_eq_true]
  constructor
  · rintro ⟨p,member,both⟩
    obtain ⟨plain,there⟩ := (and_eq_true _ _).mp both
    obtain ⟨s,inside,same⟩ := in_set_iff.mp there
    exact ⟨s,mem_flatMap.mpr ⟨p,mem_filter.mpr ⟨member,plain⟩,inside⟩,same⟩
  · rintro ⟨s,inside,same⟩
    obtain ⟨p,kept,inside⟩ := mem_flatMap.mp inside
    obtain ⟨member,plain⟩ := mem_filter.mp kept
    exact ⟨p,member,(and_eq_true _ _).mpr ⟨plain,in_set_iff.mpr ⟨s,inside,same⟩⟩⟩
theorem present_iff : (is_req_in_set req ctx_set args || is_req_in_set req test_set args || is_req_in_args req args) = true ↔
    Present ctx_set test_set args req := by
  rw [or_eq_true,or_eq_true,in_set_iff,in_set_iff,in_args_iff,Present,collected]
  simp only [mem_append,or_and_right,exists_or]
/-- The result does not depend on the flags, and without `set_force` the flag stays as it is. -/
theorem match_boolean (plain : NoComparison e) (set_force force : Bool) :
    ((is_reqs_expr_match ctx_set test_set args e set_force force).1 = true ↔ boolean (Present ctx_set test_set args) e) ∧
    (set_force = false → (is_reqs_expr_match ctx_set test_set args e set_force force).2 = force) := by
  induction e generalizing set_force force with
  | value value => exact ⟨present_iff,fun _ => rfl⟩
  | not unary ih =>
    obtain ⟨result,kept⟩ := ih plain false force
    rw [is_reqs_expr_match,boolean,← result]
    dsimp only
    refine ⟨by rw [Bool.not_eq_true',Bool.not_eq_true],?_⟩
    rintro rfl
    rw [if_neg fun all => Bool.false_ne_true all.2.1]
    exact kept rfl
  | and l r left right =>
    obtain ⟨lhr,kept⟩ := left plain.1 set_force force
    rw [is_reqs_expr_match,boolean,← lhr]
    rcases first : is_reqs_expr_match ctx_set test_set args l set_force force with ⟨lhv,flag⟩
    rw [first] at lhr kept
    obtain ⟨rhr,kept'⟩ := right plain.2 set_force flag
    dsimp only at kept ⊢
    split_ifs with goes_on
    · grind
    · grind
  | or l r left right =>
    obtain ⟨lhr,kept⟩ := left plain.1 false force
    rw [is_reqs_expr_match,boolean,← lhr]
    rcases first : is_reqs_expr_match ctx_set test_set args l false force with ⟨lhv,flag⟩
    rw [first] at kept
    obtain rfl : flag = force := kept rfl
    obtain ⟨rhr,kept'⟩ := right plain.2 false flag
    dsimp only
    split_ifs with here
    · exact ⟨⟨fun _ => .inl here,fun _ => rfl⟩,fun _ => rfl⟩
    · exact ⟨by rw [rhr,or_iff_right here],fun _ => kept' rfl⟩
  | rel => exact absurd plain id
/-- An operand is the negation of a requirement that is present. -/
def Rejected (ctx_set test_set : List TestRequirement) (args : List TestReqArg) (e : LogicExpr) : Prop :=
  ∃ req, .not (.value req) ∈ andOperands e ∧ Present ctx_set test_set args req
theorem rejected_and {l r : LogicExpr} : Rejected ctx_set test_set args (.and l r) ↔
    Rejected ctx_set test_set args l ∨ Rejected ctx_set test_set args r := by
  simp only [Rejected,andOperands,mem_append,or_and_right,exists_or]
/-- The flag is set by the operands of the chain only; an operand that is not looked at follows one
that has set it. -/
theorem match_force (plain : NoComparison e) (force : Bool) :
    (is_reqs_expr_match ctx_set test_set args e true force).2 = true ↔ force = true ∨ Rejected ctx_set test_set args e := by
  induction e generalizing force with
  | value value =>
    rw [or_iff_left]
    · rfl
    · rintro ⟨req,member,-⟩
      cases mem_singleton.mp member
  | not unary =>
    obtain ⟨result,kept⟩ := @match_boolean ctx_set test_set args unary plain false force
    rw [is_reqs_expr_match]
    dsimp only
    split_ifs with rejects
    · obtain ⟨inner,-,single⟩ := rejects
      refine ⟨fun _ => .inr ?_,fun _ => rfl⟩
      cases unary with
      | value req => exact ⟨req,mem_singleton_self _,result.mp inner⟩
      | not | and | or | rel => cases single
    · rw [kept rfl,or_iff_left]
      rintro ⟨req,member,present⟩
      obtain rfl := LogicExpr.not.inj (mem_singleton.mp member)
      exact rejects ⟨result.mpr present,rfl,rfl⟩
  | and l r left right =>
    have first := left plain.1 force
    rw [rejected_and,← or_assoc,← first,is_reqs_expr_match]
    rcases is_reqs_expr_match ctx_set test_set args l true force with ⟨lhv,flag⟩
    dsimp only
    split_ifs with goes_on
    · exact right plain.2 flag
    · grind
  | or l r =>
    have kept := (@match_boolean ctx_set test_set args (.or l r) plain false force).2 rfl
    rw [show is_reqs_expr_match ctx_set test_set args (.or l r) true force = is_reqs_expr_match ctx_set test_set args (.or l r) false force from rfl,kept,
      or_iff_left]
    rintro ⟨req,member,-⟩
    cases mem_singleton.mp member
  | rel => exact absurd plain id
/-- The result is the Boolean value over the union of the sets; the flag is set for a requirement that
an operand of the chain at the top negates. -/
theorem reqs_expr_match (ctx_set test_set : List TestRequirement) (args : List TestReqArg) (e : LogicExpr) (plain : NoComparison e) :
    (∀ set_force force, (is_reqs_expr_match ctx_set test_set args e set_force force).1 = true ↔ boolean (Present ctx_set test_set args) e) ∧
    ((is_reqs_expr_match ctx_set test_set args e true false).2 = true ↔
      ∃ req, .not (.value req) ∈ andOperands e ∧ Present ctx_set test_set args req) := by
  refine ⟨fun set_force force => (match_boolean plain set_force force).1,?_⟩
  rw [match_force plain,or_iff_right Bool.false_ne_true,Rejected]
/-- One requirement of a test, another one of an argument. -/
theorem reqs_expr_match_arg : (is_reqs_expr_match [⟨some ['a'],none,.inl rfl⟩] [] [⟨⟨['x'],['v']⟩,[⟨none,some ['x'],.inr rfl⟩],false⟩]
      (.and (.value ['a']) (.not (.value ['v']))) true false).2 = true ↔
    ∃ req, .not (.value req) ∈ andOperands (.and (.value ['a']) (.not (.value ['v']))) ∧
      Present [⟨some ['a'],none,.inl rfl⟩] [] [⟨⟨['x'],['v']⟩,[⟨none,some ['x'],.inr rfl⟩],false⟩] req :=
  (reqs_expr_match _ _ _ _ (by decide)).2
end
end TestEnvironment.Tester
