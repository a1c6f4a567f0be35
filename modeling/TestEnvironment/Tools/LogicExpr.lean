import TestEnvironment.Lib.Strings

/-!
Logical expressions (`lib/logic_expr/logic_expr.c`): matching against a set of
strings, and the passes of `logic_expr_dnf`. An expression that the code rewrites
in place is the result of the function here, and NULL behind a chain is its end.
-/
namespace TestEnvironment.Tools
open Lib

/-- The comparisons of `logic_expr_type`. -/
inductive Relation | GT | GE | LT | LE | EQ | NEQ
  deriving DecidableEq, Repr
inductive LogicExpr
  | value (value : CStr)
  | not (unary : LogicExpr)
  | and (lhv rhv : LogicExpr)
  | or (lhv rhv : LogicExpr)
  | rel (type : Relation) (lhv rhv : LogicExpr)
  deriving DecidableEq, Repr

def LONG_MAX : Int := 2^63-1
def LONG_MIN : Int := -2^63
/-- Conversion of a `long` to `int`. -/
def toInt (n : Int) : Int := n.bmod (2^32)
/-- `strtol(s, &endptr, 10)`: the value and the text at `endptr`. -/
def strtol (s : CStr) : Int × CStr :=
  let t := s.dropWhile isspace
  let negative := t.head? = some '-'
  let t := if negative ∨ t.head? = some '+' then t.drop 1 else t
  let digits := t.takeWhile Char.isDigit
  if digits = [] then (0,s)
  else
    let n : Int := digits.foldl (fun n c => 10*n+(c.toNat-48)) 0
    (max LONG_MIN (min LONG_MAX (if negative then -n else n)),t.drop digits.length)
def atoi (s : CStr) : Int := toInt (strtol s).1

/-- `is_str_in_set` from the string with the index. -/
def is_str_in_set (str : CStr) (i : Nat) : List CStr → Int
  | [] => -1
  | v :: set =>
    match strchr ':' v with
    | none => if str = v then toInt i else is_str_in_set str (i+1) set
    | some (name,behind) => if str = name then atoi behind else is_str_in_set str (i+1) set
/-- The cases of `logic_expr_match` for comparisons. Only `LOGIC_EXPR_GT` takes -1 on the left. -/
def relMatch (lhr rhr : Int) : Relation → Int
  | .GT => if lhr > rhr then 1 else -1
  | .GE => if lhr ≥ rhr ∧ lhr ≠ -1 then 1 else -1
  | .LT => if lhr < rhr ∧ lhr ≠ -1 then 1 else -1
  | .LE => if lhr ≤ rhr ∧ lhr ≠ -1 then 1 else -1
  | .EQ => if lhr = rhr ∧ lhr ≠ -1 then 1 else -1
  | .NEQ => if lhr ≠ rhr ∧ lhr ≠ -1 then 1 else -1
def logic_expr_match (set : List CStr) : LogicExpr → Int
  | .value value =>
    if value = (strtol value).2 ∨ (strtol value).2 ≠ [] then is_str_in_set value 1 set else toInt (strtol value).1
  | .not unary => if logic_expr_match set unary ≥ 0 then -1 else 0
  | .and lhv rhv =>
    let lhr := logic_expr_match set lhv
    let rhr := if lhr = -1 then -1 else logic_expr_match set rhv
    if lhr = -1 ∨ rhr = -1 then -1 else min lhr rhr
  | .or lhv rhv =>
    let lhr := logic_expr_match set lhv
    let rhr := logic_expr_match set rhv
    if lhr = -1 then rhr else if rhr = -1 then lhr else min lhr rhr
  | .rel type lhv rhv => relMatch (logic_expr_match set lhv) (logic_expr_match set rhv) type

mutual
def logic_expr_not_prop : LogicExpr → LogicExpr
  | .not unary => notPropUnary unary
  | .and lhv rhv => .and (logic_expr_not_prop lhv) (logic_expr_not_prop rhv)
  | .or lhv rhv => .or (logic_expr_not_prop lhv) (logic_expr_not_prop rhv)
  | e => e
/-- `logic_expr_not_prop` of the negation of the operand. -/
def notPropUnary : LogicExpr → LogicExpr
  | .and lhv rhv => .or (notPropUnary lhv) (notPropUnary rhv)
  | .or lhv rhv => .and (notPropUnary lhv) (notPropUnary rhv)
  | .not unary => logic_expr_not_prop unary
  | e => .not e
end

/-- `find_or` and `and_or_replace`: the conjunction with the left and with the right operand
    of the first disjunction below conjunctions only, the operands of the disjunction if it
    is one itself. -/
def andOrReplace : LogicExpr → Option (LogicExpr × LogicExpr)
  | .or lhv rhv => some (lhv,rhv)
  | .and lhv rhv =>
    match andOrReplace lhv with
    | some (a,b) => some (.and a rhv,.and b rhv)
    | none => (andOrReplace rhv).map fun ab => (.and lhv ab.1,.and lhv ab.2)
  | _ => none

/-- The leftmost end of a chain (`l_end`). -/
def chainEnd : LogicExpr → LogicExpr
  | .and lhv _ => chainEnd lhv
  | e => e
/-- The chain with another leftmost end. -/
def setChainEnd (rhv : LogicExpr) : LogicExpr → LogicExpr
  | .and lhv x => .and (setChainEnd rhv lhv) x
  | _ => rhv
def make_and_chain : LogicExpr → LogicExpr
  | .and l r =>
    let lhv := make_and_chain l
    let rhv := make_and_chain r
    match lhv with
    | .and .. => .and (setChainEnd rhv lhv) (chainEnd lhv)
    | _ =>
      match rhv with
      | .and .. => .and rhv lhv
      | _ => .and lhv rhv
  | e => e

/-- Why a run gives nothing: a loop went on for longer than the fuel, or the code read a
    node that it had freed. -/
inductive Fault | fuel | freed
  deriving DecidableEq, Repr

section
variable (comp_func : LogicExpr → LogicExpr → Int)

/-- A pass of `sort_and_chain` from the node `p` with the right operand on, by recursion on
    the left operand `q`: the chain and the number of swaps. -/
def sortPass (rhv : LogicExpr) : LogicExpr → LogicExpr × Nat
  | .and lhv x =>
    let rc := comp_func rhv x
    if rc = -1 then
      let pass := sortPass rhv lhv
      (.and pass.1 x,pass.2+1)
    else if rc = 0 then sortPass rhv lhv
    else
      let pass := sortPass x lhv
      (.and pass.1 rhv,pass.2)
  | q =>
    let rc := comp_func rhv q
    if rc = -1 then (.and rhv q,1) else if rc = 0 then (q,0) else (.and q rhv,0)
/-- `sort_and_chain`. A pass with a swap leaves two elements, so that the next one starts at
    a conjunction again. -/
def sort_and_chain : Nat → LogicExpr → Except Fault LogicExpr
  | 0, _ => .error .fuel
  | fuel+1, .and lhv rhv =>
    let pass := sortPass comp_func rhv lhv
    if pass.2 > 0 then sort_and_chain fuel pass.1 else .ok pass.1
  | _+1, e => .ok e

/-- The elements of a chain, from its top. -/
def elements : LogicExpr → List LogicExpr
  | .and lhv rhv => rhv :: elements lhv
  | e => [e]
/-- What `and_chains_cmp` returns behind its loop. -/
def chainsResult (p q : List LogicExpr) (rc : Int) (first_noeq second_noeq : Bool) : Int :=
  let first_noeq := first_noeq || !p.isEmpty
  let second_noeq := second_noeq || !q.isEmpty
  if p = [] ∧ q = [] ∧ rc ≠ 0 then -2
  else if first_noeq ∧ second_noeq then -2
  else if first_noeq then 1
  else -1
/-- The loop of `and_chains_cmp`. Each pass takes an element from one of the chains, so the
    fuel is how many there are. -/
def chainsLoop : Nat → List LogicExpr → List LogicExpr → LogicExpr → LogicExpr → Int → Bool → Bool → Int
  | 0, p, q, _, _, rc, first_noeq, second_noeq => chainsResult p q rc first_noeq second_noeq
  | fuel+1, p, q, p_cur, q_cur, rc, first_noeq, second_noeq =>
    if (p ≠ [] ∧ rc ≠ -1) ∨ (q ≠ [] ∧ rc ≠ 1) then
      let (p,p_cur) := if rc ≠ -1 then (p.tail,p.headD p_cur) else (p,p_cur)
      let (q,q_cur) := if rc ≠ 1 then (q.tail,q.headD q_cur) else (q,q_cur)
      let rc := comp_func p_cur q_cur
      if rc ≠ 0 then
        let first_noeq := first_noeq || rc = 1
        let second_noeq := second_noeq || rc ≠ 1
        if first_noeq ∧ second_noeq then -2
        else chainsLoop fuel p q p_cur q_cur rc first_noeq second_noeq
      else if p = [] ∨ q = [] then chainsResult p q rc first_noeq second_noeq
      else chainsLoop fuel p q p_cur q_cur rc first_noeq second_noeq
    else chainsResult p q rc first_noeq second_noeq
def and_chains_cmp (chain1 chain2 : LogicExpr) : Int :=
  chainsLoop comp_func ((elements chain1).length+(elements chain2).length) (elements chain1) (elements chain2)
    chain1 chain2 0 false false

/-- The inner loop of `logic_expr_dnf_rem_dups` for the conjunction `p_cur`: what is left
    behind it (none if all of it is merged), and whether `p_cur` is merged itself. -/
def remScan (p_cur : LogicExpr) : LogicExpr → Option LogicExpr × Bool
  | .or lhv rhv =>
    let rc := and_chains_cmp comp_func p_cur lhv
    if rc = 0 ∨ rc = -1 then remScan p_cur rhv
    else if rc = 1 then (some (.or lhv rhv),true)
    else
      match remScan p_cur rhv with
      -- the node becomes its left operand when the last conjunction goes
      | (none,merged) => (some lhv,merged)
      | (some rest,merged) => (some (.or lhv rest),merged)
  | q =>
    let rc := and_chains_cmp comp_func p_cur q
    if rc = 0 ∨ rc = -1 then (none,false) else if rc = 1 then (some q,true) else (some q,false)
/-- `p = p->u.binary.rhv` and the rest of the outer loop of `logic_expr_dnf_rem_dups`, for a
    node that has taken over the contents of another one. In a value and in a negation the
    pointer is the one of before, to a node that is not part of the expression any more. -/
def nextNode (loop : LogicExpr → Except Fault LogicExpr) (before : Except Fault LogicExpr) :
    LogicExpr → Except Fault LogicExpr
  | .and lhv rhv => (loop rhv).map (.and lhv ·)
  | .or lhv rhv => (loop rhv).map (.or lhv ·)
  | .rel type lhv rhv => (loop rhv).map (.rel type lhv ·)
  | .value _ | .not _ => before
/-- The outer loop of `logic_expr_dnf_rem_dups`. -/
def remLoop : Nat → LogicExpr → Except Fault LogicExpr
  | 0, _ => .error .fuel
  | fuel+1, .or p_cur rhv =>
    match remScan comp_func p_cur rhv with
    -- the right operand has been freed
    | (none,_) => nextNode (remLoop fuel) (.error .freed) p_cur
    -- the right operand is a copy now, and a value or a negation like it
    | (some rest,true) => nextNode (remLoop fuel) (.ok rest) rest
    | (some rest,false) => (remLoop fuel rest).map (.or p_cur ·)
  | _+1, e => .ok e
/-- The first loop of `logic_expr_dnf_rem_dups`, which sorts the conjunctions. -/
def sortAll (fuel : Nat) : LogicExpr → Except Fault LogicExpr
  | .or lhv rhv => do
    let lhv ← sort_and_chain comp_func fuel lhv
    let rhv ← sortAll fuel rhv
    return .or lhv rhv
  | e => sort_and_chain comp_func fuel e
def logic_expr_dnf_rem_dups (fuel : Nat) (dnf : LogicExpr) : Except Fault LogicExpr :=
  match dnf with
  | .and .. => sort_and_chain comp_func fuel dnf
  | .or .. => do
    let sorted ← sortAll comp_func fuel dnf
    remLoop comp_func fuel sorted
  | _ => .ok dnf

/-- The loop of `logic_expr_dnf_gen` that removes the disjunctions from the left operand. -/
def orLoop : Nat → LogicExpr → LogicExpr → Except Fault (LogicExpr × LogicExpr)
  | 0, _, _ => .error .fuel
  | fuel+1, lhv, rhv =>
    match andOrReplace lhv with
    | none => .ok (lhv,rhv)
    | some (a,b) => orLoop fuel a (.or b rhv)
/-- The case of `LOGIC_EXPR_OR` of `logic_expr_dnf_gen`, with its call for the right operand. -/
def orCase (fuel : Nat) (gen : LogicExpr → Except Fault LogicExpr) (lhv rhv : LogicExpr) : Except Fault LogicExpr := do
  let (lhv,rhv) ← orLoop fuel lhv rhv
  let rhv ← gen rhv
  return .or (make_and_chain lhv) rhv
def logic_expr_dnf_gen : Nat → LogicExpr → Except Fault LogicExpr
  | 0, _ => .error .fuel
  | fuel+1, expr =>
    match logic_expr_not_prop expr with
    | .and lhv rhv =>
      match andOrReplace (.and lhv rhv) with
      | some (a,b) => orCase fuel (logic_expr_dnf_gen fuel) a b
      | none => .ok (make_and_chain (.and lhv rhv))
    | .or lhv rhv => orCase fuel (logic_expr_dnf_gen fuel) lhv rhv
    | e => .ok e
def logic_expr_dnf (fuel : Nat) (expr : LogicExpr) : Except Fault LogicExpr := do
  let dnf ← logic_expr_dnf_gen fuel expr
  logic_expr_dnf_rem_dups comp_func fuel dnf

end

def relText : Relation → CStr
  | .GT => ['>']
  | .GE => ['>','=']
  | .LT => ['<']
  | .LE => ['<','=']
  | .EQ => ['=']
  | .NEQ => ['!','=']
def isOr : LogicExpr → Bool
  | .or .. => true
  | _ => false
def isAnd : LogicExpr → Bool
  | .and .. => true
  | _ => false
def isNot : LogicExpr → Bool
  | .not _ => true
  | _ => false
def isValue : LogicExpr → Bool
  | .value _ => true
  | _ => false
def parenthesized (text : CStr) : CStr := '(' :: text ++ [')']
/-- `logic_expr_to_str_gen`, where a missing parent is none. -/
def logic_expr_to_str_gen (parent : Option LogicExpr) : LogicExpr → CStr
  | .value value => value
  | .not unary =>
    let text := logic_expr_to_str_gen (some (.not unary)) unary
    '!' :: if isValue unary then text else parenthesized text
  | .or lhv rhv =>
    let text := logic_expr_to_str_gen (some (.or lhv rhv)) lhv ++ '|' :: logic_expr_to_str_gen (some (.or lhv rhv)) rhv
    if parent.all fun p => isOr p || isNot p then text else parenthesized text
  | .and lhv rhv =>
    let text := logic_expr_to_str_gen (some (.and lhv rhv)) lhv ++ '&' :: logic_expr_to_str_gen (some (.and lhv rhv)) rhv
    if parent.all fun p => isAnd p || isNot p then text else parenthesized text
  | .rel type lhv rhv =>
    logic_expr_to_str_gen (some (.rel type lhv rhv)) lhv ++ relText type ++
      logic_expr_to_str_gen (some (.rel type lhv rhv)) rhv
def logic_expr_to_str (expr : LogicExpr) : CStr := logic_expr_to_str_gen none expr
/-- `logic_expr_cmp_simple` over the `strcmp` of the C library, which fixes the sign of the
    result only. -/
def logic_expr_cmp_simple (strcmp : CStr → CStr → Int) (p q : LogicExpr) : Int :=
  strcmp (logic_expr_to_str p) (logic_expr_to_str q)

end TestEnvironment.Tools
