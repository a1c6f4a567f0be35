import TestEnvironment.Lib.Numerals

/-!
Integer expressions of templates (`tad_int_expr_parse` and `tad_int_expr_calculate` of
`tad_utils.c`). A `long` has 64 bits. No pointer is NULL but the one to the arguments, and
memory does not run out.
-/
namespace TestEnvironment.Tad
open Lib

/-- The binary ones of `tad_expr_node_type`. -/
inductive TadExprOp | ADD | SUBSTR | MULT | DIV | MOD
  deriving DecidableEq, Repr
/-- `tad_int_expr_t`: a constant with its `d_len`, and operands by value. -/
inductive TadIntExpr
  | constant (d_len : Nat) (val : Int)
  | arg_link (arg_num : Int)
  | arg_rand
  | u_minus (expr : TadIntExpr)
  | binary (n_type : TadExprOp) (first second : TadIntExpr)
  deriving DecidableEq, Repr

def LLONG_MAX : Int := 2^63-1
def LLONG_MIN : Int := -2^63
/-- Conversions to `int32_t` or `int`, and what is left of a sum in an `int64_t`. -/
def int32 (n : Int) : Int := n.bmod (2^32)
def int64 (n : Int) : Int := n.bmod (2^64)
/-- `strtoll(s, &endptr, base)`, which is `strtol` too: the value and the text at `endptr`. -/
def strtoll (s : CStr) (base : Nat) : Int × CStr :=
  match readNumber base s with
  | none => (0,s)
  | some (n,endptr) => (max LLONG_MIN (min LLONG_MAX n),endptr)

section
def TAD_EXPR_FUNC_RAND : CStr := "rand()".toList
/-- The base of a constant and the text behind its mark. -/
def constantBase : CStr → Nat × CStr
  | '0' :: p => if p.head?.any isdigit then (8,p) else if p.head? = some 'x' then (16,p.drop 1) else (10,p)
  | p => (10,p)
/-- A constant at a digit, and the text behind it. No value is above `LONG_MAX`. -/
def parseConstant (p : CStr) : TadIntExpr × CStr :=
  let based := constantBase p
  let read := if based.2.head?.any (isDigitIn 16) then strtoll based.2 based.1 else (0,based.2)
  (if read.1 > LLONG_MAX ∨ read.1 < LLONG_MIN then .constant 8 read.1 else .constant 4 (int32 read.1),read.2)
def exprOp : Char → Option TadExprOp
  | '+' => some .ADD
  | '-' => some .SUBSTR
  | '*' => some .MULT
  | '/' => some .DIV
  | '%' => some .MOD
  | _ => none
/-- A result with its `*syms`, and `parse_error` with its own: `p - string` both times. -/
def parsed (string p : CStr) (expr : TadIntExpr) : Except Nat (TadIntExpr × Nat) := .ok (expr,string.length-p.length)
def parseError (string p : CStr) : Except Nat (TadIntExpr × Nat) := .error (string.length-p.length)
/-- The bracket at the end. -/
def parseClose (string p : CStr) (expr : TadIntExpr) : Except Nat (TadIntExpr × Nat) :=
  match p.dropWhile isspace with
  | ')' :: p => parsed string p expr
  | p => parseError string p
/-- `tad_int_expr_parse`: the expression and the number of symbols, or `TE_ETADEXPRPARSE` and a position. -/
def parseExpr : Nat → CStr → Except Nat (TadIntExpr × Nat)
  | 0, _ => .error 0
  | fuel+1, string =>
    match string.dropWhile isspace with
    | '(' :: p =>
      match p.dropWhile isspace with
      | '-' :: p =>
        let p := p.dropWhile isspace
        match parseExpr fuel p with
        | .error _ => parseError string p
        | .ok (first,syms) => parseClose string (p.drop syms) (.u_minus first)
      | p =>
        match parseExpr fuel p with
        | .error _ => parseError string p
        | .ok (first,syms) =>
          match (p.drop syms).dropWhile isspace with
          | [] => parseError string []
          | c :: p =>
            match exprOp c with
            | none => parseError string (c :: p)
            | some n_type =>
              let p := p.dropWhile isspace
              match parseExpr fuel p with
              | .error _ => parseError string p
              | .ok (second,syms) => parseClose string (p.drop syms) (.binary n_type first second)
    | p =>
      if p.head?.any isdigit then parsed string (parseConstant p).2 (parseConstant p).1
      else if p.head? = some '$' then
        if (p.drop 1).head?.any isdigit then parsed string (strtoll (p.drop 1) 10).2 (.arg_link (int32 (strtoll (p.drop 1) 10).1))
        else parseError string (p.drop 1)
      else if startsWith TAD_EXPR_FUNC_RAND p then .ok (.arg_rand,TAD_EXPR_FUNC_RAND.length)
      else parseError string p
def tad_int_expr_parse (string : CStr) : Except Nat (TadIntExpr × Nat) := parseExpr (string.length+1) string
end

section
inductive TadTmplArg
  | int (arg_int : BitVec 32)
  | str (arg_str : CStr)
  | oct (arg_oct : List UInt8)
  deriving DecidableEq, Repr
inductive TadCalcError | TE_EWRONGPTR | TE_ETADWRONGNDS
  deriving DecidableEq, Repr
variable (args : Option (List TadTmplArg)) (rand : Nat → Int)

def argument (ar_n : Int) : Except TadCalcError Int :=
  match args with
  | none => .error .TE_EWRONGPTR
  | some args =>
    if ar_n < 0 ∨ ar_n ≥ args.length then .error .TE_ETADWRONGNDS
    else match args[ar_n.toNat]? with
      | some (.int arg_int) => .ok arg_int.toInt
      | _ => .error .TE_ETADWRONGNDS
/-- A division without a result, by zero or of the least number by -1, ends the program. -/
def operate : TadExprOp → Int → Int → Option Int
  | .ADD, r1, r2 => some (int64 (r1+r2))
  | .SUBSTR, r1, r2 => some (int64 (r1-r2))
  | .MULT, r1, r2 => some (int64 (r1*r2))
  | .DIV, r1, r2 => if r2 = 0 ∨ (r1 = LLONG_MIN ∧ r2 = -1) then none else some (r1.tdiv r2)
  | .MOD, r1, r2 => if r2 = 0 ∨ (r1 = LLONG_MIN ∧ r2 = -1) then none else some (r1.tmod r2)
/-- The status and the result, with the number of calls of `rand` so far. -/
def tad_int_expr_calculate : TadIntExpr → Nat → Option (Except TadCalcError Int × Nat)
  | .constant _ val, calls => some (.ok val,calls)
  | .arg_link arg_num, calls => some (argument args arg_num,calls)
  | .arg_rand, calls => some (.ok (rand calls),calls+1)
  | .u_minus expr, calls => (tad_int_expr_calculate expr calls).map fun first => (first.1.map fun r1 => int64 (-r1),first.2)
  | .binary n_type first second, calls => (tad_int_expr_calculate first calls).bind fun left =>
    match left.1 with
    | .error rc => some (.error rc,left.2)
    | .ok r1 => (tad_int_expr_calculate second left.2).bind fun right =>
      match right.1 with
      | .error rc => some (.error rc,right.2)
      | .ok r2 => (operate n_type r1 r2).map fun result => (.ok result,right.2)
end
end TestEnvironment.Tad
