import TestEnvironment.Tools.TeString

/-!
Expansion of parameters in a string (`te_expand.c`, with the searches of `te_str.c`). The
functions give the text that is appended to the destination. The function that expands names
and the table of filters are parameters: the results hold for all of them.
-/
namespace TestEnvironment.Tools
open Lib

section
/-- A search that succeeds gives the text before the character and the text from it on. -/
inductive Search
  | found (before from' : CStr)
  | TE_ENOENT
  | TE_EILSEQ
  deriving DecidableEq, Repr

/-- The loop of both searches: `up` raises the level, an `unsigned int`, and `down` lowers it, also
below zero. Without separators any character outside all brackets is found, and the end. -/
def balancedLoop (up down : Char) (seps : Option CStr) : Nat → CStr → CStr → Search
  | level, passed, [] =>
    if level ≠ 0 then .TE_EILSEQ
    else if seps = none then .found passed []
    else .TE_ENOENT
  | level, passed, c :: str =>
    if c = up then balancedLoop up down seps ((level+1)%UINT32_MOD) (passed ++ [c]) str
    else if c = down then balancedLoop up down seps ((level+(UINT32_MOD-1))%UINT32_MOD) (passed ++ [c]) str
    else if level = 0 ∧ ∀ set ∈ seps, c ∈ set then .found passed (c :: str)
    else balancedLoop up down seps level (passed ++ [c]) str
/-- `te_strpbrk_balanced` without an escape character. -/
def te_strpbrk_balanced (str : CStr) (opening closing : Char) (seps : Option CStr) : Search :=
  balancedLoop opening closing seps 0 [] str
/-- `te_strpbrk_rev_balanced` without an escape character: the same from the end of the string. -/
def te_strpbrk_rev_balanced (str : CStr) (opening closing : Char) (seps : CStr) : Search :=
  match balancedLoop closing opening (some seps) 0 [] str.reverse with
  | .found behind (sep :: before) => .found before.reverse (sep :: behind.reverse)
  | .found _ [] => .TE_ENOENT
  | other => other
end

def OPENING : Char := '\x7b'
def CLOSING : Char := '\x7d'
def VARREF : Char := '$'
def MODIFIER_INTRO : Char := ':'
def DEFAULT_VALUE : Char := '-'
def ALTERNATE_VALUE : Char := '+'
def FILTER : Char := '|'

/-- Why no text is appended. Printing that fails ends the program, and `unfinished` is an
expansion that was not given enough steps. -/
inductive ExpandError | TE_ENODATA | TE_EINVAL | TE_EILSEQ | errno (code : Nat) | fatal | unfinished
  deriving DecidableEq, Repr

section
variable (expand_param : CStr → Option CStr) (lookup_filter : CStr → Option (CStr → Except ExpandError CStr))

/-- The name with its filters; the last one is applied to the result of the others. -/
def expand_with_filter : Nat → CStr → Except ExpandError CStr
  | 0, _ => .error .unfinished
  | fuel+1, ref =>
    match te_strpbrk_rev_balanced ref OPENING CLOSING [FILTER] with
    | .TE_EILSEQ => .error .TE_EILSEQ
    | .TE_ENOENT => match expand_param ref with
      | some text => .ok text
      | none => .error .TE_ENODATA
    | .found before filter => match lookup_filter (filter.drop 1) with
      | none => .error .TE_EINVAL
      | some fn => (expand_with_filter fuel before).bind fn
/-- The text for a reference by the result for its name and by its modifier. An alternate value
takes the place of the text that was appended. -/
def modifiedText (expand : CStr → Except ExpandError CStr) (default_value : Option CStr) (expanded : Except ExpandError CStr) : Except ExpandError CStr :=
  match expanded,default_value with
  | .ok text,some (mode :: value) => if mode = ALTERNATE_VALUE then expand value else .ok text
  | .ok text,_ => .ok text
  | .error .TE_ENODATA,some (mode :: value) => if mode = DEFAULT_VALUE then expand value else .ok []
  | .error .TE_ENODATA,_ => .ok []
  | .error e,_ => .error e
/-- The name and the modifier of a reference, with its mode. -/
def splitReference (ref : CStr) : Except ExpandError (CStr × Option CStr) :=
  match te_strpbrk_balanced ref OPENING CLOSING (some [ MODIFIER_INTRO]) with
  | .TE_EILSEQ => .error .TE_EINVAL
  | .TE_ENOENT => .ok (ref,none)
  | .found name default_value =>
    let mode := (default_value.drop 1).head?
    if mode ≠ some DEFAULT_VALUE ∧ mode ≠ some ALTERNATE_VALUE then .error .TE_EINVAL
    else .ok (name,some (default_value.drop 1))
/-- The text for the reference at the start, and the string behind it. Nested values are expanded by `expand`. -/
def process_reference (expand : CStr → Except ExpandError CStr) (start : CStr) : Except ExpandError (CStr × CStr) :=
  match te_strpbrk_balanced start OPENING CLOSING none with
  | .found reference tail' => do
    let (name,default_value) ← splitReference ((reference.drop 1).take (reference.length-2))
    let text ← modifiedText expand default_value (expand_with_filter expand_param lookup_filter (name.length+1) name)
    .ok (text,tail')
  | _ => .error .TE_EINVAL
/-- `te_string_append` of a whole string. -/
def appendText (text : CStr) : Except ExpandError CStr := if INT_MAX < text.length then .error .fatal else .ok text
/-- `te_string_append` with `"%.*s"`: the precision is an `int`, and none if it is negative. -/
def appendPrec (prec : Nat) (text : CStr) : Except ExpandError CStr :=
  let prec := (prec : Int).bmod (2^32)
  appendText (if prec < 0 then text else text.take prec.toNat)
/-- The errors of a reference all become the same one. -/
def referenceError : ExpandError → ExpandError
  | .fatal => .fatal
  | .unfinished => .unfinished
  | _ => .TE_EINVAL
def te_string_expand_parameters : Nat → CStr → Except ExpandError CStr
  | 0, _ => .error .unfinished
  | fuel+1, src =>
    match strstr [VARREF,OPENING] src with
    | none => appendText src
    | some (before,behind) => do
      let literal ← appendPrec before.length src
      let (value,src) ← (process_reference expand_param lookup_filter (te_string_expand_parameters fuel) (OPENING :: behind)).mapError referenceError
      let rest ← te_string_expand_parameters fuel src
      .ok (literal ++ value ++ rest)
end

end TestEnvironment.Tools
