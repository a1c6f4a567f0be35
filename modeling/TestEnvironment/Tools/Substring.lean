import TestEnvironment.Tools.TeStringOps

/-!
Substrings of dynamic strings (`te_substring_*` in `te_string.h` and `te_string.c`), by the
text of their base string. A substring that was invalidated, with `SIZE_MAX` for its start,
is nothing.
-/
namespace TestEnvironment.Tools
open Lib

/-- `te_substring_t`, without the base string. -/
structure TeSubstring where
  start : Nat
  len : Nat
  deriving DecidableEq, Repr
inductive TeSubstringModOp | PREPEND | APPEND | REPLACE
  deriving DecidableEq, Repr

section
variable (base : CStr) (substr : TeSubstring)

def te_substring_is_valid : Bool := substr.start ≤ base.length ∧ substr.start+substr.len ≤ base.length
def te_substring_past_end : Bool := te_substring_is_valid base substr ∧ substr.start = base.length
def te_substring_till_end : TeSubstring :=
  if te_substring_is_valid base substr then {substr with len := base.length-substr.start} else substr
/-- The character of the C string, or its terminating zero. -/
def charAt (pos : Nat) : Char := (base[pos]?).getD '\x00'
/-- The text that the substring covers. -/
def subText : CStr := (base.drop substr.start).take substr.len
/-- `te_substring_span` with an inverted set. -/
def te_substring_span (cset : CStr) : Char × TeSubstring :=
  if te_substring_is_valid base substr then
    let len := substr.len+((base.drop (substr.start+substr.len)).takeWhile fun c => c ≠ '\x00' ∧ c ∉ cset).length
    (charAt base (substr.start+len),{substr with len := len})
  else ('\x00',substr)
def te_substring_skip (skip : Char) : Nat → TeSubstring → TeSubstring
  | 0, substr => substr
  | at_most+1, substr =>
    if te_substring_is_valid base substr then
      if substr.start+substr.len ≤ base.length ∧ charAt base substr.start = skip then
        te_substring_skip skip at_most ⟨substr.start+1,substr.len-1⟩
      else substr
    else substr
def te_substring_advance : TeSubstring :=
  if te_substring_is_valid base substr then ⟨substr.start+substr.len,0⟩ else substr
def te_substring_limit (limit : TeSubstring) : TeSubstring :=
  if ¬ te_substring_is_valid base substr ∨ ¬ te_substring_is_valid base limit ∨ limit.start < substr.start then substr
  else {substr with len := limit.start-substr.start}
end

section
/-- `memcmp` of as many characters as both have. -/
def memcmp : CStr → CStr → Int
  | x :: a, y :: b => if x = y then memcmp a b else if x < y then -1 else 1
  | _, _ => 0
/-- `strncmp` of as many characters as the first one has; the second one ends in a zero. -/
def strncmp : CStr → CStr → Int
  | [], _ => 0
  | x :: _, [] => if x = '\x00' then 0 else 1
  | x :: a, y :: b => if x = y then strncmp a b else if x < y then -1 else 1
def validOrNull (base : CStr) : Option TeSubstring → Bool
  | none => false
  | some substr => te_substring_is_valid base substr

def te_substring_compare (base1 : CStr) (substr1 : Option TeSubstring) (base2 : CStr) (substr2 : Option TeSubstring) : Int :=
  match substr1,substr2 with
  | some sub1,some sub2 =>
    if ¬ te_substring_is_valid base1 sub1 then if te_substring_is_valid base2 sub2 then -1 else 0
    else if ¬ te_substring_is_valid base2 sub2 then 1
    else
      let res := memcmp (subText base1 sub1) (subText base2 sub2)
      if res ≠ 0 then res else if sub2.len < sub1.len then 1 else if sub1.len < sub2.len then -1 else 0
  | none,sub2 => if validOrNull base2 sub2 then -1 else 0
  | some sub1,none => if te_substring_is_valid base1 sub1 then 1 else 0
def te_substring_compare_str (base : CStr) (substr : Option TeSubstring) (str : Option CStr) : Int :=
  match substr,str with
  | none,str => if str = none then 0 else -1
  | some sub,none => if te_substring_is_valid base sub then 1 else 0
  | some sub,some str =>
    if ¬ te_substring_is_valid base sub then -1
    else
      let res := strncmp (subText base sub) str
      if res ≠ 0 then res else if str.length = sub.len then 0 else -1
end

section
variable (base : CStr) (substr : TeSubstring)

/-- The segment that the operation replaces. -/
def modSegment (substr : TeSubstring) : TeSubstringModOp → Nat × Nat
  | .PREPEND => (substr.start,0)
  | .APPEND => (substr.start+substr.len,0)
  | .REPLACE => (substr.start,substr.len)
/-- `te_substring_modify_va` with the formatted text, empty for no format. -/
def te_substring_modify (op : TeSubstringModOp) (text : CStr) : CStr × TeSubstring :=
  if te_substring_is_valid base substr then
    let (start,len) := modSegment substr op
    (replaceText base start len text,{substr with len := if op = .REPLACE then text.length else substr.len+text.length})
  else (base,substr)
def te_substring_insert_sep (sep : Char) (at_bol : Bool) : CStr × TeSubstring :=
  if te_substring_is_valid base substr then
    if 0 < substr.start ∧ charAt base (substr.start-1) ≠ sep ∨ substr.start = 0 ∧ at_bol then te_substring_modify base substr .PREPEND [sep]
    else (base,substr)
  else (base,substr)
/-- `te_substring_copy` from a substring of another string. -/
def te_substring_copy (src_base : CStr) (src : TeSubstring) (op : TeSubstringModOp) : CStr × TeSubstring :=
  if te_substring_is_valid base substr then
    if te_substring_is_valid src_base src then
      let (start,len) := modSegment substr op
      (replaceText base start len (subText src_base src),{substr with len := if op = .REPLACE then src.len else substr.len+src.len})
    else if op = .REPLACE then (replaceText base substr.start substr.len [],{substr with len := 0})
    else (base,substr)
  else (base,substr)
end

end TestEnvironment.Tools
