import TestEnvironment.Lib.Decimal

/-!
The serializer of JSON (`te_json.c`, `te_json.h`): a stack of levels with their item counters and
the text written so far. An assertion that fails and a fatal error end the program.
-/
namespace TestEnvironment.Tools
open Lib

inductive TeJsonCompound
  | TOPLEVEL | ARRAY | OBJECT | OBJECT_VALUE | STRING | RAW
  deriving DecidableEq
structure TeJsonLevel where
  kind : TeJsonCompound
  n_items : Nat
  deriving DecidableEq
def TE_JSON_MAX_NEST : Nat := 32
/-- `level` is `nesting[current_level]`, `outer` the levels below it, the innermost first. -/
structure TeJsonCtx where
  level : TeJsonLevel
  outer : List TeJsonLevel
  out : CStr
  deriving DecidableEq
/-- `TE_JSON_INIT_STR` of an empty string. -/
def TE_JSON_INIT : TeJsonCtx := { level := ⟨.TOPLEVEL,0⟩, outer := [], out := [] }

namespace TeJsonCtx
variable (ctx : TeJsonCtx)

def append_to_json (text : CStr) : TeJsonCtx := { ctx with out := ctx.out ++ text }
def maybe_add_separator : TeJsonCtx :=
  if ctx.level.kind = .OBJECT_VALUE then { ctx with level := { ctx.level with kind := .OBJECT } }
  else
    let ctx' := if 0 < ctx.level.n_items then ctx.append_to_json [','] else ctx
    { ctx' with level := { ctx.level with n_items := ctx.level.n_items+1 } }
def te_json_add_simple (text : CStr) : TeJsonCtx := ctx.maybe_add_separator.append_to_json text
def te_json_add_null : TeJsonCtx := ctx.te_json_add_simple "null".toList
def te_json_add_bool (val : Bool) : TeJsonCtx := ctx.te_json_add_simple (if val then "true".toList else "false".toList)
def te_json_add_integer (val : Int) : TeJsonCtx := ctx.te_json_add_simple (intText val)
/-- `isfinite` and `printf("%.*g")` of the values of a floating-point type. -/
structure Floats (F : Type) where
  isfinite : F → Bool
  printg : Int → F → CStr
def te_json_add_float {F : Type} (floats : Floats F) (val : F) (precision : Int) : TeJsonCtx :=
  if floats.isfinite val then ctx.te_json_add_simple (floats.printg precision val) else ctx.te_json_add_null

def json_esc (c : Char) : Option CStr :=
  if c = '\\' then some ['\\','\\']
  else if c = '"' then some ['\\','"']
  else if c = '/' then some ['\\','/']
  else if c = '\x08' then some ['\\','b']
  else if c = '\x0c' then some ['\\','f']
  else if c = '\n' then some ['\\','n']
  else if c = '\r' then some ['\\','r']
  else if c = '\t' then some ['\\','t']
  else none
def iscntrl (c : Char) : Bool := c.toNat < 0x20 || c.toNat = 0x7f
/-- `"\\u%4.4x"` of a byte. -/
def json_ctrl_char_escape (c : Char) : CStr := ['\\','u','0','0',(c.toNat/16%16).digitChar,(c.toNat%16).digitChar]
/-- `te_string_generic_escape` without an escape for other bytes than those of ASCII. -/
def te_string_generic_escape (esctable : Char → Option CStr) (ctrl_esc : Char → CStr) : CStr → CStr
  | [] => []
  | c :: input => (match esctable c with
      | some escaped => escaped
      | none => if iscntrl c then ctrl_esc c else [c]) ++ te_string_generic_escape esctable ctrl_esc input
def te_json_append_string (s : CStr) : Option TeJsonCtx :=
  if ctx.level.kind = .STRING then some (ctx.append_to_json (te_string_generic_escape json_esc json_ctrl_char_escape s)) else none
/-- `%.*s` with a precision of type `int`: a negative one counts as absent. -/
def printPrefix (len : Nat) (value : CStr) : CStr := if len%2^32 < 2^31 then value.take (len%2^32) else value
def te_json_append_raw (value : CStr) (len : Nat) : Option TeJsonCtx :=
  if ctx.level.kind = .RAW then some (ctx.append_to_json (if len = 0 then value else printPrefix len value)) else none
def push_json_level (new_kind : TeJsonCompound) : Option TeJsonCtx :=
  if ctx.outer.length+1 < TE_JSON_MAX_NEST then some { ctx with level := ⟨new_kind,0⟩, outer := ctx.level :: ctx.outer } else none
def te_json_start_array : Option TeJsonCtx := do
  let ctx ← ctx.maybe_add_separator.push_json_level .ARRAY
  return ctx.append_to_json ['[']
def te_json_start_object : Option TeJsonCtx := do
  let ctx ← ctx.maybe_add_separator.push_json_level .OBJECT
  return ctx.append_to_json ['\x7b']
def te_json_start_string : Option TeJsonCtx := do
  let ctx ← ctx.maybe_add_separator.push_json_level .STRING
  return ctx.append_to_json ['"']
def te_json_start_raw : Option TeJsonCtx := ctx.maybe_add_separator.push_json_level .RAW
/-- What `te_json_end` writes; an object may not end after a key. -/
def closing : TeJsonCompound → Option CStr
  | .TOPLEVEL => some []
  | .ARRAY => some [']']
  | .OBJECT => some ['\x7d']
  | .OBJECT_VALUE => none
  | .STRING => some ['"']
  | .RAW => some []
def te_json_end : Option TeJsonCtx := do
  let text ← closing ctx.level.kind
  match ctx.outer with
  | [] => return ctx.append_to_json text
  | level :: outer => return { ctx.append_to_json text with level, outer }
def te_json_add_string (s : CStr) : Option TeJsonCtx := do
  let ctx ← ctx.te_json_start_string
  let ctx ← ctx.te_json_append_string s
  ctx.te_json_end
def te_str_empty_if_null (s : Option CStr) : CStr := s.getD []
def te_json_add_key (key : Option CStr) : Option TeJsonCtx :=
  if ctx.level.kind = .OBJECT then
    let ctx := ctx.maybe_add_separator.append_to_json ('"' :: te_str_empty_if_null key ++ ['"',':'])
    some { ctx with level := { ctx.level with kind := .OBJECT_VALUE } }
  else none
def te_json_add_key_str (key val : Option CStr) : Option TeJsonCtx :=
  match val with
  | some s => do
    let ctx ← ctx.te_json_add_key key
    ctx.te_json_add_string s
  | none => some ctx
/-- The name of a value; `map` ends before its entry without a name. -/
def te_enum_map_from_any_value (map : List (CStr × Int)) (value : Int) (unknown : Option CStr) : Option CStr :=
  match map with
  | [] => unknown
  | (name,v) :: map => if v = value then some name else te_enum_map_from_any_value map value unknown
def te_json_add_key_enum (map : List (CStr × Int)) (key : Option CStr) (val : Int) : Option TeJsonCtx :=
  ctx.te_json_add_key_str key (te_enum_map_from_any_value map val none)
/-- One turn of the loop over the strings of an array. -/
def addStr (skip_null : Bool) (ctx : TeJsonCtx) (str : Option CStr) : Option TeJsonCtx :=
  match str with
  | some s => ctx.te_json_add_string s
  | none => some (if skip_null then ctx else ctx.te_json_add_null)
def te_json_add_array_str (skip_null : Bool) (strs : List (Option CStr)) : Option TeJsonCtx := do
  let ctx ← ctx.te_json_start_array
  let ctx ← strs.foldlM (addStr skip_null) ctx
  ctx.te_json_end
def te_json_add_array_float {F : Type} (floats : Floats F) (vals : List F) (precision : Int) : Option TeJsonCtx := do
  let ctx ← ctx.te_json_start_array
  (vals.foldl (fun ctx val => ctx.te_json_add_float floats val precision) ctx).te_json_end
/-- One turn of the loop over the pairs. -/
def addPair (ctx : TeJsonCtx) (p : CStr × CStr) : Option TeJsonCtx := do
  let ctx ← ctx.te_json_add_key (some p.1)
  ctx.te_json_add_string p.2
/-- The list is walked from its last pair on. -/
def te_json_add_kvpair (pairs : List (CStr × CStr)) : Option TeJsonCtx := do
  let ctx ← ctx.te_json_start_object
  let ctx ← pairs.reverse.foldlM addPair ctx
  ctx.te_json_end
end TeJsonCtx

/-- A call of the interface with its arguments; formatted texts are already printed. -/
inductive TeJsonCall (F : Type)
  | add_simple (text : CStr)
  | add_null
  | add_bool (val : Bool)
  | add_integer (val : Int)
  | add_float (val : F) (precision : Int)
  | add_string (s : CStr)
  | start_string
  | append_string (s : CStr)
  | start_raw
  | append_raw (value : CStr) (len : Nat)
  | start_array
  | start_object
  | finish
  | add_key (key : Option CStr)
  | add_key_str (key val : Option CStr)
  | add_key_enum (map : List (CStr × Int)) (key : Option CStr) (val : Int)
  | add_array_str (skip_null : Bool) (strs : List (Option CStr))
  | add_array_float (vals : List F) (precision : Int)
  | add_kvpair (pairs : List (CStr × CStr))

namespace TeJsonCtx
variable {F : Type} (floats : Floats F)

def perform (ctx : TeJsonCtx) : TeJsonCall F → Option TeJsonCtx
  | .add_simple text => some (ctx.te_json_add_simple text)
  | .add_null => some ctx.te_json_add_null
  | .add_bool val => some (ctx.te_json_add_bool val)
  | .add_integer val => some (ctx.te_json_add_integer val)
  | .add_float val precision => some (ctx.te_json_add_float floats val precision)
  | .add_string s => ctx.te_json_add_string s
  | .start_string => ctx.te_json_start_string
  | .append_string s => ctx.te_json_append_string s
  | .start_raw => ctx.te_json_start_raw
  | .append_raw value len => ctx.te_json_append_raw value len
  | .start_array => ctx.te_json_start_array
  | .start_object => ctx.te_json_start_object
  | .finish => ctx.te_json_end
  | .add_key key => ctx.te_json_add_key key
  | .add_key_str key val => ctx.te_json_add_key_str key val
  | .add_key_enum map key val => ctx.te_json_add_key_enum map key val
  | .add_array_str skip_null strs => ctx.te_json_add_array_str skip_null strs
  | .add_array_float vals precision => ctx.te_json_add_array_float floats vals precision
  | .add_kvpair pairs => ctx.te_json_add_kvpair pairs
def performAll (ctx : TeJsonCtx) (calls : List (TeJsonCall F)) : Option TeJsonCtx := calls.foldlM (perform floats) ctx
end TeJsonCtx
end TestEnvironment.Tools
