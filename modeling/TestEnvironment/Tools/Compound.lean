import TestEnvironment.Tools.Substring

/-!
Compound strings (`te_compound.c`): items in the order of their keys, with a separator behind
each item and one between a key and its value. A plain string is a single item without
separator. Every loop moves a cursor over the string; it does not end where the cursor stays
at an embedded zero, and then there is no result.
-/
namespace TestEnvironment.Tools
open Lib

def TE_COMPOUND_ITEM_SEP : Char := '\x1e'
def TE_COMPOUND_KEY_SEP : Char := '\x1f'

inductive TeCompoundModOp | APPEND | PREPEND | REPLACE
  deriving DecidableEq, Repr

section
variable (comp : CStr)

/-- An item that `parse_next_item` has found. -/
structure ParsedItem where
  iter : TeSubstring
  field : Option TeSubstring
  value : TeSubstring

/-- `strcspn` stops at one of the separators or at a zero, so there is no other case. -/
def parse_next_item (iter : TeSubstring) : Option ParsedItem :=
  if te_substring_past_end comp iter then none
  else
    let spanned := te_substring_span comp iter [TE_COMPOUND_ITEM_SEP,TE_COMPOUND_KEY_SEP]
    let (field,next) :=
      if spanned.1 = TE_COMPOUND_KEY_SEP then
        let next := te_substring_skip comp TE_COMPOUND_KEY_SEP 1 (te_substring_advance comp spanned.2)
        (some spanned.2,(te_substring_span comp next [TE_COMPOUND_ITEM_SEP]).2)
      else (none,spanned.2)
    let limit := te_substring_skip comp TE_COMPOUND_ITEM_SEP 1 (te_substring_advance comp next)
    some ⟨te_substring_limit comp iter limit,field,next⟩

/-- The loop of `te_compound_validate`: the number of items, or nothing for an error. -/
def validateLoop : Nat → TeSubstring → Option TeSubstring → Nat → Option (Option Nat)
  | 0, _, _, _ => none
  | fuel+1, iter, prev_field, count =>
    match parse_next_item comp iter with
    | none => some (some count)
    | some item =>
      if 0 < te_substring_compare comp prev_field comp item.field then some none
      else if TE_COMPOUND_KEY_SEP ∈ subText comp item.value then some none
      else validateLoop fuel (te_substring_advance comp item.iter) item.field (count+1)
def te_compound_validate : Option Bool :=
  (validateLoop comp (comp.length+1) ⟨0,0⟩ none 0).map fun
    | none => false
    | some count => ¬ (1 < count ∧ charAt comp (comp.length-1) ≠ TE_COMPOUND_ITEM_SEP)

def extractLoop (key : Option CStr) : Nat → TeSubstring → Nat → Option (Option CStr)
  | 0, _, _ => none
  | fuel+1, iter, idx =>
    match parse_next_item comp iter with
    | none => some none
    | some item =>
      let cmp := te_substring_compare_str comp item.field key
      if 0 < cmp then some none
      else if cmp = 0 ∧ idx = 0 then some (some (subText comp item.value))
      else extractLoop key fuel (te_substring_advance comp item.iter) (if cmp = 0 then idx-1 else idx)
/-- The value that `te_compound_extract` appends to `dst`, if any. -/
def te_compound_extract (key : Option CStr) (idx : Nat) : Option (Option CStr) := extractLoop comp key (comp.length+1) ⟨0,0⟩ idx

def countLoop (key : Option CStr) : Nat → TeSubstring → Nat → Option Nat
  | 0, _, _ => none
  | fuel+1, iter, count =>
    match parse_next_item comp iter with
    | none => some count
    | some item =>
      let cmp := te_substring_compare_str comp item.field key
      if 0 < cmp then some count
      else countLoop key fuel (te_substring_advance comp item.iter) (if cmp = 0 then count+1 else count)
def te_compound_count (key : Option CStr) : Option Nat := countLoop comp key (comp.length+1) ⟨0,0⟩ 0

def coverLoop (field : Option TeSubstring) : Nat → TeSubstring → Option TeSubstring
  | 0, _ => none
  | fuel+1, iter =>
    match parse_next_item comp iter with
    | none => some iter
    | some item =>
      if te_substring_compare comp item.field comp field ≠ 0 then some item.iter
      else coverLoop field fuel (te_substring_advance comp item.iter)
def cover_equal_fields (start : TeSubstring) (field : Option TeSubstring) : Option TeSubstring :=
  (coverLoop comp field (comp.length+1) (te_substring_advance comp start)).map (te_substring_limit comp start ·)

/-- The loop of `te_compound_set_va`: the item to start from, its field, and the mode. -/
def findLoop (key : Option CStr) : Nat → TeSubstring → Option TeSubstring → TeCompoundModOp → Option (TeSubstring × Option TeSubstring × TeCompoundModOp)
  | 0, _, _, _ => none
  | fuel+1, iter, field, mod_op =>
    match parse_next_item comp iter with
    | none => some (iter,field,mod_op)
    | some item =>
      let cmp := te_substring_compare_str comp item.field key
      if 0 ≤ cmp then some (item.iter,item.field,if 0 < cmp then .PREPEND else mod_op)
      else findLoop key fuel (te_substring_advance comp item.iter) item.field mod_op
/-- The place for the new item in the string, with the old values gone if they are replaced. -/
def placeItem (iter : TeSubstring) (field : Option TeSubstring) : TeCompoundModOp → Option (CStr × TeSubstring)
  | .PREPEND => some (comp,{iter with len := 0})
  | .REPLACE => (cover_equal_fields comp iter field).map fun iter => te_substring_modify comp iter .REPLACE []
  | .APPEND => (cover_equal_fields comp iter field).map fun iter => (comp,te_substring_advance comp iter)
/-- The new item is stored. -/
def storeItem (comp : CStr) (iter : TeSubstring) (key : Option CStr) (value : CStr) : CStr :=
  let (comp,iter) := te_substring_insert_sep comp iter TE_COMPOUND_ITEM_SEP false
  let (comp,iter) := match key with
    | some key => te_substring_modify comp iter .APPEND (key ++ [TE_COMPOUND_KEY_SEP])
    | none => (comp,iter)
  let (comp,iter) := te_substring_modify comp iter .APPEND value
  (te_substring_modify comp iter .APPEND [TE_COMPOUND_ITEM_SEP]).1
/-- `te_compound_set_va` with the formatted value, or nothing for no format. -/
def te_compound_set (key : Option CStr) (mod_op : TeCompoundModOp) (value : Option CStr) : Option CStr := do
  let mod_op := if value = none then .REPLACE else mod_op
  let (iter,field,mod_op) ← findLoop comp key (comp.length+1) ⟨0,0⟩ (some ⟨0,0⟩) mod_op
  let (comp,iter) ← placeItem comp iter field mod_op
  match value with
  | some value => some (storeItem comp iter key value)
  | none => some comp

/-- The state of `te_compound_merge`. -/
structure MergeState where
  dst : CStr
  left : TeSubstring
  left_field : Option TeSubstring
  right : TeSubstring
  right_field : Option TeSubstring
  advance_left : Bool
  advance_right : Bool

def compound2substring_op : TeCompoundModOp → TeSubstringModOp
  | .APPEND => .APPEND
  | .PREPEND => .PREPEND
  | .REPLACE => .REPLACE
/-- The fields of both sides are compared, and an item or the items with one key are copied. -/
def mergeItems (src : CStr) (mod_op : TeCompoundModOp) (s : MergeState) : Option MergeState :=
  let cmp := te_substring_compare s.dst s.left_field src s.right_field
  if cmp < 0 then some {s with advance_left := true,advance_right := false}
  else if 0 < cmp then
    let (dst,left) := te_substring_copy s.dst s.left src s.right .PREPEND
    some {s with
      dst := dst,left := ⟨left.start+s.right.len,left.len-s.right.len⟩,
      left_field := s.left_field.map fun field => {field with start := field.start+s.right.len},
      advance_left := false,advance_right := true}
  else do
    let left ← cover_equal_fields s.dst s.left s.left_field
    let right ← cover_equal_fields src s.right s.right_field
    let (dst,left) := te_substring_copy s.dst left src right (compound2substring_op mod_op)
    some {s with dst := dst,left := left,right := right,advance_left := true,advance_right := true}
/-- One side or both move on to the next item; nothing once a side has ended. -/
def parseSides (src : CStr) (s : MergeState) : MergeState × Bool :=
  let s := {s with
    left := if s.advance_left then te_substring_advance s.dst s.left else s.left,
    right := if s.advance_right then te_substring_advance src s.right else s.right}
  match if s.advance_left then (parse_next_item s.dst s.left).map fun item => {s with left := item.iter,left_field := item.field} else some s with
  | none => (s,false)
  | some s =>
    match if s.advance_right then (parse_next_item src s.right).map fun item => {s with right := item.iter,right_field := item.field} else some s with
    | none => (s,false)
    | some s => (s,true)
def mergeLoop (src : CStr) (mod_op : TeCompoundModOp) : Nat → MergeState → Option MergeState
  | 0, _ => none
  | fuel+1, s =>
    match parseSides src s with
    | (s,false) => some s
    | (s,true) => (mergeItems src mod_op s).bind (mergeLoop src mod_op fuel)
def te_compound_merge (dst src : CStr) (mod_op : TeCompoundModOp) : Option CStr :=
  (mergeLoop src mod_op (dst.length+src.length+1) ⟨dst,⟨0,0⟩,some ⟨0,0⟩,⟨0,0⟩,some ⟨0,0⟩,true,true⟩).map fun s =>
    (te_substring_copy s.dst s.left src (te_substring_till_end src s.right) .APPEND).1

example : te_compound_set ['a','b','c'] (some ['k']) .APPEND (some ['v']) = some ['a','b','c','\x1e','k','\x1f','v','\x1e'] := by decide
end

end TestEnvironment.Tools
