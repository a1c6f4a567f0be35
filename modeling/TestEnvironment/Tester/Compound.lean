import TestEnvironment.Lib.Strings

/-!
Compound values (`te_compound.c`, `te_string.c`): items between separators, each
with an optional field name, and the names under which an argument with compound
values answers.
-/
namespace TestEnvironment.Tester
open Lib

def TE_COMPOUND_ITEM_SEP : Char := Char.ofNat 0x1E
def TE_COMPOUND_KEY_SEP : Char := Char.ofNat 0x1F
def UINTMAX_MAX : Nat := 2^64-1

/-- `parse_next_item`: the field and the value of the first item, and what follows it. -/
def parse_next_item (iter : CStr) : Option (Option CStr × CStr × CStr) :=
  if iter = [] then none
  else
    let next := iter.takeWhile fun c => c ≠ TE_COMPOUND_ITEM_SEP ∧ c ≠ TE_COMPOUND_KEY_SEP
    match iter.drop next.length with
    | [] => some (none,next,[])
    | sep :: rest =>
      if sep = TE_COMPOUND_KEY_SEP then
        let value := rest.takeWhile fun c => c ≠ TE_COMPOUND_ITEM_SEP
        some (some next,value,(rest.drop value.length).drop 1)
      else some (none,next,rest)
/-- `te_substring_compare` for fields, where none is an invalid substring. -/
def fieldCompare : Option CStr → Option CStr → Ordering
  | none, none => .eq
  | none, some _ => .lt
  | some _, none => .gt
  | some a, some b => if a = b then .eq else if strLess a b then .lt else .gt

section
variable (callback : CStr → Bool)

/-- The loop of `compound_dereference_int`, which passes the value of the item with the
    index among those of the field to the callback; false stands for `TE_ENODATA`. Every
    item is longer than 0, so the length of the value bounds the items. -/
def derefLoop (need_field : Option CStr) : Nat → CStr → Nat → Bool
  | 0, _, _ => false
  | fuel+1, iter, left =>
    match parse_next_item iter with
    | none => false
    | some (field,value,rest) =>
      match fieldCompare field need_field with
      | .gt => false
      | .lt => derefLoop need_field fuel rest left
      | .eq => if left = 0 then callback value else derefLoop need_field fuel rest (left-1)
def compound_dereference_int (compound : CStr) (need_field : Option CStr) (idx : Nat) : Bool :=
  derefLoop callback need_field (compound.length+1) compound idx

/-- `te_substring_strip_prefix`. -/
def strip_prefix (pre key : CStr) : Option CStr := if pre.isPrefixOf key then some (key.drop pre.length) else none
/-- `te_substring_strip_suffix`. -/
def strip_suffix (suf key : CStr) : CStr := if suf.isSuffixOf key then key.take (key.length-suf.length) else key
/-- `te_substring_strip_uint_suffix`: the key without its decimal suffix, and its value. -/
def strip_uint_suffix (key : CStr) : Option (CStr × Nat) :=
  let digits := (key.reverse.takeWhile Char.isDigit).reverse
  if digits = [] then none
  else
    let value := digits.foldl (fun value c => value*10+(c.toNat - '0'.toNat)) 0
    if value > UINTMAX_MAX then none else some (key.take (key.length-digits.length),value)

/-- `te_compound_dereference`. -/
def te_compound_dereference (compound stem key : CStr) : Bool :=
  match strip_prefix stem key with
  | none => false
  | some key_sub =>
    let suffix := strip_uint_suffix key_sub
    let idx := (suffix.map Prod.snd).getD 0
    let key' := match suffix with
      | some (key',_) => strip_suffix ['_'] key'
      | none => key_sub
    if key' = [] then compound_dereference_int callback compound none idx
    else
      match strip_prefix ['_'] key' with
      | none => false
      | some field =>
        compound_dereference_int callback compound (some field) idx ||
          (suffix.isSome && compound_dereference_int callback compound (some (key_sub.drop 1)) 0)
end

section
variable {callback : CStr → Bool} {value stem key : CStr}

/-- A value that is not empty and has no separators. -/
def PlainText (value : CStr) : Prop := value ≠ [] ∧ TE_COMPOUND_ITEM_SEP ∉ value ∧ TE_COMPOUND_KEY_SEP ∉ value
/-- The names under which an argument with plain values answers: its name, followed by an
    underscore or nothing and then zeros. -/
def answers (stem key : CStr) : Bool :=
  match strip_prefix stem key with
  | none => false
  | some key_sub =>
    match strip_uint_suffix key_sub with
    | some (key',idx) => strip_suffix ['_'] key' = [] && idx = 0
    | none => key_sub = []

theorem parse_plain (plain : PlainText value) : parse_next_item value = some (none,value,[]) := by
  have whole : (value.takeWhile fun c => c ≠ TE_COMPOUND_ITEM_SEP ∧ c ≠ TE_COMPOUND_KEY_SEP) = value := by
    refine List.takeWhile_eq_self_iff.mpr fun c member => ?_
    simp only [decide_eq_true_eq]
    exact ⟨fun same => plain.2.1 (same ▸ member),fun same => plain.2.2 (same ▸ member)⟩
  rw [parse_next_item,if_neg plain.1]
  simp only [whole,List.drop_length]
/-- A plain value is the one unnamed item of itself. -/
theorem dereference_int_plain (plain : PlainText value) (need_field : Option CStr) (idx : Nat) :
    compound_dereference_int callback value need_field idx = (decide (need_field = none ∧ idx = 0) && callback value) := by
  have last : ∀ fuel left, derefLoop callback need_field fuel [] left = false := by
    intro fuel left
    cases fuel <;> rfl
  rw [compound_dereference_int,derefLoop,parse_plain plain]
  cases need_field with
  | some field => simp [fieldCompare,last]
  | none => by_cases first : idx = 0 <;> simp [fieldCompare,last,first]
theorem dereference_plain (plain : PlainText value) : te_compound_dereference callback value stem key = (answers stem key && callback value) := by
  unfold te_compound_dereference answers
  cases strip_prefix stem key with
  | none => rfl
  | some key_sub =>
    simp only [dereference_int_plain plain]
    cases strip_uint_suffix key_sub with
    | none => grind
    | some suffix =>
      obtain ⟨key',idx⟩ := suffix
      by_cases empty : strip_suffix ['_'] key' = []
      · simp [empty]
      · grind
theorem answers_self (name : CStr) : answers name name = true := by
  simp [answers, strip_prefix,strip_uint_suffix]
end
end TestEnvironment.Tester
