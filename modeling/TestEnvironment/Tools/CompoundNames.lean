import TestEnvironment.Tools.CompoundItems
import TestEnvironment.Lib.Decimal

/-!
Names of compound items (`te_compound_build_name` and `te_compound_dereference` of
`te_compound.c`, with the stripping of `te_string.c`): the stem, the key behind an underscore,
and the index, which may have an underscore before it. The decoder takes the digits at the end
for an index first.
-/
namespace TestEnvironment.Tools
open Lib

def UINTMAX_MAX : Nat := 2^64-1

section
variable (base : CStr) (substr : TeSubstring)

/-- The rest behind the prefix, or nothing for `false`. -/
def te_substring_strip_prefix (pre : CStr) : Option TeSubstring :=
  if pre = [] then some substr
  else if ¬ te_substring_is_valid base substr then none
  else if substr.len < pre.length then none
  else if (base.drop substr.start).take pre.length = pre then some ⟨substr.start+pre.length,substr.len-pre.length⟩
  else none
def te_substring_strip_suffix (suffix : CStr) : Option TeSubstring :=
  if suffix = [] then some substr
  else if ¬ te_substring_is_valid base substr then none
  else if substr.len < suffix.length then none
  else if (base.drop (substr.start+substr.len-suffix.length)).take suffix.length = suffix then some {substr with len := substr.len-suffix.length}
  else none
/-- `te_strtoumax` of decimal digits. -/
def te_strtoumax (str : CStr) : Option Nat :=
  if str = [] ∨ UINTMAX_MAX < digitsNumber str then none else some (digitsNumber str)
/-- Where the digits that end at a position start. -/
def digitsStart (start : Nat) : Nat → Nat
  | 0 => 0
  | pos+1 => if isdigit (charAt base (start+pos)) then digitsStart start pos else pos+1
/-- The rest before the digits with their number, or nothing for `false` and the number 0. -/
def te_substring_strip_uint_suffix : Option (TeSubstring × Nat) :=
  if ¬ te_substring_is_valid base substr ∨ substr.len = 0 then none
  else
    let pos := digitsStart base substr.start substr.len
    if isdigit (charAt base (substr.start+pos)) then
      (te_strtoumax (subText base ⟨substr.start+pos,substr.len-pos⟩)).map fun value => ({substr with len := pos},value)
    else none
end

section
/-- The underscore between a name and its index. -/
def indexSep (name : CStr) : CStr :=
  match name.getLast? with
  | some c => if isdigit c ∨ c = '_' then ['_'] else []
  | none => []
/-- The name, in a string that was empty. -/
def te_compound_build_name (stem : CStr) (key : Option CStr) (idx : Nat) : CStr :=
  let dst := stem ++ (match key with | some key => '_' :: key | none => [])
  if 0 < idx then dst ++ indexSep dst ++ natText idx else dst

/-- What the callback gets. -/
structure Call where
  field : Option CStr
  idx : Nat
  value : CStr
  has_more : Bool
  deriving DecidableEq, Repr
inductive CallStatus | zero | TE_EOK | TE_ENODATA | other (rc : Nat)
  deriving DecidableEq, Repr

section
variable (callback : Call → CallStatus) (comp name : CStr)

/-- The loop of `compound_dereference_int`: what the callback is called with, if it is called. -/
def dereferenceLoop (need_field : Option TeSubstring) (idx : Nat) : Nat → TeSubstring → Nat → Option (Option Call)
  | 0, _, _ => none
  | fuel+1, iter, i =>
    match parse_next_item comp iter with
    | none => some none
    | some item =>
      let cmp := te_substring_compare comp item.field name need_field
      if 0 < cmp then some none
      else if cmp = 0 ∧ i = idx then
        some (some ⟨item.field.map (subText comp),i,subText comp item.value,!te_substring_past_end comp item.iter⟩)
      else dereferenceLoop need_field idx fuel (te_substring_advance comp item.iter) (if cmp = 0 then i+1 else i)
def calledBack : Option Call → List Call × CallStatus
  | some call => ([call],callback call)
  | none => ([],.TE_ENODATA)
/-- The calls of the callback, and the status. -/
def compound_dereference_int (need_field : Option TeSubstring) (idx : Nat) : Option (List Call × CallStatus) :=
  (dereferenceLoop comp name need_field idx (comp.length+1) ⟨0,0⟩ 0).map (calledBack callback)
/-- The name without index, the index, and whether there is one. -/
def splitIndex (key_sub : TeSubstring) : TeSubstring × Nat × Bool :=
  match te_substring_strip_uint_suffix name key_sub with
  | some (key_sub,idx) => ((te_substring_strip_suffix name key_sub ['_']).getD key_sub,idx,true)
  | none => (key_sub,0,false)
/-- The field is looked up with its index, and then with the digits as part of its name. -/
def dereferenceField (key_sub : TeSubstring) (idx : Nat) (has_idx : Bool) : Option (List Call × CallStatus) :=
  match te_substring_strip_prefix name key_sub ['_'] with
  | none => some ([],.TE_ENODATA)
  | some key_sub =>
    (compound_dereference_int callback comp name (some key_sub) idx).bind fun (calls,rc) =>
      if rc = .TE_ENODATA ∧ has_idx then
        (compound_dereference_int callback comp name (some (te_substring_till_end name key_sub)) 0).map fun (more,rc) => (calls ++ more,rc)
      else some (calls,rc)
def te_compound_dereference (stem : CStr) : Option (List Call × CallStatus) :=
  match te_substring_strip_prefix name ⟨0,name.length⟩ stem with
  | none => some ([],.TE_ENODATA)
  | some key_sub =>
    let (key_sub,idx,has_idx) := splitIndex name key_sub
    (if key_sub.len = 0 then compound_dereference_int callback comp name none idx
      else dereferenceField callback comp name key_sub idx has_idx).map fun (calls,rc) => (calls,if rc = .TE_EOK then .zero else rc)
end
end

section
variable (callback : Call → CallStatus) (comp stem : CStr) (key : Option CStr) (idx : Nat)

/-- The name calls the callback for the item, once and for no other one. -/
def ResolvesTo (value : CStr) : Prop :=
  ∃ more rc, te_compound_dereference callback comp (te_compound_build_name stem key idx) stem = some ([⟨key,idx,value,more⟩],rc)
/-- What is before the digits at the end, and their number, if it is a `uintmax_t`. -/
def numbered (key : CStr) : Option (CStr × Nat) := (te_strtoumax (key.rtakeWhile isdigit)).map fun n => (key.rdropWhile isdigit,n)
def withoutUnderscore (text : CStr) : CStr := if text.getLast? = some '_' then text.dropLast else text
/-- No other item is found for the name, before its own or, where the callback itself returns
`TE_ENODATA`, behind it. -/
def Unambiguous : Prop :=
  match key with
  | none => True
  | some key =>
    if idx = 0 then ∀ front n, numbered key = some (front,n) → front ≠ [] ∧ te_compound_extract comp (some (withoutUnderscore front)) n = some none
    else ∀ value, te_compound_extract comp (some key) idx = some (some value) → callback ⟨some key,idx,value,true⟩ = .TE_ENODATA →
      te_compound_extract comp (some (key ++ indexSep ('_' :: key) ++ natText idx)) 0 = some none
end

section
variable {pre mid post front ds : CStr} {n : Nat}

theorem strip_prefix_found (p : CStr) (fits : n ≤ post.length) :
    te_substring_strip_prefix (pre ++ (p ++ post)) ⟨pre.length,p.length+n⟩ p = some ⟨pre.length+p.length,n⟩ := by
  simp_all [if_neg, te_substring_strip_prefix,te_substring_is_valid]
theorem withoutUnderscore_snoc (text : CStr) : withoutUnderscore (text ++ ['_']) = text := by simp [withoutUnderscore]
theorem withoutUnderscore_other (other : mid.getLast? ≠ some '_') : withoutUnderscore mid = mid := if_neg other
theorem strip_underscore (pre mid post : CStr) :
    (te_substring_strip_suffix (pre ++ (mid ++ post)) ⟨pre.length,mid.length⟩ ['_']).getD ⟨pre.length,mid.length⟩ =
      ⟨pre.length,(withoutUnderscore mid).length⟩ := by
  have valid : te_substring_is_valid (pre ++ (mid ++ post)) ⟨pre.length,mid.length⟩ = true := cursor_valid (by simp)
  rw [te_substring_strip_suffix,if_neg (by simp),if_neg (by rw [valid]; simp)]
  rcases eq_nil_or_concat mid with rfl | ⟨text,c,rfl⟩
  · rfl
  · rw [concat_eq_append] at *
    have place : pre.length+(text ++ [c]).length-(['_'] : CStr).length = (pre ++ text).length := by simp
    have split : pre ++ (text ++ [c] ++ post) = pre ++ text ++ ([c] ++ post) := by simp
    rw [if_neg (by simp),place,split,drop_left]
    by_cases same : c = '_'
    · simp [same,withoutUnderscore_snoc]
    · simp [same,withoutUnderscore_other]
theorem charAt_next (pre : CStr) (c : Char) (post : CStr) : charAt (pre ++ c :: post) pre.length = c := charAt_append pre (c :: post)

variable (digits : ∀ c ∈ ds, isdigit c = true) (stop : ∀ c ∈ front.getLast?, isdigit c = false)
include digits stop
theorem digitsStart_before (post : CStr) :
    digitsStart (pre ++ (front ++ ds ++ post)) pre.length (front.length+ds.length) = front.length := by
  induction ds using List.reverseRecOn generalizing post with
  | nil =>
    rcases eq_nil_or_concat front with rfl | ⟨text,c,rfl⟩
    · rfl
    · rw [concat_eq_append] at *
      have split : pre ++ (text ++ [c] ++ [] ++ post) = pre ++ text ++ c :: post := by simp
      have last := charAt_next (pre ++ text) c post
      rw [length_append] at last
      rw [split,length_append,length_singleton,length_nil,Nat.add_zero,digitsStart,last,if_neg (by simp [stop c (by simp)])]
  | append_singleton ds d ih =>
    have split : pre ++ (front ++ (ds ++ [d]) ++ post) = pre ++ (front ++ ds) ++ d :: post := by simp
    have last := charAt_next (pre ++ (front ++ ds)) d post
    rw [length_append,length_append] at last
    have before := ih (fun c member => digits c (mem_append_left _ member)) (d :: post)
    rw [← append_assoc] at before
    rw [split,length_append,length_singleton,← Nat.add_assoc,digitsStart,last,if_pos (digits d (by simp)),before]
theorem strip_uint : te_substring_strip_uint_suffix (pre ++ (front ++ ds)) ⟨pre.length,front.length+ds.length⟩ =
      (te_strtoumax ds).map fun n => (⟨pre.length,front.length⟩,n) := by
  have valid : te_substring_is_valid (pre ++ (front ++ ds)) ⟨pre.length,front.length+ds.length⟩ = true := cursor_valid (by simp)
  have start := @digitsStart_before pre front ds digits stop []
  rw [append_nil] at start
  rw [te_substring_strip_uint_suffix]
  cases ds with
  | nil =>
    by_cases none' : front.length = 0
    · rw [if_pos (.inr none')]
      rfl
    · have ended := charAt_append (pre ++ front) []
      rw [length_append,append_assoc] at ended
      rw [if_neg (by rw [valid]; simpa using none')]
      dsimp only
      rw [start,ended,if_neg (by decide)]
      rfl
  | cons d ds =>
    have next := charAt_next (pre ++ front) d ds
    rw [length_append,append_assoc] at next
    have text : subText (pre ++ (front ++ d :: ds)) ⟨pre.length+front.length,front.length+(d :: ds).length-front.length⟩ = d :: ds := by
      simp [← append_assoc,subText]
    rw [if_neg (by rw [valid]; simp)]
    dsimp only
    rw [start,next,if_pos (digits d mem_cons_self),text]
/-- The digits at the end are the index, if they fit, with one underscore before them. -/
theorem splitIndex_spec : splitIndex (pre ++ (front ++ ds)) ⟨pre.length,front.length+ds.length⟩ = match te_strtoumax ds with
      | some n => (⟨pre.length,(withoutUnderscore front).length⟩,n,true)
      | none => (⟨pre.length,front.length+ds.length⟩,0,false) := by grind [strip_uint,strip_underscore,splitIndex]
end

section
variable {callback : Call → CallStatus} {ps : List Piece} {pre name : CStr} {key : Option CStr} {need_field : Option TeSubstring} {fuel idx i : Nat}

/-- What the callback gets for an item. -/
def lookup (callback : Call → CallStatus) (ps : List Piece) (key : Option CStr) (idx : Nat) : List Call × CallStatus :=
  calledBack callback ((valuesOf key ps)[idx]?.map fun value => ⟨key,idx,value,true⟩)
theorem dereferenceLoop_spec (readable : Readable ps) (sorted : SortedBy Piece.order ps) (enough : ps.length < fuel)
    (inside : FieldIn name need_field) (same : fieldKey name need_field = keyOrder key) (low : i ≤ idx) (pre : CStr) :
    dereferenceLoop (pre ++ texts ps) name need_field idx fuel ⟨pre.length,0⟩ i =
      some ((valuesOf key ps)[idx-i]?.map fun value => ⟨key,idx,value,true⟩) := by
  induction ps generalizing pre i fuel with
  | nil =>
    obtain ⟨fuel,rfl⟩ := succ_of_lt enough
    rw [dereferenceLoop,parse_ended]
    rfl
  | cons p ps ih =>
    obtain ⟨fuel,rfl⟩ := succ_of_lt enough
    have orders := compare_orders (field_in pre (texts ps) p) inside
    rw [field_key,same] at orders
    have value := value_cons pre p ps
    have next := advance_cons pre p ps
    have rest {i : Nat} (low : i ≤ idx) := ih readable.2.2.2 sorted.tail (lt_of_succ_lt_succ enough) low (pre ++ p.text)
    rw [← whole_cons] at rest
    rw [dereferenceLoop,parse_readable readable]
    simp only [value,next]
    rw [← texts_cons] at orders
    have field : (p.field pre.length).map (subText (pre ++ texts (p :: ps))) = p.order := field_key pre (texts ps) p
    generalize te_substring_compare (pre ++ texts (p :: ps)) (p.field pre.length) name need_field = cmp at orders ⊢
    rcases lt_trichotomy p.order (keyOrder key) with less | equal | more
    · have negative := orders.2.mpr less
      rw [if_neg (by omega),if_neg (by omega),if_neg (by omega),rest low,valuesOf_cons_other less.ne]
    · have zero := orders.zero.mpr equal
      rw [if_neg (by omega),valuesOf_cons_same equal]
      by_cases here : i = idx
      · subst here
        have before : te_substring_past_end (pre ++ texts (p :: ps)) ⟨pre.length,p.text.length⟩ = false := by
          have more := length_pos_iff.mpr readable.2.1
          rw [te_substring_past_end,decide_eq_false_iff_not]
          rintro ⟨-,ended⟩
          rw [texts_cons,length_append,length_append] at ended
          dsimp only at ended
          omega
        rw [if_pos ⟨zero,rfl⟩,before,field,equal,Nat.sub_self]
        rfl
      · grind
    · rw [if_pos (orders.1.mpr more),valuesOf_behind sorted more]
      rfl
theorem int_spec (callback : Call → CallStatus) (readable : Readable ps) (sorted : SortedBy Piece.order ps) (inside : FieldIn name need_field)
    (same : fieldKey name need_field = keyOrder key) (idx : Nat) :
    compound_dereference_int callback (texts ps) name need_field idx = some (lookup callback ps key idx) := by
  have looped := @dereferenceLoop_spec ps name key need_field _ idx 0 readable sorted (lt_succ_of_le (texts_length readable)) inside same (Nat.zero_le _) []
  rw [nil_append] at looped
  rw [compound_dereference_int,show (⟨0,0⟩ : TeSubstring) = ⟨([] : CStr).length,0⟩ from rfl,looped]
  rfl
/-- What a name gives that is taken apart at its index. -/
def tried (callback : Call → CallStatus) (ps : List Piece) (key : CStr) (idx : Nat) (whole : CStr) : List Call × CallStatus :=
  let first := lookup callback ps (some key) idx
  if first.2 = .TE_ENODATA then (first.1 ++ (lookup callback ps (some whole) 0).1,(lookup callback ps (some whole) 0).2) else first
theorem field_text (pre k post : CStr) : FieldIn (pre ++ (k ++ post)) (some ⟨pre.length,k.length⟩) ∧
    fieldKey (pre ++ (k ++ post)) (some ⟨pre.length,k.length⟩) = keyOrder (some k) := by
  constructor
  · intro sub same
    rw [← some.inj same]
    exact cursor_valid (by simp)
  · rw [fieldKey,map_some,subText,drop_left,take_left]
    rfl
theorem dereferenceField_spec (readable : Readable ps) (sorted : SortedBy Piece.order ps) (pre k post : CStr) (idx : Nat) (has_idx : Bool) :
    dereferenceField callback (texts ps) (pre ++ '_' :: (k ++ post)) ⟨pre.length,k.length+1⟩ idx has_idx =
      some (if has_idx then tried callback ps k idx (k ++ post) else lookup callback ps (some k) idx) := by
  have found := @strip_prefix_found pre (k ++ post) k.length ['_'] (by simp)
  have split : pre ++ '_' :: (k ++ post) = pre ++ ['_'] ++ (k ++ post) := by simp
  have own := field_text (pre ++ ['_']) k post
  have whole := field_text (pre ++ ['_']) (k ++ post) []
  have extended : te_substring_till_end (pre ++ ['_'] ++ (k ++ post)) ⟨(pre ++ ['_']).length,k.length⟩ = ⟨(pre ++ ['_']).length,(k ++ post).length⟩ := by
    have total : (pre ++ ['_'] ++ (k ++ post)).length-(pre ++ ['_']).length = (k ++ post).length := by
      rw [@length_append _ (pre ++ ['_']),Nat.add_sub_cancel_left]
    rw [te_substring_till_end,if_pos (cursor_valid (by simp)),total]
  rw [append_nil] at whole
  rw [length_singleton,Nat.add_comm 1,singleton_append] at found
  rw [dereferenceField,found]
  dsimp only
  rw [show pre.length+1 = (pre ++ ['_']).length by simp,split,int_spec callback readable sorted own.1 own.2,extended,
    int_spec callback readable sorted whole.1 whole.2,bind_some]
  cases has_idx with
  | false => simp
  | true =>
    simp only [and_true,if_true,tried]
    split <;> rfl
def finished (result : List Call × CallStatus) : List Call × CallStatus := (result.1,if result.2 = .TE_EOK then .zero else result.2)
/-- The bare name with an index is for the items without key. -/
theorem dereference_bare {ds : CStr} (readable : Readable ps) (sorted : SortedBy Piece.order ps) (stem front : CStr) (digits : ∀ c ∈ ds, isdigit c = true)
    (gone : front = [] ∨ front = ['_']) (fits : (front = [] ∧ ds = [] ∧ idx = 0) ∨ te_strtoumax ds = some idx) :
    te_compound_dereference callback (texts ps) (stem ++ (front ++ ds)) stem = some (finished (lookup callback ps none idx)) := by
  have stop : ∀ c ∈ front.getLast?, isdigit c = false := by
    rcases gone with rfl | rfl
    · nofun
    · simp; decide
  have prefixed := @strip_prefix_found [] (front ++ ds) (front ++ ds).length stem le_rfl
  rw [nil_append,← length_append] at prefixed
  have split := @splitIndex_spec stem front ds digits stop
  have none' : FieldIn (stem ++ (front ++ ds)) none := nofun
  have read := @int_spec ps (stem ++ (front ++ ds)) none none callback readable sorted none' rfl
  rw [te_compound_dereference,show (⟨0,(stem ++ (front ++ ds)).length⟩ : TeSubstring) = ⟨([] : CStr).length,(stem ++ (front ++ ds)).length⟩ from rfl,prefixed]
  dsimp only
  rw [length_nil,Nat.zero_add,@length_append _ front,split]
  rcases fits with ⟨rfl,rfl,rfl⟩ | number
  · rw [show te_strtoumax [] = none from rfl]
    dsimp only
    rw [if_pos (show ([] : CStr).length+([] : CStr).length = 0 from rfl),read]
    rfl
  · rw [number]
    dsimp only
    have empty : (withoutUnderscore front).length = 0 := by rcases gone with rfl | rfl <;> rfl
    rw [if_pos empty,read]
    rfl
/-- A name with a key, taken apart at the digits at its end. -/
theorem dereference_keyed {ds : CStr} (readable : Readable ps) (sorted : SortedBy Piece.order ps) (stem front : CStr) (digits : ∀ c ∈ ds, isdigit c = true)
    (stop : ∀ c ∈ front.getLast?, isdigit c = false) :
    te_compound_dereference callback (texts ps) (stem ++ '_' :: (front ++ ds)) stem = some (finished (match te_strtoumax ds with
      | none => lookup callback ps (some (front ++ ds)) 0
      | some n => if front = [] then lookup callback ps none n else tried callback ps (withoutUnderscore front) n (front ++ ds))) := by
  have stop' : ∀ c ∈ ('_' :: front).getLast?, isdigit c = false := by
    intro c member
    rcases eq_nil_or_concat front with rfl | ⟨text,d,rfl⟩
    · obtain rfl : '_' = c := by simpa using member
      decide
    · grind
  have name : stem ++ '_' :: (front ++ ds) = stem ++ ('_' :: front ++ ds) := rfl
  have prefixed := @strip_prefix_found [] ('_' :: front ++ ds) ('_' :: front ++ ds).length stem le_rfl
  rw [nil_append,← length_append] at prefixed
  have split := @splitIndex_spec stem ('_' :: front) ds digits stop'
  rw [name,te_compound_dereference,
    show (⟨0,(stem ++ ('_' :: front ++ ds)).length⟩ : TeSubstring) = ⟨([] : CStr).length,(stem ++ ('_' :: front ++ ds)).length⟩ from rfl,prefixed]
  dsimp only
  rw [length_nil,Nat.zero_add,@length_append _ ('_' :: front),split]
  cases number : te_strtoumax ds with
  | none =>
    have read := @dereferenceField_spec callback ps readable sorted stem (front ++ ds) [] 0 false
    rw [append_nil,length_append,Nat.add_right_comm] at read
    dsimp only
    rw [if_neg (by simp),length_cons,← name,read]
    rfl
  | some n =>
    dsimp only
    by_cases bare : front = []
    · subst bare
      have none' : FieldIn (stem ++ ('_' :: [] ++ ds)) none := nofun
      rw [if_pos (show (withoutUnderscore ['_']).length = 0 from rfl),@int_spec ps _ none none callback readable sorted none' rfl]
      rfl
    · have kept : withoutUnderscore ('_' :: front) = '_' :: withoutUnderscore front := by
        rcases eq_nil_or_concat front with rfl | ⟨text,d,rfl⟩
        · exact absurd rfl bare
        · grind [withoutUnderscore]
      have rest : ∃ post, front ++ ds = withoutUnderscore front ++ post := by
        rw [withoutUnderscore]
        split
        · obtain ⟨post,parts⟩ := (List.dropLast_prefix front).trans (prefix_append front ds)
          exact ⟨post,parts.symm⟩
        · exact ⟨ds,rfl⟩
      obtain ⟨post,parts⟩ := rest
      have read := @dereferenceField_spec callback ps readable sorted stem (withoutUnderscore front) post n true
      rw [← parts] at read
      rw [kept,if_neg bare,if_neg (by simp),length_cons,← name,read]
      rfl
end

section
variable {callback : Call → CallStatus} {ps : List Piece} {comp stem value key : CStr} {idx : Nat}

/-- A result with the call for the item alone. -/
def OnlyItem (key : Option CStr) (idx : Nat) (value : CStr) (result : List Call × CallStatus) : Prop := ∃ more, result.1 = [⟨key,idx,value,more⟩]
theorem lookup_found (found : (valuesOf (some key) ps)[idx]? = some value) :
    lookup callback ps (some key) idx = ([⟨some key,idx,value,true⟩],callback ⟨some key,idx,value,true⟩) := by
  rw [lookup,found]
  rfl
theorem lookup_absent {key : Option CStr} (absent : (valuesOf key ps)[idx]? = none) : lookup callback ps key idx = ([],.TE_ENODATA) := by
  rw [lookup,absent]
  rfl
/-- The item of the name in full is found alone, if and only if the other one is not there. -/
theorem tried_whole {k : CStr} {n : Nat} (found : (valuesOf (some key) ps)[0]? = some value) (other : k ≠ key) :
    OnlyItem (some key) 0 value (tried callback ps k n key) ↔ (valuesOf (some k) ps)[n]? = none := by
  rw [tried]
  cases wrong : (valuesOf (some k) ps)[n]? with
  | none =>
    rw [lookup_absent wrong,lookup_found found]
    exact ⟨fun _ => rfl,fun _ => ⟨true,rfl⟩⟩
  | some text =>
    rw [lookup_found wrong]
    refine ⟨?_,nofun⟩
    rintro ⟨more,calls⟩
    dsimp only at calls
    split at calls <;> exact absurd (some.inj (Call.mk.inj (cons.inj calls).1).1) other
/-- The item with the index is found alone, if and only if no other call follows. -/
theorem tried_indexed {whole : CStr} (found : (valuesOf (some key) ps)[idx]? = some value) :
    OnlyItem (some key) idx value (tried callback ps key idx whole) ↔
      (callback ⟨some key,idx,value,true⟩ = .TE_ENODATA → (valuesOf (some whole) ps)[0]? = none) := by
  rw [tried,lookup_found found]
  by_cases status : callback ⟨some key,idx,value,true⟩ = .TE_ENODATA
  · simp only [status,if_true,forall_const]
    cases second : (valuesOf (some whole) ps)[0]? with
    | none =>
      rw [lookup_absent second]
      exact ⟨fun _ => rfl,fun _ => ⟨true,rfl⟩⟩
    | some text =>
      rw [lookup_found second]
      exact ⟨fun ⟨more,calls⟩ => (nomatch calls),nofun⟩
  · simp only [if_neg status]
    exact ⟨fun _ enodata => absurd enodata status,fun _ => ⟨true,rfl⟩⟩
theorem split_digits (text : CStr) : text = text.rdropWhile isdigit ++ text.rtakeWhile isdigit ∧ (∀ c ∈ text.rtakeWhile isdigit, isdigit c = true) ∧
    ∀ c ∈ (text.rdropWhile isdigit).getLast?, isdigit c = false := by
  refine ⟨List.rdropWhile_append_rtakeWhile.symm,fun c member => List.mem_rtakeWhile_imp member,fun c last => ?_⟩
  have more : text.rdropWhile isdigit ≠ [] := fun none' => by rw [none'] at last; cases last
  have stops := List.rdropWhile_last_not isdigit text more
  rw [List.getLast?_eq_some_getLast more] at last
  rw [← some.inj last]
  simpa using stops
theorem resolves_of {name : Option CStr} {result : List Call × CallStatus}
    (dereferenced : te_compound_dereference callback comp (te_compound_build_name stem name idx) stem = some (finished result)) :
    ResolvesTo callback comp stem name idx value ↔ OnlyItem name idx value result := by
  rw [ResolvesTo,dereferenced]
  constructor
  · rintro ⟨more,rc,same⟩
    exact ⟨more,(of_pair same).1⟩
  · rintro ⟨more,calls⟩
    exact ⟨more,(finished result).2,by rw [← calls]; rfl⟩
theorem strtoumax_natText (small : idx ≤ UINTMAX_MAX) : te_strtoumax (natText idx) = some idx := by
  simp_all [natText_number,natText_nonempty,te_strtoumax]
theorem indexSep_cases (name : CStr) : (indexSep name = ['_'] ∧ name ≠ []) ∨ indexSep name = [] ∧ ∀ c ∈ name.getLast?, isdigit c = false ∧ c ≠ '_' := by
  rw [indexSep]
  cases last : name.getLast? with
  | none => exact .inr ⟨rfl,nofun⟩
  | some c => grind
theorem indexSep_keyed (stem key : CStr) : indexSep (stem ++ '_' :: key) = indexSep ('_' :: key) := by
  rw [indexSep,indexSep,List.getLast?_append_of_ne_nil _ (cons_ne_nil _ _)]
/-- With its underscore a key ends in no digit, and it comes back without it. -/
theorem key_with_sep (key : CStr) : key ++ indexSep ('_' :: key) ≠ [] ∧ withoutUnderscore (key ++ indexSep ('_' :: key)) = key ∧
    ∀ c ∈ (key ++ indexSep ('_' :: key)).getLast?, isdigit c = false := by
  rcases indexSep_cases ('_' :: key) with ⟨sep,-⟩ | ⟨sep,last⟩
  · rw [sep,withoutUnderscore_snoc,getLast?_concat]
    refine ⟨by simp,rfl,fun c same => ?_⟩
    rw [← some.inj same]
    decide
  · rw [sep,append_nil]
    rcases eq_nil_or_concat key with rfl | ⟨text,c,rfl⟩
    · exact absurd rfl (last '_' rfl).2
    · rw [concat_eq_append] at *
      rw [← cons_append,getLast?_concat] at last
      rw [getLast?_concat]
      refine ⟨by simp,withoutUnderscore_other ?_,fun d same => ?_⟩
      · grind
      · rw [← some.inj same]
        exact (last c rfl).1
/-- The name of an item resolves to it, if and only if no other item is found for it. -/
theorem name_resolves_iff (callback : Call → CallStatus) (stem : CStr) {key : Option CStr} (valid : te_compound_validate comp = some true)
    (present : te_compound_extract comp key idx = some (some value)) (small : idx ≤ UINTMAX_MAX) :
    ResolvesTo callback comp stem key idx value ↔ Unambiguous callback comp key idx := by
  obtain ⟨ps,rfl,readable,sorted,-⟩ := validate_pieces valid
  have extract (key : Option CStr) (idx : Nat) := (stores_texts readable sorted key).2 idx
  rw [extract] at present
  have found : (valuesOf key ps)[idx]? = some value := some.inj present
  cases key with
  | none =>
    have own : OnlyItem none idx value (lookup callback ps none idx) := by
      rw [lookup,found]
      exact ⟨true,rfl⟩
    refine ⟨fun _ => trivial,fun _ => ?_⟩
    refine (resolves_of ?_).mpr own
    rw [te_compound_build_name]
    by_cases positive : 0 < idx
    · have gone : indexSep (stem ++ []) = [] ∨ indexSep (stem ++ []) = ['_'] := by grind [indexSep_cases]
      have bare := @dereference_bare callback ps idx _ readable sorted stem _ (natText_digits idx) gone (.inr (strtoumax_natText small))
      rw [if_pos positive]
      simpa only [append_nil,append_assoc] using bare
    · obtain rfl : idx = 0 := by omega
      have bare := @dereference_bare callback ps 0 [] readable sorted stem [] nofun (.inl rfl) (.inl ⟨rfl,rfl,rfl⟩)
      rw [if_neg positive]
      simpa only [append_nil] using bare
  | some key =>
    rw [Unambiguous]
    by_cases positive : 0 < idx
    · obtain ⟨more,without,stop⟩ := key_with_sep key
      have dereferenced := @dereference_keyed callback ps _ readable sorted stem _ (natText_digits idx) stop
      rw [strtoumax_natText small] at dereferenced
      dsimp only at dereferenced
      rw [if_neg more,without] at dereferenced
      have name : te_compound_build_name stem (some key) idx = stem ++ '_' :: (key ++ indexSep ('_' :: key) ++ natText idx) := by
        rw [te_compound_build_name,if_pos positive,indexSep_keyed]
        simp
      rw [resolves_of (by rw [name]; exact dereferenced),tried_indexed found,if_neg (by omega)]
      simp only [extract,some_inj]
      constructor
      · grind
      · exact fun quiet => quiet value found
    · obtain rfl : idx = 0 := by omega
      obtain ⟨parts,digits,stop⟩ := split_digits key
      have dereferenced := @dereference_keyed callback ps _ readable sorted stem _ digits stop
      rw [← parts] at dereferenced
      have name : te_compound_build_name stem (some key) 0 = stem ++ '_' :: key := rfl
      rw [resolves_of (by rw [name]; exact dereferenced),if_pos rfl,numbered]
      cases number : te_strtoumax (key.rtakeWhile isdigit) with
      | none =>
        dsimp only
        rw [lookup_found found]
        exact ⟨fun _ => nofun,fun _ => ⟨true,rfl⟩⟩
      | some n =>
        dsimp only
        have unfolded (p : CStr → Nat → Prop) : (∀ front n', Option.map (fun n => (key.rdropWhile isdigit,n)) (some n) = some (front,n') → p front n') ↔
            p (key.rdropWhile isdigit) n :=
          ⟨fun all => all _ _ rfl,fun holds front n' same => by
            obtain ⟨rfl,rfl⟩ := of_pair same
            exact holds⟩
        rw [unfolded]
        by_cases bare : key.rdropWhile isdigit = []
        · rw [if_pos bare]
          refine ⟨fun only => ?_,fun kept => absurd bare kept.1⟩
          -- the items without key are asked
          obtain ⟨more,calls⟩ := only
          rw [lookup] at calls
          cases other : (valuesOf none ps)[n]? with
          | none => rw [other] at calls; cases calls
          | some text =>
            rw [other] at calls
            exact nomatch (Call.mk.inj (cons.inj calls).1).1
        · have shorter : withoutUnderscore (key.rdropWhile isdigit) ≠ key := by
            intro same
            have digit : key.rtakeWhile isdigit ≠ [] := fun none' => by rw [none'] at number; cases number
            have positive := length_pos_iff.mpr digit
            have lengths := congrArg List.length parts
            have length := congrArg List.length same
            rw [length_append] at lengths
            rw [withoutUnderscore] at length
            split at length
            · rw [List.length_dropLast] at length
              omega
            · omega
          rw [if_neg bare,tried_whole found shorter,extract,some_inj]
          exact ⟨fun absent => ⟨bare,absent⟩,And.right⟩
/-- The item `a:x`, whose key ends in no digit. -/
theorem name_resolves_letter : ResolvesTo (fun _ => .zero) ['a',TE_COMPOUND_KEY_SEP,'x',TE_COMPOUND_ITEM_SEP] ['p'] (some ['a']) 0 ['x'] := by
  refine (name_resolves_iff (fun _ => .zero) ['p'] (by decide +kernel) (by decide +kernel) (by decide)).mpr ?_
  have plain : numbered ['a'] = none := by decide +kernel
  rw [Unambiguous,if_pos rfl,plain]
  nofun
/-- A key of digits is taken for an index, and so are digits behind another key that has more values. -/
theorem digits_lost :
    (te_compound_validate ['1',TE_COMPOUND_KEY_SEP,'x',TE_COMPOUND_ITEM_SEP] = some true ∧
      te_compound_extract ['1',TE_COMPOUND_KEY_SEP,'x',TE_COMPOUND_ITEM_SEP] (some ['1']) 0 = some (some ['x']) ∧
      ¬ ResolvesTo (fun _ => .zero) ['1',TE_COMPOUND_KEY_SEP,'x',TE_COMPOUND_ITEM_SEP] ['p'] (some ['1']) 0 ['x']) ∧
    let comp := ['a',TE_COMPOUND_KEY_SEP,'x',TE_COMPOUND_ITEM_SEP,'a',TE_COMPOUND_KEY_SEP,'y',TE_COMPOUND_ITEM_SEP,
      'a','1',TE_COMPOUND_KEY_SEP,'z',TE_COMPOUND_ITEM_SEP]
    te_compound_validate comp = some true ∧ te_compound_extract comp (some ['a','1']) 0 = some (some ['z']) ∧
      ¬ ResolvesTo (fun _ => .zero) comp ['p'] (some ['a','1']) 0 ['z'] := by
  refine ⟨⟨by decide +kernel,by decide +kernel,?_⟩,by decide +kernel,by decide +kernel,?_⟩
  · rintro ⟨more,rc,same⟩
    rw [show te_compound_dereference (fun _ => .zero) ['1',TE_COMPOUND_KEY_SEP,'x',TE_COMPOUND_ITEM_SEP]
      (te_compound_build_name ['p'] (some ['1']) 0) ['p'] = some ([],.TE_ENODATA) by decide +kernel] at same
    cases same
  · rintro ⟨more,rc,same⟩
    rw [show te_compound_dereference (fun _ => .zero) ['a',TE_COMPOUND_KEY_SEP,'x',TE_COMPOUND_ITEM_SEP,'a',TE_COMPOUND_KEY_SEP,'y',TE_COMPOUND_ITEM_SEP,
        'a','1',TE_COMPOUND_KEY_SEP,'z',TE_COMPOUND_ITEM_SEP] (te_compound_build_name ['p'] (some ['a','1']) 0) ['p'] =
      some ([⟨some ['a'],1,['y'],true⟩],.zero) by decide +kernel] at same
    exact absurd (Call.mk.inj (cons.inj (of_pair same).1).1).2.1 (by decide)
end
end TestEnvironment.Tools
