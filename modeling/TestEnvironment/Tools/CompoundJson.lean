import TestEnvironment.Tools.CompoundNames
import TestEnvironment.Tools.JsonWriter
import TestEnvironment.Lib.JsonScan

/-!
Compounds as JSON (`te_compound_classify`, `te_compound_iterate` and `te_json_add_compound` of
`te_compound.c`): what is written for a well-formed compound, and when its keys differ.
-/
namespace TestEnvironment.Tools
open Lib

inductive TeCompoundKind | NULL | PLAIN | ARRAY | OBJECT
  deriving DecidableEq, Repr

section
variable (comp : CStr)

/-- `comp->ptr` as a C string. -/
def cString : CStr := comp.takeWhile (· ≠ '\x00')
def te_compound_classify : TeCompoundKind :=
  if cString comp = [] then .NULL
  else if strchr TE_COMPOUND_ITEM_SEP (cString comp) = none then .PLAIN
  else if strchr TE_COMPOUND_KEY_SEP (cString comp) = none then .ARRAY
  else .OBJECT

/-- The loop of `te_compound_iterate`; a callback that fails an assertion has no result. -/
def iterateLoop {σ : Type} (callback : Call → σ → Option (CallStatus × σ)) : Nat → TeSubstring → Option TeSubstring → Nat → σ → Option (CallStatus × σ)
  | 0, _, _, _, _ => none
  | fuel+1, iter, prev_field, index, user =>
    match parse_next_item comp iter with
    | none => some (.zero,user)
    | some item =>
      let differs := te_substring_compare comp prev_field comp item.field ≠ 0
      let prev_field := if differs then item.field else prev_field
      let index := if differs then 0 else index
      let iter := te_substring_advance comp item.iter
      (callback ⟨item.field.map (subText comp),index,subText comp item.value,!te_substring_past_end comp iter⟩ user).bind fun result =>
        if result.1 = .zero then iterateLoop callback fuel iter prev_field (index+1) result.2
        else some (if result.1 = .TE_EOK then .zero else result.1,result.2)
def te_compound_iterate {σ : Type} (callback : Call → σ → Option (CallStatus × σ)) (user : σ) : Option (CallStatus × σ) :=
  if te_substring_past_end comp ⟨0,0⟩ then some (.TE_ENODATA,user)
  else iterateLoop comp callback (comp.length+1) ⟨0,0⟩ (some ⟨0,0⟩) 0 user

def compound_array_to_json (call : Call) (ctx : TeJsonCtx) : Option (CallStatus × TeJsonCtx) :=
  if call.field = none then (ctx.te_json_add_string call.value).map fun ctx => (.zero,ctx) else none
def compound_object_to_json (call : Call) (ctx : TeJsonCtx) : Option (CallStatus × TeJsonCtx) :=
  (if call.field ≠ none ∧ call.idx = 0 then ctx.te_json_add_key_str call.field (some call.value)
    else ctx.te_json_add_key_str (some (TeJsonCtx.te_str_empty_if_null call.field ++ natText call.idx)) (some call.value)).map
      fun ctx => (.zero,ctx)
def te_json_add_compound (ctx : TeJsonCtx) : Option TeJsonCtx :=
  match te_compound_classify comp with
  | .NULL => some ctx.te_json_add_null
  | .PLAIN => ctx.te_json_add_string (cString comp)
  | .ARRAY => do
    let ctx ← ctx.te_json_start_array
    let result ← te_compound_iterate comp compound_array_to_json ctx
    result.2.te_json_end
  | .OBJECT => do
    let ctx ← ctx.te_json_start_object
    let result ← te_compound_iterate comp compound_object_to_json ctx
    result.2.te_json_end
end

section
variable {pre : CStr} {p : Piece} {ps : List Piece} {fuel index : Nat} {prev : Key} {σ : Type}

/-- The calls of the callback, with the number of an item among those with its key. -/
def callsFrom : Key → Nat → List Piece → List Call
  | _, _, [] => []
  | prev, index, p :: ps =>
    let index := if prev = p.order then index else 0
    ⟨p.key,index,p.value,!ps.isEmpty⟩ :: callsFrom p.order (index+1) ps
def callsOf (ps : List Piece) : List Call := callsFrom (keyOrder (some [])) 0 ps

theorem past_end_iff (readable : Readable ps) : te_substring_past_end (pre ++ texts ps) ⟨pre.length,0⟩ = ps.isEmpty := by
  have valid : te_substring_is_valid (pre ++ texts ps) ⟨pre.length,0⟩ = true := cursor_valid (Nat.zero_le _)
  rw [Bool.eq_iff_iff,te_substring_past_end,decide_eq_true_iff,List.isEmpty_iff]
  constructor
  · rintro ⟨-,last⟩
    have last : pre.length = (pre ++ texts ps).length := last
    rw [length_append] at last
    exact texts_eq_nil readable (length_eq_zero_iff.mp (by omega))
  · rintro rfl
    exact ⟨valid,by simp⟩
variable {callback : Call → σ → Option (CallStatus × σ)} {act : σ → Call → Option σ}

/-- With a callback that always succeeds, every item is visited once. -/
theorem iterateLoop_spec {prev_field : Option TeSubstring}
    (succeeds : ∀ call user, callback call user = (act user call).map fun user => (.zero,user)) (readable : Readable ps)
    (enough : ps.length < fuel) (inside : FieldIn (pre ++ texts ps) prev_field) (index : Nat) (user : σ) :
    iterateLoop (pre ++ texts ps) callback fuel ⟨pre.length,0⟩ prev_field index user =
      ((callsFrom (fieldKey (pre ++ texts ps) prev_field) index ps).foldlM act user).map fun user => (.zero,user) := by
  induction ps generalizing pre prev_field index user fuel with
  | nil =>
    obtain ⟨fuel,rfl⟩ := succ_of_lt enough
    rw [iterateLoop,parse_ended]
    rfl
  | cons p ps ih =>
    obtain ⟨fuel,rfl⟩ := succ_of_lt enough
    obtain ⟨own,key⟩ := own_field pre p ps
    have orders := (compare_orders inside own).zero
    have value := value_cons pre p ps
    have next := advance_cons pre p ps
    have past : te_substring_past_end (pre ++ texts (p :: ps)) ⟨(pre ++ p.text).length,0⟩ = ps.isEmpty := by
      rw [whole_cons]
      exact past_end_iff readable.2.2.2
    have field : (p.field pre.length).map (subText (pre ++ texts (p :: ps))) = p.key := key
    rw [key] at orders
    rw [iterateLoop,parse_readable readable]
    simp only [value,next,past,field,succeeds,ne_eq,orders,callsFrom,foldlM_cons,ite_not]
    -- whichever field is remembered, its key is that of the item
    have remembered : FieldIn (pre ++ texts (p :: ps))
        (if fieldKey (pre ++ texts (p :: ps)) prev_field = p.order then prev_field else p.field pre.length) ∧
        fieldKey (pre ++ texts (p :: ps))
          (if fieldKey (pre ++ texts (p :: ps)) prev_field = p.order then prev_field else p.field pre.length) = p.order := by grind
    generalize (if fieldKey (pre ++ texts (p :: ps)) prev_field = p.order then prev_field else p.field pre.length) = prev' at remembered
    cases act user _ with
    | none => rfl
    | some user' =>
      have later := remembered.1
      rw [whole_cons] at later
      have rest := ih readable.2.2.2 (lt_of_succ_lt_succ enough) later
        ((if fieldKey (pre ++ texts (p :: ps)) prev_field = p.order then index else 0)+1) user'
      rw [← whole_cons,remembered.2] at rest
      exact rest
theorem iterate_spec
    (succeeds : ∀ call user, callback call user = (act user call).map fun user => (.zero,user)) (readable : Readable ps) (more : ps ≠ [])
    (user : σ) : te_compound_iterate (texts ps) callback user = ((callsOf ps).foldlM act user).map fun user => (.zero,user) := by
  have past : te_substring_past_end (texts ps) ⟨0,0⟩ = ps.isEmpty := @past_end_iff [] ps readable
  have some' : ps.isEmpty = false := by simp [more]
  have looped := @iterateLoop_spec [] ps ((texts ps).length+1) _ _ _ (some ⟨0,0⟩) succeeds readable
    (lt_succ_of_le (texts_length readable))
    (fun sub found => by rw [← some.inj found]; exact @cursor_valid [] _ 0 (Nat.zero_le _)) 0 user
  have first : fieldKey ([] ++ texts ps) (some ⟨0,0⟩) = keyOrder (some []) := congrArg some (List.take_zero (l := (texts ps).drop 0))
  rw [first] at looped
  rw [te_compound_iterate,past,some',if_neg Bool.false_ne_true]
  exact looped

/-- Among the items with a key, each is called with the number of those before it. -/
theorem callsFrom_mem {key : Option CStr} {idx : Nat} {value : CStr} (sorted : SortedBy Piece.order ps) (least : index = 0 ∨ ∀ p ∈ ps, prev ≤ p.order) :
    (∃ more, (⟨key,idx,value,more⟩ : Call) ∈ callsFrom prev index ps) ↔
      ∃ j, idx = (if prev = keyOrder key then index else 0)+j ∧ (valuesOf key ps)[j]? = some value := by
  induction ps generalizing prev index idx with
  | nil => simp [callsFrom,valuesOf]
  | cons p ps ih =>
    have rest := @ih ((if prev = p.order then index else 0)+1) p.order idx sorted.tail (.inr fun q member => sorted.head_le q member)
    simp only [callsFrom,mem_cons,exists_or,rest]
    by_cases same : p.order = keyOrder key
    · have own : key = p.key := same.symm
      rw [valuesOf_cons_same same,if_pos same,← same]
      constructor
      · rintro (⟨more,first⟩ | ⟨j,rfl,found⟩)
        · simp_all
        · exact ⟨j+1,by omega,found⟩
      · rintro ⟨j,rfl,found⟩
        cases j with
        | zero => exact .inl ⟨_,by rw [own,← some.inj found]; rfl⟩
        | succ j => exact .inr ⟨j,by omega,found⟩
    · have other : key ≠ p.key := fun own => same own.symm
      -- a key that has been passed does not come again
      have passed : (if prev = keyOrder key then index else 0) = 0 ∨ valuesOf key (p :: ps) = [] := by
        by_cases before : prev = keyOrder key
        · rw [if_pos before]
          refine least.imp_right fun least => valuesOf_behind sorted (lt_of_le_of_ne ?_ (Ne.symm same))
          exact before ▸ least p mem_cons_self
        · exact .inl (if_neg before)
      rw [valuesOf_cons_other same] at passed ⊢
      rw [if_neg same]
      constructor
      · grind
      · grind
/-- No key is called twice with one number. -/
theorem callsFrom_nodup (sorted : SortedBy Piece.order ps) : ((callsFrom prev index ps).map fun call => (call.field,call.idx)).Nodup := by
  induction ps generalizing prev index with
  | nil => exact nodup_nil
  | cons p ps ih =>
    rw [callsFrom,map_cons,nodup_cons]
    refine ⟨fun again => ?_,ih sorted.tail⟩
    obtain ⟨⟨field,idx,value,more⟩,member,same⟩ := mem_map.mp again
    obtain ⟨key,number⟩ := Prod.mk.inj same
    obtain ⟨j,later,-⟩ := (callsFrom_mem sorted.tail (.inr fun q member => sorted.head_le q member)).mp ⟨more,member⟩
    rw [if_pos (show p.order = keyOrder field from key.symm)] at later
    dsimp only at number
    omega
/-- The calls are for the values of the compound. -/
theorem callsOf_mem {key : Option CStr} {idx : Nat} {value : CStr} (readable : Readable ps) (sorted : SortedBy Piece.order ps) :
    (∃ more, (⟨key,idx,value,more⟩ : Call) ∈ callsOf ps) ↔ te_compound_extract (texts ps) key idx = some (some value) := by
  rw [(stores_texts readable sorted key).2 idx,some_inj,callsOf,callsFrom_mem sorted (.inl rfl),ite_self]
  simp
end

section
variable {ps : List Piece} {comp : CStr}

/-- The key that is generated for an item. -/
def itemName (key : Option CStr) (idx : Nat) : CStr := if key ≠ none ∧ idx = 0 then key.getD [] else key.getD [] ++ natText idx
/-- The keys and values of the object for items. -/
def entries (ps : List Piece) : List (CStr × CStr) := (callsOf ps).map fun call => (itemName call.field call.idx,call.value)

theorem compound_object_to_json_eq (call : Call) (ctx : TeJsonCtx) :
    compound_object_to_json call ctx = (TeJsonCtx.addPair ctx (itemName call.field call.idx,call.value)).map fun ctx => (.zero,ctx) := by
  obtain ⟨field,idx,value,more⟩ := call
  rw [compound_object_to_json,itemName]
  by_cases first : field ≠ none ∧ idx = 0
  · obtain ⟨key,rfl⟩ := ne_none_iff_exists'.mp first.1
    rw [if_pos first,if_pos first]
    rfl
  · rw [if_neg first,if_neg first]
    rfl
theorem itemName_starts (key : CStr) (idx : Nat) : key <+: itemName (some key) idx := by grind [itemName]
theorem natText_plain (n : Nat) : ∀ c ∈ natText n, Json.Plain c := by
  have all : ∀ c, isdigit c = true → Json.Plain c := by
    intro c digit
    rw [isdigit,and_eq_true,decide_eq_true_eq,decide_eq_true_eq,Char.le_def,UInt32.le_iff_toNat_le] at digit
    refine ⟨?_,?_,?_⟩
    · have low : 48 ≤ c.toNat := digit.1
      omega
    · rintro rfl
      exact absurd digit.1 (by decide)
    · rintro rfl
      exact absurd (Char.le_def.mp digit.2) (by decide)
  exact fun c member => all c (natText_digits n c member)
theorem itemName_plain {key : Option CStr} {idx : Nat} (plain : ∀ k, key = some k → ∀ c ∈ k, Json.Plain c) :
    ∀ c ∈ itemName key idx, Json.Plain c := by
  have own : ∀ c ∈ key.getD [], Json.Plain c := by
    cases key with
    | none => exact fun c member => absurd member not_mem_nil
    | some k => exact plain k rfl
  rw [itemName]
  split_ifs
  · exact own
  · exact fun c member => (mem_append.mp member).elim (own c) (natText_plain idx c)

/-- No two values get one name. -/
def DistinctNames (comp : CStr) : Prop :=
  ∀ key idx value key' idx' value', te_compound_extract comp key idx = some (some value) → te_compound_extract comp key' idx' = some (some value') →
    itemName key idx = itemName key' idx' → key = key' ∧ idx = idx'
/-- No key needs an escape in JSON. -/
def PlainKeys (comp : CStr) : Prop :=
  ∀ key idx value, te_compound_extract comp (some key) idx = some (some value) → ∀ c ∈ key, Json.Plain c

variable (readable : Readable ps) (sorted : SortedBy Piece.order ps)
include readable sorted
/-- The names of the entries differ where the names of the values do. -/
theorem entries_nodup : ((entries ps).map Prod.fst).Nodup ↔ DistinctNames (texts ps) := by
  have names : (entries ps).map Prod.fst = (callsOf ps).map fun call => itemName call.field call.idx := by
    rw [entries,map_map]
    rfl
  rw [names]
  constructor
  · intro nodup key idx value key' idx' value' found found' same
    obtain ⟨more,member⟩ := (callsOf_mem readable sorted).mpr found
    obtain ⟨more',member'⟩ := (callsOf_mem readable sorted).mpr found'
    have equal := List.inj_on_of_nodup_map nodup member member' same
    exact ⟨congrArg Call.field equal,congrArg Call.idx equal⟩
  · intro distinct
    have pairs : ((callsOf ps).map fun call => (call.field,call.idx)).Nodup := callsFrom_nodup sorted
    refine List.Nodup.map_on ?_ (List.Nodup.of_map _ pairs)
    rintro ⟨key,idx,value,more⟩ member ⟨key',idx',value',more'⟩ member' same
    have both := distinct key idx value key' idx' value' ((callsOf_mem readable sorted).mp ⟨more,member⟩)
      ((callsOf_mem readable sorted).mp ⟨more',member'⟩) same
    exact List.inj_on_of_nodup_map pairs member member' (Prod.ext both.1 both.2)
theorem entries_mem {key : Option CStr} {idx : Nat} {value : CStr}
    (found : te_compound_extract (texts ps) key idx = some (some value)) : (itemName key idx,value) ∈ entries ps := by
  obtain ⟨more,member⟩ := (callsOf_mem readable sorted).mpr found
  exact mem_map.mpr ⟨_,member,rfl⟩
theorem entries_plain : (∀ e ∈ entries ps, ∀ c ∈ e.1, Json.Plain c) ↔ PlainKeys (texts ps) := by
  constructor
  · intro plain key idx value found c member
    exact plain _ (entries_mem readable sorted found) c ((itemName_starts key idx).subset member)
  · intro plain e member
    obtain ⟨⟨key,idx,value,more⟩,called,rfl⟩ := mem_map.mp member
    refine itemName_plain fun k same => ?_
    obtain rfl : key = some k := same
    exact plain k idx value ((callsOf_mem readable sorted).mp ⟨more,called⟩)
end

section
variable {p : Piece} {ps : List Piece} {key : CStr}

theorem cString_texts (readable : Readable ps) : cString (texts ps) = texts ps := by
  refine List.takeWhile_eq_self_iff.mpr fun c member => ?_
  have zero := texts_no_zero readable
  simp only [ne_eq,decide_not,Bool.not_eq_true',decide_eq_false_iff_not]
  rintro rfl
  exact zero member
theorem item_sep_iff (clean : p.Clean) : TE_COMPOUND_ITEM_SEP ∈ p.text ↔ p.closed = true := by
  have value : TE_COMPOUND_ITEM_SEP ∉ p.value := fun member => (clean.value _ member).2.1 rfl
  have keyText : TE_COMPOUND_ITEM_SEP ∉ p.keyText := by
    cases keyed : p.key with
    | none => simp [Piece.keyText,keyed]
    | some k =>
      have inner : TE_COMPOUND_ITEM_SEP ∉ k := fun member => (clean.key k keyed _ member).2.1 rfl
      have sep : TE_COMPOUND_ITEM_SEP ≠ TE_COMPOUND_KEY_SEP := by decide
      simp [keyText_some keyed,inner,sep]
  rw [Piece.text,mem_append,mem_append]
  cases p.closed <;> simp [value,keyText]
theorem key_sep_iff (clean : p.Clean) : TE_COMPOUND_KEY_SEP ∈ p.text ↔ p.key ≠ none := by
  have value : TE_COMPOUND_KEY_SEP ∉ p.value := fun member => (clean.value _ member).2.2 rfl
  have closing : TE_COMPOUND_KEY_SEP ∉ (if p.closed then [TE_COMPOUND_ITEM_SEP] else []) := by cases p.closed <;> decide
  rw [Piece.text,mem_append,mem_append]
  cases keyed : p.key with
  | none => simp [Piece.keyText,keyed,value,closing]
  | some k => simp [keyText_some keyed]
theorem mem_texts {c : Char} : c ∈ texts ps ↔ ∃ p ∈ ps, c ∈ p.text := mem_flatMap
/-- Without a key separator no item has a key. -/
theorem unkeyed (readable : Readable ps) (without : TE_COMPOUND_KEY_SEP ∉ texts ps) : ∀ p ∈ ps, p.key = none := by
  intro p member
  by_contra keyed
  exact without (mem_texts.mpr ⟨p,member,(key_sep_iff (readable.clean p member)).mpr keyed⟩)
theorem unkeyed_text (closed : p.closed = false) (without : p.key = none) : p.text = p.value := by
  simp [Piece.text,Piece.keyText,closed,without]
theorem unkeyed_values (without : ∀ p ∈ ps, p.key = none) : valuesOf none ps = ps.map Piece.value ∧ ∀ k, valuesOf (some k) ps = [] := by
  constructor
  · rw [valuesOf,withKey_all fun p member => show p.order = keyOrder none from without p member]
  · intro k
    rw [valuesOf,withKey_none fun p member same => ?_,map_nil]
    have own : p.key = some k := same
    rw [without p member] at own
    cases own
end

section
open TeJsonCtx JsonFrame
variable {ps : List Piece} {ctx : TeJsonCtx}

/-- What an object is written as, whatever its keys. -/
theorem addPair_raw {n : Nat} (ctx : TeJsonCtx) (kind : ctx.level = ⟨.OBJECT,n⟩) (room : ctx.outer.length+1 < TE_JSON_MAX_NEST) (m : CStr × CStr) :
    addPair ctx m = some {ctx with
      level := ⟨.OBJECT,n+1⟩
      out := ctx.out ++ ((if 0 < n then [','] else []) ++
        Json.rawMember (m.1,te_string_generic_escape json_esc json_ctrl_char_escape m.2))} := by
  obtain ⟨level,outer,out⟩ := ctx
  dsimp only at kind room
  subst kind
  by_cases some' : 0 < n
  · simp [addPair,te_json_add_key,maybe_add_separator,append_to_json,te_json_add_string,te_json_start_string,push_json_level,room,
      te_json_append_string,te_json_end,closing,te_str_empty_if_null,Json.rawMember,some']
  · simp [addPair,te_json_add_key,maybe_add_separator,append_to_json,te_json_add_string,te_json_start_string,push_json_level,room,
      te_json_append_string,te_json_end,closing,te_str_empty_if_null,Json.rawMember,some']
/-- A key and a value as they are written. -/
def written (m : CStr × CStr) : CStr × CStr := (m.1,te_string_generic_escape json_esc json_ctrl_char_escape m.2)
theorem addPairs_raw {n : Nat} (ctx : TeJsonCtx) (kind : ctx.level = ⟨.OBJECT,n⟩) (some' : 0 < n) (room : ctx.outer.length+1 < TE_JSON_MAX_NEST)
    (ms : List (CStr × CStr)) : ms.foldlM addPair ctx =
      some {ctx with level := ⟨.OBJECT,n+ms.length⟩,out := ctx.out ++ Json.rawTail (ms.map written)} := by
  induction ms generalizing ctx n with
  | nil =>
    obtain ⟨level,outer,out⟩ := ctx
    obtain rfl : level = ⟨.OBJECT,n⟩ := kind
    simp [Json.rawTail]
  | cons m ms ih =>
    have rest := @ih (n+1) {ctx with
      level := ⟨.OBJECT,n+1⟩
      out := ctx.out ++ ([','] ++ Json.rawMember (written m))} rfl (by omega) room
    rw [foldlM_cons,addPair_raw ctx kind room,if_pos some']
    refine rest.trans ?_
    rw [length_cons,map_cons,Json.rawTail,Json.rawTail,flatMap_cons]
    congr 2
    · rw [Nat.add_right_comm,Nat.add_assoc]
    · simp
/-- The text of an object at the start of a text. -/
theorem object_raw (m : CStr × CStr) (ms : List (CStr × CStr)) :
    ((TE_JSON_INIT.te_json_start_object.bind fun ctx => (m :: ms).foldlM addPair ctx).bind te_json_end).map TeJsonCtx.out =
      some ('\x7b' :: (Json.rawMember (written m) ++ Json.rawTail (ms.map written)) ++ ['\x7d']) := by
  have started : TE_JSON_INIT.te_json_start_object = some ⟨⟨.OBJECT,0⟩,[⟨.TOPLEVEL,1⟩],['\x7b']⟩ := rfl
  rw [started,bind_some,foldlM_cons,addPair_raw _ rfl (by decide)]
  have rest := addPairs_raw ⟨⟨.OBJECT,1⟩,[⟨.TOPLEVEL,1⟩],['\x7b'] ++ ([] ++ Json.rawMember (written m))⟩ rfl (by decide) (show 1+1 < TE_JSON_MAX_NEST by decide) ms
  show ((ms.foldlM addPair _).bind te_json_end).map TeJsonCtx.out = _
  refine (congrArg (fun result => (Option.bind result te_json_end).map TeJsonCtx.out) rest).trans ?_
  simp [te_json_end,closing,append_to_json]

/-- The kind of a compound by what it consists of. -/
theorem classify_texts (readable : Readable ps) : te_compound_classify (texts ps) =
    if texts ps = [] then .NULL else if TE_COMPOUND_ITEM_SEP ∉ texts ps then .PLAIN
    else if TE_COMPOUND_KEY_SEP ∉ texts ps then .ARRAY else .OBJECT := by
  rw [te_compound_classify,cString_texts readable]
  simp only [strchr_none]
/-- The strings of an array are added one after another. -/
theorem array_calls (without : ∀ p ∈ ps, p.key = none) (prev : Key) (index : Nat) (ctx : TeJsonCtx) :
    (callsFrom prev index ps).foldlM (fun ctx call => if call.field = none then ctx.te_json_add_string call.value else none) ctx =
      ((ps.map Piece.value).map some).foldlM (addStr true) ctx := by
  induction ps generalizing prev index ctx with
  | nil => rfl
  | cons p ps ih =>
    obtain ⟨here,others⟩ := forall_mem_cons.mp without
    rw [callsFrom,foldlM_cons,map_cons,map_cons,foldlM_cons]
    dsimp only
    rw [if_pos here]
    refine congrArg (Option.bind (ctx.te_json_add_string p.value)) (funext fun ctx => ?_)
    exact ih others _ _ ctx
theorem json_array (readable : Readable ps) (more : ps ≠ []) (without : ∀ p ∈ ps, p.key = none) (kind : te_compound_classify (texts ps) = .ARRAY) :
    te_json_add_compound (texts ps) ctx = ctx.te_json_add_array_str true ((ps.map Piece.value).map some) := by
  rw [te_json_add_compound,kind,te_json_add_array_str]
  refine congrArg (Option.bind ctx.te_json_start_array) (funext fun inner => ?_)
  rw [← array_calls without (keyOrder (some [])) 0]
  have visited := @iterate_spec ps _ compound_array_to_json (fun ctx call => if call.field = none then ctx.te_json_add_string call.value else none)
    (fun call ctx => by rw [compound_array_to_json]; split_ifs <;> rfl) readable more inner
  show (te_compound_iterate (texts ps) compound_array_to_json inner).bind (fun result => result.2.te_json_end) = _
  rw [visited,Option.bind_map]
  rfl
theorem json_object (readable : Readable ps) (more : ps ≠ []) (kind : te_compound_classify (texts ps) = .OBJECT) :
    te_json_add_compound (texts ps) ctx = (ctx.te_json_start_object.bind fun ctx => (entries ps).foldlM addPair ctx).bind te_json_end := by
  rw [te_json_add_compound,kind,Option.bind_assoc]
  refine congrArg (Option.bind ctx.te_json_start_object) (funext fun inner => ?_)
  have visited := iterate_spec (fun call ctx => compound_object_to_json_eq call ctx) readable more inner
  show (te_compound_iterate (texts ps) compound_object_to_json inner).bind (fun result => result.2.te_json_end) = _
  rw [visited,Option.bind_map,entries,List.foldlM_map]
  rfl
end

section
open TeJsonCtx JsonFrame
variable {ps : List Piece} {comp : CStr}

/-- What the serialized compound is to be: null for an empty one, without keys a string or the array of the
values, and otherwise an object without duplicate keys that has every value under its name. -/
inductive JsonOf (comp : CStr) : Json.Value → Prop
  | null : comp = [] → JsonOf comp .null
  | plain {value : CStr} : TE_COMPOUND_KEY_SEP ∉ comp → Stores comp none [value] → JsonOf comp (.string value)
  | array {values : List CStr} : TE_COMPOUND_KEY_SEP ∉ comp → Stores comp none values → JsonOf comp (.array (values.map .string))
  | object {ps : List Piece} : TE_COMPOUND_KEY_SEP ∈ comp → comp = texts ps → Readable ps → SortedBy Piece.order ps →
      ((entries ps).map Prod.fst).Nodup →
      (∀ key idx value, te_compound_extract comp key idx = some (some value) → (itemName key idx,value) ∈ entries ps) →
      JsonOf comp (.object ((entries ps).map fun e => (e.1,.string e.2)))
/-- Wherever a value may be written, the compound is written as such a value. -/
def JsonRight (comp : CStr) : Prop :=
  ∃ v, JsonOf comp v ∧ ∀ (f f' : JsonFrame) (frames : List JsonFrame) (ctx : TeJsonCtx), Emitted f frames ctx → f.add v = some f' →
    frames.length+2 < TE_JSON_MAX_NEST → ∃ after, te_json_add_compound comp ctx = some after ∧ Emitted f' frames after
/-- The generated names differ, no key needs an escape, and an item with a key has its separator behind it. -/
def JsonFits (comp : CStr) : Prop :=
  DistinctNames comp ∧ PlainKeys comp ∧ (TE_COMPOUND_KEY_SEP ∈ comp → TE_COMPOUND_ITEM_SEP ∈ comp)

/-- The numbers of items without keys differ. -/
theorem unkeyed_fits (readable : Readable ps) (sorted : SortedBy Piece.order ps) (without : TE_COMPOUND_KEY_SEP ∉ texts ps) : JsonFits (texts ps) := by
  have none' : ∀ k idx value, te_compound_extract (texts ps) (some k) idx ≠ some (some value) := by
    intro k idx value found
    rw [(stores_texts readable sorted (some k)).2 idx,(unkeyed_values (unkeyed readable without)).2 k] at found
    cases some.inj found
  refine ⟨fun key idx value key' idx' value' found found' same => ?_,fun key idx value found => absurd found (none' key idx value),
    fun keyed => absurd keyed without⟩
  cases key with
  | some k => exact absurd found (none' k idx value)
  | none =>
    cases key' with
    | some k => exact absurd found' (none' k idx' value')
    | none =>
      rw [itemName,itemName,if_neg (fun h => h.1 rfl),if_neg (fun h => h.1 rfl)] at same
      have number := congrArg digitsNumber (append_cancel_left same)
      rw [natText_number,natText_number] at number
      exact ⟨rfl,number⟩
/-- What is written at the start of a text is a text of the value. -/
theorem JsonRight.text {v : Json.Value} (right : ∀ (f f' : JsonFrame) (frames : List JsonFrame) (ctx : TeJsonCtx), Emitted f frames ctx →
    f.add v = some f' → frames.length+2 < TE_JSON_MAX_NEST → ∃ after, te_json_add_compound comp ctx = some after ∧ Emitted f' frames after) :
    ∃ text, (te_json_add_compound comp TE_JSON_INIT).map TeJsonCtx.out = some text ∧ Json.Padded v text := by
  obtain ⟨⟨level,outer,out⟩,ran,emitted⟩ := right (.top []) (.top [v]) [] TE_JSON_INIT
    ⟨[],[],rfl,⟨rfl,.inl ⟨rfl,rfl⟩⟩,.nil⟩ rfl (by decide)
  obtain ⟨before,t,whole,⟨-,items⟩,waiting⟩ := emitted.text
  cases waiting
  obtain ⟨no,-⟩ | items := items
  · cases no
  · exact ⟨out,by rw [ran]; rfl,by rw [show out = [] ++ t from whole]; exact items.single⟩
theorem compound_json_fits (valid : te_compound_validate comp = some true) (right : JsonRight comp) : JsonFits comp := by
  obtain ⟨ps',whole,readable',sorted',complete⟩ := validate_pieces valid
  obtain ⟨v,json,runs⟩ := right
  obtain ⟨text,ran,padded⟩ := JsonRight.text runs
  cases json with
  | null empty => grind [unkeyed_fits]
  | plain without | array without =>
    subst whole
    exact unkeyed_fits readable' sorted' without
  | @object ps keyed same readable sorted nodup _ =>
    subst same
    have more : ps ≠ [] := by
      rintro rfl
      exact absurd keyed not_mem_nil
    have some' : texts ps ≠ [] := fun none' => more (texts_eq_nil readable none')
    have separated : TE_COMPOUND_ITEM_SEP ∈ texts ps := by
      by_contra without
      have kind := classify_texts readable
      rw [if_neg some',if_pos without] at kind
      rw [te_json_add_compound,kind] at ran
      obtain rfl := some.inj ran
      exact absurd (padded.brace (by decide)) (by decide)
    have kind := classify_texts readable
    rw [if_neg some',if_neg (not_not.mpr separated),if_neg (not_not.mpr keyed)] at kind
    refine ⟨(entries_nodup readable sorted).mp nodup,(entries_plain readable sorted).mp ?_,fun _ => separated⟩
    rw [json_object readable more kind] at ran
    obtain ⟨m,ms,listed⟩ : ∃ m ms, entries ps = m :: ms := exists_cons_of_ne_nil (by
      obtain ⟨p,rest,rfl⟩ := exists_cons_of_ne_nil more
      exact cons_ne_nil _ _)
    rw [listed,object_raw] at ran
    obtain rfl := some.inj ran
    rw [listed] at padded ⊢
    have members := padded.members
    have plain := @Json.Members.raw_plain (m.1,m.2,(written m).2) (ms.map fun m => (m.1,m.2,(written m).2))
      (by
        rw [← map_cons (f := fun m : CStr × CStr => (m.1,m.2,(written m).2))]
        exact List.forall_mem_map.mpr fun m _ => escaped_chars m.2)
      (by
        simp only [map_cons,map_map]
        exact members)
    intro e member
    exact plain (e.1,e.2,(written e).2) (by
      rw [← map_cons (f := fun m : CStr × CStr => (m.1,m.2,(written m).2))]
      exact mem_map_of_mem member)
theorem fits_compound_json (valid : te_compound_validate comp = some true) (fits : JsonFits comp) : JsonRight comp := by
  obtain ⟨ps,rfl,readable,sorted,complete⟩ := validate_pieces valid
  obtain ⟨distinct,plain,separated⟩ := fits
  have kind := classify_texts readable
  by_cases empty : texts ps = []
  · rw [if_pos empty] at kind
    refine ⟨.null,.null empty,fun f f' frames ctx emitted added room => ⟨_,?_,emitted.add_null added⟩⟩
    rw [te_json_add_compound,kind]
  rw [if_neg empty] at kind
  have more : ps ≠ [] := by
    rintro rfl
    exact empty rfl
  by_cases open' : TE_COMPOUND_ITEM_SEP ∉ texts ps
  · -- a single item that is not closed
    rw [if_pos open'] at kind
    have without : TE_COMPOUND_KEY_SEP ∉ texts ps := fun keyed => open' (separated keyed)
    have opened : ∀ p ∈ ps, p.closed = false := by
      intro p member
      by_contra closed
      exact open' (mem_texts.mpr ⟨p,member,(item_sep_iff (readable.clean p member)).mpr (Bool.eq_true_of_not_eq_false closed)⟩)
    obtain ⟨p,rfl⟩ : ∃ p, ps = [p] := by
      obtain closed | few := complete
      · obtain ⟨p,rest,rfl⟩ := exists_cons_of_ne_nil more
        exact absurd ((closed p mem_cons_self).symm.trans (opened p mem_cons_self)) (by decide)
      · exact List.length_eq_one_iff.mp (le_antisymm few (length_pos_iff.mpr more))
    have nokey := unkeyed readable without
    have text : texts [p] = p.value := by simp [opened,nokey,unkeyed_text]
    have stores := stores_texts readable sorted none
    rw [(unkeyed_values nokey).1] at stores
    refine ⟨.string p.value,.plain without stores,fun f f' frames ctx emitted added room => ?_⟩
    obtain ⟨after,ran,emitted⟩ := emitted.add_string added (by omega)
    refine ⟨after,?_,emitted⟩
    rw [te_json_add_compound,kind]
    show ctx.te_json_add_string (cString (texts [p])) = some after
    rw [cString_texts readable,text,ran]
  rw [if_neg open'] at kind
  by_cases without : TE_COMPOUND_KEY_SEP ∉ texts ps
  · rw [if_pos without] at kind
    have nokey := unkeyed readable without
    have stores := stores_texts readable sorted none
    rw [(unkeyed_values nokey).1] at stores
    refine ⟨.array ((ps.map Piece.value).map .string),.array without stores,fun f f' frames ctx emitted added room => ?_⟩
    have items : strsItems true ((ps.map Piece.value).map some) = (ps.map Piece.value).map Json.Value.string := by
      rw [strsItems,List.filter_eq_self.mpr (fun str member => by obtain ⟨s,-,rfl⟩ := mem_map.mp member; rfl),map_map]
      rfl
    obtain ⟨after,ran,emitted⟩ := @Emitted.add_array_str f f' frames ctx true _ emitted (by rw [items]; exact added) (by omega) (fun _ => room)
    exact ⟨after,by rw [json_array readable more nokey kind,ran],emitted⟩
  · rw [if_neg without] at kind
    have keyed := not_not.mp without
    refine ⟨_,.object keyed rfl readable sorted ((entries_nodup readable sorted).mpr distinct)
      (fun key idx value found => entries_mem readable sorted found),fun f f' frames ctx emitted added room => ?_⟩
    obtain ⟨first,started,emitted⟩ := emitted.start_object added (by omega)
    obtain ⟨second,listed,emitted⟩ := emitted.pairs ((entries_plain readable sorted).mpr plain) (fun _ => by rw [length_cons]; omega)
    obtain ⟨after,ended,emitted⟩ := emitted.finish (.object _) added
    refine ⟨after,?_,emitted⟩
    rw [json_object readable more kind,started,bind_some,listed,bind_some,ended]
/-- A well-formed compound becomes what it is to be exactly where its names fit. -/
theorem compound_json_iff (valid : te_compound_validate comp = some true) : JsonRight comp ↔ JsonFits comp :=
  ⟨compound_json_fits valid,fits_compound_json valid⟩
/-- Two values of `k`: the keys are "k" and "k1". -/
theorem compound_json_iff_two : JsonRight "k\x1fv\x1ek\x1fw\x1e".toList := by
  have clean : ∀ v, Plain v → (⟨some ['k'],[v],true⟩ : Piece).Clean := fun v plain =>
    ⟨fun key same => by obtain rfl := some.inj same; simp [Plain,TE_COMPOUND_ITEM_SEP,TE_COMPOUND_KEY_SEP],forall_mem_singleton.mpr plain⟩
  have readable : Readable [⟨some ['k'],['v'],true⟩,⟨some ['k'],['w'],true⟩] :=
    ⟨clean 'v' (by simp [Plain,TE_COMPOUND_ITEM_SEP,TE_COMPOUND_KEY_SEP]),by decide,.inl rfl,
      clean 'w' (by simp [Plain,TE_COMPOUND_ITEM_SEP,TE_COMPOUND_KEY_SEP]),by decide,.inl rfl,trivial⟩
  have sorted : SortedBy Piece.order [⟨some ['k'],['v'],true⟩,⟨some ['k'],['w'],true⟩] :=
    pairwise_cons.mpr ⟨by simp [Piece.order],pairwise_singleton _ _⟩
  refine (compound_json_iff (by decide)).mpr ⟨(entries_nodup readable sorted).mp (by decide),(entries_plain readable sorted).mp ?_,by decide⟩
  have listed : entries [⟨some ['k'],['v'],true⟩,⟨some ['k'],['w'],true⟩] = [(['k'],['v']),(['k','1'],['w'])] := by decide
  rw [listed]
  simp [Json.Plain]
/-- Two values of `a` and one of `a1`: the key "a1" comes twice. -/
theorem generated_key_twice : ¬ ∀ comp, te_compound_validate comp = some true → JsonRight comp := by
  intro all
  have right := all "a\x1fx\x1ea\x1fy\x1ea1\x1fz\x1e".toList (by decide)
  obtain ⟨distinct,-,-⟩ := compound_json_fits (by decide) right
  have both := distinct (some ['a']) 1 ['y'] (some ['a','1']) 0 ['z'] (by decide) (by decide) (by decide)
  exact absurd both.2 (by decide)
end
end TestEnvironment.Tools
