import TestEnvironment.Tools.TeJson
import TestEnvironment.Lib.Json

/-!
What the calls of the JSON interface build, level by level, and that the text written so far is at
every moment a text of it: each level holds its own part behind the part of the level below, which
waits for the value.
-/
namespace TestEnvironment.Tools
open Lib Lib.Json

/-- What a level has collected. -/
inductive JsonFrame
  | top (items : List Value)
  | array (items : List Value)
  | object (members : List (CStr × Value))
  | member (members : List (CStr × Value)) (key : CStr)
  | string (s : CStr)
  | raw (text : CStr)

namespace JsonFrame
/-- A value may come where values are listed and behind a key. -/
def add (v : Value) : JsonFrame → Option JsonFrame
  | top items => some (top (items ++ [v]))
  | array items => some (array (items ++ [v]))
  | object _ => none
  | member members key => some (object (members ++ [(key,v)]))
  | string _ => none
  | raw _ => none
/-- The value that a level becomes at its end. -/
inductive Closed : JsonFrame → Value → Prop
  | array (items : List Value) : Closed (.array items) (.array items)
  | object (members : List (CStr × Value)) : Closed (.object members) (.object members)
  | string (s : CStr) : Closed (.string s) (.string s)
  | raw {v : Value} {text : CStr} : Padded v text → Closed (.raw text) v

/-- A level and the text written since its start. -/
def Holds (level : TeJsonLevel) (t : CStr) : JsonFrame → Prop
  | top items => level = ⟨.TOPLEVEL,items.length⟩ ∧ SomeItems items t
  | array items => level = ⟨.ARRAY,items.length⟩ ∧ ∃ u, t = '[' :: u ∧ SomeItems items u
  | object members => level = ⟨.OBJECT,members.length⟩ ∧ ∃ u, t = '\x7b' :: u ∧ SomeMembers members u
  | member members key => level = ⟨.OBJECT_VALUE,members.length+1⟩ ∧ (∀ c ∈ key, Plain c) ∧
      ∃ u, t = '\x7b' :: u ++ comma members ++ '"' :: key ++ ['"',':'] ∧ SomeMembers members u
  | string s => level = ⟨.STRING,0⟩ ∧ ∃ u, t = '"' :: u ∧ Chars s u
  | raw text => level = ⟨.RAW,0⟩ ∧ t = text
/-- The level waits for a value: a text of any value completes it. -/
def Waits (level : TeJsonLevel) (t : CStr) (f : JsonFrame) : Prop :=
  ∀ v f' u, f.add v = some f' → Padded v u → f'.Holds level (t ++ u)
end JsonFrame
open JsonFrame

/-- The levels below the current one, the innermost first, and the text up to it. -/
inductive Waiting : List JsonFrame → List TeJsonLevel → CStr → Prop
  | nil : Waiting [] [] []
  | cons {f : JsonFrame} {frames : List JsonFrame} {level : TeJsonLevel} {levels : List TeJsonLevel} {t before : CStr} :
      f.Waits level t → Waiting frames levels before → Waiting (f :: frames) (level :: levels) (before ++ t)
/-- The frames are what the context has written. -/
structure Emitted (f : JsonFrame) (frames : List JsonFrame) (ctx : TeJsonCtx) : Prop where
  text : ∃ before t, ctx.out = before ++ t ∧ f.Holds ctx.level t ∧ Waiting frames ctx.outer before
/-- As `Emitted`, with the current level ready for a value. -/
structure Ready (f : JsonFrame) (frames : List JsonFrame) (ctx : TeJsonCtx) : Prop where
  text : ∃ before t, ctx.out = before ++ t ∧ f.Waits ctx.level t ∧ Waiting frames ctx.outer before

section
variable {f f' : JsonFrame} {frames : List JsonFrame} {ctx : TeJsonCtx} {v : Value} {level : TeJsonLevel} {t u : CStr}

theorem Waiting.length {levels : List TeJsonLevel} {before : CStr} (waiting : Waiting frames levels before) :
    levels.length = frames.length := by
  induction waiting with
  | nil => rfl
  | cons _ _ ih => rw [length_cons,length_cons,ih]

theorem maybe_add_separator_eq (ctx : TeJsonCtx) : ∃ level text, ctx.maybe_add_separator =
    { ctx with level, out := ctx.out ++ text } ∧
    (ctx.level.kind = .OBJECT_VALUE → level = ⟨.OBJECT,ctx.level.n_items⟩ ∧ text = []) ∧
    (ctx.level.kind ≠ .OBJECT_VALUE → level = ⟨ctx.level.kind,ctx.level.n_items+1⟩ ∧
      text = if 0 < ctx.level.n_items then [','] else []) := by
  rw [TeJsonCtx.maybe_add_separator]
  by_cases value : ctx.level.kind = .OBJECT_VALUE
  · simp_all
  · rw [if_neg value]
    refine ⟨_,_,?_,fun same => absurd same value,fun _ => ⟨rfl,rfl⟩⟩
    by_cases some_before : 0 < ctx.level.n_items
    · rw [if_pos some_before,if_pos some_before]
      rfl
    · rw [if_neg some_before,if_neg some_before,append_nil]
theorem comma_eq {α : Type} (before : List α) : (if 0 < before.length then [','] else []) = comma before := by
  cases before with
  | nil => rfl
  | cons => exact if_pos (Nat.succ_pos _)

/-- After the separator the level waits for a value. -/
theorem Emitted.separated (emitted : Emitted f frames ctx) (takes : f.add v = some f') : Ready f frames ctx.maybe_add_separator := by
  obtain ⟨before,t,whole,holds,waiting⟩ := emitted.text
  obtain ⟨level,text,after,in_value,in_list⟩ := maybe_add_separator_eq ctx
  rw [after]
  refine ⟨before,t ++ text,by rw [whole,append_assoc],?_,waiting⟩
  rintro w g u added padded
  cases f with
  | top items =>
    obtain ⟨here,some_items⟩ := holds
    rw [here] at in_list
    obtain ⟨rfl,rfl⟩ := in_list (by simp)
    obtain rfl := some.inj added
    refine ⟨by rw [length_append]; rfl,?_⟩
    rw [comma_eq]
    exact some_items.snoc padded
  | array items =>
    obtain ⟨here,s,rfl,some_items⟩ := holds
    rw [here] at in_list
    obtain ⟨rfl,rfl⟩ := in_list (by simp)
    obtain rfl := some.inj added
    refine ⟨by rw [length_append]; rfl,_,?_,some_items.snoc padded⟩
    rw [comma_eq,cons_append,cons_append]
  | member members key =>
    obtain ⟨here,plain,s,rfl,some_members⟩ := holds
    rw [here] at in_value
    obtain ⟨rfl,rfl⟩ := in_value rfl
    obtain rfl := some.inj added
    refine ⟨by rw [length_append]; rfl,_,?_,some_members.snoc (.plain plain padded)⟩
    simp only [append_nil,cons_append,append_assoc,nil_append]
  | object => cases takes
  | string => cases takes
  | raw => cases takes

/-- A text of the value completes what waits for it. -/
theorem Ready.value (ready : Ready f frames ctx) (added : f.add v = some f') (padded : Padded v u) :
    Emitted f' frames (ctx.append_to_json u) := by
  obtain ⟨before,t,whole,waits,waiting⟩ := ready.text
  refine ⟨before,t ++ u,?_,waits v f' u added padded,waiting⟩
  rw [TeJsonCtx.append_to_json,whole,append_assoc]
theorem Emitted.simple (emitted : Emitted f frames ctx) (added : f.add v = some f') (padded : Padded v u) :
    Emitted f' frames (ctx.te_json_add_simple u) := (emitted.separated added).value added padded

variable {g : JsonFrame}

/-- A new level keeps the text behind it waiting. -/
theorem Ready.push (ready : Ready f frames ctx) (room : frames.length+1 < TE_JSON_MAX_NEST) (kind : TeJsonCompound) (text : CStr)
    (holds : g.Holds ⟨kind,0⟩ text) :
    ∃ inner, ctx.push_json_level kind = some inner ∧ Emitted g (f :: frames) (inner.append_to_json text) := by
  obtain ⟨before,t,whole,waits,waiting⟩ := ready.text
  refine ⟨_,if_pos (by rw [waiting.length]; exact room),before ++ t,text,?_,holds,.cons waits waiting⟩
  rw [TeJsonCtx.append_to_json,whole]
/-- The end of a level hands its value to the level below. -/
theorem Emitted.finish (emitted : Emitted g (f :: frames) ctx) (closed : g.Closed v) (added : f.add v = some f') :
    ∃ after, ctx.te_json_end = some after ∧ Emitted f' frames after := by
  obtain ⟨before,t,whole,holds,waiting⟩ := emitted.text
  have completed : ∃ text, TeJsonCtx.closing ctx.level.kind = some text ∧ Padded v (t ++ text) := by
    cases closed with
    | array =>
      obtain ⟨here,u,rfl,some_items⟩ := holds
      exact ⟨[']'],by rw [here]; rfl,some_items.array.padded⟩
    | object =>
      obtain ⟨here,u,rfl,some_members⟩ := holds
      exact ⟨['\x7d'],by rw [here]; rfl,some_members.object.padded⟩
    | string =>
      obtain ⟨here,u,rfl,chars⟩ := holds
      exact ⟨['"'],by rw [here]; rfl,(Text.string chars).padded⟩
    | raw padded =>
      obtain ⟨here,rfl⟩ := holds
      exact ⟨[],by rw [here]; rfl,by rwa [append_nil]⟩
  obtain ⟨text,closing,padded⟩ := completed
  obtain ⟨level,outer,out⟩ := ctx
  cases waiting with
  | @cons _ _ level' levels t' before' waits rest =>
    refine ⟨⟨level',levels,out ++ text⟩,?_,before',t' ++ (t ++ text),?_,waits v f' _ added padded,rest⟩
    · rw [TeJsonCtx.te_json_end,closing]
      rfl
    · grind
end

section
open TeJsonCtx

theorem hexValue_digitChar {n : Nat} (low : n < 16) : hexValue n.digitChar = some n := by
  have all : ∀ k, k < 16 → hexValue k.digitChar = some k := by decide
  exact all n low
/-- The four digits of a control character make its code. -/
theorem ctrl_unit {c : Char} (low : c.toNat < 0x80) : Unit16 ['0','0',(c.toNat/16%16).digitChar,(c.toNat%16).digitChar] c.toNat := by
  refine ⟨_,_,_,_,0,0,c.toNat/16%16,c.toNat%16,rfl,by decide,by decide,?_,?_,by omega⟩
  · exact hexValue_digitChar (mod_lt _ (by decide))
  · exact hexValue_digitChar (mod_lt _ (by decide))
theorem utf8_ascii {c : Char} (low : c.toNat < 0x80) : utf8 c.toNat = [c] := by
  rw [utf8,if_pos low,Char.ofNat_toNat]
theorem json_esc_escape {c : Char} {text : CStr} (escaped : json_esc c = some text) : ∃ e, text = ['\\',e] ∧ Escape c e := by
  rw [json_esc] at escaped
  split_ifs at escaped with backslash quote slash b f n r t <;> obtain rfl := some.inj escaped
  · exact ⟨_,rfl,backslash ▸ .backslash⟩
  · exact ⟨_,rfl,quote ▸ .quote⟩
  · exact ⟨_,rfl,slash ▸ .slash⟩
  · exact ⟨_,rfl,b ▸ .b⟩
  · exact ⟨_,rfl,f ▸ .f⟩
  · exact ⟨_,rfl,n ▸ .n⟩
  · exact ⟨_,rfl,r ▸ .r⟩
  · exact ⟨_,rfl,t ▸ .t⟩
/-- Whatever the bytes, their escaped form stands for them. -/
theorem escaped_chars (s : CStr) : Chars s (te_string_generic_escape json_esc json_ctrl_char_escape s) := by
  induction s with
  | nil => exact .nil
  | cons c s ih =>
    rw [te_string_generic_escape]
    rcases table : json_esc c with _ | text
    · by_cases control : iscntrl c = true
      · have low : c.toNat < 0x80 := by
          simp only [iscntrl,or_eq_true,decide_eq_true_eq] at control
          omega
        have single : ¬Surrogate c.toNat := by
          rw [Surrogate]
          omega
        have whole := Chars.unit (ctrl_unit low) single ih
        rw [utf8_ascii low] at whole
        simp only [control,if_true]
        exact whole
      · simp only [if_neg control]
        refine .plain ⟨?_,?_,?_⟩ ih
        · simp_all [iscntrl]
        · rintro rfl
          revert table
          decide
        · rintro rfl
          revert table
          decide
    · obtain ⟨e,rfl,escape⟩ := json_esc_escape table
      exact .escape escape ih

variable {f f' : JsonFrame} {frames : List JsonFrame} {ctx : TeJsonCtx} {s : CStr}

theorem Emitted.append_string (emitted : Emitted (.string s) frames ctx) (more : CStr) :
    ∃ after, ctx.te_json_append_string more = some after ∧ Emitted (.string (s ++ more)) frames after := by
  obtain ⟨before,t,whole,⟨here,u,rfl,chars⟩,waiting⟩ := emitted.text
  refine ⟨_,if_pos (by rw [here]),before,_,?_,⟨here,_,rfl,chars.append (escaped_chars more)⟩,waiting⟩
  rw [append_to_json,whole]
  simp only [append_assoc,cons_append]
theorem Emitted.append_raw (emitted : Emitted (.raw s) frames ctx) (value : CStr) (len : Nat) :
    ∃ after, ctx.te_json_append_raw value len = some after ∧
      Emitted (.raw (s ++ if len = 0 then value else printPrefix len value)) frames after := by
  obtain ⟨before,t,whole,⟨here,rfl⟩,waiting⟩ := emitted.text
  refine ⟨_,if_pos (by rw [here]),before,_,?_,⟨here,rfl⟩,waiting⟩
  rw [append_to_json,whole,append_assoc]

section
variable (emitted : Emitted f frames ctx)
include emitted
section
variable {v : Value} (added : f.add v = some f') (room : frames.length+1 < TE_JSON_MAX_NEST)
include added room
theorem Emitted.start_string :
    ∃ after, ctx.te_json_start_string = some after ∧ Emitted (.string []) (f :: frames) after := by
  obtain ⟨inner,pushed,started⟩ := (emitted.separated added).push room .STRING ['"'] (g := .string []) ⟨rfl,[],rfl,.nil⟩
  refine ⟨_,?_,started⟩
  rw [te_json_start_string,pushed]
  rfl
theorem Emitted.start_array :
    ∃ after, ctx.te_json_start_array = some after ∧ Emitted (.array []) (f :: frames) after := by
  obtain ⟨inner,pushed,started⟩ := (emitted.separated added).push room .ARRAY ['['] (g := .array []) ⟨rfl,[],rfl,.inl ⟨rfl,rfl⟩⟩
  refine ⟨_,?_,started⟩
  rw [te_json_start_array,pushed]
  rfl
theorem Emitted.start_object :
    ∃ after, ctx.te_json_start_object = some after ∧ Emitted (.object []) (f :: frames) after := by
  obtain ⟨inner,pushed,started⟩ := (emitted.separated added).push room .OBJECT ['\x7b'] (g := .object [])
    ⟨rfl,[],rfl,.inl ⟨rfl,rfl⟩⟩
  refine ⟨_,?_,started⟩
  rw [te_json_start_object,pushed]
  rfl
theorem Emitted.start_raw :
    ∃ after, ctx.te_json_start_raw = some after ∧ Emitted (.raw []) (f :: frames) after := by
  obtain ⟨inner,pushed,started⟩ := (emitted.separated added).push room .RAW [] (g := .raw []) ⟨rfl,rfl⟩
  refine ⟨inner,pushed,?_⟩
  rwa [append_to_json,append_nil] at started
end
theorem Emitted.add_string (added : f.add (.string s) = some f') (room : frames.length+1 < TE_JSON_MAX_NEST) :
    ∃ after, ctx.te_json_add_string s = some after ∧ Emitted f' frames after := by
  obtain ⟨first,started,emitted⟩ := emitted.start_string added room
  obtain ⟨second,appended,emitted⟩ := emitted.append_string s
  obtain ⟨after,ended,emitted⟩ := emitted.finish (.string s) added
  refine ⟨after,?_,emitted⟩
  rw [te_json_add_string,started]
  show (first.te_json_append_string s).bind _ = _
  rw [appended]
  exact ended
end

variable {members : List (CStr × Value)}
variable {key : Option CStr}

variable (emitted : Emitted (.object members) frames ctx) (plain : ∀ c ∈ te_str_empty_if_null key, Plain c)
include emitted plain
/-- A key goes behind the comma that the members before it need. -/
theorem Emitted.add_key :
    ∃ after, ctx.te_json_add_key key = some after ∧ Emitted (.member members (te_str_empty_if_null key)) frames after := by
  obtain ⟨before,t,whole,⟨here,u,rfl,some_members⟩,waiting⟩ := emitted.text
  obtain ⟨level,text,separated,-,in_list⟩ := maybe_add_separator_eq ctx
  rw [here] at in_list
  obtain ⟨rfl,rfl⟩ := in_list (by simp)
  refine ⟨_,if_pos (by rw [here]),?_⟩
  rw [separated,comma_eq]
  refine ⟨before,_,?_,⟨rfl,plain,u,rfl,some_members⟩,waiting⟩
  rw [append_to_json,whole]
  simp only [append_assoc,cons_append]
theorem Emitted.add_key_str (room : frames.length+1 < TE_JSON_MAX_NEST) :
    ∃ after, ctx.te_json_add_key_str key (some s) = some after ∧
      Emitted (.object (members ++ [(te_str_empty_if_null key,.string s)])) frames after := by
  obtain ⟨first,keyed,emitted⟩ := emitted.add_key plain
  obtain ⟨after,added,emitted⟩ := emitted.add_string (s := s) rfl room
  refine ⟨after,?_,emitted⟩
  rw [te_json_add_key_str,keyed]
  exact added
end

section
theorem isdigit_iff {c : Char} : isdigit c = true ↔ IsDigit c := by simp [isdigit,IsDigit]
theorem natText_int (n : Nat) : IntPart (natText n) := by
  by_cases zero : n = 0
  · rw [zero]
    exact .inl (by decide)
  · obtain ⟨d,ds,digits,first,last⟩ := natText_first (Nat.pos_of_ne_zero zero)
    refine .inr ⟨d,ds,digits,first,last,fun c member => isdigit_iff.mp (natText_digits n c ?_)⟩
    rw [digits]
    exact mem_cons_of_mem d member
theorem intText_number (z : Int) : Number (intText z) := by
  rw [intText]
  split_ifs with negative
  · exact ⟨['-'],natText z.natAbs,[],[],by simp,.inr rfl,natText_int _,.inl rfl,.inl rfl⟩
  · exact ⟨[],natText z.natAbs,[],[],by simp,.inl rfl,natText_int _,.inl rfl,.inl rfl⟩
end

section
open TeJsonCtx
variable {F : Type} {floats : Floats F}

def strValue : Option CStr → Value
  | some s => .string s
  | none => .null
/-- The strings of an array, with those that are skipped left out. -/
def strsItems (skip_null : Bool) (strs : List (Option CStr)) : List Value :=
  (strs.filter fun str => str.isSome || !skip_null).map strValue
def floatValue (floats : Floats F) (precision : Int) (val : F) : Value :=
  if floats.isfinite val then .number (floats.printg precision val) else .null
def pairsMembers (pairs : List (CStr × CStr)) : List (CStr × Value) := pairs.reverse.map fun p => (p.1,.string p.2)

/-- The calls that write a whole value, with the levels that they open for it. -/
inductive CallValue (floats : Floats F) : TeJsonCall F → Value → Nat → Prop
  | simple {v : Value} {text : CStr} : Padded v text → CallValue floats (.add_simple text) v 0
  | null : CallValue floats .add_null .null 0
  | bool (val : Bool) : CallValue floats (.add_bool val) (.bool val) 0
  | integer (val : Int) : CallValue floats (.add_integer val) (.number (intText val)) 0
  | float (val : F) (precision : Int) : CallValue floats (.add_float val precision) (floatValue floats precision val) 0
  | string (s : CStr) : CallValue floats (.add_string s) (.string s) 1
  | array_str (skip_null : Bool) (strs : List (Option CStr)) :
      CallValue floats (.add_array_str skip_null strs) (.array (strsItems skip_null strs)) (if strs.any Option.isSome then 2 else 1)
  | array_float (vals : List F) (precision : Int) :
      CallValue floats (.add_array_float vals precision) (.array (vals.map (floatValue floats precision))) 1
  | kvpair {pairs : List (CStr × CStr)} : (∀ p ∈ pairs, ∀ c ∈ p.1, Plain c) →
      CallValue floats (.add_kvpair pairs) (.object (pairsMembers pairs)) (if pairs.isEmpty then 1 else 2)
/-- What a call builds on the levels, the innermost first. -/
inductive Builds (floats : Floats F) : List JsonFrame → TeJsonCall F → List JsonFrame → Prop
  | value {f f' : JsonFrame} {frames : List JsonFrame} {call : TeJsonCall F} {v : Value} {depth : Nat} :
      CallValue floats call v depth → f.add v = some f' → frames.length+depth < TE_JSON_MAX_NEST →
      Builds floats (f :: frames) call (f' :: frames)
  | start_string {f : JsonFrame} {frames : List JsonFrame} : (∃ v f', f.add v = some f') → frames.length+1 < TE_JSON_MAX_NEST →
      Builds floats (f :: frames) .start_string (.string [] :: f :: frames)
  | append_string {frames : List JsonFrame} (s more : CStr) :
      Builds floats (.string s :: frames) (.append_string more) (.string (s ++ more) :: frames)
  | start_raw {f : JsonFrame} {frames : List JsonFrame} : (∃ v f', f.add v = some f') → frames.length+1 < TE_JSON_MAX_NEST →
      Builds floats (f :: frames) .start_raw (.raw [] :: f :: frames)
  | append_raw {frames : List JsonFrame} (text value : CStr) (len : Nat) :
      Builds floats (.raw text :: frames) (.append_raw value len)
        (.raw (text ++ if len = 0 then value else printPrefix len value) :: frames)
  | start_array {f : JsonFrame} {frames : List JsonFrame} : (∃ v f', f.add v = some f') → frames.length+1 < TE_JSON_MAX_NEST →
      Builds floats (f :: frames) .start_array (.array [] :: f :: frames)
  | start_object {f : JsonFrame} {frames : List JsonFrame} : (∃ v f', f.add v = some f') → frames.length+1 < TE_JSON_MAX_NEST →
      Builds floats (f :: frames) .start_object (.object [] :: f :: frames)
  | finish {g f f' : JsonFrame} {frames : List JsonFrame} {v : Value} : g.Closed v → f.add v = some f' →
      Builds floats (g :: f :: frames) .finish (f' :: frames)
  | finish_top (items : List Value) : Builds floats [.top items] .finish [.top items]
  | add_key {members : List (CStr × Value)} {frames : List JsonFrame} {key : Option CStr} :
      (∀ c ∈ te_str_empty_if_null key, Plain c) →
      Builds floats (.object members :: frames) (.add_key key) (.member members (te_str_empty_if_null key) :: frames)
  | add_key_str {members : List (CStr × Value)} {frames : List JsonFrame} {key : Option CStr} {s : CStr} :
      (∀ c ∈ te_str_empty_if_null key, Plain c) → frames.length+1 < TE_JSON_MAX_NEST →
      Builds floats (.object members :: frames) (.add_key_str key (some s))
        (.object (members ++ [(te_str_empty_if_null key,.string s)]) :: frames)
  | add_key_no_str (frames : List JsonFrame) (key : Option CStr) : Builds floats frames (.add_key_str key none) frames
  | add_key_enum {frames frames' : List JsonFrame} {map : List (CStr × Int)} {key : Option CStr} {val : Int} :
      Builds floats frames (.add_key_str key (te_enum_map_from_any_value map val none)) frames' →
      Builds floats frames (.add_key_enum map key val) frames'
/-- What calls one after another build. -/
inductive BuildsAll (floats : Floats F) : List JsonFrame → List (TeJsonCall F) → List JsonFrame → Prop
  | nil (frames : List JsonFrame) : BuildsAll floats frames [] frames
  | cons {frames frames' last : List JsonFrame} {call : TeJsonCall F} {calls : List (TeJsonCall F)} :
      Builds floats frames call frames' → BuildsAll floats frames' calls last → BuildsAll floats frames (call :: calls) last
/-- `printf("%.*g")` of a finite value is a number of the grammar. -/
def FloatsPrinted (floats : Floats F) : Prop := ∀ val precision, floats.isfinite val = true → Number (floats.printg precision val)

variable {f f' : JsonFrame} {frames : List JsonFrame} {ctx : TeJsonCtx}

theorem Emitted.add_null (emitted : Emitted f frames ctx) (added : f.add .null = some f') : Emitted f' frames ctx.te_json_add_null :=
  emitted.simple added Text.null.padded
theorem Emitted.add_float (printed : FloatsPrinted floats) {val : F} {precision : Int} (emitted : Emitted f frames ctx)
    (added : f.add (floatValue floats precision val) = some f') : Emitted f' frames (ctx.te_json_add_float floats val precision) := by
  rw [floatValue] at added
  rw [te_json_add_float]
  split_ifs at added ⊢ with finite
  · exact emitted.simple added (Text.number (printed val precision finite)).padded
  · exact emitted.add_null added
/-- The turns of the loop over strings list their values. -/
theorem Emitted.strs {skip_null : Bool} {items : List Value} {strs : List (Option CStr)} (emitted : Emitted (.array items) frames ctx)
    (room : strs.any Option.isSome = true → frames.length+1 < TE_JSON_MAX_NEST) :
    ∃ after, strs.foldlM (addStr skip_null) ctx = some after ∧ Emitted (.array (items ++ strsItems skip_null strs)) frames after := by
  induction strs generalizing items ctx with
  | nil => exact ⟨ctx,rfl,by rwa [strsItems,List.filter_nil,map_nil,append_nil]⟩
  | cons str strs ih =>
    have one : ∃ next, addStr skip_null ctx str = some next ∧ Emitted (.array (items ++ strsItems skip_null [str])) frames next := by
      rcases str with _ | s
      · cases skip_null with
        | true => exact ⟨ctx,rfl,by rwa [show strsItems true [none] = [] from rfl,append_nil]⟩
        | false => exact ⟨_,rfl,emitted.add_null rfl⟩
      · refine emitted.add_string ?_ (room rfl)
        rw [add]
        rfl
    obtain ⟨next,turn,emitted'⟩ := one
    obtain ⟨after,rest,done⟩ := ih emitted' fun any => room (by rw [List.any_cons,any,Bool.or_true])
    refine ⟨after,?_,?_⟩
    · rw [foldlM_cons,turn]
      exact rest
    · grind [strsItems]
theorem Emitted.float_vals (printed : FloatsPrinted floats) {precision : Int} {items : List Value} {vals : List F}
    (emitted : Emitted (.array items) frames ctx) :
    Emitted (.array (items ++ vals.map (floatValue floats precision))) frames
      (vals.foldl (fun ctx val => ctx.te_json_add_float floats val precision) ctx) := by
  induction vals generalizing items ctx with
  | nil => rwa [map_nil,append_nil]
  | cons val vals ih =>
    have first := @Emitted.add_float F floats _ (.array (items ++ [floatValue floats precision val])) frames ctx printed val precision
      emitted rfl
    have next := ih first
    rwa [append_assoc,singleton_append,← map_cons] at next
theorem Emitted.pairs {members : List (CStr × Value)} {pairs : List (CStr × CStr)} (emitted : Emitted (.object members) frames ctx)
    (plain : ∀ p ∈ pairs, ∀ c ∈ p.1, Plain c) (room : pairs ≠ [] → frames.length+1 < TE_JSON_MAX_NEST) :
    ∃ after, pairs.foldlM addPair ctx = some after ∧
      Emitted (.object (members ++ pairs.map fun p => (p.1,Value.string p.2))) frames after := by
  induction pairs generalizing members ctx with
  | nil => exact ⟨ctx,rfl,by rwa [map_nil,append_nil]⟩
  | cons p pairs ih =>
    have keyed : ∀ c ∈ te_str_empty_if_null (some p.1), Plain c := plain p mem_cons_self
    obtain ⟨next,turn,emitted'⟩ := emitted.add_key_str keyed (room (cons_ne_nil _ _)) (s := p.2)
    obtain ⟨after,rest,done⟩ := ih emitted' (fun q member => plain q (mem_cons_of_mem p member)) fun _ => room (cons_ne_nil _ _)
    refine ⟨after,?_,?_⟩
    · rw [foldlM_cons]
      have same : addPair ctx p = some next := turn
      rw [same]
      exact rest
    · rwa [append_assoc,singleton_append] at done

theorem Emitted.add_array_str {skip_null : Bool} {strs : List (Option CStr)} (emitted : Emitted f frames ctx)
    (added : f.add (.array (strsItems skip_null strs)) = some f') (room : frames.length+1 < TE_JSON_MAX_NEST)
    (inner : strs.any Option.isSome = true → frames.length+2 < TE_JSON_MAX_NEST) :
    ∃ after, ctx.te_json_add_array_str skip_null strs = some after ∧ Emitted f' frames after := by
  obtain ⟨first,started,emitted⟩ := emitted.start_array added room
  obtain ⟨second,listed,emitted⟩ := @Emitted.strs _ _ skip_null _ _ emitted inner
  obtain ⟨after,ended,emitted⟩ := emitted.finish (.array _) added
  refine ⟨after,?_,emitted⟩
  rw [te_json_add_array_str,started]
  show (strs.foldlM (addStr skip_null) first).bind _ = _
  rw [listed]
  exact ended
theorem Emitted.add_array_float (printed : FloatsPrinted floats) {vals : List F} {precision : Int} (emitted : Emitted f frames ctx)
    (added : f.add (.array (vals.map (floatValue floats precision))) = some f') (room : frames.length+1 < TE_JSON_MAX_NEST) :
    ∃ after, ctx.te_json_add_array_float floats vals precision = some after ∧ Emitted f' frames after := by
  obtain ⟨first,started,emitted⟩ := emitted.start_array added room
  obtain ⟨after,ended,emitted⟩ := (emitted.float_vals printed).finish (.array _) added
  refine ⟨after,?_,emitted⟩
  rw [te_json_add_array_float,started]
  exact ended
theorem Emitted.add_kvpair {pairs : List (CStr × CStr)} (emitted : Emitted f frames ctx)
    (added : f.add (.object (pairsMembers pairs)) = some f') (plain : ∀ p ∈ pairs, ∀ c ∈ p.1, Plain c)
    (room : frames.length+1 < TE_JSON_MAX_NEST) (inner : pairs ≠ [] → frames.length+2 < TE_JSON_MAX_NEST) :
    ∃ after, ctx.te_json_add_kvpair pairs = some after ∧ Emitted f' frames after := by
  obtain ⟨first,started,emitted⟩ := emitted.start_object added room
  obtain ⟨second,listed,emitted⟩ := emitted.pairs (fun p member => plain p (mem_reverse.mp member))
    fun more => inner fun none_there => more (by rw [none_there,List.reverse_nil])
  obtain ⟨after,ended,emitted⟩ := emitted.finish (.object _) added
  refine ⟨after,?_,emitted⟩
  rw [te_json_add_kvpair,started]
  show (pairs.reverse.foldlM addPair first).bind _ = _
  rw [listed]
  exact ended

/-- A call that writes a whole value succeeds and adds it. -/
theorem CallValue.performed (printed : FloatsPrinted floats) {call : TeJsonCall F} {v : Value} {depth : Nat}
    (writes : CallValue floats call v depth) (emitted : Emitted f frames ctx) (added : f.add v = some f')
    (room : frames.length+depth < TE_JSON_MAX_NEST) : ∃ after, ctx.perform floats call = some after ∧ Emitted f' frames after := by
  cases writes with
  | simple padded => exact ⟨_,rfl,emitted.simple added padded⟩
  | null => exact ⟨_,rfl,emitted.add_null added⟩
  | bool val => exact ⟨_,rfl,emitted.simple added (Text.bool val).padded⟩
  | integer val => exact ⟨_,rfl,emitted.simple added (Text.number (intText_number val)).padded⟩
  | float val precision => exact ⟨_,rfl,emitted.add_float printed added⟩
  | string s => exact emitted.add_string added room
  | array_str skip_null strs =>
    refine emitted.add_array_str added ?_ ?_
    · split_ifs at room <;> omega
    · intro any
      rwa [if_pos any] at room
  | array_float vals precision => exact emitted.add_array_float printed added room
  | @kvpair pairs plain =>
    refine emitted.add_kvpair added plain ?_ ?_
    · split_ifs at room <;> omega
    · intro more
      rwa [if_neg (by rwa [List.isEmpty_iff])] at room

variable {frames' : List JsonFrame}
/-- The context writes what is on the levels; there is always a level. -/
def Writes (frames : List JsonFrame) (ctx : TeJsonCtx) : Prop :=
  match frames with
  | [] => False
  | f :: frames => Emitted f frames ctx
/-- A call that may be made succeeds, and what it builds is what it writes. -/
theorem Builds.performed (printed : FloatsPrinted floats) {call : TeJsonCall F} (builds : Builds floats frames call frames')
    (writes : Writes frames ctx) : ∃ after, ctx.perform floats call = some after ∧ Writes frames' after := by
  induction builds with
  | value value added room => exact value.performed printed writes added room
  | start_string takes room =>
    obtain ⟨v,f',added⟩ := takes
    exact Emitted.start_string writes added room
  | append_string s more => exact Emitted.append_string writes more
  | start_raw takes room =>
    obtain ⟨v,f',added⟩ := takes
    exact Emitted.start_raw writes added room
  | append_raw text value len => exact Emitted.append_raw writes value len
  | start_array takes room =>
    obtain ⟨v,f',added⟩ := takes
    exact Emitted.start_array writes added room
  | start_object takes room =>
    obtain ⟨v,f',added⟩ := takes
    exact Emitted.start_object writes added room
  | finish closed added => exact Emitted.finish writes closed added
  | finish_top items =>
    obtain ⟨before,t,whole,⟨here,some_items⟩,waiting⟩ := Emitted.text writes
    obtain ⟨level,outer,out⟩ := ctx
    cases waiting
    refine ⟨⟨level,[],out⟩,?_,⟨[],t,whole,⟨here,some_items⟩,.nil⟩⟩
    obtain rfl : level = _ := here
    show some _ = _
    rw [append_to_json,append_nil]
  | add_key plain => exact Emitted.add_key writes plain
  | add_key_str plain room => exact Emitted.add_key_str writes plain room
  | add_key_no_str frames key => exact ⟨ctx,rfl,writes⟩
  | add_key_enum _ ih => exact ih writes
theorem BuildsAll.performed (printed : FloatsPrinted floats) {calls : List (TeJsonCall F)}
    (builds : BuildsAll floats frames calls frames') (writes : Writes frames ctx) :
    ∃ after, ctx.performAll floats calls = some after ∧ Writes frames' after := by
  induction builds generalizing ctx with
  | nil => exact ⟨ctx,rfl,writes⟩
  | cons first _ ih =>
    obtain ⟨next,performed,writes⟩ := first.performed printed writes
    obtain ⟨after,rest,writes⟩ := ih writes
    refine ⟨after,?_,writes⟩
    rw [performAll,foldlM_cons,performed]
    exact rest

/-- Calls that close all that they open write their values, one after another between commas: a
single value is a whole text. -/
theorem writer_output (printed : FloatsPrinted floats) {calls : List (TeJsonCall F)} {items : List Value}
    (builds : BuildsAll floats [.top []] calls [.top items]) :
    ∃ ctx, TE_JSON_INIT.performAll floats calls = some ctx ∧ SomeItems items ctx.out ∧
      ∀ v, items = [v] → Padded v ctx.out := by
  have start : Writes [.top []] TE_JSON_INIT := ⟨[],[],rfl,⟨rfl,.inl ⟨rfl,rfl⟩⟩,.nil⟩
  obtain ⟨ctx,performed,written⟩ := builds.performed printed start
  obtain ⟨before,t,whole,⟨_,some_items⟩,waiting⟩ := Emitted.text written
  have empty : before = [] := by
    generalize outer_eq : ctx.outer = outer at waiting
    cases waiting
    rfl
  have all : SomeItems items ctx.out := by rwa [whole,empty,nil_append]
  refine ⟨ctx,performed,all,?_⟩
  rintro v rfl
  obtain ⟨absurd_nil,_⟩ | listed := all
  · cases absurd_nil
  · exact listed.single
end

section
/-- Integers as floating-point values. -/
def smallFloats : TeJsonCtx.Floats Int := { isfinite := fun _ => true, printg := fun _ z => intText z }
/-- An object with a number and a string with a line end. -/
theorem small_object_output : ∃ ctx, TE_JSON_INIT.performAll smallFloats
      [.start_object,.add_key (some ['a']),.add_float 5 6,.add_key_str (some ['b']) (some ['\n']),.finish] = some ctx ∧
    SomeItems [.object [(['a'],.number ['5']),(['b'],.string ['\n'])]] ctx.out ∧
    ∀ v, [Value.object [(['a'],.number ['5']),(['b'],.string ['\n'])]] = [v] → Padded v ctx.out := by
  apply writer_output
  · rintro val precision -
    exact intText_number val
  · refine .cons (.start_object ⟨.null,_,rfl⟩ (by decide)) ?_
    refine .cons (.add_key (by simp [TeJsonCtx.te_str_empty_if_null,Plain])) ?_
    refine .cons (.value (.float 5 6) rfl (by decide)) ?_
    refine .cons (.add_key_str (by simp [TeJsonCtx.te_str_empty_if_null,Plain]) (by decide)) ?_
    exact .cons (.finish (.object _) rfl) (.nil _)

/-- What a key of one quotation mark makes of an object. -/
theorem quote_key_output : TE_JSON_INIT.performAll smallFloats [.start_object,.add_key (some ['"']),.add_null,.finish] =
    some { level := ⟨.TOPLEVEL,1⟩, outer := [], out := ['\x7b','"','"','"',':','n','u','l','l','\x7d'] } := by decide
/-- No string starts with a quotation mark. -/
theorem chars_quote {s t u v : CStr} (chars : Chars s t) (whole : t ++ u = '"' :: v) : t = [] := by
  cases chars with
  | nil => rfl
  | plain plain => exact absurd (cons.inj whole).1 plain.2.1
  | escape | unit | pair => exact absurd (cons.inj whole).1 (by decide)
theorem number_first {t u v : CStr} {c : Char} (number : Number t) (whole : t ++ u = c :: v) : c = '-' ∨ IsDigit c := by
  obtain ⟨sign,int,frac,exp,rfl,signed,digits,-,-⟩ := number
  obtain rfl | rfl := signed
  · refine .inr ?_
    obtain rfl | ⟨d,ds,rfl,first,last,-⟩ := digits
    · rw [← (cons.inj whole).1]
      exact ⟨by decide,by decide⟩
    · rw [← (cons.inj whole).1]
      exact ⟨le_trans (by decide) first,last⟩
  · exact .inl (cons.inj whole).1.symm
/-- A member does not start with three quotation marks. -/
theorem member_quotes {m : CStr × Value} {t u v : CStr} (member : Member m t) (whole : t ++ u = '"' :: '"' :: '"' :: ':' :: v) : False := by
  cases member with
  | @member _ w s w' value v blank chars blank' padded =>
    simp only [append_assoc] at whole
    obtain ⟨rfl,-⟩ := blank_skipped blank (by decide) whole
    obtain ⟨-,whole⟩ := cons.inj (whole : _ = '"' :: _)
    obtain rfl := chars_quote chars whole
    obtain ⟨-,whole⟩ := cons.inj (whole : _ = '"' :: _)
    obtain ⟨rfl,-⟩ := blank_skipped blank' (by decide) whole
    exact absurd (cons.inj whole).1 (by decide)
/-- A key with a quotation mark is written as it is, and what comes out is no text of any value. -/
theorem quote_key_breaks : ∃ ctx, TE_JSON_INIT.performAll smallFloats [.start_object,.add_key (some ['"']),.add_null,.finish] =
    some ctx ∧ ∀ v, ¬Padded v ctx.out := by
  refine ⟨_,quote_key_output,?_⟩
  intro v padded
  generalize whole : ['\x7b','"','"','"',':','n','u','l','l','\x7d'] = out at padded
  cases padded with
  | @pad _ w t w' blank text blank' =>
    have whole : ['\x7b','"','"','"',':','n','u','l','l','\x7d'] = w ++ t ++ w' := whole
    rw [append_assoc] at whole
    obtain ⟨rfl,-⟩ := blank_skipped blank (by decide) whole.symm
    cases text with
    | null => exact absurd (cons.inj whole).1 (by decide)
    | bool b => cases b <;> exact absurd (cons.inj whole).1 (by decide)
    | number number =>
      obtain minus | digit := number_first number whole.symm
      · exact absurd minus (by decide)
      · exact absurd digit (by unfold IsDigit; decide)
    | string | array_empty | array => exact absurd (cons.inj whole).1 (by decide)
    | @object_empty w'' blank'' =>
      have rest : w'' ++ ['\x7d'] ++ w' = ['"','"','"',':','n','u','l','l','\x7d'] := (cons.inj whole.symm).2
      rw [append_assoc] at rest
      obtain ⟨rfl,-⟩ := blank_skipped blank'' (by decide) rest
      exact absurd (cons.inj rest).1 (by decide)
    | @object members t members_text =>
      have rest : t ++ ['\x7d'] ++ w' = ['"','"','"',':','n','u','l','l','\x7d'] := (cons.inj whole.symm).2
      rw [append_assoc] at rest
      cases members_text with
      | one member => exact member_quotes member rest
      | @snoc _ _ t u _ _ =>
        have comma_there : ',' ∈ ['"','"','"',':','n','u','l','l','\x7d'] := by
          rw [← rest]
          simp
        exact absurd comma_there (by decide)
end
end TestEnvironment.Tools
