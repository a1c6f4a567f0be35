import TestEnvironment.Configurator.Types

/-!
Object and instance identifiers (`conf_oid.c`): the conversion of an OID string
into its elements, their comparison, and the patterns of `cfg_db_find_pattern`.
-/
namespace TestEnvironment.Configurator
open Lib

def CFG_SUBID_MAX : Nat := 128
def CFG_INST_NAME_MAX : Nat := 256
def CFG_OID_LEN_MAX : Nat := 10
def CFG_OID_MAX : Nat := (CFG_SUBID_MAX+CFG_INST_NAME_MAX+2)*CFG_OID_LEN_MAX

def CFG_TA_PREFIX : CStr := "/agent:".toList

/-- `cfg_inst_subid`; an element of an object OID has no name. -/
structure CfgSubid where
  subid : CStr
  name : CStr
  deriving DecidableEq, Repr

structure CfgOid where
  inst : Bool
  ids : List CfgSubid
  deriving DecidableEq, Repr

/-- The first element of every OID. -/
def rootId : CfgSubid := ⟨[],[]⟩

/-- One token of an instance OID, checked against the element's size. -/
def convertInst (token : CStr) : Option CfgSubid :=
  match strchr ':' token with
  | none => none
  | some (subid,name) =>
    if name.length ≥ CFG_INST_NAME_MAX then none
    else if subid.length ≥ CFG_SUBID_MAX then none
    else some ⟨subid,name⟩
def convertObj (token : CStr) : Option CfgSubid := if token.length ≥ CFG_SUBID_MAX then none else some ⟨token,[]⟩

def cfg_convert_oid_str (str : CStr) : Option CfgOid :=
  if str.head? ≠ some '/' then none
  else if str.length ≥ CFG_OID_MAX then none
  else
    let inst := decide (':' ∈ str)
    if str = "/".toList ∨ str = "/:".toList then some ⟨inst,[rootId]⟩
    else
      let tokens := strtok '/' str.tail
      if tokens.length ≥ CFG_OID_LEN_MAX then none
      else (tokens.mapM (if inst then convertInst else convertObj)).map fun ids => ⟨inst,rootId :: ids⟩

def cfg_convert_oid (oid : CfgOid) : Option CStr :=
  if oid.ids.length = 1 then some (if oid.inst then "/:".toList else "/".toList)
  else
    let str := (oid.ids.tail.map fun id => '/' :: (if oid.inst then id.subid ++ ':' :: id.name else id.subid)).flatten
    if str.length < CFG_OID_MAX then some str else none

/-- `cfg_oid_cmp(o1, o2) == 0`. -/
def cfg_oid_cmp (o1 o2 : CfgOid) : Bool := decide (o1 = o2)

/-- `strcmp_start(pattern, str) == 0` is `startsWith`; `pattern_match(..) == 0`: a
    pattern may hold one `*`. -/
def pattern_match (pattern str : CStr) : Bool :=
  match strchr '*' pattern with
  | none => decide (pattern = str)
  | some (head,segment) =>
    if str.length < segment.length+head.length then false
    else if !startsWith head str then false
    else decide (str.drop (str.length-segment.length) = segment)
/-- A part of a pattern whose first character is `*` matches everything. -/
def matchPart (pattern str : CStr) : Bool := pattern.head? = some '*' ∨ pattern_match pattern str = true

theorem pattern_match_self (s : CStr) : pattern_match s s = true := by
  unfold pattern_match
  cases star : strchr '*' s with
  | none => simp
  | some cut =>
    obtain ⟨split,_⟩ := strchr_spec star
    have length : s.length = cut.1.length + (cut.2.length+1) := by simp [split]
    have front : startsWith cut.1 s = true := startsWith_iff.mpr ⟨_,split.symm⟩
    have back : s.drop (s.length-cut.2.length) = cut.2 := by
      have position : s.length-cut.2.length = cut.1.length+1 := by omega
      rw [position]
      conv_lhs => rw [split]
      rw [show cut.1 ++ '*' :: cut.2 = (cut.1 ++ ['*']) ++ cut.2 by simp]
      exact List.drop_left' (by simp)
    simp only [front,back]
    rw [if_neg (by omega)]
    simp
theorem matchPart_self (s : CStr) : matchPart s s = true := by simp [matchPart,pattern_match_self]

section
/-- A token as an element, whatever its size. -/
def element (token : CStr) : CfgSubid :=
  match strchr ':' token with
  | none => ⟨token,[]⟩
  | some (subid,name) => ⟨subid,name⟩
/-- The elements an OID string names below the root, whatever its length. -/
def components (str : CStr) : List CfgSubid := if str = "/:".toList then [] else (strtok '/' str).map element

variable {token s t : CStr} {id : CfgSubid} {d c : Char}

theorem convertInst_element (converted : convertInst token = some id) : element token = id := by
  unfold convertInst at converted
  unfold element
  split at converted <;> simp_all
theorem convertObj_element (plain : ':' ∉ token) (converted : convertObj token = some id) : element token = id := by
  unfold convertObj at converted
  simp only [element,strchr_none.mpr plain]
  split at converted <;> simp_all
theorem mapM_elements {f : CStr → Option CfgSubid} {tokens : List CStr} {ids : List CfgSubid}
    (each : ∀ t ∈ tokens, ∀ id, f t = some id → element t = id) (all : tokens.mapM f = some ids) :
    tokens.map element = ids := by
  induction tokens generalizing ids with
  | nil => simpa using all
  | cons t tokens ih =>
    simp only [List.mapM_cons,bind_eq_bind,bind_eq_some_iff,Option.pure_def,some_inj] at all
    obtain ⟨id,here,rest,later,rfl⟩ := all
    simp [each t (by simp) id here,ih (fun u member => each u (by simp [member])) later]
theorem strtokFrom_sub {cur : CStr} (member : t ∈ strtokFrom d cur s) (inside : c ∈ t) : c ∈ cur ∨ c ∈ s := by
  induction s generalizing cur with
  | nil => simp_all [strtokFrom]
  | cons x s ih =>
    by_cases delimiter : x = d
    · by_cases empty : cur = []
      · simp only [strtokFrom,delimiter,empty,if_true] at member
        rcases ih member with none | later
        · simp at none
        · exact .inr (by simp [later])
      · simp only [strtokFrom,delimiter,empty,if_true,if_false,mem_cons] at member
        rcases member with rfl | later
        · exact .inl inside
        · grind
    · simp only [strtokFrom,delimiter,if_false] at member
      rcases ih member with here | later
      · grind
      · exact .inr (by simp [later])
/-- A token holds no character that its string does not hold. -/
theorem strtok_sub (member : t ∈ strtok d s) (absent : c ∉ s) : c ∉ t := by
  intro inside
  rcases strtokFrom_sub member inside with none | here
  · simp at none
  · exact absent here

/-- The elements of a converted OID are the components of its string. -/
theorem convert_components {str : CStr} {oid : CfgOid} (converted : cfg_convert_oid_str str = some oid) :
    oid.ids = rootId :: components str ∧ oid.inst = decide (':' ∈ str) ∧ str.length < CFG_OID_MAX := by
  unfold cfg_convert_oid_str at converted
  dsimp only at converted
  split at converted
  · cases converted
  rename_i slash
  split at converted
  · cases converted
  rename_i short
  refine ⟨?_,?_,by omega⟩
  · split at converted
    · rename_i special
      cases converted
      rcases special with rfl | rfl <;> rfl
    · rename_i ordinary
      split at converted
      · cases converted
      · obtain ⟨ids,all,rfl⟩ := of_map converted
        have notRoot : str ≠ "/:".toList := fun equal => ordinary (.inr equal)
        obtain ⟨tail,rfl⟩ : ∃ tail, str = '/' :: tail := by
          cases str with
          | nil => simp at slash
          | cons c tail => exact ⟨tail,by simpa using slash⟩
        simp only [components,if_neg notRoot,strtok_delimiter]
        congr 1
        refine (mapM_elements ?_ all).symm
        intro t member id here
        by_cases inst : ':' ∈ '/' :: tail
        · exact convertInst_element (by simpa [inst] using here)
        · exact convertObj_element (strtok_sub member (by simpa using inst)) (by simpa [inst] using here)
  · split at converted
    · cases converted; rfl
    · split at converted
      · cases converted
      · obtain ⟨ids,_,rfl⟩ := of_map converted; rfl

theorem components_cons (notRoot : s ≠ "/:".toList) : components s = (strtok '/' s).map element := by
  rw [components,if_neg notRoot]
/-- The string of an automatic child names one element more. -/
theorem components_child {par sub : CStr} (slash : '/' ∉ sub) (colon : ':' ∉ sub) (nonempty : sub ≠ [])
    (notRoot : par ≠ "/:".toList) : components (par ++ '/' :: (sub ++ [':'])) = components par ++ [⟨sub,[]⟩] := by
  have long : par ++ '/' :: (sub ++ [':']) ≠ "/:".toList := by
    intro equal
    have length := congrArg List.length equal
    have := length_pos_iff.mpr nonempty
    simp at length; omega
  have token : '/' ∉ sub ++ [':'] := by simp [slash]
  rw [components_cons long,components_cons notRoot,strtok_append,strtok_token token (by simp)]
  simp [element,strchr_append colon]
/-- The element of a component has no slash, its subid no colon. -/
theorem components_mem (member : id ∈ components s) : '/' ∉ id.subid ∧ ':' ∉ id.subid ∧ '/' ∉ id.name := by
  unfold components at member
  split at member
  · simp at member
  · obtain ⟨t,token,rfl⟩ := mem_map.mp member
    obtain ⟨_,slash⟩ := strtok_mem token
    unfold element
    cases cut : strchr ':' t with
    | none => exact ⟨slash,strchr_none.mp cut,by simp⟩
    | some parts =>
      obtain ⟨split,colon⟩ := strchr_spec cut
      rw [split] at slash
      simp at slash
      exact ⟨slash.1,colon,slash.2⟩
/-- Without a colon the elements are the tokens. -/
theorem components_object (plain : ':' ∉ s) : components s = (strtok '/' s).map fun t => ⟨t,[]⟩ := by
  have notRoot : s ≠ "/:".toList := by rintro rfl; simp at plain
  rw [components_cons notRoot]
  refine map_congr_left fun t member => ?_
  simp [element,strchr_none.mpr (strtok_sub member plain)]
end
section
variable {f : CStr → Option CfgSubid} {g : CfgSubid → CStr} {tokens : List CStr} {ids : List CfgSubid} {str : CStr} {oid : CfgOid}

/-- What `cfg_convert_oid` writes for an element. -/
def idText (inst : Bool) (id : CfgSubid) : CStr := if inst then id.subid ++ ':' :: id.name else id.subid
theorem mapM_texts (each : ∀ t id, f t = some id → g id = t) (all : tokens.mapM f = some ids) : ids.map g = tokens := by
  induction tokens generalizing ids with
  | nil =>
    obtain rfl : [] = ids := by simpa using all
    rfl
  | cons t tokens ih =>
    simp only [List.mapM_cons,bind_eq_bind,bind_eq_some_iff,Option.pure_def,some_inj] at all
    obtain ⟨id,here,rest,later,rfl⟩ := all
    rw [map_cons,each t id here,ih later]
theorem convert_text {inst : Bool} {t : CStr} {id : CfgSubid} (converted : (if inst then convertInst else convertObj) t = some id) :
    idText inst id = t := by
  cases inst with
  | false =>
    simp only [false_eq_true,if_false,convertObj,Option.ite_none_left_eq_some,some_inj] at converted
    exact converted.2 ▸ rfl
  | true =>
    simp only [if_true,convertInst] at converted
    split at converted
    · cases converted
    · rename_i cut found
      obtain ⟨split,_⟩ := strchr_spec found
      grind [idText]
/-- Tokens that are joined again are converted as before. -/
theorem convert_joined (some' : tokens ≠ []) (plain : ∀ t ∈ tokens, '/' ∉ t ∧ t ≠ []) (few : tokens.length < CFG_OID_LEN_MAX)
    (short : (tokens.flatMap ('/' :: ·)).length < CFG_OID_MAX) (named : tokens ≠ [[':']]) :
    cfg_convert_oid_str (tokens.flatMap ('/' :: ·)) = (tokens.mapM (if ':' ∈ tokens.flatMap ('/' :: ·) then convertInst else convertObj)).map
      fun ids => ⟨decide (':' ∈ tokens.flatMap ('/' :: ·)),rootId :: ids⟩ := by
  have again : strtok '/' (tokens.flatMap ('/' :: ·)) = tokens := strtok_delimited plain []
  obtain ⟨t,tokens',rfl⟩ := exists_cons_of_ne_nil some'
  rw [flatMap_cons,cons_append] at again short ⊢
  have ordinary : ¬ ('/' :: (t ++ tokens'.flatMap ('/' :: ·)) = "/".toList ∨ '/' :: (t ++ tokens'.flatMap ('/' :: ·)) = "/:".toList) := by
    rintro (same | same)
    · rw [same] at again
      cases again
    · rw [same] at again
      exact named again.symm
  rw [strtok_delimiter] at again
  rw [cfg_convert_oid_str,if_neg (by simp),if_neg (by omega)]
  dsimp only
  rw [if_neg ordinary,List.tail_cons,again,if_neg (by omega)]
  simp only [decide_eq_true_eq]
/-- The text of a converted OID is no longer than the one that was read, and it is read as the same OID,
unless this has one element without any name: its text is the one of the root. -/
theorem oid_text_round_trip (converted : cfg_convert_oid_str str = some oid) :
    ∃ text, cfg_convert_oid oid = some text ∧ text.length ≤ str.length ∧
      (cfg_convert_oid_str text = some oid ↔ oid.ids ≠ [rootId,rootId]) := by
  have short := (convert_components converted).2.2
  unfold cfg_convert_oid_str at converted
  dsimp only at converted
  split at converted
  · cases converted
  rename_i slash
  split at converted
  · cases converted
  split at converted
  · rename_i special
    cases converted
    rcases special with rfl | rfl <;> exact ⟨_,rfl,le_rfl,by decide⟩
  split at converted
  · cases converted
  rename_i many
  obtain ⟨ids,all,rfl⟩ := of_map converted
  obtain ⟨tail,rfl⟩ : ∃ tail, str = '/' :: tail := by
    cases str with
    | nil => simp at slash
    | cons c tail => exact ⟨tail,by simpa using slash⟩
  rw [List.tail_cons] at all many
  have plain : ∀ t ∈ strtok '/' tail, '/' ∉ t ∧ t ≠ [] := fun t member => (strtok_mem member).symm
  have length : ((strtok '/' tail).flatMap ('/' :: ·)).length ≤ tail.length+1 := by
    simpa [strtok,List.length_flatMap] using @strtokFrom_length '/' tail []
  have texts := mapM_texts (fun _ _ => convert_text) all
  have taken : ':' ∈ (strtok '/' tail).flatMap ('/' :: ·) → ':' ∈ '/' :: tail := by
    intro inside
    obtain ⟨t,member,here⟩ := mem_flatMap.mp inside
    exact mem_cons_of_mem _ (not_not.mp fun absent => strtok_sub member absent (by simpa using here))
  generalize strtok '/' tail = tokens at all many plain texts taken length
  cases ids with
  | nil =>
    -- Nothing but slashes: the text is the one of the root.
    rw [cfg_convert_oid,if_pos (by rfl)]
    by_cases inst : ':' ∈ '/' :: tail
    · have long := length_pos_iff.mpr (List.ne_nil_of_mem (show ':' ∈ tail by simpa using inst))
      simp only [inst,decide_true,if_true]
      exact ⟨_,rfl,Nat.succ_le_succ long,by decide⟩
    · simp only [inst,decide_false,false_eq_true,if_false]
      exact ⟨_,rfl,by simp,by decide⟩
  | cons id ids =>
    have colons : (':' ∈ tokens.flatMap ('/' :: ·)) ↔ ':' ∈ '/' :: tail := ⟨taken,fun inst => by simp [← texts,idText,inst]⟩
    have some' : tokens ≠ [] := fun none' => by simp [none'] at texts
    refine ⟨tokens.flatMap ('/' :: ·),?_,length,?_⟩
    · rw [cfg_convert_oid,if_neg (by simp),← texts,List.flatMap_map]
      dsimp only
      rw [List.tail_cons,← List.flatMap_def]
      refine if_pos ?_
      rw [← texts,List.flatMap_map] at length
      exact lt_of_le_of_lt length short
    by_cases lone : tokens = [[':']]
    · subst lone
      have inst : ':' ∈ '/' :: tail := taken (by decide)
      simp only [inst,decide_true,if_true] at all ⊢
      rw [← some.inj all]
      decide
    · rw [convert_joined some' plain (by omega) (lt_of_le_of_lt length short) lone]
      simp only [colons]
      refine iff_of_true (by simpa using all) fun empty => ?_
      obtain ⟨rfl,rfl⟩ := cons.inj (cons.inj empty).2
      rw [map_cons,map_nil,idText] at texts
      split_ifs at texts
      · exact lone texts.symm
      · exact (plain [] (texts ▸ mem_singleton_self _)).2 rfl
theorem oid_text_round_trip_slashes : ∃ text, cfg_convert_oid ⟨true,[rootId,⟨['a'],['x']⟩]⟩ = some text ∧ text.length ≤ "//a:x".toList.length ∧
    (cfg_convert_oid_str text = some ⟨true,[rootId,⟨['a'],['x']⟩]⟩ ↔ [rootId,⟨['a'],['x']⟩] ≠ [rootId,rootId]) :=
  @oid_text_round_trip "//a:x".toList _ (by decide)
end
end TestEnvironment.Configurator
