import TestEnvironment.Lib.KeyedUpdate
import TestEnvironment.Lib.Strings

/-!
Message filters (`log_msg_filter.c`): rules for entities, with rules for users in them, in lists that are sorted by their
names, and the check of a message. Patterns are those of a library; a pattern that it does not compile leaves a rule behind
whose name has been freed, so that the calls are undefined then.
-/
namespace TestEnvironment.LogProc
open Lib

section

/-- `log_user_filter`. -/
structure LogUserFilter (Regex : Type) where
  level : UInt16
  name : CStr
  regex : Option Regex
  deriving DecidableEq
/-- `log_entity_filter`. The name `NULL`, which only the default entity has, is the empty one. -/
structure LogEntityFilter (Regex : Type) where
  users : List (LogUserFilter Regex)
  level : UInt16
  name : CStr
  regex : Option Regex
  deriving DecidableEq
/-- `log_msg_filter`. -/
structure LogMsgFilter (Regex : Type) where
  entities : List (LogEntityFilter Regex)
  def_entity : LogEntityFilter Regex
  deriving DecidableEq
/-- What a filter reads of a message; the names are counted. -/
structure FilteredMsg where
  entity : List Char
  user : List Char
  level : UInt16
/-- A name without a zero in it. -/
abbrev Name := {s : CStr // '\x00' ∉ s}
/-- `strncmp(name, fname, name_len) == 0` for a name with the length and a string with a zero behind it. -/
def strncmpEqual : List Char → CStr → Bool
  | [], _ => true
  | c :: _, [] => c = '\x00'
  | c :: name, f :: fname => c = f && (c = '\x00' || strncmpEqual name fname)
inductive LogFilterResult | PASS | FAIL
  deriving DecidableEq, Repr

def LOG_LEVEL_ALL : UInt16 := 0xffff
variable {Regex : Type} (pcre2_compile : CStr → Option Regex) (pcre2_match : Regex → List Char → Bool)

def check_name (name : List Char) (fname : CStr) : Option Regex → Bool
  | none => strncmpEqual name fname
  | some regex => pcre2_match regex name
/-- `prepare_pcre`, where the name is a pattern. -/
def prepare (name : CStr) (regex : Bool) : Option (Option Regex) := if regex then (pcre2_compile name).map some else some none
def log_user_filter_init (name : CStr) (regex : Bool) : Option (LogUserFilter Regex) := (prepare pcre2_compile name regex).map (⟨LOG_LEVEL_ALL,name,·⟩)
def log_entity_filter_init (name : CStr) (regex : Bool) : Option (LogEntityFilter Regex) :=
  (prepare pcre2_compile name regex).map (⟨[],LOG_LEVEL_ALL,name,·⟩)
def log_msg_filter_init : LogMsgFilter Regex := ⟨[],⟨[],LOG_LEVEL_ALL,[],none⟩⟩
/-- The level with the mask included or excluded. -/
def masked (inclusive : Bool) (level_mask level : UInt16) : UInt16 := if inclusive then level ||| level_mask else level &&& ~~~level_mask
/-- A change of the element that `log_msg_filter_get_entity` returns. -/
def withEntity (name : Option Name) (regex : Bool) (change : LogEntityFilter Regex → Option (LogEntityFilter Regex)) (filter : LogMsgFilter Regex) :
    Option (LogMsgFilter Regex) :=
  let name := name.elim [] Subtype.val
  if name = [] then (change filter.def_entity).map fun def_entity => {filter with def_entity}
  else
    let create := (log_entity_filter_init pcre2_compile name regex).map fun entity => {entity with level := filter.def_entity.level}
    (updateKey LogEntityFilter.name name create change filter.entities).map fun entities => {filter with entities}
def log_msg_filter_set_default (inclusive : Bool) (level_mask : UInt16) (filter : LogMsgFilter Regex) : LogMsgFilter Regex :=
  {filter with def_entity := {filter.def_entity with level := masked inclusive level_mask filter.def_entity.level}}
def log_msg_filter_add_entity (inclusive : Bool) (name : Option Name) (regex : Bool) (level_mask : UInt16) (filter : LogMsgFilter Regex) :
    Option (LogMsgFilter Regex) :=
  withEntity pcre2_compile name regex (fun entity => some {entity with level := masked inclusive level_mask entity.level}) filter
def log_entity_filter_add_user (inclusive : Bool) (name : Name) (regex : Bool) (level_mask : UInt16) (entity : LogEntityFilter Regex) :
    Option (LogEntityFilter Regex) :=
  let create := (log_user_filter_init pcre2_compile name.val regex).map fun user => {user with level := entity.level}
  let change (user : LogUserFilter Regex) : Option (LogUserFilter Regex) :=
    some {user with level := if level_mask ≠ 0 then masked inclusive level_mask user.level else entity.level}
  (updateKey LogUserFilter.name name.val create change entity.users).map fun users => {entity with users}
def log_msg_filter_add_user (inclusive : Bool) (entity : Option Name) (entity_regex : Bool) (user : Name) (user_regex : Bool) (level_mask : UInt16)
    (filter : LogMsgFilter Regex) : Option (LogMsgFilter Regex) :=
  let add := log_entity_filter_add_user pcre2_compile inclusive user user_regex level_mask
  match entity with
  | none => do
    let entities ← filter.entities.mapM add
    let def_entity ← add filter.def_entity
    some ⟨entities,def_entity⟩
  | some entity => withEntity pcre2_compile (some entity) entity_regex add filter

/-- The rule for the entity of a message: the first one that matches. -/
def usedEntity (filter : LogMsgFilter Regex) (view : FilteredMsg) : LogEntityFilter Regex :=
  (filter.entities.find? fun entity => check_name pcre2_match view.entity entity.name entity.regex).getD filter.def_entity
def usedUser (entity : LogEntityFilter Regex) (view : FilteredMsg) : Option (LogUserFilter Regex) :=
  entity.users.find? fun user => check_name pcre2_match view.user user.name user.regex
def levelMask (entity : LogEntityFilter Regex) : Option (LogUserFilter Regex) → UInt16
  | none => entity.level
  | some user => user.level
def log_msg_filter_check (filter : LogMsgFilter Regex) (view : FilteredMsg) : LogFilterResult :=
  let entity := usedEntity pcre2_match filter view
  if view.level &&& levelMask entity (usedUser pcre2_match entity view) ≠ 0 then .PASS else .FAIL
/-- The loop over two lists, which have to end together. -/
def listsEqual {α : Type} (equal : α → α → Bool) : List α → List α → Bool
  | [], [] => true
  | a :: as, b :: bs => equal a b && listsEqual equal as bs
  | _, _ => false
def user_filter_equal (a b : LogUserFilter Regex) : Bool := a.level = b.level && a.name = b.name
def entity_filter_equal (a b : LogEntityFilter Regex) : Bool := a.level = b.level && a.name = b.name && listsEqual user_filter_equal a.users b.users
/-- Two filters that are not the same one. -/
def log_msg_filter_equal (a b : LogMsgFilter Regex) : Bool :=
  entity_filter_equal a.def_entity b.def_entity && listsEqual entity_filter_equal a.entities b.entities
end

section

inductive FilterCall
  | set_default (inclusive : Bool) (level_mask : UInt16)
  | add_entity (inclusive : Bool) (name : Option Name) (regex : Bool) (level_mask : UInt16)
  | add_user (inclusive : Bool) (entity : Option Name) (entity_regex : Bool) (user : Name) (user_regex : Bool) (level_mask : UInt16)
def FilterCall.Plain : FilterCall → Prop
  | .set_default _ _ => True
  | .add_entity _ _ regex _ => regex = false
  | .add_user _ _ entity_regex _ user_regex _ => entity_regex = false ∧ user_regex = false

variable {Regex : Type} (pcre2_compile : CStr → Option Regex)

def FilterCall.run (filter : LogMsgFilter Regex) : FilterCall → Option (LogMsgFilter Regex)
  | .set_default inclusive level_mask => some (log_msg_filter_set_default inclusive level_mask filter)
  | .add_entity inclusive name regex level_mask => log_msg_filter_add_entity pcre2_compile inclusive name regex level_mask filter
  | .add_user inclusive entity entity_regex user user_regex level_mask =>
    log_msg_filter_add_user pcre2_compile inclusive entity entity_regex user user_regex level_mask filter
/-- The filter that a sequence of calls leaves. -/
def filterOf (calls : List FilterCall) : Option (LogMsgFilter Regex) := calls.foldlM (FilterCall.run pcre2_compile) log_msg_filter_init

/-- Rules for users with plain names, in their order. -/
structure UsersSorted (users : List (LogUserFilter Regex)) : Prop where
  sorted : KeySorted LogUserFilter.name users
  plain : ∀ user ∈ users, user.regex = none ∧ '\x00' ∉ user.name
structure EntityPlain (entity : LogEntityFilter Regex) : Prop where
  plain : entity.regex = none
  whole : '\x00' ∉ entity.name
  users : UsersSorted entity.users
structure FilterSorted (filter : LogMsgFilter Regex) : Prop where
  default_plain : EntityPlain filter.def_entity
  default_name : filter.def_entity.name = []
  sorted : KeySorted LogEntityFilter.name filter.entities
  plain : ∀ entity ∈ filter.entities, EntityPlain entity
  named : ∀ entity ∈ filter.entities, entity.name ≠ []
/-- A change of an entity that leaves its name. -/
structure KeepsPlain (change : LogEntityFilter Regex → Option (LogEntityFilter Regex)) : Prop where
  plain : ∀ entity entity', EntityPlain entity → change entity = some entity' → EntityPlain entity'
  name : ∀ entity entity', change entity = some entity' → entity'.name = entity.name
  defined : ∀ entity, (change entity).isSome = true

variable {pcre2_compile} {filter filter' : LogMsgFilter Regex} {change : LogEntityFilter Regex → Option (LogEntityFilter Regex)}

theorem init_sorted : FilterSorted (log_msg_filter_init : LogMsgFilter Regex) where
  default_plain := ⟨rfl,not_mem_nil,⟨List.Pairwise.nil,nofun⟩⟩
  default_name := rfl
  sorted := List.Pairwise.nil
  plain := nofun
  named := nofun
theorem keeps_level (level : UInt16 → UInt16) :
    KeepsPlain (fun entity : LogEntityFilter Regex => some {entity with level := level entity.level}) where
  plain _ _ good result := some.inj result ▸ ⟨good.plain,good.whole,good.users⟩
  name _ _ result := some.inj result ▸ rfl
  defined _ := rfl
theorem keeps_add_user (inclusive : Bool) (name : Name) (level_mask : UInt16) :
    KeepsPlain (log_entity_filter_add_user pcre2_compile inclusive name false level_mask) where
  plain entity entity' good result := by
    obtain ⟨users,updated,rfl⟩ := of_map result
    refine ⟨good.plain,good.whole,?_,?_⟩
    · refine updateKey_sorted good.users.sorted (fun a made => ?_) (fun a b changed => ?_) updated
      · exact some.inj made ▸ rfl
      · exact some.inj changed ▸ rfl
    · refine updateKey_forall good.users.plain (fun a made => ?_) (fun a b plain changed => ?_) updated
      · exact some.inj made ▸ ⟨rfl,name.property⟩
      · exact some.inj changed ▸ plain
  name entity entity' result := by
    obtain ⟨users,_,rfl⟩ := of_map result
    rfl
  defined entity := Option.isSome_map.trans (updateKey_some rfl (fun _ => rfl) _)
/-- The entity that is looked up is changed, and made with a plain name before where it is missing. -/
theorem withEntity_sorted (keeps : KeepsPlain change) (name : Option Name) (good : FilterSorted filter) :
    ∃ filter', withEntity pcre2_compile name false change filter = some filter' ∧ FilterSorted filter' := by
  rw [withEntity]
  dsimp only
  by_cases default : name.elim [] Subtype.val = []
  · obtain ⟨def_entity,changed⟩ := isSome_iff_exists.mp (keeps.defined filter.def_entity)
    rw [if_pos default,changed]
    exact ⟨_,rfl,keeps.plain _ _ good.default_plain changed,(keeps.name _ _ changed).trans good.default_name,good.sorted,good.plain,good.named⟩
  · rw [if_neg default]
    have whole : '\x00' ∉ name.elim [] Subtype.val := by
      cases name with
      | none => exact not_mem_nil
      | some name => exact name.property
    obtain ⟨entities,updated⟩ := isSome_iff_exists.mp (@updateKey_some _ _ _ LogEntityFilter.name (name.elim [] Subtype.val)
      ((log_entity_filter_init pcre2_compile (name.elim [] Subtype.val) false).map fun entity => {entity with level := filter.def_entity.level})
      change rfl keeps.defined filter.entities)
    rw [updated]
    refine ⟨_,rfl,good.default_plain,good.default_name,?_,?_,?_⟩
    · refine updateKey_sorted good.sorted (fun a made => ?_) keeps.name updated
      exact some.inj made ▸ rfl
    · refine updateKey_forall good.plain (fun a made => ?_) keeps.plain updated
      exact some.inj made ▸ ⟨rfl,whole,⟨List.Pairwise.nil,nofun⟩⟩
    · refine updateKey_forall good.named (fun a made => ?_) (fun a b named changed => ?_) updated
      · exact some.inj made ▸ default
      · exact (keeps.name a b changed).symm ▸ named
/-- A change of all entities. -/
theorem mapM_plain (keeps : KeepsPlain change) (entities : List (LogEntityFilter Regex)) :
    ∃ entities', entities.mapM change = some entities' ∧ entities'.map LogEntityFilter.name = entities.map LogEntityFilter.name ∧
      ((∀ entity ∈ entities, EntityPlain entity) → ∀ entity ∈ entities', EntityPlain entity) := by
  induction entities with
  | nil => exact ⟨[],rfl,rfl,fun _ => nofun⟩
  | cons entity entities ih =>
    obtain ⟨entity',changed⟩ := isSome_iff_exists.mp (keeps.defined entity)
    obtain ⟨entities',mapped,names,plain⟩ := ih
    refine ⟨entity' :: entities',?_,?_,fun good => ?_⟩
    · rw [List.mapM_cons,changed,mapped]
      rfl
    · rw [map_cons,map_cons,names,keeps.name entity entity' changed]
    · obtain ⟨first,rest⟩ := forall_mem_cons.mp good
      exact forall_mem_cons.mpr ⟨keeps.plain entity entity' first changed,plain rest⟩
theorem run_sorted {call : FilterCall} (plain : call.Plain) (good : FilterSorted filter) :
    ∃ filter', call.run pcre2_compile filter = some filter' ∧ FilterSorted filter' := by
  cases call with
  | set_default inclusive level_mask =>
    have default := (keeps_level (masked inclusive level_mask)).plain _ _ good.default_plain rfl
    exact ⟨_,rfl,default,good.default_name,good.sorted,good.plain,good.named⟩
  | add_entity inclusive name regex level_mask =>
    obtain rfl : regex = false := plain
    exact withEntity_sorted (keeps_level (masked inclusive level_mask)) name good
  | add_user inclusive entity entity_regex user user_regex level_mask =>
    obtain ⟨rfl,rfl⟩ : entity_regex = false ∧ user_regex = false := plain
    have keeps : KeepsPlain (log_entity_filter_add_user pcre2_compile inclusive user false level_mask) := keeps_add_user inclusive user level_mask
    cases entity with
    | some entity => exact withEntity_sorted keeps (some entity) good
    | none =>
      obtain ⟨entities,mapped,names,all_plain⟩ := mapM_plain keeps filter.entities
      obtain ⟨def_entity,changed⟩ := isSome_iff_exists.mp (keeps.defined filter.def_entity)
      refine ⟨⟨entities,def_entity⟩,?_,keeps.plain _ _ good.default_plain changed,(keeps.name _ _ changed).trans good.default_name,?_,all_plain good.plain,?_⟩
      · rw [FilterCall.run,log_msg_filter_add_user,mapped,changed]
        rfl
      · have sorted := pairwise_map.mpr good.sorted
        rw [← names] at sorted
        exact pairwise_map.mp sorted
      · intro entity member empty
        have inside := mem_map_of_mem (f := LogEntityFilter.name) member
        rw [names,empty] at inside
        obtain ⟨entity',member',empty'⟩ := mem_map.mp inside
        exact good.named entity' member' empty'
theorem filterOf_sorted {calls : List FilterCall} (plain : ∀ call ∈ calls, call.Plain) :
    ∃ filter : LogMsgFilter Regex, filterOf pcre2_compile calls = some filter ∧ FilterSorted filter := by
  have later (calls : List FilterCall) (plain : ∀ call ∈ calls, call.Plain) (filter : LogMsgFilter Regex) (good : FilterSorted filter) :
      ∃ filter', calls.foldlM (FilterCall.run pcre2_compile) filter = some filter' ∧ FilterSorted filter' := by
    induction calls generalizing filter with
    | nil => exact ⟨filter,rfl,good⟩
    | cons call calls ih =>
      obtain ⟨first,rest⟩ := forall_mem_cons.mp plain
      obtain ⟨filter',ran,good'⟩ := @run_sorted Regex pcre2_compile filter call first good
      rw [foldlM_cons,ran]
      exact ih rest filter' good'
  exact later calls plain _ init_sorted
end

section
variable {Regex : Type} {pcre2_match : Regex → List Char → Bool} {name : List Char} {α : Type} {key : α → CStr} {l : List α}

/-- The rule for the entity of a message, and for its user: the one with its name. -/
def ownEntity (filter : LogMsgFilter Regex) (view : FilteredMsg) : LogEntityFilter Regex :=
  (filter.entities.find? fun entity => entity.name = view.entity).getD filter.def_entity
def ownUser (entity : LogEntityFilter Regex) (view : FilteredMsg) : Option (LogUserFilter Regex) :=
  entity.users.find? fun user => user.name = view.user
/-- The name is one of the names, or none of them begins with it. -/
def Decided (name : List Char) (names : List CStr) : Prop := name ∈ names ∨ ∀ fname ∈ names, strncmpEqual name fname = false
instance (name : List Char) (names : List CStr) : Decidable (Decided name names) := inferInstanceAs (Decidable (_ ∨ _))

theorem strncmpEqual_self (name : List Char) : strncmpEqual name name = true := by
  induction name with
  | nil => rfl
  | cons c name ih => rw [strncmpEqual,ih,decide_eq_true rfl,Bool.or_true]; rfl
/-- Only a name that begins with it matches, so that it is not a smaller one. -/
theorem strncmpEqual_not_less {fname : CStr} (whole : '\x00' ∉ name) (equal : strncmpEqual name fname = true) : ¬ fname < name := by
  induction name generalizing fname with
  | nil => exact List.not_lt_nil fname
  | cons c name ih =>
    obtain ⟨other,whole⟩ := List.ne_and_not_mem_of_not_mem_cons whole
    cases fname with
    | nil => exact absurd (of_decide_eq_true equal).symm other
    | cons f fname =>
      rw [strncmpEqual,and_eq_true,or_eq_true,decide_eq_true_eq,decide_eq_true_eq] at equal
      obtain ⟨rfl,zero | later⟩ := equal
      · exact absurd zero.symm other
      · simp [ih,whole,later]
theorem find_own (sorted : KeySorted key l) (whole : ∀ e ∈ l, '\x00' ∉ key e) :
    l.find? (fun e => strncmpEqual name (key e)) = l.find? (fun e => key e = name) ↔ Decided name (l.map key) := by
  by_cases there : name ∈ l.map key
  · refine iff_of_true ?_ (.inl there)
    obtain ⟨e,member,rfl⟩ := mem_map.mp there
    obtain ⟨front,rest,rfl⟩ := append_of_mem member
    have before {a : α} (inside : a ∈ front) : key a < key e := (pairwise_append.mp sorted).2.2 a inside e mem_cons_self
    have own : (front ++ e :: rest).find? (fun a => key a = key e) = some e := by grind
    rw [own]
    refine List.find?_eq_some_iff_append.mpr ⟨strncmpEqual_self _,front,rest,rfl,fun a inside => ?_⟩
    rw [Bool.not_eq_true']
    refine Bool.eq_false_iff.mpr fun equal => ?_
    exact strncmpEqual_not_less (whole e member) equal (before inside)
  · have own : l.find? (fun e => key e = name) = none := by grind
    rw [own,find?_eq_none,Decided,or_iff_right there,List.forall_mem_map]
    simp only [Bool.not_eq_true]
theorem used_user_iff {entity : LogEntityFilter Regex} {view : FilteredMsg} (users : UsersSorted entity.users) :
    usedUser pcre2_match entity view = ownUser entity view ↔ Decided view.user (entity.users.map LogUserFilter.name) := by
  rw [← find_own users.sorted fun user member => (users.plain user member).2,usedUser,ownUser]
  have same : ∀ user ∈ entity.users, check_name pcre2_match view.user user.name user.regex = strncmpEqual view.user user.name := fun user member => by
    rw [(users.plain user member).1]
    rfl
  rw [List.find?_congr same]
theorem used_entity_iff {filter : LogMsgFilter Regex} {view : FilteredMsg} (good : FilterSorted filter) :
    usedEntity pcre2_match filter view = ownEntity filter view ↔ Decided view.entity (filter.entities.map LogEntityFilter.name) := by
  have found := @find_own view.entity _ LogEntityFilter.name filter.entities good.sorted fun entity member => (good.plain entity member).whole
  have same : ∀ entity ∈ filter.entities, check_name pcre2_match view.entity entity.name entity.regex = strncmpEqual view.entity entity.name :=
    fun entity member => by
      rw [(good.plain entity member).plain]
      rfl
  rw [usedEntity,ownEntity,List.find?_congr same]
  refine ⟨fun used => ?_,fun decided => by rw [found.mpr decided]⟩
  by_contra undecided
  have no_own : filter.entities.find? (fun entity => entity.name = view.entity) = none := by
    refine find?_eq_none.mpr fun entity member same => undecided (.inl ?_)
    exact of_decide_eq_true same ▸ mem_map_of_mem member
  rw [no_own] at found used
  obtain ⟨entity,matched⟩ := ne_none_iff_exists'.mp (mt found.mp undecided)
  rw [matched] at used
  -- a rule of the list has a name, unlike the default
  refine good.named entity (mem_of_find?_eq_some matched) ?_
  rw [show entity = filter.def_entity from used,good.default_name]
end

section
variable {Regex : Type} {pcre2_match : Regex → List Char → Bool} {α : Type}

/-- Rules that match the same names. -/
def MatchAlike (pcre2_match : Regex → List Char → Bool) (a b : CStr × Option Regex) : Prop :=
  ∀ name, check_name pcre2_match name a.1 a.2 = check_name pcre2_match name b.1 b.2
def UsersAlike (pcre2_match : Regex → List Char → Bool) : List (LogUserFilter Regex) → List (LogUserFilter Regex) → Prop :=
  List.Forall₂ fun a b => MatchAlike pcre2_match (a.name,a.regex) (b.name,b.regex)
/-- The rules at the same places of two filters match the same names. -/
structure Corresponding (pcre2_match : Regex → List Char → Bool) (a b : LogMsgFilter Regex) : Prop where
  default_users : UsersAlike pcre2_match a.def_entity.users b.def_entity.users
  entities : List.Forall₂ (fun a b => MatchAlike pcre2_match (a.name,a.regex) (b.name,b.regex) ∧ UsersAlike pcre2_match a.users b.users) a.entities b.entities

theorem listsEqual_iff {equal : α → α → Bool} {as bs : List α} : listsEqual equal as bs = true ↔ List.Forall₂ (fun a b => equal a b = true) as bs := by
  induction as generalizing bs with
  | nil =>
    cases bs with
    | nil => exact iff_of_true rfl .nil
    | cons b bs => exact iff_of_false Bool.false_ne_true nofun
  | cons a as ih =>
    cases bs with
    | nil => exact iff_of_false Bool.false_ne_true nofun
    | cons b bs => rw [listsEqual,and_eq_true,List.forall₂_cons,ih]
theorem forall₂_and {R S : α → α → Prop} {as bs : List α} (first : List.Forall₂ R as bs) (second : List.Forall₂ S as bs) :
    List.Forall₂ (fun a b => R a b ∧ S a b) as bs := by
  induction first with
  | nil => exact .nil
  | cons r _ ih => simp_all
/-- The first elements that are found stand at the same place. -/
theorem find_alike {R : α → α → Prop} {p q : α → Bool} {as bs : List α} (alike : List.Forall₂ (fun a b => p a = q b ∧ R a b) as bs) :
    as.find? p = none ∧ bs.find? q = none ∨ ∃ a b, as.find? p = some a ∧ bs.find? q = some b ∧ R a b := by
  induction alike with
  | nil => exact .inl ⟨rfl,rfl⟩
  | @cons a b as bs both _ ih => grind
theorem level_alike {a b : LogEntityFilter Regex} (equal : entity_filter_equal a b = true) (alike : UsersAlike pcre2_match a.users b.users) (view : FilteredMsg) :
    levelMask a (usedUser pcre2_match a view) = levelMask b (usedUser pcre2_match b view) := by
  rw [entity_filter_equal,and_eq_true,and_eq_true,decide_eq_true_eq,decide_eq_true_eq,listsEqual_iff] at equal
  obtain ⟨⟨level,_⟩,users⟩ := equal
  have both := (forall₂_and alike users).imp fun _ _ both => And.imp_left (fun alike => alike view.user) both
  rw [usedUser,usedUser]
  obtain ⟨none,none'⟩ | ⟨user,user',some,some',same⟩ := find_alike both
  · rw [none,none']
    exact level
  · rw [some,some']
    rw [user_filter_equal,and_eq_true,decide_eq_true_eq] at same
    exact same.1
/-- Filters that are equal decide alike where their rules match alike. -/
theorem check_alike {a b : LogMsgFilter Regex} (equal : log_msg_filter_equal a b = true) (corresponding : Corresponding pcre2_match a b) (view : FilteredMsg) :
    log_msg_filter_check pcre2_match a view = log_msg_filter_check pcre2_match b view := by
  rw [log_msg_filter_equal,and_eq_true,listsEqual_iff] at equal
  have both := (forall₂_and corresponding.entities equal.2).imp fun _ _ both => And.imp_left (fun alike => alike.1 view.entity) ⟨both.1,both⟩
  have level : levelMask (usedEntity pcre2_match a view) (usedUser pcre2_match (usedEntity pcre2_match a view) view) =
      levelMask (usedEntity pcre2_match b view) (usedUser pcre2_match (usedEntity pcre2_match b view) view) := by
    rw [usedEntity,usedEntity]
    obtain ⟨none,none'⟩ | ⟨entity,entity',some,some',alike,same⟩ := find_alike both
    · rw [none,none']
      exact level_alike equal.1 corresponding.default_users view
    · rw [some,some']
      exact level_alike same alike.2 view
  rw [log_msg_filter_check,log_msg_filter_check,level]
theorem forall_plain {R : α → α → Prop} {p q : α → Prop} {as bs : List α} (alike : List.Forall₂ R as bs) (left : ∀ a ∈ as, p a) (right : ∀ b ∈ bs, q b) :
    List.Forall₂ (fun a b => p a ∧ q b ∧ R a b) as bs := by
  induction alike with
  | nil => exact .nil
  | cons r _ ih =>
    obtain ⟨p_a,left⟩ := forall_mem_cons.mp left
    obtain ⟨q_b,right⟩ := forall_mem_cons.mp right
    exact .cons ⟨p_a,q_b,r⟩ (ih left right)
/-- Plain rules with the same name match alike. -/
theorem plain_users {as bs : List (LogUserFilter Regex)} (equal : listsEqual user_filter_equal as bs = true) (plain_a : UsersSorted as) (plain_b : UsersSorted bs) :
    UsersAlike pcre2_match as bs := by
  refine (forall_plain (listsEqual_iff.mp equal) plain_a.plain plain_b.plain).imp fun a b both name => ?_
  obtain ⟨a_plain,b_plain,same⟩ := both
  rw [user_filter_equal,and_eq_true,decide_eq_true_eq,decide_eq_true_eq] at same
  rw [same.2,a_plain.1,b_plain.1]
theorem plain_alike {a b : LogMsgFilter Regex} (equal : log_msg_filter_equal a b = true) (good_a : FilterSorted a) (good_b : FilterSorted b) :
    Corresponding pcre2_match a b := by
  rw [log_msg_filter_equal,and_eq_true] at equal
  have entity {a b : LogEntityFilter Regex} (equal : entity_filter_equal a b = true) (plain_a : EntityPlain a) (plain_b : EntityPlain b) :
      MatchAlike pcre2_match (a.name,a.regex) (b.name,b.regex) ∧ UsersAlike pcre2_match a.users b.users := by
    rw [entity_filter_equal,and_eq_true,and_eq_true,decide_eq_true_eq,decide_eq_true_eq] at equal
    refine ⟨fun name => ?_,plain_users equal.2 plain_a.users plain_b.users⟩
    rw [equal.1.2,plain_a.plain,plain_b.plain]
  refine ⟨(entity equal.1 good_a.default_plain good_b.default_plain).2,?_⟩
  exact (forall_plain (listsEqual_iff.mp equal.2) good_a.plain good_b.plain).imp fun a b both => entity both.2.2 both.1 both.2.1
end

section
variable {Regex : Type} (pcre2_compile : CStr → Option Regex) (pcre2_match : Regex → List Char → Bool)

/-- A filter of plain names decides by its own rules if and only if a name of the message that no rule has is not the beginning of the name of one;
and filters that are equal decide alike where their rules match alike, as plain ones do. -/
theorem msg_filter_decides (calls : List FilterCall) (plain : ∀ call ∈ calls, call.Plain) : ∃ filter, filterOf pcre2_compile calls = some filter ∧
    (∀ view, usedEntity pcre2_match filter view = ownEntity filter view ∧
        usedUser pcre2_match (usedEntity pcre2_match filter view) view = ownUser (ownEntity filter view) view ↔
      Decided view.entity (filter.entities.map LogEntityFilter.name) ∧ Decided view.user ((ownEntity filter view).users.map LogUserFilter.name)) ∧
    (∀ calls', (∀ call ∈ calls', call.Plain) → ∃ other, filterOf pcre2_compile calls' = some other ∧
      (log_msg_filter_equal filter other = true → ∀ view, log_msg_filter_check pcre2_match filter view = log_msg_filter_check pcre2_match other view)) ∧
    ∀ a b, log_msg_filter_equal a b = true → Corresponding pcre2_match a b →
      ∀ view, log_msg_filter_check pcre2_match a view = log_msg_filter_check pcre2_match b view := by
  obtain ⟨filter,built,good⟩ := @filterOf_sorted Regex pcre2_compile calls plain
  refine ⟨filter,built,fun view => ?_,fun calls' plain' => ?_,fun a b equal alike => check_alike equal alike⟩
  · have own_users : UsersSorted (ownEntity filter view).users := by
      rw [ownEntity]
      cases own : filter.entities.find? fun entity => entity.name = view.entity with
      | none => exact good.default_plain.users
      | some entity => exact (good.plain entity (mem_of_find?_eq_some own)).users
    rw [← @used_entity_iff Regex pcre2_match filter view good,← @used_user_iff Regex pcre2_match (ownEntity filter view) view own_users]
    refine and_congr_right fun same => ?_
    rw [same]
  · obtain ⟨other,built',good'⟩ := @filterOf_sorted Regex pcre2_compile calls' plain'
    exact ⟨other,built',fun equal => check_alike equal (plain_alike equal good good')⟩
end

/-- The rule `Tester`, or a pattern `a.c`. -/
def excludeTester : List FilterCall := [.add_entity false (some ⟨['T','e','s','t','e','r'],by decide⟩) false 0xffff]
def excludePattern (regex : Bool) : List FilterCall := [.add_entity false (some ⟨['a','.','c'],by decide⟩) regex 0xffff]
/-- What a library makes of `a.c`, for names of three characters. -/
def dotMatch (_ : Unit) (name : List Char) : Bool := name.head? = some 'a' && name.getLast? = some 'c' && name.length = 3
theorem msg_filter_decides_tester : (∀ call ∈ excludeTester, call.Plain) ∧ ∃ filter, filterOf (fun _ => some ()) excludeTester = some filter ∧
    ∀ view, usedEntity dotMatch filter view = ownEntity filter view ∧ usedUser dotMatch (usedEntity dotMatch filter view) view = ownUser (ownEntity filter view) view ↔
      Decided view.entity (filter.entities.map LogEntityFilter.name) ∧ Decided view.user ((ownEntity filter view).users.map LogUserFilter.name) := by
  have plain : ∀ call ∈ excludeTester, call.Plain := forall_mem_singleton.mpr rfl
  obtain ⟨filter,built,decides,_⟩ := msg_filter_decides (fun _ => some ()) dotMatch excludeTester plain
  exact ⟨plain,filter,built,decides⟩
/-- A message of `Test` is decided by the rule for `Tester`, and filters that differ in whether a rule is a pattern are equal. -/
theorem shorter_name_decided : (∃ filter, filterOf (fun _ => some ()) excludeTester = some filter ∧
      usedEntity dotMatch filter ⟨['T','e','s','t'],['m','e'],1⟩ ≠ ownEntity filter ⟨['T','e','s','t'],['m','e'],1⟩ ∧
      log_msg_filter_check dotMatch filter ⟨['T','e','s','t'],['m','e'],1⟩ = .FAIL) ∧
    ∃ a b, filterOf (fun _ => some ()) (excludePattern false) = some a ∧ filterOf (fun _ => some ()) (excludePattern true) = some b ∧
      log_msg_filter_equal a b = true ∧
      log_msg_filter_check dotMatch a ⟨['a','b','c'],['m','e'],1⟩ ≠ log_msg_filter_check dotMatch b ⟨['a','b','c'],['m','e'],1⟩ :=
  ⟨⟨_,rfl,by decide,by decide⟩,_,_,rfl,rfl,by decide,by decide⟩
end TestEnvironment.LogProc
