import TestEnvironment.Configurator.Types
import TestEnvironment.Lib.Decimal
import TestEnvironment.Tools.KeyValues

/-!
Records in instance names (`conf_object.c`): the items `name=value` of the fields that a mask selects, and what `te_conf_obj_from_str` makes of them.
-/
namespace TestEnvironment.Configurator.ConfObject
open Lib

def AF_INET : Nat := 2
def AF_INET6 : Nat := 10
/-- A socket address, less its port; the places of the two addresses do not overlap. -/
structure SockaddrStorage where
  sa_family : Nat
  sin_addr : List Nat
  sin6_addr : List Nat

/-- The types of fields; the option of a string is its room. -/
inductive TeConfObjMethods
  | te_bool | uint8_t | uint32_t | sockaddr
  | str (max_size : Nat)
  deriving DecidableEq
@[reducible] def TeConfObjMethods.Value : TeConfObjMethods → Type
  | te_bool => Bool
  | uint8_t => BitVec 8
  | uint32_t => BitVec 32
  | sockaddr => SockaddrStorage
  | str _ => CStr
/-- `te_conf_obj` as `TE_CONF_OBJ_INIT` makes it: the name is the designator of the member. -/
structure TeConfObj where
  name : CStr
  flag : BitVec 32
  methods : TeConfObjMethods
  designator : ',' ∉ name ∧ '=' ∉ name ∧ '!' ∉ name
  deriving DecidableEq
abbrev Base := (f : TeConfObj) → f.methods.Value

/-- `strtoul(s, &end, 10)`: the number and `end`. -/
def strtoul (s : CStr) : Nat × CStr :=
  let t := s.dropWhile isspace
  let minus := t.head? = some '-'
  let t := if minus ∨ t.head? = some '+' then t.tail else t
  let n := digitsNumber (t.takeWhile isdigit)
  if t.takeWhile isdigit = [] then (0,s)
  else (if 2^64 ≤ n then 2^64-1 else if minus then (2^64-n)%2^64 else n,t.dropWhile isdigit)
/-- The function of `DECLARE_NUMERIC_TYPE`. -/
def numeric_from_str {w : Nat} (value : CStr) (arg : BitVec w) : BitVec w × Rc :=
  let (num,end') := strtoul value
  if end' = value ∨ end' ≠ [] then (arg,te .EINVAL) else (.ofNat w num,none)

variable {w : Nat} {m : TeConfObjMethods} {value : m.Value} {minus : Bool} {digits : CStr} {base : Base} {mask : BitVec 32}
  {all fields : List TeConfObj} {f : TeConfObj} {string r : Option CStr}

/-- Every decimal text is read, however large its number. -/
theorem numeric_from_decimal (some' : digits ≠ []) (all : ∀ c ∈ digits, isdigit c = true) (arg : BitVec w) :
    ∃ num, numeric_from_str ((if minus then ['-'] else []) ++ digits) arg = (.ofNat w num,none) ∧
      (minus = false → digitsNumber digits < 2^64 → num = digitsNumber digits) := by
  obtain ⟨d,ds,rfl⟩ := exists_cons_of_ne_nil some'
  have first := all d mem_cons_self
  have visible := digit_not_space first
  have signs : d ≠ '-' ∧ d ≠ '+' := by constructor <;> rintro rfl <;> simp [isdigit] at first
  have whole := List.takeWhile_eq_self_iff.mpr all
  have nothing := List.dropWhile_eq_nil_iff.mpr all
  cases minus with
  | false => exact ⟨_,by simp [numeric_from_str,strtoul,visible,signs,whole,nothing]; rfl,fun _ small => by grind⟩
  | true => exact ⟨_,by simp [numeric_from_str,strtoul,whole,nothing,show isspace '-' = false by decide]; rfl,by simp⟩
theorem find_field (distinct : (all.map TeConfObj.name).Nodup) (member : f ∈ all) : all.find? (fun g => g.name = f.name) = some f := by
  cases found : all.find? fun g => g.name = f.name with
  | none => simpa using find?_eq_none.mp found f member
  | some g =>
    have same : g.name = f.name := by simpa using find?_some found
    rw [List.inj_on_of_nodup_map distinct (mem_of_find?_eq_some found) member same]
theorem glue_items (i : CStr) (items : List CStr) :
    items.foldl (fun s item => some (s.elim [] (· ++ [',']) ++ item)) (some i) = some (i ++ items.flatMap fun item => ',' :: item) := by
  induction items generalizing i with
  | nil => simp
  | cons item items ih => simp [ih]

section
variable [Libc]

def te_sockaddr_h2str (sa : SockaddrStorage) : Except TeErrno CStr :=
  if sa.sa_family = AF_INET then .ok (Libc.inet_ntop (.inet sa.sin_addr))
  else if sa.sa_family = AF_INET6 then .ok (Libc.inet_ntop (.inet6 sa.sin6_addr))
  else .error ⟨.other 28,.other 97⟩ -- `TE_TOOL_EXT`, `TE_EAFNOSUPPORT`
def te_sockaddr_str2h (string : CStr) (sa : SockaddrStorage) : SockaddrStorage × Rc :=
  if ':' ∈ string then
    match Libc.inet_pton (.inet6 []) string with
    | some a => ({sa with sa_family := AF_INET6,sin6_addr := a},none)
    | none => ({sa with sa_family := AF_INET6},some ⟨.other 28,.EINVAL⟩)
  else
    match Libc.inet_pton (.inet []) string with
    | some a => ({sa with sa_family := AF_INET,sin_addr := a},none)
    | none => ({sa with sa_family := AF_INET},some ⟨.other 28,.EINVAL⟩)

/-- The text `"%s=%s"`. -/
def fieldItem (name value : CStr) : CStr := name ++ '=' :: value
def to_str (name : CStr) : (m : TeConfObjMethods) → m.Value → Except TeErrno CStr
  | .te_bool,value => .ok (fieldItem name (if value then "true".toList else "false".toList))
  | .uint8_t,n | .uint32_t,n => .ok (fieldItem name (natText n.toNat))
  | .sockaddr,sa => (te_sockaddr_h2str sa).map (fieldItem name)
  | .str _,s => .ok (fieldItem name s)
def from_str (value : CStr) : (m : TeConfObjMethods) → m.Value → m.Value × Rc
  | .te_bool,arg =>
    if value = "true".toList then (true,none) else if value = "false".toList then (false,none) else (arg,te .EINVAL)
  | .uint8_t,arg | .uint32_t,arg => numeric_from_str value arg
  | .sockaddr,sa => te_sockaddr_str2h value sa
  | .str max_size,arg => if value.length ≥ max_size then (arg,te .ENOMEM) else (value,none)
def compare : (m : TeConfObjMethods) → m.Value → m.Value → Bool
  | .te_bool,a,b | .uint8_t,a,b | .uint32_t,a,b | .str _,a,b => a == b
  | .sockaddr,a,b => a.sa_family = b.sa_family ∧
    (a.sa_family = AF_INET ∧ a.sin_addr = b.sin_addr ∨ a.sa_family = AF_INET6 ∧ a.sin6_addr = b.sin6_addr)

/-- The items; before the first one `string.ptr` is `NULL`. -/
def toStrLoop (base : Base) (mask : BitVec 32) : List TeConfObj → Option CStr → Except TeErrno (Option CStr)
  | [],string => .ok string
  | f :: fields,string =>
    if mask &&& f.flag ≠ 0 then
      match to_str f.name f.methods (base f) with
      | .error e => .error e
      | .ok item => toStrLoop base mask fields (some (string.elim [] (· ++ [',']) ++ item))
    else toStrLoop base mask fields string
/-- The text or the error; `none` is the undefined `strdup(NULL)`. -/
def te_conf_obj_to_str (fields : List TeConfObj) (base : Base) (mask : BitVec 32) : Option (Except TeErrno CStr) :=
  match toStrLoop base mask fields none with
  | .error e => some (.error e)
  | .ok string => string.map .ok

/-- What `te_conf_obj_from_str` writes. -/
structure Reading where
  required : BitVec 32
  base : Base
  mask : BitVec 32
def readItem (fields : List TeConfObj) (name : CStr) (o : Reading) : Reading × Rc :=
  match strchr '=' name with
  | some (name,value) =>
    match fields.find? fun f => f.name = name with
    | some f =>
      let (arg,rc) := from_str value f.methods (o.base f)
      ({o with base := update o.base f arg,mask := if rc = none then o.mask ||| f.flag else o.mask},rc)
    | none => (o,te .EINVAL)
  | none =>
    if name.head? = some '!' then
      match fields.find? fun f => f.name = name with
      | some f => ({o with required := o.required ||| f.flag},none)
      | none => (o,te .EINVAL)
    else (o,te .EINVAL)
def readItems (fields : List TeConfObj) : List CStr → Reading → Reading × Rc
  | [],o => (o,none)
  | name :: names,o =>
    let (o,rc) := readItem fields name o
    if rc = none then readItems fields names o else (o,rc)
def te_conf_obj_from_str (fields : List TeConfObj) (str : CStr) (o : Reading) : Reading × Rc :=
  let (o,rc) := readItems fields (strtok ',' str) o
  ({o with required := o.required ||| o.mask},rc)

/-- Only these addresses have a text. -/
def Supported : (m : TeConfObjMethods) → m.Value → Prop
  | .sockaddr,sa => sa.sa_family = AF_INET ∨ sa.sa_family = AF_INET6
  | _,_ => True
/-- A string fits its room and has no comma; `inet_pton` reads what `inet_ntop` writes for an address, with colons if it is one of IPv6. -/
def Plain : (m : TeConfObjMethods) → m.Value → Prop
  | .sockaddr,sa =>
    let v4 := Libc.inet_ntop (.inet sa.sin_addr)
    let v6 := Libc.inet_ntop (.inet6 sa.sin6_addr)
    (sa.sa_family = AF_INET → ',' ∉ v4 ∧ ':' ∉ v4 ∧ Libc.inet_pton (.inet []) v4 = some sa.sin_addr) ∧
      (sa.sa_family = AF_INET6 → ',' ∉ v6 ∧ ':' ∈ v6 ∧ Libc.inet_pton (.inet6 []) v6 = some sa.sin6_addr)
  | .str max_size,s => s.length < max_size ∧ ',' ∉ s
  | _,_ => True
/-- The flags of the fields that a mask selects. -/
def flagsOf (mask : BitVec 32) : List TeConfObj → BitVec 32
  | [] => 0
  | f :: fields => if mask &&& f.flag ≠ 0 then f.flag ||| flagsOf mask fields else flagsOf mask fields
/-- The decimal texts of numbers that a numeric field has no room for. -/
def OutOfRange (m : TeConfObjMethods) (text : CStr) : Prop :=
  ∃ (w : Nat) (minus : Bool) (digits : CStr), (m = .uint8_t ∧ w = 8 ∨ m = .uint32_t ∧ w = 32) ∧
    text = (if minus then ['-'] else []) ++ digits ∧ digits ≠ [] ∧ (∀ c ∈ digits, isdigit c = true) ∧
    (2^w ≤ digitsNumber digits ∨ minus = true ∧ digitsNumber digits ≠ 0)
/-- The text sets the selected fields and the flags, and no other field. -/
def Restores (fields : List TeConfObj) (base : Base) (mask : BitVec 32) (text : CStr) (flags : BitVec 32) : Prop :=
  ∀ o, let (new,rc) := te_conf_obj_from_str fields text o
    rc = none ∧ new.mask = o.mask ||| flags ∧ ∀ f ∈ fields,
      if mask &&& f.flag ≠ 0 then compare f.methods (new.base f) (base f) = true else new.base f = o.base f
def RoundTrips (fields : List TeConfObj) (base : Base) (mask : BitVec 32) : Prop :=
  ∃ text, te_conf_obj_to_str fields base mask = some (.ok text) ∧ Restores fields base mask text mask

theorem from_str_to_str (supported : Supported m value) (plain : Plain m value) (name : CStr) :
    ∃ text, to_str name m value = .ok (fieldItem name text) ∧ ',' ∉ text ∧
      ∀ arg, (from_str text m arg).2 = none ∧ compare m (from_str text m arg).1 value = true := by
  have number {w : Nat} (small : w ≤ 64) (n arg : BitVec w) : numeric_from_str (natText n.toNat) arg = (n,none) := by
    obtain ⟨num,read,exact'⟩ := @numeric_from_decimal w false _ (natText_nonempty n.toNat) (natText_digits _) arg
    have fits := lt_of_lt_of_le n.isLt (Nat.pow_le_pow_right (by decide) small)
    rw [exact' rfl (by rwa [natText_number]),natText_number,BitVec.ofNat_toNat,BitVec.setWidth_eq] at read
    exact read
  cases m with
  | te_bool => cases value <;> exact ⟨_,rfl,by decide,fun _ => ⟨rfl,rfl⟩⟩
  | uint8_t | uint32_t => exact ⟨_,rfl,natText_plain rfl,fun arg => by simp [from_str,number,compare]⟩
  | sockaddr =>
    obtain v4 | v6 := supported
    · obtain ⟨comma,colon,back⟩ := plain.1 v4
      exact ⟨_,by simp [to_str,te_sockaddr_h2str,v4]; rfl,comma,fun arg => by simp [from_str,te_sockaddr_str2h,colon,back,compare,v4]⟩
    · obtain ⟨comma,colon,back⟩ := plain.2 v6
      exact ⟨_,by simp [to_str,te_sockaddr_h2str,v6]; rfl,comma,fun arg => by simp [from_str,te_sockaddr_str2h,colon,back,compare,v6]⟩
  | str max_size => exact ⟨value,rfl,plain.2,fun arg => by simp [from_str,not_le.mpr plain.1,compare]⟩
theorem OutOfRange.accepted {text : CStr} (large : OutOfRange m text) : ',' ∉ text ∧ ∀ arg, (from_str text m arg).2 = none := by
  obtain ⟨w,minus,digits,width,rfl,some',all,-⟩ := large
  have digits' : ',' ∉ digits := fun comma => absurd (all _ comma) (by decide)
  refine ⟨by cases minus <;> simp [digits'],fun arg => ?_⟩
  obtain ⟨rfl,-⟩ | ⟨rfl,-⟩ := width
  all_goals
    obtain ⟨_,read,-⟩ := @numeric_from_decimal _ minus _ some' all arg
    exact congrArg Prod.snd read
theorem to_str_supported {name item : CStr} (written : to_str name m value = .ok item) : Supported m value := by
  cases m with
  | sockaddr =>
    by_contra neither
    simp_all [to_str,te_sockaddr_h2str,Supported,Except.map]
  | te_bool | uint8_t | uint32_t | str => trivial
/-- What is written for the selected fields, and what reading it does. -/
theorem items_spec (distinct : (all.map TeConfObj.name).Nodup) (inside : ∀ f ∈ fields, f ∈ all)
    (supported : ∀ f ∈ fields, mask &&& f.flag ≠ 0 → Supported f.methods (base f)) (plain : ∀ f ∈ fields, Plain f.methods (base f)) :
    ∃ items, (∀ string, toStrLoop base mask fields string = .ok (items.foldl (fun s item => some (s.elim [] (· ++ [',']) ++ item)) string)) ∧
      (items = [] ↔ ∀ f ∈ fields, mask &&& f.flag = 0) ∧ (∀ item ∈ items, ',' ∉ item ∧ item ≠ []) ∧
      ∀ o, ∃ new, readItems all items o = (new,none) ∧ new.mask = o.mask ||| flagsOf mask fields ∧ ∀ g,
        if g ∈ fields ∧ mask &&& g.flag ≠ 0 then compare g.methods (new.base g) (base g) = true else new.base g = o.base g := by
  induction fields with
  | nil => exact ⟨[],fun _ => rfl,by simp,by simp,fun o => ⟨o,rfl,by simp [flagsOf],by simp⟩⟩
  | cons f fields ih =>
    obtain ⟨items,loop,empty,clean,read⟩ := ih (fun g member => inside g (mem_cons_of_mem _ member))
      (fun g member => supported g (mem_cons_of_mem _ member)) fun g member => plain g (mem_cons_of_mem _ member)
    by_cases left : mask &&& f.flag = 0
    · refine ⟨items,fun string => by rw [toStrLoop,if_neg (not_not.mpr left),loop],by simp [empty,left],clean,fun o => ?_⟩
      obtain ⟨new,done,flags,values⟩ := read o
      refine ⟨new,done,by rw [flagsOf,if_neg (not_not.mpr left),flags],fun g => ?_⟩
      have later := values g
      by_cases same : g = f <;> simp_all
    · obtain ⟨text,written,comma,back⟩ := from_str_to_str (supported f mem_cons_self left) (plain f mem_cons_self) f.name
      refine ⟨fieldItem f.name text :: items,fun string => by rw [toStrLoop,if_pos left,written]; exact loop _,by simpa using fun none' => absurd none' left,
        forall_mem_cons.mpr ⟨by simp [fieldItem,f.designator,comma],clean⟩,fun o => ?_⟩
      obtain ⟨accepted,equal⟩ := back (o.base f)
      obtain ⟨new,done,flags,values⟩ := read {o with base := update o.base f (from_str text f.methods (o.base f)).1,mask := o.mask ||| f.flag}
      refine ⟨new,?_,by rw [flags,flagsOf,if_pos left,BitVec.or_assoc],fun g => ?_⟩
      · rw [readItems,readItem,fieldItem,strchr_append f.designator.2.1]
        simp [find_field distinct (inside f mem_cons_self),accepted,done]
      · have later := values g
        by_cases same : g = f
        · subst same
          by_cases again : g ∈ fields <;> simp_all
        · simp_all
theorem toStrLoop_supported (done : toStrLoop base mask fields string = .ok r) :
    ∀ f ∈ fields, mask &&& f.flag ≠ 0 → Supported f.methods (base f) := by
  induction fields generalizing string with
  | nil => simp
  | cons f fields ih =>
    rw [toStrLoop] at done
    split at done
    · cases written : to_str f.name f.methods (base f) with
      | error e => simp [written] at done
      | ok item =>
        rw [written] at done
        exact forall_mem_cons.mpr ⟨fun _ => to_str_supported written,ih done⟩
    · rename_i left
      exact forall_mem_cons.mpr ⟨fun chosen => absurd chosen left,ih done⟩
theorem text_spec (distinct : (fields.map TeConfObj.name).Nodup) (supported : ∀ f ∈ fields, mask &&& f.flag ≠ 0 → Supported f.methods (base f))
    (plain : ∀ f ∈ fields, Plain f.methods (base f)) :
    (∀ f ∈ fields, mask &&& f.flag = 0) ∧ te_conf_obj_to_str fields base mask = none ∨ (∃ f ∈ fields, mask &&& f.flag ≠ 0) ∧
      ∃ text, te_conf_obj_to_str fields base mask = some (.ok text) ∧ Restores fields base mask text (flagsOf mask fields) := by
  obtain ⟨items,loop,empty,clean,read⟩ := items_spec distinct (fun _ member => member) supported plain
  cases items with
  | nil => exact .inl ⟨empty.mp rfl,by rw [te_conf_obj_to_str,loop]; rfl⟩
  | cons i items =>
    refine .inr ⟨by simpa using empty,i ++ items.flatMap fun item => ',' :: item,?_,fun o => ?_⟩
    · rw [te_conf_obj_to_str,loop,foldl_cons]
      simp [glue_items]
    · obtain ⟨first,rest⟩ := forall_mem_cons.mp clean
      obtain ⟨new,done,flags,values⟩ := read o
      rw [te_conf_obj_from_str,strtok_delimited rest,strtok_token first.1 first.2,singleton_append,done]
      exact ⟨rfl,flags,fun f member => by simpa [member] using values f⟩

/-- When the round trip succeeds; the marker of a known field is never accepted, a number that does not fit always. -/
theorem object_texts_exact (distinct : (fields.map TeConfObj.name).Nodup) (plain : ∀ f ∈ fields, Plain f.methods (base f)) :
    (RoundTrips fields base mask ↔ (∃ f ∈ fields, mask &&& f.flag ≠ 0) ∧
      (∀ f ∈ fields, mask &&& f.flag ≠ 0 → Supported f.methods (base f)) ∧ flagsOf mask fields = mask) ∧
    (∀ f ∈ fields, ∀ o, (te_conf_obj_from_str fields ('!' :: f.name) o).2 ≠ none) ∧
    ∀ f ∈ fields, ∀ text, OutOfRange f.methods text → ∀ o, (te_conf_obj_from_str fields (fieldItem f.name text) o).2 = none := by
  refine ⟨⟨?_,?_⟩,fun f member o => ?_,fun f member text large o => ?_⟩
  · rintro ⟨text,written,restores⟩
    have supported : ∀ f ∈ fields, mask &&& f.flag ≠ 0 → Supported f.methods (base f) := by
      rw [te_conf_obj_to_str] at written
      cases done : toStrLoop base mask fields none with
      | error e => simp [done] at written
      | ok string => exact toStrLoop_supported done
    obtain ⟨-,crash⟩ | ⟨chosen,text',written',restores'⟩ := text_spec distinct supported plain
    · simp [crash] at written
    · obtain rfl : text' = text := by simpa [written'] using written
      have same := (restores ⟨0,base,0⟩).2.1.symm.trans (restores' ⟨0,base,0⟩).2.1
      exact ⟨chosen,supported,by simpa using same.symm⟩
  · rintro ⟨⟨f,member,chosen⟩,supported,whole⟩
    obtain ⟨none',-⟩ | ⟨-,text,written,restores⟩ := text_spec distinct supported plain
    · exact absurd (none' f member) chosen
    · exact ⟨text,written,by rwa [whole] at restores⟩
  · have marker : ',' ∉ '!' :: f.name := by simp [f.designator]
    have unknown : fields.find? (fun g => g.name = '!' :: f.name) = none :=
      find?_eq_none.mpr fun g _ same => g.designator.2.2 (of_decide_eq_true same ▸ mem_cons_self)
    rw [te_conf_obj_from_str,strtok_token marker (cons_ne_nil _ _),readItems,readItem,strchr_none.mpr (by simp [f.designator])]
    simp [unknown]
  · obtain ⟨comma,accepted⟩ := large.accepted
    rw [te_conf_obj_from_str,strtok_token (by simp [fieldItem,f.designator,comma]) (by simp [fieldItem]),readItems,readItem,fieldItem,
      strchr_append f.designator.2.1]
    simp [find_field distinct member,accepted,readItems]
end

section
/-- Two fields of `te_conf_ip_rule`. -/
def ruleFields : List TeConfObj := [⟨"family".toList,2,.uint8_t,by decide⟩,⟨"src".toList,64,.sockaddr,by decide⟩]
def ruleBase : Base := fun f => match f.methods with
  | .te_bool => true
  | .uint8_t => 2
  | .uint32_t => 0
  | .sockaddr => ⟨AF_INET,[127,0,0,1],[]⟩
  | .str _ => []
/-- A library that knows one address. -/
local instance loopbackLibc : Libc where
  strtod _ := .error .EINVAL
  printG _ := []
  inet_pton _ s := if s = "127.0.0.1".toList then some [127,0,0,1] else none
  inet_ntop _ := "127.0.0.1".toList

theorem object_texts_exact_rule : RoundTrips ruleFields ruleBase 66 := by
  have plain : ∀ f ∈ ruleFields, Plain f.methods (ruleBase f) := by
    simp [ruleFields,ruleBase,Plain,AF_INET,AF_INET6]
    decide
  exact (object_texts_exact (by decide) plain).1.mpr ⟨⟨_,mem_cons_self,by decide⟩,by simp [ruleFields,ruleBase,Supported],by decide⟩
theorem empty_mask_crashes : te_conf_obj_to_str ruleFields ruleBase 0 = none ∧
    (te_conf_obj_from_str ruleFields "!family".toList ⟨0,ruleBase,0⟩).2 = te .EINVAL ∧
    (te_conf_obj_from_str ruleFields "family=256".toList ⟨0,ruleBase,0⟩).2 = none := by
  decide
end
end TestEnvironment.Configurator.ConfObject
