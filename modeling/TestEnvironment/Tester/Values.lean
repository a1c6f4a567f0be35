import TestEnvironment.Tester.Scenario

/-!
Values of arguments and session variables (`tester_conf.h`, `enumerate.c`): an
entity value is plain, refers to another value, names a variable of an enclosing
session, or has a type that lists values; enumeration walks through all of them
to the singletons.

A function gives `none` where the source fails an assertion, and where `fuel`,
the depth of the references it may follow, does not suffice. Requirements and
objectives of values are left out.
-/
namespace TestEnvironment.Tester
open Lib

/-- The errors that are told apart. -/
inductive TesterErr
  | ENOENT
  | EEXIST
  | ESRCH
  | E2BIG
  | EOVERFLOW
  | EFAULT
  deriving DecidableEq, Repr
/-- A status code; `none` is zero. -/
abbrev Status := Option TesterErr

/-- Addresses of values, types and sessions. -/
abbrev Ref := Nat

/-- `test_entity_value`. -/
structure EntityValue where
  name : Option CStr
  type : Option Ref
  plain : Option CStr
  ref : Option Ref
  ext : Option CStr
  global : Bool
  deriving DecidableEq, Repr
/-- `test_entity_values`. -/
structure EntityValues where
  head : List Ref
  num : Nat
  deriving DecidableEq, Repr
/-- `test_value_type`. -/
structure ValueType where
  values : EntityValues
  context : Option Ref
  deriving DecidableEq, Repr
/-- `test_var_arg`. -/
structure TestVarArg where
  name : CStr
  type : Option Ref
  values : EntityValues
  list : Option CStr
  preferred : Option Ref
  handdown : Bool
  deriving DecidableEq, Repr
/-- What names are resolved in: the variables of a `test_session` and of its parents. -/
structure SessionVars where
  parent : Option Ref
  vars : List TestVarArg
  deriving DecidableEq, Repr
/-- The objects of a configuration, behind their addresses. -/
structure TesterObjects where
  value : Ref → EntityValue
  type : Ref → ValueType
  session : Ref → SessionVars

/-- `test_var_arg_list`. -/
structure VarArgList where
  name : CStr
  len : Nat
  n_iters : Nat
  deriving DecidableEq, Repr
/-- The part of a `run_item` that its iterations depend on. -/
structure RunItem where
  context : Option Ref
  args : List TestVarArg
  lists : List VarArgList
  n_args : Nat
  n_iters : Nat
  deriving DecidableEq, Repr

section
variable (objs : TesterObjects)

/-- The end of `alloc_and_get_value`, where the value has been read: it is put into the
    list and counted. -/
def alloc_and_get_value (values : EntityValues) (value : Ref) : EntityValues :=
  let v := objs.value value
  {head := values.head ++ [value]
   num := if v.plain ≠ none ∨ v.ref ≠ none ∨ v.ext ≠ none then (values.num+1)%UINT_MOD
     else match v.type with
       | some type => (values.num+(objs.type type).values.num)%UINT_MOD
       | none => values.num}
end

section
variable {σ : Type} (objs : TesterObjects)

/-- The search for a variable in a session and its parents. -/
def findVar : Nat → Option Ref → CStr → Option (Option TestVarArg)
  | 0, _, _ => none
  | _+1, none, _ => some none
  | fuel+1, some ctx, ext =>
    match (objs.session ctx).vars.find? fun var => var.name = ext with
    | some var => some (some var)
    | none => findVar fuel (objs.session ctx).parent ext

/-- The loop of `test_entity_values_enum`. -/
def enumLoop (each : Ref → σ → Option (Status × σ)) : List Ref → Status → σ → Option (Status × σ)
  | [], rc, s => some (rc,s)
  | v :: rest, _, s => do
    let (rc,s) ← each v s
    if rc ≠ none then some (rc,s) else enumLoop each rest rc s
/-- `test_entity_values_enum`; `each` enumerates one value. -/
def test_entity_values_enum (each : Option RunItem → Option Ref → Ref → σ → Option (Status × σ))
    (ri : Option RunItem) (context : Option Ref) (values : EntityValues) (s : σ) : Option (Status × σ) :=
  enumLoop (each ri context) values.head (some .ENOENT) s
/-- `test_var_arg_enum_values`; `each` enumerates one value. -/
def varArgEnumValues (each : Option RunItem → Option Ref → Ref → σ → Option (Status × σ))
    (ri : Option RunItem) (va : TestVarArg) (s : σ) : Option (Status × σ) :=
  if va.values.head = [] then do
    let type ← va.type
    test_entity_values_enum each none (objs.type type).context (objs.type type).values s
  else test_entity_values_enum each ri none va.values s

/-- `test_entity_value_enum_values`. -/
def test_entity_value_enum_values (callback : Ref → σ → Status × σ) :
    Nat → Option RunItem → Option Ref → Ref → σ → Option (Status × σ)
  | 0, _, _, _, _ => none
  | fuel+1, ri, context, value, s =>
    let context := if context = none then ri.bind RunItem.context else context
    let v := objs.value value
    if v.plain ≠ none then some (callback value s)
    else match v.ref with
      | some ref =>
        if ref = value then none else test_entity_value_enum_values callback fuel ri context ref s
      | none =>
        match v.ext with
        | some ext =>
          if context = none then some (callback value s)
          else do
            match ← findVar objs fuel context ext with
            | some var => varArgEnumValues objs (test_entity_value_enum_values callback fuel) none var s
            | none => some (some .ESRCH,s)
        | none => do
          let type ← v.type
          test_entity_values_enum (test_entity_value_enum_values callback fuel) none (objs.type type).context
            (objs.type type).values s
def test_var_arg_enum_values (callback : Ref → σ → Status × σ) (fuel : Nat) (ri : Option RunItem) (va : TestVarArg) (s : σ) :
    Option (Status × σ) :=
  varArgEnumValues objs (test_entity_value_enum_values objs callback fuel) ri va s

/-- `test_var_arg_values`. -/
def test_var_arg_values (va : TestVarArg) : Option EntityValues :=
  if va.values.head = [] then va.type.map fun type => (objs.type type).values else some va.values

/-- `test_var_arg_get_plain_value_cb`: the index that is passed and the value found. -/
def test_var_arg_get_plain_value_cb (search : Nat) (value : Ref) (data : Nat × Option Ref) : Status × Nat × Option Ref :=
  if data.1 < search then (none,data.1+1,data.2) else (some .EEXIST,data.1,some value)

/-- The value that a reference leads to; each has to be a singleton or a reference. -/
def followRef : Nat → Ref → Option Ref
  | 0, _ => none
  | fuel+1, value =>
    let v := objs.value value
    if v.plain = none ∧ v.ref = none ∧ v.ext = none then none
    else match v.ref with
      | some ref => followRef fuel ref
      | none => some value
/-- `test_var_arg_get_value`. -/
def test_var_arg_get_value (fuel : Nat) (ri : RunItem) (va : TestVarArg) (index : Nat) : Option (Status × Option Ref) := do
  let (rc,data) ← test_var_arg_enum_values objs (test_var_arg_get_plain_value_cb index) fuel (some ri) va (0,none)
  if rc = some .EEXIST then
    let value ← data.2
    if (objs.value value).plain = none ∧ (objs.value value).ext = none then none else some (none,some value)
  else if rc ≠ none then some (rc,none)
  else
    let values ← test_var_arg_values objs va
    let n_values ← match va.list with
      | some name => (ri.lists.find? fun list => list.name = name).map VarArgList.len
      | none => some values.num
    if index ≥ n_values then some (some .E2BIG,none)
    else if va.list = none ∨ index < values.num then none
    else
      let value ← match va.preferred with
        | some preferred => some preferred
        | none => values.head.head?
      let value ← followRef objs fuel value
      some (none,some value)
end

section
variable {σ : Type} (objs : TesterObjects)

/-- The session variables and arguments of a run item, in the order of enumeration; a
    variable that is handed down is overridden by an argument of the same name. -/
def RunItem.enumerated (ri : RunItem) : List TestVarArg :=
  (match ri.context with
    | none => []
    | some context => (objs.session context).vars.filter fun var => var.handdown && ri.args.all fun arg => var.name ≠ arg.name) ++ ri.args
/-- The loops of `test_run_item_enum_args`. -/
def enumArgs (callback : TestVarArg → σ → Option (Status × σ)) (up_to_first_err : Bool) :
    List TestVarArg → Status → Status → σ → Option (Status × σ)
  | [], rc, rc_bad, s => some (if rc_bad = none then rc else rc_bad,s)
  | arg :: rest, _, rc_bad, s => do
    let (rc,s) ← callback arg s
    if rc ≠ none then if up_to_first_err then some (rc,s) else enumArgs callback up_to_first_err rest rc rc s
    else enumArgs callback up_to_first_err rest rc rc_bad s
def test_run_item_enum_args (ri : RunItem) (callback : TestVarArg → σ → Option (Status × σ)) (up_to_first_err : Bool) (s : σ) :
    Option (Status × σ) :=
  enumArgs callback up_to_first_err (ri.enumerated objs) (some .ENOENT) none s
end

section
variable (objs : TesterObjects)

/-- A callback called for each of the values up to its first error; `rc` is the status
    behind the last of them. -/
def visit {σ : Type} (callback : Ref → σ → Status × σ) : List Ref → Status → σ → Status × σ
  | [], rc, s => (rc,s)
  | v :: rest, rc, s =>
    match callback v s with
    | (none,s) => visit callback rest rc s
    | (some e,s) => (some e,s)
/-- An enumeration visits these singletons, with any callback, and ends with the status. -/
def Visits (enum : {σ : Type} → (Ref → σ → Status × σ) → σ → Option (Status × σ)) (l : List Ref) (rc : Status) : Prop :=
  ∀ {σ : Type} (callback : Ref → σ → Status × σ) (s : σ), enum callback s = some (visit callback l rc s)

variable {objs} {σ : Type} {callback : Ref → σ → Status × σ} {l l' : List Ref} {rc : Status} {s : σ}

theorem visit_append : visit callback (l ++ l') rc s =
    match visit callback l none s with
    | (none,s) => visit callback l' rc s
    | (some e,s) => (some e,s) := by
  induction l generalizing s with
  | nil => rfl
  | cons v l ih => grind [visit]
/-- The status behind the last value matters only if all values are visited. -/
theorem visit_status (e : TesterErr) : visit callback l (some e) s =
    match visit callback l none s with
    | (none,s) => (some e,s)
    | (some e',s) => (some e',s) := by
  induction l generalizing s with
  | nil => rfl
  | cons v l ih =>
    rw [visit,visit]
    obtain ⟨status,s'⟩ := callback v s
    cases status with
    | none => exact ih
    | some e => rfl

variable {out : Status × σ} {ri : Option RunItem}

/-- The loop over values visits the singletons of each. -/
theorem enumLoop_visits (each : {σ : Type} → (Ref → σ → Status × σ) → Ref → σ → Option (Status × σ)) {values : List Ref}
    (one : ∀ v s out, each callback v s = some out → ∃ l, Visits (fun cb => each cb v) l out.1)
    (got : enumLoop (each callback) values rc s = some out) :
    ∃ l, ∀ {σ : Type} (cb : Ref → σ → Status × σ) (s : σ), enumLoop (each cb) values rc s = some (visit cb l out.1 s) := by
  induction values generalizing rc s with
  | nil =>
    obtain rfl : (rc,s) = out := by simpa [enumLoop] using got
    exact ⟨[],fun cb s => rfl⟩
  | cons v rest ih =>
    rw [enumLoop] at got
    obtain ⟨⟨rc1,s1⟩,first,got⟩ := of_bind got
    obtain ⟨l,visits⟩ := one v s _ first
    cases rc1 with
    | some e =>
      obtain rfl : (some e,s1) = out := by simpa using got
      refine ⟨l,fun cb s => ?_⟩
      rw [enumLoop,show each cb v s = _ from visits cb s,visit_status e]
      rcases visit cb l none s with ⟨_ | e',s'⟩ <;> simp
    | none =>
      obtain ⟨l',visits'⟩ := ih (by simpa using got)
      refine ⟨l ++ l',fun cb s => ?_⟩
      rw [enumLoop,show each cb v s = _ from visits cb s,visit_append]
      rcases visit cb l none s with ⟨_ | e',s'⟩
      · exact visits' cb s'
      · rfl
theorem varArg_visits (each : {σ : Type} → (Ref → σ → Status × σ) → Option RunItem → Option Ref → Ref → σ → Option (Status × σ))
    (one : ∀ ri context v s out, each callback ri context v s = some out → ∃ l, Visits (fun cb => each cb ri context v) l out.1) {va : TestVarArg}
    (got : varArgEnumValues objs (each callback) ri va s = some out) :
    ∃ l, Visits (fun cb => varArgEnumValues objs (each cb) ri va) l out.1 := by
  unfold varArgEnumValues at got
  split at got
  · rename_i empty
    obtain ⟨type,isType,got⟩ := of_bind got
    obtain ⟨l,visits⟩ := enumLoop_visits (fun cb => each cb none (objs.type type).context) (one none _) got
    refine ⟨l,fun cb s => ?_⟩
    beta_reduce
    rw [varArgEnumValues,if_pos empty,isType]
    exact visits cb s
  · rename_i given
    obtain ⟨l,visits⟩ := enumLoop_visits (fun cb => each cb ri none) (one ri none) got
    refine ⟨l,fun cb s => ?_⟩
    beta_reduce
    rw [varArgEnumValues,if_neg given]
    exact visits cb s
/-- An enumeration that ends with some callback visits the same singletons with any. -/
theorem enum_values_visits (quiet : ∀ v s, (callback v s).1 = none) {fuel : Nat} {context : Option Ref}
    {value : Ref} (got : test_entity_value_enum_values objs callback fuel ri context value s = some out) :
    ∃ l, Visits (fun cb => test_entity_value_enum_values objs cb fuel ri context value) l out.1 := by
  induction fuel generalizing ri context value s out with
  | zero => cases got
  | succ fuel ih =>
    have single : ∀ {s : σ}, callback value s = out →
        ∃ l, ∀ {σ : Type} (cb : Ref → σ → Status × σ) (s : σ), some (cb value s) = some (visit cb l out.1 s) := by
      rintro s rfl
      refine ⟨[value],fun cb s' => ?_⟩
      rw [quiet,visit]
      obtain ⟨_ | e,s''⟩ := cb value s' <;> rfl
    unfold test_entity_value_enum_values at got
    generalize inside : (if context = none then ri.bind RunItem.context else context) = context' at got
    simp only [] at got
    by_cases plain : (objs.value value).plain ≠ none
    · rw [if_pos plain] at got
      obtain ⟨l,visits⟩ := single (some.inj got)
      refine ⟨l,fun cb s => ?_⟩
      beta_reduce
      rw [test_entity_value_enum_values]
      simp only [if_pos plain]
      exact visits cb s
    · rw [if_neg plain] at got
      cases isRef : (objs.value value).ref with
      | some ref =>
        simp only [isRef] at got
        split at got
        · cases got
        · rename_i other
          obtain ⟨l,visits⟩ := ih got
          refine ⟨l,fun cb s => ?_⟩
          beta_reduce
          rw [test_entity_value_enum_values]
          simp only [if_neg plain,isRef,if_neg other,inside]
          exact visits cb s
      | none =>
        simp only [isRef] at got
        cases isExt : (objs.value value).ext with
        | some ext =>
          simp only [isExt] at got
          split at got
          · rename_i outside
            obtain ⟨l,visits⟩ := single (some.inj got)
            refine ⟨l,fun cb s => ?_⟩
            beta_reduce
            rw [test_entity_value_enum_values]
            simp only [if_neg plain,isRef,isExt,inside,if_pos outside]
            exact visits cb s
          · rename_i within
            obtain ⟨found,isFound,got⟩ := of_bind got
            cases found with
            | none =>
              obtain rfl : (some TesterErr.ESRCH,s) = out := by simpa using got
              refine ⟨[],fun cb s => ?_⟩
              beta_reduce
              rw [test_entity_value_enum_values]
              simp only [if_neg plain,isRef,isExt,inside,if_neg within,isFound]
              rfl
            | some var =>
              obtain ⟨l,visits⟩ := varArg_visits (fun cb => test_entity_value_enum_values objs cb fuel)
                (fun ri context v s out got => ih got) got
              refine ⟨l,fun cb s => ?_⟩
              beta_reduce
              rw [test_entity_value_enum_values]
              simp only [if_neg plain,isRef,isExt,inside,if_neg within,isFound]
              exact visits cb s
        | none =>
          simp only [isExt] at got
          obtain ⟨type,isType,got⟩ := of_bind got
          obtain ⟨l,visits⟩ := enumLoop_visits (fun cb => test_entity_value_enum_values objs cb fuel none (objs.type type).context)
            (fun v s out got => ih got) got
          refine ⟨l,fun cb s => ?_⟩
          beta_reduce
          rw [test_entity_value_enum_values]
          simp only [if_neg plain,isRef,isExt,isType]
          exact visits cb s
end
end TestEnvironment.Tester
