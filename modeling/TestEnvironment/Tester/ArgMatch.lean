import TestEnvironment.Tester.Compound
import TestEnvironment.Tester.Iterations

/-!
How an argument of a test path selects iterations of a run item: the search for
the argument (`test_run_item_find_arg` in `enumerate.c`) and the bit masks of
`test_path.c`.

As in the other modules, `none` stands for a failed assertion, a trap or a
write behind a bit mask.
-/
namespace TestEnvironment.Tester
open Lib

section
variable (objs : TesterObjects) (fuel : Nat)

/-- The loop of `has_value_with_field_name`. -/
def anyField (each : Ref → Option Bool) : List Ref → Option Bool
  | [] => some false
  | v :: rest => do if ← each v then some true else anyField each rest
def withFieldName (each : Ref → Option Bool) (fullname stem : CStr) (values : EntityValues) : Option Bool :=
  if strip_prefix stem fullname = none then some false else anyField each values.head
/-- `has_field_name`. -/
def has_field_name (fullname stem : CStr) : Nat → Ref → Option Bool
  | 0, _ => none
  | fuel+1, v =>
    match (objs.value v).plain.or (objs.value v).ext with
    | some plain_or_ext => some (te_compound_dereference (fun _ => true) plain_or_ext stem fullname)
    | none =>
      match (objs.value v).ref with
      | some ref => has_field_name fullname stem fuel ref
      | none =>
        match (objs.value v).type with
        | some type => withFieldName (has_field_name fullname stem fuel) fullname stem (objs.type type).values
        | none => some false
def has_value_with_field_name (fullname stem : CStr) (values : EntityValues) : Option Bool :=
  withFieldName (has_field_name objs fullname stem fuel) fullname stem values

/-- `test_run_item_find_arg_cb_data`. -/
structure FindArgData where
  n_iters : Nat
  n_values : Nat
  found : Option TestVarArg
  deriving DecidableEq, Repr
/-- `test_run_item_find_arg_cb`. -/
def test_run_item_find_arg_cb (ri : RunItem) (name : CStr) (va : TestVarArg) (data : FindArgData) : Option (Status × FindArgData) := do
  let values ← test_var_arg_values objs va
  let list ← match va.list with
    | none => some none
    | some name => (ri.lists.find? fun list => list.name = name).map some
  let n_values := match list with
    | none => values.num
    | some list => list.len
  if ← has_value_with_field_name objs fuel name va.name values then
    some (some .EEXIST,{
      n_iters := match list with
        | none => data.n_iters
        | some list => list.n_iters
      n_values := n_values
      found := some va})
  else
    let first := match list with
      | none => true
      | some list => decide (list.n_iters = data.n_iters)
    some (none,{data with n_iters := if first then (data.n_iters*n_values)%UINT_MOD else data.n_iters,n_values := 0})
/-- `test_run_item_find_arg`: the argument, its number of values and of outer iterations. -/
def test_run_item_find_arg (ri : RunItem) (name : CStr) : Option (Option (TestVarArg × Nat × Nat)) := do
  let (rc,data) ← test_run_item_enum_args objs ri (test_run_item_find_arg_cb objs fuel ri name) true {n_iters := 1,n_values := 0,found := none}
  if rc = some .EEXIST then some (data.found.map fun va => (va,data.n_values,data.n_iters)) else some none
end

section
/-- `TEST_ARG_VAR_PREFIX`. -/
def TEST_ARG_VAR_PREFIX : CStr := "VAR.".toList
/-- `te_var_name2env`. -/
def te_var_name2env (name : CStr) : CStr :=
  "TE_TEST_VAR_".toList ++ (name.drop TEST_ARG_VAR_PREFIX.length).flatMap fun c => if c = '.' then ['_','_'] else [c]
/-- The functions of the system that matching relies on. -/
structure MatchEnv where
  getenv : CStr → Option CStr
  fnmatch : CStr → CStr → Bool

/-- `test_path_match`. -/
inductive TestPathMatch
  | TEST_PATH_EXACT
  | TEST_PATH_GLOB
  deriving DecidableEq, Repr
/-- `test_path_arg`. -/
structure TestPathArg where
  name : CStr
  «match» : TestPathMatch
  values : List CStr
  deriving DecidableEq, Repr

/-- `has_compound_value` for the requested value `cur_value`. -/
def has_compound_value (env : MatchEnv) (path_arg : TestPathArg) (cur_value value : CStr) : Bool :=
  match path_arg.«match» with
  | .TEST_PATH_EXACT =>
    if strip_prefix TEST_ARG_VAR_PREFIX cur_value = none then cur_value = value
    else env.getenv (te_var_name2env cur_value) = some value
  | .TEST_PATH_GLOB => env.fnmatch cur_value value

/-- `bit_mask_and_expanded`: each bit of `rhv` stands for a part of one of `times` parts of
    `lhv`. -/
def bit_mask_and_expanded (lhv rhv : List Bool) (times : Nat) : Option (List Bool) :=
  let parts := (rhv.length*times)%UINT_MOD
  if parts = 0 ∨ lhv.length%parts ≠ 0 then none
  else
    let weight := lhv.length/parts
    some (lhv.mapIdx fun i isSet => isSet && rhv.getD (i/weight%rhv.length) false)
end

section
variable (objs : TesterObjects) (fuel : Nat)

/-- `test_var_arg_value_index`. -/
def test_var_arg_value_index (iter total_iters outer_iters n_values : Nat) : Option Nat :=
  let parts := (outer_iters*n_values)%UINT_MOD
  if iter ≥ total_iters ∨ outer_iters = 0 ∨ parts = 0 ∨ total_iters%parts ≠ 0 ∨ total_iters/parts = 0 then none
  else some (iter%(total_iters/outer_iters)/(total_iters/parts))
/-- `get_iter_arg_value`, for the run items and iterations of the contexts. -/
def get_iter_arg_value : List (RunItem × Nat) → CStr → Option (Status × CStr)
  | [], _ => some (some .EFAULT,[])
  | (ri,iter) :: ctxs, name => do
    match ← test_run_item_find_arg objs fuel ri name with
    | none => some (some .ESRCH,[])
    | some (va,n_values,outer_iters) =>
      let index ← test_var_arg_value_index iter ri.n_iters outer_iters n_values
      let (rc,va_value) ← test_var_arg_get_value objs fuel ri va index
      if rc ≠ none then some (rc,[])
      else
        let va_value ← va_value
        match (objs.value va_value).plain with
        | some plain => some (none,plain)
        | none =>
          let ext ← (objs.value va_value).ext
          get_iter_arg_value ctxs ext

/-- `test_path_arg_value_cb_data`. -/
structure ArgValueData where
  bm : List Bool
  index : Nat
  found : Bool
  pref_i : Nat
  deriving DecidableEq, Repr
/-- The loop of `test_path_arg_value_cb` over the requested values. -/
def matchValues (env : MatchEnv) (path_arg : TestPathArg) (stem plain : CStr) : List CStr → ArgValueData → Option ArgValueData
  | [], data => some data
  | cur_value :: rest, data =>
    if te_compound_dereference (has_compound_value env path_arg cur_value) plain stem path_arg.name then
      if data.index < data.bm.length then
        matchValues env path_arg stem plain rest {data with found := true,bm := data.bm.set data.index true}
      else none
    else matchValues env path_arg stem plain rest data
/-- `test_path_arg_value_cb`; the data are none behind a failure. -/
def test_path_arg_value_cb (env : MatchEnv) (ctxs : List (RunItem × Nat)) (path_arg : TestPathArg) (va : TestVarArg) (value : Ref)
    (data : Option ArgValueData) : Status × Option ArgValueData :=
  match data with
  | none => (none,none)
  | some data =>
    let data := if va.preferred = some value then {data with pref_i := data.index} else data
    let plain := match (objs.value value).plain with
      | some plain => some (none,plain)
      | none => (objs.value value).ext.bind (get_iter_arg_value objs fuel ctxs)
    match plain with
    | none => (none,none)
    | some (some e,_) => (some e,some data)
    | some (none,plain) => (none,(matchValues env path_arg va.name plain path_arg.values data).map fun data => {data with index := data.index+1})

/-- What the arguments of a path item do to the bit mask of a run item. -/
inductive ArgOutcome
  /-- An argument is not found. -/
  | skip
  /-- A value cannot be enumerated. -/
  | error (rc : TesterErr)
  /-- No value of an argument matches. -/
  | unmatched
  | mask (bm : List Bool)
  deriving DecidableEq, Repr
/-- The bits behind the values of an argument in a list are the one of the preferred
    value. -/
def spreadPreferred (data : ArgValueData) (num : Nat) : List Bool :=
  if data.bm.getD data.pref_i false then data.bm.mapIdx fun i isSet => isSet || decide (i ≥ num) else data.bm
/-- The body of the loop over the arguments in `test_path_proc_test_start`. -/
def matchArg (env : MatchEnv) (ctxs : List (RunItem × Nat)) (run : RunItem) (bm : List Bool) (path_arg : TestPathArg) : Option ArgOutcome := do
  match ← test_run_item_find_arg objs fuel run path_arg.name with
  | none => some .skip
  | some (va,n_values,outer_iters) =>
    if n_values = 0 then none
    else
      let data := {bm := replicate n_values false,index := 0,found := false,pref_i := 0}
      let (rc,data) ← test_var_arg_enum_values objs (test_path_arg_value_cb objs fuel env ctxs path_arg va) fuel (some run) va (some data)
      let data ← data
      match rc with
      | some e => some (.error e)
      | none =>
        if !data.found then some .unmatched
        else
          let values ← test_var_arg_values objs va
          let arg_bm := if values.num < n_values then spreadPreferred data values.num else data.bm
          let bm ← bit_mask_and_expanded bm arg_bm outer_iters
          some (.mask bm)
/-- The loop over the arguments. -/
def matchArgs (env : MatchEnv) (ctxs : List (RunItem × Nat)) (run : RunItem) : List TestPathArg → List Bool → Option ArgOutcome
  | [], bm => some (.mask bm)
  | path_arg :: rest, bm => do
    match ← matchArg objs fuel env ctxs run bm path_arg with
    | .mask bm => matchArgs env ctxs run rest bm
    | other => some other
end
end TestEnvironment.Tester
