import TestEnvironment.Lib.Radix
import TestEnvironment.Tester.Values

/-!
Iterations of a run item: their number (`prepare_calc_iters` in
`config_prepare.c`) and the arguments of one of them (`run_prepare_args` in
`run.c`).
-/
namespace TestEnvironment.Tester
open Lib

section
variable (objs : TesterObjects)

/-- `INT_MAX`. -/
def TESTER_MAX_ITERS : Nat := 2^31-1
def check_sum_overflow (x y : Nat) : Bool := decide (x > TESTER_MAX_ITERS ∨ TESTER_MAX_ITERS-x < y)
def check_mul_overflow (x y : Nat) : Bool := decide (x ≠ 0 ∧ TESTER_MAX_ITERS/x < y)

def prepare_arg_value_cb (_ : Ref) (num : Nat) : Status × Nat := (none,(num+1)%UINT_MOD)

/-- The list with the name gets at least that length. -/
def growList (name : CStr) (n_values : Nat) : List VarArgList → List VarArgList
  | [] => []
  | p :: lists => if p.name = name then {p with len := max p.len n_values} :: lists else p :: growList name n_values lists

/-- `prepare_arg_cb_data`. -/
structure PrepareArgCbData where
  ri : RunItem
  n_args : Nat
  n_iters : Nat
  deriving DecidableEq, Repr

/-- The number of iterations times a number of values, unless it is too large. -/
def PrepareArgCbData.mul (data : PrepareArgCbData) (n_values : Nat) : Status × PrepareArgCbData :=
  if check_mul_overflow data.n_iters n_values then (some .EOVERFLOW,data)
  else (none,{data with n_iters := data.n_iters*n_values})
/-- `prepare_arg_cb`. A length 0 stops the division. -/
def prepare_arg_cb (fuel : Nat) (va : TestVarArg) (data : PrepareArgCbData) : Option (Status × PrepareArgCbData) := do
  let data := {data with n_args := data.n_args+1}
  let (rc,n_values) ← test_var_arg_enum_values objs prepare_arg_value_cb fuel (some data.ri) va 0
  if rc ≠ none then some (rc,data)
  else match va.list with
    | none => some (data.mul n_values)
    | some name =>
      match data.ri.lists.find? fun p => p.name = name with
      | some p =>
        if p.len = 0 ∨ data.n_iters%p.len ≠ 0 then none
        else
          let ri := {data.ri with lists := growList name n_values data.ri.lists}
          some (PrepareArgCbData.mul {data with ri := ri,n_iters := data.n_iters/p.len} (max p.len n_values))
      | none =>
        let ri := {data.ri with lists := ⟨name,n_values,data.n_iters⟩ :: data.ri.lists}
        some (PrepareArgCbData.mul {data with ri := ri} n_values)
/-- `prepare_calc_iters`. -/
def prepare_calc_iters (fuel : Nat) (ri : RunItem) : Option (Status × RunItem) := do
  let (rc,data) ← test_run_item_enum_args objs ri (prepare_arg_cb objs fuel) true {ri := ri,n_args := 0,n_iters := 1}
  if rc ≠ none ∧ rc ≠ some .ENOENT then some (rc,data.ri)
  else some (none,{data.ri with n_args := data.n_args,n_iters := data.n_iters})
end

section
variable (objs : TesterObjects)

/-- `test_iter_arg`. -/
structure TestIterArg where
  name : CStr
  value : CStr
  deriving DecidableEq, Repr
def failedValue : CStr := "[FAILED TO GET ARGUMENT VALUE]".toList

/-- `run_get_value`. -/
def run_get_value : Nat → Ref → List TestIterArg → Option (Option CStr)
  | 0, _, _ => none
  | fuel+1, value, args =>
    let v := objs.value value
    match v.plain with
    | some plain => some (some (if v.global then v.name.getD plain else plain))
    | none =>
      match v.ref with
      | some ref => run_get_value fuel ref args
      | none =>
        match v.ext with
        | some ext => some ((args.find? fun arg => arg.name = ext).map TestIterArg.value)
        | none => none

/-- `run_prepare_arg_cb_data`; the arguments filled in stand for the place of the next one. -/
structure RunPrepareArgCbData where
  n_iters : Nat
  i_iter : Nat
  lists : List (CStr × Nat)
  args : List TestIterArg
  deriving DecidableEq, Repr

/-- The first part of `run_prepare_arg_cb`: the index of the value. A division by 0 stops it. -/
def argIndex (ri : RunItem) (va : TestVarArg) (data : RunPrepareArgCbData) : Option (Nat × RunPrepareArgCbData) := do
  let ri_list ← match va.list with
    | none => some none
    | some name => (ri.lists.find? fun list => list.name = name).map some
  match va.list.bind fun name => data.lists.find? fun list => list.1 = name with
  | some list => some (list.2,data)
  | none =>
    let n_values ← match ri_list with
      | none => (test_var_arg_values objs va).map EntityValues.num
      | some list => some list.len
    if n_values = 0 ∨ data.n_iters%n_values ≠ 0 ∨ data.n_iters/n_values = 0 then none
    else
      let n_iters := data.n_iters/n_values
      let i_value := data.i_iter/n_iters
      some (i_value,{data with
        n_iters := n_iters
        i_iter := data.i_iter%n_iters
        lists := match ri_list with
          | none => data.lists
          | some list => (list.name,i_value) :: data.lists})
def RunPrepareArgCbData.push (data : RunPrepareArgCbData) (va : TestVarArg) (value : CStr) : RunPrepareArgCbData :=
  {data with args := data.args ++ [⟨va.name,value⟩]}
/-- `run_prepare_arg_cb`. -/
def run_prepare_arg_cb (fuel : Nat) (ctx_args : List TestIterArg) (ri : RunItem) (va : TestVarArg)
    (data : RunPrepareArgCbData) : Option (Status × RunPrepareArgCbData) := do
  let (i_value,data) ← argIndex objs ri va data
  let (rc,value) ← test_var_arg_get_value objs fuel ri va i_value
  if rc ≠ none then some (rc,data.push va failedValue)
  else
    let value ← value
    match ← run_get_value objs fuel value ctx_args with
    | some value => some (none,data.push va value)
    | none => some (some .ESRCH,data.push va failedValue)
/-- `run_prepare_args`. -/
def run_prepare_args (fuel : Nat) (ctx_args : List TestIterArg) (ri : RunItem) (i_iter : Nat) :
    Option (Status × List TestIterArg) := do
  let (rc,data) ← test_run_item_enum_args objs ri (run_prepare_arg_cb objs fuel ctx_args ri) false
    {n_iters := ri.n_iters,i_iter := i_iter,lists := [],args := []}
  some (if rc = some .ENOENT then none else rc,data.args)

/-- The indices of the values that the arguments get, for the arguments from some on. -/
def chosen (ri : RunItem) : List TestVarArg → RunPrepareArgCbData → Option (List Nat)
  | [], _ => some []
  | va :: rest, data => do
    let (i_value,data) ← argIndex objs ri va data
    let indices ← chosen ri rest data
    some (i_value :: indices)
/-- The indices of the values in an iteration. -/
def RunItem.indices (ri : RunItem) (i_iter : Nat) : Option (List Nat) :=
  chosen objs ri (ri.enumerated objs) {n_iters := ri.n_iters,i_iter := i_iter,lists := [],args := []}
end
end TestEnvironment.Tester
