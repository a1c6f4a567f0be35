import TestEnvironment.Lib.Heap
import TestEnvironment.Lib.Strings

/-!
The database of expected results (`trc_db.h`, `db.c`): tests with iterations, which have tests in
their turn, behind their addresses, and the match of arguments with an iteration (`db_walker.c`).
A queue is the list of its elements. Notes and expected results are only copied here, so that
they are of any type.
-/
namespace TestEnvironment.Trc
open Lib

/-- `trc_test_iter_arg`. -/
structure TrcTestIterArg where
  name : CStr
  value : CStr
  deriving DecidableEq, Repr
/-- `trc_report_argument`. -/
structure TrcReportArgument where
  name : CStr
  value : CStr
  variable' : Bool
  deriving DecidableEq, Repr
/-- `trc_test`. -/
structure TrcTest where
  parent : Option Nat
  name : CStr
  iters : List Nat
  filename : Option CStr
  deriving DecidableEq, Repr
/-- `trc_test_iter` with its notes, its default and its expected results in one. -/
structure TrcTestIter (Expected : Type) where
  parent : Nat
  args : List TrcTestIterArg
  save_order : List CStr
  expected : Expected
  tests : List Nat
  filename : Option CStr
  log_found : Bool
structure TrcGlobal where
  name : CStr
  value : CStr
  deriving DecidableEq, Repr
/-- `te_trc_db` with all its tests and iterations. -/
structure TeTrcDb (Expected : Type) where
  filename : Option CStr
  tests : List Nat
  globals : List TrcGlobal
  testCells : Heap TrcTest
  iterCells : Heap (TrcTestIter Expected)
/-- What is done with expected results: `exp_defaults_get` for two statuses, and `trc_db_test_iter_res_split`. -/
structure ExpectedOps (Expected : Type) where
  passed : Expected
  unspec : Expected
  split : Expected → Expected

/-- `TAILQ_NEXT` of an element of a queue. -/
def tailqNext (queue : List Nat) (element : Nat) : Option Nat :=
  match queue with
  | [] => none
  | a :: rest => if a = element then rest.head? else tailqNext rest element
/-- `TAILQ_INSERT_BEFORE`. -/
def tailqInsertBefore (queue : List Nat) (listelm element : Nat) : List Nat :=
  match queue with
  | [] => []
  | a :: rest => if a = listelm then element :: a :: rest else a :: tailqInsertBefore rest listelm element

section

inductive IterMatch | NO_MATCH | EXACT_MATCH | WILD_MATCH
  deriving DecidableEq, Repr
def TEST_ARG_VAR_PREFIX : CStr := "VAR.".toList

/-- The values of an argument and of the database are the same; a variable is one also by its value. -/
def argValueMatch (trc_db_compare_values : CStr → CStr → Int) (globals : Option (List TrcGlobal)) (value dbValue : CStr) : Bool :=
  if startsWith TEST_ARG_VAR_PREFIX value then
    match (globals.getD []).find? fun g => g.name = value.drop TEST_ARG_VAR_PREFIX.length with
    | none => false
    | some g => decide (value = dbValue) || decide (trc_db_compare_values g.value dbValue = 0)
  else decide (trc_db_compare_values value dbValue = 0)
/-- The loop of `test_iter_args_match` over the arguments, with the inner one that skips some of them: what is left of the arguments of the
database and of the others, and whether one has no value. -/
def argsMatchLoop (trc_db_compare_values : CStr → CStr → Int) (globals : Option (List TrcGlobal)) (is_strict : Bool) :
    List TrcReportArgument → List TrcTestIterArg → Bool → Bool → Option (List TrcTestIterArg × List TrcReportArgument × Bool)
  | args, [], _, is_wildcard => some ([],args,is_wildcard)
  | [], arg :: db_args, skip, is_wildcard => if skip then none else some (arg :: db_args,[],is_wildcard)
  | a :: args, arg :: db_args, skip, is_wildcard =>
    if skip = false ∧ a.variable' then argsMatchLoop trc_db_compare_values globals is_strict args (arg :: db_args) false is_wildcard
    else if a.name ≠ arg.name then
      if is_strict then none else argsMatchLoop trc_db_compare_values globals is_strict args (arg :: db_args) true is_wildcard
    else if arg.value = [] then argsMatchLoop trc_db_compare_values globals is_strict args db_args false true
    else if argValueMatch trc_db_compare_values globals a.value arg.value then
      argsMatchLoop trc_db_compare_values globals is_strict args db_args false is_wildcard
    else none
def test_iter_args_match (trc_db_compare_values : CStr → CStr → Int) (globals : Option (List TrcGlobal)) (db_args : List TrcTestIterArg)
    (args : List TrcReportArgument) (is_strict : Bool) : IterMatch :=
  match argsMatchLoop trc_db_compare_values globals is_strict args db_args false false with
  | some ([],rest,is_wildcard) =>
    if is_strict ∧ rest.any (fun a => !a.variable') then .NO_MATCH else if is_wildcard then .WILD_MATCH else .EXACT_MATCH
  | _ => .NO_MATCH
end

end TestEnvironment.Trc
