import TestEnvironment.Trc.Database
import TestEnvironment.Lib.Walks

/-!
The walker through the database (`db_walker.c`). There is no result where an assertion fails or a
null pointer is followed. Memory is always allocated.
-/
namespace TestEnvironment.Trc
open Lib
variable {Expected : Type}

/-- `te_trc_db_walker` without its database. -/
structure TeTrcDbWalker where
  is_iter : Bool
  test : Option Nat
  iter : Option Nat
  unknown : Nat
  motion : Motion
  deriving DecidableEq, Repr
def trc_db_new_walker : TeTrcDbWalker where
  is_iter := true
  test := none
  iter := none
  unknown := 0
  motion := .ROOT

section
variable (db : TeTrcDb Expected)

/-- The tests of an iteration; those of no iteration are at the top. -/
def testsOf (iter : Option Nat) : Option (List Nat) :=
  match iter with
  | none => some db.tests
  | some i => (db.iterCells.get i).map TrcTestIter.tests
def itersOf (test : Nat) : Option (List Nat) := (db.testCells.get test).map TrcTest.iters
/-- `TAILQ_NEXT(test, links)`, in the queue of the parent. -/
def nextTest (test : Nat) : Option (Option Nat) := do
  let cell ← db.testCells.get test
  let queue ← testsOf db cell.parent
  some (tailqNext queue test)
def nextIter (iter : Nat) : Option (Option Nat) := do
  let cell ← db.iterCells.get iter
  let queue ← itersOf db cell.parent
  some (tailqNext queue iter)
end

section
variable (db : TeTrcDb Expected)

/-- `trc_db_walker_move` where the current element has no children to go to. -/
def leaveElement (walker : TeTrcDbWalker) : Option (Motion × TeTrcDbWalker) := do
  if walker.is_iter then
    let iter ← walker.iter
    match ← nextIter db iter with
    | some next => some (.BROTHER,{walker with iter := some next, motion := .BROTHER})
    | none =>
      let cell ← db.iterCells.get iter
      some (.FATHER,{walker with test := some cell.parent, is_iter := false, motion := .FATHER})
  else
    let test ← walker.test
    match ← nextTest db test with
    | some next => some (.BROTHER,{walker with test := some next, motion := .BROTHER})
    | none =>
      let cell ← db.testCells.get test
      let motion := if cell.parent = none then .ROOT else .FATHER
      some (motion,{walker with is_iter := true, iter := cell.parent, motion := motion})
def trc_db_walker_move (walker : TeTrcDbWalker) : Option (Motion × TeTrcDbWalker) :=
  match walker.motion with
  | .ROOT =>
    match db.tests.head? with
    | none => some (.ROOT,{walker with test := none})
    | some test => some (.SON,{walker with test := some test, is_iter := false, motion := .SON})
  | .FATHER => leaveElement db walker
  | _ =>
    if walker.is_iter then do
      let iter ← walker.iter
      let tests ← testsOf db (some iter)
      match tests.head? with
      | some test => some (.SON,{walker with test := some test, is_iter := false, motion := .SON})
      | none => leaveElement db {walker with test := none}
    else do
      let test ← walker.test
      let iters ← itersOf db test
      match iters.head? with
      | some iter => some (.SON,{walker with iter := some iter, is_iter := true, motion := .SON})
      | none => leaveElement db {walker with iter := none}
end

section
variable (ops : ExpectedOps Expected) (trc_db_compare_values : CStr → CStr → Int)

def trc_db_new_test (db : TeTrcDb Expected) (parent : Option Nat) (name : CStr) (filename : Option CStr) : TeTrcDb Expected :=
  let test := db.testCells.fresh
  let db := {db with testCells := db.testCells.alloc ⟨parent,name,[],filename⟩}
  match parent with
  | none => {db with tests := db.tests ++ [test]}
  | some iter => {db with iterCells := db.iterCells.modify iter fun cell => {cell with tests := cell.tests ++ [test]}}
/-- The file of a new test or iteration. -/
def fileOf (parent db : Option CStr) : Option CStr :=
  match parent with
  | some file => some file
  | none => db
def trc_db_walker_step_test (db : TeTrcDb Expected) (walker : TeTrcDbWalker) (test_name : CStr) (force : Bool) :
    Option (Bool × TeTrcDb Expected × TeTrcDbWalker) :=
  if walker.is_iter = false then none
  else if 0 < walker.unknown then some (false,db,{walker with unknown := walker.unknown+1, is_iter := false})
  else do
    let tests ← testsOf db walker.iter
    match tests.find? fun t => (db.testCells.get t).any fun cell => cell.name = test_name with
    | some test => some (true,db,{walker with test := some test, is_iter := false})
    | none =>
      if force then
        let filename := fileOf (do (← db.iterCells.get (← walker.iter)).filename) db.filename
        some (true,trc_db_new_test db walker.iter test_name filename,{walker with test := some db.testCells.fresh, is_iter := false})
      else some (false,db,{walker with test := none, unknown := walker.unknown+1, is_iter := false})

/-- `step_iter_flags`. -/
structure StepIterFlags where
  NO_MATCH_OLD : Bool
  NO_MATCH_WILD : Bool
  NO_MATCH_NEW : Bool
  CREATE_NFOUND : Bool
  CREATE_UNSPEC : Bool
  SPLIT_RESULTS : Bool
  deriving DecidableEq, Repr
/-- The iterations that match: the last one, the last one of the database, of the log, and with a wildcard. -/
structure IterMatches where
  iter : Option Nat
  old_exact_iter : Option Nat
  new_exact_iter : Option Nat
  wild_iter : Option Nat
  user_match : Bool
  deriving DecidableEq, Repr

variable (func_args_match : Option (TrcTestIter Expected → List TrcReportArgument → IterMatch))

def matchIter (db : TeTrcDb Expected) (args : List TrcReportArgument) (seen : IterMatches) (i : Nat) : IterMatches :=
  match db.iterCells.get i with
  | none => seen
  | some cell =>
    let (match_result,user_match) := match func_args_match with
      | some func =>
        if cell.log_found then (test_iter_args_match trc_db_compare_values (some db.globals) cell.args args true,seen.user_match)
        else (func cell args,true)
      | none => (test_iter_args_match trc_db_compare_values (some db.globals) cell.args args true,seen.user_match)
    let seen := {seen with user_match := user_match}
    match match_result with
    | .NO_MATCH => seen
    | .WILD_MATCH => {seen with iter := some i, wild_iter := some i}
    | .EXACT_MATCH =>
      if cell.log_found then {seen with iter := some i, new_exact_iter := some i} else {seen with iter := some i, old_exact_iter := some i}
def sortArgs (args : List TrcReportArgument) : List TrcReportArgument := args.mergeSort fun a b => !strLess b.name a.name
/-- The iteration chosen, if any. -/
def chosenIter (flags : StepIterFlags) (found : IterMatches) : Option Nat :=
  let iter := if flags.NO_MATCH_OLD || flags.NO_MATCH_WILD || flags.NO_MATCH_NEW then none else found.iter
  let iter := if iter = none ∧ flags.NO_MATCH_OLD = false then found.old_exact_iter else iter
  let iter := if iter = none ∧ flags.NO_MATCH_NEW = false then found.new_exact_iter else iter
  if iter = none ∧ flags.NO_MATCH_WILD = false ∧ flags.NO_MATCH_OLD = false then found.wild_iter else iter
/-- `trc_db_test_iter_args`. -/
def insertArg (args : List TrcTestIterArg) (arg : TrcTestIterArg) : List TrcTestIterArg :=
  let greater := fun a : TrcTestIterArg => !strLess a.name arg.name
  args.rdropWhile greater ++ arg :: args.rtakeWhile greater
def addUniq (list : List CStr) (value : CStr) : List CStr := if value ∈ list then list else list ++ [value]
/-- `trc_db_new_test_iter`, and what is done with the new iteration. -/
def newTestIter (db : TeTrcDb Expected) (test : Nat) (testFile : Option CStr) (args : List TrcReportArgument) (arg_names : List CStr)
    (iter_to_copy : Option Nat) (user_match unspec : Bool) : TeTrcDb Expected :=
  let iter := db.iterCells.fresh
  let copied := iter_to_copy.bind db.iterCells.get
  let cell : TrcTestIter Expected := {
    parent := test
    args := (args.map fun a => ⟨a.name,a.value⟩).foldl insertArg []
    save_order := match copied with
      | some from' => if user_match then arg_names.foldl addUniq [] else from'.save_order.foldl addUniq []
      | none => arg_names.foldl addUniq []
    expected := match copied with
      | some from' => from'.expected
      | none => if unspec then ops.unspec else ops.passed
    tests := []
    filename := fileOf (copied.bind TrcTestIter.filename) (fileOf testFile db.filename)
    log_found := false}
  let insert (queue : List Nat) : List Nat := match iter_to_copy with
    | none => queue ++ [iter]
    | some before => tailqInsertBefore queue before iter
  {db with
    iterCells := db.iterCells.alloc cell
    testCells := db.testCells.modify test fun t => {t with iters := insert t.iters}}
def trc_db_walker_step_iter (db : TeTrcDb Expected) (walker : TeTrcDbWalker) (args : List TrcReportArgument) (flags : StepIterFlags) :
    Option (Bool × TeTrcDb Expected × TeTrcDbWalker) :=
  if walker.is_iter then none
  else if 0 < walker.unknown then some (false,db,{walker with unknown := walker.unknown+1, is_iter := true})
  else do
    let test ← walker.test
    let cell ← db.testCells.get test
    let sorted := sortArgs args
    let found := cell.iters.foldl (matchIter trc_db_compare_values func_args_match db sorted) ⟨none,none,none,none,false⟩
    let split (db : TeTrcDb Expected) (iter : Nat) : TeTrcDb Expected :=
      if flags.SPLIT_RESULTS then
        {db with iterCells := db.iterCells.modify iter fun i => {i with expected := ops.split i.expected}}
      else db
    match chosenIter flags found with
    | some iter => some (true,split db iter,{walker with iter := some iter, is_iter := true})
    | none =>
      if flags.CREATE_NFOUND then
        let iter_to_copy := if found.wild_iter ≠ none then found.wild_iter else found.old_exact_iter
        let db' := newTestIter ops db test cell.filename sorted (args.map TrcReportArgument.name) iter_to_copy found.user_match flags.CREATE_UNSPEC
        some (true,split db' db.iterCells.fresh,{walker with iter := some db.iterCells.fresh, is_iter := true})
      else some (false,db,{walker with iter := none, unknown := walker.unknown+1, is_iter := true})
def trc_db_walker_step_back (db : TeTrcDb Expected) (walker : TeTrcDbWalker) : Option TeTrcDbWalker :=
  if 0 < walker.unknown then some {walker with unknown := walker.unknown-1, is_iter := !walker.is_iter}
  else if walker.is_iter then do
    let iter ← walker.iter
    let cell ← db.iterCells.get iter
    some {walker with test := some cell.parent, is_iter := false}
  else do
    let test ← walker.test
    let cell ← db.testCells.get test
    some {walker with iter := cell.parent, is_iter := true}
end

end TestEnvironment.Trc
