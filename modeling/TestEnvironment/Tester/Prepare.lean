import TestEnvironment.Tester.Walk

/-!
The preparation of the configurations (`config_prepare.c`): a walk that counts the
iterations of every run item, hands the handlers down to the sessions, and adds
the weights up on a stack of contexts. The attribute `track_conf` is left out, and
the check of the variable references is a function of the configuration.
-/
namespace TestEnvironment.Tester
open Lib

/-- `config_prepare_ctx`. -/
structure ConfigPrepareCtx where
  total_iters : Nat
  inherit_exception_all : Bool
  inherit_keepalive_all : Bool
  exception : Option Ref
  keepalive : Option Ref
  deriving DecidableEq, Repr
/-- `config_prepare_data`, with the configuration that the callbacks change. -/
structure ConfigPrepareData where
  heap : TesterHeap
  ctxs : List ConfigPrepareCtx
  rc : Status
  expand_rc : Status

namespace TesterHeap
def setItem (h : TesterHeap) (ri : Ref) (item : ConfigItem) : TesterHeap := {h with item := update h.item ri item}
def setTotal (h : TesterHeap) (cfg : Ref) (total_iters : Nat) : TesterHeap :=
  {h with cfg := update h.cfg cfg {h.cfg cfg with total_iters := total_iters}}
end TesterHeap

section

/-- `config_prepare_new_ctx`. -/
def config_prepare_new_ctx (gctx : ConfigPrepareData) : ConfigPrepareData :=
  let new_ctx : ConfigPrepareCtx :=
    match gctx.ctxs with
    | cur :: _ => {cur with total_iters := 0}
    | [] => {total_iters := 0,inherit_exception_all := false,inherit_keepalive_all := false,exception := none,keepalive := none}
  {gctx with ctxs := new_ctx :: gctx.ctxs}
def config_prepare_destroy_ctx : StateT ConfigPrepareData Option Status := fun gctx =>
  match gctx.ctxs with
  | [] => none
  | [_] => some (none,{gctx with ctxs := []})
  | curr :: prev :: rest =>
    if check_sum_overflow prev.total_iters curr.total_iters then
      some (some .EOVERFLOW,{gctx with ctxs := prev :: rest,rc := some .EOVERFLOW})
    else some (none,{gctx with ctxs := {prev with total_iters := (prev.total_iters+curr.total_iters)%UINT_MOD} :: rest})
/-- `inherit_executable`: the executable of the child, and the one to be inherited with the
    flag for all descendants. -/
def inherit_executable (handdown : Ref → TesterHanddown) (child_exec inherit_exec : Option Ref) (all : Bool) :
    Option Ref × Option Ref × Bool :=
  match child_exec with
  | some exec =>
    match handdown exec with
    | .NONE => (some exec,none,false)
    | .CHILDREN => (some exec,some exec,false)
    | .DESCENDANTS => (some exec,some exec,true)
  | none => (inherit_exec,if all then inherit_exec else none,all)

end

section
variable (objs : TesterObjects) (depth : Nat) (expand_check : TesterHeap → Ref → Status)

def prepare_cfg_start (_ : Ref) (_ : Nat) : StateT ConfigPrepareData Option WalkCtl := do
  modify config_prepare_new_ctx
  return .CONT
def prepare_cfg_end (cfg : Ref) (_ : Nat) : StateT ConfigPrepareData Option WalkCtl := do
  let gctx ← get
  match gctx.ctxs with
  | [] => failure
  | ctx :: _ =>
    set {gctx with heap := gctx.heap.setTotal cfg ctx.total_iters}
    let rc ← config_prepare_destroy_ctx
    return if rc ≠ none then .FAULT else .CONT
def prepare_session_start (ri : Ref) (_ : Nat) : StateT ConfigPrepareData Option WalkCtl := do
  modify config_prepare_new_ctx
  let gctx ← get
  match gctx.ctxs with
  | [] => failure
  | ctx :: rest =>
    let item := gctx.heap.item ri
    let handdown := fun exec => (gctx.heap.item exec).handdown
    let (exception,inherited,all) := inherit_executable handdown item.session.exception ctx.exception ctx.inherit_exception_all
    let (keepalive,inherited',all') := inherit_executable handdown item.session.keepalive ctx.keepalive ctx.inherit_keepalive_all
    let ctx : ConfigPrepareCtx := {ctx with
      exception := inherited,inherit_exception_all := all
      keepalive := inherited',inherit_keepalive_all := all'}
    let item := {item with session := {item.session with exception := exception,keepalive := keepalive}}
    set {gctx with heap := gctx.heap.setItem ri item,ctxs := ctx :: rest}
    return .CONT
def prepare_session_end (ri : Ref) (_ : Nat) : StateT ConfigPrepareData Option WalkCtl := do
  let gctx ← get
  match gctx.ctxs with
  | [] => failure
  | ctx :: rest =>
    let item := {gctx.heap.item ri with weight := ctx.total_iters}
    set {gctx with heap := gctx.heap.setItem ri item,ctxs := {ctx with total_iters := 0} :: rest}
    let rc ← config_prepare_destroy_ctx
    return if rc ≠ none then .FAULT else .CONT
/-- `prepare_test_start`. The status of `prepare_calc_iters` replaces the one of before. -/
def prepare_test_start (ri : Ref) (_ : Nat) (_ : WalkFlags) : StateT ConfigPrepareData Option WalkCtl := do
  let gctx ← get
  if gctx.ctxs = [] then failure
  else
    let rc := expand_check gctx.heap ri
    let expand_rc := if rc ≠ none ∧ gctx.expand_rc = none then rc else gctx.expand_rc
    let item := gctx.heap.item ri
    let (rc,args) ← prepare_calc_iters objs depth item.args
    set {gctx with heap := gctx.heap.setItem ri {item with args := args},rc := rc,expand_rc := expand_rc}
    return if rc ≠ none then .FAULT else .CONT
def prepare_test_end (ri : Ref) (_ : Nat) (flags : WalkFlags) : StateT ConfigPrepareData Option WalkCtl := do
  let gctx ← get
  match gctx.ctxs with
  | [] => failure
  | ctx :: rest =>
    let item := gctx.heap.item ri
    if gctx.rc ≠ none then return .CONT
    else if item.n_iters = 0 ∨ (item.weight = 0 ∧ item.type = .script) then failure
    else if flags.service then return .CONT
    else if check_mul_overflow item.weight item.n_iters then
      set {gctx with rc := some .EOVERFLOW}
      return .FAULT
    else
      let ri_tot_iters := (item.n_iters*item.weight)%UINT_MOD
      if check_sum_overflow ri_tot_iters ctx.total_iters then
        set {gctx with rc := some .EOVERFLOW}
        return .FAULT
      else
        set {gctx with ctxs := {ctx with total_iters := (ctx.total_iters+ri_tot_iters)%UINT_MOD} :: rest}
        return .CONT
def prepare_iter_start (_ : Ref) (_ : Nat) (_ : WalkFlags) (iter : Nat) : StateT ConfigPrepareData Option WalkCtl :=
  return if iter = 0 then .CONT else .SKIP
def prepare_script (ri : Ref) (_ : Nat) : StateT ConfigPrepareData Option WalkCtl := do
  modify fun gctx => {gctx with heap := gctx.heap.setItem ri {gctx.heap.item ri with weight := 1}}
  return .CONT

/-- The callbacks of `tester_prepare_configs`; `prepare_pkg_start` only notes a path. -/
def prepareWalk : TesterCfgWalk ConfigPrepareData where
  cfg_start := some prepare_cfg_start
  cfg_end := some prepare_cfg_end
  pkg_start := some fun _ _ => pure .CONT
  session_start := some prepare_session_start
  session_end := some prepare_session_end
  run_start := some (prepare_test_start objs depth expand_check)
  run_end := some prepare_test_end
  iter_start := some prepare_iter_start
  script := some prepare_script

/-- `tester_prepare_configs`: the status, the configuration and its `total_iters`, which is
    left as it was unless the walk goes through. -/
def tester_prepare_configs (break_session : Bool) (fuel : Nat) (cfgs : List Ref) (heap : TesterHeap) (total_iters : Nat) :
    Option (Status × TesterHeap × Nat) := do
  let gctx := config_prepare_new_ctx {heap := heap,ctxs := [],rc := none,expand_rc := none}
  let flags : WalkFlags := {service := false,forceException := true,outputParams := false,skipRepeat := false}
  let (ctl,gctx) ←
    tester_configs_walk ConfigPrepareData.heap break_session (prepareWalk objs depth expand_check) fuel cfgs flags gctx
  if ctl = .CONT then
    match gctx.ctxs with
    | [] => none
    | ctx :: _ =>
      let (rc,gctx) ← config_prepare_destroy_ctx gctx
      if gctx.ctxs ≠ [] then none
      else some (rc.or gctx.expand_rc,gctx.heap,ctx.total_iters)
  else
    -- the contexts that are left are added up and freed, which may set the status
    let rc ← destroyAll gctx.ctxs.length gctx
    some (rc.or gctx.expand_rc,gctx.heap,total_iters)
where
  destroyAll : Nat → ConfigPrepareData → Option Status
    | 0, gctx => some gctx.rc
    | n+1, gctx => do
      let (_,gctx) ← config_prepare_destroy_ctx gctx
      destroyAll n gctx
end

end TestEnvironment.Tester
