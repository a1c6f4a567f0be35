import TestEnvironment.Tester.Iterations

/-!
The configuration with its run items behind their addresses (`tester_conf.h`) and
its traversal (`config_walk.c`). Callbacks run in a state from which the walk
reads the configuration again at every step, because some of them change it.

A walk gives nothing where a callback fails an assertion, and where the fuel,
which bounds the depth of the nesting and the passes of each loop, is too small.
-/
namespace TestEnvironment.Tester
open Lib

/-- `tester_cfg_walk_ctl`. -/
inductive WalkCtl
  | CONT
  | BACK
  | BREAK
  | SKIP
  | EXC
  | FIN
  | STOP
  | INTR
  | FAULT
  | EARGS
  deriving DecidableEq, Repr
/-- The flags of a walk (`TESTER_CFG_WALK_*`). -/
structure WalkFlags where
  service : Bool
  forceException : Bool
  outputParams : Bool
  skipRepeat : Bool
  deriving DecidableEq, Repr
def TESTER_CFG_WALK_SERVICE : WalkFlags := {service := true,forceException := false,outputParams := false,skipRepeat := false}

inductive TesterHanddown | NONE | CHILDREN | DESCENDANTS
  deriving DecidableEq, Repr
/-- `test_session` without its variables. -/
structure TestSession where
  run_items : List Ref
  exception : Option Ref
  keepalive : Option Ref
  prologue : Option Ref
  epilogue : Option Ref
  deriving DecidableEq, Repr
/-- The types of run items, with the session that `RUN_ITEM_SESSION` and the package of
    `RUN_ITEM_PACKAGE` have. -/
inductive RunItemType
  | script
  | session
  | package
  deriving DecidableEq, Repr
/-- `run_item`; the part that its iterations depend on is `args`. -/
structure ConfigItem where
  type : RunItemType
  session : TestSession
  args : RunItem
  weight : Nat
  handdown : TesterHanddown
  deriving DecidableEq, Repr
def ConfigItem.n_iters (ri : ConfigItem) : Nat := ri.args.n_iters
/-- `tester_cfg`. -/
structure TesterCfg where
  runs : List Ref
  total_iters : Nat
  deriving DecidableEq, Repr
/-- The run items and the configurations behind their addresses. -/
structure TesterHeap where
  item : Ref → ConfigItem
  cfg : Ref → TesterCfg

def walk_ctl_merge (cur anew : WalkCtl) : WalkCtl :=
  match cur with
  | .FAULT | .FIN | .STOP | .INTR => cur
  | .BREAK => if anew = .CONT then .BREAK else anew
  | .BACK => if anew = .CONT then .BACK else anew
  | _ => anew

/-- `tester_cfg_walk`: the callbacks, which may be missing. -/
structure TesterCfgWalk (σ : Type) where
  cfg_start : Option (Ref → Nat → StateT σ Option WalkCtl) := none
  cfg_end : Option (Ref → Nat → StateT σ Option WalkCtl) := none
  pkg_start : Option (Ref → Nat → StateT σ Option WalkCtl) := none
  pkg_end : Option (Ref → Nat → StateT σ Option WalkCtl) := none
  session_start : Option (Ref → Nat → StateT σ Option WalkCtl) := none
  session_end : Option (Ref → Nat → StateT σ Option WalkCtl) := none
  prologue_start : Option (Ref → Nat → StateT σ Option WalkCtl) := none
  prologue_end : Option (Ref → Nat → StateT σ Option WalkCtl) := none
  epilogue_start : Option (Ref → Nat → StateT σ Option WalkCtl) := none
  epilogue_end : Option (Ref → Nat → StateT σ Option WalkCtl) := none
  keepalive_start : Option (Ref → Nat → StateT σ Option WalkCtl) := none
  keepalive_end : Option (Ref → Nat → StateT σ Option WalkCtl) := none
  exception_start : Option (Ref → Nat → StateT σ Option WalkCtl) := none
  exception_end : Option (Ref → Nat → StateT σ Option WalkCtl) := none
  run_start : Option (Ref → Nat → WalkFlags → StateT σ Option WalkCtl) := none
  run_end : Option (Ref → Nat → WalkFlags → StateT σ Option WalkCtl) := none
  iter_start : Option (Ref → Nat → WalkFlags → Nat → StateT σ Option WalkCtl) := none
  iter_end : Option (Ref → Nat → WalkFlags → Nat → StateT σ Option WalkCtl) := none
  repeat_start : Option (Ref → Nat → WalkFlags → StateT σ Option WalkCtl) := none
  repeat_end : Option (Ref → Nat → WalkFlags → StateT σ Option WalkCtl) := none
  script : Option (Ref → Nat → StateT σ Option WalkCtl) := none
  skip_start : Option (StateT σ Option Unit) := none
  skip_end : Option (StateT σ Option Unit) := none

section
variable {σ : Type} (view : σ → TesterHeap) (break_session : Bool) (walk : TesterCfgWalk σ)

/-- A callback, or the control without it. -/
def callback (cb : Option (StateT σ Option WalkCtl)) : StateT σ Option WalkCtl := cb.getD (pure .CONT)
/-- A callback whose control is merged into the current one. -/
def callbackEnd (cb : Option (StateT σ Option WalkCtl)) (ctl : WalkCtl) : StateT σ Option WalkCtl :=
  match cb with
  | some cb => do
    let ctl_tmp ← cb
    return walk_ctl_merge ctl ctl_tmp
  | none => pure ctl
def TesterCfgWalk.haveSkip : Bool := walk.skip_start.isSome && walk.skip_end.isSome
/-- `skip_start` or `skip_end` if the condition holds. -/
def skipCall (cond : Bool) (cb : Option (StateT σ Option Unit)) : StateT σ Option Unit :=
  if cond then cb.getD (pure ()) else pure ()
/-- The item at the address as it is now. -/
def itemAt (ri : Ref) : StateT σ Option ConfigItem := do
  let s ← get
  return (view s).item ri

/-- The walk of a run item with the flags, its identifier and the handlers: the control, and
    whether keep-alive validation has failed. -/
abbrev ItemWalk (σ : Type) := WalkFlags → Ref → Nat → Option Ref → Option Ref → StateT σ Option (WalkCtl × Bool)
variable (walk_run_item : ItemWalk σ)

def walk_service (id_off : Nat) (run : Ref) (start_cb end_cb : Option (Ref → Nat → StateT σ Option WalkCtl)) :
    StateT σ Option WalkCtl := do
  let ctl ← callback (start_cb.map fun cb => cb run id_off)
  let ctl ←
    if ctl = .CONT then do
      let (ctl,_) ← walk_run_item TESTER_CFG_WALK_SERVICE run id_off none none
      pure ctl
    else pure ctl
  callbackEnd (end_cb.map fun cb => cb run id_off) ctl
/-- The service run item that a session may have. -/
def serviceOf (id_off : Nat) (run : Option Ref) (start_cb end_cb : Option (Ref → Nat → StateT σ Option WalkCtl))
    (ctl : WalkCtl) : StateT σ Option WalkCtl :=
  match run with
  | none => pure ctl
  | some run => walk_service walk_run_item id_off run start_cb end_cb

/-- The loop of `walk_run_items`, from the run items `rest` on. -/
def itemsLoop (flags : WalkFlags) (id_off : Nat) (runs : List Ref) (keepalive exception : Option Ref) :
    Nat → List Ref → Nat → WalkCtl → Bool → StateT σ Option (WalkCtl × Bool)
  | 0, _, _, _, _ => failure
  | _+1, [], _, ctl, ka_failed => pure (ctl,ka_failed)
  | fuel+1, ri :: rest, curr_id_off, ctl, ka_failed =>
    if ctl ≠ .CONT then pure (ctl,ka_failed)
    else do
      let (ctl,failed) ← walk_run_item flags ri curr_id_off keepalive exception
      let ka_failed := ka_failed || failed
      if ctl = .BACK ∧ runs.head? ≠ some ri then
        itemsLoop flags id_off runs keepalive exception fuel runs id_off .CONT ka_failed
      else
        let item ← itemAt view ri
        itemsLoop flags id_off runs keepalive exception fuel rest ((curr_id_off+item.n_iters*item.weight)%UINT_MOD) ctl ka_failed
def walk_run_items (fuel : Nat) (flags : WalkFlags) (id_off : Nat) (runs : List Ref) (keepalive exception : Option Ref) :
    StateT σ Option (WalkCtl × Bool) :=
  itemsLoop view walk_run_item flags id_off runs keepalive exception fuel runs id_off .CONT false

/-- `walk_test_session` between its callbacks. -/
def sessionBody (fuel : Nat) (flags : WalkFlags) (ri : Ref) (id_off : Nat) : StateT σ Option WalkCtl := do
  let item ← itemAt view ri
  let ctl ← serviceOf walk_run_item id_off item.session.prologue walk.prologue_start walk.prologue_end .CONT
  let skip_items := decide (ctl ≠ .CONT)
  skipCall (skip_items && walk.haveSkip) walk.skip_start
  let item ← itemAt view ri
  let (ctl,keepalive_failed) ←
    if skip_items = false ∨ walk.haveSkip then
      walk_run_items view walk_run_item fuel flags id_off item.session.run_items item.session.keepalive item.session.exception
    else pure (ctl,false)
  skipCall (skip_items && walk.haveSkip) walk.skip_end
  skipCall (keepalive_failed && walk.haveSkip) walk.skip_end
  let item ← itemAt view ri
  match item.session.epilogue with
  | some epilogue =>
    if break_session = false ∨ ctl ≠ .STOP then
      let ctl_tmp ← walk_service walk_run_item id_off epilogue walk.epilogue_start walk.epilogue_end
      return walk_ctl_merge ctl ctl_tmp
    else return ctl
  | none => return ctl
def walk_test_session (fuel : Nat) (flags : WalkFlags) (ri : Ref) (id_off : Nat) : StateT σ Option WalkCtl := do
  let ctl ← callback (walk.session_start.map fun cb => cb ri id_off)
  let ctl ← if ctl = .CONT then sessionBody view break_session walk walk_run_item fuel flags ri id_off else pure ctl
  callbackEnd (walk.session_end.map fun cb => cb ri id_off) ctl
def walk_test_package (fuel : Nat) (flags : WalkFlags) (ri : Ref) (id_off : Nat) : StateT σ Option WalkCtl := do
  let ctl ← callback (walk.pkg_start.map fun cb => cb ri id_off)
  let skip_items := decide (ctl ≠ .CONT)
  skipCall (skip_items && walk.haveSkip) walk.skip_start
  let ctl ←
    if skip_items = false ∨ walk.haveSkip then walk_test_session view break_session walk walk_run_item fuel flags ri id_off
    else pure ctl
  skipCall (skip_items && walk.haveSkip) walk.skip_end
  callbackEnd (walk.pkg_end.map fun cb => cb ri id_off) ctl

/-- The body of a repetition, by the type of the run item. -/
def repeatBody (fuel : Nat) (flags : WalkFlags) (run : Ref) (id_off : Nat) (ctl : WalkCtl) : StateT σ Option WalkCtl :=
  if ctl ≠ .CONT then pure ctl
  else do
    let item ← itemAt view run
    match item.type with
    | .script => if flags.skipRepeat then pure ctl else callback (walk.script.map fun cb => cb run id_off)
    | .session => walk_test_session view break_session walk walk_run_item fuel flags run id_off
    | .package =>
      if flags.skipRepeat then pure ctl else walk_test_package view break_session walk walk_run_item fuel flags run id_off
/-- The end of a repetition: the control by which the loop goes on. -/
def repeatRest (flags : WalkFlags) (run : Ref) (id_off : Nat) (exception : Option Ref) (ctl : WalkCtl) : StateT σ Option WalkCtl := do
  let do_exception := decide (ctl = .EXC)
  let ctl := if ctl = .EXC then .CONT else ctl
  let ctl ←
    match walk.repeat_end with
    | some cb => do
      let ctl_tmp ← cb run id_off flags
      pure (walk_ctl_merge ctl ctl_tmp)
    | none => pure (if ctl = .CONT then .BREAK else ctl)
  if do_exception || flags.forceException then
    match exception with
    | some exception => do
      let ctl_tmp ← walk_service walk_run_item id_off exception walk.exception_start walk.exception_end
      return walk_ctl_merge ctl ctl_tmp
    | none => return ctl
  else return ctl
/-- The loop of `walk_repeat`. -/
def repeatLoop (fuel : Nat) (flags : WalkFlags) (run : Ref) (id_off : Nat) (keepalive exception : Option Ref) :
    Nat → Bool → StateT σ Option (WalkCtl × Bool)
  | 0, _ => failure
  | n+1, ka_failed => do
    let ctl ← serviceOf walk_run_item id_off keepalive walk.keepalive_start walk.keepalive_end .CONT
    if ctl ≠ .CONT ∧ walk.haveSkip = false then return (if ctl = .BREAK then .CONT else ctl,ka_failed)
    else
      let failed := decide (ctl ≠ .CONT)
      skipCall failed walk.skip_start
      let ctl ← callback (walk.repeat_start.map fun cb => cb run id_off flags)
      let ctl ← repeatBody view break_session walk walk_run_item fuel flags run id_off ctl
      let ctl ← repeatRest walk walk_run_item flags run id_off exception ctl
      if ctl = .CONT then repeatLoop fuel flags run id_off keepalive exception n (ka_failed || failed)
      else return (if ctl = .BREAK then .CONT else ctl,ka_failed || failed)
def walk_repeat (fuel : Nat) (flags : WalkFlags) (run : Ref) (id_off : Nat) (keepalive exception : Option Ref) :
    StateT σ Option (WalkCtl × Bool) :=
  repeatLoop view break_session walk walk_run_item fuel flags run id_off keepalive exception fuel false

/-- An iteration between its callbacks. -/
def iterBody (fuel : Nat) (flags : WalkFlags) (run : Ref) (id_off : Nat) (keepalive exception : Option Ref) (ctl : WalkCtl) :
    StateT σ Option (WalkCtl × Bool) :=
  if ctl = .CONT ∧ flags.skipRepeat = false then
    walk_repeat view break_session walk walk_run_item fuel flags run id_off keepalive exception
  else if ctl = .EARGS ∨ flags.skipRepeat = true then
    walk_repeat view break_session walk walk_run_item fuel {flags with skipRepeat := true} run id_off none none
  else if ctl = .SKIP then pure (.CONT,false)
  else pure (ctl,false)
/-- The loop of `walk_iterate`, from the iteration `i` on. -/
def iterLoop (fuel : Nat) (flags : WalkFlags) (run : Ref) (id_off : Nat) (keepalive exception : Option Ref) :
    Nat → Nat → Nat → WalkCtl → Bool → StateT σ Option (WalkCtl × Bool)
  | 0, _, _, _, _ => failure
  | n+1, i, curr_id_off, ctl, ka_failed => do
    let item ← itemAt view run
    if i < item.n_iters ∧ ctl = .CONT then
      let ctl ← callback (walk.iter_start.map fun cb => cb run curr_id_off flags i)
      let (ctl,failed) ← iterBody view break_session walk walk_run_item fuel flags run curr_id_off keepalive exception ctl
      let ka_failed := ka_failed || failed
      let ctl ← callbackEnd (walk.iter_end.map fun cb => cb run curr_id_off flags i) ctl
      if ctl = .BACK ∧ curr_id_off ≠ id_off then
        iterLoop fuel flags run id_off keepalive exception n 0 id_off .CONT ka_failed
      else
        let item ← itemAt view run
        iterLoop fuel flags run id_off keepalive exception n (i+1) ((curr_id_off+item.weight)%UINT_MOD) ctl ka_failed
    else return (if ctl = .BREAK then .CONT else ctl,ka_failed)
def walk_iterate (fuel : Nat) (flags : WalkFlags) (run : Ref) (id_off : Nat) (keepalive exception : Option Ref) :
    StateT σ Option (WalkCtl × Bool) :=
  iterLoop view break_session walk walk_run_item fuel flags run id_off keepalive exception fuel 0 id_off .CONT false
end

section
variable {σ : Type} (view : σ → TesterHeap) (break_session : Bool) (walk : TesterCfgWalk σ)

def walk_run_item : Nat → ItemWalk σ
  | 0 => fun _ _ _ _ _ => failure
  | fuel+1 => fun flags run id_off keepalive exception => do
    let ctl ← callback (walk.run_start.map fun cb => cb run id_off flags)
    let (ctl,ka_failed) ←
      if ctl = .CONT then
        walk_iterate view break_session walk (walk_run_item fuel) fuel flags run id_off keepalive exception
      else pure (ctl,false)
    let ctl ← callbackEnd (walk.run_end.map fun cb => cb run id_off flags) ctl
    return (ctl,ka_failed)
/-- The loop of `tester_configs_walk`. -/
def configsLoop (fuel : Nat) (walk_flags : WalkFlags) : List Ref → Nat → WalkCtl → StateT σ Option WalkCtl
  | [], _, ctl => pure ctl
  | cfg :: cfgs, id_off, ctl =>
    if ctl ≠ .CONT then pure ctl
    else do
      let ctl ← callback (walk.cfg_start.map fun cb => cb cfg id_off)
      let s ← get
      let runs := ((view s).cfg cfg).runs
      let ctl ←
        if ctl = .CONT then do
          let (ctl,_) ←
            walk_run_items view (walk_run_item view break_session walk fuel) fuel walk_flags id_off runs none none
          pure ctl
        else pure ctl
      let ctl ← callbackEnd (walk.cfg_end.map fun cb => cb cfg id_off) ctl
      let ctl := if ctl = .SKIP then .CONT else ctl
      let s ← get
      configsLoop fuel walk_flags cfgs ((id_off+((view s).cfg cfg).total_iters)%UINT_MOD) ctl
def tester_configs_walk (fuel : Nat) (cfgs : List Ref) (walk_flags : WalkFlags) : StateT σ Option WalkCtl :=
  configsLoop view break_session walk fuel walk_flags cfgs 0 .CONT
end

end TestEnvironment.Tester
