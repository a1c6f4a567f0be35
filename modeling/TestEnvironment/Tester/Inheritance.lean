import TestEnvironment.Lib.Handdown
import TestEnvironment.Tester.Lifts
import TestEnvironment.Tester.PrepareSteps

/-!
The preparation with the attribute `track_conf`, and what sessions inherit by the rule:
handlers and `track_conf` from the nearest session above them that declares some, as far
as it hands them down. The walk that the rule gives visits a handler that is inherited
for every run item of a session (`SessionVisits`).
-/
namespace TestEnvironment.Tester
open Lib

def TESTER_TRACK_CONF_UNSPEC : Nat := 0
/-- Specified and enabled, with marks of dirty tests and the history. -/
def TESTER_TRACK_CONF_DEF : Nat := 15
/-- `test_attrs`. -/
structure TestAttrs where
  track_conf : Nat
  track_conf_hd : TesterHanddown
  deriving DecidableEq, Repr
/-- The part of `config_prepare_ctx` for `track_conf`. -/
structure TrackCtx where
  inherit_track_conf : Bool
  inherit_track_conf_all : Bool
  track_conf : Nat
  deriving DecidableEq, Repr
/-- The attributes of the run items (for a package those of its main session), and the
    contexts. -/
structure TrackData where
  attrs : Ref → TestAttrs
  ctxs : List TrackCtx
abbrev TrackState := ConfigPrepareData × TrackData

section

def TrackData.setTrack (d : TrackData) (ri : Ref) (track_conf : Nat) : TrackData :=
  {d with attrs := update d.attrs ri {d.attrs ri with track_conf := track_conf}}
def track_new_ctx (d : TrackData) : TrackData :=
  {d with ctxs := d.ctxs.headD ⟨false,false,TESTER_TRACK_CONF_UNSPEC⟩ :: d.ctxs}
/-- What a session or a script without the attribute gets. -/
def TrackCtx.inherited (ctx : TrackCtx) : Nat := if ctx.inherit_track_conf then ctx.track_conf else TESTER_TRACK_CONF_DEF
/-- The inheritance of `track_conf` in `prepare_session_start`. -/
def track_session_start (ri : Ref) (d : TrackData) : Option TrackData :=
  match d.ctxs with
  | [] => none
  | ctx :: rest =>
    let attrs := d.attrs ri
    if attrs.track_conf ≠ TESTER_TRACK_CONF_UNSPEC then
      some {d with ctxs := ⟨attrs.track_conf_hd ≠ .NONE,attrs.track_conf_hd = .DESCENDANTS,attrs.track_conf⟩ :: rest}
    else
      some {d.setTrack ri ctx.inherited with
        ctxs := {ctx with inherit_track_conf := ctx.inherit_track_conf && ctx.inherit_track_conf_all} :: rest}
/-- The inheritance of `track_conf` in `prepare_test_start`, which is for scripts only. -/
def track_test_start (type : RunItemType) (ri : Ref) (d : TrackData) : Option TrackData :=
  match d.ctxs with
  | [] => none
  | ctx :: _ =>
    if type = .script ∧ (d.attrs ri).track_conf = TESTER_TRACK_CONF_UNSPEC then some (d.setTrack ri ctx.inherited) else some d

/-- A step of the part for `track_conf`. -/
def tracking (step : TrackData → Option TrackData) : StateT TrackState Option Unit := fun s => (step s.2).map fun d => ((),(s.1,d))
end

section
variable (objs : TesterObjects) (depth : Nat) (expand_check : TesterHeap → Ref → Status)

def tracked_cfg_start (cfg : Ref) (id_off : Nat) : StateT TrackState Option WalkCtl := do
  tracking fun d => some (track_new_ctx d)
  lifted (prepare_cfg_start cfg id_off)
def tracked_cfg_end (cfg : Ref) (id_off : Nat) : StateT TrackState Option WalkCtl := do
  tracking fun d => some {d with ctxs := d.ctxs.tail}
  lifted (prepare_cfg_end cfg id_off)
def tracked_session_start (ri : Ref) (id_off : Nat) : StateT TrackState Option WalkCtl := do
  tracking fun d => track_session_start ri (track_new_ctx d)
  lifted (prepare_session_start ri id_off)
def tracked_session_end (ri : Ref) (id_off : Nat) : StateT TrackState Option WalkCtl := do
  tracking fun d => some {d with ctxs := d.ctxs.tail}
  lifted (prepare_session_end ri id_off)
def tracked_test_start (ri : Ref) (id_off : Nat) (flags : WalkFlags) : StateT TrackState Option WalkCtl := do
  let s ← get
  tracking (track_test_start (s.1.heap.item ri).type ri)
  lifted (prepare_test_start objs depth expand_check ri id_off flags)
/-- The callbacks of `tester_prepare_configs` with `track_conf`. -/
def trackedWalk : TesterCfgWalk TrackState :=
  {(prepareWalk objs depth expand_check).lifted id id with
    cfg_start := some tracked_cfg_start
    cfg_end := some tracked_cfg_end
    session_start := some tracked_session_start
    session_end := some tracked_session_end
    run_start := some (tracked_test_start objs depth expand_check)}
/-- The state in which `tester_prepare_configs` starts its walk. -/
def prepareStart (h : TesterHeap) (attrs : Ref → TestAttrs) : TrackState :=
  (config_prepare_new_ctx {heap := h,ctxs := [],rc := none,expand_rc := none},track_new_ctx ⟨attrs,[]⟩)
/-- The walk of `tester_prepare_configs`. -/
def tracked_prepare_configs (break_session : Bool) (fuel : Nat) (cfgs : List Ref) : StateT TrackState Option WalkCtl :=
  tester_configs_walk (ConfigPrepareData.heap ∘ Prod.fst) break_session (trackedWalk objs depth expand_check) fuel cfgs
    {service := false,forceException := true,outputParams := false,skipRepeat := false}
end

/-! ### The rule -/

/-- A visit of a run item below the sessions `above`, the nearest one first; exception
    handlers are walked where the walk is `forced`. -/
structure Visit where
  forced : Bool
  above : List Ref
  item : Ref
  deriving DecidableEq, Repr

section
variable (h : TesterHeap) (attrs : Ref → TestAttrs)

def TesterHanddown.extent : TesterHanddown → Extent
  | .NONE => .nobody
  | .CHILDREN => .children
  | .DESCENDANTS => .descendants
/-- The handler that the session declares, with the sessions that it hands it down to. -/
def declaredHandler (handler : TestSession → Option Ref) (r : Ref) : Option (Ref × Extent) :=
  (handler (h.item r).session).map fun exec => (exec,(h.item exec).handdown.extent)
def declaredTrack (r : Ref) : Option (Nat × Extent) :=
  if (attrs r).track_conf = TESTER_TRACK_CONF_UNSPEC then none else some ((attrs r).track_conf,(attrs r).track_conf_hd.extent)
/-- The handler of the session by the rule. -/
def handlerOf (handler : TestSession → Option Ref) (v : Visit) : Option Ref :=
  effective (declaredHandler h handler v.item) (v.above.map (declaredHandler h handler))
/-- The `track_conf` of the run item by the rule. -/
def trackConfOf (v : Visit) : Nat :=
  (effective (declaredTrack attrs v.item) (v.above.map (declaredTrack attrs))).getD TESTER_TRACK_CONF_DEF

/-- The visits of a run item with the handlers that are called around it. -/
def around (forced : Bool) (above : List Ref) (keepalive exception : Option Ref) (r : Ref) : List Visit :=
  keepalive.toList.map (Visit.mk false above) ++ ⟨forced,above,r⟩ ::
    if forced then exception.toList.map (Visit.mk false above) else []
/-- The visits in a session. -/
def inside (v : Visit) : List Visit :=
  let session := (h.item v.item).session
  let above := v.item :: v.above
  session.prologue.toList.map (Visit.mk false above) ++
    (session.run_items.flatMap (around v.forced above (handlerOf h TestSession.keepalive v) (handlerOf h TestSession.exception v)) ++
      session.epilogue.toList.map (Visit.mk false above))
/-- The visits with all visits in their sessions, in order. -/
inductive SessionVisits : List Visit → List Visit → Prop
  | nil : SessionVisits [] []
  | script {v : Visit} {vs l : List Visit} (script : (h.item v.item).type = .script) (rest : SessionVisits vs l) :
      SessionVisits (v :: vs) (v :: l)
  | session {v : Visit} {vs within l : List Visit} (session : (h.item v.item).type ≠ .script)
      (inner : SessionVisits (inside h v) within) (rest : SessionVisits vs l) : SessionVisits (v :: vs) (v :: within ++ l)
/-- The visits of the run items of the configurations. -/
def cfgVisits (cfgs : List Ref) : List Visit := cfgs.flatMap fun c => (h.cfg c).runs.map (Visit.mk true [])
/-- The sessions among them. -/
def sessionsOf (l : List Visit) : List Ref := (l.map Visit.item).filter fun r => (h.item r).type ≠ .script

end
end TestEnvironment.Tester
