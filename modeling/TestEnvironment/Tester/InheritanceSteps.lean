import TestEnvironment.Tester.Inheritance
import TestEnvironment.Tester.PrepareWalk

/-!
What the callbacks of the preparation do to the handlers and `track_conf` of sessions and
to the contexts that hand them down. A session that is started for the first time gets
what the rule says (`session_start_inherits`).
-/
namespace TestEnvironment.Tester
open Lib

section
variable {h : TesterHeap} {vs vs' l l' : List Visit} {v : Visit} {r : Ref}

theorem SessionVisits.append (visits : SessionVisits h (vs ++ vs') l) :
    ∃ one two, SessionVisits h vs one ∧ SessionVisits h vs' two ∧ l = one ++ two := by
  induction vs generalizing l with
  | nil => exact ⟨[],l,.nil,visits,rfl⟩
  | cons v vs ih =>
    rw [cons_append] at visits
    cases visits with
    | script script rest =>
      obtain ⟨one,two,first,second,rfl⟩ := ih rest
      exact ⟨v :: one,two,.script script first,second,rfl⟩
    | session session inner rest =>
      obtain ⟨one,two,first,second,rfl⟩ := ih rest
      exact ⟨v :: _ ++ one,two,.session session inner first,second,by simp⟩
theorem SessionVisits.and (first : SessionVisits h vs l) (second : SessionVisits h vs' l') :
    SessionVisits h (vs ++ vs') (l ++ l') := by
  induction first with
  | nil => exact second
  | script script _ ih => exact .script script ih
  | session session inner _ _ ih =>
    rw [append_assoc]
    exact .session session inner ih

theorem mem_sessionsOf : r ∈ sessionsOf h l ↔ (∃ v ∈ l, v.item = r) ∧ (h.item r).type ≠ .script := by
  simp [sessionsOf]
theorem sessionsOf_append : sessionsOf h (l ++ l') = sessionsOf h l ++ sessionsOf h l' := by simp [sessionsOf]
end

section
variable (h : TesterHeap) (attrs : Ref → TestAttrs)

def ConfigPrepareCtx.exceptions (ctx : ConfigPrepareCtx) : Handed Ref := ⟨ctx.exception,ctx.inherit_exception_all⟩
def ConfigPrepareCtx.keepalives (ctx : ConfigPrepareCtx) : Handed Ref := ⟨ctx.keepalive,ctx.inherit_keepalive_all⟩
def ConfigPrepareCtx.handlers (ctx : ConfigPrepareCtx) : Handed Ref × Handed Ref := (ctx.exceptions,ctx.keepalives)
def TrackCtx.handed (ctx : TrackCtx) : Handed Nat :=
  ⟨if ctx.inherit_track_conf then some ctx.track_conf else none,ctx.inherit_track_conf_all⟩

/-- What the run item has now, and what it has by the rule. -/
def valuesAt (s : TrackState) (r : Ref) : Option Ref × Option Ref × Nat :=
  ((s.1.heap.item r).session.exception,(s.1.heap.item r).session.keepalive,(s.2.attrs r).track_conf)
def ruleValues (v : Visit) : Option Ref × Option Ref × Nat :=
  (handlerOf h TestSession.exception v,handlerOf h TestSession.keepalive v,trackConfOf attrs v)

/-- What the walk never changes while it goes on. -/
structure Kept (s : TrackState) : Prop where
  shape : ∀ r, (s.1.heap.item r).shape = (h.item r).shape
  hd : ∀ r, (s.2.attrs r).track_conf_hd = (attrs r).track_conf_hd
  runs : ∀ c, (s.1.heap.cfg c).runs = (h.cfg c).runs
  rc : s.1.rc = none
  unspec : ∀ r, (s.2.attrs r).track_conf = TESTER_TRACK_CONF_UNSPEC → (attrs r).track_conf = TESTER_TRACK_CONF_UNSPEC
/-- The contexts on the top keep what the sessions hand down. -/
structure Below (above : List Ref) (s : TrackState) : Prop where
  handlers : ∃ ctx rest, s.1.ctxs = ctx :: rest ∧ ctx.exceptions = .along (above.map (declaredHandler h TestSession.exception)) ∧
    ctx.keepalives = .along (above.map (declaredHandler h TestSession.keepalive))
  track : ∃ ctx rest, s.2.ctxs = ctx :: rest ∧ ctx.handed = .along (above.map (declaredTrack attrs))
/-- No session has been started yet, and each will be started once. -/
structure Unvisited (l : List Visit) (s : TrackState) : Prop where
  once : (sessionsOf h l).Nodup
  own : ∀ r ∈ sessionsOf h l, valuesAt s r = ((h.item r).session.exception,(h.item r).session.keepalive,(attrs r).track_conf)
/-- What the visits leave: sessions have what the rule says, and scripts without `track_conf`
    what the rule says for one of their visits. -/
structure Inherits (l : List Visit) (s t : TrackState) : Prop where
  kept : Kept h attrs t
  ctxs : t.1.ctxs.map ConfigPrepareCtx.handlers = s.1.ctxs.map ConfigPrepareCtx.handlers
  track : t.2.ctxs = s.2.ctxs
  frame : ∀ r, (h.item r).type ≠ .script → r ∉ sessionsOf h l → valuesAt t r = valuesAt s r
  rule : ∀ v ∈ l, (h.item v.item).type ≠ .script → valuesAt t v.item = ruleValues h attrs v
  scripts : ∀ r, (h.item r).type = .script → (t.2.attrs r).track_conf = (s.2.attrs r).track_conf ∨
    (s.2.attrs r).track_conf = TESTER_TRACK_CONF_UNSPEC ∧ ∃ v ∈ l, v.item = r ∧ (t.2.attrs r).track_conf = trackConfOf attrs v
  specified : ∀ v ∈ l, (h.item v.item).type = .script → (t.2.attrs v.item).track_conf ≠ TESTER_TRACK_CONF_UNSPEC
/-- The walk goes on after the visits, or stops. -/
def Going (l : List Visit) (s : TrackState) (ctl : WalkCtl) (t : TrackState) : Prop :=
  ctl = .FAULT ∨ ctl = .CONT ∧ Inherits h attrs l s t
end

section
variable {h : TesterHeap} {attrs : Ref → TestAttrs} {l l' : List Visit} {s t u : TrackState} {above : List Ref} {v : Visit}

theorem trackConfOf_specified : trackConfOf attrs v ≠ TESTER_TRACK_CONF_UNSPEC := by
  have declared : ∀ r a extent, declaredTrack attrs r = some (a,extent) → a ≠ TESTER_TRACK_CONF_UNSPEC := by simp [declaredTrack]
  rw [trackConfOf,effective]
  cases own : declaredTrack attrs v.item with
  | some declaration => exact declared v.item declaration.1 declaration.2 own
  | none =>
    cases above : handedDown (v.above.map (declaredTrack attrs)) with
    | none => decide
    | some a =>
      obtain ⟨n,extent,⟨at',_⟩,_⟩ := handedDown_eq_some.mp above
      rw [getElem?_map] at at'
      obtain ⟨r,_,same⟩ := of_map at'
      exact declared r a extent same

namespace Unvisited
theorem left (unvisited : Unvisited h attrs (l ++ l') s) : Unvisited h attrs l s := by
  obtain ⟨once,own⟩ := unvisited
  rw [sessionsOf_append] at once own
  exact ⟨once.of_append_left,fun r member => own r (mem_append_left _ member)⟩
theorem right (unvisited : Unvisited h attrs (l ++ l') s) (inherits : Inherits h attrs l s t) : Unvisited h attrs l' t := by
  obtain ⟨once,own⟩ := unvisited
  rw [sessionsOf_append] at once own
  refine ⟨once.of_append_right,fun r member => ?_⟩
  rw [inherits.frame r (mem_sessionsOf.mp member).2 fun first => (List.disjoint_of_nodup_append once) first member]
  exact own r (mem_append_right _ member)
end Unvisited

namespace Inherits
theorem refl (kept : Kept h attrs s) : Inherits h attrs [] s s where
  kept := kept
  ctxs := rfl
  track := rfl
  frame _ _ _ := rfl
  rule _ member := nomatch member
  scripts _ _ := .inl rfl
  specified _ member := nomatch member
theorem trans (once : (sessionsOf h (l ++ l')).Nodup) (first : Inherits h attrs l s t) (second : Inherits h attrs l' t u) :
    Inherits h attrs (l ++ l') s u where
  kept := second.kept
  ctxs := second.ctxs.trans first.ctxs
  track := second.track.trans first.track
  frame r session outside := by
    rw [sessionsOf_append,mem_append,not_or] at outside
    rw [second.frame r session outside.2,first.frame r session outside.1]
  rule v member session := by
    obtain member | member := mem_append.mp member
    · have here : v.item ∈ sessionsOf h l := mem_sessionsOf.mpr ⟨⟨v,member,rfl⟩,session⟩
      rw [sessionsOf_append] at once
      rw [second.frame v.item session (List.disjoint_of_nodup_append once here)]
      exact first.rule v member session
    · exact second.rule v member session
  scripts r script := by
    obtain same | ⟨unspec,v,member,is,rule⟩ := second.scripts r script
    · rw [same]
      refine (first.scripts r script).imp_right fun changed => ?_
      obtain ⟨unspec,v,member,found⟩ := changed
      exact ⟨unspec,v,mem_append_left _ member,found⟩
    · obtain same | ⟨_,w,member',is',_⟩ := first.scripts r script
      · exact .inr ⟨same ▸ unspec,v,mem_append_right _ member,is,rule⟩
      · exact absurd (is' ▸ unspec) (first.specified w member' (is' ▸ script))
  specified v member script := by
    obtain member | member := mem_append.mp member
    · obtain same | ⟨unspec,_⟩ := second.scripts v.item script
      · rw [same]
        exact first.specified v member script
      · exact absurd unspec (first.specified v member script)
    · exact second.specified v member script
end Inherits

theorem Below.later (below : Below h attrs above s) (inherits : Inherits h attrs l s t) : Below h attrs above t := by
  obtain ⟨⟨ctx,rest,ctxs,exceptions,keepalives⟩,track⟩ := below
  have same := inherits.ctxs
  rw [ctxs] at same
  obtain ⟨ctx',rest',ctxs',handlers,_⟩ := List.map_eq_cons_iff.mp same
  obtain ⟨one,two⟩ := Prod.mk.inj handlers
  exact ⟨⟨ctx',rest',ctxs',one.trans exceptions,two.trans keepalives⟩,by rw [inherits.track]; exact track⟩
end

section
variable {h : TesterHeap} {attrs : Ref → TestAttrs} {s : TrackState} {above : List Ref} {r : Ref} (id : Nat)

theorem lifted_meets {σ τ α : Type} {cb : StateT σ Option α} {s : σ × τ} {Q : α → σ × τ → Prop}
    (holds : Meets cb s.1 fun a t => Q a (t,s.2)) : Meets (lifted cb) s Q := by
  intro a t got
  obtain ⟨⟨b,t'⟩,ran,same⟩ := of_map got
  cases same
  exact holds b t' ran
theorem tracking_meets {step : TrackData → Option TrackData} {Q : Unit → TrackState → Prop}
    (holds : ∀ d, step s.2 = some d → Q () (s.1,d)) : Meets (tracking step) s Q := by
  intro a t got
  obtain ⟨d,ran,same⟩ := of_map got
  cases same
  exact holds d ran

/-- `inherit_executable` hands executables down by the rule. -/
theorem inherit_executable_rule (handdown : Ref → TesterHanddown) (child : Option Ref) (handed : Handed Ref) :
    inherit_executable handdown child handed.given handed.all =
      ((child.map fun exec => (exec,(handdown exec).extent)).map Prod.fst |>.or handed.given,
        (handed.enter (child.map fun exec => (exec,(handdown exec).extent))).given,
        (handed.enter (child.map fun exec => (exec,(handdown exec).extent))).all) := by
  cases child with
  | none => rfl
  | some exec =>
    simp only [inherit_executable,map_some]
    cases handdown exec <;> rfl
theorem handed_inherited {ctx : TrackCtx} : ctx.inherited = ctx.handed.given.getD TESTER_TRACK_CONF_DEF := by
  simp only [TrackCtx.inherited,TrackCtx.handed]
  split <;> rfl

theorem Kept.type (kept : Kept h attrs s) (r : Ref) : (s.1.heap.item r).type = (h.item r).type := (own_of_shape (kept.shape r)).1
theorem Kept.handdown (kept : Kept h attrs s) (r : Ref) : (s.1.heap.item r).handdown = (h.item r).handdown :=
  congrArg (·.2.1) (kept.shape r)

/-- The handlers of a session that is started. -/
theorem prepare_session_start_inherits {d : ConfigPrepareData} {ctx : ConfigPrepareCtx} {rest : List ConfigPrepareCtx}
    (top : d.ctxs = ctx :: rest) :
    Meets (prepare_session_start r id) d fun ctl d' => ctl = .CONT ∧ d'.rc = d.rc ∧ d'.heap.cfg = d.heap.cfg ∧
      ∃ ctx' item, d'.ctxs = ctx' :: d.ctxs ∧ d'.heap = d.heap.setItem r item ∧ item.shape = (d.heap.item r).shape ∧
        ((item.session.exception,ctx'.exception,ctx'.inherit_exception_all) =
          inherit_executable (fun exec => (d.heap.item exec).handdown) (d.heap.item r).session.exception ctx.exception
            ctx.inherit_exception_all) ∧
        ((item.session.keepalive,ctx'.keepalive,ctx'.inherit_keepalive_all) =
          inherit_executable (fun exec => (d.heap.item exec).handdown) (d.heap.item r).session.keepalive ctx.keepalive
            ctx.inherit_keepalive_all) := by
  rw [prepare_session_start]
  refine .bind (.of_some rfl (.bind (.get ?_)))
  rw [config_prepare_new_ctx,top]
  exact .of_some rfl ⟨rfl,rfl,rfl,_,_,rfl,rfl,rfl,rfl,rfl⟩
/-- The attribute of a session that is started. -/
theorem track_session_start_inherits {d d' : TrackData} {ctx : TrackCtx} {rest : List TrackCtx} (top : d.ctxs = ctx :: rest)
    (own : (d.attrs r).track_conf = (attrs r).track_conf) (hd : (d.attrs r).track_conf_hd = (attrs r).track_conf_hd)
    (started : track_session_start r (track_new_ctx d) = some d') :
    (∃ ctx', d'.ctxs = ctx' :: d.ctxs ∧ ctx'.handed = ctx.handed.enter (declaredTrack attrs r)) ∧
      (d'.attrs r).track_conf = (((declaredTrack attrs r).map Prod.fst).or ctx.handed.given).getD TESTER_TRACK_CONF_DEF ∧
      (∀ x, (d'.attrs x).track_conf_hd = (d.attrs x).track_conf_hd) ∧ ∀ x ≠ r, d'.attrs x = d.attrs x := by
  simp only [track_session_start,track_new_ctx,top,List.headD_cons,own,hd] at started
  by_cases unspec : (attrs r).track_conf = TESTER_TRACK_CONF_UNSPEC
  · rw [if_neg (not_not_intro unspec)] at started
    cases started
    rw [declaredTrack,if_pos unspec,top]
    refine ⟨⟨_,rfl,?_⟩,?_,fun x => ?_,fun x other => ?_⟩
    · obtain ⟨inherit,all,value⟩ := ctx
      cases inherit <;> cases all <;> rfl
    · simp [TrackData.setTrack,handed_inherited]
    · by_cases same : x = r
      · subst same
        simp [TrackData.setTrack]
      · simp [TrackData.setTrack,same]
    · simp [TrackData.setTrack,other]
  · rw [if_pos unspec] at started
    cases started
    rw [declaredTrack,if_neg unspec,top]
    refine ⟨⟨_,rfl,?_⟩,?_,fun x => rfl,fun x _ => rfl⟩
    · simp only [TrackCtx.handed,Handed.enter]
      cases (attrs r).track_conf_hd <;> rfl
    · simpa using own

/-- A session has been started: it has what the rule says, and its context hands it down. -/
structure Started (h : TesterHeap) (attrs : Ref → TestAttrs) (above : List Ref) (r : Ref) (s t : TrackState) : Prop where
  kept : Kept h attrs t
  below : Below h attrs (r :: above) t
  rule : ∀ forced, valuesAt t r = ruleValues h attrs ⟨forced,above,r⟩
  frame : ∀ x ≠ r, valuesAt t x = valuesAt s x
  ctxs : ∃ ctx, t.1.ctxs = ctx :: s.1.ctxs
  track : ∃ ctx, t.2.ctxs = ctx :: s.2.ctxs

theorem session_start_inherits (kept : Kept h attrs s) (below : Below h attrs above s)
    (own : valuesAt s r = ((h.item r).session.exception,(h.item r).session.keepalive,(attrs r).track_conf)) :
    Meets (tracked_session_start r id) s fun ctl t => ctl = .CONT ∧ Started h attrs above r s t := by
  obtain ⟨⟨ctx,rest,top,exceptions,keepalives⟩,tctx,trest,ttop,handed⟩ := below
  simp only [valuesAt,Prod.mk.injEq] at own
  obtain ⟨ownException,ownKeepalive,ownTrack⟩ := own
  have handdown : (fun exec => (s.1.heap.item exec).handdown) = fun exec => (h.item exec).handdown := funext kept.handdown
  rw [tracked_session_start]
  refine .bind (tracking_meets fun d started => ?_)
  obtain ⟨⟨tctx',tctxs',handed'⟩,track,hd,others⟩ := track_session_start_inherits ttop ownTrack (kept.hd r) started
  refine lifted_meets ((prepare_session_start_inherits id top).mono fun ctl d' post => ?_)
  obtain ⟨rfl,rc,cfg,ctx',item,ctxs',heap',shape,exception,keepalive⟩ := post
  rw [handdown,ownException] at exception
  rw [handdown,ownKeepalive] at keepalive
  have exception := exception.trans (inherit_executable_rule _ _ ctx.exceptions)
  have keepalive := keepalive.trans (inherit_executable_rule _ _ ctx.keepalives)
  simp only [Prod.mk.injEq] at exception keepalive
  rw [exceptions,Handed.along_given] at exception
  rw [keepalives,Handed.along_given] at keepalive
  rw [handed,Handed.along_given] at track
  refine ⟨rfl,⟨fun x => ?_,fun x => (hd x).trans (kept.hd x),fun c => ?_,rc.trans kept.rc,fun x unspec => ?_⟩,
    ⟨⟨ctx',_,ctxs',?_,?_⟩,tctx',_,tctxs',?_⟩,fun forced => ?_,fun x other => ?_,⟨ctx',ctxs'⟩,⟨tctx',tctxs'⟩⟩
  · rw [heap']
    by_cases same : x = r
    · subst same
      rw [setItem_same,shape]
      exact kept.shape x
    · rw [setItem_other same]
      exact kept.shape x
  · rw [cfg]
    exact kept.runs c
  · by_cases same : x = r
    · subst same
      refine absurd (track.symm.trans unspec) ?_
      exact @trackConfOf_specified attrs ⟨false,above,x⟩
    · exact kept.unspec x (congrArg TestAttrs.track_conf (others x same) ▸ unspec)
  · rw [map_cons,Handed.along_cons]
    exact Handed.ext exception.2.1 exception.2.2
  · rw [map_cons,Handed.along_cons]
    exact Handed.ext keepalive.2.1 keepalive.2.2
  · simp [← handed,handed']
  · simp only [valuesAt,ruleValues,heap',setItem_same,exception.1,keepalive.1,track]
    rfl
  · simp only [valuesAt,heap',setItem_other other,others x other]

/-- Only a context has been taken away, and numbers have been set. -/
structure Popped (h : TesterHeap) (attrs : Ref → TestAttrs) (s t : TrackState) : Prop where
  kept : Kept h attrs t
  values : ∀ x, valuesAt t x = valuesAt s x
  ctxs : t.1.ctxs.map ConfigPrepareCtx.handlers = (s.1.ctxs.map ConfigPrepareCtx.handlers).tail
  track : t.2.ctxs = s.2.ctxs.tail

theorem destroy_ctx_meets (d : ConfigPrepareData) :
    Meets config_prepare_destroy_ctx d fun rc d' => rc ≠ none ∨ rc = none ∧ d'.heap = d.heap ∧ d'.rc = d.rc ∧
      d'.ctxs.map ConfigPrepareCtx.handlers = (d.ctxs.map ConfigPrepareCtx.handlers).tail := by
  intro rc d' ran
  rw [config_prepare_destroy_ctx] at ran
  split at ran
  · cases ran
  · rename_i top
    cases ran
    exact .inr ⟨rfl,rfl,rfl,by simp [top]⟩
  · rename_i curr prev rest top
    split at ran
    · cases ran
      exact .inl (by simp)
    · cases ran
      exact .inr ⟨rfl,rfl,rfl,by simp [top,ConfigPrepareCtx.handlers,ConfigPrepareCtx.exceptions,ConfigPrepareCtx.keepalives]⟩
theorem session_end_inherits (kept : Kept h attrs s) :
    Meets (tracked_session_end r id) s fun ctl t => ctl = .FAULT ∨ ctl = .CONT ∧ Popped h attrs s t := by
  rw [tracked_session_end]
  refine .bind (tracking_meets fun d popped => ?_)
  cases popped
  refine lifted_meets ?_
  rw [prepare_session_end]
  refine .bind (.get ?_)
  cases top : s.1.ctxs with
  | nil => exact .failure
  | cons ctx rest =>
    refine .bind (.of_some rfl (.bind ((destroy_ctx_meets _).mono fun rc d' post => ?_)))
    obtain failed | ⟨rfl,heap',rc',ctxs'⟩ := post
    · exact .pure (.inl (if_pos failed))
    · have weighed : ∀ x, (d'.heap.item x).shape = (s.1.heap.item x).shape ∧ (d'.heap.item x).session = (s.1.heap.item x).session := by
        intro x
        rw [heap']
        by_cases same : x = r
        · subst same
          rw [setItem_same]
          exact ⟨rfl,rfl⟩
        · rw [setItem_other same]
          exact ⟨rfl,rfl⟩
      refine .pure (.inr ⟨rfl,⟨fun x => (weighed x).1.trans (kept.shape x),kept.hd,fun c => ?_,rc'.trans kept.rc,kept.unspec⟩,fun x => ?_,?_,rfl⟩)
      · rw [heap']
        exact kept.runs c
      · simp only [valuesAt,(weighed x).2]
      · rw [ctxs',top]
        rfl
theorem cfg_end_inherits (kept : Kept h attrs s) (cfg : Ref) :
    Meets (tracked_cfg_end cfg id) s fun ctl t => ctl = .FAULT ∨ ctl = .CONT ∧ Popped h attrs s t := by
  rw [tracked_cfg_end]
  refine .bind (tracking_meets fun d popped => ?_)
  cases popped
  refine lifted_meets ?_
  rw [prepare_cfg_end]
  refine .bind (.get ?_)
  cases top : s.1.ctxs with
  | nil => exact .failure
  | cons ctx rest =>
    refine .bind (.of_some rfl (.bind ((destroy_ctx_meets _).mono fun rc d' post => ?_)))
    obtain failed | ⟨rfl,heap',rc',ctxs'⟩ := post
    · exact .pure (.inl (if_pos failed))
    · refine .pure (.inr ⟨rfl,⟨fun x => ?_,kept.hd,fun c => ?_,rc'.trans kept.rc,kept.unspec⟩,fun x => ?_,?_,rfl⟩)
      · rw [heap']
        exact kept.shape x
      · rw [heap',← kept.runs c]
        by_cases same : c = cfg
        · subst same
          simp [TesterHeap.setTotal]
        · simp [TesterHeap.setTotal,same]
      · simp only [valuesAt,heap']
        rfl
      · rw [ctxs',top]

/-- A change of a run item and of contexts that sessions do not see. -/
theorem Inherits.unseen {t : TrackState} {item : ConfigItem} (kept : Kept h attrs s) (heap : t.1.heap = s.1.heap.setItem r item)
    (shape : item.shape = (s.1.heap.item r).shape) (session : item.session = (s.1.heap.item r).session)
    (ctxs : t.1.ctxs.map ConfigPrepareCtx.handlers = s.1.ctxs.map ConfigPrepareCtx.handlers) (rc : t.1.rc = none)
    (track : t.2 = s.2) : Inherits h attrs [] s t := by
  have same : ∀ x, (t.1.heap.item x).shape = (s.1.heap.item x).shape ∧ (t.1.heap.item x).session = (s.1.heap.item x).session := by
    intro x
    rw [heap]
    by_cases is : x = r
    · subst is
      rw [setItem_same]
      exact ⟨shape,session⟩
    · rw [setItem_other is]
      exact ⟨rfl,rfl⟩
  refine ⟨⟨fun x => (same x).1.trans (kept.shape x),fun x => by rw [track]; exact kept.hd x,fun c => ?_,rc,by rw [track]; exact kept.unspec⟩,ctxs,by rw [track],
    fun x _ _ => ?_,nofun,fun x _ => .inl (by rw [track]),nofun⟩
  · rw [heap]
    exact kept.runs c
  · simp only [valuesAt,(same x).2,track]

variable (objs : TesterObjects) (depth : Nat) (expand_check : TesterHeap → Ref → Status)

/-- The start of a run item is all that happens to the `track_conf` of a script. -/
def scripted (h : TesterHeap) (v : Visit) : List Visit := if (h.item v.item).type = .script then [v] else []
theorem scripted_sessions (v : Visit) : sessionsOf h (scripted h v) = [] := by
  rw [scripted]
  split
  · simpa [sessionsOf]
  · rfl
theorem track_test_start_inherits {d : TrackData} (kept : Kept h attrs s) (below : Below h attrs above s) (forced : Bool)
    (started : track_test_start (s.1.heap.item r).type r s.2 = some d) :
    Inherits h attrs (scripted h ⟨forced,above,r⟩) s (s.1,d) := by
  obtain ⟨_,ctx,rest,top,handed⟩ := below
  simp only [track_test_start,top,kept.type] at started
  split at started
  · rename_i script
    obtain ⟨script,unspec⟩ := script
    cases started
    have value : ctx.inherited = trackConfOf attrs ⟨forced,above,r⟩ := by
      rw [handed_inherited,handed,Handed.along_given,trackConfOf,effective,declaredTrack,if_pos (kept.unspec r unspec)]
      rfl
    have other : ∀ x ≠ r, (s.2.setTrack r ctx.inherited).attrs x = s.2.attrs x := fun x other => update_of_ne other ..
    have own : (s.2.setTrack r ctx.inherited).attrs r = {s.2.attrs r with track_conf := ctx.inherited} := update_self ..
    rw [scripted,if_pos script]
    refine ⟨⟨kept.shape,fun x => ?_,kept.runs,kept.rc,fun x unspec' => ?_⟩,rfl,rfl,fun x session _ => ?_,?_,fun x script' => ?_,?_⟩
    · by_cases same : x = r
      · rw [same,own]
        exact kept.hd r
      · rw [other x same]
        exact kept.hd x
    · by_cases same : x = r
      · rw [same,own,value] at unspec'
        exact absurd unspec' trackConfOf_specified
      · rw [other x same] at unspec'
        exact kept.unspec x unspec'
    · simp only [valuesAt,other x (by rintro rfl; exact session script)]
    · simp [script]
    · grind
    · grind [trackConfOf_specified]
  · rename_i plain
    cases started
    refine ⟨kept,rfl,rfl,fun _ _ _ => rfl,?_,fun _ _ => .inl rfl,?_⟩
    · grind [scripted]
    · grind [scripted]
theorem test_start_inherits (kept : Kept h attrs s) (below : Below h attrs above s) (forced : Bool) (flags : WalkFlags) :
    Meets (tracked_test_start objs depth expand_check r id flags) s (Going h attrs (scripted h ⟨forced,above,r⟩) s) := by
  rw [tracked_test_start]
  refine .bind (.get (.bind (tracking_meets fun d started => ?_)))
  have first := track_test_start_inherits kept below forced started
  refine lifted_meets ?_
  rw [prepare_test_start]
  refine .bind (.get ?_)
  split
  · exact .failure
  · refine .bind (.lift fun counted _ => ?_)
    obtain ⟨rc,args⟩ := counted
    refine .bind (.of_some rfl (.pure ?_))
    by_cases failed : rc ≠ none
    · exact .inl (if_pos failed)
    · obtain rfl := not_not.mp failed
      refine .inr ⟨rfl,?_⟩
      rw [← append_nil (scripted ..)]
      refine first.trans ?_ (.unseen first.kept rfl rfl rfl rfl rfl rfl)
      rw [append_nil,scripted_sessions]
      exact nodup_nil
theorem test_end_inherits (kept : Kept h attrs s) (flags : WalkFlags) :
    Meets (lifted (prepare_test_end r id flags)) s fun ctl t =>
      ctl = .FAULT ∨ ctl = .CONT ∧ Inherits h attrs [] s t ∧ 0 < (s.1.heap.item r).n_iters := by
  refine lifted_meets ?_
  rw [prepare_test_end]
  refine .bind (.get ?_)
  cases top : s.1.ctxs with
  | nil => exact .failure
  | cons ctx rest =>
    simp only [kept.rc,ne_eq,not_true_eq_false,if_false]
    split
    · exact .failure
    · rename_i assertions
      have positive : 0 < (s.1.heap.item r).n_iters := Nat.pos_of_ne_zero (not_or.mp assertions).1
      split
      · exact .pure (.inr ⟨rfl,.refl kept,positive⟩)
      · split
        · exact .of_some rfl (.inl rfl)
        · split
          · exact .of_some rfl (.inl rfl)
          · refine .of_some rfl (.inr ⟨rfl,?_,positive⟩)
            have same : s.1.heap = s.1.heap.setItem r (s.1.heap.item r) := by simp [TesterHeap.setItem]
            exact .unseen kept same rfl rfl (by rw [top]; rfl) rfl rfl
theorem script_inherits (kept : Kept h attrs s) : Meets (lifted (prepare_script r id)) s (Going h attrs [] s) :=
  lifted_meets (.of_some rfl (.inr ⟨rfl,.unseen kept rfl rfl rfl rfl kept.rc rfl⟩))
end

end TestEnvironment.Tester
