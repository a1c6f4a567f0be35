import TestEnvironment.Tester.InheritanceSteps

/-!
The preparing walk gives every session what the rule says, where the walk that the rule
gives visits each session once (`inherited_by_rule`): a session that is started again
takes what it has inherited for its own.
-/
namespace TestEnvironment.Tester
open Lib

section
variable {h : TesterHeap} {attrs : Ref → TestAttrs} {above : List Ref} {l l' : List Visit} {s t : TrackState} {α β : Type}

/-- The visits are to be made below the sessions `above`. -/
structure Ahead (h : TesterHeap) (attrs : Ref → TestAttrs) (above : List Ref) (l : List Visit) (s : TrackState) : Prop where
  kept : Kept h attrs s
  below : Below h attrs above s
  unvisited : Unvisited h attrs l s

theorem Ahead.left (ahead : Ahead h attrs above (l ++ l') s) : Ahead h attrs above l s :=
  ⟨ahead.kept,ahead.below,ahead.unvisited.left⟩
theorem Ahead.right (ahead : Ahead h attrs above (l ++ l') s) (inherits : Inherits h attrs l s t) : Ahead h attrs above l' t :=
  ⟨inherits.kept,ahead.below.later inherits,ahead.unvisited.right inherits⟩
/-- One part of the walk after the other. -/
theorem Going.bind {m : StateT TrackState Option α} {f : α → StateT TrackState Option β} {ctl : α → WalkCtl} {ctl' : β → WalkCtl}
    (ahead : Ahead h attrs above (l ++ l') s) (first : Meets m s fun a t => Going h attrs l s (ctl a) t)
    (stopped : ∀ a t, ctl a = .FAULT → Meets (f a) t fun b _ => ctl' b = .FAULT)
    (next : ∀ a t, ctl a = .CONT → Inherits h attrs l s t → Ahead h attrs above l' t →
      Meets (f a) t fun b u => Going h attrs l' t (ctl' b) u) :
    Meets (m >>= f) s fun b u => Going h attrs (l ++ l') s (ctl' b) u := by
  refine .bind (first.mono fun a t going => ?_)
  obtain fault | ⟨cont,inherits⟩ := going
  · exact (stopped a t fault).mono fun b u fault => .inl fault
  · refine (next a t cont inherits (ahead.right inherits)).mono fun b u going => ?_
    exact going.imp_right fun rest => ⟨rest.1,inherits.trans ahead.unvisited.once rest.2⟩
end

section
variable {objs : TesterObjects} {depth : Nat} {expand_check : TesterHeap → Ref → Status} {h : TesterHeap} {attrs : Ref → TestAttrs}
  {walker : ItemWalk TrackState} {above : List Ref} {l : List Visit} {s : TrackState} {r : Ref} {id fuel : Nat} {forced : Bool}
  {keepalive exception : Option Ref}

variable (h attrs) in
/-- The specification of the walk of one run item. -/
def ItemInherits (walker : ItemWalk TrackState) : Prop :=
  ∀ forced above r id keepalive exception l s, SessionVisits h (around forced above keepalive exception r) l →
    Ahead h attrs above l s →
    Meets (walker (prepareFlags (!forced)) r id keepalive exception) s fun res t => Going h attrs l s res.1 t
variable (spec : ItemInherits h attrs walker)

include spec in
theorem service_inherits {run : Ref} (visits : SessionVisits h [⟨false,above,run⟩] l) (ahead : Ahead h attrs above l s) :
    Meets (walk_service walker id run none none) s (Going h attrs l s) := by
  rw [walk_service]
  refine .bind (.pure ?_)
  rw [if_pos rfl]
  refine .bind ((spec false above run id none none l s visits ahead).mono fun res t going => ?_)
  exact .bind (.pure (.pure going))
include spec in
theorem serviceOf_inherits {run : Option Ref} (visits : SessionVisits h (run.toList.map (Visit.mk false above)) l)
    (ahead : Ahead h attrs above l s) : Meets (serviceOf walker id run none none .CONT) s (Going h attrs l s) := by
  cases run with
  | none =>
    cases visits
    exact .pure (.inr ⟨rfl,.refl ahead.kept⟩)
  | some run => exact service_inherits spec visits ahead

theorem itemsLoop_stopped (flags : WalkFlags) (runs rs : List Ref) (n cur : Nat) (failed : Bool) :
    Meets (itemsLoop (ConfigPrepareData.heap ∘ Prod.fst) walker flags id runs keepalive exception n rs cur .FAULT failed) s
      fun res _ => res.1 = .FAULT := by
  cases n with
  | zero => exact .failure
  | succ n => cases rs <;> exact .pure rfl
include spec in
/-- The run items of a session one after the other. -/
theorem itemsLoop_inherits {rs : List Ref} (visits : SessionVisits h (rs.flatMap (around forced above keepalive exception)) l)
    (ahead : Ahead h attrs above l s) (runs : List Ref) (n cur : Nat) (failed : Bool) :
    Meets (itemsLoop (ConfigPrepareData.heap ∘ Prod.fst) walker (prepareFlags (!forced)) id runs keepalive exception n rs cur .CONT
      failed) s fun res t => Going h attrs l s res.1 t := by
  induction rs generalizing l s n cur failed with
  | nil =>
    cases visits
    cases n with
    | zero => exact .failure
    | succ n => exact .pure (.inr ⟨rfl,.refl ahead.kept⟩)
  | cons r rs ih =>
    cases n with
    | zero => exact .failure
    | succ n =>
      obtain ⟨first,later,one,two,rfl⟩ := SessionVisits.append visits
      rw [itemsLoop,if_neg (by simp)]
      refine Going.bind ahead (spec forced above r cur keepalive exception first s one ahead.left) ?_ ?_
      · rintro ⟨ctl,_⟩ t rfl
        dsimp only
        rw [if_neg (by simp)]
        exact .bind (.of_some rfl (itemsLoop_stopped _ _ _ n _ _))
      · rintro ⟨ctl,_⟩ t rfl inherits ahead'
        dsimp only
        rw [if_neg (by simp)]
        exact .bind (.of_some rfl (ih two ahead' n _ _))

theorem tracked_haveSkip : (trackedWalk objs depth expand_check).haveSkip = false := rfl
theorem callbackEnd_stopped {cb : Option (StateT TrackState Option WalkCtl)} :
    Meets (callbackEnd cb .FAULT) s fun ctl _ => ctl = .FAULT := by
  cases cb with
  | none => exact .pure rfl
  | some cb => exact .bind fun _ _ _ => .pure rfl
/-- The epilogue does not change that the walk stops. -/
theorem ended_stopped (break_session : Bool) (epilogue : Option Ref) :
    Meets (match epilogue with
      | some epilogue =>
        if break_session = false ∨ WalkCtl.FAULT ≠ .STOP then do
          let ctl_tmp ← walk_service walker id epilogue none none
          return walk_ctl_merge .FAULT ctl_tmp
        else return .FAULT
      | none => return .FAULT) s fun ctl _ => ctl = .FAULT := by
  cases epilogue with
  | none => exact .pure rfl
  | some run =>
    dsimp only
    rw [if_pos (.inr (by simp))]
    exact .bind fun _ _ _ => .pure rfl
variable {v : Visit} {one two three : List Visit}

include spec in
/-- A session between its callbacks. -/
theorem sessionBody_inherits (break_session : Bool) (session : (h.item v.item).type ≠ .script)
    (visits : SessionVisits h (inside h v) l) (ahead : Ahead h attrs (v.item :: v.above) l s)
    (rule : valuesAt s v.item = ruleValues h attrs v) (outside : v.item ∉ sessionsOf h l) :
    Meets (sessionBody (ConfigPrepareData.heap ∘ Prod.fst) break_session (trackedWalk objs depth expand_check) walker fuel
      (prepareFlags (!v.forced)) v.item id) s (Going h attrs l s) := by
  have shape : ∀ t, Kept h attrs t → ((t.1.heap.item v.item).session.prologue = (h.item v.item).session.prologue ∧
      (t.1.heap.item v.item).session.run_items = (h.item v.item).session.run_items ∧
      (t.1.heap.item v.item).session.epilogue = (h.item v.item).session.epilogue) := fun t kept => by
    have same := kept.shape v.item
    simp only [ConfigItem.shape,Prod.mk.injEq] at same
    exact ⟨same.2.2.2.1,same.2.2.1,same.2.2.2.2⟩
  obtain ⟨one,later,prologue,others,rfl⟩ := SessionVisits.append visits
  obtain ⟨two,three,items,epilogue,rfl⟩ := SessionVisits.append others
  rw [sessionBody]
  refine .bind (.of_some rfl ?_)
  simp only [comp_apply,(shape s ahead.kept).1]
  refine @Going.bind h attrs _ one (two ++ three) s WalkCtl WalkCtl _ _ (fun ctl => ctl) (fun ctl => ctl) ahead
    (serviceOf_inherits spec prologue ahead.left) ?_ ?_
  · rintro ctl t rfl
    refine .bind (skipCall_meets (.bind (.of_some rfl ?_)))
    rw [tracked_haveSkip,if_neg (by decide)]
    refine .bind (.pure (.bind (skipCall_meets (.bind (skipCall_meets (.bind (.of_some rfl ?_)))))))
    exact ended_stopped break_session _
  · rintro ctl t rfl inherits ahead'
    refine .bind (skipCall_meets (.bind (.of_some rfl ?_)))
    rw [if_pos (.inl rfl)]
    have same := inherits.frame v.item session fun member => outside (by
      rw [sessionsOf_append]
      exact mem_append_left _ member)
    rw [rule] at same
    simp only [valuesAt,ruleValues,Prod.mk.injEq] at same
    obtain ⟨exceptions,keepalives,_⟩ := same
    simp only [comp_apply,exceptions,keepalives,(shape t inherits.kept).2.1]
    refine @Going.bind h attrs _ two three t (WalkCtl × Bool) WalkCtl _ _ (fun res => res.1) (fun ctl => ctl) ahead'
      (itemsLoop_inherits spec items ahead'.left _ _ _ _) ?_ ?_
    · rintro ⟨ctl,failed⟩ u rfl
      refine .bind (skipCall_meets (.bind (skipCall_meets (.bind (.of_some rfl ?_)))))
      exact ended_stopped break_session _
    · rintro ⟨ctl,failed⟩ u rfl inherits' ahead''
      refine .bind (skipCall_meets (.bind (skipCall_meets (.bind (.of_some rfl ?_)))))
      simp only [comp_apply,(shape u inherits'.kept).2.2]
      cases is : (h.item v.item).session.epilogue with
      | none =>
        rw [is] at epilogue
        cases epilogue
        exact .pure (.inr ⟨rfl,.refl inherits'.kept⟩)
      | some run =>
        rw [is] at epilogue
        dsimp only
        rw [if_pos (.inr (by simp))]
        refine .bind ((service_inherits spec epilogue ahead'').mono fun ctl_tmp w going => .pure ?_)
        obtain rfl | ⟨rfl,inherits⟩ := going
        · exact .inl rfl
        · exact .inr ⟨rfl,inherits⟩

theorem sessionsOf_cons (session : (h.item v.item).type ≠ .script) : sessionsOf h (v :: l) = v.item :: sessionsOf h l := by
  simp [sessionsOf,session]
/-- What the visits in a session leave is left by the session, when its context has been taken away. -/
theorem Started.inherits {t u w : TrackState} (started : Started h attrs v.above v.item s t)
    (session : (h.item v.item).type ≠ .script) (outside : v.item ∉ sessionsOf h l) (inner : Inherits h attrs l t u)
    (popped : Popped h attrs u w) : Inherits h attrs (v :: l) s w where
  kept := popped.kept
  ctxs := by
    obtain ⟨ctx,same⟩ := started.ctxs
    rw [popped.ctxs,inner.ctxs,same,map_cons,tail_cons]
  track := by
    obtain ⟨ctx,same⟩ := started.track
    rw [popped.track,inner.track,same,tail_cons]
  frame r plain other := by
    rw [sessionsOf_cons session,mem_cons,not_or] at other
    rw [popped.values,inner.frame r plain other.2,started.frame r other.1]
  rule x member plain := by
    rw [popped.values]
    obtain rfl | member := mem_cons.mp member
    · rw [inner.frame x.item plain outside]
      exact started.rule x.forced
    · exact inner.rule x member plain
  scripts r script := by
    have last := congrArg (·.2.2) (popped.values r)
    have first := congrArg (·.2.2) (started.frame r (by rintro rfl; exact session script))
    simp only [valuesAt] at last first
    rw [last,← first]
    refine (inner.scripts r script).imp_right fun changed => ?_
    obtain ⟨unspec,x,member,found⟩ := changed
    exact ⟨unspec,x,mem_cons_of_mem _ member,found⟩
  specified x member script := by
    have last := congrArg (·.2.2) (popped.values x.item)
    simp only [valuesAt] at last
    rw [last]
    obtain rfl | member := mem_cons.mp member
    · exact absurd script session
    · exact inner.specified x member script
include spec in
theorem session_inherits (break_session : Bool) (session : (h.item v.item).type ≠ .script)
    (visits : SessionVisits h (inside h v) l) (ahead : Ahead h attrs v.above (v :: l) s) :
    Meets (walk_test_session (ConfigPrepareData.heap ∘ Prod.fst) break_session (trackedWalk objs depth expand_check) walker fuel
      (prepareFlags (!v.forced)) v.item id) s (Going h attrs (v :: l) s) := by
  obtain ⟨kept,below,once,own⟩ := ahead
  rw [sessionsOf_cons session] at once own
  obtain ⟨outside,once⟩ := nodup_cons.mp once
  rw [walk_test_session]
  refine .bind ((session_start_inherits id kept below (own v.item mem_cons_self)).mono fun ctl t post => ?_)
  obtain ⟨rfl,started⟩ := post
  rw [if_pos rfl]
  have unvisited : Unvisited h attrs l t := ⟨once,fun r member => by
    rw [started.frame r (by rintro rfl; exact outside member)]
    exact own r (mem_cons_of_mem _ member)⟩
  refine .bind ((sessionBody_inherits spec break_session session visits ⟨started.kept,started.below,unvisited⟩
    (started.rule v.forced) outside).mono fun ctl u going => ?_)
  obtain rfl | ⟨rfl,inherits⟩ := going
  · exact callbackEnd_stopped.mono fun _ _ fault => .inl fault
  · refine callbackEnd_meets ((session_end_inherits id inherits.kept).mono fun ctl w post => ?_)
    obtain rfl | ⟨rfl,popped⟩ := post
    · exact .inl rfl
    · exact .inr ⟨rfl,started.inherits session outside inherits popped⟩

/-- The visits of an iteration: those of a session, for a script none. -/
def IterationVisits (h : TesterHeap) (v : Visit) (l : List Visit) : Prop :=
  (h.item v.item).type = .script ∧ l = [] ∨
    (h.item v.item).type ≠ .script ∧ ∃ within, SessionVisits h (inside h v) within ∧ l = v :: within
include spec in
theorem repeatBody_inherits (break_session : Bool) (visits : IterationVisits h v l) (ahead : Ahead h attrs v.above l s) :
    Meets (repeatBody (ConfigPrepareData.heap ∘ Prod.fst) break_session (trackedWalk objs depth expand_check) walker fuel
      (prepareFlags (!v.forced)) v.item id .CONT) s (Going h attrs l s) := by
  rw [repeatBody,if_neg (by simp)]
  refine .bind (.of_some rfl ?_)
  simp only [comp_apply,ahead.kept.type]
  obtain ⟨script,rfl⟩ | ⟨session,within,inner,rfl⟩ := visits
  · rw [script]
    exact script_inherits id ahead.kept
  · cases is : (h.item v.item).type with
    | script => exact absurd is session
    | session => exact session_inherits spec break_session session inner ahead
    | package =>
      simp only [prepareFlags,false_eq_true,if_false]
      rw [walk_test_package]
      refine .bind (.of_some rfl (.bind (skipCall_meets ?_)))
      rw [if_pos (.inl rfl)]
      refine .bind ((session_inherits spec break_session session inner ahead).mono fun ctl t going => ?_)
      exact .bind (skipCall_meets (.pure going))

/-- The control with which a repetition that does not go on leaves the loop. -/
def leaving (ctl : WalkCtl) : WalkCtl := if ctl = .BREAK then .CONT else ctl
theorem repeatRest_stopped (flags : WalkFlags) :
    Meets (repeatRest (trackedWalk objs depth expand_check) walker flags r id exception .FAULT) s fun ctl _ => ctl = .FAULT := by
  rw [repeatRest]
  refine .bind (.pure ?_)
  dsimp only
  split
  · cases exception with
    | none => exact .pure rfl
    | some e => exact .bind fun _ _ _ => .pure rfl
  · exact .pure rfl
include spec in
/-- The exception handler is walked after the repetition, where the walk is forced. -/
theorem repeatRest_inherits (visits : SessionVisits h (if forced then exception.toList.map (Visit.mk false above) else []) l)
    (ahead : Ahead h attrs above l s) :
    Meets (repeatRest (trackedWalk objs depth expand_check) walker (prepareFlags (!forced)) r id exception .CONT) s
      fun ctl t => ctl ≠ .CONT ∧ Going h attrs l s (leaving ctl) t := by
  have nothing (none' : l = []) : Meets (pure .BREAK : StateT TrackState Option WalkCtl) s
      fun ctl t => ctl ≠ .CONT ∧ Going h attrs l s (leaving ctl) t := by
    subst none'
    exact .pure ⟨by simp,.inr ⟨rfl,.refl ahead.kept⟩⟩
  rw [repeatRest]
  refine .bind (.pure ?_)
  cases forced with
  | false =>
    cases visits
    exact nothing rfl
  | true =>
    cases exception with
    | none =>
      cases visits
      exact nothing rfl
    | some e =>
      refine .bind ((service_inherits spec visits ahead).mono fun ctl_tmp t going => .pure ?_)
      obtain rfl | ⟨rfl,inherits⟩ := going
      · exact ⟨by decide,.inl rfl⟩
      · exact ⟨by decide,.inr ⟨rfl,inherits⟩⟩
include spec in
theorem repeat_inherits (break_session : Bool)
    (first : SessionVisits h (keepalive.toList.map (Visit.mk false v.above)) one) (body : IterationVisits h v two)
    (last : SessionVisits h (if v.forced then exception.toList.map (Visit.mk false v.above) else []) three)
    (ahead : Ahead h attrs v.above (one ++ (two ++ three)) s) (n : Nat) (failed : Bool) :
    Meets (repeatLoop (ConfigPrepareData.heap ∘ Prod.fst) break_session (trackedWalk objs depth expand_check) walker fuel
        (prepareFlags (!v.forced)) v.item id keepalive exception n failed) s
      fun res t => Going h attrs (one ++ (two ++ three)) s res.1 t := by
  cases n with
  | zero => exact .failure
  | succ n =>
    rw [repeatLoop]
    refine @Going.bind h attrs _ one (two ++ three) s WalkCtl (WalkCtl × Bool) _ _ (fun ctl => ctl) (fun res => res.1) ahead
      (serviceOf_inherits spec first ahead.left) ?_ ?_
    · rintro ctl t rfl
      rw [if_pos ⟨by simp,tracked_haveSkip⟩]
      exact .pure rfl
    · rintro ctl t rfl inherits ahead'
      rw [if_neg (by simp)]
      refine .bind (skipCall_meets (.bind (.of_some rfl ?_)))
      refine @Going.bind h attrs _ two three t WalkCtl (WalkCtl × Bool) _ _ (fun ctl => ctl) (fun res => res.1) ahead'
        (repeatBody_inherits spec break_session body ahead'.left) ?_ ?_
      · rintro ctl u rfl
        refine .bind ((repeatRest_stopped _).mono fun ctl w fault => ?_)
        subst fault
        exact .pure rfl
      · rintro ctl u rfl inherits' ahead''
        refine .bind ((repeatRest_inherits spec last ahead'').mono fun ctl w post => ?_)
        obtain ⟨stops,going⟩ := post
        rw [if_neg stops]
        exact .pure going

/-- A walk that stops has no further iterations, and iterations behind the first are skipped. -/
theorem iterLoop_stopped (break_session : Bool) (flags : WalkFlags) (run_id n i cur : Nat) (failed : Bool) :
    Meets (iterLoop (ConfigPrepareData.heap ∘ Prod.fst) break_session (trackedWalk objs depth expand_check) walker fuel
        flags r run_id keepalive exception n i cur .FAULT failed) s fun res _ => res.1 = .FAULT := by
  cases n with
  | zero => exact .failure
  | succ n =>
    rw [iterLoop]
    refine .bind (.of_some rfl ?_)
    rw [if_neg (by simp)]
    exact .pure rfl
theorem tracked_iterations_skipped (break_session : Bool) (svc : Bool) (run_id n i cur : Nat) (later : 0 < i) (failed : Bool) :
    Meets (iterLoop (ConfigPrepareData.heap ∘ Prod.fst) break_session (trackedWalk objs depth expand_check) walker fuel
        (prepareFlags svc) r run_id keepalive exception n i cur .CONT failed) s fun res t => res.1 = .CONT ∧ t = s := by
  induction n generalizing i cur failed with
  | zero => exact .failure
  | succ n ih =>
    rw [iterLoop]
    refine .bind (.of_some rfl ?_)
    split
    · have skip : (if i = 0 then WalkCtl.CONT else .SKIP) = .SKIP := if_neg (by omega)
      refine .bind (.of_some (a := .SKIP) (t := s) (by rw [← skip]; rfl) ?_)
      refine .bind (.of_some (a := (.CONT,false)) (t := s) rfl (.bind (.of_some rfl ?_)))
      rw [if_neg (by simp)]
      exact .bind (.of_some rfl (ih (i+1) _ (by omega) _))
    · exact .pure ⟨rfl,rfl⟩
include spec in
theorem iterate_inherits (break_session : Bool)
    (first : SessionVisits h (keepalive.toList.map (Visit.mk false v.above)) one) (body : IterationVisits h v two)
    (last : SessionVisits h (if v.forced then exception.toList.map (Visit.mk false v.above) else []) three)
    (ahead : Ahead h attrs v.above (one ++ (two ++ three)) s) :
    Meets (walk_iterate (ConfigPrepareData.heap ∘ Prod.fst) break_session (trackedWalk objs depth expand_check) walker fuel
        (prepareFlags (!v.forced)) v.item id keepalive exception) s
      fun res t => (s.1.heap.item v.item).n_iters = 0 ∧ res.1 = .CONT ∧ t = s ∨
        Going h attrs (one ++ (two ++ three)) s res.1 t := by
  rw [walk_iterate]
  cases fuel with
  | zero => exact .failure
  | succ n =>
    rw [iterLoop]
    refine .bind (.of_some rfl ?_)
    by_cases some' : 0 < (s.1.heap.item v.item).n_iters
    · rw [if_pos ⟨some',rfl⟩]
      refine .bind (.of_some rfl ?_)
      rw [iterBody,if_pos ⟨rfl,rfl⟩]
      refine .bind ((repeat_inherits spec break_session first body last ahead (n+1) false).mono fun res t going => ?_)
      obtain ⟨ctl,failed⟩ := res
      obtain fault | ⟨cont,inherits⟩ := going
      · obtain rfl : ctl = .FAULT := fault
        refine .bind (.of_some rfl ?_)
        rw [if_neg (by simp)]
        exact .bind (.of_some rfl ((iterLoop_stopped break_session _ id n 1 _ _).mono fun res u fault => .inr (.inl fault)))
      · obtain rfl : ctl = .CONT := cont
        refine .bind (.of_some rfl ?_)
        rw [if_neg (by simp)]
        refine .bind (.of_some rfl ((tracked_iterations_skipped break_session (!v.forced) id n 1 _ (by omega) _).mono fun res u post => ?_))
        obtain ⟨is,rfl⟩ := post
        exact .inr (.inr ⟨is,inherits⟩)
    · rw [if_neg fun both => some' both.1]
      exact .pure (.inl ⟨by omega,rfl,rfl⟩)
end

section
variable {objs : TesterObjects} {depth : Nat} {expand_check : TesterHeap → Ref → Status} {h : TesterHeap} {attrs : Ref → TestAttrs}
  {above : List Ref} {l l' : List Visit} {s t : TrackState} {ctl : WalkCtl}

/-- The order of the visits does not matter. -/
theorem Inherits.reorder (inherits : Inherits h attrs l s t) (same : ∀ v, v ∈ l ↔ v ∈ l') : Inherits h attrs l' s t where
  kept := inherits.kept
  ctxs := inherits.ctxs
  track := inherits.track
  frame r session outside := inherits.frame r session fun member => outside (by
    obtain ⟨⟨v,here,is⟩,_⟩ := mem_sessionsOf.mp member
    exact mem_sessionsOf.mpr ⟨⟨v,(same v).mp here,is⟩,session⟩)
  rule v member := inherits.rule v ((same v).mpr member)
  scripts r script := (inherits.scripts r script).imp_right fun changed => by grind
  specified v member := inherits.specified v ((same v).mpr member)
theorem Going.reorder (same : ∀ v, v ∈ l ↔ v ∈ l') (going : Going h attrs l s ctl t) : Going h attrs l' s ctl t := by
  obtain fault | ⟨cont,inherits⟩ := going
  · exact .inl fault
  · exact .inr ⟨cont,inherits.reorder same⟩
/-- The visits of a run item, in the order in which they change something. -/
theorem SessionVisits.around {forced : Bool} {keepalive exception : Option Ref} {r : Ref}
    (visits : SessionVisits h (around forced above keepalive exception r) l) :
    ∃ one two three, SessionVisits h (keepalive.toList.map (Visit.mk false above)) one ∧
      IterationVisits h ⟨forced,above,r⟩ two ∧
      SessionVisits h (if forced then exception.toList.map (Visit.mk false above) else []) three ∧
      sessionsOf h (scripted h ⟨forced,above,r⟩ ++ (one ++ (two ++ three))) = sessionsOf h l ∧
      ∀ v, v ∈ scripted h ⟨forced,above,r⟩ ++ (one ++ (two ++ three)) ↔ v ∈ l := by
  obtain ⟨one,rest,first,later,rfl⟩ := SessionVisits.append visits
  cases later with
  | script script last =>
    rename_i three
    refine ⟨one,[],three,first,.inl ⟨script,rfl⟩,last,?_,fun v => ?_⟩
    · rw [sessionsOf_append,scripted_sessions]
      simp [sessionsOf,script]
    · rw [scripted,if_pos script]
      simp only [mem_append,mem_cons,nil_append,not_mem_nil,or_false]
      tauto
  | session session inner last =>
    rename_i within three
    refine ⟨one,_ :: within,three,first,.inr ⟨session,within,inner,rfl⟩,last,?_,fun v => ?_⟩
    · rw [scripted,if_neg session]
      rfl
    · rw [scripted,if_neg session]
      rfl

variable (objs depth expand_check h attrs) in
/-- The preparing walk of one run item, by induction on the depth of the nesting. -/
theorem item_inherits (break_session : Bool) (fuel : Nat) : ItemInherits h attrs
    (walk_run_item (ConfigPrepareData.heap ∘ Prod.fst) break_session (trackedWalk objs depth expand_check) fuel) := by
  induction fuel with
  | zero => exact fun _ _ _ _ _ _ _ _ _ _ => .failure
  | succ fuel spec =>
    intro forced above r id keepalive exception l s visits ahead
    obtain ⟨one,two,three,first,body,last,sessions,members⟩ := visits.around
    have ahead' : Ahead h attrs above (scripted h ⟨forced,above,r⟩ ++ (one ++ (two ++ three))) s := by
      refine ⟨ahead.kept,ahead.below,?_,?_⟩
      · rw [sessions]
        exact ahead.unvisited.once
      · rw [sessions]
        exact ahead.unvisited.own
    rw [walk_run_item]
    refine Meets.mono (Q := fun res t => Going h attrs (scripted h ⟨forced,above,r⟩ ++ (one ++ (two ++ three))) s res.1 t) ?_
      fun _ _ => Going.reorder members
    refine @Going.bind h attrs above _ _ s WalkCtl (WalkCtl × Bool) _ _ (fun ctl => ctl) (fun res => res.1) ahead'
      (test_start_inherits id objs depth expand_check ahead.kept ahead.below forced (prepareFlags (!forced))) ?_ ?_
    · rintro ctl t rfl
      exact .bind (.pure (.bind (callbackEnd_stopped.mono fun ctl u fault => .pure fault)))
    · rintro ctl t rfl inherits ahead''
      rw [if_pos rfl]
      refine .bind ((iterate_inherits spec break_session (v := ⟨forced,above,r⟩) first body last ahead'').mono fun res u post => ?_)
      obtain ⟨ctl,failed⟩ := res
      obtain ⟨zero,cont,rfl⟩ | fault | ⟨cont,inherits'⟩ := post
      · -- no iteration fails the assertion at the end
        obtain rfl : ctl = .CONT := cont
        refine .bind (callbackEnd_meets ((test_end_inherits id inherits.kept (prepareFlags (!forced))).mono fun ctl u post => ?_))
        obtain rfl | ⟨_,_,positive⟩ := post
        · exact .pure (.inl rfl)
        · exact absurd zero positive.ne'
      · obtain rfl : ctl = .FAULT := fault
        exact .bind (callbackEnd_stopped.mono fun ctl u fault => .pure (.inl fault))
      · obtain rfl : ctl = .CONT := cont
        refine .bind (callbackEnd_meets ((test_end_inherits id inherits'.kept (prepareFlags (!forced))).mono fun ctl w post => ?_))
        obtain rfl | ⟨rfl,last,_⟩ := post
        · exact .pure (.inl rfl)
        · refine .pure (.inr ⟨rfl,?_⟩)
          rw [← append_nil (one ++ (two ++ three))]
          refine inherits'.trans ?_ last
          rw [append_nil]
          exact ahead''.unvisited.once

theorem configsLoop_stopped (break_session : Bool) (fuel : Nat) (flags : WalkFlags) (cfgs : List Ref) (id_off : Nat) :
    Meets (configsLoop (ConfigPrepareData.heap ∘ Prod.fst) break_session (trackedWalk objs depth expand_check) fuel flags cfgs
      id_off .FAULT) s fun ctl _ => ctl = .FAULT := by
  cases cfgs <;> exact .pure rfl
/-- Run items outside sessions have no handlers. -/
theorem SessionVisits.outermost {runs : List Ref} (visits : SessionVisits h (runs.map (Visit.mk true [])) l) :
    SessionVisits h (runs.flatMap (Tester.around true [] none none)) l := by
  have same : runs.map (Visit.mk true []) = runs.flatMap (Tester.around true [] none none) := by
    rw [← List.flatMap_singleton' (runs.map _),List.flatMap_map]
    rfl
  rwa [← same]
/-- A configuration has a context of its own, which hands nothing down that is new. -/
structure Opened (h : TesterHeap) (attrs : Ref → TestAttrs) (s t : TrackState) : Prop where
  kept : Kept h attrs t
  below : Below h attrs [] t
  values : ∀ x, valuesAt t x = valuesAt s x
  ctxs : ∃ ctx, t.1.ctxs = ctx :: s.1.ctxs
  track : ∃ ctx, t.2.ctxs = ctx :: s.2.ctxs
theorem cfg_start_inherits (kept : Kept h attrs s) (below : Below h attrs [] s) (cfg : Ref) (id : Nat) :
    Meets (tracked_cfg_start cfg id) s fun ctl t => ctl = .CONT ∧ Opened h attrs s t := by
  obtain ⟨⟨ctx,rest,top,exceptions,keepalives⟩,tctx,trest,ttop,handed⟩ := below
  rw [tracked_cfg_start]
  refine .bind (tracking_meets fun d opened => ?_)
  cases opened
  refine lifted_meets (.of_some rfl ⟨rfl,⟨kept.shape,kept.hd,kept.runs,kept.rc,kept.unspec⟩,⟨?_,?_⟩,fun _ => rfl,⟨_,rfl⟩,⟨_,rfl⟩⟩)
  · refine ⟨_,_,rfl,?_,?_⟩
    · rw [top]
      exact exceptions
    · rw [top]
      exact keepalives
  · refine ⟨_,_,rfl,?_⟩
    rw [ttop]
    exact handed
theorem Opened.inherits {u w : TrackState} (opened : Opened h attrs s t) (inner : Inherits h attrs l t u)
    (popped : Popped h attrs u w) : Inherits h attrs l s w where
  kept := popped.kept
  ctxs := by
    obtain ⟨ctx,same⟩ := opened.ctxs
    rw [popped.ctxs,inner.ctxs,same,map_cons,tail_cons]
  track := by
    obtain ⟨ctx,same⟩ := opened.track
    rw [popped.track,inner.track,same,tail_cons]
  frame r plain other := by rw [popped.values,inner.frame r plain other,opened.values]
  rule x member plain := by
    rw [popped.values]
    exact inner.rule x member plain
  scripts r script := by
    have last := congrArg (·.2.2) (popped.values r)
    have first := congrArg (·.2.2) (opened.values r)
    simp only [valuesAt] at last first
    rw [last,← first]
    exact inner.scripts r script
  specified x member script := by
    have last := congrArg (·.2.2) (popped.values x.item)
    simp only [valuesAt] at last
    rw [last]
    exact inner.specified x member script
/-- The configurations one after the other, each in a context of its own. -/
theorem configs_inherit (break_session : Bool) (fuel : Nat) {cfgs : List Ref} (id_off : Nat)
    (visits : SessionVisits h (cfgVisits h cfgs) l) (ahead : Ahead h attrs [] l s) :
    Meets (configsLoop (ConfigPrepareData.heap ∘ Prod.fst) break_session (trackedWalk objs depth expand_check) fuel
      (prepareFlags false) cfgs id_off .CONT) s (Going h attrs l s) := by
  induction cfgs generalizing l s id_off with
  | nil =>
    cases visits
    exact .pure (.inr ⟨rfl,.refl ahead.kept⟩)
  | cons cfg cfgs ih =>
    obtain ⟨one,two,first,later,rfl⟩ := SessionVisits.append visits
    rw [configsLoop,if_neg (by simp)]
    have opening : Meets (tracked_cfg_start cfg id_off) s fun ctl t => ctl = .CONT ∧ Opened h attrs s t :=
      cfg_start_inherits ahead.kept ahead.below cfg id_off
    refine .bind (opening.mono fun ctl t post => ?_)
    obtain ⟨rfl,opened⟩ := post
    refine .bind (.get ?_)
    simp only [comp_apply,opened.kept.runs]
    have unvisited : Unvisited h attrs one t := ⟨ahead.unvisited.left.once,fun r member => by
      rw [opened.values]
      exact ahead.unvisited.left.own r member⟩
    rw [if_pos trivial]
    have spec := item_inherits objs depth expand_check h attrs break_session fuel
    refine .bind ((itemsLoop_inherits spec first.outermost ⟨opened.kept,opened.below,unvisited⟩ (h.cfg cfg).runs fuel id_off
      false).mono fun res u going => ?_)
    obtain ⟨ctl,failed⟩ := res
    have stop (w : TrackState) (id : Nat) : Meets (configsLoop (ConfigPrepareData.heap ∘ Prod.fst) break_session
        (trackedWalk objs depth expand_check) fuel (prepareFlags false) cfgs id .FAULT) w (Going h attrs (one ++ two) s) :=
      (configsLoop_stopped break_session fuel _ cfgs id).mono fun _ _ fault => .inl fault
    obtain fault | ⟨cont,inherits⟩ := going
    · obtain rfl : ctl = .FAULT := fault
      refine .bind (.pure (.bind (callbackEnd_stopped.mono fun ctl w fault => ?_)))
      subst fault
      exact .bind (.get (stop w _))
    · obtain rfl : ctl = .CONT := cont
      refine .bind (.pure (.bind (callbackEnd_meets ((cfg_end_inherits id_off inherits.kept cfg).mono fun ctl w post => ?_))))
      obtain rfl | ⟨rfl,popped⟩ := post
      · exact .bind (.get (stop w _))
      · have whole := opened.inherits inherits popped
        refine .bind (.get ((ih _ later (ahead.right whole)).mono fun ctl x going => ?_))
        exact going.imp_right fun rest => ⟨rest.1,whole.trans ahead.unvisited.once rest.2⟩

/-- Nothing has been visited when the walk starts. -/
theorem start_ahead (once : (sessionsOf h l).Nodup) : Ahead h attrs [] l (prepareStart h attrs) where
  kept := ⟨fun _ => rfl,fun _ => rfl,fun _ => rfl,rfl,fun _ unspec => unspec⟩
  below := ⟨⟨_,_,rfl,rfl,rfl⟩,_,_,rfl,rfl⟩
  unvisited := ⟨once,fun _ _ => rfl⟩
variable (objs depth expand_check) in
/-- After the preparation every session has the handlers and `track_conf` that it declares or that
    the nearest session above it which declares some hands down to it, and scripts have their
    `track_conf` in the same way. -/
theorem inherited_by_rule (break_session : Bool) (fuel : Nat) (cfgs : List Ref)
    (visits : SessionVisits h (cfgVisits h cfgs) l) (once : (sessionsOf h l).Nodup)
    (ran : tracked_prepare_configs objs depth expand_check break_session fuel cfgs (prepareStart h attrs) = some (.CONT,t)) :
    (∀ v ∈ l, (h.item v.item).type ≠ .script → valuesAt t v.item = ruleValues h attrs v) ∧
      ∀ v ∈ l, (h.item v.item).type = .script → (∀ w ∈ l, w.item = v.item → trackConfOf attrs w = trackConfOf attrs v) →
        (t.2.attrs v.item).track_conf = trackConfOf attrs v := by
  obtain stopped | ⟨_,inherits⟩ := configs_inherit break_session fuel 0 visits (start_ahead once) _ _ ran
  · cases stopped
  · refine ⟨inherits.rule,fun v member script alike => ?_⟩
    obtain same | ⟨_,w,member',is,rule⟩ := inherits.scripts v.item script
    · have declared : (attrs v.item).track_conf ≠ TESTER_TRACK_CONF_UNSPEC := by
        have specified := inherits.specified v member script
        rwa [same] at specified
      rw [same,trackConfOf,effective,declaredTrack,if_neg declared]
      rfl
    · rw [rule,alike w member' is]
end

section
/-- Nothing is resolved in run items without arguments. -/
def emptyObjects : TesterObjects := ⟨fun _ => ⟨none,none,none,none,none,false⟩,fun _ => ⟨⟨[],0⟩,none⟩,fun _ => ⟨none,[]⟩⟩
def plainItem (type : RunItemType) (session : TestSession) : ConfigItem := ⟨type,session,⟨none,[],[],0,0⟩,0,.CHILDREN⟩
def scriptItem : ConfigItem := plainItem .script ⟨[],none,none,none,none⟩

/-- The session at address 0 has the handler 3 for its children: the session 1 of the script 2. -/
def nestedSessions : TesterHeap where
  item r :=
    if r = 0 then plainItem .session ⟨[1],some 3,none,none,none⟩
    else if r = 1 then plainItem .session ⟨[2],none,none,none,none⟩
    else scriptItem
  cfg _ := ⟨[0],0⟩
/-- The outer session declares `track_conf` for all sessions below. -/
def outerTrack (r : Ref) : TestAttrs := if r = 0 then ⟨3,.DESCENDANTS⟩ else ⟨TESTER_TRACK_CONF_UNSPEC,.NONE⟩
def nestedVisits : List Visit := [⟨true,[],0⟩,⟨true,[0],1⟩,⟨true,[1,0],2⟩,⟨false,[1,0],3⟩,⟨false,[0],3⟩]
theorem inherited_by_rule_nested : ∃ t : TrackState,
    tracked_prepare_configs emptyObjects 1 (fun _ _ => none) false 6 [0] (prepareStart nestedSessions outerTrack) = some (.CONT,t) ∧
      valuesAt t 1 = (some 3,none,3) ∧ (t.2.attrs 2).track_conf = 3 := by
  have visits : SessionVisits nestedSessions (cfgVisits nestedSessions [0]) nestedVisits := by
    refine @SessionVisits.session nestedSessions _ _ [⟨true,[0],1⟩,⟨true,[1,0],2⟩,⟨false,[1,0],3⟩,⟨false,[0],3⟩] _ (by decide) ?_ .nil
    refine @SessionVisits.session nestedSessions _ _ [⟨true,[1,0],2⟩,⟨false,[1,0],3⟩] _ (by decide) ?_ ?_
    · exact .script (by decide) (.script (by decide) .nil)
    · exact .script (by decide) .nil
  have finished : (tracked_prepare_configs emptyObjects 1 (fun _ _ => none) false 6 [0]
      (prepareStart nestedSessions outerTrack)).map Prod.fst = some .CONT := by decide +kernel
  obtain ⟨⟨ctl,t⟩,ran,is⟩ := of_map finished
  obtain rfl : ctl = .CONT := is
  obtain ⟨sessions,scripts⟩ := inherited_by_rule emptyObjects 1 (fun _ _ => none) false 6 [0] visits (by decide) ran
  refine ⟨t,ran,?_,?_⟩
  · exact sessions ⟨true,[0],1⟩ (by decide) (by decide)
  · exact scripts ⟨true,[1,0],2⟩ (by decide) (by decide) (by decide)

/-- The session at address 0 runs the scripts 4 and 5. Its handler, for its children, is the
    session 1, in which the session 2 runs the script 3. -/
def handlerSession : TesterHeap where
  item r :=
    if r = 0 then plainItem .session ⟨[4,5],some 1,none,none,none⟩
    else if r = 1 then plainItem .session ⟨[2],none,none,none,none⟩
    else if r = 2 then plainItem .session ⟨[3],none,none,none,none⟩
    else scriptItem
  cfg _ := ⟨[0],0⟩
def handlerVisits : List Visit :=
  [⟨true,[],0⟩,⟨true,[0],4⟩,⟨false,[0],1⟩,⟨false,[1,0],2⟩,⟨false,[2,1,0],3⟩,⟨true,[0],5⟩,⟨false,[0],1⟩,⟨false,[1,0],2⟩,
    ⟨false,[2,1,0],3⟩]
/-- When the handler is walked for the second script, its inner session gets a handler that is
    for the children of the outer one only. -/
theorem started_again_inherits :
    SessionVisits handlerSession (cfgVisits handlerSession [0]) handlerVisits ∧ ⟨false,[1,0],2⟩ ∈ handlerVisits ∧
      handlerOf handlerSession TestSession.exception ⟨false,[1,0],2⟩ = none ∧
      (tracked_prepare_configs emptyObjects 1 (fun _ _ => none) false 8 [0] (prepareStart handlerSession outerTrack)).map
        (fun r => (r.1,(valuesAt r.2 2).1)) = some (.CONT,some 1) := by
  refine ⟨?_,by decide,by decide,by decide +kernel⟩
  have handler : SessionVisits handlerSession [⟨false,[0],1⟩] [⟨false,[0],1⟩,⟨false,[1,0],2⟩,⟨false,[2,1,0],3⟩] := by
    refine @SessionVisits.session handlerSession _ _ [⟨false,[1,0],2⟩,⟨false,[2,1,0],3⟩] _ (by decide) ?_ .nil
    refine @SessionVisits.session handlerSession _ _ [⟨false,[2,1,0],3⟩] _ (by decide) ?_ .nil
    exact .script (by decide) .nil
  have second : SessionVisits handlerSession [⟨true,[0],5⟩,⟨false,[0],1⟩] _ := .script (by decide) handler
  exact @SessionVisits.session handlerSession ⟨true,[],0⟩ _ handlerVisits.tail _ (by decide)
    (.script (by decide) (handler.and second)) .nil
end

end TestEnvironment.Tester
