import TestEnvironment.Tester.Lifts
import TestEnvironment.Tester.PrepareConfigs

/-!
The identifiers of the script callbacks in a walk in which every callback continues: where
the script runs are few enough to be counted, the preparation numbers them so that the
walk calls them in order (`numbered_from_zero`). A failure of the preparation inside a
session with an epilogue is lost (`failure_forgotten`).
-/
namespace TestEnvironment.Tester
open Lib

/-- Whether the run items that are open are service ones, the innermost first, and the
    identifiers of the scripts that have been called outside them. -/
structure ScriptCalls where
  service : List Bool
  ids : List Nat
  deriving DecidableEq, Repr

section
variable {σ : Type}

/-- The callbacks with the script calls recorded. -/
def TesterCfgWalk.recording (walk : TesterCfgWalk σ) : TesterCfgWalk (σ × ScriptCalls) :=
  {walk.lifted id id with
    run_start := some fun ri id_off flags => do
      note fun c => {c with service := flags.service :: c.service}
      Tester.lifted (callback (walk.run_start.map fun cb => cb ri id_off flags))
    run_end := some fun ri id_off flags => do
      note fun c => {c with service := c.service.tail}
      Tester.lifted (callback (walk.run_end.map fun cb => cb ri id_off flags))
    script := some fun ri id_off => do
      note fun c => if c.service.head? = some true then c else {c with ids := c.ids ++ [id_off]}
      Tester.lifted (callback (walk.script.map fun cb => cb ri id_off))}

variable (view : σ → TesterHeap)

/-- The callback returns the control and leaves the configuration as it is. -/
def Returns (ctl : WalkCtl) (cb : StateT σ Option WalkCtl) : Prop := ∀ s, ∃ s', cb s = some (ctl,s') ∧ view s' = view s
/-- Every callback continues; the repetitions of a run item end after the first. -/
structure Continuing (walk : TesterCfgWalk σ) : Prop where
  cfg_start : ∀ cb ∈ walk.cfg_start, ∀ cfg id_off, Returns view .CONT (cb cfg id_off)
  cfg_end : ∀ cb ∈ walk.cfg_end, ∀ cfg id_off, Returns view .CONT (cb cfg id_off)
  pkg_start : ∀ cb ∈ walk.pkg_start, ∀ ri id_off, Returns view .CONT (cb ri id_off)
  pkg_end : ∀ cb ∈ walk.pkg_end, ∀ ri id_off, Returns view .CONT (cb ri id_off)
  session_start : ∀ cb ∈ walk.session_start, ∀ ri id_off, Returns view .CONT (cb ri id_off)
  session_end : ∀ cb ∈ walk.session_end, ∀ ri id_off, Returns view .CONT (cb ri id_off)
  prologue_start : ∀ cb ∈ walk.prologue_start, ∀ ri id_off, Returns view .CONT (cb ri id_off)
  prologue_end : ∀ cb ∈ walk.prologue_end, ∀ ri id_off, Returns view .CONT (cb ri id_off)
  epilogue_start : ∀ cb ∈ walk.epilogue_start, ∀ ri id_off, Returns view .CONT (cb ri id_off)
  epilogue_end : ∀ cb ∈ walk.epilogue_end, ∀ ri id_off, Returns view .CONT (cb ri id_off)
  keepalive_start : ∀ cb ∈ walk.keepalive_start, ∀ ri id_off, Returns view .CONT (cb ri id_off)
  keepalive_end : ∀ cb ∈ walk.keepalive_end, ∀ ri id_off, Returns view .CONT (cb ri id_off)
  exception_start : ∀ cb ∈ walk.exception_start, ∀ ri id_off, Returns view .CONT (cb ri id_off)
  exception_end : ∀ cb ∈ walk.exception_end, ∀ ri id_off, Returns view .CONT (cb ri id_off)
  run_start : ∀ cb ∈ walk.run_start, ∀ ri id_off flags, Returns view .CONT (cb ri id_off flags)
  run_end : ∀ cb ∈ walk.run_end, ∀ ri id_off flags, Returns view .CONT (cb ri id_off flags)
  iter_start : ∀ cb ∈ walk.iter_start, ∀ ri id_off flags i, Returns view .CONT (cb ri id_off flags i)
  iter_end : ∀ cb ∈ walk.iter_end, ∀ ri id_off flags i, Returns view .CONT (cb ri id_off flags i)
  repeat_start : ∀ cb ∈ walk.repeat_start, ∀ ri id_off flags, Returns view .CONT (cb ri id_off flags)
  repeat_end : ∀ cb ∈ walk.repeat_end, ∀ ri id_off flags, Returns view .BREAK (cb ri id_off flags)
  script : ∀ cb ∈ walk.script, ∀ ri id_off, Returns view .CONT (cb ri id_off)
end

section
variable {σ : Type} {view : σ → TesterHeap} {h : TesterHeap} {stack : List Bool} {ids : List Nat} {s : σ × ScriptCalls}
  {γ γ' : Type} {ctl : WalkCtl}

/-- The configuration and the record at some point of the walk. -/
def At (view : σ → TesterHeap) (h : TesterHeap) (stack : List Bool) (ids : List Nat) (s : σ × ScriptCalls) : Prop :=
  view s.1 = h ∧ s.2 = ⟨stack,ids⟩
/-- The walk continues from there. -/
def On (view : σ → TesterHeap) (h : TesterHeap) (stack : List Bool) (ids : List Nat) (ctl : WalkCtl) (s : σ × ScriptCalls) : Prop :=
  ctl = .CONT ∧ At view h stack ids s
/-- The walk of run items continues, and no validation has failed. -/
def Past (view : σ → TesterHeap) (h : TesterHeap) (stack : List Bool) (ids : List Nat) (res : WalkCtl × Bool) (s : σ × ScriptCalls) : Prop :=
  res = (.CONT,false) ∧ At view h stack ids s

theorem Returns.callback {o : Option γ} {f : γ → StateT σ Option WalkCtl} (returns : ∀ cb ∈ o, Returns view .CONT (f cb)) :
    Returns view .CONT (callback (o.map f)) := by
  cases o with
  | none => exact fun s => ⟨s,rfl,rfl⟩
  | some cb => exact returns cb rfl
/-- A callback leaves the record as it is. -/
theorem Returns.lifted {cb : StateT σ Option WalkCtl} (returns : Returns view ctl cb) (here : At view h stack ids s) :
    Ends (fun _ => Tester.lifted cb) s fun ctl' t => ctl' = ctl ∧ At view h stack ids t := by
  obtain ⟨s',ran,same⟩ := returns s.1
  refine .of_some (a := ctl) (t := (s',s.2)) ?_ ⟨rfl,same.trans here.1,here.2⟩
  rw [Tester.lifted,ran]
  rfl
variable {o' : Option (StateT (σ × ScriptCalls) Option WalkCtl)}

theorem start_ends {o : Option γ} (f' : γ → StateT σ Option WalkCtl) (returns : ∀ cb ∈ o, Returns view .CONT (f' cb))
    (same : o' = o.map fun cb => Tester.lifted (f' cb))
    (here : At view h stack ids s) : Ends (fun _ => callback o') s (On view h stack ids) := by
  subst same
  cases o with
  | none => exact .pure ⟨rfl,here⟩
  | some cb => exact (returns cb rfl).lifted here
theorem end_ends {o : Option γ} (f' : γ → StateT σ Option WalkCtl) (returns : ∀ cb ∈ o, Returns view .CONT (f' cb))
    (same : o' = o.map fun cb => Tester.lifted (f' cb))
    (here : At view h stack ids s) : Ends (fun _ => callbackEnd o' .CONT) s (On view h stack ids) := by
  subst same
  cases o with
  | none => exact .pure ⟨rfl,here⟩
  | some cb =>
    refine .bind (((returns cb rfl).lifted here).mono fun ctl t post => .pure ?_)
    obtain ⟨rfl,there⟩ := post
    exact ⟨rfl,there⟩
/-- The callbacks of the recording walk that it has from the other one. -/
theorem recorded {o : Option γ} {g : γ → γ'} {f : γ' → StateT (σ × ScriptCalls) Option WalkCtl} :
    (o.map g).map f = o.map fun cb => f (g cb) := by cases o <;> rfl
/-- A callback of run items in a state with the record. -/
abbrev liftedAt (cb : Ref → Nat → StateT σ Option WalkCtl) : Ref → Nat → StateT (σ × ScriptCalls) Option WalkCtl :=
  fun ri id_off => Tester.lifted (cb ri id_off)
section
variable {o : Option (Ref → Nat → StateT σ Option WalkCtl)} {ri : Ref} {id_off : Nat}
  (returns : ∀ cb ∈ o, ∀ ri id_off, Returns view .CONT (cb ri id_off)) (here : At view h stack ids s)
include returns here

theorem begins : Ends (fun _ => callback ((o.map liftedAt).map fun cb => cb ri id_off)) s
    (On view h stack ids) := by
  refine start_ends (o := o) (fun cb => cb ri id_off) (fun cb is => returns cb is ri id_off) ?_ here
  exact recorded
theorem finishes : Ends (fun _ => callbackEnd ((o.map liftedAt).map fun cb => cb ri id_off) .CONT)
    s (On view h stack ids) := by
  refine end_ends (o := o) (fun cb => cb ri id_off) (fun cb is => returns cb is ri id_off) ?_ here
  exact recorded
end
end

section
variable {σ : Type} {view : σ → TesterHeap} {h : TesterHeap} {walk : TesterCfgWalk σ} {break_session : Bool} {stack : List Bool}
  {ids new : List Nat} {s : σ × ScriptCalls} {keepalive exception : Option Ref} {r : Ref} {id : Nat} {flags : WalkFlags}

variable {α : Type} {start_cb end_cb : Option (Ref → Nat → StateT σ Option WalkCtl)}

variable {Q : α → σ × ScriptCalls → Prop}

/-- More fuel does not matter. -/
theorem shifted {f : Nat → StateT (σ × ScriptCalls) Option α} (ends : Ends f s Q) : Ends (fun fuel => f (fuel+1)) s Q := by
  obtain ⟨a,t,⟨n,settled⟩,holds⟩ := ends
  exact ⟨a,t,⟨n,fun fuel enough => settled (fuel+1) (by omega)⟩,holds⟩

/-- A loop whose counter is positive for large fuels. -/
theorem positive_counter {m : Nat → Nat → StateT (σ × ScriptCalls) Option α} {n : Nat → Nat} {k : Nat}
    (enough : ∃ least, ∀ fuel ≥ least, k < n fuel)
    (ends : Ends (fun fuel => m (n fuel-1+1) fuel) s Q) : Ends (fun fuel => m (n fuel) fuel) s Q := by
  obtain ⟨least,enough⟩ := enough
  refine ends.congr least fun fuel large => ?_
  rw [Nat.sub_add_cancel]
  exact Nat.one_le_of_lt (enough fuel large)

variable (view h walk break_session) in
/-- The walk of run items with the fuel. -/
abbrev itemsWalk (fuel : Nat) : ItemWalk (σ × ScriptCalls) := walk_run_item (view ∘ Prod.fst) break_session walk.recording fuel
variable (view h walk break_session) in
/-- A walk of the service run item comes to its end and leaves the record as it is. -/
def Harmless (r : Ref) : Prop := ∀ stack ids s id, At view h stack ids s →
  Ends (fun fuel => itemsWalk view walk break_session fuel TESTER_CFG_WALK_SERVICE r id none none) s
    (Past view h stack ids)
variable (continuing : Continuing view walk)

theorem service_ends (harmless : Harmless view h walk break_session r)
    (starts : ∀ cb ∈ start_cb, ∀ ri id_off, Returns view .CONT (cb ri id_off))
    (ends : ∀ cb ∈ end_cb, ∀ ri id_off, Returns view .CONT (cb ri id_off)) (here : At view h stack ids s) :
    Ends (fun fuel => walk_service (itemsWalk view walk break_session fuel) id r
      (start_cb.map liftedAt) (end_cb.map liftedAt)) s
      (On view h stack ids) := by
  simp only [walk_service]
  refine .bind ((begins starts here).mono fun ctl t post => ?_)
  obtain ⟨rfl,here⟩ := post
  simp only [if_true]
  refine .bind ((harmless stack ids t id here).mono fun res t post => ?_)
  obtain ⟨rfl,here⟩ := post
  refine .bind (.pure ?_)
  exact finishes ends here
theorem serviceOf_ends {run : Option Ref} (harmless : ∀ r, run = some r → Harmless view h walk break_session r)
    (starts : ∀ cb ∈ start_cb, ∀ ri id_off, Returns view .CONT (cb ri id_off))
    (ends : ∀ cb ∈ end_cb, ∀ ri id_off, Returns view .CONT (cb ri id_off)) (here : At view h stack ids s) :
    Ends (fun fuel => serviceOf (itemsWalk view walk break_session fuel) id run
      (start_cb.map liftedAt) (end_cb.map liftedAt) .CONT) s
      (On view h stack ids) := by
  cases run with
  | none => exact .pure ⟨rfl,here⟩
  | some r => exact service_ends (harmless r rfl) starts ends here

/-- The run items of a session are walked to the end and record the identifiers `new`. -/
def ItemsEnd (view : σ → TesterHeap) (h : TesterHeap) (walk : TesterCfgWalk σ) (break_session : Bool) (flags : WalkFlags)
    (stack : List Bool) (runs : List Ref) (keepalive exception : Option Ref) (id : Nat) (new : List Nat) : Prop :=
  ∀ ids s, At view h stack ids s → Ends (fun fuel => walk_run_items (view ∘ Prod.fst) (itemsWalk view walk break_session fuel) fuel
    flags id runs keepalive exception) s (Past view h stack (ids ++ new))

include continuing in
theorem sessionBody_ends (prologue : ∀ p, (h.item r).session.prologue = some p → Harmless view h walk break_session p)
    (items : ItemsEnd view h walk break_session flags stack (h.item r).session.run_items (h.item r).session.keepalive
      (h.item r).session.exception id new)
    (epilogue : ∀ p, (h.item r).session.epilogue = some p → Harmless view h walk break_session p) (here : At view h stack ids s) :
    Ends (fun fuel => sessionBody (view ∘ Prod.fst) break_session walk.recording (itemsWalk view walk break_session fuel) fuel flags r id)
      s (On view h stack (ids ++ new)) := by
  have item (s : σ × ScriptCalls) (stack : List Bool) (ids : List Nat) (here : At view h stack ids s) :
      Ends (fun _ => itemAt (view ∘ Prod.fst) r) s fun item t => item = h.item r ∧ t = s :=
    .of_some rfl ⟨by rw [comp_apply,here.1],rfl⟩
  simp only [sessionBody]
  refine .bind ((item s stack ids here).mono fun _ _ post => ?_)
  obtain ⟨rfl,rfl⟩ := post
  refine .bind ((serviceOf_ends prologue continuing.prologue_start continuing.prologue_end here).mono fun ctl t post => ?_)
  obtain ⟨rfl,here⟩ := post
  refine .bind (.of_some (a := ()) (t := t) rfl (.bind ((item t stack ids here).mono fun _ _ post => ?_)))
  obtain ⟨rfl,rfl⟩ := post
  simp only [ne_eq,not_true_eq_false,decide_false,true_or,if_true]
  refine .bind ((items ids _ here).mono fun res u post => ?_)
  obtain ⟨rfl,here⟩ := post
  refine .bind (.of_some (a := ()) (t := u) rfl (.bind (.of_some (a := ()) (t := u) rfl ?_)))
  refine .bind ((item u stack _ here).mono fun _ _ post => ?_)
  obtain ⟨rfl,rfl⟩ := post
  cases is : (h.item r).session.epilogue with
  | none => exact .pure ⟨rfl,here⟩
  | some run =>
    dsimp only
    simp only [reduceCtorEq,not_false_eq_true,or_true,if_true]
    refine .bind ((service_ends (epilogue run is) continuing.epilogue_start continuing.epilogue_end here).mono fun ctl w post => ?_)
    obtain ⟨rfl,here⟩ := post
    exact .pure ⟨rfl,here⟩

section
variable (body : ∀ ids s, At view h stack ids s → Ends (fun fuel => sessionBody (view ∘ Prod.fst) break_session walk.recording (itemsWalk view walk break_session fuel) fuel flags r id) s (On view h stack (ids ++ new))) (here : At view h stack ids s)
include body here
include continuing in
theorem session_ends :
    Ends (fun fuel => walk_test_session (view ∘ Prod.fst) break_session walk.recording (itemsWalk view walk break_session fuel) fuel
      flags r id) s (On view h stack (ids ++ new)) := by
  simp only [walk_test_session]
  refine .bind ((begins continuing.session_start here).mono fun ctl t post => ?_)
  obtain ⟨rfl,here⟩ := post
  simp only [if_true]
  refine .bind ((body ids t here).mono fun ctl u post => ?_)
  obtain ⟨rfl,here⟩ := post
  exact finishes continuing.session_end here
include continuing in
theorem package_ends :
    Ends (fun fuel => walk_test_package (view ∘ Prod.fst) break_session walk.recording (itemsWalk view walk break_session fuel) fuel
      flags r id) s (On view h stack (ids ++ new)) := by
  simp only [walk_test_package]
  refine .bind ((begins continuing.pkg_start here).mono fun ctl t post => ?_)
  obtain ⟨rfl,here⟩ := post
  refine .bind (.of_some (a := ()) (t := t) rfl ?_)
  simp only [ne_eq,not_true_eq_false,decide_false,true_or,if_true]
  refine .bind ((session_ends continuing body here).mono fun ctl u post => ?_)
  obtain ⟨rfl,here⟩ := post
  refine .bind (.of_some (a := ()) (t := u) rfl ?_)
  exact finishes continuing.pkg_end here
end

variable (view h walk break_session) in
/-- One repetition of the run item records the identifiers `new`. -/
structure Repetition (flags : WalkFlags) (stack : List Bool) (r : Ref) (id : Nat) (new : List Nat) : Prop where
  script : (h.item r).type = .script → new = if stack.head? = some true then [] else [id]
  session : (h.item r).type ≠ .script → ∀ ids s, At view h stack ids s → Ends (fun fuel => sessionBody (view ∘ Prod.fst) break_session
    walk.recording (itemsWalk view walk break_session fuel) fuel flags r id) s (On view h stack (ids ++ new))
include continuing in
theorem script_ends (here : At view h stack ids s) :
    Ends (fun _ => callback (walk.recording.script.map fun cb => cb r id)) s
      (On view h stack (ids ++ if stack.head? = some true then [] else [id])) := by
  have returns := Returns.callback (f := fun cb => cb r id) fun cb is => continuing.script cb is r id
  have recordedAt : At view h stack (ids ++ if stack.head? = some true then [] else [id])
      (s.1,if s.2.service.head? = some true then s.2 else {s.2 with ids := s.2.ids ++ [id]}) := by
    obtain ⟨config,calls⟩ := here
    refine ⟨config,?_⟩
    rw [calls]
    by_cases service : stack.head? = some true
    · simp [service]
    · simp [service]
  exact .bind (.of_some (a := ()) rfl (returns.lifted recordedAt))
include continuing in
theorem repeatBody_ends (plain : flags.skipRepeat = false) (repetition : Repetition view h walk break_session flags stack r id new)
    (here : At view h stack ids s) :
    Ends (fun fuel => repeatBody (view ∘ Prod.fst) break_session walk.recording (itemsWalk view walk break_session fuel) fuel flags r id
      .CONT) s (On view h stack (ids ++ new)) := by
  have item : itemAt (view ∘ Prod.fst) r s = some (h.item r,s) := by
    rw [← here.1]
    rfl
  simp only [repeatBody,ne_eq,not_true_eq_false,if_false,plain,false_eq_true]
  refine .bind (.of_some item ?_)
  cases is : (h.item r).type with
  | script =>
    rw [repetition.script is]
    exact script_ends continuing here
  | session => exact session_ends continuing (repetition.session (by simp [is])) here
  | package => exact package_ends continuing (repetition.session (by simp [is])) here
include continuing in
/-- A repetition is the last one. -/
theorem repeatRest_ends (handler : flags.forceException = true → ∀ e, exception = some e → Harmless view h walk break_session e)
    (here : At view h stack ids s) :
    Ends (fun fuel => repeatRest walk.recording (itemsWalk view walk break_session fuel) flags r id exception .CONT) s
      fun ctl t => ctl = .BREAK ∧ At view h stack ids t := by
  have ending (rest : Nat → StateT (σ × ScriptCalls) Option WalkCtl) (t : σ × ScriptCalls) (here : At view h stack ids t)
      (forcedRest : flags.forceException = true → Ends rest t fun ctl t => ctl = .BREAK ∧ At view h stack ids t) :
      Ends (fun fuel => if flags.forceException = true then rest fuel else return .BREAK) t fun ctl t => ctl = .BREAK ∧ At view h stack ids t := by
    cases forced : flags.forceException with
    | false => exact .pure ⟨rfl,here⟩
    | true => exact forcedRest forced
  have served (e : Ref) (given : exception = some e) (forced : flags.forceException = true) (t : σ × ScriptCalls) (here : At view h stack ids t) :
      Ends (fun fuel => do
        let ctl_tmp ← walk_service (itemsWalk view walk break_session fuel) id e walk.recording.exception_start walk.recording.exception_end
        return walk_ctl_merge .BREAK ctl_tmp) t fun ctl t => ctl = .BREAK ∧ At view h stack ids t := by
    refine .bind ((service_ends (handler forced e given) continuing.exception_start continuing.exception_end here).mono fun ctl u post => .pure ?_)
    obtain ⟨rfl,here⟩ := post
    exact ⟨rfl,here⟩
  simp only [repeatRest,reduceCtorEq,if_false,decide_false,Bool.false_or]
  have own : walk.recording.repeat_end = walk.repeat_end.map fun cb ri id_off flags => Tester.lifted (cb ri id_off flags) := rfl
  rw [own]
  cases is : walk.repeat_end with
  | none =>
    refine .bind (.pure ?_)
    refine ending _ s here fun forced => ?_
    cases exception with
    | none => exact .pure ⟨rfl,here⟩
    | some e => exact served e rfl forced s here
  | some cb =>
    refine .bind (((continuing.repeat_end cb is r id flags).lifted here).mono fun ctl t post => ?_)
    obtain ⟨rfl,here⟩ := post
    refine .bind (.pure ?_)
    refine ending _ t here fun forced => ?_
    cases exception with
    | none => exact .pure ⟨rfl,here⟩
    | some e => exact served e rfl forced t here
include continuing in
theorem repeat_ends (plain : flags.skipRepeat = false) (repetition : Repetition view h walk break_session flags stack r id new)
    (validation : ∀ k, keepalive = some k → Harmless view h walk break_session k)
    (handler : flags.forceException = true → ∀ e, exception = some e → Harmless view h walk break_session e)
    (here : At view h stack ids s) :
    Ends (fun fuel => walk_repeat (view ∘ Prod.fst) break_session walk.recording (itemsWalk view walk break_session fuel) fuel flags r id
      keepalive exception) s (Past view h stack (ids ++ new)) := by
  refine .of_succ ?_
  simp only [walk_repeat,repeatLoop]
  refine .bind ((shifted (serviceOf_ends validation continuing.keepalive_start continuing.keepalive_end here)).mono fun ctl t post => ?_)
  obtain ⟨rfl,here⟩ := post
  simp only [ne_eq,not_true_eq_false,false_and,if_false,decide_false]
  refine .bind (.of_some (a := ()) (t := t) rfl ?_)
  have starting : Ends (fun _ => callback (walk.recording.repeat_start.map fun cb => cb r id flags)) t (On view h stack ids) := by
    refine start_ends (o := walk.repeat_start) (fun cb => cb r id flags) (fun cb is => continuing.repeat_start cb is r id flags) ?_ here
    exact recorded
  refine .bind (starting.mono fun ctl u post => ?_)
  obtain ⟨rfl,here⟩ := post
  refine .bind ((shifted (repeatBody_ends continuing plain repetition here)).mono fun ctl v post => ?_)
  obtain ⟨rfl,here⟩ := post
  refine .bind ((shifted (repeatRest_ends continuing handler here)).mono fun ctl w post => ?_)
  obtain ⟨rfl,here⟩ := post
  exact .pure ⟨rfl,here⟩

variable (view h walk break_session) in
/-- So many iterations from the identifier on record the identifiers `new`. -/
def Repeats (flags : WalkFlags) (stack : List Bool) (r : Ref) : Nat → Nat → List Nat → Prop
  | 0, _, new => new = []
  | k+1, id, new => ∃ first rest, Repetition view h walk break_session flags stack r id first ∧
      Repeats flags stack r k ((id+(h.item r).weight)%UINT_MOD) rest ∧ new = first ++ rest
include continuing in
theorem iterLoop_ends (plain : flags.skipRepeat = false)
    (validation : ∀ k, keepalive = some k → Harmless view h walk break_session k)
    (handler : flags.forceException = true → ∀ e, exception = some e → Harmless view h walk break_session e) {k : Nat} :
    ∀ {i cur : Nat} {ids new : List Nat} {s : σ × ScriptCalls} {n : Nat → Nat}, i+k = (h.item r).n_iters →
      Repeats view h walk break_session flags stack r k cur new → At view h stack ids s → (∃ least, ∀ fuel ≥ least, k < n fuel) →
      Ends (fun fuel => iterLoop (view ∘ Prod.fst) break_session walk.recording (itemsWalk view walk break_session fuel) fuel flags r id
        keepalive exception (n fuel) i cur .CONT false) s (Past view h stack (ids ++ new)) := by
  have item (s : σ × ScriptCalls) (ids : List Nat) (here : At view h stack ids s) : itemAt (view ∘ Prod.fst) r s = some (h.item r,s) := by
    rw [← here.1]
    rfl
  induction k with
  | zero =>
    rintro i cur ids new s n count rfl here ⟨least,enough⟩
    refine positive_counter (k := 0) (m := fun n fuel => iterLoop (view ∘ Prod.fst) break_session walk.recording
      (itemsWalk view walk break_session fuel) fuel flags r id keepalive exception n i cur .CONT false) ⟨least,enough⟩ ?_
    simp only [iterLoop]
    refine .bind (.of_some (item s ids here) ?_)
    have last : ¬ i < (h.item r).n_iters := by omega
    simp only [last,false_and,if_false]
    exact .pure ⟨rfl,by rwa [append_nil]⟩
  | succ k ih =>
    rintro i cur ids new s n count ⟨first,rest,repetition,repeats,rfl⟩ here ⟨least,enough⟩
    refine positive_counter (k := k) (m := fun n fuel => iterLoop (view ∘ Prod.fst) break_session walk.recording
      (itemsWalk view walk break_session fuel) fuel flags r id keepalive exception n i cur .CONT false)
      ⟨least,fun fuel large => by have := enough fuel large; omega⟩ ?_
    simp only [iterLoop]
    refine .bind (.of_some (item s ids here) ?_)
    have more : i < (h.item r).n_iters := by omega
    simp only [more,true_and,if_true]
    have starting : Ends (fun _ => callback (walk.recording.iter_start.map fun cb => cb r cur flags i)) s (On view h stack ids) := by
      refine start_ends (o := walk.iter_start) (fun cb => cb r cur flags i) (fun cb is => continuing.iter_start cb is r cur flags i) ?_ here
      exact recorded
    refine .bind (starting.mono fun ctl t post => ?_)
    obtain ⟨rfl,here⟩ := post
    simp only [iterBody,plain,true_and,if_true]
    refine .bind ((repeat_ends continuing plain repetition validation handler here).mono fun res u post => ?_)
    obtain ⟨rfl,here⟩ := post
    have ending : Ends (fun _ => callbackEnd (walk.recording.iter_end.map fun cb => cb r cur flags i) .CONT) u
        (On view h stack (ids ++ first)) := by
      refine end_ends (o := walk.iter_end) (fun cb => cb r cur flags i) (fun cb is => continuing.iter_end cb is r cur flags i) ?_ here
      exact recorded
    refine .bind (ending.mono fun ctl v post => ?_)
    obtain ⟨rfl,here⟩ := post
    simp only [reduceCtorEq,false_and,if_false]
    refine .bind (.of_some (item v _ here) ?_)
    rw [← append_assoc]
    exact ih (by omega) repeats here ⟨least,fun fuel large => by have := enough fuel large; omega⟩
include continuing in
/-- A run item with all its iterations. -/
theorem item_ends (plain : flags.skipRepeat = false)
    (repeats : Repeats view h walk break_session flags (flags.service :: stack) r (h.item r).n_iters id new)
    (validation : ∀ k, keepalive = some k → Harmless view h walk break_session k)
    (handler : flags.forceException = true → ∀ e, exception = some e → Harmless view h walk break_session e)
    (here : At view h stack ids s) :
    Ends (fun fuel => itemsWalk view walk break_session fuel flags r id keepalive exception) s (Past view h stack (ids ++ new)) := by
  refine .of_succ ?_
  simp only [itemsWalk,walk_run_item]
  have started : Returns view .CONT (callback (walk.run_start.map fun cb => cb r id flags)) :=
    .callback fun cb is => continuing.run_start cb is r id flags
  have finished : Returns view .CONT (callback (walk.run_end.map fun cb => cb r id flags)) :=
    .callback fun cb is => continuing.run_end cb is r id flags
  have pushed : At view h (flags.service :: stack) ids (s.1,{s.2 with service := flags.service :: s.2.service}) :=
    ⟨here.1,by rw [here.2]⟩
  refine .bind (.bind (.of_some (a := ()) rfl ((started.lifted pushed).mono fun ctl t post => ?_)))
  obtain ⟨rfl,here⟩ := post
  simp only [if_true,walk_iterate]
  refine .bind ((iterLoop_ends continuing plain validation handler (n := fun fuel => fuel) (Nat.zero_add _) repeats here
    ⟨(h.item r).n_iters+1,fun fuel large => by omega⟩).mono fun res u post => ?_)
  obtain ⟨rfl,here⟩ := post
  have popped : At view h stack (ids ++ new) (u.1,{u.2 with service := u.2.service.tail}) := ⟨here.1,by rw [here.2]; rfl⟩
  refine .bind (.bind (.bind (.of_some (a := ()) rfl ((finished.lifted popped).mono fun ctl v post => ?_))))
  obtain ⟨rfl,here⟩ := post
  exact .pure (.pure ⟨rfl,here⟩)

/-- The loop over run items, of which each records its identifiers from where the one before has ended. -/
def Gathers (view : σ → TesterHeap) (h : TesterHeap) (walk : TesterCfgWalk σ) (break_session : Bool) (flags : WalkFlags)
    (stack : List Bool) : List Ref → Nat → List Nat → Prop
  | [], _, new => new = []
  | r :: rs, id, new => ∃ first rest, Repeats view h walk break_session flags (flags.service :: stack) r (h.item r).n_iters id first ∧
      Gathers view h walk break_session flags stack rs ((id+(h.item r).n_iters*(h.item r).weight)%UINT_MOD) rest ∧ new = first ++ rest
include continuing in
theorem items_end {runs : List Ref} (plain : flags.skipRepeat = false)
    (validation : runs ≠ [] → ∀ k, keepalive = some k → Harmless view h walk break_session k)
    (handler : flags.forceException = true → runs ≠ [] → ∀ e, exception = some e → Harmless view h walk break_session e)
    (gathers : Gathers view h walk break_session flags stack runs id new) :
    ItemsEnd view h walk break_session flags stack runs keepalive exception id new := by
  intro ids s here
  have loop : ∀ (rs : List Ref) (cur : Nat) (new ids : List Nat) (s : σ × ScriptCalls) (n : Nat → Nat), rs ⊆ runs →
      Gathers view h walk break_session flags stack rs cur new → At view h stack ids s → (∃ least, ∀ fuel ≥ least, rs.length < n fuel) →
      Ends (fun fuel => itemsLoop (view ∘ Prod.fst) (itemsWalk view walk break_session fuel) flags id runs keepalive exception (n fuel)
        rs cur .CONT false) s (Past view h stack (ids ++ new)) := by
    intro rs
    induction rs with
    | nil =>
      rintro cur new ids s n _ rfl here enough
      refine positive_counter (m := fun n fuel => itemsLoop (view ∘ Prod.fst) (itemsWalk view walk break_session fuel) flags id runs keepalive
        exception n [] cur .CONT false) enough ?_
      simp only [itemsLoop]
      exact .pure ⟨rfl,by rwa [append_nil]⟩
    | cons r rs ih =>
      rintro cur new ids s n subset ⟨first,rest,repeats,gathers,rfl⟩ here ⟨least,enough⟩
      refine positive_counter (m := fun n fuel => itemsLoop (view ∘ Prod.fst) (itemsWalk view walk break_session fuel) flags id runs keepalive
        exception n (r :: rs) cur .CONT false) ⟨least,enough⟩ ?_
      have some' : runs ≠ [] := List.ne_nil_of_mem (subset mem_cons_self)
      simp only [itemsLoop,ne_eq,not_true_eq_false,if_false]
      refine .bind ((item_ends continuing plain repeats (validation some') (fun forced => handler forced some') here).mono
        fun res t post => ?_)
      obtain ⟨rfl,here⟩ := post
      simp only [reduceCtorEq,false_and,if_false]
      have item : itemAt (view ∘ Prod.fst) r t = some (h.item r,t) := by
        rw [← here.1]
        rfl
      refine .bind (.of_some item ?_)
      rw [← append_assoc]
      refine ih _ rest _ t (fun fuel => n fuel-1) (fun x member => subset (mem_cons_of_mem _ member)) gathers here
        ⟨least,fun fuel large => ?_⟩
      have := enough fuel large
      rw [length_cons] at this
      omega
  exact loop runs id new ids s (fun fuel => fuel) (fun _ member => member) gathers here ⟨runs.length+1,fun fuel large => by omega⟩

include continuing in
theorem harmless_of_repeats (repeats : ∀ stack k id, Repeats view h walk break_session TESTER_CFG_WALK_SERVICE (true :: stack) r k id []) :
    Harmless view h walk break_session r := fun stack ids s id here => by
  have ends : Ends (fun fuel => itemsWalk view walk break_session fuel TESTER_CFG_WALK_SERVICE r id none none) s
      (Past view h stack (ids ++ [])) := item_ends continuing rfl (repeats stack _ id) (by simp) (by simp) here
  rwa [append_nil] at ends
include continuing in
/-- Service run items record nothing, by induction on their trees. -/
theorem served_repeats (served : Served h r) : ∀ stack k id,
    Repeats view h walk break_session TESTER_CFG_WALK_SERVICE (true :: stack) r k id [] := by
  induction served with
  | @intro r children prologue epilogue keepalive ihChildren ihPrologue ihEpilogue ihKeepalive =>
    intro stack k
    induction k with
    | zero => exact fun id => rfl
    | succ k ih =>
      refine fun id => ⟨[],[],⟨fun _ => rfl,fun session ids s here => ?_⟩,ih _,rfl⟩
      have own : h.session r = (h.item r).session := own_session session
      rw [TesterHeap.children,own] at children ihChildren keepalive ihKeepalive
      rw [own] at prologue ihPrologue epilogue ihEpilogue
      refine sessionBody_ends continuing (fun p at' => harmless_of_repeats continuing (ihPrologue p at')) ?_ (fun p at' => harmless_of_repeats continuing (ihEpilogue p at')) here
      refine items_end continuing rfl (fun some' k at' => harmless_of_repeats continuing (ihKeepalive some' k at')) (by simp [TESTER_CFG_WALK_SERVICE]) ?_
      have gathers : ∀ (rs : List Ref) (id : Nat), rs ⊆ (h.item r).session.run_items →
          Gathers view h walk break_session TESTER_CFG_WALK_SERVICE (true :: stack) rs id [] := by
        intro rs
        induction rs with
        | nil => exact fun _ _ => rfl
        | cons c rs ihRest =>
          intro id subset
          exact ⟨[],[],ihChildren c (subset mem_cons_self) _ _ _,ihRest _ fun x member => subset (mem_cons_of_mem _ member),rfl⟩
      exact gathers _ _ fun _ member => member
include continuing in
theorem served_harmless (served : Served h r) : Harmless view h walk break_session r :=
  harmless_of_repeats continuing (served_repeats continuing served)

include continuing in
/-- The run items of a session, which are prepared, record as many identifiers as there are script runs. -/
theorem prepared_gathers {rs all : List Ref} {t : Nat} (prepared : Prepared h rs all t) (outside : flags.service = false)
    (plain : flags.skipRepeat = false) (handled : ∀ r ∈ all, Handled h r) :
    ∀ stack id, id+t ≤ TESTER_MAX_ITERS → Gathers view h walk break_session flags stack rs id (List.range' id t) := by
  have small : TESTER_MAX_ITERS < UINT_MOD := by decide
  induction prepared with
  | nil => exact fun _ _ _ => rfl
  | @cons r rs below rest w t inner outer weight ihInner ihOuter =>
    intro stack id fits
    have own := handled r (by simp)
    have ihInner := ihInner fun x member => handled x (by simp [member])
    have ihOuter := ihOuter fun x member => handled x (by simp [member])
    -- one iteration of the run item, from the identifier where it starts
    have iteration : ∀ cur, cur+(h.item r).weight ≤ TESTER_MAX_ITERS →
        Repetition view h walk break_session flags (false :: stack) r cur (List.range' cur (h.item r).weight) := by
      intro cur fits
      refine ⟨fun script => ?_,fun session ids s here => ?_⟩
      · rw [weight,TesterHeap.weigh,if_pos script]
        rfl
      · have same : h.session r = (h.item r).session := own_session session
        obtain ⟨prologue,epilogue,keepalive,exception⟩ := own
        rw [TesterHeap.weigh,if_neg session] at weight
        rw [weight] at fits ⊢
        rw [TesterHeap.children,same] at keepalive exception ihInner
        rw [same] at prologue epilogue
        refine sessionBody_ends continuing (fun p at' => served_harmless continuing (prologue p at')) ?_
          (fun p at' => served_harmless continuing (epilogue p at')) here
        refine items_end continuing plain (fun some' k at' => served_harmless continuing (keepalive some' k at'))
          (fun _ some' e at' => served_harmless continuing (exception some' e at')) ?_
        exact ihInner _ cur fits
    have iterations : ∀ k cur, cur+k*(h.item r).weight ≤ TESTER_MAX_ITERS →
        Repeats view h walk break_session flags (false :: stack) r k cur (List.range' cur (k*(h.item r).weight)) := by
      intro k
      induction k with
      | zero =>
        intro cur _
        rw [Nat.zero_mul]
        rfl
      | succ k ih =>
        intro cur fits
        rw [Nat.succ_mul] at fits ⊢
        have next : (cur+(h.item r).weight)%UINT_MOD = cur+(h.item r).weight := mod_eq_of_lt (by omega)
        refine ⟨_,List.range' (cur+(h.item r).weight) (k*(h.item r).weight),iteration cur (by omega),?_,?_⟩
        · rw [next]
          exact ih _ (by omega)
        · rw [Nat.add_comm (k*_),List.range'_append_1]
    have next : (id+(h.item r).n_iters*(h.item r).weight)%UINT_MOD = id+(h.item r).n_iters*(h.item r).weight :=
      mod_eq_of_lt (by omega)
    refine ⟨List.range' id ((h.item r).n_iters*(h.item r).weight),List.range' (id+(h.item r).n_iters*(h.item r).weight) t,?_,?_,?_⟩
    · rw [outside]
      exact iterations _ id (by omega)
    · rw [next]
      exact ihOuter stack _ (by omega)
    · rw [List.range'_append_1]

include continuing in
/-- The configurations one after the other. -/
theorem configsLoop_ends {cfgs all : List Ref} {total : Nat} (numbered : Numbered h cfgs all total) (outside : flags.service = false)
    (plain : flags.skipRepeat = false) (handled : ∀ r ∈ all, Handled h r) :
    ∀ {id : Nat} {ids : List Nat} {s : σ × ScriptCalls}, id+total ≤ TESTER_MAX_ITERS → At view h [] ids s →
      Ends (fun fuel => configsLoop (view ∘ Prod.fst) break_session walk.recording fuel flags cfgs id .CONT) s
        (On view h [] (ids ++ List.range' id total)) := by
  have small : TESTER_MAX_ITERS < UINT_MOD := by decide
  induction numbered with
  | nil =>
    intro id ids s _ here
    exact .pure ⟨rfl,by simpa using here⟩
  | @cons c cs own rest t total runs outer total_iters ih =>
    intro id ids s fits here
    simp only [configsLoop,ne_eq,not_true_eq_false,if_false]
    refine .bind ((begins continuing.cfg_start here).mono fun ctl t' post => ?_)
    obtain ⟨rfl,here⟩ := post
    refine .bind (.of_some (a := t') (t := t') rfl ?_)
    simp only [comp_apply,here.1,if_true]
    have gathers : Gathers view h walk break_session flags [] (h.cfg c).runs id (List.range' id t) :=
      prepared_gathers continuing runs outside plain (fun r member => handled r (mem_append_left _ member)) [] id (by omega)
    refine .bind ((items_end continuing plain (by simp) (by simp) gathers ids t' here).mono fun res u post => ?_)
    obtain ⟨rfl,here⟩ := post
    refine .bind (.pure (.bind ((finishes continuing.cfg_end here).mono fun ctl v post => ?_)))
    obtain ⟨rfl,here⟩ := post
    refine .bind (.of_some (a := v) (t := v) rfl ?_)
    have next : (id+(h.cfg c).total_iters)%UINT_MOD = id+t := by rw [total_iters,mod_eq_of_lt (by omega)]
    simp only [here.1,next,reduceCtorEq,if_false]
    rw [← List.range'_append_1,← append_assoc]
    exact ih (fun r member => handled r (mem_append_right _ member)) (by omega) here
end

section
variable {objs : TesterObjects} {depth : Nat} {expand_check : TesterHeap → Ref → Status} {h0 h : TesterHeap}
  {service : Ref → Prop} {known : Ref → Prop} {count : Ref → Nat} {cfgs all : List Ref} {total total_iters total_iters' : Nat}
  {rc : Status}

/-- Where the iterations of all run items can be counted and there are at most `INT_MAX` script
    runs, the preparation numbers them, and a walk in which every callback continues calls the
    scripts with their numbers in order. -/
theorem numbered_from_zero (wf : WellParsed objs depth h0 service known) (trees : ConfigTrees h0 count cfgs all total)
    (distinct : cfgs.Nodup) (nodup : all.Nodup) (plain : ∀ r ∈ all, CountedItem objs depth h0 service known count r)
    (small : total ≤ TESTER_MAX_ITERS) (break_session : Bool) (fuel : Nat)
    (prepared : tester_prepare_configs objs depth expand_check break_session fuel cfgs h0 total_iters = some (rc,h,total_iters')) :
    total_iters' = total ∧ Numbered h cfgs all total ∧
      ∀ (σ : Type) (view : σ → TesterHeap) (walk : TesterCfgWalk σ) (break_session : Bool) (flags : WalkFlags) (s : σ),
        Continuing view walk → flags.service = false → flags.skipRepeat = false → view s = h →
        ∃ t, Settles (fun fuel => tester_configs_walk (view ∘ Prod.fst) break_session walk.recording fuel cfgs flags (s,⟨[],[]⟩))
          (some (.CONT,(t,⟨[],List.range total_iters'⟩))) := by
  obtain ⟨rfl,numbered,handled⟩ := prepare_configs_numbered wf break_session fuel trees distinct nodup plain small prepared
  refine ⟨rfl,numbered,fun σ view walk break_session flags s continuing outside plain config => ?_⟩
  have ends : Ends (fun fuel => tester_configs_walk (view ∘ Prod.fst) break_session walk.recording fuel cfgs flags) (s,⟨[],[]⟩)
      (On view h [] ([] ++ List.range' 0 total_iters')) :=
    configsLoop_ends continuing numbered outside plain handled (by omega) ⟨config,rfl⟩
  obtain ⟨ctl,⟨t,calls⟩,settles,is,_,record⟩ := ends
  cases is
  cases record
  rw [List.range_eq_range']
  exact ⟨t,settles⟩
end

section
/-- Arguments have the two values `0` and `1`. -/
def doubledObjects : TesterObjects where
  value v := ⟨none,none,some [if v = 0 then '0' else '1'],none,none,false⟩
  type _ := ⟨⟨[],0⟩,none⟩
  session _ := ⟨none,[]⟩
/-- The session at address 0 of the scripts 1 and 2, of which the second has so many arguments. -/
def sessionOfTwo (prologue epilogue : Option Ref) (doubled : Nat) : TesterHeap where
  item r := {
    type := if r = 0 then .session else .script
    session := if r = 0 then ⟨[1,2],none,none,prologue,epilogue⟩ else ⟨[],none,none,none,none⟩
    args := ⟨none,if r = 2 then replicate doubled ⟨"a".toList,none,⟨[0,1],2⟩,none,none,true⟩ else [],[],0,0⟩
    weight := 0
    handdown := .NONE }
  cfg _ := ⟨[0],0⟩
/-- No callbacks. -/
def silentWalk : TesterCfgWalk Unit := {}
theorem silent_continuing {view : Unit → TesterHeap} : Continuing view silentWalk := by constructor <;> nofun

variable {a : RunItem}

theorem argless_counted (context : a.context = none) (args : a.args = []) :
    prepare_calc_iters doubledObjects 1 a = some (none,{a with n_args := 0,n_iters := 1}) := by
  obtain ⟨_,_,lists,n_args,n_iters⟩ := a
  cases context
  cases args
  rfl
section
/-- The session of two scripts with a prologue. -/
def pairHeap : TesterHeap := sessionOfTwo (some 3) none 0
theorem pair_args (r : Ref) : (pairHeap.item r).args = ⟨none,[],[],0,0⟩ := by simp [pairHeap,sessionOfTwo]
theorem pair_recounted {r : Ref} (again : Recounted doubledObjects 1 (pairHeap.item r).args a) :
    a.context = none ∧ a.args = [] := by
  induction again with
  | start =>
    rw [pair_args]
    exact ⟨rfl,rfl⟩
  | again _ once ih =>
    rw [argless_counted ih.1 ih.2] at once
    cases once
    exact ih
theorem pair_session (r : Ref) : pairHeap.session r = if r = 0 then ⟨[1,2],none,none,some 3,none⟩ else ⟨[],none,none,none,none⟩ := by
  by_cases zero : r = 0
  · subst zero
    rfl
  · simp [TesterHeap.session,pairHeap,sessionOfTwo,ConfigItem.own,zero]
theorem pair_parsed : WellParsed doubledObjects 1 pairHeap (· = 3) (fun _ => True) where
  isKnown _ _ := trivial
  prologue r _ p at' := by
    rw [pair_session] at at'
    split at at' <;> simp_all
  epilogue r _ p at' := by
    rw [pair_session] at at'
    split at at' <;> cases at'
  keepalive r _ p at' := by
    rw [pair_session] at at'
    split at at' <;> cases at'
  exception r _ p at' := by
    rw [pair_session] at at'
    split at at' <;> cases at'
  children r is c member := by
    subst is
    cases member
  countable r _ a again rc a' counted := by
    obtain ⟨context,args⟩ := pair_recounted again
    rw [argless_counted context args] at counted
    cases counted
    rfl
theorem pair_trees : ConfigTrees pairHeap (fun _ => 1) [0] [0,1,2] 2 := by
  have two : RunTree pairHeap (fun _ => 1) [2] [2] 1 := @RunTree.cons _ _ 2 [] [] [] 0 0 .nil .nil
  have both : RunTree pairHeap (fun _ => 1) [1,2] [1,2] 2 := @RunTree.cons _ _ 1 [2] [] [2] 0 1 .nil two
  have whole : RunTree pairHeap (fun _ => 1) [0] [0,1,2] 2 := @RunTree.cons _ _ 0 [] [1,2] [] 2 0 both .nil
  exact @ConfigTrees.cons _ _ 0 [] [0,1,2] [] 2 0 whole .nil
theorem numbered_from_zero_pair : ∃ h, tester_prepare_configs doubledObjects 1 (fun _ _ => none) false 6 [0] pairHeap 0 = some (none,h,2) ∧
    ∃ t, Settles (fun fuel => tester_configs_walk ((fun _ : Unit => h) ∘ Prod.fst) false silentWalk.recording fuel [0]
      ⟨false,false,false,false⟩ ((),⟨[],[]⟩)) (some (.CONT,(t,⟨[],[0,1]⟩))) := by
  have finished : (tester_prepare_configs doubledObjects 1 (fun _ _ => none) false 6 [0] pairHeap 0).map (fun r => (r.1,r.2.2)) =
      some (none,2) := by decide +kernel
  obtain ⟨⟨rc,h,total⟩,prepared,is⟩ := of_map finished
  obtain ⟨rfl,rfl⟩ := Prod.mk.inj is
  have plain : ∀ r ∈ [0,1,2], CountedItem doubledObjects 1 pairHeap (· = 3) (fun _ => True) (fun _ => 1) r := by
    intro r member
    refine ⟨trivial,by rintro rfl; simp at member,fun rc a counted => ?_⟩
    rw [argless_counted (by rw [pair_args]) (by rw [pair_args])] at counted
    cases counted
    exact ⟨rfl,rfl⟩
  obtain ⟨_,_,walked⟩ := numbered_from_zero pair_parsed pair_trees (by decide) (by decide) plain (by decide) false 6 prepared
  exact ⟨h,prepared,walked Unit (fun _ => h) silentWalk false ⟨false,false,false,false⟩ () silent_continuing rfl rfl rfl⟩
end

/-- The iterations of the second script are too many, but the epilogue is prepared after it: the
    status is 0, no script run is counted, and a walk calls the first script. -/
theorem failure_forgotten :
    ((tester_prepare_configs doubledObjects 1 (fun _ _ => none) false 6 [0] (sessionOfTwo none (some 3) 31) 0).bind fun r =>
      (tester_configs_walk ((fun _ : Unit => r.2.1) ∘ Prod.fst) false silentWalk.recording 8 [0] ⟨false,false,false,false⟩
        ((),⟨[],[]⟩)).map fun out => (r.1,r.2.2,out.1,out.2.2.ids)) = some (none,0,.CONT,[0]) := by decide +kernel
end

end TestEnvironment.Tester
