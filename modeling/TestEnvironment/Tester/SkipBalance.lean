import TestEnvironment.Tester.Lifts

/-!
How often a walk calls `skip_start` and `skip_end`. A prologue that fails and a package
that cannot start are skipped by a pair of calls. A failure of the keep-alive validation
calls `skip_start` every time, but a session calls `skip_end` for all failures among its
run items once: the calls are balanced exactly where no session sees a second failure
(`skips_balanced_iff`). The failures are noted by a copy of the walk that calls nothing
for them (`Noted`).
-/
namespace TestEnvironment.Tester
open Lib

/-- How many times the walk has called `skip_start` and `skip_end`. -/
structure SkipCalls where
  starts : Nat
  ends : Nat
  deriving DecidableEq, Repr
/-- The failures of keep-alive validation among the run items of the session being walked,
    and those of each session that has been walked. -/
structure KeepaliveFailures where
  own : Nat
  sessions : List Nat
  deriving DecidableEq, Repr

section
variable {σ : Type}

/-- The callbacks with their calls of `skip_start` and `skip_end` counted. -/
def TesterCfgWalk.counted (walk : TesterCfgWalk σ) : TesterCfgWalk (σ × SkipCalls) :=
  walk.lifted (fun c => {c with starts := c.starts+1}) (fun c => {c with ends := c.ends+1})
/-- The callbacks beside the noted failures. -/
def TesterCfgWalk.noted (walk : TesterCfgWalk σ) : TesterCfgWalk (σ × KeepaliveFailures) := walk.lifted id id
end

/-! ### The walk that notes failures -/
namespace Noted
variable {σ : Type}

/-- The failures among the run items of a session, which the session adds to its list. -/
def inSession {α : Type} (items : StateT (σ × KeepaliveFailures) Option α) : StateT (σ × KeepaliveFailures) Option α := fun s =>
  (items (s.1,{s.2 with own := 0})).map fun r => (r.1,(r.2.1,⟨s.2.own,r.2.2.own :: r.2.2.sessions⟩))
def failure (failed : Bool) : StateT (σ × KeepaliveFailures) Option Unit :=
  note fun f => if failed then {f with own := f.own+1} else f

variable (view : σ → TesterHeap) (break_session : Bool) (walk : TesterCfgWalk σ)
  (walk_run_item : ItemWalk (σ × KeepaliveFailures))

def sessionBody (fuel : Nat) (flags : WalkFlags) (ri : Ref) (id_off : Nat) : StateT (σ × KeepaliveFailures) Option WalkCtl := do
  let item ← itemAt (view ∘ Prod.fst) ri
  let ctl ← serviceOf walk_run_item id_off item.session.prologue walk.noted.prologue_start walk.noted.prologue_end .CONT
  let skip_items := decide (ctl ≠ .CONT)
  skipCall (skip_items && walk.noted.haveSkip) walk.noted.skip_start
  let item ← itemAt (view ∘ Prod.fst) ri
  let (ctl,keepalive_failed) ← inSession <|
    if skip_items = false ∨ walk.noted.haveSkip then
      walk_run_items (view ∘ Prod.fst) walk_run_item fuel flags id_off item.session.run_items item.session.keepalive
        item.session.exception
    else pure (ctl,false)
  skipCall (skip_items && walk.noted.haveSkip) walk.noted.skip_end
  skipCall (keepalive_failed && walk.noted.haveSkip) walk.noted.skip_end
  let item ← itemAt (view ∘ Prod.fst) ri
  match item.session.epilogue with
  | some epilogue =>
    if break_session = false ∨ ctl ≠ .STOP then
      let ctl_tmp ← walk_service walk_run_item id_off epilogue walk.noted.epilogue_start walk.noted.epilogue_end
      return walk_ctl_merge ctl ctl_tmp
    else return ctl
  | none => return ctl
def walk_test_session (fuel : Nat) (flags : WalkFlags) (ri : Ref) (id_off : Nat) : StateT (σ × KeepaliveFailures) Option WalkCtl := do
  let ctl ← callback (walk.noted.session_start.map fun cb => cb ri id_off)
  let ctl ← if ctl = .CONT then sessionBody view break_session walk walk_run_item fuel flags ri id_off else pure ctl
  callbackEnd (walk.noted.session_end.map fun cb => cb ri id_off) ctl
def walk_test_package (fuel : Nat) (flags : WalkFlags) (ri : Ref) (id_off : Nat) : StateT (σ × KeepaliveFailures) Option WalkCtl := do
  let ctl ← callback (walk.noted.pkg_start.map fun cb => cb ri id_off)
  let skip_items := decide (ctl ≠ .CONT)
  skipCall (skip_items && walk.noted.haveSkip) walk.noted.skip_start
  let ctl ←
    if skip_items = false ∨ walk.noted.haveSkip then walk_test_session view break_session walk walk_run_item fuel flags ri id_off
    else pure ctl
  skipCall (skip_items && walk.noted.haveSkip) walk.noted.skip_end
  callbackEnd (walk.noted.pkg_end.map fun cb => cb ri id_off) ctl

def repeatBody (fuel : Nat) (flags : WalkFlags) (run : Ref) (id_off : Nat) (ctl : WalkCtl) :
    StateT (σ × KeepaliveFailures) Option WalkCtl :=
  if ctl ≠ .CONT then pure ctl
  else do
    let item ← itemAt (view ∘ Prod.fst) run
    match item.type with
    | .script => if flags.skipRepeat then pure ctl else callback (walk.noted.script.map fun cb => cb run id_off)
    | .session => walk_test_session view break_session walk walk_run_item fuel flags run id_off
    | .package =>
      if flags.skipRepeat then pure ctl else walk_test_package view break_session walk walk_run_item fuel flags run id_off
/-- The loop of `walk_repeat`, which notes every failure that makes it call `skip_start`. -/
def repeatLoop (fuel : Nat) (flags : WalkFlags) (run : Ref) (id_off : Nat) (keepalive exception : Option Ref) :
    Nat → Bool → StateT (σ × KeepaliveFailures) Option (WalkCtl × Bool)
  | 0, _ => Alternative.failure
  | n+1, ka_failed => do
    let ctl ← serviceOf walk_run_item id_off keepalive walk.noted.keepalive_start walk.noted.keepalive_end .CONT
    if ctl ≠ .CONT ∧ walk.noted.haveSkip = false then return (if ctl = .BREAK then .CONT else ctl,ka_failed)
    else
      let failed := decide (ctl ≠ .CONT)
      failure failed
      skipCall failed walk.noted.skip_start
      let ctl ← callback (walk.noted.repeat_start.map fun cb => cb run id_off flags)
      let ctl ← repeatBody view break_session walk walk_run_item fuel flags run id_off ctl
      let ctl ← repeatRest walk.noted walk_run_item flags run id_off exception ctl
      if ctl = .CONT then repeatLoop fuel flags run id_off keepalive exception n (ka_failed || failed)
      else return (if ctl = .BREAK then .CONT else ctl,ka_failed || failed)
def walk_repeat (fuel : Nat) (flags : WalkFlags) (run : Ref) (id_off : Nat) (keepalive exception : Option Ref) :
    StateT (σ × KeepaliveFailures) Option (WalkCtl × Bool) :=
  repeatLoop view break_session walk walk_run_item fuel flags run id_off keepalive exception fuel false

def iterBody (fuel : Nat) (flags : WalkFlags) (run : Ref) (id_off : Nat) (keepalive exception : Option Ref) (ctl : WalkCtl) :
    StateT (σ × KeepaliveFailures) Option (WalkCtl × Bool) :=
  if ctl = .CONT ∧ flags.skipRepeat = false then
    walk_repeat view break_session walk walk_run_item fuel flags run id_off keepalive exception
  else if ctl = .EARGS ∨ flags.skipRepeat = true then
    walk_repeat view break_session walk walk_run_item fuel {flags with skipRepeat := true} run id_off none none
  else if ctl = .SKIP then pure (.CONT,false)
  else pure (ctl,false)
def iterLoop (fuel : Nat) (flags : WalkFlags) (run : Ref) (id_off : Nat) (keepalive exception : Option Ref) :
    Nat → Nat → Nat → WalkCtl → Bool → StateT (σ × KeepaliveFailures) Option (WalkCtl × Bool)
  | 0, _, _, _, _ => Alternative.failure
  | n+1, i, curr_id_off, ctl, ka_failed => do
    let item ← itemAt (view ∘ Prod.fst) run
    if i < item.n_iters ∧ ctl = .CONT then
      let ctl ← callback (walk.noted.iter_start.map fun cb => cb run curr_id_off flags i)
      let (ctl,failed) ← iterBody view break_session walk walk_run_item fuel flags run curr_id_off keepalive exception ctl
      let ka_failed := ka_failed || failed
      let ctl ← callbackEnd (walk.noted.iter_end.map fun cb => cb run curr_id_off flags i) ctl
      if ctl = .BACK ∧ curr_id_off ≠ id_off then
        iterLoop fuel flags run id_off keepalive exception n 0 id_off .CONT ka_failed
      else
        let item ← itemAt (view ∘ Prod.fst) run
        iterLoop fuel flags run id_off keepalive exception n (i+1) ((curr_id_off+item.weight)%UINT_MOD) ctl ka_failed
    else return (if ctl = .BREAK then .CONT else ctl,ka_failed)
def walk_iterate (fuel : Nat) (flags : WalkFlags) (run : Ref) (id_off : Nat) (keepalive exception : Option Ref) :
    StateT (σ × KeepaliveFailures) Option (WalkCtl × Bool) :=
  iterLoop view break_session walk walk_run_item fuel flags run id_off keepalive exception fuel 0 id_off .CONT false
end Noted
/-- `walk_run_item` with the failures noted. -/
def Noted.run_item {σ : Type} (view : σ → TesterHeap) (break_session : Bool) (walk : TesterCfgWalk σ) :
    Nat → ItemWalk (σ × KeepaliveFailures)
  | 0 => fun _ _ _ _ _ => Alternative.failure
  | fuel+1 => fun flags run id_off keepalive exception => do
    let ctl ← callback (walk.noted.run_start.map fun cb => cb run id_off flags)
    let (ctl,ka_failed) ←
      if ctl = .CONT then
        Noted.walk_iterate view break_session walk (run_item view break_session walk fuel) fuel flags run id_off keepalive exception
      else pure (ctl,false)
    let ctl ← callbackEnd (walk.noted.run_end.map fun cb => cb run id_off flags) ctl
    return (ctl,ka_failed)

/-! ### The calls and the failures -/

/-- The failures that repeat an earlier one of their session. -/
def repeated (sessions : List Nat) : Nat := (sessions.map (· - 1)).sum
theorem repeated_zero {sessions : List Nat} : repeated sessions = 0 ↔ ∀ k ∈ sessions, k ≤ 1 := by
  simp [List.sum_eq_zero_iff_forall_eq_nat,Nat.sub_eq_zero_iff_le,repeated]
/-- The open calls of `skip_start` that are not due to failures. -/
def openCalls (c : SkipCalls) (f : KeepaliveFailures) : Int := c.starts-c.ends-f.own-repeated f.sessions

variable {ctl : WalkCtl}

section
variable {σ α β : Type}

/-- Every result of the counted walk is one of the noting walk, which notes some failures in
    the current session and changes the open calls by some number. -/
def Tracks (m : StateT (σ × SkipCalls) Option α) (g : StateT (σ × KeepaliveFailures) Option α)
    (Q : Nat → Int → α → Prop) : Prop :=
  ∀ s c f a t c', m (s,c) = some (a,(t,c')) → ∃ f' k n, g (s,f) = some (a,(t,f')) ∧ f'.own = f.own+k ∧
    openCalls c' f' = openCalls c f+n ∧ Q k n a
/-- Nothing is left open. -/
def NothingOpen (k : Nat) (n : Int) (_ : α) : Prop := k = 0 ∧ n = 0
/-- What run items do: failures are reported beside an earlier one, need both callbacks and a handler. -/
structure Reported (have_skip : Bool) (keepalive : Option Ref) (before : Bool) (k : Nat) (n : Int) (r : WalkCtl × Bool) : Prop where
  closed : n = 0
  failed : r.2 = true ↔ before = true ∨ 0 < k
  both : 0 < k → have_skip = true
  handler : keepalive = none → k = 0

theorem Reported.none (have_skip : Bool) (keepalive : Option Ref) (ctl : WalkCtl) (before : Bool) :
    Reported have_skip keepalive before 0 0 (ctl,before) := ⟨rfl,by simp,nofun,fun _ => rfl⟩
/-- A report after which the run items go on. -/
theorem Reported.trans {have_skip before failed : Bool} {keepalive : Option Ref} {k j : Nat} {n i : Int} {r : WalkCtl × Bool}
    (first : Reported have_skip keepalive false k n (ctl,failed)) (second : Reported have_skip keepalive (before || failed) j i r) :
    Reported have_skip keepalive before (k+j) (n+i) r where
  closed := by rw [first.closed,second.closed,add_zero]
  failed := by simp [first.failed,second.failed,or_assoc]
  both some' := (Nat.add_pos_iff_pos_or_pos.mp some').elim first.both second.both
  handler none := by rw [first.handler none,second.handler none]

namespace Tracks
variable {m : StateT (σ × SkipCalls) Option α} {g : StateT (σ × KeepaliveFailures) Option α} {P Q : Nat → Int → α → Prop}

theorem pure {a : α} (holds : Q 0 0 a) : Tracks (σ := σ) (Pure.pure a) (Pure.pure a) Q := by
  rintro s c f _ _ _ ⟨⟩
  exact ⟨f,0,0,rfl,rfl,(add_zero _).symm,holds⟩
theorem failure : Tracks (σ := σ) (Alternative.failure : StateT _ Option α) Alternative.failure Q := by rintro s c f _ _ _ ⟨⟩
variable {R : Nat → Int → β → Prop} {g' : α → StateT (σ × KeepaliveFailures) Option β}
variable {m' : α → StateT (σ × SkipCalls) Option β} {γ δ ε : Type}

theorem bind (first : Tracks m g P)
    (second : ∀ a k n, P k n a → Tracks (m' a) (g' a) fun j i => R (k+j) (n+i)) : Tracks (m >>= m') (g >>= g') R := by
  intro s c f b u c₂ got
  obtain ⟨⟨a,t,c₁⟩,one,two⟩ := of_bind got
  obtain ⟨f₁,k,n,here,own,offset,holds⟩ := first s c f a t c₁ one
  obtain ⟨f₂,j,i,there,own',offset',holds'⟩ := second a k n holds t c₁ f₁ b u c₂ two
  refine ⟨f₂,k+j,n+i,?_,by omega,by omega,holds'⟩
  exact bind_eq_some_iff.mpr ⟨_,here,there⟩
theorem mono (tracks : Tracks m g P) (weaker : ∀ k n a, P k n a → Q k n a) : Tracks m g Q := by
  intro s c f a t c' got
  obtain ⟨f',k,n,same,own,offset,holds⟩ := tracks s c f a t c' got
  exact ⟨f',k,n,same,own,offset,weaker k n a holds⟩

/-- A step that closes what it opens may come first. -/
theorem closed_bind (first : Tracks m g NothingOpen) (second : ∀ a, Tracks (m' a) (g' a) R) :
    Tracks (m >>= m') (g >>= g') R := by
  refine first.bind ?_
  rintro a _ _ ⟨rfl,rfl⟩
  exact (second a).mono fun k n b holds => by rwa [Nat.zero_add,Int.zero_add]
theorem lifted (cb : StateT σ Option α) : Tracks (Tester.lifted cb) (Tester.lifted cb) NothingOpen := by
  intro s c f a t c' got
  obtain ⟨⟨_,_⟩,ran,same⟩ := of_map got
  cases same
  exact ⟨f,0,0,map_eq_some_iff.mpr ⟨_,ran,rfl⟩,rfl,(add_zero _).symm,rfl,rfl⟩
theorem itemAt (view : σ → TesterHeap) (ri : Ref) :
    Tracks (Tester.itemAt (view ∘ Prod.fst) ri) (Tester.itemAt (view ∘ Prod.fst) ri) NothingOpen := by
  rintro s c f _ _ _ ⟨⟩
  exact ⟨f,0,0,rfl,rfl,(add_zero _).symm,rfl,rfl⟩
variable {cbs : Option γ} {one : γ → δ} {two : γ → ε} {call₁ : δ → StateT (σ × SkipCalls) Option WalkCtl}
variable {call₂ : ε → StateT (σ × KeepaliveFailures) Option WalkCtl}

/-- A callback, which may be missing, as both walks call it. -/
theorem callback (call : γ → StateT σ Option WalkCtl)
    (same₁ : ∀ cb, call₁ (one cb) = Tester.lifted (call cb)) (same₂ : ∀ cb, call₂ (two cb) = Tester.lifted (call cb)) :
    Tracks (Tester.callback ((cbs.map one).map call₁)) (Tester.callback ((cbs.map two).map call₂)) NothingOpen := by
  cases cbs with
  | none => exact .pure ⟨rfl,rfl⟩
  | some cb => grind [lifted,Tester.callback]
theorem callbackEnd (call : γ → StateT σ Option WalkCtl)
    (same₁ : ∀ cb, call₁ (one cb) = Tester.lifted (call cb)) (same₂ : ∀ cb, call₂ (two cb) = Tester.lifted (call cb)) :
    Tracks (Tester.callbackEnd ((cbs.map one).map call₁) ctl) (Tester.callbackEnd ((cbs.map two).map call₂) ctl) NothingOpen := by
  cases cbs with
  | none => exact .pure ⟨rfl,rfl⟩
  | some cb =>
    simp only [map_some,Tester.callbackEnd,same₁,same₂]
    exact .closed_bind (.lifted (call cb)) fun _ => .pure ⟨rfl,rfl⟩
/-- A callback that changes the number of open calls. -/
theorem noting (cb : StateT σ Option Unit) {change : SkipCalls → SkipCalls} {Q : Nat → Int → Unit → Prop} {d : Int} (holds : Q 0 d ())
    (moves : ∀ c f, openCalls (change c) f = openCalls c f+d) : Tracks (Tester.noting change cb) (Tester.noting id cb) Q := by
  intro s c f a t c' got
  obtain ⟨⟨_,_⟩,ran,same⟩ := of_map got
  cases same
  exact ⟨f,0,d,map_eq_some_iff.mpr ⟨_,ran,rfl⟩,rfl,moves c f,holds⟩
/-- A noted failure explains an open call. -/
theorem failed {failed : Bool} (tracks : Tracks m g fun k n a => Q (failed.toNat+k) (n-failed.toInt) a) :
    Tracks m (Noted.failure failed >>= fun _ => g) Q := by
  intro s c f a t c' got
  cases failed with
  | false =>
    obtain ⟨f',k,n,same,own,offset,holds⟩ := tracks s c f a t c' got
    exact ⟨f',k,n,same,own,offset,by simpa using holds⟩
  | true =>
    obtain ⟨f',k,n,same,own,offset,holds⟩ := tracks s c {f with own := f.own+1} a t c' got
    refine ⟨f',1+k,n-1,same,?_,?_,holds⟩
    · simp only at own
      omega
    · simp only [openCalls] at offset ⊢
      omega
/-- The run items of a session leave a call open if any of their validations failed. -/
theorem inSession {have_skip : Bool} {keepalive : Option Ref} {items : StateT (σ × SkipCalls) Option (WalkCtl × Bool)}
    {noted : StateT (σ × KeepaliveFailures) Option (WalkCtl × Bool)}
    (tracks : Tracks items noted (Reported have_skip keepalive false)) :
    Tracks items (Noted.inSession noted) fun k n r => k = 0 ∧ n = (r.2 && have_skip).toInt := by
  intro s c f a t c' got
  obtain ⟨f',k,n,same,own,offset,report⟩ := tracks s c {f with own := 0} a t c' got
  refine ⟨_,0,(a.2 && have_skip).toInt,map_eq_some_iff.mpr ⟨_,same,rfl⟩,rfl,?_,rfl,rfl⟩
  have closed := report.closed
  have failed := report.failed
  simp only [openCalls,repeated,map_cons,sum_cons] at offset ⊢
  cases is : a.2 with
  | false => grind
  | true =>
    have some' : 0 < k := by simpa [is] using failed
    simp only [report.both some',Bool.and_self,Bool.toInt_true]
    omega
end Tracks

variable (walk : TesterCfgWalk σ)

theorem haveSkip_counted : walk.counted.haveSkip = walk.haveSkip := by
  simp [TesterCfgWalk.haveSkip,TesterCfgWalk.counted,TesterCfgWalk.lifted]
theorem haveSkip_noted : walk.noted.haveSkip = walk.haveSkip := by
  simp [TesterCfgWalk.haveSkip,TesterCfgWalk.noted,TesterCfgWalk.lifted]
variable {cond : Bool}

theorem skip_start_tracks (both : cond = true → walk.haveSkip = true) :
    Tracks (skipCall cond walk.counted.skip_start) (skipCall cond walk.noted.skip_start) fun k n _ => k = 0 ∧ n = cond.toInt := by
  cases cond with
  | false => exact .pure ⟨rfl,rfl⟩
  | true =>
    obtain ⟨cb,is⟩ := isSome_iff_exists.mp (Bool.and_eq_true_iff.mp (both rfl)).1
    simp only [skipCall,TesterCfgWalk.counted,TesterCfgWalk.noted,TesterCfgWalk.lifted,is,map_some,getD_some,if_true]
    exact .noting cb (d := 1) ⟨rfl,rfl⟩ fun c f => by simp only [openCalls]; omega
theorem skip_end_tracks (both : cond = true → walk.haveSkip = true) :
    Tracks (skipCall cond walk.counted.skip_end) (skipCall cond walk.noted.skip_end) fun k n _ => k = 0 ∧ n = -cond.toInt := by
  cases cond with
  | false => exact .pure ⟨rfl,rfl⟩
  | true =>
    obtain ⟨cb,is⟩ := isSome_iff_exists.mp (Bool.and_eq_true_iff.mp (both rfl)).2
    simp only [skipCall,TesterCfgWalk.counted,TesterCfgWalk.noted,TesterCfgWalk.lifted,is,map_some,getD_some,if_true]
    exact .noting cb (d := -1) ⟨rfl,rfl⟩ fun c f => by simp only [openCalls]; omega

section
variable {walk} {view : σ → TesterHeap} {break_session : Bool} {item₁ : ItemWalk (σ × SkipCalls)}
  {item₂ : ItemWalk (σ × KeepaliveFailures)}
  (items : ∀ flags ri id_off keepalive exception, Tracks (item₁ flags ri id_off keepalive exception)
    (item₂ flags ri id_off keepalive exception) (Reported walk.haveSkip keepalive false))
include items

variable {start_cb end_cb : Option (Ref → Nat → StateT σ Option WalkCtl)}

/-- A service run item has no handlers. -/
theorem service_tracks (id_off : Nat) (run : Ref) :
    Tracks (walk_service item₁ id_off run (start_cb.map fun cb ri id_off => lifted (cb ri id_off)) (end_cb.map fun cb ri id_off => lifted (cb ri id_off)))
      (walk_service item₂ id_off run (start_cb.map fun cb ri id_off => lifted (cb ri id_off)) (end_cb.map fun cb ri id_off => lifted (cb ri id_off)))
      NothingOpen := by
  rw [walk_service,walk_service]
  refine .closed_bind (.callback (fun cb => cb run id_off) (fun _ => rfl) fun _ => rfl) fun ctl => ?_
  dsimp only
  split
  · refine .closed_bind ((items _ run id_off none none).mono fun k n r report => ⟨report.handler rfl,report.closed⟩) fun r => ?_
    refine .closed_bind (.pure ⟨rfl,rfl⟩) fun ctl => ?_
    refine .callbackEnd (fun cb => cb run id_off) ?_ ?_ <;> exact fun _ => rfl
  · refine .closed_bind (.pure ⟨rfl,rfl⟩) fun ctl => ?_
    refine .callbackEnd (fun cb => cb run id_off) ?_ ?_ <;> exact fun _ => rfl
theorem serviceOf_tracks (id_off : Nat) (run : Option Ref) (ctl : WalkCtl) :
    Tracks (serviceOf item₁ id_off run (start_cb.map fun cb ri id_off => lifted (cb ri id_off)) (end_cb.map fun cb ri id_off => lifted (cb ri id_off)) ctl)
      (serviceOf item₂ id_off run (start_cb.map fun cb ri id_off => lifted (cb ri id_off)) (end_cb.map fun cb ri id_off => lifted (cb ri id_off)) ctl)
      fun k n a => NothingOpen k n a ∧ (run = none → a = ctl) := by
  cases run with
  | none => exact .pure ⟨⟨rfl,rfl⟩,fun _ => rfl⟩
  | some run => exact (service_tracks items id_off run).mono fun k n a closed => ⟨closed,nofun⟩

theorem itemsLoop_tracks (flags : WalkFlags) (id_off : Nat) (runs : List Ref) (keepalive exception : Option Ref) :
    ∀ fuel rest curr_id_off ctl before,
      Tracks (itemsLoop (view ∘ Prod.fst) item₁ flags id_off runs keepalive exception fuel rest curr_id_off ctl before)
        (itemsLoop (view ∘ Prod.fst) item₂ flags id_off runs keepalive exception fuel rest curr_id_off ctl before)
        (Reported walk.haveSkip keepalive before) := by
  intro fuel
  induction fuel with
  | zero => exact fun _ _ _ _ => .failure
  | succ fuel ih =>
    intro rest curr_id_off ctl before
    cases rest with
    | nil => exact .pure (.none ..)
    | cons ri rest =>
      simp only [itemsLoop]
      split
      · exact .pure (.none ..)
      · refine .bind (items flags ri curr_id_off keepalive exception) fun r k n report => ?_
        split
        · exact Tracks.mono (ih _ _ _ _) fun j i a later => report.trans later
        · refine .closed_bind (.itemAt view ri) fun item => ?_
          exact Tracks.mono (ih _ _ _ _) fun j i a later => report.trans later
theorem walk_run_items_tracks (fuel : Nat) (flags : WalkFlags) (id_off : Nat) (runs : List Ref) (keepalive exception : Option Ref) :
    Tracks (walk_run_items (view ∘ Prod.fst) item₁ fuel flags id_off runs keepalive exception)
      (walk_run_items (view ∘ Prod.fst) item₂ fuel flags id_off runs keepalive exception) (Reported walk.haveSkip keepalive false) :=
  itemsLoop_tracks items flags id_off runs keepalive exception fuel runs id_off .CONT false
/-- A session after its run items. -/
theorem sessionEnd_tracks (skip_items failed : Bool) (ri : Ref) (id_off : Nat) (ctl : WalkCtl) :
    Tracks (do
        skipCall (skip_items && walk.haveSkip) walk.counted.skip_end
        skipCall (failed && walk.haveSkip) walk.counted.skip_end
        let item ← itemAt (view ∘ Prod.fst) ri
        match item.session.epilogue with
        | some epilogue =>
          if break_session = false ∨ ctl ≠ .STOP then
            let ctl_tmp ← walk_service item₁ id_off epilogue walk.counted.epilogue_start walk.counted.epilogue_end
            return walk_ctl_merge ctl ctl_tmp
          else return ctl
        | none => return ctl)
      (do
        skipCall (skip_items && walk.haveSkip) walk.noted.skip_end
        skipCall (failed && walk.haveSkip) walk.noted.skip_end
        let item ← itemAt (view ∘ Prod.fst) ri
        match item.session.epilogue with
        | some epilogue =>
          if break_session = false ∨ ctl ≠ .STOP then
            let ctl_tmp ← walk_service item₂ id_off epilogue walk.noted.epilogue_start walk.noted.epilogue_end
            return walk_ctl_merge ctl ctl_tmp
          else return ctl
        | none => return ctl)
      fun k n _ => k = 0 ∧ n = -(skip_items && walk.haveSkip).toInt-(failed && walk.haveSkip).toInt := by
  refine .bind (skip_end_tracks walk (by simp)) ?_
  rintro _ _ _ ⟨rfl,rfl⟩
  refine .bind (skip_end_tracks walk (by simp)) ?_
  rintro _ _ _ ⟨rfl,rfl⟩
  refine Tracks.mono (P := NothingOpen) (.closed_bind (.itemAt view ri) fun item => ?_) ?_
  · split
    · split
      · exact .closed_bind (service_tracks items id_off _) fun ctl => .pure ⟨rfl,rfl⟩
      · exact .pure ⟨rfl,rfl⟩
    · exact .pure ⟨rfl,rfl⟩
  · rintro k n a ⟨rfl,rfl⟩
    exact ⟨rfl,by omega⟩

section
variable (fuel : Nat) (flags : WalkFlags)
include fuel flags
theorem sessionBody_tracks (ri : Ref) (id_off : Nat) :
    Tracks (sessionBody (view ∘ Prod.fst) break_session walk.counted item₁ fuel flags ri id_off)
      (Noted.sessionBody view break_session walk item₂ fuel flags ri id_off) NothingOpen := by
  rw [sessionBody,Noted.sessionBody]
  simp only [haveSkip_counted,haveSkip_noted]
  refine .closed_bind (.itemAt view ri) fun item => .closed_bind
    ((serviceOf_tracks items id_off _ .CONT).mono fun k n a post => post.1) fun ctl => ?_
  refine .bind (skip_start_tracks walk (by simp)) ?_
  rintro _ _ _ ⟨rfl,rfl⟩
  refine .closed_bind (.itemAt view ri) fun item => ?_
  split
  · refine .bind (.inSession (walk_run_items_tracks items fuel flags id_off _ _ _)) ?_
    rintro ⟨ctl',failed⟩ _ _ ⟨rfl,rfl⟩
    refine (sessionEnd_tracks items _ failed ri id_off ctl').mono ?_
    rintro _ _ _ ⟨rfl,rfl⟩
    exact ⟨rfl,by simp only; omega⟩
  · refine .bind (.inSession (.pure (Reported.none walk.haveSkip none ctl false))) ?_
    rintro ⟨ctl',failed⟩ _ _ ⟨rfl,rfl⟩
    refine (sessionEnd_tracks items _ failed ri id_off ctl').mono ?_
    rintro _ _ _ ⟨rfl,rfl⟩
    exact ⟨rfl,by simp only; omega⟩
theorem walk_test_session_tracks (ri : Ref) (id_off : Nat) :
    Tracks (walk_test_session (view ∘ Prod.fst) break_session walk.counted item₁ fuel flags ri id_off)
      (Noted.walk_test_session view break_session walk item₂ fuel flags ri id_off) NothingOpen := by
  rw [walk_test_session,Noted.walk_test_session]
  refine .closed_bind (.callback (fun cb => cb ri id_off) (fun _ => rfl) fun _ => rfl) fun ctl => ?_
  split
  · refine .closed_bind (sessionBody_tracks items fuel flags ri id_off) fun ctl => ?_
    refine .callbackEnd (fun cb => cb ri id_off) ?_ ?_ <;> exact fun _ => rfl
  · refine .closed_bind (.pure ⟨rfl,rfl⟩) fun ctl => ?_
    refine .callbackEnd (fun cb => cb ri id_off) ?_ ?_ <;> exact fun _ => rfl
theorem walk_test_package_tracks (ri : Ref) (id_off : Nat) :
    Tracks (walk_test_package (view ∘ Prod.fst) break_session walk.counted item₁ fuel flags ri id_off)
      (Noted.walk_test_package view break_session walk item₂ fuel flags ri id_off) NothingOpen := by
  rw [walk_test_package,Noted.walk_test_package]
  simp only [haveSkip_counted,haveSkip_noted]
  refine .closed_bind (.callback (fun cb => cb ri id_off) (fun _ => rfl) fun _ => rfl) fun ctl => ?_
  refine .bind (skip_start_tracks walk (by simp)) ?_
  rintro _ _ _ ⟨rfl,rfl⟩
  have ending (ctl' : WalkCtl) : Tracks (skipCall (decide (ctl ≠ .CONT) && walk.haveSkip) walk.counted.skip_end >>= fun _ =>
        callbackEnd (walk.counted.pkg_end.map fun cb => cb ri id_off) ctl')
      (skipCall (decide (ctl ≠ .CONT) && walk.haveSkip) walk.noted.skip_end >>= fun _ =>
        callbackEnd (walk.noted.pkg_end.map fun cb => cb ri id_off) ctl')
      fun k n _ => k = 0 ∧ n = -(decide (ctl ≠ .CONT) && walk.haveSkip).toInt := by
    refine .bind (skip_end_tracks walk (by simp)) ?_
    rintro _ _ _ ⟨rfl,rfl⟩
    refine Tracks.mono (P := NothingOpen) ?_ ?_
    · refine .callbackEnd (fun cb => cb ri id_off) ?_ ?_ <;> exact fun _ => rfl
    · rintro k n _ ⟨rfl,rfl⟩
      exact ⟨rfl,by omega⟩
  split
  · refine .closed_bind (walk_test_session_tracks items fuel flags ri id_off) fun ctl' => ?_
    refine (ending ctl').mono ?_
    rintro _ _ _ ⟨rfl,rfl⟩
    exact ⟨rfl,by omega⟩
  · refine .closed_bind (.pure ⟨rfl,rfl⟩) fun ctl' => ?_
    refine (ending ctl').mono ?_
    rintro _ _ _ ⟨rfl,rfl⟩
    exact ⟨rfl,by omega⟩
theorem repeatBody_tracks (run : Ref) (id_off : Nat) (ctl : WalkCtl) :
    Tracks (repeatBody (view ∘ Prod.fst) break_session walk.counted item₁ fuel flags run id_off ctl)
      (Noted.repeatBody view break_session walk item₂ fuel flags run id_off ctl) NothingOpen := by
  rw [repeatBody,Noted.repeatBody]
  split
  · exact .pure ⟨rfl,rfl⟩
  · refine .closed_bind (.itemAt view run) fun item => ?_
    cases item.type with
    | script =>
      dsimp only
      split
      · exact .pure ⟨rfl,rfl⟩
      · refine .callback (fun cb => cb run id_off) ?_ ?_ <;> exact fun _ => rfl
    | session => exact walk_test_session_tracks items fuel flags run id_off
    | package =>
      dsimp only
      split
      · exact .pure ⟨rfl,rfl⟩
      · exact walk_test_package_tracks items fuel flags run id_off
end
theorem repeatRest_tracks (flags : WalkFlags) (run : Ref) (id_off : Nat) (exception : Option Ref) (ctl : WalkCtl) :
    Tracks (repeatRest walk.counted item₁ flags run id_off exception ctl) (repeatRest walk.noted item₂ flags run id_off exception ctl)
      NothingOpen := by
  have ending (cond : Bool) (ctl : WalkCtl) : Tracks
      (if cond then
        match exception with
        | some exception => do
          let ctl_tmp ← walk_service item₁ id_off exception walk.counted.exception_start walk.counted.exception_end
          return walk_ctl_merge ctl ctl_tmp
        | none => return ctl
      else return ctl)
      (if cond then
        match exception with
        | some exception => do
          let ctl_tmp ← walk_service item₂ id_off exception walk.noted.exception_start walk.noted.exception_end
          return walk_ctl_merge ctl ctl_tmp
        | none => return ctl
      else return ctl) NothingOpen := by
    split
    · cases exception with
      | none => exact .pure ⟨rfl,rfl⟩
      | some exception => exact .closed_bind (service_tracks items id_off exception) fun ctl_tmp => .pure ⟨rfl,rfl⟩
    · exact .pure ⟨rfl,rfl⟩
  rw [repeatRest,repeatRest]
  dsimp only
  cases is : walk.repeat_end with
  | none =>
    simp only [TesterCfgWalk.counted,TesterCfgWalk.noted,TesterCfgWalk.lifted,is,map_none]
    exact .closed_bind (.pure ⟨rfl,rfl⟩) fun ctl => ending _ ctl
  | some cb =>
    simp only [TesterCfgWalk.counted,TesterCfgWalk.noted,TesterCfgWalk.lifted,is,map_some]
    exact .closed_bind (.lifted (cb run id_off flags)) fun ctl_tmp => .closed_bind (.pure ⟨rfl,rfl⟩) fun ctl => ending _ ctl

variable (fuel : Nat) (flags : WalkFlags) (run : Ref) (id_off : Nat) (keepalive exception : Option Ref)
include fuel flags run id_off keepalive exception
theorem repeatLoop_tracks : ∀ n before, Tracks
      (repeatLoop (view ∘ Prod.fst) break_session walk.counted item₁ fuel flags run id_off keepalive exception n before)
      (Noted.repeatLoop view break_session walk item₂ fuel flags run id_off keepalive exception n before)
      (Reported walk.haveSkip keepalive before) := by
  intro n
  induction n with
  | zero => exact fun _ => .failure
  | succ n ih =>
    intro before
    simp only [repeatLoop,Noted.repeatLoop,haveSkip_counted,haveSkip_noted]
    refine .bind (serviceOf_tracks items id_off keepalive .CONT) ?_
    rintro ctl _ _ ⟨⟨rfl,rfl⟩,handler⟩
    split
    · exact .pure (.none ..)
    · rename_i goes
      -- what one repetition reports
      have both : decide (ctl ≠ .CONT) = true → walk.haveSkip = true := fun failed => by
        by_contra no
        exact goes ⟨of_decide_eq_true failed,by simpa using no⟩
      have report (ctl' : WalkCtl) : Reported walk.haveSkip keepalive false (decide (ctl ≠ .CONT)).toNat 0
          (ctl',decide (ctl ≠ .CONT)) := by
        refine ⟨rfl,?_,fun some' => both ?_,fun none => ?_⟩
        · cases decide (ctl ≠ .CONT) <;> simp
        · cases is : decide (ctl ≠ .CONT) <;> simp_all
        · simp [handler none]
      refine .failed (.bind (skip_start_tracks walk both) ?_)
      rintro _ _ _ ⟨rfl,rfl⟩
      refine .closed_bind (.callback (fun cb => cb run id_off flags) (fun _ => rfl) fun _ => rfl) fun ctl₁ => ?_
      refine .closed_bind (repeatBody_tracks items fuel flags run id_off ctl₁) fun ctl₂ => ?_
      refine .closed_bind (repeatRest_tracks items flags run id_off exception ctl₂) fun ctl₃ => ?_
      split
      · refine (ih _).mono fun k i r later => ?_
        have all := (report ctl₃).trans later
        convert all using 1
        · omega
        · omega
      · refine .pure ?_
        have last := (report ctl₃).trans
          (Reported.none walk.haveSkip keepalive (if ctl₃ = .BREAK then .CONT else ctl₃) (before || decide (ctl ≠ .CONT)))
        convert last using 1
        · omega
        · omega

theorem iterBody_tracks (ctl : WalkCtl) :
    Tracks (iterBody (view ∘ Prod.fst) break_session walk.counted item₁ fuel flags run id_off keepalive exception ctl)
      (Noted.iterBody view break_session walk item₂ fuel flags run id_off keepalive exception ctl)
      (Reported walk.haveSkip keepalive false) := by
  rw [iterBody,Noted.iterBody]
  split
  · exact repeatLoop_tracks items fuel flags run id_off keepalive exception fuel false
  · split
    · -- without a handler nothing fails
      refine (repeatLoop_tracks items fuel {flags with skipRepeat := true} run id_off .none .none fuel false).mono
        fun k n r report => ?_
      have quiet : k = 0 := report.handler rfl
      exact ⟨report.closed,report.failed,report.both,fun _ => quiet⟩
    · split <;> exact .pure (.none ..)
theorem iterLoop_tracks : ∀ n i curr_id_off ctl before, Tracks
      (iterLoop (view ∘ Prod.fst) break_session walk.counted item₁ fuel flags run id_off keepalive exception n i curr_id_off ctl before)
      (Noted.iterLoop view break_session walk item₂ fuel flags run id_off keepalive exception n i curr_id_off ctl before)
      (Reported walk.haveSkip keepalive before) := by
  intro n
  induction n with
  | zero => exact fun _ _ _ _ => .failure
  | succ n ih =>
    intro i curr_id_off ctl before
    simp only [iterLoop,Noted.iterLoop]
    refine .closed_bind (.itemAt view run) fun item => ?_
    split
    · refine .closed_bind (.callback (fun cb => cb run curr_id_off flags i) (fun _ => rfl) fun _ => rfl) fun ctl₁ => ?_
      refine .bind (iterBody_tracks items fuel flags run curr_id_off keepalive exception ctl₁) ?_
      rintro ⟨ctl₂,failed⟩ k m report
      refine .closed_bind (.callbackEnd (fun cb => cb run curr_id_off flags i) ?_ ?_) fun ctl₃ => ?_
      · exact fun _ => rfl
      · exact fun _ => rfl
      split
      · exact (ih _ _ _ _).mono fun j l r later => report.trans later
      · refine .closed_bind (.itemAt view run) fun item => ?_
        exact (ih _ _ _ _).mono fun j l r later => report.trans later
    · exact .pure (.none ..)
end

/-- A run item at any depth leaves nothing open and reports its failures. -/
theorem walk_run_item_tracks (view : σ → TesterHeap) (break_session : Bool) (depth : Nat) :
    ∀ flags ri id_off keepalive exception, Tracks
      (walk_run_item (view ∘ Prod.fst) break_session walk.counted depth flags ri id_off keepalive exception)
      (Noted.run_item view break_session walk depth flags ri id_off keepalive exception) (Reported walk.haveSkip keepalive false) := by
  induction depth with
  | zero => exact fun _ _ _ _ _ => .failure
  | succ depth ih =>
    intro flags ri id_off keepalive exception
    simp only [walk_run_item,Noted.run_item]
    refine .closed_bind (.callback (fun cb => cb ri id_off flags) (fun _ => rfl) fun _ => rfl) fun ctl => ?_
    have ending (r : WalkCtl × Bool) {k : Nat} {n : Int} (report : Reported walk.haveSkip keepalive false k n r) : Tracks
        (do
          let ctl ← callbackEnd (walk.counted.run_end.map fun cb => cb ri id_off flags) r.1
          return (ctl,r.2))
        (do
          let ctl ← callbackEnd (walk.noted.run_end.map fun cb => cb ri id_off flags) r.1
          return (ctl,r.2)) fun j i => Reported walk.haveSkip keepalive false (k+j) (n+i) := by
      refine .closed_bind (.callbackEnd (fun cb => cb ri id_off flags) ?_ ?_) fun ctl => .pure ?_
      · exact fun _ => rfl
      · exact fun _ => rfl
      · rw [add_zero,add_zero]
        exact ⟨report.closed,report.failed,report.both,report.handler⟩
    split
    · refine .bind (iterLoop_tracks ih depth flags ri id_off keepalive exception depth 0 id_off .CONT false) fun r k n report => ?_
      exact ending r report
    · exact .bind (.pure (Reported.none walk.haveSkip keepalive ctl false)) fun r k n report => ending r report
end

section
variable {σ : Type} (view : σ → TesterHeap) (break_session : Bool) (walk : TesterCfgWalk σ)

/-- What a walk from no calls on has called, and which failures it has seen. -/
theorem Tracks.balanced {m : StateT (σ × SkipCalls) Option WalkCtl} {g : StateT (σ × KeepaliveFailures) Option WalkCtl}
    (tracks : Tracks m g NothingOpen) {s t : σ} {calls : SkipCalls} (ran : m (s,⟨0,0⟩) = some (ctl,(t,calls))) :
    ∃ failures, g (s,⟨0,[]⟩) = some (ctl,(t,failures)) ∧ (calls.starts = calls.ends ↔ ∀ k ∈ failures.sessions, k ≤ 1) := by
  obtain ⟨f,_,_,same,own,offset,rfl,rfl⟩ := tracks s ⟨0,0⟩ ⟨0,[]⟩ ctl t calls ran
  refine ⟨f,same,?_⟩
  rw [← repeated_zero]
  simp only [openCalls,repeated,map_nil,List.sum_nil] at own offset ⊢
  omega

/-- A session or a package calls `skip_start` and `skip_end` equally often exactly if the
    keep-alive validation has not failed twice among the run items of any one session. -/
theorem skips_balanced_iff (depth fuel : Nat) (flags : WalkFlags) (ri : Ref) (id_off : Nat) (s t : σ) (ctl : WalkCtl) (calls : SkipCalls) :
    (walk_test_session (view ∘ Prod.fst) break_session walk.counted
        (walk_run_item (view ∘ Prod.fst) break_session walk.counted depth) fuel flags ri id_off (s,⟨0,0⟩) = some (ctl,(t,calls)) →
      ∃ failures, Noted.walk_test_session view break_session walk (Noted.run_item view break_session walk depth) fuel flags ri
          id_off (s,⟨0,[]⟩) = some (ctl,(t,failures)) ∧
        (calls.starts = calls.ends ↔ ∀ k ∈ failures.sessions, k ≤ 1)) ∧
    (walk_test_package (view ∘ Prod.fst) break_session walk.counted
        (walk_run_item (view ∘ Prod.fst) break_session walk.counted depth) fuel flags ri id_off (s,⟨0,0⟩) = some (ctl,(t,calls)) →
      ∃ failures, Noted.walk_test_package view break_session walk (Noted.run_item view break_session walk depth) fuel flags ri
          id_off (s,⟨0,[]⟩) = some (ctl,(t,failures)) ∧
        (calls.starts = calls.ends ↔ ∀ k ∈ failures.sessions, k ≤ 1)) := by
  have items := walk_run_item_tracks walk view break_session depth
  exact ⟨(walk_test_session_tracks items fuel flags ri id_off).balanced,(walk_test_package_tracks items fuel flags ri id_off).balanced⟩
end

/-- A session of the scripts at the addresses, which have one iteration each, with the
    script at address 9 for its validation. -/
def validatedSession (scripts : List Ref) : TesterHeap where
  item ri := {
    type := if ri = 0 then .session else .script
    session := ⟨if ri = 0 then scripts else [],none,if ri = 0 then some 9 else none,none,none⟩
    args := ⟨none,[],[],0,1⟩
    weight := 1
    handdown := .NONE }
  cfg _ := ⟨[0],1⟩
/-- Every validation fails. -/
def failingWalk : TesterCfgWalk Unit where
  keepalive_end := some fun _ _ => pure .INTR
  skip_start := some (pure ())
  skip_end := some (pure ())

theorem skips_balanced_iff_single :
    walk_test_session ((fun _ => validatedSession [1]) ∘ Prod.fst) false failingWalk.counted
        (walk_run_item ((fun _ => validatedSession [1]) ∘ Prod.fst) false failingWalk.counted 4) 3 TESTER_CFG_WALK_SERVICE 0 1
        ((),⟨0,0⟩) = some (.CONT,((),⟨1,1⟩)) ∧
      ∃ failures, Noted.walk_test_session (fun _ => validatedSession [1]) false failingWalk
          (Noted.run_item (fun _ => validatedSession [1]) false failingWalk 4) 3 TESTER_CFG_WALK_SERVICE 0 1 ((),⟨0,[]⟩) =
            some (.CONT,((),failures)) ∧ (1 = 1 ↔ ∀ k ∈ failures.sessions, k ≤ 1) := by
  have ran : walk_test_session ((fun _ => validatedSession [1]) ∘ Prod.fst) false failingWalk.counted
      (walk_run_item ((fun _ => validatedSession [1]) ∘ Prod.fst) false failingWalk.counted 4) 3 TESTER_CFG_WALK_SERVICE 0 1
      ((),⟨0,0⟩) = some (.CONT,((),⟨1,1⟩)) := by decide
  exact ⟨ran,(skips_balanced_iff (fun _ => validatedSession [1]) false failingWalk 4 3 TESTER_CFG_WALK_SERVICE 0 1 () () .CONT
    ⟨1,1⟩).1 ran⟩
/-- Two failures in one session leave the run in skip mode. -/
theorem second_failure_open :
    walk_test_session ((fun _ => validatedSession [1,2]) ∘ Prod.fst) false failingWalk.counted
        (walk_run_item ((fun _ => validatedSession [1,2]) ∘ Prod.fst) false failingWalk.counted 4) 3 TESTER_CFG_WALK_SERVICE 0 1
        ((),⟨0,0⟩) = some (.CONT,((),⟨2,1⟩)) := by decide

end TestEnvironment.Tester
