import TestEnvironment.Tester.Trees

/-!
What the parts of the preparing walk do: each leaves the shape of the configuration,
changes only its own run items and service run items, and adds the number of its
script runs to the context on the top.
-/
namespace TestEnvironment.Tester
open Lib

/-- What the preparation never changes of a run item. -/
def ConfigItem.shape (item : ConfigItem) : RunItemType × TesterHanddown × List Ref × Option Ref × Option Ref :=
  (item.type,item.handdown,item.session.run_items,item.session.prologue,item.session.epilogue)

section
variable {h h' : TesterHeap} {r : Ref}

theorem own_of_shape {item item' : ConfigItem} (same : item'.shape = item.shape) :
    item'.type = item.type ∧ item'.own.run_items = item.own.run_items ∧ item'.own.prologue = item.own.prologue ∧
      item'.own.epilogue = item.own.epilogue := by grind [ConfigItem.shape,ConfigItem.own]
theorem session_of_shape (same : (h'.item r).shape = (h.item r).shape) :
    h'.children r = h.children r ∧ (h'.session r).prologue = (h.session r).prologue ∧
      (h'.session r).epilogue = (h.session r).epilogue ∧ ∀ w, h'.weigh r w = h.weigh r w := by
  obtain ⟨type,items,prologue,epilogue⟩ := own_of_shape same
  exact ⟨items,prologue,epilogue,fun w => by simp [TesterHeap.weigh,type]⟩
end

section
variable (objs : TesterObjects) (depth : Nat)

/-- The arguments after some preparations that have succeeded. -/
inductive Recounted (args : RunItem) : RunItem → Prop
  | start : Recounted args args
  | again {a a' : RunItem} (before : Recounted args a) (once : prepare_calc_iters objs depth a = some (none,a')) :
      Recounted args a'

variable (h0 : TesterHeap) (service : Ref → Prop) (known : Ref → Prop) (count : Ref → Nat)

/-- The configuration as the parser builds it: the handlers of sessions are service run
    items, and so are the run items of service sessions; their iterations can be counted
    every time. -/
structure WellParsed : Prop where
  isKnown : ∀ r, service r → known r
  prologue : ∀ r, known r → ∀ p, (h0.session r).prologue = some p → service p
  epilogue : ∀ r, known r → ∀ p, (h0.session r).epilogue = some p → service p
  keepalive : ∀ r, known r → ∀ p, (h0.session r).keepalive = some p → service p
  exception : ∀ r, known r → ∀ p, (h0.session r).exception = some p → service p
  children : ∀ r, service r → ∀ c ∈ h0.children r, service c
  countable : ∀ r, service r → ∀ a, Recounted objs depth (h0.item r).args a →
    ∀ rc a', prepare_calc_iters objs depth a = some (rc,a') → rc = none
/-- A run item outside the service run items, whose iterations can be counted. -/
structure CountedItem (r : Ref) : Prop where
  isKnown : known r
  plain : ¬ service r
  countable : ∀ rc a', prepare_calc_iters objs depth (h0.item r).args = some (rc,a') → rc = none ∧ a'.n_iters = count r

/-- What holds all the time. -/
structure PrepareInv (d : ConfigPrepareData) : Prop where
  shape : ∀ r, (d.heap.item r).shape = (h0.item r).shape
  rc : d.rc = none
  keepalive : ∀ r, known r → ∀ p, (d.heap.session r).keepalive = some p → service p
  exception : ∀ r, known r → ∀ p, (d.heap.session r).exception = some p → service p
  args : ∀ r, service r → Recounted objs depth (h0.item r).args (d.heap.item r).args
  stack : d.ctxs ≠ []
  ctxs : ∀ ctx ∈ d.ctxs, ctx.total_iters ≤ TESTER_MAX_ITERS ∧ (∀ p, ctx.keepalive = some p → service p) ∧
    ∀ p, ctx.exception = some p → service p

def addTotal (added : Nat) : List ConfigPrepareCtx → List ConfigPrepareCtx
  | [] => []
  | ctx :: rest => {ctx with total_iters := ctx.total_iters+added} :: rest
/-- Only the run items `own` and service run items change; one whose keep-alive handler changes
    has been walked. -/
structure Touched (own : List Ref) (d d' : ConfigPrepareData) : Prop where
  frame : ∀ r, ¬ service r → r ∉ own → d'.heap.item r = d.heap.item r
  served : ∀ r, service r → (d'.heap.session r).keepalive ≠ (d.heap.session r).keepalive → Served d'.heap r
/-- A part of the walk over the run items `own`, which have so many script runs. -/
structure PrepareStep (own : List Ref) (added : Nat) (d d' : ConfigPrepareData) : Prop extends Touched service own d d' where
  ctxs : d'.ctxs = addTotal added d.ctxs
  cfg : d'.heap.cfg = d.heap.cfg
/-- There is room for so many script runs in the context on the top. -/
def Room (t : Nat) (d : ConfigPrepareData) : Prop := ∀ ctx rest, d.ctxs = ctx :: rest → ctx.total_iters+t ≤ TESTER_MAX_ITERS
/-- The run items have not been walked yet. -/
def Fresh (own : List Ref) (d : ConfigPrepareData) : Prop := ∀ r ∈ own, (d.heap.item r).args = (h0.item r).args

/-- Run items of a service session, which do not count, or of a session in the trees. -/
def Shaped : Bool → List Ref → List Ref → Nat → Prop
  | true, rs, own, t => (∀ c ∈ rs, service c) ∧ own = [] ∧ t = 0
  | false, rs, own, t => RunTree h0 count rs own t ∧ own.Nodup ∧ ∀ r ∈ own, CountedItem objs depth h0 service known count r
/-- One of them, with the run items of its session. -/
def Headed : Bool → Ref → List Ref → Nat → List Ref → Nat → Prop
  | true, r, own, t, below, w => service r ∧ own = [] ∧ below = [] ∧ t = 0 ∧ w = 0
  | false, r, own, t, below, w =>
    CountedItem objs depth h0 service known count r ∧ own = r :: below ∧ r ∉ below ∧ t = count r*h0.weigh r w
/-- What the walk leaves of them. -/
def Finished : Bool → TesterHeap → List Ref → List Ref → Nat → Prop
  | true, h, rs, _, _ => ∀ c ∈ rs, Served h c
  | false, h, rs, own, t => Prepared h rs own t ∧ ∀ r ∈ own, Handled h r
end

section
variable {objs : TesterObjects} {depth : Nat} {h0 : TesterHeap} {service : Ref → Prop} {known : Ref → Prop} {count : Ref → Nat}
  {svc : Bool} {rs own own' : List Ref} {t t' : Nat} {d d' d'' : ConfigPrepareData} {r : Ref}

theorem addTotal_zero (ctxs : List ConfigPrepareCtx) : addTotal 0 ctxs = ctxs := by cases ctxs <;> rfl
theorem addTotal_add (ctxs : List ConfigPrepareCtx) : addTotal t' (addTotal t ctxs) = addTotal (t+t') ctxs := by
  cases ctxs <;> simp [addTotal,Nat.add_assoc]

section
variable (wf : WellParsed objs depth h0 service known)
include wf
theorem WellParsed.session (inv : PrepareInv objs depth h0 service known d)
    (is : known r) : (∀ p, (d.heap.session r).prologue = some p → service p) ∧
      (∀ p, (d.heap.session r).epilogue = some p → service p) ∧ (service r → ∀ c ∈ d.heap.children r, service c) := by
  obtain ⟨children,prologue,epilogue,_⟩ := session_of_shape (inv.shape r)
  refine ⟨fun p at' => wf.prologue r is p (prologue ▸ at'),fun p at' => wf.epilogue r is p (epilogue ▸ at'),fun svc c member => ?_⟩
  exact wf.children r svc c (children ▸ member)

/-- A service run item whose walk comes to an end keeps that. -/
theorem served_kept (inv : PrepareInv objs depth h0 service known d) (inv' : PrepareInv objs depth h0 service known d')
    (served : ∀ r, service r → (d'.heap.session r).keepalive ≠ (d.heap.session r).keepalive → Served d'.heap r)
    (before : Served d.heap r) (is : service r) : Served d'.heap r := by
  induction before with
  | @intro r children prologue epilogue keepalive ihChildren ihPrologue ihEpilogue ihKeepalive =>
    by_cases changed : (d'.heap.session r).keepalive = (d.heap.session r).keepalive
    · obtain ⟨sameChildren,samePrologue,sameEpilogue,_⟩ := session_of_shape ((inv'.shape r).trans (inv.shape r).symm)
      obtain ⟨pro,epi,sub⟩ := wf.session inv (wf.isKnown r is)
      refine .intro (fun c member => ?_) (fun p at' => ?_) (fun p at' => ?_) (fun some' k at' => ?_)
      · grind
      · rw [samePrologue] at at'
        exact ihPrologue p at' (pro p at')
      · rw [sameEpilogue] at at'
        exact ihEpilogue p at' (epi p at')
      · rw [sameChildren] at some'
        rw [changed] at at'
        exact ihKeepalive some' k at' (inv.keepalive r (wf.isKnown r is) k at')
    · exact served r is changed

variable (inv' : PrepareInv objs depth h0 service known d') (inv'' : PrepareInv objs depth h0 service known d'')
include inv' inv''
theorem Touched.trans (first : Touched service own d d')
    (second : Touched service own' d' d'') : Touched service (own ++ own') d d'' where
  frame r plain outside := by
    simp only [mem_append,not_or] at outside
    rw [second.frame r plain outside.2,first.frame r plain outside.1]
  served r is changed := by
    by_cases late : (d''.heap.session r).keepalive = (d'.heap.session r).keepalive
    · exact served_kept wf inv' inv'' second.served (first.served r is (late ▸ changed)) is
    · exact second.served r is late
theorem PrepareStep.trans (first : PrepareStep service own t d d')
    (second : PrepareStep service own' t' d' d'') : PrepareStep service (own ++ own') (t+t') d d'' where
  ctxs := by rw [second.ctxs,first.ctxs,addTotal_add]
  cfg := second.cfg.trans first.cfg
  toTouched := first.toTouched.trans wf inv' inv'' second.toTouched
end
theorem PrepareStep.refl (d : ConfigPrepareData) : PrepareStep service [] 0 d d where
  ctxs := (addTotal_zero _).symm
  frame _ _ _ := rfl
  cfg := rfl
  served _ _ changed := absurd rfl changed
theorem PrepareStep.mono (step : PrepareStep service own t d d') (subset : own ⊆ own') : PrepareStep service own' t d d' where
  ctxs := step.ctxs
  frame r plain outside := step.frame r plain fun member => outside (subset member)
  cfg := step.cfg
  served := step.served
theorem PrepareStep.room (step : PrepareStep service own t d d') (room : Room (t+t') d) : Room t' d' := by
  intro ctx rest top
  rw [step.ctxs] at top
  cases whole : d.ctxs with
  | nil => rw [whole] at top; cases top
  | cons ctx' rest' =>
    rw [whole] at top
    cases top
    have := room ctx' rest whole
    simp only
    omega
theorem Room.mono (room : Room t d) (less : t' ≤ t) : Room t' d := fun ctx rest top => by
  have := room ctx rest top
  omega
theorem Touched.fresh (step : Touched service own d d') (fresh : Fresh h0 own' d)
    (plain : ∀ r ∈ own', ¬ service r) (disjoint : List.Disjoint own own') : Fresh h0 own' d' := fun r member => by
  rw [step.frame r (plain r member) fun other => disjoint other member]
  exact fresh r member

section
variable (wf : WellParsed objs depth h0 service known) (inv : PrepareInv objs depth h0 service known d)
include wf inv
theorem Handled.kept (kept : ∀ {x}, Served d.heap x → service x → Served d'.heap x) (is : known r)
    (session : d'.heap.session r = d.heap.session r) (handled : Handled d.heap r) : Handled d'.heap r := by
  have children : d'.heap.children r = d.heap.children r := by rw [TesterHeap.children,session,TesterHeap.children]
  obtain ⟨pro,epi,_⟩ := wf.session inv is
  refine ⟨fun p at' => ?_,fun p at' => ?_,fun some' k at' => ?_,fun some' e at' => ?_⟩
  · rw [session] at at'
    exact kept (handled.prologue p at') (pro p at')
  · rw [session] at at'
    exact kept (handled.epilogue p at') (epi p at')
  · rw [children] at some'
    rw [session] at at'
    exact kept (handled.keepalive some' k at') (inv.keepalive r is k at')
  · rw [children] at some'
    rw [session] at at'
    exact kept (handled.exception some' e at') (inv.exception r is e at')
/-- What has been walked stays so while others are walked. -/
theorem Finished.kept (inv' : PrepareInv objs depth h0 service known d') (step : Touched service own' d d')
    (shaped : Shaped objs depth h0 service known count svc rs own t) (disjoint : List.Disjoint own own')
    (finished : Finished svc d.heap rs own t) : Finished svc d'.heap rs own t := by
  have kept : ∀ {x}, Served d.heap x → service x → Served d'.heap x := served_kept wf inv inv' step.served
  cases svc with
  | true => exact fun c member => kept (finished c member) (shaped.1 c member)
  | false =>
    have same : ∀ r ∈ own, d'.heap.item r = d.heap.item r := fun r member =>
      step.frame r (shaped.2.2 r member).plain fun other => disjoint member other
    refine ⟨finished.1.congr same,fun r member => ?_⟩
    exact Handled.kept wf inv kept (shaped.2.2 r member).isKnown
      (by rw [TesterHeap.session,same r member,TesterHeap.session]) (finished.2 r member)
end

theorem Shaped.uncons (shaped : Shaped objs depth h0 service known count svc (r :: rs) own t) :
    ∃ own1 t1 own2 t2, Shaped objs depth h0 service known count svc [r] own1 t1 ∧
      Shaped objs depth h0 service known count svc rs own2 t2 ∧ own = own1 ++ own2 ∧ t = t1+t2 ∧ List.Disjoint own1 own2 := by
  cases svc with
  | true =>
    obtain ⟨all,rfl,rfl⟩ := shaped
    exact ⟨[],0,[],0,⟨by simpa using all r (by simp),rfl,rfl⟩,
      ⟨fun c member => all c (mem_cons_of_mem _ member),rfl,rfl⟩,rfl,rfl,by simp⟩
  | false =>
    obtain ⟨tree,nodup,plain⟩ := shaped
    cases tree with
    | @cons r rs below rest w t inner outer =>
      obtain ⟨first,second,apart⟩ := nodup_append.mp nodup
      refine ⟨r :: below,count r*h0.weigh r w,rest,t,⟨?_,first,fun x member => plain x (mem_append_left _ member)⟩,
        ⟨outer,second,fun x member => plain x (mem_append_right _ member)⟩,rfl,rfl,fun x one two => apart x one x two rfl⟩
      have last : RunTree h0 count [] [] 0 := .nil
      simpa using RunTree.cons inner last
theorem Finished.cons {h : TesterHeap} {own1 own2 : List Ref} {t1 t2 : Nat} (first : Finished svc h [r] own1 t1)
    (second : Finished svc h rs own2 t2) : Finished svc h (r :: rs) (own1 ++ own2) (t1+t2) := by
  cases svc with
  | true => exact forall_mem_cons.mpr ⟨first r (by simp),second⟩
  | false => exact ⟨first.1.append second.1,fun x member => (mem_append.mp member).elim (first.2 x) (second.2 x)⟩
/-- The run items of one run item's session. -/
theorem Shaped.inner (wf : WellParsed objs depth h0 service known)
    (shaped : Shaped objs depth h0 service known count svc [r] own t) :
    known r ∧ ∃ below w, Shaped objs depth h0 service known count svc (h0.children r) below w ∧
      Headed objs depth h0 service known count svc r own t below w := by
  cases svc with
  | true =>
    obtain ⟨all,rfl,rfl⟩ := shaped
    have is := all r (by simp)
    exact ⟨wf.isKnown r is,[],0,⟨wf.children r is,rfl,rfl⟩,is,rfl,rfl,rfl,rfl⟩
  | false =>
    obtain ⟨tree,nodup,plain⟩ := shaped
    cases tree with
    | @cons r rs below rest w t inner outer =>
      cases outer
      have whole : r :: below ++ [] = r :: below := append_nil _
      rw [whole] at nodup plain
      obtain ⟨outside,distinct⟩ := nodup_cons.mp nodup
      exact ⟨(plain r (by simp)).isKnown,below,w,⟨inner,distinct,fun x member => plain x (by simp [member])⟩,
        plain r (by simp),whole,outside,rfl⟩
end

end TestEnvironment.Tester
