import TestEnvironment.Tester.PrepareSteps

/-!
The preparing walk itself: where all iterations can be counted and their number is
small enough, it goes through the trees and leaves them prepared, with handlers
whose walks come to an end.
-/
namespace TestEnvironment.Tester
open Lib

section
variable {objs : TesterObjects} {depth : Nat} {expand_check : TesterHeap → Ref → Status} {h0 : TesterHeap}
  {service : Ref → Prop} {known : Ref → Prop}  {svc : Bool} {own : List Ref} {t : Nat}
  {d d' : ConfigPrepareData} {r : Ref} {item : ConfigItem} (id : Nat)

/-- The flags of the preparing walk, in service run items and outside. -/
def prepareFlags (svc : Bool) : WalkFlags := {service := svc,forceException := !svc,outputParams := false,skipRepeat := false}

theorem setItem_same : (d.heap.setItem r item).item r = item := update_self ..
theorem setItem_other {x : Ref} (other : x ≠ r) : (d.heap.setItem r item).item x = d.heap.item x := update_of_ne other ..

/-- A change of one run item that keeps its handlers. -/
theorem step_of_item (heap : d'.heap = d.heap.setItem r item) (ctxs : d'.ctxs = d.ctxs) (touch : service r ∨ r ∈ own)
    (keepalive : item.own.keepalive = (d.heap.session r).keepalive) : PrepareStep service own 0 d d' where
  ctxs := by rw [ctxs,addTotal_zero]
  frame x plain outside := by
    rw [heap,setItem_other]
    rintro rfl
    exact touch.elim plain outside
  cfg := by rw [heap]; rfl
  served x _ changed := by
    rw [heap] at changed
    by_cases same : x = r
    · subst same
      rw [TesterHeap.session,setItem_same] at changed
      exact absurd keepalive changed
    · rw [TesterHeap.session,setItem_other same] at changed
      exact absurd rfl changed

section
variable (inv : PrepareInv objs depth h0 service known d)
include inv
theorem inv_of_item (heap : d'.heap = d.heap.setItem r item)
    (ctxs : d'.ctxs = d.ctxs) (rc : d'.rc = none) (shape : item.shape = (d.heap.item r).shape)
    (keepalive : item.own.keepalive = (d.heap.session r).keepalive) (exception : item.own.exception = (d.heap.session r).exception)
    (args : service r → Recounted objs depth (h0.item r).args item.args) : PrepareInv objs depth h0 service known d' := by
  have session : ∀ x, (d'.heap.session x).keepalive = (d.heap.session x).keepalive ∧
      (d'.heap.session x).exception = (d.heap.session x).exception := fun x => by
    rw [heap]
    by_cases same : x = r
    · subst same
      rw [TesterHeap.session,setItem_same]
      exact ⟨keepalive,exception⟩
    · rw [TesterHeap.session,setItem_other same]
      exact ⟨rfl,rfl⟩
  refine ⟨fun x => ?_,rc,fun x is p at' => inv.keepalive x is p ((session x).1 ▸ at'),
    fun x is p at' => inv.exception x is p ((session x).2 ▸ at'),fun x is => ?_,by rw [ctxs]; exact inv.stack,
    by rw [ctxs]; exact inv.ctxs⟩
  · rw [heap]
    by_cases same : x = r
    · subst same
      rw [setItem_same,shape]
      exact inv.shape x
    · rw [setItem_other same]
      exact inv.shape x
  · rw [heap]
    by_cases same : x = r
    · subst same
      rw [setItem_same]
      exact args is
    · rw [setItem_other same]
      exact inv.args x is

theorem test_start_meets
    (countable : ∀ rc a, prepare_calc_iters objs depth (d.heap.item r).args = some (rc,a) → rc = none) (flags : WalkFlags) :
    Meets (prepare_test_start objs depth expand_check r id flags) d fun ctl d' => ctl = .CONT ∧
      ∃ a, prepare_calc_iters objs depth (d.heap.item r).args = some (none,a) ∧
        d'.heap = d.heap.setItem r {d.heap.item r with args := a} ∧ d'.ctxs = d.ctxs ∧ d'.rc = none := by
  rw [prepare_test_start]
  refine .bind (.get ?_)
  rw [if_neg inv.stack]
  refine .bind (.lift ?_)
  rintro ⟨rc,a⟩ counted
  obtain rfl := countable rc a counted
  exact .of_some rfl ⟨rfl,a,counted,rfl,rfl,rfl⟩
/-- The numbers that the walk adds up have no carry. -/
theorem test_end_meets (room : Room (if svc then 0 else (d.heap.item r).n_iters*(d.heap.item r).weight) d) :
    Meets (prepare_test_end r id (prepareFlags svc)) d fun ctl d' => ctl = .CONT ∧ 0 < (d.heap.item r).n_iters ∧
      d' = {d with ctxs := addTotal (if svc then 0 else (d.heap.item r).n_iters*(d.heap.item r).weight) d.ctxs} := by
  rw [prepare_test_end]
  refine .bind (.get ?_)
  cases top : d.ctxs with
  | nil => exact absurd top inv.stack
  | cons ctx rest =>
    simp only [inv.rc,ne_eq,not_true_eq_false,if_false]
    by_cases zero : (d.heap.item r).n_iters = 0 ∨ (d.heap.item r).weight = 0 ∧ (d.heap.item r).type = .script
    · rw [if_pos zero]
      exact .failure
    · rw [if_neg zero]
      have positive : 0 < (d.heap.item r).n_iters := Nat.pos_of_ne_zero (not_or.mp zero).1
      cases svc with
      | true =>
        refine .of_some (t := d) rfl ⟨rfl,positive,?_⟩
        simp only [if_true,← top,addTotal_zero]
        rw [← inv.rc]
      | false =>
        have fits : ctx.total_iters+(d.heap.item r).n_iters*(d.heap.item r).weight ≤ TESTER_MAX_ITERS := room ctx rest top
        have small : TESTER_MAX_ITERS < UINT_MOD := by decide
        generalize product : (d.heap.item r).n_iters*(d.heap.item r).weight = p at fits ⊢
        have mul : check_mul_overflow (d.heap.item r).weight (d.heap.item r).n_iters = false := by
          simp only [check_mul_overflow,decide_eq_false_iff_not,not_and,not_lt]
          intro some'
          rw [Nat.le_div_iff_mul_le (Nat.pos_of_ne_zero some'),product]
          omega
        have whole : p%UINT_MOD = p := mod_eq_of_lt (by omega)
        have sum : check_sum_overflow p ctx.total_iters = false := by
          simp only [check_sum_overflow,decide_eq_false_iff_not]
          omega
        have total : (ctx.total_iters+p)%UINT_MOD = ctx.total_iters+p := mod_eq_of_lt (by omega)
        simp only [prepareFlags,mul,whole,sum,total,false_eq_true,if_false]
        exact .of_some rfl ⟨rfl,positive,rfl⟩
theorem inv_of_total (room : Room t d) : PrepareInv objs depth h0 service known {d with ctxs := addTotal t d.ctxs} := by
  refine ⟨inv.shape,inv.rc,inv.keepalive,inv.exception,inv.args,?_,?_⟩
  · cases top : d.ctxs with
    | nil => exact absurd top inv.stack
    | cons ctx rest => simp [addTotal]
  · cases top : d.ctxs with
    | nil => exact absurd top inv.stack
    | cons ctx rest =>
      have all := inv.ctxs
      rw [top] at all
      refine forall_mem_cons.mpr ⟨⟨room ctx rest top,(all ctx (by simp)).2⟩,fun x member => all x (by simp [member])⟩
end
theorem step_of_total (t : Nat) : PrepareStep service [] t d {d with ctxs := addTotal t d.ctxs} where
  ctxs := rfl
  frame _ _ _ := rfl
  cfg := rfl
  served _ _ changed := absurd rfl changed

/-- What a child inherits, and what its own children may, are service run items. -/
theorem inherit_service (handdown : Ref → TesterHanddown) {child inherited : Option Ref} (all : Bool)
    (own : ∀ p, child = some p → service p) (above : ∀ p, inherited = some p → service p) :
    (∀ p, (inherit_executable handdown child inherited all).1 = some p → service p) ∧
      ∀ p, (inherit_executable handdown child inherited all).2.1 = some p → service p := by
  cases child with
  | some e =>
    simp only [inherit_executable]
    cases handdown e <;> simp_all
  | none =>
    simp only [inherit_executable]
    cases all <;> simp_all

theorem own_session {item : ConfigItem} (session : item.type ≠ .script) : item.own = item.session := by
  cases is : item.type <;> simp_all [ConfigItem.own]
/-- The session gets a context of its own, and handlers where it has none. -/
theorem session_start_meets (inv : PrepareInv objs depth h0 service known d) (is : known r)
    (session : (d.heap.item r).type ≠ .script) :
    Meets (prepare_session_start r id) d fun ctl d' => ctl = .CONT ∧ PrepareInv objs depth h0 service known d' ∧
      ∃ ctx item, d'.ctxs = ctx :: d.ctxs ∧ ctx.total_iters = 0 ∧ d'.heap = d.heap.setItem r item ∧
        item.shape = (d.heap.item r).shape ∧ item.args = (d.heap.item r).args := by
  rw [prepare_session_start]
  refine .bind (.of_some rfl (.bind (.get ?_)))
  rw [config_prepare_new_ctx]
  cases top : d.ctxs with
  | nil => exact absurd top inv.stack
  | cons ctx rest =>
    have above := inv.ctxs
    rw [top] at above
    obtain ⟨fits,keepalive,exception⟩ := above ctx (by simp)
    have own := own_session session
    have ownKeepalive : ∀ p, (d.heap.item r).session.keepalive = some p → service p := fun p at' =>
      inv.keepalive r is p (by rw [TesterHeap.session,own]; exact at')
    have ownException : ∀ p, (d.heap.item r).session.exception = some p → service p := fun p at' =>
      inv.exception r is p (by rw [TesterHeap.session,own]; exact at')
    refine .of_some rfl ⟨rfl,?_,_,_,rfl,rfl,rfl,rfl,rfl⟩
    have handlers : ∀ x, known x → ∀ item : ConfigItem, item.type = (d.heap.item r).type →
        (∀ p, item.session.keepalive = some p → service p) → (∀ p, item.session.exception = some p → service p) →
        (∀ p, ((d.heap.setItem r item).session x).keepalive = some p → service p) ∧
          ∀ p, ((d.heap.setItem r item).session x).exception = some p → service p := by
      intro x isX item type one two
      by_cases same : x = r
      · grind [setItem_same,own_session,TesterHeap.session]
      · rw [TesterHeap.session,setItem_other same]
        exact ⟨inv.keepalive x isX,inv.exception x isX⟩
    have one := inherit_service (fun exec => (d.heap.item exec).handdown) ctx.inherit_keepalive_all ownKeepalive keepalive
    have two := inherit_service (fun exec => (d.heap.item exec).handdown) ctx.inherit_exception_all ownException exception
    refine ⟨fun x => ?_,inv.rc,fun x isX => ?_,fun x isX => ?_,fun x isX => ?_,by simp,?_⟩
    · by_cases same : x = r
      · subst same
        rw [setItem_same]
        exact inv.shape x
      · rw [setItem_other same]
        exact inv.shape x
    · refine (handlers x isX _ ?_ ?_ ?_).1
      · rfl
      · exact one.1
      · exact two.1
    · refine (handlers x isX _ ?_ ?_ ?_).2
      · rfl
      · exact one.1
      · exact two.1
    · by_cases same : x = r
      · subst same
        rw [setItem_same]
        exact inv.args x isX
      · rw [setItem_other same]
        exact inv.args x isX
    · grind
theorem session_end_meets {ctx : ConfigPrepareCtx} {rest : List ConfigPrepareCtx} (top : d.ctxs = ctx :: rest)
    (some' : rest ≠ []) (fits : ∀ ctx ∈ rest, ctx.total_iters ≤ TESTER_MAX_ITERS) :
    Meets (prepare_session_end r id) d fun ctl d' => ctl = .CONT ∧
      d' = {d with heap := d.heap.setItem r {d.heap.item r with weight := ctx.total_iters},ctxs := rest} := by
  obtain ⟨prev,rest,rfl⟩ := exists_cons_of_ne_nil some'
  rw [prepare_session_end]
  refine .bind (.get ?_)
  rw [top]
  have small : TESTER_MAX_ITERS < UINT_MOD := by decide
  have bound := fits prev (by simp)
  have sum : check_sum_overflow prev.total_iters 0 = false := by
    simp only [check_sum_overflow,decide_eq_false_iff_not]
    omega
  have whole : (prev.total_iters+0)%UINT_MOD = prev.total_iters := mod_eq_of_lt (by omega)
  refine .bind (.of_some rfl (.bind (.of_some (a := none) (by
    rw [config_prepare_destroy_ctx]
    simp only [sum,whole,false_eq_true,if_false]
    rfl) ?_)))
  exact .of_some rfl ⟨rfl,rfl⟩
end

section
variable (objs : TesterObjects) (depth : Nat) (h0 : TesterHeap) (service : Ref → Prop) (known : Ref → Prop) (count : Ref → Nat)

/-- What the walk of one run item with the handlers leaves. -/
structure ItemDone (svc : Bool) (r : Ref) (own : List Ref) (t : Nat) (keepalive exception : Option Ref) (d : ConfigPrepareData)
    (res : WalkCtl × Bool) (d' : ConfigPrepareData) : Prop where
  ctl : res.1 = .CONT
  inv : PrepareInv objs depth h0 service known d'
  step : PrepareStep service own t d d'
  finished : Finished svc d'.heap [r] own t
  keepalive : ∀ k, keepalive = some k → Served d'.heap k
  exception : svc = false → ∀ e, exception = some e → Served d'.heap e
/-- The specification of the walk of one run item. -/
def ItemSpec (walker : ItemWalk ConfigPrepareData) : Prop :=
  ∀ svc r own t id keepalive exception d, Shaped objs depth h0 service known count svc [r] own t →
    PrepareInv objs depth h0 service known d → Fresh h0 own d → Room t d → (∀ k, keepalive = some k → service k) →
    (∀ e, exception = some e → service e) →
    Meets (walker (prepareFlags svc) r id keepalive exception) d
      (ItemDone objs depth h0 service known svc r own t keepalive exception d)
end

section
variable {objs : TesterObjects} {depth : Nat} {expand_check : TesterHeap → Ref → Status} {h0 : TesterHeap}
  {service : Ref → Prop} {known : Ref → Prop} {count : Ref → Nat} {svc : Bool} {own below : List Ref} {t w : Nat}
  {d : ConfigPrepareData} {r : Ref} {id fuel : Nat} {walker : ItemWalk ConfigPrepareData} {keepalive exception : Option Ref}
  (wf : WellParsed objs depth h0 service known) (spec : ItemSpec objs depth h0 service known count walker)

theorem PrepareInv.room (inv : PrepareInv objs depth h0 service known d) : Room 0 d := fun ctx rest top =>
  (inv.ctxs ctx (by simp [top])).1

include spec in
theorem service_meets {k : Ref} (is : service k) (inv : PrepareInv objs depth h0 service known d) :
    Meets (walk_service walker id k none none) d fun ctl d' => ctl = .CONT ∧ PrepareInv objs depth h0 service known d' ∧
      PrepareStep service [] 0 d d' ∧ Served d'.heap k := by
  have walk := spec true k [] 0 id none none d ⟨by simpa using is,rfl,rfl⟩ inv (by simp [Fresh]) inv.room (by simp) (by simp)
  rw [walk_service]
  refine .bind (.pure ?_)
  rw [if_pos rfl]
  refine .bind (walk.mono fun res d' done => ?_)
  obtain ⟨ctl,failed⟩ := res
  obtain rfl : ctl = .CONT := done.ctl
  exact .bind (.pure (.pure ⟨rfl,done.inv,done.step,done.finished k (by simp)⟩))
include spec in
theorem serviceOf_meets {p : Option Ref} (is : ∀ k, p = some k → service k) (inv : PrepareInv objs depth h0 service known d) :
    Meets (serviceOf walker id p none none .CONT) d fun ctl d' => ctl = .CONT ∧ PrepareInv objs depth h0 service known d' ∧
      PrepareStep service [] 0 d d' ∧ ∀ k, p = some k → Served d'.heap k := by
  cases p with
  | none => exact .pure ⟨rfl,inv,.refl d,by simp⟩
  | some k =>
    refine (service_meets spec (is k rfl) inv).mono fun ctl d' post => ?_
    obtain ⟨ctl,inv',step,served⟩ := post
    exact ⟨ctl,inv',step,fun x same => by cases same; exact served⟩

include wf spec in
/-- The run items of a session one after the other. -/
theorem itemsLoop_meets {rs : List Ref} (shaped : Shaped objs depth h0 service known count svc rs own t)
    (inv : PrepareInv objs depth h0 service known d) (fresh : Fresh h0 own d) (room : Room t d)
    (isKeepalive : ∀ k, keepalive = some k → service k) (isException : ∀ e, exception = some e → service e)
    (runs : List Ref) (id n cur : Nat) (failed : Bool) :
    Meets (itemsLoop ConfigPrepareData.heap walker (prepareFlags svc) id runs keepalive exception n rs cur .CONT failed) d
      fun res d' => res.1 = .CONT ∧ PrepareInv objs depth h0 service known d' ∧ PrepareStep service own t d d' ∧
        Finished svc d'.heap rs own t ∧ (rs ≠ [] → ∀ k, keepalive = some k → Served d'.heap k) ∧
        (svc = false → rs ≠ [] → ∀ e, exception = some e → Served d'.heap e) := by
  induction rs generalizing n cur failed own t d with
  | nil =>
    cases n with
    | zero => exact .failure
    | succ n =>
      have empty : own = [] ∧ t = 0 := by
        cases svc with
        | true => exact ⟨shaped.2.1,shaped.2.2⟩
        | false =>
          obtain ⟨tree,_⟩ := shaped
          cases tree
          exact ⟨rfl,rfl⟩
      obtain ⟨rfl,rfl⟩ := empty
      refine .pure ⟨rfl,inv,.refl d,?_,by simp,by simp⟩
      cases svc with
      | true => simp [Finished]
      | false => exact ⟨.nil,by simp⟩
  | cons r rs ih =>
    cases n with
    | zero => exact .failure
    | succ n =>
      obtain ⟨own1,t1,own2,t2,one,two,rfl,rfl,disjoint⟩ := shaped.uncons
      have plain2 : ∀ x ∈ own2, ¬ service x := by
        cases svc with
        | true => rw [two.2.1]; simp
        | false => exact fun x member => (two.2.2 x member).plain
      rw [itemsLoop,if_neg (by simp)]
      have walk := spec svc r own1 t1 cur keepalive exception d one inv (fun x member => fresh x (by simp [member]))
        (room.mono (by omega)) isKeepalive isException
      refine .bind (walk.mono fun res d1 done => ?_)
      obtain ⟨ctl,failed1⟩ := res
      obtain ⟨rfl,inv1,step1,finished1,served1,servedE1⟩ := done
      simp only [reduceCtorEq,false_and,if_false]
      refine .bind (.of_some rfl ?_)
      have rest := ih two inv1 (step1.toTouched.fresh (fun x member => fresh x (by simp [member])) plain2 disjoint)
        (step1.room room) n ((cur+(d1.heap.item r).n_iters*(d1.heap.item r).weight)%UINT_MOD) (failed || failed1)
      refine rest.mono fun res d2 post => ?_
      obtain ⟨ctl,inv2,step2,finished2,_,_⟩ := post
      have kept : ∀ {x}, Served d1.heap x → service x → Served d2.heap x := served_kept wf inv1 inv2 step2.served
      exact ⟨ctl,inv2,step1.trans wf inv1 inv2 step2,(finished1.kept wf inv1 inv2 step2.toTouched one disjoint).cons finished2,
        fun _ k same => kept (served1 k same) (isKeepalive k same),
        fun plain _ e same => kept (servedE1 plain e same) (isException e same)⟩

/-- The handlers of the run item that its walk has called come to an end. -/
def Closed : Bool → TesterHeap → Ref → Prop
  | true, h, r => Served h r
  | false, h, r => Handled h r
/-- A service run item, or another that is not below itself. -/
def Outside (service : Ref → Prop) : Bool → Ref → List Ref → Prop
  | true, r, _ => service r
  | false, r, below => ¬ service r ∧ r ∉ below

variable {σ : Type} {d1 d2 : ConfigPrepareData} {h : TesterHeap}

theorem skipCall_meets {s : σ} {cond : Bool} {Q : Unit → σ → Prop} (holds : Q () s) : Meets (skipCall cond none) s Q := by
  cases cond <;> exact .pure holds
theorem callbackEnd_meets {s : σ} {cb : StateT σ Option WalkCtl} {ctl : WalkCtl} {Q : WalkCtl → σ → Prop}
    (holds : Meets cb s fun ctl_tmp t => Q (walk_ctl_merge ctl ctl_tmp) t) : Meets (callbackEnd (some cb) ctl) s Q :=
  .bind (holds.mono fun _ _ post => .pure post)
theorem PrepareInv.own_session (inv : PrepareInv objs depth h0 service known d) (session : (h0.item r).type ≠ .script) :
    (d.heap.item r).session = d.heap.session r := by
  rw [TesterHeap.session,Tester.own_session]
  rwa [(own_of_shape (inv.shape r)).1]
theorem PrepareInv.children (inv : PrepareInv objs depth h0 service known d) (r : Ref) : d.heap.children r = h0.children r :=
  (session_of_shape (inv.shape r)).1

theorem closed_of (inv1 : PrepareInv objs depth h0 service known d1)
    (inv : PrepareInv objs depth h0 service known d) (outside : Outside service svc r below)
    (step : PrepareStep service below w d1 d) (finished : Finished svc d.heap (h0.children r) below w)
    (prologue : ∀ p, (d1.heap.session r).prologue = some p → Served d.heap p)
    (epilogue : ∀ p, (d1.heap.session r).epilogue = some p → Served d.heap p)
    (keepalive : d1.heap.children r ≠ [] → ∀ k, (d1.heap.session r).keepalive = some k → Served d.heap k)
    (exception : svc = false → d1.heap.children r ≠ [] → ∀ e, (d1.heap.session r).exception = some e → Served d.heap e) :
    Closed svc d.heap r := by
  obtain ⟨sameChildren,samePrologue,sameEpilogue,_⟩ := session_of_shape ((inv.shape r).trans (inv1.shape r).symm)
  cases svc with
  | true =>
    by_cases changed : (d.heap.session r).keepalive = (d1.heap.session r).keepalive
    · refine .intro (fun c member => ?_) (samePrologue ▸ prologue) (sameEpilogue ▸ epilogue) ?_
      · exact finished c (inv.children r ▸ member)
      · rw [sameChildren,changed]
        exact keepalive
    · exact step.served r outside changed
  | false =>
    have same : d.heap.session r = d1.heap.session r := by
      rw [TesterHeap.session,step.frame r outside.1 outside.2,TesterHeap.session]
    refine ⟨samePrologue ▸ prologue,sameEpilogue ▸ epilogue,?_,?_⟩
    · rw [sameChildren,same]
      exact keepalive
    · rw [sameChildren,same]
      exact exception rfl

include wf spec in
/-- A session between its callbacks. -/
theorem sessionBody_meets (break_session : Bool) (isKnown : known r) (session : (h0.item r).type ≠ .script)
    (inner : Shaped objs depth h0 service known count svc (h0.children r) below w) (outside : Outside service svc r below)
    (inv : PrepareInv objs depth h0 service known d) (fresh : Fresh h0 below d) (room : Room w d) :
    Meets (sessionBody ConfigPrepareData.heap break_session (prepareWalk objs depth expand_check) walker fuel (prepareFlags svc) r id) d
      fun ctl d' => ctl = .CONT ∧ PrepareInv objs depth h0 service known d' ∧ PrepareStep service below w d d' ∧
        Finished svc d'.heap (h0.children r) below w ∧ Closed svc d'.heap r := by
  rw [sessionBody]
  refine .bind (.of_some rfl ?_)
  obtain ⟨isPrologue,_,_⟩ := wf.session inv isKnown
  rw [inv.own_session session]
  refine .bind ((serviceOf_meets spec isPrologue inv).mono fun ctl d1 post => ?_)
  obtain ⟨rfl,inv1,step1,served1⟩ := post
  refine .bind (skipCall_meets (.bind (.of_some rfl ?_)))
  rw [if_pos (.inl rfl),inv1.own_session session]
  have plain : ∀ x ∈ below, ¬ service x := by
    cases svc with
    | true => rw [inner.2.1]; simp
    | false => exact fun x member => (inner.2.2 x member).plain
  have items := itemsLoop_meets wf spec (by rw [← inv1.children r] at inner; exact inner) inv1
    (step1.toTouched.fresh fresh plain (by simp)) (step1.room (by rwa [Nat.zero_add])) (inv1.keepalive r isKnown) (inv1.exception r isKnown)
    (d1.heap.children r) id fuel id false
  refine .bind (items.mono fun res d2 post => ?_)
  obtain ⟨ctl,failed⟩ := res
  obtain ⟨is,inv2,step2,finished2,servedK2,servedE2⟩ := post
  obtain rfl : ctl = .CONT := is
  refine .bind (skipCall_meets (.bind (skipCall_meets (.bind (.of_some rfl ?_)))))
  rw [inv2.own_session session]
  obtain ⟨_,isEpilogue,_⟩ := wf.session inv2 isKnown
  have ending : ∀ d3, PrepareInv objs depth h0 service known d3 → PrepareStep service [] 0 d2 d3 →
      (∀ p, (d2.heap.session r).epilogue = some p → Served d3.heap p) →
      PrepareInv objs depth h0 service known d3 ∧ PrepareStep service below w d d3 ∧
        Finished svc d3.heap (h0.children r) below w ∧ Closed svc d3.heap r := by
    intro d3 inv3 step3 epilogue
    have finished3 := finished2.kept wf inv2 inv3 step3.toTouched (by rwa [← inv1.children r] at inner) (by simp)
    rw [inv1.children r] at finished3
    have step13 : PrepareStep service below w d1 d3 := by simpa using step2.trans wf inv2 inv3 step3
    have later : ∀ {x}, Served d2.heap x → service x → Served d3.heap x := served_kept wf inv2 inv3 step3.served
    have kept : ∀ {x}, Served d1.heap x → service x → Served d3.heap x := served_kept wf inv1 inv3 step13.served
    obtain ⟨_,samePrologue1,_⟩ := session_of_shape ((inv1.shape r).trans (inv.shape r).symm)
    obtain ⟨_,_,sameEpilogue2,_⟩ := session_of_shape ((inv2.shape r).trans (inv1.shape r).symm)
    refine ⟨inv3,by simpa using step1.trans wf inv1 inv3 step13,finished3,
      closed_of inv1 inv3 outside step13 finished3 (fun p at' => ?_) (by rwa [sameEpilogue2] at epilogue)
        (fun some' k at' => later (servedK2 some' k at') (inv1.keepalive r isKnown k at'))
        fun plain some' e at' => later (servedE2 plain some' e at') (inv1.exception r isKnown e at')⟩
    rw [samePrologue1] at at'
    exact kept (served1 p at') (isPrologue p at')
  cases at' : (d2.heap.session r).epilogue with
  | none => exact .pure ⟨rfl,ending d2 inv2 (.refl d2) (by simp [at'])⟩
  | some p =>
    simp only
    rw [if_pos (.inr (by simp))]
    refine .bind ((service_meets spec (isEpilogue p at') inv2).mono fun ctl d3 post => ?_)
    obtain ⟨rfl,inv3,step3,served3⟩ := post
    refine .pure ⟨rfl,ending d3 inv3 step3 fun x same => ?_⟩
    cases at'.symm.trans same
    exact served3

/-- One iteration of the run item has been walked. -/
def Walked (h0 : TesterHeap) : Bool → TesterHeap → Ref → List Ref → Nat → Prop
  | true, h, r, _, _ => Served h r
  | false, h, r, below, w =>
    Finished false h (h0.children r) below w ∧ Handled h r ∧ (h.item r).weight = h0.weigh r w
variable (objs depth h0 service known count) in
/-- The run item is about to have an iteration walked. -/
structure Ready (svc : Bool) (r : Ref) (own below : List Ref) (w : Nat) (d : ConfigPrepareData) : Prop where
  isKnown : known r
  inner : Shaped objs depth h0 service known count svc (h0.children r) below w
  outside : Outside service svc r below
  touch : service r ∨ r ∈ own
  subset : below ⊆ own
  inv : PrepareInv objs depth h0 service known d
  fresh : Fresh h0 below d
  fits : w ≤ TESTER_MAX_ITERS
variable (objs depth h0 service known) in
/-- It has had an iteration walked. -/
structure Iterated (svc : Bool) (r : Ref) (own below : List Ref) (w : Nat) (d d' : ConfigPrepareData) : Prop where
  inv : PrepareInv objs depth h0 service known d'
  step : PrepareStep service own 0 d d'
  args : svc = false → (d'.heap.item r).args = (d.heap.item r).args
  walked : Walked h0 svc d'.heap r below w
theorem PrepareInv.with_ctxs {ctxs : List ConfigPrepareCtx} (inv : PrepareInv objs depth h0 service known d) (stack : ctxs ≠ [])
    (all : ∀ ctx ∈ ctxs, ctx.total_iters ≤ TESTER_MAX_ITERS ∧ (∀ p, ctx.keepalive = some p → service p) ∧
      ∀ p, ctx.exception = some p → service p) : PrepareInv objs depth h0 service known {d with ctxs := ctxs} :=
  ⟨inv.shape,inv.rc,inv.keepalive,inv.exception,inv.args,stack,all⟩
theorem Closed.kept (wf : WellParsed objs depth h0 service known)
    (inv1 : PrepareInv objs depth h0 service known d1) (inv : PrepareInv objs depth h0 service known d)
    (step : PrepareStep service own t d1 d) (isKnown : known r) (outside : Outside service svc r below)
    (session : d.heap.session r = d1.heap.session r) (closed : Closed svc d1.heap r) : Closed svc d.heap r := by
  have kept : ∀ {x}, Served d1.heap x → service x → Served d.heap x := served_kept wf inv1 inv step.served
  cases svc with
  | true => exact kept closed outside
  | false => exact Handled.kept wf inv1 kept isKnown session closed

include wf spec in
theorem session_meets (break_session : Bool) (ready : Ready objs depth h0 service known count svc r own below w d)
    (session : (h0.item r).type ≠ .script) :
    Meets (walk_test_session ConfigPrepareData.heap break_session (prepareWalk objs depth expand_check) walker fuel
        (prepareFlags svc) r id) d
      fun ctl d' => ctl = .CONT ∧ Iterated objs depth h0 service known svc r own below w d d' := by
  obtain ⟨isKnown,inner,outside,touch,subset,inv,fresh,fits⟩ := ready
  rw [walk_test_session]
  have typed : (d.heap.item r).type ≠ .script := by rwa [(own_of_shape (inv.shape r)).1]
  refine .bind ((session_start_meets id inv isKnown typed).mono fun ctl d0 post => ?_)
  obtain ⟨rfl,inv0,ctx,item,ctxs0,zero,heap0,shape0,args0⟩ := post
  rw [if_pos rfl]
  have fresh0 : Fresh h0 below d0 := by
    cases svc with
    | true => rw [inner.2.1]; simp [Fresh]
    | false =>
      intro x member
      rw [heap0,setItem_other (by rintro rfl; exact outside.2 member)]
      exact fresh x member
  have room0 : Room w d0 := by
    intro top rest same
    cases ctxs0.symm.trans same
    omega
  refine .bind ((sessionBody_meets wf spec break_session isKnown session inner outside inv0 fresh0 room0).mono
    fun ctl d1 post => ?_)
  obtain ⟨rfl,inv1,step1,finished1,closed1⟩ := post
  have top : d1.ctxs = {ctx with total_iters := ctx.total_iters+w} :: d.ctxs := by rw [step1.ctxs,ctxs0]; rfl
  refine callbackEnd_meets ((session_end_meets id top inv.stack fun ctx member => (inv.ctxs ctx member).1).mono
    fun ctl d2 post => ?_)
  obtain ⟨rfl,rfl⟩ := post
  -- the session with its weight, seen from the stack of before
  have inv1' := inv1.with_ctxs inv.stack inv.ctxs
  set weighed : ConfigItem := {d1.heap.item r with weight := ctx.total_iters+w} with isWeighed
  have own1 : weighed.own = d1.heap.session r := rfl
  have inv2 : PrepareInv objs depth h0 service known {d1 with heap := d1.heap.setItem r weighed,ctxs := d.ctxs} :=
    inv_of_item inv1' rfl rfl inv1.rc rfl (congrArg (·.keepalive) own1) (congrArg (·.exception) own1) (inv1.args r)
  have step2 : PrepareStep service [r] 0 {d1 with ctxs := d.ctxs} {d1 with heap := d1.heap.setItem r weighed,ctxs := d.ctxs} :=
    step_of_item rfl rfl (.inr (by simp)) (congrArg (·.keepalive) own1)
  have session2 : (d1.heap.setItem r weighed).session r = d1.heap.session r := by rw [TesterHeap.session,setItem_same,own1]
  have closed2 := Closed.kept wf inv1' inv2 step2 isKnown outside session2 closed1
  have later : ∀ {x}, service x → Served d1.heap x → Served (d1.heap.setItem r weighed) x := fun is served =>
    served_kept wf inv1' inv2 step2.served served is
  refine ⟨rfl,⟨inv2,{frame := ?_,served := ?_,ctxs := ?_,cfg := ?_},?_,?_⟩⟩
  · intro x plain away
    have other : x ≠ r := by
      rintro rfl
      exact touch.elim plain away
    show (d1.heap.setItem r weighed).item x = _
    rw [setItem_other other,step1.frame x plain fun member => away (subset member),heap0,setItem_other other]
  · intro x is changed
    by_cases same : x = r
    · subst same
      cases svc with
      | true => exact closed2
      | false => exact absurd is outside.1
    · refine later is (step1.served x is fun unchanged => changed ?_)
      show ((d1.heap.setItem r weighed).session x).keepalive = _
      rw [TesterHeap.session,setItem_other same,← TesterHeap.session,unchanged,heap0,TesterHeap.session,setItem_other same]
      rfl
  · rw [addTotal_zero]
  · show d1.heap.cfg = _
    rw [step1.cfg,heap0]
    rfl
  · rintro rfl
    show ((d1.heap.setItem r weighed).item r).args = _
    rw [setItem_same]
    show (d1.heap.item r).args = _
    rw [step1.frame r outside.1 outside.2,heap0,setItem_same,args0]
  · cases svc with
    | true => exact closed2
    | false =>
      refine ⟨finished1.kept wf inv1' inv2 step2.toTouched inner (by simpa using outside.2),closed2,?_⟩
      show ((d1.heap.setItem r weighed).item r).weight = _
      rw [setItem_same,TesterHeap.weigh,if_neg session,isWeighed,zero,Nat.zero_add]

theorem script_own (script : (h.item r).type = .script) : h.session r = ⟨[],none,none,none,none⟩ := by
  rw [TesterHeap.session,ConfigItem.own,script]
theorem closed_script (script : (h.item r).type = .script) : Closed svc h r := by
  have own := script_own script
  have children : h.children r = [] := by rw [TesterHeap.children,own]
  cases svc with
  | true => exact .intro (by simp [children]) (by simp [own]) (by simp [own]) (by simp [children])
  | false => exact ⟨by simp [own],by simp [own],by simp [children],by simp [children]⟩
theorem script_meets (id : Nat) (ready : Ready objs depth h0 service known count svc r own below w d) (script : (h0.item r).type = .script) :
    Meets (prepare_script r id) d
      fun ctl d' => ctl = .CONT ∧ Iterated objs depth h0 service known svc r own below w d d' := by
  obtain ⟨_,inner,_,touch,_,inv,_,_⟩ := ready
  have typed : (d.heap.item r).type = .script := by rwa [(own_of_shape (inv.shape r)).1]
  refine .of_some rfl ⟨rfl,?_⟩
  set weighed : ConfigItem := {d.heap.item r with weight := 1} with isWeighed
  have own1 : weighed.own = d.heap.session r := rfl
  refine ⟨inv_of_item inv rfl rfl inv.rc rfl (congrArg (·.keepalive) own1) (congrArg (·.exception) own1) (inv.args r),
    step_of_item rfl rfl touch (congrArg (·.keepalive) own1),fun _ => ?_,?_⟩
  · simp [setItem_same]
  · have still : ((d.heap.setItem r weighed).item r).type = .script := by rw [setItem_same]; exact typed
    have closed : Closed svc (d.heap.setItem r weighed) r := closed_script still
    cases svc with
    | true => exact closed
    | false =>
      have none' : h0.children r = [] := by rw [TesterHeap.children,script_own script]
      rw [none'] at inner
      obtain ⟨tree,_⟩ := inner
      cases tree
      refine ⟨by rw [none']; exact ⟨.nil,by simp⟩,closed,?_⟩
      show ((d.heap.setItem r weighed).item r).weight = _
      rw [setItem_same,TesterHeap.weigh,if_pos script]

include wf spec in
theorem repeatBody_meets (break_session : Bool) (ready : Ready objs depth h0 service known count svc r own below w d) :
    Meets (repeatBody ConfigPrepareData.heap break_session (prepareWalk objs depth expand_check) walker fuel
        (prepareFlags svc) r id .CONT) d
      fun ctl d' => ctl = .CONT ∧ Iterated objs depth h0 service known svc r own below w d d' := by
  rw [repeatBody,if_neg (by simp)]
  refine .bind (.of_some rfl ?_)
  rw [(own_of_shape (ready.inv.shape r)).1]
  cases is : (h0.item r).type with
  | script => exact script_meets id ready is
  | session => exact session_meets wf spec break_session ready (by simp [is])
  | package =>
    simp only [prepareFlags,false_eq_true,if_false]
    rw [walk_test_package]
    refine .bind (.of_some rfl (.bind (skipCall_meets ?_)))
    rw [if_pos (.inl rfl)]
    refine .bind ((session_meets wf spec break_session ready (by simp [is])).mono fun ctl d' post => ?_)
    exact .bind (skipCall_meets (.pure post))

theorem Iterated.later (wf : WellParsed objs depth h0 service known)
    (ready : Ready objs depth h0 service known count svc r own below w d)
    (iterated : Iterated objs depth h0 service known svc r own below w d d1) (inv2 : PrepareInv objs depth h0 service known d2)
    (step2 : PrepareStep service [] 0 d1 d2) : Iterated objs depth h0 service known svc r own below w d d2 := by
  obtain ⟨inv1,step1,args1,walked1⟩ := iterated
  refine ⟨inv2,by simpa using step1.trans wf inv1 inv2 step2,?_,?_⟩
  · rintro rfl
    rw [step2.frame r ready.outside.1 (by simp),args1 rfl]
  · have kept : ∀ {x}, Served d1.heap x → service x → Served d2.heap x := served_kept wf inv1 inv2 step2.served
    cases svc with
    | true => exact kept walked1 ready.outside
    | false =>
      obtain ⟨finished,handled,weight⟩ := walked1
      have same := step2.frame r ready.outside.1 (by simp)
      refine ⟨finished.kept wf inv1 inv2 step2.toTouched ready.inner (by simp),?_,by rw [same,weight]⟩
      exact Handled.kept wf inv1 kept ready.isKnown (by rw [TesterHeap.session,same,TesterHeap.session]) handled
theorem Iterated.earlier (wf : WellParsed objs depth h0 service known)
    (inv1 : PrepareInv objs depth h0 service known d1) (step1 : PrepareStep service [] 0 d d1)
    (plain : svc = false → ¬ service r) (iterated : Iterated objs depth h0 service known svc r own below w d1 d2) :
    Iterated objs depth h0 service known svc r own below w d d2 := by
  obtain ⟨inv2,step2,args2,walked2⟩ := iterated
  refine ⟨inv2,by simpa using step1.trans wf inv1 inv2 step2,fun is => ?_,walked2⟩
  rw [args2 is,step1.frame r (plain is) (by simp)]
theorem Ready.later (ready : Ready objs depth h0 service known count svc r own below w d)
    (inv1 : PrepareInv objs depth h0 service known d1) (step1 : PrepareStep service [] 0 d d1) :
    Ready objs depth h0 service known count svc r own below w d1 := by
  refine {ready with inv := inv1,fresh := step1.toTouched.fresh ready.fresh ?_ (by simp)}
  cases svc with
  | true => rw [ready.inner.2.1]; simp
  | false => exact fun x member => (ready.inner.2.2 x member).plain

include spec in
/-- The exception handler is walked after the repetition, outside of service run items. -/
theorem repeatRest_meets (inv : PrepareInv objs depth h0 service known d) (isException : ∀ e, exception = some e → service e) :
    Meets (repeatRest (prepareWalk objs depth expand_check) walker (prepareFlags svc) r id exception .CONT) d
      fun ctl d' => ctl = .BREAK ∧ PrepareInv objs depth h0 service known d' ∧ PrepareStep service [] 0 d d' ∧
        (svc = false → ∀ e, exception = some e → Served d'.heap e) := by
  rw [repeatRest]
  refine .bind (.pure ?_)
  cases svc with
  | true => exact .pure ⟨rfl,inv,.refl d,by simp⟩
  | false =>
    cases exception with
    | none => exact .pure ⟨rfl,inv,.refl d,by simp⟩
    | some e =>
      refine .bind ((service_meets spec (isException e rfl) inv).mono fun ctl d' post => ?_)
      obtain ⟨rfl,inv',step,served⟩ := post
      exact .pure ⟨rfl,inv',step,fun _ x same => by cases same; exact served⟩
include wf spec in
theorem repeat_meets (break_session : Bool) (ready : Ready objs depth h0 service known count svc r own below w d)
    (isKeepalive : ∀ k, keepalive = some k → service k) (isException : ∀ e, exception = some e → service e) (n : Nat) (failed : Bool) :
    Meets (repeatLoop ConfigPrepareData.heap break_session (prepareWalk objs depth expand_check) walker fuel
        (prepareFlags svc) r id keepalive exception n failed) d
      fun res d' => res.1 = .CONT ∧ Iterated objs depth h0 service known svc r own below w d d' ∧
        (∀ k, keepalive = some k → Served d'.heap k) ∧ (svc = false → ∀ e, exception = some e → Served d'.heap e) := by
  cases n with
  | zero => exact .failure
  | succ n =>
    have plain : svc = false → ¬ service r := by
      rintro rfl
      exact ready.outside.1
    rw [repeatLoop]
    refine .bind ((serviceOf_meets spec isKeepalive ready.inv).mono fun ctl d1 post => ?_)
    obtain ⟨rfl,inv1,step1,served1⟩ := post
    rw [if_neg (by simp)]
    refine .bind (skipCall_meets (.bind (.of_some rfl ?_)))
    have ready1 := ready.later inv1 step1
    refine .bind ((repeatBody_meets wf spec break_session ready1).mono fun ctl d2 post => ?_)
    obtain ⟨rfl,iterated2⟩ := post
    refine .bind ((repeatRest_meets spec iterated2.inv isException).mono fun ctl d3 post => ?_)
    obtain ⟨rfl,inv3,step3,served3⟩ := post
    rw [if_neg (by simp)]
    have step13 := iterated2.step.trans wf iterated2.inv inv3 step3
    refine .pure ⟨rfl,(iterated2.later wf ready1 inv3 step3).earlier wf inv1 step1 plain,fun k same => ?_,served3⟩
    exact served_kept wf inv1 inv3 step13.served (served1 k same) (isKeepalive k same)

/-- Iterations behind the first are skipped. -/
theorem iterations_skipped (break_session : Bool) (run_id n i cur : Nat) (later : 0 < i) (failed : Bool) :
    Meets (iterLoop ConfigPrepareData.heap break_session (prepareWalk objs depth expand_check) walker fuel
        (prepareFlags svc) r run_id keepalive exception n i cur .CONT failed) d fun res d' => res.1 = .CONT ∧ d' = d := by
  induction n generalizing i cur failed with
  | zero => exact .failure
  | succ n ih =>
    rw [iterLoop]
    refine .bind (.of_some rfl ?_)
    by_cases more : i < (d.heap.item r).n_iters
    · rw [if_pos ⟨more,rfl⟩]
      have skip : (if i = 0 then WalkCtl.CONT else .SKIP) = .SKIP := if_neg (by omega)
      refine .bind (.of_some (a := .SKIP) (t := d) (by rw [← skip]; rfl) ?_)
      refine .bind (.of_some (a := (.CONT,false)) (t := d) rfl (.bind (.of_some rfl ?_)))
      rw [if_neg (by simp)]
      exact .bind (.of_some rfl (ih (i+1) _ (by omega) _))
    · rw [if_neg fun both => more both.1]
      exact .pure ⟨rfl,rfl⟩
include wf spec in
theorem iterate_meets (break_session : Bool)
    (ready : 0 < (d.heap.item r).n_iters → Ready objs depth h0 service known count svc r own below w d)
    (isKeepalive : ∀ k, keepalive = some k → service k) (isException : ∀ e, exception = some e → service e) :
    Meets (walk_iterate ConfigPrepareData.heap break_session (prepareWalk objs depth expand_check) walker fuel
        (prepareFlags svc) r id keepalive exception) d
      fun res d' => res.1 = .CONT ∧ ((d.heap.item r).n_iters = 0 ∧ d' = d ∨
        Iterated objs depth h0 service known svc r own below w d d' ∧ (∀ k, keepalive = some k → Served d'.heap k) ∧
          (svc = false → ∀ e, exception = some e → Served d'.heap e)) := by
  rw [walk_iterate]
  cases fuel with
  | zero => exact .failure
  | succ n =>
    rw [iterLoop]
    refine .bind (.of_some rfl ?_)
    by_cases some' : 0 < (d.heap.item r).n_iters
    · rw [if_pos ⟨some',rfl⟩]
      refine .bind (.of_some rfl ?_)
      rw [iterBody,if_pos ⟨rfl,rfl⟩]
      refine .bind ((repeat_meets wf spec break_session (ready some') isKeepalive isException (n+1) false).mono fun res d1 post => ?_)
      obtain ⟨ctl,failed⟩ := res
      obtain ⟨is,iterated,served⟩ := post
      obtain rfl : ctl = .CONT := is
      refine .bind (.of_some rfl ?_)
      rw [if_neg (by simp)]
      refine .bind (.of_some rfl ((iterations_skipped break_session id n 1 _ (by omega) _).mono fun res d2 post => ?_))
      obtain ⟨is,rfl⟩ := post
      exact ⟨is,.inr ⟨iterated,served⟩⟩
    · rw [if_neg fun both => some' both.1]
      exact .pure ⟨rfl,.inl ⟨by omega,rfl⟩⟩

theorem Headed.outside (headed : Headed objs depth h0 service known count svc r own t below w) :
    Outside service svc r below ∧ (service r ∨ r ∈ own) ∧ below ⊆ own := by
  cases svc with
  | true =>
    obtain ⟨is,rfl,rfl,_⟩ := headed
    exact ⟨is,.inl is,by simp⟩
  | false =>
    obtain ⟨plain,rfl,outside,_⟩ := headed
    exact ⟨⟨plain.plain,outside⟩,.inr (by simp),by simp⟩
theorem Headed.countable (wf : WellParsed objs depth h0 service known)
    (headed : Headed objs depth h0 service known count svc r own t below w) (inv : PrepareInv objs depth h0 service known d)
    (fresh : Fresh h0 own d) (rc : Status) (a : RunItem) (counted : prepare_calc_iters objs depth (d.heap.item r).args = some (rc,a)) :
    rc = none ∧ (svc = false → a.n_iters = count r) := by
  cases svc with
  | true => exact ⟨wf.countable r headed.1 _ (inv.args r headed.1) rc a counted,by simp⟩
  | false =>
    obtain ⟨plain,rfl,_⟩ := headed
    rw [fresh r (by simp)] at counted
    obtain ⟨rfl,same⟩ := plain.countable rc a counted
    exact ⟨rfl,fun _ => same⟩

section
variable (headed : Headed objs depth h0 service known count svc r own t below w)
include headed
/-- So much is added to the context at the end. -/
theorem Headed.added {n weight : Nat}
    (counted : svc = false → n = count r ∧ weight = h0.weigh r w) : (if svc then 0 else n*weight) = t := by
  cases svc with
  | true => exact headed.2.2.2.1.symm
  | false =>
    obtain ⟨rfl,rfl⟩ := counted rfl
    exact headed.2.2.2.symm
theorem Headed.finished (inv : PrepareInv objs depth h0 service known d) (walked : Walked h0 svc d.heap r below w)
    (counted : svc = false → (d.heap.item r).n_iters = count r) : Finished svc d.heap [r] own t := by
  cases svc with
  | true => simpa [Finished,Walked] using walked
  | false =>
    obtain ⟨_,rfl,_,rfl⟩ := headed
    obtain ⟨⟨prepared,below⟩,handled,weight⟩ := walked
    have weigh := (session_of_shape (inv.shape r)).2.2.2
    rw [← inv.children r] at prepared
    have built := Prepared.cons prepared .nil (by rw [weight,weigh])
    rw [counted rfl,weight] at built
    exact ⟨by simpa using built,forall_mem_cons.mpr ⟨handled,below⟩⟩

theorem Headed.fits
    (inner : Shaped objs depth h0 service known count svc (h0.children r) below w) (some' : svc = false → 0 < count r)
    (small : t ≤ TESTER_MAX_ITERS) : w ≤ TESTER_MAX_ITERS := by
  cases svc with
  | true => rw [headed.2.2.2.2]; omega
  | false =>
    obtain ⟨_,_,_,rfl⟩ := headed
    by_cases script : (h0.item r).type = .script
    · rw [show h0.children r = [] by rw [TesterHeap.children,script_own script]] at inner
      obtain ⟨tree,_⟩ := inner
      cases tree
      omega
    · rw [TesterHeap.weigh,if_neg script] at small
      exact (Nat.le_mul_of_pos_left w (some' rfl)).trans small
end

include wf in
/-- The preparing walk of one run item, by induction on the depth of the nesting. -/
theorem item_meets (break_session : Bool) (fuel : Nat) : ItemSpec objs depth h0 service known count
    (walk_run_item ConfigPrepareData.heap break_session (prepareWalk objs depth expand_check) fuel) := by
  induction fuel with
  | zero => exact fun _ _ _ _ _ _ _ _ _ _ _ _ _ _ => .failure
  | succ fuel spec =>
    intro svc r own t id keepalive exception d shaped inv fresh room isKeepalive isException
    obtain ⟨isKnown,below,w,inner,headed⟩ := shaped.inner wf
    obtain ⟨outside,touch,subset⟩ := headed.outside
    rw [walk_run_item]
    have countable := headed.countable wf inv fresh
    refine .bind ((test_start_meets id inv (fun rc a counted => (countable rc a counted).1) (prepareFlags svc)).mono
      fun ctl d1 post => ?_)
    obtain ⟨rfl,a,counted,heap1,ctxs1,rc1⟩ := post
    have own1 : ConfigItem.own {d.heap.item r with args := a} = d.heap.session r := rfl
    have inv1 := inv_of_item inv heap1 ctxs1 rc1 rfl (congrArg (·.keepalive) own1) (congrArg (·.exception) own1)
      fun is => .again (inv.args r is) counted
    have step1 : PrepareStep service own 0 d d1 := step_of_item heap1 ctxs1 touch (congrArg (·.keepalive) own1)
    have args1 : (d1.heap.item r).args = a := by rw [heap1,setItem_same]
    have fresh1 : Fresh h0 below d1 := by
      intro x member
      have other : x ≠ r := by
        rintro rfl
        cases svc with
        | true => rw [headed.2.2.1] at member; cases member
        | false => exact outside.2 member
      rw [heap1,setItem_other other]
      exact fresh x (subset member)
    have total : t ≤ TESTER_MAX_ITERS := by
      obtain ⟨ctx,rest,top⟩ := exists_cons_of_ne_nil inv.stack
      exact (Nat.le_add_left ..).trans (room ctx rest top)
    have count1 : svc = false → (d1.heap.item r).n_iters = count r := fun plain => by
      rw [ConfigItem.n_iters,args1]
      exact (countable none a counted).2 plain
    have fits := fun some' : 0 < (d1.heap.item r).n_iters => headed.fits inner (fun plain => count1 plain ▸ some') total
    rw [if_pos rfl]
    refine .bind ((iterate_meets wf spec break_session
      (fun some' => ⟨isKnown,inner,outside,touch,subset,inv1,fresh1,fits some'⟩) isKeepalive isException).mono
      fun res d2 post => ?_)
    obtain ⟨ctl,failed⟩ := res
    obtain ⟨is,post⟩ := post
    obtain rfl : ctl = .CONT := is
    obtain ⟨zero,rfl⟩ | ⟨iterated,servedK,servedE⟩ := post
    · -- no iteration fails the assertion at the end
      have room2 : Room (if svc then 0 else (d2.heap.item r).n_iters*(d2.heap.item r).weight) d2 := by
        rw [zero]
        simpa using inv1.room
      refine .bind (callbackEnd_meets ((test_end_meets id inv1 room2).mono fun ctl d3 post => ?_))
      omega
    · have step2 := step1.trans wf inv1 iterated.inv iterated.step
      have count2 : svc = false → (d2.heap.item r).n_iters = count r := fun plain => by
        rw [ConfigItem.n_iters,iterated.args plain]
        exact count1 plain
      have added := headed.added fun plain => ⟨count2 plain,by
        subst plain
        exact iterated.walked.2.2⟩
      have room2 : Room t d2 := step2.room (by rwa [Nat.zero_add])
      refine .bind (callbackEnd_meets ((test_end_meets id iterated.inv (by rwa [added])).mono fun ctl d3 post => ?_))
      obtain ⟨rfl,_,rfl⟩ := post
      rw [added]
      have finished := headed.finished iterated.inv iterated.walked count2
      refine .pure ⟨rfl,inv_of_total iterated.inv room2,?_,finished,servedK,servedE⟩
      have whole := step2.trans wf iterated.inv (inv_of_total iterated.inv room2) (step_of_total t)
      rw [Nat.zero_add] at whole
      exact whole.mono (by simp)

end

end TestEnvironment.Tester
