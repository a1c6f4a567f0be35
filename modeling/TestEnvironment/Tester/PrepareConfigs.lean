import TestEnvironment.Tester.PrepareWalk

/-!
The preparation of all configurations: the trees of all of them are left prepared,
with their numbers of script runs, and `total_iters` is the sum.
-/
namespace TestEnvironment.Tester
open Lib

section
variable {objs : TesterObjects} {depth : Nat} {expand_check : TesterHeap → Ref → Status} {h0 : TesterHeap}
  {service : Ref → Prop} {known : Ref → Prop} {count : Ref → Nat} {cfgs own all : List Ref} {t total : Nat}
  {d : ConfigPrepareData} {c : Ref} (wf : WellParsed objs depth h0 service known)

variable (objs depth h0 service known) in
/-- What the walk of some configurations leaves. -/
structure ConfigsDone (cfgs all : List Ref) (total : Nat) (d d' : ConfigPrepareData) : Prop extends Touched service all d d' where
  inv : PrepareInv objs depth h0 service known d'
  ctxs : d'.ctxs = addTotal total d.ctxs
  cfg : ∀ c, c ∉ cfgs → d'.heap.cfg c = d.heap.cfg c
  numbered : Numbered d'.heap cfgs all total
  handled : ∀ r ∈ all, Handled d'.heap r

/-- The context of the configuration is added to the one below it. -/
theorem cfg_end_meets {ctx prev : ConfigPrepareCtx} {rest : List ConfigPrepareCtx} (id : Nat) (top : d.ctxs = ctx :: prev :: rest)
    (fits : prev.total_iters+ctx.total_iters ≤ TESTER_MAX_ITERS) :
    Meets (prepare_cfg_end c id) d fun ctl d' => ctl = .CONT ∧
      d' = {d with heap := d.heap.setTotal c ctx.total_iters,ctxs := {prev with total_iters := prev.total_iters+ctx.total_iters} :: rest} := by
  rw [prepare_cfg_end]
  refine .bind (.get ?_)
  rw [top]
  have small : TESTER_MAX_ITERS < UINT_MOD := by decide
  have sum : check_sum_overflow prev.total_iters ctx.total_iters = false := by
    simp only [check_sum_overflow,decide_eq_false_iff_not]
    omega
  have whole : (prev.total_iters+ctx.total_iters)%UINT_MOD = prev.total_iters+ctx.total_iters := mod_eq_of_lt (by omega)
  refine .bind (.of_some rfl (.bind (.of_some (a := none) (by
    rw [config_prepare_destroy_ctx]
    simp only [sum,whole,false_eq_true,if_false]
    rfl) ?_)))
  exact .of_some rfl ⟨rfl,rfl⟩

/-- A change of configurations and contexts. -/
theorem Touched.of_items {d' : ConfigPrepareData} (same : d'.heap.item = d.heap.item) : Touched service [] d d' where
  frame r _ _ := congrFun same r
  served r _ changed := absurd (by rw [TesterHeap.session,same,TesterHeap.session]) changed
theorem PrepareInv.of_items {d' : ConfigPrepareData} (inv : PrepareInv objs depth h0 service known d)
    (same : d'.heap.item = d.heap.item) (rc : d'.rc = d.rc) (stack : d'.ctxs ≠ [])
    (ctxs : ∀ ctx ∈ d'.ctxs, ctx.total_iters ≤ TESTER_MAX_ITERS ∧ (∀ p, ctx.keepalive = some p → service p) ∧
      ∀ p, ctx.exception = some p → service p) : PrepareInv objs depth h0 service known d' := by
  have session : ∀ r, d'.heap.session r = d.heap.session r := fun r => by rw [TesterHeap.session,same,TesterHeap.session]
  refine ⟨fun r => by rw [same]; exact inv.shape r,rc.trans inv.rc,fun r is => ?_,fun r is => ?_,fun r is => by rw [same]; exact inv.args r is,
    stack,ctxs⟩
  · rw [session]
    exact inv.keepalive r is
  · rw [session]
    exact inv.exception r is

variable (count) in
/-- The configurations are about to be walked. -/
structure Listed (objs : TesterObjects) (depth : Nat) (h0 : TesterHeap) (service known : Ref → Prop) (cfgs all : List Ref)
    (total : Nat) (d : ConfigPrepareData) : Prop where
  distinct : cfgs.Nodup
  nodup : all.Nodup
  plain : ∀ r ∈ all, CountedItem objs depth h0 service known count r
  inv : PrepareInv objs depth h0 service known d
  fresh : Fresh h0 all d
  room : Room total d
  runs : ∀ c ∈ cfgs, (d.heap.cfg c).runs = (h0.cfg c).runs

include wf in
theorem configsLoop_meets (break_session : Bool) (fuel id : Nat) (trees : ConfigTrees h0 count cfgs all total)
    (listed : Listed count objs depth h0 service known cfgs all total d) :
    Meets (configsLoop ConfigPrepareData.heap break_session (prepareWalk objs depth expand_check) fuel (prepareFlags false)
        cfgs id .CONT) d
      fun ctl d' => ctl = .CONT ∧ ConfigsDone objs depth h0 service known cfgs all total d d' := by
  induction trees generalizing d id with
  | nil =>
    exact .pure ⟨rfl,{Touched.of_items rfl with
      inv := listed.inv,ctxs := (addTotal_zero _).symm,cfg := fun _ _ => rfl,numbered := .nil,handled := by simp}⟩
  | @cons c cs own rest t total tree outer ih =>
    obtain ⟨distinct,nodup,plain,inv,fresh,room,runs⟩ := listed
    obtain ⟨outside,distinct⟩ := nodup_cons.mp distinct
    obtain ⟨nodup1,nodup2,apart⟩ := nodup_append.mp nodup
    have disjoint : List.Disjoint own rest := fun x one two => apart x one x two rfl
    obtain ⟨prev,below,top⟩ := exists_cons_of_ne_nil inv.stack
    have fits := room prev below top
    have bounds := inv.ctxs
    rw [top] at bounds
    rw [configsLoop,if_neg (by simp)]
    -- the context of the configuration
    set d0 : ConfigPrepareData := {d with ctxs := {prev with total_iters := 0} :: d.ctxs} with isOpened
    have opening : Meets (prepare_cfg_start c id) d fun ctl d' => ctl = .CONT ∧ d' = d0 := by
      refine .of_some rfl ⟨rfl,?_⟩
      rw [config_prepare_new_ctx,isOpened,top]
    refine .bind (opening.mono fun ctl _ post => ?_)
    obtain ⟨rfl,rfl⟩ := post
    have inv0 : PrepareInv objs depth h0 service known d0 := inv.of_items rfl rfl (by simp [isOpened])
      (forall_mem_cons.mpr ⟨⟨Nat.zero_le _,(bounds prev (by simp)).2⟩,inv.ctxs⟩)
    have room0 : Room t d0 := by
      intro ctx rest same
      cases same
      simp only
      omega
    have shaped : Shaped objs depth h0 service known count false (h0.cfg c).runs own t :=
      ⟨tree,nodup1,fun r member => plain r (mem_append_left _ member)⟩
    refine .bind (.get ?_)
    have sameRuns : (d0.heap.cfg c).runs = (h0.cfg c).runs := runs c (by simp)
    simp only [sameRuns]
    rw [if_pos trivial]
    refine .bind ((itemsLoop_meets wf (item_meets wf break_session fuel) shaped inv0 (fun r member => fresh r (mem_append_left _ member))
      room0 (by simp) (by simp) (h0.cfg c).runs id fuel id false).mono fun res d1 post => ?_)
    obtain ⟨ctl,failed⟩ := res
    obtain ⟨is,inv1,step1,finished1,_,_⟩ := post
    obtain rfl : ctl = .CONT := is
    have top1 : d1.ctxs = {prev with total_iters := t} :: prev :: below := by
      rw [step1.ctxs,isOpened,top,addTotal,Nat.zero_add]
    refine .bind (.pure (.bind (callbackEnd_meets ((cfg_end_meets id top1 (by simp only; omega)).mono fun ctl d2 post => ?_))))
    obtain ⟨rfl,isClosed⟩ := post
    have items2 : d2.heap.item = d1.heap.item := by rw [isClosed]; rfl
    have ctxs2 : d2.ctxs = {prev with total_iters := prev.total_iters+t} :: below := by rw [isClosed]
    have cfg2 : d2.heap.cfg = update d.heap.cfg c {d.heap.cfg c with total_iters := t} := by
      rw [isClosed,TesterHeap.setTotal,step1.cfg]
    have inv2 : PrepareInv objs depth h0 service known d2 := by
      refine inv1.of_items items2 (by rw [isClosed]) (by simp [ctxs2]) ?_
      rw [ctxs2]
      refine forall_mem_cons.mpr ⟨⟨?_,(bounds prev (by simp)).2⟩,fun ctx member => bounds ctx (by simp [member])⟩
      simp only
      omega
    have touched2 : Touched service own d d2 := by
      have opened : Touched service [] d d0 := .of_items rfl
      have closed : Touched service [] d1 d2 := .of_items items2
      have whole := (opened.trans wf inv0 inv1 step1.toTouched).trans wf inv1 inv2 closed
      simpa using whole
    have listed2 : Listed count objs depth h0 service known cs rest total d2 := by
      refine ⟨distinct,nodup2,fun r member => plain r (mem_append_right _ member),inv2,?_,?_,fun x member => ?_⟩
      · exact touched2.fresh (fun r member => fresh r (mem_append_right _ member))
          (fun r member => (plain r (mem_append_right _ member)).plain) disjoint
      · intro ctx rest same
        rw [ctxs2] at same
        cases same
        simp only
        omega
      · rw [cfg2,update_of_ne (by rintro rfl; exact outside member)]
        exact runs x (mem_cons_of_mem _ member)
    refine .bind (.get ((ih _ listed2).mono fun ctl d3 post => ?_))
    obtain ⟨rfl,done⟩ := post
    have finished3 := (finished1.kept wf inv1 inv2 (.of_items items2) shaped (by simp)).kept wf inv2 done.inv done.toTouched shaped disjoint
    have cfg3 : d3.heap.cfg c = {d.heap.cfg c with total_iters := t} := by rw [done.cfg c outside,cfg2,update_self]
    refine ⟨rfl,{touched2.trans wf inv2 done.inv done.toTouched with inv := done.inv,ctxs := ?_,cfg := ?_,numbered := ?_,handled := ?_}⟩
    · rw [done.ctxs,ctxs2,top]
      simp only [addTotal,Nat.add_assoc]
    · intro x outside'
      obtain ⟨other,outside'⟩ := not_or.mp (mem_cons.not.mp outside')
      rw [done.cfg x outside',cfg2,update_of_ne other]
    · refine .cons ?_ done.numbered (by rw [cfg3])
      rw [cfg3]
      simp only
      rw [runs c mem_cons_self]
      exact finished3.1
    · intro r member
      obtain member | member := mem_append.mp member
      · exact finished3.2 r member
      · exact done.handled r member

/-- Nothing has been prepared when the walk starts. -/
theorem WellParsed.start (wf : WellParsed objs depth h0 service known) :
    PrepareInv objs depth h0 service known (config_prepare_new_ctx {heap := h0,ctxs := [],rc := none,expand_rc := none}) where
  shape _ := rfl
  rc := rfl
  keepalive := wf.keepalive
  exception := wf.exception
  args _ _ := .start
  stack := by simp [config_prepare_new_ctx]
  ctxs := by simp [config_prepare_new_ctx]
include wf in
/-- Where the script runs are few enough, the preparation leaves the configurations numbered. -/
theorem prepare_configs_numbered (break_session : Bool) (fuel : Nat) (trees : ConfigTrees h0 count cfgs all total)
    (distinct : cfgs.Nodup) (nodup : all.Nodup) (plain : ∀ r ∈ all, CountedItem objs depth h0 service known count r)
    (small : total ≤ TESTER_MAX_ITERS) {total_iters total_iters' : Nat} {rc : Status} {h : TesterHeap}
    (prepared : tester_prepare_configs objs depth expand_check break_session fuel cfgs h0 total_iters = some (rc,h,total_iters')) :
    total_iters' = total ∧ Numbered h cfgs all total ∧ ∀ r ∈ all, Handled h r := by
  have listed : Listed count objs depth h0 service known cfgs all total
      (config_prepare_new_ctx {heap := h0,ctxs := [],rc := none,expand_rc := none}) := by
    refine ⟨distinct,nodup,plain,wf.start,fun _ _ => rfl,?_,fun _ _ => rfl⟩
    rintro ctx rest ⟨⟩
    simpa using small
  rw [tester_prepare_configs] at prepared
  obtain ⟨⟨ctl,d⟩,walked,rest⟩ := of_bind prepared
  obtain ⟨rfl,done⟩ := configsLoop_meets wf break_session fuel 0 trees listed ctl d walked
  have ctxs : d.ctxs = [{total_iters := 0+total,inherit_exception_all := false,inherit_keepalive_all := false,exception := none,keepalive := none}] :=
    done.ctxs
  simp only [if_true,ctxs,config_prepare_destroy_ctx,bind_eq_bind,bind_some,ne_eq,not_true_eq_false,if_false,
    some_inj,Prod.mk.injEq] at rest
  obtain ⟨_,rfl,rfl⟩ := rest
  exact ⟨Nat.zero_add total,done.numbered,done.handled⟩
end

end TestEnvironment.Tester
