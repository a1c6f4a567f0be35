import TestEnvironment.Rgt.QueueSteps

/-!
Runs of attachments: every queue stays sorted and complete as long as no message is freed that
another link still has.
-/
namespace TestEnvironment.Rgt
open Lib
namespace FlowState

section
variable {s : FlowState} {msgs : Nat → List LogMsgPtr} {end_ts : Timestamp}

/-- All queues with their messages; those with a memory part are in the offload queue, once each. -/
structure AllKept (s : FlowState) (msgs : Nat → List LogMsgPtr) : Prop where
  kept : ∀ q, s.Kept q (msgs q)
  listed_once : s.offload_queue.Nodup
  listed : ∀ q, q ∈ s.offload_queue ↔ (s.queues q).queue ≠ []
  unused : ∀ a, s.next ≤ a → s.heap a = none

theorem offloadAll_kept (qs : List Nat) (nodup : qs.Nodup) (kept : ∀ q, s.Kept q (msgs q))
    (alone : ∀ q ∈ qs, ∀ e, s.Frees end_ts q e → s.Unshared q e) :
    ∃ s', offloadAll end_ts qs s = some (qs.filter (fun q => decide ((s'.queues q).queue ≠ [])),s') ∧ (∀ q, s'.Kept q (msgs q)) ∧
      s.next ≤ s'.next ∧ (∀ q, q ∉ qs → s'.queues q = s.queues q) ∧ (∀ q, (s.queues q).queue = [] → (s'.queues q).queue = []) ∧
      ∀ a, s'.heap a = s.heap a ∨ ∃ q ∈ qs, ∃ e, s.Frees end_ts q e ∧ e.data = a := by
  induction qs generalizing s with
  | nil => exact ⟨s,rfl,kept,le_rfl,fun _ _ => rfl,fun _ none_there => none_there,fun _ => .inl rfl⟩
  | cons q qs ih =>
    obtain ⟨apart,nodup⟩ := nodup_cons.mp nodup
    obtain ⟨t,offloaded,kept_q,only,within,heap⟩ := offload_kept (kept q) (alone q mem_cons_self)
    -- messages of other queues are not freed
    have heap_other : ∀ q', q' ≠ q → ∀ e ∈ (s.queues q').queue, t.heap e.data = s.heap e.data := by
      intro q' other e member
      obtain same | ⟨freed,frees,same⟩ := heap e.data
      · exact same
      · exact absurd (alone q mem_cons_self freed frees q' e member same.symm).1 other
    have kept_t : ∀ q', t.Kept q' (msgs q') := by
      intro q'
      by_cases same : q' = q
      · rwa [same]
      · exact (kept q').congr (only.queues q' same) (only.files q' same) (heap_other q' same) only.next only.dir
    have links_before : ∀ q' e', e' ∈ (t.queues q').queue → e' ∈ (s.queues q').queue := by
      intro q' e' member
      by_cases same : q' = q
      · rw [same] at member ⊢
        exact within e' member
      · rwa [only.queues q' same] at member
    have frees_before : ∀ q' ∈ qs, ∀ e, t.Frees end_ts q' e → s.Frees end_ts q' e := by
      intro q' later e frees
      have other : q' ≠ q := fun same => apart (by rwa [same] at later)
      obtain ⟨dir,late,member,old⟩ := frees
      rw [only.queues q' other] at late member
      rw [msgOf_congr (heap_other q' other e member)] at old
      exact ⟨by rwa [only.dir] at dir,late,member,old⟩
    obtain ⟨s',looped,kept',next,outside,empty,heap'⟩ := ih nodup kept_t fun q' later e frees q'' e' member same =>
      alone q' (mem_cons_of_mem q later) e (frees_before q' later e frees) q'' e' (links_before q'' e' member) same
    refine ⟨s',?_,kept',le_trans only.next next,?_,?_,?_⟩
    · rw [offloadAll,offloaded]
      simp only [bind_eq_bind,bind_some,looped,← outside q apart]
      by_cases none_left : (s'.queues q).queue = []
      · rw [if_pos (decide_eq_true none_left),filter_cons_of_neg (by simpa using none_left)]
        rfl
      · rw [if_neg (by simpa using none_left),filter_cons_of_pos (by simpa using none_left)]
        rfl
    · intro q' other
      rw [outside q' fun later => other (mem_cons_of_mem q later)]
      exact only.queues q' fun same => other (by rw [same]; exact mem_cons_self)
    · intro q' none_there
      refine empty q' ?_
      rw [List.eq_nil_iff_forall_not_mem] at none_there ⊢
      exact fun e member => none_there e (links_before q' e member)
    · intro a
      obtain unchanged | ⟨q',later,e,frees,same⟩ := heap' a
      · obtain unchanged' | ⟨e,frees,same⟩ := heap a
        · exact .inl (unchanged.trans unchanged')
        · exact .inr ⟨q,mem_cons_self,e,frees,same⟩
      · exact .inr ⟨q',mem_cons_of_mem q later,e,frees_before q' later e frees,same⟩
theorem due_kept (all : s.AllKept msgs) (due : Option Timestamp)
    (alone : ∀ end_ts, due = some end_ts → ∀ q e, s.Frees end_ts q e → s.Unshared q e) :
    ∃ s', s.offloadDue due = some s' ∧ s'.AllKept msgs ∧ s.next ≤ s'.next ∧
      ∀ a, s'.heap a = s.heap a ∨ ∃ end_ts, due = some end_ts ∧ ∃ q e, s.Frees end_ts q e ∧ e.data = a := by
  rcases due with _ | end_ts
  · exact ⟨s,rfl,all,le_rfl,fun _ => .inl rfl⟩
  · obtain ⟨t,looped,kept,next,outside,empty,heap⟩ := offloadAll_kept s.offload_queue all.listed_once all.kept fun q _ => alone end_ts rfl q
    refine ⟨{ t with offload_queue := s.offload_queue.filter fun q => decide ((t.queues q).queue ≠ []) },by rw [offloadDue,looped]; rfl,⟨fun q => (kept q).congr rfl rfl (fun _ _ => rfl) le_rfl rfl,?_,?_,?_⟩,next,?_⟩
    · exact all.listed_once.filter _
    · intro q
      show q ∈ s.offload_queue.filter _ ↔ (t.queues q).queue ≠ []
      rw [mem_filter,decide_eq_true_eq,all.listed]
      constructor
      · exact And.right
      · grind
    · intro a more
      have above : s.next ≤ a := le_trans next more
      obtain unchanged | ⟨q,-,e,frees,same⟩ := heap a
      · exact unchanged.trans (all.unused a above)
      · have below := ((all.kept q).alive e frees.2.2.1).2.1
        omega
    · grind

variable {q data : Nat} {msg : LogMsgPtr}
/-- The messages of a queue with one more. -/
def oneMore (msgs : Nat → List LogMsgPtr) (q : Nat) (msg : LogMsgPtr) : Nat → List LogMsgPtr := update msgs q (msgs q ++ [msg])
/-- A message with a new link in its place of the queue. -/
theorem put_kept (kept : s.Kept q (msgs q)) (alive : s.heap data = some msg) (below : data < s.next)
    (file : ∀ old ∈ s.fileOf q, old.timestamp ≤ msg.timestamp) {result : List GList × Option Nat}
    (put : Put { s with next := s.next+1 } (s.queues q).queue ⟨s.next,data⟩ msg.timestamp result) :
    (({ s with next := s.next+1 } : FlowState).setQueue q fun mq => { mq with queue := result.1, cache := result.2 }).Kept q (msgs q ++ [msg]) := by
  obtain ⟨⟨before,after,split,inserted,older,younger⟩,cached⟩ := put
  generalize t_eq : (({ s with next := s.next+1 } : FlowState).setQueue q fun mq => { mq with queue := result.1, cache := result.2 }) = t
  have self : t.queues q = { s.queues q with queue := result.1, cache := result.2 } := by rw [← t_eq,setQueue_self]
  have heap : t.heap = s.heap := by rw [← t_eq]; rfl
  have next : t.next = s.next+1 := by rw [← t_eq]; rfl
  have files : t.files = s.files := by rw [← t_eq]; rfl
  have dir : t.tmp_dir = s.tmp_dir := by rw [← t_eq]; rfl
  have same : ∀ e, t.msgOf e = s.msgOf e := fun e => msgOf_congr (by rw [heap])
  have new_msg : t.msgOf ⟨s.next,data⟩ = msg := by rw [msgOf,heap,alive]; rfl
  have file_of : t.fileOf q = s.fileOf q := by rw [fileOf,fileOf,files]
  have memory_before : s.memoryOf q = before.map s.msgOf ++ after.map s.msgOf := by rw [memoryOf,split,map_append]
  have memory : t.memoryOf q = before.map s.msgOf ++ msg :: after.map s.msgOf := by grind [map_congr_left,memoryOf]
  have alive_all := kept.alive
  have links := kept.links
  have sorted := kept.sorted
  have complete := kept.complete
  rw [split] at alive_all links
  rw [memory_before] at sorted complete
  refine ⟨⟨?_,?_,?_,?_,?_,?_,?_⟩,?_⟩
  · rw [self]
    show t.Alive result.1
    rw [inserted]
    intro e member
    have old : e ∈ before ++ after → e.link < t.next ∧ e.data < t.next ∧ t.heap e.data = some (t.msgOf e) := by
      intro member
      obtain ⟨link,below,here⟩ := alive_all e member
      rw [next,heap,same]
      exact ⟨by omega,by omega,here⟩
    obtain left | right := mem_append.mp member
    · exact old (mem_append_left _ left)
    · grind
  · rw [self]
    show (result.1.map GList.link).Nodup
    rw [inserted]
    have fresh : s.next ∉ (before ++ after).map GList.link := by
      intro again
      obtain ⟨e,member,same_link⟩ := mem_map.mp again
      have := (alive_all e member).1
      omega
    rw [map_append] at links fresh
    rw [map_append,map_cons]
    exact List.perm_middle.nodup_iff.mpr (nodup_cons.mpr ⟨fresh,links⟩)
  · rw [file_of,memory,← append_assoc]
    rw [← append_assoc] at sorted
    refine sorted.insert ?_ ?_
    · intro old member
      obtain in_file | in_memory := mem_append.mp member
      · exact file old in_file
      · obtain ⟨e,among,rfl⟩ := mem_map.mp in_memory
        exact older e among
    · intro young member
      obtain ⟨e,among,rfl⟩ := mem_map.mp member
      exact younger e among
  · grind
  · rw [file_of,self]
    exact kept.mark
  · rw [self,dir,files]
    exact kept.file
  · rw [self,file_of]
    exact kept.no_file
  · rw [self]
    exact cached
/-- An attachment behind the offloading. -/
theorem attachMessage_kept (all : s.AllKept msgs) (alive : s.heap data = some msg) :
    ∃ s', s.attachMessage q data msg.timestamp = some s' ∧ s'.AllKept (oneMore msgs q msg) := by
  have below : data < s.next := by
    by_contra above
    rw [all.unused data (not_lt.mp above)] at alive
    cases alive
  obtain ⟨t,t_eq⟩ : ∃ t, s.enterQueue q = t := ⟨_,rfl⟩
  have entered : t = { s with offload_queue := t.offload_queue } ∧ t.offload_queue.Nodup ∧
      ∀ q', q' ∈ t.offload_queue ↔ q' = q ∨ (s.queues q').queue ≠ [] := by
    rw [← t_eq,enterQueue]
    split_ifs with none_there
    · refine ⟨rfl,nodup_append.mpr ⟨all.listed_once,pairwise_singleton _ q,?_⟩,?_⟩
      · rintro a member _ here rfl
        rw [mem_singleton.mp here,all.listed] at member
        exact member none_there
      · simp [all.listed,or_comm]
    · refine ⟨rfl,all.listed_once,fun q' => ?_⟩
      rw [all.listed]
      constructor
      · exact .inr
      · grind
  obtain ⟨same,listed_once,listed⟩ := entered
  have kept_t : ∀ q', t.Kept q' (msgs q') := by
    intro q'
    rw [same]
    exact (all.kept q').congr rfl rfl (fun _ _ => rfl) le_rfl rfl
  have t_heap : t.heap = s.heap := by rw [same]
  have t_next : t.next = s.next := by rw [same]
  have t_queues : t.queues = s.queues := by rw [same]
  have reloaded : ∃ u, t.reloadLate q msg.timestamp = some u ∧ u.Kept q (msgs q) ∧ OnlyQueue q t u ∧
      (∀ a, a < t.next ∨ u.next ≤ a → u.heap a = t.heap a) ∧ ∀ old ∈ u.fileOf q, old.timestamp ≤ msg.timestamp := by
    rw [reloadLate]
    split_ifs with late
    · exact reload_kept (kept_t q) msg.timestamp
    · exact ⟨t,rfl,kept_t q,.refl q t,fun _ _ => rfl,fun old member => le_trans ((kept_t q).mark old member) (not_lt.mp late)⟩
  obtain ⟨u,found,kept_u,only,heap,file⟩ := reloaded
  have alive_u : u.heap data = some msg := by rw [heap data (.inl (by omega)),t_heap,alive]
  have below_u : data < u.next := by
    have := only.next
    omega
  obtain ⟨alive_queue,-⟩ := kept_u.alive.congr (show ∀ e ∈ (u.queues q).queue, ({ u with next := u.next+1 } : FlowState).heap e.data = u.heap e.data
    from fun _ _ => rfl) (le_succ u.next)
  have sorted : SortedBy (fun e => (({ u with next := u.next+1 } : FlowState).msgOf e).timestamp) (u.queues q).queue := by
    obtain ⟨-,memory,-⟩ := SortedBy.append_iff.mp kept_u.sorted
    exact SortedBy.map_iff.mp memory
  obtain ⟨result,attached,put⟩ := attach_put ⟨u.next,data⟩ msg.timestamp alive_queue sorted kept_u.cached (by
    show (u.heap data).map _ = _
    rw [alive_u]
    rfl)
  have kept_q := put_kept kept_u alive_u below_u file put
  generalize v_eq : (({ u with next := u.next+1 } : FlowState).setQueue q fun mq => { mq with queue := result.1, cache := result.2 }) = v at kept_q
  have v_only : OnlyQueue q u v := by
    rw [← v_eq]
    exact ⟨fun q' other => setQueue_other other _,fun _ _ => rfl,le_succ u.next,rfl,rfl⟩
  have v_heap : v.heap = u.heap := by rw [← v_eq]; rfl
  have v_queue : (v.queues q).queue = result.1 := by rw [← v_eq,setQueue_self]
  refine ⟨v,?_,?_,?_,?_,?_⟩
  · rw [attachMessage,t_eq,found,bind_eq_bind,bind_some]
    show (FlowState.attach_msg_to_gqueue { u with next := u.next+1 } (u.queues q).queue (u.queues q).cache ⟨u.next,data⟩).bind _ = _
    rw [attached,← v_eq]
    rfl
  · intro q'
    rw [oneMore]
    by_cases here : q' = q
    · rw [here,update_self]
      exact kept_q
    · rw [update_of_ne here]
      refine (kept_t q').congr ?_ ?_ ?_ (le_trans only.next v_only.next) (v_only.dir.trans only.dir)
      · rw [v_only.queues q' here,only.queues q' here]
      · rw [v_only.files q' here,only.files q' here]
      · intro e member
        rw [v_heap,heap e.data (.inl ((kept_t q').alive e member).2.1)]
  · rw [v_only.listed,only.listed]
    exact listed_once
  · intro q'
    rw [v_only.listed,only.listed,listed]
    by_cases here : q' = q
    · obtain ⟨⟨before,after,-,inserted,-⟩,-⟩ := put
      rw [here,v_queue,inserted]
      simp
    · rw [v_only.queues q' here,only.queues q' here,t_queues]
      simp [here]
  · intro a above
    have grown := v_only.next
    have grown' := only.next
    rw [v_heap,heap a (.inr (by omega)),t_heap]
    exact all.unused a (by omega)
end
section
variable {s : FlowState} {msgs : Nat → List LogMsgPtr} {q data : Nat} {msg : LogMsgPtr} {ts end_ts : Timestamp}

theorem noteMessage_rest (s : FlowState) (ts : Timestamp) : (s.noteMessage ts).2 =
    { s with
      last_offload_ts := (s.noteMessage ts).2.last_offload_ts
      first_msg := (s.noteMessage ts).2.first_msg
      msg_counter := (s.noteMessage ts).2.msg_counter } := by
  rw [noteMessage]
  dsimp only
  split_ifs <;> rfl
/-- Only what is older than the message is offloaded. -/
theorem noteMessage_due (due : (s.noteMessage ts).1 = some end_ts) : end_ts < ts := by
  rw [noteMessage] at due
  dsimp only at due
  have enough : ∀ sec, sec < ts.sec → Timestamp.of sec ts.usec < ts := fun sec less => Prod.Lex.lt_iff.mpr (.inl less)
  split_ifs at due with first ready large
  all_goals
    obtain rfl := some.inj due
    obtain ⟨-,late,-⟩ := ready
    have seconds : 5 ≤ ts.sec := by
      rw [OFFLOAD_TIMEOUT,diffSec] at late
      split_ifs at late <;> omega
    refine enough _ ?_
  · rw [OFFLOAD_INTERVAL]
    omega
  · omega
/-- What the offloading of an attachment frees has no other link. -/
def FreesUnshared (s : FlowState) (ts : Timestamp) : Prop :=
  ∀ end_ts, (s.noteMessage ts).1 = some end_ts → ∀ q e, s.Frees end_ts q e → s.Unshared q e
theorem attach_kept (all : s.AllKept msgs) (alive : s.heap data = some msg) (unshared : s.FreesUnshared msg.timestamp) :
    ∃ s', s.msg_queue_attach q data = some s' ∧ s'.AllKept (oneMore msgs q msg) := by
  have stamped : s.stamp data = some msg.timestamp := by rw [stamp,alive]; rfl
  generalize t_eq : (s.noteMessage msg.timestamp).2 = t
  have rest := noteMessage_rest s msg.timestamp
  rw [t_eq] at rest
  have all_t : t.AllKept msgs := by
    rw [rest]
    exact ⟨fun q' => (all.kept q').congr rfl rfl (fun _ _ => rfl) le_rfl rfl,all.listed_once,all.listed,all.unused⟩
  have same : ∀ end_ts q' e, (t.Frees end_ts q' e → s.Frees end_ts q' e) ∧ (s.Unshared q' e → t.Unshared q' e) := by
    intro end_ts q' e
    rw [rest]
    exact ⟨id,id⟩
  obtain ⟨u,offloaded,all_u,-,heap⟩ := due_kept all_t (s.noteMessage msg.timestamp).1 fun end_ts due q' e frees =>
    (same end_ts q' e).2 (unshared end_ts due q' e ((same end_ts q' e).1 frees))
  -- the message itself is too new to be offloaded
  have alive_u : u.heap data = some msg := by
    have alive_t : t.heap data = some msg := by
      rw [rest]
      exact alive
    obtain unchanged | ⟨end_ts,due,q',e,frees,here⟩ := heap data
    · rw [unchanged,alive_t]
    · have old := frees.2.2.2
      have is_msg : t.msgOf e = msg := by rw [msgOf,here,alive_t]; rfl
      rw [is_msg] at old
      exact absurd (noteMessage_due due) (not_lt.mpr old)
  have stamped_u : u.stamp data = some msg.timestamp := by rw [stamp,alive_u]; rfl
  obtain ⟨s',attached,all'⟩ := attachMessage_kept (q := q) all_u alive_u
  refine ⟨s',?_,all'⟩
  rw [msg_queue_attach,stamped,bind_eq_bind,bind_some]
  simp only [t_eq,offloaded,bind_eq_bind,bind_some,stamped_u,attached]
theorem ref_kept (all : s.AllKept msgs) (offset : Nat) (timestamp : Timestamp) : (s.log_msg_ref offset timestamp).2.AllKept msgs := by
  refine ⟨fun q' => (all.kept q').congr rfl rfl (fun e member => ?_) (le_succ s.next) rfl,all.listed_once,all.listed,fun a above => ?_⟩
  · have below := ((all.kept q').alive e member).2.1
    exact update_of_ne (by omega) _ _
  · have above' : s.next+1 ≤ a := above
    show update s.heap s.next _ a = none
    rw [update_of_ne (by omega)]
    exact all.unused a (by omega)
end

/-- What the report generator does with its queues: a message pointer is made, or attached to a
queue; it can be attached to several. -/
inductive QueueOp
  | log_msg_ref (offset : Nat) (timestamp : Timestamp)
  | msg_queue_attach (q data : Nat)

section
def step (s : FlowState) : QueueOp → Option FlowState
  | .log_msg_ref offset timestamp => some (s.log_msg_ref offset timestamp).2
  | .msg_queue_attach q data => s.msg_queue_attach q data
def runOps : List QueueOp → FlowState → Option FlowState
  | [],s => some s
  | op :: ops,s => (s.step op).bind (runOps ops)
/-- The queue and the message of an attachment. -/
def attachment (s : FlowState) : QueueOp → List (Nat × LogMsgPtr)
  | .log_msg_ref _ _ => []
  | .msg_queue_attach q data => (s.heap data).toList.map fun msg => (q,msg)
def attachments : List QueueOp → FlowState → List (Nat × LogMsgPtr)
  | [],_ => []
  | op :: ops,s => s.attachment op ++ ((s.step op).map (attachments ops)).getD []
def attachedTo (log : List (Nat × LogMsgPtr)) (q : Nat) : List LogMsgPtr := (log.filter fun entry => entry.1 = q).map Prod.snd
/-- Pointers that are attached have been made, and nothing is freed that another link has. -/
def Meets (s : FlowState) : QueueOp → Prop
  | .log_msg_ref _ _ => True
  | .msg_queue_attach _ data => ∃ msg, s.heap data = some msg ∧ s.FreesUnshared msg.timestamp
def AllMeet : List QueueOp → FlowState → Prop
  | [],_ => True
  | op :: ops,s => s.Meets op ∧ ∀ s', s.step op = some s' → AllMeet ops s'

theorem attachedTo_one (log : List (Nat × LogMsgPtr)) (q : Nat) (msg : LogMsgPtr) :
    attachedTo (log ++ [(q,msg)]) = oneMore (attachedTo log) q msg := by
  funext q'
  rw [attachedTo,filter_append,map_append,oneMore]
  by_cases here : q' = q
  · rw [here,update_self,filter_cons_of_pos (by simp)]
    rfl
  · rw [update_of_ne here,filter_cons_of_neg (by simpa using Ne.symm here)]
    exact append_nil _
theorem run_kept {s : FlowState} (ops : List QueueOp) (log : List (Nat × LogMsgPtr)) (all : s.AllKept (attachedTo log)) (meet : AllMeet ops s) :
    ∃ s', runOps ops s = some s' ∧ s'.AllKept (attachedTo (log ++ attachments ops s)) := by
  induction ops generalizing s log with
  | nil => exact ⟨s,rfl,by rwa [attachments,append_nil]⟩
  | cons op ops ih =>
    obtain ⟨meets,later⟩ := meet
    have one : ∃ t, s.step op = some t ∧ t.AllKept (attachedTo (log ++ s.attachment op)) := by
      cases op with
      | log_msg_ref offset timestamp => exact ⟨_,rfl,by rw [attachment,append_nil]; exact ref_kept all offset timestamp⟩
      | msg_queue_attach q data =>
        obtain ⟨msg,alive,unshared⟩ := meets
        obtain ⟨t,attached,all'⟩ := attach_kept (q := q) all alive unshared
        refine ⟨t,attached,?_⟩
        rwa [attachment,alive,Option.toList_some,List.map_singleton,attachedTo_one]
    obtain ⟨t,stepped,all'⟩ := one
    obtain ⟨s',ran,all''⟩ := ih _ all' (later t stepped)
    refine ⟨s',by rw [runOps,stepped]; exact ran,?_⟩
    rwa [attachments,stepped,map_some,getD_some,← append_assoc]
theorem init_kept (tmp_dir : Bool) : (init tmp_dir).AllKept (attachedTo []) :=
  ⟨fun q => ⟨⟨fun e member => (by cases member),.nil,.nil,.refl [],fun msg member => (by cases member),fun no => (by cases no),fun _ => rfl⟩,
    fun link none_there => (by cases none_there)⟩,.nil,fun q => ⟨fun member => (by cases member),fun some_there => absurd rfl some_there⟩,fun _ _ => rfl⟩
/-- In every run whose attachments free nothing that another link has, every queue is sorted and
complete. -/
theorem queues_complete (tmp_dir : Bool) (ops : List QueueOp) (meet : AllMeet ops (init tmp_dir)) :
    ∃ s, runOps ops (init tmp_dir) = some s ∧ ∀ q,
      (∃ msgs, s.msg_queue_foreach q = some msgs ∧ SortedBy LogMsgPtr.timestamp msgs ∧
        msgs.Perm (attachedTo (attachments ops (init tmp_dir)) q)) ∧
      SortedBy LogMsgPtr.timestamp (s.fileOf q) ∧ (∀ old ∈ s.fileOf q, ∀ young ∈ s.memoryOf q, old.timestamp ≤ young.timestamp) ∧
      Cached (s.queues q).queue (s.queues q).cache ∧ (q ∈ s.offload_queue ↔ (s.queues q).queue ≠ []) := by
  obtain ⟨s,ran,all⟩ := run_kept ops [] (init_kept tmp_dir) meet
  refine ⟨s,ran,fun q => ?_⟩
  have kept := all.kept q
  obtain ⟨file,-,between⟩ := SortedBy.append_iff.mp kept.sorted
  exact ⟨⟨_,kept.foreach,kept.sorted,kept.complete⟩,file,between,kept.cached,all.listed q⟩
/-- Two messages of different seconds, the older one later. -/
theorem queues_complete_late : ∃ s, runOps [.log_msg_ref 0 (.of 10 0),.msg_queue_attach 0 0,.log_msg_ref 1 (.of 9 0),.msg_queue_attach 0 2]
    (init true) = some s ∧ ∃ msgs, s.msg_queue_foreach 0 = some msgs ∧ SortedBy LogMsgPtr.timestamp msgs := by
  have meet : AllMeet [.log_msg_ref 0 (.of 10 0),.msg_queue_attach 0 0,.log_msg_ref 1 (.of 9 0),.msg_queue_attach 0 2] (init true) := by
    refine ⟨trivial,?_⟩
    rintro _ ⟨⟩
    refine ⟨⟨⟨0,.of 10 0⟩,rfl,fun end_ts due => by cases due⟩,?_⟩
    rintro _ ⟨⟩
    refine ⟨trivial,?_⟩
    rintro _ ⟨⟩
    refine ⟨⟨⟨1,.of 9 0⟩,rfl,fun end_ts due => by cases due⟩,?_⟩
    rintro _ ⟨⟩
    trivial
  obtain ⟨s,ran,all⟩ := queues_complete true _ meet
  obtain ⟨⟨msgs,seen,sorted,-⟩,-⟩ := all 0
  exact ⟨s,ran,msgs,seen,sorted⟩
end

section
variable {s s' : FlowState} {q q' : Nat} {end_ts : Timestamp}

/-- Messages of one second, attached to the first queue; the next address is that of the pointer. -/
def fill : Nat → Nat → List QueueOp
  | 0,_ => []
  | count+1,next => .log_msg_ref count (.of 10 0) :: .msg_queue_attach 0 next :: fill count (next+2)
/-- A message of two parallel branches, and messages of the first one. -/
def sharedOps : List QueueOp :=
  .log_msg_ref 0 (.of 10 0) :: .msg_queue_attach 0 0 :: .msg_queue_attach 1 0 :: fill 998 3 ++ [.log_msg_ref 999 (.of 20 0)]
/-- What the first of these messages leave behind. -/
structure Filled (s : FlowState) (next count : Nat) : Prop where
  next_is : s.next = next
  counted : s.msg_counter = count
  not_first : s.first_msg = false
  last : s.last_offload_ts = .of 10 0
  dir : s.tmp_dir = true
  listed : s.offload_queue = [0,1]
  shared : s.heap 0 = some ⟨0,.of 10 0⟩
  one : (s.queues 1).queue = [⟨2,0⟩] ∧ (s.queues 1).offload_ts = .of 0 0
  zero : (∃ rest, (s.queues 0).queue = ⟨1,0⟩ :: rest) ∧ (s.queues 0).offload_ts = .of 0 0
  tail : ∃ front tail, (s.queues 0).queue = front ++ [tail] ∧ tail.data < s.next ∧ s.stamp tail.data = some (.of 10 0)
theorem tailStamp_concat (s : FlowState) {front : List GList} {tail : GList} {ts : Timestamp} (stamped : s.stamp tail.data = some ts) :
    s.tailStamp (front ++ [tail]) = some (some ts) := by simp [stamped,tailStamp]
/-- A message that is no older than the tail, without offloading. -/
theorem attach_tail {t : FlowState} {data : Nat} {ts tail_ts : Timestamp} {front : List GList} {tail : GList}
    (noted : s.noteMessage ts = (none,t)) (stamped : s.stamp data = some ts) (split : (s.queues q).queue = front ++ [tail])
    (tail_stamp : s.stamp tail.data = some tail_ts) (order : tail_ts ≤ ts) (mark : (s.queues q).offload_ts ≤ ts) :
    s.msg_queue_attach q data =
      some (({ t with next := s.next+1 } : FlowState).setQueue q fun mq => { mq with queue := mq.queue ++ [⟨s.next,data⟩] }) := by
  have rest := noteMessage_rest s ts
  rw [noted] at rest
  dsimp only at rest
  have queues : t.queues = s.queues := by rw [rest]
  have stamps : ∀ data, t.stamp data = s.stamp data := fun data => by rw [stamp,stamp,rest]
  have next : t.next = s.next := by rw [rest]
  have entered : t.enterQueue q = t := by rw [enterQueue,queues,split,if_neg (by simp)]
  have no_reload : t.reloadLate q ts = some t := by rw [reloadLate,queues,if_neg (not_lt.mpr mark)]
  have attached : ({ t with next := t.next+1 } : FlowState).attach_msg_to_gqueue (t.queues q).queue (t.queues q).cache ⟨t.next,data⟩ =
      some ((t.queues q).queue ++ [⟨t.next,data⟩],(t.queues q).cache) := by
    have own : ({ t with next := t.next+1 } : FlowState).stamp data = some ts := (stamps data).trans stamped
    have at_tail : ({ t with next := t.next+1 } : FlowState).tailStamp (t.queues q).queue = some (some tail_ts) := by
      rw [queues,split]
      exact tailStamp_concat _ ((stamps tail.data).trans tail_stamp)
    rw [attach_msg_to_gqueue,own]
    simp only [bind_eq_bind,bind_some,at_tail,Option.any_some,decide_eq_true order,if_true]
    rfl
  rw [msg_queue_attach,stamped]
  simp only [noted,offloadDue,bind_eq_bind,bind_some,stamps,stamped,attachMessage,entered,no_reload,newLink,attached]
  rw [next,setQueue,setQueue,queues]
  rfl
theorem noteMessage_same {ts : Timestamp} (not_first : s.first_msg = false) (last : s.last_offload_ts = ts) :
    s.noteMessage ts = (none,{ s with msg_counter := s.msg_counter+1 }) := by simp [not_first,last,noteMessage]
theorem fill_filled (n next count : Nat) (filled : s.Filled next count) (large : 2 < next) :
    ∃ s', runOps (fill n next) s = some s' ∧ s'.Filled (next+2*n) (count+n) := by
  induction n generalizing s next count with
  | zero => exact ⟨s,rfl,filled⟩
  | succ n ih =>
    obtain ⟨rfl,rfl,not_first,last,dir,listed,shared,one,⟨⟨rest,zero⟩,mark⟩,front,tail,split,low,stamped⟩ := filled
    generalize t_eq : (s.log_msg_ref n (.of 10 0)).2 = t
    have heap : t.heap = update s.heap s.next (some ⟨n,.of 10 0⟩) := by rw [← t_eq]; rfl
    have next : t.next = s.next+1 := by rw [← t_eq]; rfl
    have same : t.queues = s.queues ∧ t.tmp_dir = s.tmp_dir ∧ t.offload_queue = s.offload_queue ∧ t.first_msg = s.first_msg ∧
        t.last_offload_ts = s.last_offload_ts ∧ t.msg_counter = s.msg_counter := by
      rw [← t_eq]
      exact ⟨rfl,rfl,rfl,rfl,rfl,rfl⟩
    obtain ⟨queues,dir_t,listed_t,first_t,last_t,count_t⟩ := same
    have own : t.stamp s.next = some (.of 10 0) := by rw [stamp,heap,update_self]; rfl
    have tail_stamp : t.stamp tail.data = some (.of 10 0) := by rw [stamp,heap,update_of_ne (by omega)]; exact stamped
    have attached := attach_tail (noteMessage_same (first_t.trans not_first) (last_t.trans last)) own (by rw [queues]; exact split) tail_stamp le_rfl
      (by rw [queues,mark]; decide)
    generalize u_eq : (({ t with msg_counter := t.msg_counter+1, next := t.next+1 } : FlowState).setQueue 0 fun mq =>
      { mq with queue := mq.queue ++ [⟨t.next,s.next⟩] }) = u
    have u_zero : u.queues 0 = { s.queues 0 with queue := (s.queues 0).queue ++ [⟨t.next,s.next⟩] } := by
      rw [← u_eq,setQueue_self]
      simp only [queues]
    have u_one : u.queues 1 = s.queues 1 := by simp [← u_eq,queues,setQueue_other]
    have u_heap : u.heap = t.heap := by rw [← u_eq]; rfl
    have filled_u : u.Filled (s.next+2) (s.msg_counter+1) := by
      refine ⟨by rw [← u_eq]; show t.next+1 = s.next+2; omega,by rw [← u_eq]; show t.msg_counter+1 = _; omega,by rw [← u_eq]; exact first_t.trans not_first,
        by rw [← u_eq]; exact last_t.trans last,by rw [← u_eq]; exact dir_t.trans dir,by rw [← u_eq]; exact listed_t.trans listed,?_,
        by rw [u_one]; exact one,?_,?_⟩
      · rw [u_heap,heap,update_of_ne (by omega)]
        exact shared
      · grind
      · rw [u_zero]
        refine ⟨_,_,rfl,?_,?_⟩
        · rw [← u_eq]
          show s.next < t.next+1
          omega
        · rw [stamp,u_heap]
          exact own
    obtain ⟨s',ran,filled'⟩ := ih (s.next+2) (s.msg_counter+1) filled_u (by omega)
    refine ⟨s',?_,?_⟩
    · rw [fill,runOps]
      show (runOps _ (s.log_msg_ref n (.of 10 0)).2) = _
      rw [t_eq,runOps]
      show (t.msg_queue_attach 0 s.next).bind _ = _
      rw [attached]
      show runOps _ (FlowState.setQueue { t with msg_counter := t.msg_counter+1, next := t.next+1 } 0 fun mq =>
        { mq with queue := mq.queue ++ [⟨t.next,s.next⟩] }) = _
      rw [u_eq,ran]
    · grind
/-- Freed memory stays freed, and other queues stay as they are. -/
theorem offloadLoop_frame (queue : List GList) (looped : offloadLoop q end_ts queue s = some s') :
    (∀ other, other ≠ q → s'.queues other = s.queues other) ∧ s'.tmp_dir = s.tmp_dir ∧ ∀ a, s.heap a = none → s'.heap a = none := by
  induction queue generalizing s with
  | nil =>
    obtain rfl := some.inj looped
    exact ⟨fun _ _ => rfl,rfl,fun _ freed => freed⟩
  | cons e rest ih =>
    obtain ⟨msg,-,turn⟩ := of_bind looped
    split_ifs at turn
    · grind
    · obtain ⟨queues,dir,heap⟩ := ih turn
      refine ⟨fun other apart => (queues other apart).trans (setQueue_other apart _),dir,fun a freed => heap a ?_⟩
      show update s.heap e.data none a = none
      by_cases here : a = e.data
      · rw [here,update_self]
      · rw [update_of_ne here,freed]
/-- Offloading a message that a second queue has, too, reads freed memory. -/
theorem offload_shared (s : FlowState) (q q' : Nat) (end_ts : Timestamp) {rest rest' : List GList} {e e' : GList} {msg : LogMsgPtr}
    (other : q' ≠ q) (dir : s.tmp_dir = true) (queue : (s.queues q).queue = e :: rest) (queue' : (s.queues q').queue = e' :: rest') (shared : e'.data = e.data)
    (alive : s.heap e.data = some msg) (old : msg.timestamp ≤ end_ts) (early : (s.queues q).offload_ts < end_ts)
    (early' : (s.queues q').offload_ts < end_ts) (due : s.offload_queue = [q,q']) : s.offloadDue (some end_ts) = none := by
  have second : ∀ t, s.msg_queue_offload q end_ts = some t → t.msg_queue_offload q' end_ts = none := by
    intro t offloaded
    rw [msg_queue_offload,if_neg (by rw [queue]; simp),dir,if_neg (by decide),if_neg (not_le.mpr early)] at offloaded
    obtain ⟨u,looped,done⟩ := of_bind offloaded
    obtain rfl := some.inj done
    rw [queue] at looped
    obtain ⟨found,alive',turn⟩ := of_bind looped
    obtain rfl := some.inj (alive.symm.trans alive')
    rw [if_neg (not_lt.mpr old)] at turn
    obtain ⟨queues,dir',heap⟩ := offloadLoop_frame rest turn
    generalize t_eq : (u.setQueue q fun mq => { mq with cache := none }) = t
    have t_queue : t.queues q' = s.queues q' := by
      rw [← t_eq,setQueue_other other,queues q' other]
      exact setQueue_other other _
    have t_dir : t.tmp_dir = true := by
      rw [← t_eq]
      exact dir'
    have freed : t.heap e'.data = none := by
      rw [← t_eq,shared]
      have gone : update s.heap e.data none e.data = none := update_self _ _ _
      exact heap e.data gone
    rw [msg_queue_offload,t_queue,if_neg (by rw [queue']; simp),t_dir,if_neg (by decide),if_neg (not_le.mpr early')]
    show (offloadLoop q' end_ts (t.queues q').queue _).bind _ = none
    rw [t_queue,queue',offloadLoop]
    show Option.bind (Option.bind (t.heap e'.data) _) _ = none
    rw [freed]
    rfl
  rw [offloadDue]
  simp only
  rw [due,offloadAll]
  rcases first : s.msg_queue_offload q end_ts with _ | t
  · rfl
  · simp only [bind_eq_bind,bind_some,offloadAll,second t first,bind_none,map_none]
theorem runOps_append (ops more : List QueueOp) (s : FlowState) : runOps (ops ++ more) s = (runOps ops s).bind (runOps more) := by
  induction ops generalizing s with
  | nil => rfl
  | cons op ops ih =>
    rw [cons_append,runOps,runOps]
    rcases s.step op with _ | t
    · rfl
    · exact ih t
/-- A message of two parallel branches is attached to a queue of each. When it is offloaded, the
second queue finds it freed. -/
theorem shared_message_freed : ∃ s, runOps sharedOps (init true) = some s ∧ s.heap 1999 = some ⟨999,.of 20 0⟩ ∧
    s.msg_queue_attach 0 1999 = none := by
  obtain ⟨first,started,filled⟩ : ∃ first, (∀ more, runOps (.log_msg_ref 0 (.of 10 0) :: .msg_queue_attach 0 0 :: .msg_queue_attach 1 0 :: more)
      (init true) = runOps more first) ∧ first.Filled 3 2 :=
    ⟨_,fun more => rfl,⟨rfl,rfl,rfl,rfl,rfl,rfl,rfl,⟨rfl,rfl⟩,⟨⟨[],rfl⟩,rfl⟩,[],_,rfl,by decide,rfl⟩⟩
  obtain ⟨s,ran,filled⟩ := fill_filled 998 3 2 filled (by decide)
  obtain ⟨next_is,counted,not_first,last,dir,listed,shared,⟨one,mark_one⟩,⟨⟨rest,zero⟩,mark⟩,-⟩ := filled
  refine ⟨(s.log_msg_ref 999 (.of 20 0)).2,?_,?_,?_⟩
  · rw [sharedOps,cons_append,cons_append,cons_append,started,runOps_append,ran]
    rfl
  · show update s.heap s.next _ 1999 = _
    rw [next_is]
    exact update_self _ _ _
  · generalize t_eq : (s.log_msg_ref 999 (.of 20 0)).2 = t
    have heap : t.heap = update s.heap 1999 (some ⟨999,.of 20 0⟩) := by
      rw [← t_eq]
      show update s.heap s.next _ = _
      rw [next_is]
    have own : t.stamp 1999 = some (.of 20 0) := by rw [stamp,heap,update_self]; rfl
    have noted : t.noteMessage (.of 20 0) = (some (.of 17 0),{ t with msg_counter := 0, last_offload_ts := .of 17 0 }) := by
      have first_t : t.first_msg = false := by rw [← t_eq]; exact not_first
      have last_t : t.last_offload_ts = .of 10 0 := by rw [← t_eq]; exact last
      have counted_t : t.msg_counter = 1000 := by rw [← t_eq]; exact counted
      rw [noteMessage]
      dsimp only
      rw [if_neg (by rw [first_t]; decide),if_pos (by rw [last_t,counted_t]; decide)]
      rfl
    have zero_t : (t.queues 0).queue = ⟨1,0⟩ :: rest := by rw [← t_eq]; exact zero
    have one_t : (t.queues 1).queue = [⟨2,0⟩] := by rw [← t_eq]; exact one
    have fails := offload_shared { t with msg_counter := 0, last_offload_ts := .of 17 0 } 0 1 (.of 17 0)
      (by decide) (by rw [← t_eq]; exact dir) zero_t one_t rfl
      (by show t.heap 0 = _; rw [heap,update_of_ne (by decide)]; exact shared) (by decide)
      (by rw [← t_eq]; show (s.queues 0).offload_ts < _; rw [mark]; decide)
      (by rw [← t_eq]; show (s.queues 1).offload_ts < _; rw [mark_one]; decide) (by rw [← t_eq]; exact listed)
    rw [msg_queue_attach,own,bind_eq_bind,bind_some]
    simp only [noted,fails,bind_eq_bind,bind_none]
end
end FlowState
end TestEnvironment.Rgt
