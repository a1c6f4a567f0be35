import TestEnvironment.Rgt.MsgQueue
import TestEnvironment.Lib.Sorted

/-!
What one operation on the queues keeps: the file part and the memory part of a queue together are
sorted and hold its messages, whatever is offloaded or reloaded.
-/
namespace TestEnvironment.Rgt
open Lib
namespace FlowState

section
variable (s : FlowState)

/-- The message of a link. -/
def msgOf (e : GList) : LogMsgPtr := (s.heap e.data).getD default
def fileOf (q : Nat) : List LogMsgPtr := (s.files q).getD []
def memoryOf (q : Nat) : List LogMsgPtr := (s.queues q).queue.map s.msgOf
/-- The links of the queue point to messages that are not freed. -/
def Alive (queue : List GList) : Prop := ∀ e ∈ queue, e.link < s.next ∧ e.data < s.next ∧ s.heap e.data = some (s.msgOf e)
/-- The two parts of a queue with these messages. The file ends before the memory begins, and no
later than `offload_ts`. -/
structure Parts (q : Nat) (msgs : List LogMsgPtr) : Prop where
  alive : s.Alive (s.queues q).queue
  links : ((s.queues q).queue.map GList.link).Nodup
  sorted : SortedBy LogMsgPtr.timestamp (s.fileOf q ++ s.memoryOf q)
  complete : (s.fileOf q ++ s.memoryOf q).Perm msgs
  mark : ∀ msg ∈ s.fileOf q, msg.timestamp ≤ (s.queues q).offload_ts
  file : (s.queues q).offloaded = true → s.tmp_dir = true ∧ s.files q ≠ none
  no_file : (s.queues q).offloaded = false → s.fileOf q = []
/-- The cached position is an element of the queue. -/
def Cached (queue : List GList) (cache : Option Nat) : Prop := ∀ link, cache = some link → link ∈ queue.map GList.link
structure Kept (q : Nat) (msgs : List LogMsgPtr) : Prop extends s.Parts q msgs where
  cached : Cached (s.queues q).queue (s.queues q).cache
end

section
variable {s s' : FlowState} {q : Nat} {msgs : List LogMsgPtr} {queue : List GList} {e : GList}

theorem msgOf_congr (same : s'.heap e.data = s.heap e.data) : s'.msgOf e = s.msgOf e := by rw [msgOf,msgOf,same]
theorem Alive.congr (alive : s.Alive queue) (heap : ∀ e ∈ queue, s'.heap e.data = s.heap e.data) (next : s.next ≤ s'.next) :
    s'.Alive queue ∧ queue.map s'.msgOf = queue.map s.msgOf := by
  constructor
  · intro e member
    obtain ⟨link,data,here⟩ := alive e member
    rw [msgOf_congr (heap e member),heap e member]
    exact ⟨by omega,by omega,here⟩
  · exact map_congr_left fun e member => msgOf_congr (heap e member)
/-- A queue that nothing is done to. -/
theorem Parts.congr (parts : s.Parts q msgs) (queues : s'.queues q = s.queues q) (files : s'.files q = s.files q)
    (heap : ∀ e ∈ (s.queues q).queue, s'.heap e.data = s.heap e.data) (next : s.next ≤ s'.next) (dir : s'.tmp_dir = s.tmp_dir) :
    s'.Parts q msgs := by
  obtain ⟨alive,same⟩ := parts.alive.congr heap next
  have file : s'.fileOf q = s.fileOf q := by rw [fileOf,fileOf,files]
  have memory : s'.memoryOf q = s.memoryOf q := by rw [memoryOf,memoryOf,queues,same]
  refine ⟨by rwa [queues],by rw [queues]; exact parts.links,by rw [file,memory]; exact parts.sorted,by rw [file,memory]; exact parts.complete,
    ?_,?_,?_⟩
  · rw [file,queues]
    exact parts.mark
  · rw [queues,dir,files]
    exact parts.file
  · rw [queues,file]
    exact parts.no_file
theorem Kept.congr (kept : s.Kept q msgs) (queues : s'.queues q = s.queues q) (files : s'.files q = s.files q)
    (heap : ∀ e ∈ (s.queues q).queue, s'.heap e.data = s.heap e.data) (next : s.next ≤ s'.next) (dir : s'.tmp_dir = s.tmp_dir) :
    s'.Kept q msgs := ⟨kept.toParts.congr queues files heap next dir,by rw [queues]; exact kept.cached⟩
theorem setQueue_self (f : MsgQueue → MsgQueue) : (s.setQueue q f).queues q = f (s.queues q) := update_self q _ _
theorem setQueue_other {q' : Nat} (other : q' ≠ q) (f : MsgQueue → MsgQueue) : (s.setQueue q f).queues q' = s.queues q' :=
  update_of_ne other _ _
/-- A callback sees the file part and then the memory part. -/
theorem Parts.foreach (parts : s.Parts q msgs) : s.msg_queue_foreach q = some (s.fileOf q ++ s.memoryOf q) := by
  have memory : ∀ queue : List GList, s.Alive queue → (queue.mapM fun e => s.heap e.data) = some (queue.map s.msgOf) := by
    intro queue
    induction queue with
    | nil => exact fun _ => rfl
    | cons e queue ih =>
      intro alive
      rw [List.mapM_cons,(alive e mem_cons_self).2.2,ih fun e' member => alive e' (mem_cons_of_mem e member)]
      rfl
  have offloaded : s.offloadedPart q = some (s.fileOf q) := by
    rw [offloadedPart]
    rcases here : (s.queues q).offloaded with _ | _
    · rw [Bool.and_false,if_neg (by decide),parts.no_file here]
    · obtain ⟨dir,file⟩ := parts.file here
      obtain ⟨records,found⟩ := ne_none_iff_exists'.mp file
      rw [dir,Bool.and_true,if_pos rfl,fileOf,found]
      rfl
  rw [msg_queue_foreach,offloaded,memory _ parts.alive]
  rfl
end

section
variable {s : FlowState} {queue : List GList} {ts : Timestamp}

theorem Alive.stamp (alive : s.Alive queue) {e : GList} (member : e ∈ queue) : s.stamp e.data = some (s.msgOf e).timestamp := by
  rw [FlowState.stamp,(alive e member).2.2,map_some]
theorem Alive.subset {queue' : List GList} (alive : s.Alive queue) (subset : ∀ e ∈ queue', e ∈ queue) : s.Alive queue' :=
  fun e member => alive e (subset e member)
theorem Alive.passWhile (alive : s.Alive queue) (p : Timestamp → Bool) : s.passWhile p queue =
    some (queue.takeWhile (fun e => p (s.msgOf e).timestamp),queue.dropWhile fun e => p (s.msgOf e).timestamp) := by
  induction queue with
  | nil => rfl
  | cons e queue ih =>
    have later := ih (alive.subset fun e' member => mem_cons_of_mem e member)
    rw [FlowState.passWhile,alive.stamp mem_cons_self,bind_eq_bind,bind_some]
    rcases here : p (s.msgOf e).timestamp with _ | _
    · simp [here]
    · simp_all
theorem cutAt_of {link : Nat} (member : link ∈ queue.map GList.link) :
    ∃ before e after, cutAt link queue = some (before,e,after) ∧ queue = before ++ e :: after ∧ e.link = link := by
  induction queue with
  | nil => cases member
  | cons first queue ih =>
    rw [cutAt]
    split_ifs with here
    · exact ⟨[],first,queue,rfl,rfl,here⟩
    · grind

/-- Where a message is put: behind what is not newer and before what is not older. -/
structure Put (s : FlowState) (queue : List GList) (new : GList) (ts : Timestamp) (result : List GList × Option Nat) : Prop where
  place : ∃ before after, queue = before ++ after ∧ result.1 = before ++ new :: after ∧
    (∀ e ∈ before, (s.msgOf e).timestamp ≤ ts) ∧ ∀ e ∈ after, ts ≤ (s.msgOf e).timestamp
  cached : Cached result.1 result.2

variable {new : GList} {before after : List GList} {cached : GList} {cache : Option Nat}
theorem Cached.more (before after : List GList) (known : Cached (before ++ after) cache) : Cached (before ++ new :: after) cache := by
  intro link same
  have member := known link same
  simp only [map_append,map_cons,mem_append,mem_cons] at member ⊢
  tauto
/-- The loop backwards from a cached link that is newer. -/
theorem back_put (new : GList) (ts : Timestamp) (alive : s.Alive (before ++ cached :: after)) (sorted : SortedBy (fun e => (s.msgOf e).timestamp) (before ++ cached :: after))
    (known : Cached (before ++ cached :: after) cache) (newer : ts < (s.msgOf cached).timestamp) :
    ∃ result, (s.passWhile (fun elem => decide (ts < elem)) before.reverse).map (fun (passed,rest) =>
      (rest.reverse ++ new :: passed.reverse ++ cached :: after,cache)) = some result ∧ Put s (before ++ cached :: after) new ts result := by
  have alive' : s.Alive before.reverse := alive.subset fun e member => mem_append_left _ (mem_reverse.mp member)
  obtain ⟨sorted_before,sorted_after,-⟩ := SortedBy.append_iff.mp sorted
  obtain ⟨first,-⟩ := SortedBy.cons_iff.mp sorted_after
  have older := sorted_before.back_le (k := ts)
  rw [alive'.passWhile]
  generalize passed_eq : before.reverse.takeWhile (fun e => decide (ts < (s.msgOf e).timestamp)) = passed
  generalize rest_eq : before.reverse.dropWhile (fun e => decide (ts < (s.msgOf e).timestamp)) = rest at older
  have split : before = rest.reverse ++ passed.reverse := by
    rw [← reverse_append,← passed_eq,← rest_eq,takeWhile_append_dropWhile,reverse_reverse]
  have whole : before ++ cached :: after = rest.reverse ++ (passed.reverse ++ cached :: after) := by rw [split,append_assoc]
  have shape : rest.reverse ++ new :: passed.reverse ++ cached :: after = rest.reverse ++ new :: (passed.reverse ++ cached :: after) := by
    rw [append_assoc,cons_append]
  refine ⟨_,rfl,⟨rest.reverse,passed.reverse ++ cached :: after,whole,shape,?_,?_⟩,?_⟩
  · intro e member
    exact older e (mem_reverse.mp member)
  · intro e member
    obtain passed_there | behind := mem_append.mp member
    · rw [mem_reverse,← passed_eq] at passed_there
      exact le_of_lt (takeWhile_gt (fun e => (s.msgOf e).timestamp) passed_there)
    · grind
  · grind [Cached]
/-- The search from the cached link on. -/
theorem attachFrom_put (alive : s.Alive (before ++ cached :: after)) (sorted : SortedBy (fun e => (s.msgOf e).timestamp) (before ++ cached :: after))
    (known : Cached (before ++ cached :: after) cache) (newer : ∃ e ∈ before ++ cached :: after, ts < (s.msgOf e).timestamp) :
    ∃ result, s.attachFrom before cached after new ts cache = some result ∧ Put s (before ++ cached :: after) new ts result := by
  have here := mem_append_right before (mem_cons_self (a := cached) (l := after))
  obtain ⟨sorted_before,sorted_after,between⟩ := SortedBy.append_iff.mp sorted
  obtain ⟨first,sorted_behind⟩ := SortedBy.cons_iff.mp sorted_after
  have back := back_put new ts alive sorted known
  rw [attachFrom,alive.stamp here,bind_eq_bind,bind_some]
  obtain ⟨last,among,newer⟩ := newer
  rcases after with _ | ⟨follows,further⟩
  · grind
  · simp only
    split_ifs with old
    · have follows_there : follows ∈ before ++ cached :: follows :: further :=
        mem_append_right _ (mem_cons_of_mem _ mem_cons_self)
      obtain ⟨behind_follows,sorted_further⟩ := SortedBy.cons_iff.mp sorted_behind
      have until_here : ∀ e ∈ before ++ [cached], (s.msgOf e).timestamp ≤ ts := by grind
      rw [alive.stamp follows_there,bind_eq_bind,bind_some]
      split_ifs with soon
      · refine ⟨_,rfl,⟨before ++ [cached],follows :: further,by simp,by simp,until_here,?_⟩,?_⟩
        · grind
        · rintro link same
          obtain rfl := some.inj same
          simp
      · have alive' : s.Alive further := alive.subset fun e member =>
          mem_append_right _ (mem_cons_of_mem _ (mem_cons_of_mem _ member))
        have later := sorted_further.dropWhile_ge (k := ts)
        rw [alive'.passWhile,bind_some]
        generalize passed_eq : further.takeWhile (fun e => decide ((s.msgOf e).timestamp < ts)) = passed
        generalize rest_eq : further.dropWhile (fun e => decide ((s.msgOf e).timestamp < ts)) = rest at later
        have split : further = passed ++ rest := by rw [← passed_eq,← rest_eq,takeWhile_append_dropWhile]
        have passed_old : ∀ e ∈ passed, (s.msgOf e).timestamp < ts := by
          intro e member
          rw [← passed_eq] at member
          exact takeWhile_lt (fun e => (s.msgOf e).timestamp) member
        -- the last element is newer, so that the loop stops before the end
        have some_left : rest ≠ [] := by
          rintro rfl
          rw [append_nil] at split
          refine absurd newer (not_lt.mpr ?_)
          obtain left | right := mem_append.mp among
          · exact until_here last (mem_append_left _ left)
          · obtain rfl | right := mem_cons.mp right
            · exact old
            · obtain rfl | right := mem_cons.mp right
              · exact le_of_lt (not_le.mp soon)
              · rw [split] at right
                exact le_of_lt (passed_old last right)
        rw [if_neg some_left]
        refine ⟨_,rfl,⟨before ++ cached :: follows :: passed,rest,by rw [split]; simp,by simp,?_,later⟩,?_⟩
        · intro e member
          obtain left | right := mem_append.mp member
          · exact until_here e (mem_append_left _ left)
          · obtain rfl | right := mem_cons.mp right
            · exact old
            · obtain rfl | right := mem_cons.mp right
              · exact le_of_lt (not_le.mp soon)
              · exact le_of_lt (passed_old e right)
        · rintro link same
          obtain rfl := some.inj same
          simp
    · exact back (not_le.mp old)
/-- A message always finds its place in a sorted queue. -/
theorem attach_put (new : GList) (ts : Timestamp) (alive : s.Alive queue) (sorted : SortedBy (fun e => (s.msgOf e).timestamp) queue) (known : Cached queue cache)
    (stamped : s.stamp new.data = some ts) :
    ∃ result, s.attach_msg_to_gqueue queue cache new = some result ∧ Put s queue new ts result := by
  have tail : ∃ tail, s.tailStamp queue = some tail ∧ (tail.any (· ≤ ts) = true → ∀ e ∈ queue, (s.msgOf e).timestamp ≤ ts) ∧
      (tail.any (· ≤ ts) = false → queue = [] ∨ ∃ e ∈ queue, ts < (s.msgOf e).timestamp) := by
    rw [tailStamp]
    rcases last_eq : queue.getLast? with _ | last
    · simp_all
    · obtain ⟨front,rfl⟩ := List.getLast?_eq_some_iff.mp last_eq
      have last_there : last ∈ front ++ [last] := mem_append_right _ mem_cons_self
      simp only [alive.stamp last_there,map_some]
      refine ⟨_,rfl,fun yes e member => ?_,fun no => .inr ⟨last,last_there,?_⟩⟩
      · exact le_trans (sorted.le_last e member) (of_decide_eq_true yes)
      · exact not_le.mp (of_decide_eq_false no)
  obtain ⟨tail,found,all_old,some_newer⟩ := tail
  rw [attach_msg_to_gqueue,stamped,bind_eq_bind,bind_some,found,bind_eq_bind,bind_some]
  split_ifs with yes
  · exact ⟨_,rfl,⟨queue,[],(append_nil queue).symm,rfl,all_old yes,fun e member => by cases member⟩,by
      rw [← append_nil queue] at known
      exact known.more queue []⟩
  · rcases cache with _ | link
    · have later := sorted.dropWhile_ge (k := ts)
      simp only
      rw [alive.passWhile,bind_eq_bind,bind_some]
      refine ⟨_,rfl,⟨_,_,(takeWhile_append_dropWhile).symm,rfl,?_,later⟩,?_⟩
      · intro e member
        exact le_of_lt (takeWhile_lt (fun e => (s.msgOf e).timestamp) member)
      · intro link same
        obtain ⟨e,first,rfl⟩ := of_map same
        exact mem_map_of_mem (mem_of_find?_eq_some first)
    · obtain ⟨before,cached,after,cut,rfl,-⟩ := cutAt_of (known link rfl)
      simp only
      rw [cut,bind_eq_bind,bind_some]
      refine attachFrom_put alive sorted known ?_
      obtain none_there | newer := some_newer (Bool.eq_false_iff.mpr yes)
      · simp at none_there
      · exact newer
end

/-- What a step that works on one queue leaves alone. -/
structure OnlyQueue (q : Nat) (s s' : FlowState) : Prop where
  queues : ∀ q', q' ≠ q → s'.queues q' = s.queues q'
  files : ∀ q', q' ≠ q → s'.files q' = s.files q'
  next : s.next ≤ s'.next
  dir : s'.tmp_dir = s.tmp_dir
  listed : s'.offload_queue = s.offload_queue
theorem OnlyQueue.refl (q : Nat) (s : FlowState) : OnlyQueue q s s := ⟨fun _ _ => rfl,fun _ _ => rfl,le_rfl,rfl,rfl⟩
theorem OnlyQueue.trans {q : Nat} {s₁ s₂ s₃ : FlowState} (first : OnlyQueue q s₁ s₂) (second : OnlyQueue q s₂ s₃) : OnlyQueue q s₁ s₃ :=
  ⟨fun q' other => (second.queues q' other).trans (first.queues q' other),fun q' other => (second.files q' other).trans (first.files q' other),
    le_trans first.next second.next,second.dir.trans first.dir,second.listed.trans first.listed⟩
theorem OnlyQueue.set (q : Nat) (s : FlowState) (f : MsgQueue → MsgQueue) : OnlyQueue q s (s.setQueue q f) :=
  ⟨fun _ other => setQueue_other other f,fun _ _ => rfl,le_rfl,rfl,rfl⟩

section
variable {s : FlowState} {q : Nat} {msgs records : List LogMsgPtr} {ts : Timestamp}

/-- The binary search stops where everything before is old. -/
theorem search_old (sorted : SortedBy LogMsgPtr.timestamp records) (fuel lo hi : Nat) (enough : hi-lo < fuel) (within : hi < records.length)
    (order : lo ≤ hi) (old : ∀ a ∈ records.take (lo+1), a.timestamp < ts) :
    ∃ start, searchStart records ts fuel lo hi = some start ∧ ∀ a ∈ records.take start, a.timestamp < ts := by
  induction fuel generalizing lo hi with
  | zero => omega
  | succ fuel ih =>
    rw [searchStart]
    split_ifs with wide
    · obtain ⟨inside,middle⟩ : (lo+hi)/2 < records.length ∧ lo < (lo+hi)/2 ∧ (lo+hi)/2 < hi := by omega
      dsimp only
      rw [getElem?_eq_getElem inside,bind_eq_bind,bind_some]
      split_ifs with young
      · exact ih lo _ (by omega) (by omega) (by omega) old
      · refine ih _ hi (by omega) within (by omega) ?_
        have split := take_append_drop ((lo+hi)/2) records
        rw [List.drop_eq_getElem_cons inside] at split
        rw [← split] at sorted
        obtain ⟨-,-,between⟩ := SortedBy.append_iff.mp sorted
        rw [List.take_succ_eq_append_getElem inside]
        intro a member
        obtain before | here := mem_append.mp member
        · grind
        · rw [mem_singleton.mp here]
          exact not_le.mp young
    · grind
theorem reloadStart_old (ts : Timestamp) {first : LogMsgPtr} {behind : List LogMsgPtr} (sorted : SortedBy LogMsgPtr.timestamp (first :: behind)) :
    ∃ start, reloadStart (first :: behind) first (some ts) = some start ∧ ∀ a ∈ (first :: behind).take start, a.timestamp < ts := by
  rw [reloadStart]
  split_ifs with old
  · simp [sorted,old,search_old]
  · exact ⟨0,rfl,fun a member => by cases member⟩
theorem insertIdx_behind (front back : List GList) (new : GList) : (front ++ back).insertIdx front.length new = front ++ new :: back := by
  induction front with
  | nil => exact List.insertIdx_zero
  | cons e front ih => simp [ih]

/-- New links for these messages. -/
structure Loaded (young : List LogMsgPtr) (new : List GList) (s s' : FlowState) : Prop where
  heap : ∀ a, a < s.next → s'.heap a = s.heap a
  above : ∀ a, s'.next ≤ a → s'.heap a = s.heap a
  fresh : ∀ e ∈ new, s.next ≤ e.link
  alive : s'.Alive new
  messages : new.map s'.msgOf = young
  links : (new.map GList.link).Nodup
/-- The records behind the first one that is reloaded follow it. -/
theorem reloadLoop_young (young : List LogMsgPtr) (front back : List GList) (pos first : Nat) (are_young : ∀ a ∈ young, ts ≤ a.timestamp)
    (queue : (s.queues q).queue = front ++ back) (place : pos = first+front.length) :
    ∃ new s', reloadLoop q (some ts) young pos (some first) s = some (some first,s') ∧ Loaded young new s s' ∧
      OnlyQueue q s s' ∧ s'.files = s.files ∧ s'.queues q = { s.queues q with queue := front ++ new ++ back } := by
  induction young generalizing front pos s with
  | nil =>
    refine ⟨[],s,rfl,⟨fun _ _ => rfl,fun _ _ => rfl,fun e member => (by cases member),fun e member => (by cases member),rfl,.nil⟩,.refl q s,rfl,?_⟩
    rw [append_nil,← queue]
  | cons msg young ih =>
    have here := are_young msg mem_cons_self
    generalize new_eq : (⟨s.next+1,s.next⟩ : GList) = new
    generalize t_eq : ({ s with heap := update s.heap s.next (some msg), next := s.next+1+1 } : FlowState).setQueue q
      (fun mq => { mq with queue := mq.queue.insertIdx front.length new }) = t
    have queues : t.queues q = { s.queues q with queue := front ++ [new] ++ back } := by grind [setQueue_self,insertIdx_behind]
    obtain ⟨behind,s',looped,loaded,only,files,result⟩ := ih (s := t) (front ++ [new]) (pos+1)
      (fun a member => are_young a (mem_cons_of_mem msg member)) (by rw [queues]) (by rw [length_append]; simp; omega)
    have t_next : t.next = s.next+2 := by rw [← t_eq]; rfl
    have t_heap : t.heap = update s.heap s.next (some msg) := by rw [← t_eq]; rfl
    have first_only : OnlyQueue q s t := by
      rw [← t_eq]
      exact ⟨fun q' other => setQueue_other other _,fun _ _ => rfl,by show s.next ≤ s.next+1+1; omega,rfl,rfl⟩
    have at_new : s'.heap s.next = some msg := by rw [loaded.heap s.next (by omega),t_heap,update_self]
    have new_msg : s'.msgOf new = msg := by rw [msgOf,← new_eq,at_new]; rfl
    refine ⟨new :: behind,s',?_,⟨?_,?_,?_,?_,?_,?_⟩,first_only.trans only,?_,?_⟩
    · simp [here,← looped,← t_eq,← new_eq,place,reloadLoop,alloc,newLink]
    · intro a less
      rw [loaded.heap a (by omega),t_heap,update_of_ne (by omega)]
    · intro a more
      have grown := only.next
      rw [loaded.above a more,t_heap,update_of_ne (by omega)]
    · intro e member
      obtain rfl | later := mem_cons.mp member
      · rw [← new_eq]
        exact le_succ _
      · have := loaded.fresh e later
        omega
    · intro e member
      obtain rfl | later := mem_cons.mp member
      · have grown := only.next
        rw [new_msg,← new_eq]
        exact ⟨by simp only; omega,by simp only; omega,at_new⟩
      · exact loaded.alive e later
    · rw [map_cons,new_msg,loaded.messages]
    · rw [map_cons,nodup_cons]
      refine ⟨fun again => ?_,loaded.links⟩
      obtain ⟨e,member,same⟩ := mem_map.mp again
      have := loaded.fresh e member
      rw [← new_eq] at same
      simp only at same
      omega
    · rw [files,← t_eq]
      rfl
    · grind
/-- Old records are left, and all behind them are reloaded. -/
theorem reloadLoop_splits (s : FlowState) (q : Nat) (ts : Timestamp) (l : List LogMsgPtr) (pos : Nat) (sorted : SortedBy LogMsgPtr.timestamp l) :
    ∃ old young, l = old ++ young ∧ (∀ a ∈ old, a.timestamp < ts) ∧ (∀ a ∈ young, ts ≤ a.timestamp) ∧
      (young = [] ∧ reloadLoop q (some ts) l pos none s = some (none,s) ∨
        ∃ first rest new s', young = first :: rest ∧ reloadLoop q (some ts) l pos none s = some (some (pos+old.length),s') ∧
          Loaded young new s s' ∧ OnlyQueue q s s' ∧ s'.files = s.files ∧
          s'.queues q = { s.queues q with queue := new ++ (s.queues q).queue, offload_ts := first.timestamp }) := by
  induction l generalizing pos with
  | nil => exact ⟨[],[],rfl,fun a member => (by cases member),fun a member => (by cases member),.inl ⟨rfl,rfl⟩⟩
  | cons msg l ih =>
    obtain ⟨first,rest⟩ := SortedBy.cons_iff.mp sorted
    by_cases young : ts ≤ msg.timestamp
    · have are_young : ∀ a ∈ msg :: l, ts ≤ a.timestamp := by grind
      obtain ⟨new,s',looped,loaded,only,files,result⟩ := reloadLoop_young
        (s := s.setQueue q fun mq => { mq with offload_ts := msg.timestamp }) (q := q) (msg :: l) [] (s.queues q).queue pos pos are_young
        (by rw [setQueue_self]; rfl) rfl
      refine ⟨[],msg :: l,rfl,fun a member => (by cases member),are_young,.inr ⟨msg,l,new,s',rfl,?_,?_,?_,files,?_⟩⟩
      · simp_all [reloadLoop]
      · exact ⟨loaded.heap,loaded.above,loaded.fresh,loaded.alive,loaded.messages,loaded.links⟩
      · exact (OnlyQueue.set q s _).trans only
      · rw [result,setQueue_self]
        rfl
    · obtain ⟨old,behind,split,are_old,are_young,done⟩ := ih (pos+1) rest
      have skipped : reloadLoop q (some ts) (msg :: l) pos none s = reloadLoop q (some ts) l (pos+1) none s := by
        rw [reloadLoop,if_neg (by simpa using young),if_pos rfl]
      refine ⟨msg :: old,behind,by rw [split]; rfl,?_,are_young,?_⟩
      · grind
      · grind

theorem truncateFile_spec (t : FlowState) (q : Nat) (records : List LogMsgPtr) (length : Nat) :
    t.truncateFile q records (some length) =
      { t with
        queues := update t.queues q { t.queues q with offloaded := (t.queues q).offloaded && decide (length ≠ 0) }
        files := update t.files q (some (records.take length)) } := by
  rw [truncateFile]
  by_cases none_left : length = 0
  · rw [if_pos (by rw [none_left]),decide_eq_false (by simpa using none_left),Bool.and_false]
    rfl
  · simp [none_left]
theorem truncated_kept {remaining rest : List LogMsgPtr} {first : LogMsgPtr} {new : List GList} {t u : FlowState} (kept : s.Kept q msgs)
    (offloaded : (s.queues q).offloaded = true) (file : s.files q = some (remaining ++ first :: rest))
    (old : ∀ a ∈ remaining, a.timestamp < ts) (young : ts ≤ first.timestamp) (loaded : Loaded (first :: rest) new s t) (only : OnlyQueue q s t)
    (queues : t.queues q = { s.queues q with queue := new ++ (s.queues q).queue, offload_ts := first.timestamp })
    (truncated : u = t.truncateFile q (remaining ++ first :: rest) (some remaining.length)) :
    u.Kept q msgs ∧ OnlyQueue q s u ∧ (∀ a, a < s.next ∨ u.next ≤ a → u.heap a = s.heap a) ∧ ∀ msg ∈ u.fileOf q, msg.timestamp ≤ ts := by
  rw [truncateFile_spec,List.take_left' rfl] at truncated
  obtain ⟨dir,-⟩ := kept.file offloaded
  have u_queue : (u.queues q).queue = new ++ (s.queues q).queue ∧ (u.queues q).cache = (s.queues q).cache ∧
      (u.queues q).offload_ts = first.timestamp ∧ (u.queues q).offloaded = decide (remaining.length ≠ 0) := by simp [truncated,queues,offloaded]
  obtain ⟨queue,cache,mark,flag⟩ := u_queue
  have u_only : OnlyQueue q s u := by
    refine only.trans ?_
    rw [truncated]
    exact ⟨fun q' other => update_of_ne other _ _,fun q' other => update_of_ne other _ _,le_rfl,rfl,rfl⟩
  have heap : u.heap = t.heap := by rw [truncated]
  have next : u.next = t.next := by rw [truncated]
  have u_file : u.files q = some remaining := by rw [truncated]; exact update_self q _ _
  have file_of : u.fileOf q = remaining := by rw [fileOf,u_file]; rfl
  have old_file : s.fileOf q = remaining ++ first :: rest := by rw [fileOf,file]; rfl
  obtain ⟨alive_new,new_messages⟩ := loaded.alive.congr (show ∀ e ∈ new, u.heap e.data = t.heap e.data from fun e _ => by rw [heap]) (le_of_eq next.symm)
  obtain ⟨alive_old,old_messages⟩ := kept.alive.congr
    (show ∀ e ∈ (s.queues q).queue, u.heap e.data = s.heap e.data from fun e member => by rw [heap,loaded.heap _ (kept.alive e member).2.1])
    u_only.next
  have memory : u.memoryOf q = first :: rest ++ s.memoryOf q := by
    rw [memoryOf,queue,map_append,new_messages,old_messages,loaded.messages]
    rfl
  have same : u.fileOf q ++ u.memoryOf q = s.fileOf q ++ s.memoryOf q := by rw [file_of,memory,old_file,append_assoc]
  refine ⟨⟨⟨?_,?_,?_,?_,?_,?_,?_⟩,?_⟩,u_only,?_,?_⟩
  · intro e member
    rw [queue] at member
    obtain fresh | before := mem_append.mp member
    · exact alive_new e fresh
    · exact alive_old e before
  · rw [queue,map_append,nodup_append]
    refine ⟨loaded.links,kept.links,?_⟩
    rintro link fresh _ before rfl
    obtain ⟨e,member,is_link⟩ := mem_map.mp fresh
    obtain ⟨e',member',is_link'⟩ := mem_map.mp before
    have above := loaded.fresh e member
    have below := (kept.alive e' member').1
    omega
  · rw [same]
    exact kept.sorted
  · rw [same]
    exact kept.complete
  · grind
  · simp [u_only.dir,dir,u_file]
  · grind
  · intro link same_link
    rw [cache] at same_link
    rw [queue,map_append]
    exact mem_append_right _ (kept.cached link same_link)
  · rintro a (less | more)
    · rw [heap,loaded.heap a less]
    · rw [heap,loaded.above a (by rwa [next] at more)]
  · rw [file_of]
    intro msg member
    exact le_of_lt (old msg member)
/-- Reloading moves the young end of the file to the front of the memory part. -/
theorem reload_kept (kept : s.Kept q msgs) (ts : Timestamp) : ∃ s', s.msg_queue_reload q (some ts) = some s' ∧ s'.Kept q msgs ∧
    OnlyQueue q s s' ∧ (∀ a, a < s.next ∨ s'.next ≤ a → s'.heap a = s.heap a) ∧ ∀ msg ∈ s'.fileOf q, msg.timestamp ≤ ts := by
  rw [msg_queue_reload]
  rcases offloaded : (s.queues q).offloaded with _ | _
  · rw [if_pos rfl]
    refine ⟨s,rfl,kept,.refl q s,fun _ _ => rfl,?_⟩
    rw [kept.no_file offloaded]
    exact fun msg member => by cases member
  · obtain ⟨dir,file⟩ := kept.file offloaded
    obtain ⟨records,found⟩ := ne_none_iff_exists'.mp file
    have file_eq : s.fileOf q = records := by rw [fileOf,found]; rfl
    obtain ⟨sorted_file,-,-⟩ := SortedBy.append_iff.mp kept.sorted
    rw [file_eq] at sorted_file
    rw [if_neg (by decide),dir,if_neg (by decide),found,bind_eq_bind,bind_some]
    rcases records with _ | ⟨first,behind⟩
    · refine ⟨s,rfl,kept,.refl q s,fun _ _ => rfl,?_⟩
      rw [file_eq]
      exact fun msg member => by cases member
    · obtain ⟨start,started,before_old⟩ := reloadStart_old ts sorted_file
      simp only [started,bind_eq_bind,bind_some]
      generalize first :: behind = records at *
      have parts := take_append_drop start records
      rw [← parts] at sorted_file
      obtain ⟨-,sorted_rest,-⟩ := SortedBy.append_iff.mp sorted_file
      obtain ⟨old,young,split,are_old,are_young,done⟩ := reloadLoop_splits s q ts (records.drop start) start sorted_rest
      have whole : records = (records.take start ++ old) ++ young := by rw [append_assoc,← split,parts]
      have all_old : ∀ a ∈ records.take start ++ old, a.timestamp < ts := by grind
      rcases done with ⟨rfl,looped⟩ | ⟨youngest,rest,new,t,rfl,looped,loaded,only,-,queues⟩
      · refine ⟨s,by rw [looped]; rfl,kept,.refl q s,fun _ _ => rfl,?_⟩
        rw [file_eq,whole,append_nil]
        exact fun msg member => le_of_lt (all_old msg member)
      · have start_within : start ≤ records.length := by grind
        have count : start+old.length = (records.take start ++ old).length := by
          rw [length_append,length_take,Nat.min_eq_left start_within]
        refine ⟨_,by rw [looped]; rfl,truncated_kept kept offloaded (by rw [found,← whole]) all_old (are_young _ mem_cons_self) loaded only queues
          ?_⟩
        rw [← whole,← count]
end

section
variable {s : FlowState} {q : Nat} {msgs : List LogMsgPtr} {end_ts : Timestamp}

/-- Offloading up to this time frees the message of the link. -/
def Frees (s : FlowState) (end_ts : Timestamp) (q : Nat) (e : GList) : Prop :=
  s.tmp_dir = true ∧ (s.queues q).offload_ts < end_ts ∧ e ∈ (s.queues q).queue ∧ (s.msgOf e).timestamp ≤ end_ts
/-- No other link, of this queue or of another one, has the message. -/
def Unshared (s : FlowState) (q : Nat) (e : GList) : Prop :=
  ∀ q' e', e' ∈ (s.queues q').queue → e'.data = e.data → q' = q ∧ e' = e

/-- The loop moves the head of the memory part to the end of the file. -/
theorem offloadLoop_parts (end_ts : Timestamp) (queue : List GList) (same : (s.queues q).queue = queue) (parts : s.Parts q msgs) (dir : s.tmp_dir = true)
    (file : s.files q ≠ none)
    (alone : ∀ e ∈ queue, (s.msgOf e).timestamp ≤ end_ts → ∀ e' ∈ queue, e'.data = e.data → e' = e) :
    ∃ s', offloadLoop q end_ts queue s = some s' ∧ s'.Parts q msgs ∧ OnlyQueue q s s' ∧
      (∀ e ∈ (s'.queues q).queue, e ∈ queue) ∧
      ∀ a, s'.heap a = s.heap a ∨ ∃ e ∈ queue, (s.msgOf e).timestamp ≤ end_ts ∧ e.data = a := by
  induction queue generalizing s with
  | nil => exact ⟨s,rfl,parts,.refl q s,fun e member => (by rw [same] at member; exact member),fun _ => .inl rfl⟩
  | cons e rest ih =>
    have alive := parts.alive
    rw [same] at alive
    obtain ⟨below,below_data,here⟩ := alive e mem_cons_self
    rw [offloadLoop,here,bind_eq_bind,bind_some]
    split_ifs with young
    · exact ⟨s,rfl,parts,.refl q s,fun e member => (by rwa [same] at member),fun _ => .inl rfl⟩
    · have old := not_lt.mp young
      generalize t_eq : ({ s with
        files := update s.files q (some ((s.files q).getD [] ++ [s.msgOf e]))
        heap := update s.heap e.data none } : FlowState).setQueue q
          (fun mq => { mq with queue := rest, offload_ts := (s.msgOf e).timestamp, offloaded := true }) = t
      have queue_t : (t.queues q).queue = rest ∧ (t.queues q).offload_ts = (s.msgOf e).timestamp ∧ (t.queues q).offloaded = true := by
        rw [← t_eq,setQueue_self]
        exact ⟨rfl,rfl,rfl⟩
      obtain ⟨queue,mark,flag⟩ := queue_t
      have file_t : t.files q = some (s.fileOf q ++ [s.msgOf e]) := by
        rw [← t_eq]
        exact update_self q _ _
      have file_of : t.fileOf q = s.fileOf q ++ [s.msgOf e] := by rw [fileOf,file_t]; rfl
      have only : OnlyQueue q s t := by
        rw [← t_eq]
        exact ⟨fun q' other => setQueue_other other _,fun q' other => update_of_ne other _ _,le_rfl,rfl,rfl⟩
      have heap : t.heap = update s.heap e.data none := by rw [← t_eq]; rfl
      have links := parts.links
      rw [same,map_cons,nodup_cons] at links
      have heap_rest : ∀ e' ∈ rest, t.heap e'.data = s.heap e'.data := by
        intro e' member
        rw [heap,update_of_ne]
        intro same_data
        obtain rfl := alone e mem_cons_self old e' (mem_cons_of_mem e member) same_data
        exact links.1 (mem_map_of_mem member)
      obtain ⟨alive_t,messages⟩ := (alive.subset fun e' member => mem_cons_of_mem e member).congr heap_rest only.next
      have memory : t.fileOf q ++ t.memoryOf q = s.fileOf q ++ s.memoryOf q := by grind [memoryOf]
      have parts_t : t.Parts q msgs := by
        refine ⟨by rwa [queue],by rw [queue]; exact links.2,by rw [memory]; exact parts.sorted,by rw [memory]; exact parts.complete,?_,?_,?_⟩
        · have sorted := parts.sorted
          rw [memoryOf,same,map_cons] at sorted
          obtain ⟨-,-,between⟩ := SortedBy.append_iff.mp sorted
          rw [file_of,mark]
          intro msg member
          obtain before | last := mem_append.mp member
          · exact between msg before _ mem_cons_self
          · rw [mem_singleton.mp last]
        · exact fun _ => ⟨by rw [only.dir]; exact dir,by rw [file_t]; simp⟩
        · simp [flag]
      obtain ⟨s',looped,parts',only',within,heap'⟩ := ih queue parts_t (by rw [only.dir]; exact dir) (by rw [file_t]; simp) (by
        intro e' member old' e'' member' same_data
        rw [msgOf_congr (heap_rest e' member)] at old'
        exact alone e' (mem_cons_of_mem e member) old' e'' (mem_cons_of_mem e member') same_data)
      refine ⟨s',?_,parts',only.trans only',fun e' member => mem_cons_of_mem e (within e' member),?_⟩
      · rw [← looped,← t_eq]
      · intro a
        obtain unchanged | ⟨e',member,old',freed⟩ := heap' a
        · by_cases here_freed : a = e.data
          · exact .inr ⟨e,mem_cons_self,old,here_freed.symm⟩
          · rw [unchanged,heap,update_of_ne here_freed]
            exact .inl rfl
        · grind [msgOf_congr]
/-- The cache has no part in it. -/
theorem Parts.clear (parts : s.Parts q msgs) : (s.setQueue q fun mq => { mq with cache := none }).Kept q msgs := by
  generalize t_eq : (s.setQueue q fun mq => { mq with cache := none }) = t
  have self : t.queues q = { s.queues q with cache := none } := by rw [← t_eq,setQueue_self]
  obtain ⟨alive,messages⟩ := parts.alive.congr (show ∀ e ∈ (s.queues q).queue, t.heap e.data = s.heap e.data from fun _ _ => by rw [← t_eq]; rfl)
    (show s.next ≤ t.next by rw [← t_eq]; exact le_rfl)
  have file : t.files = s.files := by rw [← t_eq]; rfl
  have file_of : t.fileOf q = s.fileOf q := by rw [fileOf,fileOf,file]
  have memory : t.memoryOf q = s.memoryOf q := by rw [memoryOf,memoryOf,self,messages]
  have dir : t.tmp_dir = s.tmp_dir := by rw [← t_eq]; rfl
  refine ⟨⟨by rwa [self],by rw [self]; exact parts.links,by rw [file_of,memory]; exact parts.sorted,by rw [file_of,memory]; exact parts.complete,
    by rw [file_of,self]; exact parts.mark,by rw [self,dir,file]; exact parts.file,by rw [self,file_of]; exact parts.no_file⟩,?_⟩
  rw [self]
  exact fun link none_there => by cases none_there
theorem offload_kept (kept : s.Kept q msgs) (alone : ∀ e, s.Frees end_ts q e → s.Unshared q e) :
    ∃ s', s.msg_queue_offload q end_ts = some s' ∧ s'.Kept q msgs ∧ OnlyQueue q s s' ∧
      (∀ e ∈ (s'.queues q).queue, e ∈ (s.queues q).queue) ∧ ∀ a, s'.heap a = s.heap a ∨ ∃ e, s.Frees end_ts q e ∧ e.data = a := by
  rw [msg_queue_offload]
  split_ifs with none_there no_dir late
  · exact ⟨s,rfl,kept,.refl q s,fun _ member => member,fun _ => .inl rfl⟩
  · exact ⟨s,rfl,kept,.refl q s,fun _ member => member,fun _ => .inl rfl⟩
  · exact ⟨s,rfl,kept,.refl q s,fun _ member => member,fun _ => .inl rfl⟩
  · have dir : s.tmp_dir = true := by simpa using no_dir
    generalize t_eq : ({ s with files := update s.files q (some ((s.files q).getD [])) } : FlowState) = t
    have queues : t.queues = s.queues := by rw [← t_eq]
    have heap : t.heap = s.heap := by rw [← t_eq]
    have msgs_same : ∀ e, t.msgOf e = s.msgOf e := fun e => msgOf_congr (by rw [heap])
    have file : t.files q = some (s.fileOf q) := by rw [← t_eq]; exact update_self q _ _
    have file_of : t.fileOf q = s.fileOf q := by rw [fileOf,file]; rfl
    have memory : t.memoryOf q = s.memoryOf q := by simp [queues,msgs_same,memoryOf]
    have only : OnlyQueue q s t := by
      rw [← t_eq]
      exact ⟨fun _ _ => rfl,fun q' other => update_of_ne other _ _,le_rfl,rfl,rfl⟩
    have parts : t.Parts q msgs := by
      obtain ⟨alive,-⟩ := kept.alive.congr (show ∀ e ∈ (s.queues q).queue, t.heap e.data = s.heap e.data from fun e _ => by rw [heap]) only.next
      refine ⟨by rwa [queues],by rw [queues]; exact kept.links,by rw [file_of,memory]; exact kept.sorted,by rw [file_of,memory]; exact kept.complete,
        by rw [file_of,queues]; exact kept.mark,?_,by rw [queues,file_of]; exact kept.no_file⟩
      exact fun _ => ⟨by rw [only.dir]; exact dir,by rw [file]; simp⟩
    obtain ⟨s',looped,parts',only',within,heap'⟩ := offloadLoop_parts end_ts (s.queues q).queue (by rw [queues]) parts
      (by rw [only.dir]; exact dir) (by rw [file]; simp) (by
        intro e member old e' member' same_data
        rw [msgs_same e] at old
        exact (alone e ⟨dir,not_le.mp late,member,old⟩ q e' member' same_data).2)
    have queue_self : ((s'.setQueue q fun mq => { mq with cache := none }).queues q).queue = (s'.queues q).queue := by rw [setQueue_self]
    refine ⟨_,by dsimp only; rw [queues,looped]; rfl,parts'.clear,only.trans (only'.trans (.set q s' _)),?_,?_⟩
    · intro e member
      rw [queue_self] at member
      exact within e member
    · intro a
      show s'.heap a = s.heap a ∨ _
      obtain unchanged | ⟨e,member,old,freed⟩ := heap' a
      · exact .inl (by rw [unchanged,heap])
      · rw [msgs_same e] at old
        exact .inr ⟨e,⟨dir,not_le.mp late,member,old⟩,freed⟩
end
end FlowState
end TestEnvironment.Rgt
