import TestEnvironment.Rgt.GistLog

/-!
Merging a node back gives its complete log: the merge puts the messages of the node and those behind
its children in their places in the gist log.
-/
namespace TestEnvironment.Rgt
open Lib IndexRecord

section
variable (raw : Bytes) (records : List IndexRecord)

/-- The messages of the index that are of a kind and about a node: those that start it and those
that end it. -/
def messagesOf (kind : IndexRecord → Bool) (n : Nat) : Bytes :=
  (records.filter fun record => kind record ∧ record.node_id = (n : Int)).flatMap fun record => slice raw record.offset (record.len raw)
def startMessages (n : Nat) : Bytes := messagesOf raw records isStart n
def endMessages (n : Nat) : Bytes := messagesOf raw records isEnd n
/-- What the log of a node has for a visit: control messages of all nodes, the messages of the node
itself behind its start, verdicts behind other starts, and messages behind its children. -/
def nodeVisit (copies : List Copy) (target : Nat) : Visit → Bytes
  | .enter n => startMessages raw records n ++ if n = target then sent raw copies .inner n else sent raw copies .verdict n
  | .leave n => endMessages raw records n ++ if parentIn records n = some target then sent raw copies .after n else []
def nodeLog (copies : List Copy) (target : Nat) : Bytes := (logVisits records).flatMap (nodeVisit raw records copies target)
end
/-- Of all nodes of a list the filter selects this one. -/
def Requests (f_frags_list : List CStr) (filter : MergeFilter) (target : Nat) : Prop :=
  ∀ line ∈ f_frags_list, ∀ frag, rgt_parse_frag_rec line = some frag → frag.start_frag = true →
    (filter.selects frag = true ↔ frag.test_id = target)

section
variable {n : Nat} {z : Int}

theorem toUnsigned_small (small : n < 2^32) : toUnsigned n = n := by
  rw [toUnsigned]
  omega
/-- No number of type `int` is stored as that of another node. -/
theorem toUnsigned_eq (low : -2^31 ≤ z) (high : z < 2^31) (small : n < 2^31) : toUnsigned z = n ↔ z = n := by
  rw [toUnsigned]
  omega
end

section
variable {files : Files} {gist front rest : Bytes} {m : MergeState}

/-- What is pending of a log is copied from the current position on. -/
theorem copyGist_front (split : gist = front ++ rest) (place : m.gist_pos+m.cum_length = front.length) :
    copyGist gist m = some { m with cum_length := 0, gist_pos := front.length, f_result := m.f_result ++ front.drop m.gist_pos } := by
  have data : (gist.drop m.gist_pos).take m.cum_length = front.drop m.gist_pos := by grind [List.take_left']
  have inside : m.gist_pos+m.cum_length ≤ gist.length := by
    rw [split,length_append]
    omega
  rw [copyGist,SplitState.readAt,if_pos (.inr inside),data,map_some,place]
/-- All inner fragments of a node follow one another. -/
theorem append_parts {name : Nat → CStr} {parts : List Bytes} (each : ∀ i, files (name i) = parts[i]?) (k : Nat) (within : k ≤ parts.length) :
    (List.range k).foldlM (fun m i => append_frag_to_file files m (name i)) m =
      some { m with f_result := m.f_result ++ (parts.take k).flatten } := by
  induction k with
  | zero => simp
  | succ k ih =>
    have less : k < parts.length := by omega
    rw [List.range_succ,List.foldlM_append,ih (by omega),bind_eq_bind,bind_some,foldlM_cons,append_frag_to_file,
      each k,getElem?_eq_getElem less,List.take_succ_eq_append_getElem less,List.flatten_append,List.flatten_singleton,← append_assoc]
    rfl
end

section
variable {raw : Bytes} {records : List IndexRecord} {copies : List Copy} {s : SplitState} {target : Nat} {done rest : List Visit}
  {m : MergeState} {n : Nat}

variable (raw records copies s target done m) in
/-- The merge behind some lines: what is copied and what is still pending make the log so far. -/
structure Merging : Prop where
  place : m.gist_pos+m.cum_length = (done.flatMap (gistOf s)).length
  found : m.target_node_id = if .enter target ∈ done then some target else none
  result : m.f_result ++ (done.flatMap (gistOf s)).drop m.gist_pos = done.flatMap (nodeVisit raw records copies target)

/-- A fragment that stays pending. -/
theorem Merging.pending (visit : Visit) (merging : Merging raw records copies s target done m) (other : visit ≠ .enter target)
    (same : nodeVisit raw records copies target visit = gistOf s visit) :
    Merging raw records copies s target (done ++ [visit]) { m with cum_length := m.cum_length+(gistOf s visit).length } := by
  have place := merging.place
  have whole : (done ++ [visit]).flatMap (gistOf s) = done.flatMap (gistOf s) ++ gistOf s visit := by
    rw [flatMap_append,flatMap_singleton]
  refine ⟨?_,?_,?_⟩
  · rw [whole,length_append]
    simp only
    omega
  · simp [merging.found,other.symm]
  · show m.f_result ++ List.drop m.gist_pos _ = _
    rw [whole,drop_append_of_le_length (by omega),← append_assoc,merging.result,flatMap_append,flatMap_singleton,same]

variable (kept : SplitState.Kept raw records copies s) (starts : ∀ n : Nat, sent raw copies .start n = startMessages raw records n)
  (ends : ∀ n : Nat, sent raw copies .finish n = endMessages raw records n)
include kept

include starts in
theorem gist_enter (started : Started records n) : gistOf s (.enter n) = startMessages raw records n ++ sent raw copies .verdict n := by
  rw [gistOf,kept.start.file n started,starts]
  rfl
include ends in
theorem gist_leave (ended : Ended records n) : gistOf s (.leave n) = endMessages raw records n := by
  rw [gistOf,kept.finish.file n ended,ends]
  rfl

variable {filter : MergeFilter} {depth seq : Nat} {gist : Bytes}
include starts in
/-- The start of another node. -/
theorem merge_other (merging : Merging raw records copies s target done m) (started : Started records n) (other : n ≠ target)
    (passed : filter.selects (startRec s n depth seq (gistOf s (.enter n)).length) = false) :
    ∃ m', mergeLine s.files gist filter m (startLine s n depth seq (gistOf s (.enter n)).length) = some m' ∧
      Merging raw records copies s target (done ++ [.enter n]) m' := by
  refine ⟨_,?_,merging.pending (.enter n) ?_ ?_⟩
  · simp_all [startLine_parsed,mergeLine,startRec]
  · simp [other]
  · rw [nodeVisit,if_neg other,gist_enter kept starts started]
include starts in
/-- The start of the node: its messages follow, and its verdicts are left out. -/
theorem merge_target (merging : Merging raw records copies s target done m) (started : Started records target)
    (split : gist = (done ++ [Visit.enter target]).flatMap (gistOf s) ++ rest.flatMap (gistOf s))
    (selected : filter.selects (startRec s target depth seq (gistOf s (.enter target)).length) = true) (small : target < 2^32) :
    ∃ m', mergeLine s.files gist filter m (startLine s target depth seq (gistOf s (.enter target)).length) = some m' ∧
      Merging raw records copies s target (done ++ [.enter target]) m' := by
  have here := gist_enter kept starts started
  have start_len : (s.nodes target).start_len = (startMessages raw records target).length := by
    rw [(kept.start.node target started).1,starts]
  obtain ⟨⟨parts,count,whole,each⟩,-,-⟩ := kept.inner target
  have named : ∀ i, s.files (intText target ++ "_frag".toList ++ "_inner_".toList ++ natText i) = parts[i]? := by
    simp [← each,SplitState.fragName.eq_def]
  have place := merging.place
  have length : (gistOf s (.enter target)).length = (startMessages raw records target).length + (sent raw copies .verdict target).length := by
    rw [here,length_append]
  generalize verdicts : sent raw copies .verdict target = behind at here length
  have front : gist = (done.flatMap (gistOf s) ++ startMessages raw records target) ++ (behind ++ rest.flatMap (gistOf s)) := by grind
  have copied := copyGist_front (m := ⟨m.cum_length+(gistOf s (.enter target)).length-((gistOf s (.enter target)).length-(s.nodes target).start_len),
    some target,m.gist_pos,m.f_result⟩) front (by
      rw [length_append]
      simp only
      omega)
  have appended : (List.range (s.nodes target).inner_frags_cnt).foldlM (fun m i =>
      append_frag_to_file s.files m (intText target ++ "_frag".toList ++ "_inner_".toList ++ natText i))
        ⟨0,some target,(done.flatMap (gistOf s) ++ startMessages raw records target).length+behind.length,
          m.f_result ++ (done.flatMap (gistOf s) ++ startMessages raw records target).drop m.gist_pos⟩ = some
        ⟨0,some target,(done.flatMap (gistOf s) ++ startMessages raw records target).length+behind.length,
          m.f_result ++ (done.flatMap (gistOf s) ++ startMessages raw records target).drop m.gist_pos ++ sent raw copies .inner target⟩ := by
    rw [← count,append_parts named _ le_rfl,take_length,whole]
  have whole_gist : (done ++ [Visit.enter target]).flatMap (gistOf s) = done.flatMap (gistOf s) ++ startMessages raw records target ++ behind := by
    simp [here]
  refine ⟨_,Eq.trans ?_ appended,?_,?_,?_⟩
  · have behind_len : (gistOf s (.enter target)).length-(s.nodes target).start_len = behind.length := by omega
    rw [behind_len] at copied
    rw [mergeLine,startLine_parsed,bind_eq_bind,bind_some,if_neg (by simp [startRec]),if_pos ⟨rfl,selected⟩,mergeTarget]
    simp only [startRec,toUnsigned_small small,behind_len,copied]
    rfl
  · rw [whole_gist]
    simp only [length_append,Nat.add_zero]
  · rw [if_pos (mem_append_right _ mem_cons_self)]
  · have none_left : (done.flatMap (gistOf s) ++ startMessages raw records target ++ behind).drop
        ((done.flatMap (gistOf s) ++ startMessages raw records target).length+behind.length) = [] :=
      drop_of_length_le (le_of_eq length_append)
    rw [whole_gist,none_left,append_nil,flatMap_append,flatMap_singleton,
      nodeVisit,if_pos rfl,drop_append_of_le_length (by omega),← merging.result]
    simp only [append_assoc]

variable (rooted : SplitState.Rooted records)
  (unique : ∀ parent parent' node, StartsUnder records parent node → StartsUnder records parent' node → parent = parent')
  (ints : ∀ record ∈ records, record.node_id < 2^31 ∧ -2^31 ≤ record.parent_id ∧ record.parent_id < 2^31)
include ends rooted unique ints
/-- The end of a node; messages behind it follow if the node is a child of the one requested. -/
theorem merge_leave (merging : Merging raw records copies s target done m) (started : Started records n) (ended : Ended records n)
    (split : gist = (done ++ [Visit.leave n]).flatMap (gistOf s) ++ rest.flatMap (gistOf s)) (small : target < 2^31)
    (entered : parentIn records n = some target → .enter target ∈ done) :
    ∃ m', mergeLine s.files gist filter m (endLine s n depth seq (gistOf s (.leave n)).length) = some m' ∧
      Merging raw records copies s target (done ++ [.leave n]) m' := by
  have here := gist_leave kept ends ended
  obtain ⟨-,-,record,member,-,-,is_parent⟩ := kept.start.node n started
  obtain ⟨-,low,high⟩ := ints record member
  rw [is_parent] at low high
  have no_child : (s.nodes n).after_frag = true → ((s.nodes n).parent = target ↔ parentIn records n = some target) := fun flag =>
    parent_iff kept rooted unique (kept.after.file n flag).1
  by_cases behind : (s.nodes n).after_frag = true ∧ parentIn records n = some target
  · obtain ⟨flag,child⟩ := behind
    have there := entered child
    have found : m.target_node_id = some (toUnsigned (s.nodes n).parent) := by
      rw [merging.found,if_pos there,(toUnsigned_eq low high small).mpr ((no_child flag).mpr child)]
    have file : s.files (intText n ++ "_frag".toList ++ "_after".toList) = some (sent raw copies .after n) := by
      rw [← (kept.after.file n flag).2,SplitState.fragName.eq_def]
      simp only [append_assoc]
      rfl
    have place := merging.place
    have whole : (done ++ [Visit.leave n]).flatMap (gistOf s) = done.flatMap (gistOf s) ++ gistOf s (.leave n) := by
      rw [flatMap_append,flatMap_singleton]
    have copied := copyGist_front (m := ⟨m.cum_length+(gistOf s (.leave n)).length,m.target_node_id,m.gist_pos,m.f_result⟩) split (by
      rw [whole,length_append]
      simp only
      omega)
    refine ⟨⟨0,m.target_node_id,((done ++ [Visit.leave n]).flatMap (gistOf s)).length,
      m.f_result ++ ((done ++ [Visit.leave n]).flatMap (gistOf s)).drop m.gist_pos ++ sent raw copies .after n⟩,?_,rfl,?_,?_⟩
    · rw [mergeLine,endLine_parsed,bind_eq_bind,bind_some,if_pos ⟨rfl,found,by simp [endRec,flag]⟩,mergeAfter]
      simp only [endRec,copied,append_frag_to_file,bind_eq_bind,bind_some,file,map_some]
    · simp [merging.found]
    · show _ ++ List.drop (List.length _) _ = _
      rw [List.drop_length,append_nil,whole,drop_append_of_le_length (by omega),← append_assoc,merging.result,
        flatMap_append,flatMap_singleton,nodeVisit,if_pos child,here,append_assoc]
  · refine ⟨_,?_,merging.pending (.leave n) (fun same => by cases same) ?_⟩
    · rw [mergeLine,endLine_parsed,bind_eq_bind,bind_some,if_neg ?_,if_neg (by simp [endRec])]
      · rfl
      · rintro ⟨-,found,some_there⟩
        have flag : (s.nodes n).after_frag = true := by
          by_contra no_flag
          simp [endRec,no_flag] at some_there
        have found' : m.target_node_id = some (toUnsigned (s.nodes n).parent) := found
        rw [merging.found] at found'
        split_ifs at found' with there
        have same := (toUnsigned_eq low high small).mp (some.inj found').symm
        exact behind ⟨flag,(no_child flag).mp same⟩
    · rw [nodeVisit,here]
      split_ifs with child
      · have flag : (s.nodes n).after_frag = false := by
          rw [Bool.eq_false_iff]
          exact fun flag => behind ⟨flag,child⟩
        rw [(kept.after.missing n flag).2,append_nil]
      · rw [append_nil]
include starts in
/-- The loop over the lines of all visits. -/
theorem merge_lines {visits : List Visit} {lines : List CStr} (each : List.Forall₂ (LineOf s) visits lines)
    (entries : ∀ n : Nat, .enter n ∈ visits → Started records n) (exits : ∀ n : Nat, .leave n ∈ visits → Started records n ∧ Ended records n)
    (requests : Requests lines filter target) (small : target < 2^31)
    (before : ∀ front behind n, done ++ visits = front ++ .leave n :: behind → parentIn records n = some target → .enter target ∈ front)
    (gist_eq : gist = (done ++ visits).flatMap (gistOf s)) (merging : Merging raw records copies s target done m) :
    ∃ m', lines.foldlM (mergeLine s.files gist filter) m = some m' ∧ Merging raw records copies s target (done ++ visits) m' := by
  induction each generalizing done m with
  | nil => exact ⟨m,rfl,by rwa [append_nil]⟩
  | @cons visit line visits lines of each ih =>
    have split : gist = (done ++ [visit]).flatMap (gistOf s) ++ visits.flatMap (gistOf s) := by simp [gist_eq]
    have one : ∃ m', mergeLine s.files gist filter m line = some m' ∧ Merging raw records copies s target (done ++ [visit]) m' := by
      obtain ⟨depth,seq,rfl⟩ := of
      cases visit with
      | enter n =>
        have started := entries n mem_cons_self
        have id : (startRec s n depth seq (gistOf s (.enter n)).length).test_id = n := by
          obtain ⟨record,member,-,node⟩ := started
          have := (ints record member).1
          exact toUnsigned_small (by omega)
        have selected := requests _ mem_cons_self _ startLine_parsed rfl
        rw [id] at selected
        by_cases same : n = target
        · obtain rfl := same
          exact merge_target kept starts merging started split (selected.mpr rfl) (by omega)
        · exact merge_other kept starts merging started same (Bool.eq_false_iff.mpr fun yes => same (selected.mp yes))
      | leave n =>
        obtain ⟨started,ended⟩ := exits n mem_cons_self
        exact merge_leave kept ends rooted unique ints merging started ended split small (before done visits n rfl)
    obtain ⟨m₁,merged,merging₁⟩ := one
    obtain ⟨m₂,looped,merging₂⟩ := ih (fun n member => entries n (mem_cons_of_mem _ member))
      (fun n member => exits n (mem_cons_of_mem _ member)) (fun line member => requests line (mem_cons_of_mem _ member))
      (by rwa [append_assoc,singleton_append]) (by rw [gist_eq,append_assoc,singleton_append]) merging₁
    refine ⟨m₂,?_,?_⟩
    · rw [foldlM_cons,merged]
      exact looped
    · rwa [append_assoc,singleton_append] at merging₂
end

section
open SplitState
variable {raw : Bytes} {before records : List IndexRecord} {record : IndexRecord} {s s' : SplitState} {copies copies' : List Copy}
  {kind : CopyKind} {node : Int} {offset length line n : Nat} {P : Int → Int → Prop} {due : Nat → Option Nat}

/-- The messages whose copies of one kind a node has. -/
def placesOf (copies : List Copy) (kind : CopyKind) (node : Int) : List (Nat × Nat) :=
  (copies.filter fun copy => copy.kind = kind ∧ copy.node = node).map fun copy => (copy.offset,copy.length)
def IndexRecord.place (record : IndexRecord) (raw : Bytes) : Nat × Nat := (record.offset,record.len raw)
theorem placesOf_append : placesOf (copies ++ copies') kind node = placesOf copies kind node ++ placesOf copies' kind node := by simp [placesOf]
/-- Copies of a message that are apart have no two of one kind for a node. -/
def Apart (copy other : Copy) : Prop := ¬(copy.kind = other.kind ∧ copy.node = other.node)
theorem places_one {place : Nat × Nat} (apart : copies.Pairwise Apart) (same : ∀ copy ∈ copies, (copy.offset,copy.length) = place) :
    (placesOf copies kind node).Sublist [place] := by
  induction copies with
  | nil => exact List.nil_sublist _
  | cons copy copies ih =>
    obtain ⟨first,rest⟩ := pairwise_cons.mp apart
    rw [placesOf]
    by_cases here : copy.kind = kind ∧ copy.node = node
    · have none_left : copies.filter (fun copy => copy.kind = kind ∧ copy.node = node) = [] := by
        rw [filter_eq_nil_iff]
        intro other member matches_too
        obtain ⟨same_kind,same_node⟩ := decide_eq_true_eq.mp matches_too
        exact first other member ⟨here.1.trans same_kind.symm,here.2.trans same_node.symm⟩
      rw [filter_cons_of_pos (by simpa using here),none_left,map_cons,map_nil,same copy mem_cons_self]
    · rw [filter_cons_of_neg (by simpa using here)]
      exact ih rest fun other member => same other (mem_cons_of_mem copy member)

/-- Leaf nodes have different last closed children. -/
theorem leafCopies_apart (one : ∀ parent parent' child, P parent child → P parent' child → parent = parent') (closed : ClosedIn P s)
    (offset length : Nat) {leaves : List Nat} (nodup : leaves.Nodup) : (leaves.map (s.leafCopy offset length)).Pairwise Apart := by
  rw [pairwise_map]
  refine nodup.imp fun {id id'} other => ?_
  rintro ⟨same_kind,same_node⟩
  rw [leafCopy,leafCopy] at same_kind same_node
  split_ifs at same_kind same_node with child child'
  · have below' := closed id' child'
    have same_child : (s.nodes id).last_closed_child = (s.nodes id').last_closed_child := same_node
    rw [← same_child] at below'
    exact other (Int.ofNat.inj (one _ _ _ (closed id child) below'))
  · exact other (Int.ofNat.inj same_node)
theorem regularCopies_spec {copy : Copy} (member : copy ∈ s.regularCopies record length) :
    copy.offset = record.offset ∧ copy.length = length ∧ (copy.kind = .inner ∨ copy.kind = .verdict ∨
      copy.kind = .after ∧ ∃ id : Nat, 0 ≤ (s.nodes id).last_closed_child ∧ copy.node = (s.nodes id).last_closed_child) := by
  obtain first | verdict := mem_append.mp member
  · split_ifs at first
    · rw [mem_singleton.mp first]
      exact ⟨rfl,rfl,.inl rfl⟩
    · obtain ⟨id,-,rfl⟩ := mem_map.mp first
      rw [leafCopy]
      split_ifs with child
      · exact ⟨rfl,rfl,.inr (.inr ⟨rfl,id,child,rfl⟩)⟩
      · exact ⟨rfl,rfl,.inl rfl⟩
  · grind

section
variable (one : ∀ parent parent' child, P parent child → P parent' child → parent = parent') (closed : ClosedIn P s)
include one closed
theorem regularCopies_apart : (s.regularCopies record length).Pairwise Apart := by
  rw [regularCopies,pairwise_append]
  refine ⟨?_,?_,?_⟩
  · split_ifs
    · exact pairwise_singleton _ _
    · rcases walked : s.leaves with _ | leaves
      · exact .nil
      · exact leafCopies_apart one closed _ _ (leafNodes_nodup walked)
  · split_ifs
    · exact pairwise_singleton _ _
    · exact .nil
  · intro copy first other verdict
    have no_verdict : copy.kind ≠ .verdict := by
      split_ifs at first
      · rw [mem_singleton.mp first]
        exact fun same => by cases same
      · obtain ⟨id,-,rfl⟩ := mem_map.mp first
        rw [leafCopy]
        split_ifs
        · exact fun same => by cases same
        · exact fun same => by cases same
    split_ifs at verdict
    · rintro ⟨same,-⟩
      rw [mem_singleton.mp verdict] at same
      exact no_verdict same
    · cases verdict
/-- A message has one copy of a kind for a node at most. -/
theorem copiesOf_once : (placesOf (s.copiesOf raw record) kind node).Sublist [record.place raw] := by
  rw [copiesOf]
  split_ifs
  · exact places_one (regularCopies_apart one closed) fun copy member => by
      obtain ⟨same_offset,same_length,-⟩ := regularCopies_spec member
      rw [same_offset,same_length]
      rfl
  · exact places_one (pairwise_singleton _ _) fun copy member => by rw [mem_singleton.mp member]; rfl
  · exact places_one (pairwise_singleton _ _) fun copy member => by rw [mem_singleton.mp member]; rfl
end

theorem leaves_closed {ids : List Nat} (done : ids.foldlM (appendToLeaf raw offset length) s = some s') : SameClosed s s' := by
  induction ids generalizing s with
  | nil =>
    obtain rfl := some.inj done
    exact fun _ => rfl
  | cons id ids ih =>
    rw [foldlM_cons] at done
    obtain ⟨t,turn,rest⟩ := of_bind done
    obtain ⟨-,-,-,-,same⟩ := leaf_appended turn
    exact same.trans (ih rest)
theorem regular_closed (done : s.splitRegular raw record length = some s') : SameClosed s s' := by
  obtain ⟨t,copied,verdict⟩ := of_bind done
  have first : SameClosed s t := by
    split_ifs at copied
    · obtain ⟨-,-,same⟩ := append_cases copied
      exact same
    · obtain ⟨leaves,-,rest⟩ := of_bind copied
      split_ifs at rest
      exact leaves_closed rest
  split_ifs at verdict
  · obtain rfl := some.inj verdict
    exact first
  · obtain ⟨⟨id,u⟩,got,rest⟩ := of_bind verdict
    obtain ⟨-,same⟩ := get_node_info_plain got
    simp only at rest
    split_ifs at rest
    · obtain rfl := some.inj rest
      exact first.trans same
    · obtain ⟨v,copied,rfl⟩ := of_map rest
      obtain ⟨-,-,same'⟩ := append_cases copied
      exact first.trans (same.trans (same'.trans (setNode_closed fun _ => rfl)))
/-- Last closed children are those that have ended. -/
theorem record_closed (closed : ClosedIn P s) (known : record.IsEnd → P record.parent_id record.node_id) {due : Option Nat}
    (done : s.splitRecord raw due record = some s') : ClosedIn P s' := by
  obtain ⟨t,captured,rest⟩ := of_bind done
  have closed_t := closed.same (packets_quiet due captured).2
  split_ifs at rest with regular ends
  · exact closed_t.same (regular_closed rest)
  · obtain ⟨u,ended,copied⟩ := of_bind rest
    obtain ⟨-,-,closed_u⟩ := splitEnd_cases (fun _ _ => known ends) closed_t ended
    obtain ⟨-,-,same⟩ := append_cases copied
    exact closed_u.same same
  · obtain ⟨u,started,copied⟩ := of_bind rest
    obtain ⟨-,v,v',-,same,-,rfl,-,same'⟩ := splitStart_cases started
    have noted : SameClosed v (v.setNode record.node_id.toNat fun node =>
      { node with tin := record.tin_or_start_frag, start_len := record.len raw, parent := record.parent_id }) := setNode_closed fun _ => rfl
    obtain ⟨-,-,same''⟩ := append_cases copied
    exact closed_t.same (same.trans (noted.trans (same'.trans same'')))
/-- Every message has its copies once and in the order of the index, those behind nodes for nodes
that have ended. -/
theorem records_once (one : ∀ parent parent' child, P parent child → P parent' child → parent = parent') (closed : ClosedIn P s)
    (known : ∀ record ∈ records, record.IsEnd → P record.parent_id record.node_id) (done : splitRecords raw due s line records = some s') :
    (∀ kind node, (placesOf (splitCopies raw due s line records) kind node).Sublist (records.map fun record => record.place raw)) ∧
      ∀ copy ∈ splitCopies raw due s line records, copy.kind = .after → 0 ≤ copy.node ∧ ∃ parent, P parent copy.node := by
  induction records generalizing s line with
  | nil => exact ⟨fun kind node => List.nil_sublist _,fun copy member => by cases member⟩
  | cons record records ih =>
    obtain ⟨t,turn,rest⟩ := of_bind done
    have closed_t := record_closed closed (known record mem_cons_self) turn
    obtain ⟨once,after⟩ := ih closed_t (fun other member => known other (mem_cons_of_mem record member)) rest
    obtain ⟨u,captured,-⟩ := of_bind turn
    have closed_u := closed.same (packets_quiet _ captured).2
    rw [splitCopies,captured,turn,map_some,map_some,getD_some,getD_some]
    constructor
    · intro kind node
      rw [placesOf_append,map_cons]
      exact (copiesOf_once one closed_u).append (once kind node)
    · intro copy member kind
      obtain first | later := mem_append.mp member
      · rw [copiesOf] at first
        split_ifs at first
        · obtain ⟨-,-,inner | verdict | ⟨-,id,child,node⟩⟩ := regularCopies_spec first
          · rw [kind] at inner
            cases inner
          · rw [kind] at verdict
            cases verdict
          · rw [node]
            exact ⟨child,id,closed_u id child⟩
        · rw [mem_singleton.mp first] at kind
          cases kind
        · rw [mem_singleton.mp first] at kind
          cases kind
      · exact after copy later kind

theorem sent_absent (absent : ∀ copy ∈ copies, copy.kind ≠ kind) : sent raw copies kind node = [] := by grind [filter_eq_nil_iff,sent]
section
variable {of : IndexRecord → Bool}
variable (raw) in
theorem messagesOf_append (records more : List IndexRecord) (of : IndexRecord → Bool) (n : Nat) : messagesOf raw (records ++ more) of n = messagesOf raw records of n ++ messagesOf raw more of n := by
  simp [messagesOf]
theorem messagesOf_none (other : ∀ record ∈ records, ¬(of record = true ∧ record.node_id = n)) : messagesOf raw records of n = [] := by
  grind [filter_eq_nil_iff,messagesOf]
theorem messagesOf_single (is_of : of record = true) (node : record.node_id = n) :
    messagesOf raw [record] of n = slice raw record.offset (record.len raw) := by simp [is_of,node,messagesOf]
/-- Where a record of the kind comes once for a node, there is one message. -/
theorem messagesOf_once (raw : Bytes) (once : records.Pairwise fun a b => of a = true → of b = true → a.node_id ≠ b.node_id)
    (there : ∃ record ∈ records, of record = true ∧ record.node_id = n) :
    ∃ record ∈ records, of record = true ∧ record.node_id = n ∧ messagesOf raw records of n = slice raw record.offset (record.len raw) := by
  induction records with
  | nil =>
    obtain ⟨_,member,-⟩ := there
    cases member
  | cons first records ih =>
    obtain ⟨apart,once⟩ := pairwise_cons.mp once
    obtain ⟨record,member,is_of,node⟩ := there
    have split := messagesOf_append raw [first] records of n
    rw [singleton_append] at split
    by_cases here : of first = true ∧ first.node_id = n
    · grind [messagesOf_single,messagesOf_none]
    · obtain rfl | later := mem_cons.mp member
      · exact absurd ⟨is_of,node⟩ here
      · obtain ⟨other,member',is_of',node',message⟩ := ih once ⟨record,later,is_of,node⟩
        refine ⟨other,mem_cons_of_mem first member',is_of',node',?_⟩
        rw [split,messagesOf_none,nil_append,message]
        intro single member both
        rw [mem_singleton.mp member] at both
        exact here both
/-- A kind of records that come once for a node behind those before. -/
theorem WellNested.once {of : IndexRecord → Bool} (fits : ∀ before record, Fits before record → of record = true →
      ∀ other ∈ before, of other = true → other.node_id ≠ record.node_id) (nested : WellNested before records) :
    (∀ a ∈ before, ∀ b ∈ records, of a = true → of b = true → a.node_id ≠ b.node_id) ∧
      records.Pairwise fun a b => of a = true → of b = true → a.node_id ≠ b.node_id := by
  induction records generalizing before with
  | nil => exact ⟨fun _ _ _ member => (by cases member),.nil⟩
  | cons record records ih =>
    obtain ⟨here,nested⟩ := nested
    obtain ⟨apart,once⟩ := ih nested
    refine ⟨?_,pairwise_cons.mpr ⟨fun b later => apart record (mem_append_right _ mem_cons_self) b later,once⟩⟩
    intro a member b member' of_a of_b
    obtain rfl | later := mem_cons.mp member'
    · exact fits before b here of_b a member of_a
    · exact apart a (mem_append_left _ member) b later of_a of_b
end
/-- The control messages of a record. -/
theorem copiesOf_sent (raw : Bytes) (s : SplitState) (record : IndexRecord) (n : Nat) : sent raw (s.copiesOf raw record) .start n = startMessages raw [record] n ∧
    sent raw (s.copiesOf raw record) .finish n = endMessages raw [record] n := by
  have no_start : ¬record.IsStart → startMessages raw [record] n = [] := fun other => messagesOf_none fun single member both => by
    rw [mem_singleton.mp member] at both
    exact other (isStart_iff.mp both.1)
  have no_end : ¬record.IsEnd → endMessages raw [record] n = [] := fun other => messagesOf_none fun single member both => by
    rw [mem_singleton.mp member] at both
    exact other (isEnd_iff.mp both.1)
  have elsewhere : record.node_id ≠ n → ∀ of, messagesOf raw [record] of n = [] := fun other of => messagesOf_none fun single member both => by
    rw [mem_singleton.mp member] at both
    exact other both.2
  rw [copiesOf]
  split_ifs with regular ends
  · have kinds : ∀ copy ∈ s.regularCopies record (record.len raw), copy.kind ≠ .start ∧ copy.kind ≠ .finish := by
      intro copy member
      obtain ⟨-,-,inner | verdict | ⟨after,-⟩⟩ := regularCopies_spec member
      · rw [inner]
        decide
      · rw [verdict]
        decide
      · rw [after]
        decide
    rw [no_start fun start => start.1 regular,no_end fun ends => absurd (regular.symm.trans ends) (by decide)]
    exact ⟨sent_absent fun copy member => (kinds copy member).1,sent_absent fun copy member => (kinds copy member).2⟩
  · rw [no_start fun start => start.2 ends]
    refine ⟨sent_other (fun both => by cases both.1),?_⟩
    by_cases here : record.node_id = n
    · rw [here,sent_same,endMessages,messagesOf_single (isEnd_iff.mpr ends) here]
    · rw [sent_other fun both => here both.2,endMessages,elsewhere here]
  · rw [no_end ends]
    refine ⟨?_,sent_other (fun both => by cases both.1)⟩
    by_cases here : record.node_id = n
    · rw [here,sent_same,startMessages,messagesOf_single (isStart_iff.mpr ⟨regular,ends⟩) here]
    · rw [sent_other fun both => here both.2,startMessages,elsewhere here]
theorem records_sent (done : splitRecords raw due s line records = some s') (n : Nat) :
    sent raw (splitCopies raw due s line records) .start n = startMessages raw records n ∧
      sent raw (splitCopies raw due s line records) .finish n = endMessages raw records n := by
  induction records generalizing s line with
  | nil => exact ⟨rfl,rfl⟩
  | cons record records ih =>
    obtain ⟨t,turn,rest⟩ := of_bind done
    obtain ⟨u,captured,-⟩ := of_bind turn
    obtain ⟨starts,ends⟩ := copiesOf_sent raw u record n
    obtain ⟨starts',ends'⟩ := ih rest
    rw [splitCopies,captured,turn,map_some,map_some,getD_some,getD_some,sent_append,sent_append,starts,ends,
      starts',ends']
    exact ⟨(messagesOf_append raw [record] records isStart n).symm,(messagesOf_append raw [record] records isEnd n).symm⟩
/-- The records of an index fit behind those before them. -/
theorem WellNested.each (nested : WellNested before records) :
    ∀ record ∈ records, ∃ front rest, before ++ records = front ++ rest ∧ record ∈ rest ∧ Fits front record := by
  induction records generalizing before with
  | nil =>
    intro _ member
    cases member
  | cons first records ih =>
    obtain ⟨fits,nested⟩ := nested
    intro record member
    obtain rfl | later := mem_cons.mp member
    · exact ⟨before,record :: records,rfl,mem_cons_self,fits⟩
    · grind
end

/-- What the log of a node holds: the control messages of all started nodes once and in the order of
the tree, and every copy once, those behind other nodes behind their ends. -/
structure CompleteLog (raw : Bytes) (records : List IndexRecord) (copies : List Copy) : Prop where
  entered_once : (Visit.entered (logVisits records)).Nodup
  entered : ∀ n : Nat, n ∈ Visit.entered (logVisits records) ↔ Started records n
  left_once : (Visit.left (logVisits records)).Nodup
  left : ∀ n : Nat, n ∈ Visit.left (logVisits records) ↔ Started records n ∧ Ended records n
  start_message : ∀ n : Nat, Started records n → ∃ record ∈ records, record.IsStart ∧ record.node_id = n ∧
    startMessages raw records n = slice raw record.offset (record.len raw)
  end_message : ∀ n : Nat, Ended records n → ∃ record ∈ records, record.IsEnd ∧ record.node_id = n ∧
    endMessages raw records n = slice raw record.offset (record.len raw)
  once : ∀ kind node, (placesOf copies kind node).Sublist (records.map fun record => record.place raw)
  behind : ∀ copy ∈ copies, copy.kind = .after → ∃ n : Nat, copy.node = n ∧ n ∈ Visit.left (logVisits records)

section
variable {raw : Bytes} {f_index : List IndexRecord} {due : Nat → Option Nat} {s : SplitState} {target : Nat}
open SplitState

theorem log_complete (nested : WellNested [] f_index) (rooted : Rooted f_index)
    (split : split_raw_log raw f_index due (fun _ => none) = some s) (started : Started f_index target) :
    CompleteLog raw f_index (splitCopies raw due (start fun _ => none) 0 f_index) := by
  obtain ⟨entered_once,entered,left_once,left⟩ := visits_complete nested rooted started
  obtain ⟨t,looped,-⟩ := of_bind split
  have unique := one_start nested (by rintro _ _ _ ⟨_,member,-⟩; cases member)
  rw [nil_append] at unique
  have known : ∀ record ∈ f_index, record.IsEnd → StartsUnder f_index record.parent_id record.node_id ∧ Ended f_index record.node_id := by
    intro record member ends
    obtain ⟨front,rest,whole,-,fits⟩ := nested.each record member
    rw [nil_append] at whole
    rw [whole]
    exact ⟨(fits.finish ends).1.mono rest,record,by rw [← whole]; exact member,ends,rfl⟩
  have closed : ClosedIn (fun parent child => StartsUnder f_index parent child ∧ Ended f_index child) (start fun _ => none) := by
    intro id some_child
    exact absurd some_child (by show ¬(0 : Int) ≤ -1; decide)
  obtain ⟨once,behind⟩ := records_once (fun parent parent' child below below' => unique parent parent' child below.1 below'.1) closed known looped
  refine ⟨entered_once,entered,left_once,left,?_,?_,once,?_⟩
  · rintro n ⟨record,member,start,node⟩
    obtain ⟨-,apart⟩ := nested.once fun before record fits (start : record.isStart = true) other member start' same =>
      (fits.start (isStart_iff.mp start)).1 ⟨other,member,isStart_iff.mp start',same⟩
    obtain ⟨first,member',start',node',message⟩ := messagesOf_once raw apart ⟨record,member,isStart_iff.mpr start,node⟩
    exact ⟨first,member',isStart_iff.mp start',node',message⟩
  · rintro n ⟨record,member,ends,node⟩
    obtain ⟨-,apart⟩ := nested.once fun before record fits (ends : record.isEnd = true) other member ends' same =>
      (fits.finish (isEnd_iff.mp ends)).2 ⟨other,member,isEnd_iff.mp ends',same⟩
    obtain ⟨first,member',ends',node',message⟩ := messagesOf_once raw apart ⟨record,member,isEnd_iff.mpr ends,node⟩
    exact ⟨first,member',isEnd_iff.mp ends',node',message⟩
  · intro copy member kind
    obtain ⟨nonneg,parent,under,ended⟩ := behind copy member kind
    have cast : ((copy.node.toNat : Nat) : Int) = copy.node := Int.toNat_of_nonneg nonneg
    refine ⟨copy.node.toNat,cast.symm,(left _).mpr ?_⟩
    rw [cast]
    obtain ⟨record,is_there,start,node,-⟩ := under
    exact ⟨⟨record,is_there,start,node⟩,ended⟩
theorem smallIndex_nested : WellNested [] smallIndex := by
  simp only [smallIndex,WellNested]
  refine ⟨⟨?_,?_,?_,?_⟩,⟨?_,?_,?_,?_⟩,⟨?_,?_,?_,?_⟩,⟨?_,?_,?_,?_⟩,⟨?_,?_,?_,?_⟩,⟨?_,?_,?_,?_⟩,trivial⟩
  all_goals simp [byteRecord,IsStart,IsEnd,IndexRecord.IsRegular,Started,Ended,StartsUnder]
end
end TestEnvironment.Rgt
