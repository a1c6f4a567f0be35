import TestEnvironment.Rgt.LogRecover
import TestEnvironment.Lib.Visits

/-!
Where the split sends the messages of a well-nested index, and what the fragment files of a node
hold of them.
-/
namespace TestEnvironment.Rgt
open Lib

/-- What a copy of a message is for its node. -/
inductive CopyKind
  | start | verdict | inner | finish | after
  deriving DecidableEq
structure Copy where
  kind : CopyKind
  node : Int
  offset : Nat
  length : Nat
def slice (raw : Bytes) (offset length : Nat) : Bytes := (raw.drop offset).take length
/-- The copies of one kind for a node, one behind another. -/
def sent (raw : Bytes) (copies : List Copy) (kind : CopyKind) (node : Int) : Bytes :=
  (copies.filter fun copy => copy.kind = kind ∧ copy.node = node).flatMap fun copy => slice raw copy.offset copy.length

namespace IndexRecord
def IsEnd (record : IndexRecord) : Prop := record.msg_type = "END".toList
def IsRegular (record : IndexRecord) : Prop := record.msg_type = "REGULAR".toList
/-- All other records start a node. -/
def IsStart (record : IndexRecord) : Prop := ¬record.IsRegular ∧ ¬record.IsEnd
/-- The length of the message, up to the end of the log if it is missing. -/
def len (record : IndexRecord) (raw : Bytes) : Nat := record.length.getD (raw.length-record.offset)
end IndexRecord
open IndexRecord

def Started (before : List IndexRecord) (node : Int) : Prop := ∃ record ∈ before, record.IsStart ∧ record.node_id = node
def Ended (before : List IndexRecord) (node : Int) : Prop := ∃ record ∈ before, record.IsEnd ∧ record.node_id = node
/-- The node starts under this parent; the root has none. -/
def StartsUnder (before : List IndexRecord) (parent node : Int) : Prop :=
  ∃ record ∈ before, record.IsStart ∧ record.node_id = node ∧ record.parent_id = parent
/-- What a record may say behind others. A node starts once, the root without parent (its number
or a negative one stands for none) and any other node under a parent that has started and has a
smaller number; it ends once, under the same parent; verdicts belong to nodes that have started.
Numbers are of type `int`. -/
structure Fits (before : List IndexRecord) (record : IndexRecord) : Prop where
  ints : record.node_id < 2^31 ∧ -2^31 ≤ record.parent_id ∧ record.parent_id < 2^31
  start : record.IsStart → ¬Started before record.node_id ∧ 0 ≤ record.node_id ∧
    (record.node_id = 0 ∧ record.parent_id ≤ 0 ∨
      0 ≤ record.parent_id ∧ record.parent_id < record.node_id ∧ Started before record.parent_id)
  finish : record.IsEnd → StartsUnder before record.parent_id record.node_id ∧ ¬Ended before record.node_id
  verdict : record.IsRegular → record.tin_or_start_frag ≠ 0 → Started before record.parent_id
section
variable {before : List IndexRecord}
theorem StartsUnder.mono {parent node : Int} (under : StartsUnder before parent node) (more : List IndexRecord) :
    StartsUnder (before ++ more) parent node := by
  obtain ⟨other,member,start,is_node,is_parent⟩ := under
  exact ⟨other,mem_append_left _ member,start,is_node,is_parent⟩
theorem Ended.mono {node : Int} (ended : Ended before node) (more : List IndexRecord) : Ended (before ++ more) node := by
  obtain ⟨other,member,ends,is_node⟩ := ended
  exact ⟨other,mem_append_left _ member,ends,is_node⟩
theorem Started.mono {node : Int} (started : Started before node) (more : List IndexRecord) : Started (before ++ more) node := by
  obtain ⟨other,member,starts,is_node⟩ := started
  exact ⟨other,mem_append_left _ member,starts,is_node⟩
end
def WellNested : List IndexRecord → List IndexRecord → Prop
  | _,[] => True
  | before,record :: records => Fits before record ∧ WellNested (before ++ [record]) records

namespace SplitState
/-- Where a message without node goes for a leaf node. -/
def leafCopy (s : SplitState) (offset length : Nat) (id : Nat) : Copy :=
  if 0 ≤ (s.nodes id).last_closed_child then ⟨.after,(s.nodes id).last_closed_child,offset,length⟩ else ⟨.inner,id,offset,length⟩
/-- The copies of a regular message: for its node or for all leaf nodes, and of a verdict for the
start of its node, as long as there are not too many. -/
def regularCopies (s : SplitState) (record : IndexRecord) (length : Nat) : List Copy :=
  (if record.parent_id ≠ TE_LOG_ID_UNDEFINED then [⟨.inner,record.parent_id,record.offset,length⟩]
    else (s.leaves.getD []).map (s.leafCopy record.offset length)) ++
  if record.tin_or_start_frag ≠ 0 ∧ (s.nodes record.parent_id.toNat).verdicts_num < MAX_VERDICTS_NUM then
    [⟨.verdict,record.parent_id,record.offset,length⟩]
  else []
def copiesOf (s : SplitState) (raw : Bytes) (record : IndexRecord) : List Copy :=
  if record.msg_type = "REGULAR".toList then s.regularCopies record (record.len raw)
  else if record.msg_type = "END".toList then [⟨.finish,record.node_id,record.offset,record.len raw⟩]
  else [⟨.start,record.node_id,record.offset,record.len raw⟩]
/-- What the split does with all messages, in the order of the index. -/
def splitCopies (raw : Bytes) (due : Nat → Option Nat) : SplitState → Nat → List IndexRecord → List Copy
  | _,_,[] => []
  | s,line,record :: records =>
    ((s.append_pcap_until_ts (due line)).map fun s => s.copiesOf raw record).getD [] ++
      ((s.splitRecord raw (due line) record).map fun s => splitCopies raw due s (line+1) records).getD []
end SplitState

section
variable {raw : Bytes} {copies : List Copy} {kind : CopyKind} {node : Int}

theorem sent_append (more : List Copy) : sent raw (copies ++ more) kind node = sent raw copies kind node ++ sent raw more kind node := by simp [sent]
theorem sent_same (offset length : Nat) : sent raw [⟨kind,node,offset,length⟩] kind node = slice raw offset length := by simp [sent]
theorem sent_other {copy : Copy} (other : ¬(copy.kind = kind ∧ copy.node = node)) : sent raw [copy] kind node = [] := by simp [other,sent]
/-- One more copy. -/
theorem sent_snoc (offset length : Nat) :
    sent raw (copies ++ [⟨kind,node,offset,length⟩]) kind node = sent raw copies kind node ++ slice raw offset length := by
  rw [sent_append,sent_same]
theorem sent_snoc_other {kind' : CopyKind} {node' : Int} {offset length : Nat} (differs : node ≠ node' ∨ kind ≠ kind') :
    sent raw (copies ++ [⟨kind',node',offset,length⟩]) kind node = sent raw copies kind node := by grind [sent_append,sent_other]
theorem sent_snoc_kind {kind' : CopyKind} {node' : Int} {offset length : Nat} (differs : kind ≠ kind' := by decide) :
    sent raw (copies ++ [⟨kind',node',offset,length⟩]) kind node = sent raw copies kind node := sent_snoc_other (.inr differs)
end

namespace SplitState
section
variable {raw : Bytes} {before : List IndexRecord} {copies copies' : List Copy} {s s' : SplitState}

/-- The start fragments: the start message, then copies of verdicts. -/
structure StartFiles (raw : Bytes) (before : List IndexRecord) (copies : List Copy) (s : SplitState) : Prop where
  file : ∀ n, Started before n → s.files (fragName n .FRAG_START 0) = some (sent raw copies .start n ++ sent raw copies .verdict n)
  missing : ∀ n, ¬Started before n → s.files (fragName n .FRAG_START 0) = none ∧ sent raw copies .start n = [] ∧
    sent raw copies .verdict n = []
  node : ∀ n : Nat, Started before n → (s.nodes n).start_len = (sent raw copies .start n).length ∧ n < s.nodes_count ∧
    StartsUnder before (s.nodes n).parent n
  fresh : ∀ n : Nat, ¬Started before n → (s.nodes n).parent = -1
structure FinishFiles (raw : Bytes) (before : List IndexRecord) (copies : List Copy) (s : SplitState) : Prop where
  file : ∀ n, Ended before n → s.files (fragName n .FRAG_END 0) = some (sent raw copies .finish n)
  missing : ∀ n, ¬Ended before n → s.files (fragName n .FRAG_END 0) = none ∧ sent raw copies .finish n = []
/-- Only nodes with a parent have messages behind them. -/
structure AfterFiles (raw : Bytes) (copies : List Copy) (s : SplitState) : Prop where
  file : ∀ n : Nat, (s.nodes n).after_frag = true → n ≠ 0 ∧ s.files (fragName n .FRAG_AFTER 0) = some (sent raw copies .after n)
  missing : ∀ n : Nat, (s.nodes n).after_frag = false → s.files (fragName n .FRAG_AFTER 0) = none ∧ sent raw copies .after n = []
/-- The inner fragments of a node together hold its messages; the last one is still appended to. -/
structure InnerFiles (raw : Bytes) (copies : List Copy) (s : SplitState) (n : Nat) : Prop where
  parts : ∃ parts : List Bytes, parts.length = (s.nodes n).inner_frags_cnt ∧ parts.flatten = sent raw copies .inner n ∧
    ∀ i, s.files (fragName n .FRAG_INNER i) = parts[i]?
  fresh : (s.nodes n).inner_frags_cnt = 0 → (s.nodes n).cur_file_num = 0 ∧ (s.nodes n).cur_file_size = 0
  last : 0 < (s.nodes n).inner_frags_cnt → (s.nodes n).cur_file_num+1 = (s.nodes n).inner_frags_cnt
/-- The state of the split behind some records, with the copies that it has made. -/
structure Kept (raw : Bytes) (before : List IndexRecord) (copies : List Copy) (s : SplitState) : Prop where
  start : StartFiles raw before copies s
  finish : FinishFiles raw before copies s
  after : AfterFiles raw copies s
  inner : ∀ n : Nat, InnerFiles raw copies s n
  closed : ClosedIn (fun _ child => 0 < child) s

theorem StartFiles.congr (start : StartFiles raw before copies s)
    (files : ∀ n, s'.files (fragName n .FRAG_START 0) = s.files (fragName n .FRAG_START 0)) (count : s.nodes_count ≤ s'.nodes_count)
    (nodes : ∀ id, (s'.nodes id).start_len = (s.nodes id).start_len ∧ (s'.nodes id).parent = (s.nodes id).parent)
    (same : ∀ n, sent raw copies' .start n = sent raw copies .start n ∧ sent raw copies' .verdict n = sent raw copies .verdict n) :
    StartFiles raw before copies' s' := by
  refine ⟨?_,?_,?_,?_⟩
  · intro n started
    rw [files,(same n).1,(same n).2]
    exact start.file n started
  · intro n fresh
    rw [files,(same n).1,(same n).2]
    exact start.missing n fresh
  · intro n started
    obtain ⟨len,within,under⟩ := start.node n started
    rw [(nodes n).1,(nodes n).2,(same n).1]
    exact ⟨len,lt_of_lt_of_le within count,under⟩
  · intro n fresh
    rw [(nodes n).2]
    exact start.fresh n fresh
theorem FinishFiles.congr (finish : FinishFiles raw before copies s)
    (files : ∀ n, s'.files (fragName n .FRAG_END 0) = s.files (fragName n .FRAG_END 0))
    (same : ∀ n, sent raw copies' .finish n = sent raw copies .finish n) : FinishFiles raw before copies' s' := by
  constructor
  · intro n ended
    rw [files,same]
    exact finish.file n ended
  · intro n open_still
    rw [files,same]
    exact finish.missing n open_still
theorem AfterFiles.congr (after : AfterFiles raw copies s)
    (files : ∀ n, s'.files (fragName n .FRAG_AFTER 0) = s.files (fragName n .FRAG_AFTER 0))
    (nodes : ∀ id, (s'.nodes id).after_frag = (s.nodes id).after_frag)
    (same : ∀ n, sent raw copies' .after n = sent raw copies .after n) : AfterFiles raw copies' s' := by
  constructor
  · intro n flag
    rw [nodes] at flag
    rw [files,same]
    exact after.file n flag
  · intro n flag
    rw [nodes] at flag
    rw [files,same]
    exact after.missing n flag
theorem InnerFiles.congr {n : Nat} (inner : InnerFiles raw copies s n)
    (files : ∀ i, s'.files (fragName n .FRAG_INNER i) = s.files (fragName n .FRAG_INNER i))
    (nodes : (s'.nodes n).inner_frags_cnt = (s.nodes n).inner_frags_cnt ∧ (s'.nodes n).cur_file_num = (s.nodes n).cur_file_num ∧
      (s'.nodes n).cur_file_size = (s.nodes n).cur_file_size)
    (same : sent raw copies' .inner n = sent raw copies .inner n) : InnerFiles raw copies' s' n := by
  obtain ⟨⟨parts,count,whole,each⟩,fresh,last⟩ := inner
  refine ⟨⟨parts,?_,?_,?_⟩,?_,?_⟩
  · rw [nodes.1]
    exact count
  · rw [same]
    exact whole
  · intro i
    rw [files]
    exact each i
  · omega
  · omega

theorem Alike.fields {node node' : NodeInfo} (alike : Alike node node') : node'.parent = node.parent ∧ node'.start_len = node.start_len ∧
    node'.after_frag = node.after_frag ∧ node'.inner_frags_cnt = node.inner_frags_cnt ∧ node'.cur_file_num = node.cur_file_num ∧
    node'.cur_file_size = node.cur_file_size ∧ node'.verdicts_num = node.verdicts_num := by
  rw [alike]
  exact ⟨rfl,rfl,rfl,rfl,rfl,rfl,rfl⟩
/-- What changes neither files nor the fields that tell about them. -/
theorem Kept.fields (kept : Kept raw before copies s) (files : s'.files = s.files) (count : s.nodes_count ≤ s'.nodes_count)
    (fields : ∀ id, (s'.nodes id).parent = (s.nodes id).parent ∧ (s'.nodes id).start_len = (s.nodes id).start_len ∧
      (s'.nodes id).after_frag = (s.nodes id).after_frag ∧ (s'.nodes id).inner_frags_cnt = (s.nodes id).inner_frags_cnt ∧
      (s'.nodes id).cur_file_num = (s.nodes id).cur_file_num ∧ (s'.nodes id).cur_file_size = (s.nodes id).cur_file_size)
    (closed : ClosedIn (fun _ child => 0 < child) s') : Kept raw before copies s' := by
  refine ⟨kept.start.congr (fun n => by rw [files]) count (fun id => ⟨(fields id).2.1,(fields id).1⟩) fun _ => ⟨rfl,rfl⟩,
    kept.finish.congr (fun n => by rw [files]) fun _ => rfl,
    kept.after.congr (fun n => by rw [files]) (fun id => (fields id).2.2.1) fun _ => rfl,?_,closed⟩
  intro n
  exact (kept.inner n).congr (fun i => by rw [files]) (fields n).2.2.2 rfl
theorem Kept.plain (kept : Kept raw before copies s) (plain : Plain s s') (closed : ClosedIn (fun _ child => 0 < child) s') :
    Kept raw before copies s' := by
  refine kept.fields plain.files plain.count (fun id => ?_) closed
  obtain ⟨parent,len,after,cnt,num,size,-⟩ := (plain.nodes id).fields
  exact ⟨parent,len,after,cnt,num,size⟩
end

section
variable {raw : Bytes} {before : List IndexRecord} {copies : List Copy} {s s' : SplitState} {node_id : Int} {frag_type : FragmentType}
  {offset length : Nat}

/-- What an append does to files and nodes. -/
theorem append_effect (done : s.append_to_frag node_id frag_type raw offset length = some s') :
    ∃ name t, s.fragFile node_id frag_type length = some (name,t) ∧
      s'.files = update s.files name (some ((s.files name).getD [] ++ slice raw offset length)) ∧ s'.nodes = t.nodes ∧
      s'.nodes_count = t.nodes_count := by
  obtain ⟨⟨name,t⟩,filed,rest⟩ := of_bind done
  obtain ⟨-,-,same⟩ := fragFile_cases filed
  have files : t.files = s.files := by rw [same]
  obtain ⟨data,read,result⟩ := of_bind rest
  rw [readAt] at read
  split_ifs at read
  obtain rfl := some.inj read
  refine ⟨name,t,filed,?_⟩
  simp only at result
  rw [noteBlock_rest] at result
  obtain rfl := some.inj result
  refine ⟨?_,rfl,rfl⟩
  show update t.files name (some ((t.files name).getD [] ++ _)) = _
  rw [files]
  rfl
/-- A node or a type that is not the one of the append has the files that it had. -/
theorem other_file {name : CStr} {data : Option Bytes} {n : Int} {t : FragmentType} {i num : Nat} (named : name = fragName node_id frag_type num)
    (other : n ≠ node_id ∨ t ≠ frag_type) (files : s'.files = update s.files name data) :
    s'.files (fragName n t i) = s.files (fragName n t i) := by
  rw [files,update_of_ne]
  rw [named]
  intro same
  obtain ⟨same_node,same_type⟩ := fragName_injective same
  obtain differs | differs := other
  · exact differs same_node
  · exact differs same_type
theorem other_type {data : Option Bytes} {n : Int} {t : FragmentType} {i num : Nat} (files : s'.files = update s.files (fragName node_id frag_type num) data)
    (differs : t ≠ frag_type := by decide) : s'.files (fragName n t i) = s.files (fragName n t i) := other_file rfl (.inr differs) files
theorem append_edge (edge : frag_type = .FRAG_START ∨ frag_type = .FRAG_END) (done : s.append_to_frag node_id frag_type raw offset length = some s') :
    s'.files = update s.files (fragName node_id frag_type 0)
      (some ((s.files (fragName node_id frag_type 0)).getD [] ++ slice raw offset length)) ∧ s'.nodes = s.nodes ∧
      s'.nodes_count = s.nodes_count := by
  obtain ⟨name,t,filed,files,nodes,count⟩ := append_effect done
  obtain ⟨rfl,rfl⟩ : fragName node_id frag_type 0 = name ∧ s = t := by
    obtain rfl | rfl := edge <;> exact of_pair (filed : some _ = some _)
  exact ⟨files,nodes,count⟩

/-- A verdict goes behind the start message of its node. -/
theorem Kept.verdict (kept : Kept raw before copies s) (started : Started before node_id)
    (done : s.append_to_frag node_id .FRAG_START raw offset length = some s') :
    Kept raw before (copies ++ [⟨.verdict,node_id,offset,length⟩]) s' := by
  obtain ⟨files,nodes,count⟩ := append_edge (.inl rfl) done
  refine ⟨⟨?_,?_,?_,?_⟩,?_,?_,?_,?_⟩
  · intro n is_started
    by_cases same : n = node_id
    · simp [same,files,kept.start.file,started,sent_snoc_other,sent_snoc]
    · rw [other_file rfl (.inl same) files,sent_snoc_other (.inl same),sent_snoc_other (.inl same)]
      exact kept.start.file n is_started
  · intro n fresh
    have same : n ≠ node_id := fun here => fresh (by rw [here]; exact started)
    rw [other_file rfl (.inl same) files,sent_snoc_other (.inl same),sent_snoc_other (.inl same)]
    exact kept.start.missing n fresh
  · intro n is_started
    rw [nodes,count,sent_snoc_other (.inr (by decide))]
    exact kept.start.node n is_started
  · intro n fresh
    rw [nodes]
    exact kept.start.fresh n fresh
  · exact kept.finish.congr (fun n => other_type files) fun n => sent_snoc_kind
  · exact kept.after.congr (fun n => other_type files) (fun id => by rw [nodes]) fun n => sent_snoc_kind
  · intro n
    exact (kept.inner n).congr (fun i => other_type files) (by rw [nodes]; exact ⟨rfl,rfl,rfl⟩)
      sent_snoc_kind
  · intro id some_child
    rw [nodes] at some_child ⊢
    exact kept.closed id some_child
/-- A message behind the end of a node. -/
theorem Kept.behind (kept : Kept raw before copies s) (positive : 0 < node_id)
    (done : s.append_to_frag node_id .FRAG_AFTER raw offset length = some s') :
    Kept raw before (copies ++ [⟨.after,node_id,offset,length⟩]) s' ∧ SameClosed s s' ∧
      ∀ id, (s'.nodes id).verdicts_num = (s.nodes id).verdicts_num := by
  obtain ⟨num,-,closed⟩ := append_cases done
  obtain ⟨name,t,filed,files,nodes,count⟩ := append_effect done
  obtain ⟨⟨id,u⟩,got,found⟩ := of_bind (filed : Option.bind _ _ = some _)
  obtain ⟨plain,-⟩ := get_node_info_plain got
  obtain ⟨nonneg,at_id,-⟩ := get_node_info_cases got
  obtain ⟨rfl,rfl⟩ := of_pair found
  have cast : node_id = (id : Int) := by omega
  have flagged : ∀ n, s'.nodes n = if n = id then { u.nodes n with after_frag := true } else u.nodes n := by
    intro n
    rw [nodes]
    show update u.nodes id _ n = _
    by_cases same : n = id
    · rw [same,update_self,if_pos rfl]
    · rw [update_of_ne same,if_neg same]
  have fields : ∀ n, (s'.nodes n).parent = (s.nodes n).parent ∧ (s'.nodes n).start_len = (s.nodes n).start_len ∧
      (s'.nodes n).inner_frags_cnt = (s.nodes n).inner_frags_cnt ∧ (s'.nodes n).cur_file_num = (s.nodes n).cur_file_num ∧
      (s'.nodes n).cur_file_size = (s.nodes n).cur_file_size ∧ (s'.nodes n).verdicts_num = (s.nodes n).verdicts_num := by
    intro n
    obtain ⟨parent,len,-,cnt,file_num,size,verdicts⟩ := (plain.nodes n).fields
    rw [flagged n]
    split_ifs
    · exact ⟨parent,len,cnt,file_num,size,verdicts⟩
    · exact ⟨parent,len,cnt,file_num,size,verdicts⟩
  refine ⟨⟨?_,?_,⟨?_,?_⟩,?_,?_⟩,closed,fun n => (fields n).2.2.2.2.2⟩
  · exact kept.start.congr (fun n => other_type files) (by rw [count]; exact plain.count)
      (fun n => ⟨(fields n).2.1,(fields n).1⟩) fun n => ⟨sent_snoc_kind,sent_snoc_kind⟩
  · exact kept.finish.congr (fun n => other_type files) fun n => sent_snoc_kind
  · intro n flag
    by_cases same : n = id
    · have before_file : (s.files (fragName node_id .FRAG_AFTER 0)).getD [] = sent raw copies .after node_id := by
        rcases old : (s.nodes id).after_frag with _ | _
        · simp [cast,kept.after.missing,old]
        · rw [cast,(kept.after.file id old).2]
          rfl
      refine ⟨by omega,?_⟩
      rw [same,← cast,files,update_self,before_file,sent_snoc]
    · have differs : (n : Int) ≠ node_id := by omega
      rw [flagged n,if_neg same] at flag
      have old : (s.nodes n).after_frag = true := by rw [← ((plain.nodes n).fields).2.2.1]; exact flag
      rw [other_file rfl (.inl differs) files,sent_snoc_other (.inl differs)]
      exact kept.after.file n old
  · intro n flag
    rw [flagged n] at flag
    split_ifs at flag with same
    have differs : (n : Int) ≠ node_id := by omega
    have old : (s.nodes n).after_frag = false := by rw [← ((plain.nodes n).fields).2.2.1]; exact flag
    rw [other_file rfl (.inl differs) files,sent_snoc_other (.inl differs)]
    exact kept.after.missing n old
  · intro n
    exact (kept.inner n).congr (fun i => other_type files) ⟨(fields n).2.2.1,(fields n).2.2.2.1,(fields n).2.2.2.2.1⟩
      sent_snoc_kind
  · exact kept.closed.same closed

/-- An inner message goes to the last inner fragment or starts the next one. -/
theorem InnerFiles.put {n num : Nat} {cnt size : Nat} (inner : InnerFiles raw copies s n)
    (counters : cnt = (if MAX_FRAG_SIZE < (s.nodes n).cur_file_size then (s.nodes n).inner_frags_cnt+1 else max 1 (s.nodes n).inner_frags_cnt) ∧
      num = if MAX_FRAG_SIZE < (s.nodes n).cur_file_size then (s.nodes n).cur_file_num+1 else (s.nodes n).cur_file_num)
    (nodes : (s'.nodes n).inner_frags_cnt = cnt ∧ (s'.nodes n).cur_file_num = num ∧ (s'.nodes n).cur_file_size = size)
    (files : s'.files = update s.files (fragName n .FRAG_INNER num)
      (some ((s.files (fragName n .FRAG_INNER num)).getD [] ++ slice raw offset length)))
    (named : ∀ i, i ≠ num → fragName n .FRAG_INNER i ≠ fragName n .FRAG_INNER num) :
    InnerFiles raw (copies ++ [⟨.inner,n,offset,length⟩]) s' n := by
  obtain ⟨⟨parts,count,whole,each⟩,fresh,last⟩ := inner
  obtain ⟨is_cnt,is_num⟩ := counters
  have file : ∀ i, s'.files (fragName n .FRAG_INNER i) =
      if i = num then some ((parts[num]?).getD [] ++ slice raw offset length) else parts[i]? := by
    intro i
    split_ifs with same
    · rw [same,files,update_self,each num]
    · rw [files,update_of_ne (named i same),each i]
  -- the fragments before the one that is written
  have written : ∃ front last, parts.flatten = front.flatten ++ last ∧ front.length = num ∧ cnt = num+1 ∧ (parts[num]?).getD [] = last ∧
      ∀ i, i ≠ num → parts[i]? = (front ++ [last])[i]? := by
    split_ifs at is_cnt is_num with large
    · grind
    · rcases Nat.eq_zero_or_pos (s.nodes n).inner_frags_cnt with zero | positive
      · grind
      · have num_eq := last positive
        have some_there : parts ≠ [] := fun none_there => by rw [none_there] at count; simp at count; omega
        have split := List.dropLast_append_getLast some_there
        have front_length : parts.dropLast.length = num := by rw [List.length_dropLast]; omega
        refine ⟨parts.dropLast,parts.getLast some_there,?_,front_length,by omega,?_,?_⟩
        · grind
        · grind
        · intro i _
          rw [split]
  obtain ⟨front,final,flat,front_length,is_last,final_eq,others⟩ := written
  refine ⟨⟨front ++ [final ++ slice raw offset length],?_,?_,?_⟩,?_,?_⟩
  · rw [length_append,nodes.1,is_last,front_length]
    rfl
  · rw [sent_snoc,← whole,flat,List.flatten_append]
    simp
  · grind
  · rw [nodes.1]
    omega
  · rw [nodes.1,nodes.2.1]
    omega
theorem inner_names {n : Int} {i num : Nat} (same : fragName n .FRAG_INNER i = fragName n .FRAG_INNER num) : i = num := by
  grind [fragName.eq_def,append_cancel_left,natText_injective]
/-- A message of a node. -/
theorem Kept.message (kept : Kept raw before copies s)
    (done : s.append_to_frag node_id .FRAG_INNER raw offset length = some s') :
    Kept raw before (copies ++ [⟨.inner,node_id,offset,length⟩]) s' ∧ SameClosed s s' ∧
      ∀ id, (s'.nodes id).verdicts_num = (s.nodes id).verdicts_num := by
  obtain ⟨num,-,closed⟩ := append_cases done
  obtain ⟨name,t,filed,files,nodes,count⟩ := append_effect done
  obtain ⟨⟨id,u⟩,got,found⟩ := of_bind (filed : Option.bind _ _ = some _)
  obtain ⟨plain,-⟩ := get_node_info_plain got
  obtain ⟨nonneg,at_id,-⟩ := get_node_info_cases got
  obtain ⟨rfl,rfl⟩ := of_pair found
  have cast : node_id = (id : Int) := by omega
  have old := fun n => (plain.nodes n).fields
  -- the counters of the node with the message
  have counted : ∃ cnt size, s'.nodes id = { u.nodes id with
        inner_frags_cnt := cnt
        cur_file_num := (s'.nodes id).cur_file_num
        cur_file_size := size } ∧
      cnt = (if MAX_FRAG_SIZE < (u.nodes id).cur_file_size then max 1 (u.nodes id).inner_frags_cnt+1 else max 1 (u.nodes id).inner_frags_cnt) ∧
      (s'.nodes id).cur_file_num =
        if MAX_FRAG_SIZE < (u.nodes id).cur_file_size then (u.nodes id).cur_file_num+1 else (u.nodes id).cur_file_num := by
    rw [nodes]
    simp only [setNode,update_self]
    by_cases zero : (u.nodes id).inner_frags_cnt = 0
    · grind
    · grind
  have others : ∀ n, n ≠ id → s'.nodes n = u.nodes n := by
    intro n differs
    rw [nodes]
    simp only [setNode]
    rw [update_of_ne differs,update_of_ne differs]
  have written : s'.files = update s.files (fragName node_id .FRAG_INNER (s'.nodes id).cur_file_num)
      (some ((s.files (fragName node_id .FRAG_INNER (s'.nodes id).cur_file_num)).getD [] ++ slice raw offset length)) := by
    rw [nodes]
    exact files
  obtain ⟨cnt,size,is_node,is_cnt,is_num⟩ := counted
  have fields : ∀ n, (s'.nodes n).parent = (s.nodes n).parent ∧ (s'.nodes n).start_len = (s.nodes n).start_len ∧
      (s'.nodes n).after_frag = (s.nodes n).after_frag ∧ (s'.nodes n).verdicts_num = (s.nodes n).verdicts_num := by grind
  refine ⟨⟨?_,?_,?_,?_,?_⟩,closed,fun n => (fields n).2.2.2⟩
  · exact kept.start.congr (fun n => other_type written) (by rw [count]; exact plain.count)
      (fun n => ⟨(fields n).2.1,(fields n).1⟩) fun n => ⟨sent_snoc_kind,sent_snoc_kind⟩
  · exact kept.finish.congr (fun n => other_type written) fun n => sent_snoc_kind
  · exact kept.after.congr (fun n => other_type written) (fun n => (fields n).2.2.1)
      fun n => sent_snoc_kind
  · intro n
    by_cases same : n = id
    · obtain ⟨-,-,-,cnt_same,num_same,size_same,-⟩ := old id
      have cnt_now : (s'.nodes id).inner_frags_cnt = cnt := by rw [is_node]
      have size_now : (s'.nodes id).cur_file_size = size := by rw [is_node]
      rw [same,cast] at *
      refine (kept.inner id).put ⟨?_,?_⟩ ⟨cnt_now,rfl,size_now⟩ written fun i differs same_name => differs (inner_names same_name)
      · rw [is_cnt,cnt_same,size_same]
        split_ifs with large
        · have some_there : (s.nodes id).inner_frags_cnt ≠ 0 := by
            intro zero
            have := ((kept.inner id).fresh zero).2
            omega
          omega
        · rfl
      · rw [is_num,num_same,size_same]
    · have differs : (n : Int) ≠ node_id := by omega
      obtain ⟨-,-,-,cnt_same,num_same,size_same,-⟩ := old n
      refine (kept.inner n).congr (fun i => other_file rfl (.inl differs) written) ?_ (sent_snoc_other (.inl differs))
      rw [others n same]
      exact ⟨cnt_same,num_same,size_same⟩
  · exact kept.closed.same closed
end

section
variable {raw : Bytes} {before : List IndexRecord} {record : IndexRecord} {copies : List Copy} {s s' t : SplitState} {offset length line : Nat}

theorem packet_kept (kept : Kept raw before copies s) (id : Nat) : Kept raw before copies (s.append_pcap_to_node id) := by
  have noted : Kept raw before copies (s.setNode id fun node => { node with sniff_logs := true }) := by
    refine kept.fields rfl le_rfl (fun n => ?_) (kept.closed.same (setNode_closed fun _ => rfl))
    simp only [setNode]
    by_cases same : n = id
    · rw [same,update_self]
      exact ⟨rfl,rfl,rfl,rfl,rfl,rfl⟩
    · rw [update_of_ne same]
      exact ⟨rfl,rfl,rfl,rfl,rfl,rfl⟩
  rw [append_pcap_to_node]
  generalize s.setNode id (fun node => { node with sniff_logs := true }) = u at noted
  simp only
  split_ifs with no_inner
  · obtain ⟨⟨parts,count,whole,each⟩,fresh,-⟩ := noted.inner id
    have none_there : parts = [] := length_eq_zero_iff.mp (by omega)
    let marked := update u.nodes id { u.nodes id with inner_frags_cnt := 1 }
    have counted : ∀ n, n ≠ id → marked n = u.nodes n := fun n differs => update_of_ne differs _ _
    have here : marked id = { u.nodes id with inner_frags_cnt := 1 } := update_self ..
    have fields : ∀ n, (marked n).parent = (u.nodes n).parent ∧ (marked n).start_len = (u.nodes n).start_len ∧
        (marked n).after_frag = (u.nodes n).after_frag ∧ (marked n).last_closed_child = (u.nodes n).last_closed_child := by grind
    have other : ∀ {n : Int} {t : FragmentType} {i : Nat}, fragName n t i ≠ fragName id .FRAG_INNER 0 →
        update u.files (fragName id .FRAG_INNER 0) (some ((u.files (fragName id .FRAG_INNER 0)).getD [])) (fragName n t i) =
          u.files (fragName n t i) := fun differs => update_of_ne differs _ _
    have type_differs : ∀ {n : Int} {t : FragmentType} {i : Nat}, t ≠ .FRAG_INNER → fragName n t i ≠ fragName id .FRAG_INNER 0 :=
      fun differs same => differs (fragName_injective same).2
    refine ⟨noted.start.congr (fun n => other (type_differs (by decide))) le_rfl (fun n => ⟨(fields n).2.1,(fields n).1⟩) fun _ => ⟨rfl,rfl⟩,
      noted.finish.congr (fun n => other (type_differs (by decide))) fun _ => rfl,
      noted.after.congr (fun n => other (type_differs (by decide))) (fun n => (fields n).2.2.1) fun _ => rfl,?_,
      noted.closed.same fun n => (fields n).2.2.2⟩
    intro n
    by_cases same : n = id
    · have now : marked n = { u.nodes id with inner_frags_cnt := 1 } := same ▸ here
      refine ⟨⟨[[]],?_,?_,?_⟩,?_,?_⟩
      · show 1 = (marked n).inner_frags_cnt
        rw [now]
      · rw [same,← whole,none_there]
        rfl
      · grind [inner_names]
      · intro zero
        have one : (marked n).inner_frags_cnt = 0 := zero
        rw [now] at one
        cases one
      · intro _
        show (marked n).cur_file_num+1 = (marked n).inner_frags_cnt
        rw [now]
        show (u.nodes id).cur_file_num+1 = 1
        rw [(fresh no_inner).1]
    · refine (noted.inner n).congr (fun i => other fun same_name => same ?_) ?_ rfl
      · exact Int.ofNat.inj (fragName_injective same_name).1
      · show (marked n).inner_frags_cnt = _ ∧ _ ∧ _
        exact ⟨by rw [counted n same],by rw [← counted n same]; rfl,by rw [← counted n same]; rfl⟩
  · exact noted
theorem packets_kept (kept : Kept raw before copies s) {due : Option Nat} (done : s.append_pcap_until_ts due = some s') :
    Kept raw before copies s' := by
  obtain ⟨packets,-,rest⟩ := of_bind done
  have turn : ∀ (leaves : List Nat) (s : SplitState), Kept raw before copies s → Kept raw before copies (leaves.foldl append_pcap_to_node s) := by
    intro leaves
    induction leaves with
    | nil => exact fun s kept => kept
    | cons id leaves ih => exact fun s kept => ih _ (packet_kept kept id)
  have turns : ∀ (leaves counts : List Nat) (s : SplitState), Kept raw before copies s →
      Kept raw before copies (counts.foldl (fun s _ => leaves.foldl append_pcap_to_node s) s) := by
    intro leaves counts
    induction counts with
    | nil => exact fun s kept => kept
    | cons _ counts ih => exact fun s kept => ih _ (turn leaves s kept)
  split_ifs at rest
  · obtain rfl := some.inj rest
    exact kept
  · obtain ⟨leaves,-,rfl⟩ := of_map rest
    exact turns leaves _ s kept

/-- Messages without node go to the leaf nodes as these stand before the first copy. -/
theorem leaves_kept {ids : List Nat} (kept : Kept raw before copies s) (same : SameClosed t s)
    (done : ids.foldlM (appendToLeaf raw offset length) s = some s') :
    Kept raw before (copies ++ ids.map (t.leafCopy offset length)) s' ∧ ∀ id, (s'.nodes id).verdicts_num = (s.nodes id).verdicts_num := by
  induction ids generalizing s copies with
  | nil => grind
  | cons id ids ih =>
    rw [foldlM_cons] at done
    obtain ⟨u,turn,rest⟩ := of_bind done
    have one : Kept raw before (copies ++ [t.leafCopy offset length id]) u ∧ SameClosed s u ∧
        ∀ id, (u.nodes id).verdicts_num = (s.nodes id).verdicts_num := by
      rw [appendToLeaf] at turn
      rw [leafCopy,← same id]
      split_ifs at turn ⊢ with child
      · exact kept.behind (kept.closed id child) turn
      · exact kept.message turn
    obtain ⟨kept',same',verdicts⟩ := one
    obtain ⟨whole,verdicts'⟩ := ih kept' (same.trans same') rest
    rw [append_assoc] at whole
    exact ⟨whole,fun id => (verdicts' id).trans (verdicts id)⟩
/-- A new record without a property changes nothing for it. -/
theorem exists_snoc {p : IndexRecord → Prop} (fails : ¬p record) : (∃ r ∈ before ++ [record], p r) ↔ ∃ r ∈ before, p r := by
  simp [or_and_right,exists_or,fails]
theorem Kept.regular (kept : Kept raw before copies s) (regular : record.IsRegular) : Kept raw (before ++ [record]) copies s := by
  have no_start : ¬record.IsStart := fun start => start.1 regular
  have no_end : ¬record.IsEnd := by grind [IndexRecord.IsRegular,IsEnd]
  have started (n : Int) : Started (before ++ [record]) n ↔ Started before n := exists_snoc fun start => no_start start.1
  have ended (n : Int) : Ended (before ++ [record]) n ↔ Ended before n := exists_snoc fun ended => no_end ended.1
  refine ⟨⟨fun n is_started => kept.start.file n ((started n).mp is_started),fun n fresh => kept.start.missing n fun old => fresh ((started n).mpr old),
    fun n is_started => ?_,fun n fresh => kept.start.fresh n fun old => fresh ((started n).mpr old)⟩,
    ⟨fun n is_ended => kept.finish.file n ((ended n).mp is_ended),fun n fresh => kept.finish.missing n fun old => fresh ((ended n).mpr old)⟩,
    kept.after,kept.inner,kept.closed⟩
  obtain ⟨len,within,under⟩ := kept.start.node n ((started n).mp is_started)
  obtain ⟨other,member,start,node,parent⟩ := under
  exact ⟨len,within,other,mem_append_left _ member,start,node,parent⟩
theorem regular_kept (fits : Fits before record) (regular : record.IsRegular) (kept : Kept raw before copies s)
    (done : s.splitRegular raw record length = some s') :
    Kept raw (before ++ [record]) (copies ++ s.regularCopies record length) s' := by
  obtain ⟨t,copied,verdict⟩ := of_bind done
  generalize sent_eq : (if record.parent_id ≠ TE_LOG_ID_UNDEFINED then [⟨.inner,record.parent_id,record.offset,length⟩]
    else (s.leaves.getD []).map (s.leafCopy record.offset length)) = firsts
  have first : Kept raw before (copies ++ firsts) t ∧ ∀ id, (t.nodes id).verdicts_num = (s.nodes id).verdicts_num := by
    rw [← sent_eq]
    split_ifs at copied ⊢
    · obtain ⟨kept',-,verdicts⟩ := kept.message copied
      exact ⟨kept',verdicts⟩
    · obtain ⟨leaves,walked,rest⟩ := of_bind copied
      split_ifs at rest
      rw [walked,getD_some]
      exact leaves_kept kept (fun _ => rfl) rest
  obtain ⟨kept',verdicts⟩ := first
  rw [regularCopies,sent_eq]
  refine Kept.regular ?_ regular
  rw [← append_assoc]
  split_ifs at verdict with no_verdict
  · grind
  · obtain ⟨⟨id,u⟩,got,rest⟩ := of_bind verdict
    obtain ⟨plain,same⟩ := get_node_info_plain got
    obtain ⟨-,rfl,-⟩ := get_node_info_cases got
    have counted : (u.nodes record.parent_id.toNat).verdicts_num = (s.nodes record.parent_id.toNat).verdicts_num := by
      rw [((plain.nodes _).fields).2.2.2.2.2.2,verdicts]
    have kept_u := kept'.plain plain (kept'.closed.same same)
    simp only [counted] at rest
    split_ifs at rest with many
    · grind
    · obtain ⟨v,copied',rfl⟩ := of_map rest
      rw [if_pos ⟨no_verdict,by omega⟩]
      have kept_v := kept_u.verdict (fits.verdict regular no_verdict) copied'
      refine kept_v.fields rfl le_rfl (fun n => ?_) (kept_v.closed.same (setNode_closed fun _ => rfl))
      simp only [setNode]
      by_cases same : n = record.parent_id.toNat
      · rw [same,update_self]
        exact ⟨rfl,rfl,rfl,rfl,rfl,rfl⟩
      · grind
theorem started_end (ends : record.IsEnd) (n : Int) : Started (before ++ [record]) n ↔ Started before n :=
  exists_snoc fun start => start.1.2 ends
/-- A node with a parent is not the root. -/
def Rooted (before : List IndexRecord) : Prop := ∀ parent node, StartsUnder before parent node →
  0 ≤ node ∧ (node = 0 ∧ parent ≤ 0 ∨ 0 ≤ parent ∧ parent < node ∧ Started before parent)
theorem end_kept (fits : Fits before record) (rooted : Rooted before) (ends : record.IsEnd) (kept : Kept raw before copies s)
    (split : s.splitEnd record = some t) (done : t.append_to_frag record.node_id .FRAG_END raw offset length = some s') :
    Kept raw (before ++ [record]) (copies ++ [⟨.finish,record.node_id,offset,length⟩]) s' := by
  obtain ⟨under,fresh⟩ := fits.finish ends
  have child : 0 ≤ record.parent_id → record.parent_id ≠ record.node_id → 0 < record.node_id := by
    intro nonneg differs
    obtain ⟨-,⟨root,le⟩ | ⟨_,less,_⟩⟩ := rooted _ _ under
    · omega
    · omega
  obtain ⟨nonneg,plain,closed⟩ := splitEnd_cases child kept.closed split
  have kept_t := kept.plain plain closed
  obtain ⟨files,nodes,count⟩ := append_edge (.inr rfl) done
  refine ⟨⟨?_,?_,?_,?_⟩,⟨?_,?_⟩,?_,?_,?_⟩
  · intro n started
    rw [other_file rfl (.inr (by decide)) files,sent_snoc_other (.inr (by decide)),sent_snoc_other (.inr (by decide))]
    exact kept_t.start.file n ((started_end ends n).mp started)
  · intro n missing
    rw [other_file rfl (.inr (by decide)) files,sent_snoc_other (.inr (by decide)),sent_snoc_other (.inr (by decide))]
    exact kept_t.start.missing n fun started => missing ((started_end ends n).mpr started)
  · intro n started
    rw [nodes,count,sent_snoc_other (.inr (by decide))]
    obtain ⟨len,within,parent⟩ := kept_t.start.node n ((started_end ends n).mp started)
    exact ⟨len,within,parent.mono _⟩
  · intro n missing
    rw [nodes]
    exact kept_t.start.fresh n fun started => missing ((started_end ends n).mpr started)
  · intro n ended
    by_cases same : n = record.node_id
    · simp [same,files,kept_t.finish.missing,fresh,sent_snoc]
    · rw [other_file rfl (.inl same) files,sent_snoc_other (.inl same)]
      obtain ⟨other,member,is_end,node⟩ := ended
      obtain old | new := mem_append.mp member
      · exact kept_t.finish.file n ⟨other,old,is_end,node⟩
      · rw [mem_singleton.mp new] at node
        exact absurd node.symm same
  · intro n open_still
    have same : n ≠ record.node_id := fun here => open_still ⟨record,mem_append_right _ (mem_singleton.mpr rfl),ends,here.symm⟩
    rw [other_file rfl (.inl same) files,sent_snoc_other (.inl same)]
    exact kept_t.finish.missing n fun ended => open_still (ended.mono _)
  · exact kept_t.after.congr (fun n => other_type files) (fun n => by rw [nodes])
      fun n => sent_snoc_kind
  · intro n
    exact (kept_t.inner n).congr (fun i => other_type files) (by rw [nodes]; exact ⟨rfl,rfl,rfl⟩)
      sent_snoc_kind
  · intro id some_child
    rw [nodes] at some_child ⊢
    exact kept_t.closed id some_child
theorem ended_start (starts : record.IsStart) (n : Int) : Ended (before ++ [record]) n ↔ Ended before n :=
  exists_snoc fun ended => starts.2 ended.1
theorem start_kept (fits : Fits before record) (starts : record.IsStart) (kept : Kept raw before copies s) (inside : length = 0 ∨ offset+length ≤ raw.length)
    (split : s.splitStart record length = some t) (done : t.append_to_frag record.node_id .FRAG_START raw offset length = some s') :
    Kept raw (before ++ [record]) (copies ++ [⟨.start,record.node_id,offset,length⟩]) s' := by
  obtain ⟨fresh,-,-⟩ := fits.start starts
  obtain ⟨nonneg,u,u',plain,same,room,is_noted,plain',same'⟩ := splitStart_cases split
  obtain ⟨files,nodes,count⟩ := append_edge (.inl rfl) done
  have closed : SameClosed s s' := by
    have noted : SameClosed u u' := by
      rw [is_noted]
      exact setNode_closed fun _ => rfl
    have whole := same.trans (noted.trans same')
    intro id
    rw [nodes]
    exact whole id
  have files_t : t.files = s.files := by
    rw [plain'.files,is_noted]
    exact plain.files
  rw [files_t] at files
  have counts : s.nodes_count ≤ s'.nodes_count ∧ record.node_id.toNat < s'.nodes_count := by
    have last := plain'.count
    rw [is_noted] at last
    rw [count]
    exact ⟨le_trans plain.count last,lt_of_lt_of_le room last⟩
  have fields : ∀ n, (s'.nodes n).parent = (if n = record.node_id.toNat then record.parent_id else (s.nodes n).parent) ∧
      (s'.nodes n).start_len = (if n = record.node_id.toNat then length else (s.nodes n).start_len) ∧
      (s'.nodes n).after_frag = (s.nodes n).after_frag ∧ (s'.nodes n).inner_frags_cnt = (s.nodes n).inner_frags_cnt ∧
      (s'.nodes n).cur_file_num = (s.nodes n).cur_file_num ∧ (s'.nodes n).cur_file_size = (s.nodes n).cur_file_size := by
    intro n
    obtain ⟨parent',len',after',cnt',num',size',-⟩ := (plain'.nodes n).fields
    obtain ⟨parent,len,after,cnt,num,size,-⟩ := (plain.nodes n).fields
    rw [nodes,parent',len',after',cnt',num',size',is_noted]
    simp only [setNode]
    split_ifs with here
    · grind
    · grind
  have sliced : (slice raw offset length).length = length := by rw [slice,length_take,length_drop]; omega
  have started : ∀ n, Started (before ++ [record]) n → n ≠ record.node_id → Started before n := by
    rintro n ⟨other,member,start,node⟩ differs
    obtain old | new := mem_append.mp member
    · exact ⟨other,old,start,node⟩
    · grind
  have starts_here : Started (before ++ [record]) record.node_id := ⟨record,mem_append_right _ (mem_singleton.mpr rfl),starts,rfl⟩
  refine ⟨⟨?_,?_,?_,?_⟩,?_,?_,?_,kept.closed.same closed⟩
  · intro n is_started
    by_cases here : n = record.node_id
    · simp [kept.start.missing,fresh,here,files,sent_snoc,sent_snoc_other]
    · rw [other_file rfl (.inl here) files,sent_snoc_other (.inl here),sent_snoc_other (.inl here)]
      exact kept.start.file n (started n is_started here)
  · intro n missing
    have here : n ≠ record.node_id := fun here => missing (by rw [here]; exact starts_here)
    rw [other_file rfl (.inl here) files,sent_snoc_other (.inl here),sent_snoc_other (.inl here)]
    exact kept.start.missing n fun old => missing (old.mono _)
  · intro n is_started
    rw [(fields n).1,(fields n).2.1]
    by_cases here : n = record.node_id.toNat
    · have cast : (n : Int) = record.node_id := by omega
      obtain ⟨-,no_start,-⟩ := kept.start.missing _ fresh
      rw [if_pos here,if_pos here,cast,sent_snoc,no_start,nil_append,sliced,here]
      exact ⟨rfl,counts.2,record,mem_append_right _ (mem_singleton.mpr rfl),starts,rfl,rfl⟩
    · have differs : (n : Int) ≠ record.node_id := by omega
      rw [if_neg here,if_neg here,sent_snoc_other (.inl differs)]
      obtain ⟨len,within,under⟩ := kept.start.node n (started n is_started differs)
      exact ⟨len,lt_of_lt_of_le within counts.1,under.mono _⟩
  · intro n missing
    have differs : (n : Int) ≠ record.node_id := fun here => missing (by rw [here]; exact starts_here)
    rw [(fields n).1,if_neg (by omega)]
    exact kept.start.fresh n fun old => missing (old.mono _)
  · constructor
    · intro n ended
      rw [other_file rfl (.inr (by decide)) files,sent_snoc_other (.inr (by decide))]
      exact kept.finish.file n ((ended_start starts n).mp ended)
    · intro n open_still
      rw [other_file rfl (.inr (by decide)) files,sent_snoc_other (.inr (by decide))]
      exact kept.finish.missing n fun ended => open_still ((ended_start starts n).mpr ended)
  · exact kept.after.congr (fun n => other_type files) (fun n => (fields n).2.2.1)
      fun n => sent_snoc_kind
  · intro n
    exact (kept.inner n).congr (fun i => other_type files) (fields n).2.2.2 sent_snoc_kind
theorem Rooted.next (fits : Fits before record) (rooted : Rooted before) : Rooted (before ++ [record]) := by
  rintro parent node ⟨other,member,start,is_node,is_parent⟩
  obtain old | new := mem_append.mp member
  · obtain ⟨nonneg,root | ⟨parent_nonneg,less,started⟩⟩ := rooted parent node ⟨other,old,start,is_node,is_parent⟩
    · exact ⟨nonneg,.inl root⟩
    · exact ⟨nonneg,.inr ⟨parent_nonneg,less,started.mono _⟩⟩
  · rw [mem_singleton.mp new] at start is_node is_parent
    obtain ⟨-,nonneg,root | ⟨parent_nonneg,less,started⟩⟩ := fits.start start
    · omega
    · rw [← is_node,← is_parent]
      exact ⟨nonneg,.inr ⟨parent_nonneg,less,started.mono _⟩⟩
/-- Every record leaves the files of all nodes as its copies say. -/
theorem record_kept (fits : Fits before record) (rooted : Rooted before) (kept : Kept raw before copies s) {due : Option Nat}
    (done : s.splitRecord raw due record = some s') :
    Kept raw (before ++ [record]) (copies ++ ((s.append_pcap_until_ts due).map fun s => s.copiesOf raw record).getD []) s' := by
  obtain ⟨t,captured,rest⟩ := of_bind done
  have kept_t := packets_kept kept captured
  rw [captured,map_some,getD_some,copiesOf]
  split_ifs at rest ⊢ with regular ends
  · exact regular_kept fits regular kept_t rest
  · obtain ⟨u,ended,copied⟩ := of_bind rest
    exact end_kept fits rooted ends kept_t ended copied
  · obtain ⟨u,started,copied⟩ := of_bind rest
    obtain ⟨num,appended,-⟩ := append_cases copied
    exact start_kept fits ⟨regular,ends⟩ kept_t appended.inside started copied
theorem records_kept {records : List IndexRecord} {due : Nat → Option Nat} (nested : WellNested before records) (rooted : Rooted before)
    (kept : Kept raw before copies s) (done : splitRecords raw due s line records = some s') :
    Kept raw (before ++ records) (copies ++ splitCopies raw due s line records) s' ∧ Rooted (before ++ records) := by
  induction records generalizing s before copies line with
  | nil =>
    obtain rfl := some.inj done
    rw [append_nil]
    exact ⟨by rw [splitCopies,append_nil]; exact kept,rooted⟩
  | cons record records ih =>
    obtain ⟨fits,nested⟩ := nested
    obtain ⟨t,turn,rest⟩ := of_bind done
    obtain ⟨kept',rooted'⟩ := ih nested (rooted.next fits) (record_kept fits rooted kept turn) rest
    rw [append_assoc,singleton_append] at rooted'
    rw [append_assoc,singleton_append,append_assoc] at kept'
    rw [splitCopies,turn,map_some,getD_some]
    exact ⟨kept',rooted'⟩
theorem start_files : Kept raw [] [] (start fun _ => none) := by
  have none_started : ∀ n, ¬Started [] n := by
    rintro n ⟨_,member,-⟩
    cases member
  have none_ended : ∀ n, ¬Ended [] n := by
    rintro n ⟨_,member,-⟩
    cases member
  refine ⟨⟨fun n started => absurd started (none_started n),fun n _ => ⟨rfl,rfl,rfl⟩,fun n started => absurd started (none_started n),
    fun n _ => rfl⟩,⟨fun n ended => absurd ended (none_ended n),fun n _ => ⟨rfl,rfl⟩⟩,⟨?_,fun n _ => ⟨rfl,rfl⟩⟩,?_,?_⟩
  · intro n flag
    cases flag
  · intro n
    exact ⟨⟨[],rfl,rfl,fun i => rfl⟩,fun _ => ⟨rfl,rfl⟩,fun some_there => absurd some_there (lt_irrefl 0)⟩
  · intro id some_child
    exact absurd some_child (by show ¬(0 : Int) ≤ -1; decide)
/-- The files of all nodes behind a split of a whole log. -/
theorem split_kept {f_index : List IndexRecord} {due : Nat → Option Nat} (nested : WellNested [] f_index)
    (split : split_raw_log raw f_index due (fun _ => none) = some s) :
    Kept raw f_index (splitCopies raw due (start fun _ => none) 0 f_index) s ∧ Rooted f_index := by
  obtain ⟨t,looped,rest⟩ := of_bind split
  have rooted : Rooted [] := by
    rintro parent node ⟨_,member,-⟩
    cases member
  obtain ⟨kept,rooted'⟩ := records_kept nested rooted start_files looped
  rw [nil_append] at rooted' kept
  refine ⟨packets_kept ?_ rest,rooted'⟩
  rcases t.cur_block with _ | block
  · exact kept
  · exact kept.fields rfl le_rfl (fun _ => ⟨rfl,rfl,rfl,rfl,rfl,rfl⟩) kept.closed
end
end SplitState
end TestEnvironment.Rgt
