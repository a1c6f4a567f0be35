import TestEnvironment.Lib.Decimal

/-!
Raw log fragments: `rgt-log-split` sends every message of the index to the fragment files of log
nodes and lists in `recover_list` where the log can be read back from (`rgt_log_split.c`),
`rgt-log-recover` replays that list (`rgt_log_recover.c`).
-/
namespace TestEnvironment.Rgt
open Lib

inductive FragmentType
  | FRAG_START | FRAG_INNER | FRAG_END | FRAG_AFTER
  deriving DecidableEq
def MAX_FRAG_SIZE : Nat := 1000000
def MAX_VERDICTS_NUM : Nat := 100
def TE_LOG_ID_UNDEFINED : Int := 0

/-- Where a pointer to the next element of a list stands: in the head or in a node. -/
inductive LinkPlace
  | head
  | node (id : Nat)
/-- `LIST_ENTRY`. -/
structure Links where
  le_next : Option Nat
  le_prev : LinkPlace
/-- `links` are not set before the node is first inserted. -/
structure NodeInfo where
  parent : Int
  opened : Bool
  opened_children : Int
  last_closed_child : Int
  inner_frags_cnt : Nat
  after_frag : Bool
  cur_file_num : Nat
  cur_file_size : Nat
  tin : Nat
  start_len : Nat
  verdicts_num : Nat
  sniff_logs : Bool
  links : Option Links
/-- What `get_node_info` puts into new elements of the array; the root is open by default. -/
def NodeInfo.fresh (id : Nat) : NodeInfo :=
  { parent := -1, opened := id = 0, opened_children := 0, last_closed_child := -1, inner_frags_cnt := 0, after_frag := false,
    cur_file_num := 0, cur_file_size := 0, tin := 0, start_len := 0, verdicts_num := 0, sniff_logs := false, links := none }

abbrev Bytes := List UInt8
/-- The files of a directory. -/
abbrev Files := CStr → Option Bytes
/-- A block of consecutive messages written to one fragment file. -/
structure Block where
  cur_block_offset : Nat
  cur_block_length : Nat
  cur_block_frag_name : CStr
  cur_block_frag_offset : Nat
  deriving DecidableEq
/-- The array of nodes, the head of the list of leaf nodes, and the static variables behind
`recover_list`; no current block stands for a negative `cur_block_offset`. -/
structure SplitState where
  nodes : Nat → NodeInfo
  nodes_count : Nat
  leaf_nodes : Option Nat
  files : Files
  f_recover : List CStr
  cur_block : Option Block
  last_msg_offset : Option Nat
/-- A record of the index; the length of the last message may be missing. -/
structure IndexRecord where
  offset : Nat
  parent_id : Int
  node_id : Int
  msg_type : CStr
  tin_or_start_frag : Nat
  length : Option Nat

namespace SplitState
variable (s : SplitState)

def setNode (id : Nat) (f : NodeInfo → NodeInfo) : SplitState := { s with nodes := update s.nodes id (f (s.nodes id)) }
/-- The array grows until it has the element. -/
def growCount (id : Nat) : Nat → Nat → Nat
  | 0,count => count
  | fuel+1,count => if count ≤ id then growCount id fuel ((count+1)*2) else count
def get_node_info (node_id : Int) : Option (Nat × SplitState) :=
  if node_id < 0 then none
  else some (node_id.toNat,{ s with nodes_count := growCount node_id.toNat (node_id.toNat+1) s.nodes_count })

def setLinks (id : Nat) (f : Links → Links) : SplitState := s.setNode id fun node => { node with links := node.links.map f }
def LIST_INSERT_HEAD (id : Nat) : SplitState :=
  let s' := match s.leaf_nodes with
    | some first => s.setLinks first fun links => { links with le_prev := .node id }
    | none => s
  { s'.setNode id fun node => { node with links := some ⟨s.leaf_nodes,.head⟩ } with leaf_nodes := some id }
/-- The element must have been inserted before. -/
def LIST_REMOVE (id : Nat) : Option SplitState :=
  (s.nodes id).links.map fun links =>
    let s' := match links.le_next with
      | some next => s.setLinks next fun after => { after with le_prev := links.le_prev }
      | none => s
    match links.le_prev with
    | .head => { s' with leaf_nodes := links.le_next }
    | .node before => s'.setLinks before fun link => { link with le_next := links.le_next }
def openChild (id : Nat) : Option SplitState :=
  (if (s.nodes id).opened_children = 0 then s.LIST_REMOVE id else some s).map fun s =>
    s.setNode id fun node => { node with opened_children := node.opened_children+1 }
def closeChild (id : Nat) (child_id : Int) : SplitState :=
  let s := s.setNode id fun node =>
    { node with
      opened_children := node.opened_children-1
      last_closed_child := child_id }
  if (s.nodes id).opened_children = 0 then s.LIST_INSERT_HEAD id else s
def countChild (id : Nat) (child_id : Int) (child_opened : Bool) : Option SplitState :=
  if child_opened then s.openChild id else some (s.closeChild id child_id)
def update_children_state (parent_id child_id : Int) (child_opened : Bool) : Option SplitState :=
  if parent_id < 0 then some s
  else if parent_id = child_id then some s
  else do
    let (id,s) ← s.get_node_info parent_id
    let s ← s.countChild id child_id child_opened
    if (s.nodes id).opened_children < 0 then none else some s

/-- The name of a fragment file; inner fragments are numbered. -/
def fragName (node_id : Int) (frag_type : FragmentType) (num : Nat) : CStr :=
  intText node_id ++ "_frag_".toList ++ match frag_type with
    | .FRAG_START => "start".toList
    | .FRAG_INNER => "inner_".toList ++ natText num
    | .FRAG_END => "end".toList
    | .FRAG_AFTER => "after".toList
/-- The node's counters of an append, with the name of the file it goes to. -/
def fragFile (node_id : Int) (frag_type : FragmentType) (length : Nat) : Option (CStr × SplitState) :=
  match frag_type with
  | .FRAG_INNER => do
    let (id,s) ← s.get_node_info node_id
    let s := s.setNode id fun node => if node.inner_frags_cnt = 0 then { node with inner_frags_cnt := 1 } else node
    let s := s.setNode id fun node =>
      if MAX_FRAG_SIZE < node.cur_file_size then
        { node with
          inner_frags_cnt := node.inner_frags_cnt+1
          cur_file_num := node.cur_file_num+1
          cur_file_size := length }
      else { node with cur_file_size := node.cur_file_size+length }
    return (fragName node_id .FRAG_INNER (s.nodes id).cur_file_num,s)
  | .FRAG_AFTER => do
    let (id,s) ← s.get_node_info node_id
    return (fragName node_id .FRAG_AFTER 0,s.setNode id fun node => { node with after_frag := true })
  | other => some (fragName node_id other 0,s)
/-- `"%llu %llu %s %llu\n"`. -/
def recoverLine (block : Block) : CStr :=
  natText block.cur_block_offset ++ ' ' :: natText block.cur_block_length ++ ' ' :: block.cur_block_frag_name ++
    ' ' :: natText block.cur_block_frag_offset ++ ['\n']
/-- What the current block becomes with a message for the end `frag_end` of a file. -/
def noteBlock (frag_name : CStr) (frag_end offset length : Nat) : SplitState :=
  let fresh : Block := ⟨offset,length,frag_name,frag_end⟩
  match s.cur_block with
  | none => { s with cur_block := some fresh }
  | some block =>
    if s.last_msg_offset ≠ some offset then
      if block.cur_block_offset+block.cur_block_length = offset ∧ frag_name = block.cur_block_frag_name then
        { s with cur_block := some { block with cur_block_length := block.cur_block_length+length } }
      else { s with f_recover := s.f_recover ++ [recoverLine block], cur_block := some fresh }
    else s
/-- The bytes that `file2file` copies; a file that is too short fails. -/
def readAt (file : Bytes) (offset length : Nat) : Option Bytes :=
  if length = 0 ∨ offset+length ≤ file.length then some ((file.drop offset).take length) else none
/-- A file opened for appending is created if it is missing, and positioned at its end. -/
def append_to_frag (node_id : Int) (frag_type : FragmentType) (f_raw_log : Bytes) (offset length : Nat) : Option SplitState := do
  let (frag_name,s) ← s.fragFile node_id frag_type length
  let file := (s.files frag_name).getD []
  let s := { s.noteBlock frag_name file.length offset length with last_msg_offset := some offset }
  let data ← readAt f_raw_log offset length
  return { s with files := update s.files frag_name (some (file ++ data)) }

/-- `append_pcap_to_node`, but for the file of sniffed packets. -/
def append_pcap_to_node (id : Nat) : SplitState :=
  let s := s.setNode id fun node => { node with sniff_logs := true }
  if (s.nodes id).inner_frags_cnt = 0 then
    let name := fragName id .FRAG_INNER 0
    { s.setNode id fun node => { node with inner_frags_cnt := 1 } with
      files := update s.files name (some ((s.files name).getD [])) }
  else s
/-- The nodes that `LIST_FOREACH` passes; a list that runs in a circle has no end. -/
def leafNodes : Nat → Option Nat → Option (List Nat)
  | _,none => some []
  | 0,some _ => none
  | fuel+1,some id => do
    let links ← (s.nodes id).links
    let behind ← leafNodes fuel links.le_next
    return id :: behind
def leaves : Option (List Nat) := s.leafNodes (s.nodes_count+1) s.leaf_nodes
/-- `append_pcap_until_ts` with the number of packets that are due; none stands for an error. -/
def append_pcap_until_ts (due : Option Nat) : Option SplitState := do
  let packets ← due
  if packets = 0 then some s
  else s.leaves.map fun leaves => (List.range packets).foldl (fun s _ => leaves.foldl append_pcap_to_node s) s

/-- The copy of a message without node for a leaf node. -/
def appendToLeaf (f_raw_log : Bytes) (offset length : Nat) (s : SplitState) (id : Nat) : Option SplitState :=
  if 0 ≤ (s.nodes id).last_closed_child then s.append_to_frag (s.nodes id).last_closed_child .FRAG_AFTER f_raw_log offset length
  else s.append_to_frag id .FRAG_INNER f_raw_log offset length
def appendToLeaves (f_raw_log : Bytes) (offset length : Nat) : Option SplitState := do
  let leaves ← s.leaves
  if leaves = [] then none else leaves.foldlM (appendToLeaf f_raw_log offset length) s
/-- The copy of a verdict for the start fragment of its node. -/
def appendVerdict (f_raw_log : Bytes) (record : IndexRecord) (length : Nat) : Option SplitState := do
  let (id,s) ← s.get_node_info record.parent_id
  if MAX_VERDICTS_NUM ≤ (s.nodes id).verdicts_num then some s
  else (s.append_to_frag record.parent_id .FRAG_START f_raw_log record.offset length).map fun s =>
    s.setNode id fun node => { node with verdicts_num := node.verdicts_num+1 }
def splitRegular (f_raw_log : Bytes) (record : IndexRecord) (length : Nat) : Option SplitState :=
  (if record.parent_id ≠ TE_LOG_ID_UNDEFINED then s.append_to_frag record.parent_id .FRAG_INNER f_raw_log record.offset length
    else s.appendToLeaves f_raw_log record.offset length).bind fun s =>
  if record.tin_or_start_frag = 0 then some s else s.appendVerdict f_raw_log record length
def splitEnd (record : IndexRecord) : Option SplitState := do
  let (id,s) ← s.get_node_info record.node_id
  let s := s.setNode id fun node => { node with opened := false }
  let s ← s.update_children_state record.parent_id record.node_id false
  s.LIST_REMOVE id
def splitStart (record : IndexRecord) (length : Nat) : Option SplitState := do
  let (id,s) ← s.get_node_info record.node_id
  let s := s.setNode id fun node => { node with opened := true }
  let s ← s.update_children_state record.parent_id record.node_id true
  let s := s.setNode id fun node =>
    { node with
      tin := record.tin_or_start_frag
      start_len := length
      parent := record.parent_id }
  return s.LIST_INSERT_HEAD id
/-- A turn of the loop over the index. -/
def splitRecord (f_raw_log : Bytes) (due : Option Nat) (record : IndexRecord) : Option SplitState := do
  let length := record.length.getD (f_raw_log.length-record.offset)
  let s ← s.append_pcap_until_ts due
  if record.msg_type = "REGULAR".toList then s.splitRegular f_raw_log record length
  else if record.msg_type = "END".toList then
    let s ← s.splitEnd record
    s.append_to_frag record.node_id .FRAG_END f_raw_log record.offset length
  else
    let s ← s.splitStart record length
    s.append_to_frag record.node_id .FRAG_START f_raw_log record.offset length
/-- The loop over the index: at every line packets of the capture files may be due. -/
def splitRecords (f_raw_log : Bytes) (due : Nat → Option Nat) : SplitState → Nat → List IndexRecord → Option SplitState
  | s,_,[] => some s
  | s,line,record :: records => do
    let s ← s.splitRecord f_raw_log (due line) record
    splitRecords f_raw_log due s (line+1) records
def start (files : Files) : SplitState :=
  { nodes := .fresh, nodes_count := growCount 0 1 0, leaf_nodes := none, files, f_recover := [], cur_block := none, last_msg_offset := none }
def split_raw_log (f_raw_log : Bytes) (f_index : List IndexRecord) (due : Nat → Option Nat) (files : Files) : Option SplitState := do
  let s ← splitRecords f_raw_log due (start files) 0 f_index
  let s := match s.cur_block with
    | some block => { s with f_recover := s.f_recover ++ [recoverLine block] }
    | none => s
  s.append_pcap_until_ts (due f_index.length)
end SplitState

/-- `%lu`: blanks and a number. -/
def scanNumber (s : CStr) : Option (Nat × CStr) :=
  let s := s.dropWhile isspace
  let digits := s.takeWhile isdigit
  if digits = [] then none else some (digitsNumber digits,s.dropWhile isdigit)
/-- `%s`: blanks and a word. -/
def scanWord (s : CStr) : Option (CStr × CStr) :=
  let s := s.dropWhile isspace
  let word := s.takeWhile fun c => !isspace c
  if word = [] then none else some (word,s.dropWhile fun c => !isspace c)
/-- `sscanf` of a line: the variables that it sets, and whether it sets any. -/
def scanLine (old : Block) (s : CStr) : Option Block :=
  (scanNumber s).map fun (raw_offset,s) =>
    let old := { old with cur_block_offset := raw_offset }
    match scanNumber s with
    | none => old
    | some (raw_length,s) =>
      let old := { old with cur_block_length := raw_length }
      match scanWord s with
      | none => old
      | some (frag_name,s) =>
        let old := { old with cur_block_frag_name := frag_name }
        match scanNumber s with
        | none => old
        | some (frag_offset,_) => { old with cur_block_frag_offset := frag_offset }
/-- Writing behind the end of a file leaves zeros between. -/
def writeAt (file : Bytes) (offset : Nat) (data : Bytes) : Bytes :=
  (file ++ replicate (offset-file.length) 0).take offset ++ data ++ file.drop (offset+data.length)
/-- The loop of `rgt-log-recover` over the lines of `recover_list`. -/
def recoverLoop (files : Files) : Block → Bytes → List CStr → Option Bytes
  | _,f_result,[] => some f_result
  | old,f_result,line :: lines =>
    match scanLine old line with
    | none => some f_result
    | some block => do
      let f_frag ← files block.cur_block_frag_name
      let data ← SplitState.readAt f_frag block.cur_block_frag_offset block.cur_block_length
      recoverLoop files block (writeAt f_result block.cur_block_offset data) lines
def recover (files : Files) (f_recover : List CStr) : Option Bytes := recoverLoop files ⟨0,0,[],0⟩ [] f_recover
end TestEnvironment.Rgt
