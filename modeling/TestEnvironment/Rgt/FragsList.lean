import TestEnvironment.Rgt.LogSplit

/-!
The list of starting and terminating fragments and the log made of them (`print_frags_list`), and
the log of a node that `rgt-log-merge` makes of both (`rgt_log_merge.c`, `rgt_log_bundle_common.c`).
-/
namespace TestEnvironment.Rgt
open Lib

/-- The files `log_gist.raw` and `frags_list`, and the next sequential number of each depth. -/
structure PrintState where
  f_raw_gist : Bytes
  f_frags_list : List CStr
  depth_seq : Nat → Nat
/-- Fields of a line behind its name, with blanks between and a line end. -/
def lineText (name : CStr) (fields : List Int) : CStr := name ++ fields.flatMap (fun z => ' ' :: intText z) ++ ['\n']

section
variable (s : SplitState)

def startLine (node_id depth seq : Nat) (frag_len : Nat) : CStr :=
  let node := s.nodes node_id
  lineText (SplitState.fragName node_id .FRAG_START 0)
    [node.tin,depth,seq,frag_len,node.start_len,node.inner_frags_cnt,node.parent,if node.sniff_logs then 1 else 0]
def endLine (node_id depth seq : Nat) (frag_len : Nat) : CStr :=
  let node := s.nodes node_id
  lineText (SplitState.fragName node_id .FRAG_END 0) [node.tin,depth,seq,frag_len,if node.after_frag then 1 else 0,node.parent]
def PrintState.add (p : PrintState) (data : Bytes) (line : CStr) : PrintState :=
  { p with f_raw_gist := p.f_raw_gist ++ data, f_frags_list := p.f_frags_list ++ [line] }
/-- One turn of the loop over possible children. -/
def printChild (print : Nat → Nat → Nat → PrintState → Option PrintState) (node_id depth : Nat) (p : PrintState) (i : Nat) :
    Option PrintState :=
  if (s.nodes i).parent = node_id then do
    let p ← print i (depth+1) (p.depth_seq depth) p
    return { p with depth_seq := update p.depth_seq depth (p.depth_seq depth+1) }
  else some p
/-- The end fragment may be missing. -/
def printEnd (node_id depth seq : Nat) (p : PrintState) : PrintState :=
  match s.files (SplitState.fragName node_id .FRAG_END 0) with
  | none => p
  | some f_frag => p.add f_frag (endLine s node_id depth seq f_frag.length)
/-- A child has a greater number than its parent, so that the calls end. -/
def print_frags_list : Nat → Nat → Nat → Nat → PrintState → Option PrintState
  | 0,_,_,_,_ => none
  | fuel+1,node_id,depth,seq,p => do
    let f_frag ← s.files (SplitState.fragName node_id .FRAG_START 0)
    let p := p.add f_frag (startLine s node_id depth seq f_frag.length)
    let p ← (List.range' (node_id+1) (s.nodes_count-(node_id+1))).foldlM (printChild s (print_frags_list fuel) node_id depth) p
    return printEnd s node_id depth seq p
/-- The call of `main`, for the root. -/
def printRoot : Option PrintState := print_frags_list s (s.nodes_count+1) 0 1 0 ⟨[],[],fun _ => 0⟩
end

/-- Fragment record in raw gist log; `frag_name` is without the suffix for the type. -/
structure FragRec where
  frag_name : CStr
  start_frag : Bool
  parent_id : Nat
  test_id : Nat
  tin : Nat
  depth : Nat
  seq : Nat
  length : Nat
  start_len : Nat
  frags_cnt : Nat
  sniff_logs : Bool
  deriving DecidableEq
/-- A number with a sign. -/
def scanInt (s : CStr) : Option (Int × CStr) :=
  match s.dropWhile isspace with
  | '-' :: s => (scanNumber s).map fun (n,s) => (-n,s)
  | s => (scanNumber s).map fun (n,s) => (n,s)
/-- The numbers that `sscanf` reads, at most `count`. -/
def scanFields : Nat → CStr → List Int
  | 0,_ => []
  | count+1,s =>
    match scanInt s with
    | none => []
    | some (z,s) => z :: scanFields count s
/-- What is stored of a number in an `unsigned`. -/
def toUnsigned (z : Int) : Nat := (z%2^32).toNat
/-- Lengths and counts, which have 64 bits in both programs. -/
def toUint64 (z : Int) : Nat := z.toNat
/-- The fields that the suffix of the name tells to be there. -/
def suffixFields (frag : FragRec) (name : CStr) (fields : List Int) : Option FragRec :=
  let field := fun i => fields.getD i 0
  match strstr "_end".toList name with
  | some (front,_) =>
    let frag := { frag with frag_name := front }
    some (if 6 ≤ fields.length then
      { frag with
        frags_cnt := toUint64 (field 4)
        parent_id := toUnsigned (field 5) }
    else frag)
  | none =>
    match strstr "_start".toList name with
    | some (front,_) =>
      if fields.length < 6 then none
      else some
        { frag with
          frag_name := front
          start_frag := true
          start_len := toUint64 (field 4)
          frags_cnt := toUint64 (field 5)
          parent_id := toUnsigned (field 6)
          sniff_logs := 8 ≤ fields.length && field 7 ≠ 0 }
    | none => none
def rgt_parse_frag_rec (s : CStr) : Option FragRec := do
  let (name,behind) ← scanWord s
  let fields := scanFields 8 behind
  if fields.length < 4 then none
  else do
    let (test_id,_) ← scanInt name
    let field := fun i => fields.getD i 0
    suffixFields
      { frag_name := name
        start_frag := false
        parent_id := 0
        test_id := toUnsigned test_id
        tin := toUnsigned (field 0)
        depth := toUnsigned (field 1)
        seq := toUnsigned (field 2)
        length := toUint64 (field 3)
        start_len := 0
        frags_cnt := 0
        sniff_logs := false } name fields

/-- Which node is requested. -/
inductive MergeFilter
  | tin (filter_tin : Nat)
  | test_id (filter_test_id : Nat)
  | depth_seq (filter_depth filter_seq : Nat)
def MergeFilter.selects (filter : MergeFilter) (frag : FragRec) : Bool :=
  match filter with
  | tin filter_tin => filter_tin = frag.tin
  | test_id filter_test_id => filter_test_id = frag.test_id
  | depth_seq filter_depth filter_seq => filter_depth = frag.depth && filter_seq = frag.seq
/-- `gist_pos` is the position in the gist log; no target stands for a negative `target_node_id`. -/
structure MergeState where
  cum_length : Nat
  target_node_id : Option Nat
  gist_pos : Nat
  f_result : Bytes

section
variable (files : Files) (f_raw_gist : Bytes) (filter : MergeFilter)

/-- `file2file` from the current position of the gist log on. -/
def copyGist (m : MergeState) : Option MergeState :=
  (SplitState.readAt f_raw_gist m.gist_pos m.cum_length).map fun data =>
    { m with
      cum_length := 0
      gist_pos := m.gist_pos+m.cum_length
      f_result := m.f_result ++ data }
def append_frag_to_file (m : MergeState) (frag : CStr) : Option MergeState :=
  (files frag).map fun data => { m with f_result := m.f_result ++ data }
/-- The branch for the end of a child with messages behind it. -/
def mergeAfter (frag : FragRec) (m : MergeState) : Option MergeState := do
  let m ← copyGist f_raw_gist m
  append_frag_to_file files m (frag.frag_name ++ "_after".toList)
/-- The branch for the start of the target node, with all its inner fragments. -/
def mergeTarget (frag : FragRec) (m : MergeState) : Option MergeState := do
  let m ← copyGist f_raw_gist { m with target_node_id := some frag.test_id, cum_length := m.cum_length-(frag.length-frag.start_len) }
  (List.range frag.frags_cnt).foldlM (fun m i => append_frag_to_file files m (frag.frag_name ++ "_inner_".toList ++ natText i))
    { m with gist_pos := m.gist_pos+(frag.length-frag.start_len) }
/-- A turn of the loop over the list. -/
def mergeLine (m : MergeState) (s : CStr) : Option MergeState := do
  let frag ← rgt_parse_frag_rec s
  let m := { m with cum_length := m.cum_length+frag.length }
  if frag.start_frag = false ∧ m.target_node_id = some frag.parent_id ∧ frag.frags_cnt ≠ 0 then mergeAfter files f_raw_gist frag m
  else if frag.start_frag ∧ filter.selects frag then mergeTarget files f_raw_gist frag m
  else some m
/-- `merge` without capture files and with all inner fragments requested. -/
def merge (f_frags_list : List CStr) : Option Bytes := do
  let m ← f_frags_list.foldlM (mergeLine files f_raw_gist filter) ⟨0,none,0,[]⟩
  let m ← copyGist f_raw_gist m
  return m.f_result
end
end TestEnvironment.Rgt
