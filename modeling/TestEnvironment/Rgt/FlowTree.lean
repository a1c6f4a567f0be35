import TestEnvironment.Lib.Visits
import TestEnvironment.Rgt.MsgQueue

/-!
The tree of sessions, packages and tests of the report generator (`flow_tree.c`): nodes start and end in
branches of their parents, regular messages are attached to queues of the nodes, and the tree is traced.
-/
namespace TestEnvironment.Rgt
open Lib

inductive NodeType | SESSION | PACKAGE | TEST | BRANCH
  deriving DecidableEq
inductive NodeFltrMode | INCLUDE | EXCLUDE | DEFAULT
  deriving DecidableEq
inductive BranchStatus | ACTIVE | IDLE
  deriving DecidableEq
/-- `els` are the nodes from `first_el` to `last_el`, linked by `next` and `prev`; `start_ts` is the
node whose start timestamp the pointer of the branch points to. -/
structure BranchInfo where
  els : List Nat
  status : BranchStatus
  start_ts : Nat
  deriving DecidableEq
structure FlowNode where
  parent : Option Nat
  id : Nat
  name : String
  type : NodeType
  fmode : NodeFltrMode
  start_ts : Timestamp
  end_ts : Timestamp
  n_active_branches : Int
  more_branches : Bool
  branches : List BranchInfo
  user_data : Option Nat
/-- The queues of a node: messages of the node and messages that follow it. -/
inductive NodeQueue
  | msg_att (n : Nat)
  | msg_after_att (n : Nat)
  deriving DecidableEq
/-- Nodes are numbered in the order of their allocation; the sets map identifiers to nodes. -/
structure FlowTree where
  nodes : Nat → FlowNode
  count : Nat
  close_set : Nat → Option Nat
  new_set : Nat → Option Nat

def FLOW_TREE_ROOT_ID : Nat := 0
def zero_timestamp : Timestamp := .of 0 0
def max_timestamp : Timestamp := .of (2^32-1) (2^32-1)
def DEF_FILTER_MODE : NodeFltrMode := .INCLUDE

namespace FlowTree
def rootNode : FlowNode :=
  { parent := none, id := FLOW_TREE_ROOT_ID, name := "", type := .SESSION, fmode := DEF_FILTER_MODE, start_ts := zero_timestamp,
    end_ts := max_timestamp, n_active_branches := 0, more_branches := true, branches := [], user_data := none }
def flow_tree_init : FlowTree :=
  ⟨fun _ => rootNode,1,fun _ => none,update (fun _ => none) FLOW_TREE_ROOT_ID (some 0)⟩

section
variable (rgt_filter_check_branch : String → NodeFltrMode) (t : FlowTree)

def setNode (n : Nat) (f : FlowNode → FlowNode) : FlowTree := { t with nodes := update t.nodes n (f (t.nodes n)) }
/-- Only sessions may be without a name of their own. -/
def nodeName (par : FlowNode) (type : NodeType) : Option String → Option (String × NodeFltrMode)
  | none => if type = .SESSION then some (par.name,par.fmode) else none
  | some node_name =>
    let name := par.name ++ "/" ++ node_name
    let fmode := rgt_filter_check_branch name
    some (name,if fmode = .DEFAULT then par.fmode else fmode)
/-- The start of a new branch, or the next node of the only branch. -/
def enterBranch (cur : Nat) (par : FlowNode) : Option FlowNode :=
  if par.more_branches then
    some { par with n_active_branches := par.n_active_branches+1, branches := par.branches ++ [⟨[cur],.ACTIVE,cur⟩] }
  else match par.branches with
    | [b] => some { par with n_active_branches := par.n_active_branches+1, branches := [{ b with els := b.els ++ [cur], status := .ACTIVE }] }
    | _ => none
/-- The user data, NULL for a node rejected by filters, and the tree; `none` if the node is not accepted. -/
def flow_tree_add_node (parent_id node_id : Nat) (new_node_type : NodeType) (node_name : Option String) (timestamp : Timestamp)
    (user_data : Option Nat) : Option (Option Nat × FlowTree) := do
  let p ← t.new_set parent_id
  let par := t.nodes p
  let (name,fmode) ← nodeName rgt_filter_check_branch par new_node_type node_name
  let user_data := if fmode = .INCLUDE then user_data else none
  let cur : FlowNode :=
    { parent := some p, id := node_id, name, type := new_node_type, fmode, start_ts := timestamp, end_ts := max_timestamp,
      n_active_branches := 0, more_branches := true, branches := [], user_data }
  let par' ← enterBranch t.count par
  let new_set := if new_node_type = .TEST then t.new_set else update t.new_set node_id (some t.count)
  return (user_data,
    { nodes := update (update t.nodes t.count cur) p par'
      count := t.count+1
      close_set := update (update t.close_set par.id none) node_id (some t.count)
      -- a session without more branches leaves the set until the node is closed
      new_set := if par.more_branches then new_set else update new_set par.id none })
/-- Idle status for the branch whose last element is closed. -/
def closeBranch (cur : Nat) : List BranchInfo → Option (List BranchInfo)
  | [] => none
  | b :: bs => if b.els.getLast? = some cur then some ({ b with status := .IDLE } :: bs) else (closeBranch cur bs).map (b :: ·)
def flow_tree_close_node (parent_id node_id : Nat) (timestamp : Timestamp) : Option (Option Nat × FlowTree) := do
  let c ← t.close_set node_id
  let t := t.setNode c fun cur => { cur with end_ts := timestamp }
  let p ← (t.nodes c).parent
  let par := t.nodes p
  guard (par.type ≠ .TEST)
  guard (par.id = parent_id)
  let branches ← closeBranch c par.branches
  let n_active_branches := par.n_active_branches-1
  let close_set := update t.close_set node_id none
  let new_set := update (update t.new_set node_id none) par.id none
  return ((t.nodes c).user_data,
    { t.setNode p fun par => { par with more_branches := false, n_active_branches, branches } with
      close_set := if n_active_branches = 0 then update close_set par.id (some p) else close_set
      new_set := if n_active_branches = 0 ∧ par.branches.length = 1 then update new_set par.id (some p) else new_set })

/-- The elements of a branch from the last one back to the first until one takes the message; the
assertion is that there is one. -/
def backwards (attach : Nat → Option (Int × List NodeQueue)) : List Nat → Option (List NodeQueue)
  | [] => none
  | cur :: prevs => do
    let (rc,queues) ← attach cur
    if rc ≠ 0 then (backwards attach prevs).map (queues ++ ·) else return queues
/-- The queues to which a message of the timestamp is attached, in this order. -/
def flow_tree_attach_from_node (ts : Timestamp) : Nat → Nat → Option (Int × List NodeQueue)
  | 0,_ => none
  | fuel+1,n =>
    if ts < (t.nodes n).start_ts then some (-1,[])
    else if (t.nodes n).end_ts < ts then some (0,[.msg_after_att n])
    else if (t.nodes n).type = .TEST then some (0,[.msg_att n])
    else
      let started := (t.nodes n).branches.filter fun b => (t.nodes b.start_ts).start_ts ≤ ts
      (started.mapM fun b => backwards (flow_tree_attach_from_node ts fuel) b.els.reverse).map fun queues =>
        (0,if started.isEmpty then [.msg_att n] else queues.flatten)
/-- The node from which a regular message is attached: an identifier that no open node has is ignored. -/
def attachStart : Option Nat → Nat
  | none => 0
  | some id => (t.close_set id).getD 0
/-- Calls of the callbacks for control messages, and of the callback for regular messages with every
message of a queue. -/
inductive TraceCall
  | ctrl_start (n : Nat)
  | branch_start (n : Nat)
  | branch_end (n : Nat)
  | ctrl_end (n : Nat)
  | msg_queue_foreach (q : NodeQueue)
  deriving DecidableEq
def reported (n : Nat) : Prop := (t.nodes n).fmode = .INCLUDE ∧ (t.nodes n).user_data.isSome
instance (n : Nat) : Decidable (t.reported n) := inferInstanceAs (Decidable (_ ∧ _))
def parentIncluded (n : Nat) : Bool := (t.nodes n).parent.any fun p => (t.nodes p).fmode = .INCLUDE
/-- A node with everything below it; the fuel bounds the depth of the tree. -/
def flow_tree_wander : Nat → Nat → List TraceCall
  | 0,_ => []
  | fuel+1,n =>
    (if t.reported n then [.ctrl_start n,.msg_queue_foreach (.msg_att n)] else []) ++
    (if (t.nodes n).type = .TEST then [] else (t.nodes n).branches.flatMap fun b =>
      (if t.reported n then [.branch_start n] else []) ++ b.els.flatMap (flow_tree_wander fuel) ++
      (if t.reported n then [.branch_end n] else [])) ++
    (if t.reported n then [.ctrl_end n] else []) ++
    (if t.parentIncluded n then [.msg_queue_foreach (.msg_after_att n)] else [])
/-- Of the root only the first branch is traced. -/
def flow_tree_trace (fuel : Nat) : List TraceCall :=
  (if (t.nodes 0).fmode = .INCLUDE then [.msg_queue_foreach (.msg_att 0)] else []) ++
  ((t.nodes 0).branches.take 1).flatMap (fun b => b.els.flatMap (t.flow_tree_wander fuel)) ++
  (if (t.nodes 0).fmode = .INCLUDE then [.msg_queue_foreach (.msg_after_att 0)] else [])
end

end FlowTree
end TestEnvironment.Rgt
