import TestEnvironment.Rgt.FlowTree

/-!
What starts and ends of nodes keep of the flow tree: its shape, the order of times in each branch, and
which nodes the two sets hold.
-/
namespace TestEnvironment.Rgt
open Lib
namespace FlowTree

/-- The start or the end of a node. -/
inductive FlowEvent
  | node_start (parent_id node_id : Nat) (type : NodeType) (name : Option String) (timestamp : Timestamp) (user_data : Option Nat)
  | node_end (parent_id node_id : Nat) (timestamp : Timestamp)
namespace FlowEvent
def time : FlowEvent → Timestamp
  | node_start _ _ _ _ timestamp _ => timestamp
  | node_end _ _ timestamp => timestamp
end FlowEvent

section
variable (check : String → NodeFltrMode)

def step (t : FlowTree) : FlowEvent → Option FlowTree
  | .node_start parent_id node_id type name timestamp user_data =>
    (t.flow_tree_add_node check parent_id node_id type name timestamp user_data).map Prod.snd
  | .node_end parent_id node_id timestamp => (t.flow_tree_close_node parent_id node_id timestamp).map Prod.snd
/-- The tree after events that are all accepted. -/
def runEvents : List FlowEvent → FlowTree → Option FlowTree
  | [],t => some t
  | e :: es,t => (t.step check e).bind (runEvents es)
end

section
variable (t : FlowTree)

def parentOf (n : Nat) : Option Nat := if n < t.count then (t.nodes n).parent else none
def kids (p : Nat) : List Nat := (t.nodes p).branches.flatMap BranchInfo.els
/-- The root, or the last node of a branch that is active. -/
def Open (n : Nat) : Prop :=
  n = 0 ∨ ∃ p, t.parentOf n = some p ∧ ∃ b ∈ (t.nodes p).branches, b.status = .ACTIVE ∧ b.els.getLast? = some n
/-- A node of the close set. -/
structure Closable (id n : Nat) : Prop where
  allocated : n < t.count
  own_id : (t.nodes n).id = id
  still_open : t.Open n
  no_active : (t.nodes n).n_active_branches = 0
/-- A node of the new set. -/
structure Extendable (id n : Nat) : Prop where
  allocated : n < t.count
  own_id : (t.nodes n).id = id
  still_open : t.Open n
  no_test : (t.nodes n).type ≠ .TEST
  room : (t.nodes n).more_branches = true ∨ (t.nodes n).n_active_branches = 0
/-- A tree whose last event was at `now`. -/
structure Grown (now : Timestamp) : Prop where
  fresh : ∀ n ≥ t.count, t.nodes n = rootNode
  root : 0 < t.count ∧ (t.nodes 0).parent = none ∧ (t.nodes 0).start_ts = zero_timestamp ∧ (t.nodes 0).fmode = .INCLUDE
  one_root : ∀ n < t.count, (t.nodes n).parent = none → n = 0
  smaller : ∀ k p, t.parentOf k = some p → p < k
  children : ∀ p, t.kids p = children t.parentOf t.count p
  heads : ∀ p, ∀ b ∈ (t.nodes p).branches, b.els.head? = some b.start_ts
  leaves : ∀ p, (t.nodes p).type = .TEST → (t.nodes p).branches = []
  past : ∀ n, (t.nodes n).start_ts ≤ now
  younger : ∀ a c, a < c → c < t.count → (t.nodes a).start_ts ≤ (t.nodes c).start_ts
  proper : ∀ n, (t.nodes n).end_ts = max_timestamp ∨ (t.nodes n).start_ts ≤ (t.nodes n).end_ts
  turns : ∀ p, ∀ b ∈ (t.nodes p).branches, b.els.Pairwise fun a c => (t.nodes a).end_ts ≤ (t.nodes c).start_ts
  ended : ∀ p, ∀ b ∈ (t.nodes p).branches, b.status = .IDLE → ∀ a ∈ b.els, (t.nodes a).end_ts ≤ now
  active : ∀ p, (t.nodes p).n_active_branches = (t.nodes p).branches.countP fun b => b.status = .ACTIVE
  upward : ∀ p, ∀ b ∈ (t.nodes p).branches, b.status = .ACTIVE → t.Open p
  closable : ∀ id n, t.close_set id = some n → t.Closable id n
  extendable : ∀ id n, t.new_set id = some n → t.Extendable id n
end

theorem init_grown : flow_tree_init.Grown zero_timestamp where
  fresh _ _ := rfl
  root := ⟨Nat.one_pos,rfl,rfl,rfl⟩
  one_root _ small _ := Nat.lt_one_iff.mp small
  smaller k p parent := by
    simp only [parentOf] at parent
    split_ifs at parent
    cases parent
  children p := by
    symm
    refine List.eq_nil_iff_forall_not_mem.mpr fun k member => ?_
    obtain ⟨-,parent⟩ := mem_children.mp member
    simp only [parentOf] at parent
    split_ifs at parent
    cases parent
  heads _ _ member := by cases member
  leaves _ _ := rfl
  past _ := le_rfl
  younger _ _ _ _ := le_rfl
  proper _ := .inl rfl
  turns _ _ member := by cases member
  ended _ _ member := by cases member
  active _ := rfl
  upward _ _ member := by cases member
  closable _ _ none_there := by cases none_there
  extendable id n there := by
    replace there : update (fun _ => none) FLOW_TREE_ROOT_ID (some 0) id = some n := there
    by_cases root : id = FLOW_TREE_ROOT_ID
    · rw [root,update_self] at there
      obtain rfl := some.inj there
      rw [root]
      exact ⟨Nat.one_pos,rfl,.inl rfl,(fun test => by cases test),.inl rfl⟩
    · rw [update_of_ne root] at there
      cases there

variable {q : Nat} {r : Option Nat × FlowTree}

section
variable {check : String → NodeFltrMode} {t t' : FlowTree} {now ts : Timestamp} {p : Nat}

/-- The new last branch of a parent, and what it was before. -/
theorem enter_branches {cur : Nat} {par par' : FlowNode} (entered : enterBranch cur par = some par') :
    ∃ before front start_ts, par' = { par with n_active_branches := par.n_active_branches+1, branches := before ++ [⟨front ++ [cur],.ACTIVE,start_ts⟩] } ∧
      ((par.more_branches = true ∧ par.branches = before ∧ front = [] ∧ start_ts = cur) ∨
        (par.more_branches = false ∧ before = [] ∧ ∃ status, par.branches = [⟨front,status,start_ts⟩])) := by
  rw [enterBranch] at entered
  split_ifs at entered with more
  · grind
  · split at entered
    · rename_i b one
      obtain rfl := some.inj entered
      exact ⟨[],b.els,b.start_ts,rfl,.inr ⟨by simpa using more,rfl,b.status,one⟩⟩
    · cases entered

/-- All that the start of a node does to the tree: `p` is its parent, in whose last branch it follows the nodes `front`. -/
structure Started (t t' : FlowTree) (p node_id : Nat) (ts : Timestamp) (before : List BranchInfo) (front : List Nat) (start_ts : Nat) : Prop where
  set : ∃ id, t.new_set id = some p
  count : t'.count = t.count+1
  cur : ∃ cur, t'.nodes t.count = cur ∧ cur.parent = some p ∧ cur.id = node_id ∧ cur.start_ts = ts ∧ cur.end_ts = max_timestamp ∧
    cur.n_active_branches = 0 ∧ cur.more_branches = true ∧ cur.branches = []
  par : t'.nodes p = { t.nodes p with
    n_active_branches := (t.nodes p).n_active_branches+1, branches := before ++ [⟨front ++ [t.count],.ACTIVE,start_ts⟩] }
  others : ∀ n, n ≠ p → n ≠ t.count → t'.nodes n = t.nodes n
  branch : ((t.nodes p).more_branches = true ∧ (t.nodes p).branches = before ∧ front = [] ∧ start_ts = t.count) ∨
    ((t.nodes p).more_branches = false ∧ before = [] ∧ ∃ status, (t.nodes p).branches = [⟨front,status,start_ts⟩])
  close_set : t'.close_set = update (update t.close_set (t.nodes p).id none) node_id (some t.count)
  new_set : ∀ id n, t'.new_set id = some n → (n = t.count ∧ id = node_id ∧ (t'.nodes t.count).type ≠ .TEST) ∨
    (t.new_set id = some n ∧ ((t.nodes p).more_branches = true ∨ id ≠ (t.nodes p).id))

theorem add_started (grown : t.Grown now) {parent_id node_id : Nat} {type : NodeType} {name : Option String} {user_data : Option Nat}
    (added : t.flow_tree_add_node check parent_id node_id type name ts user_data = some r) :
    ∃ p before front start_ts, t.Started r.2 p node_id ts before front start_ts := by
  obtain ⟨p,found,added⟩ := of_bind added
  obtain ⟨⟨full,fmode⟩,-,added⟩ := of_bind added
  obtain ⟨par',entered,done⟩ := of_bind added
  obtain rfl := some.inj done
  obtain ⟨before,front,start_ts,rfl,branch⟩ := enter_branches entered
  have apart : t.count ≠ p := ne_of_gt (grown.extendable _ _ found).allocated
  have cur : ∀ cur par', update (update t.nodes t.count cur) p par' t.count = cur := fun cur par' => by
    rw [update_of_ne apart,update_self]
  refine ⟨p,before,front,start_ts,⟨_,found⟩,rfl,⟨_,cur _ _,rfl,rfl,rfl,rfl,rfl,rfl,rfl⟩,update_self _ _ _,fun n notP notCur => ?_,branch,rfl,?_⟩
  · grind
  · intro id n there
    dsimp only at there
    have inner : ∀ {id n}, (if type = .TEST then t.new_set else update t.new_set node_id (some t.count)) id = some n →
        (n = t.count ∧ id = node_id ∧ type ≠ .TEST) ∨ t.new_set id = some n := by grind
    generalize (if type = .TEST then t.new_set else update t.new_set node_id (some t.count)) = new_set at there inner
    split_ifs at there with more
    · grind
    · grind

theorem parentOf_some {k : Nat} (parent : t.parentOf k = some q) : k < t.count ∧ (t.nodes k).parent = some q := by
  rw [parentOf] at parent
  split_ifs at parent with within
  exact ⟨within,parent⟩
theorem el_kid {a : Nat} {b : BranchInfo} (branch : b ∈ (t.nodes q).branches) (member : a ∈ b.els) : a ∈ t.kids q :=
  mem_flatMap.mpr ⟨b,branch,member⟩
theorem mem_kids (grown : t.Grown now) {a : Nat} : a ∈ t.kids q ↔ a < t.count ∧ t.parentOf a = some q := by rw [grown.children,mem_children]
theorem kids_fresh (grown : t.Grown now) (large : t.count ≤ q) : t.kids q = [] := by rw [kids,grown.fresh q large]; rfl
theorem last_kid {a : Nat} {b : BranchInfo} (branch : b ∈ (t.nodes q).branches) (last : b.els.getLast? = some a) : a ∈ t.kids q :=
  el_kid branch (mem_of_getLast? last)

section
variable {node_id : Nat} {before : List BranchInfo} {front : List Nat} {start_ts : Nat} (started : t.Started t' p node_id ts before front start_ts)
include started

theorem Started.same {n : Nat} (old : n ≠ t.count) : (t'.nodes n).parent = (t.nodes n).parent ∧ (t'.nodes n).id = (t.nodes n).id ∧
    (t'.nodes n).type = (t.nodes n).type ∧ (t'.nodes n).fmode = (t.nodes n).fmode ∧ (t'.nodes n).start_ts = (t.nodes n).start_ts ∧
    (t'.nodes n).end_ts = (t.nodes n).end_ts ∧ (t'.nodes n).more_branches = (t.nodes n).more_branches := by
  by_cases par : n = p
  · rw [par,started.par]
    exact ⟨rfl,rfl,rfl,rfl,rfl,rfl,rfl⟩
  · rw [started.others n par old]
    exact ⟨rfl,rfl,rfl,rfl,rfl,rfl,rfl⟩
theorem Started.parentOf_eq : t'.parentOf = update t.parentOf t.count (some p) := by
  obtain ⟨cur,is_cur,parent,-⟩ := started.cur
  funext n
  by_cases new : n = t.count
  · simp [new,started.count,is_cur,parent,parentOf]
  · rw [update_of_ne new,parentOf,parentOf,started.count,(started.same new).1]
    exact if_congr (by omega) rfl rfl
theorem Started.branch_cases {b : BranchInfo} (branch : b ∈ (t'.nodes q).branches) :
    (q ≠ t.count ∧ b ∈ (t.nodes q).branches) ∨ (q = p ∧ b = ⟨front ++ [t.count],.ACTIVE,start_ts⟩) := by
  obtain ⟨cur,is_cur,-,-,-,-,-,-,no_branches⟩ := started.cur
  by_cases new : q = t.count
  · rw [new,is_cur,no_branches] at branch
    cases branch
  · by_cases par : q = p
    · rw [par,started.par] at branch
      obtain old | here := mem_append.mp branch
      · obtain ⟨-,same,-⟩ | ⟨-,rfl,-⟩ := started.branch
        · exact .inl ⟨new,by rw [par,same]; exact old⟩
        · cases old
      · exact .inr ⟨par,mem_singleton.mp here⟩
    · rw [started.others q par new] at branch
      exact .inl ⟨new,branch⟩
/-- The new node is open. -/
theorem Started.cur_open : t'.Open t.count := by
  refine .inr ⟨p,by rw [started.parentOf_eq,update_self],⟨front ++ [t.count],.ACTIVE,start_ts⟩,?_,rfl,getLast?_concat⟩
  rw [started.par]
  exact mem_append_right _ (mem_singleton_self _)
theorem Started.children_eq (q : Nat) : Lib.children t'.parentOf t'.count q = Lib.children t.parentOf t.count q ++ if q = p then [t.count] else [] := by
  rw [Lib.children,started.count,List.range_succ,filter_append,started.parentOf_eq]
  congr 1
  · refine List.filter_congr fun k small => ?_
    rw [update_of_ne (mem_range.mp small).ne]
  · grind

variable (grown : t.Grown now)
include grown

theorem Started.extendable : ∃ id, t.Extendable id p := by
  obtain ⟨id,found⟩ := started.set
  exact ⟨id,grown.extendable id p found⟩
theorem Started.parent_small : p < t.count := (started.extendable grown).elim fun _ ext => ext.allocated
theorem Started.kids_eq (q : Nat) : t'.kids q = t.kids q ++ if q = p then [t.count] else [] := by
  obtain ⟨cur,is_cur,-,-,-,-,-,-,no_branches⟩ := started.cur
  by_cases par : q = p
  · rw [if_pos par,par,kids,kids,started.par]
    dsimp only
    rw [flatMap_append,flatMap_singleton,← append_assoc]
    obtain ⟨-,same,rfl,-⟩ | ⟨-,rfl,status,same⟩ := started.branch
    · rw [same,append_nil]
    · simp [same]
  · rw [if_neg par,append_nil]
    by_cases new : q = t.count
    · rw [new,kids_fresh grown le_rfl,kids,is_cur,no_branches]
      rfl
    · rw [kids,kids,started.others q par new]
/-- A branch that goes on was idle. -/
theorem Started.front_idle {status : BranchStatus} (no_more : (t.nodes p).more_branches = false)
    (same : (t.nodes p).branches = [⟨front,status,start_ts⟩]) : status = .IDLE := by
  obtain ⟨id,ext⟩ := started.extendable grown
  have none_active : (t.nodes p).n_active_branches = 0 := ext.room.resolve_left (by rw [no_more]; decide)
  have counted := grown.active p
  rw [none_active,same] at counted
  cases status with
  | ACTIVE => cases counted
  | IDLE => rfl
/-- The nodes in front of the new one are closed. -/
theorem Started.front_closed : (∀ a ∈ front, a < t.count ∧ (t.nodes a).end_ts ≤ now) ∧
    (front.Pairwise fun a c => (t.nodes a).end_ts ≤ (t.nodes c).start_ts) ∧ (front ++ [t.count]).head? = some start_ts := by
  obtain ⟨-,-,rfl,rfl⟩ | ⟨no_more,-,status,same⟩ := started.branch
  · exact ⟨fun a member => (by cases member),.nil,rfl⟩
  · have here : ⟨front,status,start_ts⟩ ∈ (t.nodes p).branches := by rw [same]; exact mem_singleton_self _
    have idle := started.front_idle grown no_more same
    refine ⟨fun a member => ⟨((mem_kids grown).mp (el_kid here member)).1,grown.ended p _ here idle a member⟩,grown.turns p _ here,?_⟩
    rw [List.head?_append,grown.heads p _ here]
    rfl
theorem Started.open_kept {n : Nat} (is_open : t.Open n) : t'.Open n := by
  obtain root | ⟨q,parent,b,branch,status,last⟩ := is_open
  · exact .inl root
  · have small : n < t.count := ((mem_kids grown).mp (last_kid branch last)).1
    refine .inr ⟨q,by rw [started.parentOf_eq,update_of_ne small.ne]; exact parent,b,?_,status,last⟩
    by_cases par : q = p
    · rw [par] at branch ⊢
      rw [started.par]
      obtain ⟨-,same,-⟩ | ⟨no_more,-,status',same⟩ := started.branch
      · exact mem_append_left _ (by rw [← same]; exact branch)
      · rw [same,mem_singleton] at branch
        rw [branch,started.front_idle grown no_more same] at status
        cases status
    · have old : q ≠ t.count := by
        rintro rfl
        rw [grown.fresh _ le_rfl] at branch
        cases branch
      rw [started.others q par old]
      exact branch
/-- The start of a node keeps the tree. -/
theorem Started.kept (order : now ≤ ts) : t'.Grown ts := by
  obtain ⟨cur,is_cur,cur_parent,cur_id,cur_start,cur_end,cur_active,cur_more,no_branches⟩ := started.cur
  have small := started.parent_small grown
  obtain ⟨ext_id,ext⟩ := started.extendable grown
  obtain ⟨front_closed,front_turns,front_head⟩ := started.front_closed grown
  have old_child : ∀ {k q}, t'.parentOf k = some q → (k = t.count ∧ q = p) ∨ (k ≠ t.count ∧ t.parentOf k = some q) := by
    intro k q parent
    rw [started.parentOf_eq] at parent
    by_cases new : k = t.count
    · grind
    · rw [update_of_ne new] at parent
      exact .inr ⟨new,parent⟩
  have old_el : ∀ {q b a}, b ∈ (t.nodes q).branches → a ∈ b.els → a ≠ t.count := fun branch member =>
    ((mem_kids grown).mp (el_kid branch member)).1.ne
  have end_same : ∀ {n}, n ≠ t.count → (t'.nodes n).end_ts = (t.nodes n).end_ts := fun old => (started.same old).2.2.2.2.2.1
  have start_same : ∀ {n}, n ≠ t.count → (t'.nodes n).start_ts = (t.nodes n).start_ts := fun old => (started.same old).2.2.2.2.1
  have active_same : ∀ {n}, n ≠ p → n ≠ t.count → (t'.nodes n).n_active_branches = (t.nodes n).n_active_branches := fun par old => by
    rw [started.others _ par old]
  constructor
  case fresh =>
    intro n large
    rw [started.count] at large
    rw [started.others n (by omega) (by omega)]
    exact grown.fresh n (by omega)
  case root =>
    have old : (0 : Nat) ≠ t.count := ne_of_lt grown.root.1
    obtain ⟨parent,-,-,fmode,start,-⟩ := started.same old
    exact ⟨by rw [started.count]; omega,parent.trans grown.root.2.1,start.trans grown.root.2.2.1,fmode.trans grown.root.2.2.2⟩
  case one_root =>
    intro n within top
    by_cases new : n = t.count
    · rw [new,is_cur,cur_parent] at top
      cases top
    · rw [(started.same new).1] at top
      rw [started.count] at within
      exact grown.one_root n (by omega) top
  case smaller =>
    intro k q parent
    obtain ⟨rfl,rfl⟩ | ⟨-,parent⟩ := old_child parent
    · exact small
    · exact grown.smaller k q parent
  case children =>
    intro q
    rw [started.kids_eq grown,started.children_eq,grown.children]
  case heads =>
    intro q b branch
    obtain ⟨-,branch⟩ | ⟨-,rfl⟩ := started.branch_cases branch
    · exact grown.heads q b branch
    · exact front_head
  case leaves =>
    intro q test
    by_cases new : q = t.count
    · rw [new,is_cur,no_branches]
    · rw [(started.same new).2.2.1] at test
      have par : q ≠ p := by
        rintro rfl
        exact ext.no_test test
      rw [started.others q par new]
      exact grown.leaves q test
  case past =>
    intro n
    by_cases new : n = t.count
    · rw [new,is_cur,cur_start]
    · rw [start_same new]
      exact (grown.past n).trans order
  case younger =>
    intro a d less within
    rw [started.count] at within
    rw [start_same (by omega)]
    by_cases new : d = t.count
    · rw [new,is_cur,cur_start]
      exact (grown.past a).trans order
    · rw [start_same new]
      exact grown.younger a d less (by omega)
  case proper =>
    intro n
    by_cases new : n = t.count
    · rw [new,is_cur,cur_end]
      exact .inl rfl
    · rw [start_same new,end_same new]
      exact grown.proper n
  case turns =>
    intro q b branch
    obtain ⟨-,branch⟩ | ⟨-,rfl⟩ := started.branch_cases branch
    · refine (grown.turns q b branch).imp_of_mem fun first second turn => ?_
      rw [end_same (old_el branch first),start_same (old_el branch second)]
      exact turn
    · refine pairwise_append.mpr ⟨?_,pairwise_singleton _ _,fun a first c second => ?_⟩
      · refine front_turns.imp_of_mem fun first second turn => ?_
        rw [end_same (front_closed _ first).1.ne,start_same (front_closed _ second).1.ne]
        exact turn
      · grind
  case ended =>
    intro q b branch idle a member
    obtain ⟨-,branch⟩ | ⟨-,rfl⟩ := started.branch_cases branch
    · rw [end_same (old_el branch member)]
      exact (grown.ended q b branch idle a member).trans order
    · cases idle
  case active =>
    intro q
    by_cases new : q = t.count
    · rw [new,is_cur,cur_active,no_branches]
      rfl
    · by_cases par : q = p
      · rw [par,started.par]
        dsimp only
        rw [List.countP_append,List.countP_singleton,if_pos (by rfl)]
        have counted := grown.active p
        obtain ⟨-,same,-⟩ | ⟨no_more,rfl,status,same⟩ := started.branch
        · rw [counted,same]
          rfl
        · rw [counted,same,started.front_idle grown no_more same]
          rfl
      · rw [started.others q par new]
        exact grown.active q
  case upward =>
    intro q b branch status
    obtain ⟨-,branch⟩ | ⟨rfl,-⟩ := started.branch_cases branch
    · exact started.open_kept grown (grown.upward q b branch status)
    · exact started.open_kept grown ext.still_open
  case closable =>
    intro id n found
    rw [started.close_set] at found
    by_cases own : id = node_id
    · rw [own,update_self] at found
      obtain rfl := some.inj found
      refine ⟨by rw [started.count]; exact lt_succ_self _,by rw [is_cur,cur_id,own],started.cur_open,by rw [is_cur,cur_active]⟩
    · rw [update_of_ne own] at found
      by_cases par_id : id = (t.nodes p).id
      · rw [par_id,update_self] at found
        cases found
      · rw [update_of_ne par_id] at found
        have closable := grown.closable id n found
        have par : n ≠ p := by
          rintro rfl
          exact par_id closable.own_id.symm
        have old := closable.allocated.ne
        exact ⟨by rw [started.count]; exact Nat.lt_succ_of_lt closable.allocated,(started.same old).2.1.trans closable.own_id,
          started.open_kept grown closable.still_open,(active_same par old).trans closable.no_active⟩
  case extendable =>
    intro id n found
    obtain ⟨rfl,rfl,no_test⟩ | ⟨found,still⟩ := started.new_set id n found
    · exact ⟨by rw [started.count]; exact lt_succ_self _,by rw [is_cur,cur_id],started.cur_open,no_test,.inl (by rw [is_cur,cur_more])⟩
    · have extendable := grown.extendable id n found
      have old := extendable.allocated.ne
      refine ⟨by rw [started.count]; exact Nat.lt_succ_of_lt extendable.allocated,(started.same old).2.1.trans extendable.own_id,
        started.open_kept grown extendable.still_open,?_,?_⟩
      · rw [(started.same old).2.2.1]
        exact extendable.no_test
      · rw [(started.same old).2.2.2.2.2.2]
        by_cases par : n = p
        · obtain rfl := par
          exact .inl (still.resolve_right fun other => other extendable.own_id.symm)
        · rw [active_same par old]
          exact extendable.room
end
end

section
variable {t t' : FlowTree} {now ts : Timestamp} {c p node_id : Nat} {before after : List BranchInfo} {b : BranchInfo}

theorem closeBranch_split {bs bs' : List BranchInfo} (closed : closeBranch c bs = some bs') :
    ∃ before b after, bs = before ++ b :: after ∧ b.els.getLast? = some c ∧ bs' = before ++ { b with status := .IDLE } :: after := by
  induction bs generalizing bs' with
  | nil => cases closed
  | cons b bs ih =>
    rw [closeBranch] at closed
    split_ifs at closed with last
    · obtain rfl := some.inj closed
      exact ⟨[],b,bs,rfl,last,rfl⟩
    · obtain ⟨rest,later,rfl⟩ := of_map closed
      obtain ⟨before,b',after,rfl,last',rfl⟩ := ih later
      exact ⟨b :: before,b',after,rfl,last',rfl⟩
/-- All that the end of a node does to the tree: `c` is the last node of the branch `b` of `p`. -/
structure Ended (t t' : FlowTree) (c p node_id : Nat) (ts : Timestamp) (before after : List BranchInfo) (b : BranchInfo) : Prop where
  found : t.close_set node_id = some c
  parent : (t.nodes c).parent = some p
  count : t'.count = t.count
  cur : t'.nodes c = { t.nodes c with end_ts := ts }
  split : (t.nodes p).branches = before ++ b :: after
  last : b.els.getLast? = some c
  par : t'.nodes p = { t.nodes p with
    more_branches := false, n_active_branches := (t.nodes p).n_active_branches-1, branches := before ++ { b with status := .IDLE } :: after }
  others : ∀ n, n ≠ c → n ≠ p → t'.nodes n = t.nodes n
  close_set : ∀ id n, t'.close_set id = some n → (n = p ∧ id = (t.nodes p).id ∧ (t.nodes p).n_active_branches-1 = 0) ∨
    (id ≠ node_id ∧ t.close_set id = some n)
  new_set : ∀ id n, t'.new_set id = some n → (n = p ∧ id = (t.nodes p).id ∧ (t.nodes p).n_active_branches-1 = 0) ∨
    (id ≠ node_id ∧ id ≠ (t.nodes p).id ∧ t.new_set id = some n)

theorem mem_around {α : Type*} {x y : α} {before after : List α} : x ∈ before ++ y :: after ↔ x = y ∨ x ∈ before ++ after := by
  simp only [mem_append,mem_cons,or_left_comm]
variable {f : Nat → Option Nat}

theorem update_none {i id n : Nat} (there : update f i none id = some n) : id ≠ i ∧ f id = some n := by grind
theorem update_some {i m id n : Nat} (there : update f i (some m) id = some n) : (n = m ∧ id = i) ∨ f id = some n := by grind
theorem parent_less (grown : t.Grown now) (small : c < t.count) (parent : (t.nodes c).parent = some p) : p < c :=
  grown.smaller c p (by rw [parentOf,if_pos small,parent])

theorem close_ended (grown : t.Grown now) {parent_id : Nat}
    (closed : t.flow_tree_close_node parent_id node_id ts = some r) : ∃ c p before after b, t.Ended r.2 c p node_id ts before after b := by
  obtain ⟨c,found,closed⟩ := of_bind closed
  obtain ⟨p,parent,closed⟩ := of_bind closed
  obtain ⟨-,-,closed⟩ := of_bind closed
  obtain ⟨-,-,closed⟩ := of_bind closed
  obtain ⟨branches,closing,done⟩ := of_bind closed
  obtain rfl := some.inj done
  have cur : (t.setNode c fun cur => { cur with end_ts := ts }).nodes c = { t.nodes c with end_ts := ts } := update_self _ _ _
  rw [cur] at parent
  have apart : p ≠ c := (parent_less grown (grown.closable _ _ found).allocated parent).ne
  have par : (t.setNode c fun cur => { cur with end_ts := ts }).nodes p = t.nodes p := update_of_ne apart _ _
  rw [par] at closing
  obtain ⟨before,b,after,split,last,rfl⟩ := closeBranch_split closing
  refine ⟨c,p,before,after,b,found,parent,rfl,?_,split,last,?_,fun n notC notP => ?_,fun id n there => ?_,fun id n there => ?_⟩
  · exact (update_of_ne apart.symm _ _).trans cur
  · refine (update_self _ _ _).trans ?_
    rw [par]
  · exact (update_of_ne notP _ _).trans (update_of_ne notC _ _)
  · dsimp only at there
    rw [par] at there
    split_ifs at there with zero
    · obtain ⟨rfl,rfl⟩ | there := update_some there
      · exact .inl ⟨rfl,rfl,zero⟩
      · exact .inr (update_none there)
    · exact .inr (update_none there)
  · dsimp only at there
    rw [par] at there
    have inner : ∀ {id n}, update (update t.new_set node_id none) (t.nodes p).id none id = some n →
        id ≠ node_id ∧ id ≠ (t.nodes p).id ∧ t.new_set id = some n := by grind
    split_ifs at there with zero
    · obtain ⟨rfl,rfl⟩ | there := update_some there
      · exact .inl ⟨rfl,rfl,zero.1⟩
      · exact .inr (inner there)
    · exact .inr (inner there)

section
variable (ended : t.Ended t' c p node_id ts before after b) (grown : t.Grown now)
include ended grown

theorem Ended.apart : c < t.count ∧ p < c := by
  have small := (grown.closable _ _ ended.found).allocated
  exact ⟨small,parent_less grown small ended.parent⟩
/-- The last node of a branch is in no other branch, and only at its end. -/
theorem Ended.only : ∃ init, b.els = init ++ [c] ∧ c ∉ init ∧ (∀ other ∈ before ++ after, c ∉ other.els) := by
  obtain ⟨init,split⟩ := List.getLast?_eq_some_iff.mp ended.last
  have distinct : (t.kids p).Nodup := by
    rw [grown.children]
    exact (children_sorted p).imp ne_of_lt
  rw [kids,ended.split,flatMap_append,flatMap_cons,nodup_append] at distinct
  obtain ⟨-,inner,apart⟩ := distinct
  rw [nodup_append] at inner
  obtain ⟨own,-,apart'⟩ := inner
  have here : c ∈ b.els := by rw [split]; exact mem_append_right _ (mem_singleton_self _)
  refine ⟨init,split,fun member => ?_,fun other there member => ?_⟩
  · grind
  · obtain front | back := mem_append.mp there
    · exact apart c (mem_flatMap.mpr ⟨other,front,member⟩) c (mem_append_left _ here) rfl
    · exact apart' c here c (mem_flatMap.mpr ⟨other,back,member⟩) rfl
theorem Ended.active : b.status = .ACTIVE := by
  obtain ⟨init,split,-,only⟩ := ended.only grown
  have below := (ended.apart grown).2
  obtain rfl | ⟨q,parent,b',branch,status,last⟩ := (grown.closable _ _ ended.found).still_open
  · omega
  · obtain rfl : q = p := some.inj ((parentOf_some parent).2.symm.trans ended.parent)
    rw [ended.split] at branch
    obtain rfl | other := mem_around.mp branch
    · exact status
    · exact absurd (mem_of_getLast? last) (only b' other)
omit grown in
theorem Ended.same (n : Nat) : (t'.nodes n).parent = (t.nodes n).parent ∧ (t'.nodes n).id = (t.nodes n).id ∧
    (t'.nodes n).type = (t.nodes n).type ∧ (t'.nodes n).fmode = (t.nodes n).fmode ∧ (t'.nodes n).start_ts = (t.nodes n).start_ts ∧
    (n ≠ c → (t'.nodes n).end_ts = (t.nodes n).end_ts) := by
  by_cases cur : n = c
  · rw [cur,ended.cur]
    exact ⟨rfl,rfl,rfl,rfl,rfl,fun other => absurd rfl other⟩
  · by_cases par : n = p
    · rw [par,ended.par]
      exact ⟨rfl,rfl,rfl,rfl,rfl,fun _ => rfl⟩
    · rw [ended.others n cur par]
      exact ⟨rfl,rfl,rfl,rfl,rfl,fun _ => rfl⟩
omit grown in
theorem Ended.parentOf_eq : t'.parentOf = t.parentOf := by
  funext n
  rw [parentOf,parentOf,ended.count,(ended.same _).1]
omit grown in
theorem Ended.branches_eq (other : q ≠ p) : (t'.nodes q).branches = (t.nodes q).branches := by
  by_cases cur : q = c
  · rw [cur,ended.cur]
  · rw [ended.others q cur other]
omit grown in
theorem Ended.kids_eq (q : Nat) : t'.kids q = t.kids q := by
  by_cases par : q = p
  · simp [par,ended.split,ended.par,kids]
  · rw [kids,kids,ended.branches_eq par]
/-- Every branch keeps its nodes; the branch of the closed node is idle now. -/
theorem Ended.branch_cases {b' : BranchInfo} (branch : b' ∈ (t'.nodes q).branches) :
    (b' ∈ (t.nodes q).branches ∧ c ∉ b'.els) ∨ (q = p ∧ b' = { b with status := .IDLE }) := by
  obtain ⟨init,split,-,only⟩ := ended.only grown
  by_cases par : q = p
  · rw [par,ended.par] at branch
    obtain here | other := mem_around.mp branch
    · exact .inr ⟨par,here⟩
    · refine .inl ⟨?_,only b' other⟩
      rw [par,ended.split]
      exact mem_around.mpr (.inr other)
  · rw [ended.branches_eq par] at branch
    refine .inl ⟨branch,fun member => par ?_⟩
    have parent := ((mem_kids grown).mp (el_kid branch member)).2
    exact some.inj ((parentOf_some parent).2.symm.trans ended.parent)
omit grown in
theorem Ended.own_branch : b ∈ (t.nodes p).branches := by simp [ended.split]
theorem Ended.par_active : 1 ≤ (t.nodes p).n_active_branches := by
  have counted : 0 < (t.nodes p).branches.countP fun b => b.status = .ACTIVE :=
    List.countP_pos_iff.mpr ⟨b,ended.own_branch,decide_eq_true (ended.active grown)⟩
  have active := grown.active p
  omega
omit grown in
theorem Ended.open_kept {n : Nat} (is_open : t.Open n) (other : n ≠ c) : t'.Open n := by
  obtain root | ⟨q,parent,b',branch,status,last⟩ := is_open
  · exact .inl root
  · refine .inr ⟨q,by rw [ended.parentOf_eq]; exact parent,b',?_,status,last⟩
    by_cases par : q = p
    · rw [par,ended.split] at branch
      have apart : b' ≠ b := by
        rintro rfl
        exact other (some.inj (last.symm.trans ended.last))
      rw [par,ended.par]
      exact mem_around.mpr (.inr ((mem_around.mp branch).resolve_left apart))
    · rw [ended.branches_eq par]
      exact branch
/-- The end of a node keeps the tree. -/
theorem Ended.kept (order : now ≤ ts) : t'.Grown ts := by
  obtain ⟨init,split,absent,only⟩ := ended.only grown
  obtain ⟨small,below⟩ := ended.apart grown
  have closable := grown.closable _ _ ended.found
  have par_active := ended.par_active grown
  have end_same : ∀ {n}, n ≠ c → (t'.nodes n).end_ts = (t.nodes n).end_ts := fun other => (ended.same _).2.2.2.2.2 other
  have start_same : ∀ {n}, (t'.nodes n).start_ts = (t.nodes n).start_ts := (ended.same _).2.2.2.2.1
  have par_open : t'.Open p := ended.open_kept (grown.upward p b (ended.own_branch) (ended.active grown)) below.ne
  have turns := grown.turns p b (ended.own_branch)
  rw [split,pairwise_append] at turns
  constructor
  case fresh =>
    intro n large
    rw [ended.count] at large
    rw [ended.others n (by omega) (by omega)]
    exact grown.fresh n large
  case root => simp [ended.same,ended.count,grown.root]
  case one_root =>
    intro n within top
    rw [(ended.same _).1] at top
    rw [ended.count] at within
    exact grown.one_root n within top
  case smaller => rw [ended.parentOf_eq]; exact grown.smaller
  case children =>
    intro q
    rw [ended.kids_eq,ended.parentOf_eq,ended.count]
    exact grown.children q
  case heads =>
    intro q b' branch
    obtain ⟨branch,-⟩ | ⟨rfl,rfl⟩ := ended.branch_cases grown branch
    · exact grown.heads q b' branch
    · exact grown.heads q b (ended.own_branch)
  case leaves =>
    intro q test
    rw [(ended.same _).2.2.1] at test
    have none_there := grown.leaves q test
    by_cases par : q = p
    · rw [par,ended.split] at none_there
      exact absurd none_there (by simp)
    · rw [ended.branches_eq par]
      exact none_there
  case past =>
    intro n
    rw [start_same]
    exact (grown.past n).trans order
  case younger =>
    intro a d less within
    rw [ended.count] at within
    rw [start_same,start_same]
    exact grown.younger a d less within
  case proper =>
    intro n
    rw [start_same]
    by_cases cur : n = c
    · rw [cur,ended.cur]
      exact .inr ((grown.past c).trans order)
    · rw [end_same cur]
      exact grown.proper n
  case turns =>
    intro q b' branch
    obtain ⟨branch,away⟩ | ⟨-,rfl⟩ := ended.branch_cases grown branch
    · refine (grown.turns q b' branch).imp_of_mem fun first _ turn => ?_
      rw [end_same (fun same => away (same ▸ first)),start_same]
      exact turn
    · dsimp only
      rw [split]
      refine pairwise_append.mpr ⟨turns.1.imp_of_mem fun first _ turn => ?_,pairwise_singleton _ _,fun a first d second => ?_⟩
      · grind
      · grind
  case ended =>
    intro q b' branch idle a member
    obtain ⟨branch,away⟩ | ⟨-,rfl⟩ := ended.branch_cases grown branch
    · rw [end_same (fun same => away (same ▸ member))]
      exact (grown.ended q b' branch idle a member).trans order
    · dsimp only at member
      rw [split,mem_append,mem_singleton] at member
      obtain first | rfl := member
      · rw [end_same (fun same => absent (same ▸ first))]
        exact ((turns.2.2 a first c (mem_singleton_self _)).trans (grown.past c)).trans order
      · rw [ended.cur]
  case active =>
    intro q
    by_cases par : q = p
    · rw [par,ended.par]
      have counted := grown.active p
      rw [ended.split,List.countP_append,List.countP_cons,if_pos (by simpa using ended.active grown)] at counted
      dsimp only
      rw [List.countP_append,List.countP_cons,if_neg (by simp)]
      omega
    · rw [ended.branches_eq par,← grown.active q]
      by_cases cur : q = c
      · rw [cur,ended.cur]
      · rw [ended.others q cur par]
  case upward =>
    intro q b' branch status
    obtain ⟨branch,-⟩ | ⟨-,rfl⟩ := ended.branch_cases grown branch
    · refine ended.open_kept (grown.upward q b' branch status) ?_
      rintro rfl
      have counted : 0 < (t.nodes q).branches.countP fun b => b.status = .ACTIVE := List.countP_pos_iff.mpr ⟨b',branch,decide_eq_true status⟩
      have active := grown.active q
      have none_active := closable.no_active
      omega
    · cases status
  case closable =>
    intro id n there
    obtain ⟨rfl,rfl,zero⟩ | ⟨other,there⟩ := ended.close_set id n there
    · exact ⟨by rw [ended.count]; omega,(ended.same _).2.1,par_open,by rw [ended.par]; exact zero⟩
    · have closable' := grown.closable id n there
      have cur : n ≠ c := by
        rintro rfl
        exact other (closable'.own_id.symm.trans closable.own_id)
      have par : n ≠ p := by
        rintro rfl
        have none_active := closable'.no_active
        omega
      exact ⟨by rw [ended.count]; exact closable'.allocated,(ended.same _).2.1.trans closable'.own_id,
        ended.open_kept closable'.still_open cur,by rw [ended.others n cur par]; exact closable'.no_active⟩
  case extendable =>
    intro id n there
    obtain ⟨rfl,rfl,zero⟩ | ⟨other,other',there⟩ := ended.new_set id n there
    · refine ⟨by rw [ended.count]; omega,(ended.same _).2.1,par_open,fun test => ?_,.inr (by rw [ended.par]; exact zero)⟩
      rw [(ended.same _).2.2.1] at test
      have none_there := grown.leaves n test
      rw [ended.split] at none_there
      exact absurd none_there (by simp)
    · have extendable := grown.extendable id n there
      have cur : n ≠ c := by
        rintro rfl
        exact other (extendable.own_id.symm.trans closable.own_id)
      have par : n ≠ p := by
        rintro rfl
        exact other' extendable.own_id.symm
      refine ⟨by rw [ended.count]; exact extendable.allocated,(ended.same _).2.1.trans extendable.own_id,
        ended.open_kept extendable.still_open cur,?_,?_⟩
      · rw [(ended.same _).2.2.1]
        exact extendable.no_test
      · rw [ended.others n cur par]
        exact extendable.room
end
end

theorem step_kept {check : String → NodeFltrMode} {t t' : FlowTree} {now : Timestamp} {e : FlowEvent} (grown : t.Grown now)
    (order : now ≤ e.time) (stepped : t.step check e = some t') : t'.Grown e.time := by
  cases e with
  | node_start parent_id node_id type name timestamp user_data =>
    obtain ⟨r,added,rfl⟩ := of_map stepped
    obtain ⟨p,before,front,start_ts,started⟩ := add_started grown added
    exact started.kept grown order
  | node_end parent_id node_id timestamp =>
    obtain ⟨r,closed,rfl⟩ := of_map stepped
    obtain ⟨c,p,before,after,b,ended⟩ := close_ended grown closed
    exact ended.kept grown order
theorem runEvents_kept {check : String → NodeFltrMode} {t t' : FlowTree} {now : Timestamp} {events : List FlowEvent} (grown : t.Grown now)
    (order : (now :: events.map FlowEvent.time).Pairwise (· ≤ ·)) (ran : runEvents check events t = some t') : ∃ last, t'.Grown last := by
  induction events generalizing t now with
  | nil =>
    obtain rfl := some.inj ran
    exact ⟨now,grown⟩
  | cons e es ih =>
    obtain ⟨u,stepped,ran⟩ := of_bind ran
    obtain ⟨first,rest⟩ := pairwise_cons.mp order
    exact ih (step_kept grown (first _ mem_cons_self) stepped) rest ran
end FlowTree
end TestEnvironment.Rgt
