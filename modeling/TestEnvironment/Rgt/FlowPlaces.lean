import TestEnvironment.Rgt.FlowNodes

/-!
Where messages are attached: one queue for every way through the branches that have started, and each
queue is passed once when the tree is traced.
-/
namespace TestEnvironment.Rgt
open Lib
namespace FlowTree

section
variable (t : FlowTree) (ts : Timestamp)

def BranchStarted (b : BranchInfo) : Prop := (t.nodes b.start_ts).start_ts ≤ ts
def Contains (n : Nat) : Prop := (t.nodes n).start_ts ≤ ts ∧ ts ≤ (t.nodes n).end_ts
/-- The last node of a branch that has started. -/
def Latest (b : BranchInfo) (c : Nat) : Prop :=
  ∃ front back, b.els = front ++ c :: back ∧ (t.nodes c).start_ts ≤ ts ∧ ∀ d ∈ back, ts < (t.nodes d).start_ts
/-- A way down through nodes whose intervals contain the timestamp, with the numbers of the branches
taken, each time to the latest node of a branch that has started. -/
inductive Way : Nat → List Nat → Nat → Prop
  | here (n : Nat) : Way n [] n
  | down {n i c m : Nat} {path : List Nat} {b : BranchInfo} : t.Contains ts n → (t.nodes n).type ≠ .TEST →
    (t.nodes n).branches[i]? = some b → t.BranchStarted ts b → t.Latest ts b c → Way c path m → Way n (i :: path) m
/-- The queue in which a message stays at the end of its way: behind a node that has ended, or in a
node of which no branch has started. -/
inductive Stays : Nat → NodeQueue → Prop
  | behind {n : Nat} : (t.nodes n).end_ts < ts → Stays n (.msg_after_att n)
  | inside {n : Nat} : ts ≤ (t.nodes n).end_ts → ((t.nodes n).type = .TEST ∨ ∀ b ∈ (t.nodes n).branches, ¬ t.BranchStarted ts b) →
    Stays n (.msg_att n)
/-- The end of the way is the innermost node: its interval contains the timestamp and nothing below
it has started, or it is the last of its branch to end before and no node of the branch contains it. -/
def Innermost : NodeQueue → Prop
  | .msg_att n => t.Contains ts n ∧ ∀ k, UnderNode t.parentOf k n → k ≠ n → ts < (t.nodes k).start_ts
  | .msg_after_att n => (t.nodes n).end_ts < ts ∧ ∀ p, t.parentOf n = some p → t.Contains ts p ∧
    ∃ b ∈ (t.nodes p).branches, n ∈ b.els ∧ t.Latest ts b n ∧ ∀ k ∈ b.els, ¬ t.Contains ts k
end

variable {α : Type*}

section
variable {t : FlowTree} {now ts : Timestamp} {n m c : Nat} {path : List Nat} {b : BranchInfo} {q : NodeQueue}

theorem zero_le_stamp (time : Timestamp) : zero_timestamp ≤ time := by
  refine Prod.Lex.toLex_le_toLex.mpr ?_
  rcases (Nat.zero_le (ofLex time).1).lt_or_eq with less | same
  · exact .inl less
  · exact .inr ⟨same,Nat.zero_le _⟩
theorem Latest.started {b : BranchInfo} (latest : t.Latest ts b c) : c ∈ b.els ∧ (t.nodes c).start_ts ≤ ts := by
  obtain ⟨front,back,split,start,-⟩ := latest
  exact ⟨by rw [split]; exact mem_append_right _ mem_cons_self,start⟩
theorem Latest.unique (latest : t.Latest ts b c) {d : Nat} (latest' : t.Latest ts b d) : c = d := by
  obtain ⟨front,back,split,start,after⟩ := latest
  obtain ⟨front',back',split',start',after'⟩ := latest'
  rw [split] at split'
  obtain ⟨mid,front_eq,back_eq⟩ | ⟨mid,front_eq,back_eq⟩ := List.append_eq_append_iff.mp split'
  · grind
  · grind
/-- Going back from the last node finds the latest one that has started. -/
theorem backwards_latest {attach : Nat → Option (Int × List NodeQueue)} (early : ∀ d ∈ b.els, ts < (t.nodes d).start_ts → attach d = some (-1,[]))
    (late : ∀ d ∈ b.els, (t.nodes d).start_ts ≤ ts → ∃ queues, attach d = some (0,queues)) (one : ∃ d ∈ b.els, (t.nodes d).start_ts ≤ ts) :
    ∃ c queues, t.Latest ts b c ∧ attach c = some (0,queues) ∧ backwards attach b.els.reverse = some queues := by
  obtain ⟨els,status,start_ts⟩ := b
  dsimp only at early late one
  show ∃ c queues, t.Latest ts _ c ∧ attach c = some (0,queues) ∧ backwards attach els.reverse = some queues
  induction els using List.reverseRecOn with
  | nil => simp at one
  | append_singleton els c ih =>
    rw [List.reverse_concat,backwards]
    by_cases start : (t.nodes c).start_ts ≤ ts
    · obtain ⟨queues,attached⟩ := late c (by simp) start
      exact ⟨c,queues,⟨els,[],rfl,start,fun d member => by cases member⟩,attached,by rw [attached]; rfl⟩
    · obtain ⟨d,member,earlier⟩ := one
      have here : d ∈ els := by grind
      obtain ⟨c',queues,⟨front,back,split,started,after⟩,attached,found⟩ := ih (fun d member => early d (mem_append_left _ member))
        (fun d member => late d (mem_append_left _ member)) ⟨d,here,earlier⟩
      dsimp only at split
      refine ⟨c',queues,⟨front,back ++ [c],?_,started,fun e behind => ?_⟩,attached,?_⟩
      · simp [split]
      · grind
      · grind

theorem mapM_all {β : Type*} {f : α → Option β} {g : α → β} {l : List α} (all : ∀ a ∈ l, f a = some (g a)) : l.mapM f = some (l.map g) := by
  induction l with
  | nil => rfl
  | cons a l ih => grind
variable {m' p : Nat}

section
variable (way : t.Way ts n path m)
include way
theorem Way.trans {rest : List Nat} (further : t.Way ts m rest m') : t.Way ts n (path ++ rest) m' := by
  induction way with
  | here => exact further
  | down within no_test found started latest _ ih => exact .down within no_test found started latest (ih further)
theorem Way.unique (way' : t.Way ts n path m') : m = m' := by
  induction way with
  | here =>
    cases way'
    rfl
  | down _ _ found _ latest _ ih =>
    cases way' with
    | down _ _ found' _ latest' rest' =>
      obtain rfl := some.inj (found.symm.trans found')
      obtain rfl := latest.unique latest'
      exact ih rest'
/-- The last step of a way. -/
theorem Way.last : (path = [] ∧ m = n) ∨ ∃ (p i : Nat) (b : BranchInfo), t.Contains ts p ∧ (t.nodes p).branches[i]? = some b ∧
    t.BranchStarted ts b ∧ t.Latest ts b m := by
  induction way with
  | here => exact .inl ⟨rfl,rfl⟩
  | down within _ found started latest _ ih => grind
theorem Way.started (start : (t.nodes n).start_ts ≤ ts) : (t.nodes m).start_ts ≤ ts := by
  obtain ⟨-,rfl⟩ | ⟨p,i,b,-,-,-,latest⟩ := way.last
  · exact start
  · exact latest.started.2
end
theorem Stays.unique {q' : NodeQueue} (stays : t.Stays ts m q) (stays' : t.Stays ts m q') : q = q' := by
  cases stays with
  | behind less =>
    cases stays' with
    | behind => rfl
    | inside within => exact absurd less (not_lt.mpr within)
  | inside within =>
    cases stays' with
    | behind less => exact absurd less (not_lt.mpr within)
    | inside => rfl
def nodeOf : NodeQueue → Nat
  | .msg_att n => n
  | .msg_after_att n => n
theorem Stays.node (stays : t.Stays ts m q) : nodeOf q = m := by cases stays <;> rfl

variable (grown : t.Grown now)
include grown

theorem kid_parent (branch : b ∈ (t.nodes p).branches) (member : c ∈ b.els) : t.parentOf c = some p ∧ p < c ∧ c < t.count := by
  have kid := (mem_kids grown).mp (el_kid branch member)
  exact ⟨kid.2,grown.smaller c p kid.2,kid.1⟩
theorem Way.under (way : t.Way ts n path m) : UnderNode t.parentOf m n := by
  induction way with
  | here => exact .refl
  | down _ _ found _ latest _ ih => exact ih.tail (kid_parent grown (mem_of_getElem? found) latest.started.1).1
theorem branches_apart (p : Nat) : (t.nodes p).branches.Pairwise fun b b' => List.Disjoint b.els b'.els := by
  have distinct : (t.kids p).Nodup := by
    rw [grown.children]
    exact (children_sorted p).imp ne_of_lt
  exact (List.nodup_flatMap.mp distinct).2
/-- The way to a node is unique. -/
theorem Way.path_unique {path' : List Nat} (way : t.Way ts n path m) (way' : t.Way ts n path' m) : path = path' := by
  induction way generalizing path' with
  | here n =>
    cases way' with
    | here => rfl
    | down _ _ found _ latest rest =>
      have less := (kid_parent grown (mem_of_getElem? found) latest.started.1).2.1
      have le := UnderNode.ge grown.smaller (rest.under grown)
      omega
  | @down n i c m path b _ _ found _ latest rest ih =>
    have kid := kid_parent grown (mem_of_getElem? found) latest.started.1
    cases way' with
    | here =>
      have le := UnderNode.ge grown.smaller (rest.under grown)
      omega
    | @down _ i' c' _ path' b' _ _ found' _ latest' rest' =>
      have kid' := kid_parent grown (mem_of_getElem? found') latest'.started.1
      obtain rfl := UnderNode.one_child grown.smaller (rest.under grown) (rest'.under grown) kid.1 kid'.1
      have same : i = i' := by
        obtain ⟨small,rfl⟩ := List.getElem?_eq_some_iff.mp found
        obtain ⟨small',rfl⟩ := List.getElem?_eq_some_iff.mp found'
        have apart := List.pairwise_iff_getElem.mp (branches_apart grown n)
        rcases lt_trichotomy i i' with less | same | less
        · exact absurd latest'.started.1 (apart i i' small small' less latest.started.1)
        · exact same
        · exact absurd latest.started.1 (apart i' i small' small less latest'.started.1)
      rw [same,ih rest']
/-- Nothing in a branch that has not started has started. -/
theorem branch_late (branch : b ∈ (t.nodes p).branches) (late : ¬ t.BranchStarted ts b) (member : c ∈ b.els) : ts < (t.nodes c).start_ts := by
  have head := grown.heads p b branch
  obtain ⟨rest,split⟩ := List.head?_eq_some_iff.mp head
  have less : ts < (t.nodes b.start_ts).start_ts := not_le.mp late
  have sorted : b.els.Pairwise (· < ·) := by
    have all : (t.kids p).Pairwise (· < ·) := by
      rw [grown.children]
      exact children_sorted p
    exact (List.pairwise_flatMap.mp all).1 b branch
  rw [split] at member sorted
  obtain rfl | later := mem_cons.mp member
  · exact less
  · refine less.trans_le (grown.younger _ _ ((pairwise_cons.mp sorted).1 c later) ?_)
    exact (kid_parent grown branch (by rw [split]; exact mem_cons_of_mem _ later)).2.2
/-- What a message that is attached from a node comes to. -/
structure Placed (t : FlowTree) (ts : Timestamp) (n : Nat) (queues : List NodeQueue) : Prop where
  each : ∀ q, q ∈ queues ↔ ∃ path m, t.Way ts n path m ∧ t.Stays ts m q
  once : queues.Nodup
  some_queue : queues ≠ []
theorem attach_placed (fuel : Nat) (small : n < t.count) (enough : t.count ≤ fuel+n) :
    (ts < (t.nodes n).start_ts → t.flow_tree_attach_from_node ts fuel n = some (-1,[])) ∧
    ((t.nodes n).start_ts ≤ ts → ∃ queues, t.flow_tree_attach_from_node ts fuel n = some (0,queues) ∧ t.Placed ts n queues) := by
  induction fuel generalizing n with
  | zero => omega
  | succ fuel ih =>
    refine ⟨fun early => by rw [flow_tree_attach_from_node,if_pos early],fun start => ?_⟩
    rw [flow_tree_attach_from_node,if_neg (not_lt.mpr start)]
    by_cases ended : (t.nodes n).end_ts < ts
    · rw [if_pos ended]
      refine ⟨_,rfl,fun q => ?_,List.nodup_singleton _,cons_ne_nil _ _⟩
      rw [mem_singleton]
      constructor
      · rintro rfl
        exact ⟨[],n,.here n,.behind ended⟩
      · rintro ⟨path,m,way,stays⟩
        cases way with
        | here => exact stays.unique (.behind ended)
        | down within => exact absurd ended (not_lt.mpr within.2)
    · have within : t.Contains ts n := ⟨start,not_lt.mp ended⟩
      -- a message that no branch takes stays in the node
      have own : ((t.nodes n).type = .TEST ∨ ∀ b ∈ (t.nodes n).branches, ¬ t.BranchStarted ts b) → t.Placed ts n [.msg_att n] := by
        intro alone
        refine ⟨fun q => ?_,List.nodup_singleton _,cons_ne_nil _ _⟩
        rw [mem_singleton]
        constructor
        · rintro rfl
          exact ⟨[],n,.here n,.inside within.2 alone⟩
        · rintro ⟨path,m,way,stays⟩
          cases way with
          | here => exact stays.unique (.inside within.2 alone)
          | down _ no_test found begun => grind
      rw [if_neg ended]
      by_cases test : (t.nodes n).type = .TEST
      · rw [if_pos test]
        exact ⟨_,rfl,own (.inl test)⟩
      rw [if_neg test]
      generalize started_eq : ((t.nodes n).branches.filter fun b => (t.nodes b.start_ts).start_ts ≤ ts) = started
      have mem_started : ∀ b, b ∈ started ↔ b ∈ (t.nodes n).branches ∧ t.BranchStarted ts b := fun b => by
        rw [← started_eq,mem_filter,decide_eq_true_eq]
        rfl
      have each : ∀ b ∈ started, ∃ c queues, t.Latest ts b c ∧ t.Placed ts c queues ∧
          backwards (t.flow_tree_attach_from_node ts fuel) b.els.reverse = some queues := by
        intro b member
        obtain ⟨branch,begun⟩ := (mem_started b).mp member
        have kid : ∀ d ∈ b.els, d < t.count ∧ t.count ≤ fuel+d := fun d inside => by
          have kid := kid_parent grown branch inside
          omega
        obtain ⟨c,queues,latest,attached,found⟩ := backwards_latest (fun d inside early => (ih (kid d inside).1 (kid d inside).2).1 early)
          (fun d inside late => ((ih (kid d inside).1 (kid d inside).2).2 late).imp fun _ both => both.1)
          ⟨b.start_ts,List.mem_of_head? (grown.heads n b branch),begun⟩
        obtain ⟨queues',attached',placed⟩ := (ih (kid c latest.started.1).1 (kid c latest.started.1).2).2 latest.started.2
        obtain rfl := (of_pair (attached.symm.trans attached')).2
        exact ⟨c,queues,latest,placed,found⟩
      choose! last queuesOf latest placed found using each
      dsimp only
      rw [mapM_all found]
      by_cases no_branch : started = []
      · grind
      · refine ⟨_,rfl,?_⟩
        rw [if_neg (by simpa using no_branch),← List.flatMap_def]
        constructor
        case each =>
          intro q
          rw [mem_flatMap]
          constructor
          · rintro ⟨b,member,inside⟩
            obtain ⟨branch,begun⟩ := (mem_started b).mp member
            obtain ⟨path,m,way,stays⟩ := ((placed b member).each q).mp inside
            obtain ⟨i,at_i⟩ := List.mem_iff_getElem?.mp branch
            exact ⟨i :: path,m,.down within test at_i begun (latest b member) way,stays⟩
          · rintro ⟨path,m,way,stays⟩
            cases way with
            | here =>
              cases stays with
              | behind less => exact absurd less ended
              | inside _ alone =>
                obtain is_test | none_begun := alone
                · exact absurd is_test test
                · obtain ⟨b,member⟩ := exists_mem_of_ne_nil _ no_branch
                  obtain ⟨branch,begun⟩ := (mem_started b).mp member
                  exact absurd begun (none_begun b branch)
            | @down _ i c _ path b _ _ at_i begun latest' rest =>
              have member := (mem_started b).mpr ⟨mem_of_getElem? at_i,begun⟩
              obtain rfl := latest'.unique (latest b member)
              exact ⟨b,member,((placed b member).each q).mpr ⟨path,m,rest,stays⟩⟩
        case once =>
          refine List.nodup_flatMap.mpr ⟨fun b member => (placed b member).once,?_⟩
          have apart : started.Pairwise fun b b' => List.Disjoint b.els b'.els := by
            rw [← started_eq]
            exact (branches_apart grown n).filter _
          refine apart.imp_of_mem fun {b b'} member member' disjoint => ?_
          intro q inside inside'
          obtain ⟨path,m,way,stays⟩ := ((placed b member).each q).mp inside
          obtain ⟨path',m',way',stays'⟩ := ((placed b' member').each q).mp inside'
          obtain rfl : m = m' := stays.node.symm.trans stays'.node
          have kid := kid_parent grown ((mem_started b).mp member).1 (latest b member).started.1
          have kid' := kid_parent grown ((mem_started b').mp member').1 (latest b' member').started.1
          have same := UnderNode.one_child grown.smaller (way.under grown) (way'.under grown) kid.1 kid'.1
          exact disjoint (latest b member).started.1 (same ▸ (latest b' member').started.1)
        case some_queue =>
          obtain ⟨b,member⟩ := exists_mem_of_ne_nil _ no_branch
          obtain ⟨q,inside⟩ := exists_mem_of_ne_nil _ (placed b member).some_queue
          exact List.ne_nil_of_mem (mem_flatMap.mpr ⟨b,member,inside⟩)
/-- Every way goes on to a queue. -/
theorem Way.goes_on (way : t.Way ts 0 path m) : ∃ rest m' q, t.Way ts 0 (path ++ rest) m' ∧ t.Stays ts m' q := by
  have root_start : (t.nodes 0).start_ts ≤ ts := by rw [grown.root.2.2.1]; exact zero_le_stamp ts
  have small : m < t.count := by
    obtain ⟨-,rfl⟩ | ⟨p,i,b,-,found,-,latest⟩ := way.last
    · exact grown.root.1
    · exact (kid_parent grown (mem_of_getElem? found) latest.started.1).2.2
  obtain ⟨queues,-,placed⟩ := (attach_placed grown t.count small (Nat.le_add_right _ _)).2 (way.started root_start)
  obtain ⟨q,inside⟩ := exists_mem_of_ne_nil _ placed.some_queue
  obtain ⟨rest,m',further,stays⟩ := (placed.each q).mp inside
  exact ⟨rest,m',q,way.trans further,stays⟩
theorem stays_innermost (way : t.Way ts 0 path m) (start : (t.nodes m).start_ts ≤ ts) (stays : t.Stays ts m q) (range : ts ≤ max_timestamp) :
    t.Innermost ts q := by
  cases stays with
  | inside within alone =>
    refine ⟨⟨start,within⟩,fun k under other => ?_⟩
    obtain rfl | ⟨c,below,step⟩ := Relation.ReflTransGen.cases_tail under
    · exact absurd rfl other
    · have kid : c ∈ t.kids m := (mem_kids grown).mpr ⟨(parentOf_some step).1,step⟩
      obtain ⟨b,branch,member⟩ := mem_flatMap.mp kid
      have late : ¬ t.BranchStarted ts b := by
        obtain test | none_begun := alone
        · rw [grown.leaves m test] at branch
          cases branch
        · exact none_begun b branch
      refine (branch_late grown branch late member).trans_le ?_
      obtain rfl | less := (UnderNode.ge grown.smaller below).eq_or_lt
      · exact le_rfl
      · refine grown.younger c k less ?_
        obtain rfl | ⟨d,first,-⟩ := Relation.ReflTransGen.cases_head below
        · exact absurd less (lt_irrefl _)
        · exact (parentOf_some first).1
  | behind less =>
    refine ⟨less,fun p parent => ?_⟩
    obtain ⟨-,rfl⟩ | ⟨p',i,b,within,found,begun,latest⟩ := way.last
    · rw [parentOf,if_pos grown.root.1,grown.root.2.1] at parent
      cases parent
    · have branch := mem_of_getElem? found
      obtain rfl : p' = p := some.inj ((kid_parent grown branch latest.started.1).1.symm.trans parent)
      refine ⟨within,b,branch,latest.started.1,latest,fun k member contains => ?_⟩
      obtain ⟨front,back,split,-,after⟩ := latest
      rw [split] at member
      obtain before | here | behind : k ∈ front ∨ k = m ∨ k ∈ back := by simpa using member
      · have turns := grown.turns p' b branch
        rw [split] at turns
        have turn := (pairwise_append.mp turns).2.2 k before m mem_cons_self
        have proper : (t.nodes m).start_ts ≤ (t.nodes m).end_ts := (grown.proper m).resolve_left fun open_end => by
          rw [open_end] at less
          exact absurd less (not_lt.mpr range)
        exact absurd (contains.2.trans (turn.trans proper)) (not_le.mpr less)
      · rw [here] at contains
        exact absurd contains.2 (not_le.mpr less)
      · exact absurd contains.1 (not_le.mpr (after k behind))
end

section
/-- The queues that are passed to the output, in this order. -/
def queuesOf : List TraceCall → List NodeQueue := List.filterMap fun
  | .msg_queue_foreach q => some q
  | _ => none
variable (t : FlowTree)
/-- What the filters let through: the messages of the root, of nodes with user data that are
included, and behind nodes whose parent is included. -/
def Shown : NodeQueue → Prop
  | .msg_att n => n = 0 ∨ t.reported n
  | .msg_after_att n => n = 0 ∨ t.parentIncluded n = true
instance (q : NodeQueue) : Decidable (t.Shown q) := by
  cases q <;> exact inferInstanceAs (Decidable (_ ∨ _))
def queueAt : Visit → NodeQueue
  | .enter n => .msg_att n
  | .leave n => .msg_after_att n
def shownAt (visits : List Visit) : List NodeQueue := (visits.map queueAt).filter fun q => t.Shown q

variable {t : FlowTree} {now : Timestamp} {n : Nat}
theorem queuesOf_append (l l' : List TraceCall) : queuesOf (l ++ l') = queuesOf l ++ queuesOf l' := List.filterMap_append
theorem queuesOf_flatMap (f : α → List TraceCall) (l : List α) : queuesOf (l.flatMap f) = l.flatMap fun a => queuesOf (f a) :=
  List.filterMap_flatMap
theorem shownAt_append (l l' : List Visit) : t.shownAt (l ++ l') = t.shownAt l ++ t.shownAt l' := by simp [shownAt]
theorem shownAt_cons (v : Visit) (l : List Visit) : t.shownAt (v :: l) = t.shownAt [v] ++ t.shownAt l := shownAt_append [v] l
theorem shownAt_one (v : Visit) : t.shownAt [v] = if t.Shown (queueAt v) then [queueAt v] else [] := by simp [List.filter_cons,shownAt]
theorem shownAt_flatMap (f : α → List Visit) (l : List α) : t.shownAt (l.flatMap f) = l.flatMap fun a => t.shownAt (f a) := by
  rw [shownAt,List.map_flatMap,List.filter_flatMap]
  rfl
theorem wander_queues (grown : t.Grown now) (fuel : Nat) (positive : 0 < n) :
    queuesOf (t.flow_tree_wander fuel n) = t.shownAt (visits t.parentOf t.count (fun _ => true) fuel n) := by
  induction fuel generalizing n with
  | zero => rfl
  | succ fuel ih =>
    have inner : ∀ els : List Nat, (∀ c ∈ els, 0 < c) → queuesOf (els.flatMap (t.flow_tree_wander fuel)) =
        t.shownAt (els.flatMap (visits t.parentOf t.count (fun _ => true) fuel)) := by
      intro els above
      rw [queuesOf_flatMap,shownAt_flatMap]
      exact List.flatMap_congr fun c member => ih (above c member)
    have branches : queuesOf (if (t.nodes n).type = .TEST then [] else (t.nodes n).branches.flatMap fun b =>
        (if t.reported n then [.branch_start n] else []) ++ b.els.flatMap (t.flow_tree_wander fuel) ++
        (if t.reported n then [.branch_end n] else [])) = t.shownAt ((children t.parentOf t.count n).flatMap (visits t.parentOf t.count (fun _ => true) fuel)) := by
      have kids : queuesOf ((t.nodes n).branches.flatMap fun b =>
          (if t.reported n then [.branch_start n] else []) ++ b.els.flatMap (t.flow_tree_wander fuel) ++
          (if t.reported n then [.branch_end n] else [])) = t.shownAt ((t.kids n).flatMap (visits t.parentOf t.count (fun _ => true) fuel)) := by
        rw [FlowTree.kids,List.flatMap_assoc,queuesOf_flatMap,shownAt_flatMap]
        refine List.flatMap_congr fun b branch => ?_
        rw [queuesOf_append,queuesOf_append,inner b.els fun c member => zero_lt_of_lt (kid_parent grown branch member).2.1]
        split_ifs <;> simp [queuesOf]
      rw [← grown.children,← kids]
      by_cases test : (t.nodes n).type = .TEST
      · rw [if_pos test,grown.leaves n test]
        rfl
      · rw [if_neg test]
    rw [flow_tree_wander,visits,shownAt_cons,shownAt_append,queuesOf_append,queuesOf_append,queuesOf_append,branches,
      if_pos rfl,← append_assoc]
    have not_root : n ≠ 0 := ne_of_gt positive
    have shown : (t.Shown (queueAt (.enter n)) ↔ t.reported n) ∧ (t.Shown (queueAt (.leave n)) ↔ t.parentIncluded n = true) :=
      ⟨or_iff_right not_root,or_iff_right not_root⟩
    rw [shownAt_one,shownAt_one,if_congr shown.1 rfl rfl,if_congr shown.2 rfl rfl]
    split_ifs <;> simp [queuesOf,queueAt]
theorem visits_nodup {l : List Visit} (enters : (Visit.entered l).Nodup) (leaves : (Visit.left l).Nodup) : l.Nodup := by
  induction l with
  | nil => exact nodup_nil
  | cons v l ih =>
    cases v with
    | enter n =>
      obtain ⟨absent,rest⟩ := nodup_cons.mp enters
      exact nodup_cons.mpr ⟨fun member => absent (mem_entered.mpr member),ih rest leaves⟩
    | leave n =>
      obtain ⟨absent,rest⟩ := nodup_cons.mp leaves
      exact nodup_cons.mpr ⟨fun member => absent (mem_left.mpr member),ih enters rest⟩
theorem under_root (grown : t.Grown now) (n : Nat) (small : n < t.count) : UnderNode t.parentOf n 0 := by
  induction n using Nat.strongRecOn with
  | ind n ih =>
    rcases parent : (t.nodes n).parent with _ | p
    · rw [grown.one_root n small parent]
      exact .refl
    · have step : t.parentOf n = some p := by rw [parentOf,if_pos small,parent]
      have less := grown.smaller n p step
      exact .head step (ih p less (by omega))
/-- Every queue that the filters let through is passed once, and no other. -/
theorem trace_once (grown : t.Grown now) {fuel : Nat} (enough : t.count ≤ fuel) (one_branch : (t.nodes 0).branches.length ≤ 1) :
    (queuesOf (t.flow_tree_trace fuel)).Nodup ∧ ∀ q, q ∈ queuesOf (t.flow_tree_trace fuel) ↔ nodeOf q < t.count ∧ t.Shown q := by
  have all : queuesOf (t.flow_tree_trace fuel) = t.shownAt (visits t.parentOf t.count (fun _ => true) (fuel+1) 0) := by
    have inner : queuesOf (((t.nodes 0).branches.take 1).flatMap fun b => b.els.flatMap (t.flow_tree_wander fuel)) =
        t.shownAt ((children t.parentOf t.count 0).flatMap (visits t.parentOf t.count (fun _ => true) fuel)) := by
      rw [take_of_length_le one_branch,← List.flatMap_assoc,← grown.children,queuesOf_flatMap,shownAt_flatMap]
      refine List.flatMap_congr fun c member => wander_queues grown fuel ?_
      exact zero_lt_of_lt (grown.smaller c 0 ((mem_kids grown).mp member).2)
    rw [flow_tree_trace,visits,shownAt_cons,shownAt_append,queuesOf_append,queuesOf_append,inner,
      if_pos grown.root.2.2.2,if_pos grown.root.2.2.2,← append_assoc]
    rw [if_pos rfl,shownAt_one,shownAt_one,if_pos (.inl rfl),if_pos (.inl rfl)]
    rfl
  rw [all]
  have injective : Function.Injective queueAt := by
    rintro (a | a) (b | b) same <;> cases same <;> rfl
  refine ⟨?_,fun q => ?_⟩
  · refine List.Nodup.filter _ (List.Nodup.map injective (visits_nodup (entered_nodup grown.smaller _ _) (left_nodup grown.smaller _ _)))
  · have member : ∀ n, n < t.count ↔ n ∈ Visit.entered (visits t.parentOf t.count (fun _ => true) (fuel+1) 0) := by
      intro n
      constructor
      · intro small
        exact under_entered grown.smaller (under_root grown n small) small (by omega)
      · intro inside
        obtain rfl | ⟨p,first,-⟩ := Relation.ReflTransGen.cases_head (entered_under inside)
        · exact grown.root.1
        · exact (parentOf_some first).1
    rw [shownAt,mem_filter,decide_eq_true_eq]
    refine and_congr_left fun _ => ?_
    rw [mem_map]
    cases q with
    | msg_att n =>
      rw [nodeOf,member,mem_entered]
      constructor
      · rintro ⟨v,inside,same⟩
        cases v with
        | enter k => cases same; exact inside
        | leave k => cases same
      · exact fun inside => ⟨_,inside,rfl⟩
    | msg_after_att n =>
      rw [nodeOf,member]
      constructor
      · rintro ⟨v,inside,same⟩
        cases v with
        | enter k => cases same
        | leave k => cases same; exact (left_entered (mem_left.mpr inside)).1
      · exact fun inside => ⟨_,mem_left.mp (entered_left inside rfl),rfl⟩
end

/-- The flow tree shows every message where it belongs: after any accepted starts and ends of nodes, a
message is attached to one queue for each way through the branches that have started by its timestamp,
at the innermost node, and every queue that the filters let through is traced once. -/
theorem messages_placed (check : String → NodeFltrMode) (events : List FlowEvent) (t : FlowTree)
    (ran : runEvents check events flow_tree_init = some t) (order : (events.map FlowEvent.time).Pairwise (· ≤ ·)) (ts : Timestamp)
    (range : ts ≤ max_timestamp) (fuel : Nat) (enough : t.count ≤ fuel) :
    (∃ queues, t.flow_tree_attach_from_node ts fuel 0 = some (0,queues) ∧ queues.Nodup ∧
      (∀ q, q ∈ queues ↔ ∃ path m, t.Way ts 0 path m ∧ t.Stays ts m q) ∧
      (∀ q ∈ queues, t.Innermost ts q ∧ ∃! path, ∃ m, t.Way ts 0 path m ∧ t.Stays ts m q) ∧
      ∀ path m, t.Way ts 0 path m → ∃ rest m' q, t.Way ts 0 (path ++ rest) m' ∧ t.Stays ts m' q ∧
        ∀ m'' q', t.Way ts 0 (path ++ rest) m'' → t.Stays ts m'' q' → q' = q) ∧
    ((t.nodes 0).branches.length ≤ 1 →
      (queuesOf (t.flow_tree_trace fuel)).Nodup ∧ ∀ q, q ∈ queuesOf (t.flow_tree_trace fuel) ↔ nodeOf q < t.count ∧ t.Shown q) := by
  obtain ⟨now,grown⟩ := runEvents_kept init_grown (pairwise_cons.mpr ⟨fun time _ => zero_le_stamp time,order⟩) ran
  have root_start : (t.nodes 0).start_ts ≤ ts := by rw [grown.root.2.2.1]; exact zero_le_stamp ts
  refine ⟨?_,trace_once grown enough⟩
  obtain ⟨queues,attached,placed⟩ := (attach_placed grown fuel grown.root.1 enough).2 root_start
  refine ⟨queues,attached,placed.once,placed.each,fun q inside => ?_,fun path m way => ?_⟩
  · obtain ⟨path,m,way,stays⟩ := (placed.each q).mp inside
    refine ⟨stays_innermost grown way (way.started root_start) stays range,path,⟨m,way,stays⟩,?_⟩
    rintro path' ⟨m',way',stays'⟩
    obtain rfl : m' = m := stays'.node.symm.trans stays.node
    exact way'.path_unique grown way
  · obtain ⟨rest,m',q,further,stays⟩ := way.goes_on grown
    refine ⟨rest,m',q,further,stays,fun m'' q' way'' stays'' => ?_⟩
    obtain rfl := way''.unique further
    exact stays''.unique stays
/-- A test between two seconds. -/
theorem messages_placed_test : ∃ t, runEvents (fun _ => .DEFAULT) [.node_start 0 1 .TEST (some "t") (.of 1 0) (some 7),.node_end 0 1 (.of 3 0)]
    flow_tree_init = some t ∧ ∃ queues, t.flow_tree_attach_from_node (.of 2 0) 2 0 = some (0,queues) ∧ queues.Nodup ∧
      (queuesOf (t.flow_tree_trace 2)).Nodup := by
  refine ⟨_,rfl,?_⟩
  obtain ⟨⟨queues,attached,once,-⟩,traced⟩ := messages_placed (fun _ => .DEFAULT)
    [.node_start 0 1 .TEST (some "t") (.of 1 0) (some 7),.node_end 0 1 (.of 3 0)] _ rfl (by decide) (.of 2 0) (by decide) 2 le_rfl
  exact ⟨queues,attached,once,(traced (by decide)).1⟩
/-- Messages of a test that the filters reject are not traced, and of two branches of the root only
the first one is. -/
theorem messages_not_traced :
    (∃ t, runEvents (fun _ => .EXCLUDE) [.node_start 0 1 .TEST (some "t") (.of 1 0) (some 7)] flow_tree_init = some t ∧
      t.flow_tree_attach_from_node (.of 2 0) 2 0 = some (0,[.msg_att 1]) ∧ .msg_att 1 ∉ queuesOf (t.flow_tree_trace 2)) ∧
    ∃ t, runEvents (fun _ => .DEFAULT) [.node_start 0 1 .TEST (some "t") (.of 1 0) (some 7),.node_start 0 2 .TEST (some "u") (.of 1 0) (some 8)]
      flow_tree_init = some t ∧ t.flow_tree_attach_from_node (.of 2 0) 3 0 = some (0,[.msg_att 1,.msg_att 2]) ∧
      .msg_att 2 ∉ queuesOf (t.flow_tree_trace 3) :=
  ⟨⟨_,rfl,by decide,by decide⟩,_,rfl,by decide,by decide⟩
end FlowTree
end TestEnvironment.Rgt
