import TestEnvironment.Lib.Names

/-!
Trees of numbered nodes in which a child has a greater number than its parent: visits enter a node,
pass its children in the order of their numbers, and leave it.
-/
namespace TestEnvironment.Lib

inductive Visit
  | enter (n : Nat)
  | leave (n : Nat)
  deriving DecidableEq

section
variable (parent : Nat → Option Nat) (bound : Nat) (leaves : Nat → Bool)

def children (n : Nat) : List Nat := (List.range bound).filter fun i => parent i = some n
/-- The visits of a node and those below it; not every node need be left. -/
def visits : Nat → Nat → List Visit
  | 0,_ => []
  | fuel+1,n => .enter n :: ((children parent bound n).flatMap (visits fuel) ++ if leaves n then [.leave n] else [])
/-- The node is the other one or below it. -/
def UnderNode (m n : Nat) : Prop := Relation.ReflTransGen (fun a b => parent a = some b) m n
end

namespace Visit
/-- The nodes entered, in this order. -/
def entered : List Visit → List Nat := List.filterMap fun
  | enter n => some n
  | leave _ => none
def left : List Visit → List Nat := List.filterMap fun
  | enter _ => none
  | leave n => some n
end Visit
open Visit

section
variable {parent : Nat → Option Nat} {bound m n k k' p : Nat}

theorem mem_children : k ∈ children parent bound n ↔ k < bound ∧ parent k = some n := by
  rw [children,mem_filter,mem_range,decide_eq_true_eq]
theorem children_sorted (n : Nat) : (children parent bound n).Pairwise (· < ·) := List.Pairwise.filter _ List.pairwise_lt_range
/-- The children in a range that holds them all. -/
theorem children_range {lo hi : Nat} (within : ∀ i, parent i = some n → lo ≤ i ∧ i < hi ∧ i < bound) :
    (List.range' lo (hi-lo)).filter (fun i => parent i = some n) = children parent bound n := by
  have sorted : ((List.range' lo (hi-lo)).filter (fun i => parent i = some n)).Pairwise (· < ·) :=
    List.Pairwise.filter _ (List.pairwise_lt_range' )
  refine List.Perm.eq_of_pairwise ?_ sorted (children_sorted n) ?_
  · omega
  · refine (List.perm_ext_iff_of_nodup ?_ ?_).mpr ?_
    · exact sorted.imp fun less => ne_of_lt less
    · exact (children_sorted n).imp fun less => ne_of_lt less
    · intro i
      rw [mem_children,mem_filter,List.mem_range'_1,decide_eq_true_eq]
      constructor
      · rintro ⟨-,here⟩
        exact ⟨(within i here).2.2,here⟩
      · grind

variable (smaller : ∀ k p, parent k = some p → p < k)
include smaller

theorem UnderNode.ge (under : UnderNode parent m n) : n ≤ m := by
  induction under with
  | refl => exact le_rfl
  | tail _ step ih => exact le_trans (le_of_lt (smaller _ _ step)) ih
omit smaller in
/-- Two nodes above one are above each other. -/
theorem UnderNode.total (first : UnderNode parent m k) (second : UnderNode parent m k') :
    UnderNode parent k k' ∨ UnderNode parent k' k := by
  induction first with
  | refl => exact .inl second
  | tail _ step ih =>
    obtain below | above := ih
    · rcases Relation.ReflTransGen.cases_head below with rfl | ⟨next,first_step,rest⟩
      · exact .inr (.single step)
      · obtain rfl := some.inj (step.symm.trans first_step)
        exact .inl rest
    · exact .inr (above.tail step)
/-- A node is below one child at most. -/
theorem UnderNode.one_child (first : UnderNode parent m k) (second : UnderNode parent m k') (child : parent k = some n)
    (child' : parent k' = some n) : k = k' := by
  have apart : ∀ {a b : Nat}, UnderNode parent a b → parent a = some n → parent b = some n → a = b := by
    intro a b below is_child is_child'
    rcases Relation.ReflTransGen.cases_head below with rfl | ⟨next,step,rest⟩
    · rfl
    · obtain rfl := some.inj (is_child.symm.trans step)
      have le := UnderNode.ge smaller rest
      have less := smaller _ _ is_child'
      omega
  obtain below | above := UnderNode.total first second
  · exact apart below child child'
  · exact (apart above child' child).symm
end

section
variable {parent : Nat → Option Nat} {bound fuel m n : Nat} {leaves : Nat → Bool} {l l' : List Visit}

@[simp] theorem entered_append : entered (l ++ l') = entered l ++ entered l' := List.filterMap_append
@[simp] theorem left_append : left (l ++ l') = left l ++ left l' := List.filterMap_append
theorem mem_entered : n ∈ entered l ↔ .enter n ∈ l := by
  rw [entered,List.mem_filterMap]
  constructor
  · grind
  · intro member
    exact ⟨_,member,rfl⟩
theorem mem_left : n ∈ left l ↔ .leave n ∈ l := by
  rw [left,List.mem_filterMap]
  constructor
  · grind
  · intro member
    exact ⟨_,member,rfl⟩
theorem entered_leave (n : Nat) : entered (if leaves n then [Visit.leave n] else []) = [] := by split_ifs <;> rfl
theorem left_leave (n : Nat) : left (if leaves n then [Visit.leave n] else []) = if leaves n then [n] else [] := by split_ifs <;> rfl
theorem entered_flatMap (f : Nat → List Visit) (ks : List Nat) : entered (ks.flatMap f) = ks.flatMap fun k => entered (f k) :=
  List.filterMap_flatMap
theorem left_flatMap (f : Nat → List Visit) (ks : List Nat) : left (ks.flatMap f) = ks.flatMap fun k => left (f k) :=
  List.filterMap_flatMap
theorem entered_visits (fuel n : Nat) : entered (visits parent bound leaves (fuel+1) n) =
    n :: (children parent bound n).flatMap fun k => entered (visits parent bound leaves fuel k) := by
  rw [visits]
  show n :: entered _ = _
  rw [entered_append,entered_leave,append_nil,entered_flatMap]
theorem left_visits (fuel n : Nat) : left (visits parent bound leaves (fuel+1) n) =
    ((children parent bound n).flatMap fun k => left (visits parent bound leaves fuel k)) ++ if leaves n then [n] else [] := by
  rw [visits,← left_flatMap,← left_leave,← left_append]
  rfl

variable (smaller : ∀ k p, parent k = some p → p < k)
/-- Only nodes below are entered. -/
theorem entered_under (member : m ∈ entered (visits parent bound leaves fuel n)) : UnderNode parent m n := by
  induction fuel generalizing n with
  | zero => cases member
  | succ fuel ih =>
    rw [entered_visits,mem_cons,mem_flatMap] at member
    obtain rfl | ⟨k,child,below⟩ := member
    · exact .refl
    · exact (ih below).tail (mem_children.mp child).2
/-- What is left has been entered. -/
theorem left_entered (member : m ∈ left (visits parent bound leaves fuel n)) :
    m ∈ entered (visits parent bound leaves fuel n) ∧ leaves m = true := by
  induction fuel generalizing n with
  | zero => cases member
  | succ fuel ih =>
    rw [left_visits,mem_append,mem_flatMap] at member
    rw [entered_visits,mem_cons,mem_flatMap]
    obtain ⟨k,child,below⟩ | here := member
    · grind
    · grind
/-- What is entered is also left if its turn to leave ever comes. -/
theorem entered_left (member : m ∈ entered (visits parent bound leaves fuel n)) (leaves_there : leaves m = true) :
    m ∈ left (visits parent bound leaves fuel n) := by
  induction fuel generalizing n with
  | zero => cases member
  | succ fuel ih =>
    rw [entered_visits,mem_cons,mem_flatMap] at member
    rw [left_visits,mem_append,mem_flatMap]
    obtain rfl | ⟨k,child,below⟩ := member
    · rw [if_pos leaves_there]
      exact .inr mem_cons_self
    · exact .inl ⟨k,child,ih below⟩

include smaller
/-- More fuel than there are numbers left changes nothing. -/
theorem visits_enough {fuel' : Nat} (within : n < bound) (enough : bound ≤ fuel+n) (enough' : bound ≤ fuel'+n) :
    visits parent bound leaves fuel n = visits parent bound leaves fuel' n := by
  induction fuel generalizing n fuel' with
  | zero => omega
  | succ fuel ih =>
    rcases fuel' with _ | fuel'
    · omega
    · have below : ∀ k ∈ children parent bound n, visits parent bound leaves fuel k = visits parent bound leaves fuel' k := by
        intro k child
        obtain ⟨inside,is_parent⟩ := mem_children.mp child
        have less := smaller k n is_parent
        exact ih inside (by omega) (by omega)
      rw [visits,visits,List.flatMap_congr below]
/-- With enough fuel every node below is entered. -/
theorem under_entered (under : UnderNode parent m n) (within : m < bound) (enough : bound-n ≤ fuel) :
    m ∈ entered (visits parent bound leaves fuel n) := by
  induction fuel generalizing n with
  | zero =>
    have := UnderNode.ge smaller under
    omega
  | succ fuel ih =>
    rw [entered_visits,mem_cons,mem_flatMap]
    cases under with
    | refl => exact .inl rfl
    | @tail k _ rest step =>
      have less := smaller _ _ step
      have le := UnderNode.ge smaller rest
      exact .inr ⟨k,mem_children.mpr ⟨by omega,step⟩,ih rest (by omega)⟩
/-- No node is entered twice. -/
theorem entered_nodup (fuel n : Nat) : (entered (visits parent bound leaves fuel n)).Nodup := by
  induction fuel generalizing n with
  | zero => exact nodup_nil
  | succ fuel ih =>
    rw [entered_visits,nodup_cons,List.nodup_flatMap]
    refine ⟨?_,fun k _ => ih k,?_⟩
    · intro again
      obtain ⟨k,child,below⟩ := mem_flatMap.mp again
      have le := UnderNode.ge smaller (entered_under below)
      have less := smaller _ _ (mem_children.mp child).2
      omega
    · refine (children_sorted n).imp_of_mem ?_
      intro k k' child child' less m in_first in_second
      have same := UnderNode.one_child smaller (entered_under in_first) (entered_under in_second) (mem_children.mp child).2
        (mem_children.mp child').2
      omega
theorem left_nodup (fuel n : Nat) : (left (visits parent bound leaves fuel n)).Nodup := by
  induction fuel generalizing n with
  | zero => exact nodup_nil
  | succ fuel ih =>
    have inner : ((children parent bound n).flatMap fun k => left (visits parent bound leaves fuel k)).Nodup := by
      rw [List.nodup_flatMap]
      refine ⟨fun k _ => ih k,(children_sorted n).imp_of_mem ?_⟩
      intro k k' child child' less m in_first in_second
      have same := UnderNode.one_child smaller (entered_under (left_entered in_first).1) (entered_under (left_entered in_second).1)
        (mem_children.mp child).2 (mem_children.mp child').2
      omega
    rw [left_visits,nodup_append]
    refine ⟨inner,by split_ifs <;> simp,?_⟩
    intro m below m' here same
    split_ifs at here
    · obtain ⟨k,child,below⟩ := mem_flatMap.mp below
      have le := UnderNode.ge smaller (entered_under (left_entered below).1)
      have less := smaller _ _ (mem_children.mp child).2
      rw [mem_singleton] at here
      omega
    · cases here
omit smaller
/-- A node is left behind the entry of its parent, but for the node where the visits start. -/
theorem parent_before (fuel n : Nat) {before behind : List Visit}
    (split : visits parent bound leaves fuel n = before ++ .leave m :: behind) : m = n ∨ ∃ p, parent m = some p ∧ .enter p ∈ before := by
  induction fuel generalizing n before behind with
  | zero => simp [visits] at split
  | succ fuel ih =>
    have walk : ∀ (ks : List Nat) (front behind : List Visit), (∀ k ∈ ks, parent k = some n) →
        ks.flatMap (visits parent bound leaves fuel) = front ++ .leave m :: behind →
        parent m = some n ∨ ∃ p, parent m = some p ∧ .enter p ∈ front := by
      intro ks
      induction ks with
      | nil => simp
      | cons k ks inner =>
        intro front behind all parts
        rw [flatMap_cons] at parts
        rcases List.append_eq_append_iff.mp parts with ⟨more,front_eq,rest⟩ | ⟨more,first,rest⟩
        · grind
        · rcases more with _ | ⟨v,more⟩
          · grind
          · grind
    rw [visits] at split
    rcases before with _ | ⟨v,before⟩
    · cases (cons.inj split).1
    · obtain ⟨rfl,tail⟩ := cons.inj split
      rcases List.append_eq_append_iff.mp tail with ⟨more,front_eq,rest⟩ | ⟨more,first,rest⟩
      · split_ifs at rest
        · rcases more with _ | ⟨v,more⟩
          · left
            exact (Visit.leave.inj (cons.inj rest).1).symm
          · simp at rest
        · simp at rest
      · rcases more with _ | ⟨v,more⟩
        · split_ifs at rest
          · left
            exact Visit.leave.inj (cons.inj rest).1
          · simp at rest
        · obtain ⟨rfl,-⟩ := cons.inj rest
          obtain here | ⟨p,is_parent,entered_p⟩ := walk _ before more (fun k child => (mem_children.mp child).2) first
          · exact .inr ⟨n,here,mem_cons_self⟩
          · exact .inr ⟨p,is_parent,mem_cons_of_mem _ entered_p⟩
end
end TestEnvironment.Lib
