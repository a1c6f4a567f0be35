import TestEnvironment.Lib.Names

/-!
Walks through trees that link first children, next brothers and fathers: such a walk enters each
element once, in depth-first order, and comes back once to each element with children.
-/
namespace TestEnvironment.Lib
universe u
variable {α : Type u}

/-- Elements that follow each other, each with its children. -/
inductive Wood (α : Type u)
  | nil
  | node (a : α) (kids rest : Wood α)
  deriving DecidableEq, Repr
/-- How a walk gets to an element; the root is no element. -/
inductive Motion | ROOT | SON | BROTHER | FATHER
  deriving DecidableEq, Repr

namespace Wood
def roots : Wood α → List α
  | nil => []
  | node a _ rest => a :: roots rest
def preorder : Wood α → List α
  | nil => []
  | node a kids rest => a :: (preorder kids ++ preorder rest)
/-- The elements with children, each behind these. -/
def inner : Wood α → List α
  | nil => []
  | node a kids rest => inner kids ++ (if kids.roots = [] then [] else [a]) ++ inner rest
/-- The motions through elements of which the first one is entered by a given motion. -/
def tour (m : Motion) : Wood α → List (Motion × α)
  | nil => []
  | node a kids rest => (m,a) :: (tour .SON kids ++ (if kids.roots = [] then [] else [(.FATHER,a)]) ++ tour .BROTHER rest)

theorem roots_sublist (w : Wood α) : w.roots.Sublist w.preorder := by
  induction w with
  | nil => exact .slnil
  | node a kids rest _ ih => exact .cons_cons a (ih.trans (List.sublist_append_right _ _))
theorem tour_mem {m : Motion} {w : Wood α} {step : Motion × α} (member : step ∈ w.tour m) : step.2 ∈ w.preorder := by
  induction w generalizing m with
  | nil => cases member
  | node b kids rest first second =>
    rw [tour,mem_cons,mem_append,mem_append] at member
    rw [preorder,mem_cons,mem_append]
    obtain rfl | (below | here) | later := member
    · exact .inl rfl
    · exact .inr (.inl (first below))
    · grind
    · exact .inr (.inr (second later))
theorem tour_down {m : Motion} {w : Wood α} {step : Motion × α} (down : m = .SON ∨ m = .BROTHER) (member : step ∈ w.tour m) : step.1 ≠ .ROOT := by
  induction w generalizing m with
  | nil => cases member
  | node b kids rest first second =>
    rw [tour,mem_cons,mem_append,mem_append] at member
    obtain rfl | (below | here) | later := member
    · obtain rfl | rfl := down <;> exact Motion.noConfusion
    · exact first (.inl rfl) below
    · grind
    · exact second (.inr rfl) later
theorem inner_subset {w : Wood α} {a : α} (member : a ∈ w.inner) : a ∈ w.preorder := by
  induction w with
  | nil => exact member
  | node b kids rest first second => grind [inner,preorder]
theorem inner_nodup {w : Wood α} (distinct : w.preorder.Nodup) : w.inner.Nodup := by
  induction w with
  | nil => exact distinct
  | node b kids rest first second =>
    obtain ⟨new,parts⟩ := nodup_cons.mp distinct
    obtain ⟨below,later,apart⟩ := nodup_append.mp parts
    rw [mem_append,not_or] at new
    rw [inner,nodup_append,nodup_append]
    refine ⟨⟨first below,?_,?_⟩,second later,?_⟩
    · split <;> simp
    · grind [inner_subset]
    · intro x member y behind same
      subst same
      obtain inside | here := mem_append.mp member
      · exact apart x (inner_subset inside) x (inner_subset behind) rfl
      · grind [inner_subset]
end Wood

/-- The links of a tree; those of the root are the links of nothing. -/
structure TreeLinks (α : Type u) where
  first : Option α → Option α
  next : α → Option α
  father : α → Option α
namespace TreeLinks
variable (L : TreeLinks α)

def leave (a : α) : Motion × Option α :=
  match L.next a with
  | some b => (.BROTHER,some b)
  | none => match L.father a with
    | some f => (.FATHER,some f)
    | none => (.ROOT,none)
/-- One move of the walk, from what the last one came to. -/
def move : Motion × Option α → Motion × Option α
  | (_,none) => match L.first none with
    | some a => (.SON,some a)
    | none => (.ROOT,none)
  | (.FATHER,some a) => L.leave a
  | (_,some a) => match L.first (some a) with
    | some b => (.SON,some b)
    | none => L.leave a
/-- The elements and their children are linked, below a given father. -/
def Linked : Option α → Wood α → Prop
  | _, .nil => True
  | f, .node a kids rest => L.father a = f ∧ L.next a = rest.roots.head? ∧ L.first (some a) = kids.roots.head? ∧
      Linked (some a) kids ∧ Linked f rest
/-- The walk comes to one after the other. -/
def Goes : Motion × Option α → List (Motion × Option α) → Prop
  | _, [] => True
  | s, t :: l => L.move s = t ∧ Goes t l
/-- The move out of the last element below a father. -/
def out (f : Option α) : Motion × Option α :=
  match f with
  | some a => (.FATHER,some a)
  | none => (.ROOT,none)
variable {L} {f : Option α} {w kids rest : Wood α} {a : α} {m : Motion}

theorem Goes.append {s t : Motion × Option α} {l l' : List (Motion × Option α)} (front : L.Goes s (l ++ [t])) (back : L.Goes t l') :
    L.Goes s (l ++ t :: l') := by
  induction l generalizing s with
  | nil => exact ⟨front.1,back⟩
  | cons u l ih => exact ⟨front.1,ih front.2⟩
theorem Linked.inner_iff (linked : L.Linked f w) : a ∈ w.inner ↔ a ∈ w.preorder ∧ L.first (some a) ≠ none := by
  induction w generalizing f with
  | nil => exact ⟨fun member => absurd member not_mem_nil,fun member => absurd member.1 not_mem_nil⟩
  | node b kids rest first second =>
    obtain ⟨-,-,children,below,later⟩ := linked
    rw [Wood.inner,Wood.preorder,mem_append,mem_append,mem_cons,mem_append,first below,second later]
    constructor
    · rintro ((⟨inside,has⟩ | here) | ⟨behind,has⟩)
      · exact ⟨.inr (.inl inside),has⟩
      · simp_all
      · exact ⟨.inr (.inr behind),has⟩
    · grind

/-- Steps of a tour as places of the walk. -/
def places (steps : List (Motion × α)) : List (Motion × Option α) := steps.map fun step => (step.1,some step.2)
/-- The elements that were entered. -/
def entered (places : List (Motion × Option α)) : List α :=
  (places.filter fun place => place.1 = .SON || place.1 = .BROTHER).filterMap Prod.snd
/-- The elements that the walk came back to. -/
def returned (places : List (Motion × Option α)) : List α := (places.filter fun place => place.1 = .FATHER).filterMap Prod.snd
theorem entered_append (front back : List (Motion × Option α)) : entered (front ++ back) = entered front ++ entered back := by simp [entered]
theorem returned_append (front back : List (Motion × Option α)) : returned (front ++ back) = returned front ++ returned back := by
  rw [returned,filter_append,List.filterMap_append]
  rfl
theorem places_append (front back : List (Motion × α)) : places (front ++ back) = places front ++ places back := map_append
theorem tour_entered (down : m = .SON ∨ m = .BROTHER) (w : Wood α) : entered (places (w.tour m)) = w.preorder := by
  induction w generalizing m with
  | nil => rfl
  | node a kids rest first second =>
    have head : entered (places [(m,a)]) = [a] := by
      obtain rfl | rfl := down <;> rfl
    have back : entered (places (if kids.roots = [] then [] else [(Motion.FATHER,a)])) = [] := by
      split <;> rfl
    rw [Wood.tour,Wood.preorder,← singleton_append,places_append,places_append,places_append,entered_append,entered_append,entered_append,
      head,back,first (.inl rfl),second (.inr rfl),append_nil]
    rfl
theorem tour_returned (down : m = .SON ∨ m = .BROTHER) (w : Wood α) : returned (places (w.tour m)) = w.inner := by
  induction w generalizing m with
  | nil => rfl
  | node a kids rest first second =>
    have head : returned (places [(m,a)]) = [] := by
      obtain rfl | rfl := down <;> rfl
    have back : returned (places (if kids.roots = [] then [] else [(Motion.FATHER,a)])) = if kids.roots = [] then [] else [a] := by
      split <;> rfl
    rw [Wood.tour,Wood.inner,← singleton_append,places_append,places_append,places_append,returned_append,returned_append,returned_append,
      head,back,first (.inl rfl),second (.inr rfl),nil_append]
/-- From an element that is left, the walk goes through those behind it. -/
theorem rest_goes {s : Motion × Option α} (left : L.move s = L.leave a) (father : L.father a = f) (next : L.next a = rest.roots.head?)
    (behind : ∀ b, rest.roots.head? = some b → L.Goes (.BROTHER,some b) (places (rest.tour .BROTHER).tail ++ [out f])) :
    L.Goes s (places (rest.tour .BROTHER) ++ [out f]) := by
  cases rest with
  | nil =>
    refine ⟨?_,trivial⟩
    rw [left,leave,next,father]
    cases f <;> rfl
  | node b kids rest =>
    refine ⟨?_,behind b rfl⟩
    rw [left,leave,next]
    rfl
/-- From the first element the walk goes through all of them and out. -/
theorem Linked.goes (linked : L.Linked f w) (down : m = .SON ∨ m = .BROTHER) (first : w.roots.head? = some a) :
    L.Goes (m,some a) (places (w.tour m).tail ++ [out f]) := by
  induction w generalizing f m a with
  | nil => cases first
  | node b kids rest below behind =>
    cases first
    obtain ⟨father,next,children,inside,later⟩ := linked
    have rest_of (s : Motion × Option α) (left : L.move s = L.leave b) : L.Goes s (places (rest.tour .BROTHER) ++ [out f]) :=
      rest_goes left father next fun c first => behind later (.inr rfl) first
    have here : L.move (m,some b) = match L.first (some b) with
        | some c => (.SON,some c)
        | none => L.leave b := by
      obtain rfl | rfl := down <;> rfl
    rw [children] at here
    cases kids with
    | nil => exact rest_of _ here
    | node c inner more =>
      have parent : ¬(Wood.node c inner more).roots = [] := cons_ne_nil _ _
      rw [Wood.tour,tail_cons,if_neg parent,places,map_append,map_append,append_assoc,append_assoc]
      exact ⟨here,Goes.append (below inside (.inl rfl) rfl) (rest_of (.FATHER,some b) rfl)⟩
/-- A walk from the root enters all elements and ends at the root. -/
theorem Linked.walk (linked : L.Linked none w) (first : L.first none = w.roots.head?) (m : Motion) :
    L.Goes (m,none) (places (w.tour .SON) ++ [(.ROOT,none)]) := by
  cases w with
  | nil =>
    refine ⟨?_,trivial⟩
    cases m <;> rw [move,first] <;> rfl
  | node a kids rest =>
    refine ⟨?_,linked.goes (.inl rfl) rfl⟩
    cases m <;> rw [move,first] <;> rfl
end TreeLinks
end TestEnvironment.Lib
