import TestEnvironment.Lib.Fuel
import TestEnvironment.Lib.Walks

/-!
Lists in which a step leads from each element to the next one and from the last one to a
given end: the run of such a step, and a step back that is its inverse. The leaves of
trees, trees side by side, and the depth-first walk with its levels.
-/
namespace TestEnvironment.Lib
universe u
variable {α : Type u} {f g : α → Option α → Prop} {l l' : List α} {e : Option α} {a b : α}

/-- The step leads along the list, and from its last element to `e`. -/
def Leads (f : α → Option α → Prop) : List α → Option α → Prop
  | [], _ => True
  | a :: l, e => f a (l.head?.or e) ∧ Leads f l e

theorem leads_append : Leads f (l ++ l') e ↔ Leads f l (l'.head?.or e) ∧ Leads f l' e := by
  induction l with
  | nil => simp [Leads]
  | cons a l ih => simp [ih,Option.or_assoc,and_assoc,Leads]
theorem leads_singleton : Leads f [a] e ↔ f a e := by simp [Leads]
/-- One element leads to another one exactly if they follow each other. -/
theorem Leads.iff_follows (leads : Leads f l none) (functional : ∀ {a r s}, f a r → f a s → r = s) (mem : a ∈ l) :
    f a (some b) ↔ ∃ front behind, l = front ++ a :: b :: behind := by
  constructor
  · intro next
    obtain ⟨front,behind,rfl⟩ := append_of_mem mem
    have here := (leads_append.mp leads).2.1
    rw [Option.or_none] at here
    obtain ⟨rest,rfl⟩ : ∃ rest, behind = b :: rest := List.head?_eq_some_iff.mp (functional here next)
    exact ⟨front,rest,rfl⟩
  · rintro ⟨front,behind,rfl⟩
    exact (leads_append.mp leads).2.1
/-- A step back along the same list is the inverse. -/
theorem Leads.inverse (leads : Leads f l none) (back : Leads g l.reverse none) (functional : ∀ {a r s}, f a r → f a s → r = s)
    (functional' : ∀ {a r s}, g a r → g a s → r = s) (memA : a ∈ l) (memB : b ∈ l) : f a (some b) ↔ g b (some a) := by
  rw [leads.iff_follows functional memA,back.iff_follows functional' (mem_reverse.mpr memB)]
  constructor
  · rintro ⟨front,behind,rfl⟩
    exact ⟨behind.reverse,front.reverse,by simp⟩
  · grind [reverse_reverse]

/-- What a step visits, until it leads nowhere; the fuel is that of the step as well. -/
def repeated (step : Nat → α → Option (Option α)) : Nat → Option α → Option (List α)
  | 0, _ => none
  | _+1, none => some []
  | fuel+1, some a => do
    let next ← step fuel a
    let rest ← repeated step fuel next
    some (a :: rest)
theorem Leads.repeated {step : Nat → α → Option (Option α)} (leads : Leads (fun a r => Settles (step · a) (some r)) l none) :
    Settles (fun fuel => repeated step fuel l.head?) (some l) := by
  induction l with
  | nil => exact Settles.of_succ (Settles.always fun _ => rfl)
  | cons a l ih =>
    obtain ⟨n,next⟩ := leads.1
    obtain ⟨m,rest⟩ := ih leads.2
    refine Settles.of_succ ⟨max n m,fun fuel enough => ?_⟩
    have here : step fuel a = some l.head? := (next fuel (le_trans (le_max_left n m) enough)).trans (by rw [Option.or_none])
    have later : Lib.repeated step fuel l.head? = some l := rest fuel (le_trans (le_max_right n m) enough)
    simp only [head?_cons,Lib.repeated,here,later,bind_eq_bind,bind_some]

namespace Wood
variable {w w' : Wood α}

/-- The elements without children. -/
def leaves : Wood α → List α
  | nil => []
  | node a kids rest => (if kids.roots = [] then [a] else leaves kids) ++ leaves rest
/-- The trees of one wood and then those of another one. -/
def append : Wood α → Wood α → Wood α
  | nil, w => w
  | node a kids rest, w => node a kids (append rest w)

theorem roots_nil : w.roots = [] ↔ w = nil := by cases w <;> simp [roots]
theorem preorder_head (w : Wood α) : w.preorder.head? = w.roots.head? := by cases w <;> rfl
theorem roots_append : (append w w').roots = w.roots ++ w'.roots := by
  induction w with
  | nil => rfl
  | node a kids rest _ ih => rw [append,roots,roots,ih,cons_append]
theorem preorder_append : (append w w').preorder = w.preorder ++ w'.preorder := by
  induction w with
  | nil => rfl
  | node a kids rest _ ih => rw [append,preorder,preorder,ih,cons_append,append_assoc]
theorem leaves_node {a : α} {kids rest : Wood α} (none : kids ≠ nil) : (node a kids rest).leaves = kids.leaves ++ rest.leaves := by
  rw [leaves,if_neg (fun no => none (roots_nil.mp no))]
theorem leaves_bare {a : α} {rest : Wood α} : (node a nil rest).leaves = a :: rest.leaves := rfl
theorem leaves_ne (w : Wood α) (some' : w ≠ nil) : w.leaves ≠ [] := by
  induction w with
  | nil => exact absurd rfl some'
  | node a kids rest first _ =>
    by_cases bare : kids = nil
    · subst bare
      exact cons_ne_nil _ _
    · simp [bare,first,leaves_node]
/-- The last element is a leaf. -/
theorem leaves_last (w : Wood α) : w.leaves.getLast? = w.preorder.getLast? := by
  induction w with
  | nil => rfl
  | node a kids rest first second =>
    by_cases bare : kids = nil
    · subst bare
      rw [leaves_bare,preorder,preorder,nil_append,getLast?_cons,getLast?_cons,second]
    · obtain ⟨last,end'⟩ : ∃ last, kids.preorder.getLast? = some last := by
        rw [← first]
        exact ne_none_iff_exists'.mp fun no => leaves_ne kids bare (List.getLast?_eq_none_iff.mp no)
      rw [leaves_node bare,preorder,List.getLast?_append,getLast?_cons,List.getLast?_append,first,second,end']
      cases rest.preorder.getLast? <;> rfl

/-- A call in a walk: before or after the children of an element. -/
inductive Call | pre | post
  deriving DecidableEq
/-- The depth-first walk with the levels of the elements. -/
def depthFirst (level : Nat) : Wood α → List (Call × α × Nat)
  | nil => []
  | node a kids rest => (.pre,a,level) :: (depthFirst (level+1) kids ++ (.post,a,level) :: depthFirst level rest)
theorem depthFirst_level {level : Nat} {call : Call × α × Nat} (mem : call ∈ depthFirst level w) : level ≤ call.2.2 := by
  induction w generalizing level with
  | nil => cases mem
  | node a kids rest first second =>
    simp only [depthFirst,mem_cons,mem_append] at mem
    rcases mem with rfl | below | rfl | later
    · exact le_rfl
    · exact (le_succ level).trans (first below)
    · exact le_rfl
    · exact second later
end Wood
end TestEnvironment.Lib
