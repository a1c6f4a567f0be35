import TestEnvironment.Tools.TeTree

/-!
Navigation in a tree: the node to the right is the next one in preorder, the one to the left
the previous one, and the same holds of the leaves; a traversal is a depth-first walk.
-/
namespace TestEnvironment.Tools
open Lib Function

/-- The nodes are linked as the trees of a wood that stand side by side below a parent, behind
    the sibling `prev`. -/
def Placed (trees : Nat → Option TeTree) : Option Nat → Option Nat → Wood Nat → Prop
  | _, _, .nil => True
  | parent, prev, .node a kids rest => trees a = some ⟨parent,kids.roots⟩ ∧ te_tree_next trees a = some rest.roots.head? ∧
      te_tree_prev trees a = some prev ∧ Placed trees (some a) none kids ∧ Placed trees parent (some a) rest

section
variable {trees : Nat → Option TeTree} {a : Nat} {node : TeTree}

variable {child : Nat → Option (Option Nat)}

theorem leafLoop_stop (leaf : child a = some none) : Settles (leafLoop child · a) (some a) :=
  Settles.of_succ (Settles.always fun fuel => by simp only [leafLoop,leaf,bind_eq_bind,bind_some])
theorem leafLoop_down {b : Nat} {r : Option Nat} (down : child a = some (some b))
    (rest : Settles (leafLoop child · b) r) : Settles (leafLoop child · a) r :=
  Settles.of_succ (rest.congr fun fuel => by simp only [leafLoop,down,bind_eq_bind,bind_some])

/-- What a loop upwards finds from the parent on. -/
def Above (trees : Nat → Option TeTree) (sibling : Nat → Option (Option Nat)) (parent after : Option Nat) : Prop :=
  match parent with
  | none => after = none
  | some parent => Settles (siblingLoop trees sibling · parent) (some after)
theorem siblingLoop_settles {sibling : Nat → Option (Option Nat)} {next after : Option Nat} (found : trees a = some node)
    (beside : sibling a = some next) (above : Above trees sibling node.parent after) :
    Settles (siblingLoop trees sibling · a) (some (next.or after)) := by
  refine Settles.of_succ ?_
  cases next with
  | some b => simp [beside,Settles.always,siblingLoop]
  | none =>
    have up : te_tree_parent trees a = some node.parent := by rw [te_tree_parent,found]; rfl
    rw [Option.none_or]
    cases parent : node.parent with
    | none =>
      rw [parent] at up above
      obtain rfl : after = none := above
      exact Settles.always fun fuel => by simp only [siblingLoop,beside,up,bind_eq_bind,bind_some]
    | some p =>
      rw [parent] at up above
      exact Settles.congr above fun fuel => by simp only [siblingLoop,beside,up,bind_eq_bind,bind_some]
end

variable {kids : Wood Nat}

section
variable {trees : Nat → Option TeTree} {w : Wood Nat} {parent prev after before : Option Nat}

theorem leftmost_leaf_first (placed : Placed trees parent prev w) {a : Nat} (first : w.roots.head? = some a) :
    Settles (te_tree_leftmost_leaf trees · a) w.leaves.head? := by
  induction w generalizing parent prev a with
  | nil => cases first
  | node b kids rest below _ =>
    obtain rfl : b = a := some.inj first
    obtain ⟨found,_,_,placedKids,_⟩ := placed
    have child : te_tree_first_child trees b = some kids.roots.head? := by rw [te_tree_first_child,found]; rfl
    cases kids with
    | nil => exact leafLoop_stop child
    | node c kids' rest' =>
      have deeper := below placedKids rfl
      obtain ⟨leaf,some'⟩ := ne_none_iff_exists'.mp fun no => Wood.leaves_ne (.node c kids' rest') (by simp) (List.head?_eq_none_iff.mp no)
      rw [Wood.leaves_node (by simp),List.head?_append,some']
      rw [some'] at deeper
      exact leafLoop_down child deeper
theorem preorder_last {w : Wood Nat} {c : Nat} (last : w.roots.getLast? = some c) : ∃ end', w.preorder.getLast? = some end' :=
  ne_none_iff_exists'.mp fun no => by
    have none := List.getLast?_eq_none_iff.mp no
    cases w <;> cases none
    cases last
/-- The rightmost leaf of a node, from those of its children. -/
theorem rightmost_leaf_below {a : Nat} (found : trees a = some ⟨parent,kids.roots⟩)
    (below : ∀ c, kids.roots.getLast? = some c → Settles (te_tree_rightmost_leaf trees · c) kids.preorder.getLast?) :
    Settles (te_tree_rightmost_leaf trees · a) (a :: kids.preorder).getLast? := by
  have child : te_tree_last_child trees a = some kids.roots.getLast? := by rw [te_tree_last_child,found]; rfl
  cases down : kids.roots.getLast? with
  | none =>
    obtain rfl : kids = .nil := Wood.roots_nil.mp (List.getLast?_eq_none_iff.mp down)
    exact leafLoop_stop child
  | some c =>
    have deeper := below c down
    obtain ⟨end',some'⟩ := preorder_last down
    rw [getLast?_cons,some']
    rw [some'] at deeper
    exact leafLoop_down (child.trans (congrArg some down)) deeper
theorem rightmost_leaf_last (placed : Placed trees parent prev w) {a : Nat} (last : w.roots.getLast? = some a) :
    Settles (te_tree_rightmost_leaf trees · a) w.preorder.getLast? := by
  induction w generalizing parent prev a with
  | nil => cases last
  | node b kids rest below beside =>
    obtain ⟨found,_,_,placedKids,placedRest⟩ := placed
    cases more : rest.roots.getLast? with
    | some c =>
      obtain rfl : c = a := by
        rw [Wood.roots,getLast?_cons,more] at last
        exact some.inj last
      have deeper := beside placedRest more
      obtain ⟨end',some'⟩ := preorder_last more
      rw [Wood.preorder,getLast?_cons,List.getLast?_append,some']
      rw [some'] at deeper
      exact deeper
    | none =>
      obtain rfl : rest = .nil := Wood.roots_nil.mp (List.getLast?_eq_none_iff.mp more)
      obtain rfl : b = a := some.inj last
      rw [Wood.preorder,Wood.preorder,append_nil]
      exact rightmost_leaf_below found fun c down => below placedKids down

/-- To the right comes the next node in preorder, and what stands behind the wood. -/
theorem right_leads (placed : Placed trees parent prev w) (above : Above trees (te_tree_next trees) parent after) :
    Leads (fun a r => Settles (te_tree_right trees · a) (some r)) w.preorder after := by
  induction w generalizing parent prev after with
  | nil => trivial
  | node a kids rest below beside =>
    obtain ⟨found,next,_,placedKids,placedRest⟩ := placed
    have up : Settles (siblingLoop trees (te_tree_next trees) · a) (some (rest.roots.head?.or after)) := siblingLoop_settles found next above
    have child : te_tree_first_child trees a = some kids.roots.head? := by rw [te_tree_first_child,found]; rfl
    refine ⟨?_,leads_append.mpr ⟨below placedKids ?_,beside placedRest above⟩⟩
    · grind [Wood.preorder_head,Settles.always,te_tree_right]
    · rwa [Wood.preorder_head]
/-- What stands before a wood: the sibling's last node, or the parent. -/
def LeftOf (trees : Nat → Option TeTree) (parent prev before : Option Nat) : Prop :=
  match prev with
  | none => before = parent
  | some q => ∃ b, before = some b ∧ Settles (te_tree_rightmost_leaf trees · q) (some b)
theorem left_leads (placed : Placed trees parent prev w) (left : LeftOf trees parent prev before) :
    Leads (fun a r => Settles (te_tree_left trees · a) (some r)) w.preorder.reverse before := by
  induction w generalizing parent prev before with
  | nil => trivial
  | node a kids rest below beside =>
    obtain ⟨found,_,back,placedKids,placedRest⟩ := placed
    have here : Settles (te_tree_left trees · a) (some before) := by
      cases prev with
      | none =>
        obtain rfl : before = parent := left
        exact Settles.always fun fuel => by
          simp only [te_tree_left,back,te_tree_parent,found,bind_eq_bind,bind_some,map_some]
      | some q =>
        obtain ⟨b,rfl,n,last⟩ := left
        refine ⟨n,fun fuel enough => ?_⟩
        have leaf : te_tree_rightmost_leaf trees fuel q = some b := last fuel enough
        simp only [te_tree_left,back,leaf,bind_eq_bind,bind_some,map_some]
    obtain ⟨leaf,end'⟩ : ∃ leaf, (a :: kids.preorder).getLast? = some leaf := ⟨_,getLast?_cons⟩
    have leftOf : LeftOf trees parent (some a) (some leaf) :=
      ⟨leaf,rfl,end' ▸ rightmost_leaf_below found fun c down => rightmost_leaf_last placedKids down⟩
    have last : (kids.preorder.reverse ++ [a]).head? = some leaf := by rw [← List.reverse_cons,List.head?_reverse,end']
    rw [Wood.preorder,List.reverse_cons,reverse_append,append_assoc,leads_append,leads_append,leads_singleton,last]
    exact ⟨beside placedRest leftOf,below placedKids rfl,here⟩

/-- The leaf that a node leads down to, if there is a node. -/
def LeafAt (down : Nat → Nat → Option Nat) (goal leaf : Option Nat) : Prop :=
  match goal with
  | none => leaf = none
  | some b => ∃ c, leaf = some c ∧ Settles (down · b) (some c)
variable {leaf : Option Nat}

/-- A step to the side and then down to a leaf. -/
theorem leaf_step {step : Nat → Option (Option Nat)} {down : Nat → Nat → Option Nat} {goal : Option Nat} (side : Settles step (some goal))
    (leafAt : LeafAt down goal leaf) : Settles (fun fuel => (step fuel).bind fun
      | none => some none
      | some b => (down fuel b).map some) (some leaf) := by
  obtain ⟨n,stepped⟩ := side
  cases goal with
  | none =>
    obtain rfl : leaf = none := leafAt
    exact ⟨n,fun fuel enough => by simp only [stepped fuel enough,bind_some]⟩
  | some b =>
    obtain ⟨c,rfl,k,last⟩ := leafAt
    refine ⟨max n k,fun fuel enough => ?_⟩
    have leaf : down fuel b = some c := last fuel (le_trans (le_max_right n k) enough)
    simp only [stepped fuel (le_trans (le_max_left n k) enough),leaf,bind_some,map_some]
theorem right_leaf_leads (placed : Placed trees parent prev w) (above : Above trees (te_tree_next trees) parent after)
    (leafAt : LeafAt (te_tree_leftmost_leaf trees) after leaf) :
    Leads (fun a r => Settles (te_tree_right_leaf trees · a) (some r)) w.leaves leaf := by
  induction w generalizing parent prev after leaf with
  | nil => trivial
  | node a kids rest below beside =>
    have right := right_leads placed above
    obtain ⟨found,next,_,placedKids,placedRest⟩ := placed
    -- the next leaf behind this tree
    have behind : LeafAt (te_tree_leftmost_leaf trees) (rest.roots.head?.or after) (rest.leaves.head?.or leaf) := by
      cases rest with
      | nil => exact leafAt
      | node b kids' rest' =>
        obtain ⟨c,some'⟩ := ne_none_iff_exists'.mp fun no => Wood.leaves_ne (.node b kids' rest') (by simp) (List.head?_eq_none_iff.mp no)
        have first := leftmost_leaf_first placedRest rfl
        rw [some'] at first
        exact ⟨c,by rw [some',some_or],first⟩
    by_cases bare : kids = .nil
    · subst bare
      have here := right.1
      rw [Wood.preorder,nil_append,Wood.preorder_head] at here
      exact ⟨leaf_step here behind,beside placedRest above leafAt⟩
    · rw [Wood.leaves_node bare,leads_append]
      exact ⟨below placedKids (siblingLoop_settles found next above) behind,beside placedRest above leafAt⟩
theorem left_leaf_leads {sibling : Option Nat} (placed : Placed trees parent prev w) (above : Above trees (te_tree_prev trees) parent sibling)
    (leafAt : LeafAt (te_tree_rightmost_leaf trees) (prev.or sibling) leaf) :
    Leads (fun a r => Settles (te_tree_left_leaf trees · a) (some r)) w.leaves.reverse leaf := by
  induction w generalizing parent prev sibling leaf with
  | nil => trivial
  | node a kids rest below beside =>
    obtain ⟨found,_,back,placedKids,placedRest⟩ := placed
    have up := siblingLoop_settles found back above
    -- the last leaf of this tree
    obtain ⟨c,end'⟩ : ∃ c, (a :: kids.preorder).getLast? = some c := ⟨_,getLast?_cons⟩
    have front : LeafAt (te_tree_rightmost_leaf trees) ((some a).or sibling) (some c) :=
      ⟨c,rfl,end' ▸ rightmost_leaf_below found fun c down => rightmost_leaf_last placedKids down⟩
    by_cases bare : kids = .nil
    · subst bare
      obtain rfl : a = c := some.inj end'
      rw [Wood.leaves_bare,List.reverse_cons,leads_append,leads_singleton]
      exact ⟨beside placedRest above front,leaf_step up leafAt⟩
    · have last : kids.leaves.getLast? = some c := by
        have tail := Wood.leaves_last (.node a kids .nil)
        rw [Wood.leaves_node bare,Wood.leaves,append_nil,Wood.preorder,Wood.preorder,append_nil,end'] at tail
        exact tail
      rw [Wood.leaves_node bare,reverse_append,leads_append,List.head?_reverse,last]
      exact ⟨beside placedRest above front,below placedKids up leafAt⟩
end

section
variable {σ : Type} {trees : Nat → Option TeTree} {minlevel maxlevel : Nat} {pre post : Option (Nat → σ → σ)} {parent prev : Option Nat}

/-- A callback that returns zero. -/
def quiet (cb : Option (Nat → σ → σ)) : Option (TeTreeTraverseFn σ) := cb.map fun f tree data => (.zero,f tree data)
/-- What a call in the walk does to the data. -/
def answer (pre post : Option (Nat → σ → σ)) (data : σ) (call : Wood.Call × Nat × Nat) : σ :=
  match call.1 with
  | .pre => pre.elim data fun f => f call.2.1 data
  | .post => post.elim data fun f => f call.2.1 data
/-- The calls whose level is in the range. -/
def inRange (minlevel maxlevel : Nat) (call : Wood.Call × Nat × Nat) : Bool := minlevel ≤ call.2.2 && call.2.2 ≤ maxlevel

theorem called_quiet {cb : Option (Nat → σ → σ)} {call : Wood.Call} {a level : Nat} {data : σ}
    (kind : ∀ data, answer pre post data (call,a,level) = cb.elim data fun f => f a data) (inside : level ≤ maxlevel) :
    called minlevel (quiet cb) a level data = (.zero,([(call,a,level)].filter (inRange minlevel maxlevel)).foldl (answer pre post) data) := by
  by_cases high : minlevel ≤ level
  · rw [filter_cons_of_pos (by simp [inRange,high,inside]),List.filter_nil,foldl_cons,foldl_nil,kind]
    cases cb with
    | none => rfl
    | some f => exact if_pos high
  · rw [filter_cons_of_neg (by simp [inRange,high]),List.filter_nil,foldl_nil]
    cases cb with
    | none => rfl
    | some f => exact if_neg high
/-- Traversing the trees of a wood one after the other makes the calls of its walk that are in the range. -/
theorem children_walk {w : Wood Nat} {level : Nat} (placed : Placed trees parent prev w) (inside : level ≤ maxlevel) (data : σ) :
    Settles (fun fuel => childLoop (fun child data => tree_traverse trees minlevel maxlevel (quiet pre) (quiet post) fuel child level data) w.roots data)
      (some (.zero,((Wood.depthFirst level w).filter (inRange minlevel maxlevel)).foldl (answer pre post) data)) := by
  induction w generalizing parent prev level data with
  | nil => exact Settles.always fun _ => rfl
  | node a kids rest below beside =>
    obtain ⟨found,_,_,placedKids,placedRest⟩ := placed
    let front : σ := ([(Wood.Call.pre,a,level)].filter (inRange minlevel maxlevel)).foldl (answer pre post) data
    let inner : σ := ((Wood.depthFirst (level+1) kids).filter (inRange minlevel maxlevel)).foldl (answer pre post) front
    let done : σ := ([(Wood.Call.post,a,level)].filter (inRange minlevel maxlevel)).foldl (answer pre post) inner
    have opened : called minlevel (quiet pre) a level data = (.zero,front) := called_quiet (fun _ => rfl) inside
    have closed : called minlevel (quiet post) a level inner = (.zero,done) := called_quiet (fun _ => rfl) inside
    have here : Settles (fun fuel => tree_traverse trees minlevel maxlevel (quiet pre) (quiet post) fuel a level data) (some (.zero,done)) := by
      refine Settles.of_succ ?_
      by_cases deeper : level < maxlevel
      · obtain ⟨n,settled⟩ := below placedKids deeper front
        refine ⟨n,fun fuel enough => ?_⟩
        have children : childLoop _ kids.roots front = some (.zero,inner) := settled fuel enough
        simp only [tree_traverse,opened,found,bind_eq_bind,bind_some]
        rw [if_neg (by simp),if_pos ⟨deeper,by decide⟩,children,bind_some,if_neg (by simp)]
        exact congrArg some closed
      · -- no call below is in the range
        have none : (Wood.depthFirst (level+1) kids).filter (inRange minlevel maxlevel) = [] := filter_eq_nil_iff.mpr fun call mem => by
          have above := Wood.depthFirst_level mem
          simp only [inRange,and_eq_true,decide_eq_true_eq]
          omega
        have same : inner = front := by simp only [inner,none,foldl_nil]
        rw [same] at closed
        refine Settles.always fun fuel => ?_
        simp only [tree_traverse,opened,found,bind_eq_bind,bind_some]
        rw [if_neg (by simp),if_neg (fun both => deeper both.1),if_neg (by simp)]
        exact congrArg some closed
    obtain ⟨n,first⟩ := here
    obtain ⟨k,others⟩ := beside placedRest inside done
    refine ⟨max n k,fun fuel enough => ?_⟩
    have one := first fuel (le_trans (le_max_left n k) enough)
    have behind := others fuel (le_trans (le_max_right n k) enough)
    dsimp only at one behind
    simp only [Wood.roots,childLoop,one,bind_eq_bind,bind_some,if_true]
    rw [behind]
    have calls : Wood.depthFirst level (.node a kids rest) =
        [(.pre,a,level)] ++ (Wood.depthFirst (level+1) kids ++ ([(.post,a,level)] ++ Wood.depthFirst level rest)) := rfl
    rw [calls,filter_append,filter_append,filter_append,foldl_append,foldl_append,foldl_append]
theorem traverse_walk {a : Nat} (placed : Placed trees none none (.node a kids .nil)) (data : σ) :
    Settles (fun fuel => te_tree_traverse trees minlevel maxlevel (quiet pre) (quiet post) fuel a data)
      (some (.zero,((Wood.depthFirst 0 (.node a kids .nil)).filter (inRange minlevel maxlevel)).foldl (answer pre post) data)) := by
  obtain ⟨n,walked⟩ := @children_walk σ trees minlevel maxlevel pre post none none _ 0 placed (Nat.zero_le _) data
  refine ⟨n,fun fuel enough => ?_⟩
  have all := walked fuel enough
  simp only [Wood.roots,childLoop,bind_eq_bind] at all
  obtain ⟨⟨rc,data'⟩,one,rest⟩ := of_bind all
  by_cases zero : rc = .zero
  · subst zero
    simp only [if_true,some_inj,Prod.mk.injEq,true_and] at rest
    exact (congrArg (Option.map _) one).trans (by rw [← rest]; rfl)
  · simp only [if_neg zero,some_inj,Prod.mk.injEq] at rest
    exact absurd rest.1 zero
end
end TestEnvironment.Tools
