import TestEnvironment.Lib.Successors

/-!
Generic trees (`te_tree.c`): nodes in memory that know their parent and their children. A
tail queue is the list of its elements; a node without a parent is in no queue, so that its
links there are NULL. Attributes are left out. Reading a node that is not allocated has no
result; loops have fuel.
-/
namespace TestEnvironment.Tools
open Lib Function

/-- `struct te_tree`. -/
structure TeTree where
  parent : Option Nat
  children : List Nat
  deriving DecidableEq, Repr
/-- The nodes in memory, of which those from `fresh` on have not been given out. -/
structure TreeMemory where
  node : Nat → Option TeTree
  fresh : Nat

section
variable (m : TreeMemory)

def te_tree_alloc : Nat × TreeMemory := (m.fresh,{node := update m.node m.fresh (some ⟨none,[]⟩),fresh := m.fresh+1})
/-- `te_tree_add_child`; nothing where its assertion fails. -/
def te_tree_add_child (tree child : Nat) : Option TreeMemory := do
  let node ← m.node child
  if node.parent = none then
    let nodes := update m.node child (some {node with parent := some tree})
    let top ← nodes tree
    some {m with node := update nodes tree (some {top with children := top.children ++ [child]})}
  else none
end

section
variable (trees : Nat → Option TeTree)

def te_tree_parent (tree : Nat) : Option (Option Nat) := (trees tree).map TeTree.parent
def te_tree_first_child (tree : Nat) : Option (Option Nat) := (trees tree).map fun node => node.children.head?
def te_tree_last_child (tree : Nat) : Option (Option Nat) := (trees tree).map fun node => node.children.getLast?
/-- The element behind another one. -/
def behind (tree : Nat) : List Nat → Option Nat
  | [] => none
  | a :: l => if a = tree then l.head? else behind tree l
def te_tree_next (tree : Nat) : Option (Option Nat) := do
  let node ← trees tree
  match node.parent with
  | none => some none
  | some parent => (trees parent).map fun top => behind tree top.children
def te_tree_prev (tree : Nat) : Option (Option Nat) := do
  let node ← trees tree
  match node.parent with
  | none => some none
  | some parent => (trees parent).map fun top => behind tree top.children.reverse
/-- The loop of `te_tree_root`. -/
def te_tree_root : Nat → Nat → Option Nat
  | 0, _ => none
  | fuel+1, tree => do
    let parent ← te_tree_parent trees tree
    match parent with
    | none => some tree
    | some parent => te_tree_root fuel parent
/-- The loops down to a leaf, by first or by last children. -/
def leafLoop (child : Nat → Option (Option Nat)) : Nat → Nat → Option Nat
  | 0, _ => none
  | fuel+1, tree => do
    let next ← child tree
    match next with
    | none => some tree
    | some next => leafLoop child fuel next
def te_tree_leftmost_leaf (fuel tree : Nat) : Option Nat := leafLoop (te_tree_first_child trees) fuel tree
def te_tree_rightmost_leaf (fuel tree : Nat) : Option Nat := leafLoop (te_tree_last_child trees) fuel tree
/-- The loops up to a node with a sibling, next or previous. -/
def siblingLoop (sibling : Nat → Option (Option Nat)) : Nat → Nat → Option (Option Nat)
  | 0, _ => none
  | fuel+1, tree => do
    let next ← sibling tree
    match next with
    | some next => some (some next)
    | none => do
      let parent ← te_tree_parent trees tree
      match parent with
      | none => some none
      | some parent => siblingLoop sibling fuel parent
def te_tree_left (fuel tree : Nat) : Option (Option Nat) := do
  let prev ← te_tree_prev trees tree
  match prev with
  | none => te_tree_parent trees tree
  | some prev => (te_tree_rightmost_leaf trees fuel prev).map some
def te_tree_right (fuel tree : Nat) : Option (Option Nat) := do
  let next ← te_tree_first_child trees tree
  match next with
  | some next => some (some next)
  | none => siblingLoop trees (te_tree_next trees) fuel tree
def te_tree_left_leaf (fuel tree : Nat) : Option (Option Nat) := do
  let prev ← siblingLoop trees (te_tree_prev trees) fuel tree
  match prev with
  | none => some none
  | some prev => (te_tree_rightmost_leaf trees fuel prev).map some
def te_tree_right_leaf (fuel tree : Nat) : Option (Option Nat) := do
  let right ← te_tree_right trees fuel tree
  match right with
  | none => some none
  | some right => (te_tree_leftmost_leaf trees fuel right).map some
end

/-- The status codes that a traversal tells apart. -/
inductive TraverseRc
  | zero | ESKIP | EOK
  | other (rc : Nat)
  deriving DecidableEq, Repr
/-- `te_tree_traverse_fn`, with the state that it changes. -/
abbrev TeTreeTraverseFn (σ : Type) := Nat → σ → TraverseRc × σ

section
variable {σ : Type} (trees : Nat → Option TeTree) (minlevel maxlevel : Nat) (pre_cb post_cb : Option (TeTreeTraverseFn σ))

/-- A callback, where there is one and the level is high enough. -/
def called (cb : Option (TeTreeTraverseFn σ)) (tree curlevel : Nat) (data : σ) : TraverseRc × σ :=
  match cb with
  | some cb => if curlevel ≥ minlevel then cb tree data else (.zero,data)
  | none => (.zero,data)
/-- The loop over the children, until a status is not zero. -/
def childLoop (each : Nat → σ → Option (TraverseRc × σ)) : List Nat → σ → Option (TraverseRc × σ)
  | [], data => some (.zero,data)
  | child :: children, data => do
    let (rc,data) ← each child data
    if rc = .zero then childLoop each children data else some (rc,data)
def tree_traverse : Nat → Nat → Nat → σ → Option (TraverseRc × σ)
  | 0, _, _, _ => none
  | fuel+1, tree, curlevel, data => do
    let (rc,data) := called minlevel pre_cb tree curlevel data
    if rc ≠ .zero ∧ rc ≠ .ESKIP then some (rc,data)
    else do
      let node ← trees tree
      let (rc,data) ←
        if curlevel < maxlevel ∧ rc ≠ .ESKIP then childLoop (fun child data => tree_traverse fuel child (curlevel+1) data) node.children data
        else some (.zero,data)
      if rc ≠ .zero then some (rc,data) else some (called minlevel post_cb tree curlevel data)
def te_tree_traverse (fuel tree : Nat) (data : σ) : Option (TraverseRc × σ) :=
  (tree_traverse trees minlevel maxlevel pre_cb post_cb fuel tree 0 data).map fun (rc,data) =>
    (if rc = .EOK then .zero else rc,data)
end
end TestEnvironment.Tools
