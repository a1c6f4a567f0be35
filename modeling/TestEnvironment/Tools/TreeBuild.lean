import TestEnvironment.Tools.TreeOrder

/-!
Trees as they are built, by new nodes and by roots added as the last children of other nodes:
every root in memory is the root of a wood, and navigation from there is that of the wood.
-/
namespace TestEnvironment.Tools
open Lib Function

section
variable {w c : Wood Nat} {at' : Nat}

/-- The wood with more trees as the last children of a node. -/
def graft (at' : Nat) (c : Wood Nat) : Wood Nat → Wood Nat
  | .nil => .nil
  | .node a kids rest => .node a (if a = at' then kids.append c else graft at' c kids) (graft at' c rest)

theorem graft_roots : (graft at' c w).roots = w.roots := by
  induction w with
  | nil => rfl
  | node a kids rest _ ih => rw [graft,Wood.roots,ih,Wood.roots]
theorem graft_absent (absent : at' ∉ w.preorder) : graft at' c w = w := by
  induction w with
  | nil => rfl
  | node a kids rest first second =>
    simp only [Wood.preorder,mem_cons,mem_append,not_or] at absent
    rw [graft,if_neg (fun same => absent.1 same.symm),first absent.2.1,second absent.2.2]
theorem graft_perm (distinct : w.preorder.Nodup) (present : at' ∈ w.preorder) :
    (graft at' c w).preorder.Perm (w.preorder ++ c.preorder) := by
  induction w with
  | nil => cases present
  | node a kids rest first second =>
    obtain ⟨new,parts⟩ := nodup_cons.mp distinct
    obtain ⟨below,later,apart⟩ := nodup_append.mp parts
    rw [mem_append,not_or] at new
    have shape : (a :: (kids.preorder ++ rest.preorder)) ++ c.preorder = a :: (kids.preorder ++ (rest.preorder ++ c.preorder)) := by simp
    rw [graft,Wood.preorder,Wood.preorder,shape]
    by_cases here : a = at'
    · subst here
      rw [if_pos rfl,Wood.preorder_append,graft_absent new.2]
      refine List.Perm.cons a ?_
      rw [append_assoc]
      exact List.perm_append_comm.append_left _
    · rw [if_neg here]
      refine List.Perm.cons a ?_
      rcases mem_append.mp ((mem_cons.mp present).resolve_left (Ne.symm here)) with inKids | inRest
      · have absent : at' ∉ rest.preorder := fun mem => apart at' inKids at' mem rfl
        rw [graft_absent absent]
        refine ((first below inKids).append_right _).trans ?_
        rw [append_assoc]
        exact List.perm_append_comm.append_left _
      · have absent : at' ∉ kids.preorder := fun mem => apart at' mem at' inRest rfl
        rw [graft_absent absent]
        exact (second later inRest).append_left _
end

/-- The nodes of a wood are linked to their parents and to their children. -/
def Linked (trees : Nat → Option TeTree) : Option Nat → Wood Nat → Prop
  | _, .nil => True
  | parent, .node a kids rest => trees a = some ⟨parent,kids.roots⟩ ∧ Linked trees (some a) kids ∧ Linked trees parent rest

section
variable {trees trees' : Nat → Option TeTree} {parent : Option Nat} {w c : Wood Nat} {tree : Nat}

theorem Linked.congr (linked : Linked trees parent w) (same : ∀ a ∈ w.preorder, trees' a = trees a) : Linked trees' parent w := by
  induction w generalizing parent with
  | nil => trivial
  | node a kids rest first second =>
    refine ⟨(same a mem_cons_self).trans linked.1,first linked.2.1 fun b mem => same b ?_,second linked.2.2 fun b mem => same b ?_⟩
    · exact mem_cons_of_mem _ (mem_append_left _ mem)
    · exact mem_cons_of_mem _ (mem_append_right _ mem)
theorem Linked.append (linked : Linked trees parent w) (more : Linked trees parent c) : Linked trees parent (w.append c) := by
  induction w with
  | nil => exact more
  | node a kids rest _ ih => exact ⟨linked.1,linked.2.1,ih linked.2.2⟩
theorem Linked.found (linked : Linked trees parent w) {a : Nat} (mem : a ∈ w.preorder) : ∃ node, trees a = some node := by
  induction w generalizing parent with
  | nil => cases mem
  | node b kids rest first second =>
    rcases mem_cons.mp mem with rfl | mem
    · exact ⟨_,linked.1⟩
    · rcases mem_append.mp mem with below | later
      exacts [first linked.2.1 below,second linked.2.2 later]
theorem Linked.inner {p : Nat} (linked : Linked trees (some p) w) {a : Nat} (mem : a ∈ w.preorder) :
    ∃ q children, trees a = some ⟨some q,children⟩ := by
  induction w generalizing p with
  | nil => cases mem
  | node b kids rest first second =>
    rcases mem_cons.mp mem with rfl | mem
    · exact ⟨p,_,linked.1⟩
    · rcases mem_append.mp mem with below | later
      exacts [first linked.2.1 below,second linked.2.2 later]
/-- The memory determines the wood below given roots. -/
theorem Linked.unique (linked : Linked trees parent w) (linked' : Linked trees parent c) (roots : w.roots = c.roots) : w = c := by
  induction w generalizing parent c with
  | nil => exact (Wood.roots_nil.mp roots.symm).symm
  | node a kids rest first second =>
    cases c with
    | nil => cases roots
    | node b kids' rest' =>
      obtain ⟨rfl,beside⟩ := cons.inj roots
      have below : kids.roots = kids'.roots := congrArg TeTree.children (some.inj (linked.1.symm.trans linked'.1))
      rw [first linked.2.1 linked'.2.1 below,second linked.2.2 linked'.2.2 beside]
theorem Linked.root {r : Nat} (linked : Linked trees parent w) (above : ∀ p, parent = some p → Settles (te_tree_root trees · p) (some r))
    (below : parent ≠ none) {a : Nat} (mem : a ∈ w.preorder) : Settles (te_tree_root trees · a) (some r) := by
  induction w generalizing parent with
  | nil => cases mem
  | node b kids rest first second =>
    obtain ⟨found,linkedKids,linkedRest⟩ := linked
    have here : Settles (te_tree_root trees · b) (some r) := by
      obtain ⟨p,up⟩ := ne_none_iff_exists'.mp below
      refine Settles.of_succ ((above p up).congr fun fuel => ?_)
      simp only [te_tree_root,te_tree_parent,found,up,map_some,bind_eq_bind,bind_some]
    rcases mem_cons.mp mem with rfl | mem
    · exact here
    · grind
/-- Adding a linked tree below a node whose list of children has grown by its root. -/
theorem Linked.graft (linked : Linked trees parent w) (distinct : w.preorder.Nodup) (present : tree ∈ w.preorder) {top : TeTree}
    (found : trees tree = some top) (grown : trees' tree = some {top with children := top.children ++ c.roots})
    (more : Linked trees' (some tree) c) (same : ∀ a ∈ w.preorder, a ≠ tree → trees' a = trees a) :
    Linked trees' parent (graft tree c w) := by
  induction w generalizing parent with
  | nil => cases present
  | node a kids rest first second =>
    obtain ⟨here,linkedKids,linkedRest⟩ := linked
    obtain ⟨new,parts⟩ := nodup_cons.mp distinct
    obtain ⟨below,later,apart⟩ := nodup_append.mp parts
    rw [mem_append,not_or] at new
    have sameKids : ∀ b ∈ kids.preorder, b ≠ tree → trees' b = trees b := fun b mem => same b (mem_cons_of_mem _ (mem_append_left _ mem))
    have sameRest : ∀ b ∈ rest.preorder, b ≠ tree → trees' b = trees b := fun b mem => same b (mem_cons_of_mem _ (mem_append_right _ mem))
    rw [Tools.graft]
    by_cases mine : a = tree
    · subst mine
      obtain rfl := some.inj (here.symm.trans found)
      rw [if_pos rfl,graft_absent new.2]
      refine ⟨by rw [grown,Wood.roots_append],(linkedKids.congr fun b mem => sameKids b mem ?_).append more,linkedRest.congr fun b mem => sameRest b mem ?_⟩
      · rintro rfl; exact new.1 mem
      · rintro rfl; exact new.2 mem
    · rw [if_neg mine]
      have kept : trees' a = trees a := same a mem_cons_self mine
      rcases mem_append.mp ((mem_cons.mp present).resolve_left (Ne.symm mine)) with inKids | inRest
      · have absent : tree ∉ rest.preorder := fun mem => apart tree inKids tree mem rfl
        rw [graft_absent absent]
        refine ⟨by rw [kept,here,graft_roots],first linkedKids below inKids sameKids,linkedRest.congr fun b mem => sameRest b mem ?_⟩
        rintro rfl; exact absent mem
      · have absent : tree ∉ kids.preorder := fun mem => apart tree mem tree inRest rfl
        rw [graft_absent absent]
        refine ⟨by rw [kept,here],linkedKids.congr fun b mem => sameKids b mem ?_,second linkedRest later inRest sameRest⟩
        rintro rfl; exact absent mem
theorem behind_split {front l : List Nat} {a : Nat} (absent : a ∉ front) : behind a (front ++ a :: l) = l.head? := by
  induction front with
  | nil => exact if_pos rfl
  | cons b front ih => simp_all [Ne.symm,behind]
/-- Linked nodes without repetition stand where navigation takes them to be. -/
theorem Linked.placed {p : Nat} {front : List Nat} {top : Option Nat} (linked : Linked trees (some p) w)
    (parent : trees p = some ⟨top,front ++ w.roots⟩) (siblings : (front ++ w.roots).Nodup) (distinct : w.preorder.Nodup) :
    Placed trees (some p) front.getLast? w := by
  induction w generalizing p front top with
  | nil => trivial
  | node a kids rest first second =>
    obtain ⟨found,linkedKids,linkedRest⟩ := linked
    obtain ⟨_,parts⟩ := nodup_cons.mp distinct
    obtain ⟨below,later,_⟩ := nodup_append.mp parts
    obtain ⟨_,_,apart⟩ := nodup_append.mp siblings
    have inFront : a ∉ front := fun mem => apart a mem a mem_cons_self rfl
    have inRest : a ∉ rest.roots := (nodup_cons.mp (nodup_append.mp siblings).2.1).1
    refine ⟨found,?_,?_,?_,?_⟩
    · simp only [te_tree_next,found,parent,Wood.roots,map_some,bind_eq_bind,bind_some,behind_split inFront]
    · simp [inRest,found,parent,behind_split,te_tree_prev,Wood.roots]
    · exact @first a [] _ linkedKids found (below.sublist kids.roots_sublist) below
    · have last : (front ++ [a]).getLast? = some a := getLast?_concat
      rw [← last]
      exact second linkedRest (by simpa [Wood.roots] using parent) (by simpa [Wood.roots] using siblings) later
end

/-- A node without a parent, with the nodes below it linked and none of them met twice. -/
structure IsTree (trees : Nat → Option TeTree) (r : Nat) (kids : Wood Nat) : Prop where
  root : trees r = some ⟨none,kids.roots⟩
  linked : Linked trees (some r) kids
  distinct : (r :: kids.preorder).Nodup

section
variable {trees trees' : Nat → Option TeTree} {r r' : Nat} {kids kids' : Wood Nat} {m m' : TreeMemory}

section
variable (is : IsTree trees r kids)
include is
theorem IsTree.placed : Placed trees none none (.node r kids .nil) := by
  refine ⟨is.root,?_,?_,@Linked.placed _ _ r [] none is.linked is.root ?_ ?_,trivial⟩
  · simp only [te_tree_next,is.root,bind_eq_bind,bind_some]
    rfl
  · simp only [te_tree_prev,is.root,bind_eq_bind,bind_some]
  · exact (nodup_cons.mp is.distinct).2.sublist kids.roots_sublist
  · exact (nodup_cons.mp is.distinct).2
theorem IsTree.top : Settles (te_tree_root trees · r) (some r) :=
  Settles.of_succ (Settles.always fun fuel => by
    simp only [te_tree_root,te_tree_parent,is.root,map_some,bind_eq_bind,bind_some])
theorem IsTree.root_of {a : Nat} (mem : a ∈ r :: kids.preorder) : Settles (te_tree_root trees · a) (some r) := by
  rcases mem_cons.mp mem with rfl | below
  · exact is.top
  · exact is.linked.root (fun p same => some.inj same ▸ is.top) (by simp) below
/-- A node is in one tree only. -/
theorem IsTree.same (is' : IsTree trees r' kids') {a : Nat} (mem : a ∈ r :: kids.preorder)
    (mem' : a ∈ r' :: kids'.preorder) : r = r' := some.inj ((is.root_of mem).unique (is'.root_of mem'))
theorem IsTree.congr (same : ∀ a ∈ r :: kids.preorder, trees' a = trees a) : IsTree trees' r kids :=
  ⟨(same r mem_cons_self).trans is.root,is.linked.congr fun a mem => same a (mem_cons_of_mem _ mem),is.distinct⟩
end

/-- Every node in memory is in a tree. -/
structure Grown (m : TreeMemory) : Prop where
  tree_of : ∀ {x node}, m.node x = some node → ∃ r kids, IsTree m.node r kids ∧ x ∈ r :: kids.preorder
  unused : ∀ {x}, m.fresh ≤ x → m.node x = none

theorem Grown.empty : Grown ⟨fun _ => none,0⟩ := ⟨fun found => (by cases found),fun _ => rfl⟩
theorem Grown.alloc (grown : Grown m) : Grown (te_tree_alloc m).2 := by
  have others : ∀ {a}, a ≠ m.fresh → (te_tree_alloc m).2.node a = m.node a := fun other => update_of_ne other ..
  refine ⟨fun {x node} found => ?_,fun {x} above => ?_⟩
  · by_cases new : x = m.fresh
    · subst new
      exact ⟨m.fresh,.nil,⟨update_self ..,trivial,List.nodup_singleton _⟩,mem_cons_self⟩
    · rw [others new] at found
      obtain ⟨r,kids,is,mem⟩ := grown.tree_of found
      refine ⟨r,kids,is.congr fun a inside => others ?_,mem⟩
      rintro rfl
      have missing := grown.unused (le_refl m.fresh)
      rcases mem_cons.mp inside with same | below
      · rw [same,is.root] at missing
        cases missing
      · obtain ⟨node,present⟩ := is.linked.found below
        rw [present] at missing
        cases missing
  · have above : m.fresh+1 ≤ x := above
    rw [others (by omega)]
    exact grown.unused (by omega)
/-- The memory after a root has been added below a node of another tree. -/
theorem Grown.grafted (grown : Grown m) {tree child rt : Nat} {kidsC kidsT : Wood Nat} {top : TeTree} (isC : IsTree m.node child kidsC)
    (isT : IsTree m.node rt kidsT) (memT : tree ∈ rt :: kidsT.preorder) (roots : rt ≠ child) (foundTop : m.node tree = some top) :
    Grown {m with node := update (update m.node child (some ⟨some tree,kidsC.roots⟩)) tree (some {top with children := top.children ++ [child]})} := by
  have inC : ∀ a ∈ rt :: kidsT.preorder, a ∉ child :: kidsC.preorder := fun a mem mem' => roots (isT.same isC mem mem')
  have apart : child ≠ tree := by
    rintro rfl
    exact inC child memT mem_cons_self
  let nodes := update (update m.node child (some ⟨some tree,kidsC.roots⟩)) tree (some {top with children := top.children ++ [child]})
  have kept : ∀ a, a ≠ child → a ≠ tree → nodes a = m.node a := fun a noChild noTree => by
    rw [show nodes a = _ from update_of_ne noTree ..,update_of_ne noChild]
  have newChild : nodes child = some ⟨some tree,kidsC.roots⟩ := by
    rw [show nodes child = _ from update_of_ne apart ..,update_self]
  have newC : Linked nodes (some tree) (.node child kidsC .nil) := by
    refine ⟨newChild,isC.linked.congr fun a mem => kept a ?_ ?_,trivial⟩
    · rintro rfl
      exact (nodup_cons.mp isC.distinct).1 mem
    · rintro rfl
      exact inC a memT (mem_cons_of_mem _ mem)
  have whole : (Wood.node rt kidsT .nil).preorder = rt :: kidsT.preorder := by rw [Wood.preorder,Wood.preorder,append_nil]
  have distinct : (Wood.node rt kidsT .nil).preorder.Nodup := whole ▸ isT.distinct
  have present : tree ∈ (Wood.node rt kidsT .nil).preorder := whole ▸ memT
  have linked : Linked nodes none (graft tree (.node child kidsC .nil) (.node rt kidsT .nil)) :=
    @Linked.graft m.node nodes none (.node rt kidsT .nil) (.node child kidsC .nil) tree ⟨isT.root,isT.linked,trivial⟩ distinct present top
      foundTop (update_self ..) newC fun a mem noTree => kept a (fun same => inC a (whole ▸ mem) (same ▸ mem_cons_self)) noTree
  have perm := @graft_perm (.node rt kidsT .nil) (.node child kidsC .nil) tree distinct present
  have wholeC : (Wood.node child kidsC .nil).preorder = child :: kidsC.preorder := by rw [Wood.preorder,Wood.preorder,append_nil]
  obtain ⟨kids,shape⟩ : ∃ kids, graft tree (.node child kidsC .nil) (.node rt kidsT .nil) = .node rt kids .nil := ⟨_,rfl⟩
  rw [shape] at linked perm
  rw [whole,wholeC,Wood.preorder,Wood.preorder,append_nil] at perm
  have new : IsTree nodes rt kids := by
    refine ⟨linked.1,linked.2.1,perm.nodup_iff.mpr (List.nodup_append'.mpr ⟨isT.distinct,isC.distinct,?_⟩)⟩
    exact fun a mem mem' => inC a mem mem'
  refine ⟨fun {x node} found => ?_,fun {x} above => ?_⟩
  · by_cases inT : x ∈ rt :: kidsT.preorder
    · exact ⟨rt,kids,new,perm.mem_iff.mpr (mem_append_left _ inT)⟩
    · by_cases inChild : x ∈ child :: kidsC.preorder
      · exact ⟨rt,kids,new,perm.mem_iff.mpr (mem_append_right _ inChild)⟩
      · -- a tree that has neither of the nodes
        have noChild : x ≠ child := by rintro rfl; exact inChild mem_cons_self
        have noTree : x ≠ tree := by rintro rfl; exact inT memT
        have found' : m.node x = some node := (kept x noChild noTree).symm.trans found
        obtain ⟨r,others,is,mem⟩ := grown.tree_of found'
        refine ⟨r,others,is.congr fun a inside => kept a ?_ ?_,mem⟩
        · rintro rfl
          have same := is.same isC inside mem_cons_self
          subst same
          exact inChild (by
            obtain rfl : others = kidsC := is.linked.unique isC.linked (congrArg TeTree.children (some.inj (is.root.symm.trans isC.root)))
            exact mem)
        · rintro rfl
          have same := is.same isT inside memT
          subst same
          exact inT (by
            obtain rfl : others = kidsT := is.linked.unique isT.linked (congrArg TeTree.children (some.inj (is.root.symm.trans isT.root)))
            exact mem)
  · have unused := grown.unused above
    have noChild : x ≠ child := by rintro rfl; rw [isC.root] at unused; cases unused
    have noTree : x ≠ tree := by rintro rfl; rw [foundTop] at unused; cases unused
    exact (kept x noChild noTree).trans unused
/-- The root of another tree becomes the last child of a node. -/
theorem Grown.add_child (grown : Grown m) {tree child : Nat} (added : te_tree_add_child m tree child = some m')
    (other : ¬ Settles (te_tree_root m.node · tree) (some child)) : Grown m' := by
  rw [te_tree_add_child] at added
  obtain ⟨node,foundChild,rest⟩ := of_bind added
  by_cases free : node.parent = none
  · rw [if_pos free] at rest
    obtain ⟨top,foundTop,done⟩ := of_bind rest
    obtain rfl := some.inj done
    obtain ⟨rc,kidsC,isC,memC⟩ := grown.tree_of foundChild
    -- the child is the root of its tree, which is not that of the node
    obtain rfl : child = rc := by
      rcases mem_cons.mp memC with same | below
      · exact same
      · obtain ⟨q,children,found⟩ := isC.linked.inner below
        obtain rfl := some.inj (foundChild.symm.trans found)
        cases free
    obtain rfl := some.inj (foundChild.symm.trans isC.root)
    have apart : tree ≠ child := by
      rintro rfl
      exact other isC.top
    rw [update_of_ne apart] at foundTop
    obtain ⟨rt,kidsT,isT,memT⟩ := grown.tree_of foundTop
    have roots : rt ≠ child := by
      rintro rfl
      exact other (isT.root_of memT)
    exact grown.grafted isC isT memT roots foundTop
  · rw [if_neg free] at rest
    cases rest
/-- The memory as allocations and additions of children leave it. Adding a root to a node of
    its own tree would leave no tree. -/
inductive Built : TreeMemory → Prop
  | empty : Built ⟨fun _ => none,0⟩
  | alloc {m : TreeMemory} : Built m → Built (te_tree_alloc m).2
  | add_child {m m' : TreeMemory} {tree child : Nat} : Built m → te_tree_add_child m tree child = some m' →
      ¬ Settles (te_tree_root m.node · tree) (some child) → Built m'
theorem Built.grown (built : Built m) : Grown m := by
  induction built with
  | empty => exact .empty
  | alloc _ ih => exact ih.alloc
  | add_child _ added other ih => exact ih.add_child added other
end

section
variable {trees : Nat → Option TeTree} {w : Wood Nat} {parent : Option Nat} {r : Nat} {kids : Wood Nat} {m : TreeMemory}

/-- The leaves of a linked wood are its nodes without children. -/
theorem Linked.leaf_bare (linked : Linked trees parent w) {a : Nat} (mem : a ∈ w.leaves) :
    a ∈ w.preorder ∧ ∃ node, trees a = some node ∧ node.children = [] := by
  induction w generalizing parent with
  | nil => exact absurd mem not_mem_nil
  | node b kids rest first second =>
    obtain ⟨found,linkedKids,linkedRest⟩ := linked
    rw [Wood.leaves,mem_append] at mem
    rw [Wood.preorder,mem_cons,mem_append]
    rcases mem with mem | mem
    · grind
    · grind
theorem Linked.bare_leaf (linked : Linked trees parent w) {a : Nat} {node : TeTree} (found : trees a = some node) (bare : node.children = [])
    (mem : a ∈ w.preorder) : a ∈ w.leaves := by
  induction w generalizing parent with
  | nil => exact mem
  | node b kids rest first second =>
    obtain ⟨here,linkedKids,linkedRest⟩ := linked
    rw [Wood.leaves,mem_append]
    rcases mem_cons.mp mem with rfl | mem
    · obtain rfl := some.inj (here.symm.trans found)
      exact .inl (by rw [if_pos bare]; exact mem_singleton_self a)
    · rcases mem_append.mp mem with below | later
      · have some' : kids.roots ≠ [] := fun no => by
          rw [Wood.roots_nil.mp no] at below
          exact not_mem_nil below
        exact .inl (by rw [if_neg some']; exact first linkedKids below)
      · exact .inr (second linkedRest later)
theorem Settles.fixed {f : Nat → Option (Option Nat)} {a b : Option Nat} (one : Settles f (some a)) (two : Settles f (some b)) : a = b :=
  some.inj (one.unique two)

/-- The order of the nodes of a tree and of its leaves, as the claims of navigation have it. -/
structure Navigates (trees : Nat → Option TeTree) (r : Nat) (w : Wood Nat) : Prop where
  tree : w.roots = [r] ∧ Linked trees none w
  nodes : ∀ a, a ∈ w.preorder ↔ Settles (te_tree_root trees · a) (some r)
  once : w.preorder.Nodup
  leaves : ∀ a, a ∈ w.leaves ↔ a ∈ w.preorder ∧ ∃ node, trees a = some node ∧ node.children = []
  right : Settles (fun fuel => repeated (te_tree_right trees) fuel (some r)) (some w.preorder)
  left : ∀ a ∈ w.preorder, ∀ b ∈ w.preorder,
    (Settles (te_tree_right trees · a) (some (some b)) ↔ Settles (te_tree_left trees · b) (some (some a)))
  right_leaf : ∃ first, Settles (te_tree_leftmost_leaf trees · r) (some first) ∧
    Settles (fun fuel => repeated (te_tree_right_leaf trees) fuel (some first)) (some w.leaves)
  left_leaf : ∀ a ∈ w.leaves, ∀ b ∈ w.leaves,
    (Settles (te_tree_right_leaf trees · a) (some (some b)) ↔ Settles (te_tree_left_leaf trees · b) (some (some a)))
  traverse : ∀ (σ : Type) (minlevel maxlevel : Nat) (pre post : Option (Nat → σ → σ)) (data : σ),
    Settles (fun fuel => te_tree_traverse trees minlevel maxlevel (quiet pre) (quiet post) fuel r data)
      (some (.zero,((Wood.depthFirst 0 w).filter (inRange minlevel maxlevel)).foldl (answer pre post) data))

/-- Navigation in the tree of every root that is built. -/
theorem tree_navigation (built : Built m) {node : TeTree} (found : m.node r = some node) (top : node.parent = none) :
    ∃ w, Navigates m.node r w := by
  obtain ⟨r',kids,is,mem⟩ := built.grown.tree_of found
  obtain rfl : r = r' := by
    rcases mem_cons.mp mem with same | below
    · exact same
    · obtain ⟨q,children,found'⟩ := is.linked.inner below
      obtain rfl := some.inj (found.symm.trans found')
      cases top
  have whole : (Wood.node r kids .nil).preorder = r :: kids.preorder := by rw [Wood.preorder,Wood.preorder,append_nil]
  have placed := is.placed
  have right := @right_leads m.node (.node r kids .nil) none none none placed rfl
  have left := @left_leads m.node (.node r kids .nil) none none none placed rfl
  have rightLeaf := @right_leaf_leads m.node (.node r kids .nil) none none none none placed rfl rfl
  have leftLeaf := @left_leaf_leads m.node (.node r kids .nil) none none none none placed rfl rfl
  have linked : Linked m.node none (.node r kids .nil) := ⟨is.root,is.linked,trivial⟩
  obtain ⟨first,firstLeaf⟩ : ∃ first, (Wood.node r kids .nil).leaves.head? = some first :=
    ne_none_iff_exists'.mp fun no => Wood.leaves_ne (.node r kids .nil) (by simp) (List.head?_eq_none_iff.mp no)
  refine ⟨.node r kids .nil,⟨⟨rfl,linked⟩,fun a => ⟨fun mem => is.root_of (whole ▸ mem),fun root => ?_⟩,whole ▸ is.distinct,
    fun a => ⟨linked.leaf_bare,fun leaf => leaf.2.elim fun _ bare => linked.bare_leaf bare.1 bare.2 leaf.1⟩,right.repeated,fun a memA b memB => right.inverse left Settles.fixed Settles.fixed memA memB,
    ⟨first,firstLeaf ▸ leftmost_leaf_first placed rfl,firstLeaf ▸ rightLeaf.repeated⟩,
    fun a memA b memB => rightLeaf.inverse leftLeaf Settles.fixed Settles.fixed memA memB,
    fun σ minlevel maxlevel pre post data => traverse_walk placed data⟩⟩
  -- a node whose root this is lies in this tree
  obtain ⟨n,reached⟩ := root
  cases here : m.node a with
  | none =>
    have missing := reached (n+1) (le_succ n)
    simp only [te_tree_root,te_tree_parent,here,map_none,bind_eq_bind,bind_none] at missing
    cases missing
  | some node' =>
    obtain ⟨r',kids',is',mem'⟩ := built.grown.tree_of here
    obtain rfl : r = r' := some.inj (Settles.unique ⟨n,reached⟩ (is'.root_of mem'))
    obtain rfl : kids' = kids := is'.linked.unique is.linked (congrArg TeTree.children (some.inj (is'.root.symm.trans is.root)))
    exact whole ▸ mem'

/-- A root with a child. -/
def twoNodes : TreeMemory :=
  (te_tree_add_child (te_tree_alloc (te_tree_alloc ⟨fun _ => none,0⟩).2).2 0 1).getD ⟨fun _ => none,0⟩
theorem tree_navigation_two : ∃ w, Navigates twoNodes.node 0 w := by
  have alone : Built (te_tree_alloc (te_tree_alloc ⟨fun _ => none,0⟩).2).2 := .alloc (.alloc .empty)
  have root : Settles (te_tree_root (te_tree_alloc (te_tree_alloc ⟨fun _ => none,0⟩).2).2.node · 0) (some 0) :=
    Settles.of_succ (Settles.always fun _ => rfl)
  have added : te_tree_add_child (te_tree_alloc (te_tree_alloc ⟨fun _ => none,0⟩).2).2 0 1 = some twoNodes := rfl
  have built : Built twoNodes := .add_child alone added fun other => by cases root.unique other
  exact tree_navigation built rfl rfl
end
end TestEnvironment.Tools
