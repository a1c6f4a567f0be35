import TestEnvironment.Trc.DbWalker

/-!
Databases that are trees, and the moves of a walker through them.
-/
namespace TestEnvironment.Trc
open Lib
variable {Expected : Type}

inductive TrcElement
  | test (test : Nat)
  | iter (iter : Nat)
  deriving DecidableEq, Repr

section
variable (db : TeTrcDb Expected)

def InDb : TrcElement → Prop
  | .test t => (db.testCells.get t).isSome
  | .iter i => (db.iterCells.get i).isSome
/-- The children of an element, those of the root included. -/
def childrenOf : Option TrcElement → List TrcElement
  | none => db.tests.map .test
  | some (.test t) => ((itersOf db t).getD []).map .iter
  | some (.iter i) => ((testsOf db (some i)).getD []).map .test
def fatherOf : TrcElement → Option TrcElement
  | .test t => ((db.testCells.get t).bind TrcTest.parent).map .iter
  | .iter i => (db.iterCells.get i).map fun cell => .test cell.parent
/-- Each element is there, below its father, with the children given. -/
def Cells : Option TrcElement → Wood TrcElement → Prop
  | _, .nil => True
  | father, .node e kids rest =>
    InDb db e ∧ fatherOf db e = father ∧ childrenOf db (some e) = kids.roots ∧ Cells (some e) kids ∧ Cells father rest
/-- The database is a tree, and nothing else is in it. -/
structure IsTree (w : Wood TrcElement) : Prop where
  top : childrenOf db none = w.roots
  cells : Cells db none w
  distinct : w.preorder.Nodup
  whole : ∀ e, InDb db e → e ∈ w.preorder

def trcLinks : TreeLinks TrcElement where
  first := fun e => (childrenOf db e).head?
  next := fun e => match e with
    | .test t => ((nextTest db t).getD none).map .test
    | .iter i => ((nextIter db i).getD none).map .iter
  father := fatherOf db
end

section
variable {db : TeTrcDb Expected} {w : Wood TrcElement} {father : Option TrcElement} {e : TrcElement}

theorem tailqNext_split {front rest : List Nat} {x : Nat} (new : x ∉ front) : tailqNext (front ++ x :: rest) x = rest.head? := by
  induction front with
  | nil => exact if_pos rfl
  | cons a front ih => simp_all [Ne.symm,tailqNext]
variable {front : List TrcElement}

/-- A queue is split where its elements are. -/
theorem queue_split {make : Nat → TrcElement} (inj : Function.Injective make) {queue : List Nat} {rest : List TrcElement} {x : Nat}
    (split : queue.map make = front ++ make x :: rest) (new : make x ∉ front) : (tailqNext queue x).map make = rest.head? := by
  obtain ⟨before,behind,rfl,rfl,same⟩ := List.map_eq_append_iff.mp split
  obtain ⟨y,behind,rfl,here,rfl⟩ := List.map_eq_cons_iff.mp same
  cases inj here
  rw [tailqNext_split fun member => new (mem_map_of_mem member),List.head?_map]
theorem Cells.member (cells : Cells db father w) (member : e ∈ w.preorder) : InDb db e := by
  induction w generalizing father with
  | nil => cases member
  | node a kids rest first second =>
    obtain ⟨here,-,-,below,behind⟩ := cells
    obtain rfl | member := mem_cons.mp member
    · exact here
    · grind
theorem next_test {t : Nat} {cell : TrcTest} (found : db.testCells.get t = some cell) :
    (trcLinks db).next (.test t) = (tailqNext ((testsOf db cell.parent).getD []) t).map .test := by
  simp only [trcLinks,nextTest,found,bind,Option.bind]
  cases testsOf db cell.parent <;> rfl
theorem next_iter {i : Nat} {cell : TrcTestIter Expected} (found : db.iterCells.get i = some cell) :
    (trcLinks db).next (.iter i) = (tailqNext ((itersOf db cell.parent).getD []) i).map .iter := by
  simp only [trcLinks,nextIter,found,bind,Option.bind]
  cases itersOf db cell.parent <;> rfl
theorem Cells.next (cells : Cells db father (.node e kids rest))
    (queue : childrenOf db father = front ++ e :: rest.roots) (new : e ∉ front) : (trcLinks db).next e = rest.roots.head? := by
  obtain ⟨here,rfl,-⟩ := cells
  cases e with
  | test t =>
    obtain ⟨cell,found⟩ := isSome_iff_exists.mp here
    have queue' : ((testsOf db cell.parent).getD []).map TrcElement.test = front ++ .test t :: rest.roots := by
      rw [← queue,fatherOf,found,bind_some]
      cases cell.parent <;> rfl
    rw [next_test found]
    exact queue_split (fun _ _ same => TrcElement.test.inj same) queue' new
  | iter i =>
    obtain ⟨cell,found⟩ := isSome_iff_exists.mp here
    have queue' : ((itersOf db cell.parent).getD []).map TrcElement.iter = front ++ .iter i :: rest.roots := by
      rw [← queue,fatherOf,found]
      rfl
    rw [next_iter found]
    exact queue_split (fun _ _ same => TrcElement.iter.inj same) queue' new
/-- The elements behind some of a queue are linked. -/
theorem Cells.linked (cells : Cells db father w) (queue : childrenOf db father = front ++ w.roots)
    (apart : (front ++ w.roots).Nodup) (distinct : w.preorder.Nodup) : (trcLinks db).Linked father w := by
  induction w generalizing father front with
  | nil => trivial
  | node e kids rest first second =>
    have new : e ∉ front := fun member => (nodup_append.mp apart).2.2 e member e mem_cons_self rfl
    have next := cells.next queue new
    obtain ⟨-,above,children,below,behind⟩ := cells
    obtain ⟨-,parts⟩ := nodup_cons.mp distinct
    obtain ⟨inside,later,-⟩ := nodup_append.mp parts
    refine ⟨above,next,congrArg List.head? children,?_,?_⟩
    · exact first below (show childrenOf db (some e) = [] ++ kids.roots from children) (List.Sublist.nodup kids.roots_sublist inside) inside
    · have same : front ++ e :: rest.roots = (front ++ [e]) ++ rest.roots := by rw [append_assoc]; rfl
      exact second behind (queue.trans same) (same ▸ apart) later
theorem IsTree.linked (tree : IsTree db w) : (trcLinks db).Linked none w :=
  tree.cells.linked (show childrenOf db none = [] ++ w.roots from tree.top) (List.Sublist.nodup w.roots_sublist tree.distinct) tree.distinct
end

section
variable {db : TeTrcDb Expected} {w : Wood TrcElement} {walker : TeTrcDbWalker} {e : TrcElement}

/-- The element that the walker is at. -/
def TeTrcDbWalker.element (walker : TeTrcDbWalker) : Option TrcElement :=
  if walker.motion = .ROOT then none else if walker.is_iter then walker.iter.map .iter else walker.test.map .test
/-- The walker came to a place of the walk. -/
def Stands (walker : TeTrcDbWalker) (s : Motion × Option TrcElement) : Prop :=
  walker.motion = s.1 ∧ walker.element = s.2 ∧ (s.2 = none ↔ s.1 = .ROOT)

/-- The walker is on the level of the element, and points to it there. -/
def Points (walker : TeTrcDbWalker) : TrcElement → Prop
  | .test t => walker.is_iter = false ∧ walker.test = some t
  | .iter i => walker.is_iter = true ∧ walker.iter = some i

variable {motion : Motion} {s : Motion × Option TrcElement}

theorem stands_points (stands : Stands walker (motion,some e)) : walker.motion = motion ∧ motion ≠ .ROOT ∧ Points walker e := by
  obtain ⟨same,element,root⟩ := stands
  have down : motion ≠ .ROOT := fun top => some_ne_none _ (root.mpr top)
  rw [TeTrcDbWalker.element,if_neg (by rw [same]; exact down)] at element
  refine ⟨same,down,?_⟩
  cases e with
  | test t | iter i => split at element <;> simp_all [Points]
theorem points_stands (down : motion ≠ .ROOT) (motion' : walker.motion = motion) (points : Points walker e) :
    Stands walker (motion,some e) := by
  refine ⟨motion',?_,fun none => absurd none (some_ne_none _),fun top => absurd top down⟩
  rw [TeTrcDbWalker.element,if_neg (by rw [motion']; exact down)]
  cases e with
  | test t => simp [points.1,points.2]
  | iter i => simp [points.1,points.2]
theorem leave_stands (here : InDb db e) (points : Points walker e) (above : ∀ f, fatherOf db e = some f → InDb db f) :
    ∃ walker', leaveElement db walker = some (((trcLinks db).leave e).1,walker') ∧ Stands walker' ((trcLinks db).leave e) := by
  rw [TreeLinks.leave]
  unfold leaveElement
  cases e with
  | test t =>
    obtain ⟨level,test⟩ := points
    obtain ⟨cell,found⟩ := isSome_iff_exists.mp here
    have father : fatherOf db (.test t) = cell.parent.map .iter := by rw [fatherOf,found,bind_some]
    obtain ⟨next,queue⟩ : ∃ next, nextTest db t = some next := by
      simp only [nextTest,found,bind,Option.bind]
      cases parent : cell.parent with
      | none => exact ⟨_,rfl⟩
      | some p =>
        rw [parent] at father
        obtain ⟨up,there⟩ := isSome_iff_exists.mp (above _ father)
        simp only [testsOf,there,map_some]
        exact ⟨_,rfl⟩
    have links : (trcLinks db).next (.test t) = next.map .test := by simp only [trcLinks,queue]; rfl
    rw [links,show (trcLinks db).father (.test t) = _ from father]
    simp only [level,test,queue,bind,Option.bind]
    cases next with
    | some next => exact ⟨_,rfl,points_stands (by decide) rfl ⟨rfl,rfl⟩⟩
    | none =>
      simp only [found]
      cases parent : cell.parent with
      | none => exact ⟨_,rfl,rfl,if_pos rfl,fun _ => rfl,fun _ => rfl⟩
      | some i => exact ⟨_,rfl,points_stands (by decide) rfl ⟨rfl,rfl⟩⟩
  | iter i =>
    obtain ⟨level,iter⟩ := points
    obtain ⟨cell,found⟩ := isSome_iff_exists.mp here
    have father : fatherOf db (.iter i) = some (.test cell.parent) := by rw [fatherOf,found,map_some]
    obtain ⟨next,queue⟩ : ∃ next, nextIter db i = some next := by
      obtain ⟨up,there⟩ := isSome_iff_exists.mp (above _ father)
      simp only [nextIter,found,bind,Option.bind,itersOf,there,map_some]
      exact ⟨_,rfl⟩
    have links : (trcLinks db).next (.iter i) = next.map .iter := by simp only [trcLinks,queue]; rfl
    rw [links,show (trcLinks db).father (.iter i) = _ from father]
    simp only [level,iter,queue,bind,Option.bind]
    cases next with
    | some next => exact ⟨_,rfl,points_stands (by decide) rfl ⟨rfl,rfl⟩⟩
    | none =>
      simp only [found]
      exact ⟨_,rfl,points_stands (by decide) rfl ⟨rfl,rfl⟩⟩
theorem enter_stands (entered : motion = .SON ∨ motion = .BROTHER) (inDb : InDb db e)
    (above : ∀ f, fatherOf db e = some f → InDb db f) (stands : Stands walker (motion,some e)) :
    ∃ walker', trc_db_walker_move db walker = some (((trcLinks db).move (motion,some e)).1,walker') ∧
      Stands walker' ((trcLinks db).move (motion,some e)) := by
  obtain ⟨same,-,points⟩ := stands_points stands
  cases e with
  | test t =>
    obtain ⟨level,test⟩ := points
    obtain ⟨cell,found⟩ := isSome_iff_exists.mp inDb
    have iters : itersOf db t = some cell.iters := by rw [itersOf,found,map_some]
    have first : (trcLinks db).first (some (.test t)) = cell.iters.head?.map .iter := by simp [iters,trcLinks,childrenOf]
    have leave := @leave_stands _ db {walker with iter := none} (.test t) inDb ⟨level,test⟩ above
    cases head : cell.iters.head? with
    | none => obtain rfl | rfl := entered <;> simp_all [trc_db_walker_move,TreeLinks.move]
    | some i =>
      have down := @points_stands {walker with iter := some i, is_iter := true, motion := .SON} (.iter i) .SON (by decide) rfl ⟨rfl,rfl⟩
      obtain rfl | rfl := entered <;> simp_all [trc_db_walker_move,TreeLinks.move]
  | iter i =>
    obtain ⟨level,iter⟩ := points
    obtain ⟨cell,found⟩ := isSome_iff_exists.mp inDb
    have tests : testsOf db (some i) = some cell.tests := by rw [testsOf,found,map_some]
    have first : (trcLinks db).first (some (.iter i)) = cell.tests.head?.map .test := by simp [tests,trcLinks,childrenOf]
    have leave := @leave_stands _ db {walker with test := none} (.iter i) inDb ⟨level,iter⟩ above
    cases head : cell.tests.head? with
    | none => obtain rfl | rfl := entered <;> simp_all [trc_db_walker_move,TreeLinks.move]
    | some t =>
      have down := @points_stands {walker with test := some t, is_iter := false, motion := .SON} (.test t) .SON (by decide) rfl ⟨rfl,rfl⟩
      obtain rfl | rfl := entered <;> simp_all [trc_db_walker_move,TreeLinks.move]
theorem move_stands (here : ∀ e, s.2 = some e → InDb db e ∧ ∀ f, fatherOf db e = some f → InDb db f)
    (stands : Stands walker s) :
    ∃ walker', trc_db_walker_move db walker = some (((trcLinks db).move s).1,walker') ∧ Stands walker' ((trcLinks db).move s) := by
  obtain ⟨motion,place⟩ := s
  cases place with
  | none =>
    obtain rfl := stands.2.2.mp rfl
    have same : walker.motion = .ROOT := stands.1
    have first : (trcLinks db).first none = db.tests.head?.map .test := List.head?_map
    rw [TreeLinks.move,first]
    simp only [trc_db_walker_move,same]
    cases db.tests.head? with
    | none => exact ⟨_,rfl,rfl,rfl,fun _ => rfl,fun _ => rfl⟩
    | some t => exact ⟨_,rfl,points_stands (by decide) rfl ⟨rfl,rfl⟩⟩
  | some e =>
    obtain ⟨inDb,above⟩ := here e rfl
    have entered (down : motion ≠ .ROOT) (up : motion ≠ .FATHER) : motion = .SON ∨ motion = .BROTHER := by
      cases motion <;> simp at down up ⊢
    obtain ⟨same,down,points⟩ := stands_points stands
    by_cases up : motion = .FATHER
    · subst up
      simp only [trc_db_walker_move,same]
      exact leave_stands inDb points above
    · exact enter_stands (entered down up) inDb above stands
/-- Moves one after the other, with the element that each comes to. -/
def walk (db : TeTrcDb Expected) : Nat → TeTrcDbWalker → Option (List (Motion × Option TrcElement) × TeTrcDbWalker)
  | 0, walker => some ([],walker)
  | n+1, walker => do
    let (motion,walker) ← trc_db_walker_move db walker
    let (places,last) ← walk db n walker
    some ((motion,walker.element) :: places,last)
theorem walk_goes {l : List (Motion × Option TrcElement)} (goes : (trcLinks db).Goes s l)
    (here : ∀ t ∈ s :: l, ∀ e, t.2 = some e → InDb db e ∧ ∀ f, fatherOf db e = some f → InDb db f) (stands : Stands walker s) :
    ∃ last, walk db l.length walker = some (l,last) := by
  induction l generalizing s walker with
  | nil => exact ⟨walker,rfl⟩
  | cons t l ih =>
    obtain ⟨step,rest⟩ := goes
    obtain ⟨walker',moved,stands'⟩ := move_stands (here s mem_cons_self) stands
    rw [step] at moved stands'
    obtain ⟨last,run⟩ := ih rest (fun u member => here u (mem_cons_of_mem s member)) stands'
    refine ⟨last,?_⟩
    rw [length_cons,walk]
    simp only [moved,run,bind,Option.bind]
    rw [stands'.2.1]
theorem Cells.above {father : Option TrcElement} {e f : TrcElement} (cells : Cells db father w) (known : ∀ f, father = some f → InDb db f)
    (member : e ∈ w.preorder) (up : fatherOf db e = some f) : InDb db f := by
  induction w generalizing father with
  | nil => cases member
  | node a kids rest first second =>
    obtain ⟨here,above,-,below,behind⟩ := cells
    obtain rfl | member := mem_cons.mp member
    · exact known f (above.symm.trans up)
    · grind
/-- What a new walker comes to, up to the root again. -/
theorem new_walker_walk (tree : IsTree db w) :
    ∃ last, walk db ((w.tour .SON).length+1) trc_db_new_walker = some (TreeLinks.places (w.tour .SON) ++ [(.ROOT,none)],last) := by
  have goes := tree.linked.walk (congrArg List.head? tree.top) .ROOT
  have length : (TreeLinks.places (w.tour .SON) ++ [(Motion.ROOT,none)]).length = (w.tour .SON).length+1 := by simp [TreeLinks.places]
  rw [← length]
  refine walk_goes goes (fun t member e at' => ?_) ⟨rfl,rfl,fun _ => rfl,fun _ => rfl⟩
  have inTree : e ∈ w.preorder := by
    obtain rfl | member := mem_cons.mp member
    · cases at'
    · obtain member | last := mem_append.mp member
      · obtain ⟨step,visited,rfl⟩ := mem_map.mp member
        cases at'
        exact Wood.tour_mem visited
      · rw [mem_singleton.mp last] at at'
        cases at'
  exact ⟨tree.cells.member inTree,fun f up => tree.cells.above (fun _ none => by cases none) inTree up⟩
end
end TestEnvironment.Trc
