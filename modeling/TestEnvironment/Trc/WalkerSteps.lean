import TestEnvironment.Trc.WalkerMoves

/-!
Steps of a walker to tests and iterations by their names and arguments, and back again.
-/
namespace TestEnvironment.Trc
open Lib
open Lib.TreeLinks (entered returned)
variable {Expected : Type}

section
variable {db db' db'' : TeTrcDb Expected}

/-- The elements of the queues are there and know their parents. -/
structure Parents (db : TeTrcDb Expected) : Prop where
  tests : ∀ iter queue, testsOf db iter = some queue → ∀ t ∈ queue, ∃ cell, db.testCells.get t = some cell ∧ cell.parent = iter
  iters : ∀ test queue, itersOf db test = some queue → ∀ i ∈ queue, ∃ cell, db.iterCells.get i = some cell ∧ cell.parent = test
/-- Elements stay there, and their parents the same. -/
structure Grows (db db' : TeTrcDb Expected) : Prop where
  tests : ∀ t cell, db.testCells.get t = some cell → ∃ cell', db'.testCells.get t = some cell' ∧ cell'.parent = cell.parent
  iters : ∀ i cell, db.iterCells.get i = some cell → ∃ cell', db'.iterCells.get i = some cell' ∧ cell'.parent = cell.parent

theorem Grows.refl (db : TeTrcDb Expected) : Grows db db := ⟨fun _ cell found => ⟨cell,found,rfl⟩,fun _ cell found => ⟨cell,found,rfl⟩⟩
theorem Grows.trans (first : Grows db db') (second : Grows db' db'') : Grows db db'' where
  tests := fun t cell found => by
    obtain ⟨cell',found',same⟩ := first.tests t cell found
    obtain ⟨cell'',found'',same'⟩ := second.tests t cell' found'
    exact ⟨cell'',found'',same'.trans same⟩
  iters := fun i cell found => by
    obtain ⟨cell',found',same⟩ := first.iters i cell found
    obtain ⟨cell'',found'',same'⟩ := second.iters i cell' found'
    exact ⟨cell'',found'',same'.trans same⟩
theorem mem_insertBefore {queue : List Nat} {before new x : Nat} (member : x ∈ tailqInsertBefore queue before new) : x ∈ queue ∨ x = new := by
  induction queue with
  | nil => cases member
  | cons a queue ih => grind [tailqInsertBefore]

/-- A change of what is expected of an iteration. -/
theorem modify_expected (i : Nat) (f : Expected → Expected) (b : Nat) :
    (db.iterCells.modify i fun cell => {cell with expected := f cell.expected}).get b =
      if b = i then (db.iterCells.get i).map (fun cell => {cell with expected := f cell.expected}) else db.iterCells.get b :=
  Heap.get_modify _ _ _ _
theorem split_grows (i : Nat) (f : Expected → Expected) :
    Grows db {db with iterCells := db.iterCells.modify i fun cell => {cell with expected := f cell.expected}} where
  tests := fun _ cell found => ⟨cell,found,rfl⟩
  iters := fun j cell found => by
    by_cases here : j = i
    · subst here
      exact ⟨{cell with expected := f cell.expected},by rw [modify_expected,if_pos rfl,found]; rfl,rfl⟩
    · exact ⟨cell,by rw [modify_expected,if_neg here,found],rfl⟩
theorem split_parents (parents : Parents db) (i : Nat) (f : Expected → Expected) :
    Parents {db with iterCells := db.iterCells.modify i fun cell => {cell with expected := f cell.expected}} where
  tests := fun iter queue known t member => by
    refine parents.tests iter queue ?_ t member
    cases iter with
    | none => exact known
    | some j =>
      simp only [testsOf,modify_expected] at known ⊢
      split at known
      · simp_all
      · exact known
  iters := fun test queue known j member => by
    obtain ⟨cell,found,same⟩ := parents.iters test queue known j member
    obtain ⟨cell',found',same'⟩ := (split_grows i f).iters j cell found
    exact ⟨cell',found',same'.trans same⟩
/-- A new test behind those of its parent. -/
theorem new_test_grows (parent : Option Nat) (name : CStr) (file : Option CStr) : Grows db (trc_db_new_test db parent name file) where
  tests := fun t cell found => by
    have old : t ≠ db.testCells.fresh := ne_of_lt (Heap.lt_size found)
    refine ⟨cell,?_,rfl⟩
    cases parent <;> simp only [trc_db_new_test] <;> rw [Heap.get_alloc,if_neg old,found]
  iters := fun i cell found => by
    cases parent with
    | none => exact ⟨cell,found,rfl⟩
    | some p =>
      simp only [trc_db_new_test,Heap.get_modify]
      split
      · grind
      · exact ⟨cell,found,rfl⟩
theorem new_test_cell (parent : Option Nat) (name : CStr) (file : Option CStr) :
    (trc_db_new_test db parent name file).testCells.get db.testCells.fresh = some ⟨parent,name,[],file⟩ := by
  cases parent <;> simp only [trc_db_new_test] <;> rw [Heap.get_alloc,if_pos rfl]
theorem new_test_parents (parents : Parents db) (parent : Option Nat) (name : CStr) (file : Option CStr) :
    Parents (trc_db_new_test db parent name file) where
  tests := fun iter queue known t member => by
    have old (queue' : List Nat) (known' : testsOf db iter = some queue') (member' : t ∈ queue') :
        ∃ cell, (trc_db_new_test db parent name file).testCells.get t = some cell ∧ cell.parent = iter := by
      obtain ⟨cell,found,same⟩ := parents.tests iter queue' known' t member'
      obtain ⟨cell',found',same'⟩ := (new_test_grows parent name file).tests t cell found
      exact ⟨cell',found',same'.trans same⟩
    have added (queue' : List Nat) (known' : testsOf db iter = some queue') (member' : t ∈ queue' ++ [db.testCells.fresh])
        (here : parent = iter) : ∃ cell, (trc_db_new_test db parent name file).testCells.get t = some cell ∧ cell.parent = iter := by
      grind [new_test_cell]
    cases parent with
    | none =>
      cases iter with
      | none =>
        cases known
        exact added db.tests rfl member rfl
      | some i => exact old queue known member
    | some p =>
      cases iter with
      | none => exact old queue known member
      | some i =>
        simp only [trc_db_new_test,testsOf,Heap.get_modify] at known
        split at known
        · next here =>
          subst here
          rw [Option.map_map] at known
          obtain ⟨cell,found,rfl⟩ := of_map known
          exact added cell.tests (by rw [testsOf,found]; rfl) member rfl
        · exact old queue known member
  iters := fun test queue known i member => by
    by_cases new : test = db.testCells.fresh
    · subst new
      rw [itersOf,new_test_cell] at known
      cases known
      cases member
    · have known' : itersOf db test = some queue := by
        rw [← known]
        cases parent <;> simp only [itersOf,trc_db_new_test] <;> rw [Heap.get_alloc,if_neg new]
      obtain ⟨cell,found,same⟩ := parents.iters test queue known' i member
      obtain ⟨cell',found',same'⟩ := (new_test_grows parent name file).iters i cell found
      exact ⟨cell',found',same'.trans same⟩
end

section
variable {db : TeTrcDb Expected} {ops : ExpectedOps Expected} {test : Nat} {testFile : Option CStr} {args : List TrcReportArgument}
  {names : List CStr} {copy : Option Nat} {user unspec : Bool}

theorem new_iter_cell : ∃ cell, (newTestIter ops db test testFile args names copy user unspec).iterCells.get db.iterCells.fresh = some cell ∧
    cell.parent = test ∧ cell.tests = [] := by
  simp only [newTestIter,Heap.get_alloc,if_true]
  exact ⟨_,rfl,rfl,rfl⟩
theorem new_iter_old {i : Nat} (old : i ≠ db.iterCells.fresh) :
    (newTestIter ops db test testFile args names copy user unspec).iterCells.get i = db.iterCells.get i := by
  simp only [newTestIter,Heap.get_alloc]
  rw [if_neg old]
theorem new_iter_test (t : Nat) : ∃ insert : List Nat → List Nat, (∀ queue x, x ∈ insert queue → x ∈ queue ∨ x = db.iterCells.fresh) ∧
    (newTestIter ops db test testFile args names copy user unspec).testCells.get t =
      if t = test then (db.testCells.get test).map (fun cell => {cell with iters := insert cell.iters}) else db.testCells.get t := by
  cases copy with
  | none =>
    refine ⟨fun queue => queue ++ [db.iterCells.fresh],?_,Heap.get_modify _ _ _ _⟩
    intro queue x member
    exact (mem_append.mp member).imp_right mem_singleton.mp
  | some before => exact ⟨fun queue => tailqInsertBefore queue before db.iterCells.fresh,fun _ _ => mem_insertBefore,Heap.get_modify _ _ _ _⟩
theorem new_iter_grows : Grows db (newTestIter ops db test testFile args names copy user unspec) where
  tests := fun t cell found => by
    obtain ⟨insert,-,get⟩ := @new_iter_test _ db ops test testFile args names copy user unspec t
    rw [get]
    split
    · grind
    · exact ⟨cell,found,rfl⟩
  iters := fun i cell found => ⟨cell,by rw [new_iter_old (ne_of_lt (Heap.lt_size found)),found],rfl⟩
theorem new_iter_parents (parents : Parents db) : Parents (newTestIter ops db test testFile args names copy user unspec) where
  tests := fun iter queue known t member => by
    have old (known' : testsOf db iter = some queue) : ∃ cell,
        (newTestIter ops db test testFile args names copy user unspec).testCells.get t = some cell ∧ cell.parent = iter := by
      obtain ⟨cell,found,same⟩ := parents.tests iter queue known' t member
      obtain ⟨cell',found',same'⟩ := new_iter_grows.tests t cell found
      exact ⟨cell',found',same'.trans same⟩
    cases iter with
    | none => exact old known
    | some i =>
      by_cases new : i = db.iterCells.fresh
      · subst new
        obtain ⟨cell,found,-,empty⟩ := @new_iter_cell _ db ops test testFile args names copy user unspec
        rw [testsOf,found,map_some,empty] at known
        cases known
        cases member
      · rw [testsOf,new_iter_old new] at known
        exact old known
  iters := fun t queue known i member => by
    have old (queue' : List Nat) (known' : itersOf db t = some queue') (member' : i ∈ queue') : ∃ cell,
        (newTestIter ops db test testFile args names copy user unspec).iterCells.get i = some cell ∧ cell.parent = t := by
      obtain ⟨cell,found,same⟩ := parents.iters t queue' known' i member'
      obtain ⟨cell',found',same'⟩ := new_iter_grows.iters i cell found
      exact ⟨cell',found',same'.trans same⟩
    obtain ⟨insert,inserted,get⟩ := @new_iter_test _ db ops test testFile args names copy user unspec t
    rw [itersOf,get] at known
    split at known
    · next here =>
      subst here
      rw [Option.map_map] at known
      obtain ⟨cell,found,rfl⟩ := of_map known
      obtain before | rfl := inserted _ _ member
      · exact old cell.iters (by rw [itersOf,found]; rfl) before
      · obtain ⟨new,there,up,-⟩ := @new_iter_cell _ db ops t testFile args names copy user unspec
        exact ⟨new,there,up⟩
    · exact old queue known member
end

section
variable {db : TeTrcDb Expected}

/-- The pointer that the walker comes back to is the one to an iteration. -/
def TeTrcDbWalker.knownIter (walker : TeTrcDbWalker) : Bool := xor walker.is_iter (decide (walker.unknown%2 = 1))
/-- The level of the walker, how far it is in the unknown, and the last element known. -/
def TeTrcDbWalker.position (walker : TeTrcDbWalker) : Bool × Nat × (Option Nat ⊕ Option Nat) :=
  (walker.is_iter,walker.unknown,if walker.knownIter then .inl walker.iter else .inr walker.test)

theorem position_known (walker : TeTrcDbWalker) (known : walker.unknown = 0) :
    walker.position = (walker.is_iter,0,if walker.is_iter then .inl walker.iter else .inr walker.test) := by
  simp [known,TeTrcDbWalker.knownIter,TeTrcDbWalker.position]
theorem back_unknown {walker : TeTrcDbWalker} (unknown : 0 < walker.unknown) :
    ({walker with unknown := walker.unknown-1, is_iter := !walker.is_iter} : TeTrcDbWalker).position =
      (!walker.is_iter,walker.unknown-1,if walker.knownIter then .inl walker.iter else .inr walker.test) := by
  grind [TeTrcDbWalker.knownIter,TeTrcDbWalker.position]
theorem back_iter {walker : TeTrcDbWalker} (known : walker.unknown = 0) (iter : walker.is_iter = true) :
    (trc_db_walker_step_back db walker).map TeTrcDbWalker.position =
      (walker.iter.bind db.iterCells.get).map fun cell => (false,0,.inr (some cell.parent)) := by
  rw [trc_db_walker_step_back,if_neg (by omega),if_pos iter]
  cases here : walker.iter with
  | none => rfl
  | some i =>
    cases found : db.iterCells.get i with
    | none => simp [found]
    | some cell => simp [found,known,position_known]
theorem back_test {walker : TeTrcDbWalker} (known : walker.unknown = 0) (test : walker.is_iter = false) :
    (trc_db_walker_step_back db walker).map TeTrcDbWalker.position =
      (walker.test.bind db.testCells.get).map fun cell => (true,0,.inl cell.parent) := by
  rw [trc_db_walker_step_back,if_neg (by omega),if_neg (by rw [test]; exact Bool.false_ne_true)]
  cases here : walker.test with
  | none => rfl
  | some t =>
    cases found : db.testCells.get t with
    | none => simp [found]
    | some cell => simp [found,known,position_known]
/-- Where a walker steps back to depends on its position only. -/
theorem back_congr {walker walker' : TeTrcDbWalker} (same : walker'.position = walker.position) :
    (trc_db_walker_step_back db walker').map TeTrcDbWalker.position = (trc_db_walker_step_back db walker).map TeTrcDbWalker.position := by
  have level : walker'.is_iter = walker.is_iter := congrArg Prod.fst same
  have depth : walker'.unknown = walker.unknown := congrArg (fun p => p.2.1) same
  by_cases unknown : 0 < walker.unknown
  · have last : (if walker'.knownIter then Sum.inl walker'.iter else Sum.inr walker'.test) =
        (if walker.knownIter then Sum.inl walker.iter else Sum.inr walker.test) := congrArg (fun p => p.2.2) same
    rw [trc_db_walker_step_back,trc_db_walker_step_back,if_pos unknown,if_pos (by rw [depth]; exact unknown),map_some,map_some,
      back_unknown unknown,back_unknown (by rw [depth]; exact unknown),last,level,depth]
  · have known : walker.unknown = 0 := by omega
    rw [position_known walker known,position_known walker' (depth.trans known),level] at same
    cases iter : walker.is_iter with
    | true => grind [back_iter]
    | false => grind [back_test]
end

section
variable (ops : ExpectedOps Expected) (trc_db_compare_values : CStr → CStr → Int)

/-- A call of one of the functions that step to a test or an iteration. -/
inductive StepCall (Expected : Type)
  | step_test (test_name : CStr) (force : Bool)
  | step_iter (args : List TrcReportArgument) (flags : StepIterFlags)
      (func_args_match : Option (TrcTestIter Expected → List TrcReportArgument → IterMatch))
def stepCall (db : TeTrcDb Expected) (walker : TeTrcDbWalker) : StepCall Expected → Option (Bool × TeTrcDb Expected × TeTrcDbWalker)
  | .step_test test_name force => trc_db_walker_step_test db walker test_name force
  | .step_iter args flags func => trc_db_walker_step_iter ops trc_db_compare_values func db walker args flags
def stepCalls (db : TeTrcDb Expected) (walker : TeTrcDbWalker) : List (StepCall Expected) → Option (TeTrcDb Expected × TeTrcDbWalker)
  | [] => some (db,walker)
  | call :: calls => do
    let (_,db,walker) ← stepCall ops trc_db_compare_values db walker call
    stepCalls db walker calls
def stepsBack (db : TeTrcDb Expected) (walker : TeTrcDbWalker) : Nat → Option TeTrcDbWalker
  | 0 => some walker
  | n+1 => do trc_db_walker_step_back db (← stepsBack db walker n)
/-- The calls go from iterations to tests and from tests to iterations in turn. -/
def Alternates : Bool → List (StepCall Expected) → Prop
  | _, [] => True
  | is_iter, .step_test _ _ :: calls => is_iter = true ∧ Alternates false calls
  | is_iter, .step_iter _ _ _ :: calls => is_iter = false ∧ Alternates true calls
/-- The element that the walker is at is one of the database, or the root. -/
def Placed (db : TeTrcDb Expected) (walker : TeTrcDbWalker) : Prop :=
  walker.unknown = 0 → if walker.is_iter then ∀ i, walker.iter = some i → (db.iterCells.get i).isSome
    else ∃ t, walker.test = some t ∧ (db.testCells.get t).isSome

variable {ops trc_db_compare_values} {db db' : TeTrcDb Expected} {walker walker' : TeTrcDbWalker}

/-- A step that can be taken back: the walker knows its place, and whatever is added to the database, it gets back to where it was. -/
structure Steps (db : TeTrcDb Expected) (walker : TeTrcDbWalker) (db' : TeTrcDb Expected) (walker' : TeTrcDbWalker) : Prop where
  parents : Parents db'
  grows : Grows db db'
  placed : Placed db' walker'
  level : walker'.is_iter = !walker.is_iter
  back : ∀ db'', Grows db' db'' → (trc_db_walker_step_back db'' walker').map TeTrcDbWalker.position = some walker.position

/-- Deeper in the unknown, from anywhere. -/
theorem deeper_steps (parents : Parents db) {other : TeTrcDbWalker} (depth : other.unknown = walker.unknown+1)
    (level : other.is_iter = !walker.is_iter) (known : (if walker.knownIter then Sum.inl other.iter else Sum.inr other.test) =
      (if walker.knownIter then Sum.inl walker.iter else Sum.inr walker.test)) : Steps db walker db other where
  parents := parents
  grows := .refl db
  placed := fun none => by omega
  level := level
  back := fun db'' _ => by
    have deep : 0 < other.unknown := by omega
    have side : other.knownIter = walker.knownIter := by grind [TeTrcDbWalker.knownIter]
    rw [trc_db_walker_step_back,if_pos deep,map_some,back_unknown deep,side,known,depth,level,Nat.add_sub_cancel,Bool.not_not]
    rfl

section
variable (parents : Parents db') (grows : Grows db db') (known : walker.unknown = 0)
include parents grows known
/-- A step to a test that is there. -/
theorem known_test_steps {t : Nat} {cell : TrcTest}
    (iter : walker.is_iter = true) (found : db'.testCells.get t = some cell) (up : cell.parent = walker.iter) :
    Steps db walker db' {walker with test := some t, is_iter := false} where
  parents := parents
  grows := grows
  placed := fun _ => ⟨t,rfl,by rw [found]; rfl⟩
  level := by rw [iter]; rfl
  back := fun db'' later => by
    obtain ⟨cell',found',same⟩ := later.tests t cell found
    have back := @back_test _ db'' {walker with test := some t, is_iter := false} known rfl
    rw [back,bind_some,found',map_some,same,up,position_known walker known,iter]
    rfl
/-- A step to an iteration that is there. -/
theorem known_iter_steps {i : Nat} {cell : TrcTestIter Expected} {t : Nat}
    (test : walker.is_iter = false) (here : walker.test = some t) (found : db'.iterCells.get i = some cell) (up : cell.parent = t) :
    Steps db walker db' {walker with iter := some i, is_iter := true} where
  parents := parents
  grows := grows
  placed := fun _ j same => by
    cases same
    rw [found]
    rfl
  level := by rw [test]; rfl
  back := fun db'' later => by
    obtain ⟨cell',found',same⟩ := later.iters i cell found
    have back := @back_iter _ db'' {walker with iter := some i, is_iter := true} known rfl
    rw [back,bind_some,found',map_some,same,up,position_known walker known,test,here]
    rfl
end
theorem step_test_steps (parents : Parents db) (placed : Placed db walker) (iter : walker.is_iter = true) (name : CStr) (force : Bool) :
    ∃ r db' walker', trc_db_walker_step_test db walker name force = some (r,db',walker') ∧ Steps db walker db' walker' := by
  rw [trc_db_walker_step_test,if_neg (by rw [iter]; exact Bool.noConfusion)]
  by_cases unknown : 0 < walker.unknown
  · rw [if_pos unknown]
    exact ⟨_,_,_,rfl,deeper_steps parents rfl (by rw [iter]; rfl) rfl⟩
  · have known : walker.unknown = 0 := by omega
    rw [if_neg unknown]
    obtain ⟨tests,queue⟩ : ∃ tests, testsOf db walker.iter = some tests := by
      have here := placed known
      rw [if_pos iter] at here
      cases at' : walker.iter with
      | none => exact ⟨_,rfl⟩
      | some i =>
        obtain ⟨cell,found⟩ := isSome_iff_exists.mp (here i at')
        exact ⟨cell.tests,by rw [testsOf,found]; rfl⟩
    simp only [queue,bind,Option.bind]
    cases found : tests.find? fun t => (db.testCells.get t).any fun cell => cell.name = name with
    | some t =>
      obtain ⟨cell,there,up⟩ := parents.tests walker.iter tests queue t (mem_of_find?_eq_some found)
      exact ⟨_,_,_,rfl,known_test_steps parents (.refl db) known iter there up⟩
    | none =>
      cases force with
      | true =>
        exact ⟨_,_,_,rfl,known_test_steps (new_test_parents parents _ _ _) (new_test_grows _ _ _) known iter (new_test_cell _ _ _) rfl⟩
      | false =>
        have side : walker.knownIter = true := by
          rw [TeTrcDbWalker.knownIter,iter,known]
          rfl
        refine ⟨_,_,_,rfl,deeper_steps parents rfl (by rw [iter]; rfl) ?_⟩
        rw [side]
        rfl
/-- The iterations found are among those looked through. -/
structure Among (queue : List Nat) (found : IterMatches) : Prop where
  iter : ∀ i, found.iter = some i → i ∈ queue
  old : ∀ i, found.old_exact_iter = some i → i ∈ queue
  new : ∀ i, found.new_exact_iter = some i → i ∈ queue
  wild : ∀ i, found.wild_iter = some i → i ∈ queue
variable {func : Option (TrcTestIter Expected → List TrcReportArgument → IterMatch)} {split : Bool}

theorem matchIter_among {queue : List Nat} {found : IterMatches} {i : Nat} {args : List TrcReportArgument}
    (among : Among queue found) (member : i ∈ queue) :
    Among queue (matchIter trc_db_compare_values func db args found i) := by
  have here (j : Nat) (same : some i = some j) : j ∈ queue := some.inj same ▸ member
  rw [matchIter]
  cases db.iterCells.get i with
  | none => exact among
  | some cell =>
    dsimp only
    split
    · exact ⟨among.iter,among.old,among.new,among.wild⟩
    · exact ⟨here,among.old,among.new,here⟩
    · split
      · exact ⟨here,among.old,here,among.wild⟩
      · exact ⟨here,here,among.new,among.wild⟩
theorem found_among {all queue : List Nat} {found : IterMatches} {args : List TrcReportArgument}
    (among : Among all found) (part : ∀ i ∈ queue, i ∈ all) :
    Among all (queue.foldl (matchIter trc_db_compare_values func db args) found) := by
  induction queue generalizing found with
  | nil => exact among
  | cons i queue ih => grind [matchIter_among]
theorem chosen_among {queue : List Nat} {found : IterMatches} {flags : StepIterFlags} {i : Nat} (among : Among queue found)
    (chosen : chosenIter flags found = some i) : i ∈ queue := by
  have pick {cond : Prop} [Decidable cond] {a b : Option Nat} (first : ∀ i, a = some i → i ∈ queue) (second : ∀ i, b = some i → i ∈ queue) :
      ∀ i, (if cond then a else b) = some i → i ∈ queue := by grind
  have none' : ∀ i, (none : Option Nat) = some i → i ∈ queue := fun i same => by cases same
  exact pick among.wild (pick among.new (pick among.old (pick none' among.iter))) i chosen
theorem split_if_grows (i : Nat) (f : Expected → Expected) :
    Grows db (if split then {db with iterCells := db.iterCells.modify i fun cell => {cell with expected := f cell.expected}} else db) := by
  split
  · exact split_grows i f
  · exact .refl db
theorem split_if_parents (parents : Parents db) (i : Nat) (f : Expected → Expected) :
    Parents (if split then {db with iterCells := db.iterCells.modify i fun cell => {cell with expected := f cell.expected}} else db) := by
  split
  · exact split_parents parents i f
  · exact parents
theorem step_iter_steps (parents : Parents db) (placed : Placed db walker) (test : walker.is_iter = false) (args : List TrcReportArgument)
    (flags : StepIterFlags) (func : Option (TrcTestIter Expected → List TrcReportArgument → IterMatch)) :
    ∃ r db' walker', trc_db_walker_step_iter ops trc_db_compare_values func db walker args flags = some (r,db',walker') ∧
      Steps db walker db' walker' := by
  rw [trc_db_walker_step_iter,if_neg (by rw [test]; exact Bool.noConfusion)]
  by_cases unknown : 0 < walker.unknown
  · rw [if_pos unknown]
    exact ⟨_,_,_,rfl,deeper_steps parents rfl (by rw [test]; rfl) rfl⟩
  · have known : walker.unknown = 0 := by omega
    rw [if_neg unknown]
    have here := placed known
    rw [if_neg (by rw [test]; exact Bool.noConfusion)] at here
    obtain ⟨t,at',there⟩ := here
    obtain ⟨cell,found⟩ := isSome_iff_exists.mp there
    have queue : itersOf db t = some cell.iters := by rw [itersOf,found]; rfl
    simp only [at',found,bind,Option.bind]
    generalize matches' : cell.iters.foldl (matchIter trc_db_compare_values func db (sortArgs args)) ⟨none,none,none,none,false⟩ = seen
    have among : Among cell.iters seen := by
      have none' : ∀ i, (none : Option Nat) = some i → i ∈ cell.iters := fun i same => by cases same
      rw [← matches']
      exact found_among ⟨none',none',none',none'⟩ fun i member => member
    cases chosen : chosenIter flags seen with
    | some i =>
      obtain ⟨iter,present,up⟩ := parents.iters t cell.iters queue i (chosen_among among chosen)
      have grown := @split_if_grows _ db flags.SPLIT_RESULTS i ops.split
      obtain ⟨iter',present',up'⟩ := grown.iters i iter present
      refine ⟨true,_,{walker with iter := some i, is_iter := true},?_,
        known_iter_steps (split_if_parents parents i ops.split) grown known test at' present' (up'.trans up)⟩
      rw [at']
    | none =>
      dsimp only
      split
      · obtain ⟨iter,present,up,-⟩ := @new_iter_cell _ db ops t cell.filename (sortArgs args) (args.map TrcReportArgument.name)
          (if seen.wild_iter ≠ none then seen.wild_iter else seen.old_exact_iter) seen.user_match flags.CREATE_UNSPEC
        have grown := @split_if_grows _ (newTestIter ops db t cell.filename (sortArgs args) (args.map TrcReportArgument.name)
          (if seen.wild_iter ≠ none then seen.wild_iter else seen.old_exact_iter) seen.user_match flags.CREATE_UNSPEC)
          flags.SPLIT_RESULTS db.iterCells.fresh ops.split
        obtain ⟨iter',present',up'⟩ := grown.iters _ iter present
        refine ⟨true,_,{walker with iter := some db.iterCells.fresh, is_iter := true},?_,
          known_iter_steps (split_if_parents (new_iter_parents parents) _ ops.split) (new_iter_grows.trans grown) known test at' present' (up'.trans up)⟩
        rw [at']
      · have side : walker.knownIter = false := by
          rw [TeTrcDbWalker.knownIter,test,known]
          rfl
        refine ⟨_,_,_,rfl,deeper_steps parents rfl (by rw [test]; rfl) ?_⟩
        rw [side,at']
        rfl
theorem call_steps (parents : Parents db) (placed : Placed db walker) {call : StepCall Expected} {calls : List (StepCall Expected)}
    (alternates : Alternates walker.is_iter (call :: calls)) :
    ∃ r db' walker', stepCall ops trc_db_compare_values db walker call = some (r,db',walker') ∧ Steps db walker db' walker' ∧
      Alternates walker'.is_iter calls := by
  cases call with
  | step_test name force =>
    obtain ⟨iter,rest⟩ := alternates
    obtain ⟨r,db',walker',run,steps⟩ := step_test_steps parents placed iter name force
    exact ⟨r,db',walker',run,steps,by rw [steps.level,iter]; exact rest⟩
  | step_iter args flags func =>
    obtain ⟨test,rest⟩ := alternates
    obtain ⟨r,db',walker',run,steps⟩ := step_iter_steps parents placed test args flags func
    exact ⟨r,db',walker',run,steps,by rw [steps.level,test]; exact rest⟩
/-- Calls are taken back by as many steps, also after the database has grown further. -/
theorem calls_taken_back (parents : Parents db) (placed : Placed db walker) {calls rest : List (StepCall Expected)}
    (alternates : Alternates walker.is_iter (calls ++ rest)) :
    ∃ db' walker', stepCalls ops trc_db_compare_values db walker calls = some (db',walker') ∧ Parents db' ∧ Grows db db' ∧ Placed db' walker' ∧
      Alternates walker'.is_iter rest ∧
      ∀ db'', Grows db' db'' → (stepsBack db'' walker' calls.length).map TeTrcDbWalker.position = some walker.position := by
  induction calls generalizing db walker with
  | nil => exact ⟨db,walker,rfl,parents,.refl db,placed,alternates,fun _ _ => rfl⟩
  | cons call calls ih =>
    obtain ⟨r,db₁,walker₁,called,steps,turn⟩ : ∃ r db' walker', stepCall ops trc_db_compare_values db walker call = some (r,db',walker') ∧
        Steps db walker db' walker' ∧ Alternates walker'.is_iter (calls ++ rest) := call_steps parents placed alternates
    obtain ⟨db₂,walker₂,run,parents₂,grows,placed₂,turn₂,back⟩ := ih steps.parents steps.placed turn
    refine ⟨db₂,walker₂,?_,parents₂,steps.grows.trans grows,placed₂,turn₂,fun db'' later => ?_⟩
    · simp [called,run,stepCalls]
    · obtain ⟨walker₃,there,same⟩ := of_map (back db'' later)
      rw [length_cons,stepsBack]
      simp only [there,bind,Option.bind]
      exact (back_congr same).trans (steps.back db'' (grows.trans later))
end

section
variable {db : TeTrcDb Expected} {w : Wood TrcElement}

variable {father : Option TrcElement}

theorem Cells.root_father {e : TrcElement} (cells : Cells db father w) (root : e ∈ w.roots) :
    InDb db e ∧ fatherOf db e = father := by
  induction w with
  | nil => cases root
  | node a kids rest _ ih =>
    obtain ⟨here,above,-,-,behind⟩ := cells
    obtain rfl | later := mem_cons.mp root
    · exact ⟨here,above⟩
    · exact ih behind later
theorem Cells.child_father {e c : TrcElement} (cells : Cells db father w) (member : e ∈ w.preorder)
    (child : c ∈ childrenOf db (some e)) : InDb db c ∧ fatherOf db c = some e := by
  induction w generalizing father with
  | nil => cases member
  | node a kids rest first second =>
    obtain ⟨-,-,children,below,behind⟩ := cells
    obtain rfl | member := mem_cons.mp member
    · rw [children] at child
      exact below.root_father child
    · grind
theorem IsTree.parents (tree : IsTree db w) : Parents db where
  tests := fun iter queue known t member => by
    have child : InDb db (.test t) ∧ fatherOf db (.test t) = iter.map .iter := by
      cases iter with
      | none =>
        cases known
        have root : TrcElement.test t ∈ w.roots := by
          rw [← tree.top]
          exact mem_map_of_mem member
        exact tree.cells.root_father root
      | some i =>
        obtain ⟨cell,found,rfl⟩ := of_map known
        have inside := tree.whole (.iter i) (by rw [InDb,found]; rfl)
        refine tree.cells.child_father inside ?_
        rw [childrenOf,testsOf,found]
        exact mem_map_of_mem member
    obtain ⟨cell,found⟩ := isSome_iff_exists.mp child.1
    have up := child.2
    rw [fatherOf,found,bind_some] at up
    exact ⟨cell,found,Option.map_injective (fun _ _ same => TrcElement.iter.inj same) up⟩
  iters := fun t queue known i member => by
    obtain ⟨test,found,rfl⟩ := of_map known
    have inside := tree.whole (.test t) (by rw [InDb,found]; rfl)
    have child := @Cells.child_father _ _ _ _ _ (.iter i) tree.cells inside
      (by rw [childrenOf,itersOf,found]; exact mem_map_of_mem member)
    obtain ⟨cell,found⟩ := isSome_iff_exists.mp child.1
    have up := child.2
    rw [fatherOf,found,map_some] at up
    exact ⟨cell,found,TrcElement.test.inj (some.inj up)⟩

/-- A session with an iteration, and one test in it. -/
def smallDb : TeTrcDb Unit where
  filename := none
  tests := [0]
  globals := []
  testCells := ⟨[some ⟨none,['s'],[0],none⟩,some ⟨some 0,['t'],[],none⟩]⟩
  iterCells := ⟨[some ⟨0,[],[],(),[1],none,false⟩]⟩
def smallWood : Wood TrcElement := .node (.test 0) (.node (.iter 0) (.node (.test 1) .nil .nil) .nil) .nil
theorem small_tree : IsTree smallDb smallWood where
  top := rfl
  cells := ⟨rfl,rfl,rfl,⟨rfl,rfl,rfl,⟨rfl,rfl,rfl,trivial,trivial⟩,trivial⟩,trivial⟩
  distinct := by decide
  whole := fun e here => by
    match e with
    | .test 0 => decide
    | .test 1 => decide
    | .test (n+2) => exact absurd here (by simp [InDb,smallDb,Heap.get])
    | .iter 0 => decide
    | .iter (n+1) => exact absurd here (by simp [InDb,smallDb,Heap.get])
end
end TestEnvironment.Trc
