import TestEnvironment.Trc.WalkerSteps

/-!
Tests by their paths (`db.c`): the path that a test is given, and the search that cuts a path into names and looks for each among the tests
of the iterations of the test before.
-/
namespace TestEnvironment.Trc
open Lib
variable {Expected : Type}

section
variable (db : TeTrcDb Expected) (path : Nat → CStr)

/-- The path of a test whose cell is given, by those of the other tests. -/
def trc_db_test_update_path (cell : TrcTest) : CStr :=
  (match cell.parent.bind db.iterCells.get with
    | none => []
    | some iter => path iter.parent) ++ '/' :: cell.name
def PATH_ITEM_LEN : Nat := 20
def findTest (tests : List Nat) (path_item : CStr) : Option Nat := tests.find? fun t => (db.testCells.get t).any fun cell => cell.name = path_item
/-- The search in all iterations: the inner loop is left when a test is found, the outer one is not. -/
def searchIters (iters : List Nat) (test : Option Nat) (path_item : CStr) : Option Nat :=
  iters.foldl (fun _ iter => findTest db ((testsOf db (some iter)).getD []) path_item) test
/-- The end of a name; there is no test before the first one. -/
def enterItem (test : Option Nat) (path_item : CStr) : Option Nat :=
  match test with
  | none => findTest db db.tests path_item
  | some t => searchIters db ((itersOf db t).getD []) test path_item
/-- The loop over the characters with the last one null; `path_item` is what is known of a name. -/
def pathLoop : CStr → CStr → Option Nat → Option Nat
  | [],path_item,test => if path_item ≠ [] then enterItem db test path_item else test
  | c :: rest,path_item,test =>
    if c = '/' then
      if path_item ≠ [] then (enterItem db test path_item).bind fun t => pathLoop rest [] (some t) else pathLoop rest [] test
    else if path_item.length+1 = PATH_ITEM_LEN then none
    else pathLoop rest (path_item ++ [c]) test
def trc_db_get_test_by_path (p : CStr) : Option Nat := pathLoop db p [] none

/-- A test of the database, at any depth. -/
inductive InTree : Nat → Prop
  | top {t} (there : t ∈ db.tests) : InTree t
  | inner {t i s iters tests} (above : InTree t) (known : itersOf db t = some iters) (iter : i ∈ iters) (inside : testsOf db (some i) = some tests)
    (there : s ∈ tests) : InTree s
/-- Each test has its path. -/
def PathsBuilt : Prop := ∀ t cell, InTree db t → db.testCells.get t = some cell → path t = trc_db_test_update_path db path cell
end

section
variable {p item : CStr} {ns : List CStr} {n : CStr}

/-- The names of a path, behind the characters of one that are known. -/
def pathNames (item : CStr) : CStr → List CStr
  | [] => if item ≠ [] then [item] else []
  | c :: rest => if c = '/' then if item ≠ [] then item :: pathNames [] rest else pathNames [] rest else pathNames (item ++ [c]) rest
/-- Names as a path. -/
def slashed (ns : List CStr) : CStr := ns.flatMap ('/' :: ·)
theorem slashed_cons (n : CStr) (ns : List CStr) : slashed (n :: ns) = slashed [n] ++ slashed ns := by simp [slashed]
/-- A name of a path. -/
def PathName (n : CStr) : Prop := n ≠ [] ∧ '/' ∉ n

theorem names_are (plain : '/' ∉ item) : ∀ n ∈ pathNames item p, PathName n := by
  induction p generalizing item with
  | nil =>
    rw [pathNames]
    split_ifs with text
    · exact forall_mem_singleton.mpr ⟨text,plain⟩
    · exact nofun
  | cons c rest ih =>
    rw [pathNames]
    split_ifs with slash text
    · exact forall_mem_cons.mpr ⟨⟨text,plain⟩,ih not_mem_nil⟩
    · exact ih not_mem_nil
    · exact ih (by simp [plain,Ne.symm slash])
theorem names_name (plain : '/' ∉ n) {rest : CStr} (ends : rest = [] ∨ ∃ r, rest = '/' :: r) (text : item ++ n ≠ []) :
    pathNames item (n ++ rest) = (item ++ n) :: pathNames [] rest := by
  induction n generalizing item with
  | nil =>
    rw [append_nil] at text ⊢
    obtain rfl | ⟨r,rfl⟩ := ends
    · simp [pathNames,text]
    · simp [pathNames,text]
  | cons c n ih =>
    rw [mem_cons,not_or] at plain
    rw [cons_append,pathNames,if_neg (Ne.symm plain.1),ih plain.2 (by simp),append_assoc]
    rfl
theorem names_slashed (names : ∀ n ∈ ns, PathName n) : pathNames [] (slashed ns) = ns := by
  induction ns with
  | nil => rfl
  | cons n ns ih =>
    obtain ⟨text,plain⟩ := names n mem_cons_self
    have ends : slashed ns = [] ∨ ∃ r, slashed ns = '/' :: r := by cases ns <;> simp [slashed]
    have below := ih fun m there => names m (mem_cons_of_mem _ there)
    have split : slashed (n :: ns) = '/' :: (n ++ slashed ns) := rfl
    rw [split,pathNames,if_pos rfl,if_neg (by simp),names_name plain ends (by simpa using text),below]
    rfl
/-- A name is at least as long as what is known of it. -/
theorem name_long (known : item ≠ []) : ∃ n ∈ pathNames item p, item.length ≤ n.length := by
  induction p generalizing item with
  | nil => exact ⟨item,by simp [pathNames,known],le_rfl⟩
  | cons c rest ih =>
    rw [pathNames]
    split_ifs
    · exact ⟨item,mem_cons_self,le_rfl⟩
    · obtain ⟨n,there,long⟩ := @ih (item ++ [c]) (by simp)
      exact ⟨n,there,by rw [length_append] at long; omega⟩
end

section
variable {db : TeTrcDb Expected} {t t' : Nat} {p item : CStr} {ns : List CStr} {test : Option Nat}

/-- The search for names one after the other. -/
def enterAll (db : TeTrcDb Expected) : Option Nat → List CStr → Option Nat
  | test,[] => test
  | test,n :: ns => (enterItem db test n).bind fun t => enterAll db (some t) ns
/-- The test with a name below the last iteration of a test. -/
def nextBelow (db : TeTrcDb Expected) (t : Nat) (n : CStr) : Option Nat :=
  ((itersOf db t).getD []).getLast?.bind fun i => findTest db ((testsOf db (some i)).getD []) n
def descend (db : TeTrcDb Expected) : Nat → List CStr → Option Nat
  | t,[] => some t
  | t,n :: ns => (nextBelow db t n).bind fun s => descend db s ns
/-- Where names lead, each below the last iteration of the test before. -/
def leadsTo (db : TeTrcDb Expected) : List CStr → Option Nat
  | [] => none
  | n :: ns => (findTest db db.tests n).bind fun t => descend db t ns
/-- There is nothing below. -/
def NoIters (db : TeTrcDb Expected) (t : Nat) : Prop := (itersOf db t).getD [] = []
instance (db : TeTrcDb Expected) (t : Nat) : Decidable (NoIters db t) := inferInstanceAs (Decidable (_ = []))

theorem loop_names (short : item.length < PATH_ITEM_LEN) : pathLoop db p item test =
    if ∀ n ∈ pathNames item p, n.length < PATH_ITEM_LEN then enterAll db test (pathNames item p) else none := by
  induction p generalizing item test with
  | nil =>
    rw [pathLoop,pathNames]
    by_cases text : item ≠ []
    · simp [text,short,enterAll]
    · simp [text,enterAll]
  | cons c rest ih =>
    rw [pathLoop,pathNames]
    by_cases slash : c = '/'
    · rw [if_pos slash,if_pos slash]
      by_cases text : item ≠ []
      · rw [if_pos text,if_pos text]
        simp only [forall_mem_cons,short,true_and,@ih [] _ (by decide)]
        cases found : enterItem db test item <;> simp [enterAll,found]
      · rw [if_neg text,if_neg text]
        exact ih (by decide)
    · rw [if_neg slash,if_neg slash]
      by_cases long : item.length+1 = PATH_ITEM_LEN
      · obtain ⟨n,there,length⟩ := @name_long rest (item ++ [c]) (by simp)
        rw [if_pos long,if_neg]
        intro all
        have := all n there
        rw [length_append,length_singleton] at length
        omega
      · rw [if_neg long,ih (by rw [length_append,length_singleton]; omega)]
theorem search_last {iters : List Nat} {n : CStr} : searchIters db iters test n = match iters.getLast? with
    | none => test
    | some i => findTest db ((testsOf db (some i)).getD []) n := by
  rw [searchIters]
  induction iters using List.reverseRecOn with
  | nil => rfl
  | append_singleton iters i _ => simp
/-- The search goes where the names lead, and stops at a test without iterations. -/
theorem enterAll_iff : enterAll db (some t) ns = some t' ↔ ∃ front rest, ns = front ++ rest ∧ descend db t front = some t' ∧ (rest = [] ∨ NoIters db t') := by
  induction ns generalizing t with
  | nil =>
    constructor
    · rintro there
      exact ⟨[],[],rfl,there,.inl rfl⟩
    · rintro ⟨front,rest,parts,there,-⟩
      obtain ⟨rfl,-⟩ := append_eq_nil_iff.mp parts.symm
      exact there
  | cons n ns ih =>
    have step : enterItem db (some t) n = if NoIters db t then some t else nextBelow db t n := by
      simp only [enterItem,search_last,nextBelow]
      cases last : ((itersOf db t).getD []).getLast? with
      | none =>
        rw [if_pos]
        exact List.getLast?_eq_none_iff.mp last
      | some i =>
        rw [if_neg]
        · rfl
        · intro empty
          rw [NoIters] at empty
          simp [empty] at last
    rw [enterAll,step]
    by_cases stuck : NoIters db t
    · rw [if_pos stuck,bind_some,ih]
      have nothing : ∀ {front}, descend db t front = some t' → front = [] := by
        intro front there
        cases front with
        | nil => rfl
        | cons m front =>
          rw [NoIters] at stuck
          simp [descend,nextBelow,stuck] at there
      constructor
      · rintro ⟨front,rest,rfl,there,-⟩
        obtain rfl := nothing there
        obtain rfl := some.inj there
        exact ⟨[],n :: rest,rfl,rfl,.inr stuck⟩
      · rintro ⟨front,rest,parts,there,-⟩
        obtain rfl := nothing there
        obtain rfl := some.inj there
        exact ⟨[],ns,rfl,rfl,.inr stuck⟩
    · rw [if_neg stuck]
      constructor
      · rintro found
        obtain ⟨s,next,found⟩ := of_bind found
        obtain ⟨front,rest,rfl,there,ends⟩ := ih.mp found
        exact ⟨n :: front,rest,rfl,by rw [descend,next]; exact there,ends⟩
      · rintro ⟨front,rest,parts,there,ends⟩
        cases front with
        | nil =>
          obtain rfl := some.inj there
          cases parts
          exact absurd (ends.resolve_left (cons_ne_nil _ _)) stuck
        | cons m front =>
          obtain ⟨rfl,rfl⟩ := cons.inj parts
          obtain ⟨s,next,there⟩ := of_bind there
          rw [next]
          exact ih.mpr ⟨front,rest,rfl,there,ends⟩
theorem found_named (found : findTest db tests n = some t) : t ∈ tests ∧ ∃ cell, db.testCells.get t = some cell ∧ cell.name = n := by
  have named := find?_some found
  cases known : db.testCells.get t with
  | none => simp [known] at named
  | some cell => exact ⟨mem_of_find?_eq_some found,cell,rfl,by simpa [known] using named⟩
end

section
variable {db : TeTrcDb Expected} {path : Nat → CStr} (parents : Parents db) (paths : PathsBuilt db path) {t t' : Nat} {p n : CStr} {ns : List CStr}

include parents paths in
theorem top_path (found : findTest db db.tests n = some t) : InTree db t ∧ path t = slashed [n] := by
  obtain ⟨there,cell,known,rfl⟩ := found_named found
  obtain ⟨cell',known',parent⟩ := parents.tests none db.tests rfl t there
  obtain rfl := some.inj (known.symm.trans known')
  have inside := InTree.top there
  exact ⟨inside,by simp [paths t cell inside known,trc_db_test_update_path,parent,slashed]⟩
include parents paths in
theorem below_path (above : InTree db t) (found : nextBelow db t n = some t') : InTree db t' ∧ path t' = path t ++ slashed [n] := by
  obtain ⟨i,last,found⟩ := of_bind found
  obtain ⟨there,cell,known,rfl⟩ := found_named found
  cases iters : itersOf db t with
  | none => simp [iters] at last
  | some queue =>
    cases tests : testsOf db (some i) with
    | none => simp [tests] at there
    | some inner =>
      rw [iters,getD_some] at last
      rw [tests,getD_some] at there
      have iter := mem_of_getLast? last
      obtain ⟨iterCell,knownIter,owner⟩ := parents.iters t queue iters i iter
      obtain ⟨cell',known',parent⟩ := parents.tests (some i) inner tests t' there
      obtain rfl := some.inj (known.symm.trans known')
      have inside := InTree.inner above iters iter tests there
      exact ⟨inside,by simp [paths t' cell inside known,trc_db_test_update_path,parent,knownIter,owner,slashed]⟩
include parents paths in
theorem descend_path (above : InTree db t) (leads : descend db t ns = some t') : InTree db t' ∧ path t' = path t ++ slashed ns := by
  induction ns generalizing t with
  | nil =>
    obtain rfl := some.inj leads
    exact ⟨above,by simp [slashed]⟩
  | cons n ns ih =>
    obtain ⟨s,next,leads⟩ := of_bind leads
    obtain ⟨inside,step⟩ := below_path parents paths above next
    obtain ⟨below,rest⟩ := ih inside leads
    exact ⟨below,by rw [rest,step,append_assoc,← slashed_cons]⟩
include parents paths in
/-- Names lead to the test with their path. -/
theorem leads_path (leads : leadsTo db ns = some t) : InTree db t ∧ path t = slashed ns := by
  cases ns with
  | nil => cases leads
  | cons n ns =>
    obtain ⟨s,top,leads⟩ := of_bind leads
    obtain ⟨inside,step⟩ := top_path parents paths top
    obtain ⟨below,rest⟩ := descend_path parents paths inside leads
    exact ⟨below,by rw [rest,step,← slashed_cons]⟩
theorem enter_iff : enterAll db none ns = some t ↔
    ∃ front rest, ns = front ++ rest ∧ leadsTo db front = some t ∧ (rest = [] ∨ NoIters db t) := by
  cases ns with
  | nil =>
    constructor
    · exact nofun
    · rintro ⟨front,rest,parts,leads,-⟩
      obtain ⟨rfl,-⟩ := append_eq_nil_iff.mp parts.symm
      cases leads
  | cons n ns =>
    constructor
    · intro found
      obtain ⟨s,top,found⟩ := of_bind found
      obtain ⟨front,rest,rfl,leads,ends⟩ := enterAll_iff.mp found
      refine ⟨n :: front,rest,rfl,?_,ends⟩
      rw [enterItem] at top
      rw [leadsTo,top]
      exact leads
    · rintro ⟨front,rest,parts,leads,ends⟩
      cases front with
      | nil => cases leads
      | cons m front =>
        obtain ⟨rfl,rfl⟩ := cons.inj parts
        obtain ⟨s,top,leads⟩ := of_bind leads
        rw [enterAll,enterItem,top]
        exact enterAll_iff.mpr ⟨front,rest,rfl,leads,ends⟩
/-- Names that fit into the buffer. -/
def NamesFit (p : CStr) : Prop := ∀ n ∈ pathNames [] p, n.length < PATH_ITEM_LEN
theorem by_path_iff : trc_db_get_test_by_path db p = some t ↔ NamesFit p ∧
    ∃ front rest, pathNames [] p = front ++ rest ∧ leadsTo db front = some t ∧ (rest = [] ∨ NoIters db t) := by
  rw [trc_db_get_test_by_path,loop_names (by decide)]
  split_ifs with fit
  · rw [enter_iff,and_iff_right (show NamesFit p from fit)]
  · have unfit : ¬NamesFit p := fit
    simp [unfit]
include parents paths in
theorem right_test_iff : (∃ t, trc_db_get_test_by_path db p = some t ∧ path t = p) ↔
    NamesFit p ∧ slashed (pathNames [] p) = p ∧ ∃ t, leadsTo db (pathNames [] p) = some t := by
  constructor
  · rintro ⟨t,found,same⟩
    obtain ⟨fit,front,rest,parts,leads,-⟩ := by_path_iff.mp found
    have names : ∀ n ∈ front, PathName n := by
      intro n there
      exact names_are not_mem_nil n (by rw [parts]; exact mem_append_left rest there)
    have whole : slashed front = p := (leads_path parents paths leads).2.symm.trans same
    have all : pathNames [] p = front := by rw [← whole,names_slashed names]
    rw [all]
    exact ⟨fit,whole,t,leads⟩
  · rintro ⟨fit,whole,t,leads⟩
    have found := by_path_iff.mpr ⟨fit,pathNames [] p,[],(append_nil _).symm,leads,.inl rfl⟩
    exact ⟨t,found,(leads_path parents paths leads).2.trans whole⟩

/-- A path of tests leads to one of them if its names are short and each is that of a test below the last iteration of the test before,
with nothing but one slash in front of it; and a path of no test leads nowhere unless a test with such a path, or without iterations,
stands at its front. -/
theorem tests_found (parents : Parents db) (paths : PathsBuilt db path) (p : CStr) :
    ((∃ t, InTree db t ∧ path t = p) →
      ((∃ t, trc_db_get_test_by_path db p = some t ∧ path t = p) ↔
        NamesFit p ∧ slashed (pathNames [] p) = p ∧ ∃ t, leadsTo db (pathNames [] p) = some t)) ∧
    ((¬∃ t, InTree db t ∧ path t = p) →
      (trc_db_get_test_by_path db p = none ↔
        ¬(NamesFit p ∧ ∃ front rest t, pathNames [] p = front ++ rest ∧ leadsTo db front = some t ∧ (rest = [] ∨ NoIters db t)))) := by
  constructor
  · intro _
    exact right_test_iff parents paths
  · intro _
    rw [Option.eq_none_iff_forall_ne_some]
    simp only [ne_eq,by_path_iff]
    grind
end

/-- A package with two iterations, and a test in the first one. -/
def twoIters : TeTrcDb Unit where
  filename := none
  tests := [0]
  globals := []
  testCells := ⟨[some ⟨none,['p'],[0,1],none⟩,some ⟨some 0,['t'],[],none⟩]⟩
  iterCells := ⟨[some ⟨0,[],[],(),[1],none,false⟩,some ⟨0,[],[],(),[],none,false⟩]⟩
def twoPaths (t : Nat) : CStr := if t = 0 then "/p".toList else "/p/t".toList
theorem two_parents : Parents twoIters where
  tests := by
    intro iter queue known t there
    match iter with
    | none | some 0 =>
      cases known
      obtain rfl := mem_singleton.mp there
      exact ⟨_,rfl,rfl⟩
    | some 1 =>
      cases known
      cases there
    | some (i+2) => cases known
  iters := by
    intro test queue known i there
    match test with
    | 0 =>
      cases known
      obtain rfl | rfl := List.mem_pair.mp there <;> exact ⟨_,rfl,rfl⟩
    | 1 =>
      cases known
      cases there
    | t+2 => cases known
theorem two_paths : PathsBuilt twoIters twoPaths := by
  intro t cell inside known
  match t with
  | 0 | 1 =>
    cases known
    rfl
  | t+2 => cases known
theorem tests_found_two :
    ((∃ t, InTree twoIters t ∧ twoPaths t = "/p".toList) →
      ((∃ t, trc_db_get_test_by_path twoIters "/p".toList = some t ∧ twoPaths t = "/p".toList) ↔
        NamesFit "/p".toList ∧ slashed (pathNames [] "/p".toList) = "/p".toList ∧ ∃ t, leadsTo twoIters (pathNames [] "/p".toList) = some t)) ∧
    ((¬∃ t, InTree twoIters t ∧ twoPaths t = "/p".toList) →
      (trc_db_get_test_by_path twoIters "/p".toList = none ↔
        ¬(NamesFit "/p".toList ∧ ∃ front rest t, pathNames [] "/p".toList = front ++ rest ∧ leadsTo twoIters front = some t ∧
          (rest = [] ∨ NoIters twoIters t)))) :=
  tests_found two_parents two_paths "/p".toList
theorem first_iteration_passed : Parents twoIters ∧ PathsBuilt twoIters twoPaths ∧ InTree twoIters 1 ∧ twoPaths 1 = "/p/t".toList ∧
    trc_db_get_test_by_path twoIters "/p/t".toList = none := by
  refine ⟨two_parents,two_paths,?_,rfl,by decide⟩
  have top : InTree twoIters 0 := .top mem_cons_self
  exact .inner top rfl mem_cons_self rfl mem_cons_self
end TestEnvironment.Trc
