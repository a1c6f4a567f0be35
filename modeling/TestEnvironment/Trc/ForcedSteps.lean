import TestEnvironment.Trc.Normspace
import TestEnvironment.Trc.WalkerSteps

/-!
Steps to iterations that are created where none is found (`db_walker.c`): which one is taken, and that it is found again.
-/
namespace TestEnvironment.Trc
open Lib
variable {Expected : Type}

section
variable {args args' : List TrcReportArgument} {cmp : CStr → CStr → Int} {globals : Option (List TrcGlobal)}

theorem sortArgs_sorted : (sortArgs args).Pairwise fun a b => a.name ≤ b.name := by
  have sorted := @List.pairwise_mergeSort _ (fun a b : TrcReportArgument => !strLess b.name a.name) ?_ ?_ args
  · exact sorted.imp fun ordered => by simpa [strLess] using ordered
  · intro a b c below above
    simp only [strLess,Bool.not_eq_true',decide_eq_false_iff_not,not_lt] at below above ⊢
    exact le_trans below above
  · intro a b
    simpa [strLess] using le_total a.name b.name
theorem sortArgs_perm : (sortArgs args).Perm args := List.mergeSort_perm args _
/-- The order of a call does not matter if the names are different. -/
theorem sortArgs_congr (same : args'.Perm args) (different : (args.map TrcReportArgument.name).Nodup) : sortArgs args' = sortArgs args := by
  refine ((sortArgs_perm.trans same).trans sortArgs_perm.symm).eq_of_pairwise ?_ sortArgs_sorted sortArgs_sorted
  intro a b there there' below above
  have all : a ∈ args := same.subset (sortArgs_perm.subset there)
  exact List.inj_on_of_nodup_map different all (sortArgs_perm.subset there') (le_antisymm below above)
/-- The list of arguments is created in the order of the array. -/
theorem created_args (sorted : args.Pairwise fun a b => a.name < b.name) :
    (args.map fun a => (⟨a.name,a.value⟩ : TrcTestIterArg)).foldl insertArg [] = args.map fun a => ⟨a.name,a.value⟩ := by
  induction args using List.reverseRecOn with
  | nil => rfl
  | append_singleton args a ih =>
    obtain ⟨front,-,below⟩ := pairwise_append.mp sorted
    have last (before : args ≠ []) : strLess (args.getLast before).name a.name = true := by
      simpa [strLess] using below _ (List.getLast_mem before) a mem_cons_self
    rw [map_append,foldl_append,ih front,List.map_singleton,foldl_cons,foldl_nil,insertArg]
    rw [List.rdropWhile_eq_self_iff.mpr,List.rtakeWhile_eq_nil_iff.mpr]
    · intro before
      simpa [List.getLast_map] using last (by simpa using before)
    · intro before
      simpa [List.getLast_map] using last (by simpa using before)

variable (compares : ∀ value, cmp value value = 0) (plain : ∀ a ∈ args, Plain a) (text : ∀ a ∈ args, a.value ≠ [])
include compares plain text
theorem created_loop :
    argsMatchLoop cmp globals true args (args.map fun a => ⟨a.name,a.value⟩) false false = some ([],[],false) := by
  induction args with
  | nil => rfl
  | cons a args ih =>
    obtain ⟨⟨fixed,value⟩,plain⟩ := forall_mem_cons.mp plain
    obtain ⟨some',text⟩ := forall_mem_cons.mp text
    simp [argsMatchLoop,fixed,some',argValueMatch,value,compares,ih plain text]
/-- What is created for arguments matches them. -/
theorem created_matches (different : (args.map TrcReportArgument.name).Nodup) :
    test_iter_args_match cmp globals (((sortArgs args).map fun a => ⟨a.name,a.value⟩).foldl insertArg []) (sortArgs args) true = .EXACT_MATCH := by
  have names : ((sortArgs args).map TrcReportArgument.name).Nodup := (sortArgs_perm.map _).nodup_iff.mpr different
  have sorted : (sortArgs args).Pairwise fun a b => a.name < b.name := by
    refine (sortArgs_sorted.and (pairwise_map.mp names)).imp ?_
    rintro a b ⟨below,other⟩
    exact lt_of_le_of_ne below other
  rw [created_args sorted,test_iter_args_match,created_loop compares]
  · rfl
  · exact fun a there => plain a (sortArgs_perm.subset there)
  · exact fun a there => text a (sortArgs_perm.subset there)
end

section
variable {ops : ExpectedOps Expected} {cmp : CStr → CStr → Int} {db db' : TeTrcDb Expected} {args args' : List TrcReportArgument}
  {flags : StepIterFlags} {walker : TeTrcDbWalker} {queue : List Nat} {seen : IterMatches} {t i : Nat} {cell : TrcTest}

/-- The arguments match an iteration in the strict sense. -/
def strictMatch (cmp : CStr → CStr → Int) (db : TeTrcDb Expected) (args : List TrcReportArgument) (i : Nat) : Bool :=
  (db.iterCells.get i).any fun cell => decide (test_iter_args_match cmp (some db.globals) cell.args (sortArgs args) true ≠ .NO_MATCH)
/-- An iteration is created where none is found, and each that matches may be taken. -/
structure Forced (flags : StepIterFlags) : Prop where
  create : flags.CREATE_NFOUND = true
  old : flags.NO_MATCH_OLD = false
  wild : flags.NO_MATCH_WILD = false
  new : flags.NO_MATCH_NEW = false
/-- What is found of a kind is found. -/
def Noted (seen : IterMatches) : Prop := seen.iter = none → seen.old_exact_iter = none ∧ seen.new_exact_iter = none ∧ seen.wild_iter = none

theorem matchIter_last : (matchIter cmp none db (sortArgs args) seen i).iter = if strictMatch cmp db args i then some i else seen.iter := by
  rw [matchIter,strictMatch]
  cases db.iterCells.get i with
  | none => rfl
  | some cell =>
    dsimp only
    cases kind : test_iter_args_match cmp (some db.globals) cell.args (sortArgs args) true with
    | NO_MATCH => simp [kind]
    | WILD_MATCH => simp [kind]
    | EXACT_MATCH => cases cell.log_found <;> simp [kind]
theorem matchIter_noted (noted : Noted seen) : Noted (matchIter cmp none db (sortArgs args) seen i) := by
  rw [matchIter]
  cases db.iterCells.get i with
  | none => exact noted
  | some cell =>
    dsimp only
    cases test_iter_args_match cmp (some db.globals) cell.args (sortArgs args) true with
    | NO_MATCH => exact noted
    | WILD_MATCH => simp [Noted]
    | EXACT_MATCH => cases cell.log_found <;> simp [Noted]
/-- The last iteration that matches is found. -/
theorem fold_last (cmp : CStr → CStr → Int) (db : TeTrcDb Expected) (args : List TrcReportArgument) (queue : List Nat) :
    (queue.foldl (matchIter cmp none db (sortArgs args)) ⟨none,none,none,none,false⟩).iter = (queue.filter (strictMatch cmp db args)).getLast? ∧
    Noted (queue.foldl (matchIter cmp none db (sortArgs args)) ⟨none,none,none,none,false⟩) := by
  induction queue using List.reverseRecOn with
  | nil => exact ⟨rfl,fun _ => ⟨rfl,rfl,rfl⟩⟩
  | append_singleton queue i ih =>
    rw [foldl_append,foldl_cons,foldl_nil]
    refine ⟨?_,matchIter_noted ih.2⟩
    rw [matchIter_last,ih.1,filter_append]
    cases matches' : strictMatch cmp db args i <;> simp [matches']
theorem chosen_found (forced : Forced flags) (noted : Noted seen) : chosenIter flags seen = seen.iter := by
  cases found : seen.iter with
  | none =>
    obtain ⟨old,new,wild⟩ := noted found
    simp [chosenIter,found,old,new,wild]
  | some i => simp [chosenIter,found,forced.old,forced.wild,forced.new]

/-- The expected results of an iteration as they are after a step. -/
def splitIf (ops : ExpectedOps Expected) (flags : StepIterFlags) (db : TeTrcDb Expected) (iter : Nat) : TeTrcDb Expected :=
  if flags.SPLIT_RESULTS then
    {db with iterCells := db.iterCells.modify iter fun i => {i with expected := ops.split i.expected}}
  else db
theorem splitIf_tests : (splitIf ops flags db i).testCells = db.testCells := by
  rw [splitIf]
  split <;> rfl
theorem splitIf_size : (splitIf ops flags db i).iterCells.size = db.iterCells.size := by
  rw [splitIf]
  split
  · exact Heap.size_modify _ _ _
  · rfl
theorem splitIf_matches : strictMatch cmp (splitIf ops flags db i) args = strictMatch cmp db args := by
  funext j
  rw [splitIf]
  split
  · simp only [strictMatch,modify_expected]
    split
    · next here =>
      subst here
      cases db.iterCells.get j <;> rfl
    · rfl
  · rfl
/-- A step where the walker knows its test. -/
structure AtTest (db : TeTrcDb Expected) (walker : TeTrcDbWalker) (t : Nat) (cell : TrcTest) : Prop where
  level : walker.is_iter = false
  known : walker.unknown = 0
  test : walker.test = some t
  found : db.testCells.get t = some cell

theorem step_found (at' : AtTest db walker t cell) (forced : Forced flags) (last : (cell.iters.filter (strictMatch cmp db args)).getLast? = some i) :
    trc_db_walker_step_iter ops cmp none db walker args flags = some (true,splitIf ops flags db i,{walker with iter := some i, is_iter := true}) := by
  obtain ⟨found,noted⟩ := fold_last cmp db args cell.iters
  rw [trc_db_walker_step_iter]
  simp only [at'.level,at'.known,at'.test,at'.found,bind,Option.bind,chosen_found forced noted,found,last]
  rfl
theorem step_creates (at' : AtTest db walker t cell) (forced : Forced flags) (none' : (cell.iters.filter (strictMatch cmp db args)).getLast? = none) :
    ∃ user, trc_db_walker_step_iter ops cmp none db walker args flags = some (true,splitIf ops flags (newTestIter ops db t cell.filename (sortArgs args)
      (args.map TrcReportArgument.name) none user flags.CREATE_UNSPEC) db.iterCells.fresh,{walker with iter := some db.iterCells.fresh, is_iter := true}) := by
  obtain ⟨found,noted⟩ := fold_last cmp db args cell.iters
  have nothing := noted (found.trans none')
  rw [trc_db_walker_step_iter]
  simp only [at'.level,at'.known,at'.test,at'.found,bind,Option.bind,chosen_found forced noted,found,none',forced.create,nothing]
  exact ⟨_,rfl⟩
/-- Where a step ends: the last iteration that matches, of a test that the walker comes back to. -/
structure EndsAt (cmp : CStr → CStr → Int) (db : TeTrcDb Expected) (args : List TrcReportArgument) (t i : Nat) (cell : TrcTest) : Prop where
  found : db.testCells.get t = some cell
  last : (cell.iters.filter (strictMatch cmp db args)).getLast? = some i
  parent : (db.iterCells.get i).map TrcTestIter.parent = some t

theorem splitIf_ends {cell : TrcTest} (ends : EndsAt cmp db args t i cell) : EndsAt cmp (splitIf ops flags db i) args t i cell where
  found := splitIf_tests.symm ▸ ends.found
  last := splitIf_matches.symm ▸ ends.last
  parent := by
    rw [splitIf]
    split
    · rw [modify_expected,if_pos rfl,Option.map_map]
      exact ends.parent
    · exact ends.parent
theorem found_ends (parents : Parents db) (found : db.testCells.get t = some cell) (last : (cell.iters.filter (strictMatch cmp db args)).getLast? = some i) :
    EndsAt cmp db args t i cell where
  found := found
  last := last
  parent := by
    have inside := (mem_filter.mp (mem_of_getLast? last)).1
    obtain ⟨iter,present,up⟩ := parents.iters t cell.iters (by rw [itersOf,found]; rfl) i inside
    rw [present,map_some,up]
theorem created_ends (compares : ∀ value, cmp value value = 0) (plain : ∀ a ∈ args, Plain a) (text : ∀ a ∈ args, a.value ≠ [])
    (different : (args.map TrcReportArgument.name).Nodup) (found : db.testCells.get t = some cell) {names : List CStr} {user unspec : Bool} :
    EndsAt cmp (newTestIter ops db t cell.filename (sortArgs args) names none user unspec) args t db.iterCells.fresh
      {cell with iters := cell.iters ++ [db.iterCells.fresh]} where
  found := by
    simp only [newTestIter,Heap.get_modify,if_true,found]
    rfl
  last := by
    have matches' : strictMatch cmp (newTestIter ops db t cell.filename (sortArgs args) names none user unspec) args db.iterCells.fresh = true := by
      simp only [strictMatch,newTestIter,Heap.get_alloc,if_true,Option.any_some,created_matches compares plain text different]
      rfl
    rw [filter_append,filter_cons_of_pos matches']
    exact getLast?_concat
  parent := by
    simp only [newTestIter,Heap.get_alloc,if_true]
    rfl
/-- Back from where a step ended, the same arguments in any order lead there again. -/
theorem ends_again (ends : EndsAt cmp db args t i cell) (forced : Forced flags) (known : walker.unknown = 0) (test : walker.test = some t)
    (here : walker.iter = some i) (level : walker.is_iter = true) (same : args'.Perm args) (different : (args.map TrcReportArgument.name).Nodup) :
    (trc_db_walker_step_back db walker).bind (fun back => trc_db_walker_step_iter ops cmp none db back args' flags) =
      some (true,splitIf ops flags db i,walker) := by
  obtain ⟨iter,present,up⟩ := of_map ends.parent
  have back : trc_db_walker_step_back db walker = some {walker with is_iter := false} := by
    rw [trc_db_walker_step_back,if_neg (by omega),if_pos level]
    simp only [here,present,bind,Option.bind,up,← test]
  have order : strictMatch cmp db args' = strictMatch cmp db args := by
    funext j
    rw [strictMatch,strictMatch,sortArgs_congr same different]
  have at' : AtTest db {walker with is_iter := false} t cell := ⟨rfl,known,test,ends.found⟩
  rw [back,bind_some,step_found at' forced (by rw [order]; exact ends.last),← here,← level]

theorem normspaceLoop_refl {turns : Nat} {s : CStr} : normspaceLoop turns s s = 0 := by
  induction turns generalizing s with
  | zero => simp [normspaceLoop]
  | succ turns ih =>
    cases s with
    | nil => simp [normspaceLoop]
    | cons c s =>
      cases space : isspace c <;> simp [normspaceLoop,ih,space]
theorem normspace_refl (value : CStr) : trc_db_strcmp_normspace value value = 0 := normspaceLoop_refl
end

/-- A test without iterations. -/
def bareDb : TeTrcDb Unit where
  filename := none
  tests := [0]
  globals := []
  testCells := ⟨[some ⟨none,['t'],[],none⟩]⟩
  iterCells := ⟨[]⟩
theorem bare_parents : Parents bareDb where
  tests := by
    intro iter queue known t there
    cases iter with
    | none =>
      cases known
      obtain rfl := mem_singleton.mp there
      exact ⟨_,rfl,rfl⟩
    | some i => cases known
  iters := by
    intro test queue known i there
    match test with
    | 0 =>
      cases known
      cases there
    | t+1 => cases known
def atBare : TeTrcDbWalker := {trc_db_new_walker with is_iter := false, test := some 0}
def twoArgs : List TrcReportArgument := [⟨['b'],['2'],false⟩,⟨['a'],['1'],false⟩]
def forcedFlags : StepIterFlags := ⟨false,false,false,true,false,false⟩
end TestEnvironment.Trc
