import TestEnvironment.Tester.ScenarioFlags

/-!
Merging of test paths (`test_path.c`): the scenarios of the paths to run are put
together in their order, with the flags that the paths before them set, and
without the identifiers of the paths to exclude.
-/
namespace TestEnvironment.Tester
open Lib

section
/-- `test_path_type`. -/
inductive TestPathType
  | run
  | runForce
  | runFrom
  | runTo
  | runExclude
  | vg
  | gdb
  | mix
  | mixValues
  | mixArgs
  | mixTests
  | mixIters
  | mixSessions
  | noMix
  | fake
  deriving DecidableEq, Repr

/-- A test path with its scenario. -/
structure TestPath where
  type : TestPathType
  scen : TestingScenario
  deriving DecidableEq, Repr

/-- The variables of `merge_test_paths`. -/
structure MergeState where
  flags : TestingScenario
  exclude : TestingScenario
  run_spec : Bool
  scenario : TestingScenario
  deriving DecidableEq, Repr

/-- The end of the loop body for a path to run. -/
def MergeState.run (s : MergeState) (scen : TestingScenario) : MergeState :=
  {s with run_spec := true,scenario := scenario_append s.scenario (scenario_apply_flags scen s.flags) 1}
def MergeState.merge (s : MergeState) (scen : TestingScenario) (flags : TesterFlags) : Option MergeState := do
  some {s with flags := ← scenario_merge s.flags scen flags}

/-- The loop body of `merge_test_paths`, save for a path that takes the next one along. -/
def mergePath (total_iters : Nat) (s : MergeState) (path : TestPath) : Option MergeState :=
  match path.type with
  | .run => some (s.run path.scen)
  | .runForce => some (s.run path.scen)
  | .runFrom => some (s.run (scenario_apply_from path.scen (usub total_iters 1)))
  | .runTo => do some (s.run (← scenario_apply_to path.scen 0))
  | .runExclude => do some {s with exclude := ← scenario_merge s.exclude path.scen TESTER_SHUTDOWN}
  | .fake => s.merge path.scen TESTER_FAKE
  | .vg => s.merge path.scen TESTER_VALGRIND
  | .gdb => s.merge path.scen TESTER_GDB
  | .mix => s.merge path.scen (TESTER_MIX_VALUES ||| TESTER_MIX_ARGS ||| TESTER_MIX_TESTS ||| TESTER_MIX_ITERS)
  | .mixValues => s.merge path.scen TESTER_MIX_VALUES
  | .mixArgs => s.merge path.scen TESTER_MIX_ARGS
  | .mixTests => s.merge path.scen TESTER_MIX_TESTS
  | .mixIters => s.merge path.scen TESTER_MIX_ITERS
  | .mixSessions => s.merge path.scen TESTER_MIX_SESSIONS
  | .noMix => do
    let flags ← scenario_exclude s.flags path.scen
      (TESTER_MIX_VALUES ||| TESTER_MIX_ARGS ||| TESTER_MIX_TESTS ||| TESTER_MIX_ITERS ||| TESTER_MIX_SESSIONS)
    some {s with flags := flags}
/-- The loop of `merge_test_paths`. -/
def mergePaths (total_iters : Nat) : List TestPath → MergeState → Option MergeState
  | [], s => some s
  | [path], s => mergePath total_iters s path
  | path :: next :: rest, s =>
    if path.type = .runFrom ∧ next.type = .runTo then do
      let first := match path.scen with
        | [] => 0
        | act :: _ => act.first
      mergePaths total_iters rest (s.run (← scenario_apply_to next.scen first))
    else do mergePaths total_iters (next :: rest) (← mergePath total_iters s path)

/-- `merge_test_paths`: the scenario if it succeeds. The status that is returned is not
    set if there are no paths and nothing to run by default. -/
def merge_test_paths (paths : List TestPath) (total_iters : Nat) (scenario : TestingScenario) (all_by_default : Bool) :
    Option TestingScenario := do
  let s ← mergePaths total_iters paths {flags := [],exclude := [],run_spec := false,scenario := scenario}
  let scenario ←
    if !s.run_spec && all_by_default then
      if s.scenario = [] then some (scenario_apply_flags (scenario_add_act s.scenario 0 (usub total_iters 1) 0 none) s.flags)
      else none
    else if paths = [] then none
    else some s.scenario
  some (if s.exclude = [] then scenario
    else scenario_del_acts_by_flags (scenario_apply_flags scenario s.exclude) TESTER_SHUTDOWN)
end

section
/-- The flags that a path of the type sets for the identifiers it covers. -/
def flagsSet : TestPathType → TesterFlags
  | .fake => TESTER_FAKE
  | .vg => TESTER_VALGRIND
  | .gdb => TESTER_GDB
  | .mix => TESTER_MIX_VALUES ||| TESTER_MIX_ARGS ||| TESTER_MIX_TESTS ||| TESTER_MIX_ITERS
  | .mixValues => TESTER_MIX_VALUES
  | .mixArgs => TESTER_MIX_ARGS
  | .mixTests => TESTER_MIX_TESTS
  | .mixIters => TESTER_MIX_ITERS
  | .mixSessions => TESTER_MIX_SESSIONS
  | _ => 0
/-- The flags that it switches off. -/
def flagsCleared : TestPathType → TesterFlags
  | .noMix => TESTER_MIX_VALUES ||| TESTER_MIX_ARGS ||| TESTER_MIX_TESTS ||| TESTER_MIX_ITERS ||| TESTER_MIX_SESSIONS
  | _ => 0
def TestPathType.runs : TestPathType → Bool
  | .run | .runForce | .runFrom | .runTo => true
  | _ => false

namespace TestPath
def Covers (path : TestPath) (i : Nat) : Prop := ∃ act ∈ path.scen, act.Has i
instance (path : TestPath) (i : Nat) : Decidable (path.Covers i) := inferInstanceAs (Decidable (∃ act ∈ path.scen, act.Has i))

/-- The first identifier of the path, 0 if it has none. -/
def first (path : TestPath) : Nat := ((path.scen.head?).map fun act => act.first).getD 0
/-- The identifiers from `first` to the last one of the path, none if it has none. -/
def upTo (path : TestPath) (first : Nat) : List Nat :=
  match path.scen.getLast? with
  | none => []
  | some act => Span.ids ⟨first,act.last⟩
/-- The identifiers that the path asks to run, if it does not belong to the one before. -/
def runIds (path : TestPath) (total_iters : Nat) : List Nat :=
  match path.type with
  | .run | .runForce => expandIds path.scen
  | .runFrom => if path.scen = [] then [] else Span.ids ⟨path.first,total_iters-1⟩
  | .runTo => path.upTo 0
  | _ => []
end TestPath

/-- The flags of an identifier behind the paths: each path that covers it sets some and
    switches some off. -/
def carried (before : List TestPath) (i : Nat) : TesterFlags :=
  before.foldl (fun flags path => if path.Covers i
    then (flags ||| flagsSet path.type) &&& ~~~flagsCleared path.type else flags) 0
/-- The identifiers to run, with the flags that the paths before their path set. -/
def runsOf (total_iters : Nat) (before : List TestPath) : List TestPath → List (Nat × TesterFlags)
  | [] => []
  | [path] => (path.runIds total_iters).map fun i => (i,carried before i)
  | path :: next :: rest =>
    if path.type = .runFrom ∧ next.type = .runTo
    then (next.upTo path.first).map (fun i => (i,carried before i)) ++ runsOf total_iters (before ++ [path,next]) rest
    else (path.runIds total_iters).map (fun i => (i,carried before i)) ++
      runsOf total_iters (before ++ [path]) (next :: rest)
/-- The whole plan before the exclusions: everything if no path asks to run something. -/
def planned (paths : List TestPath) (total_iters : Nat) (all_by_default : Bool) : List (Nat × TesterFlags) :=
  if all_by_default ∧ ∀ path ∈ paths, path.type.runs = false
  then (List.range total_iters).map fun i => (i,carried paths i)
  else runsOf total_iters [] paths
/-- Some path excludes the identifier. -/
def Excluded (paths : List TestPath) (i : Nat) : Prop := ∃ path ∈ paths, path.type = .runExclude ∧ path.Covers i
instance (paths : List TestPath) (i : Nat) : Decidable (Excluded paths i) :=
  inferInstanceAs (Decidable (∃ path ∈ paths, path.type = .runExclude ∧ path.Covers i))

/-- What processing leaves in a path: acts without flags and hash, below the number of
    iterations; sorted and disjoint, unless the path may repeat tests. -/
structure Processed (total_iters : Nat) (path : TestPath) : Prop where
  blank : ∀ act ∈ path.scen, act.flags = 0 ∧ act.hash = none
  below : ∀ act ∈ path.scen, act.last < total_iters
  sorted : path.type ≠ .run → path.type ≠ .runForce → Apart (path.scen.map TestingAct.toSpan)
end

section
variable {scen a : TestingScenario} {f : TesterFlags} {total_iters i : Nat} {path : TestPath}

/-- A path with flags added is a scenario of flags. -/
theorem add_flags_ok (blank : ∀ act ∈ scen, act.flags = 0 ∧ act.hash = none) (below : ∀ act ∈ scen, act.last < total_iters)
    (apart : Apart (scen.map TestingAct.toSpan)) (small : total_iters < INTRVL_TQ_POSTV_BIG) (flagged : f ≠ 0) :
    FlagScenario (scenario_add_flags scen f) ∧
      ∀ i, flagsAt (scenario_add_flags scen f) i = if ∃ act ∈ scen, act.Has i then f else 0 := by
  have spans : (scenario_add_flags scen f).map TestingAct.toSpan = scen.map TestingAct.toSpan := by
    simp [scenario_add_flags]
  have each : ∀ act ∈ scenario_add_flags scen f, act.flags = f ∧ ∃ b ∈ scen, b.toSpan = act.toSpan := by
    intro act member
    obtain ⟨b,inside,rfl⟩ := mem_map.mp member
    exact ⟨by simp [(blank b inside).1],b,inside,rfl⟩
  refine ⟨⟨spans ▸ apart,fun act member => ?_,fun act member => by rw [(each act member).1]; exact flagged⟩,fun i => ?_⟩
  · grind
  · split
    · rename_i covers
      obtain ⟨b,inside,has⟩ := covers
      have member : {b with flags := b.flags ||| f} ∈ scenario_add_flags scen f := mem_map_of_mem inside
      exact (valueAt_mem (spans ▸ apart) member has).trans (each _ member).1
    · rename_i notCovered
      refine valueAt_none fun act member has => notCovered ?_
      obtain ⟨_,b,inside,same⟩ := each act member
      exact ⟨b,inside,by rw [same]; exact has⟩

section
variable (ok : FlagScenario a) (blank : ∀ act ∈ scen, act.flags = 0 ∧ act.hash = none) (below : ∀ act ∈ scen, act.last < total_iters) (apart : Apart (scen.map TestingAct.toSpan)) (small : total_iters < INTRVL_TQ_POSTV_BIG) (flagged : f ≠ 0)
include ok blank below apart small flagged
theorem scenario_merge_spec : ∃ r, scenario_merge a scen f = some r ∧ FlagScenario r ∧
      ∀ i, flagsAt r i = flagsAt a i ||| if ∃ act ∈ scen, act.Has i then f else 0 := by
  obtain ⟨okAdd,values⟩ := add_flags_ok blank below apart small flagged
  obtain ⟨r,result,okR,flags⟩ := testing_scenarios_op_total .or ok okAdd none
  exact ⟨r,result,okR,fun i => by rw [flags,values]; rfl⟩
theorem scenario_exclude_spec : ∃ r, scenario_exclude a scen f = some r ∧ FlagScenario r ∧
      ∀ i, flagsAt r i = flagsAt a i &&& ~~~if ∃ act ∈ scen, act.Has i then f else 0 := by
  obtain ⟨okAdd,values⟩ := add_flags_ok blank below apart small flagged
  obtain ⟨r,result,okR,flags⟩ := testing_scenarios_op_total .subtract ok okAdd none
  refine ⟨r,?_,okR,fun i => by rw [flags,values,opFlags_subtract]⟩
  have kept : scenario_del_acts_with_no_flags r = r :=
    List.filter_eq_self.mpr fun act member => decide_eq_true (okR.flagged act member)
  rw [scenario_exclude,result]
  exact congrArg some kept
end

/-- The acts of a run-to path melt into one. -/
theorem applyTo_spec {act : TestingAct} (rising : (act :: scen).Pairwise fun b c => b.last < c.last) :
    applyTo act scen = some {act with last := ((act :: scen).getLast (by simp)).last} := by
  induction scen generalizing act with
  | nil => rfl
  | cons cur rest ih =>
    rw [pairwise_cons] at rising
    rw [applyTo,if_pos (rising.1 cur (by simp)),ih]
    · cases rest <;> rfl
    · rw [pairwise_cons] at rising ⊢
      exact rising.2
theorem scenario_apply_to_spec (apart : Apart (path.scen.map TestingAct.toSpan))
    (blank : ∀ act ∈ path.scen, act.flags = 0 ∧ act.hash = none) (first : Nat) :
    ∃ r, scenario_apply_to path.scen first = some r ∧ (∀ act ∈ r, act.flags = 0 ∧ act.hash = none) ∧
      expandIds r = path.upTo first := by
  unfold TestPath.upTo
  cases isList : path.scen with
  | nil => exact ⟨[],rfl,by simp,rfl⟩
  | cons act rest =>
    rw [isList] at apart blank
    have rising : ({act with first := first} :: rest).Pairwise fun b c => b.last < c.last := by
      have sorted := pairwise_map.mp apart.sorted
      rw [pairwise_cons] at sorted ⊢
      refine ⟨fun b member => ?_,sorted.2.imp_of_mem fun {b c} _ inside less =>
        lt_of_lt_of_le less (apart.proper c.toSpan (mem_map_of_mem (by simp [inside])))⟩
      exact lt_of_lt_of_le (sorted.1 b member) (apart.proper b.toSpan (mem_map_of_mem (by simp [member])))
    have last : (({act with first := first} :: rest).getLast (by simp)).last = ((act :: rest).getLast (by simp)).last := by
      cases rest <;> rfl
    rw [scenario_apply_to,applyTo_spec rising,last,List.getLast?_eq_some_getLast (by simp)]
    simp only [bind_eq_bind,bind_some]
    by_cases empty : first > ((act :: rest).getLast (by simp)).last
    · rw [if_pos empty]
      exact ⟨[],rfl,by simp,(Span.ids_empty empty).symm⟩
    · rw [if_neg empty]
      exact ⟨_,rfl,by simpa using blank act (by simp),by simp [expandIds]⟩
theorem scenario_apply_from_spec (blank : ∀ act ∈ path.scen, act.flags = 0 ∧ act.hash = none) (last : Nat) :
    (∀ act ∈ scenario_apply_from path.scen last, act.flags = 0 ∧ act.hash = none) ∧
      expandIds (scenario_apply_from path.scen last) = if path.scen = [] then [] else Span.ids ⟨path.first,last⟩ := by
  unfold TestPath.first
  cases isList : path.scen with
  | nil => simp [scenario_apply_from,expandIds]
  | cons act rest =>
    rw [isList] at blank
    rw [scenario_apply_from,if_neg (cons_ne_nil act rest)]
    by_cases empty : act.first > last
    · rw [if_pos empty]
      exact ⟨by simp,(Span.ids_empty empty).symm⟩
    · simp [empty,blank,expandIds]
end

section
variable {total_iters : Nat} {before : List TestPath} {path : TestPath} {s : MergeState} {out : List (Nat × TesterFlags)}

/-- What the loop has done behind the paths `before`. -/
structure Merged (before : List TestPath) (s : MergeState) (out : List (Nat × TesterFlags)) : Prop where
  flags : FlagScenario s.flags
  carried : ∀ i, flagsAt s.flags i = carried before i
  exclude : FlagScenario s.exclude
  excluded : ∀ i, flagsAt s.exclude i = if Excluded before i then TESTER_SHUTDOWN else 0
  hashes : ∀ act ∈ s.scenario, act.hash = none
  planned : expandFlags s.scenario = out
  specified : s.run_spec = before.any fun path => path.type.runs
  idle : s.run_spec = false → s.scenario = []

theorem carried_append (path : TestPath) (i : Nat) : carried (before ++ [path]) i =
    if path.Covers i then (carried before i ||| flagsSet path.type) &&& ~~~flagsCleared path.type else carried before i := by
  rw [carried,foldl_append]
  rfl
theorem excluded_append (path : TestPath) (i : Nat) :
    Excluded (before ++ [path]) i ↔ Excluded before i ∨ path.type = .runExclude ∧ path.Covers i := by
  simp only [Excluded,mem_append,mem_singleton]
  constructor
  · simp
  · simp
theorem and_not_zero (f : TesterFlags) : f &&& ~~~0 = f := by
  rw [show (~~~0 : TesterFlags) = BitVec.allOnes 64 from rfl,BitVec.and_allOnes]
/-- A path that sets and switches off nothing. -/
theorem carried_idle (set : flagsSet path.type = 0) (cleared : flagsCleared path.type = 0) (i : Nat) :
    carried (before ++ [path]) i = carried before i := by
  rw [carried_append,set,cleared,and_not_zero]
  simp
theorem excluded_idle (type : path.type ≠ .runExclude) (i : Nat) : Excluded (before ++ [path]) i ↔ Excluded before i := by
  rw [excluded_append]
  simp [type]

variable (merged : Merged before s out)
include merged
/-- Paths that ask to run something, with the scenario they stand for. -/
theorem Merged.run {paths : List TestPath} {scen : TestingScenario} {ids : List Nat}
    (some' : paths ≠ []) (runs : ∀ path ∈ paths, path.type.runs = true)
    (blank : ∀ act ∈ scen, act.flags = 0 ∧ act.hash = none) (isIds : expandIds scen = ids) :
    Merged (before ++ paths) (s.run scen) (out ++ ids.map fun i => (i,Tester.carried before i)) := by
  have idle : ∀ {path : TestPath}, path.type.runs = true →
      flagsSet path.type = 0 ∧ flagsCleared path.type = 0 ∧ path.type ≠ .runExclude := by
    intro path
    cases path.type <;> simp [TestPathType.runs,flagsSet,flagsCleared]
  have same : ∀ i, Tester.carried (before ++ paths) i = Tester.carried before i ∧
      (Excluded (before ++ paths) i ↔ Excluded before i) := by
    intro i
    clear some' blank isIds merged
    induction paths generalizing before with
    | nil => simp
    | cons path rest ih =>
      obtain ⟨set,cleared,type⟩ := idle (runs path (by simp))
      have step : Tester.carried ((before ++ [path]) ++ rest) i = Tester.carried (before ++ [path]) i ∧
          (Excluded ((before ++ [path]) ++ rest) i ↔ Excluded (before ++ [path]) i) := ih fun p member => runs p (by simp [member])
      rw [append_assoc,carried_idle set cleared,excluded_idle type] at step
      exact step
  have zero : expandFlags scen = ids.map fun i => (i,0) := by
    rw [expandFlags,← isIds,expandIds,List.map_flatMap]
    exact List.flatMap_congr fun act member => by rw [(blank act member).1]
  have applied : expandFlags (scenario_apply_flags scen s.flags) = ids.map fun i => (i,Tester.carried before i) := by
    simp [merged.flags.apart,zero,merged.carried,expandFlags_apply_flags]
  have appended : (s.run scen).scenario = s.scenario ++ scenario_apply_flags scen s.flags := rfl
  refine ⟨merged.flags,fun i => (merged.carried i).trans (same i).1.symm,merged.exclude,fun i => ?_,?_,?_,?_,fun no => by cases no⟩
  · rw [if_congr (same i).2 rfl rfl]
    exact merged.excluded i
  · rw [appended]
    intro act member
    rcases mem_append.mp member with old | new
    · exact merged.hashes act old
    · exact apply_flags_hash (fun act member => (blank act member).2) act new
  · rw [appended,expandFlags_append,merged.planned,applied]
  · obtain ⟨path,rest,rfl⟩ := exists_cons_of_ne_nil some'
    simp [MergeState.run,runs path (by simp)]

section
variable (processed : Processed total_iters path)
include processed

section
variable (small : total_iters < INTRVL_TQ_POSTV_BIG)
include small
/-- A path that sets flags. -/
theorem Merged.set (sets : flagsSet path.type ≠ 0) :
    ∃ s', s.merge path.scen (flagsSet path.type) = some s' ∧ Merged (before ++ [path]) s' out := by
  have type : path.type.runs = false ∧ path.type ≠ .runExclude ∧ flagsCleared path.type = 0 := by
    revert sets
    cases path.type <;> simp [TestPathType.runs,flagsSet,flagsCleared]
  obtain ⟨notRuns,notExclude,cleared⟩ := type
  have apart : Apart (path.scen.map TestingAct.toSpan) := processed.sorted
    (fun is => by rw [is] at notRuns; cases notRuns) fun is => by rw [is] at notRuns; cases notRuns
  obtain ⟨r,result,ok,values⟩ := scenario_merge_spec merged.flags processed.blank processed.below apart small sets
  refine ⟨{s with flags := r},by rw [MergeState.merge,result]; rfl,ok,fun i => ?_,merged.exclude,fun i => ?_,
    merged.hashes,merged.planned,?_,merged.idle⟩
  · rw [values,merged.carried,carried_append,cleared,and_not_zero]
    by_cases covers : path.Covers i
    · rw [if_pos covers,if_pos (by exact covers)]
    · rw [if_neg covers,if_neg (by exact covers)]
      exact BitVec.or_zero
  · rw [if_congr (excluded_idle notExclude i) rfl rfl]
    exact merged.excluded i
  · rw [List.any_append,← merged.specified]
    simp [notRuns]
/-- A path to exclude. -/
theorem Merged.drop (type : path.type = .runExclude) : ∃ r, scenario_merge s.exclude path.scen TESTER_SHUTDOWN = some r ∧
      Merged (before ++ [path]) {s with exclude := r} out := by
  have apart : Apart (path.scen.map TestingAct.toSpan) := processed.sorted (by simp [type]) (by simp [type])
  obtain ⟨r,result,ok,values⟩ := scenario_merge_spec merged.exclude processed.blank processed.below apart small
    (show TESTER_SHUTDOWN ≠ 0 by decide)
  refine ⟨r,result,merged.flags,fun i => ?_,ok,fun i => ?_,merged.hashes,merged.planned,?_,merged.idle⟩
  · rw [carried_idle (by rw [type]; rfl) (by rw [type]; rfl)]
    exact merged.carried i
  · rw [values,merged.excluded,if_congr (excluded_append path i) rfl rfl]
    by_cases old : Excluded before i <;> by_cases covers : path.Covers i
    · rw [if_pos old,if_pos (by exact covers),if_pos (.inl old)]
      simp
    · rw [if_pos old,if_neg (by exact covers),if_pos (.inl old)]
      simp
    · rw [if_neg old,if_pos (by exact covers),if_pos (.inr ⟨type,covers⟩)]
      simp
    · rw [if_neg old,if_neg (by exact covers),if_neg (by simp [old,covers])]
      simp
  · rw [List.any_append,← merged.specified]
    simp [type,TestPathType.runs]
/-- A path that switches the mixing off. -/
theorem Merged.clear (type : path.type = .noMix) : ∃ r, scenario_exclude s.flags path.scen (flagsCleared .noMix) = some r ∧
      Merged (before ++ [path]) {s with flags := r} out := by
  have apart : Apart (path.scen.map TestingAct.toSpan) := processed.sorted (by simp [type]) (by simp [type])
  obtain ⟨r,result,ok,values⟩ := scenario_exclude_spec merged.flags processed.blank processed.below apart small
    (show flagsCleared .noMix ≠ 0 by decide)
  refine ⟨r,result,ok,fun i => ?_,merged.exclude,fun i => ?_,merged.hashes,merged.planned,?_,merged.idle⟩
  · rw [values,merged.carried,carried_append,type,show flagsSet .noMix = 0 from rfl]
    by_cases covers : path.Covers i
    · rw [if_pos covers,if_pos (by exact covers)]
      simp
    · rw [if_neg covers,if_neg (by exact covers),and_not_zero]
  · rw [if_congr (excluded_idle (by simp [type]) i) rfl rfl]
    exact merged.excluded i
  · rw [List.any_append,← merged.specified]
    simp [type,TestPathType.runs]
end

/-- The loop body for one path. -/
theorem mergePath_spec
    (positive : 0 < total_iters) (small : total_iters < INTRVL_TQ_POSTV_BIG) : ∃ s', mergePath total_iters s path = some s' ∧
      Merged (before ++ [path]) s' (out ++ (path.runIds total_iters).map fun i => (i,carried before i)) := by
  have sets : flagsSet path.type ≠ 0 → path.runIds total_iters = [] → mergePath total_iters s path = s.merge path.scen (flagsSet path.type) →
      ∃ s', mergePath total_iters s path = some s' ∧
        Merged (before ++ [path]) s' (out ++ (path.runIds total_iters).map fun i => (i,carried before i)) := by
    intro flagged none step
    obtain ⟨s',result,merged'⟩ := merged.set processed small flagged
    exact ⟨s',step.trans result,by simpa [none] using merged'⟩
  have runs : ∀ {scen : TestingScenario}, path.type.runs = true → (∀ act ∈ scen, act.flags = 0 ∧ act.hash = none) →
      expandIds scen = path.runIds total_iters →
      Merged (before ++ [path]) (s.run scen) (out ++ (path.runIds total_iters).map fun i => (i,carried before i)) :=
    fun isRun blank ids => merged.run (by simp) (by simpa using isRun) blank ids
  have last : usub total_iters 1 = total_iters-1 :=
    usub_eq positive (lt_trans small (by decide))
  cases type : path.type with
  | run | runForce => exact ⟨_,by rw [mergePath,type],runs (by rw [type]; rfl) processed.blank (by rw [TestPath.runIds,type])⟩
  | runFrom =>
    obtain ⟨blank,ids⟩ := scenario_apply_from_spec processed.blank (usub total_iters 1)
    exact ⟨_,by rw [mergePath,type],runs (by rw [type]; rfl) blank (by rw [ids,last,TestPath.runIds,type])⟩
  | runTo =>
    have apart : Apart (path.scen.map TestingAct.toSpan) := processed.sorted (by simp [type]) (by simp [type])
    obtain ⟨r,result,blank,ids⟩ := scenario_apply_to_spec apart processed.blank 0
    exact ⟨_,by rw [mergePath,type]; simp [result],runs (by rw [type]; rfl) blank (by rw [ids,TestPath.runIds,type])⟩
  | runExclude =>
    obtain ⟨r,result,merged'⟩ := merged.drop processed small type
    exact ⟨{s with exclude := r},by rw [mergePath,type]; simp [result],by simpa [TestPath.runIds,type] using merged'⟩
  | noMix =>
    obtain ⟨r,result,merged'⟩ := merged.clear processed small type
    refine ⟨{s with flags := r},?_,by simpa [TestPath.runIds,type] using merged'⟩
    rw [mergePath,type]
    exact congrArg (Option.bind · _) result
  | vg | gdb | mix | mixValues | mixArgs | mixTests | mixIters | mixSessions | fake => exact sets (by rw [type]; decide) (by rw [TestPath.runIds,type]) (by rw [mergePath,type]; rfl)
end

/-- The whole loop. -/
theorem mergePaths_spec {paths : List TestPath} (processed : ∀ path ∈ paths, Processed total_iters path)
    (positive : 0 < total_iters) (small : total_iters < INTRVL_TQ_POSTV_BIG) :
    ∃ s', mergePaths total_iters paths s = some s' ∧
      Merged (before ++ paths) s' (out ++ runsOf total_iters before paths) := by
  induction before, paths using runsOf.induct generalizing s out with
  | case1 before => exact ⟨s,rfl,by simpa [runsOf] using merged⟩
  | case2 before path => exact mergePath_spec merged (processed path (by simp)) positive small
  | case3 before path next rest pair ih =>
    have isNext := processed next (by simp)
    have apart : Apart (next.scen.map TestingAct.toSpan) := isNext.sorted (by simp [pair.2]) (by simp [pair.2])
    obtain ⟨r,result,blank,ids⟩ := scenario_apply_to_spec apart isNext.blank path.first
    have runs : ∀ p ∈ [path,next], p.type.runs = true := by simp [pair.1,pair.2,TestPathType.runs]
    obtain ⟨s',run,merged'⟩ := ih (merged.run (by simp) runs blank ids) fun p member => processed p (by simp [member])
    refine ⟨s',?_,by simpa [runsOf,pair] using merged'⟩
    have first : (match path.scen with
        | [] => 0
        | act :: _ => act.first) = path.first := by
      unfold TestPath.first
      cases path.scen <;> rfl
    rw [mergePaths,if_pos pair,first]
    simp only [result,bind_eq_bind,bind_some]
    exact run
  | case4 before path next rest pair ih =>
    obtain ⟨s1,result,merged1⟩ := mergePath_spec merged (processed path (by simp)) positive small
    obtain ⟨s',run,merged'⟩ := ih merged1 fun p member => processed p (by simp [mem_cons.mp member])
    refine ⟨s',?_,by simpa [runsOf,pair] using merged'⟩
    rw [mergePaths,if_neg pair,result]
    exact run
end

section
variable {total_iters : Nat} {paths : List TestPath}

theorem or_and_spread (f g h : TesterFlags) : (f ||| g) &&& h = (f &&& h) ||| (g &&& h) := by grind
/-- An act is deleted with all its identifiers. -/
theorem expandFlags_filter (keep : TesterFlags → Bool) (t : TestingScenario) :
    expandFlags (t.filter fun act => keep act.flags) = (expandFlags t).filter fun x => keep x.2 := by
  induction t with
  | nil => rfl
  | cons act t ih =>
    rw [expandFlags_cons,filter_append,← ih,List.filter_map]
    cases kept : keep act.flags with
    | true =>
      have all : act.ids.filter ((fun x : Nat × TesterFlags => keep x.2) ∘ fun i => (i,act.flags)) = act.ids :=
        List.filter_eq_self.mpr fun i _ => kept
      rw [all,← expandFlags_cons,List.filter_cons,if_pos kept]
    | false => simp [kept]
/-- The exclusions drop the identifiers they cover, and nothing else. -/
theorem exclude_spec {s : MergeState} {scenario : TestingScenario} {out : List (Nat × TesterFlags)} {out' : List (Nat × TesterFlags)}
    (merged : Merged paths s out) (hashes : ∀ act ∈ scenario, act.hash = none) (isOut : expandFlags scenario = out')
    (unmarked : ∀ x ∈ out', x.2 &&& TESTER_SHUTDOWN = 0) :
    expand (if s.exclude = [] then scenario
      else scenario_del_acts_by_flags (scenario_apply_flags scenario s.exclude) TESTER_SHUTDOWN) =
      (out'.filter fun x => ¬ Excluded paths x.1).map fun x => (x.1,none,x.2) := by
  have plain : ∀ {t : TestingScenario}, (∀ act ∈ t, act.hash = none) → expand t = (expandFlags t).map fun x => (x.1,none,x.2) := by
    intro t blank
    rw [expand,expandFlags,List.map_flatMap]
    refine List.flatMap_congr fun act member => ?_
    rw [map_map,blank act member]
    rfl
  by_cases none' : s.exclude = []
  · have free : ∀ i, ¬ Excluded paths i := fun i covered => by
      have value := merged.excluded i
      rw [none',if_pos covered] at value
      exact absurd (show (0 : TesterFlags) = TESTER_SHUTDOWN from value) (by decide)
    rw [if_pos none',plain hashes,isOut]
    congr 1
    exact (List.filter_eq_self.mpr fun x _ => by simpa using free x.1).symm
  · rw [if_neg none',scenario_del_acts_by_flags,if_neg (by decide)]
    have blank : ∀ act ∈ scenario_apply_flags scenario s.exclude, act.hash = none := apply_flags_hash hashes
    rw [plain fun act member => blank act (List.mem_of_mem_filter member)]
    congr 1
    rw [expandFlags_filter fun flags => decide (flags &&& TESTER_SHUTDOWN ≠ TESTER_SHUTDOWN),expandFlags_apply_flags merged.exclude.apart,isOut,List.filter_map]
    have marked : ∀ x ∈ out', (x.2 ||| flagsAt s.exclude x.1) &&& TESTER_SHUTDOWN ≠ TESTER_SHUTDOWN ↔ ¬ Excluded paths x.1 := by
      intro x member
      have free := unmarked x member
      rw [merged.excluded]
      rw [or_and_spread,free]
      by_cases covered : Excluded paths x.1
      · rw [if_pos covered]
        simp [covered]
      · rw [if_neg covered]
        exact iff_of_true (by decide) covered
    have same : out'.filter ((fun x => decide (x.2 &&& TESTER_SHUTDOWN ≠ TESTER_SHUTDOWN)) ∘
        fun x => (x.1,x.2 ||| flagsAt s.exclude x.1)) = out'.filter fun x => ¬ Excluded paths x.1 :=
      List.filter_congr fun x member => decide_eq_decide.mpr (marked x member)
    rw [same]
    refine (map_congr_left fun x member => ?_).trans (List.map_id _)
    have inside := mem_filter.mp member
    have notCovered : ¬ Excluded paths x.1 := by simpa using inside.2
    rw [merged.excluded,if_neg notCovered]
    simp

/-- No path sets the flag that marks what is excluded. -/
theorem carried_unmarked (before : List TestPath) (i : Nat) : carried before i &&& TESTER_SHUTDOWN = 0 := by
  induction before using List.reverseRecOn with
  | nil => exact BitVec.zero_and
  | append_singleton before path ih =>
    rw [carried_append]
    split
    · have bit := congrArg (BitVec.getLsbD · 29) ih
      apply BitVec.eq_of_getLsbD_eq
      intro k bound
      by_cases isBit : k = 29
      · subst isBit
        have shutdown : TESTER_SHUTDOWN.getLsbD 29 = true := by decide
        simp only [BitVec.getLsbD_and,BitVec.getLsbD_or,shutdown,Bool.and_true] at bit ⊢
        rw [show (carried before i).getLsbD 29 = false from bit]
        cases path.type <;> rfl
      · have other : TESTER_SHUTDOWN.getLsbD k = false := by
          revert k
          decide
        simp only [BitVec.getLsbD_and,other,Bool.and_false]
        exact BitVec.getLsbD_zero.symm
    · exact ih
theorem runsOf_unmarked {before paths : List TestPath} : ∀ x ∈ runsOf total_iters before paths, x.2 &&& TESTER_SHUTDOWN = 0 := by
  have each : ∀ {ids : List Nat} {before : List TestPath}, ∀ x ∈ ids.map (fun i => (i,carried before i)), x.2 &&& TESTER_SHUTDOWN = 0 := by
    intro ids before x member
    obtain ⟨i,_,rfl⟩ := mem_map.mp member
    exact carried_unmarked before i
  induction before, paths using runsOf.induct with
  | case1 before => simp [runsOf]
  | case2 before path => exact each
  | case3 before path next rest pair ih =>
    rw [runsOf,if_pos pair]
    exact fun x member => (mem_append.mp member).elim (each x) (ih x)
  | case4 before path next rest pair ih =>
    rw [runsOf,if_neg pair]
    exact fun x member => (mem_append.mp member).elim (each x) (ih x)

/-- The scenario of all paths, in their order. -/
theorem merge_test_paths_planned {all_by_default : Bool} (processed : ∀ path ∈ paths, Processed total_iters path)
    (positive : 0 < total_iters) (small : total_iters < INTRVL_TQ_POSTV_BIG) (something : paths ≠ [] ∨ all_by_default = true) :
    ∃ scenario, merge_test_paths paths total_iters [] all_by_default = some scenario ∧
      expand scenario = ((planned paths total_iters all_by_default).filter fun x => ¬ Excluded paths x.1).map
        fun x => (x.1,none,x.2) := by
  have begin : Merged [] {flags := [],exclude := [],run_spec := false,scenario := []} [] := by
    have ok : FlagScenario [] := ⟨Apart.nil,by simp,by simp⟩
    exact ⟨ok,fun _ => rfl,ok,fun i => by simp [Excluded,flagsAt],by simp,rfl,rfl,fun _ => rfl⟩
  obtain ⟨s,run,merged⟩ := mergePaths_spec begin processed positive small
  rw [nil_append,nil_append] at merged
  rw [merge_test_paths,run]
  simp only [bind_eq_bind,bind_some]
  have spec : s.run_spec = false ↔ ∀ path ∈ paths, path.type.runs = false := by
    rw [merged.specified]
    simp
  by_cases default : s.run_spec = false ∧ all_by_default = true
  · obtain ⟨idle,all⟩ := default
    rw [if_pos (by simp [idle,all]),if_pos (merged.idle idle)]
    have plan : planned paths total_iters all_by_default = (List.range total_iters).map fun i => (i,carried paths i) :=
      if_pos ⟨all,spec.mp idle⟩
    refine ⟨_,rfl,?_⟩
    rw [plan]
    refine exclude_spec merged (apply_flags_hash ?_) ?_ ?_
    · rw [merged.idle idle]
      simp [scenario_add_act]
    · have last : usub total_iters 1 = total_iters-1 := usub_eq positive (lt_trans small (by decide))
      have whole : Span.ids ⟨0,total_iters-1⟩ = List.range total_iters := by
        have length : total_iters-1+1-0 = total_iters := by omega
        exact (congrArg (List.range' 0) length).trans List.range_eq_range'.symm
      rw [expandFlags_apply_flags merged.flags.apart,merged.idle idle,last]
      simp [scenario_add_act,scenario_new_act,expandFlags,whole,merged.carried]
    · intro x member
      obtain ⟨i,_,rfl⟩ := mem_map.mp member
      exact carried_unmarked paths i
  · have given : paths ≠ [] := by
      rintro rfl
      exact default ⟨merged.specified,something.resolve_left (by simp)⟩
    rw [if_neg (by simpa using default),if_neg given]
    have plan : planned paths total_iters all_by_default = runsOf total_iters [] paths :=
      if_neg fun is => default ⟨spec.mpr is.2,is.1⟩
    refine ⟨_,rfl,?_⟩
    rw [plan]
    exact exclude_spec merged merged.hashes merged.planned runsOf_unmarked
theorem merge_test_paths_planned_excluded :
    ∃ scenario, merge_test_paths [⟨.fake,[⟨⟨1,3⟩,0,none⟩]⟩,⟨.run,[⟨⟨2,4⟩,0,none⟩]⟩,⟨.runExclude,[⟨⟨3,3⟩,0,none⟩]⟩] 6 [] true =
        some scenario ∧ expand scenario = [(2,none,TESTER_FAKE),(4,none,0)] := by
  have processed : ∀ path ∈ [TestPath.mk .fake [⟨⟨1,3⟩,0,none⟩],⟨.run,[⟨⟨2,4⟩,0,none⟩]⟩,⟨.runExclude,[⟨⟨3,3⟩,0,none⟩]⟩],
      Processed 6 path := by
    have single : ∀ type first last, first ≤ last → last < 6 → Processed 6 ⟨type,[⟨⟨first,last⟩,0,none⟩]⟩ :=
      fun type first last proper below => ⟨by simp,by simpa using below,fun _ _ => Apart.cons_iff.mpr ⟨proper,by simp,Apart.nil⟩⟩
    intro path member
    simp only [mem_cons,not_mem_nil,or_false] at member
    rcases member with rfl | rfl | rfl
    all_goals exact single _ _ _ (by decide) (by decide)
  obtain ⟨scenario,result,is⟩ := merge_test_paths_planned processed (by decide) (by decide) (.inr rfl)
  exact ⟨scenario,result,is.trans (by decide +kernel)⟩
/-- Without a path to run, everything runs, if that is the default; identifiers behind all
    intervals carry no flags; and without any path the status is not set. -/
theorem merge_not_concatenation :
    (∃ scenario, merge_test_paths [⟨.fake,[⟨⟨1,1⟩,0,none⟩]⟩] 3 [] true = some scenario ∧
      (expand scenario).map Prod.fst = [0,1,2] ∧ runsOf 3 [] [⟨.fake,[⟨⟨1,1⟩,0,none⟩]⟩] = []) ∧
    merge_test_paths [⟨.fake,[⟨⟨2^30,2^30⟩,0,none⟩]⟩,⟨.run,[⟨⟨2^30,2^30⟩,0,none⟩]⟩] (2^30+1) [] true =
      some [⟨⟨2^30,2^30⟩,0,none⟩] ∧
    merge_test_paths [] 3 [] false = none := by
  refine ⟨⟨_,rfl,by decide +kernel,rfl⟩,by decide +kernel,rfl⟩
end
end TestEnvironment.Tester
