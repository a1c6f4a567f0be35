import TestEnvironment.Trc.ExpResults

/-!
The comparison of the expected results of two sets of tags (`diff.c` of the TRC tools, `compare.c`). What sets, keys and statistics an entry of the
comparison has is kept by their identifiers; results are told apart by their places. `none`: an assertion fails.
-/
namespace TestEnvironment.Trc
open Lib Tools

section

/-- `trc_test_status`; `MAX` is `TRC_TEST_STATUS_MAX`. -/
inductive TrcTestStatus | PASSED | PASSED_UNE | FAILED | FAILED_UNE | UNSTABLE | SKIPPED | UNSPECIFIED | MAX
  deriving DecidableEq, Repr
inductive TrcDiffStatus | MATCH | NO_MATCH | NO_MATCH_IGNORE
  deriving DecidableEq, Repr
def TRC_DIFF_IDS : Nat := 31
/-- The sets of a comparison: the arrays of entries and statistics have a place for each. -/
abbrev DiffId := Fin TRC_DIFF_IDS
/-- What of a `trc_diff_set` the comparison reads and counts. -/
structure DiffSet where
  ignore : List CStr
  keys_stats : List (CStr × Nat)
/-- The sets, the keys of the parent entry, and the counters of the statistics. -/
structure DiffState where
  sets : DiffId → DiffSet
  keys : DiffId → List CStr
  stats : Option (DiffId → DiffId → TrcTestStatus → TrcTestStatus → TrcDiffStatus → Nat)

/-- The two walks over verdicts, up to the first difference. -/
def verdictsEqual : List CStr → List CStr → Bool
  | [],[] => true
  | v1 :: lhv,v2 :: rhv => if v1 = v2 then verdictsEqual lhv rhv else false
  | _,_ => false
def te_test_results_equal (lhv rhv : TeTestResult) : Bool := if lhv.status ≠ rhv.status then false else verdictsEqual lhv.verdicts rhv.verdicts
def trc_is_result_expected (expected : TrcExpResult) (obtained : TeTestResult) : Option TrcExpResultEntry :=
  expected.results.find? fun p => te_test_results_equal obtained p.result
def trc_diff_check_key (set : DiffSet) (key : Option CStr) : Bool := set.ignore.any fun v => startsWith v (key.getD [])
def tad_diff_key_stat_inc (keys_stats : List (CStr × Nat)) (key : Option CStr) : List (CStr × Nat) :=
  if keys_stats.any fun p => p.1 = key.getD [] then keys_stats.map fun p => if p.1 = key.getD [] then (p.1,p.2+1) else p
  else keys_stats ++ [(key.getD [],1)]
def tq_strings_add_uniq (list : List CStr) (value : CStr) : List CStr := if value ∈ list then list else list ++ [value]
def test_status_te2trc : TeTestStatus → Option TrcTestStatus
  | .PASSED => some .PASSED
  | .FAILED => some .FAILED
  | .SKIPPED => some .SKIPPED
  | .UNSPEC => some .UNSPECIFIED
  | .INCOMPLETE => some .UNSPECIFIED
  | .EMPTY => none
  | .FAKED => none
def trc_test_status_merge (result add : TrcTestStatus) : Option TrcTestStatus :=
  if result = .UNSPECIFIED then some add
  else if add = .MAX ∨ add = .UNSTABLE then none
  else if result = add then some result
  else if result = .MAX then some add
  else if add = .UNSPECIFIED then some result
  else if result = .UNSTABLE then some result
  else if result = .PASSED ∧ add = .FAILED ∨ result = .FAILED ∧ add = .PASSED then some .UNSTABLE
  else if result = .SKIPPED then some add
  else if add = .SKIPPED then some result
  else none
/-- The assertion over the statuses of two results that match. -/
def Alike (status_i status_j : TrcTestStatus) : Prop := status_i = status_j ∨
  (status_i = .PASSED ∨ status_i = .PASSED_UNE) ∧ (status_j = .PASSED ∨ status_j = .PASSED_UNE) ∨
  (status_i = .FAILED ∨ status_i = .FAILED_UNE) ∧ (status_j = .FAILED ∨ status_j = .FAILED_UNE)
instance (status_i status_j : TrcTestStatus) : Decidable (Alike status_i status_j) := inferInstanceAs (Decidable (_ ∨ _))
/-- `trc_diff_stats_inc`, if there are statistics. -/
def trc_diff_stats_inc (st : DiffState) (set_i : DiffId) (status_i : TrcTestStatus) (set_j : DiffId) (status_j : TrcTestStatus) (diff : TrcDiffStatus) :
    Option DiffState :=
  match st.stats with
  | none => some st
  | some stats =>
    if status_i = .MAX ∨ status_j = .MAX ∨ diff = .MATCH ∧ ¬Alike status_i status_j then none
    else some {st with stats := some (update stats set_i (update (stats set_i) set_j (update (stats set_i set_j) status_i
      (update (stats set_i set_j status_i) status_j (update (stats set_i set_j status_i status_j) diff
        (stats set_i set_j status_i status_j diff+1))))))}

/-- What a loop over entries keeps. -/
structure DiffLoop where
  st : DiffState
  status : TrcTestStatus
  diff : TrcDiffStatus
  main_key_used : Bool
/-- The statistics of the key of a difference that is not ignored, and the keys of the set. -/
def countKey (id : DiffId) (result : TrcExpResult) (p : TrcExpResultEntry) (loop : DiffLoop) : DiffLoop :=
  let counted (key : Option CStr) : DiffState := {loop.st with
    sets := update loop.st.sets id {loop.st.sets id with keys_stats := tad_diff_key_stat_inc (loop.st.sets id).keys_stats key}
    keys := match key with
      | none => loop.st.keys
      | some key => update loop.st.keys id (tq_strings_add_uniq (loop.st.keys id) key)}
  if p.key ≠ none then {loop with st := counted p.key}
  else if ¬loop.main_key_used then {loop with main_key_used := true, st := counted result.key}
  else loop
/-- One entry of the result of the set `id`, which is looked for in the other result unless both are one. -/
def lookFor (id : DiffId) (result other : TrcExpResult) (same : Bool) (p : TrcExpResultEntry) (loop : DiffLoop) : DiffLoop :=
  if ¬same ∧ trc_is_result_expected other p.result = none then
    if ¬trc_diff_check_key (loop.st.sets id) (if p.key ≠ none then p.key else result.key) then {countKey id result p loop with diff := .NO_MATCH}
    else if loop.diff = .NO_MATCH then loop
    else if loop.diff = .MATCH then {loop with diff := .NO_MATCH_IGNORE}
    else loop
  else loop
def compareEntry (id : DiffId) (result other : TrcExpResult) (same : Bool) (p : TrcExpResultEntry) (loop : DiffLoop) : Option DiffLoop := do
  let loop := lookFor id result other same p loop
  let add ← test_status_te2trc p.result.status
  let status ← trc_test_status_merge loop.status add
  return {loop with status}
def compareEntries (id : DiffId) (result other : TrcExpResult) (same : Bool) : List TrcExpResultEntry → DiffLoop → Option DiffLoop
  | [],loop => some loop
  | p :: ps,loop => (compareEntry id result other same p loop).bind (compareEntries id result other same ps)
/-- Without entries the result is unspecified. -/
def orUnspecified (status : TrcTestStatus) : TrcTestStatus := if status = .MAX then .UNSPECIFIED else status
/-- The results are at the places `r1` and `r2` of the memory. -/
def trc_diff_compare (memory : Nat → TrcExpResult) (id1 : DiffId) (r1 : Nat) (id2 : DiffId) (r2 : Nat) (st : DiffState) : Option (DiffState × TrcDiffStatus) := do
  let result1 := memory r1
  let result2 := memory r2
  let first ← compareEntries id1 result1 result2 (r1 = r2) result1.results ⟨st,.MAX,.MATCH,false⟩
  let status1 := orUnspecified first.status
  if r1 = r2 then
    let st ← trc_diff_stats_inc first.st id1 status1 id2 status1 .MATCH
    return (st,.MATCH)
  else
    let second ← compareEntries id2 result2 result1 false result2.results ⟨first.st,.MAX,first.diff,false⟩
    let status2 := orUnspecified second.status
    let st ← trc_diff_stats_inc second.st id1 status1 id2 status2 second.diff
    return (st,second.diff)
end

section

/-- What two entries are compared by. -/
def outcomeOf (e : TrcExpResultEntry) : TeTestStatus × List CStr := (e.result.status,e.result.verdicts)
def outcomes (r : TrcExpResult) : List (TeTestStatus × List CStr) := r.results.map outcomeOf
/-- An entry that the other result has not, with a key that no pattern covers. -/
def Uncovered (ignore : List CStr) (result other : TrcExpResult) : Prop :=
  ∃ p ∈ result.results, outcomeOf p ∉ outcomes other ∧ trc_diff_check_key ⟨ignore,[]⟩ (if p.key ≠ none then p.key else result.key) = false
/-- The comparison of two results as sets of statuses with verdicts. -/
structure Compared (ignore1 ignore2 : List CStr) (result1 result2 : TrcExpResult) (diff : TrcDiffStatus) : Prop where
  equal : diff = .MATCH ↔ ∀ o, o ∈ outcomes result1 ↔ o ∈ outcomes result2
  uncovered : diff = .NO_MATCH ↔ Uncovered ignore1 result1 result2 ∨ Uncovered ignore2 result2 result1
/-- The statuses that the tools have. -/
def Mapped (r : TrcExpResult) : Prop := ∀ e ∈ r.results, test_status_te2trc e.result.status ≠ none
/-- What statuses accumulate to. -/
def accumulated (l : List TeTestStatus) : TrcTestStatus :=
  if l = [] then .MAX
  else if .PASSED ∈ l ∧ .FAILED ∈ l then .UNSTABLE
  else if .PASSED ∈ l then .PASSED
  else if .FAILED ∈ l then .FAILED
  else if .SKIPPED ∈ l then .SKIPPED
  else .UNSPECIFIED
end

section
variable  {id : DiffId} {result other : TrcExpResult} {same : Bool} {p : TrcExpResultEntry} {ps : List TrcExpResultEntry}
  {loop loop' : DiffLoop}

theorem equal_iff {lhv rhv : TeTestResult} : te_test_results_equal lhv rhv = true ↔ lhv.status = rhv.status ∧ lhv.verdicts = rhv.verdicts := by
  have verdicts : ∀ l r, verdictsEqual l r = true ↔ l = r := by
    intro l
    induction l with
    | nil => intro r; cases r <;> simp [verdictsEqual]
    | cons v l ih => intro r; cases r <;> simp [verdictsEqual,ih]
  rw [te_test_results_equal]
  by_cases status : lhv.status = rhv.status <;> simp [status,verdicts]
theorem expected_iff : trc_is_result_expected other p.result = none ↔ outcomeOf p ∉ outcomes other := by
  simp only [trc_is_result_expected,find?_eq_none,equal_iff,outcomes,outcomeOf,mem_map,Prod.mk.injEq,not_exists,not_and]
  exact forall₂_congr fun e _ => ⟨fun apart status verdicts => apart status.symm verdicts.symm,fun apart status verdicts => apart status.symm verdicts.symm⟩
variable {l : List TeTestStatus}

/-- A further status is merged into the accumulated ones. -/
theorem merge_accumulated {s : TeTestStatus} {t : TrcTestStatus} (mapped : test_status_te2trc s = some t) :
    trc_test_status_merge (accumulated l) t = some (accumulated (l ++ [s])) := by
  by_cases empty : l = []
  · subst empty
    cases s <;> cases mapped <;> rfl
  · by_cases passed : TeTestStatus.PASSED ∈ l <;> by_cases failed : TeTestStatus.FAILED ∈ l <;> by_cases skipped : TeTestStatus.SKIPPED ∈ l <;>
      cases s <;> cases mapped <;> simp [accumulated,trc_test_status_merge,empty,passed,failed,skipped]
theorem countKey_kept : (countKey id result p loop).status = loop.status ∧ ∀ i, ((countKey id result p loop).st.sets i).ignore = (loop.st.sets i).ignore := by
  have counted (stats : List (CStr × Nat)) (i : DiffId) :
      (update loop.st.sets id {loop.st.sets id with keys_stats := stats} i).ignore = (loop.st.sets i).ignore := by
    by_cases own : i = id <;> simp [own]
  rw [countKey]
  by_cases here : p.key ≠ none
  · rw [if_pos here]
    exact ⟨rfl,counted _⟩
  · rw [if_neg here]
    by_cases used : loop.main_key_used = true
    · rw [if_neg (not_not.mpr used)]
      exact ⟨rfl,fun _ => rfl⟩
    · rw [if_pos used]
      exact ⟨rfl,counted _⟩

/-- The entries `seen` so far: their statuses are accumulated, and `diff` tells of those which the other result has not. -/
structure Walked (id : DiffId) (ignore : DiffId → List CStr) (result other : TrcExpResult) (same : Bool) (before : TrcDiffStatus) (seen : List TrcExpResultEntry)
    (loop : DiffLoop) : Prop where
  status : loop.status = accumulated (seen.map fun p => p.result.status)
  ignored : ∀ i, (loop.st.sets i).ignore = ignore i
  equal : loop.diff = .MATCH ↔ before = .MATCH ∧ (same = false → ∀ p ∈ seen, outcomeOf p ∈ outcomes other)
  uncovered : loop.diff = .NO_MATCH ↔ before = .NO_MATCH ∨ same = false ∧ ∃ p ∈ seen, outcomeOf p ∉ outcomes other ∧
    trc_diff_check_key ⟨ignore id,[]⟩ (if p.key ≠ none then p.key else result.key) = false

variable {ignore : DiffId → List CStr} {before : TrcDiffStatus} {seen : List TrcExpResultEntry}
theorem lookFor_spec : (lookFor id result other same p loop).status = loop.status ∧
    (∀ i, ((lookFor id result other same p loop).st.sets i).ignore = (loop.st.sets i).ignore) ∧ (lookFor id result other same p loop).diff =
      if same = false ∧ outcomeOf p ∉ outcomes other then
        if trc_diff_check_key ⟨(loop.st.sets id).ignore,[]⟩ (if p.key ≠ none then p.key else result.key) = false then .NO_MATCH
        else if loop.diff = .MATCH then .NO_MATCH_IGNORE else loop.diff
      else loop.diff := by
  have covers : trc_diff_check_key ⟨(loop.st.sets id).ignore,[]⟩ = trc_diff_check_key (loop.st.sets id) := rfl
  obtain ⟨status_kept,ignore_kept⟩ := @countKey_kept id result p loop
  simp only [lookFor,expected_iff,covers,Bool.not_eq_true]
  by_cases missing : same = false ∧ outcomeOf p ∉ outcomes other
  · rw [if_pos missing,if_pos missing]
    by_cases key : trc_diff_check_key (loop.st.sets id) (if p.key ≠ none then p.key else result.key) = false
    · rw [if_pos key,if_pos key]
      exact ⟨status_kept,ignore_kept,rfl⟩
    · rw [if_neg key,if_neg key]
      cases diff : loop.diff <;> simp [diff]
  · rw [if_neg missing,if_neg missing]
    exact ⟨rfl,fun _ => rfl,rfl⟩
/-- One entry more, if its status is mapped. -/
theorem Walked.step (walked : Walked id ignore result other same before seen loop) {add : TrcTestStatus}
    (mapped : test_status_te2trc p.result.status = some add) :
    ∃ loop', compareEntry id result other same p loop = some loop' ∧ Walked id ignore result other same before (seen ++ [p]) loop' := by
  obtain ⟨status,ignored,equal,uncovered⟩ := walked
  obtain ⟨status_kept,ignore_kept,diff⟩ := @lookFor_spec id result other same p loop
  have merged := merge_accumulated (l := seen.map fun p => p.result.status) mapped
  rw [← status] at merged
  refine ⟨{lookFor id result other same p loop with status := accumulated (seen.map (fun p => p.result.status) ++ [p.result.status])},?_,?_⟩
  · simp [compareEntry,mapped,status_kept,merged]
  · rw [ignored] at diff
    refine ⟨by simp,fun i => (ignore_kept i).trans (ignored i),?_,?_⟩
    · simp only [diff,mem_append,mem_singleton]
      grind
    · simp only [diff,mem_append,mem_singleton]
      grind
/-- The whole result, if all statuses are mapped. -/
theorem Walked.run (walked : Walked id ignore result other same before seen loop) (mapped : ∀ p ∈ ps, test_status_te2trc p.result.status ≠ none) :
    ∃ loop', compareEntries id result other same ps loop = some loop' ∧ Walked id ignore result other same before (seen ++ ps) loop' := by
  induction ps generalizing seen loop with
  | nil => exact ⟨loop,rfl,by rwa [append_nil]⟩
  | cons p ps ih =>
    obtain ⟨add,there⟩ := ne_none_iff_exists'.mp (mapped p mem_cons_self)
    obtain ⟨next,entry,walked⟩ := walked.step there
    obtain ⟨last,rest,walked⟩ := ih walked fun q there => mapped q (mem_cons_of_mem _ there)
    refine ⟨last,?_,by simpa using walked⟩
    rw [compareEntries,entry]
    exact rest
theorem unmapped_fails {e : TrcExpResultEntry} (there : e ∈ ps) (unmapped : test_status_te2trc e.result.status = none) :
    compareEntries id result other same ps loop = none := by
  induction ps generalizing loop with
  | nil => cases there
  | cons p ps ih =>
    rw [compareEntries]
    obtain rfl | later := mem_cons.mp there
    · simp [compareEntry,unmapped]
    · cases compareEntry id result other same p loop with
      | none => rfl
      | some next => exact ih later
/-- What statuses accumulate to depends on which there are. -/
theorem accumulated_congr {l' : List TeTestStatus} (same : ∀ s, s ∈ l ↔ s ∈ l') : accumulated l = accumulated l' := by
  have empty : l = [] ↔ l' = [] := by simp only [List.eq_nil_iff_forall_not_mem,same]
  simp only [accumulated,empty,same]
theorem accumulated_settled : orUnspecified (accumulated l) ≠ .MAX := by
  rw [accumulated]
  split_ifs <;> decide
end

section
variable {memory : Nat → TrcExpResult} {id1 id2 : DiffId} {r1 r2 : Nat} {st st' : DiffState}

/-- The statuses of the entries of a result that match no order. -/
def statuses (r : TrcExpResult) : List TeTestStatus := r.results.map fun p => p.result.status

theorem stats_counted {status_i status_j : TrcTestStatus} {diff : TrcDiffStatus} (first : status_i ≠ .MAX) (second : status_j ≠ .MAX)
    (alike : diff = .MATCH → status_i = status_j) : ∃ st', trc_diff_stats_inc st id1 status_i id2 status_j diff = some st' := by
  rw [trc_diff_stats_inc]
  cases st.stats with
  | none => exact ⟨_,rfl⟩
  | some stats =>
    refine ⟨_,if_neg ?_⟩
    rintro (here | here | ⟨same,other⟩)
    · exact first here
    · exact second here
    · exact other (.inl (alike same))
variable {result1 result2 : TrcExpResult}

theorem statuses_of_outcomes (same : ∀ o, o ∈ outcomes result1 ↔ o ∈ outcomes result2) (s : TeTestStatus) :
    s ∈ statuses result1 ↔ s ∈ statuses result2 := by
  have of_outcomes : ∀ r, s ∈ statuses r ↔ ∃ v, (s,v) ∈ outcomes r := by
    intro r
    simp only [statuses,outcomes,outcomeOf,mem_map,Prod.mk.injEq]
    grind
  rw [of_outcomes,of_outcomes]
  simp only [same]
/-- Two results with mapped statuses are compared, with the status that both have as sets. -/
theorem compare_mapped (mapped1 : Mapped (memory r1)) (mapped2 : Mapped (memory r2)) : ∃ st' diff,
    trc_diff_compare memory id1 r1 id2 r2 st = some (st',diff) ∧ Compared (st.sets id1).ignore (st.sets id2).ignore (memory r1) (memory r2) diff := by
  have start : ∀ id result other same before (st' : DiffState), (∀ i, (st'.sets i).ignore = (st.sets i).ignore) →
      Walked id (fun i => (st.sets i).ignore) result other same before [] ⟨st',.MAX,before,false⟩ := by
    intro id result other same before st' kept
    exact ⟨rfl,kept,by simp,by simp⟩
  obtain ⟨first,run1,walked1⟩ := (start id1 (memory r1) (memory r2) (r1 = r2) .MATCH st fun _ => rfl).run mapped1
  have settled1 : orUnspecified first.status ≠ .MAX := by
    rw [walked1.status]
    exact accumulated_settled
  by_cases one : r1 = r2
  · obtain ⟨st',counted⟩ := @stats_counted id1 id2 first.st _ _ .MATCH settled1 settled1 fun _ => rfl
    refine ⟨st',.MATCH,?_,?_,?_⟩
    · simp only [trc_diff_compare,run1,bind_eq_bind,bind_some,if_pos one,counted]
      rfl
    · simp [one]
    · refine iff_of_false (by decide) ?_
      have own : ∀ ignore, ¬Uncovered ignore (memory r2) (memory r2) := fun _ ⟨p,there,other,_⟩ => other (mem_map_of_mem there)
      rw [one]
      rintro (first | second)
      · exact own _ first
      · exact own _ second
  · obtain ⟨second,run2,walked2⟩ := (start id2 (memory r2) (memory r1) false first.diff first.st walked1.ignored).run mapped2
    have differ : (decide (r1 = r2)) = false := decide_eq_false one
    have equal1 := walked1.equal
    have uncovered1 := walked1.uncovered
    simp only [nil_append,differ,true_and,forall_const] at equal1 uncovered1
    have equal2 := walked2.equal
    have uncovered2 := walked2.uncovered
    simp only [nil_append,forall_const,equal1,uncovered1,true_and] at equal2 uncovered2
    have compared : Compared (st.sets id1).ignore (st.sets id2).ignore (memory r1) (memory r2) second.diff := by
      refine ⟨?_,?_⟩
      · rw [equal2,← List.forall_mem_map (f := outcomeOf) (P := (· ∈ outcomes (memory r2))),← List.forall_mem_map (f := outcomeOf) (P := (· ∈ outcomes (memory r1)))]
        exact ⟨fun both o => ⟨both.1 o,both.2 o⟩,fun same => ⟨fun o => (same o).mp,fun o => (same o).mpr⟩⟩
      · rw [uncovered2]
        simp [Uncovered]
    have settled2 : orUnspecified second.status ≠ .MAX := by
      rw [walked2.status]
      exact accumulated_settled
    have alike : second.diff = .MATCH → orUnspecified first.status = orUnspecified second.status := by
      intro same
      rw [walked1.status,walked2.status]
      exact congrArg _ (accumulated_congr (statuses_of_outcomes (compared.equal.mp same)))
    obtain ⟨st',counted⟩ := @stats_counted id1 id2 second.st _ _ _ settled1 settled2 alike
    refine ⟨st',second.diff,?_,compared⟩
    simp only [trc_diff_compare,run1,bind_eq_bind,bind_some,if_neg one,run2,counted]
    rfl
/-- A status that is not mapped fails an assertion. -/
theorem compare_unmapped (some_unmapped : ¬(Mapped (memory r1) ∧ Mapped (memory r2))) : trc_diff_compare memory id1 r1 id2 r2 st = none := by
  have fails : ∀ {r}, ¬Mapped r → ∀ id other same loop, compareEntries id r other same r.results loop = none := by
    intro r unmapped id other same loop
    simp only [Mapped,not_forall,not_not] at unmapped
    obtain ⟨e,there,none_there⟩ := unmapped
    exact unmapped_fails there none_there
  rw [trc_diff_compare]
  dsimp only
  cases run1 : compareEntries id1 (memory r1) (memory r2) (r1 = r2) (memory r1).results ⟨st,.MAX,.MATCH,false⟩ with
  | none => rfl
  | some first =>
    have mapped1 : Mapped (memory r1) := by
      by_contra unmapped
      cases run1.symm.trans (fails unmapped _ _ _ _)
    have unmapped2 : ¬Mapped (memory r2) := fun mapped2 => some_unmapped ⟨mapped1,mapped2⟩
    have differ : r1 ≠ r2 := by
      rintro rfl
      exact unmapped2 mapped1
    simp [differ,fails unmapped2]
/-- The status of a comparison tells what it is. -/
theorem Compared.unique {ignore1 ignore2 : List CStr} {diff diff' : TrcDiffStatus}
    (compared : Compared ignore1 ignore2 result1 result2 diff) (turned : Compared ignore2 ignore1 result2 result1 diff') : diff' = diff := by
  have equal : diff' = .MATCH ↔ diff = .MATCH := by
    rw [compared.equal,turned.equal]
    exact forall_congr' fun o => Iff.comm
  have uncovered : diff' = .NO_MATCH ↔ diff = .NO_MATCH := by
    rw [compared.uncovered,turned.uncovered]
    exact Or.comm
  revert equal uncovered
  cases diff <;> cases diff' <;> decide

variable (memory id1 r1 id2 r2 st) in
/-- The comparison is symmetric, tells what it should, passes its assertions and reads no order of entries, if and only if the tools have
all statuses of both results. -/
theorem comparison_symmetric :
    ((∃ diff, Compared (st.sets id1).ignore (st.sets id2).ignore (memory r1) (memory r2) diff ∧
      (∃ st1, trc_diff_compare memory id1 r1 id2 r2 st = some (st1,diff)) ∧
      ∀ st', (∀ i, (st'.sets i).ignore = (st.sets i).ignore) → ∃ st2, trc_diff_compare memory id2 r2 id1 r1 st' = some (st2,diff)) ∧
    ∀ order, order.Perm (memory r1).results → ∀ before, ∃ loop loop', compareEntries id1 (memory r1) (memory r2) (r1 = r2) (memory r1).results ⟨st,.MAX,before,false⟩ = some loop ∧
      compareEntries id1 (memory r1) (memory r2) (r1 = r2) order ⟨st,.MAX,before,false⟩ = some loop' ∧ loop'.status = loop.status) ↔
    Mapped (memory r1) ∧ Mapped (memory r2) := by
  constructor
  · rintro ⟨⟨diff,-,⟨st1,done⟩,-⟩,-⟩
    by_contra unmapped
    cases done.symm.trans (compare_unmapped unmapped)
  · rintro ⟨mapped1,mapped2⟩
    obtain ⟨st1,diff,done,compared⟩ := @compare_mapped memory id1 id2 r1 r2 st mapped1 mapped2
    refine ⟨⟨diff,compared,⟨st1,done⟩,fun st' kept => ?_⟩,fun order perm before => ?_⟩
    · obtain ⟨st2,diff',done',turned⟩ := @compare_mapped memory id2 id1 r2 r1 st' mapped2 mapped1
      rw [kept,kept] at turned
      rw [compared.unique turned] at done'
      exact ⟨st2,done'⟩
    · have start : Walked id1 (fun i => (st.sets i).ignore) (memory r1) (memory r2) (r1 = r2) before [] ⟨st,.MAX,before,false⟩ :=
        ⟨rfl,fun _ => rfl,by simp,by simp⟩
      obtain ⟨loop,run,walked⟩ := start.run mapped1
      have all : ∀ p ∈ order, test_status_te2trc p.result.status ≠ none := fun p there => mapped1 p (perm.mem_iff.mp there)
      obtain ⟨loop',run',walked'⟩ := start.run all
      refine ⟨loop,loop',run,run',?_⟩
      rw [walked.status,walked'.status]
      exact accumulated_congr fun s => (perm.map _).mem_iff
/-- Two results that are both expected to be faked. -/
theorem faked_not_compared :
    trc_diff_compare (fun _ => ⟨none,none,none,[⟨⟨.FAKED,[],[]⟩,none,none,true⟩],none,none⟩) ⟨0,by decide⟩ 0 ⟨1,by decide⟩ 1 ⟨fun _ => ⟨[],[]⟩,fun _ => [],none⟩ = none := by
  refine compare_unmapped fun both => ?_
  exact both.1 _ (mem_singleton_self _) rfl
end
end TestEnvironment.Trc
