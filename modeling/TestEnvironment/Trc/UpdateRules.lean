import TestEnvironment.Lib.ListEdits
import TestEnvironment.Trc.ExpResults

/-!
Update rules for the expected results of an iteration (`update.c` of the update tool): verdicts, entries and whole
results that are equal to the old part of a rule are replaced by copies of its new part. Of the marks for what is saved
afterwards, only that of the iteration is kept.
-/
namespace TestEnvironment.Trc
open Lib

/-- `trc_update_rule` with what the rules for verdicts, entries and results read. -/
structure TrcUpdateRule where
  old_res : Option (List TrcExpResult)
  old_re : Option TrcExpResultEntry
  old_v : Option CStr
  new_res : Option (List TrcExpResult)
  new_re : Option TrcExpResultEntry
  new_v : Option CStr
  apply : Bool
/-- An iteration with the mark in its auxiliary data. -/
structure UpdatedIter where
  exp_results : List TrcExpResult
  to_save : Bool

section
variable (rule : TrcUpdateRule) (upd_only : Bool) (iter : UpdatedIter)

def trc_update_apply_rverdict : UpdatedIter :=
  if strcmp_null rule.old_v rule.new_v = 0 ∨ rule.old_v = none ∨ ¬ rule.apply then iter
  else
    let walk (e : TrcExpResultEntry) := editWalk (fun v => strcmp_null (some v) rule.old_v = 0) rule.new_v e.result.verdicts
    {exp_results := iter.exp_results.map fun r => {r with results := r.results.map fun e => {e with result := {e.result with verdicts := (walk e).1}}}
     to_save := iter.to_save || upd_only && iter.exp_results.any fun r => r.results.any fun e => (walk e).2}
def trc_update_apply_rrentry : UpdatedIter :=
  if dummyCmp (trc_exp_rentry_cmp false) rule.old_re rule.new_re = 0 ∨ rule.old_re = none ∨ ¬ rule.apply then iter
  else
    let walk (r : TrcExpResult) := editWalk (fun e => dummyCmp (trc_exp_rentry_cmp false) (some e) rule.old_re = 0)
      (rule.new_re.map trc_exp_result_entry_dup) r.results
    {exp_results := iter.exp_results.map fun r => {r with results := (walk r).1}
     to_save := iter.to_save || upd_only && iter.exp_results.any fun r => (walk r).2}
/-- The parts of a rule for results are the first of their lists. -/
def trc_update_apply_rresult : UpdatedIter :=
  let old_result := rule.old_res.bind List.head?
  let new_result := rule.new_res.bind List.head?
  if dummyCmp (trc_exp_result_cmp false false) old_result new_result = 0 ∨ old_result = none ∨ ¬ rule.apply then iter
  else
    let walk := editWalk (fun r => dummyCmp (trc_exp_result_cmp false false) (some r) old_result = 0) (new_result.map trc_exp_result_dup) iter.exp_results
    {exp_results := walk.1, to_save := iter.to_save || upd_only && walk.2}
end

section
variable {rule : TrcUpdateRule} {upd_only : Bool} {iter : UpdatedIter}

/-- The lists of an iteration where the old part is replaced or left out. -/
def verdictsRewritten (old : CStr) (new : Option CStr) (results : List TrcExpResult) : List TrcExpResult :=
  results.map fun r => {r with results := r.results.map fun e => {e with result := {e.result with verdicts := edited (· = old) new e.result.verdicts}}}
def entriesRewritten (old : TrcExpResultEntry) (new : Option TrcExpResultEntry) (results : List TrcExpResult) : List TrcExpResult :=
  results.map fun r => {r with results := edited (trc_exp_rentry_cmp false · old = 0) (new.map trc_exp_result_entry_dup) r.results}
def resultsRewritten (old : TrcExpResult) (new : Option TrcExpResult) (results : List TrcExpResult) : List TrcExpResult :=
  edited (trc_exp_result_cmp false false · old = 0) (new.map trc_exp_result_dup) results

theorem results_inj {f g : TrcExpResult → List TrcExpResultEntry} {results : List TrcExpResult} :
    results.map (fun r => {r with results := f r}) = results.map (fun r => {r with results := g r}) ↔ ∀ r ∈ results, f r = g r := by simp
theorem verdicts_inj {f g : TrcExpResultEntry → List CStr} {entries : List TrcExpResultEntry} :
    entries.map (fun e => {e with result := {e.result with verdicts := f e}}) = entries.map (fun e => {e with result := {e.result with verdicts := g e}}) ↔
      ∀ e ∈ entries, f e = g e := by simp
/-- A rule for verdicts whose parts are equal has nothing to replace. -/
theorem verdictsRewritten_same (old : CStr) (results : List TrcExpResult) : verdictsRewritten old (some old) results = results := by
  simp [edited_same,verdictsRewritten]
theorem rverdict_rewrites {old : CStr} (applies : rule.apply = true) (part : rule.old_v = some old) :
    (trc_update_apply_rverdict rule upd_only iter).exp_results = verdictsRewritten old rule.new_v iter.exp_results ↔
      rule.new_v.isSome ∨ ∀ r ∈ iter.exp_results, ∀ e ∈ r.results, NoNeighbours (· = old) e.result.verdicts := by
  rw [trc_update_apply_rverdict,part]
  by_cases same : strcmp_null (some old) rule.new_v = 0
  · rw [if_pos (.inl same),← strcmp_null_zero.mp same,verdictsRewritten_same]
    exact iff_of_true rfl (.inl rfl)
  · have goes : ¬ (strcmp_null (some old) rule.new_v = 0 ∨ some old = none ∨ ¬ rule.apply) := by grind
    have found : (fun v => decide (strcmp_null (some v) (some old) = 0)) = fun v => decide (v = old) := by
      funext v
      exact decide_eq_decide.mpr (strcmp_null_zero.trans some_inj)
    rw [if_neg goes,found,verdictsRewritten,results_inj]
    simp only [verdicts_inj,editWalk_iff,forall_or_left]
theorem rrentry_rewrites {old : TrcExpResultEntry} (applies : rule.apply = true) (part : rule.old_re = some old)
    (differ : dummyCmp (trc_exp_rentry_cmp false) (some old) rule.new_re ≠ 0) :
    (trc_update_apply_rrentry rule upd_only iter).exp_results = entriesRewritten old rule.new_re iter.exp_results ↔
      rule.new_re.isSome ∨ ∀ r ∈ iter.exp_results, NoNeighbours (trc_exp_rentry_cmp false · old = 0) r.results := by
  have goes : ¬ (dummyCmp (trc_exp_rentry_cmp false) (some old) rule.new_re = 0 ∨ some old = none ∨ ¬ rule.apply) := by grind
  rw [trc_update_apply_rrentry,part,if_neg goes,entriesRewritten,results_inj]
  refine (forall₂_congr fun r _ => editWalk_iff).trans ?_
  simp only [Option.isSome_map,forall_or_left]
  rfl
theorem rresult_rewrites {old : TrcExpResult} (applies : rule.apply = true) (part : rule.old_res.bind List.head? = some old)
    (differ : dummyCmp (trc_exp_result_cmp false false) (some old) (rule.new_res.bind List.head?) ≠ 0) :
    (trc_update_apply_rresult rule upd_only iter).exp_results = resultsRewritten old (rule.new_res.bind List.head?) iter.exp_results ↔
      (rule.new_res.bind List.head?).isSome ∨ NoNeighbours (trc_exp_result_cmp false false · old = 0) iter.exp_results := by
  have goes : ¬ (dummyCmp (trc_exp_result_cmp false false) (some old) (rule.new_res.bind List.head?) = 0 ∨ some old = none ∨ ¬ rule.apply) := by grind
  rw [trc_update_apply_rresult,part,if_neg goes,resultsRewritten]
  refine editWalk_iff.trans ?_
  rw [Option.isSome_map]
  rfl
/-- Entries of a rule that are equal: nothing changes, and a copy of the new part is equal to what it would replace. -/
theorem rrentry_equal {old : TrcExpResultEntry} (equal : dummyCmp (trc_exp_rentry_cmp false) (some old) rule.new_re = 0) (part : rule.old_re = some old) :
    (trc_update_apply_rrentry rule upd_only iter).exp_results = iter.exp_results ∧
    ∀ r ∈ iter.exp_results, List.Forall₂ (trc_exp_rentry_cmp false · · = 0) r.results
      (edited (trc_exp_rentry_cmp false · old = 0) (rule.new_re.map trc_exp_result_entry_dup) r.results) := by
  rw [trc_update_apply_rrentry,part,if_pos (.inl equal)]
  refine ⟨rfl,fun r _ => ?_⟩
  cases new : rule.new_re with
  | none =>
    rw [new] at equal
    cases equal
  | some e =>
    rw [new] at equal
    refine edited_alike (fun e => trc_exp_rentry_zero.mpr rfl) (fun x found => ?_) _
    exact trc_exp_rentry_zero.mpr ((trc_exp_rentry_zero.mp (of_decide_eq_true found)).trans (trc_exp_rentry_zero.mp equal))
theorem rresult_equal {old : TrcExpResult} (equal : dummyCmp (trc_exp_result_cmp false false) (some old) (rule.new_res.bind List.head?) = 0)
    (part : rule.old_res.bind List.head? = some old) :
    (trc_update_apply_rresult rule upd_only iter).exp_results = iter.exp_results ∧
    List.Forall₂ (trc_exp_result_cmp false false · · = 0) iter.exp_results (resultsRewritten old (rule.new_res.bind List.head?) iter.exp_results) := by
  rw [trc_update_apply_rresult,part,if_pos (.inl equal)]
  refine ⟨rfl,?_⟩
  cases new : rule.new_res.bind List.head? with
  | none =>
    rw [new] at equal
    cases equal
  | some r =>
    rw [new] at equal
    refine edited_alike (fun e => trc_exp_result_zero.mpr rfl) (fun x found => ?_) _
    refine trc_exp_result_zero.mpr ((trc_exp_result_zero.mp (of_decide_eq_true found)).trans ((trc_exp_result_zero.mp equal).trans ?_))
    exact (dup_view r).symm
/-- A rule rewrites every match if and only if it has a new part, or no two neighbours match. -/
theorem update_rules_rewrite (rule : TrcUpdateRule) (upd_only : Bool) (iter : UpdatedIter) (applies : rule.apply = true) :
    (∀ old, rule.old_v = some old → ((trc_update_apply_rverdict rule upd_only iter).exp_results = verdictsRewritten old rule.new_v iter.exp_results ↔
      rule.new_v.isSome ∨ ∀ r ∈ iter.exp_results, ∀ e ∈ r.results, NoNeighbours (· = old) e.result.verdicts)) ∧
    (∀ old, rule.old_re = some old →
      if dummyCmp (trc_exp_rentry_cmp false) (some old) rule.new_re ≠ 0 then
        ((trc_update_apply_rrentry rule upd_only iter).exp_results = entriesRewritten old rule.new_re iter.exp_results ↔
          rule.new_re.isSome ∨ ∀ r ∈ iter.exp_results, NoNeighbours (trc_exp_rentry_cmp false · old = 0) r.results)
      else (trc_update_apply_rrentry rule upd_only iter).exp_results = iter.exp_results ∧
        ∀ r ∈ iter.exp_results, List.Forall₂ (trc_exp_rentry_cmp false · · = 0) r.results
          (edited (trc_exp_rentry_cmp false · old = 0) (rule.new_re.map trc_exp_result_entry_dup) r.results)) ∧
    (∀ old, rule.old_res.bind List.head? = some old →
      if dummyCmp (trc_exp_result_cmp false false) (some old) (rule.new_res.bind List.head?) ≠ 0 then
        ((trc_update_apply_rresult rule upd_only iter).exp_results = resultsRewritten old (rule.new_res.bind List.head?) iter.exp_results ↔
          (rule.new_res.bind List.head?).isSome ∨ NoNeighbours (trc_exp_result_cmp false false · old = 0) iter.exp_results)
      else (trc_update_apply_rresult rule upd_only iter).exp_results = iter.exp_results ∧
        List.Forall₂ (trc_exp_result_cmp false false · · = 0) iter.exp_results
          (resultsRewritten old (rule.new_res.bind List.head?) iter.exp_results)) := by
  refine ⟨fun old part => rverdict_rewrites applies part,fun old part => ?_,fun old part => ?_⟩
  · grind [rrentry_rewrites,rrentry_equal]
  · grind [rresult_rewrites,rresult_equal]

/-- An iteration whose only entry has these verdicts. -/
def iterOf (verdicts : List CStr) : UpdatedIter := ⟨[⟨none,none,none,[⟨⟨.FAILED,verdicts,[]⟩,none,none,true⟩],none,none⟩],false⟩
def removeVerdict (old : CStr) : TrcUpdateRule := ⟨none,none,some old,none,none,none,true⟩
theorem update_rules_rewrite_once : (removeVerdict ['a']).apply = true ∧
    (trc_update_apply_rverdict (removeVerdict ['a']) true (iterOf [['a'],['b']])).exp_results =
      verdictsRewritten ['a'] none (iterOf [['a'],['b']]).exp_results :=
  ⟨rfl,((update_rules_rewrite (removeVerdict ['a']) true (iterOf [['a'],['b']]) rfl).1 ['a'] rfl).mpr (.inr (by decide))⟩
theorem same_verdict_twice : (trc_update_apply_rverdict (removeVerdict ['a']) true (iterOf [['a'],['a']])).exp_results ≠
    verdictsRewritten ['a'] none (iterOf [['a'],['a']]).exp_results := by decide
end
end TestEnvironment.Trc
