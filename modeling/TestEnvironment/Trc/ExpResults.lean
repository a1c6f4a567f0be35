import TestEnvironment.Tools.ExprEval

/-!
Expected results (`te_trc.h`): results of tests, entries and lists of them under tags, their comparison and
their copies (`db.c`). A queue is the list of its elements.
-/
namespace TestEnvironment.Trc
open Lib Tools

/-- `te_test_status`. -/
inductive TeTestStatus | INCOMPLETE | UNSPEC | EMPTY | SKIPPED | FAKED | PASSED | FAILED
  deriving DecidableEq, Repr
/-- `te_test_result`. -/
structure TeTestResult where
  status : TeTestStatus
  verdicts : List CStr
  artifacts : List CStr
  deriving DecidableEq, Repr
/-- `trc_exp_result_entry`. -/
structure TrcExpResultEntry where
  result : TeTestResult
  key : Option CStr
  notes : Option CStr
  is_expected : Bool
  deriving DecidableEq, Repr
/-- `trc_exp_result`. -/
structure TrcExpResult where
  tags_str : Option CStr
  tags_expr : Option LogicExpr
  tags : Option (List CStr)
  results : List TrcExpResultEntry
  key : Option CStr
  notes : Option CStr
  deriving DecidableEq, Repr

section

/-- The number of a status in its enumeration. -/
def TeTestStatus.number : TeTestStatus → Int
  | .INCOMPLETE => 0
  | .UNSPEC => 1
  | .EMPTY => 2
  | .SKIPPED => 3
  | .FAKED => 4
  | .PASSED => 5
  | .FAILED => 6
def strcmp_null : Option CStr → Option CStr → Int
  | none, none => 0
  | none, some _ => -1
  | some _, none => 1
  | some s, some t => strcmp s t
/-- `TRC_DUMMY_CMP` in front of a comparison. -/
def dummyCmp {α : Type} (cmp : α → α → Int) : Option α → Option α → Int
  | none, none => 0
  | none, some _ => -1
  | some _, none => 1
  | some p, some q => cmp p q
/-- The loop over two lists that compares their elements, and what it returns when one of them has ended. -/
def listsCmp {α : Type} (cmp : α → α → Int) (both : Int) : List α → List α → Int
  | [], [] => both
  | _ :: _, [] => 1
  | [], _ :: _ => -1
  | p :: ps, q :: qs => if cmp p q ≠ 0 then cmp p q else listsCmp cmp both ps qs
def trc_test_result_cmp (p q : TeTestResult) : Int :=
  let rc := p.status.number-q.status.number
  if rc ≠ 0 then rc else listsCmp strcmp 0 p.verdicts q.verdicts
def trc_exp_rentry_cmp (no_notes : Bool) (p q : TrcExpResultEntry) : Int :=
  if ¬ p.is_expected ∧ q.is_expected then -1
  else if p.is_expected ∧ ¬ q.is_expected then 1
  else if trc_test_result_cmp p.result q.result ≠ 0 then trc_test_result_cmp p.result q.result
  else if strcmp_null p.key q.key ≠ 0 then strcmp_null p.key q.key
  else if no_notes then 0
  else strcmp_null p.notes q.notes
/-- Tags that are `NULL` or empty are void. -/
def tagsVoid (tags_str : Option CStr) : Bool := tags_str = none || tags_str = some []
def tagsCmp (p q : Option CStr) : Int :=
  if tagsVoid p ∧ tagsVoid q then 0
  else if tagsVoid p then -1
  else if tagsVoid q then 1
  else strcmp_null p q
def trc_exp_result_cmp (no_tags no_notes : Bool) (p q : TrcExpResult) : Int :=
  let rc := if no_tags then 0 else tagsCmp p.tags_str q.tags_str
  if rc ≠ 0 then rc
  else listsCmp (trc_exp_rentry_cmp no_notes) (if strcmp_null p.key q.key ≠ 0 then strcmp_null p.key q.key else strcmp_null p.notes q.notes)
    p.results q.results

theorem strcmp_zero {s t : CStr} : strcmp s t = 0 ↔ s = t := by
  rw [strcmp]
  by_cases same : s = t
  · rw [same,strLess_irrefl]
    exact iff_of_true (by rw [if_neg Bool.false_ne_true,if_pos rfl]) rfl
  · refine iff_of_false ?_ same
    rw [if_neg same]
    split_ifs <;> decide
theorem strcmp_null_zero {s t : Option CStr} : strcmp_null s t = 0 ↔ s = t := by
  cases s with
  | none => cases t <;> simp [strcmp_null]
  | some s =>
    cases t with
    | none => simp [strcmp_null]
    | some t => exact strcmp_zero.trans (some_inj).symm
theorem listsCmp_zero {α β : Type} {cmp : α → α → Int} {both : Int} {view : α → β} (zero : ∀ {p q}, cmp p q = 0 ↔ view p = view q) {ps qs : List α} :
    listsCmp cmp both ps qs = 0 ↔ ps.map view = qs.map view ∧ both = 0 := by
  induction ps generalizing qs with
  | nil =>
    cases qs with
    | nil => exact (and_iff_right rfl).symm
    | cons q qs => simp [listsCmp]
  | cons p ps ih =>
    cases qs with
    | nil => simp [listsCmp]
    | cons q qs =>
      rw [listsCmp,map_cons,map_cons,List.cons_eq_cons,← zero,and_assoc,← ih]
      by_cases same : cmp p q = 0
      · rw [if_neg (not_not.mpr same),and_iff_right same]
      · omega
theorem number_inj {p q : TeTestStatus} : p.number-q.number = 0 ↔ p = q := by cases p <;> cases q <;> decide
/-- Artifacts are not compared. -/
theorem trc_test_result_zero {p q : TeTestResult} : trc_test_result_cmp p q = 0 ↔ p.status = q.status ∧ p.verdicts = q.verdicts := by
  have verdicts := @listsCmp_zero CStr CStr strcmp 0 id strcmp_zero p.verdicts q.verdicts
  rw [List.map_id,List.map_id,and_iff_left rfl] at verdicts
  rw [trc_test_result_cmp,← number_inj,← verdicts]
  by_cases same : p.status.number-q.status.number = 0
  · rw [if_neg (not_not.mpr same),and_iff_right same]
  · omega
/-- What of an entry is compared. -/
def entryView (e : TrcExpResultEntry) : Bool × TeTestStatus × List CStr × Option CStr × Option CStr :=
  (e.is_expected,e.result.status,e.result.verdicts,e.key,e.notes)
theorem trc_exp_rentry_zero {p q : TrcExpResultEntry} : trc_exp_rentry_cmp false p q = 0 ↔ entryView p = entryView q := by
  simp only [entryView,Prod.mk.injEq]
  rw [trc_exp_rentry_cmp,← strcmp_null_zero,← strcmp_null_zero,← and_assoc (a := p.result.status = _),← trc_test_result_zero]
  cases pe : p.is_expected <;> cases qe : q.is_expected <;> simp <;> split_ifs <;> simp_all
theorem tagsVoid_iff {p : Option CStr} : tagsVoid p = true ↔ p.getD [] = [] := by
  rw [tagsVoid]
  cases p <;> simp
theorem tags_zero {p q : Option CStr} : tagsCmp p q = 0 ↔ p.getD [] = q.getD [] := by
  have some_of {p : Option CStr} (text : ¬ tagsVoid p = true) : p = some (p.getD []) := by
    cases p with
    | none => exact absurd rfl text
    | some s => rfl
  rw [tagsCmp]
  by_cases p_void : tagsVoid p = true
  · have p_empty := tagsVoid_iff.mp p_void
    by_cases q_void : tagsVoid q = true
    · rw [if_pos ⟨p_void,q_void⟩,p_empty,tagsVoid_iff.mp q_void]
      exact iff_of_true rfl rfl
    · rw [if_neg (fun both => q_void both.2),if_pos p_void,p_empty]
      exact iff_of_false (by decide) fun same => q_void (tagsVoid_iff.mpr same.symm)
  · rw [if_neg (fun both => p_void both.1),if_neg p_void]
    by_cases q_void : tagsVoid q = true
    · rw [if_pos q_void,tagsVoid_iff.mp q_void]
      exact iff_of_false (by decide) fun same => p_void (tagsVoid_iff.mpr same)
    · rw [if_neg q_void,strcmp_null_zero]
      refine ⟨fun same => by rw [same],fun same => ?_⟩
      rw [some_of p_void,some_of q_void,same]
/-- What of an expected result is compared. -/
def resultView (r : TrcExpResult) : CStr × List (Bool × TeTestStatus × List CStr × Option CStr × Option CStr) × Option CStr × Option CStr :=
  (r.tags_str.getD [],r.results.map entryView,r.key,r.notes)
theorem trc_exp_result_zero {p q : TrcExpResult} : trc_exp_result_cmp false false p q = 0 ↔ resultView p = resultView q := by
  have behind : (if strcmp_null p.key q.key ≠ 0 then strcmp_null p.key q.key else strcmp_null p.notes q.notes) = 0 ↔ p.key = q.key ∧ p.notes = q.notes := by
    rw [← strcmp_null_zero,← strcmp_null_zero]
    by_cases same : strcmp_null p.key q.key = 0
    · rw [if_neg (not_not.mpr same),and_iff_right same]
    · omega
  have lists := @listsCmp_zero _ _ (trc_exp_rentry_cmp false)
    (if strcmp_null p.key q.key ≠ 0 then strcmp_null p.key q.key else strcmp_null p.notes q.notes) entryView trc_exp_rentry_zero p.results q.results
  simp only [resultView,Prod.mk.injEq]
  rw [trc_exp_result_cmp,← behind,← lists,← tags_zero,if_neg Bool.false_ne_true]
  by_cases same : tagsCmp p.tags_str q.tags_str = 0
  · rw [if_neg (not_not.mpr same),and_iff_right same]
  · rw [if_pos same]
    exact iff_of_false same fun both => same both.1
end

section

/-- `trc_exp_result_entry_dup`, `te_test_result_cpy`: every text is copied. -/
def trc_exp_result_entry_dup (rentry : TrcExpResultEntry) : TrcExpResultEntry := rentry
/-- The tag strings of an update from logs are not copied. -/
def trc_exp_result_dup (result : TrcExpResult) : TrcExpResult :=
  {result with tags := none, results := result.results.map trc_exp_result_entry_dup}

/-- A copy compares equal. -/
theorem dup_view (r : TrcExpResult) : resultView (trc_exp_result_dup r) = resultView r := by
  rw [resultView,trc_exp_result_dup,map_map]
  rfl
end
end TestEnvironment.Trc
