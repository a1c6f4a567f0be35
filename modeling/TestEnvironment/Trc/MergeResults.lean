import TestEnvironment.Lib.Occurrences
import TestEnvironment.Trc.ExpResults

/-!
The results of an iteration that are collected from logs (`trc_update_iter_data_merge_result` of `update.c`): a list of
records, each with a tag string and the results that were met with it. The tag expression of a log is taken as it is
when a result is merged.
-/
namespace TestEnvironment.Trc
open Lib Tools

section

/-- The flags of a context that a merge reads. -/
structure MergeFlags where
  no_incompl : Bool
  no_r_fail : Bool
  no_int_err : Bool
  tags_str : Bool
/-- The tag expression of a context with its text, and the arguments of a merge. -/
structure MergeInput where
  merge_str : CStr
  merge_expr : Option LogicExpr
  te_result : TeTestResult
  is_expected : Bool
/-- What a search tells: an element is its place in the list. -/
structure FoundResult where
  result_found : Bool
  entry_found : Bool
  result : Option Nat
  deriving DecidableEq, Repr

/-- `trc_test_result_cmp` tells that two results are equal. -/
def sameResult (p q : TeTestResult) : Bool := trc_test_result_cmp p q = 0
/-- `rc`, which is only set where both records have tags. -/
def tagsOrder (rc : Int) : Option CStr → Option CStr → Int
  | some s, some t => strcmp s t
  | _, _ => rc
def tagsFit (rc : Int) : Option CStr → Option CStr → Bool
  | none, none => true
  | some _, some _ => rc ≤ 0
  | _, _ => false
/-- The loop of `trc_update_find_result` for the tags and the first result of a record, from the element with the number `i` on. -/
def findResultLoop (tags_str : Option CStr) (first : TeTestResult) (no_tags : Bool) : Option Nat → Int → Nat → List TrcExpResult → FoundResult
  | _, _, _, [] => ⟨false,false,none⟩
  | prev, rc, i, p :: results =>
    let rc := tagsOrder rc p.tags_str tags_str
    let tags_fit := tagsFit rc p.tags_str tags_str
    if no_tags ∨ rc = 0 ∧ tags_fit then
      if p.results.any fun q => sameResult q.result first then ⟨true,true,some i⟩
      else if ¬ no_tags then ⟨true,false,some i⟩
      else findResultLoop tags_str first no_tags (some i) rc (i+1) results
    else if ¬ no_tags ∧ rc ≠ 0 ∧ tags_fit then ⟨false,false,prev⟩
    else findResultLoop tags_str first no_tags (some i) rc (i+1) results
def trc_update_find_result (tags_str : Option CStr) (first : TeTestResult) (results : List TrcExpResult) (no_tags : Bool) : FoundResult :=
  findResultLoop tags_str first no_tags none 0 0 results
/-- `STAILQ_INSERT_AFTER`, or `STAILQ_INSERT_TAIL` where there is no element to insert after. -/
def insertResult (res : Option Nat) (merge_result : TrcExpResult) (results : List TrcExpResult) : List TrcExpResult :=
  match res with
  | some i => results.take (i+1) ++ merge_result :: results.drop (i+1)
  | none => results ++ [merge_result]
/-- `TAILQ_INSERT_TAIL` at the results of an element. -/
def appendEntry (res : Option Nat) (result_entry : TrcExpResultEntry) (results : List TrcExpResult) : List TrcExpResult :=
  match res with
  | some i => results.modify i fun p => {p with results := p.results ++ [result_entry]}
  | none => results

variable (flags : MergeFlags) (input : MergeInput)

/-- Results that are left out. -/
def skipped : Bool :=
  flags.no_incompl && input.te_result.status = .INCOMPLETE ||
  flags.no_r_fail && input.te_result.status = .FAILED && input.te_result.verdicts.isEmpty ||
  flags.no_int_err && input.te_result.verdicts.contains "Internal error".toList
def mergeTags : Option CStr := if flags.tags_str then some input.merge_str else input.merge_expr.map logic_expr_to_str
def resultEntry : TrcExpResultEntry := ⟨input.te_result,none,none,input.is_expected⟩
def mergeResult : TrcExpResult :=
  ⟨mergeTags flags input,input.merge_expr,if flags.tags_str then some [input.merge_str] else none,[resultEntry input],none,none⟩
def trc_update_iter_data_merge_result (new_results : List TrcExpResult) : List TrcExpResult :=
  if skipped flags input then new_results
  else
    let found := trc_update_find_result (mergeTags flags input) input.te_result new_results false
    if ¬ found.result_found then insertResult found.result (mergeResult flags input) new_results
    else if ¬ found.entry_found then appendEntry found.result (resultEntry input) new_results
    else new_results
/-- Results that are merged one after the other into an iteration that has none. -/
def mergeAll (inputs : List MergeInput) : List TrcExpResult :=
  inputs.foldl (fun new_results input => trc_update_iter_data_merge_result flags input new_results) []
end

section
variable {tags_str : Option CStr} {first : TeTestResult} {prev : Option Nat} {rc : Int} {i : Nat} {p : TrcExpResult} {front rest results : List TrcExpResult}

/-- A record where the search ends: one with the tags, or with tags that are smaller. -/
def Ends (tags_str : Option CStr) (p : TrcExpResult) : Prop := tagsFit (tagsOrder 0 p.tags_str tags_str) p.tags_str tags_str = true
instance (tags_str : Option CStr) (p : TrcExpResult) : Decidable (Ends tags_str p) := inferInstanceAs (Decidable (_ = true))

/-- Tags that are kept from an earlier comparison do not matter. -/
theorem fit_any (rc : Int) (s t : Option CStr) : tagsFit (tagsOrder rc s t) s t = tagsFit (tagsOrder 0 s t) s t := by
  cases s <;> cases t <;> rfl
theorem order_quiet {s : Option CStr} (quiet : tags_str = none → rc = 0) : tags_str = none → tagsOrder rc s tags_str = 0 := by
  rintro rfl
  cases s <;> exact quiet rfl
theorem order_zero (quiet : tags_str = none → rc = 0) (ends : Ends tags_str p) : tagsOrder rc p.tags_str tags_str = 0 ↔ p.tags_str = tags_str := by
  rw [Ends] at ends
  generalize p.tags_str = s at ends ⊢
  cases s with
  | none =>
    cases tags_str with
    | none => exact iff_of_true (quiet rfl) rfl
    | some t => cases ends
  | some s =>
    cases tags_str with
    | none => cases ends
    | some t => exact strcmp_zero.trans some_inj.symm
theorem loop_passes (other : ¬ Ends tags_str p) :
    findResultLoop tags_str first false prev rc i (p :: rest) =
      findResultLoop tags_str first false (some i) (tagsOrder rc p.tags_str tags_str) (i+1) rest := by
  have unfit : tagsFit (tagsOrder rc p.tags_str tags_str) p.tags_str tags_str = false := by
    rw [fit_any]
    exact Bool.eq_false_iff.mpr other
  rw [findResultLoop]
  simp only [unfit,false_eq_true,and_false,or_false,if_false]
theorem loop_ends (quiet : tags_str = none → rc = 0) (ends : Ends tags_str p) :
    findResultLoop tags_str first false prev rc i (p :: rest) =
      if p.tags_str = tags_str then ⟨true,p.results.any fun q => sameResult q.result first,some i⟩ else ⟨false,false,prev⟩ := by
  have fit : tagsFit (tagsOrder rc p.tags_str tags_str) p.tags_str tags_str = true := by
    rw [fit_any]
    exact ends
  rw [findResultLoop]
  simp only [fit,order_zero quiet ends,false_eq_true,and_true,false_or,not_false_eq_true,true_and,if_true]
  by_cases same : p.tags_str = tags_str
  · grind
  · simp_all [order_zero]
theorem find_none (all : ∀ p ∈ results, ¬ Ends tags_str p) :
    findResultLoop tags_str first false prev rc i results = ⟨false,false,none⟩ := by
  induction results generalizing prev rc i with
  | nil => rfl
  | cons p results ih => grind [loop_passes]
theorem find_at (front_passed : ∀ q ∈ front, ¬ Ends tags_str q) (ends : Ends tags_str p) (quiet : tags_str = none → rc = 0) :
    findResultLoop tags_str first false prev rc i (front ++ p :: rest) =
      if p.tags_str = tags_str then ⟨true,p.results.any fun q => sameResult q.result first,some (i+front.length)⟩
      else ⟨false,false,if front = [] then prev else some (i+front.length-1)⟩ := by
  induction front generalizing prev rc i with
  | nil => exact loop_ends quiet ends
  | cons q front ih =>
    rw [cons_append,loop_passes (front_passed q mem_cons_self),
      ih (fun q member => front_passed q (mem_cons_of_mem _ member)) (order_quiet quiet),length_cons,Nat.add_right_comm i 1,
      if_neg (cons_ne_nil q front)]
    congr 3
    split_ifs with empty
    · rw [empty]
      rfl
    · rfl
/-- The first record where the search ends, if there is one. -/
theorem first_end (tags_str : Option CStr) (results : List TrcExpResult) : (∀ p ∈ results, ¬ Ends tags_str p) ∨
    ∃ front p rest, results = front ++ p :: rest ∧ (∀ q ∈ front, ¬ Ends tags_str q) ∧ Ends tags_str p := by
  induction results with
  | nil => exact .inl fun p member => absurd member not_mem_nil
  | cons p results ih =>
    by_cases ends : Ends tags_str p
    · exact .inr ⟨[],p,results,rfl,fun q member => absurd member not_mem_nil,ends⟩
    · grind
/-- A record with tags that are smaller. -/
def Smaller (tags_str : Option CStr) (p : TrcExpResult) : Prop := ∃ s t, p.tags_str = some s ∧ tags_str = some t ∧ strLess s t = true
/-- The record with the tags, if there is one, has no record with smaller tags before it. -/
def Reached (tags_str : Option CStr) (results : List TrcExpResult) : Prop :=
  ∀ front p rest, results = front ++ p :: rest → p.tags_str = tags_str → ∀ q ∈ front, ¬ Smaller tags_str q

theorem ends_iff : Ends tags_str p ↔ p.tags_str = tags_str ∨ Smaller tags_str p := by
  rw [Ends,Smaller]
  generalize p.tags_str = s
  cases s with
  | none =>
    cases tags_str with
    | none => exact iff_of_true rfl (.inl rfl)
    | some t => exact iff_of_false nofun (by rintro (same | ⟨s,_,same,_⟩) <;> cases same)
  | some s =>
    cases tags_str with
    | none => exact iff_of_false nofun (by rintro (same | ⟨_,t,_,same,_⟩) <;> cases same)
    | some t =>
      show decide (strcmp s t ≤ 0) = true ↔ _
      rw [decide_eq_true_eq,strcmp,some_inj]
      by_cases less : strLess s t = true
      · grind
      · grind
end

section
variable {flags : MergeFlags} {input : MergeInput} {new_results : List TrcExpResult}

/-- Results are entered where none is the same. -/
def addEntry (entries : List TrcExpResultEntry) (entry : TrcExpResultEntry) : List TrcExpResultEntry :=
  if entries.any fun q => sameResult q.result entry.result then entries else entries ++ [entry]

theorem insert_last (front rest : List TrcExpResult) (new : TrcExpResult) (some_front : front ≠ []) :
    insertResult (some (0+front.length-1)) new (front ++ rest) = front ++ new :: rest := by
  have length : 0+front.length-1+1 = front.length := by
    have := length_pos_iff.mpr some_front
    omega
  rw [insertResult,length,take_left,drop_left]
theorem modify_at {α : Type} (front rest : List α) (p : α) (f : α → α) : (front ++ p :: rest).modify (0+front.length) f = front ++ f p :: rest := by
  rw [Nat.zero_add]
  induction front with
  | nil => rfl
  | cons q front ih => exact congrArg (q :: ·) ih
/-- Behind records that the search passes and one with smaller tags, every record with the tags has that before it. -/
theorem smaller_before {tags_str : Option CStr} {front front' rest rest' : List TrcExpResult} {p p' : TrcExpResult}
    (passed : ∀ q ∈ front, ¬ Ends tags_str q) (smaller : Smaller tags_str p) (differs : p.tags_str ≠ tags_str)
    (split : front ++ p :: rest = front' ++ p' :: rest') (same : p'.tags_str = tags_str) : ∃ q ∈ front', Smaller tags_str q := by
  obtain ⟨more,rfl,behind⟩ | ⟨more,rfl,behind⟩ := List.append_eq_append_iff.mp split
  · cases more with
    | nil =>
      obtain ⟨rfl,_⟩ := cons.inj behind
      exact absurd same differs
    | cons q more => grind
  · cases more with
    | nil =>
      obtain ⟨rfl,_⟩ := cons.inj behind
      exact absurd same differs
    | cons q more =>
      obtain ⟨rfl,_⟩ := cons.inj behind
      exact absurd (ends_iff.mpr (.inl same)) (passed p' (mem_append_right _ mem_cons_self))
/-- A merge changes the record of the tags, or enters one: where the search does not find the record. -/
theorem merge_cases (kept : skipped flags input = false) :
    (∃ front p rest, new_results = front ++ p :: rest ∧ p.tags_str = mergeTags flags input ∧ (∀ q ∈ front, ¬ Ends (mergeTags flags input) q) ∧
      trc_update_iter_data_merge_result flags input new_results = front ++ {p with results := addEntry p.results (resultEntry input)} :: rest) ∨
    ∃ front rest, new_results = front ++ rest ∧ trc_update_iter_data_merge_result flags input new_results = front ++ mergeResult flags input :: rest ∧
      ∀ front p rest, new_results = front ++ p :: rest → p.tags_str = mergeTags flags input → ∃ q ∈ front, Smaller (mergeTags flags input) q := by
  rw [trc_update_iter_data_merge_result,if_neg (Bool.eq_false_iff.mp kept),trc_update_find_result]
  obtain none | ⟨front,p,rest,rfl,passed,ends⟩ := first_end (mergeTags flags input) new_results
  · refine .inr ⟨new_results,[],(append_nil _).symm,?_,?_⟩
    · rw [find_none none]
      rfl
    · rintro front p rest rfl same
      exact absurd (ends_iff.mpr (.inl same)) (none p (mem_append_right _ mem_cons_self))
  · rw [find_at passed ends fun _ => rfl]
    by_cases same : p.tags_str = mergeTags flags input
    · refine .inl ⟨front,p,rest,rfl,same,passed,?_⟩
      rw [if_pos same,addEntry]
      dsimp only
      rw [if_neg (not_not.mpr rfl)]
      by_cases there : (p.results.any fun q => sameResult q.result input.te_result) = true
      · have there' : (p.results.any fun q => sameResult q.result (resultEntry input).result) = true := there
        rw [there,if_neg (not_not.mpr rfl),if_pos there']
      · have there' : ¬ (p.results.any fun q => sameResult q.result (resultEntry input).result) = true := there
        rw [if_pos there,if_neg there']
        exact modify_at front rest p _
    · rw [if_neg same]
      have smaller := (ends_iff.mp ends).resolve_left same
      refine .inr ?_
      by_cases empty : front = []
      · subst empty
        exact ⟨p :: rest,[],(append_nil _).symm,rfl,fun _ _ _ => smaller_before passed smaller same⟩
      · refine ⟨front,p :: rest,rfl,?_,fun _ _ _ => smaller_before passed smaller same⟩
        dsimp only
        rw [if_neg empty,if_pos nofun,insert_last front (p :: rest) _ empty]

/-- The records with some tags. -/
def recordsOf (tags_str : Option CStr) (results : List TrcExpResult) : List TrcExpResult := results.filter fun p => p.tags_str = tags_str

theorem recordsOf_append (tags_str : Option CStr) (front rest : List TrcExpResult) :
    recordsOf tags_str (front ++ rest) = recordsOf tags_str front ++ recordsOf tags_str rest := filter_append ..
theorem recordsOf_here {tags_str : Option CStr} {p : TrcExpResult} (same : p.tags_str = tags_str) (rest : List TrcExpResult) :
    recordsOf tags_str (p :: rest) = p :: recordsOf tags_str rest := filter_cons_of_pos (decide_eq_true same)
theorem recordsOf_other {tags_str : Option CStr} {p : TrcExpResult} (differs : p.tags_str ≠ tags_str) (rest : List TrcExpResult) :
    recordsOf tags_str (p :: rest) = recordsOf tags_str rest := filter_cons_of_neg (by rw [decide_eq_true_eq]; exact differs)
/-- What a merge does to the records with some tags. -/
theorem merge_records (kept : skipped flags input = false) (tags_str : Option CStr) :
    let records := recordsOf tags_str new_results
    let records' := recordsOf tags_str (trc_update_iter_data_merge_result flags input new_results)
    if mergeTags flags input ≠ tags_str then records' = records
    else (∃ before p behind, records = before ++ p :: behind ∧
        records' = before ++ {p with results := addEntry p.results (resultEntry input)} :: behind) ∨
      (∃ before behind, records = before ++ behind ∧ records' = before ++ mergeResult flags input :: behind) ∧
        (Reached tags_str new_results → records = []) := by
  have new_tags : (mergeResult flags input).tags_str = mergeTags flags input := rfl
  dsimp only
  obtain ⟨front,p,rest,rfl,same,_,merged⟩ | ⟨front,rest,split,merged,before⟩ := @merge_cases flags input new_results kept
  · split_ifs with other
    · grind [recordsOf_append,recordsOf_other]
    · rw [not_not] at other
      subst other
      exact .inl ⟨recordsOf _ front,p,recordsOf _ rest,by rw [recordsOf_append,recordsOf_here same],
        by rw [merged,recordsOf_append,recordsOf_here (by exact same)]⟩
  · split_ifs with other
    · rw [merged,split,recordsOf_append,recordsOf_append,recordsOf_other (by exact other)]
    · rw [not_not] at other
      subst other
      refine .inr ⟨⟨recordsOf _ front,recordsOf _ rest,by rw [split,recordsOf_append],by rw [merged,recordsOf_append,recordsOf_here new_tags]⟩,fun reached => ?_⟩
      refine filter_eq_nil_iff.mpr fun p member same => ?_
      obtain ⟨front',rest',split'⟩ := append_of_mem member
      obtain ⟨q,inside,smaller⟩ := before front' p rest' split' (of_decide_eq_true same)
      exact reached front' p rest' split' (of_decide_eq_true same) q inside smaller
end

section
variable {flags : MergeFlags} {inputs front rest : List MergeInput} {input : MergeInput} {new_results : List TrcExpResult}

/-- `sameResult` for the entries of a record. -/
def sameEntry (p q : TrcExpResultEntry) : Bool := sameResult p.result q.result
/-- The results that were merged with some tags. -/
def mergedWith (flags : MergeFlags) (inputs : List MergeInput) (tags_str : Option CStr) : List TrcExpResultEntry :=
  (inputs.filter fun input => !skipped flags input && decide (mergeTags flags input = tags_str)).map resultEntry
/-- There is a record for each tag string that was met, with the different results that were merged with it, each as it occurred first. -/
def Merged (flags : MergeFlags) (inputs : List MergeInput) (new_results : List TrcExpResult) : Prop :=
  ∀ tags_str, (recordsOf tags_str new_results).map TrcExpResult.results =
    if mergedWith flags inputs tags_str = [] then [] else [firstOccurrences sameEntry (mergedWith flags inputs tags_str)]

theorem sameEntry_trans {p q r : TrcExpResultEntry} (pq : sameEntry p q = true) (qr : sameEntry q r = true) : sameEntry p r = true := by
  have first := trc_test_result_zero.mp (of_decide_eq_true pq)
  have second := trc_test_result_zero.mp (of_decide_eq_true qr)
  exact decide_eq_true (trc_test_result_zero.mpr ⟨first.1.trans second.1,first.2.trans second.2⟩)
theorem mergedWith_concat (flags : MergeFlags) (inputs : List MergeInput) (input : MergeInput) (tags_str : Option CStr) :
    mergedWith flags (inputs ++ [input]) tags_str = mergedWith flags inputs tags_str ++ mergedWith flags [input] tags_str := by simp [mergedWith]
theorem mergedWith_met (kept : skipped flags input = false) : mergedWith flags [input] (mergeTags flags input) = [resultEntry input] := by
  rw [mergedWith,filter_cons_of_pos (by rw [kept,decide_eq_true rfl]; rfl)]
  rfl
theorem mergedWith_other {tags_str : Option CStr} (other : ¬ (skipped flags input = false ∧ mergeTags flags input = tags_str)) :
    mergedWith flags [input] tags_str = [] := by simp [other,mergedWith]
/-- A merge that reaches the record of its tags keeps every record complete. -/
theorem merged_step (merged : Merged flags inputs new_results) (reached : skipped flags input = false → Reached (mergeTags flags input) new_results) :
    Merged flags (inputs ++ [input]) (trc_update_iter_data_merge_result flags input new_results) := by
  intro tags_str
  have before := merged tags_str
  rw [mergedWith_concat]
  by_cases kept : skipped flags input = false
  · have step := @merge_records flags input new_results kept tags_str
    dsimp only at step
    by_cases same : mergeTags flags input = tags_str
    · subst same
      rw [if_neg (not_not.mpr rfl)] at step
      rw [mergedWith_met kept,if_neg (List.append_ne_nil_of_right_ne_nil _ (cons_ne_nil _ _))]
      obtain ⟨front,p,behind,records,records'⟩ | ⟨⟨front,behind,records,records'⟩,none⟩ := step
      · -- the only record with the tags has what was merged so far
        rw [records,map_append,map_cons] at before
        by_cases empty : mergedWith flags inputs (mergeTags flags input) = []
        · simp_all
        · rw [if_neg empty,List.append_eq_singleton_iff] at before
          obtain ⟨front_none,single⟩ | ⟨_,none⟩ := before
          · obtain ⟨results,behind_none⟩ := cons.inj single
            have entered := @firstOccurrences_concat _ sameEntry sameEntry_trans (mergedWith flags inputs (mergeTags flags input)) (resultEntry input)
            rw [records',map_append,map_cons,front_none,behind_none,entered,← results]
            rfl
          · exact absurd none (cons_ne_nil _ _)
      · have nothing := none (reached kept)
        rw [nothing] at before records
        obtain ⟨rfl,rfl⟩ := append_eq_nil_iff.mp records.symm
        have empty : mergedWith flags inputs (mergeTags flags input) = [] := by
          by_contra met
          rw [if_neg met] at before
          cases before
        rw [records',empty]
        rfl
    · simp_all [mergedWith_other]
  · simp [kept,before,mergedWith_other,trc_update_iter_data_merge_result]
/-- Records never get fewer, and a merge that does not reach the record of its tags makes another one. -/
theorem records_grow (input : MergeInput) (tags_str : Option CStr) : (recordsOf tags_str new_results).length ≤
    (recordsOf tags_str (trc_update_iter_data_merge_result flags input new_results)).length := by
  by_cases kept : skipped flags input = false
  · have step := @merge_records flags input new_results kept tags_str
    dsimp only at step
    split_ifs at step with other
    · rw [step]
    · grind
  · simp [kept,trc_update_iter_data_merge_result]
theorem mergeAll_concat (flags : MergeFlags) (inputs : List MergeInput) (input : MergeInput) :
    mergeAll flags (inputs ++ [input]) = trc_update_iter_data_merge_result flags input (mergeAll flags inputs) := by
  rw [mergeAll,List.foldl_concat]
  rfl
theorem records_stay (front rest : List MergeInput) (tags_str : Option CStr) :
    (recordsOf tags_str (mergeAll flags front)).length ≤ (recordsOf tags_str (mergeAll flags (front ++ rest))).length := by
  induction rest using List.reverseRecOn with
  | nil => rw [append_nil]
  | append_singleton rest input ih =>
    rw [← append_assoc,mergeAll_concat]
    exact ih.trans (records_grow input tags_str)
theorem missed_twice (kept : skipped flags input = false) (missed : ¬ Reached (mergeTags flags input) new_results)
    (once : (recordsOf (mergeTags flags input) new_results).length ≤ 1) :
    1 < (recordsOf (mergeTags flags input) (trc_update_iter_data_merge_result flags input new_results)).length := by
  obtain ⟨front,p,rest,rfl,same,passed,_⟩ | ⟨front,rest,split,merged,_⟩ := @merge_cases flags input new_results kept
  · -- the search found the only record with the tags, so that nothing smaller is before it
    refine absurd (fun front' p' rest' split same' q member smaller => ?_) missed
    obtain ⟨more,rfl,behind⟩ | ⟨more,rfl,_⟩ := List.append_eq_append_iff.mp split
    · cases more with
      | nil => exact passed q (append_nil front ▸ member) (ends_iff.mpr (.inr smaller))
      | cons x more =>
        obtain ⟨rfl,rest_eq⟩ := cons.inj behind
        change rest = more ++ p' :: rest' at rest_eq
        rw [rest_eq,recordsOf_append,recordsOf_here same,recordsOf_append,recordsOf_here same',length_append,length_cons,length_append,
          length_cons] at once
        omega
    · exact passed q (mem_append_left _ member) (ends_iff.mpr (.inr smaller))
  · rw [Reached] at missed
    push Not at missed
    obtain ⟨front',p,rest',split',same,_⟩ := missed
    have before : 0 < (recordsOf (mergeTags flags input) new_results).length := by
      rw [split',recordsOf_append,recordsOf_here same,length_append,length_cons]
      omega
    rw [split,recordsOf_append,length_append] at before
    have new_tags : (mergeResult flags input).tags_str = mergeTags flags input := rfl
    rw [merged,recordsOf_append,recordsOf_here new_tags,length_append,length_cons]
    omega
/-- Results from logs are merged without duplicates if and only if every search reaches the record of its tags. -/
theorem merged_without_duplicates (flags : MergeFlags) (inputs : List MergeInput) : Merged flags inputs (mergeAll flags inputs) ↔
    ∀ front input rest, inputs = front ++ input :: rest → skipped flags input = false → Reached (mergeTags flags input) (mergeAll flags front) := by
  constructor
  · rintro merged front input rest rfl kept
    by_contra missed
    have single : (recordsOf (mergeTags flags input) (mergeAll flags (front ++ input :: rest))).length ≤ 1 := by
      have lengths := congrArg List.length (merged (mergeTags flags input))
      rw [length_map] at lengths
      rw [lengths]
      split_ifs
      · exact Nat.zero_le 1
      · exact le_refl 1
    have once := (records_stay front (input :: rest) (mergeTags flags input)).trans single
    have twice := missed_twice kept missed once
    rw [← mergeAll_concat] at twice
    have stays := @records_stay flags (front ++ [input]) rest (mergeTags flags input)
    rw [append_assoc,singleton_append] at stays
    omega
  · induction inputs using List.reverseRecOn with
    | nil => exact fun _ _ => rfl
    | append_singleton inputs input ih =>
      intro reached
      rw [mergeAll_concat]
      refine merged_step (ih fun front input' rest split => ?_) (reached inputs input [] rfl)
      exact reached front input' (rest ++ [input]) (by rw [split,append_assoc,cons_append])

/-- A failure without verdicts, merged with a tag. -/
def failureWith (tag : CStr) : MergeInput := ⟨tag,none,⟨.FAILED,[],[]⟩,false⟩
theorem larger_tag_twice : ¬ Merged ⟨false,false,false,true⟩ [failureWith ['b'],failureWith ['c'],failureWith ['c']]
    (mergeAll ⟨false,false,false,true⟩ [failureWith ['b'],failureWith ['c'],failureWith ['c']]) := by
  intro merged
  exact absurd (congrArg List.length (merged (some ['c']))) (by decide)
end
end TestEnvironment.Trc
