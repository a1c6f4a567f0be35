import TestEnvironment.Lib.Comparators
import TestEnvironment.Trc.ExpResults

/-!
The comparison of expected results (`db.c`) as an ordering: of entries, of results and of lists of results, for all flags.
-/
namespace TestEnvironment.Trc
open Lib Tools

section
variable (no_tags no_notes : Bool)

/-- The lists may be `NULL`; a list without elements counts as one. -/
def trc_exp_results_cmp (p q : Option (List TrcExpResult)) : Int :=
  let p_is_void := (p.getD []).isEmpty
  let q_is_void := (q.getD []).isEmpty
  if p_is_void ∧ q_is_void then 0
  else if ¬p_is_void ∧ q_is_void then 1
  else if p_is_void ∧ ¬q_is_void then -1
  else listsCmp (trc_exp_result_cmp no_tags no_notes) 0 (p.getD []) (q.getD [])

/-- Two entries agree in all but what is ignored. -/
structure EntriesAgree (p q : TrcExpResultEntry) : Prop where
  is_expected : p.is_expected = q.is_expected
  status : p.result.status = q.result.status
  verdicts : p.result.verdicts = q.result.verdicts
  key : p.key = q.key
  notes : no_notes = false → p.notes = q.notes
/-- Tags that are missing agree with empty ones. -/
structure ResultsAgree (p q : TrcExpResult) : Prop where
  tags : no_tags = false → p.tags_str.getD [] = q.tags_str.getD []
  entries : List.Forall₂ (EntriesAgree no_notes) p.results q.results
  key : p.key = q.key
  notes : no_notes = false → p.notes = q.notes
end

section
variable {α β : Type} [LinearOrder β] {cmp : α → α → Int} {view : α → β}

theorem strcmp_follows : Follows strcmp id := by
  intro s t
  refine ⟨?_,strcmp_zero⟩
  rw [strcmp,strLess]
  by_cases less : s < t
  · simp [less]
  · simp only [less,decide_false,false_eq_true,if_false,id_eq,iff_false]
    split_ifs <;> decide
/-- What is missing comes first. -/
def missingFirst (p : Option α) : WithBot α := p
omit [LinearOrder β] in
@[simp] theorem missingFirst_inj {p q : Option β} : missingFirst p = missingFirst q ↔ p = q := Iff.rfl
theorem dummy_follows (follows : Follows cmp view) : Follows (dummyCmp cmp) fun p => missingFirst (p.map view) := by
  intro p q
  cases p with
  | none =>
    cases q with
    | none => exact ⟨iff_of_false (lt_irrefl _) (lt_irrefl _),iff_of_true rfl rfl⟩
    | some q => exact ⟨iff_of_true (by decide : (-1 : Int) < 0) (WithBot.bot_lt_coe _),iff_of_false (by decide : (-1 : Int) ≠ 0) nofun⟩
  | some p =>
    cases q with
    | none => exact ⟨iff_of_false (by decide : ¬(1 : Int) < 0) not_lt_bot,iff_of_false (by decide : (1 : Int) ≠ 0) nofun⟩
    | some q => exact ⟨(follows p q).1.trans WithBot.coe_lt_coe.symm,(follows p q).2.trans some_inj.symm⟩
theorem strcmp_null_follows : Follows strcmp_null missingFirst := by
  have same : strcmp_null = dummyCmp strcmp := by
    funext p q
    cases p <;> cases q <;> rfl
  intro p q
  have texts := dummy_follows strcmp_follows p q
  simp only [Option.map_id,id_eq,← same] at texts
  exact texts
theorem lists_follow (follows : Follows cmp view) : Follows (listsCmp cmp 0) (List.map view) := by
  intro ps qs
  induction ps generalizing qs with
  | nil => cases qs <;> simp [listsCmp]
  | cons p ps ih =>
    cases qs with
    | nil => simp [listsCmp]
    | cons q qs =>
      obtain ⟨less,same⟩ := follows p q
      rw [listsCmp,map_cons,map_cons,cons_lt_cons_iff,List.cons_eq_cons,← less,← same]
      by_cases zero : cmp p q = 0
      · simp [zero,ih]
      · simp [zero]
/-- What decides where the lists are equal is compared last. -/
theorem lists_both {both : Int} {ps qs : List α} : listsCmp cmp both ps qs = if listsCmp cmp 0 ps qs ≠ 0 then listsCmp cmp 0 ps qs else both := by
  induction ps generalizing qs with
  | nil => cases qs <;> simp [listsCmp]
  | cons p ps ih =>
    cases qs with
    | nil => simp [listsCmp]
    | cons q qs =>
      rw [listsCmp,listsCmp,ih]
      by_cases zero : cmp p q = 0 <;> simp [zero]
omit [LinearOrder β] in
theorem map_agree {ps qs : List α} : ps.map view = qs.map view ↔ List.Forall₂ (fun p q => view p = view q) ps qs := by
  rw [← List.forall₂_map_right_iff (f := view) (R := fun p b => view p = b),← List.forall₂_map_left_iff (f := view) (R := Eq),List.forall₂_eq_eq_eq]
end

section
variable (no_tags no_notes : Bool)

def entryOrder (e : TrcExpResultEntry) : Bool ×ₗ (ℤ ×ₗ List CStr) ×ₗ WithBot CStr ×ₗ WithBot CStr :=
  toLex (e.is_expected,toLex (toLex (e.result.status.number,e.result.verdicts),toLex (missingFirst e.key,missingFirst (if no_notes then none else e.notes))))
def resultOrder (r : TrcExpResult) : CStr ×ₗ List (Bool ×ₗ (ℤ ×ₗ List CStr) ×ₗ WithBot CStr ×ₗ WithBot CStr) ×ₗ WithBot CStr ×ₗ WithBot CStr :=
  toLex (if no_tags then [] else r.tags_str.getD [],toLex (r.results.map (entryOrder no_notes),toLex (missingFirst r.key,missingFirst r.notes)))

theorem entry_follows : Follows (trc_exp_rentry_cmp no_notes) (entryOrder no_notes) := by
  have expected : Follows (fun p q : Bool => if ¬p ∧ q then -1 else if p ∧ ¬q then 1 else 0) id := by
    intro p q
    cases p <;> cases q <;> decide
  have status : Follows (fun p q : TeTestStatus => p.number-q.number) TeTestStatus.number := by
    intro p q
    dsimp only
    omega
  have result : Follows trc_test_result_cmp fun r => toLex (r.status.number,r.verdicts) := by
    have both := (status.comap TeTestResult.status).andThen ((lists_follow strcmp_follows).comap TeTestResult.verdicts)
    simp only [comp_def,List.map_id] at both
    exact both
  have notes : Follows (fun p q => if no_notes then 0 else strcmp_null p q) fun p => missingFirst (if no_notes then none else p) := by
    cases no_notes with
    | false => exact strcmp_null_follows
    | true => exact Follows.nothing _
  have all := (expected.comap TrcExpResultEntry.is_expected).andThen
    ((result.comap TrcExpResultEntry.result).andThen ((strcmp_null_follows.comap TrcExpResultEntry.key).andThen (notes.comap TrcExpResultEntry.notes)))
  convert all using 1
  · funext p q
    rw [trc_exp_rentry_cmp,andThen]
    cases p.is_expected <;> cases q.is_expected <;> simp [andThen]
  · rfl
theorem tags_follow : Follows tagsCmp fun p : Option CStr => p.getD [] := by
  intro p q
  refine ⟨?_,tags_zero⟩
  dsimp only
  rw [tagsCmp]
  by_cases p_void : tagsVoid p = true
  · rw [tagsVoid_iff.mp p_void]
    by_cases q_void : tagsVoid q = true
    · simp [p_void,q_void,tagsVoid_iff.mp q_void]
    · obtain ⟨c,text,there⟩ := exists_cons_of_ne_nil (tagsVoid_iff.not.mp q_void)
      simp [p_void,q_void,there]
  · by_cases q_void : tagsVoid q = true
    · simp [p_void,q_void,tagsVoid_iff.mp q_void]
    · cases p with
      | none => exact absurd rfl p_void
      | some s =>
        cases q with
        | none => exact absurd rfl q_void
        | some t => simpa [p_void,q_void,strcmp_null] using (strcmp_follows s t).1
theorem result_follows : Follows (trc_exp_result_cmp no_tags no_notes) (resultOrder no_tags no_notes) := by
  have tags : Follows (fun p q => if no_tags then 0 else tagsCmp p q) fun p => (if no_tags then [] else p.getD [] : CStr) := by
    cases no_tags with
    | false => exact tags_follow
    | true => exact Follows.nothing _
  have all := (tags.comap TrcExpResult.tags_str).andThen (((lists_follow (entry_follows no_notes)).comap TrcExpResult.results).andThen
    ((strcmp_null_follows.comap TrcExpResult.key).andThen (strcmp_null_follows.comap TrcExpResult.notes)))
  convert all using 1
  · funext p q
    rw [trc_exp_result_cmp,lists_both]
    rfl
  · rfl
theorem results_follow : Follows (trc_exp_results_cmp no_tags no_notes) fun p : Option (List TrcExpResult) => (p.getD []).map (resultOrder no_tags no_notes) := by
  have same : trc_exp_results_cmp no_tags no_notes = fun p q => listsCmp (trc_exp_result_cmp no_tags no_notes) 0 (p.getD []) (q.getD []) := by
    funext p q
    rw [trc_exp_results_cmp]
    cases p.getD [] <;> cases q.getD [] <;> simp [listsCmp]
  rw [same]
  exact (lists_follow (result_follows no_tags no_notes)).comap fun p : Option (List TrcExpResult) => p.getD []

variable {no_tags no_notes}
theorem entries_agree {p q : TrcExpResultEntry} : entryOrder no_notes p = entryOrder no_notes q ↔ EntriesAgree no_notes p q := by
  have status : p.result.status.number = q.result.status.number ↔ p.result.status = q.result.status := by
    rw [← number_inj]
    omega
  simp only [entryOrder,toLex_inj,Prod.mk.injEq,missingFirst_inj,status]
  constructor
  · rintro ⟨is_expected,⟨status,verdicts⟩,key,notes⟩
    exact ⟨is_expected,status,verdicts,key,fun compared => by simpa [compared] using notes⟩
  · rintro ⟨is_expected,status,verdicts,key,notes⟩
    refine ⟨is_expected,⟨status,verdicts⟩,key,?_⟩
    cases no_notes with
    | false => exact notes rfl
    | true => rfl
/-- The notes of the results themselves are compared with all flags. -/
theorem results_agree {p q : TrcExpResult} : resultOrder no_tags no_notes p = resultOrder no_tags no_notes q ↔ ResultsAgree no_tags no_notes p q ∧ p.notes = q.notes := by
  simp only [resultOrder,toLex_inj,Prod.mk.injEq,missingFirst_inj,map_agree,entries_agree]
  constructor
  · rintro ⟨tags,entries,key,notes⟩
    exact ⟨⟨fun compared => by simpa [compared] using tags,entries,key,fun _ => notes⟩,notes⟩
  · rintro ⟨⟨tags,entries,key,-⟩,notes⟩
    refine ⟨?_,entries,key,notes⟩
    cases no_tags with
    | false => exact tags rfl
    | true => rfl
end

section
variable {no_tags no_notes : Bool}

/-- Agreement of what may be missing. -/
def AgreeOrMissing {α : Type} (agree : α → α → Prop) : Option α → Option α → Prop
  | none,none => True
  | some p,some q => agree p q
  | _,_ => False
/-- Two results agree but have different notes, which are to be ignored. -/
def OwnNotes (no_tags no_notes : Bool) (p q : TrcExpResult) : Prop := no_notes = true ∧ ResultsAgree no_tags no_notes p q ∧ p.notes ≠ q.notes

theorem result_zero_iff {p q : TrcExpResult} :
    (trc_exp_result_cmp no_tags no_notes p q = 0 ↔ ResultsAgree no_tags no_notes p q) ↔ ¬OwnNotes no_tags no_notes p q := by
  rw [(result_follows no_tags no_notes p q).2,results_agree,OwnNotes]
  have compared : no_notes = false → ResultsAgree no_tags no_notes p q → p.notes = q.notes := fun on agree => agree.notes on
  cases no_notes <;> tauto
theorem results_zero_iff {ps qs : List TrcExpResult} : (listsCmp (trc_exp_result_cmp no_tags no_notes) 0 ps qs = 0 ↔ List.Forall₂ (ResultsAgree no_tags no_notes) ps qs) ↔
    ¬(no_notes = true ∧ List.Forall₂ (ResultsAgree no_tags no_notes) ps qs ∧ ps.map TrcExpResult.notes ≠ qs.map TrcExpResult.notes) := by
  have split : List.Forall₂ (fun p q => ResultsAgree no_tags no_notes p q ∧ p.notes = q.notes) ps qs ↔
      List.Forall₂ (ResultsAgree no_tags no_notes) ps qs ∧ ps.map TrcExpResult.notes = qs.map TrcExpResult.notes := by
    rw [map_agree]
    induction ps generalizing qs with
    | nil => cases qs <;> simp
    | cons p ps ih => cases qs <;> simp [ih,and_and_and_comm]
  have compared : no_notes = false → List.Forall₂ (ResultsAgree no_tags no_notes) ps qs → ps.map TrcExpResult.notes = qs.map TrcExpResult.notes :=
    fun on agree => map_agree.mpr (agree.imp fun _ _ both => both.notes on)
  rw [(lists_follow (result_follows no_tags no_notes) ps qs).2,map_agree]
  simp only [results_agree,split]
  cases no_notes <;> tauto
end

section
variable (no_tags no_notes : Bool)

/-- All three comparisons are total preorders. Entries compare equal just if they agree; results do, and lists of them, unless the flags
tell to ignore notes and the results agree but for notes of their own. -/
theorem comparisons_order :
    (Preorders (dummyCmp (trc_exp_rentry_cmp no_notes)) ∧ Preorders (dummyCmp (trc_exp_result_cmp no_tags no_notes)) ∧
      Preorders (trc_exp_results_cmp no_tags no_notes)) ∧
    (∀ p q, dummyCmp (trc_exp_rentry_cmp no_notes) p q = 0 ↔ AgreeOrMissing (EntriesAgree no_notes) p q) ∧
    (∀ p q, (dummyCmp (trc_exp_result_cmp no_tags no_notes) p q = 0 ↔ AgreeOrMissing (ResultsAgree no_tags no_notes) p q) ↔
      ¬∃ r s, p = some r ∧ q = some s ∧ no_notes = true ∧ ResultsAgree no_tags no_notes r s ∧ r.notes ≠ s.notes) ∧
    ∀ p q, (trc_exp_results_cmp no_tags no_notes p q = 0 ↔ List.Forall₂ (ResultsAgree no_tags no_notes) (p.getD []) (q.getD [])) ↔
      ¬(no_notes = true ∧ List.Forall₂ (ResultsAgree no_tags no_notes) (p.getD []) (q.getD []) ∧
        (p.getD []).map TrcExpResult.notes ≠ (q.getD []).map TrcExpResult.notes) := by
  refine ⟨⟨(dummy_follows (entry_follows no_notes)).preorders,(dummy_follows (result_follows no_tags no_notes)).preorders,
    (results_follow no_tags no_notes).preorders⟩,fun p q => ?_,fun p q => ?_,fun p q => ?_⟩
  · cases p <;> cases q <;> simp [dummyCmp,AgreeOrMissing,(entry_follows no_notes _ _).2,entries_agree]
  · cases p with
    | none => cases q <;> simp [dummyCmp,AgreeOrMissing]
    | some r =>
      cases q with
      | none => simp [dummyCmp,AgreeOrMissing]
      | some s => simpa [dummyCmp,AgreeOrMissing,OwnNotes] using result_zero_iff
  · rw [← results_zero_iff,(results_follow no_tags no_notes p q).2,(lists_follow (result_follows no_tags no_notes) _ _).2]
/-- Notes are to be ignored, and two results that have nothing but notes compare different. -/
theorem own_notes_compared : ¬∀ p q, trc_exp_result_cmp true true p q = 0 ↔ ResultsAgree true true p q := by
  intro all
  have agree : ResultsAgree true true ⟨none,none,none,[],none,none⟩ ⟨none,none,none,[],none,some ['n']⟩ := ⟨nofun,.nil,rfl,nofun⟩
  have same := (all _ _).mpr agree
  revert same
  decide
end
end TestEnvironment.Trc
