import TestEnvironment.Tools.ExprGrammar
import TestEnvironment.Trc.SplitResults

/-!
Tag expressions that are saved and loaded again (`db_io.c`): what is split into disjuncts is read
back from the database, and nothing else is expected then.
-/
namespace TestEnvironment.Trc
open Lib Tools

/-- The tags in `exp_result_to_xml` and `get_expected_result`: a saved result is loaded with the expression that
its text is parsed to, and not at all if it is refused. -/
def loadTags (result : TrcExpResult) : Option TrcExpResult :=
  match result.tags_str with
  | none | some [] => some {result with tags_expr := none}
  | some tags_str => (logic_expr_parse tags_str).map fun tags_expr => {result with tags_expr := some tags_expr}

section
variable {e x le : LogicExpr} {d : List LogicExpr}

/-- The values of the expression are tokens. -/
abbrev Readable : LogicExpr → Prop := ReadableExpr true

theorem readable_not_prop (readable : Readable e) : Readable (logic_expr_not_prop e) ∧ Readable (notPropUnary e) := by
  induction e with
  | value | rel => exact ⟨readable,readable⟩
  | not unary ih => exact ⟨(ih readable).2,(ih readable).1⟩
  | and l r left right | or l r left right =>
    exact ⟨⟨(left readable.1).1,(right readable.2).1⟩,(left readable.1).2,(right readable.2).2⟩
theorem readable_disjuncts (readable : Readable e) (among : d ∈ disjuncts e) : ∀ x ∈ d, Readable x := by
  induction e generalizing d with
  | and l r left right =>
    obtain ⟨c,first,inside⟩ := mem_flatMap.mp among
    obtain ⟨c',second,rfl⟩ := mem_map.mp inside
    exact List.forall_mem_append.mpr ⟨left readable.1 first,right readable.2 second⟩
  | or l r left right => exact (mem_append.mp among).elim (left readable.1) (right readable.2)
  | _ => rwa [mem_singleton.mp among,forall_mem_singleton]
theorem readable_literals (readable : Readable e) (member : x ∈ literals e) : Readable x := by
  obtain ⟨d,among,inside⟩ := List.mem_flatten.mp member
  exact readable_disjuncts (readable_not_prop readable).1 among x inside
theorem readable_elements (each : ∀ x ∈ elements le, Readable x) : Readable le := by
  induction le with
  | and l r left _ =>
    obtain ⟨last,front⟩ := forall_mem_cons.mp each
    exact ⟨left front,last⟩
  | _ => exact each _ (mem_singleton_self _)
end

section
variable {strcmp : CStr → CStr → Int} {tags : List CStr} {results : List TrcExpResult} {p : TrcExpResult}
  (sign : ∀ a b, (strcmp a b < 0 ↔ a < b) ∧ (strcmp a b = 0 ↔ a = b))

/-- Copies are loaded with the meaning they were saved with. -/
theorem copies_load {les : List LogicExpr} (readable : ∀ le ∈ les, Readable le) :
    ∃ ls, (les.map (splitCopy p)).mapM loadTags = some ls ∧ (∀ c ∈ ls, expectation c = expectation p) ∧
      ((∃ c ∈ ls, MatchesTags tags c) ↔ ∃ c ∈ les.map (splitCopy p), MatchesTags tags c) := by
  induction les with
  | nil => exact ⟨[],rfl,by simp,by simp⟩
  | cons le les ih =>
    obtain ⟨own,others⟩ := forall_mem_cons.mp readable
    obtain ⟨ls,rest,same,tags'⟩ := ih others
    obtain ⟨e',parsed,meaning⟩ := to_str_prints.parsed own
    have loaded : loadTags (splitCopy p le) = some {splitCopy p le with tags_expr := some e'} := by
      cases printed : logic_expr_to_str le with
      | nil =>
        rw [printed] at parsed
        exact absurd parsed (by simp [show logic_expr_parse [] = none by decide])
      | cons c text =>
        rw [printed] at parsed
        simp [loadTags,splitCopy,printed,parsed]
    refine ⟨{splitCopy p le with tags_expr := some e'} :: ls,?_,forall_mem_cons.mpr ⟨copy_expectation p le,same⟩,?_⟩
    · simp [List.mapM_cons,loaded,rest]
    · rw [List.exists_mem_cons_iff,map_cons,List.exists_mem_cons_iff,tags']
      simp [MatchesTags,splitCopy,meaning tags]
include sign
theorem result_loads (splittable : Splittable strcmp tags p) (readable : ∀ e ∈ p.tags_expr, Readable e) :
    ∃ cs ls, SplitsTo strcmp p cs ∧ cs.mapM loadTags = some ls ∧ StandsFor tags p ls := by
  obtain ⟨cs,split,stands,-⟩ := splittable_splits sign splittable
  obtain ⟨e,expr,proper,faithful,exact,quiet⟩ := splittable
  obtain ⟨chains,sorted,calm,-⟩ := dnf_settles (cmp_simple_like sign) exact faithful
  obtain ⟨r,⟨n,settled⟩,-,part⟩ := calm quiet
  obtain rfl : (spine r).map (splitCopy p) = cs := by
    refine some.inj (Settles.unique ⟨n,fun fuel enough => ?_⟩ split)
    simp only [splitResult,expr,bind_some,settled fuel enough]
    rfl
  obtain ⟨ls,loaded,same,tags'⟩ := @copies_load tags p (spine r) fun le member => readable_elements fun x inside =>
    readable_literals (readable e expr) ((sortedFor_chains sorted le (part.subset member)).1 x inside)
  exact ⟨_,ls,split,loaded,same,stands.tags.trans tags'.symm⟩
/-- Results that are split, saved and loaded again are expected for the same tags as before. -/
theorem saved_split_keeps_expectation (exp_default : Option TrcExpResult) (splittable : ∀ p ∈ results, Splittable strcmp tags p)
    (readable : ∀ p ∈ results, ∀ e ∈ p.tags_expr, Readable e) : ∃ after loaded,
      Settles (fun fuel => trc_db_test_iter_res_split strcmp fuel results) (some after) ∧ after.mapM loadTags = some loaded ∧
      ∀ last_match, (trc_db_iter_get_exp_result loaded exp_default tags last_match).map expectation =
        (trc_db_iter_get_exp_result results exp_default tags last_match).map expectation := by
  obtain ⟨parts,loads,splits,loaded,stands⟩ : ∃ parts loads, List.Forall₂ (SplitsTo strcmp) results parts ∧
      parts.flatten.mapM loadTags = some loads.flatten ∧ List.Forall₂ (StandsFor tags) results loads := by
    induction results with
    | nil => exact ⟨[],[],.nil,rfl,.nil⟩
    | cons p results ih =>
      obtain ⟨own,others⟩ := forall_mem_cons.mp splittable
      obtain ⟨tokens,readable⟩ := forall_mem_cons.mp readable
      obtain ⟨cs,ls,split,load,stand⟩ := result_loads sign own tokens
      obtain ⟨parts,loads,splits,rest,stands⟩ := ih others readable
      refine ⟨cs :: parts,ls :: loads,.cons split splits,?_,.cons stand stands⟩
      rw [List.flatten_cons,List.mapM_append,load,rest]
      rfl
  refine ⟨_,_,split_settles splits,loaded,fun last_match => ?_⟩
  have same := @loop_stands tags last_match _ _ none none stands rfl
  rw [trc_db_iter_get_exp_result,trc_db_iter_get_exp_result]
  revert same
  cases expResultLoop tags last_match loads.flatten none <;> cases expResultLoop tags last_match results none <;> simp
omit sign in
theorem saved_split_keeps_expectation_name : ∃ after loaded,
    Settles (fun fuel => trc_db_test_iter_res_split (fun a b => 1*cmpInt a b) fuel [⟨some ['a'],some nameA,none,[],none,none⟩]) (some after) ∧
      after.mapM loadTags = some loaded ∧ ∀ last_match, (trc_db_iter_get_exp_result loaded none [['a']] last_match).map expectation =
        (trc_db_iter_get_exp_result [⟨some ['a'],some nameA,none,[],none,none⟩] none [['a']] last_match).map expectation := by
  refine saved_split_keeps_expectation (cmpInt_sign 1 (by decide)) none (forall_mem_singleton.mpr ⟨nameA,rfl,?_,?_,?_,?_⟩) ?_
  · simp only [Proper,nameA]; decide +kernel
  · rw [Faithful]; decide +kernel
  · rw [ExactResults]; decide +kernel
  · rw [QuietDisjuncts,show disjuncts (logic_expr_not_prop nameA) = [[nameA]] from rfl]
    simp [Quiet,absorb]
  · refine forall_mem_singleton.mpr fun e given => ?_
    cases given
    exact lexerToken_letter (by decide)
end
end TestEnvironment.Trc
