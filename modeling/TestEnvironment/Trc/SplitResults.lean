import TestEnvironment.Tools.Normalization
import TestEnvironment.Trc.ExpResults

/-!
Expected results that are split by the disjuncts of their tag expressions, and the one that is chosen for a set of tags (`db.c`).
-/
namespace TestEnvironment.Trc
open Lib Tools

section

/-- The loop of `trc_db_iter_get_exp_result`: a result without tag expression matches any tags, skipped results have top priority. -/
def expResultLoop (tags : List CStr) (last_match : Bool) : List TrcExpResult → Option TrcExpResult → Option TrcExpResult
  | [],result => result
  | p :: ps,result =>
    if p.tags_expr.all (fun e => logic_expr_match tags e ≠ -1) then
      if p.results.any (·.result.status = .SKIPPED) then some p
      else expResultLoop tags last_match ps (if result = none ∨ last_match then some p else result)
    else expResultLoop tags last_match ps result
def trc_db_iter_get_exp_result (exp_results : List TrcExpResult) (exp_default : Option TrcExpResult) (tags : List CStr) (last_match : Bool) :
    Option TrcExpResult :=
  (expResultLoop tags last_match exp_results none).or exp_default
def logic_expr_dnf_split : LogicExpr → List LogicExpr
  | .or lhv rhv => lhv :: logic_expr_dnf_split rhv
  | dnf => [dnf]

/-- `STAILQ_INSERT_AFTER` in a queue of numbered elements. -/
def stailqInsertAfter {α : Type} (listelm : Nat) (element : Nat × α) : List (Nat × α) → List (Nat × α)
  | [] => []
  | p :: rest => if p.1 = listelm then p :: element :: rest else p :: stailqInsertAfter listelm element rest
/-- The queue while it is split, the element behind which the next copy is put, and the number of that copy. -/
structure ResSplit where
  queue : List (Nat × TrcExpResult)
  exp_r_prev : Nat
  fresh : Nat
/-- A copy for one of the disjuncts. -/
def splitCopy (exp_r : TrcExpResult) (le : LogicExpr) : TrcExpResult :=
  {trc_exp_result_dup {exp_r with tags_str := none, tags_expr := none} with tags_str := some (logic_expr_to_str le), tags_expr := some le}
def insertSplit (exp_r : TrcExpResult) (st : ResSplit) (le : LogicExpr) : ResSplit :=
  ⟨stailqInsertAfter st.exp_r_prev (st.fresh,splitCopy exp_r le) st.queue,st.fresh,st.fresh+1⟩
/-- The loop that takes the first element, puts its copies to the end and removes it, up to the element that was the last one. There is no
result where a null pointer is followed. -/
def resSplitLoop (dnf : LogicExpr → Except Fault LogicExpr) (last_r : Nat) : Nat → ResSplit → Option (List (Nat × TrcExpResult))
  | 0,_ => none
  | turns+1,st =>
    match st.queue with
    | [] => some []
    | (a,exp_r) :: _ =>
      exp_r.tags_expr.bind fun tags_expr => (dnf tags_expr).toOption.bind fun tags_expr =>
        let st := (logic_expr_dnf_split tags_expr).foldl (insertSplit exp_r) st
        if a = last_r then some st.queue.tail else resSplitLoop dnf last_r turns {st with queue := st.queue.tail}
def trc_db_test_iter_res_split (strcmp : CStr → CStr → Int) (fuel : Nat) (exp_results : List TrcExpResult) : Option (List TrcExpResult) :=
  if exp_results = [] then some []
  else
    (resSplitLoop (logic_expr_dnf (logic_expr_cmp_simple strcmp) fuel) (exp_results.length-1) fuel
      ⟨(List.range exp_results.length).zip exp_results,exp_results.length-1,exp_results.length⟩).map (·.map Prod.snd)
end

section
variable {dnf : LogicExpr → Except Fault LogicExpr} {st : ResSplit} {p : TrcExpResult} {todo done : List (Nat × TrcExpResult)} {turns : Nat}

/-- The elements are numbered in the order of the queue, and copies are put to its end. -/
structure Rotates (st : ResSplit) : Prop where
  last : (st.queue.map Prod.fst).getLast? = some st.exp_r_prev
  ascending : (st.queue.map Prod.fst).Pairwise (· < ·)
  below : ∀ a ∈ st.queue.map Prod.fst, a < st.fresh

theorem insert_behind_last {α : Type} {queue : List (Nat × α)} {a : Nat} {element : Nat × α} (last : (queue.map Prod.fst).getLast? = some a)
    (ascending : (queue.map Prod.fst).Pairwise (· < ·)) : stailqInsertAfter a element queue = queue ++ [element] := by
  induction queue with
  | nil => cases last
  | cons x queue ih =>
    rw [stailqInsertAfter]
    cases queue with
    | nil =>
      rw [if_pos (by simpa using last)]
      rfl
    | cons y queue =>
      rw [map_cons] at ascending last
      obtain ⟨above,ascending⟩ := pairwise_cons.mp ascending
      rw [map_cons,List.getLast?_cons_cons,← map_cons] at last
      rw [if_neg (ne_of_lt (above a (mem_of_getLast? last))),ih last ascending]
      rfl
theorem insert_rotates (rotates : Rotates st) (le : LogicExpr) :
    (insertSplit p st le).queue = st.queue ++ [(st.fresh,splitCopy p le)] ∧ Rotates (insertSplit p st le) := by
  have put : (insertSplit p st le).queue = st.queue ++ [(st.fresh,splitCopy p le)] := insert_behind_last rotates.last rotates.ascending
  refine ⟨put,?_,?_,?_⟩
  · rw [put,map_append]
    exact getLast?_concat
  · rw [put,map_append,pairwise_append]
    exact ⟨rotates.ascending,pairwise_singleton _ _,fun a there b new => mem_singleton.mp new ▸ rotates.below a there⟩
  · rw [put,map_append]
    intro a there
    obtain old | new := mem_append.mp there
    · exact Nat.lt_succ_of_lt (rotates.below a old)
    · rw [mem_singleton.mp new]
      exact lt_succ_self _
theorem copies_rotate (rotates : Rotates st) (les : List LogicExpr) : ∃ more, (les.foldl (insertSplit p) st).queue = st.queue ++ more ∧
    more.map Prod.snd = les.map (splitCopy p) ∧ Rotates (les.foldl (insertSplit p) st) := by
  induction les generalizing st with
  | nil => exact ⟨[],(append_nil _).symm,rfl,rotates⟩
  | cons le les ih =>
    obtain ⟨put,rotates⟩ := insert_rotates (p := p) rotates le
    obtain ⟨more,queue,copies,rotates⟩ := ih rotates
    refine ⟨(st.fresh,splitCopy p le) :: more,?_,?_,rotates⟩
    · rw [foldl_cons,queue,put,append_assoc]
      rfl
    · rw [map_cons,copies]
      rfl
/-- The first element goes; copies stand behind it. -/
theorem tail_rotates (rotates : Rotates st) {x y : Nat × TrcExpResult} {rest : List (Nat × TrcExpResult)} (queue : st.queue = x :: y :: rest) :
    Rotates {st with queue := st.queue.tail} := by
  obtain ⟨last,ascending,below⟩ := rotates
  rw [queue] at last ascending below
  refine ⟨?_,?_,?_⟩ <;> rw [queue,tail_cons]
  · rwa [map_cons,map_cons,List.getLast?_cons_cons] at last
  · exact (pairwise_cons.mp ascending).2
  · exact fun a there => below a (mem_cons_of_mem _ there)

theorem dnf_split_spine (e : LogicExpr) : logic_expr_dnf_split e = spine e := by
  induction e with
  | or l r _ ih => rw [logic_expr_dnf_split,spine,ih]
  | _ => rfl
/-- What is made of a result. -/
def splitResult (dnf : LogicExpr → Except Fault LogicExpr) (exp_r : TrcExpResult) : Option (List TrcExpResult) :=
  exp_r.tags_expr.bind fun tags_expr => (dnf tags_expr).toOption.map fun tags_expr => (spine tags_expr).map (splitCopy exp_r)

/-- The loop passes each of the elements that were there once. -/
theorem loop_splits (rotates : Rotates st) (queue : st.queue = todo ++ done) (some' : todo ≠ []) (enough : todo.length ≤ turns) :
    (resSplitLoop dnf (todo.getLast some').1 turns st).map (·.map Prod.snd) =
      (todo.mapM fun x => splitResult dnf x.2).map fun parts => done.map Prod.snd ++ parts.flatten := by
  induction todo generalizing st done turns with
  | nil => exact absurd rfl some'
  | cons x todo ih =>
    obtain ⟨a,p⟩ := x
    obtain ⟨turns,rfl⟩ : ∃ n, turns = n+1 := ⟨turns-1,by rw [length_cons] at enough; omega⟩
    have own : splitResult dnf p = p.tags_expr.bind fun e => (dnf e).toOption.map fun e => (spine e).map (splitCopy p) := rfl
    rw [resSplitLoop,queue,List.mapM_cons,own]
    cases expr : p.tags_expr with
    | none => simp [expr]
    | some e =>
      cases result : (dnf e).toOption with
      | none => simp [expr,result]
      | some r =>
        obtain ⟨more,extended,copies,rotates⟩ := copies_rotate (p := p) rotates (spine r)
        rw [queue,cons_append,cons_append] at extended
        simp only [expr,result,bind_some,map_some,dnf_split_spine,extended,cons_append,tail_cons]
        cases todo with
        | nil => simp [copies]
        | cons y todo =>
          have other : a ≠ ((y :: todo).getLast (cons_ne_nil _ _)).1 := by
            have ascending := rotates.ascending
            rw [extended,map_cons] at ascending
            refine ne_of_lt ((pairwise_cons.mp ascending).1 _ (mem_map_of_mem ?_))
            exact mem_append_left _ (mem_append_left _ (List.getLast_mem _))
          have turned := tail_rotates rotates extended
          rw [extended,tail_cons] at turned
          have rest := ih turned (append_assoc (y :: todo) done more) (cons_ne_nil _ _) (by simpa using enough)
          rw [List.getLast_cons (cons_ne_nil _ _),if_neg other,rest]
          cases (y :: todo).mapM fun x => splitResult dnf x.2 <;> simp [copies]
/-- Each result is replaced by its copies, at its place. -/
theorem split_flat {strcmp : CStr → CStr → Int} {fuel : Nat} {results : List TrcExpResult} (enough : results.length ≤ fuel) :
    trc_db_test_iter_res_split strcmp fuel results =
      (results.mapM (splitResult (logic_expr_dnf (logic_expr_cmp_simple strcmp) fuel))).map List.flatten := by
  rw [trc_db_test_iter_res_split]
  by_cases empty : results = []
  · rw [if_pos empty,empty]
    rfl
  · have positive := length_pos_iff.mpr empty
    have numbers : ((List.range results.length).zip results).map Prod.fst = List.range results.length := List.map_fst_zip (by simp)
    have values : ((List.range results.length).zip results).map Prod.snd = results := List.map_snd_zip (by simp)
    have some' : (List.range results.length).zip results ≠ [] := fun nothing => empty (by rw [← values,nothing]; rfl)
    have last : (((List.range results.length).zip results).getLast some').1 = results.length-1 := by
      rw [← List.getLast_map (f := Prod.fst) (by simpa using some')]
      simp only [numbers]
      exact List.getLast_range _
    have rotates : Rotates ⟨(List.range results.length).zip results,results.length-1,results.length⟩ := by
      refine ⟨?_,?_,?_⟩ <;> rw [numbers]
      · rw [List.getLast?_range,if_neg (by omega)]
      · exact List.pairwise_lt_range
      · exact fun a there => mem_range.mp there
    have loop := @loop_splits (logic_expr_dnf (logic_expr_cmp_simple strcmp) fuel) _ _ _ _ rotates (append_nil _).symm some' (by simpa using enough)
    rw [last] at loop
    rw [if_neg empty,loop]
    have mapped := List.mapM_map (f := Prod.snd) (g := splitResult (logic_expr_dnf (logic_expr_cmp_simple strcmp) fuel)) (l := (List.range results.length).zip results)
    rw [values] at mapped
    rw [mapped]
    rfl
end

section
variable {tags : List CStr} {last_match : Bool} {p : TrcExpResult} {ps cs rest : List TrcExpResult} {css : List (List TrcExpResult)} {r r' : Option TrcExpResult}

/-- What is expected: the entries, the key and the notes. -/
def expectation (r : TrcExpResult) : List TrcExpResultEntry × Option CStr × Option CStr := (r.results,r.key,r.notes)
def MatchesTags (tags : List CStr) (p : TrcExpResult) : Prop := p.tags_expr.all (fun e => logic_expr_match tags e ≠ -1) = true
/-- Results that are together what one is. -/
structure StandsFor (tags : List CStr) (p : TrcExpResult) (cs : List TrcExpResult) : Prop where
  same : ∀ c ∈ cs, expectation c = expectation p
  tags : MatchesTags tags p ↔ ∃ c ∈ cs, MatchesTags tags c

theorem loop_skips (other : ¬MatchesTags tags p) : expResultLoop tags last_match (p :: ps) r = expResultLoop tags last_match ps r := by
  rw [expResultLoop,if_neg]
  exact other
theorem loop_takes (matches' : MatchesTags tags p) : expResultLoop tags last_match (p :: ps) r =
    if p.results.any (·.result.status = .SKIPPED) then some p else expResultLoop tags last_match ps (if r = none ∨ last_match then some p else r) := by
  rw [expResultLoop,if_pos]
  exact matches'
/-- One of several results with the same expectation is taken, or none of them matches. -/
theorem loop_copies (same : ∀ c ∈ cs, expectation c = expectation p) :
    ((¬∃ c ∈ cs, MatchesTags tags c) → expResultLoop tags last_match (cs ++ rest) r = expResultLoop tags last_match rest r) ∧
    ((∃ c ∈ cs, MatchesTags tags c) →
      if p.results.any (·.result.status = .SKIPPED) then (expResultLoop tags last_match (cs ++ rest) r).map expectation = some (expectation p)
      else ∃ r', expResultLoop tags last_match (cs ++ rest) r = expResultLoop tags last_match rest r' ∧
        r'.map expectation = (if r = none ∨ last_match then some p else r).map expectation) := by
  induction cs generalizing r with
  | nil => simp
  | cons c cs ih =>
    obtain ⟨own,same⟩ := forall_mem_cons.mp same
    have entries : c.results = p.results := congrArg Prod.fst own
    by_cases here : MatchesTags tags c
    · refine ⟨fun none' => absurd ⟨c,mem_cons_self,here⟩ none',fun _ => ?_⟩
      rw [cons_append,loop_takes here,entries]
      by_cases skipped : p.results.any (·.result.status = .SKIPPED) = true
      · rw [if_pos skipped,if_pos skipped,map_some,own]
      · obtain ⟨without,within⟩ := ih (r := if r = none ∨ last_match then some c else r) same
        rw [if_neg skipped] at within
        rw [if_neg skipped,if_neg skipped]
        by_cases more : ∃ c ∈ cs, MatchesTags tags c
        · obtain ⟨r',goes,taken⟩ := within more
          refine ⟨r',goes,taken.trans ?_⟩
          cases r <;> cases last_match <;> simp [own]
        · refine ⟨_,without more,?_⟩
          by_cases takes : r = none ∨ last_match = true <;> simp [takes,own]
    · have behind : (∃ d ∈ c :: cs, MatchesTags tags d) ↔ ∃ d ∈ cs, MatchesTags tags d := by simp [here]
      rw [cons_append,loop_skips here,behind]
      exact ih same
/-- The choice is the same if each result has others in its place that stand for it. -/
theorem loop_stands (stands : List.Forall₂ (StandsFor tags) ps css) (same : r'.map expectation = r.map expectation) :
    (expResultLoop tags last_match css.flatten r').map expectation = (expResultLoop tags last_match ps r).map expectation := by
  induction stands generalizing r r' with
  | nil => exact same
  | cons head tail ih =>
    rename_i p cs ps css
    obtain ⟨without,within⟩ := @loop_copies tags last_match p cs css.flatten r' head.same
    rw [List.flatten_cons]
    by_cases here : MatchesTags tags p
    · have taken := within (head.tags.mp here)
      rw [loop_takes here]
      by_cases skipped : p.results.any (·.result.status = .SKIPPED) = true
      · rw [if_pos skipped] at taken
        rw [taken,if_pos skipped]
        rfl
      · rw [if_neg skipped] at taken
        obtain ⟨r'',goes,taken⟩ := taken
        rw [goes,if_neg skipped]
        refine ih (taken.trans ?_)
        have nothing : r' = none ↔ r = none := by
          cases r <;> cases r' <;> simp at same ⊢
        by_cases takes : r = none ∨ last_match = true
        · rw [if_pos takes,if_pos (by rwa [nothing])]
        · rw [if_neg takes,if_neg (by rwa [nothing]),same]
    · rw [without (head.tags.not.mp here),loop_skips here]
      exact ih same
end

section
variable {strcmp : CStr → CStr → Int} {tags : List CStr} {results : List TrcExpResult} {parts : List (List TrcExpResult)} {p : TrcExpResult}

/-- A tag expression that the code brings to its normal form without a change of its meaning. -/
def Splittable (strcmp : CStr → CStr → Int) (tags : List CStr) (p : TrcExpResult) : Prop :=
  ∃ e, p.tags_expr = some e ∧ Proper tags e ∧ Faithful logic_expr_to_str tags e ∧ ExactResults (logic_expr_cmp_simple strcmp) e ∧
    QuietDisjuncts logic_expr_to_str e
/-- The results are split, what is expected stays the same, and a second split changes nothing. -/
def KeepsExpectation (strcmp : CStr → CStr → Int) (results : List TrcExpResult) (exp_default : Option TrcExpResult) (tags : List CStr) : Prop :=
  ∃ after, Settles (fun fuel => trc_db_test_iter_res_split strcmp fuel results) (some after) ∧
    (∀ last_match, (trc_db_iter_get_exp_result after exp_default tags last_match).map expectation =
      (trc_db_iter_get_exp_result results exp_default tags last_match).map expectation) ∧
    Settles (fun fuel => trc_db_test_iter_res_split strcmp fuel after) (some after)
/-- What a result is split to, from some fuel on. -/
def SplitsTo (strcmp : CStr → CStr → Int) (p : TrcExpResult) (cs : List TrcExpResult) : Prop :=
  Settles (fun fuel => splitResult (logic_expr_dnf (logic_expr_cmp_simple strcmp) fuel) p) (some cs)

theorem mapM_settles (splits : List.Forall₂ (SplitsTo strcmp) results parts) :
    Settles (fun fuel => results.mapM (splitResult (logic_expr_dnf (logic_expr_cmp_simple strcmp) fuel))) (some parts) := by
  induction splits with
  | nil => exact .always fun _ => rfl
  | cons head tail ih =>
    obtain ⟨n,first⟩ := head
    obtain ⟨m,rest⟩ := ih
    refine ⟨max n m,fun fuel enough => ?_⟩
    simp [List.mapM_cons,first fuel (le_trans (le_max_left n m) enough),rest fuel (le_trans (le_max_right n m) enough)]
theorem split_settles (splits : List.Forall₂ (SplitsTo strcmp) results parts) :
    Settles (fun fuel => trc_db_test_iter_res_split strcmp fuel results) (some parts.flatten) := by
  obtain ⟨n,settled⟩ := mapM_settles splits
  refine ⟨max n results.length,fun fuel enough => ?_⟩
  have each := settled fuel (le_trans (le_max_left _ _) enough)
  dsimp only at each ⊢
  rw [split_flat (le_trans (le_max_right _ _) enough),each]
  rfl
/-- A null pointer is followed for a result without tag expression. -/
theorem split_null (null : ∃ p ∈ results, p.tags_expr = none) : Settles (fun fuel => trc_db_test_iter_res_split strcmp fuel results) none := by
  refine ⟨results.length,fun fuel enough => ?_⟩
  dsimp only
  rw [split_flat enough]
  have fails : ∀ {l : List TrcExpResult}, (∃ p ∈ l, p.tags_expr = none) → l.mapM (splitResult (logic_expr_dnf (logic_expr_cmp_simple strcmp) fuel)) = none := by
    intro l null
    induction l with
    | nil => simp at null
    | cons p l ih =>
      rw [List.mapM_cons]
      obtain here | later := (by simpa using null : p.tags_expr = none ∨ ∃ q ∈ l, q.tags_expr = none)
      · simp [splitResult,here]
      · rw [ih later]
        cases splitResult (logic_expr_dnf (logic_expr_cmp_simple strcmp) fuel) p <;> rfl
  rw [fails null]
  rfl
theorem entry_dup : trc_exp_result_entry_dup = id := rfl
theorem copy_expectation (p : TrcExpResult) (le : LogicExpr) : expectation (splitCopy p le) = expectation p := by
  simp [expectation,splitCopy,trc_exp_result_dup,entry_dup]
theorem copy_again (p : TrcExpResult) (le : LogicExpr) : splitCopy (splitCopy p le) le = splitCopy p le := by
  simp [splitCopy,trc_exp_result_dup,entry_dup]
theorem holds_spine (e : LogicExpr) : Holds tags e ↔ ∃ c ∈ spine e, Holds tags c := by
  induction e with
  | or l r _ ih => rw [holds_or,ih,spine,List.exists_mem_cons_iff]
  | _ => simp [spine]

section
variable (sign : ∀ a b, (strcmp a b < 0 ↔ a < b) ∧ (strcmp a b = 0 ↔ a = b))
include sign
/-- The copies stand for their result, and each of them is its own and only copy. -/
theorem splittable_splits (splittable : Splittable strcmp tags p) :
    ∃ cs, SplitsTo strcmp p cs ∧ StandsFor tags p cs ∧ ∀ c ∈ cs, SplitsTo strcmp c [c] := by
  obtain ⟨e,expr,proper,faithful,exact,quiet⟩ := splittable
  have like := cmp_simple_like sign
  obtain ⟨chains,sorted,calm,-⟩ := dnf_settles like exact faithful
  obtain ⟨r,⟨n,settled⟩,meaning,part⟩ := calm quiet
  refine ⟨(spine r).map (splitCopy p),⟨n,fun fuel enough => ?_⟩,⟨?_,?_⟩,?_⟩
  · simp only [splitResult,expr,bind_some,settled fuel enough]
    rfl
  · intro c there
    obtain ⟨le,-,rfl⟩ := mem_map.mp there
    exact copy_expectation p le
  · have same : Holds tags r ↔ Holds tags e := by
      rw [meaning,sortedFor_disjuncts sorted (fun d among x member => List.mem_flatten.mpr ⟨d,among,member⟩) faithful,
        ← (not_prop_meaning proper).1,holds_disjuncts]
    have own : ∀ q le, MatchesTags tags (splitCopy q le) ↔ Holds tags le := fun q le => by simp [MatchesTags,splitCopy,Holds]
    have before : MatchesTags tags p ↔ Holds tags e := by simp [MatchesTags,expr,Holds]
    rw [before,← same,holds_spine]
    simp [own]
  · intro c there
    obtain ⟨le,member,rfl⟩ := mem_map.mp there
    obtain ⟨m,again⟩ := dnf_sorted like exact faithful (sortedFor_chains sorted le (part.subset member))
    have literal : ∀ x ∈ elements le, Literal x := fun x inside =>
      literals_literal ((sortedFor_chains sorted le (part.subset member)).1 x inside)
    refine ⟨m,fun fuel enough => ?_⟩
    have expr : (splitCopy p le).tags_expr = some le := rfl
    simp only [splitResult,expr,bind_some,again fuel enough]
    show some ((spine le).map (splitCopy (splitCopy p le))) = _
    rw [spine_single (chain_not_or literal),List.map_singleton,copy_again]

theorem results_split (splittable : ∀ p ∈ results, Splittable strcmp tags p) :
    ∃ parts, List.Forall₂ (SplitsTo strcmp) results parts ∧ List.Forall₂ (StandsFor tags) results parts ∧
      ∀ c ∈ parts.flatten, SplitsTo strcmp c [c] := by
  induction results with
  | nil => exact ⟨[],.nil,.nil,nofun⟩
  | cons p results ih =>
    obtain ⟨own,splittable⟩ := forall_mem_cons.mp splittable
    obtain ⟨cs,split,stand,single⟩ := splittable_splits sign own
    obtain ⟨parts,splits,stands,alone⟩ := ih splittable
    refine ⟨cs :: parts,.cons split splits,.cons stand stands,?_⟩
    rw [List.flatten_cons,List.forall_mem_append]
    exact ⟨single,alone⟩
end

/-- Where every tag expression is brought to its normal form with its meaning, splitting ends, what is expected stays the same, and a second
split changes nothing; where a result has no tag expression, it does not end. -/
theorem split_keeps_expectation (sign : ∀ a b, (strcmp a b < 0 ↔ a < b) ∧ (strcmp a b = 0 ↔ a = b)) (results : List TrcExpResult)
    (exp_default : Option TrcExpResult) (tags : List CStr) :
    ((∀ p ∈ results, Splittable strcmp tags p) → KeepsExpectation strcmp results exp_default tags) ∧
    ((∃ p ∈ results, p.tags_expr = none) → ¬KeepsExpectation strcmp results exp_default tags) := by
  constructor
  · intro splittable
    obtain ⟨parts,splits,stands,alone⟩ := results_split sign splittable
    have again : List.Forall₂ (SplitsTo strcmp) parts.flatten (parts.flatten.map fun c => [c]) := by
      rw [List.forall₂_map_right_iff,List.forall₂_same]
      exact alone
    refine ⟨parts.flatten,split_settles splits,fun last_match => ?_,?_⟩
    · have same := @loop_stands tags last_match _ _ none none stands rfl
      rw [trc_db_iter_get_exp_result,trc_db_iter_get_exp_result]
      revert same
      cases expResultLoop tags last_match parts.flatten none <;> cases expResultLoop tags last_match results none <;> simp
    · have settled := split_settles again
      rwa [← List.flatMap_def,List.flatMap_singleton'] at settled
  · rintro null ⟨after,settled,-⟩
    cases settled.unique (split_null null)

/-- A result with the tag expression `a | c`, and one without any. -/
def taggedResult : TrcExpResult := ⟨some "a|c".toList,some (.or nameA nameC),none,[],none,none⟩
def untaggedResult : TrcExpResult := ⟨none,none,none,[],none,none⟩
theorem split_keeps_expectation_two : KeepsExpectation (fun a b => 1*cmpInt a b) [taggedResult] none [['a']] ∧
    ¬KeepsExpectation (fun a b => 1*cmpInt a b) [untaggedResult] none [['a']] := by
  have sign := cmpInt_sign 1 (by decide)
  refine ⟨(split_keeps_expectation sign [taggedResult] none [['a']]).1 ?_,(split_keeps_expectation sign [untaggedResult] none [['a']]).2 ?_⟩
  · refine forall_mem_singleton.mpr ⟨.or nameA nameC,rfl,?_,?_,?_,?_⟩
    · simp only [Proper,nameA,nameC]; decide +kernel
    · rw [Faithful]; decide +kernel
    · rw [ExactResults]; decide +kernel
    · have listed : disjuncts (logic_expr_not_prop (.or nameA nameC)) = [[nameA],[nameC]] := by decide +kernel
      have apart : ¬Within logic_expr_to_str [nameA] [nameC] ∧ ¬Within logic_expr_to_str [nameC] [nameA] := by decide +kernel
      rw [QuietDisjuncts,listed,length_cons,Quiet,absorb,if_neg apart.1,if_neg apart.2]
      simp [Quiet,absorb]
  · exact ⟨untaggedResult,mem_cons_self,rfl⟩
theorem untagged_not_split : ¬KeepsExpectation (fun a b => 1*cmpInt a b) [untaggedResult] none [] := by
  rintro ⟨after,settled,-⟩
  cases settled.unique (split_null ⟨untaggedResult,mem_cons_self,rfl⟩)
end
end TestEnvironment.Trc
