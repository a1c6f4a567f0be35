import TestEnvironment.Lib.Fuel
import TestEnvironment.Tools.LogicExpr

/-!
What `logic_expr_dnf_gen` makes of an expression: a disjunction of chains, one for
each disjunct of the expression, with the literals of the disjunct as elements.
-/
namespace TestEnvironment.Tools
open Lib

variable {e : LogicExpr}

section
variable {set : List CStr}

/-- `logic_expr_match` gives a degree. -/
def Holds (set : List CStr) (e : LogicExpr) : Prop := logic_expr_match set e ≠ -1
instance {e : LogicExpr} : Decidable (Holds set e) := inferInstanceAs (Decidable (_ ≠ _))
/-- The literals match with non-negative degrees or not at all. -/
def Proper (set : List CStr) : LogicExpr → Prop
  | .value value => -1 ≤ logic_expr_match set (.value value)
  | .not unary => Proper set unary
  | .and lhv rhv => Proper set lhv ∧ Proper set rhv
  | .or lhv rhv => Proper set lhv ∧ Proper set rhv
  | .rel .. => True

theorem holds_and {l r : LogicExpr} : Holds set (.and l r) ↔ Holds set l ∧ Holds set r := by
  simp only [Holds,logic_expr_match]
  split_ifs with left <;> grind
theorem holds_or {l r : LogicExpr} : Holds set (.or l r) ↔ Holds set l ∨ Holds set r := by
  simp only [Holds,logic_expr_match]
  split_ifs with left <;> grind
theorem Proper.degree (proper : Proper set e) : -1 ≤ logic_expr_match set e := by
  induction e with
  | value value => exact proper
  | not unary ih => rw [logic_expr_match]; split_ifs <;> omega
  | and l r left right | or l r left right =>
    have one := left proper.1
    have two := right proper.2
    simp only [logic_expr_match]
    split_ifs <;> omega
  | rel type l r =>
    cases type <;> simp only [logic_expr_match,relMatch] <;> split_ifs <;> omega
theorem holds_not (proper : Proper set e) : Holds set (.not e) ↔ ¬ Holds set e := by
  have degree := proper.degree
  simp only [Holds,logic_expr_match]
  split_ifs <;> omega

/-- A value or a comparison, or the negation of one. -/
def Literal : LogicExpr → Prop
  | .value _ | .rel .. | .not (.value _) | .not (.rel ..) => True
  | _ => False
/-- Negations of literals only. -/
def NegationNormal : LogicExpr → Prop
  | .and lhv rhv | .or lhv rhv => NegationNormal lhv ∧ NegationNormal rhv
  | e => Literal e

theorem not_prop_meaning (proper : Proper set e) :
    (Holds set (logic_expr_not_prop e) ↔ Holds set e) ∧ (Holds set (notPropUnary e) ↔ ¬ Holds set e) := by
  induction e with
  | value value =>
    simp only [logic_expr_not_prop,notPropUnary,true_and]
    exact holds_not proper
  | not unary ih =>
    obtain ⟨same,opposite⟩ := ih proper
    have negated := holds_not (e := unary) proper
    rw [logic_expr_not_prop,notPropUnary,same,opposite,negated]
    exact ⟨Iff.rfl,not_not.symm⟩
  | and l r left right =>
    obtain ⟨one,two⟩ := left proper.1
    obtain ⟨three,four⟩ := right proper.2
    rw [logic_expr_not_prop,notPropUnary,holds_and,holds_or,holds_and,one,two,three,four,not_and_or]
    exact ⟨Iff.rfl,Iff.rfl⟩
  | or l r left right =>
    obtain ⟨one,two⟩ := left proper.1
    obtain ⟨three,four⟩ := right proper.2
    rw [logic_expr_not_prop,notPropUnary,holds_and,holds_or,holds_or,one,two,three,four,not_or]
    exact ⟨Iff.rfl,Iff.rfl⟩
  | rel type l r =>
    have negated : Holds set (.not (.rel type l r)) ↔ ¬ Holds set (.rel type l r) := holds_not proper
    rw [logic_expr_not_prop,notPropUnary]
    · exact ⟨Iff.rfl,negated⟩
    all_goals simp
theorem not_prop_normal (e : LogicExpr) : NegationNormal (logic_expr_not_prop e) ∧ NegationNormal (notPropUnary e) := by
  induction e with
  | value value => simp [logic_expr_not_prop,notPropUnary,NegationNormal,Literal]
  | not unary ih => simpa [logic_expr_not_prop,notPropUnary] using ih.symm
  | and l r left right | or l r left right => simp [logic_expr_not_prop,notPropUnary,NegationNormal,left,right]
  | rel type l r => simp [logic_expr_not_prop,notPropUnary,NegationNormal,Literal]
theorem NegationNormal.not_prop (normal : NegationNormal e) : logic_expr_not_prop e = e := by
  induction e with
  | value value => rw [logic_expr_not_prop] <;> simp
  | not unary => cases unary <;> simp_all [logic_expr_not_prop,notPropUnary,NegationNormal,Literal]
  | and l r left right | or l r left right => rw [logic_expr_not_prop,left normal.1,right normal.2]
  | rel type l r => rw [logic_expr_not_prop] <;> simp

end

section
variable {set : List CStr}

/-- The disjuncts of an expression whose negations stand in front of literals, each by its
    literals. -/
def disjuncts : LogicExpr → List (List LogicExpr)
  | .and lhv rhv => (disjuncts lhv).flatMap fun x => (disjuncts rhv).map (x ++ ·)
  | .or lhv rhv => disjuncts lhv ++ disjuncts rhv
  | e => [[e]]
/-- The operands of nested conjunctions. -/
def conjuncts : LogicExpr → List LogicExpr
  | .and lhv rhv => conjuncts lhv ++ conjuncts rhv
  | e => [e]

/-- A meaning of expressions that treats the connectives as such. -/
structure Connectives (H : LogicExpr → Prop) : Prop where
  and_iff : ∀ l r, H (.and l r) ↔ H l ∧ H r
  or_iff : ∀ l r, H (.or l r) ↔ H l ∨ H r
theorem Connectives.disjuncts {H : LogicExpr → Prop} (laws : Connectives H) (e : LogicExpr) : H e ↔ ∃ d ∈ disjuncts e, ∀ x ∈ d, H x := by
  induction e with
  | and l r left right =>
    rw [laws.and_iff,left,right,Tools.disjuncts]
    simp only [mem_flatMap,mem_map]
    constructor
    · grind
    · grind
  | or l r left right => simp [laws.or_iff,left,right,or_and_right,exists_or,Tools.disjuncts]
  | value value => simp [Tools.disjuncts]
  | not unary => simp [Tools.disjuncts]
  | rel type l r => simp [Tools.disjuncts]
theorem holds_connectives : Connectives (Holds set) := ⟨fun _ _ => holds_and,fun _ _ => holds_or⟩
theorem holds_disjuncts (e : LogicExpr) : Holds set e ↔ ∃ d ∈ disjuncts e, ∀ x ∈ d, Holds set x := holds_connectives.disjuncts e
theorem disjuncts_pos (e : LogicExpr) : 0 < (disjuncts e).length := by
  induction e with
  | and l r left right => simpa [disjuncts,List.length_flatMap] using Nat.mul_pos left right
  | or l r left right => simp [disjuncts]; omega
  | value value => simp [disjuncts]
  | not unary => simp [disjuncts]
  | rel type l r => simp [disjuncts]
theorem NegationNormal.literal (normal : NegationNormal e) {d : List LogicExpr} (member : d ∈ disjuncts e)
    {x : LogicExpr} (inside : x ∈ d) : Literal x := by
  induction e generalizing d with
  | and l r left right =>
    simp only [disjuncts,mem_flatMap,mem_map] at member
    obtain ⟨a,first,b,second,rfl⟩ := member
    rcases mem_append.mp inside with front | back
    · exact left normal.1 first front
    · exact right normal.2 second back
  | or l r left right =>
    rcases mem_append.mp member with front | back
    · exact left normal.1 front inside
    · exact right normal.2 back inside
  | value value | not unary | rel type l r => simp only [disjuncts,mem_singleton] at member; simp_all [NegationNormal]

/-- An expression in which `find_or` finds nothing is one disjunct. -/
theorem disjuncts_conjuncts (none : andOrReplace e = none) : disjuncts e = [conjuncts e] := by
  induction e with
  | or l r => simp [andOrReplace] at none
  | and l r left right =>
    rw [andOrReplace] at none
    split at none
    · cases none
    next noneLeft => simp [disjuncts,conjuncts,left noneLeft,right (by simpa using none)]
  | value value => rfl
  | not unary => rfl
  | rel type l r => rfl
theorem andOrReplace_disjuncts {a b : LogicExpr} (found : andOrReplace e = some (a,b)) (normal : NegationNormal e) :
    disjuncts e = disjuncts a ++ disjuncts b ∧ NegationNormal a ∧ NegationNormal b := by
  induction e generalizing a b with
  | or l r =>
    simp only [andOrReplace,some_inj,Prod.mk.injEq] at found
    obtain ⟨rfl,rfl⟩ := found
    exact ⟨rfl,normal⟩
  | and l r left right =>
    rw [andOrReplace] at found
    split at found
    next a' b' inLeft =>
      obtain ⟨rfl,rfl⟩ := of_pair found
      obtain ⟨split,one,two⟩ := left inLeft normal.1
      exact ⟨by simp [disjuncts,split],⟨one,normal.2⟩,two,normal.2⟩
    next none =>
      obtain ⟨⟨a',b'⟩,inRight,same⟩ := of_map found
      simp only [Prod.mk.injEq] at same
      obtain ⟨rfl,rfl⟩ := same
      obtain ⟨split,one,two⟩ := right inRight normal.2
      exact ⟨by simp [disjuncts,disjuncts_conjuncts none,split],⟨normal.1,one⟩,normal.1,two⟩
  | value value => simp [andOrReplace] at found
  | not unary => simp [andOrReplace] at found
  | rel type l r => simp [andOrReplace] at found
end

section

theorem elements_chainEnd (c : LogicExpr) : elements c = (elements c).dropLast ++ [chainEnd c] := by
  induction c with
  | and l r left _ => grind [elements,chainEnd]
  | _ => rfl
theorem elements_setChainEnd (new c : LogicExpr) : elements (setChainEnd new c) = (elements c).dropLast ++ elements new := by
  induction c with
  | and l r left _ =>
    rw [setChainEnd,elements,elements,left,List.dropLast_cons_of_ne_nil (by cases l <;> simp [elements]),cons_append]
  | _ => rfl
/-- The chain has the operands of the conjunctions as elements, in some order. -/
theorem elements_make_and_chain (e : LogicExpr) : (elements (make_and_chain e)).Perm (conjuncts e) := by
  induction e with
  | and l r left right =>
    rw [make_and_chain,conjuncts]
    split
    next a b chain => grind [elements_setChainEnd,elements_chainEnd,elements]
    next alone => grind [elements]
  | _ => exact .refl _

/-- The operands of a disjunction that goes on in its right operands. -/
def spine : LogicExpr → List LogicExpr
  | .or lhv rhv => lhv :: spine rhv
  | e => [e]
/-- A chain for each disjunct, with its literals as elements. -/
def ChainsOf (e : LogicExpr) (ds : List (List LogicExpr)) : Prop :=
  List.Forall₂ (fun c d => (elements c).Perm d) (spine e) ds

/-- The left operand is left without disjunctions; what is taken out of it stands behind. -/
theorem orLoop_settles {l r : LogicExpr} (left : NegationNormal l) (right : NegationNormal r) :
    ∃ l' r', Settles (fun fuel => orLoop fuel l r) (.ok (l',r')) ∧ andOrReplace l' = none ∧
      disjuncts l ++ disjuncts r = disjuncts l' ++ disjuncts r' ∧ NegationNormal r' := by
  generalize size : (disjuncts l).length = n
  induction n using Nat.strong_induction_on generalizing l r with | _ n ih =>
  cases found : andOrReplace l with
  | none =>
    refine ⟨l,r,.of_succ (.always fun fuel => ?_),found,rfl,right⟩
    rw [orLoop,found]
  | some ab =>
    obtain ⟨a,b⟩ := ab
    obtain ⟨split,normalA,normalB⟩ := andOrReplace_disjuncts found left
    have := disjuncts_pos b
    obtain ⟨l',r',settled,none,same,normal⟩ := ih (disjuncts a).length (by rw [← size,split,length_append]; omega)
      normalA (r := .or b r) ⟨normalB,right⟩ rfl
    refine ⟨l',r',.of_succ (settled.congr fun fuel => ?_),none,?_,normal⟩
    · rw [orLoop,found]
    · rw [split,← same,disjuncts,append_assoc]
/-- The generation stops at a chain for each disjunct. -/
theorem dnf_gen_settles (e : LogicExpr) :
    ∃ r, Settles (fun fuel => logic_expr_dnf_gen fuel e) (.ok r) ∧ ChainsOf r (disjuncts (logic_expr_not_prop e)) := by
  generalize size : (disjuncts (logic_expr_not_prop e)).length = n
  induction n using Nat.strong_induction_on generalizing e with | _ n ih =>
  -- the case of a disjunction on the top
  have onTop : ∀ l r, NegationNormal l → NegationNormal r →
      disjuncts l ++ disjuncts r = disjuncts (logic_expr_not_prop e) →
      ∃ t, Settles (fun fuel => orCase fuel (logic_expr_dnf_gen fuel) l r) (.ok t) ∧
        ChainsOf t (disjuncts (logic_expr_not_prop e)) := by
    intro l r left right whole
    obtain ⟨l',r',settled,none,same,normal⟩ := orLoop_settles left right
    have alone := disjuncts_conjuncts none
    obtain ⟨t,rest,chains⟩ := ih (disjuncts r').length
      (by rw [← size,← whole,same,alone]; simp) r' (by rw [normal.not_prop])
    refine ⟨.or (make_and_chain l') t,settled.bind (rest.bind (.always fun _ => rfl)),?_⟩
    rw [normal.not_prop] at chains
    rw [← whole,same,alone]
    exact .cons (elements_make_and_chain l') chains
  have normal := (not_prop_normal e).1
  cases top : logic_expr_not_prop e with
  | and l r =>
    rw [top] at normal
    cases found : andOrReplace (.and l r) with
    | none =>
      refine ⟨make_and_chain (.and l r),.of_succ (.always fun fuel => ?_),?_⟩
      · rw [logic_expr_dnf_gen,top]
        simp only [found]
      · have single : spine (make_and_chain (.and l r)) = [make_and_chain (.and l r)] := by
          rw [make_and_chain]
          split
          · rfl
          · split <;> rfl
        rw [ChainsOf,disjuncts_conjuncts found,single]
        exact .cons (elements_make_and_chain _) .nil
    | some ab =>
      obtain ⟨split,normalA,normalB⟩ := andOrReplace_disjuncts found normal
      obtain ⟨t,settled,chains⟩ := onTop ab.1 ab.2 normalA normalB (by rw [top,split])
      rw [top] at chains
      refine ⟨t,.of_succ (settled.congr fun fuel => ?_),chains⟩
      rw [logic_expr_dnf_gen,top]
      simp only [found]
  | or l r =>
    rw [top] at normal
    obtain ⟨t,settled,chains⟩ := onTop l r normal.1 normal.2 (by rw [top,disjuncts])
    rw [top] at chains
    refine ⟨t,.of_succ (settled.congr fun fuel => ?_),chains⟩
    rw [logic_expr_dnf_gen,top]
  | value value =>
    refine ⟨.value value,.of_succ (.always fun fuel => ?_),.cons (.refl _) .nil⟩
    rw [logic_expr_dnf_gen,top]
  | not unary =>
    refine ⟨.not unary,.of_succ (.always fun fuel => ?_),.cons (.refl _) .nil⟩
    rw [logic_expr_dnf_gen,top]
  | rel type l r =>
    refine ⟨.rel type l r,.of_succ (.always fun fuel => ?_),.cons (.refl _) .nil⟩
    rw [logic_expr_dnf_gen,top]

end

end TestEnvironment.Tools
