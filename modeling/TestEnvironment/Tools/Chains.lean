import TestEnvironment.Lib.Descending
import TestEnvironment.Tools.NormalForm

/-!
Sorting and comparing the chains of a normal form with a comparison function whose
results are -1, 0 and 1: `sort_and_chain` stops at a chain in strictly descending
order, and `and_chains_cmp` decides which chain has its elements within the other.
-/
namespace TestEnvironment.Tools
open Lib

section
variable {κ : Type*} [LinearOrder κ] {key : LogicExpr → κ} {comp_func : LogicExpr → LogicExpr → Int} {P : LogicExpr → Prop}

variable {e rhv : LogicExpr}

theorem elements_atom (atom : isAnd e = false) : elements e = [e] := by
  cases e <;> simp_all [elements,isAnd]
theorem spine_single (single : isOr e = false) : spine e = [e] := by
  cases e <;> simp_all [spine,isOr]
theorem Literal.atom (literal : Literal e) : isAnd e = false ∧ isOr e = false := by
  cases e <;> simp_all [Literal,isAnd,isOr]
theorem chain_not_or {c : LogicExpr} (inside : ∀ x ∈ elements c, Literal x) : isOr c = false := by
  cases c with
  | or l r => simp_all [elements,Literal]
  | _ => rfl

/-- A pass over the last node. -/
theorem sortPass_last {q : LogicExpr} (front : isAnd rhv = false) (atom : isAnd q = false) :
    elements (sortPass comp_func rhv q).1 = (bubble comp_func rhv (elements q)).1 ∧
      (sortPass comp_func rhv q).2 = (bubble comp_func rhv (elements q)).2 := by
  have one := elements_atom front
  cases q with
  | and l r => simp [isAnd] at atom
  | _ =>
    simp only [sortPass,elements,bubble]
    split_ifs <;> simp [elements,one]
/-- A pass over the nodes is one over the elements. -/
theorem sortPass_bubble {q : LogicExpr} (atoms : ∀ x ∈ rhv :: elements q, isAnd x = false) :
    elements (sortPass comp_func rhv q).1 = (bubble comp_func rhv (elements q)).1 ∧
      (sortPass comp_func rhv q).2 = (bubble comp_func rhv (elements q)).2 := by
  induction q generalizing rhv with
  | and lhv x ih _ =>
    obtain ⟨y,rest,split⟩ : ∃ y rest, elements lhv = y :: rest := by cases lhv <;> exact ⟨_,_,rfl⟩
    have front := @ih rhv fun z member => atoms z (by simp only [elements,mem_cons] at member ⊢; tauto)
    have other := @ih x fun z member => atoms z (by simp only [elements,mem_cons] at member ⊢; tauto)
    rw [elements,split]
    rw [split] at front other
    simp only [sortPass,bubble]
    split_ifs
    · exact ⟨by rw [elements,front.1],by rw [front.2]⟩
    · exact front
    · exact ⟨by rw [elements,other.1],other.2⟩
  | _ => exact sortPass_last (atoms rhv (by simp)) rfl

variable (agree : ∀ x y, P x → P y → comp_func x y = cmpInt (key x) (key y)) (literal : ∀ x, P x → Literal x)
include agree literal

/-- The sorting stops at a descending chain with the same keys. -/
theorem sort_settles (c : LogicExpr) (inside : ∀ x ∈ elements c, P x) :
    ∃ c', Settles (fun fuel => sort_and_chain comp_func fuel c) (.ok c') ∧ Descending key (elements c') ∧
      elements c' ⊆ elements c ∧ Within key (elements c) (elements c') := by
  generalize size : inversions key (elements c) = n
  induction n using Nat.strong_induction_on generalizing c with | _ n ih =>
  by_cases chain : isAnd c = true
  · obtain ⟨l,x,rfl⟩ : ∃ l x, c = .and l x := by cases c <;> simp_all [isAnd]
    obtain ⟨same,count⟩ := @sortPass_bubble comp_func x l fun y member => (literal y (inside y member)).atom.1
    have subset : elements (sortPass comp_func x l).1 ⊆ elements (.and l x) := same ▸ bubble_subset
    have within : Within key (elements (.and l x)) (elements (sortPass comp_func x l).1) := by
      rw [same]; exact bubble_within agree inside
    by_cases still : (sortPass comp_func x l).2 = 0
    · refine ⟨(sortPass comp_func x l).1,.of_succ (.always fun fuel => ?_),?_,subset,within⟩
      · rw [sort_and_chain]
        simp [still]
      · rw [same]
        exact (bubble_descending agree inside (count ▸ still)).1
    · have fewer : inversions key (bubble comp_func x (elements l)).1+(bubble comp_func x (elements l)).2 ≤
          inversions key (x :: elements l) := bubble_inversions agree inside
      have less : inversions key (elements (sortPass comp_func x l).1) < n := by
        rw [← size,same,elements]; omega
      obtain ⟨c',settled,sorted,subset',within'⟩ := ih _ less (sortPass comp_func x l).1
        (fun y member => inside y (subset member)) rfl
      refine ⟨c',.of_succ (settled.congr fun fuel => ?_),sorted,fun y member => subset (subset' member),within.trans within'⟩
      rw [sort_and_chain]
      simp [Nat.pos_of_ne_zero still]
  · have atom : isAnd c = false := by simpa using chain
    refine ⟨c,.of_succ (.always fun fuel => ?_),?_,fun _ member => member,Within.refl _⟩
    · cases c <;> first | rfl | simp [isAnd] at atom
    · rw [elements_atom atom]; simp [Descending]

variable (key P) in
/-- A sorted chain for the literals of a disjunct. -/
structure SortedFor (c : LogicExpr) (d : List LogicExpr) : Prop where
  descending : Descending key (elements c)
  inside : ∀ x ∈ elements c, P x
  subset : elements c ⊆ d
  within : Within key d (elements c)

theorem sort_perm_settles {c : LogicExpr} {d : List LogicExpr} (same : (elements c).Perm d) (inside : ∀ x ∈ d, P x) :
    ∃ c', Settles (fun fuel => sort_and_chain comp_func fuel c) (.ok c') ∧ SortedFor key P c' d := by
  obtain ⟨c',settled,sorted,subset,within⟩ := sort_settles agree literal c fun x member => inside x (same.subset member)
  exact ⟨c',settled,sorted,fun x member => inside x (same.subset (subset member)),fun x member => same.subset (subset member),
    (Within.of_subset same.symm.subset).trans within⟩
theorem sortAll_settles {t : LogicExpr} {ds : List (List LogicExpr)} (chains : ChainsOf t ds)
    (inside : ∀ d ∈ ds, ∀ x ∈ d, P x) :
    ∃ t', Settles (fun fuel => sortAll comp_func fuel t) (.ok t') ∧ List.Forall₂ (SortedFor key P) (spine t') ds := by
  induction t generalizing ds with
  | or l r _ right =>
    obtain ⟨d,rest,same,tail,rfl⟩ := List.forall₂_cons_left_iff.mp chains
    obtain ⟨l',settled,sorted⟩ := sort_perm_settles agree literal same (inside d (by simp))
    obtain ⟨r',settled',sorted'⟩ := right tail fun e member => inside e (mem_cons_of_mem _ member)
    exact ⟨.or l' r',settled.bind (settled'.bind (.always fun _ => rfl)),.cons sorted sorted'⟩
  | _ =>
    obtain ⟨d,rest,same,tail,rfl⟩ := List.forall₂_cons_left_iff.mp chains
    cases tail
    obtain ⟨c',settled,sorted⟩ := sort_perm_settles agree literal same (inside d (by simp))
    have single := spine_single (chain_not_or fun x member => literal x (sorted.inside x member))
    exact ⟨c',settled,by rw [single]; exact .cons sorted .nil⟩

end

section
variable {κ : Type*} [LinearOrder κ] {key : LogicExpr → κ} {comp_func : LogicExpr → LogicExpr → Int} {P : LogicExpr → Prop}

variable (key) in
/-- The result for chains with the elements, when some elements of the first one
    (`first_noeq`) or of the second one are known to be missing in the other. -/
def verdict (first_noeq second_noeq : Bool) (p q : List LogicExpr) : Int :=
  if first_noeq = false ∧ Within key p q then -1
  else if second_noeq = false ∧ Within key q p then 1
  else -2

variable (comp_func) in
/-- A pass of `chainsLoop` behind the choice of the current elements. -/
def compared (fuel : Nat) (p q : List LogicExpr) (p_cur q_cur : LogicExpr) (first_noeq second_noeq : Bool) : Int :=
  let rc := comp_func p_cur q_cur
  if rc ≠ 0 then
    let first_noeq := first_noeq || rc = 1
    let second_noeq := second_noeq || rc ≠ 1
    if first_noeq ∧ second_noeq then -2
    else chainsLoop comp_func fuel p q p_cur q_cur rc first_noeq second_noeq
  else if p = [] ∨ q = [] then chainsResult p q rc first_noeq second_noeq
  else chainsLoop comp_func fuel p q p_cur q_cur rc first_noeq second_noeq

variable {a b p_cur q_cur : LogicExpr} {p q : List LogicExpr} {fuel : Nat} {fn sn : Bool}

theorem loop_both : chainsLoop comp_func (fuel+1) (a :: p) (b :: q) p_cur q_cur 0 fn sn = compared comp_func fuel p q a b fn sn := by
  simp [chainsLoop,compared]
theorem loop_first : chainsLoop comp_func (fuel+1) (a :: p) q p_cur b 1 fn sn = compared comp_func fuel p q a b fn sn := by
  simp [chainsLoop,compared]
theorem loop_second : chainsLoop comp_func (fuel+1) p (b :: q) a q_cur (-1) fn sn = compared comp_func fuel p q a b fn sn := by
  simp [chainsLoop,compared]
theorem loop_end_first : chainsLoop comp_func fuel [] q p_cur q_cur 1 true false = -2 := by
  cases fuel <;> cases q <;> simp [chainsLoop,chainsResult]
theorem loop_end_second : chainsLoop comp_func fuel p [] p_cur q_cur (-1) false true = -2 := by
  cases fuel <;> cases p <;> simp [chainsLoop,chainsResult]

theorem compared_less (less : comp_func a b = -1) :
    compared comp_func fuel p q a b fn sn = if fn then -2 else chainsLoop comp_func fuel p q a b (-1) false true := by
  cases fn <;> simp [compared,less]
theorem compared_greater (greater : comp_func a b = 1) :
    compared comp_func fuel p q a b fn sn = if sn then -2 else chainsLoop comp_func fuel p q a b 1 true false := by
  cases sn <;> simp [compared,greater]
theorem compared_equal (equal : comp_func a b = 0) :
    compared comp_func fuel p q a b fn sn =
      if p = [] ∨ q = [] then chainsResult p q 0 fn sn else chainsLoop comp_func fuel p q a b 0 fn sn := by
  simp [compared,equal]

theorem verdict_less (first : Descending key (a :: p)) (less : key a < key b) :
    verdict key fn sn (a :: p) (b :: q) = if fn then -2 else verdict key false true (a :: p) q := by
  grind [not_within_of_head,within_behind_head,verdict]
theorem verdict_greater (second : Descending key (b :: q)) (greater : key b < key a) :
    verdict key fn sn (a :: p) (b :: q) = if sn then -2 else verdict key true false p (b :: q) := by
  grind [not_within_of_head,within_behind_head,verdict]
theorem verdict_equal (first : Descending key (a :: p)) (second : Descending key (b :: q)) (equal : key a = key b) :
    verdict key fn sn (a :: p) (b :: q) = verdict key fn sn p q := by
  have same : Within key (a :: p) (b :: q) ↔ Within key p q := within_cons_eq first equal
  have same' : Within key (b :: q) (a :: p) ↔ Within key q p := within_cons_eq second equal.symm
  simp [verdict,same,same']
theorem chainsResult_verdict (ended : p = [] ∨ q = []) (one : ¬ (fn = true ∧ sn = true)) :
    chainsResult p q 0 fn sn = verdict key fn sn p q := by
  rcases ended with rfl | rfl
  · cases q <;> cases fn <;> cases sn <;> simp_all [chainsResult,verdict]
  · cases p <;> cases fn <;> cases sn <;> simp_all [chainsResult,verdict]

variable (agree : ∀ x y, P x → P y → comp_func x y = cmpInt (key x) (key y))
include agree

/-- The comparison goes down both chains like a merge. -/
theorem compared_verdict (left : ∀ x ∈ a :: p, P x) (right : ∀ x ∈ b :: q, P x) (first : Descending key (a :: p))
    (second : Descending key (b :: q)) (enough : p.length+q.length ≤ fuel) (one : ¬ (fn = true ∧ sn = true)) :
    compared comp_func fuel p q a b fn sn = verdict key fn sn (a :: p) (b :: q) := by
  induction fuel using Nat.strong_induction_on generalizing a b p q fn sn with | _ fuel ih =>
  have pa := left a (by simp)
  have pb := right b (by simp)
  have leftTail : ∀ x ∈ p, P x := fun x member => left x (mem_cons_of_mem _ member)
  have rightTail : ∀ x ∈ q, P x := fun x member => right x (mem_cons_of_mem _ member)
  have firstTail := (pairwise_cons.mp first).2
  have secondTail := (pairwise_cons.mp second).2
  rcases lt_trichotomy (key a) (key b) with less | equal | greater
  · rw [compared_less ((cmp_less agree pa pb).mpr less),verdict_less first less]
    refine if_congr Iff.rfl rfl ?_
    cases q with
    | nil => rw [loop_end_second]; simp [verdict]
    | cons b' q =>
      obtain ⟨k,rfl⟩ : ∃ k, fuel = k+1 := ⟨fuel-1,by simp only [length_cons] at enough; omega⟩
      rw [loop_second]
      exact ih k (by omega) left rightTail first secondTail (by simp only [length_cons] at enough; omega) (by simp)
  · rw [compared_equal ((cmp_equal agree pa pb).mpr equal),verdict_equal first second equal]
    split_ifs with ended
    · exact chainsResult_verdict ended one
    · obtain ⟨a',p,rfl⟩ := exists_cons_of_ne_nil (not_or.mp ended).1
      obtain ⟨b',q,rfl⟩ := exists_cons_of_ne_nil (not_or.mp ended).2
      obtain ⟨k,rfl⟩ : ∃ k, fuel = k+1 := ⟨fuel-1,by simp only [length_cons] at enough; omega⟩
      rw [loop_both]
      exact ih k (by omega) leftTail rightTail firstTail secondTail
        (by simp only [length_cons] at enough; omega) one
  · rw [compared_greater ((cmp_greater agree pa pb).mpr greater),verdict_greater second greater]
    refine if_congr Iff.rfl rfl ?_
    cases p with
    | nil => rw [loop_end_first]; simp [verdict]
    | cons a' p =>
      obtain ⟨k,rfl⟩ : ∃ k, fuel = k+1 := ⟨fuel-1,by simp only [length_cons] at enough; omega⟩
      rw [loop_first]
      exact ih k (by omega) leftTail right firstTail second (by simp only [length_cons] at enough; omega) (by simp)
/-- `and_chains_cmp` decides which of two sorted chains has its elements within the other. -/
theorem and_chains_cmp_verdict {c c' : LogicExpr} (left : ∀ x ∈ elements c, P x) (right : ∀ x ∈ elements c', P x)
    (first : Descending key (elements c)) (second : Descending key (elements c')) :
    and_chains_cmp comp_func c c' = verdict key false false (elements c) (elements c') := by
  obtain ⟨a,p,split⟩ : ∃ a p, elements c = a :: p := by cases c <;> exact ⟨_,_,rfl⟩
  obtain ⟨b,q,split'⟩ : ∃ b q, elements c' = b :: q := by cases c' <;> exact ⟨_,_,rfl⟩
  rw [split] at left first
  rw [split'] at right second
  rw [and_chains_cmp,split,split']
  simp only [length_cons]
  rw [← add_assoc,loop_both]
  exact compared_verdict agree left right first second (by omega) (by simp)

end

end TestEnvironment.Tools
