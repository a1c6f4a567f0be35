import TestEnvironment.Tools.Chains

/-!
The last pass of `logic_expr_dnf`, in which conjunctions merge others, and the
meaning of the whole: it is kept where the comparison function returns -1, 0 or 1
and no single literal merges everything behind it.
-/
namespace TestEnvironment.Tools
open Lib

section
variable {β γ : Type*} (merges : β → β → Prop) [DecidableRel merges]

/-- What is left of the elements behind `c`, and whether `c` is merged itself: it merges
    elements up to the first one that merges it. -/
def absorb (c : β) : List β → List β × Bool
  | [] => ([],false)
  | q :: rest =>
    if merges c q then absorb c rest
    else if merges q c then (q :: rest,true)
    else (q :: (absorb c rest).1,(absorb c rest).2)
/-- No lone element merges all elements still behind it, and none that is looked into takes
    the place of a merged one at the end. What takes such a place is not looked at itself. -/
def Quiet (lone inner : β → Prop) : Nat → List β → Prop
  | 0, _ | _, [] => True
  | n+1, c :: rest =>
    rest = [] ∨
      match absorb merges c rest with
      | ([],_) => ¬ lone c
      | ([e],true) => ¬ inner e
      | (_ :: e :: ds,true) => Quiet lone inner n (e :: ds)
      | (d :: ds,false) => Quiet lone inner n (d :: ds)

variable {merges} {merges' : γ → γ → Prop} [DecidableRel merges'] {R : β → γ → Prop} {c : β} {d : γ} {cs : List β} {ds : List γ}

theorem absorb_sublist : (absorb merges c cs).1.Sublist cs := by
  fun_induction absorb merges c cs with
  | case1 => exact .refl _
  | case2 q rest _ ih => exact ih.cons q
  | case3 q rest => exact .refl _
  | case4 q rest _ _ ih => exact ih.cons_cons q
/-- Merging keeps what the elements say together. -/
theorem absorb_meaning {H : β → Prop} (weaker : ∀ q ∈ cs, (merges c q → H q → H c) ∧ (merges q c → H c → H q)) :
    ((H c ∨ ∃ q ∈ cs, H q) ↔ (H c ∨ ∃ q ∈ (absorb merges c cs).1, H q)) ∧
      ((absorb merges c cs).2 = true → H c → ∃ q ∈ (absorb merges c cs).1, H q) := by
  fun_induction absorb merges c cs with
  | case1 => simp
  | case2 q rest into ih =>
    obtain ⟨same,swallowed⟩ := ih fun q member => weaker q (mem_cons_of_mem _ member)
    have kept := (weaker q (by simp)).1 into
    refine ⟨?_,swallowed⟩
    rw [← same]
    simp only [mem_cons,exists_eq_or_imp]
    rw [← or_assoc,or_iff_left_of_imp kept]
  | case3 q rest _ under => grind
  | case4 q rest _ _ ih =>
    obtain ⟨same,swallowed⟩ := ih fun q member => weaker q (mem_cons_of_mem _ member)
    simp only [mem_cons,exists_eq_or_imp]
    refine ⟨?_,fun merged holds => .inr (swallowed merged holds)⟩
    rw [or_left_comm,same,or_left_comm]

/-- Merging goes the same way for elements that merge the same ones. -/
theorem absorb_forall₂ (same : ∀ a b, R a b → ∀ a' b', R a' b' → (merges a a' ↔ merges' b b')) (head : R c d)
    (related : List.Forall₂ R cs ds) :
    List.Forall₂ R (absorb merges c cs).1 (absorb merges' d ds).1 ∧ (absorb merges c cs).2 = (absorb merges' d ds).2 := by
  induction related with
  | nil => exact ⟨.nil,rfl⟩
  | cons front tail ih =>
    simp only [absorb,same _ _ head _ _ front,same _ _ front _ _ head]
    split_ifs
    · exact ih
    · exact ⟨.cons front tail,rfl⟩
    · exact ⟨.cons front ih.1,ih.2⟩
theorem quiet_forall₂ {lone inner : β → Prop} {lone' inner' : γ → Prop} (alike : ∀ a b, R a b → (lone a ↔ lone' b))
    (alike' : ∀ a b, R a b → (inner a ↔ inner' b))
    (same : ∀ a b, R a b → ∀ a' b', R a' b' → (merges a a' ↔ merges' b b')) (n : Nat) (related : List.Forall₂ R cs ds) :
    Quiet merges lone inner n cs ↔ Quiet merges' lone' inner' n ds := by
  induction n generalizing cs ds with
  | zero => simp [Quiet]
  | succ n ih =>
    cases related with
    | nil => simp [Quiet]
    | @cons c d cs ds head tail =>
      obtain ⟨rest,flag⟩ := absorb_forall₂ same head tail
      have empty : cs = [] ↔ ds = [] := by cases tail <;> simp
      rw [Quiet,Quiet,empty]
      refine or_congr Iff.rfl ?_
      generalize absorb merges c cs = first at rest flag
      generalize absorb merges' d ds = second at rest flag
      obtain ⟨first,merged⟩ := first
      obtain ⟨second,merged'⟩ := second
      simp only at rest flag
      subst flag
      cases rest with
      | nil => exact not_congr (alike _ _ head)
      | cons front behind =>
        cases merged with
        | false =>
          have step := ih (.cons front behind)
          cases behind <;> exact step
        | true =>
          cases behind with
          | nil => exact not_congr (alike' _ _ front)
          | cons next more => exact ih (.cons next more)

end

section
variable {κ : Type*} [LinearOrder κ] {key : LogicExpr → κ} {comp_func : LogicExpr → LogicExpr → Int} {P : LogicExpr → Prop}

variable (key) in
/-- The elements of the first chain are within the second one, so that its meaning is wider. -/
def Merges (c q : LogicExpr) : Prop := Within key (elements c) (elements q)
instance : DecidableRel (Merges key) := fun c q => inferInstanceAs (Decidable (Within key (elements c) (elements q)))
def isRel : LogicExpr → Bool
  | .rel .. => true
  | _ => false
/-- A comparison with a disjunction on the right, which the outer loop would go on with. -/
def looksInto : LogicExpr → Bool
  | .rel _ _ rhv => isOr rhv
  | _ => false
/-- A value, a negation or such a comparison. -/
def stops (e : LogicExpr) : Bool := !isRel e || looksInto e
/-- A chain that is one literal of the kind. -/
def Lone (kind : LogicExpr → Bool) (c : LogicExpr) : Prop := isAnd c = false ∧ kind c = true
theorem not_lone_stops {c : LogicExpr} (notOr : isOr c = false) (notLone : ¬ Lone stops c) :
    looksInto c = false ∧ ¬ (isValue c = true ∨ isNot c = true) := by
  cases c <;> simp_all [Lone,stops,looksInto,isRel,isAnd,isValue,isNot,isOr]
theorem not_lone_looksInto {c : LogicExpr} (notLone : ¬ Lone looksInto c) : looksInto c = false := by
  cases c <;> simp_all [Lone,looksInto,isAnd]
theorem stops_plain {c : LogicExpr} (notOr : isOr c = false) (atom : isAnd c = false) (kind : stops c = true)
    (plain : looksInto c = false) : isValue c = true ∨ isNot c = true := by
  cases c <;> simp_all [stops,isRel,isAnd,isValue,isNot,isOr]
variable (key P) in
def SortedChain (c : LogicExpr) : Prop := (∀ x ∈ elements c, P x) ∧ Descending key (elements c)

/-- The disjunction of the chains. -/
def ofSpine (c : LogicExpr) : List LogicExpr → LogicExpr
  | [] => c
  | d :: ds => .or c (ofSpine d ds)
def ofSpineOption : List LogicExpr → Option LogicExpr
  | [] => none
  | c :: cs => some (ofSpine c cs)

theorem spine_ofSpine (t : LogicExpr) : ∃ c cs, spine t = c :: cs ∧ t = ofSpine c cs := by
  induction t with
  | or l r _ right => grind [spine,ofSpine]
  | _ => exact ⟨_,[],rfl,rfl⟩
theorem holds_elements {set : List CStr} (c : LogicExpr) : Holds set c ↔ ∀ x ∈ elements c, Holds set x := by
  induction c with
  | and l r left _ => rw [holds_and,elements,forall_mem_cons,left,and_comm]
  | _ => simp [elements]

theorem merges_meaning {set : List CStr} (equal : ∀ x y, P x → P y → key x = key y → (Holds set x ↔ Holds set y))
    {c q : LogicExpr} (second : SortedChain key P q) (first : SortedChain key P c) (wider : Merges key c q)
    (holds : Holds set q) : Holds set c := by
  rw [holds_elements] at holds ⊢
  intro x member
  obtain ⟨y,found,same⟩ := wider x member
  exact (equal x y (first.1 x member) (second.1 y found) same).mpr (holds y found)

variable (agree : ∀ x y, P x → P y → comp_func x y = cmpInt (key x) (key y)) (literal : ∀ x, P x → Literal x)

include agree in
theorem and_chains_cmp_merges {c q : LogicExpr} (first : SortedChain key P c) (second : SortedChain key P q) :
    (and_chains_cmp comp_func c q = 0 ∨ and_chains_cmp comp_func c q = -1 ↔ Merges key c q) ∧
      (and_chains_cmp comp_func c q = 1 ↔ ¬ Merges key c q ∧ Merges key q c) := by
  rw [and_chains_cmp_verdict agree first.1 second.1 first.2 second.2,verdict]
  simp only [Merges,true_and]
  split_ifs <;> simp_all

include agree literal in
theorem remScan_absorb {p c : LogicExpr} {cs : List LogicExpr} (front : SortedChain key P p)
    (sorted : ∀ q ∈ c :: cs, SortedChain key P q) :
    remScan comp_func p (ofSpine c cs) =
      (ofSpineOption (absorb (Merges key) p (c :: cs)).1,(absorb (Merges key) p (c :: cs)).2) := by
  induction cs generalizing c with
  | nil =>
    have head := sorted c (by simp)
    obtain ⟨into,under⟩ := and_chains_cmp_merges agree front head
    have notOr := chain_not_or fun x member => literal x (head.1 x member)
    have last : remScan comp_func p c =
        if and_chains_cmp comp_func p c = 0 ∨ and_chains_cmp comp_func p c = -1 then (none,false)
        else if and_chains_cmp comp_func p c = 1 then (some c,true) else (some c,false) := by
      cases c <;> first | rfl | cases notOr
    rw [ofSpine,last]
    simp only [into,under,absorb]
    split_ifs <;> simp_all [ofSpineOption,ofSpine]
  | cons d ds ih =>
    have head := sorted c (by simp)
    obtain ⟨into,under⟩ := and_chains_cmp_merges agree front head
    have rest := ih fun q member => sorted q (mem_cons_of_mem _ member)
    have step : absorb (Merges key) p (c :: d :: ds) =
        if Merges key p c then absorb (Merges key) p (d :: ds)
        else if Merges key c p then (c :: d :: ds,true)
        else (c :: (absorb (Merges key) p (d :: ds)).1,(absorb (Merges key) p (d :: ds)).2) := rfl
    rw [step,ofSpine,remScan,rest]
    simp only [into,under]
    by_cases wider : Merges key p c
    · rw [if_pos wider,if_pos wider]
    · by_cases narrower : Merges key c p
      · rw [if_neg wider,if_pos ⟨wider,narrower⟩,if_neg wider,if_pos narrower]
        rfl
      · rw [if_neg wider,if_neg (fun both => narrower both.2),if_neg wider,if_neg narrower]
        cases (absorb (Merges key) p (d :: ds)).1 <;> simp [ofSpineOption,ofSpine]

theorem remLoop_single {e : LogicExpr} (single : isOr e = false) (fuel : Nat) : remLoop comp_func (fuel+1) e = .ok e := by
  cases e <;> first | rfl | cases single
include literal in
/-- The loop ends at a chain whose right operand it goes on with. -/
theorem nextNode_settles {c : LogicExpr} (sorted : SortedChain key P c) (before : Except Fault LogicExpr)
    (plain : looksInto c = false) :
    Settles (fun fuel => nextNode (remLoop comp_func fuel) before c) (if isValue c ∨ isNot c then before else .ok c) := by
  cases c with
  | and l r =>
    have single := (literal r (sorted.1 r (by simp [elements]))).atom.2
    exact .of_succ (.always fun fuel => by simp [nextNode,remLoop_single single,isValue,isNot,Except.map])
  | or l r => exact absurd (literal _ (sorted.1 (.or l r) (by simp [elements]))) (by simp [Literal])
  | rel type l r =>
    exact .of_succ (.always fun fuel => by simp [nextNode,remLoop_single plain,isValue,isNot,Except.map])
  | value value => exact .always fun fuel => by simp [nextNode,isValue]
  | not unary => exact .always fun fuel => by simp [nextNode,isNot]

include agree literal in
/-- The outer loop stops with some of the chains and the same meaning, or at a freed node. -/
theorem remLoop_settles {set : List CStr} (equal : ∀ x y, P x → P y → key x = key y → (Holds set x ↔ Holds set y))
    (n : Nat) {c : LogicExpr} {cs : List LogicExpr} (short : cs.length < n) (sorted : ∀ q ∈ c :: cs, SortedChain key P q) :
    (Quiet (Merges key) (Lone stops) (Lone looksInto) n (c :: cs) → ∃ t, Settles (fun fuel => remLoop comp_func fuel (ofSpine c cs)) (.ok t) ∧
        (Holds set t ↔ ∃ q ∈ c :: cs, Holds set q) ∧ (spine t).Sublist (c :: cs)) ∧
      ((∀ x, P x → looksInto x = false) → ¬ Quiet (Merges key) (Lone stops) (Lone looksInto) n (c :: cs) →
        Settles (fun fuel => remLoop comp_func fuel (ofSpine c cs)) (.error .freed)) := by
  induction n generalizing c cs with
  | zero => omega
  | succ n ih =>
    have front := sorted c (by simp)
    cases cs with
    | nil =>
      have single := chain_not_or fun x member => literal x (front.1 x member)
      refine ⟨fun _ => ⟨c,.of_succ (.always fun fuel => remLoop_single single fuel),by simp,by rw [spine_single single]⟩,fun _ loud => ?_⟩
      exact absurd (by simp [Quiet]) loud
    | cons d ds =>
      have rest : ∀ q ∈ d :: ds, SortedChain key P q := fun q member => sorted q (mem_cons_of_mem _ member)
      have scan := remScan_absorb agree literal front rest
      have weaker : ∀ q ∈ d :: ds, (Merges key c q → Holds set q → Holds set c) ∧
          (Merges key q c → Holds set c → Holds set q) := fun q member =>
        ⟨merges_meaning equal (rest q member) front,merges_meaning equal front (rest q member)⟩
      obtain ⟨together,swallowed⟩ := absorb_meaning weaker
      have less : (absorb (Merges key) c (d :: ds)).1.length ≤ (d :: ds).length := absorb_sublist.length_le
      have part : (absorb (Merges key) c (d :: ds)).1.Sublist (d :: ds) := absorb_sublist
      have among : ∀ q ∈ (absorb (Merges key) c (d :: ds)).1, SortedChain key P q := fun q member => rest q (part.subset member)
      have whole : (∃ q ∈ c :: d :: ds, Holds set q) ↔ Holds set c ∨ ∃ q ∈ d :: ds, Holds set q := by simp
      rw [whole]
      rcases result : absorb (Merges key) c (d :: ds) with ⟨left,merged⟩
      rw [result] at scan together swallowed less part among
      cases left with
      | nil =>
        have quiet : Quiet (Merges key) (Lone stops) (Lone looksInto) (n+1) (c :: d :: ds) ↔ ¬ Lone stops c := by
          rw [Quiet,result]; simp
        have unfolded : ∀ fuel, remLoop comp_func (fuel+1) (ofSpine c (d :: ds)) =
            nextNode (remLoop comp_func fuel) (.error .freed) c := fun fuel => by rw [ofSpine,remLoop,scan]; rfl
        have settled : looksInto c = false → Settles (fun fuel => remLoop comp_func fuel (ofSpine c (d :: ds)))
            (if isValue c ∨ isNot c then .error .freed else .ok c) := fun plain =>
          .of_succ ((nextNode_settles literal front (.error .freed) plain).congr unfolded)
        have notOr := chain_not_or fun x member => literal x (front.1 x member)
        rw [quiet]
        refine ⟨fun notLone => ⟨c,?_,?_,?_⟩,fun plain lone => ?_⟩
        · obtain ⟨plain,notStop⟩ := not_lone_stops notOr notLone
          have settled := settled plain
          rw [if_neg notStop] at settled
          exact settled
        · rw [together]; simp
        · rw [spine_single notOr]
          exact List.singleton_sublist.mpr mem_cons_self
        · obtain ⟨atom,kind⟩ := not_not.mp lone
          have own := plain c (front.1 c (by simp [elements_atom atom]))
          have settled := settled own
          rw [if_pos (stops_plain notOr atom kind own)] at settled
          exact settled
      | cons e es =>
        cases merged with
        | false =>
          have quiet : Quiet (Merges key) (Lone stops) (Lone looksInto) (n+1) (c :: d :: ds) ↔
              Quiet (Merges key) (Lone stops) (Lone looksInto) n (e :: es) := by
            rw [Quiet,result]; simp
          have unfolded : ∀ fuel, remLoop comp_func (fuel+1) (ofSpine c (d :: ds)) =
              (remLoop comp_func fuel (ofSpine e es)).map (LogicExpr.or c) := fun fuel => by
            rw [ofSpine,remLoop,scan]; rfl
          obtain ⟨still,freed⟩ := ih (by simp only [length_cons] at less short; omega) among
          rw [quiet]
          refine ⟨fun calm => ?_,fun plain loud => .of_succ (((freed plain loud).map_error _).congr unfolded)⟩
          obtain ⟨t,settled,meaning,left'⟩ := still calm
          refine ⟨.or c t,.of_succ ((settled.map _).congr unfolded),?_,(left'.trans part).cons_cons c⟩
          rw [holds_or,meaning,together]
        | true =>
          have covered : (Holds set c ∨ ∃ q ∈ d :: ds, Holds set q) ↔ ∃ q ∈ e :: es, Holds set q := by
            rw [together]
            exact or_iff_right_of_imp (swallowed rfl)
          have unfolded : ∀ fuel, remLoop comp_func (fuel+1) (ofSpine c (d :: ds)) =
              nextNode (remLoop comp_func fuel) (.ok (ofSpine e es)) (ofSpine e es) := fun fuel => by
            rw [ofSpine,remLoop,scan]; rfl
          cases es with
          | nil =>
            have quiet : Quiet (Merges key) (Lone stops) (Lone looksInto) (n+1) (c :: d :: ds) ↔ ¬ Lone looksInto e := by
              rw [Quiet,result]; simp
            have last := among e (by simp)
            have settled : looksInto e = false → Settles (fun fuel => remLoop comp_func fuel (ofSpine c (d :: ds)))
                (if isValue e ∨ isNot e then .ok e else .ok e) := fun plain =>
              .of_succ ((nextNode_settles literal last (.ok e) plain).congr unfolded)
            rw [ite_self] at settled
            rw [quiet]
            refine ⟨fun notLone => ⟨e,settled ?_,?_,?_⟩,fun plain lone => ?_⟩
            · exact not_lone_looksInto notLone
            · rw [covered]; simp
            · rw [spine_single (chain_not_or fun x member => literal x (last.1 x member))]
              exact part.cons c
            · obtain ⟨atom,kind⟩ := not_not.mp lone
              have own := plain e (last.1 e (by simp [elements_atom atom]))
              simp [own] at kind
          | cons f fs =>
            have quiet : Quiet (Merges key) (Lone stops) (Lone looksInto) (n+1) (c :: d :: ds) ↔
                Quiet (Merges key) (Lone stops) (Lone looksInto) n (f :: fs) := by
              rw [Quiet,result]; simp
            have unfolded' : ∀ fuel, remLoop comp_func (fuel+1) (ofSpine c (d :: ds)) =
                (remLoop comp_func fuel (ofSpine f fs)).map (LogicExpr.or e) := unfolded
            obtain ⟨still,freed⟩ := @ih f fs (by simp only [length_cons] at less short; omega)
              fun q member => among q (mem_cons_of_mem _ member)
            rw [quiet]
            refine ⟨fun calm => ?_,fun plain loud => .of_succ (((freed plain loud).map_error _).congr unfolded')⟩
            obtain ⟨t,settled,meaning,left'⟩ := still calm
            refine ⟨.or e t,.of_succ ((settled.map _).congr unfolded'),?_,((left'.cons_cons e).trans part).cons c⟩
            rw [holds_or,meaning,covered]
            simp

end

section
variable {κ : Type*} [LinearOrder κ] {key : LogicExpr → κ} {comp_func : LogicExpr → LogicExpr → Int} {set : List CStr} {e : LogicExpr}

/-- The literals of the normal form. -/
def literals (e : LogicExpr) : List LogicExpr := (disjuncts (logic_expr_not_prop e)).flatten
/-- The comparisons among the literals have no disjunction on the right. -/
def PlainOperands (e : LogicExpr) : Prop := ∀ x ∈ literals e, looksInto x = false
variable (key) in
/-- The sign of the result is that of a comparison of keys. -/
def LikeStrcmp (comp_func : LogicExpr → LogicExpr → Int) : Prop :=
  ∀ x y, Literal x → Literal y → (comp_func x y < 0 ↔ key x < key y) ∧ (comp_func x y = 0 ↔ key x = key y)
/-- The results for the literals of the expression are -1, 0 and 1. -/
def ExactResults (comp_func : LogicExpr → LogicExpr → Int) (e : LogicExpr) : Prop :=
  ∀ x ∈ literals e, ∀ y ∈ literals e, comp_func x y = -1 ∨ comp_func x y = 0 ∨ comp_func x y = 1
variable (key) in
/-- Literals with the same key have the same meaning and are of the same kind. -/
def Faithful (set : List CStr) (e : LogicExpr) : Prop :=
  ∀ x ∈ literals e, ∀ y ∈ literals e, key x = key y →
    (Holds set x ↔ Holds set y) ∧ isRel x = isRel y ∧ looksInto x = looksInto y
variable (key) in
/-- A disjunct of a single literal, apart from repetitions, of the kind. -/
def LoneLiteral (kind : LogicExpr → Bool) (d : List LogicExpr) : Prop :=
  (∀ x ∈ d, ∀ y ∈ d, key x = key y) ∧ ∀ x ∈ d, kind x = true
variable (key) in
/-- No single literal among the disjuncts merges all that is still behind it, and no
    comparison with a disjunction on the right comes to the place of the last two. -/
def QuietDisjuncts (e : LogicExpr) : Prop :=
  Quiet (Within key) (LoneLiteral key stops) (LoneLiteral key looksInto) (disjuncts (logic_expr_not_prop e)).length
    (disjuncts (logic_expr_not_prop e))
/-- `logic_expr_dnf` terminates with an expression of the same meaning. -/
def KeepsMeaning (comp_func : LogicExpr → LogicExpr → Int) (set : List CStr) (e : LogicExpr) : Prop :=
  ∃ r, Settles (fun fuel => logic_expr_dnf comp_func fuel e) (.ok r) ∧ (Holds set r ↔ Holds set e)

theorem literals_literal {x : LogicExpr} (member : x ∈ literals e) : Literal x := by
  obtain ⟨d,among,inside⟩ := List.mem_flatten.mp member
  exact (not_prop_normal e).1.literal among inside
theorem LikeStrcmp.agree (like : LikeStrcmp key comp_func) (exact : ExactResults comp_func e) (x y : LogicExpr)
    (left : x ∈ literals e) (right : y ∈ literals e) : comp_func x y = cmpInt (key x) (key y) := by
  obtain ⟨less,equal⟩ := like x y (literals_literal left) (literals_literal right)
  rw [cmpInt]
  rcases exact x left y right with value | value | value
  · rw [if_pos (less.mp (by omega)),value]
  · grind
  · grind
theorem lone_disjunct {kind : LogicExpr → Bool} {c : LogicExpr} {d : List LogicExpr}
    (sorted : SortedFor key (· ∈ literals e) c d)
    (alike : ∀ x ∈ d, ∀ y ∈ d, key x = key y → kind x = kind y) : Lone kind c ↔ LoneLiteral key kind d := by
  constructor
  · rintro ⟨atom,own⟩
    have single := elements_atom atom
    have all : ∀ x ∈ d, key x = key c := fun x member => by
      obtain ⟨y,found,same⟩ := sorted.within x member
      rw [single,mem_singleton] at found
      rw [same,found]
    have among : c ∈ d := sorted.subset (by simp [single])
    exact ⟨fun x first y second => (all x first).trans (all y second).symm,
      fun x member => (alike x member c among (all x member)).trans own⟩
  · rintro ⟨same,all⟩
    have descending := sorted.descending
    have subset := sorted.subset
    by_cases chain : isAnd c = true
    · obtain ⟨l,r,rfl⟩ : ∃ l r, c = .and l r := by cases c <;> simp_all [isAnd]
      obtain ⟨x,rest,split⟩ : ∃ x rest, elements l = x :: rest := by cases l <;> exact ⟨_,_,rfl⟩
      rw [elements,split] at descending subset
      have below := (pairwise_cons.mp descending).1 x (by simp)
      exact absurd (same x (subset (by simp)) r (subset (by simp))) (ne_of_lt below)
    · have atom : isAnd c = false := by simpa using chain
      exact ⟨atom,all c (subset (by simp [elements_atom atom]))⟩

/-- A chain for a disjunct means what its literals mean together. -/
theorem sortedFor_meaning {c : LogicExpr} {d : List LogicExpr} (sorted : SortedFor key (· ∈ literals e) c d)
    (inside : ∀ x ∈ d, x ∈ literals e) (faithful : Faithful key set e) : Holds set c ↔ ∀ x ∈ d, Holds set x := by
  rw [holds_elements]
  constructor
  · intro all x member
    obtain ⟨y,found,same⟩ := sorted.within x member
    exact (faithful x (inside x member) y (sorted.inside y found) same).1.mpr (all y found)
  · exact fun all x member => all x (sorted.subset member)
theorem sortedFor_disjuncts {cs : List LogicExpr} {ds : List (List LogicExpr)}
    (sorted : List.Forall₂ (SortedFor key (· ∈ literals e)) cs ds) (inside : ∀ d ∈ ds, ∀ x ∈ d, x ∈ literals e)
    (faithful : Faithful key set e) : (∃ c ∈ cs, Holds set c) ↔ ∃ d ∈ ds, ∀ x ∈ d, Holds set x := by
  induction sorted with
  | nil => simp
  | cons head tail ih =>
    simp only [mem_cons,exists_eq_or_imp]
    rw [sortedFor_meaning head (inside _ (by simp)) faithful,ih fun d member => inside d (mem_cons_of_mem _ member)]
theorem sortedFor_chains {cs : List LogicExpr} {ds : List (List LogicExpr)}
    (sorted : List.Forall₂ (SortedFor key (· ∈ literals e)) cs ds) : ∀ c ∈ cs, SortedChain key (· ∈ literals e) c := by
  induction sorted with
  | nil => simp
  | cons head tail ih => exact forall_mem_cons.mpr ⟨⟨head.inside,head.descending⟩,ih⟩
theorem sortedFor_quiet {cs : List LogicExpr} {ds : List (List LogicExpr)}
    (sorted : List.Forall₂ (SortedFor key (· ∈ literals e)) cs ds) (inside : ∀ d ∈ ds, ∀ x ∈ d, x ∈ literals e)
    (faithful : Faithful key set e) (n : Nat) :
    Quiet (Merges key) (Lone stops) (Lone looksInto) n cs ↔
      Quiet (Within key) (LoneLiteral key stops) (LoneLiteral key looksInto) n ds := by
  have related : List.Forall₂ (fun c d => SortedFor key (· ∈ literals e) c d ∧ ∀ x ∈ d, x ∈ literals e) cs ds := by
    induction sorted with
    | nil => exact .nil
    | cons head tail ih =>
      exact .cons ⟨head,inside _ (by simp)⟩ (ih fun d member => inside d (mem_cons_of_mem _ member))
  have both : ∀ {c d}, SortedFor key (· ∈ literals e) c d → Within key (elements c) d ∧ Within key d (elements c) :=
    fun one => ⟨Within.of_subset one.subset,one.within⟩
  have alike : ∀ {d : List LogicExpr}, (∀ x ∈ d, x ∈ literals e) → ∀ x ∈ d, ∀ y ∈ d, key x = key y →
      stops x = stops y ∧ looksInto x = looksInto y := fun among x left y right same => by
    obtain ⟨_,one,two⟩ := faithful x (among x left) y (among y right) same
    exact ⟨by rw [stops,stops,one,two],two⟩
  exact quiet_forall₂ (fun c d one => lone_disjunct one.1 fun x left y right same => (alike one.2 x left y right same).1)
    (fun c d one => lone_disjunct one.1 fun x left y right same => (alike one.2 x left y right same).2)
    (fun c d one c' d' two => within_congr (both one.1) (both two.1)) n related

/-- The chains of the disjuncts, of which some are left in the result, with the same meaning; or it stops at a freed node. -/
theorem dnf_settles (like : LikeStrcmp key comp_func) (exact : ExactResults comp_func e) (faithful : Faithful key set e) :
    ∃ cs, List.Forall₂ (SortedFor key (· ∈ literals e)) cs (disjuncts (logic_expr_not_prop e)) ∧
      (QuietDisjuncts key e → ∃ r, Settles (fun fuel => logic_expr_dnf comp_func fuel e) (.ok r) ∧ (Holds set r ↔ ∃ q ∈ cs, Holds set q) ∧
        (spine r).Sublist cs) ∧
      (PlainOperands e → ¬ QuietDisjuncts key e → Settles (fun fuel => logic_expr_dnf comp_func fuel e) (.error .freed)) := by
  have agree := like.agree exact
  have literal : ∀ x, x ∈ literals e → Literal x := fun x member => literals_literal member
  have inside : ∀ d ∈ disjuncts (logic_expr_not_prop e), ∀ x ∈ d, x ∈ literals e := fun d among x member =>
    List.mem_flatten.mpr ⟨d,among,member⟩
  obtain ⟨t,generated,chains⟩ := dnf_gen_settles e
  by_cases disjunction : isOr t = true
  · obtain ⟨t',sorting,sorted⟩ := sortAll_settles agree literal chains inside
    obtain ⟨c,cs,split,same⟩ := spine_ofSpine t'
    rw [split] at sorted
    have quiet := sortedFor_quiet sorted inside faithful (disjuncts (logic_expr_not_prop e)).length
    have removal := remLoop_settles agree literal (fun x y left right same => (faithful x left y right same).1)
      (disjuncts (logic_expr_not_prop e)).length (by rw [← sorted.length_eq]; simp) (sortedFor_chains sorted)
    rw [← same,quiet] at removal
    have composed : ∀ r, Settles (fun fuel => remLoop comp_func fuel t') r →
        Settles (fun fuel => logic_expr_dnf comp_func fuel e) r := fun r settled => by
      refine generated.bind ?_
      have unfolded : ∀ fuel, logic_expr_dnf_rem_dups comp_func fuel t =
          (sortAll comp_func fuel t >>= remLoop comp_func fuel) := fun fuel => by
        cases t <;> first | rfl | cases disjunction
      exact (sorting.bind settled).congr unfolded
    refine ⟨c :: cs,sorted,fun calm => ?_,fun plain loud => composed _ (removal.2 plain loud)⟩
    obtain ⟨r,settled,meaning⟩ := removal.1 calm
    exact ⟨r,composed _ settled,meaning⟩
  · have notOr : isOr t = false := by simpa using disjunction
    rw [ChainsOf,spine_single notOr] at chains
    obtain ⟨d,rest,same,tail,one⟩ := List.forall₂_cons_left_iff.mp chains
    cases tail
    obtain ⟨c,settled,sorted⟩ := sort_perm_settles agree literal same (inside d (by rw [one]; simp))
    have alone := spine_single (chain_not_or fun x member => literal x (sorted.inside x member))
    -- a single chain is sorted and no more
    refine ⟨[c],by rw [one]; exact .cons sorted .nil,fun _ => ⟨c,generated.bind ?_,by simp,by rw [alone]⟩,fun _ loud => ?_⟩
    · by_cases chain : isAnd t = true
      · exact settled.congr fun fuel => by cases t <;> first | rfl | cases chain
      · have unsorted : Settles (fun fuel => sort_and_chain comp_func fuel t) (.ok t) :=
          .of_succ (.always fun fuel => by cases t <;> first | rfl | exact absurd rfl chain)
        cases settled.unique unsorted
        exact .always fun fuel => by cases t <;> first | rfl | exact absurd rfl chain | cases notOr
    · rw [QuietDisjuncts,one] at loud
      simp [Quiet] at loud
/-- With exact results the code keeps the meaning where it goes on with disjunctions of the
    expression only. Where it reads a freed node it does not. -/
theorem dnf_exact (like : LikeStrcmp key comp_func) (exact : ExactResults comp_func e)
    (proper : Proper set e) (faithful : Faithful key set e) :
    (QuietDisjuncts key e → KeepsMeaning comp_func set e) ∧
      (PlainOperands e → KeepsMeaning comp_func set e → QuietDisjuncts key e) := by
  obtain ⟨cs,sorted,calm,freed⟩ := dnf_settles like exact faithful
  constructor
  · intro quiet
    obtain ⟨r,settled,meaning,-⟩ := calm quiet
    refine ⟨r,settled,?_⟩
    rw [meaning,sortedFor_disjuncts sorted (fun d among x member => List.mem_flatten.mpr ⟨d,among,member⟩) faithful,
      ← (not_prop_meaning proper).1,holds_disjuncts]
  · rintro plain ⟨r,settled,-⟩
    by_contra loud
    cases settled.unique (freed plain loud)

theorem chain_normal {c : LogicExpr} (literal : ∀ x ∈ elements c, Literal x) :
    NegationNormal c ∧ andOrReplace c = none ∧ (conjuncts c).Perm (elements c) := by
  induction c with
  | and l r left _ =>
    obtain ⟨normal,alone,perm⟩ := left fun x member => literal x (mem_cons_of_mem _ member)
    have own : Literal r := literal r mem_cons_self
    have single : NegationNormal r ∧ andOrReplace r = none ∧ conjuncts r = [r] := by
      cases r <;> first | exact ⟨own,rfl,rfl⟩ | exact own.elim
    refine ⟨⟨normal,single.1⟩,by rw [andOrReplace,alone,single.2.1]; rfl,?_⟩
    rw [conjuncts,single.2.2,elements]
    exact (perm.append_right [r]).trans (List.perm_append_singleton r _)
  | or l r => exact (literal (.or l r) mem_cons_self).elim
  | _ => exact ⟨literal _ mem_cons_self,rfl,.refl _⟩
theorem elements_inj {c c' : LogicExpr} (same : elements c = elements c') (atoms : ∀ x ∈ elements c, isAnd x = false) : c = c' := by
  induction c generalizing c' with
  | and l r left _ =>
    cases c' with
    | and l' r' =>
      obtain ⟨rfl,rest⟩ := cons.inj same
      rw [left rest fun x member => atoms x (mem_cons_of_mem _ member)]
    | _ => cases l <;> simp [elements] at same
  | _ =>
    cases c' with
    | and l' r' => cases l' <;> simp [elements] at same
    | _ => exact List.singleton_injective same
/-- A sorted chain is its own normal form. -/
theorem dnf_sorted (like : LikeStrcmp key comp_func) (exact : ExactResults comp_func e) (faithful : Faithful key set e) {c : LogicExpr}
    (sorted : SortedChain key (· ∈ literals e) c) : Settles (fun fuel => logic_expr_dnf comp_func fuel c) (.ok c) := by
  have literal : ∀ x ∈ elements c, Literal x := fun x member => literals_literal (sorted.1 x member)
  obtain ⟨normal,alone,perm⟩ := chain_normal literal
  have one : disjuncts (logic_expr_not_prop c) = [conjuncts c] := by rw [normal.not_prop,disjuncts_conjuncts alone]
  have among : ∀ x ∈ literals c, x ∈ literals e := by
    intro x member
    rw [literals,one,List.flatten_singleton] at member
    exact sorted.1 x (perm.subset member)
  have exact' : ExactResults comp_func c := fun x left y right => exact x (among x left) y (among y right)
  have faithful' : Faithful key set c := fun x left y right => faithful x (among x left) y (among y right)
  obtain ⟨cs,chains,calm,-⟩ := dnf_settles like exact' faithful'
  rw [one] at chains
  obtain ⟨c',rest,chain,tail,rfl⟩ := List.forall₂_cons_right_iff.mp chains
  cases tail
  obtain ⟨r,settled,-,left⟩ := calm (by rw [QuietDisjuncts,one]; simp [Quiet])
  have single : r = c' := by
    cases r with
    | or l r =>
      have long := left.length_le
      cases r <;> simp [spine] at long
    | _ => simpa [spine] using left
  have members : ∀ x, x ∈ elements c' ↔ x ∈ elements c := by
    refine fun x => ⟨fun member => perm.subset (chain.subset member),fun member => ?_⟩
    obtain ⟨y,found,same⟩ := chain.within x (perm.symm.subset member)
    have keys : ((elements c).map key).Nodup := pairwise_map.mpr (sorted.2.imp ne_of_gt)
    obtain rfl := List.inj_on_of_nodup_map keys member (perm.subset (chain.subset found)) same
    exact found
  have distinct : ∀ {l : List LogicExpr}, Descending key l → l.Nodup := fun descending => descending.imp fun less equal => by
    rw [equal] at less
    exact lt_irrefl _ less
  have equal : elements c' = elements c :=
    ((List.perm_ext_iff_of_nodup (distinct chain.descending) (distinct sorted.2)).mpr members).eq_of_pairwise
      (fun x y _ _ above below => absurd above (lt_asymm below)) chain.descending sorted.2
  rw [single,← elements_inj equal.symm fun x member => (literal x member).atom.1] at settled
  exact settled

/-- A name: neither a number nor with a degree. -/
def Name (text : CStr) : Prop := (strtol text).2 ≠ [] ∧ ':' ∉ text

theorem Name.holds {x y : CStr} (name : Name x) (other : Name y) : Holds [y] (.value x) ↔ x = y := by
  rw [Holds,logic_expr_match,if_pos (.inr name.1),is_str_in_set,strchr_none.mpr other.2]
  simp only [is_str_in_set]
  split_ifs with same
  · simp [same,toInt]
  · simp [same]
/-- A conjunction merges one of its literals where the result of the comparison is another
    number: `y & x | y` loses `y`. -/
theorem inexact_result (like : LikeStrcmp key comp_func) {x y : CStr} (name : Name x) (other : Name y)
    (other1 : comp_func (.value x) (.value y) ≠ -1) (other2 : comp_func (.value x) (.value y) ≠ 0)
    (other3 : comp_func (.value x) (.value y) ≠ 1) :
    ¬ KeepsMeaning comp_func [y] (.or (.and (.value y) (.value x)) (.value y)) := by
  rintro ⟨r,settled,same⟩
  have equal : comp_func (.value y) (.value y) = 0 := (like (.value y) (.value y) trivial trivial).2.mpr rfl
  have merged : and_chains_cmp comp_func (.and (.value y) (.value x)) (.value y) = -1 := by
    simp [and_chains_cmp,elements,chainsLoop,chainsResult,other1,other2,other3,equal]
  have result : Settles (fun fuel => logic_expr_dnf comp_func fuel (.or (.and (.value y) (.value x)) (.value y)))
      (.ok (.and (.value y) (.value x))) := by
    refine .of_succ (.of_succ (.of_succ (.always fun fuel => ?_)))
    simp [logic_expr_dnf,logic_expr_dnf_gen,logic_expr_not_prop,orCase,orLoop,andOrReplace,make_and_chain,
      logic_expr_dnf_rem_dups,sortAll,sort_and_chain,sortPass,other1,other2,remLoop,remScan,merged,nextNode,
      bind,Except.bind,pure,Except.pure,Except.map]
  cases settled.unique result
  rw [holds_or,holds_and,name.holds other,other.holds other] at same
  have different : x ≠ y := fun equal => other2 ((like (.value x) (.value y) trivial trivial).2.mpr (by rw [equal]))
  simp [different] at same

/-- For a comparison function like `strcmp`, `logic_expr_dnf` terminates with an expression of
    the same meaning where the results for the literals are -1, 0 and 1 and the disjuncts are
    quiet; it does not where they are not quiet and no comparison has a disjunction on the
    right, nor for two names in some order where the result for them is another number. -/
theorem dnf_keeps_meaning (like : LikeStrcmp key comp_func) :
    (∀ set e, Proper set e → Faithful key set e → ExactResults comp_func e →
      (QuietDisjuncts key e → KeepsMeaning comp_func set e) ∧
        (PlainOperands e → KeepsMeaning comp_func set e → QuietDisjuncts key e)) ∧
    ∀ x y, Name x → Name y → comp_func (.value x) (.value y) ≠ -1 → comp_func (.value x) (.value y) ≠ 0 →
      comp_func (.value x) (.value y) ≠ 1 → ¬ KeepsMeaning comp_func [y] (.or (.and (.value y) (.value x)) (.value y)) :=
  ⟨fun _ _ proper faithful exact => dnf_exact like exact proper faithful,
    fun _ _ name other one two three => inexact_result like name other one two three⟩

end

section
variable {strcmp : CStr → CStr → Int}

/-- The default comparison has the sign of the comparison of the texts. -/
theorem cmp_simple_like (sign : ∀ a b, (strcmp a b < 0 ↔ a < b) ∧ (strcmp a b = 0 ↔ a = b)) :
    LikeStrcmp logic_expr_to_str (logic_expr_cmp_simple strcmp) := fun x y _ _ => sign (logic_expr_to_str x) (logic_expr_to_str y)
theorem cmpInt_sign (n : Int) (positive : 0 < n) (a b : CStr) :
    (n*cmpInt a b < 0 ↔ a < b) ∧ (n*cmpInt a b = 0 ↔ a = b) := by
  rw [cmpInt]
  split_ifs with less equal
  · exact ⟨iff_of_true (by omega) less,iff_of_false (by omega) (ne_of_lt less)⟩
  · exact ⟨iff_of_false (by omega) less,iff_of_true (by omega) equal⟩
  · exact ⟨iff_of_false (by omega) less,iff_of_false (by omega) equal⟩

def nameA : LogicExpr := .value ['a']
def nameC : LogicExpr := .value ['c']
/-- `a & c | a` with a `strcmp` that returns -1, 0 and 1. -/
theorem dnf_keeps_meaning_simple :
    KeepsMeaning (logic_expr_cmp_simple fun a b => 1*cmpInt a b) [['a']] (.or (.and nameA nameC) nameA) := by
  refine ((dnf_keeps_meaning (cmp_simple_like (cmpInt_sign 1 (by decide)))).1 [['a']] (.or (.and nameA nameC) nameA)
    ?_ ?_ ?_).1 ?_
  · simp only [Proper,nameA,nameC]; decide +kernel
  · rw [Faithful]; decide +kernel
  · rw [ExactResults]; decide +kernel
  · have listed : disjuncts (logic_expr_not_prop (.or (.and nameA nameC) nameA)) = [[nameA,nameC],[nameA]] := by decide +kernel
    have apart : ¬ Within logic_expr_to_str [nameA,nameC] [nameA] := by decide +kernel
    have inside : Within logic_expr_to_str [nameA] [nameA,nameC] := Within.of_subset (by simp)
    have looked : looksInto nameA = false := rfl
    rw [QuietDisjuncts,listed,length_cons,Quiet,absorb,if_neg apart,if_pos inside]
    simp [LoneLiteral,looked]
/-- The same expression with a `strcmp` that returns the difference of the characters. -/
theorem dnf_loses_name : LikeStrcmp logic_expr_to_str (logic_expr_cmp_simple fun a b => 2*cmpInt a b) ∧
    Proper [['a']] (.or (.and nameA nameC) nameA) ∧
    ¬ KeepsMeaning (logic_expr_cmp_simple fun a b => 2*cmpInt a b) [['a']] (.or (.and nameA nameC) nameA) := by
  have like := cmp_simple_like (cmpInt_sign 2 (by decide))
  refine ⟨like,by simp only [Proper,nameA,nameC]; decide +kernel,?_⟩
  exact inexact_result like (x := ['c']) (y := ['a']) (by rw [Name]; decide +kernel) (by rw [Name]; decide +kernel)
    (by decide +kernel) (by decide +kernel) (by decide +kernel)

end

end TestEnvironment.Tools
