import TestEnvironment.Tools.NormalForm

/-!
The shape of what `logic_expr_dnf_gen` makes of an expression: a spine of disjunctions with chains of
literals, which `logic_expr_dnf_split` takes apart.
-/
namespace TestEnvironment.Tools
open Lib

def logic_expr_dup : LogicExpr → LogicExpr
  | .value value => .value value
  | .not unary => .not (logic_expr_dup unary)
  | .and lhv rhv => .and (logic_expr_dup lhv) (logic_expr_dup rhv)
  | .or lhv rhv => .or (logic_expr_dup lhv) (logic_expr_dup rhv)
  | .rel type lhv rhv => .rel type (logic_expr_dup lhv) (logic_expr_dup rhv)
/-- The loops of `logic_expr_dnf_split`: the number of conjunctions, and their copies. -/
def conjunctsLoop : LogicExpr → Nat → Nat
  | .or _ rhv,n => conjunctsLoop rhv (n+1)
  | _,n => n
def splitLoop : LogicExpr → List LogicExpr
  | .or lhv rhv => logic_expr_dup lhv :: splitLoop rhv
  | p => [logic_expr_dup p]
def logic_expr_dnf_split (dnf : LogicExpr) : List LogicExpr × Nat :=
  if isOr dnf then (splitLoop dnf,conjunctsLoop dnf 1) else ([logic_expr_dup dnf],1)

/-- The truth value over a valuation of values and comparisons. -/
def Valued (valuation : LogicExpr → Prop) : LogicExpr → Prop
  | .not unary => ¬ Valued valuation unary
  | .and lhv rhv => Valued valuation lhv ∧ Valued valuation rhv
  | .or lhv rhv => Valued valuation lhv ∨ Valued valuation rhv
  | e => valuation e
/-- A chain of conjunctions that goes on in its left operands. -/
def AndChain : LogicExpr → Prop
  | .and lhv x => AndChain lhv ∧ Literal x
  | e => Literal e
/-- A spine of disjunctions that goes on in its right operands, with chains. -/
def DnfShape : LogicExpr → Prop
  | .or lhv rhv => AndChain lhv ∧ DnfShape rhv
  | e => AndChain e

theorem dup_same (e : LogicExpr) : logic_expr_dup e = e := by
  induction e with
  | value value => rfl
  | not unary ih => rw [logic_expr_dup,ih]
  | and l r left right | or l r left right | rel type l r left right => rw [logic_expr_dup,left,right]
theorem splitLoop_spine (e : LogicExpr) : splitLoop e = spine e := by
  induction e with
  | or l r _ ih => rw [splitLoop,spine,dup_same,ih]
  | _ => simp [dup_same,splitLoop,spine]
theorem conjunctsLoop_spine (e : LogicExpr) (n : Nat) : conjunctsLoop e (n+1) = n+(spine e).length := by
  induction e generalizing n with
  | or l r _ ih => rw [conjunctsLoop,ih (n+1),spine,length_cons]; omega
  | _ => rfl
theorem dnf_split_spine (e : LogicExpr) : logic_expr_dnf_split e = (spine e,(spine e).length) := by
  rw [logic_expr_dnf_split]
  split_ifs with disjunction
  · rw [splitLoop_spine,conjunctsLoop_spine,Nat.zero_add]
  · cases e with
    | or => exact absurd rfl disjunction
    | _ => rw [dup_same]; rfl

variable {H : LogicExpr → Prop}

theorem Connectives.elements (laws : Connectives H) (c : LogicExpr) : H c ↔ ∀ x ∈ elements c, H x := by
  induction c with
  | and l r left => rw [laws.and_iff,left,Tools.elements,forall_mem_cons,and_comm]
  | _ => exact (forall_mem_singleton).symm
theorem Connectives.spine (laws : Connectives H) (e : LogicExpr) : H e ↔ ∃ c ∈ spine e, ∀ x ∈ Tools.elements c, H x := by
  have alone : ∀ e, H e ↔ ∃ c ∈ [e], ∀ x ∈ Tools.elements c, H x := fun e => by
    rw [laws.elements e]
    exact ⟨fun all => ⟨e,mem_singleton_self e,all⟩,fun ⟨_,here,all⟩ => mem_singleton.mp here ▸ all⟩
  induction e with
  | or l r _ right =>
    refine ((laws.or_iff l r).trans (or_congr (laws.elements l) right)).trans ?_
    rw [Tools.spine]
    constructor
    · simp
    · simp
  | _ => exact alone _
theorem valued_connectives (valuation : LogicExpr → Prop) : Connectives (Valued valuation) := ⟨fun _ _ => Iff.rfl,fun _ _ => Iff.rfl⟩
theorem valued_not_prop (valuation : LogicExpr → Prop) (e : LogicExpr) :
    (Valued valuation (logic_expr_not_prop e) ↔ Valued valuation e) ∧ (Valued valuation (notPropUnary e) ↔ ¬ Valued valuation e) := by
  induction e with
  | value value => exact ⟨Iff.rfl,Iff.rfl⟩
  | not unary ih => exact ⟨ih.2,ih.1.trans (by rw [Valued,not_not])⟩
  | and l r left right =>
    refine ⟨and_congr left.1 right.1,?_⟩
    rw [notPropUnary,Valued,Valued,left.2,right.2,not_and_or]
  | or l r left right =>
    refine ⟨or_congr left.1 right.1,?_⟩
    rw [notPropUnary,Valued,Valued,left.2,right.2,not_or]
  | rel type l r => exact ⟨Iff.rfl,Iff.rfl⟩
theorem andChain_elements {c : LogicExpr} (literals : ∀ x ∈ elements c, Literal x) : AndChain c := by
  induction c with
  | and l r left =>
    obtain ⟨first,rest⟩ := forall_mem_cons.mp literals
    exact ⟨left rest,first⟩
  | or l r => exact absurd (literals _ (mem_singleton_self _)) id
  | _ => exact literals _ (mem_singleton_self _)
theorem dnfShape_spine {e : LogicExpr} (literals : ∀ c ∈ spine e, ∀ x ∈ elements c, Literal x) : DnfShape e := by
  induction e with
  | or l r _ right =>
    obtain ⟨first,rest⟩ := forall_mem_cons.mp literals
    exact ⟨andChain_elements first,right rest⟩
  | _ => exact andChain_elements (literals _ (mem_singleton_self _))
theorem forall₂_left {α β : Type*} {R : α → β → Prop} {l : List α} {l' : List β} (related : List.Forall₂ R l l') {a : α} (member : a ∈ l) :
    ∃ b ∈ l', R a b := by
  induction related with
  | nil => cases member
  | cons first _ ih =>
    obtain rfl | later := mem_cons.mp member
    · exact ⟨_,mem_cons_self,first⟩
    · simp [ih,later]
/-- A meaning that agrees on the literals agrees on the disjunction. -/
theorem ChainsOf.meaning (laws : Connectives H) {r e : LogicExpr} (chains : ChainsOf r (disjuncts e)) : H r ↔ H e := by
  rw [laws.spine r,laws.disjuncts e]
  constructor
  · rintro ⟨c,member,all⟩
    obtain ⟨d,inside,same⟩ := forall₂_left chains member
    exact ⟨d,inside,fun x here => all x (same.mem_iff.mpr here)⟩
  · rintro ⟨d,member,all⟩
    obtain ⟨c,inside,same⟩ := forall₂_left chains.flip member
    exact ⟨c,inside,fun x here => all x (same.mem_iff.mp here)⟩
/-- The generation stops at an equivalent expression of the documented shape, which is split into its
conjunctions in order. -/
theorem dnf_gen_shape (e : LogicExpr) : ∃ r, Settles (fun fuel => logic_expr_dnf_gen fuel e) (.ok r) ∧ DnfShape r ∧
    (∀ valuation, Valued valuation r ↔ Valued valuation e) ∧ (∀ set, Proper set e → (Holds set r ↔ Holds set e)) ∧
    logic_expr_dnf_split r = (spine r,(spine r).length) := by
  obtain ⟨r,settled,chains⟩ := dnf_gen_settles e
  refine ⟨r,settled,dnfShape_spine fun c member x inside => ?_,fun valuation => ?_,fun set proper => ?_,dnf_split_spine r⟩
  · obtain ⟨d,there,same⟩ := forall₂_left chains member
    exact (not_prop_normal e).1.literal there (same.mem_iff.mp inside)
  · exact (chains.meaning (valued_connectives valuation)).trans (valued_not_prop valuation e).1
  · exact (chains.meaning holds_connectives).trans (not_prop_meaning proper).1
end TestEnvironment.Tools
