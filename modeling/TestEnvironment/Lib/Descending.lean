import TestEnvironment.Lib.Names

/-!
Lists in strictly descending order of a key: one within another, and bubble sort
that drops elements with equal keys.
-/
namespace TestEnvironment.Lib

/-- The sign of a comparison as a number. -/
def cmpInt {κ : Type*} [LinearOrder κ] (a b : κ) : Int := if a < b then -1 else if a = b then 0 else 1

section
variable {α κ : Type*} (key : α → κ)

/-- Every element has an equal in the other list. -/
def Within (l m : List α) : Prop := ∀ x ∈ l, ∃ y ∈ m, key x = key y

instance [DecidableEq κ] (l m : List α) : Decidable (Within key l m) :=
  inferInstanceAs (Decidable (∀ x ∈ l, ∃ y ∈ m, key x = key y))

variable {key} {l m n : List α} {a : α}

theorem Within.refl (l : List α) : Within key l l := fun x member => ⟨x,member,rfl⟩
theorem Within.trans (first : Within key l m) (second : Within key m n) : Within key l n := by
  intro x member
  obtain ⟨y,inside,same⟩ := first x member
  obtain ⟨z,last,equal⟩ := second y inside
  exact ⟨z,last,same.trans equal⟩
theorem Within.of_subset (subset : l ⊆ m) : Within key l m := fun x member => ⟨x,subset member,rfl⟩
@[simp] theorem within_nil (m : List α) : Within key [] m := by simp [Within]
@[simp] theorem not_within_nil : ¬ Within key (a :: l) [] := fun inside => by
  obtain ⟨_,found,_⟩ := inside a (by simp)
  cases found
/-- Lists with the same keys are within the same lists. -/
theorem within_congr {l' m' : List α} (left : Within key l l' ∧ Within key l' l) (right : Within key m m' ∧ Within key m' m) :
    Within key l m ↔ Within key l' m' :=
  ⟨fun inside => left.2.trans (inside.trans right.1),fun inside => left.1.trans (inside.trans right.2)⟩

end

section
variable {α κ : Type*} [LinearOrder κ] (key : α → κ)

def Descending (l : List α) : Prop := l.Pairwise fun x y => key y < key x
/-- How many pairs stand in ascending order. -/
def inversions : List α → Nat
  | [] => 0
  | a :: l => l.countP (fun b => key a < key b)+inversions l

variable {key} {l m : List α} {a b : α}

/-- No key of a descending list is above its head. -/
theorem Descending.le_head (sorted : Descending key (b :: m)) {y : α} (member : y ∈ b :: m) : key y ≤ key b := by
  rcases mem_cons.mp member with rfl | behind
  · exact le_rfl
  · exact le_of_lt ((pairwise_cons.mp sorted).1 y behind)
/-- Equal heads of descending lists decide nothing. -/
theorem within_cons_eq (sorted : Descending key (a :: l)) (equal : key a = key b) :
    Within key (a :: l) (b :: m) ↔ Within key l m := by
  constructor
  · intro inside x member
    obtain ⟨y,found,same⟩ := inside x (mem_cons_of_mem _ member)
    rcases mem_cons.mp found with rfl | behind
    · have below := (pairwise_cons.mp sorted).1 x member
      exact absurd (same.trans equal.symm) (ne_of_lt below)
    · exact ⟨y,behind,same⟩
  · intro inside x member
    rcases mem_cons.mp member with rfl | behind
    · exact ⟨b,by simp,equal⟩
    · obtain ⟨y,found,same⟩ := inside x behind
      exact ⟨y,mem_cons_of_mem _ found,same⟩
/-- A head above the whole other list is not in it. -/
theorem not_within_of_head (sorted : Descending key (b :: m)) (above : key b < key a) : ¬ Within key (a :: l) (b :: m) := by
  intro inside
  obtain ⟨y,found,same⟩ := inside a (by simp)
  exact absurd (same ▸ sorted.le_head found) (not_le_of_gt above)
/-- An element above the whole list contains nothing of it. -/
theorem within_behind_head (sorted : Descending key (b :: m)) (above : key b < key a) :
    Within key (b :: m) (a :: l) ↔ Within key (b :: m) l := by
  constructor
  · intro inside y member
    obtain ⟨x,found,same⟩ := inside y member
    rcases mem_cons.mp found with rfl | behind
    · exact absurd (same ▸ sorted.le_head member) (not_le_of_gt above)
    · exact ⟨x,behind,same⟩
  · intro inside y member
    obtain ⟨x,found,same⟩ := inside y member
    exact ⟨x,mem_cons_of_mem _ found,same⟩

end

section
variable {α κ : Type*} [LinearOrder κ] {key : α → κ} (cmp : α → α → Int)

/-- A pass with the element in front of the list: the list behind it, and the number of
    swaps. Of two equal neighbours the one behind goes, at the end of the list the one in front. -/
def bubble (a : α) : List α → List α × Nat
  | [] => ([a],0)
  | [b] => if cmp a b = -1 then ([b,a],1) else if cmp a b = 0 then ([b],0) else ([a,b],0)
  | b :: c :: l =>
    if cmp a b = -1 then (b :: (bubble a (c :: l)).1,(bubble a (c :: l)).2+1)
    else if cmp a b = 0 then bubble a (c :: l)
    else (a :: (bubble b (c :: l)).1,(bubble b (c :: l)).2)

variable {cmp} {a : α} {l : List α}

theorem bubble_subperm : (bubble cmp a l).1.Subperm (a :: l) := by
  fun_induction bubble cmp a l with
  | case1 a => exact List.Subperm.refl _
  | case2 a b less => exact (List.Perm.swap a b []).subperm
  | case3 a b _ equal => exact (List.sublist_cons_self a [b]).subperm
  | case4 a b => exact List.Subperm.refl _
  | case5 a b c l less ih => exact ((List.subperm_cons b).mpr ih).trans (List.Perm.swap a b (c :: l)).subperm
  | case6 a b c l _ equal ih => exact ih.trans ((List.sublist_cons_self b (c :: l)).cons_cons a).subperm
  | case7 a b c l _ _ ih => exact (List.subperm_cons a).mpr ih
theorem bubble_subset : (bubble cmp a l).1 ⊆ a :: l := bubble_subperm.subset

variable {P : α → Prop} (agree : ∀ x y, P x → P y → cmp x y = cmpInt (key x) (key y))
include agree

theorem cmp_less {x y : α} (left : P x) (right : P y) : cmp x y = -1 ↔ key x < key y := by
  rw [agree x y left right,cmpInt]; split_ifs <;> simp_all
theorem cmp_equal {x y : α} (left : P x) (right : P y) : cmp x y = 0 ↔ key x = key y := by
  rw [agree x y left right,cmpInt]; split_ifs with less <;> simp_all [ne_of_lt]
theorem cmp_greater {x y : α} (left : P x) (right : P y) : cmp x y = 1 ↔ key y < key x := by
  rw [agree x y left right,cmpInt]
  split_ifs with less equal
  · simp [le_of_lt less]
  · simp [equal]
  · simpa using lt_of_le_of_ne (not_lt.mp less) (Ne.symm equal)

/-- No key is lost. -/
theorem bubble_within (inside : ∀ x ∈ a :: l, P x) : Within key (a :: l) (bubble cmp a l).1 := by
  fun_induction bubble cmp a l with
  | case1 a => exact Within.refl _
  | case2 a b less => exact Within.of_subset (by simp)
  | case3 a b _ equal =>
    have same := (cmp_equal agree (inside a (by simp)) (inside b (by simp))).mp equal
    simp [Within,same]
  | case4 a b => exact Within.refl _
  | case5 a b c l less ih =>
    have rest := ih fun x member => inside x (by simp only [mem_cons] at member ⊢; tauto)
    intro x member
    by_cases front : x = b
    · exact ⟨b,by simp,by rw [front]⟩
    · obtain ⟨y,found,same⟩ := rest x (by simp only [mem_cons] at member ⊢; tauto)
      exact ⟨y,mem_cons_of_mem _ found,same⟩
  | case6 a b c l _ equal ih =>
    have same := (cmp_equal agree (inside a (by simp)) (inside b (by simp))).mp equal
    have rest := ih fun x member => inside x (by simp only [mem_cons] at member ⊢; tauto)
    intro x member
    by_cases front : x = b
    · obtain ⟨y,found,equal⟩ := rest a (by simp)
      exact ⟨y,found,by rw [front,← same,equal]⟩
    · exact rest x (by simp only [mem_cons] at member ⊢; tauto)
  | case7 a b c l _ _ ih =>
    have rest := ih fun x member => inside x (mem_cons_of_mem _ member)
    intro x member
    rcases mem_cons.mp member with rfl | behind
    · exact ⟨x,by simp,rfl⟩
    · obtain ⟨y,found,same⟩ := rest x behind
      exact ⟨y,mem_cons_of_mem _ found,same⟩
/-- Every swap takes an inversion away. -/
theorem bubble_inversions (inside : ∀ x ∈ a :: l, P x) :
    inversions key (bubble cmp a l).1+(bubble cmp a l).2 ≤ inversions key (a :: l) := by
  fun_induction bubble cmp a l with
  | case1 a => simp
  | case2 a b less =>
    have below := (cmp_less agree (inside a (by simp)) (inside b (by simp))).mp less
    simp [inversions,below,not_lt_of_gt below]
  | case3 a b _ equal => simp [inversions]
  | case4 a b => simp
  | case5 a b c l less ih =>
    have below := (cmp_less agree (inside a (by simp)) (inside b (by simp))).mp less
    have rest := ih fun x member => inside x (by simp only [mem_cons] at member ⊢; tauto)
    have fewer : (bubble cmp a (c :: l)).1.countP (fun x => key b < key x) ≤ (a :: c :: l).countP (fun x => key b < key x) :=
      bubble_subperm.countP_le _
    simp only [inversions,List.countP_cons,decide_eq_true_eq,not_lt_of_gt below,below,if_true,if_false] at *
    omega
  | case6 a b c l _ equal ih => grind [inversions]
  | case7 a b c l _ _ ih =>
    have rest := ih fun x member => inside x (mem_cons_of_mem _ member)
    have fewer : (bubble cmp b (c :: l)).1.countP (fun x => key a < key x) ≤ (b :: c :: l).countP (fun x => key a < key x) :=
      bubble_subperm.countP_le _
    simp only [inversions] at *
    omega
/-- A pass without swaps leaves a descending list, with the key in front that was there. -/
theorem bubble_descending (inside : ∀ x ∈ a :: l, P x) (still : (bubble cmp a l).2 = 0) :
    Descending key (bubble cmp a l).1 ∧ ∀ x ∈ (bubble cmp a l).1, key x ≤ key a := by
  fun_induction bubble cmp a l with
  | case1 a => simp [Descending]
  | case2 a b less => simp at still
  | case3 a b _ equal =>
    have same := (cmp_equal agree (inside a (by simp)) (inside b (by simp))).mp equal
    simp [Descending,same]
  | case4 a b notLess notEqual =>
    rw [cmp_less agree (inside a (by simp)) (inside b (by simp))] at notLess
    rw [cmp_equal agree (inside a (by simp)) (inside b (by simp))] at notEqual
    have below := lt_of_le_of_ne (not_lt.mp notLess) (Ne.symm notEqual)
    simp [Descending,below,le_of_lt below]
  | case5 a b c l less ih => simp at still
  | case6 a b c l _ equal ih =>
    exact ih (fun x member => inside x (by simp only [mem_cons] at member ⊢; tauto)) still
  | case7 a b c l notLess notEqual ih =>
    rw [cmp_less agree (inside a (by simp)) (inside b (by simp))] at notLess
    rw [cmp_equal agree (inside a (by simp)) (inside b (by simp))] at notEqual
    have below := lt_of_le_of_ne (not_lt.mp notLess) (Ne.symm notEqual)
    obtain ⟨sorted,bounded⟩ := ih (fun x member => inside x (mem_cons_of_mem _ member)) still
    refine ⟨pairwise_cons.mpr ⟨fun x member => lt_of_le_of_lt (bounded x member) below,sorted⟩,?_⟩
    intro x member
    rcases mem_cons.mp member with rfl | behind
    · exact le_rfl
    · exact le_of_lt (lt_of_le_of_lt (bounded x behind) below)

end

end TestEnvironment.Lib
