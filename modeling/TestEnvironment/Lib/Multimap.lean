import TestEnvironment.Lib.Sorted

/-!
Multimaps as lists sorted by a key: the elements with one key, what a change of them leaves
of the others, and the merge of two multimaps.
-/
namespace TestEnvironment.Lib
universe u v
variable {α : Type u} {κ : Type v} [LinearOrder κ] {key : α → κ} {l r : List α} {k : κ} {a b : α}

/-- The elements with the key, in their order. -/
def withKey (key : α → κ) (k : κ) (l : List α) : List α := l.filter fun a => key a = k

@[simp] theorem withKey_nil : withKey key k [] = [] := rfl
@[simp] theorem withKey_append (l r : List α) : withKey key k (l ++ r) = withKey key k l ++ withKey key k r := filter_append l r
theorem withKey_cons_same (same : key a = k) : withKey key k (a :: l) = a :: withKey key k l := filter_cons_of_pos (by simpa using same)
theorem withKey_cons_other (other : key a ≠ k) : withKey key k (a :: l) = withKey key k l := filter_cons_of_neg (by simpa using other)
theorem withKey_none (absent : ∀ a ∈ l, key a ≠ k) : withKey key k l = [] :=
  filter_eq_nil_iff.mpr fun a member => by simpa using absent a member
theorem withKey_all (only : ∀ a ∈ l, key a = k) : withKey key k l = l :=
  List.filter_eq_self.mpr fun a member => by simpa using only a member
theorem mem_withKey : a ∈ withKey key k l ↔ a ∈ l ∧ key a = k := by simp [withKey]

namespace SortedBy
theorem tail (sorted : SortedBy key (a :: l)) : SortedBy key l := (pairwise_cons.mp sorted).2
theorem head_le (sorted : SortedBy key (a :: l)) : ∀ b ∈ l, key a ≤ key b := (pairwise_cons.mp sorted).1
theorem least (sorted : SortedBy key (a :: l)) (member : b ∈ a :: l) : key a ≤ key b :=
  (mem_cons.mp member).elim (fun equal => equal ▸ le_refl _) (sorted.head_le b)
theorem append (first : SortedBy key l) (second : SortedBy key r) (across : ∀ a ∈ l, ∀ b ∈ r, key a ≤ key b) : SortedBy key (l ++ r) :=
  pairwise_append.mpr ⟨first,second,across⟩
theorem of_append (sorted : SortedBy key (l ++ r)) : SortedBy key l ∧ SortedBy key r ∧ ∀ a ∈ l, ∀ b ∈ r, key a ≤ key b :=
  pairwise_append.mp sorted
theorem of_same (only : ∀ a ∈ l, key a = k) : SortedBy key l := by
  induction l with
  | nil => exact List.Pairwise.nil
  | cons a l ih =>
    obtain ⟨first,rest⟩ := forall_mem_cons.mp only
    exact pairwise_cons.mpr ⟨fun b member => (first.trans (rest b member).symm).le,ih rest⟩
/-- Multimaps with the same elements for every key are equal. -/
theorem ext (first : SortedBy key l) (second : SortedBy key r) (same : ∀ k, withKey key k l = withKey key k r) : l = r := by
  induction l generalizing r with
  | nil =>
    cases r with
    | nil => rfl
    | cons b r =>
      have none' := same (key b)
      rw [withKey_nil,withKey_cons_same rfl] at none'
      cases none'
  | cons a l ih =>
    have own := same (key a)
    rw [withKey_cons_same rfl] at own
    cases r with
    | nil => cases own
    | cons b r =>
      have member : a ∈ b :: r := (mem_withKey.mp (own ▸ mem_cons_self)).1
      have least : key b ≤ key a := second.least member
      have back : b ∈ a :: l := by
        have there := same (key b)
        rw [withKey_cons_same rfl (l := r)] at there
        exact (mem_withKey.mp (there ▸ mem_cons_self)).1
      have most : key a ≤ key b := first.least back
      rw [withKey_cons_same (le_antisymm least most)] at own
      obtain ⟨rfl,rest⟩ := cons.inj own
      refine congrArg (a :: ·) (ih first.tail second.tail fun k => ?_)
      by_cases here : key a = k
      · exact here ▸ rest
      · have others := same k
        rwa [withKey_cons_other here,withKey_cons_other here] at others
/-- Smaller keys first, then the key, then greater ones. -/
theorem split (sorted : SortedBy key l) (k : κ) :
    l = l.filter (fun a => key a < k) ++ withKey key k l ++ l.filter (fun a => k < key a) := by
  induction l with
  | nil => rfl
  | cons a l ih =>
    have rest := ih sorted.tail
    rcases lt_trichotomy (key a) k with less | same | more
    · rw [filter_cons_of_pos (by simpa using less),withKey_cons_other less.ne,filter_cons_of_neg (by simpa using less.le)]
      exact congrArg (a :: ·) rest
    · have none' : l.filter (fun a => key a < k) = [] :=
        filter_eq_nil_iff.mpr fun b member => by simpa [← same] using sorted.head_le b member
      rw [filter_cons_of_neg (by simp [same]),withKey_cons_same same,filter_cons_of_neg (by simp [same]),none']
      rw [none'] at rest
      exact congrArg (a :: ·) rest
    · have greater : ∀ b ∈ a :: l, k < key b := forall_mem_cons.mpr ⟨more,fun b member => more.trans_le (sorted.head_le b member)⟩
      have none' : (a :: l).filter (fun a => key a < k) = [] := filter_eq_nil_iff.mpr fun b member => by simpa using (greater b member).le
      rw [none',withKey_none fun b member => (greater b member).ne',List.filter_eq_self.mpr fun b member => by simpa using greater b member]
      rfl
end SortedBy

section
variable {before run behind : List α}

/-- The elements with one key stand between the smaller and the greater ones. -/
structure Parted (key : α → κ) (k : κ) (before run behind : List α) : Prop where
  less : ∀ a ∈ before, key a < k
  same : ∀ a ∈ run, key a = k
  more : ∀ a ∈ behind, k < key a

namespace Parted
theorem of_list (key : α → κ) (k : κ) (l : List α) :
    Parted key k (l.filter fun a => key a < k) (withKey key k l) (l.filter fun a => k < key a) :=
  ⟨fun a member => by simpa using (mem_filter.mp member).2,fun a member => (mem_withKey.mp member).2,
    fun a member => by simpa using (mem_filter.mp member).2⟩

variable (parted : Parted key k before run behind)
include parted
theorem withKey_self : withKey key k (before ++ run ++ behind) = run := by
  rw [withKey_append,withKey_append,withKey_none fun a member => (parted.less a member).ne,withKey_all parted.same,
    withKey_none fun a member => (parted.more a member).ne']
  simp
theorem withKey_other {j : κ} (other : j ≠ k) :
    withKey key j (before ++ run ++ behind) = withKey key j before ++ withKey key j behind := by
  rw [withKey_append,withKey_append,withKey_none (l := run) fun a member => (parted.same a member).trans_ne other.symm,append_nil]
theorem sorted (first : SortedBy key before) (last : SortedBy key behind) : SortedBy key (before ++ run ++ behind) := by
  refine (first.append (.of_same parted.same) fun a member b other => ?_).append last fun a member b other => ?_
  · exact ((parted.less a member).trans_eq (parted.same b other).symm).le
  · rcases mem_append.mp member with front | middle
    · exact ((parted.less a front).trans (parted.more b other)).le
    · exact ((parted.same a middle).trans_lt (parted.more b other)).le
end Parted
end

section
variable {combine : List α → List α → List α}

/-- The merge of two multimaps, where `combine` joins the elements that both have for a key. -/
def mergeRuns (key : α → κ) (combine : List α → List α → List α) : List α → List α → List α
  | [], r => r
  | a :: l, [] => a :: l
  | a :: l, b :: r =>
    if key a < key b then a :: mergeRuns key combine l (b :: r)
    else if key b < key a then b :: mergeRuns key combine (a :: l) r
    else
      combine (a :: l.takeWhile fun c => key c = key a) (b :: r.takeWhile fun c => key c = key b) ++
        mergeRuns key combine (l.dropWhile fun c => key c = key a) (r.dropWhile fun c => key c = key b)
termination_by l r => l.length+r.length
decreasing_by
  · simp
  · simp
  · have first := (dropWhile_suffix fun c => decide (key c = key a) : _ <:+ l).length_le
    have second := (dropWhile_suffix fun c => decide (key c = key b) : _ <:+ r).length_le
    simp only [length_cons]
    omega

/-- The elements with the key of the first one are the first ones. -/
theorem SortedBy.runs (sorted : SortedBy key (a :: l)) :
    Parted key (key a) [] (a :: l.takeWhile fun c => key c = key a) (l.dropWhile fun c => key c = key a) := by
  refine ⟨by simp,forall_mem_cons.mpr ⟨rfl,fun b member => by simpa using List.mem_takeWhile_imp member⟩,fun b member => ?_⟩
  cases rest : l.dropWhile fun c => key c = key a with
  | nil =>
    rw [rest] at member
    cases member
  | cons c behind =>
    have other : ¬ key c = key a := by
      have head := List.head_dropWhile_not (fun c => decide (key c = key a)) (l := l) (by rw [rest]; exact cons_ne_nil _ _)
      simpa [rest] using head
    have least : key a ≤ key c := sorted.head_le c ((dropWhile_suffix _).subset (rest ▸ mem_cons_self))
    have later : SortedBy key (c :: behind) := rest ▸ sorted.tail.sublist (dropWhile_sublist _)
    rw [rest] at member
    have above : key c ≤ key b := later.least member
    exact (lt_of_le_of_ne least (Ne.symm other)).trans_le above
section
variable (members : ∀ {l r a}, a ∈ combine l r → a ∈ l ∨ a ∈ r)
include members

theorem mem_mergeRuns (merged : a ∈ mergeRuns key combine l r) : a ∈ l ∨ a ∈ r := by
  fun_induction mergeRuns key combine l r with
  | case1 r => exact .inr merged
  | case2 b l => exact .inl merged
  | case3 b l c r less ih => grind
  | case4 b l c r _ less ih => grind
  | case5 b l c r _ _ ih =>
    rcases mem_append.mp merged with now | later
    · refine (members now).imp (fun first => ?_) fun second => ?_
      · exact mem_cons.mpr ((mem_cons.mp first).imp_right (( List.takeWhile_prefix _).subset ·))
      · exact mem_cons.mpr ((mem_cons.mp second).imp_right (( List.takeWhile_prefix _).subset ·))
    · exact (ih later).imp (fun first => mem_cons_of_mem _ ((dropWhile_suffix _).subset first))
        fun second => mem_cons_of_mem _ ((dropWhile_suffix _).subset second)
theorem mergeRuns_sorted (first : SortedBy key l) (second : SortedBy key r) : SortedBy key (mergeRuns key combine l r) := by
  fun_induction mergeRuns key combine l r with
  | case1 r => exact second
  | case2 b l => exact first
  | case3 b l c r less ih =>
    refine pairwise_cons.mpr ⟨fun d later => ?_,ih first.tail second⟩
    rcases mem_mergeRuns members later with own | other
    · exact first.head_le d own
    · exact less.le.trans (second.least other)
  | case4 b l c r _ less ih =>
    refine pairwise_cons.mpr ⟨fun d later => ?_,ih first second.tail⟩
    rcases mem_mergeRuns members later with own | other
    · exact less.le.trans (first.least own)
    · exact second.head_le d other
  | case5 b l c r notLess notMore ih =>
    have equal : key c = key b := le_antisymm (le_of_not_gt notLess) (le_of_not_gt notMore)
    have same : ∀ d ∈ combine (b :: l.takeWhile fun d => key d = key b) (c :: r.takeWhile fun d => key d = key c), key d = key b := fun d now =>
      (members now).elim (first.runs.same d) fun own => (second.runs.same d own).trans equal
    refine (SortedBy.of_same same).append (ih ?_ ?_) fun d now e later => ?_
    · exact first.tail.sublist (dropWhile_sublist _)
    · exact second.tail.sublist (dropWhile_sublist _)
    · rw [same d now]
      rcases mem_mergeRuns members later with own | other
      · exact (first.runs.more e own).le
      · exact (equal ▸ second.runs.more e other).le
theorem withKey_mergeRuns (noneRight : ∀ l, combine l [] = l) (noneLeft : ∀ r, combine [] r = r) (first : SortedBy key l)
    (second : SortedBy key r) (k : κ) : withKey key k (mergeRuns key combine l r) = combine (withKey key k l) (withKey key k r) := by
  fun_induction mergeRuns key combine l r with
  | case1 r => rw [withKey_nil,noneLeft]
  | case2 b l => rw [withKey_nil,noneRight]
  | case3 b l c r less ih =>
    have rest := ih first.tail second
    by_cases here : key b = k
    · have none' : withKey key k (c :: r) = [] := withKey_none fun d member => (here ▸ less.trans_le (second.least member)).ne'
      rw [none',noneRight] at rest ⊢
      rw [withKey_cons_same here,withKey_cons_same here,rest]
    · rw [withKey_cons_other here,withKey_cons_other here,rest]
  | case4 b l c r _ less ih =>
    have rest := ih first second.tail
    by_cases here : key c = k
    · have none' : withKey key k (b :: l) = [] := withKey_none fun d member => (here ▸ less.trans_le (first.least member)).ne'
      rw [none',noneLeft] at rest ⊢
      rw [withKey_cons_same here,withKey_cons_same here,rest]
    · rw [withKey_cons_other here,withKey_cons_other here,rest]
  | case5 b l c r notLess notMore ih =>
    have equal : key c = key b := le_antisymm (le_of_not_gt notLess) (le_of_not_gt notMore)
    have rest := ih (first.tail.sublist (dropWhile_sublist _)) (second.tail.sublist (dropWhile_sublist _))
    have left : b :: l = [] ++ (b :: l.takeWhile fun d => key d = key b) ++ l.dropWhile fun d => key d = key b := by
      simp [takeWhile_append_dropWhile]
    have right : c :: r = [] ++ (c :: r.takeWhile fun d => key d = key c) ++ r.dropWhile fun d => key d = key c := by
      simp [takeWhile_append_dropWhile]
    have same : ∀ d ∈ combine (b :: l.takeWhile fun d => key d = key b) (c :: r.takeWhile fun d => key d = key c), key d = key b := fun d now =>
      (members now).elim (first.runs.same d) fun own => (second.runs.same d own).trans equal
    rw [withKey_append,rest,left,right]
    by_cases here : k = key b
    · subst here
      have runs := second.runs
      rw [equal] at runs same ⊢
      rw [first.runs.withKey_self,runs.withKey_self,withKey_all same,withKey_none fun d later => (first.runs.more d later).ne',
        withKey_none fun d later => (runs.more d later).ne',noneLeft,append_nil]
    · rw [first.runs.withKey_other here,second.runs.withKey_other (by rwa [equal]),withKey_none fun d now => (same d now).trans_ne (Ne.symm here)]
      rfl
end

end

end TestEnvironment.Lib
