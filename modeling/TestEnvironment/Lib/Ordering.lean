import TestEnvironment.Lib.Heap

/-!
Lists with links in both directions, sorted by a number that each element has,
and ranks: a finite relation without cycles has numbers that increase along it.
-/
namespace TestEnvironment.Lib

namespace Chain
variable {next next' : Nat → Option (Option Nat)} {p : Option Nat} {pre post : List Nat} {x : Nat}

/-- A new cell behind the cells `pre`, at the head if there are none. -/
theorem insertAt (chain : Chain next p (pre ++ post)) (absent : x ∉ pre ++ post) (own : next' x = some post.head?)
    (last : ∀ q, pre.getLast? = some q → next' q = some (some x))
    (same : ∀ a, a ≠ x → pre.getLast? ≠ some a → next' a = next a) :
    Chain next' (pre ++ x :: post).head? (pre ++ x :: post) := by
  rcases eq_nil_or_concat pre with rfl | ⟨front,q,rfl⟩
  · have rest : Chain next post.head? post := by grind [head]
    refine .cons own (rest.congr fun a member => same a ?_ (by simp))
    rintro rfl
    exact absent (by simp [member])
  · have isLast : (front.concat q).getLast? = some q := by simp
    simp only [concat_eq_append,append_assoc,singleton_append] at chain absent ⊢
    have inserted := chain.insert absent (last q isLast) own fun a notQ notX => same a notX (by
      rw [isLast]; exact fun equal => notQ (some.inj equal).symm)
    rw [← inserted.head]
    exact inserted
/-- The cell behind the cells `pre` left out. -/
theorem eraseAt (chain : Chain next p (pre ++ x :: post)) (last : ∀ q, pre.getLast? = some q → next' q = some post.head?)
    (same : ∀ a, a ≠ x → pre.getLast? ≠ some a → next' a = next a) :
    Chain next' (pre ++ post).head? (pre ++ post) := by
  rcases eq_nil_or_concat pre with rfl | ⟨front,q,rfl⟩
  · have distinct := chain.nodup
    obtain ⟨_,rest⟩ := chain.after [] rfl
    refine rest.congr fun a member => same a ?_ (by simp)
    rintro rfl
    exact (nodup_cons.mp distinct).1 member
  · have isLast : (front.concat q).getLast? = some q := by simp
    simp only [concat_eq_append,append_assoc,singleton_append] at chain ⊢
    have erased := chain.erase (last q isLast) fun a notQ notX => same a notX (by
      rw [isLast]; exact fun equal => notQ (some.inj equal).symm)
    rw [← erased.head]
    exact erased
end Chain

/-- The links forward and back make the list. -/
structure Linked (next prev : Nat → Option (Option Nat)) (l : List Nat) : Prop where
  forward : Chain next l.head? l
  back : Chain prev l.getLast? l.reverse

namespace Linked
variable {next prev next' prev' : Nat → Option (Option Nat)} {l pre post : List Nat} {a x : Nat}

theorem nodup (linked : Linked next prev l) : l.Nodup := linked.forward.nodup
theorem links (linked : Linked next prev l) (pre : List Nat) {post : List Nat} (split : l = pre ++ a :: post) :
    next a = some post.head? ∧ prev a = some pre.getLast? := by
  refine ⟨(linked.forward.after pre split).1,?_⟩
  have reversed : l.reverse = post.reverse ++ a :: pre.reverse := by simp [split]
  simpa using (linked.back.after post.reverse reversed).1
theorem insertAt (linked : Linked next prev (pre ++ post)) (absent : x ∉ pre ++ post)
    (ownNext : next' x = some post.head?) (ownPrev : prev' x = some pre.getLast?)
    (before : ∀ q, pre.getLast? = some q → next' q = some (some x))
    (behind : ∀ q, post.head? = some q → prev' q = some (some x))
    (sameNext : ∀ a, a ≠ x → pre.getLast? ≠ some a → next' a = next a)
    (samePrev : ∀ a, a ≠ x → post.head? ≠ some a → prev' a = prev a) : Linked next' prev' (pre ++ x :: post) := by
  refine ⟨linked.forward.insertAt absent ownNext before sameNext,?_⟩
  have back : Chain prev (pre ++ post).getLast? (post.reverse ++ pre.reverse) := by simpa using linked.back
  have absent' : x ∉ post.reverse ++ pre.reverse := by simpa [and_comm] using absent
  have inserted := back.insertAt absent' (by simpa using ownPrev) (by simpa using behind) (by simpa using samePrev)
  have whole : post.reverse ++ x :: pre.reverse = (pre ++ x :: post).reverse := by simp
  rw [whole,List.head?_reverse] at inserted
  exact inserted
theorem eraseAt (linked : Linked next prev (pre ++ x :: post))
    (before : ∀ q, pre.getLast? = some q → next' q = some post.head?)
    (behind : ∀ q, post.head? = some q → prev' q = some pre.getLast?)
    (sameNext : ∀ a, a ≠ x → pre.getLast? ≠ some a → next' a = next a)
    (samePrev : ∀ a, a ≠ x → post.head? ≠ some a → prev' a = prev a) : Linked next' prev' (pre ++ post) := by
  refine ⟨linked.forward.eraseAt before sameNext,?_⟩
  have back : Chain prev (pre ++ x :: post).getLast? (post.reverse ++ x :: pre.reverse) := by simpa using linked.back
  have erased := back.eraseAt (by simpa using behind) (by simpa using samePrev)
  have whole : post.reverse ++ pre.reverse = (pre ++ post).reverse := by simp
  rw [whole,List.head?_reverse] at erased
  exact erased
end Linked

section
variable {ord : Nat → Nat} {l : List Nat} {x : Nat}

/-- Behind all elements that do not have a greater number is the place of `x` in a sorted list. -/
theorem pairwise_place (sorted : l.Pairwise fun a b => ord a ≤ ord b) :
    (l.takeWhile (fun b => decide (ord b ≤ ord x)) ++ x :: l.dropWhile fun b => decide (ord b ≤ ord x)).Pairwise
      fun a b => ord a ≤ ord b := by
  induction l with
  | nil => simp
  | cons b l ih =>
    obtain ⟨first,rest⟩ := pairwise_cons.mp sorted
    by_cases small : ord b ≤ ord x
    · rw [List.takeWhile_cons_of_pos (by simpa using small),dropWhile_cons_of_pos (by simpa using small),
        cons_append]
      refine pairwise_cons.mpr ⟨fun c member => ?_,ih rest⟩
      rcases mem_append.mp member with inside | inside
      · exact first c (List.takeWhile_subset _ inside)
      · rcases mem_cons.mp inside with rfl | later
        · exact small
        · exact first c (List.dropWhile_subset _ later)
    · rw [List.takeWhile_cons_of_neg (by simpa using small),dropWhile_cons_of_neg (by simpa using small)]
      refine pairwise_cons.mpr ⟨fun c member => ?_,sorted⟩
      rcases mem_cons.mp member with rfl | later
      · omega
      · have := first c later
        omega
end

section
variable {E : Nat → Nat → Prop} {s : Finset Nat}

/-- Counting all predecessors gives a rank below the number of elements. -/
theorem exists_rank (inside : ∀ {a b}, E a b → a ∈ s) (acyclic : ∀ a, ¬ Relation.TransGen E a a) :
    ∃ r : Nat → Nat, (∀ {a b}, E a b → r a < r b) ∧ ∀ a ∈ s, r a < s.card := by
  classical
  refine ⟨fun a => (s.filter fun b => Relation.TransGen E b a).card,fun {a b} edge => ?_,fun a member => ?_⟩
  · refine Finset.card_lt_card (Finset.ssubset_iff_of_subset ?_ |>.mpr ⟨a,?_,?_⟩)
    · grind
    · exact Finset.mem_filter.mpr ⟨inside edge,.single edge⟩
    · exact fun own => acyclic a (Finset.mem_filter.mp own).2
  · refine Finset.card_lt_card (Finset.ssubset_iff_of_subset (Finset.filter_subset ..) |>.mpr ⟨a,member,?_⟩)
    exact fun own => acyclic a (Finset.mem_filter.mp own).2
end

section
universe u
variable {α : Type u}

/-- The addresses of the cells in use. -/
def Heap.addresses (h : Heap α) : Finset Nat := (Finset.range h.size).filter fun a => (h.get a).isSome
theorem Heap.mem_addresses {h : Heap α} {a : Nat} : a ∈ h.addresses ↔ ∃ x, h.get a = some x := by
  grind [isSome_iff_exists,Heap.lt_size,addresses]
theorem Heap.card_addresses (h : Heap α) : h.addresses.card = h.live := by
  unfold addresses live size get
  rw [← Nat.count_eq_card_filter_range]
  generalize h.cells = cells
  induction cells with
  | nil => rfl
  | cons cell rest ih =>
    rw [length_cons,Nat.count_succ',List.countP_cons]
    simp only [List.getElem?_cons_succ,List.getElem?_cons_zero,Option.join_some]
    rw [ih]
/-- As many cells are in use as in a heap with the same addresses. -/
theorem Heap.live_congr {β : Type u} {h : Heap α} {h' : Heap β} (same : ∀ a, (∃ x, h'.get a = some x) ↔ ∃ x, h.get a = some x) :
    h'.live = h.live := by
  rw [← card_addresses,← card_addresses]
  exact congrArg Finset.card (Finset.ext fun a => by rw [mem_addresses,mem_addresses,same])
end
end TestEnvironment.Lib
