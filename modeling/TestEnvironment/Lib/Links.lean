import TestEnvironment.Lib.Names

/-!
Circular doubly linked lists as two maps of places, the links forward and backward:
what a change of links does to the ring through a head.
-/
namespace TestEnvironment.Lib
open Function
variable {P : Type} {next prev next' prev' : P → P}

/-- Two places linked in both directions. -/
def BothWays (next prev : P → P) (a b : P) : Prop := next a = b ∧ prev b = a
/-- The links lead from the head through a list back to the head, and the other way round. -/
def Ring (next prev : P → P) (head : P) (xs : List P) : Prop := (head :: xs ++ [head]).IsChain (BothWays next prev)

section
variable {xs : List P} {a b : P}

/-- A chain reads the forward links of all places but the last, and the backward ones of all but the first. -/
theorem chain_congr (forward : ∀ a ∈ xs.dropLast, next' a = next a) (backward : ∀ b ∈ xs.tail, prev' b = prev b)
    (chain : xs.IsChain (BothWays next prev)) : xs.IsChain (BothWays next' prev') := by
  induction xs with
  | nil => exact .nil
  | cons a xs ih =>
    cases xs with
    | nil => exact .singleton _
    | cons b xs =>
      rw [List.isChain_cons_cons] at chain ⊢
      rw [List.dropLast_cons_of_ne_nil (by simp)] at forward
      refine ⟨⟨(forward a mem_cons_self).trans chain.1.1,(backward b mem_cons_self).trans chain.1.2⟩,ih ?_ ?_ chain.2⟩
      · exact fun c member => forward c (mem_cons_of_mem _ member)
      · exact fun c member => backward c (mem_cons_of_mem _ member)

end

section
variable {as bs pre post : List P} {head x z e : P}

/-- The ring through a head split between two places: the one before and the one behind the seam. -/
structure Seam (head : P) (as bs pre : List P) (x z : P) (post : List P) : Prop where
  front : head :: as = pre ++ [x]
  behind : bs ++ [head] = z :: post
  distinct : (head :: (as ++ bs)).Nodup

theorem exists_seam (head : P) {as bs : List P} (distinct : (head :: (as ++ bs)).Nodup) : ∃ pre x z post, Seam head as bs pre x z post := by
  obtain ⟨pre,x,front⟩ := eq_nil_or_concat (head :: as) |>.resolve_left (cons_ne_nil _ _)
  obtain ⟨z,post,behind⟩ := exists_cons_of_ne_nil (l := bs ++ [head]) (by simp)
  exact ⟨pre,x,z,post,by rw [front,concat_eq_append],behind,distinct⟩

variable (seam : Seam head as bs pre x z post)
include seam

theorem Seam.whole : head :: (as ++ bs) ++ [head] = (pre ++ [x]) ++ (z :: post) := by
  rw [← seam.front,← seam.behind]
  simp
theorem Seam.around (e : P) : head :: (as ++ e :: bs) ++ [head] = pre ++ x :: e :: (z :: post) :=
  calc head :: (as ++ e :: bs) ++ [head] = (head :: as) ++ e :: (bs ++ [head]) := by simp
    _ = (pre ++ [x]) ++ e :: (z :: post) := by rw [seam.front,seam.behind]
    _ = pre ++ x :: e :: (z :: post) := (List.append_cons ..).symm
theorem Seam.linked (ring : Ring next prev head (as ++ bs)) : BothWays next prev x z := by
  rw [Ring,seam.whole,append_assoc,singleton_append,List.isChain_append_cons_cons] at ring
  exact ring.2.1
theorem Seam.x_mem : x ∈ head :: as := seam.front ▸ mem_append_right _ (mem_singleton_self x)
theorem Seam.z_mem : z ∈ head :: bs := by
  have member : z ∈ bs ++ [head] := seam.behind ▸ mem_cons_self
  simpa [or_comm] using member
theorem Seam.x_place : x ∈ head :: (as ++ bs) := by
  rw [← cons_append]
  exact mem_append_left _ seam.x_mem
theorem Seam.z_place : z ∈ head :: (as ++ bs) := (List.cons_subset_cons _ (List.subset_append_right as bs)) seam.z_mem
theorem Seam.apart : x ∉ pre ∧ x ∉ bs ∧ z ∉ as ∧ z ∉ post := by
  have distinct := seam.distinct
  rw [← cons_append,List.nodup_append'] at distinct
  obtain ⟨left,right,disjoint⟩ := distinct
  have closed : (bs ++ [head]).Nodup := by simp_all [List.nodup_append']
  rw [seam.front,List.nodup_append'] at left
  rw [seam.behind,nodup_cons] at closed
  refine ⟨fun member => left.2.2 member (mem_singleton_self x),fun member => disjoint seam.x_mem member,?_,closed.1⟩
  intro member
  rcases mem_cons.mp seam.z_mem with rfl | behind
  · exact (nodup_cons.mp seam.distinct).1 (mem_append_left _ member)
  · exact disjoint (mem_cons_of_mem _ member) behind
theorem Seam.halves (ring : Ring next prev head (as ++ bs)) :
    (pre ++ [x]).IsChain (BothWays next prev) ∧ (z :: post).IsChain (BothWays next prev) := by
  rw [Ring,seam.whole,List.isChain_append] at ring
  exact ⟨ring.1,ring.2.1⟩

section
variable (forward : ∀ a ∈ head :: (as ++ bs), a ≠ x → next' a = next a) (backward : ∀ a ∈ head :: (as ++ bs), a ≠ z → prev' a = prev a)
include forward backward
/-- Both sides of a seam stay chains under links that differ only between them. -/
theorem Seam.relink (halves : (pre ++ [x]).IsChain (BothWays next prev) ∧ (z :: post).IsChain (BothWays next prev)) :
    (pre ++ [x]).IsChain (BothWays next' prev') ∧ (z :: post).IsChain (BothWays next' prev') := by
  obtain ⟨pre_x,bs_x,as_z,post_z⟩ := seam.apart
  have front := seam.front
  have behind := seam.behind
  constructor
  · grind [chain_congr]
  · grind [chain_congr]
/-- A place linked in at the seam. -/
theorem Seam.insert (before : BothWays next' prev' x e) (behind : BothWays next' prev' e z)
    (ring : Ring next prev head (as ++ bs)) : Ring next' prev' head (as ++ e :: bs) := by
  have halves := seam.relink forward backward (seam.halves ring)
  rw [Ring,seam.around e,List.isChain_append_cons_cons]
  exact ⟨halves.1,before,List.isChain_cons_cons.mpr ⟨behind,halves.2⟩⟩
/-- A place unlinked from the seam. -/
theorem Seam.remove (linked : BothWays next' prev' x z)
    (ring : Ring next prev head (as ++ e :: bs)) : Ring next' prev' head (as ++ bs) := by
  rw [Ring,seam.around e,List.isChain_append_cons_cons,List.isChain_cons_cons] at ring
  have halves := seam.relink forward backward ⟨ring.1,ring.2.2.2⟩
  rw [Ring,seam.whole,append_assoc,singleton_append,List.isChain_append_cons_cons]
  exact ⟨halves.1,linked,halves.2⟩
end
theorem Seam.between (ring : Ring next prev head (as ++ e :: bs)) : BothWays next prev x e ∧ BothWays next prev e z := by
  rw [Ring,seam.around e,List.isChain_append_cons_cons,List.isChain_cons_cons] at ring
  exact ⟨ring.2.1,ring.2.2.1⟩
/-- The writes that link a new place in at the seam. -/
theorem Seam.insert_update [DecidableEq P] (new : e ∉ head :: (as ++ bs)) (ring : Ring next prev head (as ++ bs)) :
    Ring (update (update next e z) x e) (update (update prev e x) z e) head (as ++ e :: bs) := by
  have outside : ∀ a ∈ head :: (as ++ bs), a ≠ e := by
    rintro a member rfl
    exact new member
  have x_e := outside x seam.x_place
  have z_e := outside z seam.z_place
  refine seam.insert (fun a member other => ?_) (fun a member other => ?_) ⟨?_,?_⟩ ⟨?_,?_⟩ ring
  · rw [update_of_ne other,update_of_ne (outside a member)]
  · rw [update_of_ne other,update_of_ne (outside a member)]
  · rw [update_self]
  · rw [update_of_ne z_e.symm,update_self]
  · rw [update_of_ne x_e.symm,update_self]
  · rw [update_self]
/-- The writes that unlink a place from the seam. -/
theorem Seam.remove_update [DecidableEq P] (ring : Ring next prev head (as ++ e :: bs)) :
    Ring (update next x z) (update prev z x) head (as ++ bs) :=
  seam.remove (fun _ _ other => update_of_ne other ..) (fun _ _ other => update_of_ne other ..) ⟨update_self ..,update_self ..⟩ ring

end

section
variable {xs ys : List P} {head other x y w : P}

theorem Ring.congr (same : ∀ a ∈ head :: xs, next' a = next a ∧ prev' a = prev a) (ring : Ring next prev head xs) :
    Ring next' prev' head xs := by
  refine chain_congr (fun a member => ?_) (fun a member => ?_) ring
  · rw [List.dropLast_concat] at member
    exact (same a member).1
  · grind
theorem Ring.symm (ring : Ring next prev head xs) : Ring prev next head xs.reverse := by
  have whole : head :: xs.reverse ++ [head] = (head :: xs ++ [head]).reverse := by simp
  rw [Ring,whole,List.isChain_reverse]
  exact ring.imp fun a b linked => ⟨linked.2,linked.1⟩
theorem ring_nil : Ring next prev head [] ↔ next head = head ∧ prev head = head := List.isChain_pair
/-- The members of another ring moved to the end of a ring. -/
theorem Ring.join (ring : Ring next prev head xs) (moved : Ring next prev other ys) (distinct : (head :: (xs ++ ys)).Nodup)
    (last : (head :: xs).getLast? = some x) (first : ys.head? = some y) (end' : ys.getLast? = some w)
    (front : ∀ a ∈ head :: xs, (a ≠ x → next' a = next a) ∧ (a ≠ head → prev' a = prev a))
    (behind : ∀ a ∈ ys, (a ≠ w → next' a = next a) ∧ (a ≠ y → prev' a = prev a))
    (seam : BothWays next' prev' x y) (closed : BothWays next' prev' w head) : Ring next' prev' head (xs ++ ys) := by
  obtain ⟨mine,whole⟩ := List.getLast?_eq_some_iff.mp last
  obtain ⟨others,rfl⟩ := List.getLast?_eq_some_iff.mp end'
  rw [← cons_append,List.nodup_append'] at distinct
  obtain ⟨left,right,_⟩ := distinct
  have head_xs := (nodup_cons.mp left).1
  rw [whole,List.nodup_append'] at left
  have x_mine : x ∉ mine := fun member => left.2.2 member (mem_singleton_self x)
  have y_tail : y ∉ (others ++ [w]).tail := by
    obtain ⟨tail,ys'⟩ := List.head?_eq_some_iff.mp first
    rw [ys',nodup_cons] at right
    rw [ys']
    exact right.1
  have mine' : (head :: xs).IsChain (BothWays next' prev') := by
    refine chain_congr (fun a member => ?_) (fun b member => ?_) ring.left_of_append
    · grind
    · grind
  have others' : (others ++ [w]).IsChain (BothWays next' prev') := by
    refine chain_congr (fun a member => ?_) (fun b member => ?_) (moved.tail.left_of_append : (others ++ [w]).IsChain _)
    · grind
    · exact (behind b (List.mem_of_mem_tail member)).2 fun same => y_tail (same ▸ member)
  have shape : head :: (xs ++ (others ++ [w])) ++ [head] = (head :: xs) ++ ((others ++ [w]) ++ [head]) := by simp
  rw [Ring,shape]
  refine mine'.append (others'.append (.singleton _) ?_) ?_
  · simp [closed]
  · intro a last' b first'
    rw [last,Option.mem_some_iff] at last'
    rw [List.head?_append,first,some_or,Option.mem_some_iff] at first'
    exact last' ▸ first' ▸ seam

end

end TestEnvironment.Lib
