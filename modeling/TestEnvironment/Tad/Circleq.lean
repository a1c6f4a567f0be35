import TestEnvironment.Lib.Links

/-!
Circular queues (`CIRCLEQ` in `te_queue.h`) in memory. The end of a queue is its head,
which a link holds in place of an element; where the macros write to a field of an
element, and the link holds a head, they have no result.
-/
namespace TestEnvironment.Tad
open Lib Function

/-- What a link holds. -/
inductive Place
  | elem (e : Nat)
  | head (h : Nat)
  deriving DecidableEq, Repr
def Place.elem? : Place → Option Nat
  | .elem e => some e
  | .head _ => none
/-- The heads and the entries of all queues of one type of elements, by their addresses. -/
structure Circleq where
  cqh_first : Nat → Place
  cqh_last : Nat → Place
  cqe_next : Nat → Place
  cqe_prev : Nat → Place

section
variable (q : Circleq)

def Circleq.setFirst (head : Nat) (p : Place) : Circleq := {q with cqh_first := update q.cqh_first head p}
def Circleq.setLast (head : Nat) (p : Place) : Circleq := {q with cqh_last := update q.cqh_last head p}
def Circleq.setNext (elm : Nat) (p : Place) : Circleq := {q with cqe_next := update q.cqe_next elm p}
def Circleq.setPrev (elm : Nat) (p : Place) : Circleq := {q with cqe_prev := update q.cqe_prev elm p}
/-- A write to the entry of the element that a link holds. -/
def Circleq.setNextAt (at' p : Place) : Option Circleq := at'.elem?.map fun elm => q.setNext elm p
def Circleq.setPrevAt (at' p : Place) : Option Circleq := at'.elem?.map fun elm => q.setPrev elm p
/-- The choice of the macros between a link of the head and one of an element. -/
def Circleq.setFirstOr (end' : Bool) (head : Nat) (at' p : Place) : Option Circleq :=
  if end' then some (q.setFirst head p) else q.setNextAt at' p
def Circleq.setLastOr (end' : Bool) (head : Nat) (at' p : Place) : Option Circleq :=
  if end' then some (q.setLast head p) else q.setPrevAt at' p
end

section
variable (q : Circleq) (head : Nat)

def CIRCLEQ_END : Place := .head head
def CIRCLEQ_FIRST : Place := q.cqh_first head
def CIRCLEQ_LAST : Place := q.cqh_last head
def CIRCLEQ_EMPTY : Bool := CIRCLEQ_FIRST q head = CIRCLEQ_END head
/-- The elements that a loop over a queue visits, from a place on; the fuel bounds the number of turns. -/
def visit (link : Nat → Place) : Nat → Place → Option (List Nat)
  | 0, _ => none
  | fuel+1, p =>
    if p = CIRCLEQ_END head then some []
    else do
      let elm ← p.elem?
      let others ← visit link fuel (link elm)
      some (elm :: others)
def CIRCLEQ_FOREACH (fuel : Nat) : Option (List Nat) := visit head q.cqe_next fuel (CIRCLEQ_FIRST q head)
def CIRCLEQ_FOREACH_REVERSE (fuel : Nat) : Option (List Nat) := visit head q.cqe_prev fuel (CIRCLEQ_LAST q head)
def CIRCLEQ_INIT : Circleq := (q.setFirst head (CIRCLEQ_END head)).setLast head (CIRCLEQ_END head)
def CIRCLEQ_INSERT_AFTER (listelm elm : Nat) : Option Circleq := do
  let q := q.setNext elm (q.cqe_next listelm)
  let q := q.setPrev elm (.elem listelm)
  let q ← q.setLastOr (q.cqe_next listelm = CIRCLEQ_END head) head (q.cqe_next listelm) (.elem elm)
  some (q.setNext listelm (.elem elm))
def CIRCLEQ_INSERT_HEAD (elm : Nat) : Option Circleq := do
  let q := q.setNext elm (q.cqh_first head)
  let q := q.setPrev elm (CIRCLEQ_END head)
  let q ← q.setLastOr (q.cqh_last head = CIRCLEQ_END head) head (q.cqh_first head) (.elem elm)
  some (q.setFirst head (.elem elm))
def CIRCLEQ_INSERT_TAIL (elm : Nat) : Option Circleq := do
  let q := q.setNext elm (CIRCLEQ_END head)
  let q := q.setPrev elm (q.cqh_last head)
  let q ← q.setFirstOr (q.cqh_first head = CIRCLEQ_END head) head (q.cqh_last head) (.elem elm)
  some (q.setLast head (.elem elm))
def CIRCLEQ_REMOVE (elm : Nat) : Option Circleq := do
  let q ← q.setLastOr (q.cqe_next elm = CIRCLEQ_END head) head (q.cqe_next elm) (q.cqe_prev elm)
  q.setFirstOr (q.cqe_prev elm = CIRCLEQ_END head) head (q.cqe_prev elm) (q.cqe_next elm)
end

section
variable {q : Circleq} {head elm : Nat} {p at' : Place}

/-- The links of the heads and those of the entries taken together. -/
def Circleq.next (q : Circleq) : Place → Place
  | .elem e => q.cqe_next e
  | .head h => q.cqh_first h
def Circleq.prev (q : Circleq) : Place → Place
  | .elem e => q.cqe_prev e
  | .head h => q.cqh_last h

@[simp] theorem next_setFirst : (q.setFirst head p).next = update q.next (.head head) p := by
  funext at'
  cases at' <;> simp [Circleq.next,Circleq.setFirst,update_apply]
@[simp] theorem next_setNext : (q.setNext elm p).next = update q.next (.elem elm) p := by
  funext at'
  cases at' <;> simp [Circleq.next,Circleq.setNext,update_apply]
@[simp] theorem next_setLast : (q.setLast head p).next = q.next := rfl
@[simp] theorem next_setPrev : (q.setPrev elm p).next = q.next := rfl
@[simp] theorem prev_setLast : (q.setLast head p).prev = update q.prev (.head head) p := by
  funext at'
  cases at' <;> simp [Circleq.prev,Circleq.setLast,update_apply]
@[simp] theorem prev_setPrev : (q.setPrev elm p).prev = update q.prev (.elem elm) p := by
  funext at'
  cases at' <;> simp [Circleq.prev,Circleq.setPrev,update_apply]
@[simp] theorem prev_setFirst : (q.setFirst head p).prev = q.prev := rfl
@[simp] theorem prev_setNext : (q.setNext elm p).prev = q.prev := rfl

/-- Under a right choice, the link of the place is written. -/
theorem setFirstOr_place (place : at' = .head head ∨ ∃ e, at' = .elem e) {end' : Bool} (decides : end' = true ↔ at' = .head head) :
    ∃ q', q.setFirstOr end' head at' p = some q' ∧ q'.next = update q.next at' p ∧ q'.prev = q.prev := by
  rcases place with rfl | ⟨e,rfl⟩
  · exact ⟨_,if_pos (decides.mpr rfl),next_setFirst,prev_setFirst⟩
  · exact ⟨_,if_neg (fun same => by cases decides.mp same),next_setNext,prev_setNext⟩
theorem setLastOr_place (place : at' = .head head ∨ ∃ e, at' = .elem e) {end' : Bool} (decides : end' = true ↔ at' = .head head) :
    ∃ q', q.setLastOr end' head at' p = some q' ∧ q'.prev = update q.prev at' p ∧ q'.next = q.next := by
  rcases place with rfl | ⟨e,rfl⟩
  · exact ⟨_,if_pos (decides.mpr rfl),prev_setLast,next_setLast⟩
  · exact ⟨_,if_neg (fun same => by cases decides.mp same),prev_setPrev,next_setPrev⟩

end

section
variable {q q' : Circleq} {head head' elm listelm : Nat} {xs as bs ys : List Nat}

/-- The queue of a head has the elements of a list, once each, and its links lead along them in both directions. -/
structure Circleq.Holds (q : Circleq) (head : Nat) (xs : List Nat) : Prop where
  distinct : xs.Nodup
  ring : Ring q.next q.prev (.head head) (xs.map .elem)
/-- The links of all but one head and some elements are kept. -/
def Circleq.KeepsBut (q q' : Circleq) (head : Nat) (xs : List Nat) : Prop :=
  ∀ p, p ≠ .head head → (∀ e ∈ xs, p ≠ .elem e) → q'.next p = q.next p ∧ q'.prev p = q.prev p

theorem elem?_eq_some {p : Place} {e : Nat} : p.elem? = some e ↔ p = .elem e := by
  cases p <;> simp [Place.elem?]
theorem elem_mem {e : Nat} : Place.elem e ∈ Place.head head :: xs.map .elem ↔ e ∈ xs := by simp
theorem places_nodup (distinct : xs.Nodup) : (Place.head head :: xs.map .elem).Nodup := by grind
theorem place_kind {p : Place} (member : p ∈ Place.head head :: xs.map .elem) : p = .head head ∨ ∃ e, p = .elem e := by grind
/-- A queue without the elements that change stays. -/
theorem Circleq.Holds.kept (holds : q.Holds head' ys) (keeps : q.KeepsBut q' head xs) (other : head' ≠ head) (apart : List.Disjoint ys xs) :
    q'.Holds head' ys := by
  refine ⟨holds.distinct,holds.ring.congr fun p member => keeps p ?_ ?_⟩
  · grind
  · rintro e changed rfl
    exact apart (elem_mem.mp member) changed
theorem visit_chain {next prev : Place → Place} {a : Place} {fuel : Nat} (chain : (a :: xs.map .elem ++ [Place.head head]).IsChain (BothWays next prev))
    (enough : xs.length < fuel) : visit head (fun e => next (.elem e)) fuel (next a) = some xs := by
  induction xs generalizing a fuel with
  | nil =>
    obtain ⟨fuel,rfl⟩ := succ_of_lt enough
    rw [(List.isChain_pair.mp chain).1,visit]
    exact if_pos rfl
  | cons x xs ih =>
    obtain ⟨fuel,rfl⟩ := succ_of_lt enough
    rw [map_cons,cons_append,cons_append,List.isChain_cons_cons] at chain
    have others := @ih (.elem x) fuel chain.2 (lt_of_succ_lt_succ enough)
    rw [chain.1.1,visit,if_neg (by simp [CIRCLEQ_END])]
    exact congrArg (Option.bind · fun others => some (x :: others)) others
theorem Circleq.Holds.foreach (holds : q.Holds head xs) {fuel : Nat} (enough : xs.length < fuel) : CIRCLEQ_FOREACH q head fuel = some xs :=
  visit_chain holds.ring enough
theorem Circleq.Holds.foreach_reverse (holds : q.Holds head xs) {fuel : Nat} (enough : xs.length < fuel) :
    CIRCLEQ_FOREACH_REVERSE q head fuel = some xs.reverse := by
  have ring := holds.ring.symm
  rw [← List.map_reverse] at ring
  exact visit_chain ring (by rwa [List.length_reverse])

theorem init_holds : (CIRCLEQ_INIT q head).Holds head [] ∧ q.KeepsBut (CIRCLEQ_INIT q head) head [] := by
  refine ⟨⟨nodup_nil,ring_nil.mpr ?_⟩,fun p other _ => ?_⟩
  · simp [CIRCLEQ_INIT,CIRCLEQ_END]
  · simp [CIRCLEQ_INIT,update_of_ne other]
/-- The head is linked to itself exactly if the queue is empty. -/
theorem Circleq.Holds.first_iff (holds : q.Holds head xs) : q.cqh_first head = .head head ↔ xs = [] := by
  cases xs with
  | nil => exact iff_of_true (ring_nil.mp holds.ring).1 rfl
  | cons x xs =>
    have linked := (List.isChain_cons_cons.mp holds.ring).1.1
    exact iff_of_false (fun same => by cases linked.symm.trans same) (cons_ne_nil x xs)
theorem Circleq.Holds.last_iff (holds : q.Holds head xs) : q.cqh_last head = .head head ↔ xs = [] := by
  have ring := holds.ring.symm
  rw [← List.map_reverse] at ring
  rw [← List.reverse_eq_nil_iff]
  cases shape : xs.reverse with
  | nil =>
    rw [shape] at ring
    exact iff_of_true (ring_nil.mp ring).1 rfl
  | cons x xs =>
    rw [shape] at ring
    have linked := (List.isChain_cons_cons.mp ring).1.1
    exact iff_of_false (fun same => by cases linked.symm.trans same) (cons_ne_nil x xs)

theorem Circleq.Holds.last (holds : q.Holds head (as ++ [elm])) : q.cqh_last head = .elem elm := by
  have ring := holds.ring.symm
  rw [← List.map_reverse,reverse_append] at ring
  exact (List.isChain_cons_cons.mp ring).1.1
theorem Circleq.Holds.first (holds : q.Holds head (elm :: as)) : q.cqh_first head = .elem elm := (List.isChain_cons_cons.mp holds.ring).1.1

/-- An element linked in between two places. -/
theorem Circleq.Holds.insert {pre post : List Place} {x z : Place} (holds : q.Holds head (as ++ bs)) (new : elm ∉ as ++ bs)
    (seam : Seam (Place.head head) (as.map .elem) (bs.map .elem) pre x z post)
    (next' : q'.next = update (update q.next (.elem elm) z) x (.elem elm)) (prev' : q'.prev = update (update q.prev (.elem elm) x) z (.elem elm)) :
    q'.Holds head (as ++ elm :: bs) ∧ q.KeepsBut q' head (elm :: (as ++ bs)) := by
  have outside : ∀ a ∈ Place.head head :: (as.map .elem ++ bs.map .elem), a ≠ .elem elm := by grind
  have x_elm := outside x seam.x_place
  have z_elm := outside z seam.z_place
  refine ⟨⟨?_,?_⟩,fun p other apart => ?_⟩
  · exact List.nodup_middle.mpr (nodup_cons.mpr ⟨new,holds.distinct⟩)
  · have ring := holds.ring
    rw [map_append] at ring
    rw [map_append,map_cons]
    refine seam.insert (fun a member other => ?_) (fun a member other => ?_) ⟨?_,?_⟩ ⟨?_,?_⟩ ring
    · rw [next',update_of_ne other,update_of_ne (outside a member)]
    · rw [prev',update_of_ne other,update_of_ne (outside a member)]
    · rw [next',update_self]
    · rw [prev',update_of_ne z_elm.symm,update_self]
    · rw [next',update_of_ne x_elm.symm,update_self]
    · rw [prev',update_self]
  · have new_p : p ≠ .elem elm := apart elm mem_cons_self
    have no_place : ∀ a ∈ Place.head head :: (as.map .elem ++ bs.map .elem), p ≠ a := by grind
    have p_x := no_place x seam.x_place
    have p_z := no_place z seam.z_place
    rw [next',prev',update_of_ne p_x,update_of_ne new_p,update_of_ne p_z,update_of_ne new_p]
    exact ⟨rfl,rfl⟩

/-- The place before the end of a queue. -/
theorem Circleq.Holds.tail_seam (holds : q.Holds head xs) :
    ∃ pre, Seam (Place.head head) (xs.map .elem) ([].map .elem) pre (q.prev (.head head)) (.head head) [] := by
  obtain ⟨pre,x,z,post,seam⟩ := @exists_seam _ (Place.head head) (xs.map .elem) [] (by simpa using @places_nodup head _ holds.distinct)
  obtain ⟨rfl,rfl⟩ := cons.inj seam.behind
  have linked := seam.linked (by simpa using holds.ring)
  exact ⟨pre,linked.2.symm ▸ seam⟩
theorem Circleq.Holds.head_seam (holds : q.Holds head xs) :
    ∃ post, Seam (Place.head head) ([].map .elem) (xs.map .elem) [] (.head head) (q.next (.head head)) post := by
  obtain ⟨pre,x,z,post,seam⟩ := @exists_seam _ (Place.head head) [] (xs.map .elem) (by simpa using @places_nodup head _ holds.distinct)
  obtain ⟨rfl,same⟩ := append_inj' (show pre ++ [x] = [] ++ [Place.head head] from seam.front.symm) rfl
  obtain rfl : x = .head head := (cons.inj same).1
  have linked := seam.linked (by simpa using holds.ring)
  exact ⟨post,linked.1.symm ▸ seam⟩
theorem Circleq.Holds.after_seam (holds : q.Holds head (as ++ listelm :: bs)) :
    ∃ pre post, Seam (Place.head head) ((as ++ [listelm]).map .elem) (bs.map .elem) pre (.elem listelm) (q.next (.elem listelm)) post := by
  have places := @places_nodup head _ holds.distinct
  obtain ⟨pre,x,z,post,seam⟩ := @exists_seam _ (Place.head head) ((as ++ [listelm]).map .elem) (bs.map .elem) (by simpa using places)
  have front := seam.front
  rw [map_append,← cons_append] at front
  obtain ⟨_,same⟩ := append_inj' front rfl
  obtain rfl : Place.elem listelm = x := (cons.inj same).1
  have linked := seam.linked (by simpa using holds.ring)
  exact ⟨pre,post,linked.1.symm ▸ seam⟩
theorem Circleq.Holds.first_mem (holds : q.Holds head xs) (first : q.cqh_first head = .elem elm) : elm ∈ xs := by
  obtain ⟨post,seam⟩ := holds.head_seam
  have place := seam.z_place
  rw [show q.next (.head head) = .elem elm from first] at place
  exact elem_mem.mp place
theorem Circleq.Holds.next_mem (holds : q.Holds head xs) (member : listelm ∈ xs) (next : q.cqe_next listelm = .elem elm) : elm ∈ xs := by
  obtain ⟨as,bs,rfl⟩ := append_of_mem member
  obtain ⟨pre,post,seam⟩ := holds.after_seam
  have place := seam.z_place
  rw [show q.next (.elem listelm) = .elem elm from next,← map_append,← List.append_cons] at place
  exact elem_mem.mp place
theorem Circleq.Holds.gap_seam (holds : q.Holds head (as ++ elm :: bs)) :
    ∃ pre post, Seam (Place.head head) (as.map .elem) (bs.map .elem) pre (q.prev (.elem elm)) (q.next (.elem elm)) post := by
  have fewer : (as ++ bs).Nodup := holds.distinct.sublist (List.sublist_append_right [elm] bs |>.append_left as)
  obtain ⟨pre,x,z,post,seam⟩ := @exists_seam _ (Place.head head) (as.map .elem) (bs.map .elem) (by simpa using @places_nodup head _ fewer)
  obtain ⟨before,behind⟩ := seam.between (e := Place.elem elm) (by simpa using holds.ring)
  exact ⟨pre,post,before.2.symm ▸ behind.1.symm ▸ seam⟩

theorem insert_tail (holds : q.Holds head xs) (new : elm ∉ xs) :
    ∃ q', CIRCLEQ_INSERT_TAIL q head elm = some q' ∧ q'.Holds head (xs ++ [elm]) ∧ q.KeepsBut q' head (elm :: xs) := by
  obtain ⟨pre,seam⟩ := holds.tail_seam
  have place := @place_kind head xs _ (by simpa using seam.x_place)
  obtain ⟨q',written,next',prev'⟩ := @setFirstOr_place ((q.setNext elm (.head head)).setPrev elm (q.cqh_last head)) head (.elem elm) (q.cqh_last head) place
    (q.cqh_first head = .head head) (by rw [decide_eq_true_iff]; exact holds.first_iff.trans holds.last_iff.symm)
  have inserted := @Circleq.Holds.insert q (q'.setLast head (.elem elm)) head elm xs [] _ _ _ _ (by simpa using holds) (by simpa using new) seam
    (by rw [next_setLast,next',next_setPrev,next_setNext]; rfl) (by rw [prev_setLast,prev',prev_setPrev,prev_setNext]; rfl)
  rw [append_nil] at inserted
  refine ⟨_,?_,inserted⟩
  exact congrArg (Option.bind · fun q => some (q.setLast head (.elem elm))) written
theorem insert_head (holds : q.Holds head xs) (new : elm ∉ xs) :
    ∃ q', CIRCLEQ_INSERT_HEAD q head elm = some q' ∧ q'.Holds head (elm :: xs) ∧ q.KeepsBut q' head (elm :: xs) := by
  obtain ⟨post,seam⟩ := holds.head_seam
  have place := @place_kind head xs _ (by simpa using seam.z_place)
  obtain ⟨q',written,prev',next'⟩ := @setLastOr_place ((q.setNext elm (q.cqh_first head)).setPrev elm (.head head)) head (.elem elm) (q.cqh_first head) place
    (q.cqh_last head = .head head) (by rw [decide_eq_true_iff]; exact holds.last_iff.trans holds.first_iff.symm)
  have inserted := @Circleq.Holds.insert q (q'.setFirst head (.elem elm)) head elm [] xs _ _ _ _ holds new seam
    (by rw [next_setFirst,next',next_setPrev,next_setNext]; rfl) (by rw [prev_setFirst,prev',prev_setPrev,prev_setNext]; rfl)
  refine ⟨_,?_,inserted⟩
  exact congrArg (Option.bind · fun q => some (q.setFirst head (.elem elm))) written
theorem insert_after (holds : q.Holds head (as ++ listelm :: bs)) (new : elm ∉ as ++ listelm :: bs) :
    ∃ q', CIRCLEQ_INSERT_AFTER q head listelm elm = some q' ∧ q'.Holds head (as ++ listelm :: elm :: bs) ∧
      q.KeepsBut q' head (elm :: (as ++ listelm :: bs)) := by
  obtain ⟨pre,post,seam⟩ := holds.after_seam
  have place := @place_kind head (as ++ [listelm] ++ bs) _ (by simpa using seam.z_place)
  have other : listelm ≠ elm := by
    rintro rfl
    exact new (by simp)
  have read : ((q.setNext elm (q.cqe_next listelm)).setPrev elm (.elem listelm)).cqe_next listelm = q.cqe_next listelm := update_of_ne other ..
  obtain ⟨q',written,prev',next'⟩ := @setLastOr_place ((q.setNext elm (q.cqe_next listelm)).setPrev elm (.elem listelm)) head (.elem elm) (q.cqe_next listelm) place
    (q.cqe_next listelm = .head head) decide_eq_true_iff
  have inserted := @Circleq.Holds.insert q (q'.setNext listelm (.elem elm)) head elm (as ++ [listelm]) bs _ _ _ _ (by simpa using holds) (by simpa using new) seam
    (by rw [next_setNext,next',next_setPrev,next_setNext]; rfl) (by rw [prev_setNext,prev',prev_setPrev,prev_setNext]; rfl)
  rw [← List.append_cons,← List.append_cons] at inserted
  refine ⟨_,?_,inserted⟩
  rw [CIRCLEQ_INSERT_AFTER]
  simp only [read]
  exact congrArg (Option.bind · fun q => some (q.setNext listelm (.elem elm))) written
theorem remove (holds : q.Holds head (as ++ elm :: bs)) :
    ∃ q', CIRCLEQ_REMOVE q head elm = some q' ∧ q'.Holds head (as ++ bs) ∧ q.KeepsBut q' head (as ++ bs) := by
  obtain ⟨pre,post,seam⟩ := holds.gap_seam
  have elm_none : elm ∉ as ++ bs := (nodup_cons.mp (List.nodup_middle.mp holds.distinct)).1
  have outside : ∀ a ∈ Place.head head :: (as.map .elem ++ bs.map .elem), a ≠ .elem elm := by grind
  have x_place := @place_kind head (as ++ bs) _ (by simpa using seam.x_place)
  have z_place := @place_kind head (as ++ bs) _ (by simpa using seam.z_place)
  obtain ⟨q1,written,prev1,next1⟩ := @setLastOr_place q head (q.cqe_prev elm) (q.cqe_next elm) z_place (q.cqe_next elm = .head head) decide_eq_true_iff
  have prev_kept : q1.cqe_prev elm = q.cqe_prev elm := by
    show q1.prev (.elem elm) = _
    rw [prev1]
    exact update_of_ne (outside _ seam.z_place).symm ..
  have next_kept : q1.cqe_next elm = q.cqe_next elm := congrFun next1 (.elem elm)
  obtain ⟨q2,written2,next2,prev2⟩ := @setFirstOr_place q1 head (q.cqe_next elm) (q.cqe_prev elm) x_place (q.cqe_prev elm = .head head) decide_eq_true_iff
  rw [next1] at next2
  rw [prev1] at prev2
  refine ⟨q2,?_,⟨?_,?_⟩,fun p other apart => ?_⟩
  · refine (congrArg (Option.bind · fun q => q.setFirstOr (q.cqe_prev elm = CIRCLEQ_END head) head (q.cqe_prev elm) (q.cqe_next elm)) written).trans ?_
    show q1.setFirstOr (q1.cqe_prev elm = .head head) head (q1.cqe_prev elm) (q1.cqe_next elm) = some q2
    rw [prev_kept,next_kept,written2]
  · exact (nodup_cons.mp (List.nodup_middle.mp holds.distinct)).2
  · have ring := holds.ring
    rw [map_append,map_cons] at ring
    rw [map_append]
    refine seam.remove (fun a member other => ?_) (fun a member other => ?_) ⟨?_,?_⟩ ring
    · rw [next2]
      exact update_of_ne other ..
    · rw [prev2]
      exact update_of_ne other ..
    · rw [next2]
      exact update_self ..
    · rw [prev2]
      exact update_self ..
  · have no_place : ∀ a ∈ Place.head head :: (as.map .elem ++ bs.map .elem), p ≠ a := by grind
    rw [next2,prev2]
    exact ⟨update_of_ne (no_place _ seam.x_place) ..,update_of_ne (no_place _ seam.z_place) ..⟩

end

section
variable {q q' : Circleq} {n n' head elm listelm : Nat} {members : Nat → List Nat} {xs ys as bs : List Nat}

/-- All queues, with the elements of each: no element is in two queues, and all are at addresses that are in use. -/
structure Queues (q : Circleq) (n : Nat) (members : Nat → List Nat) : Prop where
  holds : ∀ head, q.Holds head (members head)
  apart : ∀ head head', head ≠ head' → (members head).Disjoint (members head')
  used : ∀ head, ∀ elm ∈ members head, elm < n

variable (queues : Queues q n members)
include queues
theorem Queues.mono (more : n ≤ n') : Queues q n' members :=
  ⟨queues.holds,queues.apart,fun head elm member => lt_of_lt_of_le (queues.used head elm member) more⟩
theorem Queues.length_le (head : Nat) : (members head).length ≤ n := by
  have subset : members head ⊆ List.range n := fun elm member => mem_range.mpr (queues.used head elm member)
  have fewer := (List.subperm_of_subset (queues.holds head).distinct subset).length_le
  rwa [List.length_range] at fewer
/-- One queue changes: its elements were its own, or in no queue. -/
theorem Queues.change (holds : q'.Holds head xs) (keeps : q.KeepsBut q' head ys)
    (own : ∀ elm ∈ xs ++ ys, elm ∈ members head ∨ ∀ head', elm ∉ members head') (used : ∀ elm ∈ xs, elm < n) :
    Queues q' n (update members head xs) := by
  have others : ∀ head', head' ≠ head → ∀ elm ∈ xs ++ ys, elm ∉ members head' := fun head' other elm member =>
    (own elm member).elim (fun mine theirs => queues.apart head' head other theirs mine) fun none' => none' head'
  refine ⟨fun head' => ?_,fun head1 head2 other => ?_,fun head' elm member => ?_⟩
  · by_cases same : head' = head
    · rw [same,update_self]
      exact holds
    · rw [update_of_ne same]
      exact (queues.holds head').kept keeps same fun elm theirs mine => others head' same elm (mem_append_right _ mine) theirs
  · intro elm member1 member2
    by_cases same1 : head1 = head
    · rw [same1,update_self] at member1
      rw [update_of_ne (same1 ▸ other.symm)] at member2
      exact others head2 (same1 ▸ other.symm) elm (mem_append_left _ member1) member2
    · rw [update_of_ne same1] at member1
      by_cases same2 : head2 = head
      · rw [same2,update_self] at member2
        exact others head1 same1 elm (mem_append_left _ member2) member1
      · rw [update_of_ne same2] at member2
        exact queues.apart head1 head2 other member1 member2
  · by_cases same : head' = head
    · rw [same,update_self] at member
      exact used elm member
    · rw [update_of_ne same] at member
      exact queues.used head' elm member

section
variable (new : ∀ head, elm ∉ members head) (used : elm < n)
include new used
/-- An element of no queue is put into one. -/
theorem Queues.inserted (holds : q'.Holds head xs)
    (keeps : q.KeepsBut q' head (elm :: members head)) (perm : xs.Perm (elm :: members head)) : Queues q' n (update members head xs) := by
  refine queues.change holds keeps (fun e member => ?_) fun e member => ?_
  · grind
  · rcases mem_cons.mp (perm.mem_iff.mp member) with rfl | mine
    · exact used
    · exact queues.used head e mine
theorem Queues.insert_tail (head : Nat) :
    ∃ q', CIRCLEQ_INSERT_TAIL q head elm = some q' ∧ Queues q' n (update members head (members head ++ [elm])) := by
  obtain ⟨q',result,holds,keeps⟩ := Tad.insert_tail (queues.holds head) (new head)
  exact ⟨q',result,queues.inserted new used holds keeps (List.perm_append_singleton elm _)⟩
theorem Queues.insert_head (head : Nat) :
    ∃ q', CIRCLEQ_INSERT_HEAD q head elm = some q' ∧ Queues q' n (update members head (elm :: members head)) := by
  obtain ⟨q',result,holds,keeps⟩ := Tad.insert_head (queues.holds head) (new head)
  exact ⟨q',result,queues.inserted new used holds keeps (.refl _)⟩
end
theorem Queues.insert_after (place : members head = as ++ listelm :: bs) (new : ∀ head, elm ∉ members head)
    (used : elm < n) :
    ∃ q', CIRCLEQ_INSERT_AFTER q head listelm elm = some q' ∧ Queues q' n (update members head (as ++ listelm :: elm :: bs)) := by
  obtain ⟨q',result,holds,keeps⟩ := Tad.insert_after (place ▸ queues.holds head) (place ▸ new head)
  rw [← place] at keeps
  have perm : (as ++ listelm :: elm :: bs).Perm (elm :: members head) := by grind
  exact ⟨q',result,queues.inserted new used holds keeps perm⟩
theorem Queues.remove (place : members head = as ++ elm :: bs) :
    ∃ q', CIRCLEQ_REMOVE q head elm = some q' ∧ Queues q' n (update members head (as ++ bs)) := by
  obtain ⟨q',result,holds,keeps⟩ := Tad.remove (place ▸ queues.holds head)
  have fewer : as ++ bs ⊆ members head := by
    rw [place]
    exact (List.sublist_append_right [elm] bs |>.append_left as).subset
  refine ⟨q',result,queues.change holds keeps (fun e member => ?_) fun e member => queues.used head e (fewer member)⟩
  rw [mem_append,or_self] at member
  exact .inl (fewer member)
theorem Queues.init (head : Nat) : Queues (CIRCLEQ_INIT q head) n (update members head []) :=
  queues.change init_holds.1 init_holds.2 (fun _ member => absurd member not_mem_nil) fun _ member => absurd member not_mem_nil

end

end TestEnvironment.Tad
