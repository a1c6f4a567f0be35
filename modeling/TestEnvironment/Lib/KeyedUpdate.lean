import TestEnvironment.Lib.Names

/-!
Changes of an element of a list that is sorted by a key; the element is made where it is missing. Both making and
changing may fail.
-/
namespace TestEnvironment.Lib

variable {α κ : Type} [LinearOrder κ] (key : α → κ) (name : κ) (create : Option α) (change : α → Option α)

def updateKey : List α → Option (List α)
  | [] => (create.bind change).map ([·])
  | e :: l =>
    if key e = name then (change e).map (· :: l)
    else if name < key e then (create.bind change).map (· :: e :: l)
    else (updateKey l).map (e :: ·)
def KeySorted (l : List α) : Prop := l.Pairwise fun a b => key a < key b

variable {key name create change} {l l' : List α}

theorem updateKey_forall {P : α → Prop} (old : ∀ a ∈ l, P a) (made : ∀ a, create = some a → P a) (changed : ∀ a b, P a → change a = some b → P b)
    (result : updateKey key name create change l = some l') : ∀ a ∈ l', P a := by
  have fresh {b : α} (new : create.bind change = some b) : P b := by
    obtain ⟨a,made_a,change_a⟩ := of_bind new
    exact changed a b (made a made_a) change_a
  induction l generalizing l' with
  | nil =>
    obtain ⟨b,new,rfl⟩ := of_map result
    exact fun a member => mem_singleton.mp member ▸ fresh new
  | cons e l ih =>
    obtain ⟨first,rest⟩ := forall_mem_cons.mp old
    rw [updateKey] at result
    split_ifs at result
    · obtain ⟨b,new,rfl⟩ := of_map result
      exact forall_mem_cons.mpr ⟨changed e b first new,rest⟩
    · obtain ⟨b,new,rfl⟩ := of_map result
      exact forall_mem_cons.mpr ⟨fresh new,old⟩
    · obtain ⟨l'',later,rfl⟩ := of_map result
      exact forall_mem_cons.mpr ⟨first,ih rest later⟩
theorem updateKey_sorted (sorted : KeySorted key l) (made : ∀ a, create = some a → key a = name) (changed : ∀ a b, change a = some b → key b = key a)
    (result : updateKey key name create change l = some l') : KeySorted key l' := by
  have fresh {b : α} (new : create.bind change = some b) : key b = name := by
    obtain ⟨a,made_a,change_a⟩ := of_bind new
    exact (changed a b change_a).trans (made a made_a)
  induction l generalizing l' with
  | nil =>
    obtain ⟨b,new,rfl⟩ := of_map result
    exact pairwise_singleton _ b
  | cons e l ih =>
    obtain ⟨first,rest⟩ := pairwise_cons.mp sorted
    rw [updateKey] at result
    split_ifs at result with here before
    · obtain ⟨b,new,rfl⟩ := of_map result
      exact pairwise_cons.mpr ⟨changed e b new ▸ first,rest⟩
    · obtain ⟨b,new,rfl⟩ := of_map result
      refine pairwise_cons.mpr ⟨fun a member => ?_,sorted⟩
      rw [fresh new]
      obtain rfl | later := mem_cons.mp member
      · exact before
      · exact lt_trans before (first a later)
    · obtain ⟨l'',later,rfl⟩ := of_map result
      have above : key e < name := lt_of_le_of_ne (not_lt.mp before) here
      refine pairwise_cons.mpr ⟨updateKey_forall first (fun a new => ?_) (fun a b less new => ?_) later,ih rest later⟩
      · exact (made a new).symm ▸ above
      · exact (changed a b new).symm ▸ less
theorem updateKey_some (made : create.isSome = true) (changed : ∀ a, (change a).isSome = true) (l : List α) :
    (updateKey key name create change l).isSome = true := by
  have fresh : (create.bind change).isSome = true := by
    obtain ⟨a,rfl⟩ := isSome_iff_exists.mp made
    exact changed a
  induction l with
  | nil => exact Option.isSome_map.trans fresh
  | cons e l ih =>
    rw [updateKey]
    split_ifs
    · exact Option.isSome_map.trans (changed e)
    · exact Option.isSome_map.trans fresh
    · exact Option.isSome_map.trans ih
end TestEnvironment.Lib
