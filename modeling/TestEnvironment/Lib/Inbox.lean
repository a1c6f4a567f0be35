import TestEnvironment.Lib.Names

/-!
A queue of items from several senders: what one sender has in it, and how the first item
that meets a condition is taken out.
-/
namespace TestEnvironment.Lib
universe u v
variable {α : Type u} {β : Type v}

/-- The first element that meets the condition, and the list without it. -/
def takeFirst (p : α → Bool) : List α → Option (α × List α)
  | [] => none
  | a :: l => if p a then some (a,l) else (takeFirst p l).map fun r => (r.1,a :: r.2)

section
variable {p : α → Bool} {l rest : List α} {a : α}

theorem takeFirst_none : takeFirst p l = none ↔ ∀ a ∈ l, p a = false := by
  induction l with
  | nil => simp [takeFirst]
  | cons b l ih => cases is : p b <;> simp [takeFirst,is,ih]
theorem takeFirst_some (taken : takeFirst p l = some (a,rest)) :
    ∃ front back, l = front ++ a :: back ∧ rest = front ++ back ∧ p a = true ∧ ∀ b ∈ front, p b = false := by
  induction l generalizing rest with
  | nil => cases taken
  | cons b l ih =>
    simp only [takeFirst] at taken
    split at taken
    · rename_i is
      cases taken
      exact ⟨[],l,rfl,rfl,is,nofun⟩
    · rename_i is
      obtain ⟨⟨_,_⟩,later,same⟩ := of_map taken
      cases same
      obtain ⟨front,back,rfl,rfl,meets,before⟩ := ih later
      exact ⟨b :: front,back,rfl,rfl,meets,forall_mem_cons.mpr ⟨by simpa using is,before⟩⟩
end

variable [DecidableEq α]

/-- What the sender has in the queue, in its order. -/
def sentBy (a : α) (queue : List (α × β)) : List β := (queue.filter fun p => p.1 = a).map Prod.snd

section
variable {a b : α} {x : β} {queue front back : List (α × β)}

@[simp] theorem sentBy_nil : sentBy a ([] : List (α × β)) = [] := rfl
@[simp] theorem sentBy_append : sentBy a (front ++ back) = sentBy a front ++ sentBy a back := by
  rw [sentBy,filter_append,map_append]
  rfl
theorem sentBy_cons_same : sentBy a ((a,x) :: queue) = x :: sentBy a queue := by
  rw [sentBy,filter_cons_of_pos (by simp)]
  rfl
theorem sentBy_cons_other (other : b ≠ a) : sentBy a ((b,x) :: queue) = sentBy a queue := by
  rw [sentBy,filter_cons_of_neg (by simpa using other)]
  rfl
theorem sentBy_none (absent : ∀ p ∈ queue, p.1 ≠ a) : sentBy a queue = [] := by
  rw [sentBy,filter_eq_nil_iff.mpr fun p member => by simpa using absent p member]
  rfl
/-- What is taken out of the middle of a queue is missing in one sender's items only. -/
theorem sentBy_erase_other (other : b ≠ a) : sentBy a (front ++ (b,x) :: back) = sentBy a (front ++ back) := by
  rw [sentBy_append,sentBy_append,sentBy_cons_other other]
theorem sentBy_erase_first (before : ∀ p ∈ front, p.1 ≠ a) : sentBy a (front ++ (a,x) :: back) = x :: sentBy a (front ++ back) := by
  rw [sentBy_append,sentBy_append,sentBy_none before,sentBy_cons_same,nil_append,nil_append]
end
end TestEnvironment.Lib
