import Mathlib
/-!
Lemmas of the core library that the development uses throughout, by their short names.
-/
namespace TestEnvironment.Lib
export List (all_eq_true any_eq_true append_assoc append_cancel_left append_eq_nil_iff append_inj' append_nil append_of_mem concat_eq_append
  cons.inj cons_append cons_lt_cons_iff cons_ne_nil drop_append_of_le_length drop_drop drop_left drop_of_length_le drop_zero dropWhile_cons_of_neg
  dropWhile_cons_of_pos dropWhile_sublist dropWhile_suffix eq_nil_or_concat exists_cons_of_ne_nil exists_mem_of_ne_nil filter_append
  filter_cons_of_neg filter_cons_of_pos filter_eq_nil_iff find?_eq_none find?_some flatMap_append flatMap_cons flatMap_singleton foldl_append
  foldl_cons foldl_nil foldlM_cons forall_mem_cons forall_mem_singleton getElem?_append_left getElem?_eq_getElem getElem?_eq_none getElem?_map
  getLast?_concat getLast?_cons head?_cons length_append length_cons length_drop length_eq_zero_iff length_map length_nil
  length_pos_iff length_replicate length_singleton length_take map_append map_congr_left map_cons map_map map_nil mem_append
  mem_append_left mem_append_right mem_cons mem_cons_of_mem mem_cons_self mem_filter mem_flatMap mem_map mem_map_of_mem mem_of_find?_eq_some
  mem_of_getElem? mem_of_getLast? mem_of_mem_head? mem_range mem_reverse mem_singleton mem_singleton_self nil_append nil_prefix nodup_append
  nodup_cons nodup_nil not_mem_nil pairwise_append pairwise_cons pairwise_map pairwise_singleton prefix_append prefix_refl
  replicate replicate_succ reverse_append reverse_reverse reverse_singleton singleton_append sum_cons tail_cons take_add take_append_drop
  take_append_of_le_length take_left take_length take_of_length_le takeWhile_append_dropWhile)
export Option (bind_eq_bind bind_eq_some_iff bind_none bind_some getD_some isSome_iff_exists map_eq_some_iff map_none map_some ne_none_iff_exists'
  some.inj some_inj some_ne_none some_or)
export Except (ok.inj)
export Nat (exists_eq_add_one_of_ne_zero le_succ le_zero lt_of_succ_lt_succ lt_succ_of_le lt_succ_self mod_eq_of_lt mod_lt zero_lt_of_lt)
export Bool (and_eq_true false_eq_true or_eq_true)
export Function (comp_apply comp_def update update_of_ne update_self)

section
universe u v w
variable {α : Type u} {β : Type v} {γ : Type w} {x : Option α} {a a' : α} {b b' : β} {c c' : γ}

/-- What a computation with a result did first. -/
theorem of_bind {f : α → Option β} (done : x.bind f = some b) : ∃ a, x = some a ∧ f a = some b := bind_eq_some_iff.mp done
theorem of_map {f : α → β} (done : x.map f = some b) : ∃ a, x = some a ∧ f a = b := map_eq_some_iff.mp done
theorem of_pair (same : some (a,b) = some (a',b')) : a = a' ∧ b = b' := Prod.mk.inj (some.inj same)
theorem of_triple (same : some (a,b,c) = some (a',b',c')) : a = a' ∧ b = b' ∧ c = c' :=
  ⟨(of_pair same).1,Prod.mk.inj (of_pair same).2⟩
/-- Enough fuel lasts for a step. -/
theorem succ_of_lt {m n : Nat} (less : m < n) : ∃ k, n = k+1 := exists_eq_add_one_of_ne_zero (Nat.ne_zero_of_lt less)
end
end TestEnvironment.Lib
