import TestEnvironment.Lib.Fuel

/-!
The combinations of arguments of which wildcards are generated (`update.c` of the TRC tools), from the empty one on. An array is the list of its
elements.
-/
namespace TestEnvironment.Trc
open Lib

section

/-- The search down for an argument that is not selected, to the place `low`. -/
def lastUnselected (args_comb : List Bool) (low : Nat) : Nat → Nat
  | 0 => 0
  | j+1 => if low ≤ j+1 ∧ args_comb[j+1]? ≠ some false then lastUnselected args_comb low j else j+1
/-- The search down for a selected argument; none is read in front of the array. -/
def lastSelected (args_comb : List Bool) : Nat → Option Nat
  | 0 => if args_comb[0]? = some false then none else some 0
  | j+1 => if args_comb[j+1]? = some false then lastSelected args_comb j else some (j+1)
/-- The loops that write `k` elements from the place `j` on. -/
def putAll (value : Bool) : Nat → Nat → List Bool → List Bool
  | 0,_,args_comb => args_comb
  | k+1,j,args_comb => putAll value k (j+1) (args_comb.set j value)
/-- The next combination with its count; the inner option is empty for `-1`, the outer one where the array is left. -/
def get_next_args_comb (args_comb : List Bool) (cur_comb_count : Nat) : Option (Option (List Bool × Nat)) :=
  let args_count := args_comb.length
  if cur_comb_count = args_count then some none
  else if cur_comb_count = 0 then some (some (args_comb.set 0 true,1))
  else
    let j := lastUnselected args_comb (args_count-cur_comb_count) (args_count-1)
    if j < args_count-cur_comb_count then some (some ((List.range args_count).map (fun j => decide (j < cur_comb_count+1)),cur_comb_count+1))
    else
      let k := args_count-j
      (lastSelected args_comb j).map fun j =>
        some (putAll false (args_count-(j+k+1)) (j+k+1) (putAll true k (j+1) (args_comb.set j false)),cur_comb_count)
/-- The combinations and their counts, up to `-1`. -/
def argsCombs : Nat → List Bool → Nat → Option (List (List Bool × Nat))
  | 0,_,_ => none
  | turns+1,args_comb,cur_comb_count =>
    (get_next_args_comb args_comb cur_comb_count).bind fun next =>
      match next with
      | none => some [(args_comb,cur_comb_count)]
      | some (comb,count) => (argsCombs turns comb count).map ((args_comb,cur_comb_count) :: ·)
end

section
variable {front x args_comb : List Bool} {low m a b k n c : Nat}

theorem lastUnselected_spec (stop : m < low ∨ args_comb[m]? = some false) (go : ∀ i < b, low ≤ m+1+i ∧ args_comb[m+1+i]? = some true) :
    lastUnselected args_comb low (m+b) = m := by
  induction b with
  | zero =>
    cases m with
    | zero => rfl
    | succ m =>
      rw [Nat.add_zero,lastUnselected,if_neg]
      rintro ⟨above,selected⟩
      exact stop.elim (Nat.not_lt_of_le above) selected
  | succ b ih =>
    obtain ⟨above,selected⟩ := go b (lt_succ_self b)
    rw [Nat.add_right_comm] at above selected
    rw [← Nat.add_assoc,lastUnselected,if_pos ⟨above,by rw [selected]; decide⟩]
    exact ih fun i below => go i (Nat.lt_succ_of_lt below)
theorem lastSelected_spec (here : args_comb[m]? = some true) (go : ∀ i < a, args_comb[m+1+i]? = some false) :
    lastSelected args_comb (m+a) = some m := by
  induction a with
  | zero => cases m <;> simp [lastSelected,here]
  | succ a ih =>
    have unselected := go a (lt_succ_self a)
    rw [Nat.add_right_comm] at unselected
    rw [← Nat.add_assoc,lastSelected,if_pos unselected]
    exact ih fun i below => go i (Nat.lt_succ_of_lt below)
theorem putAll_spec {value : Bool} (long : k ≤ x.length) : putAll value k front.length (front ++ x) = front ++ (replicate k value ++ x.drop k) := by
  induction k generalizing front x with
  | zero => rfl
  | succ k ih =>
    cases x with
    | nil => simp at long
    | cons y x =>
      have first : (front ++ y :: x).set front.length value = (front ++ [value]) ++ x := by simp
      have rest := @ih (front ++ [value]) x (by simpa using long)
      rw [length_append,length_singleton] at rest
      rw [putAll,first,rest,append_assoc,replicate_succ]
      rfl

abbrev trues (n : Nat) : List Bool := replicate n true
abbrev falses (n : Nat) : List Bool := replicate n false
/-- The next combination with as many arguments. -/
inductive NextSame : List Bool → List Bool → Prop
  | moved (front : List Bool) (a b : Nat) : NextSame (front ++ true :: (falses (a+1) ++ trues b)) (front ++ false :: (trues (b+1) ++ falses a))
def NextComb (x y : List Bool) : Prop := get_next_args_comb x (x.count true) = some (some (y,y.count true))
theorem NextSame.cons {y : List Bool} (value : Bool) (next : NextSame x y) : NextSame (value :: x) (value :: y) := by
  obtain ⟨front,a,b⟩ := next
  exact .moved (value :: front) a b
/-- The last block of selected arguments is joined to the one in front of it, which moves by one place. -/
theorem next_same {y : List Bool} (next : NextSame x y) : NextComb x y := by
  obtain ⟨front,a,b⟩ := next
  have total : (front ++ true :: (falses (a+1) ++ trues b)).length = front.length+a+b+2 := by simp; omega
  have count : (front ++ true :: (falses (a+1) ++ trues b)).count true = front.count true+b+1 := by
    simp [List.count_replicate]; omega
  have same : (front ++ false :: (trues (b+1) ++ falses a)).count true = front.count true+b+1 := by
    simp [List.count_replicate]; omega
  have few : front.count true ≤ front.length := List.count_le_length
  have j : lastUnselected (front ++ true :: (falses (a+1) ++ trues b)) (front.length+a+b+2-(front.count true+b+1))
      (front.length+a+b+2-1) = front.length+1+a := by
    rw [show front.length+a+b+2-1 = front.length+1+a+b by omega]
    refine lastUnselected_spec (.inr ?_) fun i below => ⟨by omega,?_⟩
    · grind
    · grind
  have i : lastSelected (front ++ true :: (falses (a+1) ++ trues b)) (front.length+1+a) = some front.length := by
    rw [Nat.add_assoc]
    refine lastSelected_spec (a := 1+a) (by simp) fun i below => ?_
    grind
  have unselect : (front ++ true :: (falses (a+1) ++ trues b)).set front.length false =
      (front ++ [false]) ++ (falses (a+1) ++ trues b) := by simp
  have put := @putAll_spec (front ++ [false]) (falses (a+1) ++ trues b) (b+1) true (by grind)
  have clear := @putAll_spec (front ++ [false] ++ trues (b+1)) ((falses (a+1) ++ trues b).drop (b+1)) a false (by simp; omega)
  have nothing : ((falses (a+1) ++ trues b).drop (b+1)).drop a = [] := by
    rw [drop_drop]
    exact drop_of_length_le (by simp; omega)
  rw [length_append,length_singleton] at put
  rw [nothing,append_nil,append_assoc _ _ (List.drop _ _),length_append,length_append,length_replicate,length_singleton] at clear
  have first : ¬front.count true+b+1 = front.length+a+b+2 := by omega
  have second : ¬front.length+1+a < front.length+a+b+2-(front.count true+b+1) := by omega
  have block : front.length+a+b+2-(front.length+1+a) = b+1 := by omega
  have rest : front.length+a+b+2-(front.length+(b+1)+1) = a := by omega
  rw [NextComb,same,count,get_next_args_comb]
  simp only [total,j,i,first,second,block,rest,unselect,if_false,Nat.add_one_ne_zero,map_some]
  rw [put,Nat.add_right_comm,clear]
  simp
theorem next_size (more : c < n) :
    NextComb (falses (n-c) ++ trues c) (trues (c+1) ++ falses (n-(c+1))) := by
  have total : (falses (n-c) ++ trues c).length = n := by simp; omega
  have count : (falses (n-c) ++ trues c).count true = c := by simp [List.count_replicate]
  have next : (trues (c+1) ++ falses (n-(c+1))).count true = c+1 := by simp [List.count_replicate]
  rw [NextComb,count,next,get_next_args_comb]
  simp only [total]
  rw [if_neg (ne_of_lt more)]
  by_cases empty : c = 0
  · obtain ⟨n,rfl⟩ := succ_of_lt more
    simp [empty,replicate_succ]
  · have j : lastUnselected (falses (n-c) ++ trues c) (n-c) (n-1) = n-c-1 := by
      rw [show n-1 = n-c-1+c by omega]
      refine lastUnselected_spec (.inl (by omega)) fun i below => ⟨by omega,?_⟩
      grind
    rw [if_neg empty,j,if_pos (by omega)]
    congr 3
    refine List.ext_getElem (by simp; omega) fun i _ _ => ?_
    grind
theorem last_size : get_next_args_comb (trues n) n = some none := if_pos (length_replicate).symm
end

section
variable {x : List Bool} {xs : List (List Bool)} {n c turns : Nat}

/-- The combinations of `c` among `n` arguments. -/
def combs : Nat → Nat → List (List Bool)
  | n,0 => [falses n]
  | 0,_+1 => []
  | n+1,c+1 => (combs n c).map (true :: ·) ++ (combs n (c+1)).map (false :: ·)
theorem mem_combs : x ∈ combs n c ↔ x.length = n ∧ x.count true = c := by
  induction n generalizing c x with
  | zero => cases c <;> cases x <;> simp [combs]
  | succ n ih =>
    cases c with
    | zero =>
      rw [combs,mem_singleton,List.eq_replicate_iff,List.count_eq_zero]
      exact and_congr_right fun _ => ⟨fun all selected => absurd (all _ selected) (by decide),fun none' b member => by cases b <;> simp_all⟩
    | succ c =>
      cases x with
      | nil => simp [combs]
      | cons b x => cases b <;> simp [combs,ih]
theorem combs_nodup : (combs n c).Nodup := by
  induction n generalizing c with
  | zero => cases c <;> simp [combs]
  | succ n ih =>
    cases c with
    | zero => exact List.nodup_singleton _
    | succ c =>
      rw [combs,nodup_append]
      refine ⟨List.Nodup.map List.cons_injective ih,List.Nodup.map List.cons_injective ih,fun x first y second => ?_⟩
      obtain ⟨_,_,rfl⟩ := mem_map.mp first
      obtain ⟨_,_,rfl⟩ := mem_map.mp second
      simp
theorem combs_none (more : n < c) : combs n c = [] := by
  rw [List.eq_nil_iff_forall_not_mem]
  intro x member
  obtain ⟨length,count⟩ := mem_combs.mp member
  have few := @List.count_le_length _ _ true x
  omega
theorem combs_ends (fits : c ≤ n) : (combs n c).head? = some (trues c ++ falses (n-c)) ∧
    (combs n c).getLast? = some (falses (n-c) ++ trues c) := by
  induction n generalizing c with
  | zero => simp [le_zero.mp fits,combs]
  | succ n ih =>
    cases c with
    | zero => simp [combs]
    | succ c =>
      obtain ⟨first,last⟩ := ih (Nat.le_of_succ_le_succ fits)
      rw [combs,Nat.add_sub_add_right,List.head?_append,List.getLast?_append,List.head?_map,List.getLast?_map,first,List.getLast?_map,last]
      by_cases full : c = n
      · simp [full,combs_none (lt_succ_self n),replicate_succ]
      · rw [(@ih (c+1) (by omega)).2,show n-c = n-(c+1)+1 by omega]
        simp [replicate_succ]
theorem combs_chain : (combs n c).IsChain NextSame := by
  induction n generalizing c with
  | zero => cases c <;> simp [combs]
  | succ n ih =>
    cases c with
    | zero => exact .singleton _
    | succ c =>
      rw [combs,List.isChain_append]
      refine ⟨List.isChain_map_of_isChain _ (fun _ _ next => next.cons true) ih,List.isChain_map_of_isChain _ (fun _ _ next => next.cons false) ih,?_⟩
      rintro x last y first
      by_cases full : n < c+1
      · rw [combs_none full] at first
        cases first
      · obtain ⟨head,-⟩ := @combs_ends n (c+1) (by omega)
        obtain ⟨-,tail⟩ := @combs_ends n c (by omega)
        rw [List.getLast?_map,tail,Option.mem_def,map_some,some_inj] at last
        rw [List.head?_map,head,Option.mem_def,map_some,some_inj] at first
        rw [← last,← first,show n-c = n-(c+1)+1 by omega]
        exact .moved [] (n-(c+1)) c

/-- All combinations, by their size. -/
def allCombs (n : Nat) : List (List Bool) := (List.range (n+1)).flatMap (combs n)
theorem sizes_chain (fits : c ≤ n) : ((List.range (c+1)).flatMap (combs n)).IsChain NextComb ∧
    ((List.range (c+1)).flatMap (combs n)).getLast? = some (falses (n-c) ++ trues c) := by
  induction c with
  | zero => simp [combs]
  | succ c ih =>
    obtain ⟨chain,last⟩ := ih (Nat.le_of_succ_le fits)
    obtain ⟨head,tail⟩ := combs_ends fits
    rw [List.range_succ,flatMap_append,flatMap_singleton,List.isChain_append,List.getLast?_append,tail,last,head]
    refine ⟨⟨chain,combs_chain.imp fun _ _ => next_same,?_⟩,rfl⟩
    rintro _ ⟨⟩ _ ⟨⟩
    exact next_size fits
/-- The code goes through a chain up to a combination that has no next one. -/
theorem argsCombs_chain (chain : (x :: xs).IsChain NextComb) (last : ∀ y ∈ (x :: xs).getLast?, get_next_args_comb y (y.count true) = some none)
    (enough : xs.length < turns) : argsCombs turns x (x.count true) = some ((x :: xs).map fun y => (y,y.count true)) := by
  induction xs generalizing x turns with
  | nil =>
    obtain ⟨turns,rfl⟩ := succ_of_lt enough
    rw [argsCombs,last x rfl]
    rfl
  | cons y xs ih =>
    obtain ⟨turns,rfl⟩ := succ_of_lt enough
    obtain ⟨next,chain⟩ := List.isChain_cons_cons.mp chain
    rw [argsCombs,next,bind_some]
    show (argsCombs turns y (y.count true)).map _ = _
    rw [ih chain last (lt_of_succ_lt_succ enough)]
    rfl

/-- Every combination of `n` arguments once, in order of size and with its count. -/
structure EnumeratedOnce (n : Nat) (run : List (List Bool × Nat)) : Prop where
  all : ∀ comb : List Bool, comb ∈ run.map Prod.fst ↔ comb.length = n
  once : (run.map Prod.fst).Nodup
  bySize : (run.map Prod.snd).Pairwise (· ≤ ·)
  counts : ∀ x ∈ run, x.2 = x.1.count true
/-- The combinations of any number of arguments are enumerated once, from the empty one on, in order of size, up to the return of `-1`. -/
theorem args_combs_once (n : Nat) : ∃ run, Settles (fun turns => argsCombs turns (falses n) 0) (some run) ∧ EnumeratedOnce n run := by
  obtain ⟨xs,whole⟩ : ∃ xs, allCombs n = falses n :: xs := ⟨_,by rw [allCombs,List.range_succ_eq_map,flatMap_cons,combs]; rfl⟩
  obtain ⟨chain,last⟩ := sizes_chain (le_refl n)
  rw [← allCombs,whole] at chain last
  have names : ((allCombs n).map fun y => (y,y.count true)).map Prod.fst = allCombs n := by simp [comp_def]
  refine ⟨(allCombs n).map fun y => (y,y.count true),⟨xs.length+1,fun turns enough => ?_⟩,⟨fun comb => ?_,?_,?_,?_⟩⟩
  · have none' : (falses n).count true = 0 := by simp [List.count_replicate]
    rw [whole,← argsCombs_chain chain ?_ enough,none']
    intro y member
    rw [last,Nat.sub_self] at member
    cases member
    simpa [List.count_replicate] using last_size
  · rw [names,allCombs,mem_flatMap]
    constructor
    · rintro ⟨c,-,member⟩
      exact (mem_combs.mp member).1
    · intro length
      refine ⟨comb.count true,mem_range.mpr (lt_succ_of_le ?_),mem_combs.mpr ⟨length,rfl⟩⟩
      exact length ▸ List.count_le_length
  · rw [names,allCombs,List.nodup_flatMap]
    refine ⟨fun c _ => combs_nodup,List.nodup_range.imp fun apart x first second => apart ?_⟩
    exact (mem_combs.mp first).2.symm.trans (mem_combs.mp second).2
  · rw [map_map,pairwise_map,allCombs,List.pairwise_flatMap]
    have sizes {c : Nat} : ∀ x ∈ combs n c, x.count true = c := fun x member => (mem_combs.mp member).2
    refine ⟨fun c _ => List.pairwise_of_forall_mem_list fun x first y second => ?_,List.pairwise_lt_range.imp fun below x first y second => ?_⟩
    · exact le_of_eq ((sizes x first).trans (sizes y second).symm)
    · show x.count true ≤ y.count true
      rw [sizes x first,sizes y second]
      exact le_of_lt below
  · intro x member
    obtain ⟨y,-,rfl⟩ := mem_map.mp member
    rfl
end
end TestEnvironment.Trc
