import TestEnvironment.Tools.Intset

/-!
Texts of sets of integers: which ranges a text names, what the parser makes of them, and that
the text of a set is read back as the set.
-/
namespace TestEnvironment.Tools.Intset
open Lib

/-- The ranges that a text names, its numbers being those that `strtol` reads. -/
inductive Ranges : CStr → List (Int × Int) → Prop
  | empty : Ranges [] []
  | item {text end_ : CStr} {n : Int} {rs : List (Int × Int)} (number : readNumber 0 text = some (n,end_)) (single : end_.head? ≠ some '-')
      (rest : Ranges (skipComma end_) rs) : Ranges text ((n,n) :: rs)
  | range {text end_ end' : CStr} {n m : Int} {rs : List (Int × Int)} (number : readNumber 0 text = some (n,end_))
      (dash : end_.head? = some '-') (number' : readNumber 0 (end_.drop 1) = some (m,end')) (rest : Ranges (skipComma end') rs) :
      Ranges text ((n,m) :: rs)
/-- Ranges that are not empty and lie between the bounds. -/
def Within (minval maxval : Int) (rs : List (Int × Int)) : Prop := ∀ r ∈ rs, minval ≤ r.1 ∧ r.1 ≤ r.2 ∧ r.2 ≤ maxval
/-- The union of ranges. -/
def unionOf (rs : List (Int × Int)) : Set Int := {i | ∃ r ∈ rs, r.1 ≤ i ∧ i ≤ r.2}
/-- The methods that keep nothing: a parser that is given them does its checks alone. -/
def checksOnly : IntsetOps Unit := ⟨id,fun _ _ => some (),fun _ _ => some false⟩

section
variable {σ : Type} {ops : IntsetOps σ} {minval maxval n : Int} {text end_ : CStr} {rs : List (Int × Int)} {val : σ} {fuel : Nat}

def setRanges (ops : IntsetOps σ) : List (Int × Int) → σ → Option σ
  | [], val => some val
  | r :: rs, val => (setLoop ops (r.2+1-r.1).toNat r.1 val).bind (setRanges ops rs)

theorem error_not_ok {ε α : Type} {rc : ε} {a : α} (same : (.error rc : Except ε α) = .ok a) : False := by cases same
theorem Within.cons_iff {r : Int × Int} :
    Within minval maxval (r :: rs) ↔ (minval ≤ r.1 ∧ r.1 ≤ r.2 ∧ r.2 ≤ maxval) ∧ Within minval maxval rs := forall_mem_cons
theorem skipComma_length (end_ : CStr) : (skipComma end_).length ≤ end_.length := by
  rw [skipComma]
  split_ifs
  · rw [length_drop]
    omega
  · exact le_rfl
theorem readNumber_nonempty (number : readNumber 0 text = some (n,end_)) : text ≠ [] := by
  rintro rfl
  exact Nat.not_lt_zero _ (readNumber_shorter number)
section
variable (ints : INT_MIN ≤ minval ∧ maxval ≤ INT_MAX)
include ints

/-- With bounds that an `int` holds, a number is taken where it is between them. -/
theorem strtoi_range_iff : te_strtoi_range_raw minval maxval text 0 = .ok (n,end_) ↔
    readNumber 0 text = some (n,end_) ∧ minval ≤ n ∧ n ≤ maxval := by
  have long : LONG_MIN ≤ INT_MIN ∧ INT_MAX ≤ LONG_MAX := by decide
  rw [te_strtoi_range_raw,te_strtol_raw]
  cases readNumber 0 text with
  | none => exact ⟨fun same => (error_not_ok same).elim,fun read => absurd read.1 (some_ne_none _).symm⟩
  | some read =>
    obtain ⟨m,endptr⟩ := read
    by_cases fits : LONG_MIN ≤ m ∧ m ≤ LONG_MAX
    · show (if LONG_MIN ≤ m ∧ m ≤ LONG_MAX then _ else _ : Except IntsetError (Int × CStr)) >>= _ = _ ↔ _
      rw [if_pos fits]
      show (if m < minval ∨ m > maxval then _ else _ : Except IntsetError (Int × CStr)) = _ ↔ _
      by_cases outside : m < minval ∨ m > maxval
      · grind
      · grind
    · show (if LONG_MIN ≤ m ∧ m ≤ LONG_MAX then _ else _ : Except IntsetError (Int × CStr)) >>= _ = _ ↔ _
      rw [if_neg fits]
      refine ⟨fun same => (error_not_ok same).elim,fun ⟨same,low,high⟩ => ?_⟩
      obtain ⟨rfl,rfl⟩ := of_pair same
      omega
/-- A text whose ranges lie between the bounds sets them one after another. -/
theorem parseLoop_ranges (denotes : Ranges text rs) (within : Within minval maxval rs) (enough : text.length < fuel) :
    parseLoop ops minval maxval fuel text val = (setRanges ops rs val).map fun val => (.ok (),val) := by
  induction denotes generalizing fuel val with
  | empty =>
    obtain ⟨fuel,rfl⟩ := exists_eq_add_one_of_ne_zero (show fuel ≠ 0 by omega)
    rw [parseLoop,if_pos rfl]
    rfl
  | @item text end_ n rs number single rest ih =>
    obtain ⟨fuel,rfl⟩ := exists_eq_add_one_of_ne_zero (show fuel ≠ 0 by omega)
    obtain ⟨here,others⟩ := Within.cons_iff.mp within
    have read := (strtoi_range_iff ints).mpr ⟨number,here.1,here.2.2⟩
    have shorter := readNumber_shorter number
    have skipped := skipComma_length end_
    have once : (n+1-n).toNat = 1 := by omega
    rw [parseLoop,if_neg (readNumber_nonempty number),read]
    simp only [if_neg single,setRanges,once,setLoop,Option.bind_fun_some]
    cases ops.set n val with
    | none => rfl
    | some val => exact ih others (by omega)
  | @range text end_ end' n m rs number dash number' rest ih =>
    obtain ⟨fuel,rfl⟩ := exists_eq_add_one_of_ne_zero (show fuel ≠ 0 by omega)
    obtain ⟨⟨low,order,high⟩,others⟩ := Within.cons_iff.mp within
    dsimp only at low order high
    have read := (strtoi_range_iff ints).mpr ⟨number,low,by omega⟩
    have read' := (strtoi_range_iff ints).mpr ⟨number',by omega,high⟩
    have shorter := readNumber_shorter number
    have shorter' := readNumber_shorter number'
    rw [length_drop] at shorter'
    have skipped := skipComma_length end'
    rw [parseLoop,if_neg (readNumber_nonempty number),read]
    simp only [if_pos dash,read',if_neg (show ¬ m < n by omega),setRanges]
    cases setLoop ops (m+1-n).toNat n val with
    | none => rfl
    | some val => exact ih others (by omega)
/-- A text that passes the checks names ranges between the bounds. -/
theorem accepted_ranges (accepted : parseLoop checksOnly minval maxval fuel text () = some (.ok (),())) (enough : text.length < fuel) :
    ∃ rs, Ranges text rs ∧ Within minval maxval rs := by
  induction fuel generalizing text with
  | zero => omega
  | succ fuel ih =>
    rw [parseLoop] at accepted
    by_cases empty : text = []
    · exact ⟨[],empty ▸ .empty,fun _ member => absurd member not_mem_nil⟩
    · rw [if_neg empty] at accepted
      generalize read : te_strtoi_range_raw minval maxval text 0 = first at accepted
      obtain rc | ⟨n,end_⟩ := first
      · exact (error_not_ok (congrArg Prod.fst (some.inj accepted))).elim
      · obtain ⟨number,low,high⟩ := (strtoi_range_iff ints).mp read
        have shorter := readNumber_shorter number
        by_cases dash : end_.head? = some '-'
        · simp only [if_pos dash] at accepted
          generalize read' : te_strtoi_range_raw minval maxval (end_.drop 1) 0 = second at accepted
          obtain rc | ⟨m,end'⟩ := second
          · exact (error_not_ok (congrArg Prod.fst (some.inj accepted))).elim
          · obtain ⟨number',low',high'⟩ := (strtoi_range_iff ints).mp read'
            have shorter' := readNumber_shorter number'
            rw [length_drop] at shorter'
            have skipped := skipComma_length end'
            by_cases order : m < n
            · grind
            · simp only [if_neg order] at accepted
              obtain ⟨⟨⟩,-,accepted⟩ := of_bind accepted
              obtain ⟨rs,denotes,within⟩ := ih accepted (by omega)
              exact ⟨_,.range number dash number' denotes,Within.cons_iff.mpr ⟨⟨low,by dsimp only; omega,high'⟩,within⟩⟩
        · simp only [if_neg dash] at accepted
          have skipped := skipComma_length end_
          obtain ⟨⟨⟩,-,accepted⟩ := of_bind accepted
          obtain ⟨rs,denotes,within⟩ := ih accepted (by omega)
          exact ⟨_,.item number dash denotes,Within.cons_iff.mpr ⟨⟨low,le_refl n,high⟩,within⟩⟩
end
theorem setLoop_checks (n : Nat) (i : Int) : setLoop checksOnly n i () = some () := by
  induction n generalizing i with
  | zero => rfl
  | succ n ih => exact ih (i+1)
theorem setRanges_checks (rs : List (Int × Int)) : setRanges checksOnly rs () = some () := by
  induction rs with
  | nil => rfl
  | cons r rs ih =>
    rw [setRanges,setLoop_checks]
    exact ih
end

section
variable {σ : Type} {ops : IntsetOps σ} {size : Int} {valid : σ → Prop} {items : σ → Set Int} {val : σ} {rs : List (Int × Int)}

theorem unionOf_cons (r : Int × Int) (rs : List (Int × Int)) : unionOf (r :: rs) = {i | r.1 ≤ i ∧ i ≤ r.2} ∪ unionOf rs := by
  ext i
  simp [unionOf]
theorem unionOf_append (rs others : List (Int × Int)) : unionOf (rs ++ others) = unionOf rs ∪ unionOf others := by
  ext i
  simp only [unionOf,mem_append,Set.mem_union,Set.mem_ofPred_eq,or_and_right,exists_or]
variable (lawful : Lawful ops size valid items)
include lawful

theorem setLoop_items {n : Nat} {first : Int} (ok : valid val) (low : 0 ≤ first) (high : first+n ≤ size) :
    ∃ val', setLoop ops n first val = some val' ∧ valid val' ∧ items val' = items val ∪ {i | first ≤ i ∧ i < first+n} := by
  induction n generalizing first val with
  | zero =>
    refine ⟨val,rfl,ok,Set.ext fun i => ⟨.inl,?_⟩⟩
    rintro (old | ⟨above,below⟩)
    · exact old
    · omega
  | succ n ih =>
    rw [Nat.cast_succ] at high
    obtain ⟨val1,set,ok1,items1⟩ := lawful.set val first ok low (by omega)
    obtain ⟨val',loop,ok',items'⟩ := ih ok1 (show 0 ≤ first+1 by omega) (by omega)
    refine ⟨val',by rw [setLoop,set]; exact loop,ok',?_⟩
    rw [items',items1]
    ext i
    simp only [Set.mem_union,Set.mem_insert_iff,Set.mem_ofPred_eq,Nat.cast_succ]
    constructor
    · grind
    · grind
/-- Ranges for which the set has a place are added to it. -/
theorem setRanges_items (within : Within 0 (size-1) rs) (ok : valid val) :
    ∃ val', setRanges ops rs val = some val' ∧ valid val' ∧ items val' = items val ∪ unionOf rs := by
  induction rs generalizing val with
  | nil => exact ⟨val,rfl,ok,by simp [unionOf]⟩
  | cons r rs ih =>
    obtain ⟨⟨low,order,high⟩,others⟩ := Within.cons_iff.mp within
    obtain ⟨val1,loop,ok1,items1⟩ := setLoop_items lawful (n := (r.2+1-r.1).toNat) ok low (by omega)
    obtain ⟨val',set,ok',items'⟩ := ih others ok1
    refine ⟨val',by rw [setRanges,loop]; exact set,ok',?_⟩
    rw [items',items1,unionOf_cons,Set.union_assoc]
    congr 2
    ext i
    simp only [Set.mem_ofPred_eq]
    omega
omit lawful in
/-- A descriptor that has no place in the set is set all the same. -/
theorem fdset_beyond {rs : List (Int × Int)} {val : FdSet} (within : Within 0 FD_SETSIZE rs) (beyond : ∃ r ∈ rs, r.2 = FD_SETSIZE) :
    setRanges te_fdset_intset rs val = none := by
  have outside : ∀ val, te_fdset_intset.set FD_SETSIZE val = none := fun val => by
    show (if FD_SETSIZE < 0 then none else val.setBit FD_SETSIZE.toNat) = none
    rw [if_neg (by decide),Words.setBit_beyond (by decide) (by decide)]
  have loop : ∀ (n : Nat) (first : Int) (val : FdSet), first ≤ FD_SETSIZE → FD_SETSIZE < first+n →
      setLoop te_fdset_intset n first val = none := by
    intro n
    induction n with
    | zero => omega
    | succ n ih =>
      intro first val low high
      rw [Nat.cast_succ] at high
      rw [setLoop]
      obtain rfl | below := eq_or_lt_of_le low
      · rw [outside,bind_none]
      · cases te_fdset_intset.set first val with
        | none => rfl
        | some val => exact ih (first+1) val (by omega) (by omega)
  induction rs generalizing val with
  | nil => exact absurd beyond (by simp)
  | cons r rs ih =>
    obtain ⟨⟨low,order,high⟩,others⟩ := Within.cons_iff.mp within
    rw [setRanges]
    by_cases here : r.2 = FD_SETSIZE
    · rw [loop _ _ _ (by omega) (by omega),bind_none]
    · have later : ∃ r ∈ rs, r.2 = FD_SETSIZE := by grind
      cases setLoop te_fdset_intset (r.2+1-r.1).toNat r.1 val with
      | none => rfl
      | some val => exact ih others later
end

section
variable {σ : Type} {ops : IntsetOps σ} {size lo hi : Int} {valid : σ → Prop} {items : σ → Set Int} {val : σ} {rs : List (Int × Int)}

def rangeText (r : Int × Int) : CStr := if r.1 = r.2 then intText r.1 else intText r.1 ++ '-' :: intText r.2
/-- The text of ranges, as the loop makes it. -/
def rangesText (rs : List (Int × Int)) : CStr := rs.foldl (fun str r => int_range2string str r.1 r.2) []

theorem intText_nonempty (z : Int) : intText z ≠ [] := by
  rw [intText]
  split_ifs
  · exact cons_ne_nil _ _
  · exact natText_nonempty _
theorem rangeText_nonempty (r : Int × Int) : rangeText r ≠ [] := by
  rw [rangeText]
  split_ifs
  · exact intText_nonempty _
  · simp
/-- Behind the first range every range follows a comma. -/
theorem foldl_ranges {str : CStr} (some' : str ≠ []) (rs : List (Int × Int)) :
    rs.foldl (fun str r => int_range2string str r.1 r.2) str = str ++ rs.flatMap fun r => ',' :: rangeText r := by
  induction rs generalizing str with
  | nil => simp
  | cons r rs ih => simp_all [List.length_pos_of_ne_nil,int_range2string,rangeText]
theorem rangesText_cons (r : Int × Int) (rs : List (Int × Int)) :
    rangesText (r :: rs) = rangeText r ++ rs.flatMap fun r => ',' :: rangeText r := by
  have first : int_range2string [] r.1 r.2 = rangeText r := rfl
  rw [rangesText,foldl_cons,first,foldl_ranges (rangeText_nonempty r)]
/-- The text of ranges names these ranges. -/
theorem rangesText_ranges (rs : List (Int × Int)) : Ranges (rangesText rs) rs := by
  cases rs with
  | nil => exact .empty
  | cons r rs =>
    rw [rangesText_cons]
    induction rs generalizing r with
    | nil =>
      rw [List.flatMap_nil,append_nil,rangeText]
      split_ifs with same
      · obtain ⟨a,b⟩ := r
        obtain rfl : a = b := same
        have number := @readNumber_intText [] a (by simp)
        rw [append_nil] at number
        exact .item number (by simp) .empty
      · have number := @readNumber_intText ('-' :: intText r.2) r.1 (by simp; decide)
        have number' := @readNumber_intText [] r.2 (by simp)
        rw [append_nil] at number'
        exact .range number rfl number' .empty
    | cons next rs ih =>
      have later := ih next
      rw [flatMap_cons,cons_append]
      generalize (rangeText next ++ rs.flatMap fun r => ',' :: rangeText r) = text at later
      rw [rangeText]
      split_ifs with same
      · obtain ⟨a,b⟩ := r
        obtain rfl : a = b := same
        exact .item (readNumber_intText a (by simp; decide)) (by simp) later
      · have number := @readNumber_intText ('-' :: (intText r.2 ++ ',' :: text)) r.1 (by simp; decide)
        have number' := @readNumber_intText (',' :: text) r.2 (by simp; decide)
        rw [append_assoc]
        exact .range number rfl number' later

theorem toInt_int {z : Int} (low : INT_MIN ≤ z) (high : z ≤ INT_MAX) : toInt z = z := by
  rw [INT_MIN] at low
  rw [INT_MAX] at high
  exact Int.bmod_eq_of_le (by omega) (by omega)
theorem rangesText_snoc (rs : List (Int × Int)) (a b : Int) : rangesText (rs ++ [(a,b)]) = int_range2string (rangesText rs) a b := by
  rw [rangesText,foldl_append]
  rfl
theorem Within.snoc {a b : Int} (within : Within lo hi rs) (low : lo ≤ a) (order : a ≤ b) (high : b ≤ hi) : Within lo hi (rs ++ [(a,b)]) :=
  List.forall_mem_append.mpr ⟨within,forall_mem_singleton.mpr ⟨low,order,high⟩⟩
theorem unionOf_snoc (rs : List (Int × Int)) (a b : Int) : unionOf (rs ++ [(a,b)]) = unionOf rs ∪ {i | a ≤ i ∧ i ≤ b} := by
  rw [unionOf_append,unionOf_cons]
  simp [unionOf]
/-- A run that has ended is the last of the ranges. -/
theorem closed_run {range : Nat} {i : Int} {s : Set Int} (behind : lo+range ≤ i) (run : ∀ j, i-range ≤ j → j < i → j ∈ s)
    (done : unionOf rs = {j | j ∈ s ∧ lo ≤ j ∧ j < i-range}) :
    unionOf (rs ++ [(i-range,i-1)]) = {j | j ∈ s ∧ lo ≤ j ∧ j < i} := by
  ext j
  rw [unionOf_snoc,done]
  simp only [Set.mem_union,Set.mem_ofPred_eq]
  constructor
  · grind
  · grind
/-- The loop writes ranges whose union is the set: those of the runs that have ended, while the
run that is counted reaches up to `i`. -/
theorem stringLoop_ranges (lawful : Lawful ops size valid items) (low : 0 ≤ lo) (high : hi < size) (short : hi < INT_MAX)
    {n range : Nat} {i : Int} (turns : i+n = hi+1) (behind : lo+range ≤ i) (run : ∀ j, i-range ≤ j → j < i → j ∈ items val)
    (within : Within lo hi rs) (done : unionOf rs = {j | j ∈ items val ∧ lo ≤ j ∧ j < i-range}) :
    ∃ rs', stringLoop ops hi val n i range (rangesText rs) = some (rangesText rs') ∧ Within lo hi rs' ∧
      unionOf rs' = {j | j ∈ items val ∧ lo ≤ j ∧ j < hi+1} := by
  have least : INT_MIN ≤ 0 := by decide
  have greatest : INT_MAX < 2^32 := by decide
  induction n generalizing i range rs with
  | zero =>
    obtain rfl : i = hi+1 := by rw [← turns,Nat.cast_zero,Int.add_zero]
    rw [stringLoop]
    by_cases counted : range > 0
    · have first : hi-range+1 = hi+1-range := by omega
      have last : hi+1-1 = hi := by omega
      rw [if_pos counted,toInt_int (by omega) (by omega),← rangesText_snoc,first]
      have ended := closed_run behind run done
      rw [last] at ended
      exact ⟨_,rfl,within.snoc (by omega) (by omega) (le_refl hi),ended⟩
    · grind
  | succ n ih =>
    rw [Nat.cast_succ] at turns
    obtain ⟨found,check,item⟩ := lawful.check val i (by omega) (by omega)
    rw [stringLoop,check,bind_some]
    cases found with
    | true =>
      -- the run grows
      have grown : (range+1)%2^32 = range+1 := mod_eq_of_lt (by omega)
      have place : (i+1)-((range+1 : Nat) : Int) = i-range := by omega
      rw [if_pos rfl,grown]
      refine ih (by omega) (by omega) (fun j above below => ?_) within (by rw [place]; exact done)
      by_cases last : j = i
      · exact last ▸ item.mp rfl
      · exact run j (by omega) (by omega)
    | false =>
      -- no item at `i`, so what is below `i` is below `i+1` too
      have same : {j | j ∈ items val ∧ lo ≤ j ∧ j < i} = {j | j ∈ items val ∧ lo ≤ j ∧ j < i+1-((0 : Nat) : Int)} := by grind
      have nobody : ∀ j, i+1-((0 : Nat) : Int) ≤ j → j < i+1 → j ∈ items val := fun j above below => by omega
      rw [if_neg Bool.false_ne_true]
      by_cases counted : range > 0
      · rw [if_pos counted,toInt_int (by omega) (by omega),← rangesText_snoc]
        exact ih (by omega) (by omega) nobody (within.snoc (by omega) (by omega) (by omega)) ((closed_run behind run done).trans same)
      · obtain rfl : range = 0 := by omega
        rw [Nat.cast_zero,Int.sub_zero] at done
        rw [if_neg counted]
        exact ih (by omega) (by omega) nobody within (done.trans same)
end

section
/-- The parser accepts a text: its checks pass. -/
def Accepts (minval maxval : Int) (text : CStr) : Prop := te_intset_generic_parse checksOnly minval maxval text () = some (.ok (),())
theorem accepts_iff {minval maxval : Int} {text : CStr} (ints : INT_MIN ≤ minval ∧ maxval ≤ INT_MAX) :
    Accepts minval maxval text ↔ ∃ rs, Ranges text rs ∧ Within minval maxval rs := by
  constructor
  · exact fun accepted => accepted_ranges ints accepted (lt_succ_self _)
  · rintro ⟨rs,denotes,within⟩
    rw [Accepts,te_intset_generic_parse,parseLoop_ranges ints denotes within (lt_succ_self _)]
    show (setRanges checksOnly rs ()).map _ = _
    rw [setRanges_checks]
    rfl
theorem ranges_unique {text : CStr} {rs rs' : List (Int × Int)} (denotes : Ranges text rs) (denotes' : Ranges text rs') : rs = rs' := by
  induction denotes generalizing rs' with
  | empty =>
    cases denotes' with
    | empty => rfl
    | item number | range number => exact absurd rfl (readNumber_nonempty number)
  | item number single rest ih =>
    cases denotes' with
    | empty => exact absurd rfl (readNumber_nonempty number)
    | item number' single' rest' => grind
    | range number' dash => grind
  | range number dash last rest ih =>
    cases denotes' with
    | empty => exact absurd rfl (readNumber_nonempty number)
    | item number' single => grind
    | range number' dash' last' rest' => grind
/-- Within bounds of its type, the text of a set is read back as this set, whatever was there before. -/
def RoundTrips (t : IntsetType) : Prop :=
  ∀ (lo hi minval maxval : Int) (val old : t.Val), t.Valid val → (∀ v ∈ t.items val, lo ≤ v ∧ v ≤ hi) → 0 ≤ lo → hi < t.size →
    INT_MIN ≤ minval → minval ≤ lo → hi ≤ maxval → maxval ≤ INT_MAX →
    ∃ text, te_intset_generic2string t.ops lo hi val = some text ∧
      te_intset_generic_parse t.ops minval maxval text old = some (.ok (),val)
/-- The parser of a type makes of a text that it accepts the union of its ranges, and stores nothing outside
of the set. -/
def ReadsRight (t : IntsetType) (text : CStr) : Prop :=
  ∀ rs, Ranges text rs → Accepts 0 t.maxval text → ∀ old, ∃ val, t.parse text old = some (.ok (),val) ∧ t.Valid val ∧
    t.items val = unionOf rs
/-- A text of descriptors that the parser accepts has a range that ends with `FD_SETSIZE`. -/
def NamesBeyond (t : IntsetType) (text : CStr) : Prop :=
  t = .fdset ∧ ∃ rs, Ranges text rs ∧ Within 0 FD_SETSIZE rs ∧ ∃ r ∈ rs, r.2 = FD_SETSIZE

theorem type_ints (t : IntsetType) : INT_MIN ≤ 0 ∧ t.maxval ≤ INT_MAX ∧ t.size ≤ INT_MAX := by
  cases t <;> decide
theorem type_parse (t : IntsetType) (text : CStr) (old : t.Val) : t.parse text old = te_intset_generic_parse t.ops 0 t.maxval text old := by
  cases t <;> rfl
theorem type_maxval (t : IntsetType) : t.maxval = if t = .fdset then t.size else t.size-1 := by
  cases t <;> decide
theorem type_roundTrips (t : IntsetType) : RoundTrips t := by
  intro lo hi minval maxval val old ok between low high ints below above ints'
  obtain ⟨-,-,short⟩ := type_ints t
  have lawful := type_lawful t
  have only : t.items val = {j | j ∈ t.items val ∧ lo ≤ j ∧ j < hi+1} := Set.ext fun j =>
    ⟨fun member => ⟨member,(between j member).1,by have := (between j member).2; omega⟩,fun member => member.1⟩
  -- whether the set has a place between the bounds at all
  obtain ⟨rs,text,within,union⟩ : ∃ rs, te_intset_generic2string t.ops lo hi val = some (rangesText rs) ∧ Within lo hi rs ∧
      unionOf rs = t.items val := by
    rw [te_intset_generic2string,if_neg (by omega)]
    by_cases order : lo ≤ hi+1
    · obtain ⟨rs,text,within,union⟩ := @stringLoop_ranges _ t.ops t.size lo hi t.Valid t.items val [] lawful low high (by omega)
        (hi+1-lo).toNat 0 lo (by omega) (by simp) (fun j above below => by rw [Nat.cast_zero] at above; omega)
        (fun _ member => absurd member not_mem_nil) (by ext j; simp [unionOf]; omega)
      exact ⟨rs,text,within,union.trans only.symm⟩
    · have turns : (hi+1-lo).toNat = 0 := by omega
      refine ⟨[],by rw [turns]; rfl,fun _ member => absurd member not_mem_nil,?_⟩
      ext j
      rw [only]
      simp [unionOf]
      omega
  obtain ⟨ok',empty⟩ := lawful.clear old
  have inside : Within 0 (t.size-1) rs := fun r member => by
    have := within r member
    omega
  have bounds : Within minval maxval rs := fun r member => by
    have := within r member
    omega
  obtain ⟨val',set,valid',items'⟩ := setRanges_items lawful inside ok'
  have same : val' = val := lawful.ext val' val valid' ok (by rw [items',empty,Set.empty_union,union])
  refine ⟨_,text,?_⟩
  rw [te_intset_generic_parse,parseLoop_ranges ⟨ints,ints'⟩ (rangesText_ranges rs) bounds (lt_succ_self _),set,same]
  rfl
theorem type_readsRight (t : IntsetType) (text : CStr) : ReadsRight t text ↔ ¬ NamesBeyond t text := by
  obtain ⟨least,greatest,-⟩ := type_ints t
  have lawful := type_lawful t
  constructor
  · rintro right ⟨rfl,rs,denotes,within,beyond⟩
    have accepted : Accepts 0 IntsetType.fdset.maxval text := (accepts_iff ⟨least,greatest⟩).mpr ⟨rs,denotes,within⟩
    suffices lost : ∀ old : IntsetType.fdset.Val, False from lost (zeroWords 64 16)
    intro old
    obtain ⟨val,parse,-⟩ := right rs denotes accepted old
    have undefined' : setRanges IntsetType.fdset.ops rs (IntsetType.fdset.ops.clear old) = none := fdset_beyond within beyond
    rw [type_parse,te_intset_generic_parse,parseLoop_ranges ⟨least,greatest⟩ denotes within (lt_succ_self _),undefined'] at parse
    exact absurd parse (some_ne_none _).symm
  · intro proper rs denotes accepted old
    obtain ⟨rs',denotes',within⟩ := (accepts_iff ⟨least,greatest⟩).mp accepted
    obtain rfl := ranges_unique denotes denotes'
    have inside : Within 0 (t.size-1) rs := fun r member => by
      obtain ⟨low,order,high⟩ := within r member
      rw [type_maxval] at high
      by_cases fd : t = .fdset
      · have last : r.2 ≠ FD_SETSIZE := fun last => proper ⟨fd,rs,denotes,by rw [fd] at within; exact within,r,member,last⟩
        rw [if_pos fd] at high
        have size : t.size = FD_SETSIZE := by rw [fd]; rfl
        omega
      · rw [if_neg fd] at high
        exact ⟨low,order,high⟩
    obtain ⟨ok',empty⟩ := lawful.clear old
    obtain ⟨val,set,valid,items⟩ := setRanges_items lawful inside ok'
    refine ⟨val,?_,valid,by rw [items,empty,Set.empty_union]⟩
    rw [type_parse,te_intset_generic_parse,parseLoop_ranges ⟨least,greatest⟩ denotes within (lt_succ_self _),set]
    rfl
/-- Sets survive their texts, and what the parser of a type accepts it reads right unless it is a text of
descriptors with a range that ends with `FD_SETSIZE`. -/
theorem intset_texts (t : IntsetType) (text : CStr) : RoundTrips t ∧ (ReadsRight t text ↔ ¬ NamesBeyond t text) :=
  ⟨type_roundTrips t,type_readsRight t text⟩
/-- The number of the descriptors that a set has room for is stored behind the set. -/
theorem fd_setsize_text : ¬ ReadsRight .fdset "1024".toList := by
  have number : readNumber 0 "1024".toList = some (1024,[]) := by decide
  have denotes : Ranges "1024".toList [(1024,1024)] := .item number (by decide) (show Ranges (skipComma []) [] from .empty)
  have within : Within 0 FD_SETSIZE [(1024,1024)] := forall_mem_singleton.mpr (by decide)
  exact fun right => (type_readsRight .fdset _).mp right ⟨rfl,_,denotes,within,_,mem_singleton_self _,rfl⟩
end
end TestEnvironment.Tools.Intset
