import TestEnvironment.Tester.Counting

/-!
The iterations of a run item and the combinations of its values. An iteration
is decoded (`run_prepare_arg_cb`) with the numbers of values counted when they
were read; where these are the numbers of singletons, the iterations are the
combinations of one singleton for each argument outside lists and one position
for each list.
-/
namespace TestEnvironment.Tester
open Lib

section
variable (objs : TesterObjects) (fuel : Nat)

/-- The length of a list: the largest number of singletons of an argument in it. -/
def listLen (ri : RunItem) (name : CStr) : Nat := (longest (valueCount objs fuel ri) (ri.enumerated objs) name).getD 0
/-- The number of positions of an argument. -/
def choices (ri : RunItem) (va : TestVarArg) : Nat :=
  match va.list with
  | none => valueCount objs fuel ri va
  | some name => listLen objs fuel ri name
/-- A position for each argument, a common one for the arguments of each list. -/
def Combination (ri : RunItem) (positions : List Nat) : Prop :=
  ∃ common : CStr → Nat, List.Forall₂ (Fits common) ((ri.enumerated objs).map fun va => (va.list,choices objs fuel ri va)) positions

/-- The value for the positions behind the values of an argument in a list. -/
def lastValue (va : TestVarArg) : Option Ref := va.preferred.or ((test_var_arg_values objs va).bind fun values => values.head.head?)
/-- The value of an argument at a position. -/
def valueAt (ri : RunItem) (va : TestVarArg) (position : Nat) : Option Ref :=
  match singletons objs fuel ri va with
  | some (_,l) => if position < l.length then l[position]? else (lastValue objs va).bind (followRef objs fuel)
  | none => none
/-- The argument as an iteration gets it from a position. -/
def Assigned (ctx_args : List TestIterArg) (ri : RunItem) (va : TestVarArg) (position : Nat) (arg : TestIterArg) : Prop :=
  arg.name = va.name ∧ ∃ value text, valueAt objs fuel ri va position = some value ∧
    run_get_value objs fuel value ctx_args = some text ∧ arg.value = text.getD failedValue

/-- The iterations of a run item are its combinations: `run_prepare_args` fails in no
    assertion, gives the values of a combination, and each combination once. -/
structure EnumeratesOnce (ctx_args : List TestIterArg) (ri : RunItem) : Prop where
  runs : ∀ i < ri.n_iters, ∃ rc args positions, run_prepare_args objs fuel ctx_args ri i = some (rc,args) ∧
    ri.indices objs i = some positions ∧ Combination objs fuel ri positions ∧
    List.Forall₂ (fun va out => Assigned objs fuel ctx_args ri va out.1 out.2) (ri.enumerated objs) (positions.zip args) ∧
    args.length = positions.length
  onto : ∀ positions, Combination objs fuel ri positions → ∃ i < ri.n_iters, ri.indices objs i = some positions
  once : ∀ i j, i < ri.n_iters → j < ri.n_iters → ri.indices objs i = ri.indices objs j → i = j

/-- References lead from the value to a plain or an external one. -/
inductive Leads (objs : TesterObjects) : Ref → Prop
  | single {v : Ref} (last : (objs.value v).ref = none) (given : (objs.value v).plain ≠ none ∨ (objs.value v).ext ≠ none) : Leads objs v
  | ref {v r : Ref} (isRef : (objs.value v).ref = some r) (leads : Leads objs r) : Leads objs v
/-- The numbers of values counted at parsing are those of the singletons, and the lists of
    an item that is prepared several times have length 1. -/
structure CountedRight (times : Nat) (ri : RunItem) : Prop where
  outside : ∀ va ∈ ri.enumerated objs, va.list = none →
    (test_var_arg_values objs va).map EntityValues.num = some (valueCount objs fuel ri va)
  inside : ∀ va ∈ ri.enumerated objs, va.list ≠ none → valueCount objs fuel ri va < UINT_MOD
  behind : ∀ va ∈ ri.enumerated objs, ∀ name, va.list = some name → valueCount objs fuel ri va < listLen objs fuel ri name →
    ∃ value, lastValue objs va = some value ∧ Leads objs value
  again : 1 < times → ∀ va ∈ ri.enumerated objs, va.list ≠ none → valueCount objs fuel ri va = 1
end

variable {p : Nat} {σ : Type}

section
variable {objs : TesterObjects}

/-- The number that the index of an argument is divided by. -/
def radixOf (objs : TesterObjects) (ri : RunItem) (va : TestVarArg) : Option Nat :=
  match va.list with
  | none => (test_var_arg_values objs va).map EntityValues.num
  | some name => lengthOf ri.lists name

variable {data : RunPrepareArgCbData}

theorem argIndex_known {ri : RunItem} {va : TestVarArg} (read : radixOf objs ri va ≠ none)
    (known : known? data.lists va.list = some p) : argIndex objs ri va data = some (p,data) := by
  unfold argIndex
  cases isList : va.list with
  | none => rw [isList] at known; cases known
  | some name =>
    rw [isList] at known
    simp only [radixOf,isList] at read
    obtain ⟨list,isFound⟩ := ne_none_iff_exists'.mp read
    obtain ⟨list,found,-⟩ := of_map isFound
    obtain ⟨entry,isEntry,rfl⟩ := of_map known
    simp [found,isEntry]
theorem argIndex_new {ri : RunItem} {va : TestVarArg} {r : Nat} (read : radixOf objs ri va = some r)
    (new : known? data.lists va.list = none) : argIndex objs ri va data =
      if r = 0 ∨ data.n_iters%r ≠ 0 ∨ data.n_iters/r = 0 then none
      else some (data.i_iter/(data.n_iters/r),{data with
        n_iters := data.n_iters/r
        i_iter := data.i_iter%(data.n_iters/r)
        lists := learn va.list (data.i_iter/(data.n_iters/r)) data.lists}) := by
  unfold argIndex
  cases isList : va.list with
  | none =>
    simp only [radixOf,isList] at read
    simp [read,learn]
  | some name =>
    rw [isList] at new
    simp only [radixOf,isList] at read
    obtain ⟨list,found,rfl⟩ := of_map read
    have isName : list.name = name := by simpa using find?_some found
    have unknown : data.lists.find? (fun list => decide (list.1 = name)) = none := Option.map_eq_none_iff.mp new
    simp [found,unknown,isName,learn]
/-- The indices of the values are the digits of the iteration. -/
theorem chosen_digits {ri : RunItem} {radix : TestVarArg → Nat} {args : List TestVarArg}
    (read : ∀ va ∈ args, radixOf objs ri va = some (radix va)) :
    chosen objs ri args data = digits (args.map fun va => (va.list,radix va)) data.lists data.n_iters data.i_iter := by
  induction args generalizing data with
  | nil => rfl
  | cons va rest ih =>
    have first := read va mem_cons_self
    rw [chosen,map_cons,digits]
    cases known : known? data.lists va.list with
    | some p => simp_all [argIndex_known,Option.map_eq_bind]
    | none =>
      rw [argIndex_new first known]
      simp only []
      split
      · rfl
      · grind [Option.map_eq_bind]
end

section
variable {objs : TesterObjects} {fuel : Nat} {ri : RunItem} {va : TestVarArg} {l : List Ref}

theorem get_value_found (single : singletons objs fuel ri va = some (none,l)) (proper : ∀ v ∈ l, Singleton objs v) {index : Nat}
    (less : index < l.length) : test_var_arg_get_value objs fuel ri va index = some (none,some l[index]) := by
  have visits := singletons_visits single (test_var_arg_get_plain_value_cb index) (0,none)
  rw [visit_get (Nat.zero_le index),Nat.sub_zero,getElem?_eq_getElem less] at visits
  have enum : test_var_arg_enum_values objs (test_var_arg_get_plain_value_cb index) fuel (some ri) va (0,none) =
      some (some .EEXIST,index,some l[index]) := visits
  have given : ¬((objs.value l[index]).plain = none ∧ (objs.value l[index]).ext = none) := by
    rintro ⟨noPlain,noExt⟩
    rcases proper _ (List.getElem_mem less) with plain | ⟨-,ext⟩
    · exact plain noPlain
    · exact ext noExt
  rw [test_var_arg_get_value,enum]
  simp [given]
/-- Behind its singletons an argument in a list gets the preferred or the first value. -/
theorem get_value_behind (single : singletons objs fuel ri va = some (none,l)) {index len : Nat} {name : CStr} {values : EntityValues}
    (le : l.length ≤ index) (isList : va.list = some name) (found : lengthOf ri.lists name = some len) (less : index < len)
    (isValues : test_var_arg_values objs va = some values) (small : values.num ≤ l.length) :
    test_var_arg_get_value objs fuel ri va index = ((lastValue objs va).bind (followRef objs fuel)).map fun value => (none,some value) := by
  have visits := singletons_visits single (test_var_arg_get_plain_value_cb index) (0,none)
  rw [visit_get (Nat.zero_le index),Nat.sub_zero,getElem?_eq_none le] at visits
  have enum : test_var_arg_enum_values objs (test_var_arg_get_plain_value_cb index) fuel (some ri) va (0,none) =
      some (none,0+l.length,none) := visits
  have some' : ¬(va.list = none ∨ index < values.num) := by
    rintro (free | inside)
    · simp [free] at isList
    · omega
  rw [test_var_arg_get_value,enum]
  simp only [bind_eq_bind,bind_some]
  rw [if_neg (by simp),if_neg (by simp),isValues,isList]
  have len' : (ri.lists.find? fun list => list.name = name).map VarArgList.len = some len := found
  rw [isList] at some'
  simp only [bind_some,len',if_neg (Nat.not_le_of_gt less),if_neg some']
  rw [lastValue,isValues]
  cases va.preferred with
  | some preferred =>
    simp only [bind_some,some_or]
    cases followRef objs fuel preferred <;> rfl
  | none =>
    simp only [bind_some,Option.none_or]
    cases values.head.head? with
    | none => rfl
    | some value =>
      simp only [bind_some]
      cases followRef objs fuel value <;> rfl

theorem followRef_single {value last : Ref} (got : followRef objs fuel value = some last) :
    (objs.value last).ref = none ∧ ((objs.value last).plain ≠ none ∨ (objs.value last).ext ≠ none) := by
  induction fuel generalizing value with
  | zero => cases got
  | succ fuel ih =>
    rw [followRef] at got
    split at got
    · cases got
    · grind
theorem followRef_leads {value last : Ref} (got : followRef objs fuel value = some last) : Leads objs value := by
  induction fuel generalizing value with
  | zero => cases got
  | succ fuel ih =>
    cases isRef : (objs.value value).ref with
    | some ref =>
      rw [followRef] at got
      split at got
      · cases got
      · exact .ref isRef (ih (by simpa [isRef] using got))
    | none =>
      have same : value = last := by grind [followRef]
      have single := followRef_single got
      rw [← same] at single
      exact .single isRef single.2
/-- A value that leads to a plain or external one is followed within the depth of its
    enumeration. -/
theorem leads_followRef {callback : Ref → σ → Status × σ} {item : Option RunItem} {context : Option Ref} {value : Ref} {s : σ} {out : Status × σ}
    (leads : Leads objs value) (exclusive : ∀ v, (objs.value v).plain ≠ none → (objs.value v).ref = none)
    (got : test_entity_value_enum_values objs callback fuel item context value s = some out) : ∃ last, followRef objs fuel value = some last := by
  induction leads generalizing fuel context with
  | @single v last given =>
    cases fuel with
    | zero => cases got
    | succ fuel =>
      have some' : ¬((objs.value v).plain = none ∧ (objs.value v).ref = none ∧ (objs.value v).ext = none) := by grind
      exact ⟨v,by rw [followRef,if_neg some',last]⟩
  | @ref v r isRef leads ih =>
    cases fuel with
    | zero => cases got
    | succ fuel =>
      have noPlain : (objs.value v).plain = none := by
        by_contra plain
        simp [exclusive v plain] at isRef
      rw [test_entity_value_enum_values] at got
      simp only [noPlain,isRef,ne_eq,not_true_eq_false,if_false] at got
      split at got
      · cases got
      · grind [followRef]
theorem run_get_value_single (ctx_args : List TestIterArg) {value : Ref} (proper : Singleton objs value) (positive : fuel ≠ 0) :
    ∃ text, run_get_value objs fuel value ctx_args = some text := by
  obtain ⟨fuel,rfl⟩ := Nat.exists_eq_succ_of_ne_zero positive
  rw [run_get_value]
  rcases proper with plain | ⟨last,ext⟩
  · obtain ⟨plain,isPlain⟩ := ne_none_iff_exists'.mp plain
    exact ⟨_,by rw [isPlain]⟩
  · obtain ⟨ext,isExt⟩ := ne_none_iff_exists'.mp ext
    cases isPlain : (objs.value value).plain with
    | some plain => exact ⟨_,rfl⟩
    | none => simp_all
end

section
variable {objs : TesterObjects} {fuel : Nat} {ctx_args : List TestIterArg} {ri : RunItem} {radix : TestVarArg → Nat}
  {args : List TestVarArg} {data : RunPrepareArgCbData}

theorem argIndex_args {va : TestVarArg} {out : Nat × RunPrepareArgCbData} {r : Nat} (read : radixOf objs ri va = some r)
    (got : argIndex objs ri va data = some out) : out.2.args = data.args := by
  cases known : known? data.lists va.list with
  | some p =>
    rw [argIndex_known (by simp [read]) known] at got
    exact congrArg (fun out => out.2.args) (some.inj got).symm
  | none =>
    rw [argIndex_new read known] at got
    split at got
    · cases got
    · exact congrArg (fun out => out.2.args) (some.inj got).symm
/-- The indices do not depend on the arguments filled in. -/
theorem chosen_push (read : ∀ va ∈ args, radixOf objs ri va = some (radix va)) (va : TestVarArg) (text : CStr) :
    chosen objs ri args (data.push va text) = chosen objs ri args data := by
  rw [chosen_digits read,chosen_digits read]
  rfl

/-- The argument as `run_prepare_arg_cb` gets it from an index. -/
def Got (objs : TesterObjects) (fuel : Nat) (ctx_args : List TestIterArg) (ri : RunItem) (va : TestVarArg) (index : Nat) (arg : TestIterArg) : Prop :=
  arg.name = va.name ∧ ∃ value text, test_var_arg_get_value objs fuel ri va index = some (none,some value) ∧
    run_get_value objs fuel value ctx_args = some text ∧ arg.value = text.getD failedValue

theorem run_args_got (read : ∀ va ∈ args, radixOf objs ri va = some (radix va)) {indices : List Nat}
    (isChosen : chosen objs ri args data = some indices)
    (values : List.Forall₂ (fun va index => ∃ arg, Got objs fuel ctx_args ri va index arg) args indices) (rc rc_bad : Status) :
    ∃ rc' out, enumArgs (run_prepare_arg_cb objs fuel ctx_args ri) false args rc rc_bad data = some (rc',out) ∧
      ∃ l, out.args = data.args ++ l ∧ l.length = indices.length ∧
        List.Forall₂ (fun va p => Got objs fuel ctx_args ri va p.1 p.2) args (indices.zip l) := by
  induction args generalizing data indices rc rc_bad with
  | nil =>
    obtain rfl : [] = indices := some.inj isChosen
    exact ⟨_,data,rfl,[],by simp,rfl,.nil⟩
  | cons va rest ih =>
    have later : ∀ va ∈ rest, radixOf objs ri va = some (radix va) := fun va member => read va (mem_cons_of_mem _ member)
    rw [chosen] at isChosen
    obtain ⟨⟨index,data1⟩,isIndex,isChosen⟩ := of_bind isChosen
    obtain ⟨rest',isRest,isChosen⟩ := of_bind isChosen
    obtain rfl := some.inj isChosen
    have sameArgs := argIndex_args (read va mem_cons_self) isIndex
    cases values with
    | cons first others =>
      obtain ⟨arg,isName,value,text,isValue,isText,isArg⟩ := first
      have one : ∃ rc1, run_prepare_arg_cb objs fuel ctx_args ri va data = some (rc1,data1.push va (text.getD failedValue)) := by
        rw [run_prepare_arg_cb,isIndex]
        simp only [bind_eq_bind,bind_some,isValue,isText]
        cases text <;> exact ⟨_,rfl⟩
      obtain ⟨rc1,isOne⟩ := one
      have isRest' : chosen objs ri rest (data1.push va (text.getD failedValue)) = some rest' := (chosen_push later va _).trans isRest
      have step : ∀ rc rc_bad, ∃ rc' out, enumArgs (run_prepare_arg_cb objs fuel ctx_args ri) false rest rc rc_bad
          (data1.push va (text.getD failedValue)) = some (rc',out) ∧ ∃ l, out.args = data.args ++ l ∧ l.length = (index :: rest').length ∧
            List.Forall₂ (fun va p => Got objs fuel ctx_args ri va p.1 p.2) (va :: rest) ((index :: rest').zip l) := by
        intro rc rc_bad
        obtain ⟨rc',out,isOut,l,isL,len,gots⟩ := ih later isRest' others rc rc_bad
        refine ⟨rc',out,isOut,⟨va.name,text.getD failedValue⟩ :: l,?_,by simp [len],?_⟩
        · rw [isL,RunPrepareArgCbData.push,sameArgs]
          simp
        · exact .cons ⟨rfl,value,text,isValue,isText,rfl⟩ gots
      rw [enumArgs,isOne]
      cases rc1 with
      | none => exact step none rc_bad
      | some e => exact step (some e) (some e)
/-- Where no assertion fails, every argument has an index and a value has been found. -/
theorem run_args_runs (read : ∀ va ∈ args, radixOf objs ri va = some (radix va)) {rc rc_bad rc' : Status} {out : RunPrepareArgCbData}
    (got : enumArgs (run_prepare_arg_cb objs fuel ctx_args ri) false args rc rc_bad data = some (rc',out)) :
    ∃ indices, chosen objs ri args data = some indices ∧
      List.Forall₂ (fun va index => test_var_arg_get_value objs fuel ri va index ≠ none) args indices := by
  induction args generalizing data rc rc_bad with
  | nil => exact ⟨[],rfl,.nil⟩
  | cons va rest ih =>
    have later : ∀ va ∈ rest, radixOf objs ri va = some (radix va) := fun va member => read va (mem_cons_of_mem _ member)
    rw [enumArgs] at got
    obtain ⟨⟨rc1,data2⟩,one,got⟩ := of_bind got
    have rest' : ∃ rc rc_bad, enumArgs (run_prepare_arg_cb objs fuel ctx_args ri) false rest rc rc_bad data2 = some (rc',out) := by grind
    obtain ⟨_,_,rest'⟩ := rest'
    obtain ⟨indices,isChosen,values⟩ := ih later rest'
    unfold run_prepare_arg_cb at one
    obtain ⟨⟨index,data1⟩,isIndex,one⟩ := of_bind one
    obtain ⟨⟨status,value⟩,isValue,one⟩ := of_bind one
    have pushed : ∃ text, data2 = data1.push va text := by
      simp only [] at one
      split at one
      · exact ⟨_,congrArg Prod.snd (some.inj one).symm⟩
      · obtain ⟨value,-,one⟩ := of_bind one
        obtain ⟨text,-,one⟩ := of_bind one
        cases text with
        | some text | none => exact ⟨_,congrArg Prod.snd (some.inj one).symm⟩
    obtain ⟨text,rfl⟩ := pushed
    rw [chosen_push later] at isChosen
    refine ⟨index :: indices,?_,.cons (by simp [isValue]) values⟩
    rw [chosen,isIndex]
    simp [isChosen]
end

section
variable {objs : TesterObjects} {fuel : Nat} {ri0 ri : RunItem} {again : Prop}

/-- What is known of an argument of a run item that is prepared. -/
structure Known (objs : TesterObjects) (fuel : Nat) (ri0 ri : RunItem) (va : TestVarArg) (l : List Ref) (values : EntityValues) : Prop where
  single : singletons objs fuel ri va = some (none,l)
  count : valueCount objs fuel ri0 va = l.length
  isValues : test_var_arg_values objs va = some values
  given : values.head ≠ []
  some' : l ≠ []
  proper : ∀ v ∈ l, Singleton objs v
  small : values.num < UINT_MOD
  le : values.num ≤ l.length
  deep : fuel ≠ 0

theorem Settled.known (settled : Settled objs fuel ri0 again ri) (parsed : Parsed objs ri0) {va : TestVarArg} (member : va ∈ ri0.enumerated objs) :
    ∃ l values, Known objs fuel ri0 ri va l values := by
  obtain ⟨l,single⟩ := settled.singletons va member
  obtain ⟨values,isValues,given,small,collected⟩ := singletons_collected parsed.types (parsed.args va member) single
  obtain ⟨-,l',isL,proper,many⟩ := collected
  obtain rfl : l = l' := isL
  have enough := many rfl
  refine ⟨l,values,?_,?_,isValues,given,enough.1,proper,small,enough.2,?_⟩
  · rw [← single]
    exact var_arg_context settled.context va []
  · rw [valueCount,single]
  · rintro rfl
    have head : ∃ v rest, values.head = v :: rest := exists_cons_of_ne_nil given
    obtain ⟨v,rest,isHead⟩ := head
    unfold Tester.singletons test_var_arg_enum_values varArgEnumValues at single
    unfold test_var_arg_values at isValues
    split at single
    · rename_i empty
      rw [if_pos empty] at isValues
      obtain ⟨type,isType,single⟩ := of_bind single
      rw [isType] at isValues
      obtain rfl := some.inj isValues
      rw [test_entity_values_enum,isHead] at single
      cases single
    · rename_i some'
      rw [if_neg some'] at isValues
      obtain rfl := some.inj isValues
      rw [test_entity_values_enum,isHead] at single
      cases single

/-- The number that the index of an argument is divided by, if any. -/
def decodeRadix (objs : TesterObjects) (ri : RunItem) (va : TestVarArg) : Nat := (radixOf objs ri va).getD 0
theorem Settled.radixOf (settled : Settled objs fuel ri0 again ri) (parsed : Parsed objs ri0) {va : TestVarArg} (member : va ∈ ri0.enumerated objs) :
    radixOf objs ri va = some (decodeRadix objs ri va) := by
  have read : Tester.radixOf objs ri va ≠ none := by
    rw [Tester.radixOf]
    cases isList : va.list with
    | none =>
      obtain ⟨l,values,known⟩ := settled.known parsed member
      simp [known.isValues]
    | some name =>
      simp only []
      rw [settled.lists.radix member isList]
      simp
  obtain ⟨r,isR⟩ := ne_none_iff_exists'.mp read
  rw [decodeRadix,isR]
  rfl
theorem Settled.enumerated (settled : Settled objs fuel ri0 again ri) : ri.enumerated objs = ri0.enumerated objs :=
  enumerated_congr settled.context settled.same
/-- The places of the digits of an iteration. -/
def decodePlaces (objs : TesterObjects) (ri0 ri : RunItem) : List (Option CStr × Nat) :=
  (ri0.enumerated objs).map fun va => (va.list,decodeRadix objs ri va)

section
variable (settled : Settled objs fuel ri0 again ri)
include settled
theorem Settled.indices (parsed : Parsed objs ri0) (i : Nat) :
    ri.indices objs i = digits (decodePlaces objs ri0 ri) [] ri.n_iters i := by
  rw [RunItem.indices,settled.enumerated]
  exact chosen_digits fun va member => settled.radixOf parsed member
theorem choices_congr (va : TestVarArg) : choices objs fuel ri va = choices objs fuel ri0 va := by
  have same : valueCount objs fuel ri = valueCount objs fuel ri0 := by
    funext va
    exact valueCount_context settled.context va
  rw [choices,choices,same]
  unfold listLen
  rw [same,settled.enumerated]
theorem Settled.combination (positions : List Nat) :
    Combination objs fuel ri positions ↔ Combination objs fuel ri0 positions := by
  unfold Combination
  rw [settled.enumerated]
  simp only [choices_congr settled]
end

theorem listLen_ge {va : TestVarArg} (member : va ∈ ri0.enumerated objs) {name : CStr} (isList : va.list = some name) :
    valueCount objs fuel ri0 va ≤ listLen objs fuel ri0 name := by
  rw [listLen]
  cases found : longest (valueCount objs fuel ri0) (ri0.enumerated objs) name with
  | none => exact (longest_none.mp found va member isList).elim
  | some len => exact (longest_some found).2 va member isList
theorem Settled.choices_pos (settled : Settled objs fuel ri0 again ri) (parsed : Parsed objs ri0) {va : TestVarArg} (member : va ∈ ri0.enumerated objs) :
    0 < choices objs fuel ri0 va := by
  obtain ⟨l,values,known⟩ := settled.known parsed member
  have some' : 0 < valueCount objs fuel ri0 va := known.count ▸ List.length_pos_of_ne_nil known.some'
  rw [choices]
  cases isList : va.list with
  | none => exact some'
  | some name => exact lt_of_lt_of_le some' (listLen_ge member isList)
/-- Some combination has a given position for an argument. -/
theorem Settled.choose (settled : Settled objs fuel ri0 again ri) (parsed : Parsed objs ri0) {va : TestVarArg} (member : va ∈ ri0.enumerated objs)
    (less : p < choices objs fuel ri0 va) : ∃ pos : TestVarArg → Nat, pos va = p ∧ Combination objs fuel ri0 ((ri0.enumerated objs).map pos) := by
  refine ⟨fun other => if other = va ∨ (other.list ≠ none ∧ other.list = va.list) then p else 0,if_pos (.inl rfl),
    fun name => if va.list = some name then p else 0,?_⟩
  rw [List.forall₂_map_left_iff,List.forall₂_map_right_iff,List.forall₂_same]
  intro other isArg
  constructor
  · simp only []
    split
    · rename_i same
      rcases same with rfl | ⟨inList,same⟩
      · exact less
      · grind [choices]
    · exact settled.choices_pos parsed isArg
  · grind

/-- If every combination occurs, the numbers divided by are large enough. -/
theorem EnumeratesOnce.enough {ctx_args : List TestIterArg} (enumerates : EnumeratesOnce objs fuel ctx_args ri) (settled : Settled objs fuel ri0 again ri)
    (parsed : Parsed objs ri0) {va : TestVarArg} (member : va ∈ ri0.enumerated objs) : choices objs fuel ri0 va ≤ decodeRadix objs ri va := by
  have positive := settled.choices_pos parsed member
  obtain ⟨pos,isPos,combination⟩ := settled.choose parsed member (Nat.sub_lt positive Nat.one_pos)
  obtain ⟨i,less,got⟩ := enumerates.onto _ ((settled.combination _).mpr combination)
  rw [settled.indices parsed] at got
  obtain ⟨common,-,fits⟩ := digits_fit (fun name => (lengthOf ri.lists name).getD 0) (fun name r isPlace => by
    obtain ⟨va,-,isVa⟩ := mem_map.mp isPlace
    obtain ⟨isList,rfl⟩ := Prod.mk.inj isVa
    rw [decodeRadix,radixOf,isList]) (fun name d isKnown => by cases isKnown) less got
  rw [decodePlaces,List.forall₂_map_left_iff,List.forall₂_map_right_iff,List.forall₂_same] at fits
  have bound := (fits va member).1
  simp only [isPos] at bound
  omega
theorem EnumeratesOnce.counts {ctx_args : List TestIterArg} (enumerates : EnumeratesOnce objs fuel ctx_args ri) (settled : Settled objs fuel ri0 again ri)
    (parsed : Parsed objs ri0) {va : TestVarArg} (member : va ∈ ri0.enumerated objs) :
    counted objs fuel ri0 va = valueCount objs fuel ri0 va ∧ decodeRadix objs ri va = settledRadix objs fuel ri0 va ∧
      (va.list = none → (test_var_arg_values objs va).map EntityValues.num = some (valueCount objs fuel ri0 va)) ∧
      valueCount objs fuel ri0 va < UINT_MOD := by
  obtain ⟨l,values,known⟩ := settled.known parsed member
  have enough := enumerates.enough settled parsed member
  have le := known.count ▸ known.le
  cases isList : va.list with
  | none =>
    have isRadix : decodeRadix objs ri va = values.num := by rw [decodeRadix,radixOf,isList,known.isValues]; rfl
    have isChoices : choices objs fuel ri0 va = valueCount objs fuel ri0 va := by rw [choices,isList]
    have same : values.num = valueCount objs fuel ri0 va := by omega
    have small : valueCount objs fuel ri0 va < UINT_MOD := same ▸ known.small
    have isCounted : counted objs fuel ri0 va = valueCount objs fuel ri0 va := mod_eq_of_lt small
    refine ⟨isCounted,?_,fun _ => ?_,small⟩
    · rw [isRadix,same,settledRadix,isList]
      exact isCounted.symm
    · rw [known.isValues]
      exact congrArg some same
  | some name =>
    have isRadix : decodeRadix objs ri va = settledRadix objs fuel ri0 va := by
      rw [decodeRadix,radixOf,isList]
      simp only []
      rw [settled.lists.radix member isList]
      rfl
    have isChoices : choices objs fuel ri0 va = listLen objs fuel ri0 name := by rw [choices,isList]
    have below : settledRadix objs fuel ri0 va < UINT_MOD := by
      rw [settledRadix,isList]
      simp only []
      cases found : longest (counted objs fuel ri0) (ri0.enumerated objs) name with
      | none => decide
      | some len =>
        obtain ⟨⟨top,-,-,rfl⟩,-⟩ := longest_some found
        exact mod_lt _ (by decide)
    have member' : valueCount objs fuel ri0 va ≤ listLen objs fuel ri0 name := listLen_ge member isList
    have small : valueCount objs fuel ri0 va < UINT_MOD := by omega
    exact ⟨mod_eq_of_lt small,isRadix,fun free => by simp at free,small⟩
/-- Some combination has position 0 for all arguments, so there are iterations. -/
theorem EnumeratesOnce.iterates {ctx_args : List TestIterArg} (enumerates : EnumeratesOnce objs fuel ctx_args ri) (settled : Settled objs fuel ri0 again ri)
    (parsed : Parsed objs ri0) : 0 < ri.n_iters := by
  have combination : Combination objs fuel ri0 ((ri0.enumerated objs).map fun _ => 0) := by
    refine ⟨fun _ => 0,?_⟩
    rw [List.forall₂_map_left_iff,List.forall₂_map_right_iff,List.forall₂_same]
    exact fun va member => ⟨settled.choices_pos parsed member,fun _ _ => rfl⟩
  obtain ⟨i,less,-⟩ := enumerates.onto _ ((settled.combination _).mpr combination)
  omega

theorem EnumeratesOnce.countedRight {ctx_args : List TestIterArg} {times : Nat} (enumerates : EnumeratesOnce objs fuel ctx_args ri)
    (settled : Settled objs fuel ri0 (times ≠ 0) ri) (parsed : Parsed objs ri0) : CountedRight objs fuel (times+1) ri0 := by
  refine ⟨fun va member => (enumerates.counts settled parsed member).2.2.1,fun va member _ => (enumerates.counts settled parsed member).2.2.2,
    fun va member name isList less => ?_,fun more va member inList => ?_⟩
  · have isChoices : choices objs fuel ri0 va = listLen objs fuel ri0 name := by rw [choices,isList]
    obtain ⟨pos,isPos,combination⟩ := settled.choose parsed member (isChoices ▸ less)
    obtain ⟨i,inside,got⟩ := enumerates.onto _ ((settled.combination _).mpr combination)
    obtain ⟨rc,args,positions,isRun,-⟩ := enumerates.runs i inside
    rw [run_prepare_args] at isRun
    obtain ⟨⟨rc',out⟩,enum,-⟩ := of_bind isRun
    rw [test_run_item_enum_args,settled.enumerated] at enum
    obtain ⟨indices,isChosen,values⟩ := run_args_runs (fun va member => settled.radixOf parsed member) enum
    rw [RunItem.indices,settled.enumerated] at got
    obtain rfl := some.inj (isChosen.symm.trans got)
    rw [List.forall₂_map_right_iff,List.forall₂_same] at values
    have found := values va member
    obtain ⟨l,values,known⟩ := settled.known parsed member
    have len := settled.lists.radix member isList
    have enough := enumerates.enough settled parsed member
    rw [(enumerates.counts settled parsed member).2.1] at enough
    have count := known.count
    rw [isPos,get_value_behind known.single (by omega) isList len (by omega) known.isValues known.le] at found
    cases isLast : lastValue objs va with
    | none => simp [isLast] at found
    | some value =>
      refine ⟨value,rfl,?_⟩
      cases follows : followRef objs fuel value with
      | none => simp [isLast,follows] at found
      | some last => exact followRef_leads follows
  · have positive := enumerates.iterates settled parsed
    obtain ⟨i,less,got⟩ : ∃ i < ri.n_iters, ∃ positions, ri.indices objs i = some positions := by
      obtain ⟨_,_,positions,-,got,-⟩ := enumerates.runs 0 positive
      exact ⟨0,positive,positions,got⟩
    obtain ⟨positions,got⟩ := got
    rw [settled.indices parsed] at got
    have divides := digits_total positive got
    have places : decodePlaces objs ri0 ri = (ri0.enumerated objs).map fun va => (va.list,settledRadix objs fuel ri0 va) := by
      refine map_congr_left fun va member => ?_
      rw [(enumerates.counts settled parsed member).2.1]
    rw [places,map_nil,settled.lists.total,settled.more positive (by omega)] at divides
    rw [settled.more positive (by omega)] at positive
    have one : lengths ri.lists = 1 := by
      have le := Nat.le_of_dvd positive divides
      have proper := lengths_pos (settled.proper (by rw [settled.more (enumerates.iterates settled parsed) (by omega)]; exact positive))
      exact le_antisymm (Nat.le_of_mul_le_mul_left (by simpa using le) positive) proper
    obtain ⟨name,isList⟩ := ne_none_iff_exists'.mp inList
    have len := settled.lists.radix member isList
    obtain ⟨p,isP,isLen⟩ := of_map len
    have pOne : p.len ∣ 1 := one ▸ List.dvd_prod (mem_map_of_mem (mem_of_find?_eq_some isP))
    have counts := enumerates.counts settled parsed member
    rw [settledRadix,isList] at isLen
    simp only [] at isLen
    have bound : counted objs fuel ri0 va ≤ 1 := by
      cases found : longest (counted objs fuel ri0) (ri0.enumerated objs) name with
      | none => exact (longest_none.mp found va member isList).elim
      | some len' =>
        rw [found] at isLen
        have := (longest_some found).2 va member isList
        have := Nat.dvd_one.mp pOne
        simp only [getD_some] at isLen
        omega
    obtain ⟨l,values,known⟩ := settled.known parsed member
    have := List.length_pos_of_ne_nil known.some'
    have := known.count
    omega

theorem enumLoop_all {each : Ref → σ → Option (Status × σ)} {values : List Ref} {rc : Status} {s s' : σ}
    (got : enumLoop each values rc s = some (none,s')) {v : Ref} (member : v ∈ values) : ∃ s out, each v s = some out := by
  induction values generalizing rc s with
  | nil => cases member
  | cons w rest ih =>
    rw [enumLoop] at got
    obtain ⟨⟨rc1,s1⟩,one,got⟩ := of_bind got
    rcases mem_cons.mp member with rfl | member
    · exact ⟨s,_,one⟩
    · grind
/-- The value behind the singletons of an argument is one of its values. -/
theorem lastValue_enumerated {va : TestVarArg} (read : ArgRead objs va) {l : List Ref} (single : singletons objs fuel ri va = some (none,l))
    {value : Ref} (isLast : lastValue objs va = some value) :
    ∃ item context s out, test_entity_value_enum_values objs collect fuel item context value s = some out := by
  unfold singletons test_var_arg_enum_values varArgEnumValues at single
  unfold ArgRead at read
  unfold lastValue test_var_arg_values at isLast
  split at single
  · rename_i empty
    obtain ⟨type,isType,single⟩ := of_bind single
    rw [if_pos empty] at read isLast
    rw [read.2,isType,Option.none_or] at isLast
    obtain ⟨s,out,got⟩ := enumLoop_all single (mem_of_mem_head? isLast)
    exact ⟨_,_,s,out,got⟩
  · rename_i given
    rw [if_neg given] at read isLast
    have member : value ∈ va.values.head := by
      cases isPreferred : va.preferred with
      | some preferred => grind
      | none =>
        rw [isPreferred,Option.none_or] at isLast
        exact mem_of_mem_head? isLast
    obtain ⟨s,out,got⟩ := enumLoop_all single member
    exact ⟨_,_,s,out,got⟩

variable {times : Nat}

theorem CountedRight.counted (right : CountedRight objs fuel times ri0) (settled : Settled objs fuel ri0 again ri) (parsed : Parsed objs ri0)
    {va : TestVarArg} (member : va ∈ ri0.enumerated objs) : counted objs fuel ri0 va = valueCount objs fuel ri0 va := by
  refine mod_eq_of_lt ?_
  by_cases free : va.list = none
  · have same := right.outside va member free
    obtain ⟨l,values,known⟩ := settled.known parsed member
    rw [known.isValues] at same
    obtain isNum : values.num = valueCount objs fuel ri0 va := some.inj same
    exact isNum ▸ known.small
  · exact right.inside va member free
/-- Where the numbers are right, the radix of an argument is the number of its positions. -/
theorem CountedRight.radix (right : CountedRight objs fuel times ri0) (settled : Settled objs fuel ri0 again ri) (parsed : Parsed objs ri0)
    {va : TestVarArg} (member : va ∈ ri0.enumerated objs) :
    decodeRadix objs ri va = choices objs fuel ri0 va ∧ settledRadix objs fuel ri0 va = choices objs fuel ri0 va := by
  cases isList : va.list with
  | none =>
    rw [choices,decodeRadix,radixOf,settledRadix,isList]
    simp only [right.outside va member isList,getD_some,right.counted settled parsed member,and_self]
  | some name =>
    have same : settledRadix objs fuel ri0 va = choices objs fuel ri0 va := by
      rw [settledRadix,choices,isList]
      simp only [listLen]
      rw [longest_congr fun va member _ => right.counted settled parsed member]
    refine ⟨?_,same⟩
    rw [decodeRadix,radixOf,isList]
    simp only []
    rw [settled.lists.radix member isList,getD_some,same]
/-- Where the numbers are right, there are as many iterations as combinations. -/
theorem CountedRight.iters (right : CountedRight objs fuel (times+1) ri0) (settled : Settled objs fuel ri0 (times ≠ 0) ri) (parsed : Parsed objs ri0) :
    0 < ri.n_iters ∧ ri.n_iters = total (decodePlaces objs ri0 ri) [] := by
  have positive : 0 < ri.n_iters := by
    refine settled.positive fun va member => ?_
    obtain ⟨l,values,known⟩ := settled.known parsed member
    rw [right.counted settled parsed member,known.count]
    exact List.length_pos_of_ne_nil known.some'
  have places : decodePlaces objs ri0 ri = (ri0.enumerated objs).map fun va => (va.list,settledRadix objs fuel ri0 va) := by
    refine map_congr_left fun va member => ?_
    rw [(right.radix settled parsed member).1,(right.radix settled parsed member).2]
  refine ⟨positive,?_⟩
  rw [places,settled.lists.total]
  by_cases more : times ≠ 0
  · have ones : lengths ri.lists = 1 := by
      refine List.prod_eq_one fun len isLen => ?_
      obtain ⟨p,member,rfl⟩ := mem_map.mp isLen
      obtain ⟨va,isArg,isList⟩ := settled.lists.used p member
      have len := settled.lists.lengthOf p.name
      rw [lengthOf_mem settled.lists.unique member] at len
      obtain ⟨⟨top,isTop,topList,isLen⟩,-⟩ := longest_some len.symm
      rw [← isLen,right.counted settled parsed isTop]
      exact right.again (by omega) top isTop (by simp [topList])
    rw [ones,Nat.mul_one]
    exact settled.more positive more
  · exact settled.once positive more
/-- Where the numbers are right, an argument gets a value at each of its positions. -/
theorem CountedRight.value (right : CountedRight objs fuel times ri0) (settled : Settled objs fuel ri0 again ri) (parsed : Parsed objs ri0)
    {va : TestVarArg} (member : va ∈ ri0.enumerated objs) (less : p < choices objs fuel ri0 va) :
    ∃ value, test_var_arg_get_value objs fuel ri va p = some (none,some value) ∧ valueAt objs fuel ri va p = some value ∧ Singleton objs value := by
  obtain ⟨l,values,known⟩ := settled.known parsed member
  by_cases inside : p < l.length
  · refine ⟨l[p],get_value_found known.single known.proper inside,?_,known.proper _ (List.getElem_mem inside)⟩
    rw [valueAt,known.single]
    simp [inside]
  · cases isList : va.list with
    | none =>
      rw [choices,isList] at less
      exact (inside (known.count ▸ less)).elim
    | some name =>
      have isRadix := (right.radix settled parsed member).2
      have len := settled.lists.radix member isList
      have isChoices : choices objs fuel ri0 va = listLen objs fuel ri0 name := by rw [choices,isList]
      have count := known.count
      obtain ⟨value,isLast,leads⟩ := right.behind va member name isList (by omega)
      obtain ⟨item,context,s,out,enum⟩ := lastValue_enumerated (parsed.args va member) known.single isLast
      obtain ⟨last,follows⟩ := leads_followRef leads parsed.plain enum
      have single := followRef_single follows
      refine ⟨last,?_,?_,single.2.elim .inl fun ext => .inr ⟨single.1,ext⟩⟩
      · rw [get_value_behind known.single (by omega) isList len (by omega) known.isValues known.le,isLast]
        simp [follows]
      · rw [valueAt,known.single]
        simp [inside,isLast,follows]

theorem CountedRight.assigned (right : CountedRight objs fuel times ri0) (settled : Settled objs fuel ri0 again ri) (parsed : Parsed objs ri0)
    {ctx_args : List TestIterArg} {va : TestVarArg} (member : va ∈ ri0.enumerated objs) (less : p < choices objs fuel ri0 va) :
    (∃ arg, Got objs fuel ctx_args ri va p arg) ∧ ∀ arg, Got objs fuel ctx_args ri va p arg → Assigned objs fuel ctx_args ri va p arg := by
  obtain ⟨value,isValue,isAt,single⟩ := right.value settled parsed member less
  obtain ⟨l,values,known⟩ := settled.known parsed member
  obtain ⟨text,isText⟩ := run_get_value_single ctx_args single known.deep
  refine ⟨⟨⟨va.name,text.getD failedValue⟩,rfl,value,text,isValue,isText,rfl⟩,?_⟩
  rintro arg ⟨isName,value',text',isValue',isText',isArg⟩
  obtain rfl : value = value' := by simpa [isValue] using isValue'
  exact ⟨isName,value,text',isAt,isText',isArg⟩
theorem forall₂_zip {α β γ : Type} {P Q : α → β → γ → Prop} {l : List α} {l' : List β} {l'' : List γ}
    (implies : List.Forall₂ (fun a b => ∀ c, P a b c → Q a b c) l l') (holds : List.Forall₂ (fun a p => P a p.1 p.2) l (l'.zip l'')) :
    List.Forall₂ (fun a p => Q a p.1 p.2) l (l'.zip l'') := by
  induction implies generalizing l'' with
  | nil => exact .nil
  | cons first _ ih =>
    cases l'' with
    | nil => cases holds
    | cons c l'' => simp_all

theorem CountedRight.enumerates (right : CountedRight objs fuel (times+1) ri0) (settled : Settled objs fuel ri0 (times ≠ 0) ri) (parsed : Parsed objs ri0)
    (ctx_args : List TestIterArg) : EnumeratesOnce objs fuel ctx_args ri := by
  obtain ⟨positive,all⟩ := right.iters settled parsed
  have places : decodePlaces objs ri0 ri = (ri0.enumerated objs).map fun va => (va.list,choices objs fuel ri0 va) :=
    map_congr_left fun va member => by rw [(right.radix settled parsed member).1]
  have decoded : ∀ i, ∃ positions, digits (decodePlaces objs ri0 ri) [] ri.n_iters i = some positions := fun i =>
    digits_some positive (all ▸ Nat.dvd_refl _)
  refine ⟨fun i less => ?_,fun positions combination => ?_,fun i j less less' same => ?_⟩
  · obtain ⟨positions,got⟩ := decoded i
    have isIndices : ri.indices objs i = some positions := (settled.indices parsed i).trans got
    obtain ⟨common,-,fits⟩ := digits_fit (listLen objs fuel ri0) (fun name r isPlace => by
      rw [places] at isPlace
      obtain ⟨va,-,isVa⟩ := mem_map.mp isPlace
      obtain ⟨isList,rfl⟩ := Prod.mk.inj isVa
      rw [choices,isList]) (fun name d isKnown => by cases isKnown) less got
    rw [places] at fits
    rw [List.forall₂_map_left_iff,List.forall₂_iff_zip] at fits
    have assigned : ∀ {va p}, (va,p) ∈ (ri0.enumerated objs).zip positions → (∃ arg, Got objs fuel ctx_args ri va p arg) ∧
        ∀ arg, Got objs fuel ctx_args ri va p arg → Assigned objs fuel ctx_args ri va p arg := fun pair =>
      right.assigned settled parsed (List.of_mem_zip pair).1 (fits.2 pair).1
    have isChosen := isIndices
    rw [RunItem.indices,settled.enumerated] at isChosen
    obtain ⟨rc,out,isOut,args,isArgs,len,gots⟩ := run_args_got (fun va member => settled.radixOf parsed member) isChosen
      (List.forall₂_iff_zip.mpr ⟨fits.1,fun pair => (assigned pair).1⟩) (some .ENOENT) none
    refine ⟨if rc = some .ENOENT then none else rc,args,positions,?_,isIndices,?_,?_,len⟩
    · rw [run_prepare_args,test_run_item_enum_args,settled.enumerated,isOut]
      simp [isArgs]
    · rw [settled.combination]
      refine ⟨common,?_⟩
      rw [List.forall₂_map_left_iff,List.forall₂_iff_zip]
      exact fits
    · rw [settled.enumerated]
      exact forall₂_zip (List.forall₂_iff_zip.mpr ⟨fits.1,fun pair => (assigned pair).2⟩) gots
  · obtain ⟨common,fits⟩ := (settled.combination positions).mp combination
    rw [← places] at fits
    have unknown : ∀ key d, known? ([] : List (CStr × Nat)) (some key) = some d → common key = d := fun key d isKnown => by cases isKnown
    obtain ⟨i,less,got⟩ := digits_onto all positive unknown fits
    exact ⟨i,less,(settled.indices parsed i).trans got⟩
  · obtain ⟨positions,got⟩ := decoded i
    rw [settled.indices parsed,settled.indices parsed,got] at same
    exact digits_once all less less' got same.symm

/-- The iterations of a run item are its combinations if and only if the numbers of values
    counted at parsing are right. -/
theorem iterations_combinations {ctx_args : List TestIterArg} (parsed : Parsed objs ri0) (prepared : prepareTimes objs fuel (times+1) ri0 = some (none,ri)) :
    EnumeratesOnce objs fuel ctx_args ri ↔ CountedRight objs fuel (times+1) ri0 := by
  have settled := prepareTimes_settled parsed prepared
  exact ⟨fun enumerates => enumerates.countedRight settled parsed,fun right => right.enumerates settled parsed ctx_args⟩
end

section
/-- A configuration with the plain values 0, 1 and the value 2 of the variable `x` in session 0. -/
def smallObjects : TesterObjects where
  value v := if v < 2 then ⟨none,none,some [if v = 0 then '0' else '1'],none,none,false⟩ else ⟨none,none,none,none,some "x".toList,false⟩
  type _ := ⟨⟨[0,1],2⟩,none⟩
  session _ := ⟨none,[⟨"x".toList,none,⟨[0,1],2⟩,none,none,true⟩]⟩
theorem small_types : TypesRead smallObjects := fun _ => ⟨by simp [smallObjects],rfl⟩
theorem small_plain (v : Ref) (_ : (smallObjects.value v).plain ≠ none) : (smallObjects.value v).ref = none := by
  simp only [smallObjects]
  split <;> rfl

def listedItem : RunItem where
  context := none
  args := [⟨"a".toList,none,⟨[0,1],2⟩,none,none,true⟩,⟨"b".toList,none,⟨[0,1],2⟩,some "l".toList,none,true⟩,
    ⟨"c".toList,none,⟨[1],1⟩,some "l".toList,none,true⟩]
  lists := []
  n_args := 0
  n_iters := 0
theorem iterations_combinations_listed : EnumeratesOnce smallObjects 2 []
    {listedItem with lists := [⟨"l".toList,2,2⟩],n_args := 3,n_iters := 4} := by
  have parsed : Parsed smallObjects listedItem := ⟨small_types,small_plain,by
    intro va member
    simp only [RunItem.enumerated,listedItem,nil_append,mem_cons,not_mem_nil,or_false] at member
    rcases member with rfl | rfl | rfl <;> exact ⟨rfl,by simp⟩,rfl⟩
  refine (iterations_combinations parsed (show prepareTimes smallObjects 2 1 listedItem = _ by decide)).mpr ⟨?_,?_,?_,by omega⟩
  all_goals
    intro va member
    simp only [RunItem.enumerated,listedItem,nil_append,mem_cons,not_mem_nil,or_false] at member
  · rcases member with rfl | rfl | rfl <;> decide
  · rcases member with rfl | rfl | rfl <;> decide
  · rcases member with rfl | rfl | rfl
    · intro name isList
      cases isList
    · intro name isList less
      obtain rfl := some.inj isList
      exact absurd less (by decide)
    · exact fun name isList less => ⟨1,rfl,.single rfl (.inl (by decide))⟩

/-- An argument that refers to a variable with two values, which is handed down itself. -/
def referringItem : RunItem where
  context := some 0
  args := [⟨"y".toList,none,⟨[2],1⟩,none,none,true⟩]
  lists := []
  n_args := 0
  n_iters := 0
/-- The two values of the reference are counted as one: iterations 0 and 1 are the same. -/
theorem reference_counted_once : Parsed smallObjects referringItem ∧
    prepareTimes smallObjects 3 1 referringItem = some (none,{referringItem with n_args := 2,n_iters := 4}) ∧
    ¬EnumeratesOnce smallObjects 3 [] {referringItem with n_args := 2,n_iters := 4} := by
  refine ⟨⟨small_types,small_plain,?_,rfl⟩,by decide,fun enumerates => ?_⟩
  · intro va member
    have args : referringItem.enumerated smallObjects = (smallObjects.session 0).vars ++ referringItem.args := by decide
    rw [args] at member
    simp only [smallObjects,referringItem,cons_append,nil_append,mem_cons,not_mem_nil,or_false] at member
    rcases member with rfl | rfl <;> exact ⟨rfl,by simp⟩
  · have same := enumerates.once 0 1 (by decide) (by decide) (by decide)
    cases same
end
end TestEnvironment.Tester
