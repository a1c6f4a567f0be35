import TestEnvironment.Tester.ArgMatch
import TestEnvironment.Tester.Combinations

/-!
The iterations that a test path selects by an argument with plain values, and
those in which the run item gets a requested value. They agree where the
argument is the first that answers to its name and the number of outer
iterations recorded for its list is still right when all lists have their
lengths.
-/
namespace TestEnvironment.Tester
open Lib

section
variable {objs : TesterObjects} {fuel : Nat} {ri0 ri : RunItem} {va : TestVarArg} {values : EntityValues}

/-- A run item whose arguments have different names and plain values, which are neither
    empty, nor compound, nor global. -/
structure PlainItem (objs : TesterObjects) (ri : RunItem) : Prop where
  parsed : Parsed objs ri
  names : ((ri.enumerated objs).map TestVarArg.name).Nodup
  plain : ∀ va ∈ ri.enumerated objs, ∀ values, test_var_arg_values objs va = some values →
    ∀ v ∈ values.head, ∃ text, (objs.value v).plain = some text ∧ PlainText text ∧ (objs.value v).global = false
  small : ∀ va ∈ ri.enumerated objs, ∀ values, test_var_arg_values objs va = some values → values.head.length < UINT_MOD

theorem enumLoop_plain {ri : Option RunItem} {context : Option Ref} (deep : fuel ≠ 0) {l : List Ref} (plain : ∀ v ∈ l, (objs.value v).plain ≠ none)
    {rc : Status} {acc : List Ref} : enumLoop (test_entity_value_enum_values objs collect fuel ri context) l rc acc =
      some (if l = [] then rc else none,acc ++ l) := by
  obtain ⟨fuel,rfl⟩ := Nat.exists_eq_succ_of_ne_zero deep
  induction l generalizing rc acc with
  | nil => simp [enumLoop]
  | cons v l ih => simp_all [test_entity_value_enum_values,collect,enumLoop]
/-- The plain values of an argument are its singletons. -/
theorem singletons_plain (deep : fuel ≠ 0) (isValues : test_var_arg_values objs va = some values) (given : values.head ≠ [])
    (plain : ∀ v ∈ values.head, (objs.value v).plain ≠ none) : singletons objs fuel ri va = some (none,values.head) := by
  unfold singletons test_var_arg_enum_values varArgEnumValues
  unfold test_var_arg_values at isValues
  split at isValues
  · rename_i empty
    obtain ⟨type,isType,rfl⟩ := of_map isValues
    rw [if_pos empty,isType]
    simp only [bind_eq_bind,bind_some]
    rw [test_entity_values_enum,enumLoop_plain deep plain,if_neg given,nil_append]
  · rename_i some'
    obtain rfl := some.inj isValues
    rw [if_neg some',test_entity_values_enum,enumLoop_plain deep plain,if_neg given,nil_append]
theorem Counted.num_plain (counted : Counted objs values) (plain : ∀ v ∈ values.head, (objs.value v).plain ≠ none)
    (small : values.head.length < UINT_MOD) : values.num = values.head.length := by
  have fold : ∀ (l : List Ref) (start : EntityValues), (∀ v ∈ l, (objs.value v).plain ≠ none) → start.num+l.length < UINT_MOD →
      (l.foldl (alloc_and_get_value objs) start).num = start.num+l.length := by
    intro l
    induction l with
    | nil => exact fun start _ _ => rfl
    | cons v l ih =>
      intro start plain small
      rw [length_cons] at small
      have one : weight objs v = 1 := by simp [plain,weight]
      have step := alloc_num objs start v (by omega)
      rw [one,mod_eq_of_lt (by omega)] at step
      rw [foldl_cons,ih _ (fun v member => plain v (mem_cons_of_mem _ member)) (by omega),step,length_cons]
      omega
  have whole := fold values.head ⟨[],0⟩ plain (by simpa using small)
  rw [← counted] at whole
  simpa using whole
theorem argRead_counted (types : TypesRead objs) (read : ArgRead objs va) (isValues : test_var_arg_values objs va = some values) : Counted objs values := by
  unfold ArgRead at read
  unfold test_var_arg_values at isValues
  split at isValues
  · obtain ⟨type,isType,rfl⟩ := of_map isValues
    exact (types type).2
  · grind
theorem lastValue_mem (read : ArgRead objs va) (isValues : test_var_arg_values objs va = some values) (given : values.head ≠ []) :
    ∃ last ∈ values.head, lastValue objs va = some last ∧ ∀ preferred, va.preferred = some preferred → last = preferred := by
  obtain ⟨first,rest,isHead⟩ := exists_cons_of_ne_nil given
  cases isPreferred : va.preferred with
  | none => simp [isHead,isPreferred,isValues,lastValue]
  | some preferred =>
    refine ⟨preferred,?_,by simp [lastValue,isPreferred],by simp⟩
    unfold ArgRead at read
    unfold test_var_arg_values at isValues
    split at isValues
    · grind
    · grind

/-- What is known of an argument of a plain run item that is prepared. -/
structure PlainArg (objs : TesterObjects) (fuel : Nat) (ri0 ri : RunItem) (va : TestVarArg) (values : EntityValues) : Prop where
  isValues : test_var_arg_values objs va = some values
  given : values.head ≠ []
  num : values.num = values.head.length
  single : singletons objs fuel ri va = some (none,values.head)
  count : valueCount objs fuel ri0 va = values.head.length
  deep : fuel ≠ 0
theorem PlainItem.arg {again : Prop} (item : PlainItem objs ri0) (settled : Settled objs fuel ri0 again ri) (member : va ∈ ri0.enumerated objs) :
    ∃ values, PlainArg objs fuel ri0 ri va values := by
  obtain ⟨l,values,known⟩ := settled.known item.parsed member
  have plain : ∀ v ∈ values.head, (objs.value v).plain ≠ none := by
    intro v isValue
    obtain ⟨text,isText,-⟩ := item.plain va member values known.isValues v isValue
    simp [isText]
  have single : singletons objs fuel ri va = some (none,values.head) :=
    singletons_plain known.deep known.isValues known.given plain
  obtain rfl : l = values.head := (of_pair (known.single.symm.trans single)).2
  refine ⟨values,known.isValues,known.given,?_,single,known.count,known.deep⟩
  exact (argRead_counted item.parsed.types (item.parsed.args va member) known.isValues).num_plain plain (item.small va member values known.isValues)
theorem PlainItem.settled (item : PlainItem objs ri0) (prepared : prepare_calc_iters objs fuel ri0 = some (none,ri)) :
    Settled objs fuel ri0 (0 ≠ 0) ri := by
  simpa using settled_first item.parsed prepared rfl
/-- The values of a plain run item are counted right. -/
theorem PlainItem.countedRight (item : PlainItem objs ri0) (settled : Settled objs fuel ri0 (0 ≠ 0) ri) : CountedRight objs fuel 1 ri0 := by
  refine ⟨fun va member _ => ?_,fun va member _ => ?_,fun va member name _ _ => ?_,by omega⟩
  · obtain ⟨values,arg⟩ := item.arg settled member
    rw [arg.isValues,arg.count]
    exact congrArg some arg.num
  · obtain ⟨values,arg⟩ := item.arg settled member
    rw [arg.count]
    exact item.small va member values arg.isValues
  · obtain ⟨values,arg⟩ := item.arg settled member
    obtain ⟨last,isValue,isLast,-⟩ := lastValue_mem (item.parsed.args va member) arg.isValues arg.given
    obtain ⟨text,isText,-⟩ := item.plain va member values arg.isValues last isValue
    exact ⟨last,isLast,.single (item.parsed.plain last (by simp [isText])) (.inl (by simp [isText]))⟩
end

variable {after : List TestVarArg} {i : Nat}

section
variable {objs : TesterObjects} {fuel : Nat} {ri0 ri : RunItem}

/-- The number of values of an argument. -/
def nValues (objs : TesterObjects) (va : TestVarArg) : Nat := ((test_var_arg_values objs va).map fun values => values.head.length).getD 0
/-- No list that starts with these arguments grows behind them. -/
def Fixed (objs : TesterObjects) (ri : RunItem) (before : List TestVarArg) : Prop :=
  ∀ name, longest (nValues objs) before name ≠ none → longest (nValues objs) before name = longest (nValues objs) (ri.enumerated objs) name
/-- The numbers recorded for the lists that start with these arguments are right, unless the
    lists have length 1. -/
def Recorded (objs : TesterObjects) (ri : RunItem) (before : List TestVarArg) : Prop :=
  ∀ front other rest name, before = front ++ other :: rest → other.list = some name →
    (∃ earlier ∈ front, earlier.list = some name) ∨ Fixed objs ri front ∨ longest (nValues objs) (ri.enumerated objs) name = some 1
/-- The arguments whose positions are outer to the one of `va` behind `before`. -/
def outerArgs (before : List TestVarArg) (va : TestVarArg) : List TestVarArg :=
  if va.list = none then before else before.takeWhile fun other => other.list ≠ va.list
/-- The argument `va` behind `before` is the first that answers to its name, and the
    numbers of outer iterations that it depends on are right. -/
structure Selectable (objs : TesterObjects) (ri : RunItem) (before : List TestVarArg) (va : TestVarArg) : Prop where
  named : ∀ other ∈ before, answers other.name va.name = false
  inside : va.list ≠ none → Fixed objs ri (outerArgs before va)
  outside : va.list = none → Recorded objs ri before

/-- The place of an argument in the iterations. -/
def place (objs : TesterObjects) (fuel : Nat) (ri : RunItem) (va : TestVarArg) : Option CStr × Nat := (va.list,choices objs fuel ri va)

variable {name : CStr}
section
variable (item : PlainItem objs ri0)
include item

section
variable (settled : Settled objs fuel ri0 (0 ≠ 0) ri)
include settled
theorem PlainItem.nValues {va : TestVarArg} (member : va ∈ ri0.enumerated objs) :
    nValues objs va = valueCount objs fuel ri0 va ∧ Tester.nValues objs va = counted objs fuel ri0 va := by
  obtain ⟨values,arg⟩ := item.arg settled member
  have same : Tester.nValues objs va = valueCount objs fuel ri0 va := by
    rw [Tester.nValues,arg.isValues,arg.count]
    rfl
  exact ⟨same,same.trans ((item.countedRight settled).counted settled item.parsed member).symm⟩

theorem PlainItem.length {va : TestVarArg} (member : va ∈ ri0.enumerated objs)
    (isList : va.list = some name) : lengthOf ri.lists name = some (choices objs fuel ri0 va) ∧
      longest (Tester.nValues objs) (ri0.enumerated objs) name = some (choices objs fuel ri0 va) := by
  have len := settled.lists.radix member isList
  rw [((item.countedRight settled).radix settled item.parsed member).2] at len
  refine ⟨len,?_⟩
  rw [← len,settled.lists.lengthOf]
  exact longest_congr fun va member _ => (item.nValues settled member).2
theorem PlainItem.iters : 0 < ri.n_iters ∧ ri.n_iters = total ((ri0.enumerated objs).map (place objs fuel ri0)) [] := by
  have right := item.countedRight settled
  obtain ⟨positive,all⟩ := right.iters settled item.parsed
  refine ⟨positive,all.trans ?_⟩
  rw [decodePlaces]
  congr 1
  refine map_congr_left fun va member => ?_
  rw [place,(right.radix settled item.parsed member).1]
end
/-- The number recorded for a list is that of the positions of the arguments in front of its
    first member, if no list grows behind them. -/
theorem PlainItem.record (prepared : prepare_calc_iters objs fuel ri0 = some (none,ri)) {before rest : List TestVarArg}
    {va : TestVarArg} (args : ri0.enumerated objs = before ++ va :: rest) (isList : va.list = some name)
    (first : ∀ other ∈ before, other.list ≠ some name) : ∃ record, recordOf ri.lists name = some record ∧
      (Fixed objs ri0 before → record = total (before.map (place objs fuel ri0)) []) := by
  have settled := item.settled prepared
  obtain ⟨data,isOut,passed⟩ := prepare_calc_passed item.parsed.types item.parsed.args prepared rfl
  rw [args] at passed
  obtain ⟨data1,front,later,record⟩ := passed.recorded item.parsed.lists isList first
  have isRi : ri = {data.ri with n_args := data.n_args,n_iters := data.n_iters} := isOut
  have isLists : ri.lists = data.ri.lists := by rw [isRi]
  have isIters : ri.n_iters = data.n_iters := by rw [isRi]
  have members : ∀ other ∈ before, other ∈ ri0.enumerated objs := fun other member => by simp [args,member]
  refine ⟨data1.n_iters,isLists ▸ record,fun isFixed => ?_⟩
  have positive : 0 < data1.n_iters := later.counts.start (isIters ▸ (item.iters settled).1)
  have counts := front.counts
  have iters := counts.iters positive (by simp [item.parsed.lists])
  have lens : ∀ name, longest (Tester.nValues objs) before name = lengthOf data1.ri.lists name := by
    intro name
    have len := counts.lengthOf name
    simp only [item.parsed.lists] at len
    rw [len]
    have same : longest (Tester.nValues objs) before name = longest (counted objs fuel ri0) before name :=
      longest_congr fun other member _ => (item.nValues settled (members other member)).2
    rw [same]
    cases longest (counted objs fuel ri0) before name <;> rfl
  have unique := counts.unique (by simp [item.parsed.lists])
  have found : ∀ other ∈ before, ∀ name, other.list = some name → lengthOf data1.ri.lists name = some (choices objs fuel ri0 other) := by
    intro other member name isList
    rw [← lens,isFixed name fun gone => longest_none.mp gone other member isList]
    exact (item.length settled (members other member) isList).2
  have used : ∀ p ∈ data1.ri.lists, p.name ∈ ([] : List CStr) ∨ ∃ other ∈ before, other.list = some p.name := by
    intro p member
    refine .inr ?_
    by_contra none'
    have gone : longest (Tester.nValues objs) before p.name = none := longest_none.mpr fun va isArg isList => none' ⟨va,isArg,isList⟩
    rw [lens,lengthOf_mem unique member] at gone
    cases gone
  have whole := total_lengths unique found used
  have sameOutside : outside (choices objs fuel ri0) before = outside (counted objs fuel ri0) before :=
    outside_congr fun other member free => by
      rw [choices,free]
      exact (item.nValues settled (members other member)).1.symm.trans (item.nValues settled (members other member)).2
  rw [unknown_nil,sameOutside] at whole
  simp only [item.parsed.lists,lengths,map_nil,List.prod_nil,Nat.mul_one,Nat.one_mul] at iters whole
  exact iters.trans whole.symm

theorem has_value_plain {va : TestVarArg} (member : va ∈ ri0.enumerated objs) {values : EntityValues}
    (arg : PlainArg objs fuel ri0 ri va values) (name stem : CStr) :
    has_value_with_field_name objs fuel name stem values = some (answers stem name) := by
  rw [has_value_with_field_name,withFieldName]
  split
  · rename_i other
    simp [answers,other]
  · have each : ∀ v ∈ values.head, has_field_name objs name stem fuel v = some (answers stem name) := by
      intro v isValue
      obtain ⟨text,isText,plain,-⟩ := item.plain va member values arg.isValues v isValue
      obtain ⟨fuel,rfl⟩ := Nat.exists_eq_succ_of_ne_zero arg.deep
      rw [has_field_name,isText]
      simp only [some_or,dereference_plain plain,Bool.and_true]
    have any : ∀ l : List Ref, l ≠ [] → (∀ v ∈ l, has_field_name objs name stem fuel v = some (answers stem name)) →
        anyField (has_field_name objs name stem fuel) l = some (answers stem name) := by
      intro l some' each
      induction l with
      | nil => exact (some' rfl).elim
      | cons v l ih =>
        rw [anyField,each v mem_cons_self]
        simp only [bind_eq_bind,bind_some]
        by_cases yes : answers stem name = true
        · rw [if_pos yes,yes]
        · rw [if_neg yes]
          by_cases last : l = []
          · simp [last,yes,anyField]
          · exact ih last fun v member => each v (mem_cons_of_mem _ member)
    exact any values.head arg.given each
end

/-- The outer iterations of an argument, where `n` are counted in front of it. -/
def outerOf (ri : RunItem) (va : TestVarArg) (n : Nat) : Nat :=
  match va.list with
  | none => n
  | some name => (recordOf ri.lists name).getD 0
/-- What the search counts behind an argument that does not answer. -/
def passOver (ri : RunItem) (va : TestVarArg) (r n : Nat) : Nat :=
  if outerOf ri va n = n then (n*r)%UINT_MOD else n

section
variable (item : PlainItem objs ri0) (prepared : prepare_calc_iters objs fuel ri0 = some (none,ri))
include item prepared
theorem find_arg_cb {va : TestVarArg} (member : va ∈ ri0.enumerated objs) (name : CStr) (data : FindArgData) :
    test_run_item_find_arg_cb objs fuel ri name va data = some (
      if answers va.name name then (some .EEXIST,{n_iters := outerOf ri va data.n_iters,n_values := choices objs fuel ri0 va,found := some va})
      else (none,{data with n_iters := passOver ri va (choices objs fuel ri0 va) data.n_iters,n_values := 0})) := by
  have settled := item.settled prepared
  obtain ⟨values,arg⟩ := item.arg settled member
  unfold test_run_item_find_arg_cb
  rw [arg.isValues]
  cases isList : va.list with
  | none =>
    have isChoices : choices objs fuel ri0 va = values.num := by rw [choices,isList,arg.num]; exact arg.count
    simp only [bind_eq_bind,bind_some,has_value_plain item member arg,outerOf,passOver,isList,isChoices]
    split <;> simp
  | some list =>
    obtain ⟨p,found,isLen⟩ := of_map (item.length settled member isList).1
    have isRecord : recordOf ri.lists list = some p.n_iters := by rw [recordOf,found]; rfl
    simp only [bind_eq_bind,bind_some,found,map_some,has_value_plain item member arg,outerOf,passOver,isList,isRecord,
      getD_some,isLen]
    split
    · rfl
    · by_cases same : p.n_iters = data.n_iters <;> simp [same]

theorem PlainItem.fits : ri.n_iters < UINT_MOD := by
  obtain ⟨data,isOut,passed⟩ := prepare_calc_passed item.parsed.types item.parsed.args prepared rfl
  have isRi : ri = {data.ri with n_args := data.n_args,n_iters := data.n_iters} := isOut
  have fits : data.n_iters ≤ TESTER_MAX_ITERS := passed.counts.fits (by decide : 1 ≤ TESTER_MAX_ITERS)
  rw [isRi]
  exact lt_of_le_of_lt fits (by decide)
end
theorem first_split {α : Type} {P : α → Prop} [DecidablePred P] {l : List α} (some' : ∃ x ∈ l, P x) :
    ∃ front x rest, l = front ++ x :: rest ∧ P x ∧ ∀ y ∈ front, ¬P y := by
  induction l with
  | nil => simp at some'
  | cons a l ih =>
    by_cases here : P a
    · exact ⟨[],a,l,rfl,here,by simp⟩
    · obtain ⟨x,member,isP⟩ := some'
      have later : x ∈ l := (mem_cons.mp member).resolve_left fun same => here (same ▸ isP)
      obtain ⟨front,x,rest,rfl,isX,none'⟩ := ih ⟨x,later,isP⟩
      refine ⟨a :: front,x,rest,rfl,isX,fun y member => ?_⟩
      rcases mem_cons.mp member with rfl | member
      · exact here
      · exact none' y member

theorem place_total_dvd (objs : TesterObjects) (fuel : Nat) (ri0 : RunItem) (front rest : List TestVarArg) :
    total (front.map (place objs fuel ri0)) [] ∣ total ((front ++ rest).map (place objs fuel ri0)) [] := by
  rw [map_append]
  exact total_dvd_append _ _ []
theorem place_total_dvd_cons (front rest : List TestVarArg) (va : TestVarArg) :
    total ((front ++ [va]).map (place objs fuel ri0)) [] ∣ total ((front ++ va :: rest).map (place objs fuel ri0)) [] := by
  have whole := place_total_dvd objs fuel ri0 (front ++ [va]) rest
  rwa [append_assoc] at whole
/-- Behind an argument that does not answer, the iterations of one argument more are
    counted. -/
theorem passOver_total (item : PlainItem objs ri0) (prepared : prepare_calc_iters objs fuel ri0 = some (none,ri)) {done : List TestVarArg} {va : TestVarArg}
    (args : ri0.enumerated objs = done ++ va :: after) (recorded : Recorded objs ri0 (done ++ [va])) :
    passOver ri va (choices objs fuel ri0 va) (total (done.map (place objs fuel ri0)) []) = total ((done ++ [va]).map (place objs fuel ri0)) [] := by
  have settled := item.settled prepared
  obtain ⟨positive,all⟩ := item.iters settled
  have member : va ∈ ri0.enumerated objs := by simp [args]
  have divides : total ((done ++ [va]).map (place objs fuel ri0)) [] ∣ ri.n_iters := by
    rw [all,args]
    exact place_total_dvd_cons done after va
  have below : total ((done ++ [va]).map (place objs fuel ri0)) [] < UINT_MOD :=
    lt_of_le_of_lt (Nat.le_of_dvd positive divides) (item.fits prepared)
  have isOld : ∀ name, va.list = some name → (∃ earlier ∈ done, earlier.list = some name) →
      total ((done ++ [va]).map (place objs fuel ri0)) [] = total (done.map (place objs fuel ri0)) [] := by
    grind [total_snoc_old,mem_map_of_mem,place]
  have isNew : (∀ name, va.list = some name → ∀ earlier ∈ done, earlier.list ≠ some name) →
      total ((done ++ [va]).map (place objs fuel ri0)) [] = total (done.map (place objs fuel ri0)) []*choices objs fuel ri0 va := by
    intro none'
    rw [map_append,List.map_singleton,place,total_snoc_new fun name isList => ⟨by simp,fun before => ?_⟩]
    obtain ⟨other,isOther,otherName⟩ := mem_map.mp before
    obtain ⟨earlier,inside,rfl⟩ := mem_map.mp isOther
    exact none' name isList earlier inside otherName
  have frontPositive : 0 < total (done.map (place objs fuel ri0)) [] :=
    Nat.pos_of_dvd_of_pos ((place_total_dvd objs fuel ri0 done [va]).trans divides) positive
  -- a list of length 1 does not matter
  have single : choices objs fuel ri0 va = 1 →
      passOver ri va (choices objs fuel ri0 va) (total (done.map (place objs fuel ri0)) []) = total ((done ++ [va]).map (place objs fuel ri0)) [] := by
    intro one
    have same : total ((done ++ [va]).map (place objs fuel ri0)) [] = total (done.map (place objs fuel ri0)) [] := by grind
    rw [same] at below ⊢
    rw [passOver,one,Nat.mul_one,mod_eq_of_lt below,ite_self]
  have choicesOne : ∀ name, va.list = some name → longest (Tester.nValues objs) (ri0.enumerated objs) name = some 1 → choices objs fuel ri0 va = 1 := by
    intro name isList one
    have len := (item.length settled member isList).2
    rw [one] at len
    exact (some.inj len).symm
  by_cases earlier : ∃ name, va.list = some name ∧ ∃ earlier ∈ done, earlier.list = some name
  · obtain ⟨name,isList,inside⟩ := earlier
    obtain ⟨front,first,rest,rfl,firstList,none'⟩ := first_split inside
    have firstArgs : ri0.enumerated objs = front ++ first :: (rest ++ va :: after) := by rw [args]; simp
    have same : choices objs fuel ri0 first = choices objs fuel ri0 va := by rw [choices,choices,isList,firstList]
    rcases recorded front first (rest ++ [va]) name (by simp) firstList with ⟨earlier,isEarlier,isName⟩ | isFixed | one
    · exact (none' earlier isEarlier isName).elim
    · obtain ⟨record,isRecord,right⟩ := item.record prepared firstArgs firstList none'
      have stays : passOver ri va (choices objs fuel ri0 va) (total ((front ++ first :: rest).map (place objs fuel ri0)) []) =
          total ((front ++ first :: rest).map (place objs fuel ri0)) [] ∨ choices objs fuel ri0 va = 1 := by
        rw [passOver,outerOf,isList]
        simp only [isRecord,getD_some]
        split
        · rename_i equal
          refine .inr ?_
          have more : total ((front ++ [first]).map (place objs fuel ri0)) [] ∣ total ((front ++ first :: rest).map (place objs fuel ri0)) [] := by
            exact place_total_dvd_cons front rest first
          have firstSnoc : total ((front ++ [first]).map (place objs fuel ri0)) [] = total (front.map (place objs fuel ri0)) []*choices objs fuel ri0 va := by
            rw [map_append,List.map_singleton,place,same,total_snoc_new fun name' isName' => ⟨by simp,fun before => ?_⟩]
            obtain ⟨other,isOther,otherName⟩ := mem_map.mp before
            obtain ⟨va',isVa,rfl⟩ := mem_map.mp isOther
            exact none' va' isVa (otherName.trans (isName'.symm.trans firstList))
          have le := Nat.le_of_dvd frontPositive more
          rw [firstSnoc,← equal] at le
          have frontPos : 0 < total (front.map (place objs fuel ri0)) [] := by
            rw [← right isFixed,equal]
            exact frontPositive
          rw [right isFixed] at le
          have bound := Nat.le_of_mul_le_mul_left (le.trans (Nat.mul_one _).ge) frontPos
          have some' := settled.choices_pos item.parsed member
          omega
        · exact .inl rfl
      rcases stays with stays | one
      · rw [stays,isOld name isList ⟨first,by simp,firstList⟩]
      · exact single one
    · exact single (choicesOne name isList one)
  · have whole := isNew fun name isList other inside isName => earlier ⟨name,isList,other,inside,isName⟩
    rw [whole] at below ⊢
    cases isList : va.list with
    | none => simp [isList,below,mod_eq_of_lt,passOver,outerOf]
    | some name =>
      have none' : ∀ other ∈ done, other.list ≠ some name := fun other isOther isName => earlier ⟨name,isList,other,isOther,isName⟩
      rcases recorded done va [] name rfl isList with ⟨other,isOther,isName⟩ | isFixed | one
      · exact (none' other isOther isName).elim
      · obtain ⟨record,isRecord,right⟩ := item.record prepared args isList none'
        rw [passOver,outerOf,isList]
        simp only [isRecord,getD_some,right isFixed,if_true]
        exact mod_eq_of_lt below
      · rw [single (choicesOne name isList one),whole]

/-- A list starts behind the arguments that are outer to its members. -/
theorem outerArgs_first (before after : List TestVarArg) {va : TestVarArg} (isList : va.list = some name) :
    ∃ first rest, before ++ va :: after = outerArgs before va ++ first :: rest ∧ first.list = some name ∧
      ∀ other ∈ outerArgs before va, other.list ≠ some name := by
  rw [outerArgs,if_neg (by simp [isList]),isList]
  have none' : ∀ other ∈ before.takeWhile fun other => other.list ≠ some name, other.list ≠ some name := fun other member => by
    simpa using List.mem_takeWhile_imp member
  have split := takeWhile_append_dropWhile (p := fun other : TestVarArg => decide (other.list ≠ some name)) (l := before)
  cases later : before.dropWhile fun other => other.list ≠ some name with
  | nil =>
    rw [later,append_nil] at split
    exact ⟨va,after,by rw [split],isList,none'⟩
  | cons first rest =>
    have stops := List.head?_dropWhile_not (fun other : TestVarArg => decide (other.list ≠ some name)) before
    rw [later] at split stops
    refine ⟨first,rest ++ va :: after,?_,by simpa using stops,none'⟩
    conv_lhs => rw [← split]
    simp

section
variable (item : PlainItem objs ri0) (prepared : prepare_calc_iters objs fuel ri0 = some (none,ri))
include item prepared
theorem find_arg_loop {done before : List TestVarArg}
    {va : TestVarArg} (args : ri0.enumerated objs = done ++ (before ++ va :: after)) (recorded : va.list = none → Recorded objs ri0 (done ++ before))
    (named : ∀ other ∈ before, answers other.name va.name = false) (data : FindArgData)
    (count : va.list = none → data.n_iters = total (done.map (place objs fuel ri0)) []) (rc : Status) :
    enumArgs (test_run_item_find_arg_cb objs fuel ri va.name) true (before ++ va :: after) rc none data =
      some (some .EEXIST,{n_iters := outerOf ri va (total ((done ++ before).map (place objs fuel ri0)) [])
                          n_values := choices objs fuel ri0 va,found := some va}) := by
  induction before generalizing done data rc with
  | nil =>
    have member : va ∈ ri0.enumerated objs := by simp [args]
    rw [nil_append,enumArgs,find_arg_cb item prepared member,if_pos (answers_self va.name)]
    have same : outerOf ri va data.n_iters = outerOf ri va (total ((done ++ []).map (place objs fuel ri0)) []) := by grind [outerOf]
    simp [same]
  | cons other before ih =>
    have member : other ∈ ri0.enumerated objs := by simp [args]
    rw [cons_append,enumArgs,find_arg_cb item prepared member,named other mem_cons_self]
    have args' : ri0.enumerated objs = (done ++ [other]) ++ (before ++ va :: after) := by rw [args]; simp
    have split : done ++ other :: before = (done ++ [other]) ++ before := by simp
    rw [split] at recorded
    let data' : FindArgData := {data with n_iters := passOver ri other (choices objs fuel ri0 other) data.n_iters,n_values := 0}
    have count' : va.list = none → data'.n_iters = total ((done ++ [other]).map (place objs fuel ri0)) [] := by
      intro free
      have upTo : Recorded objs ri0 (done ++ [other]) := fun front first others name isFront isList =>
        recorded free front first (others ++ before) name (by rw [isFront,append_assoc]; rfl) isList
      have step := passOver_total item prepared (args.trans (by rw [cons_append])) upTo
      rwa [← count free] at step
    have rest := ih args' recorded (fun other member => named other (mem_cons_of_mem _ member)) data' count' none
    rw [split]
    simpa using rest
/-- The search finds a selectable argument with the iterations outer to it. -/
theorem find_arg_selectable {before : List TestVarArg}
    {va : TestVarArg} (args : ri0.enumerated objs = before ++ va :: after) (selectable : Selectable objs ri0 before va) :
    test_run_item_find_arg objs fuel ri va.name =
      some (some (va,choices objs fuel ri0 va,total ((outerArgs before va).map (place objs fuel ri0)) [])) := by
  have settled := item.settled prepared
  have whole : ri0.enumerated objs = [] ++ (before ++ va :: after) := args
  have loop := find_arg_loop item prepared whole selectable.outside selectable.named {n_iters := 1,n_values := 0,found := none}
    (fun _ => rfl) (some .ENOENT)
  have isOuter : outerOf ri va (total (([] ++ before).map (place objs fuel ri0)) []) = total ((outerArgs before va).map (place objs fuel ri0)) [] := by
    unfold outerOf
    cases isList : va.list with
    | none => simp [outerArgs,isList]
    | some name =>
      have right := selectable.inside (by simp [isList])
      obtain ⟨first,rest,isFront,firstList,none'⟩ := outerArgs_first before after isList
      have args' := args.trans isFront
      obtain ⟨record,isRecord,isTotal⟩ := item.record prepared args' firstList none'
      simp only [isRecord,getD_some,isTotal right]
  rw [test_run_item_find_arg,test_run_item_enum_args,settled.enumerated,args,loop,isOuter]
  rfl

/-- The positions outer to an argument and its own share out the iterations evenly. -/
theorem outer_dvd {before : List TestVarArg} {va : TestVarArg} (args : ri0.enumerated objs = before ++ va :: after) :
    total ((outerArgs before va).map (place objs fuel ri0)) []*choices objs fuel ri0 va ∣ ri.n_iters := by
  have settled := item.settled prepared
  rw [(item.iters settled).2]
  have split : ∃ first rest, ri0.enumerated objs = outerArgs before va ++ first :: rest ∧ choices objs fuel ri0 first = choices objs fuel ri0 va ∧
      ∀ k, first.list = some k → ∀ other ∈ outerArgs before va, other.list ≠ some k := by
    cases isList : va.list with
    | none => exact ⟨va,after,by rw [args,outerArgs,if_pos isList],rfl,by simp [isList]⟩
    | some name =>
      obtain ⟨first,rest,isFront,firstList,none'⟩ := outerArgs_first before after isList
      refine ⟨first,rest,args.trans isFront,by rw [choices,choices,isList,firstList],fun k isK => ?_⟩
      obtain rfl := some.inj (firstList.symm.trans isK)
      exact none'
  obtain ⟨first,rest,args',same,none'⟩ := split
  have snoc : total ((outerArgs before va ++ [first]).map (place objs fuel ri0)) [] =
      total ((outerArgs before va).map (place objs fuel ri0)) []*choices objs fuel ri0 va := by
    rw [map_append,List.map_singleton,place,same,total_snoc_new fun k isK => ⟨by simp,fun inside => ?_⟩]
    obtain ⟨other,isOther,otherName⟩ := mem_map.mp inside
    obtain ⟨earlier,isEarlier,rfl⟩ := mem_map.mp isOther
    exact none' k isK earlier isEarlier otherName
  rw [← snoc,args']
  exact place_total_dvd_cons _ rest first
end
/-- The index of an argument in an iteration, by the positions of the arguments outer to it. -/
def indexAt (objs : TesterObjects) (fuel : Nat) (ri0 : RunItem) (n_iters : Nat) (before : List TestVarArg) (va : TestVarArg) (i : Nat) : Nat :=
  i/(n_iters/(total ((outerArgs before va).map (place objs fuel ri0)) []*choices objs fuel ri0 va))%choices objs fuel ri0 va
theorem indices_at (item : PlainItem objs ri0) (prepared : prepare_calc_iters objs fuel ri0 = some (none,ri)) {before : List TestVarArg}
    {va : TestVarArg} (args : ri0.enumerated objs = before ++ va :: after) (less : i < ri.n_iters) {positions : List Nat}
    (got : ri.indices objs i = some positions) (combination : Combination objs fuel ri positions) :
    positions[before.length]? = some (indexAt objs fuel ri0 ri.n_iters before va i) := by
  have settled := item.settled prepared
  obtain ⟨positive,all⟩ := item.iters settled
  have places : decodePlaces objs ri0 ri = (ri0.enumerated objs).map (place objs fuel ri0) :=
    map_congr_left fun va member => by rw [place,((item.countedRight settled).radix settled item.parsed member).1]
  rw [settled.indices item.parsed,places] at got
  cases isList : va.list with
  | none =>
    rw [args,map_append,map_cons,place,isList] at got
    have digit := digits_at positive less rfl (by simp) got
    rw [length_map] at digit
    rw [digit,indexAt,outerArgs,if_pos isList]
    rfl
  | some name =>
    obtain ⟨first,rest,isFront,firstList,none'⟩ := outerArgs_first before after isList
    have args' := args.trans isFront
    have same : choices objs fuel ri0 first = choices objs fuel ri0 va := by rw [choices,choices,isList,firstList]
    rw [args',map_append,map_cons,place,firstList] at got
    have new : ∀ k, some name = some k → some k ∉ ((outerArgs before va).map (place objs fuel ri0)).map Prod.fst := by
      rintro k isK inside
      obtain ⟨other,isOther,otherName⟩ := mem_map.mp inside
      obtain ⟨earlier,isEarlier,rfl⟩ := mem_map.mp isOther
      exact none' earlier isEarlier (otherName.trans isK.symm)
    have digit := digits_at positive less rfl new got
    rw [length_map,same] at digit
    -- the members of a list have the same position
    obtain ⟨common,fits⟩ := (settled.combination positions).mp combination
    rw [List.forall₂_map_left_iff,List.forall₂_iff_get] at fits
    obtain ⟨len,fits⟩ := fits
    have common_at : ∀ k (inside : k < (ri0.enumerated objs).length), ((ri0.enumerated objs)[k]).list = some name → positions[k]? = some (common name) := by
      intro k inside isName
      have fit := (fits k inside (len ▸ inside)).2 name isName
      rw [getElem?_eq_getElem (len ▸ inside)]
      exact congrArg some fit
    have firstAt : positions[(outerArgs before va).length]? = some (common name) :=
      common_at _ (by simp [args']) (by simp [args',firstList])
    have vaAt : positions[before.length]? = some (common name) := common_at _ (by simp [args]) (by simp [args,isList])
    rw [vaAt,← firstAt,digit,indexAt]
    rfl
end

section
variable {objs : TesterObjects} {fuel : Nat} {env : MatchEnv} {ctxs : List (RunItem × Nat)} {path_arg : TestPathArg} {va : TestVarArg}

/-- The text of a plain value. -/
def textOf (objs : TesterObjects) (value : Ref) : CStr := ((objs.value value).plain).getD []
/-- A value of the argument is requested. -/
def accepted (env : MatchEnv) (path_arg : TestPathArg) (text : CStr) : Bool := path_arg.values.any fun cur_value => has_compound_value env path_arg cur_value text

theorem matchValues_plain {text : CStr} (plain : PlainText text) (named : path_arg.name = va.name) {values : List CStr} {data : ArgValueData}
    (room : data.index < data.bm.length) : matchValues env path_arg va.name text values data =
      some (if values.any fun cur_value => has_compound_value env path_arg cur_value text then {data with found := true,bm := data.bm.set data.index true} else data) := by
  induction values generalizing data with
  | nil => rfl
  | cons cur_value values ih =>
    rw [matchValues,dereference_plain plain,named,answers_self,Bool.true_and]
    by_cases yes : has_compound_value env path_arg cur_value text = true
    · simp [yes,room,ih]
    · rw [if_neg yes,ih room]
      simp [yes]

/-- What the values from some on add to the bit mask of an argument. -/
structure Matched (objs : TesterObjects) (env : MatchEnv) (path_arg : TestPathArg) (va : TestVarArg) (l : List Ref) (data data' : ArgValueData) : Prop where
  length : data'.bm.length = data.bm.length
  bits : ∀ p, data'.bm.getD p false = true ↔ data.bm.getD p false = true ∨
    ∃ j v, p = data.index+j ∧ l[j]? = some v ∧ accepted env path_arg (textOf objs v) = true
  found : data'.found = true ↔ data.found = true ∨ ∃ v ∈ l, accepted env path_arg (textOf objs v) = true
  preferred : ∀ v, va.preferred = some v → v ∈ l → ∃ j, l[j]? = some v ∧ data'.pref_i = data.index+j
  other : (∀ v, va.preferred = some v → v ∉ l) → data'.pref_i = data.pref_i

theorem visit_match (objs : TesterObjects) (fuel : Nat) (env : MatchEnv) (ctxs : List (RunItem × Nat)) (named : path_arg.name = va.name) {l : List Ref} (plain : ∀ v ∈ l, ∃ text, (objs.value v).plain = some text ∧ PlainText text)
    {data : ArgValueData} (room : data.index+l.length ≤ data.bm.length) :
    ∃ data', visit (test_path_arg_value_cb objs fuel env ctxs path_arg va) l none (some data) = (none,some data') ∧ Matched objs env path_arg va l data data' := by
  induction l generalizing data with
  | nil => exact ⟨data,rfl,rfl,by simp,by simp,by simp,fun _ => rfl⟩
  | cons v l ih =>
    obtain ⟨text,isText,isPlain⟩ := plain v mem_cons_self
    rw [length_cons] at room
    have isTextOf : textOf objs v = text := by rw [textOf,isText]; rfl
    let pref := if va.preferred = some v then data.index else data.pref_i
    let yes := accepted env path_arg text
    let data1 : ArgValueData := ⟨if yes then data.bm.set data.index true else data.bm,data.index+1,data.found || yes,pref⟩
    have step : test_path_arg_value_cb objs fuel env ctxs path_arg va v (some data) = (none,some data1) := by
      have start : (if va.preferred = some v then {data with pref_i := data.index} else data) = {data with pref_i := pref} := by
        by_cases same : va.preferred = some v <;> simp [pref,same]
      rw [test_path_arg_value_cb]
      simp only [start,isText]
      rw [matchValues_plain isPlain named (show ({data with pref_i := pref} : ArgValueData).index < _ from lt_of_lt_of_le (by simp) room)]
      by_cases isYes : accepted env path_arg text = true
      · have any : (path_arg.values.any fun cur_value => has_compound_value env path_arg cur_value text) = true := isYes
        simp [any,data1,yes,isYes]
      · have any : (path_arg.values.any fun cur_value => has_compound_value env path_arg cur_value text) = false := Bool.eq_false_of_not_eq_true isYes
        simp [any,data1,yes,isYes]
    have length1 : data1.bm.length = data.bm.length := by
      by_cases isYes : yes = true <;> simp [data1,isYes]
    have room1 : data1.index+l.length ≤ data1.bm.length := by
      show data.index+1+l.length ≤ data1.bm.length
      omega
    obtain ⟨data',rest,matched⟩ := ih (fun v member => plain v (mem_cons_of_mem _ member)) room1
    refine ⟨data',?_,?_⟩
    · rw [visit,step]
      exact rest
    · have bits1 : ∀ p, data1.bm.getD p false = true ↔ data.bm.getD p false = true ∨ (p = data.index ∧ yes = true) := by grind
      refine ⟨matched.length.trans length1,fun p => ?_,?_,?_,?_⟩
      · rw [matched.bits,bits1]
        constructor
        · rintro ((before | ⟨rfl,isYes⟩) | ⟨j,w,rfl,isW,isYes⟩)
          · exact .inl before
          · exact .inr ⟨0,v,rfl,rfl,isTextOf ▸ isYes⟩
          · exact .inr ⟨j+1,w,by show data.index+1+j = _; omega,isW,isYes⟩
        · grind
      · rw [matched.found]
        simp only [data1,or_eq_true,mem_cons,exists_eq_or_imp,isTextOf,yes]
        tauto
      · intro w isPreferred member
        by_cases later : w ∈ l
        · obtain ⟨j,isW,isIndex⟩ := matched.preferred w isPreferred later
          exact ⟨j+1,by simpa using isW,by rw [isIndex]; show data.index+1+j = _; omega⟩
        · obtain rfl := (mem_cons.mp member).resolve_right later
          refine ⟨0,rfl,?_⟩
          rw [matched.other fun w' isW' => by rw [isPreferred] at isW'; exact some.inj isW' ▸ later]
          simp [data1,pref,isPreferred]
      · intro none'
        rw [matched.other fun w isPreferred member => none' w isPreferred (mem_cons_of_mem _ member)]
        have notHere : va.preferred ≠ some v := fun same => none' v same mem_cons_self
        simp [data1,pref,notHere]

variable {bm : List Bool}

theorem mapIdx_bit {f : Nat → Bool → Bool} (less : i < bm.length) : (bm.mapIdx f).getD i false = f i (bm.getD i false) := by
  simp [List.getD_eq_getElem?_getD,less]
/-- The text of an argument at a position. -/
def positionText (objs : TesterObjects) (va : TestVarArg) (p : Nat) : CStr :=
  ((((test_var_arg_values objs va).bind fun values => values.head[p]?).or (lastValue objs va)).map (textOf objs)).getD []

variable {ri0 ri : RunItem}

theorem positionText_mem {values : EntityValues} (arg : PlainArg objs fuel ri0 ri va values) (read : ArgRead objs va) (p : Nat) :
    ∃ v ∈ values.head, positionText objs va p = textOf objs v ∧ (∀ w, values.head[p]? = some w → v = w) ∧ (values.head[p]? = none → lastValue objs va = some v) := by
  rw [positionText,arg.isValues,bind_some]
  cases isValue : values.head[p]? with
  | some v => exact ⟨v,mem_of_getElem? isValue,rfl,by simp,by simp⟩
  | none =>
    obtain ⟨last,member,isLast,-⟩ := lastValue_mem read arg.isValues arg.given
    exact ⟨last,member,by rw [isLast]; rfl,by simp,fun _ => isLast⟩
/-- The bits of the values of an argument, with those behind its values. -/
theorem arg_bits (item : PlainItem objs ri0) (member : va ∈ ri0.enumerated objs) {values : EntityValues} (arg : PlainArg objs fuel ri0 ri va values)
    {n_values : Nat} {data : ArgValueData}
    (matched : Matched objs env path_arg va values.head ⟨replicate n_values false,0,false,0⟩ data) {arg_bm : List Bool}
    (isMask : arg_bm = if values.num < n_values then spreadPreferred data values.num else data.bm) {p : Nat} (less : p < n_values) :
    arg_bm.length = n_values ∧ (arg_bm.getD p false = true ↔ accepted env path_arg (positionText objs va p) = true) := by
  have length : data.bm.length = n_values := by simpa using matched.length
  have bits : ∀ q, data.bm.getD q false = true ↔ ∃ v, values.head[q]? = some v ∧ accepted env path_arg (textOf objs v) = true := by
    intro q
    rw [matched.bits]
    constructor
    · grind
    · grind
  obtain ⟨last,isMember,isLast,isPreferred⟩ := lastValue_mem (item.parsed.args va member) arg.isValues arg.given
  have prefBit : data.bm.getD data.pref_i false = true ↔ accepted env path_arg (textOf objs last) = true := by
    rw [bits]
    have isPref : values.head[data.pref_i]? = some last := by
      cases preferred : va.preferred with
      | some v =>
        obtain rfl := isPreferred v preferred
        obtain ⟨j,isV,isIndex⟩ := matched.preferred last preferred isMember
        simpa [isIndex] using isV
      | none =>
        have zero : data.pref_i = 0 := matched.other fun v isV => by rw [preferred] at isV; cases isV
        rw [lastValue,preferred,arg.isValues,Option.none_or,bind_some] at isLast
        rw [zero,← List.head?_eq_getElem?,isLast]
    rw [isPref]
    simp
  obtain ⟨v,isV,isText,atV,behindV⟩ := positionText_mem arg (item.parsed.args va member) p
  have bit : data.bm.getD p false = true ↔ p < values.num ∧ accepted env path_arg (positionText objs va p) = true := by
    rw [bits,isText,arg.num]
    constructor
    · grind
    · grind
  by_cases behind : values.num < n_values
  · rw [if_pos behind] at isMask
    unfold spreadPreferred at isMask
    split at isMask
    · rename_i pref
      subst isMask
      refine ⟨by simpa using length,?_⟩
      rw [mapIdx_bit (by omega),or_eq_true,bit,decide_eq_true_eq]
      by_cases inside : p < values.num
      · simp [inside]
      · rw [isText]
        have beyond : values.head[p]? = none := getElem?_eq_none (by rw [← arg.num]; omega)
        obtain rfl : last = v := some.inj (isLast.symm.trans (behindV beyond))
        simp only [prefBit.mp pref,inside,false_and,false_or,iff_true]
        omega
    · grind
  · grind

theorem and_expanded {lhv rhv : List Bool} {times : Nat} (positive : 0 < lhv.length) (below : lhv.length < UINT_MOD) (divides : rhv.length*times ∣ lhv.length) :
    ∃ bm, bit_mask_and_expanded lhv rhv times = some bm ∧ bm.length = lhv.length ∧ ∀ i < lhv.length,
      bm.getD i false = (lhv.getD i false && rhv.getD (i/(lhv.length/(rhv.length*times))%rhv.length) false) := by
  have parts : (rhv.length*times)%UINT_MOD = rhv.length*times := mod_eq_of_lt (lt_of_le_of_lt (Nat.le_of_dvd positive divides) below)
  have some' : ¬(rhv.length*times = 0 ∨ lhv.length%(rhv.length*times) ≠ 0) := by grind [Nat.mod_eq_zero_of_dvd]
  let bm := lhv.mapIdx fun i isSet => isSet && rhv.getD (i/(lhv.length/(rhv.length*times))%rhv.length) false
  have isMask : bit_mask_and_expanded lhv rhv times = some bm := by
    rw [bit_mask_and_expanded]
    simp only [parts,if_neg some',bm]
  exact ⟨bm,isMask,List.length_mapIdx,fun i less => mapIdx_bit less⟩
/-- The mask that a selectable argument leaves. -/
theorem matchArg_selectable (item : PlainItem objs ri0) (prepared : prepare_calc_iters objs fuel ri0 = some (none,ri)) {before : List TestVarArg}
    (args : ri0.enumerated objs = before ++ va :: after) (selectable : Selectable objs ri0 before va) (named : path_arg.name = va.name)
    (length : bm.length = ri.n_iters) : ∃ outcome, matchArg objs fuel env ctxs ri bm path_arg = some outcome ∧
      ((outcome = .unmatched ∧ ∀ p, accepted env path_arg (positionText objs va p) = false) ∨
        ∃ bm', outcome = .mask bm' ∧ bm'.length = bm.length ∧ ∀ i < ri.n_iters, (bm'.getD i false = true ↔
          bm.getD i false = true ∧ accepted env path_arg (positionText objs va (indexAt objs fuel ri0 ri.n_iters before va i)) = true)) := by
  have settled := item.settled prepared
  have member : va ∈ ri0.enumerated objs := by simp [args]
  obtain ⟨positive,all⟩ := item.iters settled
  obtain ⟨values,arg⟩ := item.arg settled member
  have plain : ∀ v ∈ values.head, ∃ text, (objs.value v).plain = some text ∧ PlainText text := fun v isV => by
    obtain ⟨text,isText,isPlain,-⟩ := item.plain va member values arg.isValues v isV
    exact ⟨text,isText,isPlain⟩
  have some' := settled.choices_pos item.parsed member
  have room : values.head.length ≤ choices objs fuel ri0 va := by
    rw [← arg.count,choices]
    cases isList : va.list with
    | none => exact le_rfl
    | some name => exact listLen_ge member isList
  let data0 : ArgValueData := ⟨replicate (choices objs fuel ri0 va) false,0,false,0⟩
  have room0 : data0.index+values.head.length ≤ data0.bm.length := by simpa [data0] using room
  obtain ⟨data,visited,matched⟩ := visit_match objs fuel env ctxs named plain room0
  have enum : test_var_arg_enum_values objs (test_path_arg_value_cb objs fuel env ctxs path_arg va) fuel (some ri) va (some data0) =
      some (none,some data) := (singletons_visits arg.single _ (some data0)).trans (congrArg some visited)
  have start : matchArg objs fuel env ctxs ri bm path_arg =
      if !data.found then some .unmatched
      else (bit_mask_and_expanded bm (if values.num < choices objs fuel ri0 va then spreadPreferred data values.num else data.bm)
        (total ((outerArgs before va).map (place objs fuel ri0)) [])).map .mask := by
    rw [matchArg,named,find_arg_selectable item prepared args selectable]
    simp only [bind_eq_bind,bind_some,if_neg (show ¬choices objs fuel ri0 va = 0 by omega)]
    rw [show test_var_arg_enum_values objs (test_path_arg_value_cb objs fuel env ctxs path_arg va) fuel (some ri) va
      (some ⟨replicate (choices objs fuel ri0 va) false,0,false,0⟩) = some (none,some data) from enum]
    simp only [bind_some,arg.isValues]
    split
    · rfl
    · rw [Option.map_eq_bind]
      rfl
  rw [start]
  by_cases found : data.found = true
  · have argBits : ∀ p, p < choices objs fuel ri0 va → _ := fun p less => arg_bits item member arg matched rfl less
    have len := (argBits 0 some').1
    generalize (if values.num < choices objs fuel ri0 va then spreadPreferred data values.num else data.bm) = arg_bm at argBits len ⊢
    have divides := outer_dvd item prepared args
    rw [Nat.mul_comm,← len,← length] at divides
    obtain ⟨bm',isMask,length',bits⟩ := and_expanded (length ▸ positive) (length ▸ item.fits prepared) divides
    refine ⟨.mask bm',by simp [found,isMask],.inr ⟨bm',rfl,length',fun i less => ?_⟩⟩
    rw [bits i (length ▸ less),and_eq_true,len,length,Nat.mul_comm (choices objs fuel ri0 va)]
    exact and_congr_right fun _ => (argBits _ (mod_lt _ some')).2
  · refine ⟨.unmatched,by simp [found],.inl ⟨rfl,fun p => ?_⟩⟩
    obtain ⟨v,isV,isText,-⟩ := positionText_mem arg (item.parsed.args va member) p
    rw [isText]
    by_contra yes
    exact found (matched.found.mpr (.inr ⟨v,isV,by simpa using yes⟩))

/-- An argument has a requested value. -/
def Requested (env : MatchEnv) (path_arg : TestPathArg) (text : CStr) : Prop :=
  match path_arg.«match» with
  | .TEST_PATH_EXACT => text ∈ path_arg.values
  | .TEST_PATH_GLOB => ∃ pattern ∈ path_arg.values, env.fnmatch pattern text = true
/-- No requested value stands for an environment variable. -/
def NoVariables (path_arg : TestPathArg) : Prop :=
  path_arg.«match» = .TEST_PATH_EXACT → ∀ value ∈ path_arg.values, strip_prefix TEST_ARG_VAR_PREFIX value = none
theorem accepted_iff (noVariables : NoVariables path_arg) (text : CStr) : accepted env path_arg text = true ↔ Requested env path_arg text := by
  unfold accepted Requested
  rw [any_eq_true]
  cases style : path_arg.«match» with
  | TEST_PATH_EXACT =>
    simp only [has_compound_value,style]
    constructor
    · rintro ⟨value,member,same⟩
      rw [if_pos (noVariables style value member)] at same
      exact (of_decide_eq_true same) ▸ member
    · intro member
      exact ⟨text,member,by simp [noVariables style text member]⟩
  | TEST_PATH_GLOB => simp only [has_compound_value,style]

/-- The iterations that the outcome keeps. -/
def ArgOutcome.keeps : ArgOutcome → Nat → Bool
  | .mask bm, i => bm.getD i false
  | _, _ => false
/-- In an iteration the argument of the name gets a requested value. -/
def AssignsRequested (objs : TesterObjects) (fuel : Nat) (ctx_args : List TestIterArg) (env : MatchEnv) (ri : RunItem) (path_arg : TestPathArg) (i : Nat) : Prop :=
  ∃ rc args, run_prepare_args objs fuel ctx_args ri i = some (rc,args) ∧ ∃ arg ∈ args, arg.name = path_arg.name ∧ Requested env path_arg arg.value
end

section
variable {objs : TesterObjects} {fuel : Nat} {ri0 ri : RunItem} {env : MatchEnv}

variable {ctx_args : List TestIterArg}

section
variable (item : PlainItem objs ri0) (prepared : prepare_calc_iters objs fuel ri0 = some (none,ri))
include item prepared
/-- The text at a position is what the argument is given there. -/
theorem assigned_text {va : TestVarArg} (member : va ∈ ri0.enumerated objs)
    {p : Nat} {arg : TestIterArg} (isAssigned : Assigned objs fuel ctx_args ri va p arg) : arg.value = positionText objs va p := by
  have settled := item.settled prepared
  obtain ⟨values,known⟩ := item.arg settled member
  obtain ⟨-,value,text,isValue,isText,isArg⟩ := isAssigned
  obtain ⟨v,isV,isTextOf,atV,behindV⟩ := positionText_mem known (item.parsed.args va member) p
  obtain ⟨plainText,isPlain,-,notGlobal⟩ := item.plain va member values known.isValues v isV
  obtain ⟨fuel,rfl⟩ := Nat.exists_eq_succ_of_ne_zero known.deep
  have same : value = v := by
    rw [valueAt,known.single] at isValue
    simp only [] at isValue
    cases inside : values.head[p]? with
    | some w => grind
    | none =>
      have beyond := List.getElem?_eq_none_iff.mp inside
      rw [if_neg (Nat.not_lt_of_ge beyond),behindV inside,bind_some,followRef,if_neg (by simp [isPlain])] at isValue
      rw [item.parsed.plain v (by simp [isPlain])] at isValue
      exact (some.inj isValue).symm
  subst same
  rw [run_get_value,isPlain] at isText
  simp only [notGlobal] at isText
  obtain rfl : some plainText = text := by simpa using isText
  rw [isArg,isTextOf,textOf,isPlain]
  rfl
theorem assigns_requested_iff {before : List TestVarArg}
    {va : TestVarArg} (args : ri0.enumerated objs = before ++ va :: after) {path_arg : TestPathArg} (named : path_arg.name = va.name)
    (less : i < ri.n_iters) :
    AssignsRequested objs fuel ctx_args env ri path_arg i ↔ Requested env path_arg (positionText objs va (indexAt objs fuel ri0 ri.n_iters before va i)) := by
  have settled := item.settled prepared
  have enumerates : EnumeratesOnce objs fuel ctx_args ri := (item.countedRight settled).enumerates settled item.parsed ctx_args
  obtain ⟨rc,out,positions,isRun,isIndices,combination,assigned,len⟩ := enumerates.runs i less
  have index := indices_at item prepared args less isIndices combination
  rw [settled.enumerated,List.forall₂_iff_get] at assigned
  obtain ⟨sameLen,assigned⟩ := assigned
  rw [List.length_zip,len,Nat.min_self] at sameLen
  have eachArg : ∀ k (inside : k < (ri0.enumerated objs).length), ∃ arg p, out[k]? = some arg ∧ positions[k]? = some p ∧
      Assigned objs fuel ctx_args ri (ri0.enumerated objs)[k] p arg := by grind
  have inside : before.length < (ri0.enumerated objs).length := by simp [args]
  have isVa : (ri0.enumerated objs)[before.length] = va := by simp [args]
  have member : va ∈ ri0.enumerated objs := by simp [args]
  constructor
  · rintro ⟨rc',out',isRun',arg,isArg,isName,requested⟩
    obtain rfl : out = out' := (of_pair (isRun.symm.trans isRun')).2
    obtain ⟨k,inOut,rfl⟩ := List.mem_iff_getElem.mp isArg
    obtain ⟨arg,p,isOut,isP,isAssigned⟩ := eachArg k (by omega)
    obtain rfl : out[k] = arg := some.inj ((getElem?_eq_getElem inOut).symm.trans isOut)
    have inNames : k < ((ri0.enumerated objs).map TestVarArg.name).length := by simp; omega
    have inNames' : before.length < ((ri0.enumerated objs).map TestVarArg.name).length := by simpa using inside
    have sameName : ((ri0.enumerated objs).map TestVarArg.name)[k] = ((ri0.enumerated objs).map TestVarArg.name)[before.length] := by
      rw [List.getElem_map,List.getElem_map,isVa,← named,← isName,isAssigned.1]
    obtain rfl := (item.names.getElem_inj_iff).mp sameName
    rw [isVa] at isAssigned
    rw [assigned_text item prepared member isAssigned] at requested
    obtain rfl := some.inj (isP.symm.trans index)
    exact requested
  · intro requested
    obtain ⟨arg,p,isOut,isP,isAssigned⟩ := eachArg before.length inside
    rw [isVa] at isAssigned
    obtain rfl := some.inj (isP.symm.trans index)
    refine ⟨rc,out,isRun,arg,mem_of_getElem? isOut,isAssigned.1.trans named.symm,?_⟩
    rwa [assigned_text item prepared member isAssigned]
end

/-- A test path keeps the iterations in which all its arguments get a requested value, where
    the arguments are selectable. -/
theorem path_selects (item : PlainItem objs ri0) (prepared : prepare_calc_iters objs fuel ri0 = some (none,ri)) (ctxs : List (RunItem × Nat))
    (ctx_args : List TestIterArg) (path_args : List TestPathArg)
    (selectable : ∀ path_arg ∈ path_args, NoVariables path_arg ∧ ∃ before va after, ri0.enumerated objs = before ++ va :: after ∧
      va.name = path_arg.name ∧ Selectable objs ri0 before va) :
    ∃ outcome, matchArgs objs fuel env ctxs ri path_args (replicate ri.n_iters true) = some outcome ∧
      ∀ i < ri.n_iters, outcome.keeps i = true ↔ ∀ path_arg ∈ path_args, AssignsRequested objs fuel ctx_args env ri path_arg i := by
  have loop : ∀ (path_args : List TestPathArg) (bm : List Bool), bm.length = ri.n_iters →
      (∀ path_arg ∈ path_args, NoVariables path_arg ∧ ∃ before va after, ri0.enumerated objs = before ++ va :: after ∧
        va.name = path_arg.name ∧ Selectable objs ri0 before va) →
      ∃ outcome, matchArgs objs fuel env ctxs ri path_args bm = some outcome ∧ ∀ i < ri.n_iters,
        outcome.keeps i = true ↔ bm.getD i false = true ∧ ∀ path_arg ∈ path_args, AssignsRequested objs fuel ctx_args env ri path_arg i := by
    intro path_args
    induction path_args with
    | nil => exact fun bm _ _ => ⟨.mask bm,rfl,fun i _ => by simp [ArgOutcome.keeps]⟩
    | cons path_arg rest ih =>
      intro bm length selectable
      obtain ⟨noVariables,before,va,after,args,named,isSelectable⟩ := selectable path_arg mem_cons_self
      obtain ⟨outcome,isOutcome,result⟩ : ∃ outcome, matchArg objs fuel env ctxs ri bm path_arg = some outcome ∧ _ :=
        matchArg_selectable item prepared args isSelectable named.symm length
      have iff_text : ∀ i < ri.n_iters, AssignsRequested objs fuel ctx_args env ri path_arg i ↔
          accepted env path_arg (positionText objs va (indexAt objs fuel ri0 ri.n_iters before va i)) = true := fun i less =>
        (assigns_requested_iff item prepared args named.symm less).trans (accepted_iff noVariables _).symm
      rcases result with ⟨rfl,none'⟩ | ⟨bm',rfl,length',bits⟩
      · refine ⟨.unmatched,by rw [matchArgs,isOutcome]; rfl,fun i less => ?_⟩
        simp only [ArgOutcome.keeps,false_eq_true,false_iff,not_and]
        intro _ all
        have yes := (iff_text i less).mp (all path_arg mem_cons_self)
        rw [none'] at yes
        cases yes
      · obtain ⟨outcome,isRest,keeps⟩ := ih bm' (length'.trans length) fun path_arg member => selectable path_arg (mem_cons_of_mem _ member)
        refine ⟨outcome,by rw [matchArgs,isOutcome]; exact isRest,fun i less => ?_⟩
        rw [keeps i less,bits i less,forall_mem_cons,iff_text i less,and_assoc]
  obtain ⟨outcome,isOutcome,keeps⟩ := loop path_args (replicate ri.n_iters true) (by simp) selectable
  refine ⟨outcome,isOutcome,fun i less => ?_⟩
  rw [keeps i less]
  simp [List.getD_eq_getElem?_getD,less]
end

section
/-- Plain values, each its number. -/
def digitObjects : TesterObjects where
  value v := ⟨none,none,some [Char.ofNat (48+v)],none,none,false⟩
  type _ := ⟨⟨[0],1⟩,none⟩
  session _ := ⟨none,[]⟩
def digitEnv : MatchEnv := ⟨fun _ => none,fun _ _ => false⟩
/-- Two lists, the first of which grows behind the start of the second or not. -/
def twoLists (grows : Bool) : RunItem where
  context := none
  args := [⟨"a".toList,none,if grows then ⟨[0],1⟩ else ⟨[0,1,2],3⟩,some "l".toList,none,true⟩,⟨"b".toList,none,⟨[0,1],2⟩,some "m".toList,none,true⟩,
    ⟨"c".toList,none,if grows then ⟨[0,1,2],3⟩ else ⟨[0],1⟩,some "l".toList,none,true⟩]
  lists := []
  n_args := 0
  n_iters := 0
def twoListsPrepared (grows : Bool) : RunItem :=
  {twoLists grows with lists := [⟨"m".toList,2,if grows then 1 else 3⟩,⟨"l".toList,3,1⟩],n_args := 3,n_iters := 6}
/-- `b={0}`. -/
def firstOfB : TestPathArg := ⟨"b".toList,.TEST_PATH_EXACT,["0".toList]⟩

theorem twoLists_prepared (grows : Bool) : prepare_calc_iters digitObjects 2 (twoLists grows) = some (none,twoListsPrepared grows) := by
  cases grows <;> decide
theorem twoLists_plain (grows : Bool) : PlainItem digitObjects (twoLists grows) := by
  have args : (twoLists grows).enumerated digitObjects = (twoLists grows).args := rfl
  refine ⟨⟨fun _ => ⟨by simp [digitObjects],rfl⟩,fun _ _ => rfl,fun va member => ?_,rfl⟩,by rw [args]; simp [twoLists],
    fun va member values isValues v isV => ?_,fun va member values isValues => ?_⟩
  all_goals
    rw [args] at member
    simp only [twoLists,mem_cons,not_mem_nil,or_false] at member
  · cases grows <;> rcases member with rfl | rfl | rfl <;> exact ⟨rfl,by simp⟩
  · have digit : v = 0 ∨ v = 1 ∨ v = 2 := by
      cases grows <;> rcases member with rfl | rfl | rfl <;> obtain rfl := some.inj isValues <;> revert v <;> decide
    rcases digit with rfl | rfl | rfl <;> exact ⟨_,rfl,⟨by simp,by decide,by decide⟩,rfl⟩
  · cases grows <;> rcases member with rfl | rfl | rfl <;> obtain rfl := some.inj isValues <;> decide
/-- The iterations of `b` are counted without those of the list that starts before it and
    grows behind it. -/
theorem grown_list_selects_wrong : PlainItem digitObjects (twoLists true) ∧
    prepare_calc_iters digitObjects 2 (twoLists true) = some (none,twoListsPrepared true) ∧
    matchArgs digitObjects 2 digitEnv [] (twoListsPrepared true) [firstOfB] (replicate 6 true) = some (.mask [true,true,true,false,false,false]) ∧
    ¬AssignsRequested digitObjects 2 [] digitEnv (twoListsPrepared true) firstOfB 1 := by
  refine ⟨twoLists_plain true,twoLists_prepared true,by decide +kernel,?_⟩
  rintro ⟨rc,args,isRun,arg,isArg,isName,requested⟩
  have run : run_prepare_args digitObjects 2 [] (twoListsPrepared true) 1 =
      some (none,[⟨"a".toList,"0".toList⟩,⟨"b".toList,"1".toList⟩,⟨"c".toList,"0".toList⟩]) := by decide
  obtain ⟨-,rfl⟩ := of_pair (run.symm.trans isRun)
  simp only [mem_cons,not_mem_nil,or_false] at isArg
  rcases isArg with rfl | rfl | rfl
  · exact absurd isName (by decide)
  · exact absurd (show "1".toList ∈ ["0".toList] from requested) (by decide)
  · exact absurd isName (by decide)
/-- Where the first list does not grow, `b` selects. -/
theorem path_selects_two_lists : ∃ outcome, matchArgs digitObjects 2 digitEnv [] (twoListsPrepared false) [firstOfB] (replicate 6 true) = some outcome ∧
    ∀ i < 6, outcome.keeps i = true ↔ ∀ path_arg ∈ [firstOfB], AssignsRequested digitObjects 2 [] digitEnv (twoListsPrepared false) path_arg i := by
  refine path_selects (twoLists_plain false) (twoLists_prepared false) [] [] [firstOfB] fun path_arg member => ?_
  obtain rfl := mem_singleton.mp member
  refine ⟨by unfold NoVariables; decide,(twoLists false).args.take 1,_,(twoLists false).args.drop 2,rfl,rfl,by decide,fun _ name starts => ?_,fun free => by cases free⟩
  have front : outerArgs ((twoLists false).args.take 1) ⟨"b".toList,none,⟨[0,1],2⟩,some "m".toList,none,true⟩ = (twoLists false).args.take 1 := by decide
  by_cases isL : name = "l".toList
  · subst isL
    decide
  · rw [front] at starts
    exact (isL (Eq.symm (by simpa [twoLists,longest] using starts))).elim
end
end TestEnvironment.Tester
