import TestEnvironment.Tester.Iterations

/-!
The singletons of an argument: what an enumeration of its values visits, and how
their number compares with the one that was counted when the values were read.
-/
namespace TestEnvironment.Tester
open Lib

variable {fuel : Nat} {ri : RunItem} {va : TestVarArg}

section
variable {objs : TesterObjects} {l : List Ref} {rc : Status}

def collect (value : Ref) (acc : List Ref) : Status × List Ref := (none,acc ++ [value])
/-- The singletons of an argument, and the status behind the last of them. -/
def singletons (objs : TesterObjects) (fuel : Nat) (ri : RunItem) (va : TestVarArg) : Option (Status × List Ref) :=
  test_var_arg_enum_values objs collect fuel (some ri) va []
/-- The number of singletons. -/
def valueCount (objs : TesterObjects) (fuel : Nat) (ri : RunItem) (va : TestVarArg) : Nat :=
  match singletons objs fuel ri va with
  | some (_,l) => l.length
  | none => 0

theorem visit_collect (acc : List Ref) : visit collect l rc acc = (rc,acc ++ l) := by
  induction l generalizing acc with
  | nil => simp [visit]
  | cons v l ih => simp [ih,visit,collect]
theorem visit_count {n : Nat} : visit prepare_arg_value_cb l rc n = (rc,if l = [] then n else (n+l.length)%UINT_MOD) := by
  induction l generalizing n with
  | nil => simp [visit]
  | cons v l ih => simp_all [Nat.add_right_comm,Nat.add_assoc,visit,prepare_arg_value_cb]
theorem visit_get {index n : Nat} (le : n ≤ index) : visit (test_var_arg_get_plain_value_cb index) l rc (n,none) =
    match l[index-n]? with
    | some value => (some .EEXIST,index,some value)
    | none => (rc,n+l.length,none) := by
  induction l generalizing n with
  | nil => simp [visit]
  | cons v l ih =>
    rw [visit,test_var_arg_get_plain_value_cb]
    rcases Nat.lt_or_eq_of_le le with less | rfl
    · rw [if_pos less]
      simp only []
      rw [ih less,show index-n = (index-(n+1))+1 by omega,List.getElem?_cons_succ,length_cons]
      cases l[index-(n+1)]? with
      | some value => rfl
      | none =>
        simp only []
        rw [Nat.succ_add]
        rfl
    · simp

/-- Every enumeration of the argument visits its singletons. -/
theorem singletons_visits (got : singletons objs fuel ri va = some (rc,l)) :
    Visits (fun cb => test_var_arg_enum_values objs cb fuel (some ri) va) l rc := by
  obtain ⟨l',visits⟩ := varArg_visits (fun cb => test_entity_value_enum_values objs cb fuel)
    (fun ri context v s out got => enum_values_visits (fun _ _ => rfl) got) got
  have same := visits collect []
  rw [visit_collect] at same
  obtain ⟨_,isL⟩ := of_pair (got.symm.trans same)
  rw [nil_append] at isL
  rw [isL]
  intro σ callback s
  exact visits callback s
theorem singletons_of_enum {σ : Type} {callback : Ref → σ → Status × σ} {s : σ} {out : Status × σ}
    (quiet : ∀ v s, (callback v s).1 = none) (got : test_var_arg_enum_values objs callback fuel (some ri) va s = some out) :
    ∃ l, singletons objs fuel ri va = some (out.1,l) := by
  obtain ⟨l,visits⟩ := varArg_visits (fun cb => test_entity_value_enum_values objs cb fuel)
    (fun ri context v s out got => enum_values_visits quiet got) got
  exact ⟨l,(visits collect []).trans (by rw [visit_collect]; rfl)⟩
end

section
variable {objs : TesterObjects}

/-- The values are in the list as `alloc_and_get_value` has put and counted them. -/
def Counted (objs : TesterObjects) (values : EntityValues) : Prop :=
  values = values.head.foldl (alloc_and_get_value objs) ⟨[],0⟩
/-- The types of the configuration are read, none of them is empty. -/
def TypesRead (objs : TesterObjects) : Prop := ∀ t, (objs.type t).values.head ≠ [] ∧ Counted objs (objs.type t).values

/-- What a value adds to the number of values. -/
def weight (objs : TesterObjects) (value : Ref) : Nat :=
  let v := objs.value value
  if v.plain ≠ none ∨ v.ref ≠ none ∨ v.ext ≠ none then 1
  else match v.type with
    | some type => (objs.type type).values.num
    | none => 0

theorem alloc_num (objs : TesterObjects) (values : EntityValues) (value : Ref) (small : values.num < UINT_MOD) :
    (alloc_and_get_value objs values value).num = (values.num+weight objs value)%UINT_MOD := by
  unfold alloc_and_get_value weight
  simp only []
  split
  · rfl
  · cases (objs.value value).type with
    | some type => rfl
    | none => exact (mod_eq_of_lt small).symm
variable {values : EntityValues} {context : Option Ref}
variable {each : Option RunItem → Option Ref → Ref → List Ref → Option (Status × List Ref)} {value : Ref}

theorem Counted.num_lt (counted : Counted objs values) : values.num < UINT_MOD := by
  have fold : ∀ (l : List Ref) (start : EntityValues), start.num < UINT_MOD → (l.foldl (alloc_and_get_value objs) start).num < UINT_MOD := by
    intro l
    induction l with
    | nil => exact fun start small => small
    | cons v l ih => grind [alloc_num,mod_lt]
  rw [counted]
  exact fold values.head ⟨[],0⟩ (by decide)
/-- The number of values is at most the sum of what each adds. -/
theorem Counted.num_le (counted : Counted objs values) : values.num ≤ (values.head.map (weight objs)).sum := by
  have fold : ∀ (l : List Ref) (start : EntityValues), start.num < UINT_MOD →
      (l.foldl (alloc_and_get_value objs) start).num ≤ start.num+(l.map (weight objs)).sum := by
    intro l
    induction l with
    | nil => exact fun start _ => le_rfl
    | cons v l ih =>
      intro start small
      have step := alloc_num objs start v small
      have less : (alloc_and_get_value objs start v).num < UINT_MOD := by
        rw [step]
        exact mod_lt _ (by decide)
      have rest := ih _ less
      have le := Nat.mod_le (start.num+weight objs v) UINT_MOD
      rw [foldl_cons,map_cons,sum_cons]
      omega
  rw [counted]
  have bound := fold values.head ⟨[],0⟩ (by decide)
  have heads : ∀ (l : List Ref) (start : EntityValues), (l.foldl (alloc_and_get_value objs) start).head = start.head ++ l := by
    intro l
    induction l with
    | nil => simp
    | cons v l ih => simp [ih,alloc_and_get_value]
  rw [heads values.head ⟨[],0⟩]
  simpa using bound

/-- A value that is not resolved any further. -/
def Singleton (objs : TesterObjects) (value : Ref) : Prop :=
  (objs.value value).plain ≠ none ∨ (objs.value value).ref = none ∧ (objs.value value).ext ≠ none
/-- What the collection of the singletons of something that counts as `weight` values adds. -/
structure Collected (objs : TesterObjects) (weight : Nat) (acc : List Ref) (out : Status × List Ref) : Prop where
  found : out.1 ≠ some .ENOENT
  added : ∃ l, out.2 = acc ++ l ∧ (∀ v ∈ l, Singleton objs v) ∧ (out.1 = none → l ≠ [] ∧ weight ≤ l.length)

theorem enumLoop_collected {each : Ref → List Ref → Option (Status × List Ref)} {values : List Ref} {rc : Status}
    {acc : List Ref} {out : Status × List Ref} (one : ∀ v acc out, each v acc = some out → Collected objs (weight objs v) acc out)
    (some' : values ≠ [] ∨ rc = none) (got : enumLoop each values rc acc = some out) :
    out.1 ≠ some .ENOENT ∧ ∃ l, out.2 = acc ++ l ∧ (∀ v ∈ l, Singleton objs v) ∧
      (out.1 = none → (values ≠ [] → l ≠ []) ∧ (values.map (weight objs)).sum ≤ l.length) := by
  induction values generalizing rc acc with
  | nil =>
    obtain rfl := some'.resolve_left (by simp)
    obtain rfl : (none,acc) = out := by simpa [enumLoop] using got
    exact ⟨by simp,[],by simp,by simp,fun _ => ⟨by simp,le_refl 0⟩⟩
  | cons v rest ih =>
    rw [enumLoop] at got
    obtain ⟨⟨rc1,acc1⟩,first,got⟩ := of_bind got
    obtain ⟨found,l,rfl,proper,many⟩ := one v acc _ first
    cases rc1 with
    | some e =>
      obtain rfl : (some e,acc ++ l) = out := by simpa using got
      exact ⟨found,l,rfl,proper,by simp⟩
    | none => grind
theorem values_collected (counted : Counted objs values) {ri : Option RunItem} {acc : List Ref} {out : Status × List Ref}
    (one : ∀ v acc out, each ri context v acc = some out → Collected objs (weight objs v) acc out) (given : values.head ≠ [])
    (got : test_entity_values_enum each ri context values acc = some out) : Collected objs values.num acc out := by
  obtain ⟨found,l,isOut,proper,many⟩ := enumLoop_collected one (.inl given) got
  exact ⟨found,l,isOut,proper,fun ok => ⟨(many ok).1 given,le_trans counted.num_le (many ok).2⟩⟩
theorem Collected.any {weight : Nat} {acc : List Ref} {out : Status × List Ref} (collected : Collected objs weight acc out) :
    Collected objs 1 acc out := by
  obtain ⟨found,l,isOut,proper,many⟩ := collected
  exact ⟨found,l,isOut,proper,fun ok => ⟨(many ok).1,List.length_pos_of_ne_nil (many ok).1⟩⟩
theorem Collected.single (proper : Singleton objs value) (acc : List Ref) : Collected objs 1 acc (collect value acc) :=
  ⟨by simp [collect],[value],rfl,by simpa using proper,fun _ => ⟨by simp,le_refl 1⟩⟩

/-- Every enumeration that succeeds finds singletons, at least as many as were counted. -/
theorem varArg_collected (read : TypesRead objs) {ri : Option RunItem} {acc : List Ref} {out : Status × List Ref}
    (one : ∀ ri context v acc out, each ri context v acc = some out → Collected objs (weight objs v) acc out)
    (got : varArgEnumValues objs each ri va acc = some out) : Collected objs 1 acc out := by
  unfold varArgEnumValues at got
  split at got
  · obtain ⟨type,isType,got⟩ := of_bind got
    exact (values_collected (read type).2 (one none _) (read type).1 got).any
  · rename_i given
    obtain ⟨found,l,isOut,proper,many⟩ := enumLoop_collected (one ri none) (.inl given) got
    exact ⟨found,l,isOut,proper,fun ok => ⟨(many ok).1 given,List.length_pos_of_ne_nil ((many ok).1 given)⟩⟩
theorem enum_values_collected (read : TypesRead objs) {ri : Option RunItem}
    {acc : List Ref} {out : Status × List Ref} (got : test_entity_value_enum_values objs collect fuel ri context value acc = some out) :
    Collected objs (weight objs value) acc out := by
  induction fuel generalizing ri context value acc out with
  | zero => cases got
  | succ fuel ih =>
    unfold test_entity_value_enum_values at got
    generalize (if context = none then ri.bind RunItem.context else context) = context' at got
    simp only [] at got
    by_cases plain : (objs.value value).plain ≠ none
    · rw [if_pos plain] at got
      obtain rfl := some.inj got
      rw [weight,if_pos (.inl plain)]
      exact .single (.inl plain) acc
    · rw [if_neg plain] at got
      cases isRef : (objs.value value).ref with
      | some ref =>
        simp only [isRef] at got
        split at got
        · cases got
        · rw [weight,if_pos (.inr (.inl (by simp [isRef])))]
          exact (ih got).any
      | none =>
        simp only [isRef] at got
        cases isExt : (objs.value value).ext with
        | some ext =>
          rw [weight,if_pos (.inr (.inr (by simp [isExt])))]
          simp only [isExt] at got
          split at got
          · obtain rfl := some.inj got
            exact .single (.inr ⟨isRef,by simp [isExt]⟩) acc
          · obtain ⟨found,-,got⟩ := of_bind got
            cases found with
            | none =>
              obtain rfl : (some TesterErr.ESRCH,acc) = out := by simpa using got
              exact ⟨by simp,[],by simp,by simp,by simp⟩
            | some var => exact varArg_collected read (fun ri context v acc out got => ih got) got
        | none =>
          simp only [isExt] at got
          obtain ⟨type,isType,got⟩ := of_bind got
          rw [weight,if_neg (by simp [plain,isRef,isExt]),isType]
          exact values_collected (read type).2 (fun v acc out got => ih got) (read type).1 got

/-- The values of an argument are read, or its type gives them. -/
def ArgRead (objs : TesterObjects) (va : TestVarArg) : Prop :=
  if va.values.head = [] then va.type ≠ none ∧ va.preferred = none
  else Counted objs va.values ∧ ∀ v, va.preferred = some v → v ∈ va.values.head
/-- An argument that is read has at least as many singletons as were counted. -/
theorem singletons_collected (read : TypesRead objs) (argRead : ArgRead objs va)
    {out : Status × List Ref} (got : singletons objs fuel ri va = some out) :
    ∃ values, test_var_arg_values objs va = some values ∧ values.head ≠ [] ∧ values.num < UINT_MOD ∧ Collected objs values.num [] out := by
  unfold singletons test_var_arg_enum_values varArgEnumValues at got
  unfold ArgRead at argRead
  unfold test_var_arg_values
  split at got
  · rename_i empty
    obtain ⟨type,isType,got⟩ := of_bind got
    rw [if_pos empty,isType]
    exact ⟨_,rfl,(read type).1,(read type).2.num_lt,values_collected (read type).2 (fun v acc out got => enum_values_collected read got) (read type).1 got⟩
  · rename_i given
    rw [if_neg given] at argRead ⊢
    exact ⟨_,rfl,given,argRead.1.num_lt,values_collected argRead.1 (fun v acc out got => enum_values_collected read got) given got⟩
end

section
variable {objs : TesterObjects} {σ : Type} {callback : Ref → σ → Status × σ}

variable {ri' : RunItem}

/-- A run item matters for an enumeration only by its context. -/
theorem enum_values_context (same : ri'.context = ri.context) (context : Option Ref) (value : Ref) (s : σ) :
    test_entity_value_enum_values objs callback fuel (some ri') context value s =
      test_entity_value_enum_values objs callback fuel (some ri) context value s := by
  induction fuel generalizing context value s with
  | zero => rfl
  | succ fuel ih => simp [same,ih,test_entity_value_enum_values]
theorem var_arg_context (same : ri'.context = ri.context) (va : TestVarArg) (s : σ) :
    test_var_arg_enum_values objs callback fuel (some ri') va s = test_var_arg_enum_values objs callback fuel (some ri) va s := by
  have each : test_entity_value_enum_values objs callback fuel (some ri') none =
      test_entity_value_enum_values objs callback fuel (some ri) none := by
    funext v s
    exact enum_values_context same none v s
  unfold test_var_arg_enum_values varArgEnumValues test_entity_values_enum
  rw [each]
theorem valueCount_context (same : ri'.context = ri.context) (va : TestVarArg) :
    valueCount objs fuel ri' va = valueCount objs fuel ri va := by
  rw [valueCount,singletons,var_arg_context same]
  rfl
end
end TestEnvironment.Tester
