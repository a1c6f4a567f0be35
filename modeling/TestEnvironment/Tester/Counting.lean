import TestEnvironment.Tester.Singletons

/-!
What `prepare_calc_iters` counts: the lengths of the lists and the number of
iterations of a run item, which is the product of the numbers of singletons
outside lists and, at the first call, of the lengths of the lists.
-/
namespace TestEnvironment.Tester
open Lib

section
variable {σ : Type} {callback : TestVarArg → σ → Option (Status × σ)}

/-- The callback succeeds for each of the arguments. -/
inductive Passed (callback : TestVarArg → σ → Option (Status × σ)) : List TestVarArg → σ → σ → Prop
  | nil (s : σ) : Passed callback [] s s
  | cons {va : TestVarArg} {args : List TestVarArg} {s s1 s2 : σ} (one : callback va s = some (none,s1))
      (rest : Passed callback args s1 s2) : Passed callback (va :: args) s s2

/-- A callback that never fails with `TE_ENOENT` has succeeded for all arguments unless
    the enumeration fails otherwise. -/
theorem enumArgs_passed {args : List TestVarArg} {rc rc' : Status} {s s' : σ}
    (proper : ∀ va ∈ args, ∀ s s', callback va s ≠ some (some .ENOENT,s'))
    (got : enumArgs callback true args rc none s = some (rc',s')) (ok : rc' = none ∨ rc' = some .ENOENT) :
    Passed callback args s s' := by
  induction args generalizing rc s with
  | nil =>
    obtain ⟨-,rfl⟩ : rc = rc' ∧ s = s' := by simpa [enumArgs] using got
    exact .nil s
  | cons va rest ih =>
    rw [enumArgs] at got
    obtain ⟨⟨rc1,s1⟩,one,got⟩ := of_bind got
    cases rc1 with
    | none => exact .cons one (ih (fun va member => proper va (mem_cons_of_mem _ member)) (by simpa using got))
    | some e => grind
end

variable {count count' : TestVarArg → Nat} {n : Nat} {out : Status × RunItem}

section
variable {lists : List VarArgList} {name : CStr} {n_values : Nat}

/-- The length of the list with the name. -/
def lengthOf (lists : List VarArgList) (name : CStr) : Option Nat := (lists.find? fun p => p.name = name).map VarArgList.len
/-- The product of the lengths. -/
def lengths (lists : List VarArgList) : Nat := (lists.map VarArgList.len).prod
/-- The largest number of values of the arguments that are in the list. -/
def longest (count : TestVarArg → Nat) : List TestVarArg → CStr → Option Nat
  | [], _ => none
  | va :: rest, name => if va.list = some name then (some (count va)).merge max (longest count rest name) else longest count rest name
/-- The product of the numbers of values of the arguments outside lists. -/
def outside (count : TestVarArg → Nat) : List TestVarArg → Nat
  | [] => 1
  | va :: rest => if va.list = none then count va*outside count rest else outside count rest

theorem longest_none {args : List TestVarArg} : longest count args name = none ↔ ∀ va ∈ args, va.list ≠ some name := by
  induction args with
  | nil => simp [longest]
  | cons va rest ih =>
    rw [longest]
    by_cases member : va.list = some name
    · simp [member]
    · rw [if_neg member,ih]
      simp [member]
theorem longest_some {args : List TestVarArg} {len : Nat} (got : longest count args name = some len) :
    (∃ va ∈ args, va.list = some name ∧ count va = len) ∧ ∀ va ∈ args, va.list = some name → count va ≤ len := by
  induction args generalizing len with
  | nil => cases got
  | cons va rest ih =>
    rw [longest] at got
    by_cases member : va.list = some name
    · rw [if_pos member] at got
      cases later : longest count rest name with
      | none =>
        obtain rfl : count va = len := by simpa [later,Option.merge] using got
        refine ⟨⟨va,mem_cons_self,member,rfl⟩,fun va' isArg isList => ?_⟩
        rcases mem_cons.mp isArg with rfl | isArg
        · exact le_rfl
        · exact (longest_none.mp later va' isArg isList).elim
      | some len' => grind
    · grind
theorem longest_congr {args : List TestVarArg}
    (same : ∀ va ∈ args, va.list = some name → count va = count' va) : longest count args name = longest count' args name := by
  induction args with
  | nil => rfl
  | cons va rest ih => simp_all [longest]

theorem growList_names : (growList name n_values lists).map VarArgList.name = lists.map VarArgList.name := by
  induction lists with
  | nil => rfl
  | cons p lists ih =>
    rw [growList]
    split
    · rfl
    · rw [map_cons,map_cons,ih]
theorem lengthOf_cons {p : VarArgList} : lengthOf (p :: lists) name = if p.name = name then some p.len else lengthOf lists name := by
  by_cases same : p.name = name <;> simp [lengthOf,same]
theorem lengthOf_grow {name' : CStr} : lengthOf (growList name n_values lists) name' =
    if name' = name then (lengthOf lists name).map fun len => max len n_values else lengthOf lists name' := by
  induction lists with
  | nil => simp [growList,lengthOf]
  | cons p lists ih =>
    rw [growList]
    by_cases same : p.name = name
    · rw [if_pos same,lengthOf_cons,lengthOf_cons,lengthOf_cons,if_pos same]
      by_cases asked : name' = name
      · subst asked
        simp [same]
      · rw [if_neg asked]
        simp only [same,if_neg (Ne.symm asked)]
    · rw [if_neg same,lengthOf_cons,ih,lengthOf_cons,lengthOf_cons,if_neg same]
      by_cases asked : name' = name
      · subst asked
        simp [same]
      · rw [if_neg asked,if_neg asked]
theorem lengths_grow {len : Nat} (found : lengthOf lists name = some len) :
    lengths (growList name n_values lists)*len = lengths lists*max len n_values := by
  induction lists with
  | nil => cases found
  | cons p lists ih =>
    rw [lengthOf_cons] at found
    rw [growList]
    by_cases same : p.name = name
    · rw [if_pos same] at found ⊢
      obtain rfl := some.inj found
      simp only [lengths,map_cons,List.prod_cons]
      ring
    · simp_all [Nat.mul_assoc,lengths]
theorem lengths_pos (proper : ∀ p ∈ lists, 0 < p.len) : 0 < lengths lists := by
  induction lists with
  | nil => decide
  | cons p lists ih =>
    exact Nat.mul_pos (proper p mem_cons_self) (ih fun p member => proper p (mem_cons_of_mem _ member))
theorem growList_pos (proper : ∀ p ∈ lists, 0 < p.len) : ∀ p ∈ growList name n_values lists, 0 < p.len := by
  induction lists with
  | nil => simp [growList]
  | cons p lists ih =>
    intro p' member
    rw [growList] at member
    split at member
    · grind
    · grind
theorem lengthOf_mem {p : VarArgList} (unique : (lists.map VarArgList.name).Nodup) (member : p ∈ lists) : lengthOf lists p.name = some p.len := by
  induction lists with
  | nil => cases member
  | cons q lists ih =>
    rw [map_cons,nodup_cons] at unique
    rw [lengthOf_cons]
    rcases mem_cons.mp member with rfl | member
    · rw [if_pos rfl]
    · grind
end

section
variable {objs : TesterObjects} {fuel : Nat}

/-- The number of values as `prepare_arg_cb` counts it. -/
def counted (objs : TesterObjects) (fuel : Nat) (ri : RunItem) (va : TestVarArg) : Nat := valueCount objs fuel ri va%UINT_MOD
/-- What `prepare_arg_cb` does with the number of values `c`. -/
inductive Counting (c : Nat) (va : TestVarArg) (data data' : PrepareArgCbData) : Prop
  | outside (free : va.list = none) (lists : data'.ri.lists = data.ri.lists) (iters : data'.n_iters = data.n_iters*c)
  | first (name : CStr) (isList : va.list = some name) (new : lengthOf data.ri.lists name = none)
      (lists : data'.ri.lists = ⟨name,c,data.n_iters⟩ :: data.ri.lists) (iters : data'.n_iters = data.n_iters*c)
  | later (name : CStr) (len : Nat) (isList : va.list = some name) (found : lengthOf data.ri.lists name = some len)
      (positive : len ≠ 0) (divides : len ∣ data.n_iters) (lists : data'.ri.lists = growList name c data.ri.lists)
      (iters : data'.n_iters = data.n_iters/len*max len c)

theorem mul_ok {data data' : PrepareArgCbData} (got : data.mul n = (none,data')) :
    data' = {data with n_iters := data.n_iters*n} ∧ data'.n_iters ≤ TESTER_MAX_ITERS := by
  unfold PrepareArgCbData.mul at got
  split at got
  · cases got
  · rename_i fits
    obtain rfl := (Prod.mk.inj got).2
    refine ⟨rfl,?_⟩
    simp only [check_mul_overflow,ne_eq,decide_eq_true_eq,not_and,not_lt] at fits
    by_cases zero : data.n_iters = 0
    · simp [zero]
    · exact (Nat.mul_le_mul_left _ (fits zero)).trans (Nat.mul_div_le _ _)
/-- The number of values that the callback has counted. -/
theorem prepare_arg_count {ri : RunItem} {va : TestVarArg} {out : Status × Nat}
    (got : test_var_arg_enum_values objs prepare_arg_value_cb fuel (some ri) va 0 = some out) :
    (∃ l, singletons objs fuel ri va = some (out.1,l)) ∧ out.2 = counted objs fuel ri va := by
  obtain ⟨l,isL⟩ := singletons_of_enum (fun _ _ => rfl) got
  have same := singletons_visits isL prepare_arg_value_cb 0
  rw [visit_count] at same
  have isOut := congrArg Prod.snd (some.inj (got.symm.trans same))
  refine ⟨⟨l,isL⟩,?_⟩
  rw [isOut,counted,valueCount,isL]
  by_cases empty : l = [] <;> simp [empty]
theorem prepare_arg_cases {va : TestVarArg} {data : PrepareArgCbData} {out : Status × PrepareArgCbData}
    (got : prepare_arg_cb objs fuel va data = some out) (ok : out.1 = none) :
    (∃ l, singletons objs fuel data.ri va = some (none,l)) ∧ out.2.ri.context = data.ri.context ∧ out.2.ri.args = data.ri.args ∧
      out.2.n_iters ≤ TESTER_MAX_ITERS ∧ Counting (counted objs fuel data.ri va) va data out.2 := by
  obtain ⟨status,data'⟩ := out
  obtain rfl : status = none := ok
  unfold prepare_arg_cb at got
  obtain ⟨⟨rc,n⟩,enum,got⟩ := of_bind got
  obtain ⟨⟨l,isL⟩,isN⟩ := prepare_arg_count enum
  obtain rfl : n = counted objs fuel data.ri va := isN
  simp only [] at got
  cases rc with
  | some e => simp at got
  | none =>
    rw [if_neg (by simp)] at got
    refine ⟨⟨l,isL⟩,?_⟩
    cases isList : va.list with
    | none =>
      simp only [isList] at got
      obtain ⟨rfl,fits⟩ := mul_ok (some.inj got)
      exact ⟨rfl,rfl,fits,.outside isList rfl rfl⟩
    | some name =>
      simp only [isList] at got
      cases found : data.ri.lists.find? fun p => p.name = name with
      | none =>
        simp only [found] at got
        obtain ⟨rfl,fits⟩ := mul_ok (some.inj got)
        exact ⟨rfl,rfl,fits,.first name isList (by rw [lengthOf,found]; rfl) rfl rfl⟩
      | some p =>
        simp only [found] at got
        split at got
        · cases got
        · rename_i proper
          obtain ⟨rfl,fits⟩ := mul_ok (some.inj got)
          exact ⟨rfl,rfl,fits,.later name p.len isList (by rw [lengthOf,found]; rfl) (fun zero => proper (.inl zero))
            (Nat.dvd_of_mod_eq_zero (by_contra fun other => proper (.inr other))) rfl rfl⟩

variable {c : Nat} {va : TestVarArg} {data data' : PrepareArgCbData}

variable (step : Counting c va data data')
include step
theorem Counting.lengthOf (name : CStr) : lengthOf data'.ri.lists name =
    if va.list = some name then (Tester.lengthOf data.ri.lists name).merge max (some c) else Tester.lengthOf data.ri.lists name := by
  cases step with
  | outside free lists => rw [lists,if_neg (by simp [free])]
  | first name' isList new lists => grind [lengthOf_cons]
  | later name' len isList found positive divides lists =>
    rw [lists,lengthOf_grow,isList]
    by_cases same : name = name'
    · subst same
      simp [found,Option.merge]
    · simp [same,Ne.symm same]
theorem Counting.unique (unique : (data.ri.lists.map VarArgList.name).Nodup) :
    (data'.ri.lists.map VarArgList.name).Nodup := by
  cases step with
  | outside free lists => rwa [lists]
  | first name isList new lists => grind [lengthOf_mem]
  | later name len isList found positive divides lists => rwa [lists,growList_names]
/-- The number of iterations is zero from some point on. -/
theorem Counting.start (positive : 0 < data'.n_iters) : 0 < data.n_iters := by
  refine Nat.pos_of_ne_zero fun zero => ?_
  cases step with
  | outside _ _ iters | first _ _ _ _ iters | later _ _ _ _ _ _ _ iters => simp [iters,zero] at positive
theorem Counting.proper (positive : 0 < data'.n_iters) (proper : ∀ p ∈ data.ri.lists, 0 < p.len) :
    ∀ p ∈ data'.ri.lists, 0 < p.len := by
  cases step with
  | outside free lists iters => rwa [lists]
  | first name isList new lists iters => grind
  | later name len isList found _ divides lists iters =>
    rw [lists]
    exact growList_pos proper
theorem Counting.known {name : CStr} (isList : va.list = some name) : Tester.lengthOf data.ri.lists name ≠ some 0 := by
  cases step with
  | outside free => simp [free] at isList
  | first name' isList' new => grind
  | later name' len isList' found positive => grind
theorem Counting.positive (some' : 0 < c) (positive : 0 < data.n_iters) : 0 < data'.n_iters := by
  cases step with
  | outside _ _ iters | first _ _ _ _ iters => rw [iters]; exact Nat.mul_pos positive some'
  | later name len isList found proper divides lists iters =>
    rw [iters]
    exact Nat.mul_pos (Nat.div_pos (Nat.le_of_dvd positive divides) (Nat.pos_of_ne_zero proper))
      (lt_of_lt_of_le some' (Nat.le_max_right _ _))
/-- The number of iterations grows with the lengths of the lists and with the values
    outside lists. -/
theorem Counting.iters : data'.n_iters*lengths data.ri.lists =
    data.n_iters*(if va.list = none then c else 1)*lengths data'.ri.lists := by
  cases step with
  | outside free lists iters => rw [lists,iters,if_pos free]
  | first name isList new lists iters =>
    rw [lists,iters,if_neg (by simp [isList])]
    simp only [lengths,map_cons,List.prod_cons]
    ring
  | later name len isList found positive divides lists iters =>
    obtain ⟨q,isQ⟩ := divides
    rw [lists,iters,if_neg (by simp [isList]),isQ,Nat.mul_div_cancel_left q (Nat.pos_of_ne_zero positive)]
    calc q*max len c*lengths data.ri.lists = q*(lengths data.ri.lists*max len c) := by ring
      _ = q*(lengths (growList name c data.ri.lists)*len) := by rw [lengths_grow found]
      _ = len*q*1*lengths (growList name c data.ri.lists) := by ring
end

section
variable {objs : TesterObjects} {fuel : Nat} {args : List TestVarArg} {data data' : PrepareArgCbData}

variable {before rest : List TestVarArg}

theorem Passed.split {σ : Type} {callback : TestVarArg → σ → Option (Status × σ)} {s s' : σ}
    (passed : Passed callback (before ++ rest) s s') : ∃ s1, Passed callback before s s1 ∧ Passed callback rest s1 s' := by
  induction before generalizing s with
  | nil => exact ⟨s,.nil s,passed⟩
  | cons va before ih =>
    cases passed with
    | cons one passed =>
      obtain ⟨s1,first,later⟩ := ih passed
      exact ⟨s1,.cons one first,later⟩
theorem merge_assoc (a b c : Option Nat) : (a.merge max b).merge max c = a.merge max (b.merge max c) := by
  cases a <;> cases b <;> cases c <;> simp [Option.merge,Nat.max_assoc]

/-- What is counted when the callback has succeeded for all arguments. -/
structure Counts (objs : TesterObjects) (fuel : Nat) (args : List TestVarArg) (data data' : PrepareArgCbData) : Prop where
  context : data'.ri.context = data.ri.context
  same : data'.ri.args = data.ri.args
  singletons : ∀ va ∈ args, ∃ l, singletons objs fuel data.ri va = some (none,l)
  lengthOf : ∀ name, lengthOf data'.ri.lists name = (lengthOf data.ri.lists name).merge max (longest (counted objs fuel data.ri) args name)
  unique : (data.ri.lists.map VarArgList.name).Nodup → (data'.ri.lists.map VarArgList.name).Nodup
  start : 0 < data'.n_iters → 0 < data.n_iters
  proper : 0 < data'.n_iters → (∀ p ∈ data.ri.lists, 0 < p.len) → ∀ p ∈ data'.ri.lists, 0 < p.len
  positive : (∀ va ∈ args, 0 < counted objs fuel data.ri va) → 0 < data.n_iters → 0 < data'.n_iters
  fits : data.n_iters ≤ TESTER_MAX_ITERS → data'.n_iters ≤ TESTER_MAX_ITERS
  known : ∀ va ∈ args, ∀ name, va.list = some name → Tester.lengthOf data.ri.lists name ≠ some 0
  iters : 0 < data'.n_iters → (∀ p ∈ data.ri.lists, 0 < p.len) →
    data'.n_iters*lengths data.ri.lists = data.n_iters*outside (counted objs fuel data.ri) args*lengths data'.ri.lists

theorem Passed.counts (passed : Passed (prepare_arg_cb objs fuel) args data data') : Counts objs fuel args data data' := by
  induction passed with
  | nil data =>
    refine ⟨rfl,rfl,by simp,fun name => ?_,id,id,fun _ => id,fun _ => id,id,by simp,fun _ _ => by rw [outside,Nat.mul_one]⟩
    cases lengthOf data.ri.lists name <;> rfl
  | @cons va args data data1 data2 one passed rest =>
    obtain ⟨single,context,sameArgs,fits,step⟩ := prepare_arg_cases one rfl
    simp only [] at context sameArgs fits step
    have sameCount : counted objs fuel data1.ri = counted objs fuel data.ri := by
      funext va
      rw [counted,counted,valueCount_context context]
    have singles : ∀ va ∈ args, ∃ l, singletons objs fuel data.ri va = some (none,l) := by
      intro va member
      obtain ⟨l,isL⟩ := rest.singletons va member
      rw [singletons,var_arg_context context] at isL
      exact ⟨l,isL⟩
    have restLength := rest.lengthOf
    have restPositive := rest.positive
    have restIters := rest.iters
    rw [sameCount] at restLength restPositive restIters
    refine ⟨rest.context.trans context,rest.same.trans sameArgs,fun va member => ?_,fun name => ?_,fun unique => rest.unique (step.unique unique),
      fun positive => step.start (rest.start positive),fun positive proper => rest.proper positive (step.proper (rest.start positive) proper),
      fun values positive => ?_,fun _ => rest.fits fits,fun va' member name isList => ?_,fun positive proper => ?_⟩
    · grind
    · rw [restLength,step.lengthOf,longest]
      split
      · rw [merge_assoc]
      · rfl
    · refine restPositive (fun va member => values va (mem_cons_of_mem _ member)) ?_
      exact step.positive (values va mem_cons_self) positive
    · by_cases same : va.list = some name
      · exact step.known same
      · rcases mem_cons.mp member with rfl | member
        · exact (same isList).elim
        · have later := rest.known va' member name isList
          rwa [step.lengthOf,if_neg same] at later
    · have proper1 := step.proper (rest.start positive) proper
      have first := step.iters
      have later := restIters positive proper1
      have factor : outside (counted objs fuel data.ri) (va :: args) =
          (if va.list = none then counted objs fuel data.ri va else 1)*outside (counted objs fuel data.ri) args := by
        rw [outside]
        split <;> ring
      rw [factor]
      refine Nat.eq_of_mul_eq_mul_right (lengths_pos proper1) ?_
      calc data2.n_iters*lengths data.ri.lists*lengths data1.ri.lists
          = data2.n_iters*lengths data1.ri.lists*lengths data.ri.lists := by ring
        _ = data1.n_iters*lengths data.ri.lists*outside (counted objs fuel data.ri) args*lengths data2.ri.lists := by rw [later]; ring
        _ = _ := by rw [first]; ring

/-- The number of outer iterations that is recorded for a list. -/
def recordOf (lists : List VarArgList) (name : CStr) : Option Nat := (lists.find? fun p => p.name = name).map VarArgList.n_iters
theorem recordOf_cons {p : VarArgList} {lists : List VarArgList} {name : CStr} :
    recordOf (p :: lists) name = if p.name = name then some p.n_iters else recordOf lists name := by
  by_cases same : p.name = name <;> simp [recordOf,same]
theorem recordOf_grow {name name' : CStr} {n_values : Nat} {lists : List VarArgList} :
    recordOf (growList name n_values lists) name' = recordOf lists name' := by
  induction lists with
  | nil => rfl
  | cons p lists ih => grind [recordOf_cons,growList]
theorem Counting.record {c : Nat} {va : TestVarArg} {data data' : PrepareArgCbData} (step : Counting c va data data') {name : CStr}
    (known : recordOf data.ri.lists name = some n) : recordOf data'.ri.lists name = some n := by
  cases step with
  | outside free lists => rwa [lists]
  | first name' isList new lists =>
    rw [lists,recordOf_cons,if_neg,known]
    rintro (rfl : name' = name)
    rw [recordOf,map_eq_some_iff] at known
    obtain ⟨p,found,-⟩ := known
    rw [Tester.lengthOf,found] at new
    cases new
  | later name' len isList found positive divides lists => rwa [lists,recordOf_grow]
theorem Passed.record (passed : Passed (prepare_arg_cb objs fuel) args data data') {name : CStr}
    (known : recordOf data.ri.lists name = some n) : recordOf data'.ri.lists name = some n := by
  induction passed with
  | nil => exact known
  | cons one _ ih =>
    obtain ⟨-,-,-,-,step⟩ := prepare_arg_cases one rfl
    exact ih (step.record known)
/-- The number recorded for a list is that of the iterations counted in front of its first
    member. -/
theorem Passed.recorded {va : TestVarArg} (passed : Passed (prepare_arg_cb objs fuel) (before ++ va :: rest) data data')
    (fresh : data.ri.lists = []) {name : CStr} (isList : va.list = some name) (first : ∀ other ∈ before, other.list ≠ some name) :
    ∃ data1, Passed (prepare_arg_cb objs fuel) before data data1 ∧ Passed (prepare_arg_cb objs fuel) (va :: rest) data1 data' ∧
      recordOf data'.ri.lists name = some data1.n_iters := by
  obtain ⟨data1,front,passed⟩ := passed.split
  refine ⟨data1,front,passed,?_⟩
  cases passed with
  | cons one later =>
    refine later.record ?_
    obtain ⟨-,-,-,-,step⟩ := prepare_arg_cases one rfl
    have new : lengthOf data1.ri.lists name = none := by
      rw [front.counts.lengthOf,fresh,longest_none.mpr first]
      rfl
    cases step with
    | outside free => simp [free] at isList
    | first name' isList' _ lists =>
      obtain rfl : name' = name := some.inj (isList'.symm.trans isList)
      simp only [] at lists
      rw [lists,recordOf_cons,if_pos rfl]
    | later name' len isList' found => grind

/-- The arguments of a parsed run item. -/
structure Parsed (objs : TesterObjects) (ri : RunItem) : Prop where
  types : TypesRead objs
  plain : ∀ v, (objs.value v).plain ≠ none → (objs.value v).ref = none
  args : ∀ va ∈ ri.enumerated objs, ArgRead objs va
  lists : ri.lists = []

/-- The callback fails with `TE_ENOENT` for no argument that is read. -/
theorem prepare_arg_proper (types : TypesRead objs) {va : TestVarArg} (read : ArgRead objs va) (data data' : PrepareArgCbData) :
    prepare_arg_cb objs fuel va data ≠ some (some .ENOENT,data') := by
  intro got
  unfold prepare_arg_cb at got
  obtain ⟨⟨rc,n⟩,enum,got⟩ := of_bind got
  obtain ⟨⟨l,isL⟩,-⟩ := prepare_arg_count enum
  obtain ⟨values,-,-,-,collected⟩ := singletons_collected types read isL
  have found := collected.found
  simp only [] at got found
  have notEnoent : ∀ (data : PrepareArgCbData) n, (data.mul n).1 ≠ some .ENOENT := by
    intro data n
    unfold PrepareArgCbData.mul
    split <;> simp
  split at got
  · obtain rfl := (of_pair got).1
    exact found rfl
  · grind
/-- The run item that `prepare_calc_iters` accepts and what it has counted. -/
theorem prepare_calc_passed {ri : RunItem} (types : TypesRead objs) (read : ∀ va ∈ ri.enumerated objs, ArgRead objs va)
    (got : prepare_calc_iters objs fuel ri = some out) (ok : out.1 = none) :
    ∃ data, out.2 = {data.ri with n_args := data.n_args,n_iters := data.n_iters} ∧
      Passed (prepare_arg_cb objs fuel) (ri.enumerated objs) {ri := ri,n_args := 0,n_iters := 1} data := by
  unfold prepare_calc_iters at got
  obtain ⟨⟨rc,data⟩,enum,got⟩ := of_bind got
  simp only [] at got
  split at got
  · grind
  · rename_i good
    obtain rfl := some.inj got
    refine ⟨data,rfl,enumArgs_passed (fun va member s s' => prepare_arg_proper types (read va member) s s') enum ?_⟩
    rcases rc with _ | e
    · exact .inl rfl
    · exact .inr (by_contra fun other => good ⟨by simp,other⟩)
theorem prepare_calc_counts {ri : RunItem} (types : TypesRead objs) (read : ∀ va ∈ ri.enumerated objs, ArgRead objs va)
    (got : prepare_calc_iters objs fuel ri = some out) (ok : out.1 = none) :
    ∃ data, out.2 = {data.ri with n_args := data.n_args,n_iters := data.n_iters} ∧
      Counts objs fuel (ri.enumerated objs) {ri := ri,n_args := 0,n_iters := 1} data := by
  obtain ⟨data,isOut,passed⟩ := prepare_calc_passed types read got ok
  exact ⟨data,isOut,passed.counts⟩

/-- `prepare_calc_iters` called some times for the same run item, as it happens to the
    handlers that several sessions have in common. -/
def prepareTimes (objs : TesterObjects) (fuel : Nat) : Nat → RunItem → Option (Status × RunItem)
  | 0, ri => some (none,ri)
  | times+1, ri => do
    let (rc,ri) ← prepare_calc_iters objs fuel ri
    if rc ≠ none then some (rc,ri) else prepareTimes objs fuel times ri
end

section
variable {objs : TesterObjects} {fuel : Nat}

/-- The lists with keys that are not known. -/
def unknown (known : List CStr) (lists : List VarArgList) : List VarArgList := lists.filter fun p => p.name ∉ known

variable {known : List CStr} {times : Nat}

theorem unknown_cons {p : VarArgList} {lists : List VarArgList} :
    unknown known (p :: lists) = if p.name ∈ known then unknown known lists else p :: unknown known lists := by
  by_cases member : p.name ∈ known <;> simp [unknown,member]
theorem lengths_unknown {lists : List VarArgList} {name : CStr} {len : Nat}
    (unique : (lists.map VarArgList.name).Nodup) (found : lengthOf lists name = some len) (new : name ∉ known) :
    lengths (unknown known lists) = len*lengths (unknown (name :: known) lists) := by
  induction lists with
  | nil => cases found
  | cons p lists ih =>
    rw [map_cons,nodup_cons] at unique
    rw [lengthOf_cons] at found
    rw [unknown_cons,unknown_cons]
    by_cases same : p.name = name
    · subst same
      obtain rfl : p.len = len := by simpa using found
      have others : unknown (p.name :: known) lists = unknown known lists := by
        refine List.filter_congr fun q member => ?_
        have other : q.name ≠ p.name := fun same => unique.1 (same ▸ mem_map_of_mem member)
        simp [other]
      rw [if_neg new,if_pos mem_cons_self,others]
      rfl
    · rw [if_neg same] at found
      have rest := ih unique.2 found
      by_cases member : p.name ∈ known
      · rw [if_pos member,if_pos (mem_cons_of_mem _ member),rest]
      · rw [if_neg member,if_neg (by simp [same,member])]
        simp only [lengths,map_cons,List.prod_cons] at rest ⊢
        rw [rest]
        ring
/-- The iterations that the arguments and their lists make possible. -/
theorem total_lengths {radix : TestVarArg → Nat} {lists : List VarArgList} (unique : (lists.map VarArgList.name).Nodup)
    {args : List TestVarArg} (found : ∀ va ∈ args, ∀ name, va.list = some name → lengthOf lists name = some (radix va))
    (used : ∀ p ∈ lists, p.name ∈ known ∨ ∃ va ∈ args, va.list = some p.name) :
    total (args.map fun va => (va.list,radix va)) known = outside radix args*lengths (unknown known lists) := by
  induction args generalizing known with
  | nil =>
    have gone : unknown known lists = [] := filter_eq_nil_iff.mpr fun p member => by simpa using used p member
    rw [gone]
    rfl
  | cons va rest ih =>
    have later : ∀ va ∈ rest, ∀ name, va.list = some name → lengthOf lists name = some (radix va) :=
      fun va member => found va (mem_cons_of_mem _ member)
    rw [map_cons,outside]
    cases isList : va.list with
    | none =>
      rw [total,ih later,if_pos rfl]
      · ring
      · intro p member
        simpa [isList] using used p member
    | some name =>
      have inList : ¬some name = none := by simp
      rw [total,if_neg inList]
      by_cases old : name ∈ known
      · grind
      · rw [if_neg old,ih later,lengths_unknown unique (found va mem_cons_self name isList) old]
        · ring
        · grind
theorem unknown_nil {lists : List VarArgList} : unknown [] lists = lists := by simp [unknown]

/-- The lists of a run item with the lengths that were counted. -/
structure Lengths (objs : TesterObjects) (fuel : Nat) (ri0 : RunItem) (lists : List VarArgList) : Prop where
  lengthOf : ∀ name, lengthOf lists name = longest (counted objs fuel ri0) (ri0.enumerated objs) name
  unique : (lists.map VarArgList.name).Nodup
/-- The run item `ri` as `prepare_calc_iters` leaves `ri0`, after one call or `again`. -/
structure Settled (objs : TesterObjects) (fuel : Nat) (ri0 : RunItem) (again : Prop) (ri : RunItem) : Prop where
  context : ri.context = ri0.context
  same : ri.args = ri0.args
  singletons : ∀ va ∈ ri0.enumerated objs, ∃ l, singletons objs fuel ri0 va = some (none,l)
  lists : Lengths objs fuel ri0 ri.lists
  proper : 0 < ri.n_iters → ∀ p ∈ ri.lists, 0 < p.len
  positive : (∀ va ∈ ri0.enumerated objs, 0 < counted objs fuel ri0 va) → 0 < ri.n_iters
  once : 0 < ri.n_iters → ¬again → ri.n_iters = outside (counted objs fuel ri0) (ri0.enumerated objs)*lengths ri.lists
  more : 0 < ri.n_iters → again → ri.n_iters = outside (counted objs fuel ri0) (ri0.enumerated objs)

theorem enumerated_congr {ri ri' : RunItem} (context : ri'.context = ri.context) (same : ri'.args = ri.args) :
    ri'.enumerated objs = ri.enumerated objs := by
  rw [RunItem.enumerated,RunItem.enumerated,context,same]
theorem counted_congr {ri ri' : RunItem} (context : ri'.context = ri.context) : counted objs fuel ri' = counted objs fuel ri := by
  funext va
  rw [counted,counted,valueCount_context context]
theorem outside_congr {args : List TestVarArg} (same : ∀ va ∈ args, va.list = none → count va = count' va) :
    outside count args = outside count' args := by
  induction args with
  | nil => rfl
  | cons va rest ih => simp_all [outside]
/-- The radices with the numbers counted. -/
def settledRadix (objs : TesterObjects) (fuel : Nat) (ri : RunItem) (va : TestVarArg) : Nat :=
  match va.list with
  | none => counted objs fuel ri va
  | some name => (longest (counted objs fuel ri) (ri.enumerated objs) name).getD 0

theorem Lengths.used {ri0 : RunItem} {lists : List VarArgList} (lens : Lengths objs fuel ri0 lists) :
    ∀ p ∈ lists, ∃ va ∈ ri0.enumerated objs, va.list = some p.name := by
  intro p member
  by_contra none'
  have gone : longest (counted objs fuel ri0) (ri0.enumerated objs) p.name = none :=
    longest_none.mpr fun va isArg isList => none' ⟨va,isArg,isList⟩
  rw [← lens.lengthOf,lengthOf_mem lens.unique member] at gone
  cases gone
theorem Lengths.radix {ri0 : RunItem} {lists : List VarArgList} (lens : Lengths objs fuel ri0 lists) {va : TestVarArg}
    (member : va ∈ ri0.enumerated objs) {name : CStr} (isList : va.list = some name) :
    Tester.lengthOf lists name = some (settledRadix objs fuel ri0 va) := by
  rw [lens.lengthOf,settledRadix,isList]
  simp only []
  cases found : longest (counted objs fuel ri0) (ri0.enumerated objs) name with
  | none => exact (longest_none.mp found va member isList).elim
  | some len => rfl
theorem Lengths.total {ri0 : RunItem} {lists : List VarArgList} (lens : Lengths objs fuel ri0 lists) :
    total ((ri0.enumerated objs).map fun va => (va.list,settledRadix objs fuel ri0 va)) [] =
      outside (counted objs fuel ri0) (ri0.enumerated objs)*lengths lists := by
  rw [total_lengths lens.unique,unknown_nil]
  · congr 1
    refine outside_congr fun va _ free => ?_
    rw [settledRadix,free]
  · exact fun va member name isList => lens.radix member isList
  · exact fun p member => .inr (lens.used p member)

theorem settled_first {ri0 : RunItem} (parsed : Parsed objs ri0)
    (got : prepare_calc_iters objs fuel ri0 = some out) (ok : out.1 = none) : Settled objs fuel ri0 False out.2 := by
  obtain ⟨data,isOut,counts⟩ := prepare_calc_counts parsed.types parsed.args got ok
  have iters := counts.iters
  have lens := counts.lengthOf
  have unique := counts.unique
  have proper := counts.proper
  simp only [parsed.lists] at iters lens unique proper
  rw [isOut]
  refine ⟨counts.context,counts.same,counts.singletons,⟨fun name => ?_,unique (by simp)⟩,fun positive => proper positive (by simp),
    fun values => counts.positive values Nat.one_pos,fun positive _ => ?_,fun _ no => no.elim⟩
  · exact (lens name).trans (by cases longest (counted objs fuel ri0) (ri0.enumerated objs) name <;> rfl)
  · have all := iters positive (by simp)
    simpa [lengths] using all
/-- Another call finds the lists as they are and does not count their lengths. -/
theorem Settled.next {ri0 ri : RunItem} {again : Prop} (settled : Settled objs fuel ri0 again ri) (parsed : Parsed objs ri0)
    (got : prepare_calc_iters objs fuel ri = some out) (ok : out.1 = none) : Settled objs fuel ri0 True out.2 := by
  have sameArgs : ri.enumerated objs = ri0.enumerated objs := enumerated_congr settled.context settled.same
  obtain ⟨data,isOut,counts⟩ := prepare_calc_counts parsed.types (sameArgs ▸ parsed.args) got ok
  have lens := counts.lengthOf
  have positive := counts.positive
  have iters := counts.iters
  simp only [counted_congr settled.context,sameArgs] at lens positive iters
  have proper : ∀ p ∈ ri.lists, 0 < p.len := by
    intro p member
    obtain ⟨va,isArg,isList⟩ := settled.lists.used p member
    have known := counts.known va (sameArgs ▸ isArg) p.name isList
    simp only [lengthOf_mem settled.lists.unique member] at known
    exact Nat.pos_of_ne_zero fun zero => known (congrArg some zero)
  have lists : Lengths objs fuel ri0 data.ri.lists := by
    refine ⟨fun name => ?_,counts.unique settled.lists.unique⟩
    rw [lens,settled.lists.lengthOf]
    cases longest (counted objs fuel ri0) (ri0.enumerated objs) name <;> simp [Option.merge]
  rw [isOut]
  refine ⟨counts.context.trans settled.context,counts.same.trans settled.same,settled.singletons,lists,
    fun some' => counts.proper some' proper,fun values => positive values Nat.one_pos,fun _ no => (no trivial).elim,fun some' _ => ?_⟩
  have all := iters some' proper
  rw [Nat.one_mul,← lists.total,settled.lists.total] at all
  exact Nat.eq_of_mul_eq_mul_right (lengths_pos proper) all
theorem prepareTimes_more {ri0 ri ri' : RunItem} {again : Prop} (parsed : Parsed objs ri0) (settled : Settled objs fuel ri0 again ri)
    (got : prepareTimes objs fuel times ri = some (none,ri')) : Settled objs fuel ri0 (again ∨ times ≠ 0) ri' := by
  induction times generalizing ri again with
  | zero =>
    obtain rfl : ri = ri' := by simpa [prepareTimes] using got
    simpa using settled
  | succ times ih =>
    rw [prepareTimes] at got
    obtain ⟨⟨rc,ri1⟩,one,got⟩ := of_bind got
    cases rc with
    | some e => simp at got
    | none =>
      have more := ih (settled.next parsed one rfl) (by simpa using got)
      simpa using more
/-- The run item after it has been prepared some times. -/
theorem prepareTimes_settled {ri0 ri : RunItem} (parsed : Parsed objs ri0)
    (got : prepareTimes objs fuel (times+1) ri0 = some (none,ri)) : Settled objs fuel ri0 (times ≠ 0) ri := by
  rw [prepareTimes] at got
  obtain ⟨⟨rc,ri1⟩,one,got⟩ := of_bind got
  cases rc with
  | some e => simp at got
  | none => simpa using prepareTimes_more parsed (settled_first parsed one rfl) (by simpa using got)
end
end TestEnvironment.Tester
