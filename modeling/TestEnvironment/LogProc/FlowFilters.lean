import TestEnvironment.Lib.Partition
import TestEnvironment.LogProc.MsgFilter

/-!
Filters of the flow tree (`log_flow_filters.c`): rules for the paths of branches, and for durations of packages, sessions
and tests. A list of duration rules is that of its intervals; nothing that a call allocates is missing.
-/
namespace TestEnvironment.LogProc
open Lib

section

def UINT32_MAX : Nat := 2^32-1
/-- `log_filter_result` of a flow filter. -/
inductive FlowResult | PASS | FAIL | DEFAULT
  deriving DecidableEq, Repr
/-- `log_duration_filter_rule`. -/
structure LogDurationFilterRule where
  min : Nat
  max : Nat
  result : FlowResult
  deriving DecidableEq, Repr

def ruleResult (inclusive : Bool) : FlowResult := if inclusive then .PASS else .FAIL
def log_duration_filter_rules_init : List LogDurationFilterRule := [⟨0,UINT32_MAX,.PASS⟩]
/-- The loop of `log_duration_filter_rules_add` over the rules that are left, with the rule that is inserted at the head
of the list, if there is one: `*prev` is always the rule itself, so that this is done for every rule that begins with the interval. -/
def rulesAddLoop (max : Nat) (result : FlowResult) : Nat → List LogDurationFilterRule → Option LogDurationFilterRule × List LogDurationFilterRule
  | _, [] => (none,[])
  | min, rule :: rules =>
    if min < rule.min then (none,rule :: rules)
    else if rule.min ≤ min ∧ min < rule.max then
      if rule.min = min ∧ rule.max ≤ max then
        let (head,rules) := rulesAddLoop max result rule.max rules
        (head,{rule with result} :: rules)
      else if max ≤ rule.max then
        if rule.min = min then (some ⟨min,max,result⟩,{rule with min := max+1} :: rules)
        else (none,{rule with max := min-1} :: ⟨min,max,result⟩ :: ((if max < rule.max then [⟨max+1,rule.max,rule.result⟩] else []) ++ rules))
      else (none,{rule with max := min-1} :: ⟨min,rule.max,result⟩ :: rules)
    else
      let (head,rules) := rulesAddLoop max result min rules
      (head,rule :: rules)
def log_duration_filter_rules_add (min max : Nat) (inclusive : Bool) (rules : List LogDurationFilterRule) : List LogDurationFilterRule :=
  let (head,rules) := rulesAddLoop max (ruleResult inclusive) min rules
  head.toList ++ rules
/-- The rules at a duration are found by `Contains`. -/
def log_duration_filter_rules_check (rules : List LogDurationFilterRule) (duration : Nat) : FlowResult :=
  (intervalAt LogDurationFilterRule.min LogDurationFilterRule.max rules duration).elim .PASS LogDurationFilterRule.result

/-- The rules fill the numbers from `s` up to, but without, `e`. -/
def Filled (s e : Nat) (rules : List LogDurationFilterRule) : Prop := Covers LogDurationFilterRule.min LogDurationFilterRule.max s e rules
/-- What the loop makes of the rule that contains the beginning of the interval. -/
def cutRule (min max : Nat) (result : FlowResult) (rule : LogDurationFilterRule) : List LogDurationFilterRule :=
  if rule.max = min then [rule]
  else if rule.min = min ∧ rule.max ≤ max then [{rule with result}]
  else if rule.min = min then [⟨min,max,result⟩,{rule with min := max+1}]
  else if max < rule.max then [{rule with max := min-1},⟨min,max,result⟩,⟨max+1,rule.max,rule.result⟩]
  else [{rule with max := min-1},⟨min,rule.max,result⟩]

variable {min max s e d : Nat} {result : FlowResult} {rule : LogDurationFilterRule} {rules front rest mid : List LogDurationFilterRule}

theorem loop_behind (behind : Filled (min+1) e rules) : rulesAddLoop max result min rules = (none,rules) := by
  cases rules with
  | nil => rfl
  | cons rule rules =>
    rw [rulesAddLoop,if_pos]
    rw [behind.1]
    exact lt_succ_self min
theorem loop_front (before : Filled s rule.min front) (has : rule.min ≤ min) (rest : List LogDurationFilterRule) :
    rulesAddLoop max result min (front ++ rest) = ((rulesAddLoop max result min rest).1,front ++ (rulesAddLoop max result min rest).2) := by
  induction front generalizing s with
  | nil => rfl
  | cons first front ih =>
    have below := covers_mem before mem_cons_self
    rw [cons_append,rulesAddLoop,if_neg (by omega),if_neg (by omega),ih before.2.2]
    rfl

section
variable (has : Contains LogDurationFilterRule.min LogDurationFilterRule.max min rule)
include has
/-- A rule that begins with the interval and is longer is cut at the head of the list, any other one at its place. -/
theorem loop_cut (behind : Filled (rule.max+1) e rest) : rulesAddLoop max result min (rule :: rest) =
      if rule.min = min ∧ max < rule.max ∧ rule.max ≠ min then (some ⟨min,max,result⟩,{rule with min := max+1} :: rest)
      else (none,cutRule min max result rule ++ rest) := by
  obtain ⟨low,high⟩ := has
  rw [rulesAddLoop,if_neg (not_lt.mpr low),cutRule]
  by_cases last : rule.max = min
  · subst last
    rw [if_neg (fun both => lt_irrefl _ both.2),loop_behind behind,if_neg (fun all => all.2.2 rfl),if_pos rfl]
    rfl
  · rw [if_pos ⟨low,by omega⟩,if_neg last]
    by_cases whole : rule.min = min ∧ rule.max ≤ max
    · rw [if_pos whole,loop_behind behind,if_neg (by omega),if_pos whole]
      rfl
    · rw [if_neg whole,if_neg whole]
      by_cases first : rule.min = min
      · rw [if_pos (by omega),if_pos first,if_pos ⟨first,by omega,last⟩]
      · grind
/-- The pieces fill the rule, and the interval has its result in them unless the rule ends where it begins. -/
theorem cut_spec (ordered : min ≤ max) :
    Filled rule.min (rule.max+1) (cutRule min max result rule) ∧ ∀ x ∈ cutRule min max result rule, ∀ d,
      Contains LogDurationFilterRule.min LogDurationFilterRule.max d x →
        x.result = if min ≤ d ∧ d ≤ max ∧ rule.max ≠ min then result else rule.result := by
  obtain ⟨low,high⟩ := has
  have piece {x : LogDurationFilterRule} {d : Nat} (r : FlowResult) (same : x.result = r)
      (when : x.min ≤ d → d ≤ x.max → r = if min ≤ d ∧ d ≤ max ∧ rule.max ≠ min then result else rule.result)
      (inside : Contains LogDurationFilterRule.min LogDurationFilterRule.max d x) :
      x.result = if min ≤ d ∧ d ≤ max ∧ rule.max ≠ min then result else rule.result := same.trans (when inside.1 inside.2)
  rw [cutRule]
  split_ifs with last whole first inside
  · refine ⟨⟨rfl,by omega,rfl⟩,forall_mem_singleton.mpr fun d => piece rule.result rfl fun _ _ => ?_⟩
    rw [if_neg fun all => all.2.2 last]
  · refine ⟨⟨rfl,by show rule.min ≤ rule.max; omega,rfl⟩,forall_mem_singleton.mpr fun d => piece result rfl fun (_ : rule.min ≤ d) (_ : d ≤ rule.max) => ?_⟩
    rw [if_pos ⟨by omega,by omega,last⟩]
  · refine ⟨⟨first.symm,by show rule.min ≤ max; omega,rfl,by show max+1 ≤ rule.max; omega,rfl⟩,?_⟩
    refine forall_mem_cons.mpr ⟨fun d => piece result rfl fun (_ : min ≤ d) (_ : d ≤ max) => ?_,forall_mem_singleton.mpr fun d =>
      piece rule.result rfl fun (_ : max+1 ≤ d) _ => ?_⟩
    · rw [if_pos ⟨by omega,by omega,last⟩]
    · rw [if_neg (by omega)]
  · refine ⟨⟨rfl,by show rule.min ≤ min-1; omega,by show min = min-1+1; omega,by show min-1+1 ≤ max; omega,rfl,inside,rfl⟩,?_⟩
    refine forall_mem_cons.mpr ⟨fun d => piece rule.result rfl fun (_ : rule.min ≤ d) (_ : d ≤ min-1) => ?_,forall_mem_cons.mpr
      ⟨fun d => piece result rfl fun (_ : min ≤ d) (_ : d ≤ max) => ?_,forall_mem_singleton.mpr fun d =>
        piece rule.result rfl fun (_ : max+1 ≤ d) _ => ?_⟩⟩
    · rw [if_neg (by omega)]
    · rw [if_pos ⟨by omega,by omega,last⟩]
    · rw [if_neg (by omega)]
  · refine ⟨⟨rfl,by show rule.min ≤ min-1; omega,by show min = min-1+1; omega,by show min-1+1 ≤ rule.max; omega,rfl⟩,?_⟩
    refine forall_mem_cons.mpr ⟨fun d => piece rule.result rfl fun (_ : rule.min ≤ d) (_ : d ≤ min-1) => ?_,forall_mem_singleton.mpr fun d =>
      piece result rfl fun (_ : min ≤ d) (_ : d ≤ rule.max) => ?_⟩
    · rw [if_neg (by omega)]
    · rw [if_pos ⟨by omega,by omega,last⟩]
end
theorem check_mem (filled : Filled s e rules) (member : rule ∈ rules) (has : Contains LogDurationFilterRule.min LogDurationFilterRule.max d rule) :
    log_duration_filter_rules_check rules d = rule.result := by
  rw [log_duration_filter_rules_check,intervalAt_mem filled member has]
  rfl
/-- The list is still a partition, and the interval has its result in it. -/
def RuleAdded (min max : Nat) (result : FlowResult) (rules rules' : List LogDurationFilterRule) : Prop :=
  Filled 0 (UINT32_MAX+1) rules' ∧ ∀ d ≤ UINT32_MAX,
    log_duration_filter_rules_check rules' d = if min ≤ d ∧ d ≤ max then result else log_duration_filter_rules_check rules d
/-- The interval ends in the rule in which it begins or goes on where the result is the same already, and it does not begin
with a longer rule other than the first one. -/
def RuleFits (min max : Nat) (result : FlowResult) (rules : List LogDurationFilterRule) : Prop :=
  ∃ rule ∈ rules, Contains LogDurationFilterRule.min LogDurationFilterRule.max min rule ∧ (rule.max = min → rule.result = result) ∧
    (rule.min = min → max < rule.max → min = 0) ∧ ∀ r ∈ rules, rule.max < r.max → r.min ≤ max → r.result = result

theorem filled_rebuilt (filled : Filled 0 e (front ++ rule :: rest)) (pieces : Filled rule.min (rule.max+1) mid) : Filled 0 e (front ++ (mid ++ rest)) := by
  obtain ⟨m,before,here,_,behind⟩ := covers_append.mp filled
  exact covers_append.mpr ⟨m,before,covers_append.mpr ⟨rule.max+1,here ▸ pieces,behind⟩⟩
/-- Where the rule is cut at its place, the interval has its result in the new list if that is so for a rule that ends with its beginning, and for
the rules behind. -/
theorem rebuilt_iff (filled : Filled 0 (UINT32_MAX+1) (front ++ rule :: rest)) (has : Contains LogDurationFilterRule.min LogDurationFilterRule.max min rule)
    (ordered : min ≤ max) (bounded : max ≤ UINT32_MAX) :
    (∀ d ≤ UINT32_MAX, log_duration_filter_rules_check (front ++ (cutRule min max result rule ++ rest)) d =
        if min ≤ d ∧ d ≤ max then result else log_duration_filter_rules_check (front ++ rule :: rest) d) ↔
      (rule.max = min → rule.result = result) ∧ ∀ r ∈ front ++ rule :: rest, rule.max < r.max → r.min ≤ max → r.result = result := by
  obtain ⟨pieces,results⟩ := @cut_spec min max result rule has ordered
  have filled' := filled_rebuilt filled pieces
  obtain ⟨m,before,here,_,behind⟩ := covers_append.mp filled
  have kept {x : LogDurationFilterRule} (member : x ∈ front ∨ x ∈ rest) : x ∈ front ++ (cutRule min max result rule ++ rest) ∧ x ∈ front ++ rule :: rest := by
    grind
  have inside {d : Nat} (hit : Contains LogDurationFilterRule.min LogDurationFilterRule.max d rule) :
      log_duration_filter_rules_check (front ++ (cutRule min max result rule ++ rest)) d =
        if min ≤ d ∧ d ≤ max ∧ rule.max ≠ min then result else rule.result := by
    obtain ⟨left,x,right,split,hit',_,_⟩ := covers_split pieces hit.1 (lt_succ_of_le hit.2)
    have member : x ∈ cutRule min max result rule := split ▸ mem_append_right _ mem_cons_self
    rw [check_mem filled' (mem_append_right _ (mem_append_left _ member)) hit']
    exact results x member d hit'
  have low := has.1
  have high := has.2
  constructor
  · intro follows
    refine ⟨fun last => ?_,fun r member longer begins => ?_⟩
    · grind
    · have later : r ∈ rest := by
        obtain member | member := mem_append.mp member
        · have := covers_mem before member
          omega
        · grind
      have place := covers_mem behind later
      have at_r := follows r.min (begins.trans bounded)
      rw [check_mem filled' (kept (.inr later)).1 ⟨le_rfl,place.2.1⟩,if_pos ⟨by omega,begins⟩] at at_r
      exact at_r
  · rintro ⟨last,beyond⟩ d bound
    obtain ⟨left,x,right,split,hit,_,_⟩ := covers_split filled (Nat.zero_le d) (lt_succ_of_le bound)
    have member : x ∈ front ++ rule :: rest := split ▸ mem_append_right _ mem_cons_self
    have hit_low := hit.1
    have hit_high := hit.2
    rw [check_mem filled member hit]
    obtain member | member := mem_append.mp member
    · have place := covers_mem before member
      rw [check_mem filled' (kept (.inl member)).1 hit,if_neg (by omega)]
    · obtain rfl | later := mem_cons.mp member
      · grind
      · have place := covers_mem behind later
        rw [check_mem filled' (kept (.inr later)).1 hit]
        by_cases both : min ≤ d ∧ d ≤ max
        · grind
        · rw [if_neg both]
/-- A rule is added rightly if and only if it fits. -/
theorem rule_added_iff {inclusive : Bool} (filled : Filled 0 (UINT32_MAX+1) rules) (ordered : min ≤ max) (bounded : max ≤ UINT32_MAX) :
    RuleAdded min max (ruleResult inclusive) rules (log_duration_filter_rules_add min max inclusive rules) ↔ RuleFits min max (ruleResult inclusive) rules := by
  obtain ⟨front,rule,rest,rfl,has,before,behind⟩ := covers_split filled (Nat.zero_le min) (by omega)
  have only (other : LogDurationFilterRule) (member : other ∈ front ++ rule :: rest) (hit : Contains LogDurationFilterRule.min LogDurationFilterRule.max min other) :
      other = rule := by
    have first := intervalAt_mem filled member hit
    rw [intervalAt_mem filled (mem_append_right _ mem_cons_self) has] at first
    exact (some.inj first).symm
  have fits : RuleFits min max (ruleResult inclusive) (front ++ rule :: rest) ↔ (rule.max = min → rule.result = ruleResult inclusive) ∧
      (rule.min = min → max < rule.max → min = 0) ∧ ∀ r ∈ front ++ rule :: rest, rule.max < r.max → r.min ≤ max → r.result = ruleResult inclusive := by
    refine ⟨fun ⟨other,member,hit,rest⟩ => only other member hit ▸ rest,fun rest => ⟨rule,mem_append_right _ mem_cons_self,has,rest⟩⟩
  have added : log_duration_filter_rules_add min max inclusive (front ++ rule :: rest) =
      if rule.min = min ∧ max < rule.max ∧ rule.max ≠ min then ⟨min,max,ruleResult inclusive⟩ :: (front ++ {rule with min := max+1} :: rest)
      else front ++ (cutRule min max (ruleResult inclusive) rule ++ rest) := by
    rw [log_duration_filter_rules_add,loop_front before has.1,loop_cut has behind]
    split_ifs <;> rfl
  rw [fits,added]
  by_cases first : rule.min = min ∧ max < rule.max ∧ rule.max ≠ min
  · rw [if_pos first]
    by_cases zero : min = 0
    · obtain rfl : front = [] := by
        cases front with
        | nil => rfl
        | cons x front =>
          have := covers_mem before mem_cons_self
          omega
      have cut : cutRule min max (ruleResult inclusive) rule = [⟨min,max,ruleResult inclusive⟩,{rule with min := max+1}] := by
        rw [cutRule,if_neg first.2.2,if_neg (by omega),if_pos first.1]
      have same := @rebuilt_iff min max (ruleResult inclusive) rule [] rest filled has ordered bounded
      have filled' := filled_rebuilt filled (@cut_spec min max (ruleResult inclusive) rule has ordered).1
      rw [cut] at same filled'
      rw [RuleAdded]
      refine (and_iff_right filled').trans (same.trans (and_congr_right fun _ => (and_iff_right fun _ _ => zero).symm))
    · refine iff_of_false (fun right => ?_) (fun all => zero (all.2.1 first.1 first.2.1))
      exact zero right.1.1
  · rw [if_neg first,RuleAdded]
    refine (and_iff_right (filled_rebuilt filled (cut_spec has ordered).1)).trans ((rebuilt_iff filled has ordered bounded).trans ?_)
    refine and_congr_right fun _ => (and_iff_right fun begins short => ?_).symm
    exact absurd ⟨begins,short,by omega⟩ first
end

section

inductive NodeType | ALL | UNKNOWN | PACKAGE | SESSION | TEST
  deriving DecidableEq, Repr
/-- `log_duration_filter`. -/
structure LogDurationFilter where
  package : List LogDurationFilterRule
  session : List LogDurationFilterRule
  test : List LogDurationFilterRule
/-- A call of `log_duration_filter_add`. -/
structure DurationCall where
  type : Option CStr
  min : Nat
  max : Nat
  inclusive : Bool

def get_node_type : Option CStr → NodeType
  | none => .ALL
  | some name =>
    if name = "pkg".toList then .PACKAGE
    else if name = "PACKAGE".toList then .PACKAGE
    else if name = "session".toList then .SESSION
    else if name = "SESSION".toList then .SESSION
    else if name = "test".toList then .TEST
    else if name = "TEST".toList then .TEST
    else .UNKNOWN
def log_duration_filter_init : LogDurationFilter := ⟨log_duration_filter_rules_init,log_duration_filter_rules_init,log_duration_filter_rules_init⟩
def log_duration_filter_add (filter : LogDurationFilter) (call : DurationCall) : LogDurationFilter :=
  let node_type := get_node_type call.type
  let add := log_duration_filter_rules_add call.min call.max call.inclusive
  { package := if node_type = .ALL ∨ node_type = .PACKAGE then add filter.package else filter.package
    session := if node_type = .ALL ∨ node_type = .SESSION then add filter.session else filter.session
    test := if node_type = .ALL ∨ node_type = .TEST then add filter.test else filter.test }
def log_duration_filter_check (filter : LogDurationFilter) (type : Option CStr) (duration : Nat) : FlowResult :=
  match get_node_type type with
  | .PACKAGE => log_duration_filter_rules_check filter.package duration
  | .SESSION => log_duration_filter_rules_check filter.session duration
  | .TEST => log_duration_filter_rules_check filter.test duration
  | _ => .DEFAULT

/-- A type of nodes by its list of rules. -/
structure NodeKind where
  type : NodeType
  rules : LogDurationFilter → List LogDurationFilterRule
def nodeKinds : List NodeKind := [⟨.PACKAGE,LogDurationFilter.package⟩,⟨.SESSION,LogDurationFilter.session⟩,⟨.TEST,LogDurationFilter.test⟩]
def DurationCall.Hits (call : DurationCall) (kind : NodeKind) : Prop := get_node_type call.type = .ALL ∨ get_node_type call.type = kind.type
instance (call : DurationCall) (kind : NodeKind) : Decidable (call.Hits kind) := inferInstanceAs (Decidable (_ ∨ _))
def DurationCall.Proper (call : DurationCall) : Prop := call.min ≤ call.max ∧ call.max ≤ UINT32_MAX
def filterAfter (calls : List DurationCall) : LogDurationFilter := calls.foldl log_duration_filter_add log_duration_filter_init
/-- The result of the last rule whose interval contains the duration. -/
def lastResult (calls : List DurationCall) (d : Nat) : FlowResult :=
  (calls.reverse.find? fun call => call.min ≤ d ∧ d ≤ call.max).elim .PASS fun call => ruleResult call.inclusive
/-- The rules for a kind of nodes are a partition of all durations and remember every call for it. -/
def Remembers (kind : NodeKind) (calls : List DurationCall) : Prop :=
  Filled 0 (UINT32_MAX+1) (kind.rules (filterAfter calls)) ∧ ∀ d ≤ UINT32_MAX,
    log_duration_filter_rules_check (kind.rules (filterAfter calls)) d = lastResult (calls.filter fun call => call.Hits kind) d

variable {kind : NodeKind} {calls : List DurationCall} {call : DurationCall}

theorem filterAfter_concat (calls : List DurationCall) (call : DurationCall) :
    filterAfter (calls ++ [call]) = log_duration_filter_add (filterAfter calls) call := List.foldl_concat ..
theorem nodeKinds_cases (known : kind ∈ nodeKinds) :
    kind = ⟨.PACKAGE,LogDurationFilter.package⟩ ∨ kind = ⟨.SESSION,LogDurationFilter.session⟩ ∨ kind = ⟨.TEST,LogDurationFilter.test⟩ := by
  simpa only [nodeKinds,mem_cons,not_mem_nil,or_false] using known
theorem rules_add (known : kind ∈ nodeKinds) (filter : LogDurationFilter) (call : DurationCall) : kind.rules (log_duration_filter_add filter call) =
    if call.Hits kind then log_duration_filter_rules_add call.min call.max call.inclusive (kind.rules filter) else kind.rules filter := by
  obtain rfl | rfl | rfl := nodeKinds_cases known
  · rfl
  · rfl
  · rfl
theorem lastResult_concat (calls : List DurationCall) (call : DurationCall) (d : Nat) :
    lastResult (calls ++ [call]) d = if call.min ≤ d ∧ d ≤ call.max then ruleResult call.inclusive else lastResult calls d := by
  rw [lastResult,reverse_append,reverse_singleton,singleton_append,List.find?_cons]
  by_cases inside : call.min ≤ d ∧ d ≤ call.max
  · simp [inside]
  · rw [if_neg inside,decide_eq_false inside]
    rfl
theorem remembers_start (known : kind ∈ nodeKinds) : Remembers kind [] := by
  have rules : kind.rules (filterAfter []) = log_duration_filter_rules_init := by
    obtain rfl | rfl | rfl := nodeKinds_cases known
    · rfl
    · rfl
    · rfl
  rw [Remembers,rules]
  have filled : Filled 0 (UINT32_MAX+1) log_duration_filter_rules_init := ⟨rfl,Nat.zero_le _,rfl⟩
  exact ⟨filled,fun d bound => check_mem filled mem_cons_self ⟨Nat.zero_le d,bound⟩⟩
/-- A call that does not hit the kind changes nothing for it, and one that does is remembered if and only if it fits. -/
theorem remembers_step (known : kind ∈ nodeKinds) (proper : call.Proper) (before : Remembers kind calls) : Remembers kind (calls ++ [call]) ↔
    (call.Hits kind → RuleFits call.min call.max (ruleResult call.inclusive) (kind.rules (filterAfter calls))) := by
  have rules : kind.rules (filterAfter (calls ++ [call])) = _ := (congrArg kind.rules (filterAfter_concat calls call)).trans (rules_add known _ call)
  rw [Remembers,rules,filter_append]
  by_cases hits : call.Hits kind
  · have single : [call].filter (fun call => decide (call.Hits kind)) = [call] := filter_cons_of_pos (decide_eq_true hits)
    rw [if_pos hits,single,forall_prop_of_true hits,← rule_added_iff before.1 proper.1 proper.2,RuleAdded]
    refine and_congr_right fun _ => forall₂_congr fun d bound => ?_
    rw [lastResult_concat,before.2 d bound]
  · have nothing : [call].filter (fun call => decide (call.Hits kind)) = [] := filter_cons_of_neg (by rw [decide_eq_true_eq]; exact hits)
    rw [if_neg hits,nothing,append_nil]
    exact iff_of_true before fun hit => absurd hit hits
theorem remembers_iff (known : kind ∈ nodeKinds) (proper : ∀ call ∈ calls, call.Proper) :
    (∀ front rest, calls = front ++ rest → Remembers kind front) ↔ ∀ front call rest, calls = front ++ call :: rest → call.Hits kind →
      RuleFits call.min call.max (ruleResult call.inclusive) (kind.rules (filterAfter front)) := by
  constructor
  · rintro right front call rest rfl
    have here := proper call (mem_append_right _ mem_cons_self)
    exact (remembers_step known here (right front (call :: rest) rfl)).mp (right (front ++ [call]) rest (by rw [append_assoc]; rfl))
  · intro fits front
    induction front using List.reverseRecOn with
    | nil => exact fun _ _ => remembers_start known
    | append_singleton front call ih =>
      rintro rest rfl
      rw [append_assoc,singleton_append] at fits proper ih
      have here := proper call (mem_append_right _ mem_cons_self)
      exact (remembers_step known here (ih (call :: rest) rfl)).mpr (fits front call rest rfl)
end

section

/-- `log_branch_filter_rule`. -/
structure LogBranchFilterRule where
  path : CStr
  result : FlowResult
  deriving DecidableEq, Repr
inductive BranchStatus | ok | TE_EINVAL
  deriving DecidableEq, Repr

/-- A rule for a path that has none would be inserted behind `*prev`, which is `NULL` at the end of the list. -/
def log_branch_filter_add (filter : List LogBranchFilterRule) (path : Option CStr) (inclusive : Bool) : Option (BranchStatus × List LogBranchFilterRule) :=
  match path with
  | none => some (.TE_EINVAL,filter)
  | some path =>
    match filter.find? fun rule => rule.path = path with
    | some rule => some (if inclusive = decide (rule.result = .FAIL) then .ok else .TE_EINVAL,filter)
    | none => none
def log_branch_filter_check (filter : List LogBranchFilterRule) (path : CStr) : FlowResult :=
  (filter.find? fun rule => rule.path = path).elim .DEFAULT LogBranchFilterRule.result
/-- The rules that are accepted, and the filter they leave. -/
def branchStep (state : List (CStr × Bool) × List LogBranchFilterRule) (add : Option CStr × Bool) : Option (List (CStr × Bool) × List LogBranchFilterRule) :=
  (log_branch_filter_add state.2 add.1 add.2).map fun result =>
    (if result.1 = .ok then state.1 ++ (add.1.map fun path => (path,add.2)).toList else state.1,result.2)
def branchRun (adds : List (Option CStr × Bool)) : Option (List (CStr × Bool) × List LogBranchFilterRule) := adds.foldlM branchStep ([],[])
/-- The calls return, and the check of a path tells the rule that was accepted for it. -/
def BranchesRemembered (adds : List (Option CStr × Bool)) : Prop :=
  ∃ state, branchRun adds = some state ∧ ∀ path, log_branch_filter_check state.2 path =
    (state.1.reverse.find? fun rule => rule.1 = path).elim .DEFAULT fun rule => ruleResult rule.2

theorem branches_iff (adds : List (Option CStr × Bool)) : BranchesRemembered adds ↔ ∀ add ∈ adds, add.1 = none := by
  have empty (adds : List (Option CStr × Bool)) : adds.foldlM branchStep ([],[]) = if ∀ add ∈ adds, add.1 = none then some ([],[]) else none := by
    induction adds with
    | nil => rfl
    | cons add adds ih =>
      obtain ⟨path,inclusive⟩ := add
      cases path with
      | none =>
        rw [foldlM_cons]
        show adds.foldlM branchStep ([],[]) = _
        rw [ih]
        simp only [forall_mem_cons,true_and]
      | some path =>
        rw [if_neg fun all => some_ne_none path (all _ mem_cons_self)]
        rfl
  rw [BranchesRemembered,branchRun,empty]
  split_ifs with nulls
  · exact iff_of_true ⟨_,rfl,fun _ => rfl⟩ nulls
  · exact iff_of_false (fun ⟨_,run,_⟩ => nomatch run) nulls
end

section

/-- Duration rules are remembered in every state reached if and only if every call fits, and branch rules only if there are none. -/
theorem flow_filters_remember (calls : List DurationCall) (proper : ∀ call ∈ calls, call.Proper) (adds : List (Option CStr × Bool)) :
    (∀ kind ∈ nodeKinds, (∀ front rest, calls = front ++ rest → Remembers kind front) ↔ ∀ front call rest, calls = front ++ call :: rest → call.Hits kind →
      RuleFits call.min call.max (ruleResult call.inclusive) (kind.rules (filterAfter front))) ∧
    (BranchesRemembered adds ↔ ∀ add ∈ adds, add.1 = none) :=
  ⟨fun _ known => remembers_iff known proper,branches_iff adds⟩

def excluded (min max : Nat) : DurationCall := ⟨none,min,max,false⟩
theorem flow_filters_remember_one : (∀ call ∈ [excluded 10 20], call.Proper) ∧
    (∀ kind ∈ nodeKinds, ∀ front rest, [excluded 10 20] = front ++ rest → Remembers kind front) ∧ BranchesRemembered [(none,true)] := by
  have proper : ∀ call ∈ [excluded 10 20], call.Proper := forall_mem_singleton.mpr ⟨by decide,by decide⟩
  obtain ⟨durations,branches⟩ := flow_filters_remember [excluded 10 20] proper [(none,true)]
  refine ⟨proper,fun kind known => (durations kind known).mpr ?_,branches.mpr (forall_mem_singleton.mpr rfl)⟩
  intro front call rest split _
  obtain ⟨rfl,tail⟩ : front = [] ∧ [excluded 10 20] = call :: rest := by
    cases front with
    | nil => exact ⟨rfl,split⟩
    | cons _ front => exact absurd (cons.inj split).2.symm (List.append_ne_nil_of_right_ne_nil front (cons_ne_nil _ _))
  obtain ⟨rfl,_⟩ := cons.inj tail
  have fits : RuleFits 10 20 .FAIL log_duration_filter_rules_init :=
    ⟨_,mem_cons_self,⟨by decide,by decide⟩,fun same => absurd same (by decide),fun same => absurd same (by decide),
      forall_mem_singleton.mpr fun less => absurd less (by decide)⟩
  obtain rfl | rfl | rfl := nodeKinds_cases known
  · exact fits
  · exact fits
  · exact fits
/-- 10 is not excluded by the interval from 3 to 10, of which only what is in the first rule is entered, and no path can be added. -/
theorem interval_over_two_rules : ¬ Remembers ⟨.TEST,LogDurationFilter.test⟩ [excluded 0 5,excluded 3 10] ∧ ¬ BranchesRemembered [(some ['p'],false)] := by
  refine ⟨fun right => absurd (right.2 10 (by decide)) (by decide),fun right => ?_⟩
  exact some_ne_none ['p'] ((branches_iff _).mp right (some ['p'],false) mem_cons_self)
end
end TestEnvironment.LogProc
