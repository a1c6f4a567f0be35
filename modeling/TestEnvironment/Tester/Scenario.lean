import TestEnvironment.Lib.Spans
import TestEnvironment.Lib.Strings

/-!
Testing scenarios (`scenario.c`): lists of acts, each a range of test
identifiers with flags and, for one requested test, the hash of its arguments.

A function gives `none` where the source fails an assertion or reads a null
pointer; an allocation always succeeds.
-/
namespace TestEnvironment.Tester
open Lib

/-- `unsigned int` wraps at this number. -/
def UINT_MOD : Nat := 2^32

/-- `tester_flags`. -/
abbrev TesterFlags := BitVec 64
def TESTER_FAKE : TesterFlags := 1 <<< 4
def TESTER_VALGRIND : TesterFlags := 1 <<< 15
def TESTER_GDB : TesterFlags := 1 <<< 16
def TESTER_MIX_VALUES : TesterFlags := 1 <<< 20
def TESTER_MIX_ARGS : TesterFlags := 1 <<< 21
def TESTER_MIX_TESTS : TesterFlags := 1 <<< 22
def TESTER_MIX_ITERS : TesterFlags := 1 <<< 23
def TESTER_MIX_SESSIONS : TesterFlags := 1 <<< 24
def TESTER_SHUTDOWN : TesterFlags := 1 <<< 29

structure TestingAct extends Span where
  flags : TesterFlags
  hash : Option CStr
  deriving DecidableEq, Repr

abbrev TestingScenario := List TestingAct

section
/-- `testing_act_op`. -/
inductive TestingActOp
  | or
  | subtract
  deriving DecidableEq, Repr

/-- The first number behind all intervals, `1 << (8 * sizeof(int) - 2)`. -/
def INTRVL_TQ_POSTV_BIG : Nat := 2^30

/-- Subtraction of unsigned numbers. -/
def usub (a b : Nat) : Nat := (a+(UINT_MOD-b%UINT_MOD))%UINT_MOD
/-- The absolute value of an unsigned number that is read as a signed one. -/
def uabs (a : Nat) : Nat := if a < 2^31 then a else UINT_MOD-a

def opFlags (op : TestingActOp) (f0 f1 : TesterFlags) : TesterFlags :=
  match op with
  | .or => f0 ||| f1
  | .subtract => f0 ^^^ (f0 &&& f1)

/-- `get_operation_result`: the segments have to overlap. -/
def get_operation_result (seg0 seg1 : TestingAct) (op : TestingActOp) : Option TestingAct :=
  let len_sum := (usub seg0.last seg0.first+usub seg1.last seg1.first)%UINT_MOD
  let twice_centr_dist := uabs (usub ((seg0.last+seg0.first)%UINT_MOD) ((seg1.last+seg1.first)%UINT_MOD))
  if twice_centr_dist ≤ len_sum then
    some {first := max seg0.first seg1.first,last := min seg0.last seg1.last
          flags := opFlags op seg0.flags seg1.flags,hash := none}
  else none

/-- A gap between the intervals of a list. -/
def gapAct (first last : Nat) : TestingAct := {first := first,last := last,flags := 0,hash := none}

/-- `get_next_with_gaps`: the next interval or gap, null at the end; the list from
    the chosen element on; and where the interval ends. -/
def get_next_with_gaps : List TestingAct → Nat → Option (Option TestingAct × List TestingAct × Nat)
  | [], the_end =>
    if the_end = INTRVL_TQ_POSTV_BIG then some (none,[],the_end)
    else some (some (gapAct the_end (INTRVL_TQ_POSTV_BIG-1)),[],INTRVL_TQ_POSTV_BIG)
  | elm :: rest, the_end =>
    if the_end < elm.first then some (some (gapAct the_end (elm.first-1)),elm :: rest,elm.first)
    else if the_end = elm.first then some (some elm,elm :: rest,(elm.last+1)%UINT_MOD)
    else do
      let (next,rest,the_end) ← get_next_with_gaps rest the_end
      let next ← next
      if the_end = (next.last+1)%UINT_MOD then some (some next,rest,the_end) else none

/-- The variables of `testing_scenarios_op`. A pointer to an element is the list from
    it on; `h0` is what is left of the first list when the result replaces it. -/
structure Sweep where
  h0 : List TestingAct
  elm0 : List TestingAct
  next0 : Option TestingAct
  the_end_0 : Nat
  elm1 : List TestingAct
  next1 : Option TestingAct
  the_end_1 : Nat
  need_get_next1 : Bool
  overlap_grow : TestingAct
  h_rslt : List TestingAct
  deriving DecidableEq, Repr

/-- The cumulative overlap goes on, or it is put into the result unless it is blank
    and a new one is started. -/
def Sweep.grow (s : Sweep) (overlap : TestingAct) : Sweep :=
  if s.overlap_grow.flags ≠ overlap.flags then
    {s with h_rslt := if s.overlap_grow.flags ≠ 0 then s.h_rslt ++ [s.overlap_grow] else s.h_rslt
            overlap_grow := overlap}
  else {s with overlap_grow := {s.overlap_grow with last := overlap.last}}

/-- The next interval of the second list, unless the current one still has to be processed. -/
def Sweep.nextSecond (s : Sweep) : Option Sweep :=
  if !s.need_get_next1 then some {s with need_get_next1 := true} else do
    let (next1,elm1,the_end_1) ← get_next_with_gaps s.elm1 s.the_end_1
    some {s with next1 := next1,elm1 := elm1,the_end_1 := the_end_1}
/-- The loop over the second list up to the end of `next0`. -/
def integrateSecond (op : TestingActOp) (next0 : TestingAct) : Nat → Sweep → Option Sweep
  | 0, _ => none
  | fuel+1, s => do
    let s ← s.nextSecond
    match s.next1 with
    | none => some s
    | some next1 => do
      let overlap ← get_operation_result next0 next1 op
      let s := s.grow overlap
      if next1.last ≥ next0.last then some {s with need_get_next1 := !decide (next1.last > next0.last)}
      else integrateSecond op next0 fuel s

/-- The loop over the first list. No round of either loop stands still, so there are
    not more rounds than numbers. -/
def integrateFirst (op : TestingActOp) (result_replace : Bool) : Nat → Sweep → Option Sweep
  | 0, _ => none
  | fuel+1, s =>
    match s.next0 with
    | none => some s
    | some next0 => do
      let s ← integrateSecond op next0 (INTRVL_TQ_POSTV_BIG+1) s
      let (next0,elm0,the_end_0) ← get_next_with_gaps s.elm0 s.the_end_0
      -- The element passed is the one that many places before the end of what is left.
      let h0 := if result_replace ∧ elm0.length ≠ s.elm0.length
        then s.h0.eraseIdx (s.h0.length-s.elm0.length) else s.h0
      integrateFirst op result_replace fuel {s with h0 := h0,next0 := next0,elm0 := elm0,the_end_0 := the_end_0}

/-- `testing_scenarios_op`: what `*h_rslt_p` holds afterwards. It is `h0` itself if
    `h_rslt_p` is none, and another list with that content otherwise. -/
def testing_scenarios_op (h0 h1 : TestingScenario) (h_rslt_p : Option TestingScenario) (op : TestingActOp) :
    Option TestingScenario := do
  let result_replace := h_rslt_p.isNone
  let (next0,elm0,the_end_0) ← get_next_with_gaps h0 0
  let s ← integrateFirst op result_replace (INTRVL_TQ_POSTV_BIG+2)
    {h0 := h0,elm0 := elm0,next0 := next0,the_end_0 := the_end_0,elm1 := h1,next1 := none,the_end_1 := 0
     need_get_next1 := true,overlap_grow := gapAct 0 0,h_rslt := []}
  let h_rslt := if s.overlap_grow.flags ≠ 0 then s.h_rslt ++ [s.overlap_grow] else s.h_rslt
  match h_rslt_p with
  | none => if s.h0 = [] then some h_rslt else none
  | some dst => some (dst ++ h_rslt)
end

section
def scenario_new_act (first last : Nat) (flags : TesterFlags) : TestingAct :=
  {first := first,last := last,flags := flags,hash := none}
def scenario_add_act (scenario : TestingScenario) (first last : Nat) (flags : TesterFlags) (hash : Option CStr) :
    TestingScenario :=
  scenario ++ [{scenario_new_act first last flags with hash := hash}]
def scenario_act_copy (scenario : TestingScenario) (act : TestingAct) : TestingScenario :=
  scenario_add_act scenario act.first act.last act.flags act.hash
def scenario_copy (dst src : TestingScenario) : TestingScenario := src.foldl scenario_act_copy dst

/-- The loop of `scenario_by_bit_mask` from `bit` on; `start` is the first bit of the
    run of set bits that is passed. -/
def byBitMask (offset bit_weight : Nat) (hash : Option CStr) : List Bool → Nat → Option Nat → TestingScenario → TestingScenario
  | [], bit, some start, scenario =>
    scenario_add_act scenario ((offset+start*bit_weight)%UINT_MOD) (usub ((offset+bit*bit_weight)%UINT_MOD) 1) 0 hash
  | [], _, none, scenario => scenario
  | isSet :: bm, bit, some start, scenario =>
    if isSet then byBitMask offset bit_weight hash bm (bit+1) (some start) scenario
    else byBitMask offset bit_weight hash bm (bit+1) none
      (scenario_add_act scenario ((offset+start*bit_weight)%UINT_MOD) (usub ((offset+bit*bit_weight)%UINT_MOD) 1) 0 hash)
  | isSet :: bm, bit, none, scenario =>
    byBitMask offset bit_weight hash bm (bit+1) (if isSet then some bit else none) scenario
/-- `scenario_by_bit_mask`: the runs of set bits, in the order of the bits. -/
def scenario_by_bit_mask (scenario : TestingScenario) (offset : Nat) (bm : List Bool) (bit_weight : Nat)
    (hash : Option CStr) : TestingScenario :=
  byBitMask offset bit_weight hash bm 0 none scenario

/-- `scenario_append`: the scenario; the subscenario is empty afterwards. -/
def scenario_append (scenario subscenario : TestingScenario) (iterate : Nat) : TestingScenario :=
  (fun scenario => scenario_copy scenario subscenario)^[usub iterate 1] scenario ++ subscenario

/-- The loop of `scenario_apply_to` over the acts behind the first one. -/
def applyTo (act : TestingAct) : List TestingAct → Option TestingAct
  | [] => some act
  | cur :: rest => if act.last < cur.last then applyTo {act with last := cur.last} rest else none
def scenario_apply_to (scenario : TestingScenario) (from' : Nat) : Option TestingScenario :=
  match scenario with
  | [] => some []
  | act :: rest => do
    let act ← applyTo {act with first := from'} rest
    some (if act.first > act.last then [] else [act])
def scenario_apply_from (scenario : TestingScenario) (to' : Nat) : TestingScenario :=
  match scenario with
  | [] => []
  | act :: _ => if act.first > to' then [] else [{act with last := to'}]

def scenario_add_flags (scenario : TestingScenario) (flags : TesterFlags) : TestingScenario :=
  scenario.map fun act => {act with flags := act.flags ||| flags}
def scenario_del_acts_by_flags (scenario : TestingScenario) (flags : TesterFlags) : TestingScenario :=
  if flags = 0 then scenario else scenario.filter fun act => act.flags &&& flags ≠ flags
def scenario_del_acts_with_no_flags (scenario : TestingScenario) : TestingScenario :=
  scenario.filter fun act => act.flags ≠ 0

def scenario_exclude (scenario exclude : TestingScenario) (flags : TesterFlags) : Option TestingScenario := do
  let scenario ← testing_scenarios_op scenario (scenario_add_flags exclude flags) none .subtract
  some (scenario_del_acts_with_no_flags scenario)
def scenario_merge (scenario add : TestingScenario) (flags : TesterFlags) : Option TestingScenario :=
  testing_scenarios_op scenario (scenario_add_flags add flags) none .or

/-- The body of the inner loop of `scenario_apply_flags`: what stands in place of the act. -/
def splitAct (flag_act act : TestingAct) : List TestingAct :=
  if act.first ≤ flag_act.last ∧ act.last ≥ flag_act.first then
    if act.flags &&& flag_act.flags = flag_act.flags then [act]
    else if act.first ≥ flag_act.first ∧ act.last ≤ flag_act.last then [{act with flags := act.flags ||| flag_act.flags}]
    else
      let (before,act) := if act.first < flag_act.first
        then ([{act with last := flag_act.first-1}],scenario_new_act flag_act.first act.last act.flags)
        else ([],act)
      before ++ if act.last > flag_act.last
        then [{act with last := flag_act.last,flags := act.flags ||| flag_act.flags},
          scenario_new_act (flag_act.last+1) act.last act.flags]
        else [{act with flags := act.flags ||| flag_act.flags}]
  else [act]
/-- `scenario_apply_flags`: the inner loop goes on behind the last fragment of an act. -/
def scenario_apply_flags (scenario flags : TestingScenario) : TestingScenario :=
  flags.foldl (fun scenario flag_act => scenario.flatMap (splitAct flag_act)) scenario
end

section
/-- `testing_direction`. -/
inductive TestingDirection
  | forward
  | backward
  | stop
  deriving DecidableEq, Repr

/-- The loop of `scenario_step` over the next acts. -/
def skipActs (start_id next_id : Nat) (skip : Bool) : List TestingAct → List TestingAct
  | [] => []
  | act :: rest => if !skip then act :: rest
    else if act.first < start_id ∨ act.last ≥ next_id then act :: rest
    else skipActs start_id next_id skip rest
/-- `scenario_step`: the direction, the acts from the current one on, and `act_id`. -/
def scenario_step (act : List TestingAct) (act_id start_id next_id : Nat) (skip : Bool) :
    Option (TestingDirection × List TestingAct × Nat) :=
  match act with
  | [] => some (.stop,[],act_id)
  | cur :: rest =>
    if act_id < cur.first ∨ act_id > cur.last then none
    else if next_id < act_id then some (.forward,act,act_id)
    else if next_id ≥ cur.first ∧ next_id ≤ cur.last then some (.forward,act,next_id)
    else
      match skipActs start_id next_id skip rest with
      | [] => some (.stop,[],act_id)
      | act :: rest =>
        if next_id ≤ act.first then some (.forward,act :: rest,act.first)
        else some (.backward,act :: rest,act.first)
end
end TestEnvironment.Tester
