import TestEnvironment.Tester.Scenario

/-!
The operations on two scenarios of flags. A sorted scenario of disjoint acts
stands for a function from identifiers to flags; the sweep over two of them
builds the scenario of the pointwise operation, one number further with each
step.
-/
namespace TestEnvironment.Tester
open Lib

/-- The flags of an identifier: those of its act, or 0. -/
def flagsAt (scenario : TestingScenario) (i : Nat) : TesterFlags := valueAt TestingAct.toSpan TestingAct.flags 0 scenario i

/-- Sorted by identifier, disjoint, below the last number that intervals may have, and
    without blank acts. -/
structure FlagScenario (scenario : TestingScenario) : Prop where
  apart : Apart (scenario.map TestingAct.toSpan)
  small : ∀ act ∈ scenario, act.last < INTRVL_TQ_POSTV_BIG-1
  flagged : ∀ act ∈ scenario, act.flags ≠ 0

section
variable {a b : Nat}

theorem usub_eq (le : b ≤ a) (small : a < UINT_MOD) : usub a b = a-b := by
  unfold usub UINT_MOD at *
  omega
theorem uabs_usub (smallA : a < 2^31) (smallB : b < 2^31) : uabs (usub a b) = (a-b)+(b-a) := by
  unfold uabs usub UINT_MOD
  split <;> omega
@[simp] theorem opFlags_zero (op : TestingActOp) : opFlags op 0 0 = 0 := by cases op <;> rfl
/-- The exclusion clears flags. -/
theorem opFlags_subtract (f0 f1 : TesterFlags) : opFlags .subtract f0 f1 = f0 &&& ~~~f1 := by
  apply BitVec.eq_of_getLsbD_eq
  intro i bound
  simp only [opFlags,BitVec.getLsbD_xor,BitVec.getLsbD_and,BitVec.getLsbD_not,bound]
  cases f0.getLsbD i <;> cases f1.getLsbD i <;> rfl
end

section
variable {l rest : List TestingAct} {e : Nat}

/-- How far a list has been passed: the elements before `rest` are behind `e`, and the
    first of `rest` is not entered or just passed. -/
structure Side (l rest : List TestingAct) (e : Nat) : Prop where
  passed : ∃ pre, l = pre ++ rest ∧ ∀ act ∈ pre, act.last < e
  place : ∀ elm rest', rest = elm :: rest' → e ≤ elm.first ∨ e = elm.last+1

theorem FlagScenario.right {pre : List TestingAct} (ok : FlagScenario (pre ++ rest)) : FlagScenario rest := by
  have apart := ok.apart
  rw [map_append] at apart
  exact ⟨(Apart.append_iff.mp apart).2.1,fun act member => ok.small act (by simp [member]),
    fun act member => ok.flagged act (by simp [member])⟩

/-- From `e` on only the rest counts. -/
theorem Side.flagsAt (side : Side l rest e) {i : Nat} (le : e ≤ i) : flagsAt l i = flagsAt rest i := by
  obtain ⟨pre,rfl,passed⟩ := side.passed
  refine valueAt_append_right fun act member has => ?_
  have := passed act member
  have := has.2
  omega

/-- What `get_next_with_gaps` gives: the interval from `e` on, on which the flags of
    the list are those of the interval. -/
structure NextInterval (l rest : List TestingAct) (e : Nat) (next : TestingAct) (rest' : List TestingAct) : Prop where
  first : next.first = e
  proper : e ≤ next.last
  small : next.last < INTRVL_TQ_POSTV_BIG
  flags : ∀ i, e ≤ i → i ≤ next.last → flagsAt l i = next.flags
  side : Side l rest' (next.last+1)
  moved : rest' = rest ∨ ∃ elm, rest = elm :: rest'

/-- The next interval where the first element of the rest is not entered yet. -/
theorem get_next_fresh (ok : FlagScenario l) (side : Side l rest e) (room : e < INTRVL_TQ_POSTV_BIG)
    (fresh : ∀ elm rest', rest = elm :: rest' → e ≤ elm.first) :
    ∃ next, get_next_with_gaps rest e = some (some next,rest,next.last+1) ∧ NextInterval l rest e next rest := by
  have values : ∀ i, e ≤ i → flagsAt l i = flagsAt rest i := fun i le => side.flagsAt le
  obtain ⟨pre,split,passed⟩ := side.passed
  have later : ∀ {n}, e ≤ n → ∀ act ∈ pre, act.last < n := fun le act member => lt_of_lt_of_le (passed act member) le
  cases rest with
  | nil =>
    refine ⟨gapAct e (INTRVL_TQ_POSTV_BIG-1),?_,rfl,?_,?_,fun i le _ => ?_,⟨⟨pre,split,later ?_⟩,by simp⟩,.inl rfl⟩
    · rw [get_next_with_gaps,if_neg (ne_of_lt room)]
      simp [gapAct,INTRVL_TQ_POSTV_BIG]
    · simp only [gapAct]; omega
    · simp only [gapAct]; unfold INTRVL_TQ_POSTV_BIG; omega
    · rw [values i le]; rfl
    · simp only [gapAct]; omega
  | cons elm rest =>
    have okRest : FlagScenario (elm :: rest) := (split ▸ ok).right
    obtain ⟨proper,behind,_⟩ := Apart.cons_iff.mp okRest.apart
    have small := okRest.small elm (by simp)
    have smaller : INTRVL_TQ_POSTV_BIG < UINT_MOD := by decide
    rcases Nat.lt_or_eq_of_le (fresh elm rest rfl) with before | same
    · refine ⟨gapAct e (elm.first-1),?_,rfl,?_,?_,fun i le stop => ?_,⟨⟨pre,split,later ?_⟩,?_⟩,.inl rfl⟩
      · rw [get_next_with_gaps,if_pos before]
        simp only [gapAct]
        rw [Nat.sub_add_cancel (by omega)]
      · simp only [gapAct]; omega
      · simp only [gapAct]; omega
      · simp only [gapAct] at stop ⊢
        rw [values i le]
        refine valueAt_none fun act member has => ?_
        have start := has.1
        rcases mem_cons.mp member with rfl | inside
        · omega
        · have := behind act.toSpan (mem_map_of_mem inside)
          omega
      · simp only [gapAct]; omega
      · rintro elm' rest' ⟨⟩
        simp only [gapAct]; omega
    · refine ⟨elm,?_,same.symm,by omega,by omega,fun i le stop => ?_,⟨⟨pre,split,later (by omega)⟩,?_⟩,.inl rfl⟩
      · rw [get_next_with_gaps,if_neg (by omega),if_pos same,mod_eq_of_lt (by omega)]
      · rw [values i le]
        exact valueAt_mem okRest.apart mem_cons_self ⟨by omega,stop⟩
      · simp
theorem get_next_spec (ok : FlagScenario l) (side : Side l rest e) (room : e < INTRVL_TQ_POSTV_BIG) :
    ∃ next rest', get_next_with_gaps rest e = some (some next,rest',next.last+1) ∧ NextInterval l rest e next rest' := by
  by_cases fresh : ∀ elm rest', rest = elm :: rest' → e ≤ elm.first
  · grind [get_next_fresh]
  · -- The first element has just been passed.
    simp only [not_forall,not_le] at fresh
    obtain ⟨elm,rest',rfl,entered⟩ := fresh
    have place : e = elm.last+1 := (side.place elm rest' rfl).resolve_left (not_le.mpr entered)
    obtain ⟨pre,split,passed⟩ := side.passed
    have okRest : FlagScenario (elm :: rest') := (split ▸ ok).right
    obtain ⟨_,behind,_⟩ := Apart.cons_iff.mp okRest.apart
    have ahead : ∀ b rest2, rest' = b :: rest2 → e ≤ b.first := by
      rintro b rest2 rfl
      have := behind b.toSpan (by simp)
      omega
    have side' : Side l rest' e := by
      refine ⟨⟨pre ++ [elm],by simp [split],fun act member => ?_⟩,fun b rest2 isCons => .inl (ahead b rest2 isCons)⟩
      rcases mem_append.mp member with old | new
      · exact passed act old
      · rw [show act = elm by simpa using new]; omega
    obtain ⟨next,got,interval⟩ := get_next_fresh ok side' room ahead
    have bound := interval.small
    have smaller : INTRVL_TQ_POSTV_BIG < UINT_MOD := by decide
    refine ⟨next,rest',?_,{interval with moved := .inr ⟨elm,rfl⟩}⟩
    rw [get_next_with_gaps,if_neg (by omega),if_neg (by omega),got]
    simp [mod_eq_of_lt (show next.last+1 < UINT_MOD by omega)]
theorem get_next_end (ok : FlagScenario l) (side : Side l rest INTRVL_TQ_POSTV_BIG) :
    rest = [] ∧ get_next_with_gaps rest INTRVL_TQ_POSTV_BIG = some (none,[],INTRVL_TQ_POSTV_BIG) := by
  obtain ⟨pre,split,_⟩ := side.passed
  cases rest with
  | nil => simp [get_next_with_gaps]
  | cons elm rest =>
    have okRest : FlagScenario (elm :: rest) := (split ▸ ok).right
    have small := okRest.small elm (by simp)
    have proper := (Apart.cons_iff.mp okRest.apart).1
    have place := side.place elm rest rfl
    omega
end

section
variable {h0 h1 : TestingScenario} {op : TestingActOp} {s : Sweep} {p : Nat}

/-- The flags that the result has to have. -/
def goal (h0 h1 : TestingScenario) (op : TestingActOp) (i : Nat) : TesterFlags := opFlags op (flagsAt h0 i) (flagsAt h1 i)

/-- The result with the cumulative overlap, unless that is blank. -/
def Sweep.out (s : Sweep) : List TestingAct :=
  if s.overlap_grow.flags ≠ 0 then s.h_rslt ++ [s.overlap_grow] else s.h_rslt

/-- The result is right for all numbers below `p`. -/
structure Swept (h0 h1 : TestingScenario) (op : TestingActOp) (p : Nat) (s : Sweep) : Prop where
  apart : Apart (s.out.map TestingAct.toSpan)
  below : ∀ act ∈ s.out, act.last < p
  flagged : ∀ act ∈ s.out, act.flags ≠ 0
  flags : ∀ i, i < p → flagsAt s.out i = goal h0 h1 op i
  growing : s.overlap_grow.flags ≠ 0 → s.overlap_grow.last+1 = p

theorem Swept.start (s : Sweep) (blank : s.overlap_grow.flags = 0) (empty : s.h_rslt = []) : Swept h0 h1 op 0 s := by
  have out : s.out = [] := by rw [Sweep.out,if_neg (by simpa using blank),empty]
  refine ⟨by rw [out]; exact Apart.nil,?_,?_,fun i less => absurd less (Nat.not_lt_zero i),fun notBlank => absurd blank notBlank⟩ <;>
    simp [out]
/-- Numbers without flags are passed, and the result stays. -/
theorem Swept.blank {s' : Sweep} {n : Nat} (swept : Swept h0 h1 op p s) (out : s'.out = s.out)
    (blank : s'.overlap_grow.flags = 0) (le : p ≤ n) (values : ∀ i, p ≤ i → i < n → goal h0 h1 op i = 0) :
    Swept h0 h1 op n s' := by
  refine ⟨by rw [out]; exact swept.apart,?_,by rw [out]; exact swept.flagged,fun i less => ?_,
    fun notBlank => absurd blank notBlank⟩
  · rw [out]
    exact fun act member => lt_of_lt_of_le (swept.below act member) le
  · rw [out]
    by_cases old : i < p
    · exact swept.flags i old
    · rw [values i (not_lt.mp old) less]
      refine valueAt_none fun act member has => ?_
      have := swept.below act member
      have := has.2
      omega
/-- An act behind the result. -/
theorem out_append {out : List TestingAct} (act : TestingAct) (apart : Apart (out.map TestingAct.toSpan))
    (below : ∀ a ∈ out, a.last < act.first) (proper : act.first ≤ act.last) :
    Apart ((out ++ [act]).map TestingAct.toSpan) ∧ (∀ i, i < act.first → flagsAt (out ++ [act]) i = flagsAt out i) ∧
      ∀ i, act.first ≤ i → i ≤ act.last → flagsAt (out ++ [act]) i = act.flags := by
  have whole : Apart ((out ++ [act]).map TestingAct.toSpan) := by
    rw [map_append,Apart.append_iff]
    refine ⟨apart,Apart.cons_iff.mpr ⟨proper,by simp,Apart.nil⟩,fun s member t last => ?_⟩
    obtain ⟨a,inside,rfl⟩ := mem_map.mp member
    have isAct : t = act.toSpan := by simpa using last
    exact isAct ▸ below a inside
  refine ⟨whole,fun i less => ?_,fun i start stop => ?_⟩
  · refine valueAt_append_left fun a member has => ?_
    have isAct : a = act := by simpa using member
    have := has.1
    rw [isAct] at this
    omega
  · exact valueAt_mem whole (by simp) ⟨start,stop⟩

theorem Swept.grow {overlap : TestingAct} (swept : Swept h0 h1 op p s) (first : overlap.first = p) (proper : p ≤ overlap.last)
    (values : ∀ i, p ≤ i → i ≤ overlap.last → goal h0 h1 op i = overlap.flags) :
    Swept h0 h1 op (overlap.last+1) (s.grow overlap) := by
  have split : ∀ i, i < overlap.last+1 → i < p ∨ p ≤ i ∧ i ≤ overlap.last := fun i less => by omega
  by_cases differs : s.overlap_grow.flags ≠ overlap.flags
  · have grown : s.grow overlap = {s with h_rslt := s.out,overlap_grow := overlap} := by
      rw [Sweep.grow,if_pos differs,Sweep.out]
    rw [grown]
    by_cases blank : overlap.flags = 0
    · have out : Sweep.out {s with h_rslt := s.out,overlap_grow := overlap} = s.out := by
        rw [Sweep.out,if_neg (by simpa using blank)]
      exact swept.blank out blank (by omega) fun i start stop => (values i start (by omega)).trans blank
    · have out : Sweep.out {s with h_rslt := s.out,overlap_grow := overlap} = s.out ++ [overlap] := by
        rw [Sweep.out,if_pos (by simpa using blank)]
      obtain ⟨apart,before,inside⟩ := out_append overlap swept.apart (fun a member => first ▸ swept.below a member) (first ▸ proper)
      refine ⟨by rw [out]; exact apart,?_,?_,fun i less => ?_,fun _ => rfl⟩
      · rw [out]
        intro act member
        rcases mem_append.mp member with old | new
        · have := swept.below act old
          omega
        · grind
      · rw [out]
        intro act member
        rcases mem_append.mp member with old | new
        · exact swept.flagged act old
        · rw [show act = overlap by simpa using new]
          exact blank
      · rw [out]
        rcases split i less with old | ⟨start,stop⟩
        · rw [before i (by omega),swept.flags i old]
        · rw [inside i (by omega) stop,values i start stop]
  · -- The cumulative overlap is prolonged.
    have same : s.overlap_grow.flags = overlap.flags := not_ne_iff.mp differs
    have grown : s.grow overlap = {s with overlap_grow := {s.overlap_grow with last := overlap.last}} := by
      rw [Sweep.grow,if_neg differs]
    rw [grown]
    by_cases blank : s.overlap_grow.flags = 0
    · have out : Sweep.out {s with overlap_grow := {s.overlap_grow with last := overlap.last}} = s.out := by simp [blank,Sweep.out]
      exact swept.blank out blank (by omega) fun i start stop => (values i start (by omega)).trans (same.symm.trans blank)
    · have outS : s.out = s.h_rslt ++ [s.overlap_grow] := by rw [Sweep.out,if_pos blank]
      have out : Sweep.out {s with overlap_grow := {s.overlap_grow with last := overlap.last}} =
          s.h_rslt ++ [{s.overlap_grow with last := overlap.last}] := by
        rw [Sweep.out,if_pos (by simpa using blank)]
      have last := swept.growing blank
      obtain ⟨apart,below,flagged,flags,_⟩ := swept
      rw [outS] at apart below flagged flags
      rw [map_append,Apart.append_iff] at apart
      obtain ⟨apartRslt,apartLast,across⟩ := apart
      have properLast := apartLast.proper s.overlap_grow.toSpan (by simp)
      have behind : ∀ a ∈ s.h_rslt, a.last < s.overlap_grow.first := fun a member =>
        across a.toSpan (mem_map_of_mem member) s.overlap_grow.toSpan (by simp)
      obtain ⟨_,beforeOld,insideOld⟩ := out_append s.overlap_grow apartRslt behind properLast
      obtain ⟨apart,before,inside⟩ := out_append {s.overlap_grow with last := overlap.last} apartRslt behind
        (by change s.overlap_grow.first ≤ overlap.last; omega)
      refine ⟨by rw [out]; exact apart,?_,?_,fun i less => ?_,fun _ => rfl⟩
      · rw [out]
        intro act member
        rcases mem_append.mp member with old | new
        · have := below act (by simp [old])
          omega
        · rw [show act = {s.overlap_grow with last := overlap.last} by simpa using new]
          exact lt_succ_self _
      · rw [out]
        intro act member
        rcases mem_append.mp member with old | new
        · exact flagged act (by simp [old])
        · rw [show act = {s.overlap_grow with last := overlap.last} by simpa using new]
          exact blank
      · rw [out]
        by_cases early : i < s.overlap_grow.first
        · rw [before i early,← beforeOld i early]
          exact flags i (by omega)
        · rw [inside i (not_lt.mp early) (by change i ≤ overlap.last; omega)]
          change s.overlap_grow.flags = _
          rcases split i less with old | ⟨start,stop⟩
          · rw [← flags i old,insideOld i (not_lt.mp early) (by omega)]
          · rw [values i start stop,same]
end

section
variable {h0 h1 : TestingScenario} {op : TestingActOp} {s : Sweep} {p : Nat} {n0 n1 : TestingAct}

/-- What two segments have in common. -/
def overlapAct (op : TestingActOp) (n0 n1 : TestingAct) : TestingAct where
  first := max n0.first n1.first
  last := min n0.last n1.last
  flags := opFlags op n0.flags n1.flags
  hash := none
/-- Segments that share the number `p` pass the assertion. -/
theorem get_operation_result_spec (first0 : n0.first ≤ p) (last0 : p ≤ n0.last) (first1 : n1.first ≤ p) (last1 : p ≤ n1.last)
    (small0 : n0.last < INTRVL_TQ_POSTV_BIG) (small1 : n1.last < INTRVL_TQ_POSTV_BIG) :
    get_operation_result n0 n1 op = some (overlapAct op n0 n1) := by
  unfold INTRVL_TQ_POSTV_BIG at small0 small1
  have fits : ∀ {a b : Nat}, a < 2^30 → b < 2^30 → (a+b)%UINT_MOD = a+b := fun smallA smallB =>
    mod_eq_of_lt (by unfold UINT_MOD; omega)
  have length0 : usub n0.last n0.first = n0.last-n0.first := usub_eq (by omega) (by unfold UINT_MOD; omega)
  have length1 : usub n1.last n1.first = n1.last-n1.first := usub_eq (by omega) (by unfold UINT_MOD; omega)
  have close : uabs (usub ((n0.last+n0.first)%UINT_MOD) ((n1.last+n1.first)%UINT_MOD)) ≤
      (usub n0.last n0.first+usub n1.last n1.first)%UINT_MOD := by
    rw [length0,length1,fits small0 (by omega),fits small1 (by omega),fits (by omega) (by omega),
      uabs_usub (by omega) (by omega)]
    omega
  rw [get_operation_result,if_pos close,overlapAct]

/-- The current interval of the second list at `p`. -/
structure Current (h1 : TestingScenario) (p : Nat) (s : Sweep) (n1 : TestingAct) : Prop where
  next : s.next1 = some n1
  first : n1.first ≤ p
  last : p ≤ n1.last
  small : n1.last < INTRVL_TQ_POSTV_BIG
  the_end : s.the_end_1 = n1.last+1
  side : Side h1 s.elm1 (n1.last+1)
  flags : ∀ i, p ≤ i → i ≤ n1.last → flagsAt h1 i = n1.flags
/-- The second list is passed up to `p`, with its current interval if that goes on. -/
structure Second (h1 : TestingScenario) (p : Nat) (s : Sweep) : Prop where
  fresh : s.need_get_next1 = true → s.the_end_1 = p ∧ Side h1 s.elm1 p
  held : s.need_get_next1 = false → ∃ n1, Current h1 p s n1

/-- The fields of the first list are the same. -/
def SameFirst (s s' : Sweep) : Prop :=
  s'.h0 = s.h0 ∧ s'.elm0 = s.elm0 ∧ s'.next0 = s.next0 ∧ s'.the_end_0 = s.the_end_0

theorem SameFirst.trans {s' s'' : Sweep} (one : SameFirst s s') (two : SameFirst s' s'') : SameFirst s s'' :=
  ⟨two.1.trans one.1,two.2.1.trans one.2.1,two.2.2.1.trans one.2.2.1,two.2.2.2.trans one.2.2.2⟩
theorem grow_same (s : Sweep) (overlap : TestingAct) : (s.grow overlap).next1 = s.next1 ∧
    (s.grow overlap).elm1 = s.elm1 ∧ (s.grow overlap).the_end_1 = s.the_end_1 ∧
    (s.grow overlap).need_get_next1 = s.need_get_next1 ∧ SameFirst s (s.grow overlap) := by
  unfold Sweep.grow SameFirst
  split <;> simp

theorem nextSecond_spec (ok1 : FlagScenario h1) (second : Second h1 p s) (room : p < INTRVL_TQ_POSTV_BIG) :
    ∃ n1 s', s.nextSecond = some s' ∧ Current h1 p s' n1 ∧ (s.need_get_next1 = true → n1.first = p) ∧
      s'.need_get_next1 = true ∧ SameFirst s s' ∧ s'.out = s.out ∧ s'.overlap_grow = s.overlap_grow := by
  by_cases need : s.need_get_next1 = true
  · obtain ⟨isEnd,side⟩ := second.fresh need
    obtain ⟨next,rest',got,interval⟩ := get_next_spec ok1 side room
    refine ⟨next,{s with next1 := some next,elm1 := rest',the_end_1 := next.last+1},by simp [Sweep.nextSecond,need,isEnd,got],
      ⟨rfl,le_of_eq interval.first,interval.proper,interval.small,rfl,interval.side,interval.flags⟩,
      fun _ => interval.first,need,⟨rfl,rfl,rfl,rfl⟩,rfl,rfl⟩
  · have held : s.need_get_next1 = false := by simpa using need
    obtain ⟨n1,current⟩ := second.held held
    exact ⟨n1,{s with need_get_next1 := true},by simp [Sweep.nextSecond,held],{current with},
      fun need' => absurd need' need,rfl,⟨rfl,rfl,rfl,rfl⟩,rfl,rfl⟩

theorem Swept.congr {s' : Sweep} (swept : Swept h0 h1 op p s) (out : s'.out = s.out)
    (grow : s'.overlap_grow = s.overlap_grow) : Swept h0 h1 op p s' := by
  refine ⟨?_,?_,?_,?_,?_⟩
  · rw [out]; exact swept.apart
  · rw [out]; exact swept.below
  · rw [out]; exact swept.flagged
  · rw [out]; exact swept.flags
  · rw [grow]; exact swept.growing

/-- The inner loop passes the interval of the first list. -/
theorem integrateSecond_spec (ok1 : FlagScenario h1) {fuel : Nat} (first : n0.first ≤ p) (last : p ≤ n0.last)
    (meet : n0.first = p ∨ s.need_get_next1 = true) (small : n0.last < INTRVL_TQ_POSTV_BIG)
    (flags : ∀ i, p ≤ i → i ≤ n0.last → flagsAt h0 i = n0.flags)
    (second : Second h1 p s) (swept : Swept h0 h1 op p s) (enough : n0.last < p+fuel) :
    ∃ s', integrateSecond op n0 fuel s = some s' ∧ Second h1 (n0.last+1) s' ∧ Swept h0 h1 op (n0.last+1) s' ∧ SameFirst s s' := by
  induction fuel generalizing p s with
  | zero => omega
  | succ fuel ih =>
    obtain ⟨n1,s1,head,current,entered,need,same,out,grow⟩ := nextSecond_spec ok1 second (by omega)
    have operated : get_operation_result n0 n1 op = some (overlapAct op n0 n1) :=
      get_operation_result_spec first last current.first current.last small current.small
    have begin : (overlapAct op n0 n1).first = p := by
      have := current.first
      change max n0.first n1.first = p
      rcases meet with isFirst | need'
      · omega
      · have := entered need'
        omega
    have finish : (overlapAct op n0 n1).last = min n0.last n1.last := rfl
    have values : ∀ i, p ≤ i → i ≤ (overlapAct op n0 n1).last → goal h0 h1 op i = (overlapAct op n0 n1).flags := by
      intro i start stop
      rw [finish] at stop
      rw [goal,flags i start (by omega),current.flags i start (by omega)]
      rfl
    have swept1 := (swept.congr out grow).grow begin (by have := current.last; omega) values
    obtain ⟨next2,elm2,end2,need2,same2⟩ := grow_same s1 (overlapAct op n0 n1)
    have step : integrateSecond op n0 (fuel+1) s = (if n1.last ≥ n0.last
        then some {s1.grow (overlapAct op n0 n1) with need_get_next1 := !decide (n1.last > n0.last)}
        else integrateSecond op n0 fuel (s1.grow (overlapAct op n0 n1))) := by simp [head,current.next,operated,integrateSecond]
    rw [step]
    by_cases beyond : n1.last ≥ n0.last
    · -- The first list goes on, and this interval of the second one, too, if it is longer.
      rw [if_pos beyond]
      rw [finish,Nat.min_eq_left beyond] at swept1
      refine ⟨_,rfl,⟨fun fresh => ?_,fun held => ⟨n1,?_⟩⟩,swept1.congr rfl rfl,same.trans same2⟩
      · have equal : n1.last = n0.last := by simp at fresh; omega
        rw [← equal]
        change (s1.grow _).the_end_1 = _ ∧ Side h1 (s1.grow _).elm1 _
        rw [end2,elm2]
        exact ⟨current.the_end,current.side⟩
      · have longer : n0.last < n1.last := by simpa using held
        have := current.first
        refine ⟨next2.trans current.next,by omega,by omega,current.small,end2.trans current.the_end,?_,
          fun i start stop => current.flags i (by omega) stop⟩
        change Side h1 (s1.grow _).elm1 _
        rw [elm2]
        exact current.side
    · rw [if_neg beyond]
      rw [finish,Nat.min_eq_right (by omega)] at swept1
      have := current.last
      have second2 : Second h1 (n1.last+1) (s1.grow (overlapAct op n0 n1)) := by
        refine ⟨fun _ => ?_,fun held => ?_⟩
        · rw [end2,elm2]
          exact ⟨current.the_end,current.side⟩
        · rw [need2,need] at held
          cases held
      obtain ⟨s',rest,second',swept',same'⟩ := ih (by omega) (by omega) (.inr (need2.trans need))
        (fun i start stop => flags i (by omega) stop) second2 swept1 (by omega)
      exact ⟨s',rest,second',swept',(same.trans same2).trans same'⟩

/-- The head of the outer loop: the interval of the first list at `p`, or its end. -/
structure First (h0 : TestingScenario) (p : Nat) (s : Sweep) : Prop where
  the_end : s.next0 = none → p = INTRVL_TQ_POSTV_BIG ∧ s.elm0 = []
  current : ∀ n0, s.next0 = some n0 → n0.first = p ∧ p ≤ n0.last ∧ n0.last < INTRVL_TQ_POSTV_BIG ∧
    s.the_end_0 = n0.last+1 ∧ Side h0 s.elm0 (n0.last+1) ∧ ∀ i, p ≤ i → i ≤ n0.last → flagsAt h0 i = n0.flags

/-- The outer loop passes all numbers; a list that is replaced is empty in the end. -/
theorem integrateFirst_spec (ok0 : FlagScenario h0) (ok1 : FlagScenario h1) (replace : Bool) (fuel : Nat)
    (firsts : First h0 p s) (second : Second h1 p s) (swept : Swept h0 h1 op p s) (bound : p ≤ INTRVL_TQ_POSTV_BIG)
    (left : replace = true → s.h0 = s.elm0) (enough : INTRVL_TQ_POSTV_BIG < p+fuel) :
    ∃ s', integrateFirst op replace fuel s = some s' ∧ Swept h0 h1 op INTRVL_TQ_POSTV_BIG s' ∧
      (replace = true → s'.h0 = []) := by
  induction fuel generalizing p s with
  | zero => omega
  | succ fuel ih =>
    cases next : s.next0 with
    | none =>
      obtain ⟨isEnd,empty⟩ := firsts.the_end next
      refine ⟨s,by simp [integrateFirst,next],isEnd ▸ swept,fun yes => (left yes).trans empty⟩
    | some n0 =>
      obtain ⟨isFirst,proper,small,isEnd,side,flags⟩ := firsts.current n0 next
      obtain ⟨s1,inner,second1,swept1,sameH,sameElm,_,sameEnd⟩ := integrateSecond_spec ok1 (le_of_eq isFirst) proper
        (.inl isFirst) small flags second swept (by omega : n0.last < p+(INTRVL_TQ_POSTV_BIG+1))
      rw [← sameElm] at side
      -- The next interval of the first list, if there is one.
      obtain ⟨next',elm',end',got,firsts',moved,same⟩ : ∃ next' elm' end', get_next_with_gaps s1.elm0 s1.the_end_0 =
          some (next',elm',end') ∧
          First h0 (n0.last+1) {s1 with next0 := next',elm0 := elm',the_end_0 := end'} ∧
          (elm' = s1.elm0 ∨ ∃ elm, s1.elm0 = elm :: elm') ∧ n0.last+1 ≤ INTRVL_TQ_POSTV_BIG := by
        rw [sameEnd,isEnd]
        by_cases room : n0.last+1 < INTRVL_TQ_POSTV_BIG
        · obtain ⟨next',elm',got,interval⟩ := get_next_spec ok0 side room
          refine ⟨some next',elm',next'.last+1,got,⟨by simp,?_⟩,interval.moved,le_of_lt room⟩
          rintro _ ⟨⟩
          exact ⟨interval.first,interval.proper,interval.small,rfl,interval.side,interval.flags⟩
        · have isBig : n0.last+1 = INTRVL_TQ_POSTV_BIG := by omega
          rw [isBig] at side ⊢
          obtain ⟨empty,got⟩ := get_next_end ok0 side
          exact ⟨none,[],_,got,⟨fun _ => ⟨rfl,rfl⟩,by simp⟩,.inl empty.symm,le_rfl⟩
      have step : integrateFirst op replace (fuel+1) s = integrateFirst op replace fuel
          {s1 with h0 := if replace ∧ elm'.length ≠ s1.elm0.length then s1.h0.eraseIdx (s1.h0.length-s1.elm0.length) else s1.h0
                   next0 := next',elm0 := elm',the_end_0 := end'} := by
        rw [integrateFirst,next]
        simp only [inner,got,bind_eq_bind,bind_some]
      rw [step]
      refine ih ⟨firsts'.the_end,firsts'.current⟩ ⟨second1.fresh,?_⟩ (swept1.congr rfl rfl) same ?_ (by omega)
      · intro held
        obtain ⟨n1,current⟩ := second1.held held
        exact ⟨n1,{current with}⟩
      · intro yes
        change (if replace ∧ elm'.length ≠ s1.elm0.length then s1.h0.eraseIdx (s1.h0.length-s1.elm0.length) else s1.h0) = elm'
        have rest : s1.h0 = s1.elm0 := by rw [sameH,sameElm]; exact left yes
        rcases moved with stays | ⟨elm,isCons⟩
        · rw [if_neg (by simp [stays]),rest,stays]
        · simp [yes,isCons,rest]
end

section
variable {h0 h1 : TestingScenario}

/-- The operation ends, hits no assertion, and gives each identifier the flags of the
    pointwise operation; so it does if the result replaces the first operand. -/
theorem testing_scenarios_op_total (op : TestingActOp) (ok0 : FlagScenario h0) (ok1 : FlagScenario h1)
    (dst : Option TestingScenario) :
    ∃ r, testing_scenarios_op h0 h1 dst op = some (dst.getD [] ++ r) ∧ FlagScenario r ∧
      ∀ i, flagsAt r i = opFlags op (flagsAt h0 i) (flagsAt h1 i) := by
  have positive : 0 < INTRVL_TQ_POSTV_BIG := by decide
  have start0 : Side h0 h0 0 := ⟨⟨[],rfl,by simp⟩,fun _ _ _ => .inl (Nat.zero_le _)⟩
  have start1 : Side h1 h1 0 := ⟨⟨[],rfl,by simp⟩,fun _ _ _ => .inl (Nat.zero_le _)⟩
  obtain ⟨next,got,interval⟩ := get_next_fresh ok0 start0 positive fun _ _ _ => Nat.zero_le _
  let begin : Sweep := {h0 := h0,elm0 := h0,next0 := some next,the_end_0 := next.last+1,elm1 := h1,next1 := none,the_end_1 := 0
                        need_get_next1 := true,overlap_grow := gapAct 0 0,h_rslt := []}
  have firsts : First h0 0 begin := by
    refine ⟨by simp [begin],?_⟩
    rintro _ ⟨⟩
    exact ⟨interval.first,interval.proper,interval.small,rfl,interval.side,interval.flags⟩
  have second : Second h1 0 begin := ⟨fun _ => ⟨rfl,start1⟩,by simp [begin]⟩
  have start : Swept h0 h1 op 0 begin := Swept.start begin rfl rfl
  obtain ⟨s,run,swept,emptied⟩ := integrateFirst_spec ok0 ok1 dst.isNone (INTRVL_TQ_POSTV_BIG+2) firsts second
    start (Nat.zero_le _) (fun _ => rfl) (by omega)
  refine ⟨s.out,?_,⟨swept.apart,fun act member => ?_,swept.flagged⟩,fun i => ?_⟩
  · rw [testing_scenarios_op,got]
    simp only [bind_eq_bind,bind_some]
    rw [run]
    simp only [bind_some]
    cases dst with
    | none =>
      rw [if_pos (emptied rfl)]
      rfl
    | some dst => rfl
  · -- Neither list has the last number, so no act of the result reaches it.
    have below := swept.below act member
    have proper := swept.apart.proper act.toSpan (mem_map_of_mem member)
    rcases Nat.lt_or_ge act.last (INTRVL_TQ_POSTV_BIG-1) with less | le
    · exact less
    · have isLast : act.last = INTRVL_TQ_POSTV_BIG-1 := by omega
      have beyond : ∀ {h}, FlagScenario h → flagsAt h (INTRVL_TQ_POSTV_BIG-1) = 0 := fun ok =>
        valueAt_none fun a inside has => by
          have := ok.small a inside
          have := has.2
          omega
      have blank : act.flags = 0 := by
        have value : flagsAt s.out act.last = act.flags := valueAt_mem swept.apart member ⟨proper,le_rfl⟩
        rw [← value,swept.flags _ below,goal,isLast,beyond ok0,beyond ok1,opFlags_zero]
      exact absurd blank (swept.flagged act member)
  · by_cases less : i < INTRVL_TQ_POSTV_BIG
    · exact swept.flags i less
    · have beyond : ∀ {h}, (∀ act ∈ h, act.last < INTRVL_TQ_POSTV_BIG) → flagsAt h i = 0 := fun small =>
        valueAt_none fun a inside has => by
          have := small a inside
          have := has.2
          omega
      rw [beyond swept.below,beyond fun act member => Nat.lt_of_lt_pred (ok0.small act member),
        beyond fun act member => Nat.lt_of_lt_pred (ok1.small act member),opFlags_zero]

/-- The merge of two scenarios of flags, and the exclusion of one from another. -/
theorem scenario_algebra (ok0 : FlagScenario h0) (ok1 : FlagScenario h1) (dst : Option TestingScenario) :
    (∃ r, testing_scenarios_op h0 h1 dst .or = some (dst.getD [] ++ r) ∧ FlagScenario r ∧
      ∀ i, flagsAt r i = flagsAt h0 i ||| flagsAt h1 i) ∧
    ∃ r, testing_scenarios_op h0 h1 dst .subtract = some (dst.getD [] ++ r) ∧ FlagScenario r ∧
      ∀ i, flagsAt r i = flagsAt h0 i &&& ~~~flagsAt h1 i := by
  constructor
  · exact testing_scenarios_op_total .or ok0 ok1 dst
  · obtain ⟨r,result,ok,flags⟩ := testing_scenarios_op_total .subtract ok0 ok1 dst
    exact ⟨r,result,ok,fun i => (flags i).trans (opFlags_subtract _ _)⟩
theorem scenario_algebra_nested :
    FlagScenario [⟨⟨2,8⟩,3,none⟩] ∧ FlagScenario [⟨⟨4,6⟩,2,none⟩] ∧
    ∃ r, testing_scenarios_op [⟨⟨2,8⟩,3,none⟩] [⟨⟨4,6⟩,2,none⟩] none .subtract = some ([] ++ r) ∧ flagsAt r 5 = 1 := by
  have single : ∀ first last flags, first ≤ last → last < INTRVL_TQ_POSTV_BIG-1 → flags ≠ 0 →
      FlagScenario [⟨⟨first,last⟩,flags,none⟩] := fun first last flags proper small flagged =>
    ⟨Apart.cons_iff.mpr ⟨proper,by simp,Apart.nil⟩,by simpa using small,by simpa using flagged⟩
  have ok0 := single 2 8 3 (by decide) (by decide) (by decide)
  have ok1 := single 4 6 2 (by decide) (by decide) (by decide)
  obtain ⟨_,r,result,_,flags⟩ := scenario_algebra ok0 ok1 none
  exact ⟨ok0,ok1,r,result,(flags 5).trans (by decide)⟩
end
end TestEnvironment.Tester
