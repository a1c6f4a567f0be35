import TestEnvironment.Tester.ScenarioOp

/-!
Flags applied to a scenario. A scenario stands for the sequence of its
identifiers, act by act; the acts that are split keep this sequence and add the
flags, but only the first fragment keeps the hash.
-/
namespace TestEnvironment.Tester
open Lib

section
variable {s t : TestingScenario} {act : TestingAct}

/-- The sequence of identifiers with hash and flags that a scenario stands for. -/
def expand (scenario : TestingScenario) : List (Nat × Option CStr × TesterFlags) :=
  scenario.flatMap fun act => act.ids.map fun i => (i,act.hash,act.flags)
/-- The sequence without the hashes. -/
def expandFlags (scenario : TestingScenario) : List (Nat × TesterFlags) :=
  scenario.flatMap fun act => act.ids.map fun i => (i,act.flags)
/-- The sequence of identifiers alone. -/
def expandIds (scenario : TestingScenario) : List Nat := scenario.flatMap fun act => act.ids

@[simp] theorem expand_nil : expand [] = [] := rfl
@[simp] theorem expandFlags_nil : expandFlags [] = [] := rfl
theorem expand_append : expand (s ++ t) = expand s ++ expand t := flatMap_append
theorem expandFlags_append : expandFlags (s ++ t) = expandFlags s ++ expandFlags t := flatMap_append
theorem expandFlags_cons : expandFlags (act :: s) = act.ids.map (fun i => (i,act.flags)) ++ expandFlags s :=
  flatMap_cons
theorem expand_flags : (expand s).map (fun x => (x.1,x.2.2)) = expandFlags s := by
  rw [expand,expandFlags,List.map_flatMap]
  simp [comp_def]
theorem mem_expand {x : Nat × Option CStr × TesterFlags} :
    x ∈ expand s ↔ ∃ act ∈ s, act.Has x.1 ∧ act.hash = x.2.1 ∧ act.flags = x.2.2 := by
  obtain ⟨i,hash,flags⟩ := x
  simp only [expand,mem_flatMap,mem_map,Span.mem_ids,Prod.mk.injEq]
  constructor
  · simp
  · simp
end

section
variable {fa act : TestingAct} {fs s : TestingScenario}

/-- The flags that a flag act adds to an identifier. -/
def covering (fa : TestingAct) (i : Nat) : TesterFlags := if fa.Has i then fa.flags else 0

variable {i : Nat} {f g : TesterFlags}

theorem covering_has (has : fa.Has i) : covering fa i = fa.flags := if_pos has
theorem covering_not (not : ¬ fa.Has i) : covering fa i = 0 := if_neg not
theorem or_contained (contained : f &&& g = g) : f ||| g = f := by grind

theorem or_covering_has (has : fa.Has i) : f ||| covering fa i = f ||| fa.flags := by
  rw [covering_has has]
theorem or_covering_not (not : ¬ fa.Has i) : f ||| covering fa i = f := by
  rw [covering_not not]
  simp
/-- The identifiers of a segment whose flags are all the same. -/
theorem segment_flags {span : Span} (same : ∀ i, span.Has i → f ||| covering fa i = g) :
    span.ids.map (fun i => (i,f ||| covering fa i)) = span.ids.map fun i => (i,g) :=
  map_congr_left fun i member => by rw [same i (Span.mem_ids.mp member)]
theorem ids_split {first last j : Nat} (above : first < j) (below : j ≤ last+1) :
    Span.ids ⟨first,last⟩ = Span.ids ⟨first,j-1⟩ ++ Span.ids ⟨j,last⟩ := by
  have cut : Span.ids ⟨first,last⟩ = List.range' first (j-first) ++ Span.ids ⟨j,last⟩ :=
    Span.ids_cut (le_of_lt above) below
  rw [cut,show Span.ids ⟨first,j-1⟩ = List.range' first (j-1+1-first) from rfl,Nat.sub_add_cancel (by omega)]

/-- The part of an act behind the beginning of the flag act. -/
theorem expandFlags_tail (act : TestingAct) (enters : fa.first ≤ act.first) (overlap : act.first ≤ fa.last) :
    expandFlags (if act.last > fa.last
      then [{act with last := fa.last,flags := act.flags ||| fa.flags},scenario_new_act (fa.last+1) act.last act.flags]
      else [{act with flags := act.flags ||| fa.flags}]) = act.ids.map fun i => (i,act.flags ||| covering fa i) := by
  split
  · rename_i longer
    have whole : act.ids = Span.ids ⟨act.first,fa.last⟩ ++ Span.ids ⟨fa.last+1,act.last⟩ :=
      ids_split (lt_succ_of_le overlap) (Nat.succ_le_succ (le_of_lt longer))
    have inside : ∀ i, Span.Has ⟨act.first,fa.last⟩ i → act.flags ||| covering fa i = act.flags ||| fa.flags := fun i has =>
      or_covering_has ⟨le_trans enters has.1,has.2⟩
    have behind : ∀ i, Span.Has ⟨fa.last+1,act.last⟩ i → act.flags ||| covering fa i = act.flags := fun i has =>
      or_covering_not fun inside => absurd has.1 (not_le.mpr (lt_succ_of_le inside.2))
    rw [whole,map_append,segment_flags inside,segment_flags behind]
    simp [expandFlags,scenario_new_act]
  · rename_i shorter
    rw [segment_flags fun i has => or_covering_has ⟨le_trans enters has.1,le_trans has.2 (not_lt.mp shorter)⟩]
    simp [expandFlags]
/-- The fragments of an act have its identifiers, with the flags added. -/
theorem expandFlags_splitAct (proper : fa.first ≤ fa.last) :
    expandFlags (splitAct fa act) = act.ids.map fun i => (i,act.flags ||| covering fa i) := by
  have one : ∀ {g : TesterFlags}, (∀ i, act.Has i → act.flags ||| covering fa i = g) →
      expandFlags [{act with flags := g}] = act.ids.map fun i => (i,act.flags ||| covering fa i) := fun same => by
    rw [segment_flags same]
    simp [expandFlags]
  unfold splitAct
  split
  · rename_i overlap
    split
    · rename_i contained
      refine one fun i _ => ?_
      by_cases inside : fa.Has i
      · rw [or_covering_has inside,or_contained contained]
      · exact or_covering_not inside
    · split
      · rename_i covered
        exact one fun i has => or_covering_has ⟨le_trans covered.1 has.1,le_trans has.2 covered.2⟩
      · by_cases before : act.first < fa.first
        · -- The fragment in front of the flag act keeps its flags.
          have whole : act.ids = Span.ids ⟨act.first,fa.first-1⟩ ++ Span.ids ⟨fa.first,act.last⟩ :=
            ids_split before (Nat.le_succ_of_le overlap.2)
          have front : ∀ i, Span.Has ⟨act.first,fa.first-1⟩ i → act.flags ||| covering fa i = act.flags := fun i has =>
            or_covering_not fun inside => by
              have above := inside.1
              have below : i ≤ fa.first-1 := has.2
              omega
          simp only [if_pos before]
          rw [expandFlags_append,expandFlags_tail (scenario_new_act fa.first act.last act.flags) (le_refl fa.first) proper,
            whole,map_append,segment_flags front]
          simp [expandFlags,scenario_new_act]
        · simp only [if_neg before,nil_append]
          exact expandFlags_tail act (not_lt.mp before) overlap.1
  · rename_i apart
    refine one fun i has => or_covering_not fun inside => apart ⟨le_trans has.1 inside.2,le_trans inside.1 has.2⟩

theorem apply_flags_cons : scenario_apply_flags s (fa :: fs) = scenario_apply_flags (s.flatMap (splitAct fa)) fs := rfl
/-- The acts are processed one by one. -/
theorem apply_flags_flatMap : scenario_apply_flags s fs = s.flatMap fun act => scenario_apply_flags [act] fs := by
  induction fs generalizing s with
  | nil => simp [scenario_apply_flags]
  | cons fa fs ih =>
    have each : ∀ act, scenario_apply_flags [act] (fa :: fs) = (splitAct fa act).flatMap fun act => scenario_apply_flags [act] fs :=
      fun act => by rw [apply_flags_cons,ih,flatMap_singleton]
    rw [apply_flags_cons,ih,List.flatMap_assoc]
    exact List.flatMap_congr fun act _ => (each act).symm
/-- The flags of the covering flag act are added, whatever the order of the acts is. -/
theorem expandFlags_apply_flags (apart : Apart (fs.map TestingAct.toSpan)) :
    expandFlags (scenario_apply_flags s fs) = (expandFlags s).map fun x => (x.1,x.2 ||| flagsAt fs x.1) := by
  induction fs generalizing s with
  | nil => simp [scenario_apply_flags,flagsAt]
  | cons fa fs ih =>
    rw [map_cons,Apart.cons_iff] at apart
    obtain ⟨proper,behind,rest⟩ := apart
    have value : ∀ i, covering fa i ||| flagsAt fs i = flagsAt (fa :: fs) i := fun i => by
      rw [flagsAt,flagsAt,valueAt_cons]
      by_cases has : fa.Has i
      · rw [covering_has has,if_pos has,valueAt_none]
        · simp
        · intro a member inside
          have := behind a.toSpan (mem_map_of_mem member)
          have := has.2
          have := inside.1
          omega
      · rw [covering_not has,if_neg has]
        simp
    have split : expandFlags (s.flatMap (splitAct fa)) = (expandFlags s).map fun x => (x.1,x.2 ||| covering fa x.1) := by
      rw [expandFlags,expandFlags,List.flatMap_assoc,List.map_flatMap]
      refine List.flatMap_congr fun act _ => ?_
      rw [map_map]
      exact expandFlags_splitAct proper
    rw [apply_flags_cons,ih rest,split,map_map]
    refine map_congr_left fun x _ => ?_
    simp only [comp_apply]
    rw [BitVec.or_assoc,value]
end

section
variable {fa act : TestingAct} {fs s : TestingScenario}

/-- The flag act splits the act. -/
def Splits (fa act : TestingAct) : Prop :=
  (act.first ≤ fa.last ∧ fa.first ≤ act.last) ∧ act.flags &&& fa.flags ≠ fa.flags ∧
    ¬ (fa.first ≤ act.first ∧ act.last ≤ fa.last)

/-- An act that is not split stays, with some flags. -/
theorem splitAct_whole (whole : ¬ Splits fa act) : ∃ flags, splitAct fa act = [{act with flags := flags}] := by
  unfold splitAct
  split
  · rename_i overlap
    split
    · exact ⟨act.flags,rfl⟩
    · rename_i more
      rw [if_pos (by_contra fun notCovered => whole ⟨overlap,more,notCovered⟩)]
      exact ⟨_,rfl⟩
  · exact ⟨act.flags,rfl⟩
/-- An act that no flag act splits or covers stays as it is. -/
theorem splitAct_same (whole : ¬ Splits fa act) (notCovered : ¬ (fa.first ≤ act.first ∧ act.last ≤ fa.last)) :
    splitAct fa act = [act] := by
  unfold splitAct
  split
  · rename_i overlap
    rw [if_pos (by_contra fun more => whole ⟨overlap,more,notCovered⟩)]
  · rfl
/-- The last fragment of an act that is split is not empty and has no hash. -/
theorem splitAct_fragment (splits : Splits fa act) : ∃ b ∈ splitAct fa act, b.first ≤ b.last ∧ b.hash = none := by
  obtain ⟨overlap,more,notCovered⟩ := splits
  by_cases before : act.first < fa.first
  · by_cases longer : act.last > fa.last
    · exact ⟨scenario_new_act (fa.last+1) act.last act.flags,
        by simp [splitAct,overlap,more,notCovered,before,longer,scenario_new_act],longer,rfl⟩
    · exact ⟨{scenario_new_act fa.first act.last act.flags with flags := act.flags ||| fa.flags},
        by simp [splitAct,overlap,more,notCovered,before,longer,scenario_new_act],overlap.2,rfl⟩
  · have longer : act.last > fa.last := by omega
    exact ⟨scenario_new_act (fa.last+1) act.last act.flags,
      by simp [splitAct,overlap,more,notCovered,before,longer,scenario_new_act],longer,rfl⟩
theorem splitAct_hash (blank : act.hash = none) : ∀ b ∈ splitAct fa act, b.hash = none := by
  have tail : ∀ (a : TestingAct), a.hash = none → ∀ b ∈ (if a.last > fa.last
      then [{a with last := fa.last,flags := a.flags ||| fa.flags},scenario_new_act (fa.last+1) a.last a.flags]
      else [{a with flags := a.flags ||| fa.flags}]), b.hash = none := by
    intro a none b member
    split at member
    · rcases List.mem_pair.mp member with rfl | rfl
      · exact none
      · rfl
    · rw [mem_singleton.mp member]
      exact none
  unfold splitAct
  split
  · split
    · simpa using blank
    · split
      · simpa using blank
      · by_cases before : act.first < fa.first
        · simp only [if_pos before]
          intro b member
          rcases mem_append.mp member with front | back
          · rw [mem_singleton.mp front]
            exact blank
          · exact tail (scenario_new_act fa.first act.last act.flags) rfl b back
        · simp only [if_neg before,nil_append]
          exact tail act blank
  · simpa using blank

theorem apply_flags_hash (blank : ∀ act ∈ s, act.hash = none) : ∀ b ∈ scenario_apply_flags s fs, b.hash = none := by
  induction fs generalizing s with
  | nil => exact blank
  | cons fa fs ih => grind [apply_flags_cons,splitAct_hash]
/-- No flag act splits the act. -/
theorem apply_flags_whole (whole : ∀ fa ∈ fs, ¬ Splits fa act) (apart : Apart (fs.map TestingAct.toSpan)) :
    ∃ flags, scenario_apply_flags [act] fs = [{act with flags := flags}] := by
  induction fs generalizing act with
  | nil => exact ⟨act.flags,rfl⟩
  | cons fa fs ih =>
    rw [map_cons,Apart.cons_iff] at apart
    obtain ⟨_,behind,rest⟩ := apart
    obtain ⟨flags,split⟩ := splitAct_whole (whole fa (by simp))
    rw [apply_flags_cons,flatMap_singleton]
    by_cases covered : fa.first ≤ act.first ∧ act.last ≤ fa.last
    · -- The flag acts behind are behind the act, too.
      rw [split]
      refine ih (fun fb member splits => ?_) rest
      have := behind fb.toSpan (mem_map_of_mem member)
      have overlap : fb.first ≤ act.last := splits.1.2
      omega
    · rw [splitAct_same (whole fa (by simp)) covered]
      exact ih (fun fb member => whole fb (by simp [member])) rest
/-- Some flag act splits the act. -/
theorem apply_flags_fragment (apart : Apart (fs.map TestingAct.toSpan)) (member : fa ∈ fs) (splits : Splits fa act) :
    ∃ b ∈ scenario_apply_flags [act] fs, b.first ≤ b.last ∧ b.hash = none := by
  induction fs generalizing act with
  | nil => simp at member
  | cons fb fs ih =>
    rw [map_cons,Apart.cons_iff] at apart
    obtain ⟨proper,behind,rest⟩ := apart
    rw [apply_flags_cons,flatMap_singleton]
    by_cases here : Splits fb act
    · -- The later flag acts split the fragment into some that have no hash, either.
      obtain ⟨b,fragment,isProper,blank⟩ := splitAct_fragment here
      have values := expandFlags_apply_flags (s := [b]) rest
      have nonempty : expandFlags (scenario_apply_flags [b] fs) ≠ [] := by
        rw [values,Ne,List.map_eq_nil_iff,expandFlags_cons]
        intro empty
        have none' := congrArg List.length empty
        simp only [Span.ids,length_append,length_map,List.length_range',length_nil] at none'
        omega
      obtain ⟨x,inside⟩ := exists_mem_of_ne_nil _ nonempty
      obtain ⟨c,isIn,has⟩ := mem_flatMap.mp inside
      obtain ⟨i,hasI,_⟩ := mem_map.mp has
      have properC : c.first ≤ c.last := le_trans (Span.mem_ids.mp hasI).1 (Span.mem_ids.mp hasI).2
      refine ⟨c,?_,properC,apply_flags_hash (by simpa using blank) c isIn⟩
      rw [apply_flags_flatMap]
      exact mem_flatMap.mpr ⟨b,fragment,isIn⟩
    · rcases mem_cons.mp member with rfl | later
      · exact absurd splits here
      · have after := behind fa.toSpan (mem_map_of_mem later)
        have overlap := splits.1
        rw [splitAct_same here (by omega)]
        exact ih rest later splits

/-- The sequence that the flags should leave, act by act. -/
theorem expand_act (apart : Apart (fs.map TestingAct.toSpan)) :
    expand (scenario_apply_flags [act] fs) = (expand [act]).map (fun x => (x.1,x.2.1,x.2.2 ||| flagsAt fs x.1)) ↔
      (act.hash ≠ none → ∀ fa ∈ fs, ¬ Splits fa act) := by
  have flagsOnly := expandFlags_apply_flags (s := [act]) apart
  constructor
  · intro equal hashed fa member splits
    obtain ⟨b,fragment,proper,blank⟩ := apply_flags_fragment apart member splits
    have inside : (b.first,b.hash,b.flags) ∈ expand (scenario_apply_flags [act] fs) :=
      mem_expand.mpr ⟨b,fragment,⟨le_rfl,proper⟩,rfl,rfl⟩
    rw [equal] at inside
    obtain ⟨x,isIn,same⟩ := mem_map.mp inside
    obtain ⟨a,isAct,_,isHash,_⟩ := mem_expand.mp isIn
    rw [mem_singleton.mp isAct] at isHash
    exact hashed (isHash.trans ((congrArg (fun y => y.2.1) same).trans blank))
  · intro whole
    have same : ∀ b ∈ scenario_apply_flags [act] fs, b.hash = act.hash := by
      by_cases hashed : act.hash = none
      · rw [hashed]
        exact apply_flags_hash (by simpa using hashed)
      · obtain ⟨flags,result⟩ := apply_flags_whole (whole hashed) apart
        rw [result]
        simp
    have hashes : ∀ {t : TestingScenario}, (∀ b ∈ t, b.hash = act.hash) →
        expand t = (expandFlags t).map fun x => (x.1,act.hash,x.2) := by
      intro t sameT
      rw [expand,expandFlags,List.map_flatMap]
      refine List.flatMap_congr fun b member => ?_
      rw [map_map,sameT b member]
      rfl
    rw [hashes same,flagsOnly,hashes (t := [act]) (by simp),map_map,map_map]
    rfl

/-- Splitting keeps the sequence exactly where it splits no act with a hash. -/
theorem apply_flags_expand (apart : Apart (fs.map TestingAct.toSpan)) :
    expand (scenario_apply_flags s fs) = (expand s).map (fun x => (x.1,x.2.1,x.2.2 ||| flagsAt fs x.1)) ↔
      ∀ act ∈ s, act.hash ≠ none → ∀ fa ∈ fs, ¬ Splits fa act := by
  induction s with
  | nil =>
    rw [apply_flags_flatMap]
    simp
  | cons act s ih =>
    have split : scenario_apply_flags (act :: s) fs = scenario_apply_flags [act] fs ++ scenario_apply_flags s fs := by
      rw [apply_flags_flatMap,flatMap_cons,← apply_flags_flatMap]
    have lengths : (expand (scenario_apply_flags [act] fs)).length =
        ((expand [act]).map fun x => (x.1,x.2.1,x.2.2 ||| flagsAt fs x.1)).length := by
      have same := congrArg List.length (expandFlags_apply_flags (s := [act]) apart)
      rw [← expand_flags,← expand_flags] at same
      simpa using same
    rw [split,expand_append,show act :: s = [act] ++ s from rfl,expand_append,map_append]
    constructor
    · grind [List.append_inj,expand_act]
    · intro whole
      rw [(expand_act apart).mpr (whole act (by simp)),ih.mpr fun a member => whole a (by simp [member])]
theorem apply_flags_expand_covered :
    expand (scenario_apply_flags [⟨⟨0,3⟩,0,some ['h']⟩,⟨⟨2,9⟩,0,none⟩] [⟨⟨0,5⟩,TESTER_FAKE,none⟩]) =
      (expand [⟨⟨0,3⟩,0,some ['h']⟩,⟨⟨2,9⟩,0,none⟩]).map
        (fun x => (x.1,x.2.1,x.2.2 ||| flagsAt [⟨⟨0,5⟩,TESTER_FAKE,none⟩] x.1)) := by
  have apart : Apart ([⟨⟨0,5⟩,TESTER_FAKE,none⟩].map TestingAct.toSpan) := Apart.cons_iff.mpr ⟨by decide,by simp,Apart.nil⟩
  refine (apply_flags_expand apart).mpr fun act member hashed fa inside splits => ?_
  rw [mem_singleton.mp inside] at splits
  rcases List.mem_pair.mp member with rfl | rfl
  · exact splits.2.2 (by decide)
  · exact hashed rfl
/-- The fragments behind the first one lose the hash. -/
theorem split_hash_lost :
    expand (scenario_apply_flags [⟨⟨0,3⟩,0,some ['h']⟩] [⟨⟨1,1⟩,TESTER_FAKE,none⟩]) ≠
      (expand [⟨⟨0,3⟩,0,some ['h']⟩]).map fun x => (x.1,x.2.1,x.2.2 ||| flagsAt [⟨⟨1,1⟩,TESTER_FAKE,none⟩] x.1) := by
  decide
end

section
variable {offset bit_weight bit start : Nat} {hash : Option CStr} {scenario : TestingScenario} {bm : List Bool}

/-- The identifiers of the bits that are set, where the first bit has the number `bit`. -/
def maskIds (offset bit_weight : Nat) : Nat → List Bool → List Nat
  | _, [] => []
  | bit, isSet :: bm => (if isSet then List.range' (offset+bit*bit_weight) bit_weight else []) ++ maskIds offset bit_weight (bit+1) bm

/-- The act for a run of set bits. -/
theorem expand_run (positive : 0 < bit_weight) (some' : start < bit) (fits : offset+bit*bit_weight ≤ UINT_MOD) :
    expand (scenario_add_act scenario ((offset+start*bit_weight)%UINT_MOD) (usub ((offset+bit*bit_weight)%UINT_MOD) 1) 0 hash) =
      expand scenario ++ (List.range' (offset+start*bit_weight) ((bit-start)*bit_weight)).map fun i => (i,hash,0) := by
  have long := Nat.mul_le_mul_right bit_weight (Nat.succ_le_of_lt some')
  rw [Nat.succ_mul] at long
  rw [Nat.sub_mul]
  generalize start*bit_weight = s at long
  generalize bit*bit_weight = b at long fits
  have last : usub ((offset+b)%UINT_MOD) 1 = offset+b-1 := by
    simp only [usub,UINT_MOD] at fits ⊢
    omega
  have count : offset+b-1+1-(offset+s) = b-s := by omega
  rw [last,mod_eq_of_lt (by omega),scenario_add_act,expand_append]
  simp [expand,scenario_new_act,Span.ids,count]
theorem byBitMask_expand (positive : 0 < bit_weight) (fits : offset+(bit+bm.length)*bit_weight ≤ UINT_MOD) :
    (expand (byBitMask offset bit_weight hash bm bit none scenario) =
      expand scenario ++ (maskIds offset bit_weight bit bm).map fun i => (i,hash,0)) ∧
    ∀ start < bit, expand (byBitMask offset bit_weight hash bm bit (some start) scenario) = expand scenario ++
      (List.range' (offset+start*bit_weight) ((bit-start)*bit_weight) ++ maskIds offset bit_weight bit bm).map fun i => (i,hash,0) := by
  induction bm generalizing bit scenario with
  | nil => exact ⟨by simp [byBitMask,maskIds],fun start some' => by simpa [byBitMask,maskIds] using expand_run positive some' (by simpa using fits)⟩
  | cons isSet bm ih =>
    rw [length_cons,← Nat.add_assoc,Nat.add_right_comm] at fits
    have here : offset+bit*bit_weight ≤ UINT_MOD := le_trans (Nat.add_le_add_left (Nat.mul_le_mul_right _ (by omega)) _) fits
    cases isSet with
    | false =>
      refine ⟨by simpa [byBitMask,maskIds] using (ih fits).1,fun start some' => ?_⟩
      simp only [byBitMask,maskIds,false_eq_true,if_false,(ih fits).1,expand_run positive some' here,map_append,append_assoc,nil_append]
    | true =>
      refine ⟨?_,fun start some' => ?_⟩
      · simp [byBitMask,maskIds,(ih fits).2 bit (Nat.lt_succ_self _)]
      · have joined := @List.range'_append_1 (offset+start*bit_weight) ((bit-start)*bit_weight) bit_weight
        have place : offset+start*bit_weight+(bit-start)*bit_weight = offset+bit*bit_weight := by
          rw [Nat.add_assoc,← Nat.add_mul,Nat.add_sub_cancel' some'.le]
        rw [place,← Nat.succ_mul,← Nat.succ_sub some'.le] at joined
        simp [byBitMask,maskIds,(ih fits).2 start (Nat.lt_succ_of_lt some'),← joined]
/-- The scenario of a bit mask runs the iterations of the bits that are set, each once and in order. -/
theorem scenario_by_bit_mask_expand (positive : 0 < bit_weight) (fits : offset+bm.length*bit_weight ≤ UINT_MOD) :
    expand (scenario_by_bit_mask scenario offset bm bit_weight hash) =
      expand scenario ++ (maskIds offset bit_weight 0 bm).map fun i => (i,hash,0) :=
  (byBitMask_expand positive (by rwa [Nat.zero_add])).1
theorem scenario_by_bit_mask_expand_wrap : expand (scenario_by_bit_mask [] (2^32-6) [true,false,true] 2 none) =
    expand [] ++ (maskIds (2^32-6) 2 0 [true,false,true]).map fun i => (i,none,0) :=
  scenario_by_bit_mask_expand (by decide) (by decide)
end
end TestEnvironment.Tester
