import TestEnvironment.Lib.Runs
import TestEnvironment.Tester.ScenarioFlags

/-!
How a run follows its scenario: at the end of every iteration of a run item
`run_repeat_end` (`run.c`) calls `scenario_step`. What the iterations do is left out.
-/
namespace TestEnvironment.Tester
open Lib

section
/-- An identifier with the hash and the flags of its act. -/
abbrev RunTest := Nat × Option CStr × TesterFlags
/-- The current act with those behind it, and the identifier in it. -/
structure RunPosition where
  act : List TestingAct
  act_id : Nat
/-- An iteration that ends: `step` is 1 for a script, the weight of what is passed as a whole (`group_step`), and else 0. -/
structure IterEnd where
  cfg_id_off : Nat
  step : Nat
  script : Bool
/-- The call of `scenario_step` in `run_repeat_end`. -/
def stepAtRepeatEnd (e : IterEnd) (p : RunPosition) : Option (TestingDirection × RunPosition) :=
  (scenario_step p.act p.act_id e.cfg_id_off ((e.cfg_id_off+e.step)%UINT_MOD) (!e.script)).map fun r => (r.1,⟨r.2.1,r.2.2⟩)

/-- `count` tests of an act. -/
def TestingAct.tests (act : TestingAct) (first count : Nat) : List RunTest :=
  (List.range' first count).map fun i => (i,act.hash,act.flags)
namespace RunPosition
/-- The tests from a position on. -/
def ahead : RunPosition → List RunTest
  | ⟨[],_⟩ => []
  | ⟨cur :: rest,act_id⟩ => cur.tests act_id (cur.last+1-act_id) ++ expand rest
def Valid : RunPosition → Prop
  | ⟨[],_⟩ => True
  | ⟨cur :: rest,act_id⟩ => cur.Has act_id ∧ ∀ act ∈ rest, act.first ≤ act.last
end RunPosition
/-- A run so far: the tests of the scripts that have ended, all iterations that have, and the position. -/
structure ScenarioRun where
  tests : List RunTest
  ended : List IterEnd
  position : RunPosition
/-- `tester_run` begins with the first act. -/
def runStart (scenario : TestingScenario) : ScenarioRun := ⟨[],[],scenario,(scenario.head?.map fun act => act.first).getD 0⟩
/-- An iteration ends without going back; `run_this_item` has let in scripts and what is passed as a whole. -/
structure Over (r : ScenarioRun) (e : IterEnd) : Prop where
  fits : e.cfg_id_off+e.step < UINT_MOD
  one : e.script → e.step = 1
  onward : e.cfg_id_off ≤ r.position.act_id
  entered : 0 < e.step → r.position.act_id < e.cfg_id_off+e.step
/-- A script that ends is for the next test. -/
def Follows (r : ScenarioRun) (e : IterEnd) (r' : ScenarioRun) : Prop := ∃ direction q, r.position.act ≠ [] ∧
  stepAtRepeatEnd e r.position = some (direction,q) ∧ r' = ⟨r.tests ++ r.position.ahead.take e.script.toNat,r.ended ++ [e],q⟩
/-- The tests behind and ahead are the scenario. One behind has ended, or is in a group that was passed as a whole. -/
def Accounts (scenario : TestingScenario) (r : ScenarioRun) : Prop := ∃ behind : List (RunTest × Bool),
  behind.map Prod.fst ++ r.position.ahead = expand scenario ∧ (behind.filter Prod.snd).map Prod.fst = r.tests ∧
  ∀ x ∈ behind, x.2 = false → ∃ e ∈ r.ended, e.script = false ∧ e.cfg_id_off ≤ x.1.1 ∧ x.1.1 < e.cfg_id_off+e.step
/-- No end fails. The run stops where nothing is ahead, and goes back where the next test is not behind the iteration. -/
def Proceeds (r : ScenarioRun) : Prop := ∀ e, r.position.act ≠ [] → Over r e → ∃ direction q, stepAtRepeatEnd e r.position = some (direction,q) ∧
  (direction = .stop ↔ q.act = []) ∧ (direction = .backward ↔ q.act ≠ [] ∧ q.act_id < e.cfg_id_off+e.step)
/-- What an end passes, and its direction. -/
structure Passes (p : RunPosition) (e : IterEnd) (direction : TestingDirection) (q : RunPosition) (passed : List RunTest) : Prop where
  valid : q.Valid
  split : p.ahead = passed ++ q.ahead
  within : ∀ x ∈ passed, e.cfg_id_off ≤ x.1 ∧ x.1 < e.cfg_id_off+e.step
  single : e.script → passed.length = 1
  stop : direction = .stop ↔ q.act = []
  back : direction = .backward ↔ q.act ≠ [] ∧ q.act_id < e.cfg_id_off+e.step
end

section
variable {scenario : TestingScenario} {r r' : ScenarioRun} {e : IterEnd} {start next : Nat} {skip : Bool}

/-- The acts that are skipped are inside. -/
theorem skipActs_split (act : List TestingAct) : ∃ skipped, act = skipped ++ skipActs start next skip act ∧
    (∀ a ∈ skipped, start ≤ a.first ∧ a.last < next) ∧ (skip = false → skipped = []) := by
  induction act with
  | nil => exact ⟨[],rfl,by simp,fun _ => rfl⟩
  | cons a act ih =>
    by_cases kept : skip = false ∨ a.first < start ∨ a.last ≥ next
    · exact ⟨[],by grind [skipActs],by simp,fun _ => rfl⟩
    · obtain ⟨skipped,split,within,-⟩ := ih
      obtain ⟨skips,inside⟩ := not_or.mp kept
      refine ⟨a :: skipped,?_,forall_mem_cons.mpr ⟨by omega,within⟩,fun plain => absurd plain skips⟩
      rw [skipActs,if_neg (by simpa using skips),if_neg inside,cons_append,← split]
theorem repeat_end_passes (valid : r.position.Valid) (more : r.position.act ≠ []) (ends : Over r e) : ∃ direction q passed,
    stepAtRepeatEnd e r.position = some (direction,q) ∧ Passes r.position e direction q passed := by
  obtain ⟨tests,ended,act,act_id⟩ := r
  obtain ⟨cur,rest,rfl⟩ := exists_cons_of_ne_nil more
  obtain ⟨⟨above,below⟩,proper⟩ := id valid
  obtain ⟨fits,one,onward,entered⟩ := ends
  have next : e.script = true → e.cfg_id_off+e.step = act_id+1 := by grind
  obtain ⟨skipped,split,within,plain⟩ := @skipActs_split e.cfg_id_off (e.cfg_id_off+e.step) (!e.script) rest
  dsimp only at onward above below ⊢
  rw [stepAtRepeatEnd,mod_eq_of_lt (by omega),scenario_step,if_neg (by dsimp; omega)]
  dsimp only
  by_cases before : e.cfg_id_off+e.step < act_id
  · rw [if_pos before]
    exact ⟨.forward,⟨_,_⟩,[],rfl,valid,rfl,by simp,by grind,by simp,by simp; omega⟩
  rw [if_neg before]
  by_cases inside : e.cfg_id_off+e.step ≥ cur.first ∧ e.cfg_id_off+e.step ≤ cur.last
  · rw [if_pos inside]
    refine ⟨.forward,⟨_,_⟩,cur.tests act_id (e.cfg_id_off+e.step-act_id),rfl,⟨inside,proper⟩,?_,?_,?_,by simp,by simp⟩
    · have cut := @Span.ids_cut ⟨act_id,cur.last⟩ (e.cfg_id_off+e.step) (by dsimp; omega) (by dsimp; omega)
      simp only [Span.ids] at cut
      simp only [RunPosition.ahead,TestingAct.tests,cut,map_append,append_assoc]
    · grind [TestingAct.tests]
    · grind [TestingAct.tests]
  rw [if_neg inside]
  generalize skipActs e.cfg_id_off (e.cfg_id_off+e.step) (!e.script) rest = left at split
  subst split
  -- The rest of the current act is passed, and what is skipped behind it.
  have passes : ∀ x ∈ cur.tests act_id (cur.last+1-act_id) ++ expand skipped, e.cfg_id_off ≤ x.1 ∧ x.1 < e.cfg_id_off+e.step := by
    simp only [TestingAct.tests,mem_append,mem_map,List.mem_range'_1,expand,mem_flatMap,Span.mem_ids]
    rintro x (⟨i,range,rfl⟩ | ⟨act,member,i,⟨low,high⟩,rfl⟩) <;> grind
  have single : e.script = true → (cur.tests act_id (cur.last+1-act_id) ++ expand skipped).length = 1 := by
    intro script
    simp [TestingAct.tests,plain (by simp [script])]
    grind
  have ahead : RunPosition.ahead ⟨cur :: (skipped ++ left),act_id⟩ = (cur.tests act_id (cur.last+1-act_id) ++ expand skipped) ++ expand left := by
    rw [RunPosition.ahead,expand_append,append_assoc]
  cases left with
  | nil => exact ⟨.stop,⟨[],act_id⟩,_,rfl,trivial,ahead,passes,single,by simp,by simp⟩
  | cons act left =>
    have valid' : RunPosition.Valid ⟨act :: left,act.first⟩ := ⟨⟨le_rfl,proper act (by simp)⟩,fun b member => proper b (by simp [member])⟩
    dsimp only
    by_cases behind : e.cfg_id_off+e.step ≤ act.first
    · rw [if_pos behind]
      exact ⟨.forward,⟨_,_⟩,_,rfl,valid',ahead,passes,single,by simp,by simpa using behind⟩
    · rw [if_neg behind]
      exact ⟨.backward,⟨_,_⟩,_,rfl,valid',ahead,passes,single,by simp,by simpa using behind⟩
theorem follows_accounts (inv : Accounts scenario r ∧ r.position.Valid) (ends : Over r e) (followed : Follows r e r') :
    Accounts scenario r' ∧ r'.position.Valid := by
  obtain ⟨⟨behind,split,tests,skipped⟩,valid⟩ := inv
  obtain ⟨direction,q,more,stepped,rfl⟩ := followed
  obtain ⟨_,_,passed,stepped',passes⟩ := repeat_end_passes valid more ends
  obtain ⟨rfl,rfl⟩ := Prod.mk.inj (some.inj (stepped.symm.trans stepped'))
  refine ⟨⟨behind ++ passed.map fun x => (x,e.script),?_,?_,?_⟩,passes.valid⟩
  · rw [passes.split,← append_assoc] at split
    simpa [Function.comp_def] using split
  · rw [List.filter_append,map_append,tests]
    cases script : e.script with
    | true => simp [passes.split,Function.comp_def,List.filter_map,List.take_left' (passes.single script)]
    | false => simp [List.filter_map,Function.comp_def]
  · intro x member unmarked
    rcases mem_append.mp member with before | now
    · obtain ⟨e',inside,rest⟩ := skipped x before unmarked
      exact ⟨e',mem_append_left _ inside,rest⟩
    · obtain ⟨y,inside,rfl⟩ := mem_map.mp now
      exact ⟨e,by simp,unmarked,passes.within y inside⟩
/-- Every run keeps to its scenario. -/
theorem scenario_followed (proper : ∀ act ∈ scenario, act.first ≤ act.last) (reached : Reach (· = runStart scenario) Follows Over r) :
    Accounts scenario r ∧ Proceeds r := by
  have inv : Accounts scenario r ∧ r.position.Valid := by
    induction reached with
    | start first =>
      subst first
      cases scenario with
      | nil => exact ⟨⟨[],rfl,rfl,by simp⟩,trivial⟩
      | cons act rest =>
        obtain ⟨own,others⟩ := forall_mem_cons.mp proper
        exact ⟨⟨[],rfl,rfl,by simp⟩,⟨le_rfl,own⟩,others⟩
    | step _ ends followed inv => exact follows_accounts inv ends followed
  refine ⟨inv.1,fun e more ends => ?_⟩
  obtain ⟨direction,q,_,stepped,passes⟩ := repeat_end_passes inv.2 more ends
  exact ⟨direction,q,stepped,passes.stop,passes.back⟩
theorem scenario_followed_script : Accounts [⟨⟨3,4⟩,0,none⟩] ⟨[(3,none,0)],[⟨3,1,true⟩],[⟨⟨3,4⟩,0,none⟩],4⟩ ∧
    Proceeds ⟨[(3,none,0)],[⟨3,1,true⟩],[⟨⟨3,4⟩,0,none⟩],4⟩ :=
  scenario_followed (by decide) (@Reach.step _ _ _ _ _ _ _ ⟨3,1,true⟩ (.start rfl)
    ⟨by decide,fun _ => rfl,by decide,fun _ => by decide⟩ ⟨.forward,_,by decide,rfl,rfl⟩)
end
end TestEnvironment.Tester
