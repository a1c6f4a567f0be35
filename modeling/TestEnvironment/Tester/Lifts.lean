import TestEnvironment.Tester.Walk

/-!
Callbacks of a walk in a state that has something beside: notes about the run, or data
that other callbacks need.
-/
namespace TestEnvironment.Tester
open Lib

section
variable {σ τ α : Type}

/-- A callback in a state with notes. -/
def lifted (cb : StateT σ Option α) : StateT (σ × τ) Option α := fun s => (cb s.1).map fun r => (r.1,(r.2,s.2))
/-- A change of the notes. -/
def note (change : τ → τ) : StateT (σ × τ) Option Unit := fun s => some ((),(s.1,change s.2))
/-- A callback with a change of the notes. -/
def noting (change : τ → τ) (cb : StateT σ Option Unit) : StateT (σ × τ) Option Unit := do
  note change
  lifted cb
/-- The callbacks in a state with notes, which the calls of `skip_start` and `skip_end` change. -/
def TesterCfgWalk.lifted (skip_start skip_end : τ → τ) (walk : TesterCfgWalk σ) : TesterCfgWalk (σ × τ) where
  cfg_start := walk.cfg_start.map fun cb cfg id_off => Tester.lifted (cb cfg id_off)
  cfg_end := walk.cfg_end.map fun cb cfg id_off => Tester.lifted (cb cfg id_off)
  pkg_start := walk.pkg_start.map fun cb ri id_off => Tester.lifted (cb ri id_off)
  pkg_end := walk.pkg_end.map fun cb ri id_off => Tester.lifted (cb ri id_off)
  session_start := walk.session_start.map fun cb ri id_off => Tester.lifted (cb ri id_off)
  session_end := walk.session_end.map fun cb ri id_off => Tester.lifted (cb ri id_off)
  prologue_start := walk.prologue_start.map fun cb ri id_off => Tester.lifted (cb ri id_off)
  prologue_end := walk.prologue_end.map fun cb ri id_off => Tester.lifted (cb ri id_off)
  epilogue_start := walk.epilogue_start.map fun cb ri id_off => Tester.lifted (cb ri id_off)
  epilogue_end := walk.epilogue_end.map fun cb ri id_off => Tester.lifted (cb ri id_off)
  keepalive_start := walk.keepalive_start.map fun cb ri id_off => Tester.lifted (cb ri id_off)
  keepalive_end := walk.keepalive_end.map fun cb ri id_off => Tester.lifted (cb ri id_off)
  exception_start := walk.exception_start.map fun cb ri id_off => Tester.lifted (cb ri id_off)
  exception_end := walk.exception_end.map fun cb ri id_off => Tester.lifted (cb ri id_off)
  run_start := walk.run_start.map fun cb ri id_off flags => Tester.lifted (cb ri id_off flags)
  run_end := walk.run_end.map fun cb ri id_off flags => Tester.lifted (cb ri id_off flags)
  iter_start := walk.iter_start.map fun cb ri id_off flags i => Tester.lifted (cb ri id_off flags i)
  iter_end := walk.iter_end.map fun cb ri id_off flags i => Tester.lifted (cb ri id_off flags i)
  repeat_start := walk.repeat_start.map fun cb ri id_off flags => Tester.lifted (cb ri id_off flags)
  repeat_end := walk.repeat_end.map fun cb ri id_off flags => Tester.lifted (cb ri id_off flags)
  script := walk.script.map fun cb ri id_off => Tester.lifted (cb ri id_off)
  skip_start := walk.skip_start.map (noting skip_start)
  skip_end := walk.skip_end.map (noting skip_end)
end

end TestEnvironment.Tester
