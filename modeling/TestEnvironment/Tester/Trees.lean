import TestEnvironment.Lib.Fuel
import TestEnvironment.Tester.Prepare

/-!
The trees of run items below the configurations: what the parser builds, and what
the preparation leaves. A session lists its run items; the handlers that it points
to are service run items, which several sessions may have in common.
-/
namespace TestEnvironment.Tester
open Lib

/-- The session of a run item; a script has none. -/
def ConfigItem.own (item : ConfigItem) : TestSession :=
  match item.type with
  | .script => ⟨[],none,none,none,none⟩
  | _ => item.session
namespace TesterHeap
def session (h : TesterHeap) (ri : Ref) : TestSession := (h.item ri).own
def children (h : TesterHeap) (ri : Ref) : List Ref := (h.session ri).run_items
/-- What one iteration of the run item weighs, by the number of script runs in its session. -/
def weigh (h : TesterHeap) (ri : Ref) (inner : Nat) : Nat := if (h.item ri).type = .script then 1 else inner
end TesterHeap

/-- Run items with all run items of their trees, in order, and the number of their script
    runs, for the numbers of iterations. -/
inductive RunTree (h : TesterHeap) (count : Ref → Nat) : List Ref → List Ref → Nat → Prop
  | nil : RunTree h count [] [] 0
  | cons {r : Ref} {rs below rest : List Ref} {w t : Nat} (inner : RunTree h count (h.children r) below w)
      (outer : RunTree h count rs rest t) : RunTree h count (r :: rs) (r :: below ++ rest) (count r*h.weigh r w+t)
/-- The same for the numbers of iterations in the configuration, where the weights agree. -/
inductive Prepared (h : TesterHeap) : List Ref → List Ref → Nat → Prop
  | nil : Prepared h [] [] 0
  | cons {r : Ref} {rs below rest : List Ref} {w t : Nat} (inner : Prepared h (h.children r) below w)
      (outer : Prepared h rs rest t) (weight : (h.item r).weight = h.weigh r w) :
      Prepared h (r :: rs) (r :: below ++ rest) ((h.item r).n_iters*(h.item r).weight+t)
/-- Configurations with all run items of their trees, in order, and the number of their script
    runs, for the numbers of iterations. -/
inductive ConfigTrees (h : TesterHeap) (count : Ref → Nat) : List Ref → List Ref → Nat → Prop
  | nil : ConfigTrees h count [] [] 0
  | cons {c : Ref} {cs own rest : List Ref} {t total : Nat} (runs : RunTree h count (h.cfg c).runs own t)
      (outer : ConfigTrees h count cs rest total) : ConfigTrees h count (c :: cs) (own ++ rest) (t+total)
/-- The same where the numbers in the configuration agree. -/
inductive Numbered (h : TesterHeap) : List Ref → List Ref → Nat → Prop
  | nil : Numbered h [] [] 0
  | cons {c : Ref} {cs own rest : List Ref} {t total : Nat} (runs : Prepared h (h.cfg c).runs own t)
      (outer : Numbered h cs rest total) (total_iters : (h.cfg c).total_iters = t) : Numbered h (c :: cs) (own ++ rest) (t+total)
/-- A walk of the service run item comes to an end: no handler leads back to it. -/
inductive Served (h : TesterHeap) : Ref → Prop
  | intro {r : Ref} (children : ∀ c ∈ h.children r, Served h c) (prologue : ∀ p, (h.session r).prologue = some p → Served h p)
      (epilogue : ∀ p, (h.session r).epilogue = some p → Served h p)
      (keepalive : h.children r ≠ [] → ∀ k, (h.session r).keepalive = some k → Served h k) : Served h r
/-- The handlers that a walk calls for a session of the tree come to an end. -/
structure Handled (h : TesterHeap) (r : Ref) : Prop where
  prologue : ∀ p, (h.session r).prologue = some p → Served h p
  epilogue : ∀ p, (h.session r).epilogue = some p → Served h p
  keepalive : h.children r ≠ [] → ∀ k, (h.session r).keepalive = some k → Served h k
  exception : h.children r ≠ [] → ∀ e, (h.session r).exception = some e → Served h e

variable {h h' : TesterHeap} {rs rs' all all' : List Ref} {t t' : Nat} {r : Ref}

theorem Prepared.congr (prepared : Prepared h rs all t) (same : ∀ r ∈ all, h'.item r = h.item r) : Prepared h' rs all t := by
  induction prepared with
  | nil => exact .nil
  | @cons r rs below rest w t inner outer weight ih ih' =>
    have own := same r (by simp)
    have children : h'.children r = h.children r := by simp [TesterHeap.children,TesterHeap.session,own]
    have weigh : ∀ w, h'.weigh r w = h.weigh r w := fun w => by simp [TesterHeap.weigh,own]
    have first := ih fun x member => same x (by simp [member])
    have second := ih' fun x member => same x (by simp [member])
    rw [← children] at first
    have built := Prepared.cons first second (by rw [own,weigh]; exact weight)
    rwa [own] at built
theorem Prepared.append (first : Prepared h rs all t) (second : Prepared h rs' all' t') :
    Prepared h (rs ++ rs') (all ++ all') (t+t') := by
  induction first with
  | nil => simpa using second
  | cons inner _ weight _ ih =>
    rw [cons_append,append_assoc,Nat.add_assoc]
    exact .cons inner ih weight

end TestEnvironment.Tester
