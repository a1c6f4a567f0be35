import TestEnvironment.Lib.Brackets

/-!
Scanning for a separator outside all brackets with a counter for the depth, over any items that
open, close, separate, do neither, or are broken. The counter has a fixed width. The scan is right
exactly where the counter stays the depth.
-/
namespace TestEnvironment.Lib
universe u v

inductive Mark | up | down | stop | plain | broken
  deriving DecidableEq, Repr

section
variable {α : Type u} {β : Type v} (mark : α → Mark) (width : Nat)

def raise (level : Nat) : Nat := (level+1)%width
def lower (level : Nat) : Nat := (level+(width-1))%width
/-- The counter behind an item. -/
def counted (level : Nat) (p : α) : Nat :=
  match mark p with
  | .up => raise width level
  | .down => lower width level
  | _ => level
/-- The scan keeps the items passed. It ends at a separator where the counter is zero. -/
def bracketScan (found : List α → α → List α → β) (absent malformed : β) : Nat → List α → List α → β
  | level, _, [] => if level ≠ 0 then malformed else absent
  | level, passed, p :: rest =>
    if mark p = .broken then malformed
    else if mark p = .stop ∧ level = 0 then found passed p rest
    else bracketScan found absent malformed (counted mark width level p) (passed ++ [p]) rest

/-- How deep the items end. -/
def depth (ps : List α) : Int := net Mark.up Mark.down (ps.map mark)
/-- What a scan may pass: nothing broken, and no separator outside all brackets. -/
structure Scanned (ps passed : List α) : Prop where
  start : passed <+: ps
  sound : ∀ p ∈ passed, mark p ≠ .broken
  inside : ∀ front p, front ++ [p] <+: passed → mark p = .stop → depth mark front ≠ 0
/-- No bracket closes that was not opened. -/
def Nested (ps : List α) : Prop := ∀ front, front <+: ps → 0 ≤ depth mark front
/-- The right result of a scan. -/
structure Searched (found : List α → α → List α → β) (absent malformed : β) (ps : List α) (result : β) : Prop where
  first : ∀ passed p rest, ps = passed ++ p :: rest → Scanned mark ps passed → Nested mark passed → mark p = .stop → depth mark passed = 0 →
    result = found passed p rest
  none' : Scanned mark ps ps → Nested mark ps → depth mark ps = 0 → result = absent
  invalid : ∀ passed p rest, ps = passed ++ p :: rest → Scanned mark ps passed → Nested mark passed →
    mark p = .broken ∨ mark p = .down ∧ depth mark passed = 0 → result = malformed
  unclosed : Scanned mark ps ps → Nested mark ps → depth mark ps ≠ 0 → result = malformed
/-- In all that is passed no bracket closes at depth zero, and no depth reaches the width. -/
def Kept (ps : List α) : Prop := ∀ passed, Scanned mark ps passed → 0 ≤ depth mark passed ∧ depth mark passed < width
/-- The counter is the depth all along. -/
def Counts (ps : List α) : Prop := ∀ passed, Scanned mark ps passed → ((passed.foldl (counted mark width) 0 : Nat) : Int) = depth mark passed
end

section
variable {α : Type u} {β : Type v} {mark : α → Mark} {width : Nat} {found : List α → α → List α → β} {absent malformed : β}
  {ps passed rest : List α} {p : α} {level : Nat}

@[simp] theorem depth_nil : depth mark [] = 0 := net_nil
theorem depth_snoc (ps : List α) (p : α) : depth mark (ps ++ [p]) = depth mark ps+net .up .down [mark p] := by simp [depth]
theorem depth_up (opens : mark p = .up) : depth mark (ps ++ [p]) = depth mark ps+1 := by
  rw [depth_snoc,opens,net_up (by decide)]
theorem depth_down (closes : mark p = .down) : depth mark (ps ++ [p]) = depth mark ps-1 := by
  rw [depth_snoc,closes,net_down (by decide)]
  omega
theorem depth_other (notUp : mark p ≠ .up) (notDown : mark p ≠ .down) : depth mark (ps ++ [p]) = depth mark ps := by
  rw [depth_snoc,net_plain notUp notDown,Int.add_zero]
section
theorem scan_up (opens : mark p = .up) : bracketScan mark width found absent malformed level passed (p :: rest) =
    bracketScan mark width found absent malformed (raise width level) (passed ++ [p]) rest := by
  simp [bracketScan,opens,counted]
theorem scan_down (closes : mark p = .down) : bracketScan mark width found absent malformed level passed (p :: rest) =
    bracketScan mark width found absent malformed (lower width level) (passed ++ [p]) rest := by
  simp [bracketScan,closes,counted]
theorem scan_found (stop : mark p = .stop) : bracketScan mark width found absent malformed 0 passed (p :: rest) = found passed p rest := by
  simp [bracketScan,stop]
theorem scan_inside (stop : mark p = .stop) (inside : level ≠ 0) : bracketScan mark width found absent malformed level passed (p :: rest) =
    bracketScan mark width found absent malformed level (passed ++ [p]) rest := by
  simp [bracketScan,stop,inside,counted]
theorem scan_plain (plain : mark p = .plain) : bracketScan mark width found absent malformed level passed (p :: rest) =
    bracketScan mark width found absent malformed level (passed ++ [p]) rest := by
  simp [bracketScan,plain,counted]
theorem scan_broken (broken : mark p = .broken) : bracketScan mark width found absent malformed level passed (p :: rest) = malformed := by
  simp [bracketScan,broken]
end
theorem Scanned.before (scanned : Scanned mark ps passed) {front : List α} (start : front <+: passed) : Scanned mark ps front :=
  ⟨start.trans scanned.start,fun p member => scanned.sound p (start.subset member),fun inner p inside => scanned.inside inner p (inside.trans start)⟩
theorem counted_lt (small : level < width) (p : α) : counted mark width level p < width := by
  rw [counted]
  split
  · exact mod_lt _ (by omega)
  · exact mod_lt _ (by omega)
  · exact small
theorem counter_lt (small : level < width) : passed.foldl (counted mark width) level < width := by
  induction passed generalizing level with
  | nil => exact small
  | cons p passed ih => exact ih (counted_lt small p)
/-- A counter that is the depth stays it, up to where a bracket closes at depth zero. -/
theorem counted_depth (same : (level : Int) = depth mark passed) (nonneg : 0 ≤ depth mark (passed ++ [p])) (below : depth mark (passed ++ [p]) < width) :
    (counted mark width level p : Int) = depth mark (passed ++ [p]) := by
  cases marked : mark p with
  | up =>
    rw [depth_up marked] at below ⊢
    simp only [counted,marked,raise]
    rw [mod_eq_of_lt (by omega)]
    omega
  | down =>
    rw [depth_down marked] at nonneg below ⊢
    simp only [counted,marked,lower]
    rw [show level+(width-1) = level-1+width by omega,Nat.add_mod_right,mod_eq_of_lt (by omega)]
    omega
  | stop | plain | broken => grind [depth_other,counted]
theorem Kept.counts (kept : Kept mark width ps) : Counts mark width ps := by
  intro passed
  induction passed using List.reverseRecOn with
  | nil => intro _; simp
  | append_singleton passed p ih =>
    intro scanned
    have same := ih (scanned.before (prefix_append passed [p]))
    have bounds := kept _ scanned
    rw [foldl_append]
    exact counted_depth same bounds.1 bounds.2
/-- Everything that may be passed is passed. -/
theorem scan_passes (kept : Kept mark width ps) (scanned : Scanned mark ps passed) (parts : ps = passed ++ rest) :
    bracketScan mark width found absent malformed 0 [] ps = bracketScan mark width found absent malformed (passed.foldl (counted mark width) 0) passed rest := by
  induction passed using List.reverseRecOn generalizing rest with
  | nil => rw [parts]; rfl
  | append_singleton passed p ih =>
    have before := scanned.before (prefix_append passed [p])
    have same := kept.counts passed before
    have sound := scanned.sound p (by simp)
    have inside := scanned.inside passed p (prefix_refl _)
    rw [@ih (p :: rest) before (by rw [parts,append_assoc]; rfl),bracketScan,if_neg sound,if_neg,foldl_append]
    · rfl
    · rintro ⟨stop,zero⟩
      exact inside stop (by omega)
/-- A scan is right, and its counter the depth, if and only if no bracket closes at depth zero in
what it passes and no depth reaches the width. -/
theorem scan_searched (positive : 0 < width) :
    (Searched mark found absent malformed ps (bracketScan mark width found absent malformed 0 [] ps) ∧ Counts mark width ps) ↔ Kept mark width ps := by
  constructor
  · rintro ⟨-,counts⟩ passed scanned
    have same := counts passed scanned
    have small := @counter_lt _ mark width passed 0 positive
    omega
  · intro kept
    refine ⟨⟨?_,?_,?_,?_⟩,kept.counts⟩
    · intro passed p rest parts scanned nested stop zero
      have same := kept.counts passed scanned
      rw [scan_passes kept scanned parts,bracketScan,if_neg (by simp [stop]),if_pos ⟨stop,by omega⟩]
    · intro scanned nested zero
      have same := kept.counts ps scanned
      rw [scan_passes kept scanned (append_nil ps).symm,bracketScan,if_neg (by omega)]
    · intro passed p rest parts scanned nested wrong
      rcases wrong with broken | ⟨closes,zero⟩
      · rw [scan_passes kept scanned parts,bracketScan,if_pos broken]
      · -- what closes at depth zero could be passed
        have onward : Scanned mark ps (passed ++ [p]) := by
          refine ⟨⟨rest,by rw [parts]; simp⟩,?_,?_⟩
          · intro q member
            rcases mem_append.mp member with before | last
            · exact scanned.sound q before
            · rw [mem_singleton.mp last,closes]
              decide
          · intro front q start stop
            rcases prefix_parts start with within | ⟨tail,later,eq⟩
            · exact scanned.inside front q within stop
            · cases tail with
              | nil =>
                rw [append_nil] at eq
                exact scanned.inside front q (by rw [eq]) stop
              | cons r tail =>
                obtain ⟨rfl,last⟩ := List.cons_prefix_cons.mp later
                rw [List.prefix_nil.mp last] at eq
                obtain ⟨rfl,same⟩ := append_inj' eq rfl
                rw [List.singleton_inj.mp same,closes] at stop
                exact absurd stop (by decide)
        have bounds := kept _ onward
        rw [depth_down closes] at bounds
        omega
    · intro scanned nested deep
      have same := kept.counts ps scanned
      rw [scan_passes kept scanned (append_nil ps).symm,bracketScan,if_pos (by omega)]
end
end TestEnvironment.Lib
