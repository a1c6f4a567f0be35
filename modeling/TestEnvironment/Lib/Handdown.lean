import Mathlib

/-!
Values that are handed down in a tree. A node may declare a value with its reach: for
nobody, for its children, or for all nodes below. A node without a value of its own gets
what the nearest declaration above it hands down that far. A traversal that keeps one
value and one flag for every open node computes this (`Handed.along_given`).
-/
namespace TestEnvironment.Lib
variable {α : Type*}

inductive Extent | nobody | children | descendants
  deriving DecidableEq, Repr

/-- What a node gets from declarations above its parent. -/
def fromAbove : List (Option (α × Extent)) → Option α
  | [] => none
  | some (a,extent) :: _ => if extent = .descendants then some a else none
  | none :: above => fromAbove above
/-- What a node gets from the declarations above it, the parent's first. -/
def handedDown : List (Option (α × Extent)) → Option α
  | [] => none
  | some (a,extent) :: _ => if extent = .nobody then none else some a
  | none :: above => fromAbove above
/-- The value of a node: its own, or what it gets. -/
def effective (own : Option (α × Extent)) (above : List (Option (α × Extent))) : Option α := (own.map Prod.fst).or (handedDown above)

section
variable {own : Option (α × Extent)} {above : List (Option (α × Extent))} {a b : α} {extent extent' : Extent} {n : Nat}

/-- The nearest declaration, behind `n` nodes without one. -/
def Nearest (above : List (Option (α × Extent))) (n : Nat) (a : α) (extent : Extent) : Prop :=
  above[n]? = some (some (a,extent)) ∧ ∀ i < n, above[i]? = some none

theorem nearest_some : Nearest (some (b,extent) :: above) n a extent' ↔ n = 0 ∧ b = a ∧ extent = extent' := by
  constructor
  · rintro ⟨declared,between⟩
    obtain rfl : n = 0 := Nat.eq_zero_of_not_pos fun some' => by simpa using between 0 some'
    simpa using declared
  · rintro ⟨rfl,rfl,rfl⟩
    exact ⟨rfl,by simp⟩
theorem nearest_none : Nearest (none :: above) n a extent ↔ ∃ m, n = m+1 ∧ Nearest above m a extent := by
  constructor
  · rintro ⟨declared,between⟩
    cases n with
    | zero => simp at declared
    | succ n => exact ⟨n,rfl,declared,fun i small => between (i+1) (by omega)⟩
  · rintro ⟨m,rfl,declared,between⟩
    refine ⟨declared,fun i small => ?_⟩
    cases i with
    | zero => rfl
    | succ i => exact between i (by omega)
theorem fromAbove_eq_some : fromAbove above = some a ↔ ∃ n, Nearest above n a .descendants := by
  induction above with
  | nil => simp [fromAbove,Nearest]
  | cons own above ih =>
    cases own with
    | none =>
      rw [fromAbove,ih]
      simp only [nearest_none]
      constructor
      · simp
      · simp
    | some declaration =>
      obtain ⟨b,extent⟩ := declaration
      simp [fromAbove,nearest_some,and_comm]
/-- The nearest declaration counts: the parent's unless it is for nobody, any other one if it is
    for all nodes below. -/
theorem handedDown_eq_some : handedDown above = some a ↔
    ∃ n extent, Nearest above n a extent ∧ (extent = .descendants ∨ extent = .children ∧ n = 0) := by
  cases above with
  | nil => simp [handedDown,Nearest]
  | cons own above =>
    cases own with
    | none =>
      rw [handedDown,fromAbove_eq_some]
      simp only [nearest_none]
      constructor
      · simp
      · simp
    | some declaration =>
      obtain ⟨b,extent⟩ := declaration
      cases extent <;> simp [handedDown,nearest_some]
end

/-- What a traversal keeps for an open node: the value that its children get, and whether they
    hand it down in turn. -/
@[ext] structure Handed (α : Type*) where
  given : Option α
  all : Bool
  deriving DecidableEq, Repr
namespace Handed
variable {own : Option (α × Extent)} {above : List (Option (α × Extent))}

/-- Nothing is handed down to the roots. -/
def start : Handed α := ⟨none,false⟩
/-- A node is entered. -/
def enter (handed : Handed α) : Option (α × Extent) → Handed α
  | some (_,.nobody) => ⟨none,false⟩
  | some (a,.children) => ⟨some a,false⟩
  | some (a,.descendants) => ⟨some a,true⟩
  | none => ⟨if handed.all then handed.given else none,handed.all⟩
/-- After all nodes of a path have been entered, which lists the last one first. -/
def along (path : List (Option (α × Extent))) : Handed α := path.foldr (fun own handed => handed.enter own) start

@[simp] theorem along_cons : along (own :: above) = (along above).enter own := rfl
/-- Behind a node that declares nothing, only a value for all nodes below is left. -/
theorem along_above : (if (along above).all then (along above).given else none) = fromAbove above := by
  induction above with
  | nil => rfl
  | cons own above ih =>
    cases own with
    | none =>
      rw [fromAbove,← ih,along_cons,enter]
      cases (along above).all <;> simp
    | some declaration =>
      obtain ⟨a,extent⟩ := declaration
      cases extent <;> rfl
theorem along_given : (along above).given = handedDown above := by
  cases above with
  | nil => rfl
  | cons own above =>
    cases own with
    | none => exact along_above
    | some declaration =>
      obtain ⟨a,extent⟩ := declaration
      cases extent <;> rfl

end Handed
end TestEnvironment.Lib
