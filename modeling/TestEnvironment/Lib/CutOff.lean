import TestEnvironment.Lib.Strings

/-!
Formats that end within a conversion. Where a scanner leaves a format depends on which texts behind a `%` it
cannot pass, and on where it goes on behind the others.
-/
namespace TestEnvironment.Lib

/-- The format is cut off, at a cost for the conversions up to there. -/
inductive CutOff (fails : CStr → Nat → Prop) (passes : CStr → CStr → Nat → Prop) : Nat → CStr → Prop
  | here {cost : Nat} {s : CStr} (cut : fails s cost) : CutOff fails passes cost ('%' :: s)
  | text {n : Nat} {c : Char} {s : CStr} (plain : c ≠ '%') (later : CutOff fails passes n s) : CutOff fails passes n (c :: s)
  | behind {n cost : Nat} {s rest : CStr} (passed : passes s rest cost) (later : CutOff fails passes n rest) : CutOff fails passes (cost+n) ('%' :: s)
end TestEnvironment.Lib
