import TestEnvironment.Lib.Decimal

/-!
Numerals in any base up to 36, as `strtol` and its relatives read them.
-/
namespace TestEnvironment.Lib

def digitOf (c : Char) : Option Nat :=
  if '0' ≤ c ∧ c ≤ '9' then some (c.toNat-48)
  else if 'a' ≤ c ∧ c ≤ 'z' then some (c.toNat-87)
  else if 'A' ≤ c ∧ c ≤ 'Z' then some (c.toNat-55)
  else none
def isDigitIn (base : Nat) (c : Char) : Bool := (digitOf c).any (· < base)
/-- The number that digits make. -/
def numberIn (base : Nat) (digits : CStr) : Nat := digits.foldl (fun n c => base*n+(digitOf c).getD 0) 0
/-- A mark of base 16 with a digit behind it. -/
def hexMark : CStr → Bool
  | '0' :: x :: d :: _ => (x = 'x' || x = 'X') && isDigitIn 16 d
  | _ => false
/-- The base that is used where `base` is asked for, which 0 leaves to the text. -/
def baseFor (base : Nat) (t : CStr) : Nat :=
  if base ≠ 0 then base else if hexMark t then 16 else if t.head? = some '0' then 8 else 10
def skipMark (base : Nat) (t : CStr) : CStr := if (base = 0 ∨ base = 16) ∧ hexMark t then t.drop 2 else t
/-- The number behind a sign and the text behind it, or nothing where there is no digit. -/
def readDigits (base : Nat) (t : CStr) : Option (Nat × CStr) :=
  let digits := (skipMark base t).takeWhile (isDigitIn (baseFor base t))
  if digits = [] then none else some (numberIn (baseFor base t) digits,(skipMark base t).drop digits.length)
/-- What `strtol(str, &endptr, base)` reads, before it is put into the range of the type: the number and
the text at `endptr`, or nothing where there is no number. -/
def readNumber (base : Nat) (str : CStr) : Option (Int × CStr) :=
  let t := str.dropWhile isspace
  if t.head? = some '-' then (readDigits base (t.drop 1)).map fun read => (-(read.1 : Int),read.2)
  else (readDigits base (if t.head? = some '+' then t.drop 1 else t)).map fun read => ((read.1 : Int),read.2)

section
variable {c : Char} {base : Nat} {digits rest : CStr}

theorem digitOf_decimal (digit : isdigit c = true) : digitOf c = some (digitValue c) := by simp_all [isdigit,digitOf,digitValue]
theorem digitValue_lt (digit : isdigit c = true) : digitValue c < 10 := by
  simp only [isdigit,and_eq_true,decide_eq_true_eq,Char.le_def,UInt32.le_iff_toNat_le] at digit
  have high : c.toNat ≤ 57 := digit.2
  rw [digitValue]
  omega
theorem isDigitIn_decimal (digit : isdigit c = true) : isDigitIn 10 c = true := by
  rw [isDigitIn,digitOf_decimal digit]
  exact decide_eq_true (digitValue_lt digit)
theorem isDigitIn_of_none (other : digitOf c = none) (base : Nat) : isDigitIn base c = false := by
  rw [isDigitIn,other]
  rfl
theorem numberIn_decimal (all : ∀ c ∈ digits, isdigit c = true) : numberIn 10 digits = digitsNumber digits := by
  rw [numberIn,digitsNumber]
  refine List.foldl_ext _ _ _ fun n c mem => ?_
  rw [digitOf_decimal (all c mem),getD_some]
/-- Digits are read up to the first character that is none. -/
theorem takeWhile_digits (all : ∀ c ∈ digits, isDigitIn base c = true) (stop : ∀ c ∈ rest.head?, isDigitIn base c = false) :
    (digits ++ rest).takeWhile (isDigitIn base) = digits := by
  rw [List.takeWhile_append_of_pos all]
  cases rest with
  | nil => simp
  | cons c rest => simp [stop c rfl]
/-- No digit is a space or a sign. -/
theorem digit_plain (digit : isDigitIn base c = true) : isspace c = false ∧ c ≠ '-' ∧ c ≠ '+' := by
  refine ⟨?_,?_,?_⟩
  · by_contra space
    have low : c.toNat ≤ 32 := by
      rw [Bool.not_eq_false,isspace,or_eq_true,decide_eq_true_eq,and_eq_true,decide_eq_true_eq,decide_eq_true_eq] at space
      obtain blank | control := space
      · rw [blank]
        decide
      · omega
    have none : digitOf c = none := by
      have below : ∀ d : Char, 32 < d.toNat → ¬ d ≤ c := fun d high le => by
        rw [Char.le_def,UInt32.le_iff_toNat_le] at le
        have : d.toNat ≤ c.toNat := le
        omega
      rw [digitOf,if_neg (fun h => below '0' (by decide) h.1),if_neg (fun h => below 'a' (by decide) h.1),
        if_neg (fun h => below 'A' (by decide) h.1)]
    rw [isDigitIn_of_none none] at digit
    exact absurd digit (by decide)
  · rintro rfl
    exact absurd digit (by rw [isDigitIn_of_none (by decide)]; decide)
  · rintro rfl
    exact absurd digit (by rw [isDigitIn_of_none (by decide)]; decide)
end

section
variable {base n : Nat} {str rest digits : CStr} {z : Int}

theorem readDigits_shorter (read : readDigits base str = some (n,rest)) : rest.length < str.length := by
  have unmarked : (skipMark base str).length ≤ str.length := by
    rw [skipMark]
    split_ifs
    · rw [length_drop]
      omega
    · exact le_rfl
  rw [readDigits] at read
  split_ifs at read with empty
  obtain ⟨-,rfl⟩ := of_pair read
  have some' := List.length_pos_of_ne_nil empty
  have within := (@List.takeWhile_sublist _ (skipMark base str) (isDigitIn (baseFor base str))).length_le
  rw [length_drop]
  omega
/-- What is read is in front of the text that is left. -/
theorem readNumber_shorter (read : readNumber base str = some (z,rest)) : rest.length < str.length := by
  have skipped : (str.dropWhile isspace).length ≤ str.length := (dropWhile_sublist _).length_le
  rw [readNumber] at read
  split_ifs at read with minus plus
  all_goals
    obtain ⟨⟨m,rest'⟩,digits,same⟩ := of_map read
    obtain rfl : rest' = rest := (Prod.mk.inj same).2
    have shorter := readDigits_shorter digits
  · rw [length_drop] at shorter
    omega
  · rw [length_drop] at shorter
    omega
  · omega
/-- A text without a mark is read in the base that it is given. -/
theorem readDigits_plain (some' : digits ≠ []) (unmarked : hexMark (digits ++ rest) = false) (start : baseFor base (digits ++ rest) = n)
    (all : ∀ c ∈ digits, isDigitIn n c = true) (stop : ∀ c ∈ rest.head?, isDigitIn n c = false) :
    readDigits base (digits ++ rest) = some (numberIn n digits,rest) := by
  have same : skipMark base (digits ++ rest) = digits ++ rest := by
    rw [skipMark,if_neg (by simp [unmarked])]
  rw [readDigits,same,start,takeWhile_digits all stop]
  rw [if_neg some',drop_left]
/-- A number without a sign and without spaces in front of it. -/
theorem readNumber_digits (some' : digits ≠ []) (all : ∀ c ∈ digits, isDigitIn n c = true) :
    readNumber base (digits ++ rest) = (readDigits base (digits ++ rest)).map fun read => ((read.1 : Int),read.2) := by
  obtain ⟨d,more,rfl⟩ := exists_cons_of_ne_nil some'
  obtain ⟨space,minus,plus⟩ := digit_plain (all d mem_cons_self)
  have spaces : (d :: more ++ rest).dropWhile isspace = d :: more ++ rest := by simp [space]
  rw [readNumber,spaces]
  rw [cons_append,head?_cons,if_neg (by simpa using minus),if_neg (by simpa using plus)]
/-- The digits of a number are read back in base 0. -/
theorem readDigits_natText (n : Nat) (stop : ∀ c ∈ rest.head?, digitOf c = none) : readDigits 0 (natText n ++ rest) = some (n,rest) := by
  have stopIn : ∀ b, ∀ c ∈ rest.head?, isDigitIn b c = false := fun b c head => isDigitIn_of_none (stop c head) b
  obtain rfl | positive := Nat.eq_zero_or_pos n
  · have text : natText 0 = ['0'] := natText_small (by decide)
    have unmarked : hexMark (['0'] ++ rest) = false := by
      cases rest with
      | nil => rfl
      | cons c rest =>
        have other := stop c rfl
        have lower : c ≠ 'x' := by rintro rfl; exact absurd other (by decide)
        have upper : c ≠ 'X' := by rintro rfl; exact absurd other (by decide)
        cases rest with
        | nil => rfl
        | cons d rest => simp [hexMark,lower,upper]
    rw [text,readDigits_plain (cons_ne_nil _ _) unmarked
      (show baseFor 0 (['0'] ++ rest) = 8 by rw [baseFor,unmarked]; rfl)
      (fun c member => by rw [mem_singleton.mp member]; decide) (stopIn 8)]
    rfl
  · obtain ⟨d,ds,text,low,high⟩ := natText_first positive
    have nonzero : d ≠ '0' := by rintro rfl; exact absurd low (by decide)
    have unmarked : hexMark (natText n ++ rest) = false := by
      rw [text,cons_append,hexMark]
      rintro _ _ _ same
      exact nonzero (cons.inj same).1
    have decimal : baseFor 0 (natText n ++ rest) = 10 := by
      rw [baseFor,unmarked,text]
      simp [nonzero]
    rw [readDigits_plain (natText_nonempty n) unmarked decimal (fun c mem => isDigitIn_decimal (natText_digits n c mem)) (stopIn 10),
      numberIn_decimal (natText_digits n),natText_number]
/-- The text of a number is read back in base 0. -/
theorem readNumber_intText (z : Int) (stop : ∀ c ∈ rest.head?, digitOf c = none) : readNumber 0 (intText z ++ rest) = some (z,rest) := by
  by_cases negative : z < 0
  · rw [intText,if_pos negative,cons_append,readNumber]
    have spaces : ('-' :: (natText z.natAbs ++ rest)).dropWhile isspace = '-' :: (natText z.natAbs ++ rest) := by simp [isspace]
    rw [spaces]
    rw [head?_cons,if_pos rfl,List.drop_one,tail_cons,readDigits_natText _ stop,map_some]
    have same : -(z.natAbs : Int) = z := by omega
    rw [same]
  · rw [intText,if_neg negative,readNumber_digits (natText_nonempty _) fun c mem => isDigitIn_decimal (natText_digits _ c mem),
      readDigits_natText _ stop,map_some]
    have same : (z.natAbs : Int) = z := by omega
    rw [same]
end
end TestEnvironment.Lib
