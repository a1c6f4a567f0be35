import TestEnvironment.Tad.IntExpr

/-!
What integer expressions mean: their texts and values, and when `tad_int_expr_parse` and
`tad_int_expr_calculate` give these values.
-/
namespace TestEnvironment.Tad
open Lib

/-- An expression of the grammar. -/
inductive Expr
  | const (n : Nat)
  | ref (n : Nat)
  | neg (e : Expr)
  | bin (op : TadExprOp) (a b : Expr)
  deriving DecidableEq, Repr
/-- Decimal, octal and hexadecimal constants. -/
inductive Constant : Nat → CStr → Prop
  | zero : Constant 0 ['0']
  | decimal {t : CStr} : t ≠ [] → (∀ c ∈ t, isDigitIn 10 c = true) → t.head? ≠ some '0' → Constant (numberIn 10 t) t
  | octal {t : CStr} : t ≠ [] → (∀ c ∈ t, isDigitIn 8 c = true) → Constant (numberIn 8 t) ('0' :: t)
  | hex {t : CStr} : t ≠ [] → (∀ c ∈ t, isDigitIn 16 c = true) → Constant (numberIn 16 t) ('0' :: 'x' :: t)
def Spaces (w : CStr) : Prop := ∀ c ∈ w, isspace c = true
def opChar : TadExprOp → Char
  | .ADD => '+'
  | .SUBSTR => '-'
  | .MULT => '*'
  | .DIV => '/'
  | .MOD => '%'
/-- An expression and a text for it. -/
inductive Spells : Expr → CStr → Prop
  | const {n : Nat} {t : CStr} : Constant n t → Spells (.const n) t
  | ref {t : CStr} : t ≠ [] → (∀ c ∈ t, isDigitIn 10 c = true) → Spells (.ref (numberIn 10 t)) ('$' :: t)
  | neg {e : Expr} {t u v w : CStr} : Spaces u → Spaces v → Spells e t → Spaces w → Spells (.neg e) ('(' :: u ++ '-' :: v ++ t ++ w ++ [')'])
  | bin {op : TadExprOp} {a b : Expr} {s t u v w x : CStr} : Spaces u → Spells a s → Spaces v → Spaces w → Spells b t → Spaces x →
      Spells (.bin op a b) ('(' :: u ++ s ++ v ++ opChar op :: w ++ t ++ x ++ [')'])
/-- The constants fit signed integers of so many bits. -/
def ConstsBelow (bound : Nat) : Expr → Prop
  | .const n => n < bound
  | .ref _ => True
  | .neg e => ConstsBelow bound e
  | .bin _ a b => ConstsBelow bound a ∧ ConstsBelow bound b
def RefsBelow (bound : Nat) : Expr → Prop
  | .const _ => True
  | .ref n => n < bound
  | .neg e => RefsBelow bound e
  | .bin _ a b => RefsBelow bound a ∧ RefsBelow bound b
theorem constsBelow_const {bound n : Nat} : ConstsBelow bound (.const n) ↔ n < bound := Iff.rfl
theorem refsBelow_ref {bound n : Nat} : RefsBelow bound (.ref n) ↔ n < bound := Iff.rfl

section
variable (konst num : Nat → Int) (args : Option (List TadTmplArg))

/-- An operation in two's complement arithmetic; nothing for a zero divisor. -/
def result : TadExprOp → Int → Int → Option Int
  | .ADD, x, y => some (int64 (x+y))
  | .SUBSTR, x, y => some (int64 (x-y))
  | .MULT, x, y => some (int64 (x*y))
  | .DIV, x, y => if y = 0 then none else some (int64 (x.tdiv y))
  | .MOD, x, y => if y = 0 then none else some (int64 (x.tmod y))
/-- The integer that a reference stands for. -/
def argValue (n : Int) : Option Int :=
  if 0 ≤ n then
    match (args.getD [])[n.toNat]? with
    | some (.int v) => some v.toInt
    | _ => none
  else none
/-- The value with constants and reference numbers read as they are given; nothing for an error. -/
def value : Expr → Option Int
  | .const n => some (konst n)
  | .ref n => argValue args (num n)
  | .neg e => (value e).map fun v => int64 (-v)
  | .bin op a b => (value a).bind fun x => (value b).bind fun y => result op x y
/-- No division that is reached is by zero, or of the least number by -1. -/
def Divides : Expr → Prop
  | .const _ => True
  | .ref _ => True
  | .neg e => Divides e
  | .bin op a b => Divides a ∧ ∀ x, value konst num args a = some x → Divides b ∧ ∀ y, value konst num args b = some y →
      op = .DIV ∨ op = .MOD → y ≠ 0 ∧ ¬(x = LLONG_MIN ∧ y = -1)
end

section
variable {konst num : Nat → Int} {args : Option (List TadTmplArg)} {rand : Nat → Int} {e : Expr} {x y : Int}

/-- The tree for an expression. -/
def treeOf (konst num : Nat → Int) : Expr → TadIntExpr
  | .const n => .constant 4 (konst n)
  | .ref n => .arg_link (num n)
  | .neg e => .u_minus (treeOf konst num e)
  | .bin op a b => .binary op (treeOf konst num a) (treeOf konst num b)
def InInt64 (x : Int) : Prop := LLONG_MIN ≤ x ∧ x ≤ LLONG_MAX

theorem int64_range (x : Int) : InInt64 (int64 x) := by grind [InInt64,int64,LLONG_MIN,LLONG_MAX]
theorem int64_self (inside : InInt64 x) : int64 x = x := by
  obtain ⟨low,high⟩ := inside
  rw [LLONG_MIN] at low
  rw [LLONG_MAX] at high
  exact Int.bmod_eq_of_le (by omega) (by omega)
theorem tdiv_range (inside : InInt64 x) (other : ¬(x = LLONG_MIN ∧ y = -1)) : InInt64 (x.tdiv y) := by
  obtain ⟨low,high⟩ := inside
  rw [InInt64,LLONG_MIN,LLONG_MAX] at *
  by_cases zero : y = 0
  · rw [zero,Int.tdiv_zero]
    omega
  by_cases one : y = 1
  · rw [one,Int.tdiv_one]
    omega
  by_cases minus : y = -1
  · rw [minus,Int.tdiv_neg,Int.tdiv_one]
    omega
  · have half : (x.tdiv y).natAbs ≤ x.natAbs/2 := by
      rw [Int.natAbs_tdiv]
      exact Nat.div_le_div_left (by omega) (by decide)
    omega
theorem tmod_range (inside : InInt64 x) (y : Int) : InInt64 (x.tmod y) := by
  obtain ⟨low,high⟩ := inside
  rw [InInt64,LLONG_MIN,LLONG_MAX] at *
  have smaller : (x.tmod y).natAbs ≤ x.natAbs := by
    rw [Int.natAbs_tmod]
    exact Nat.mod_le _ _
  by_cases negative : 0 ≤ x
  · omega
  · have sign : x.tmod y ≤ 0 := by
      have flipped := Int.tmod_nonneg y (show 0 ≤ -x by omega)
      rw [Int.neg_tmod] at flipped
      omega
    omega
theorem argument_value (n : Int) : (argument args n).toOption = argValue args n := by
  cases args with
  | none =>
    rw [argument,argValue]
    split_ifs
    · rfl
    · rfl
  | some args =>
    rw [argument,argValue,getD_some]
    by_cases low : 0 ≤ n
    · rw [if_pos low]
      by_cases high : n ≥ args.length
      · rw [if_pos (.inr high),getElem?_eq_none (by omega)]
        rfl
      · rw [if_neg (by omega)]
        rcases args[n.toNat]? with _ | ⟨v | v | v⟩ <;> rfl
    · rw [if_neg low,if_pos (.inl (by omega))]
      rfl
theorem result_range {op : TadExprOp} {z : Int} (found : result op x y = some z) : InInt64 z := by
  cases op with
  | ADD | SUBSTR | MULT => exact some.inj found ▸ int64_range _
  | DIV | MOD =>
    rw [result] at found
    split_ifs at found
    exact some.inj found ▸ int64_range _
/-- Where the division is defined, the operation of the code is that of the meaning. -/
theorem operate_result {op : TadExprOp} (inside : InInt64 x) (defined : op = .DIV ∨ op = .MOD → y ≠ 0 ∧ ¬(x = LLONG_MIN ∧ y = -1)) :
    operate op x y = result op x y := by
  cases op with
  | ADD => rfl
  | SUBSTR => rfl
  | MULT => rfl
  | DIV =>
    obtain ⟨nonzero,other⟩ := defined (.inl rfl)
    rw [operate,result,if_neg (not_or.mpr ⟨nonzero,other⟩),if_neg nonzero,int64_self (tdiv_range inside other)]
  | MOD =>
    obtain ⟨nonzero,other⟩ := defined (.inr rfl)
    rw [operate,result,if_neg (not_or.mpr ⟨nonzero,other⟩),if_neg nonzero,int64_self (tmod_range inside y)]
theorem result_none {op : TadExprOp} (none' : result op x y = none) : (op = .DIV ∨ op = .MOD) ∧ y = 0 := by
  cases op with
  | ADD => cases none'
  | SUBSTR => cases none'
  | MULT => cases none'
  | DIV =>
    rw [result] at none'
    split_ifs at none' with zero
    exact ⟨.inl rfl,zero⟩
  | MOD =>
    rw [result] at none'
    split_ifs at none' with zero
    exact ⟨.inr rfl,zero⟩
theorem operate_undefined {op : TadExprOp} (undefined' : ¬(op = .DIV ∨ op = .MOD → y ≠ 0 ∧ ¬(x = LLONG_MIN ∧ y = -1))) :
    operate op x y = none := by
  obtain ⟨division,wrong⟩ := Classical.not_imp.mp undefined'
  have here : y = 0 ∨ (x = LLONG_MIN ∧ y = -1) := by omega
  obtain rfl | rfl := division
  · rw [operate,if_pos here]
  · rw [operate,if_pos here]
variable (readings : ∀ n, InInt64 (konst n))
include readings

theorem value_range {v : Int} (found : value konst num args e = some v) : InInt64 v := by
  cases e with
  | const n => exact some.inj found ▸ readings n
  | ref n => grind [value,argValue,InInt64,LLONG_MIN,LLONG_MAX]
  | neg e =>
    rw [value] at found
    obtain ⟨x,-,rfl⟩ := of_map found
    exact int64_range _
  | bin op a b =>
    rw [value] at found
    obtain ⟨x,-,found⟩ := of_bind found
    obtain ⟨y,-,found⟩ := of_bind found
    exact result_range found
/-- Calculation of the tree for an expression ends with its value or an error where every division is defined. -/
theorem calculate_defined (defined : Divides konst num args e) (calls : Nat) :
    ∃ r, tad_int_expr_calculate args rand (treeOf konst num e) calls = some (r,calls) ∧ r.toOption = value konst num args e := by
  induction e generalizing calls with
  | const n => exact ⟨_,rfl,rfl⟩
  | ref n => exact ⟨_,rfl,argument_value _⟩
  | neg e ih =>
    obtain ⟨r,ran,same⟩ := ih defined calls
    refine ⟨r.map fun r1 => int64 (-r1),by rw [treeOf,tad_int_expr_calculate,ran]; rfl,?_⟩
    rw [value,← same]
    cases r <;> rfl
  | bin op a b iha ihb =>
    obtain ⟨left,right⟩ := defined
    obtain ⟨r,ran,same⟩ := iha left calls
    rw [treeOf,tad_int_expr_calculate,ran,bind_some,value,← same]
    cases r with
    | error rc => exact ⟨_,rfl,rfl⟩
    | ok x =>
      obtain ⟨defined,divides⟩ := right x same.symm
      obtain ⟨r',ran',same'⟩ := ihb defined calls
      dsimp only
      rw [ran',bind_some,← same']
      cases r' with
      | error rc => exact ⟨_,rfl,rfl⟩
      | ok y =>
        dsimp only
        rw [operate_result (value_range readings same.symm) (divides y same'.symm)]
        show ∃ r : Except TadCalcError Int, (result op x y).map (fun z => (Except.ok z,calls)) = some (r,calls) ∧ r.toOption = result op x y
        cases found : result op x y with
        | none =>
          obtain ⟨division,zero⟩ := result_none found
          exact absurd zero (divides y same'.symm division).1
        | some z => exact ⟨.ok z,rfl,rfl⟩
/-- Calculation has no result where a division that is reached is not defined. -/
theorem calculate_undefined (undefined' : ¬ Divides konst num args e) (calls : Nat) :
    tad_int_expr_calculate args rand (treeOf konst num e) calls = none := by
  induction e generalizing calls with
  | const n | ref n => exact absurd trivial undefined'
  | neg e ih =>
    rw [treeOf,tad_int_expr_calculate,ih undefined']
    rfl
  | bin op a b iha ihb =>
    rw [treeOf,tad_int_expr_calculate]
    by_cases left : Divides konst num args a
    · obtain ⟨r,ran,same⟩ := @calculate_defined konst num args rand a readings left calls
      rw [ran,bind_some]
      have right := fun rest => undefined' ⟨left,rest⟩
      cases r with
      | error rc =>
        refine absurd (fun x found => ?_) right
        rw [← same] at found
        cases found
      | ok x =>
        dsimp only
        have value' : value konst num args a = some x := same.symm
        by_cases defined : Divides konst num args b
        · obtain ⟨r',ran',same'⟩ := @calculate_defined konst num args rand b readings defined calls
          rw [ran',bind_some]
          cases r' with
          | error rc =>
            refine absurd (fun x' found => ⟨defined,fun y found' => ?_⟩) right
            rw [← same'] at found'
            cases found'
          | ok y =>
            dsimp only
            refine (congrArg (Option.map _) (operate_undefined fun divides => right fun x' found => ⟨defined,fun y' found' => ?_⟩)).trans rfl
            obtain rfl := some.inj (value'.symm.trans found)
            obtain rfl := some.inj (same'.trans found')
            exact divides
        · rw [ihb defined calls]
          rfl
    · rw [iha left calls]
      rfl
end

section
variable {n base fuel : Nat} {e : Expr} {t u w rest string : CStr}

/-- What may stand behind a constant: nothing that could belong to it. -/
def Stop (rest : CStr) : Prop := ∀ c ∈ rest.head?, digitOf c = none

theorem Stop.digit (stop : Stop rest) (base : Nat) : ∀ c ∈ rest.head?, isDigitIn base c = false :=
  fun c head => isDigitIn_of_none (stop c head) base
variable {c : Char}

theorem digitOf_space (space : isspace c = true) : digitOf c = none := by
  by_contra digit
  obtain ⟨d,some'⟩ := ne_none_iff_exists'.mp digit
  have inside : isDigitIn (d+1) c = true := by simp [some',isDigitIn]
  exact Bool.false_ne_true ((digit_plain inside).1.symm.trans space)
theorem Spaces.stop (spaces : Spaces w) (stop : Stop rest) : Stop (w ++ rest) := by
  cases w with
  | nil => exact stop
  | cons c w =>
    rintro d head
    obtain rfl : c = d := some.inj head
    exact digitOf_space (spaces c mem_cons_self)
theorem Stop.cons (other : digitOf c = none) (rest : CStr) : Stop (c :: rest) := by
  rintro d head
  obtain rfl : c = d := some.inj head
  exact other
/-- Digits and what may stand behind them carry no second mark. -/
theorem hexMark_digits (all : ∀ c ∈ t, isDigitIn 16 c = true) (stop : Stop rest) : hexMark (t ++ rest) = false := by
  have next : ∀ l : CStr, (∀ c ∈ l, isDigitIn 16 c = true) → ∀ c ∈ (l ++ rest).head?, c ≠ 'x' ∧ c ≠ 'X' := by
    intro l all c head
    have marks : isDigitIn 16 'x' = false ∧ isDigitIn 16 'X' = false ∧ digitOf 'x' ≠ none ∧ digitOf 'X' ≠ none := by decide
    cases l with
    | nil =>
      have none' := stop c head
      constructor
      · rintro rfl
        exact marks.2.2.1 none'
      · rintro rfl
        exact marks.2.2.2 none'
    | cons d l => grind
  cases t with
  | nil =>
    cases rest with
    | nil => rfl
    | cons c rest =>
      have other : c ≠ '0' := by
        rintro rfl
        exact absurd (stop '0' rfl) (by decide)
      rw [nil_append,hexMark]
      rintro _ _ _ same
      exact other (cons.inj same).1
  | cons c t =>
    have second := next t fun d member => all d (mem_cons_of_mem c member)
    rw [cons_append]
    generalize t ++ rest = behind at second
    rw [hexMark.eq_def]
    split
    · grind
    · rfl
theorem isDigitIn_mono {small big : Nat} (le : small ≤ big) (digit : isDigitIn small c = true) : isDigitIn big c = true := by
  rw [isDigitIn,Option.any_eq_true] at digit ⊢
  obtain ⟨d,found,low⟩ := digit
  exact ⟨d,found,decide_eq_true (by have := of_decide_eq_true low; omega)⟩
theorem strtoll_digits (positive : base ≠ 0) (small : base ≤ 16) (some' : t ≠ []) (all : ∀ c ∈ t, isDigitIn base c = true) (stop : Stop rest) :
    strtoll (t ++ rest) base = (min LLONG_MAX (numberIn base t),rest) := by
  have wide : ∀ c ∈ t, isDigitIn 16 c = true := fun c member => isDigitIn_mono small (all c member)
  have read := readDigits_plain some' (hexMark_digits wide stop) (show baseFor base (t ++ rest) = base by rw [baseFor,if_pos positive]) all
    (stop.digit base)
  have number := @readNumber_digits base base rest t some' all
  rw [strtoll,number,read]
  have low : LLONG_MIN ≤ min LLONG_MAX (numberIn base t : Int) := by
    rw [LLONG_MIN,LLONG_MAX]
    omega
  exact congrArg (·,rest) (Int.max_eq_right low)
theorem head_append {q : Char → Bool} (some' : t ≠ []) (all : ∀ c ∈ t, q c = true) : (t ++ rest).head?.any q = true := by
  cases t with
  | nil => exact absurd rfl some'
  | cons c t => exact all c mem_cons_self
theorem isdigit_of_isDigitIn (small : base ≤ 10) (digit : isDigitIn base c = true) : isdigit c = true := by
  have decimal := isDigitIn_mono small digit
  by_contra other
  rw [isDigitIn,Option.any_eq_true] at decimal
  obtain ⟨d,found,low⟩ := decimal
  have low := of_decide_eq_true low
  have small' : ¬('0' ≤ c ∧ c ≤ '9') := fun both => other (by rw [isdigit,and_eq_true,decide_eq_true_eq,decide_eq_true_eq]; exact both)
  rw [digitOf,if_neg small'] at found
  split_ifs at found with lower upper
  · have le : ('a' : Char).toNat ≤ c.toNat := by simpa [Char.le_def,UInt32.le_iff_toNat_le] using lower.1
    have value := some.inj found
    have mark : ('a' : Char).toNat = 97 := rfl
    omega
  · have le : ('A' : Char).toNat ≤ c.toNat := by simpa [Char.le_def,UInt32.le_iff_toNat_le] using upper.1
    have value := some.inj found
    have mark : ('A' : Char).toNat = 65 := rfl
    omega
/-- The digits of a constant are read to their end. -/
theorem parseConstant_digits {p : CStr} (mark : constantBase p = (base,t ++ rest)) (positive : base ≠ 0) (small : base ≤ 16)
    (some' : t ≠ []) (all : ∀ c ∈ t, isDigitIn base c = true) (stop : Stop rest) (fits : numberIn base t < 2^63) :
    parseConstant p = (.constant 4 (int32 (numberIn base t)),rest) := by
  have inside : min LLONG_MAX (numberIn base t : Int) = numberIn base t := by
    rw [LLONG_MAX]
    omega
  have read := strtoll_digits positive small some' all stop
  rw [inside] at read
  have digits : (t ++ rest).head?.any (isDigitIn 16) = true := head_append some' fun c member => isDigitIn_mono small (all c member)
  rw [parseConstant,mark]
  dsimp only
  rw [if_pos digits,read,if_neg]
  rw [LLONG_MIN,LLONG_MAX]
  dsimp only
  omega
theorem Stop.plain (stop : Stop rest) : rest.head?.any isdigit = false ∧ rest.head? ≠ some 'x' ∧ rest.head?.any (isDigitIn 16) = false := by
  cases rest with
  | nil => exact ⟨rfl,nofun,rfl⟩
  | cons c rest =>
    refine ⟨?_,?_,stop.digit 16 c rfl⟩
    · by_contra digit
      have found := isDigitIn_decimal (Bool.not_eq_false _ ▸ digit : isdigit c = true)
      exact Bool.false_ne_true ((stop.digit 10 c rfl).symm.trans found)
    · intro same
      obtain rfl := some.inj same
      exact absurd (stop 'x' rfl) (by decide)
/-- A constant that fits is read to its end; only 32 bits are kept. -/
theorem parseConstant_spec (constant : Constant n t) (fits : n < 2^63) (stop : Stop rest) :
    parseConstant (t ++ rest) = (.constant 4 (int32 n),rest) ∧ (t ++ rest).head?.any isdigit = true := by
  cases constant with
  | zero =>
    obtain ⟨digit,mark,hex⟩ := stop.plain
    have based : constantBase ('0' :: rest) = (10,rest) := by rw [constantBase,digit,if_neg Bool.false_ne_true,if_neg mark]
    refine ⟨?_,rfl⟩
    rw [cons_append,nil_append,parseConstant,based]
    dsimp only
    rw [hex]
    rfl
  | decimal some' all first =>
    have based : constantBase (t ++ rest) = (10,t ++ rest) := by
      cases t with
      | nil => exact absurd rfl some'
      | cons c t =>
        rw [cons_append,constantBase.eq_def]
        split
        · grind
        · rfl
    exact ⟨parseConstant_digits based (by decide) (by decide) some' all stop fits,
      head_append some' fun c member => isdigit_of_isDigitIn (by decide) (all c member)⟩
  | @octal t some' all =>
    have digit : (t ++ rest).head?.any isdigit = true := head_append some' fun c member => isdigit_of_isDigitIn (by decide) (all c member)
    have based : constantBase ('0' :: (t ++ rest)) = (8,t ++ rest) := by rw [constantBase,if_pos digit]
    exact ⟨parseConstant_digits based (by decide) (by decide) some' all stop fits,rfl⟩
  | @hex t some' all =>
    have based : constantBase ('0' :: 'x' :: (t ++ rest)) = (16,t ++ rest) := rfl
    exact ⟨parseConstant_digits based (by decide) (by decide) some' all stop fits,rfl⟩
theorem Spaces.skip (spaces : Spaces w) (plain : isspace c = false) : (w ++ c :: rest).dropWhile isspace = c :: rest := by
  rw [List.dropWhile_append_of_pos spaces]
  exact dropWhile_cons_of_neg (by rw [plain]; exact Bool.false_ne_true)
/-- No text of an expression starts with a space or a minus. -/
theorem Spells.first (spells : Spells e t) : ∃ c t', t = c :: t' ∧ isspace c = false ∧ c ≠ '-' := by
  cases spells with
  | const constant =>
    cases constant with
    | zero => exact ⟨_,_,rfl,by decide,by decide⟩
    | decimal some' all =>
      obtain ⟨c,t,rfl⟩ := exists_cons_of_ne_nil some'
      have plain := digit_plain (all c mem_cons_self)
      exact ⟨_,_,rfl,plain.1,plain.2.1⟩
    | octal some' all | hex some' all => exact ⟨_,_,rfl,by decide,by decide⟩
  | ref some' all | neg | bin => exact ⟨_,_,rfl,by decide,by decide⟩
theorem Spells.skip (spells : Spells e t) (spaces : Spaces w) : (w ++ (t ++ rest)).dropWhile isspace = t ++ rest := by
  obtain ⟨c,t,rfl,plain,-⟩ := spells.first
  exact spaces.skip plain
theorem opChar_spec (op : TadExprOp) : exprOp (opChar op) = some op ∧ isspace (opChar op) = false ∧ digitOf (opChar op) = none := by
  cases op <;> decide
theorem parsed_self (expr : TadIntExpr) : parsed (t ++ rest) rest expr = .ok (expr,t.length) := by
  rw [parsed,length_append,Nat.add_sub_cancel]
theorem parseClose_spec (spaces : Spaces w) (expr : TadIntExpr) (same : string = t ++ rest) :
    parseClose string (w ++ ')' :: rest) expr = .ok (expr,t.length) := by
  rw [parseClose,spaces.skip (by decide),same]
  exact parsed_self expr

section
variable {p p' q r : CStr} {first second : TadIntExpr} {syms syms' : Nat}

theorem parseExpr_const (dropped : string.dropWhile isspace = p) (digit : p.head?.any isdigit = true) :
    parseExpr (fuel+1) string = parsed string (parseConstant p).2 (parseConstant p).1 := by
  rw [parseExpr,dropped]
  split
  · have other : isdigit '(' = false := by decide
    exact absurd (other.symm.trans digit) Bool.false_ne_true
  · rw [if_pos digit]
theorem parseExpr_ref (dropped : string.dropWhile isspace = '$' :: p) (digit : p.head?.any isdigit = true) :
    parseExpr (fuel+1) string = parsed string (strtoll p 10).2 (.arg_link (int32 (strtoll p 10).1)) := by
  have other : isdigit '$' = false := by decide
  rw [parseExpr,dropped]
  exact (if_neg fun digit => Bool.false_ne_true (other.symm.trans digit)).trans ((if_pos rfl).trans (if_pos digit))
theorem parseExpr_minus (dropped : string.dropWhile isspace = '(' :: p) (minus : p.dropWhile isspace = '-' :: q)
    (behind : q.dropWhile isspace = r) (inner : parseExpr fuel r = .ok (first,syms)) :
    parseExpr (fuel+1) string = parseClose string (r.drop syms) (.u_minus first) := by
  rw [parseExpr]
  split
  · grind
  · rename_i other
    exact absurd dropped (other p)
theorem parseExpr_binary {op : TadExprOp} (dropped : string.dropWhile isspace = '(' :: p) (left : p.dropWhile isspace = r)
    (other : r.head? ≠ some '-') (inner : parseExpr fuel r = .ok (first,syms)) (sign : (r.drop syms).dropWhile isspace = c :: p')
    (known : exprOp c = some op) (behind : p'.dropWhile isspace = q) (inner' : parseExpr fuel q = .ok (second,syms')) :
    parseExpr (fuel+1) string = parseClose string (q.drop syms') (.binary op first second) := by
  rw [parseExpr]
  split
  · grind
  · rename_i other
    exact absurd dropped (other p)
end

/-- Every text of an expression is read to its end, wherever it stands, with its references cut to an `int`. -/
theorem parseExpr_spec (spells : Spells e t) (fits : ConstsBelow (2^63) e) (spaces : Spaces w) (stop : Stop rest) (enough : (w ++ t).length < fuel) :
    parseExpr fuel (w ++ (t ++ rest)) = .ok (treeOf (fun n => int32 n) (fun n => int32 (min LLONG_MAX n)) e,(w ++ t).length) := by
  induction spells generalizing fuel w rest with
  | @const n t constant =>
    obtain ⟨fuel,rfl⟩ := succ_of_lt enough
    obtain ⟨read,digit⟩ := parseConstant_spec constant fits stop
    rw [parseExpr_const ((Spells.const constant).skip spaces) digit,read,← append_assoc]
    exact parsed_self _
  | @ref t some' all =>
    obtain ⟨fuel,rfl⟩ := succ_of_lt enough
    have digit : (t ++ rest).head?.any isdigit = true := head_append some' fun c member => isdigit_of_isDigitIn (by decide) (all c member)
    have dropped : (w ++ ('$' :: t ++ rest)).dropWhile isspace = '$' :: (t ++ rest) := (Spells.ref some' all).skip spaces
    rw [parseExpr_ref dropped digit,strtoll_digits (by decide) (by decide) some' all stop,← append_assoc]
    exact parsed_self _
  | @neg e t u v x us vs spells xs ih =>
    obtain ⟨fuel,rfl⟩ := succ_of_lt enough
    have shape : '(' :: u ++ '-' :: v ++ t ++ x ++ [')'] ++ rest = '(' :: (u ++ '-' :: (v ++ (t ++ (x ++ ')' :: rest)))) := by simp
    have closed : Stop (x ++ ')' :: rest) := xs.stop (.cons (by decide) rest)
    have inner := @ih fuel [] _ fits nofun closed (by simp at enough ⊢; omega)
    rw [nil_append,nil_append] at inner
    rw [shape,parseExpr_minus (spaces.skip (by decide)) (us.skip (by decide)) (spells.skip vs) inner,drop_left]
    exact parseClose_spec xs _ (by simp)
  | @bin op a b s t u v x y us first vs xs second ys iha ihb =>
    obtain ⟨fuel,rfl⟩ := succ_of_lt enough
    obtain ⟨known,plain,other⟩ := opChar_spec op
    have shape : '(' :: u ++ s ++ v ++ opChar op :: x ++ t ++ y ++ [')'] ++ rest =
        '(' :: (u ++ (s ++ (v ++ opChar op :: (x ++ (t ++ (y ++ ')' :: rest)))))) := by simp
    have left := @iha fuel [] (v ++ opChar op :: (x ++ (t ++ (y ++ ')' :: rest)))) fits.1 nofun
      (vs.stop (.cons other _)) (by simp at enough ⊢; omega)
    have right := @ihb fuel [] (y ++ ')' :: rest) fits.2 nofun (ys.stop (.cons (by decide) rest))
      (by simp at enough ⊢; omega)
    rw [nil_append,nil_append] at left right
    have start : (s ++ (v ++ opChar op :: (x ++ (t ++ (y ++ ')' :: rest))))).head? ≠ some '-' := by
      obtain ⟨c,s,rfl,-,minus⟩ := first.first
      exact fun same => minus (some.inj same)
    rw [shape,parseExpr_binary (spaces.skip (by decide)) (first.skip us) start left (by rw [drop_left]; exact vs.skip plain) known
      (second.skip xs) right,drop_left]
    exact parseClose_spec ys _ (by simp)
end

section
variable {e : Expr} {t w rest : CStr} {args : Option (List TadTmplArg)} {rand : Nat → Int} {calls n : Nat}

/-- An expression behind white space is read to its end, and calculation ends with its value, or with an error
where there is none. -/
def Means (e : Expr) (t w rest : CStr) (args : Option (List TadTmplArg)) (rand : Nat → Int) (calls : Nat) : Prop :=
  ∃ expr r calls', tad_int_expr_parse (w ++ (t ++ rest)) = .ok (expr,(w ++ t).length) ∧
    tad_int_expr_calculate args rand expr calls = some (r,calls') ∧ r.toOption = value (fun n => n) (fun n => n) args e
/-- Constants and references as they are kept: their low 32 bits. -/
def keptConst (n : Nat) : Int := int32 n
def keptRef (n : Nat) : Int := int32 (min LLONG_MAX n)

theorem int32_range (x : Int) : -2^31 ≤ int32 x ∧ int32 x < 2^31 := by grind [int32]
theorem keptConst_range (n : Nat) : InInt64 (keptConst n) := by
  have range := int32_range n
  rw [InInt64,LLONG_MIN,LLONG_MAX,keptConst]
  omega
theorem keptConst_self : keptConst n = n ↔ n < 2^31 := by grind [keptConst,int32]
theorem keptRef_self (small : n < 2^31) : keptRef n = n := by
  have inside : min LLONG_MAX (n : Int) = n := by
    rw [LLONG_MAX]
    omega
  rw [keptRef,inside,← keptConst]
  exact keptConst_self.mpr small
/-- Numbers below 2^31 are kept, so that nothing changes where there are no others. -/
theorem value_kept (consts : ConstsBelow (2^31) e) (refs : RefsBelow (2^31) e) :
    value keptConst keptRef args e = value (fun n => n) (fun n => n) args e ∧
      (Divides keptConst keptRef args e ↔ Divides (fun n => n) (fun n => n) args e) := by
  induction e with
  | const n =>
    rw [constsBelow_const] at consts
    exact ⟨by rw [value,value,keptConst_self.mpr consts],by rw [Divides,Divides]⟩
  | ref n =>
    rw [refsBelow_ref] at refs
    exact ⟨by rw [value,value,keptRef_self refs],by rw [Divides,Divides]⟩
  | neg e ih =>
    obtain ⟨same,divides⟩ := ih consts refs
    exact ⟨by rw [value,value,same],divides⟩
  | bin op a b iha ihb =>
    obtain ⟨left,dividesLeft⟩ := iha consts.1 refs.1
    obtain ⟨right,dividesRight⟩ := ihb consts.2 refs.2
    exact ⟨by rw [value,value,left,right],by rw [Divides,Divides,left,right,dividesLeft,dividesRight]⟩
/-- What the parser and the calculation do together. -/
theorem means_kept (spells : Spells e t) (fits : ConstsBelow (2^63) e) (spaces : Spaces w) (stop : Stop rest) :
    Means e t w rest args rand calls ↔
      Divides keptConst keptRef args e ∧ value keptConst keptRef args e = value (fun n => n) (fun n => n) args e := by
  have parsed' : tad_int_expr_parse (w ++ (t ++ rest)) = .ok (treeOf keptConst keptRef e,(w ++ t).length) :=
    parseExpr_spec spells fits spaces stop (by rw [length_append,length_append,length_append]; omega)
  constructor
  · rintro ⟨expr,r,calls',parse,ran,same⟩
    obtain ⟨rfl,-⟩ := Prod.mk.inj (ok.inj (parsed'.symm.trans parse))
    by_cases defined : Divides keptConst keptRef args e
    · obtain ⟨r',ran',same'⟩ := @calculate_defined _ _ _ rand _ keptConst_range defined calls
      obtain ⟨rfl,-⟩ := of_pair (ran'.symm.trans ran)
      exact ⟨defined,same'.symm.trans same⟩
    · rw [calculate_undefined keptConst_range defined] at ran
      cases ran
  · rintro ⟨defined,same⟩
    obtain ⟨r,ran,same'⟩ := @calculate_defined _ _ _ rand _ keptConst_range defined calls
    exact ⟨_,r,calls,parsed',ran,same'.trans same⟩

/-- An expression means what it says exactly where its value survives cutting its constants and references to
32 bits and every division that is reached is defined. Where all of them are below 2^31, only the divisions
remain; a constant alone has to be below 2^31. -/
theorem int_expr_means_iff (spells : Spells e t) (fits : ConstsBelow (2^63) e) (spaces : Spaces w) (stop : Stop rest) :
    (Means e t w rest args rand calls ↔
      Divides keptConst keptRef args e ∧ value keptConst keptRef args e = value (fun n => n) (fun n => n) args e) ∧
    (ConstsBelow (2^31) e → RefsBelow (2^31) e → (Means e t w rest args rand calls ↔ Divides (fun n => n) (fun n => n) args e)) ∧
    ∀ n, e = .const n → (Means e t w rest args rand calls ↔ n < 2^31) := by
  refine ⟨means_kept spells fits spaces stop,fun consts refs => ?_,?_⟩
  · obtain ⟨same,divides⟩ := @value_kept e args consts refs
    rw [means_kept spells fits spaces stop,divides]
    exact and_iff_left same
  · rintro n rfl
    rw [means_kept spells fits spaces stop,← keptConst_self]
    exact (iff_of_eq (true_and _)).trans some_inj
/-- `( $0 / 0x2 )`, where the argument is 7. -/
theorem int_expr_means_iff_quotient :
    Means (.bin .DIV (.ref 0) (.const 2)) "( $0 / 0x2 )".toList [' '] [] (some [.int 7]) (fun _ => 0) 0 ↔
      Divides (fun n => n) (fun n => n) (some [.int 7]) (.bin .DIV (.ref 0) (.const 2)) :=
  have left : Spells (.ref 0) ['$','0'] := .ref (t := ['0']) nofun (all_eq_true.mp (by decide))
  have right : Spells (.const 2) ['0','x','2'] := .const (.hex (t := ['2']) nofun (all_eq_true.mp (by decide)))
  have blank : Spaces [' '] := all_eq_true.mp (by decide)
  have stop : Stop [] := fun _ empty => nomatch empty
  (int_expr_means_iff (.bin blank left blank blank right blank) ⟨trivial,constsBelow_const.mpr (by omega)⟩ blank stop).2.1
    ⟨trivial,constsBelow_const.mpr (by omega)⟩ ⟨refsBelow_ref.mpr (by omega),trivial⟩
/-- A constant of 32 bits, which a signed integer of 64 bits holds, becomes negative, and a divisor 0 ends the program. -/
theorem constant_cut :
    Spells (.const 2147483648) "2147483648".toList ∧ ConstsBelow (2^63) (.const 2147483648) ∧
    tad_int_expr_parse "2147483648".toList = .ok (.constant 4 (-2147483648),10) ∧
    tad_int_expr_calculate none (fun _ => 0) (.constant 4 (-2147483648)) 0 = some (.ok (-2147483648),0) ∧
    ¬ Means (.const 2147483648) "2147483648".toList [] [] none (fun _ => 0) 0 ∧
    tad_int_expr_parse "(1/0)".toList = .ok (.binary .DIV (.constant 4 1) (.constant 4 0),5) ∧
    tad_int_expr_calculate none (fun _ => 0) (.binary .DIV (.constant 4 1) (.constant 4 0)) 0 = none := by
  have constant : Constant (numberIn 10 "2147483648".toList) "2147483648".toList := .decimal (by decide) (all_eq_true.mp (by decide)) (by decide)
  have spells : Spells (.const 2147483648) "2147483648".toList := .const constant
  have read : tad_int_expr_parse "2147483648".toList = .ok (.constant 4 (-2147483648),10) := by decide +kernel
  refine ⟨spells,constsBelow_const.mpr (by omega),read,rfl,?_,by decide +kernel,rfl⟩
  rintro ⟨expr,r,calls',parse,ran,same⟩
  obtain ⟨rfl,-⟩ := Prod.mk.inj (ok.inj (read.symm.trans parse))
  obtain ⟨rfl,-⟩ := of_pair ran
  exact absurd same (by decide)
end
end TestEnvironment.Tad
