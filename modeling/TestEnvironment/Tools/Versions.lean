import TestEnvironment.Lib.Decimal
import TestEnvironment.Tools.LogicExpr

/-!
Comparison of version strings (`check_version_consistency` and `te_str_compare_versions` of
`te_str.c`) against the lexicographic order of their components.
-/
namespace TestEnvironment.Tools
open Lib

section
inductive VersionError | TE_EINVAL | TE_ERANGE
  deriving DecidableEq, Repr

def TE_STR_VERSION_DELIMETER : Char := '.'
/-- The loop of `check_version_consistency`: whether no error is found. -/
def versionChars : CStr → Bool
  | [] => true
  | c :: v =>
    if ¬ isdigit c ∧ c ≠ TE_STR_VERSION_DELIMETER then false
    else if c = TE_STR_VERSION_DELIMETER ∧ v.head? = some TE_STR_VERSION_DELIMETER then false
    else versionChars v
def check_version_consistency (v : CStr) : Except VersionError Unit :=
  if v = [] then .ok ()
  else if ¬ v.head?.any isdigit then .error .TE_EINVAL
  else if ¬ versionChars v then .error .TE_EINVAL
  else if v.getLast? = some TE_STR_VERSION_DELIMETER then .error .TE_EINVAL
  else .ok ()
/-- `te_strtol_raw` with base 10: the number and the text at `endptr`. -/
def te_strtol_raw (str : CStr) : Except VersionError (Int × CStr) :=
  let t := str.dropWhile isspace
  let negative := t.head? = some '-'
  let t := if negative ∨ t.head? = some '+' then t.drop 1 else t
  let digits := t.takeWhile isdigit
  if digits = [] then .error .TE_EINVAL
  else
    let n : Int := if negative then -digitsNumber digits else digitsNumber digits
    if LONG_MIN ≤ n ∧ n ≤ LONG_MAX then .ok (n,t.drop digits.length) else .error .TE_ERANGE
/-- The loop of `te_str_compare_versions`. The pointer to the end moves behind a delimiter. -/
def compareLoop : Nat → CStr → CStr → Except VersionError Int
  | 0, _, _ => .ok 0
  | fuel+1, v1, v2 =>
    if v1 ≠ [] ∧ v2 ≠ [] then do
      let (value1,end_ptr1) ← te_strtol_raw v1
      let (value2,end_ptr2) ← te_strtol_raw v2
      let res := toInt (value1-value2)
      if res ≠ 0 then .ok res else compareLoop fuel (end_ptr1.drop 1) (end_ptr2.drop 1)
    else .ok (if v1 ≠ [] then 1 else if v2 ≠ [] then -1 else 0)
/-- The result by its status and `*res`; every turn reads a component of both. -/
def te_str_compare_versions (v1 v2 : CStr) : Except VersionError Int := do
  check_version_consistency v1
  check_version_consistency v2
  compareLoop (v1.length+1) v1 v2
end

section
/-- The components between the delimiters. -/
def components (v : CStr) : List Nat := (strtok TE_STR_VERSION_DELIMETER v).map digitsNumber
def ComponentsFit (v : CStr) : Prop := ∀ n ∈ components v, (n : Int) ≤ LONG_MAX
instance (v : CStr) : Decidable (ComponentsFit v) := inferInstanceAs (Decidable (∀ n ∈ components v, (n : Int) ≤ LONG_MAX))

def Digits (digits : CStr) : Prop := digits ≠ [] ∧ ∀ c ∈ digits, isdigit c = true
/-- A version with its components. -/
inductive Version : CStr → List Nat → Prop
  | empty : Version [] []
  | last {digits : CStr} (number : Digits digits) : Version digits [digitsNumber digits]
  | more {digits v : CStr} {ns : List Nat} (number : Digits digits) (rest : Version v ns) (some' : v ≠ []) :
    Version (digits ++ TE_STR_VERSION_DELIMETER :: v) (digitsNumber digits :: ns)

variable {v digits : CStr} {ns : List Nat}

theorem Digits.no_delimiter (number : Digits digits) : TE_STR_VERSION_DELIMETER ∉ digits := by
  intro member
  have digit := number.2 _ member
  exact absurd digit (by decide)
theorem Version.components (version : Version v ns) : components v = ns := by
  induction version with
  | empty => rfl
  | last number => rw [Tools.components,strtok_token number.no_delimiter number.1]; rfl
  | more number _ _ ih =>
    rw [Tools.components] at ih ⊢
    rw [strtok_append,strtok_token number.no_delimiter number.1,map_append,ih]
    rfl
theorem versionChars_drop (front : CStr) (chars : versionChars (front ++ v) = true) : versionChars v = true := by
  induction front with
  | nil => exact chars
  | cons c front ih =>
    rw [cons_append,versionChars] at chars
    split_ifs at chars
    exact ih chars
/-- What passes the check is digits between single delimiters. -/
theorem version_of_chars (start : v.head?.any isdigit = true) (chars : versionChars v = true)
    (stop : v.getLast? ≠ some TE_STR_VERSION_DELIMETER) : ∃ ns, Version v ns := by
  induction length : v.length using Nat.strong_induction_on generalizing v with
  | _ size ih =>
    have split := takeWhile_append_dropWhile (p := isdigit) (l := v)
    have all : ∀ c ∈ v.takeWhile isdigit, isdigit c = true := fun c member => List.mem_takeWhile_imp member
    have nonempty : v.takeWhile isdigit ≠ [] := by
      cases v with
      | nil => simp at start
      | cons c v => simp_all
    cases behind : v.dropWhile isdigit with
    | nil =>
      rw [behind,append_nil] at split
      exact ⟨_,split ▸ Version.last ⟨nonempty,all⟩⟩
    | cons d rest =>
      have other : isdigit d = false := by
        have first := List.head?_dropWhile_not isdigit v
        rw [behind] at first
        simpa using first
      rw [behind] at split
      have tail : versionChars (d :: rest) = true := versionChars_drop (v.takeWhile isdigit) (split.symm ▸ chars)
      rw [versionChars] at tail
      split_ifs at tail with bad two
      obtain rfl : d = TE_STR_VERSION_DELIMETER := by simpa [other] using bad
      have more : rest ≠ [] := by
        rintro rfl
        rw [← split] at stop
        simp at stop
      have first : rest.head?.any isdigit = true := by
        cases rest with
        | nil => exact absurd rfl more
        | cons c rest =>
          have single : c ≠ TE_STR_VERSION_DELIMETER := fun same => two ⟨rfl,by simp [same]⟩
          rw [versionChars] at tail
          split_ifs at tail with odd
          simp only [not_and_or,not_not,Bool.not_eq_true] at odd
          simpa using odd.resolve_right single
      have shorter : rest.length < size := by grind
      obtain ⟨ns,version⟩ := ih rest.length shorter first tail (by
        rw [← split,List.getLast?_append_of_ne_nil _ (cons_ne_nil _ _),List.getLast?_cons_of_ne_nil more] at stop
        exact stop) rfl
      exact ⟨_,split ▸ Version.more ⟨nonempty,all⟩ version more⟩
theorem version_of_check (consistent : check_version_consistency v = .ok ()) : Version v (components v) := by
  have some' : ∃ ns, Version v ns := by
    rw [check_version_consistency] at consistent
    split_ifs at consistent with empty start chars stop
    · exact ⟨[],empty ▸ .empty⟩
    · exact version_of_chars start chars stop
  obtain ⟨ns,version⟩ := some'
  exact version.components ▸ version
/-- Of a version the number before the first delimiter is read. -/
theorem te_strtol_raw_digits (number : Digits digits) (fits : (digitsNumber digits : Int) ≤ LONG_MAX) {rest : CStr}
    (stop : ∀ c ∈ rest.head?, isdigit c = false) : te_strtol_raw (digits ++ rest) = .ok (digitsNumber digits,rest) := by
  obtain ⟨d,more,rfl⟩ := exists_cons_of_ne_nil number.1
  have first := number.2 d mem_cons_self
  have plain : isspace d = false ∧ d ≠ '-' ∧ d ≠ '+' := by
    refine ⟨?_,?_,?_⟩
    · have low : 48 ≤ d.toNat := by simp_all [Char.le_def,UInt32.le_iff_toNat_le,isdigit]
      have blank : d ≠ ' ' := by rintro rfl; exact absurd low (by decide)
      simp only [isspace,blank,decide_false,Bool.false_or,Bool.and_eq_false_iff,decide_eq_false_iff_not]
      exact .inr (by omega)
    · rintro rfl; exact absurd first (by decide)
    · rintro rfl; exact absurd first (by decide)
  have whole : (d :: more ++ rest).takeWhile isdigit = d :: more := by
    rw [List.takeWhile_append_of_pos number.2]
    cases rest with
    | nil => simp
    | cons c rest => simp [stop c rfl]
  have low : LONG_MIN ≤ (digitsNumber (d :: more) : Int) := by
    have : LONG_MIN ≤ 0 := by decide
    omega
  have spaces : (d :: more ++ rest).dropWhile isspace = d :: more ++ rest := by simp [plain.1]
  rw [te_strtol_raw,spaces]
  simp only [cons_append,head?_cons,some_inj,plain.2.1,plain.2.2,or_self,if_false] at whole ⊢
  rw [whole,if_neg (cons_ne_nil _ _),if_pos ⟨low,fits⟩]
  simp
/-- The first component is read, and the pointer stands at the next one. -/
theorem Version.step {n : Nat} (version : Version v (n :: ns)) (fits : (n : Int) ≤ LONG_MAX) :
    v ≠ [] ∧ ∃ end_ptr, te_strtol_raw v = .ok (n,end_ptr) ∧ Version (end_ptr.drop 1) ns := by
  cases version with
  | last number =>
    have read := @te_strtol_raw_digits _ number fits [] (by simp)
    rw [append_nil] at read
    exact ⟨number.1,[],read,.empty⟩
  | more number rest _ =>
    refine ⟨by simp,_,te_strtol_raw_digits number fits (fun c first => ?_),rest⟩
    obtain rfl : TE_STR_VERSION_DELIMETER = c := by simpa using first
    decide
theorem Version.length (version : Version v ns) : ns.length ≤ v.length := by
  induction version with
  | empty => exact le_rfl
  | last number => exact length_pos_iff.mpr number.1
  | more number _ _ ih =>
    rw [length_append,length_cons,length_cons]
    omega
theorem Version.nonempty {n : Nat} (version : Version v (n :: ns)) : v ≠ [] := by
  rintro rfl
  have := version.length
  simp at this
end

section
variable {v1 v2 : CStr} {ns ms : List Nat}

/-- What the components make of the loop: the first difference that is not nothing as an `int`, then the lengths. -/
def compareComponents : List Nat → List Nat → Int
  | [], [] => 0
  | [], _ :: _ => -1
  | _ :: _, [] => 1
  | n :: ns, m :: ms => if toInt (n-m) ≠ 0 then toInt (n-m) else compareComponents ns ms

theorem compareLoop_components {fuel : Nat} (version1 : Version v1 ns) (version2 : Version v2 ms) (enough : ns.length < fuel)
    (fits1 : ∀ n ∈ ns, (n : Int) ≤ LONG_MAX) (fits2 : ∀ n ∈ ms, (n : Int) ≤ LONG_MAX) :
    compareLoop fuel v1 v2 = .ok (compareComponents ns ms) := by
  induction fuel generalizing v1 v2 ns ms with
  | zero => omega
  | succ fuel ih =>
    rw [compareLoop]
    cases ns with
    | nil =>
      obtain ⟨⟩ := version1
      cases ms with
      | nil => obtain ⟨⟩ := version2; rfl
      | cons m ms => simp [version2.nonempty,compareComponents]
    | cons n ns =>
      cases ms with
      | nil => obtain ⟨⟩ := version2; simp [version1.nonempty,compareComponents]
      | cons m ms =>
        obtain ⟨some1,end1,read1,rest1⟩ := version1.step (fits1 n mem_cons_self)
        obtain ⟨some2,end2,read2,rest2⟩ := version2.step (fits2 m mem_cons_self)
        have later := ih rest1 rest2 (lt_of_succ_lt_succ enough) (fun n member => fits1 n (mem_cons_of_mem _ member))
          fun m member => fits2 m (mem_cons_of_mem _ member)
        rw [if_pos ⟨some1,some2⟩,read1,read2,compareComponents]
        simp only [bind,Except.bind]
        split_ifs
        · rfl
        · exact later
theorem compare_versions_components (consistent1 : check_version_consistency v1 = .ok ()) (consistent2 : check_version_consistency v2 = .ok ())
    (fits1 : ComponentsFit v1) (fits2 : ComponentsFit v2) :
    te_str_compare_versions v1 v2 = .ok (compareComponents (components v1) (components v2)) := by
  have version1 := version_of_check consistent1
  have length := version1.length
  rw [te_str_compare_versions,consistent1,consistent2]
  exact compareLoop_components version1 (version_of_check consistent2) (by omega) fits1 fits2

/-- The differences of the components that both versions have. -/
def differences (ns ms : List Nat) : List Int := List.zipWith (fun n m : Nat => (n : Int)-m) ns ms
/-- The difference that decides: the first one between components, or else that of the lengths. -/
def decider (ns ms : List Nat) : Int := ((differences ns ms).find? (· ≠ 0)).getD (ns.length-ms.length)
/-- What decides when differences that are multiples of 2^32 are passed, and others are taken modulo 2^32. -/
def intDecider (ns ms : List Nat) : Int :=
  ((differences ns ms).find? fun d => ¬ (2^32 : Int) ∣ d).elim (ns.length-ms.length) toInt

theorem toInt_zero (d : Int) : toInt d = 0 ↔ (2^32 : Int) ∣ d := by
  constructor
  · exact Int.dvd_of_bmod_eq_zero (a := 2^32)
  · rintro ⟨k,rfl⟩
    exact Int.mul_bmod_right (2^32) k
theorem intDecider_cons (n m : Nat) (ns ms : List Nat) :
    intDecider (n :: ns) (m :: ms) = if (2^32 : Int) ∣ n-m then intDecider ns ms else toInt (n-m) := by
  have lengths : ((n :: ns).length : Int)-(m :: ms).length = ns.length-ms.length := by
    rw [length_cons,length_cons]
    omega
  rw [intDecider,differences,List.zipWith_cons_cons,List.find?_cons,lengths]
  by_cases multiple : (2^32 : Int) ∣ n-m
  · rw [if_pos multiple,decide_eq_false (not_not.mpr multiple)]
    rfl
  · rw [if_neg multiple,decide_eq_true multiple]
    rfl
theorem decider_cons (n m : Nat) (ns ms : List Nat) : decider (n :: ns) (m :: ms) = if n = m then decider ns ms else (n : Int)-m := by
  have lengths : ((n :: ns).length : Int)-(m :: ms).length = ns.length-ms.length := by
    rw [length_cons,length_cons]
    omega
  rw [decider,differences,List.zipWith_cons_cons,List.find?_cons,lengths]
  by_cases same : n = m
  · rw [if_pos same,same,Int.sub_self]
    rfl
  · rw [if_neg same,decide_eq_true (show (n : Int)-m ≠ 0 by omega)]
    rfl
theorem compareComponents_sign (ns ms : List Nat) : (compareComponents ns ms).sign = (intDecider ns ms).sign := by
  induction ns generalizing ms with
  | nil =>
    cases ms with
    | nil => rfl
    | cons m ms =>
      have shorter : ((([] : List Nat).length : Int)-(m :: ms).length) < 0 := by
        rw [length_nil,length_cons]
        omega
      exact (Int.sign_eq_neg_one_of_neg shorter).symm
  | cons n ns ih =>
    cases ms with
    | nil =>
      have longer : 0 < (((n :: ns).length : Int)-([] : List Nat).length) := by
        rw [length_nil,length_cons]
        omega
      exact (Int.sign_eq_one_of_pos longer).symm
    | cons m ms =>
      rw [compareComponents,intDecider_cons]
      by_cases multiple : (2^32 : Int) ∣ n-m
      · simp_all [toInt_zero]
      · simp_all [toInt_zero]
/-- The sign of what decides is the lexicographic order. -/
theorem decider_order (ns ms : List Nat) : (decider ns ms < 0 ↔ ns < ms) ∧ (0 < decider ns ms ↔ ms < ns) := by
  induction ns generalizing ms with
  | nil =>
    cases ms with
    | nil => simp [decider,differences]
    | cons m ms => simp [decider,differences]; omega
  | cons n ns ih =>
    cases ms with
    | nil => simp [decider,differences]; omega
    | cons m ms =>
      rw [decider_cons,cons_lt_cons_iff,cons_lt_cons_iff]
      by_cases same : n = m
      · subst same
        simpa using ih ms
      · rw [if_neg same]
        omega
end

section
variable {v1 v2 : CStr}

/-- The call succeeds, and the sign of its result is the order of the components. -/
def ComparesRight (v1 v2 : CStr) : Prop :=
  ∃ res, te_str_compare_versions v1 v2 = .ok res ∧
    (res < 0 ↔ components v1 < components v2) ∧ (0 < res ↔ components v2 < components v1)

theorem comparesRight_of_sign {res : Int} (result : te_str_compare_versions v1 v2 = .ok res)
    (same : res.sign = (decider (components v1) (components v2)).sign) : ComparesRight v1 v2 := by
  obtain ⟨less,greater⟩ := decider_order (components v1) (components v2)
  refine ⟨res,result,?_,?_⟩
  · grind
  · rw [← greater,← Int.sign_eq_one_iff_pos,same,Int.sign_eq_one_iff_pos]
/-- The order is right exactly if what is left of the differences as `int` values decides with the same sign. -/
theorem compare_versions_iff (consistent1 : check_version_consistency v1 = .ok ()) (consistent2 : check_version_consistency v2 = .ok ())
    (fits1 : ComponentsFit v1) (fits2 : ComponentsFit v2) :
    ComparesRight v1 v2 ↔
      (intDecider (components v1) (components v2)).sign = (decider (components v1) (components v2)).sign := by
  have computed := compare_versions_components consistent1 consistent2 fits1 fits2
  obtain ⟨less,greater⟩ := decider_order (components v1) (components v2)
  rw [← compareComponents_sign]
  constructor
  · rintro ⟨res,result,below,above⟩
    obtain rfl := ok.inj (computed.symm.trans result)
    rw [← less] at below
    rw [← greater] at above
    rcases Int.lt_trichotomy (decider (components v1) (components v2)) 0 with negative | zero | positive
    · grind
    · grind
    · rw [Int.sign_eq_one_of_pos positive,Int.sign_eq_one_of_pos (above.mpr positive)]
  · exact comparesRight_of_sign computed
theorem compare_versions_iff_short : ComparesRight "1.2".toList "1.10.0".toList :=
  (@compare_versions_iff "1.2".toList "1.10.0".toList (by decide) (by decide) (by decide) (by decide)).mpr (by decide)
/-- A difference of 2^31 changes its sign. -/
theorem large_difference : ¬ ∀ v1 v2, check_version_consistency v1 = .ok () → check_version_consistency v2 = .ok () →
    ComponentsFit v1 → ComponentsFit v2 → ComparesRight v1 v2 := by
  intro claim
  obtain ⟨res,result,_,above⟩ := claim "2147483648".toList "0".toList (by decide) (by decide) (by decide) (by decide)
  have computed : te_str_compare_versions "2147483648".toList "0".toList = .ok (-2147483648) := by decide
  obtain rfl := ok.inj (computed.symm.trans result)
  exact absurd (above.mpr (by decide)) (by decide)
end
end TestEnvironment.Tools
