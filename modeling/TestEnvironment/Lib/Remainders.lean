import TestEnvironment.Lib.Names

/-!
Words as polynomials over the field of two elements, with the last bit for the constant term, and the
remainders that shift registers compute: the register with a generator's low terms is multiplied by `X` modulo
the generator, and bytes go through it with their first bit first.
-/
namespace TestEnvironment.Lib
open Polynomial

section
variable {w : Nat} {a b : BitVec w}

noncomputable def wordPoly (a : BitVec w) : (ZMod 2)[X] := ofFn w fun i => if a.getLsbD i then 1 else 0

theorem wordPoly_coeff (a : BitVec w) (i : Nat) : (wordPoly a).coeff i = if a.getLsbD i then 1 else 0 := by
  by_cases inside : i < w
  · exact ofFn_coeff_eq_val_of_lt _ inside
  · rw [BitVec.getLsbD_of_ge a i (by omega)]
    exact ofFn_coeff_eq_zero_of_ge _ (by omega)
theorem wordPoly_degree (a : BitVec w) : (wordPoly a).degree < w := ofFn_degree_lt _
theorem wordPoly_injective (same : wordPoly a = wordPoly b) : a = b := by
  refine BitVec.eq_of_getLsbD_eq fun i _ => ?_
  have bit := congrArg (fun p => p.coeff i) same
  simp only [wordPoly_coeff] at bit
  cases left : a.getLsbD i <;> cases right : b.getLsbD i <;> simp_all
theorem wordPoly_zero : wordPoly (0#w) = 0 := by
  ext i
  rw [wordPoly_coeff,BitVec.getLsbD_zero,coeff_zero]
  rfl
theorem wordPoly_xor (a b : BitVec w) : wordPoly (a ^^^ b) = wordPoly a + wordPoly b := by
  ext i
  rw [coeff_add,wordPoly_coeff,wordPoly_coeff,wordPoly_coeff,BitVec.getLsbD_xor]
  cases a.getLsbD i <;> cases b.getLsbD i <;> decide
theorem wordPoly_setWidth {v : Nat} (wide : w ≤ v) (a : BitVec w) : wordPoly (a.setWidth v) = wordPoly a := by
  ext i
  rw [wordPoly_coeff,wordPoly_coeff,BitVec.getLsbD_setWidth]
  by_cases inside : i < v
  · rw [decide_eq_true inside,Bool.true_and]
  · grind
/-- A shift multiplies by `X`, but for the bit that is lost. -/
theorem wordPoly_shift (a : BitVec w) : X * wordPoly a = wordPoly (a <<< 1) + if a.msb then X^w else 0 := by
  ext i
  rw [coeff_add,wordPoly_coeff,BitVec.getLsbD_shiftLeft,BitVec.msb_eq_getLsbD_last]
  cases i with
  | zero =>
    rw [mul_coeff_zero,coeff_X_zero,zero_mul]
    cases w with
    | zero => simp [BitVec.getLsbD_of_ge]
    | succ w => cases a.getLsbD (w+1-1) <;> simp
  | succ i =>
    rw [coeff_X_mul,wordPoly_coeff,Nat.add_sub_cancel]
    obtain low | rfl | high := Nat.lt_trichotomy (i+1) w
    · have other : i+1 ≠ w := by omega
      cases a.getLsbD (w-1) <;> simp [low,coeff_X_pow,other]
    · rw [Nat.add_sub_cancel,decide_eq_false (lt_irrefl _)]
      cases a.getLsbD i <;> simp
    · have other : i+1 ≠ w := by omega
      rw [BitVec.getLsbD_of_ge a i (by omega),decide_eq_false (by omega)]
      cases a.getLsbD (w-1) <;> simp [coeff_X_pow,other]
end

section
variable {w : Nat} (g : BitVec w) {a b : BitVec w}

noncomputable def generatorPoly : (ZMod 2)[X] := X^w + wordPoly g
/-- One step of the shift register. -/
def timesX (a : BitVec w) : BitVec w := if a.msb then a <<< 1 ^^^ g else a <<< 1

theorem generator_monic : (generatorPoly g).Monic := monic_X_pow_add (wordPoly_degree g)
theorem generator_degree : (generatorPoly g).degree = w := by simp [degree_add_eq_left_of_degree_lt,wordPoly_degree,generatorPoly]
/-- A word is a remainder where it differs from a polynomial by a multiple of the generator. -/
theorem wordPoly_remainder {p : (ZMod 2)[X]} (multiple : generatorPoly g ∣ wordPoly a - p) : wordPoly a = p %ₘ generatorPoly g := by
  rw [← modByMonic_eq_of_dvd_sub (generator_monic g) multiple,
    (modByMonic_eq_self_iff (generator_monic g)).mpr (by rw [generator_degree]; exact wordPoly_degree a)]
theorem timesX_dvd (a : BitVec w) : generatorPoly g ∣ wordPoly (timesX g a) - X * wordPoly a := by
  rw [wordPoly_shift,timesX]
  cases a.msb with
  | false => simp
  | true =>
    rw [if_pos rfl,if_pos rfl,wordPoly_xor,add_sub_add_left_eq_sub,CharTwo.sub_eq_add,add_comm]
    exact dvd_rfl
theorem timesX_iterate_dvd (a : BitVec w) (k : Nat) : generatorPoly g ∣ wordPoly ((timesX g)^[k] a) - X^k * wordPoly a := by
  induction k with
  | zero => simp
  | succ k ih =>
    rw [Function.iterate_succ_apply']
    have step := timesX_dvd g ((timesX g)^[k] a)
    have power := dvd_mul_of_dvd_right ih X
    have sum := dvd_add step power
    rwa [mul_sub,← mul_assoc,← pow_succ',sub_add_sub_cancel] at sum
/-- A generator with a constant term loses nothing. -/
theorem timesX_injective (odd : g.getLsbD 0 = true) : Function.Injective (timesX g) := by
  intro a b same
  have first (a : BitVec w) : (timesX g a).getLsbD 0 = a.msb := by
    rw [timesX]
    cases a.msb <;> simp [odd]
  have top : a.msb = b.msb := by rw [← first a,← first b,same]
  have shifted : a <<< 1 = b <<< 1 := by
    rw [timesX,timesX,← top] at same
    cases last : a.msb with
    | false => simpa [last] using same
    | true => simpa [last] using same
  refine BitVec.eq_of_getLsbD_eq fun i inside => ?_
  by_cases last : i+1 = w
  · grind
  · have bit := congrArg (fun s => s.getLsbD (i+1)) shifted
    simpa [BitVec.getLsbD_shiftLeft,show i+1 < w by omega,inside] using bit
end

section
variable {w : Nat} (g init : BitVec w) (bytes : List UInt8)

/-- Bytes as one polynomial, the first bit of the first byte with the highest power. -/
noncomputable def textPoly : (ZMod 2)[X] := bytes.foldl (fun p b => p * X^8 + wordPoly b.toBitVec) 0
/-- What division of a text with `w` zeros behind it leaves, where the register starts with `init`. -/
noncomputable def textRemainder : (ZMod 2)[X] := (X^(8*bytes.length) * wordPoly init + X^w * textPoly bytes) %ₘ generatorPoly g
/-- A byte goes through the register. -/
def registerByte (r : BitVec w) (b : UInt8) : BitVec w := (timesX g)^[8] r ^^^ (timesX g)^[w] (b.toBitVec.setWidth w)

theorem textPoly_concat (b : UInt8) : textPoly (bytes ++ [b]) = textPoly bytes * X^8 + wordPoly b.toBitVec := by
  rw [textPoly,foldl_append]
  rfl
/-- The register computes the remainder. -/
theorem register_remainder (wide : 8 ≤ w) : wordPoly (bytes.foldl (registerByte g) init) = textRemainder g init bytes := by
  refine wordPoly_remainder g ?_
  induction bytes using List.reverseRecOn with
  | nil => simp [textPoly]
  | append_singleton bytes b ih =>
    rw [foldl_append,foldl_cons,foldl_nil,length_append,length_singleton,textPoly_concat]
    generalize bytes.foldl (registerByte g) init = r at ih
    have whole := dvd_mul_of_dvd_right ih (X^8)
    have sum := dvd_add (dvd_add (timesX_iterate_dvd g r 8) whole) (timesX_iterate_dvd g (b.toBitVec.setWidth w) w)
    rw [wordPoly_setWidth wide] at sum
    rw [registerByte,wordPoly_xor]
    convert! sum using 1
    rw [Nat.mul_succ,pow_add]
    ring
theorem register_injective (odd : g.getLsbD 0 = true) : Function.Injective fun r => bytes.foldl (registerByte g) r := by
  intro r s same
  induction bytes generalizing r s with
  | nil => exact same
  | cons b bytes ih =>
    have first : registerByte g r b = registerByte g s b := ih same
    rw [registerByte,registerByte] at first
    exact (timesX_injective g odd).iterate 8 ((BitVec.xor_left_inj _).mp first)
end
end TestEnvironment.Lib
