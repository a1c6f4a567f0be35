import TestEnvironment.Lib.Names

/-!
Arrays of words as arrays of bits.
-/
namespace TestEnvironment.Lib
variable {w k u v : Nat}

/-- `k` words of `w` bits. -/
abbrev Words (w k : Nat) := Fin k → BitVec w
def zeroWords (w k : Nat) : Words w k := fun _ => 0
def Words.bit (a : Words w k) (v : Nat) : Bool := if inside : v/w < k then (a ⟨v/w,inside⟩).getLsbD (v%w) else false
/-- A bit is set by a mask for its word, where there is the word. -/
def Words.setBit (a : Words w k) (v : Nat) : Option (Words w k) :=
  if inside : v/w < k then some (update a ⟨v/w,inside⟩ (a ⟨v/w,inside⟩ ||| 1#w <<< (v%w))) else none
/-- A bit is read by the same mask. -/
def Words.checkBit (a : Words w k) (v : Nat) : Option Bool :=
  if inside : v/w < k then some (a ⟨v/w,inside⟩ &&& 1#w <<< (v%w) ≠ 0) else none

theorem div_lt_words (positive : 0 < w) : v/w < k ↔ v < w*k := by
  rw [Nat.div_lt_iff_lt_mul positive,Nat.mul_comm]
@[simp] theorem zeroWords_bit (v : Nat) : (zeroWords w k).bit v = false := by
  rw [Words.bit]
  split_ifs
  · exact BitVec.getLsbD_zero
  · rfl
theorem Words.bit_beyond (positive : 0 < w) (beyond : w*k ≤ v) (a : Words w k) : a.bit v = false := by
  rw [Words.bit,dif_neg (by rw [div_lt_words positive]; omega)]
theorem Words.setBit_beyond (positive : 0 < w) (beyond : w*k ≤ v) (a : Words w k) : a.setBit v = none := by
  rw [Words.setBit,dif_neg (by rw [div_lt_words positive]; omega)]
theorem mask_bit (inside : v < w) (x : BitVec w) (u : Nat) : (x ||| 1#w <<< v).getLsbD u = (decide (u = v) || x.getLsbD u) := by grind
theorem mask_check (inside : v < w) (x : BitVec w) : x &&& 1#w <<< v ≠ 0 ↔ x.getLsbD v = true := by
  have only : ∀ u, (x &&& 1#w <<< v).getLsbD u = (decide (u = v) && x.getLsbD u) := fun u => by grind
  constructor
  · grind
  · grind
theorem Words.checkBit_bit (positive : 0 < w) (inside : v < w*k) (a : Words w k) : a.checkBit v = some (a.bit v) := by
  have here : v/w < k := (div_lt_words positive).mpr inside
  rw [Words.checkBit,Words.bit,dif_pos here,dif_pos here]
  congr 1
  rw [Bool.eq_iff_iff,decide_eq_true_iff]
  exact mask_check (mod_lt _ positive) _
/-- Only the bit that is meant changes. -/
theorem Words.setBit_bit (positive : 0 < w) (inside : v < w*k) (a : Words w k) :
    ∃ a', a.setBit v = some a' ∧ ∀ u, a'.bit u = (decide (u = v) || a.bit u) := by
  have here : v/w < k := (div_lt_words positive).mpr inside
  refine ⟨_,by rw [Words.setBit,dif_pos here],fun u => ?_⟩
  rw [Words.bit,Words.bit]
  by_cases there : u/w < k
  · rw [dif_pos there,dif_pos there]
    by_cases word : u/w = v/w
    · grind [mod_lt,Nat.div_add_mod]
    · grind
  · grind
/-- Arrays with the same bits are the same. -/
theorem Words.ext_bits (positive : 0 < w) {a b : Words w k} (same : ∀ v, v < w*k → a.bit v = b.bit v) : a = b := by
  funext i
  refine BitVec.eq_of_getLsbD_eq fun j low => ?_
  have place : (w*i+j)/w = i ∧ (w*i+j)%w = j := by
    constructor
    · rw [Nat.mul_add_div positive,Nat.div_eq_of_lt low,Nat.add_zero]
    · rw [Nat.mul_add_mod,mod_eq_of_lt low]
  have here := same (w*i+j) (by
    rw [← div_lt_words positive,place.1]
    exact i.isLt)
  simp only [Words.bit,place.1,place.2,i.isLt,dif_pos] at here
  exact here
end TestEnvironment.Lib
