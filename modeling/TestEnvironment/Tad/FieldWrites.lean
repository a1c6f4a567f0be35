import TestEnvironment.Tad.Bps

/-!
What the functions that build a binary packet fragment write, by the bits: a field gets the last
bits of a number, and nothing else changes.
-/
namespace TestEnvironment.Tad
open Lib

/-- The bits of a field are those of a number; the other bits are kept. -/
structure Written (before after : List UInt8) (off len : Nat) (number : Nat) : Prop where
  length : after.length = before.length
  inside : ∀ i, off ≤ i → i < off+len → bitAt after i = number.testBit (off+len-1-i)
  outside : ∀ i, i < off ∨ off+len ≤ i → bitAt after i = bitAt before i

theorem Written.congr {before after : List UInt8} {off len number other : Nat} (written : Written before after off len number)
    (same : ∀ j, j < len → number.testBit j = other.testBit j) : Written before after off len other where
  length := written.length
  inside := fun i low high => by rw [written.inside i low high,same _ (by omega)]
  outside := written.outside
theorem Written.append {before middle after : List UInt8} {off front back number : Nat}
    (first : Written before middle off front (number >>> back)) (second : Written middle after (off+front) back number) :
    Written before after off (front+back) number where
  length := second.length.trans first.length
  inside := fun i low high => by
    by_cases early : i < off+front
    · rw [second.outside i (.inl early),first.inside i low early,Nat.testBit_shiftRight]
      congr 1
      omega
    · rw [second.inside i (by omega) (by omega)]
      congr 1
      omega
  outside := fun i away => by
    rw [second.outside i (by omega),first.outside i (by omega)]

section
variable {n space bits value j : Nat}

theorem testBit_ones (n j : Nat) : (2^n-1).testBit j = decide (j < n) := Nat.testBit_two_pow_sub_one n j
theorem testBit_onesAbove (n j : Nat) : (onesAbove n).testBit j = (decide (n ≤ j) && decide (j < 32)) := by
  rw [onesAbove,UINT_MOD,Nat.testBit_mod_two_pow,Nat.testBit_shiftLeft,testBit_ones,Bool.and_comm]
  by_cases above : n ≤ j
  · grind
  · simp [above]
/-- The bits of the first byte that `write_bits` keeps. -/
def keptMask (space bits : Nat) : Nat :=
  if bits < space then (onesAbove space%2^8) ||| (((UINT_MOD-1) ^^^ onesAbove (space-bits))%2^8) else onesAbove space%2^8
theorem testBit_keptMask (low : j < 8) : (keptMask space bits).testBit j = (decide (space ≤ j) || decide (j+bits < space)) := by
  have here : j < 32 := by omega
  by_cases few : bits < space
  · rw [keptMask,if_pos few,Nat.testBit_or,Nat.testBit_mod_two_pow,Nat.testBit_mod_two_pow,Nat.testBit_xor,testBit_onesAbove,
      testBit_onesAbove,UINT_MOD,testBit_ones,decide_eq_true low,decide_eq_true here,Bool.true_and,Bool.true_and,Bool.and_true,Bool.and_true,
      Bool.true_xor]
    congr 1
    rw [← decide_not,decide_eq_decide]
    omega
  · rw [keptMask,if_neg few,Nat.testBit_mod_two_pow,testBit_onesAbove,decide_eq_true low,decide_eq_true here,Bool.true_and,Bool.and_true]
    by_cases high : space ≤ j
    · simp [high]
    · rw [decide_eq_false high,decide_eq_false (by omega)]
      rfl
/-- The byte of the shifted value that is written. -/
theorem testBit_shifted {shift : Nat} (low : j < 8) (room : shift ≤ 24+j) :
    (((value <<< shift)%UINT_MOD) >>> 24).testBit j = value.testBit (24+j-shift) := by
  rw [Nat.testBit_shiftRight,UINT_MOD,Nat.testBit_mod_two_pow,decide_eq_true (by omega),Bool.true_and,Nat.testBit_shiftLeft,
    decide_eq_true room,Bool.true_and]
theorem testBit_complement {mask : Nat} (low : j < 8) : ((2^8-1) ^^^ mask).testBit j = !mask.testBit j := by
  rw [Nat.testBit_xor,testBit_ones,decide_eq_true low,Bool.true_xor]
/-- A bit of a byte that is put together from two ones by a mask. -/
theorem testBit_blend {old put mask : Nat} (low : j < 8) :
    (UInt8.ofNat ((old &&& mask) ||| (put &&& ((2^8-1) ^^^ mask)))).toNat.testBit j = if mask.testBit j then old.testBit j else put.testBit j := by
  rw [testBit_byte,decide_eq_true low,Bool.true_and,Nat.testBit_or,Nat.testBit_and,Nat.testBit_and,testBit_complement low]
  cases mask.testBit j <;> simp
end

section
variable {ptr : List UInt8} {off bits value k : Nat}

theorem bitAt_set (inside : k < ptr.length) (byte : UInt8) (i : Nat) :
    bitAt (ptr.set k byte) i = if i/8 = k then byte.toNat.testBit (7-i%8) else bitAt ptr i := by
  by_cases here : i/8 = k
  · subst here
    rw [bitAt,List.getElem?_set_self inside,if_pos rfl]
    rfl
  · simp [here,Ne.symm,bitAt]
/-- One byte of `write_bits`: the part of the field in it is written. -/
theorem byte_written (short : off%8+bits ≤ 32) (inside : off/8 < ptr.length) :
    let old := ((ptr[off/8]?).getD 0).toNat
    let mask := keptMask (8-off%8) bits
    let put := ((value <<< (32-off%8-bits))%UINT_MOD) >>> 24
    Written ptr (ptr.set (off/8) (UInt8.ofNat ((old &&& mask) ||| (put &&& ((2^8-1) ^^^ mask))))) off (min bits (8-off%8))
      (value >>> (bits-min bits (8-off%8))) where
  length := List.length_set
  inside := fun i low high => by
    have here : i/8 = off/8 := by omega
    rw [bitAt_set inside,if_pos here,testBit_blend (by omega),testBit_keptMask (by omega),if_neg (by simp; omega),
      testBit_shifted (by omega) (by omega),Nat.testBit_shiftRight]
    congr 1
    omega
  outside := fun i away => by
    rw [bitAt_set inside]
    split
    · next here =>
      rw [testBit_blend (by omega),testBit_keptMask (by omega),if_pos (by simp; omega),← here]
      rfl
    · rfl
theorem writeBitsFrom_succ (fuel : Nat) (short : off%8+bits ≤ 32) (nonempty : 0 < bits) (inside : off/8 < ptr.length) :
    ∃ after, Written ptr after off (min bits (8-off%8)) (value >>> (bits-min bits (8-off%8))) ∧
      writeBitsFrom (fuel+1) ptr off value bits =
        if 8-off%8 < bits then writeBitsFrom fuel after (off+(8-off%8)) value (bits-(8-off%8)) else some after := by
  refine ⟨_,byte_written short inside,?_⟩
  have shifted : ((32 : Int)-(off%8 : Nat)-bits).toNat = 32-off%8-bits := by omega
  have low : off &&& 7 = off%8 := Nat.and_two_pow_sub_one_eq_mod off 3
  have byte : off >>> 3 = off/8 := Nat.shiftRight_eq_div_pow off 3
  have old := getElem?_eq_getElem inside
  simp only [writeBitsFrom,low,byte,shifted]
  rw [if_neg (by omega),old]
  rfl
theorem writeBitsFrom_spec (fuel : Nat) (ptr : List UInt8) (off bits : Nat) (enough : bits < fuel) (short : off%8+bits ≤ 32) (nonempty : 0 < bits)
    (inside : off+bits ≤ 8*ptr.length) : ∃ after, writeBitsFrom fuel ptr off value bits = some after ∧ Written ptr after off bits value := by
  induction fuel generalizing ptr off bits with
  | zero => omega
  | succ fuel ih =>
    obtain ⟨middle,first,run⟩ := @writeBitsFrom_succ ptr off bits value fuel short nonempty (by omega)
    rw [run]
    by_cases more : 8-off%8 < bits
    · rw [Nat.min_eq_right (le_of_lt more)] at first
      -- the rest of the field starts on a byte
      obtain ⟨after,rest,second⟩ := ih middle (off+(8-off%8)) (bits-(8-off%8)) (by omega) (by omega) (by omega)
        (by rw [first.length]; omega)
      refine ⟨after,by rw [if_pos more,rest],?_⟩
      have whole := first.append second
      rwa [Nat.add_sub_cancel' (le_of_lt more)] at whole
    · simp_all [if_neg]
theorem write_bits_spec (short : off%8+bits ≤ 32) (nonempty : 0 < bits) (inside : off+bits ≤ 8*ptr.length) :
    ∃ after, write_bits ptr off value bits = some after ∧ Written ptr after off bits value :=
  writeBitsFrom_spec (bits+1) ptr off bits (lt_succ_self bits) short nonempty inside

/-- The field is written, and nothing else. -/
def WritesField (ptr : List UInt8) (off value bits : Nat) : Prop := ∃ after, write_bits ptr off value bits = some after ∧ Written ptr after off bits value
/-- A field with bits, in the array, is written just if it ends within the 32 bits from the start of its first byte on; otherwise the
count of the shift is negative. -/
theorem write_bits_exact (nonempty : 0 < bits) (inside : off+bits ≤ 8*ptr.length) : WritesField ptr off value bits ↔ off%8+bits ≤ 32 := by
  refine ⟨fun ⟨after,run,_⟩ => Decidable.by_contra fun long => ?_,fun short => write_bits_spec short nonempty inside⟩
  have low : off &&& 7 = off%8 := Nat.and_two_pow_sub_one_eq_mod off 3
  have negative : (32 : Int)-(off%8 : Nat)-bits < 0 := by omega
  simp only [write_bits,writeBitsFrom,low,negative,true_or,if_true] at run
  cases run
/-- Four bits from the first one on, and 32 bits from the second one on. -/
theorem write_bits_exact_words : WritesField [0,0,0,0,0] 0 5 4 ∧ ¬WritesField [0,0,0,0,0] 1 5 32 :=
  ⟨(write_bits_exact (by decide) (by decide)).mpr (by decide),fun writes => absurd ((write_bits_exact (by decide) (by decide)).mp writes) (by decide)⟩
theorem word_not_written : ¬WritesField [0,0,0,0,0] 1 5 32 := by
  rintro ⟨after,run,-⟩
  have undefined : write_bits [0,0,0,0,0] 1 5 32 = none := by decide
  cases undefined.symm.trans run
end

section
variable {bin : List UInt8} {off len : Nat}

/-- Whole bytes put in place. -/
theorem copyTo_written {bytes : List UInt8} (aligned : off%8 = 0) (whole : 8*bytes.length = len) (inside : off+len ≤ 8*bin.length)
    {number : Nat} (bits : ∀ i, i < len → bitAt bytes i = number.testBit (len-1-i)) :
    ∃ after, copyTo bin (off/8) bytes = some after ∧ Written bin after off len number := by
  have fits : off/8+bytes.length ≤ bin.length := by omega
  refine ⟨overwrite bin (off/8) bytes,if_pos fits,overwrite_length fits,?_,?_⟩
  · intro i low high
    rw [bitAt_overwrite fits,if_pos (by omega),bits _ (by omega)]
    congr 1
    omega
  · intro i away
    rw [bitAt_overwrite fits,if_neg (by omega)]
theorem number_written {v : Nat} (aligned : off%8 = 0) (whole : len%8 = 0) (inside : off+len ≤ 8*bin.length) :
    ∃ after, copyTo bin (off/8) (beBytes (len/8) v) = some after ∧ Written bin after off len v := by
  refine copyTo_written aligned ?_ inside fun i within => ?_
  · rw [beBytes_length]
    omega
  · rw [bitAt_beBytes (by omega),Nat.mul_div_cancel' (Nat.dvd_of_mod_eq_zero whole)]
end
end TestEnvironment.Tad
