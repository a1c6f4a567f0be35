import TestEnvironment.Lib.Cells

/-!
Bytes as sequences of bits, the most significant one of a byte first, and numbers in network
byte order.
-/
namespace TestEnvironment.Lib
variable {bytes front new : List UInt8} {n i v : Nat}

def bitAt (bytes : List UInt8) (i : Nat) : Bool := ((bytes[i/8]?).getD 0).toNat.testBit (7-i%8)
/-- The last bytes of a number. -/
def beBytes (n v : Nat) : List UInt8 := (List.range n).map fun i => UInt8.ofNat (v >>> (8*(n-1-i)))
def beNum (bytes : List UInt8) : Nat := bytes.foldl (fun n b => 2^8*n+b.toNat) 0

@[simp] theorem beBytes_length (n v : Nat) : (beBytes n v).length = n := by simp [beBytes]
theorem bitAt_append_left (inside : i < 8*front.length) (rest : List UInt8) : bitAt (front ++ rest) i = bitAt front i := by
  rw [bitAt,bitAt,getElem?_append_left (by omega)]
theorem bitAt_append_right (front rest : List UInt8) (i : Nat) : bitAt (front ++ rest) (8*front.length+i) = bitAt rest i := by grind [bitAt]
theorem bitAt_beyond (beyond : 8*bytes.length ≤ i) : bitAt bytes i = false := by
  rw [bitAt,getElem?_eq_none (by omega)]
  simp
theorem bitAt_drop (bytes : List UInt8) (k i : Nat) : bitAt (bytes.drop k) i = bitAt bytes (8*k+i) := by
  rw [bitAt,bitAt,List.getElem?_drop]
  congr 2
  · congr 2
    omega
  · omega
theorem bitAt_take {k : Nat} (inside : i < 8*k) : bitAt (bytes.take k) i = bitAt bytes i := by
  rw [bitAt,bitAt,List.getElem?_take_of_lt (by omega)]
theorem testBit_byte (v j : Nat) : (UInt8.ofNat v).toNat.testBit j = (decide (j < 8) && v.testBit j) := by
  rw [UInt8.toNat_ofNat',Nat.testBit_mod_two_pow]
theorem bitAt_beBytes (inside : i < 8*n) : bitAt (beBytes n v) i = v.testBit (8*n-1-i) := by
  have here : i/8 < n := by omega
  rw [bitAt,beBytes,getElem?_map,List.getElem?_range here,map_some,getD_some,testBit_byte,Nat.testBit_shiftRight,
    decide_eq_true (by omega),Bool.true_and]
  congr 1
  omega
theorem beNum_append (front : List UInt8) (b : UInt8) : beNum (front ++ [b]) = 2^8*beNum front+b.toNat := by
  rw [beNum,foldl_append]
  rfl
theorem testBit_beNum (bytes : List UInt8) (j : Nat) : (beNum bytes).testBit j = (decide (j < 8*bytes.length) && bitAt bytes (8*bytes.length-1-j)) := by
  induction bytes using List.reverseRecOn generalizing j with
  | nil => simp [beNum]
  | append_singleton front b ih =>
    rw [beNum_append,Nat.testBit_two_pow_mul_add _ b.toNat_lt]
    simp only [length_append,length_singleton]
    by_cases low : j < 8
    · rw [if_pos low,decide_eq_true (by omega),Bool.true_and,
        show 8*(front.length+1)-1-j = 8*front.length+(7-j) by omega,bitAt_append_right]
      simp only [bitAt]
      rw [show (7-j)/8 = 0 by omega,show 7-(7-j)%8 = j by omega]
      rfl
    · rw [if_neg low,ih]
      by_cases inside : j-8 < 8*front.length
      · rw [decide_eq_true inside,decide_eq_true (by omega),Bool.true_and,Bool.true_and,
          show 8*(front.length+1)-1-j = 8*front.length-1-(j-8) by omega,bitAt_append_left (by omega)]
      · grind
theorem beNum_lt (bytes : List UInt8) : beNum bytes < 2^(8*bytes.length) := by simp_all [Nat.lt_pow_two_of_testBit,testBit_beNum]
/-- Bytes with the same bits are the same. -/
theorem bytes_eq {other : List UInt8} (length : bytes.length = other.length) (bits : ∀ i, i < 8*bytes.length → bitAt bytes i = bitAt other i) :
    bytes = other := by
  refine List.ext_getElem length fun k first second => ?_
  refine UInt8.toNat_inj.mp (Nat.eq_of_testBit_eq fun j => ?_)
  by_cases low : j < 8
  · have same := bits (8*k+(7-j)) (by omega)
    rw [bitAt,bitAt,show (8*k+(7-j))/8 = k by omega,show 7-(8*k+(7-j))%8 = j by omega,getElem?_eq_getElem first,
      getElem?_eq_getElem second] at same
    exact same
  · have small (b : UInt8) : b.toNat.testBit j = false :=
      Nat.testBit_lt_two_pow (lt_of_lt_of_le b.toNat_lt (Nat.pow_le_pow_right (by decide) (by omega)))
    rw [small,small]
theorem beBytes_beNum (bytes : List UInt8) : beBytes bytes.length (beNum bytes) = bytes := by
  refine bytes_eq (beBytes_length _ _) fun i inside => ?_
  rw [beBytes_length] at inside
  rw [bitAt_beBytes inside,testBit_beNum,decide_eq_true (by omega),Bool.true_and]
  congr 1
  omega
theorem beBytes_injective {v' : Nat} (small : v < 2^(8*n)) (small' : v' < 2^(8*n)) (same : beBytes n v = beBytes n v') : v = v' := by
  refine Nat.eq_of_testBit_eq fun j => ?_
  by_cases inside : j < 8*n
  · have first := @bitAt_beBytes n (8*n-1-j) v (by omega)
    have second := @bitAt_beBytes n (8*n-1-j) v' (by omega)
    rw [show 8*n-1-(8*n-1-j) = j by omega] at first second
    rw [← first,← second,same]
  · grind [Nat.pow_le_pow_right,Nat.testBit_lt_two_pow,Nat.lt_of_lt_of_le]
theorem bitAt_overwrite (inside : n+new.length ≤ bytes.length) (i : Nat) :
    bitAt (overwrite bytes n new) i = if 8*n ≤ i ∧ i < 8*(n+new.length) then bitAt new (i-8*n) else bitAt bytes i := by
  have first : (bytes.take n).length = n := by
    rw [length_take]
    omega
  rw [overwrite,append_assoc]
  by_cases before : i < 8*n
  · rw [if_neg (by omega),bitAt_append_left (by omega),bitAt_take before]
  · have here := bitAt_append_right (bytes.take n) (new ++ bytes.drop (n+new.length)) (i-8*n)
    rw [first,show 8*n+(i-8*n) = i by omega] at here
    rw [here]
    by_cases within : i < 8*(n+new.length)
    · rw [if_pos ⟨by omega,within⟩,bitAt_append_left (by omega)]
    · have behind := bitAt_append_right new (bytes.drop (n+new.length)) (i-8*n-8*new.length)
      rw [show 8*new.length+(i-8*n-8*new.length) = i-8*n by omega] at behind
      rw [if_neg (by omega),behind,bitAt_drop]
      congr 1
      omega
end TestEnvironment.Lib
