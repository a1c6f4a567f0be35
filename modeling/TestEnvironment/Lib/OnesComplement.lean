import TestEnvironment.Lib.Names

/-!
One's complement arithmetic of 16-bit words: the sum with end-around carries, sums of
byte strings in either byte order, and a field that makes such a sum all ones.
-/
namespace TestEnvironment.Lib

/-- The sum after all end-around carries. -/
def onesSum (n : Nat) : Nat := if n = 0 then 0 else (n-1)%65535+1
/-- Two bytes as a word, the first one high or low. -/
def word (big : Bool) (a b : UInt8) : Nat := if big then a.toNat*256+b.toNat else a.toNat+b.toNat*256
/-- The sum of the words of a byte string, padded with a zero byte. -/
def wordSum (big : Bool) : List UInt8 → Nat
  | [] => 0
  | [a] => word big a 0
  | a :: b :: rest => word big a b+wordSum big rest
/-- The two bytes of a word. -/
def wordBytes (big : Bool) (n : Nat) : UInt8 × UInt8 :=
  if big then (UInt8.ofNat (n/256),UInt8.ofNat n) else (UInt8.ofNat n,UInt8.ofNat (n/256))

section
variable {n : Nat} {big : Bool} {a b : UInt8} {l r : List UInt8}

theorem onesSum_le (n : Nat) : onesSum n ≤ n := by
  rw [onesSum]
  split_ifs <;> omega
theorem onesSum_mod (n : Nat) : onesSum n ≡ n [MOD 65535] := by
  rw [onesSum,Nat.ModEq]
  split_ifs <;> omega
theorem onesSum_full : onesSum n = 65535 ↔ n ≠ 0 ∧ n%65535 = 0 := by
  rw [onesSum]
  by_cases zero : n = 0
  · simp [zero]
  · rw [if_neg zero]
    omega

theorem word_lt (big : Bool) (a b : UInt8) : word big a b < 65536 := by
  have one := a.toNat_lt
  have two := b.toNat_lt
  rw [word]
  split_ifs <;> omega
theorem word_swap (big : Bool) (a b : UInt8) : word big b a = word (!big) a b := by
  cases big <;> simp only [word,Bool.not_true,Bool.not_false,false_eq_true,if_true,if_false] <;> omega
theorem word_split (big : Bool) (a b : UInt8) : word big a b = word big a 0+word big 0 b := by
  cases big <;> simp [word]
/-- The other order multiplies by 256. -/
theorem word_turn (big : Bool) (a b : UInt8) : word (!big) a b ≡ 256*word big a b [MOD 65535] := by
  cases big <;> simp only [word,Bool.not_true,Bool.not_false,false_eq_true,if_true,if_false,Nat.ModEq] <;> omega
theorem word_zero : word big a b = 0 ↔ a.toNat = 0 ∧ b.toNat = 0 := by
  cases big <;> simp only [word,false_eq_true,if_true,if_false] <;> omega
theorem word_wordBytes (small : n < 65536) : word big (wordBytes big n).1 (wordBytes big n).2 = n := by
  cases big <;> simp only [word,wordBytes,false_eq_true,if_true,if_false,UInt8.toNat_ofNat'] <;> omega

theorem wordSum_append (even : l.length%2 = 0) : wordSum big (l ++ r) = wordSum big l+wordSum big r := by
  induction l using wordSum.induct with
  | case1 => simp [wordSum]
  | case2 a => simp at even
  | case3 a b rest ih => grind [wordSum]
theorem wordSum_turn (big : Bool) (l : List UInt8) : wordSum (!big) l ≡ 256*wordSum big l [MOD 65535] := by
  induction l using wordSum.induct with
  | case1 => rfl
  | case2 a => exact word_turn big a 0
  | case3 a b rest ih =>
    simp only [wordSum,Nat.mul_add]
    exact (word_turn big a b).add ih
theorem wordSum_zero (l : List UInt8) : wordSum big l = 0 ↔ ∀ a ∈ l, a.toNat = 0 := by
  induction l using wordSum.induct with
  | case1 => simp [wordSum]
  | case2 a => simp [wordSum,word_zero]
  | case3 a b rest ih => simp [wordSum,word_zero,ih,and_assoc]
/-- The check for all ones does not depend on the byte order. -/
theorem wordSum_full (big : Bool) (l : List UInt8) : onesSum (wordSum (!big) l) = 65535 ↔ onesSum (wordSum big l) = 65535 := by
  have zero : wordSum (!big) l = 0 ↔ wordSum big l = 0 := by rw [wordSum_zero,wordSum_zero]
  have turn := wordSum_turn big l
  rw [Nat.ModEq] at turn
  rw [onesSum_full,onesSum_full,Ne,zero]
  refine and_congr_right fun _ => ?_
  omega
theorem wordSum_le (l : List UInt8) : wordSum big l ≤ 65535*((l.length+1)/2) := by
  induction l using wordSum.induct with
  | case1 => simp [wordSum]
  | case2 a => grind [word_lt,wordSum]
  | case3 a b rest ih =>
    have below := word_lt big a b
    simp only [wordSum,length_cons]
    omega
end

section
variable {t sum n m : Nat}

/-- A number in the base 65536 and the sum of its digits agree modulo 65535. -/
theorem digits_apart (t : Nat) : t = 65536*(t/65536)+t%65536 := (Nat.div_add_mod t 65536).symm

variable (small : t < 65536*65536) (same : t%65535 = sum%65535) (less : t ≤ sum) (field : 65535-(t%65536+t/65536)%65536 = n)
include small same less field
/-- The complement of a sum folded once completes it to all ones, unless the fold has a carry. -/
theorem complement_once : (sum+n ≠ 0 ∧ (sum+n)%65535 = 0) ↔ t%65536+t/65536 < 65536 := by
  obtain ⟨k,rfl⟩ : ∃ k, sum = t+65535*k := ⟨(sum-t)/65535,by omega⟩
  have apart := digits_apart t
  generalize t/65536 = hi at *
  have low : t%65536 < 65536 := mod_lt _ (by decide)
  generalize t%65536 = lo at *
  by_cases carry : lo+hi < 65536
  · have whole : t+65535*k+n = 65535*(hi+k+1) := by omega
    rw [whole]
    simp [carry]
  · omega
/-- In the other byte order it completes only multiples of 257. -/
theorem complement_turned (turned : m%65535 = 256*n%65535) (nothing : m = 0 ↔ n = 0) :
    (sum+m ≠ 0 ∧ (sum+m)%65535 = 0) ↔ t%65536+t/65536 < 65536 ∧ t%257 = 0 := by
  have apart := digits_apart t
  generalize t/65536 = hi at *
  have low : t%65536 < 65536 := mod_lt _ (by decide)
  generalize t%65536 = lo at *
  have digits' : t%257 = (lo+hi)%257 := by omega
  by_cases carry : lo+hi < 65536
  · have complement : (m+256*(lo+hi))%65535 = 0 := by
      rw [mod_eq_of_lt carry] at field
      omega
    have some' : sum+m ≠ 0 := by
      rw [mod_eq_of_lt carry] at field
      omega
    have reduced : (sum+m)%65535 = 0 ↔ (lo+hi)%257 = 0 := by omega
    rw [reduced,digits']
    exact ⟨fun both => ⟨carry,both.2⟩,fun both => ⟨some',both.2⟩⟩
  · have complement : (m+256*(lo+hi))%65535 = 256 := by
      have once : (lo+hi)%65536 = lo+hi-65536 := by omega
      omega
    have not : (sum+m)%65535 ≠ 0 := by omega
    simp [carry,not]
end

section
variable {big : Bool} {l : List UInt8} {x y : UInt8}

/-- The byte string with two bytes at the offset replaced. -/
def setBytes (l : List UInt8) (offset : Nat) (x y : UInt8) : List UInt8 := l.take offset ++ x :: y :: l.drop (offset+2)

theorem length_setBytes {offset : Nat} (inside : offset+2 ≤ l.length) : (setBytes l offset x y).length = l.length := by grind [setBytes]
/-- What the two bytes add to the sum; at an odd offset they count in the other order. -/
theorem wordSum_setBytes {offset : Nat} (inside : offset+2 ≤ l.length) : wordSum big (setBytes l offset x y) =
    wordSum big (setBytes l offset 0 0)+(if offset%2 = 0 then word big x y else word big y x) := by
  have front : (l.take offset).length = offset := by
    rw [length_take]
    omega
  by_cases even : offset%2 = 0
  · have evenLength : (l.take offset).length%2 = 0 := by omega
    rw [if_pos even,setBytes,setBytes,wordSum_append evenLength,wordSum_append evenLength]
    simp only [wordSum,word_zero.mpr (⟨rfl,rfl⟩ : (0 : UInt8).toNat = 0 ∧ (0 : UInt8).toNat = 0)]
    omega
  · -- the last byte in front shares a word with the first one of the field
    obtain ⟨p,q,split⟩ := eq_nil_or_concat (l.take offset) |>.resolve_left (by rintro empty; simp [empty] at front; omega)
    have evenLength : p.length%2 = 0 := by
      rw [split] at front
      simp at front
      omega
    rw [if_neg even,setBytes,setBytes,split]
    simp only [concat_eq_append,append_assoc,cons_append,nil_append]
    rw [wordSum_append evenLength,wordSum_append evenLength]
    cases l.drop (offset+2) with
    | nil =>
      simp only [wordSum]
      rw [word_split big q x,word_split big y x,word_zero.mpr (⟨rfl,rfl⟩ : (0 : UInt8).toNat = 0 ∧ (0 : UInt8).toNat = 0)]
      omega
    | cons z rest =>
      simp only [wordSum]
      rw [word_split big q x,word_split big y x,word_split big y z]
      omega

end
end TestEnvironment.Lib
