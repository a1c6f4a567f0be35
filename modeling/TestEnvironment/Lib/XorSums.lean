import TestEnvironment.Lib.Names

/-!
Sums of words by exclusive or, and words made of a stretch of a sequence of bits, the
first bit as the most significant one.
-/
namespace TestEnvironment.Lib
variable {w n m i j : Nat} {f g : Nat → BitVec w} {bits : Nat → Bool}

section

def xorSum (f : Nat → BitVec w) : Nat → BitVec w
  | 0 => 0
  | n+1 => xorSum f n ^^^ f n

theorem xorSum_congr (same : ∀ i < n, f i = g i) : xorSum f n = xorSum g n := by
  induction n with
  | zero => rfl
  | succ n ih => rw [xorSum,xorSum,ih fun i less => same i (Nat.lt_succ_of_lt less),same n (lt_succ_self n)]
theorem xorSum_zero (zero : ∀ i < n, f i = 0) : xorSum f n = 0 := by
  induction n with
  | zero => rfl
  | succ n ih =>
    rw [xorSum,ih fun i less => zero i (Nat.lt_succ_of_lt less),zero n (lt_succ_self n)]
    exact BitVec.xor_self
/-- Of a sum in which all but one word are zero, that word is left. -/
theorem xorSum_single (inside : i < n) (zero : ∀ j < n, j ≠ i → f j = 0) : xorSum f n = f i := by
  induction n with
  | zero => cases inside
  | succ n ih =>
    rw [xorSum]
    by_cases last : i = n
    · grind [xorSum_zero]
    · grind
theorem xorSum_add : xorSum f (n+m) = xorSum f n ^^^ xorSum (fun i => f (n+i)) m := by
  induction m with
  | zero => exact BitVec.xor_zero.symm
  | succ m ih => rw [← Nat.add_assoc,xorSum,ih,xorSum,BitVec.xor_assoc]
theorem xorSum_first : xorSum f (n+1) = f 0 ^^^ xorSum (fun i => f (i+1)) n := by
  rw [Nat.add_comm,xorSum_add,xorSum,xorSum]
  have shift : (fun i => f (1+i)) = fun i => f (i+1) := funext fun i => congrArg f (Nat.add_comm 1 i)
  rw [shift]
  exact congrArg (· ^^^ _) BitVec.zero_xor
/-- A sum in groups of equal size. -/
theorem xorSum_mul : xorSum f (m*n) = xorSum (fun i => xorSum (fun j => f (m*i+j)) m) n := by
  induction n with
  | zero => rfl
  | succ n ih => rw [Nat.mul_succ,xorSum_add,ih,xorSum]
theorem xorSum_xor : xorSum (fun i => f i ^^^ g i) n = xorSum f n ^^^ xorSum g n := by
  induction n with
  | zero => exact BitVec.xor_self.symm
  | succ n ih => grind [xorSum]

end

section

/-- The `n` bits from `i` on. -/
def stretch (bits : Nat → Bool) (i : Nat) : (n : Nat) → BitVec n
  | 0 => 0#0
  | n+1 => (stretch bits i n).concat (bits (i+n))

theorem getLsbD_stretch : (stretch bits i n).getLsbD j = (decide (j < n) && bits (i+n-1-j)) := by
  induction n generalizing j with
  | zero => rw [stretch]; simp
  | succ n ih =>
    rw [stretch,BitVec.getLsbD_concat]
    by_cases first : j = 0
    · subst first
      simp
    · grind
/-- The next stretch begins with the second bit of this one and ends with one bit more. -/
theorem stretch_next (some' : 0 < n) : stretch bits (i+1) n =
    if bits (i+n) then (stretch bits i n <<< 1) ||| 1#n else stretch bits i n <<< 1 := by
  refine BitVec.eq_of_getLsbD_eq fun j inside => ?_
  rw [getLsbD_stretch]
  by_cases first : j = 0
  · subst first
    have place : i+1+n-1-0 = i+n := by omega
    rw [place]
    cases bits (i+n) <;> simp [some']
  · have place : i+1+n-1-j = i+n-1-(j-1) := by omega
    have earlier : j-1 < n := by omega
    have shifted : (stretch bits i n <<< 1).getLsbD j = bits (i+1+n-1-j) := by
      rw [BitVec.getLsbD_shiftLeft,getLsbD_stretch,place]
      simp only [inside,earlier,first,Nat.lt_one_iff,decide_true,decide_false,Bool.not_false,Bool.true_and]
    have low : (1#n).getLsbD j = false := by simp [first]
    rw [decide_eq_true inside,Bool.true_and,← shifted]
    split_ifs
    · rw [BitVec.getLsbD_or,low,Bool.or_false]
    · rfl

end

end TestEnvironment.Lib
