import TestEnvironment.Lib.BitWords
import TestEnvironment.Lib.Numerals
import TestEnvironment.Tools.LogicExpr

/-!
Sets of integers and their texts (`te_intset.c`, `te_intset.h`): bit masks, sets of characters,
of descriptors and of processors behind one table of methods. Neither pointer of a call is NULL.
-/
namespace TestEnvironment.Tools.Intset
open Lib

inductive IntsetError | TE_EINVAL | TE_ERANGE
  deriving DecidableEq, Repr
/-- `te_intset_ops`. A method that leaves the memory of the set, or that shifts by more bits than there
are, has no result. -/
structure IntsetOps (σ : Type) where
  clear : σ → σ
  set : Int → σ → Option σ
  check : Int → σ → Option Bool

section
variable {σ : Type} (ops : IntsetOps σ) (minval maxval : Int)

def te_strtol_raw (str : CStr) (base : Nat) : Except IntsetError (Int × CStr) :=
  match readNumber base str with
  | none => .error .TE_EINVAL
  | some (n,endptr) => if LONG_MIN ≤ n ∧ n ≤ LONG_MAX then .ok (n,endptr) else .error .TE_ERANGE
def te_strtoi_range_raw (input : CStr) (base : Nat) : Except IntsetError (Int × CStr) := do
  let (parsed,endptr) ← te_strtol_raw input base
  if parsed < minval ∨ parsed > maxval then .error .TE_ERANGE else .ok (parsed,endptr)
/-- `for (; item <= item2; item++) ops->set(item, val)` with the number of its turns. -/
def setLoop : Nat → Int → σ → Option σ
  | 0, _, val => some val
  | n+1, item, val => (ops.set item val).bind (setLoop n (item+1))
def skipComma (end_ : CStr) : CStr := if end_.head? = some ',' then end_.drop 1 else end_
def parseLoop : Nat → CStr → σ → Option (Except IntsetError Unit × σ)
  | 0, _, val => some (.ok (),val)
  | fuel+1, str, val =>
    if str = [] then some (.ok (),val)
    else match te_strtoi_range_raw minval maxval str 0 with
      | .error rc => some (.error rc,val)
      | .ok (item,end_) =>
        if end_.head? = some '-' then
          match te_strtoi_range_raw minval maxval (end_.drop 1) 0 with
          | .error rc => some (.error rc,val)
          | .ok (item2,end_) =>
            if item2 < item then some (.error .TE_EINVAL,val)
            else (setLoop ops (item2+1-item).toNat item val).bind (parseLoop fuel (skipComma end_))
        else (ops.set item val).bind (parseLoop fuel (skipComma end_))
/-- The status and the set; every turn reads a number. -/
def te_intset_generic_parse (str : CStr) (val : σ) : Option (Except IntsetError Unit × σ) :=
  parseLoop ops minval maxval (str.length+1) str (ops.clear val)
end

section
variable {σ : Type} (ops : IntsetOps σ)

def INT_MAX : Int := 2^31-1
def INT_MIN : Int := -2^31
def int_range2string (str : CStr) (minval maxval : Int) : CStr :=
  let str := if str.length > 0 then str ++ [','] else str
  str ++ if minval = maxval then intText minval else intText minval ++ '-' :: intText maxval
/-- The turns for `i` up to `maxval`, and the last run behind them. The run is counted in an `unsigned`. -/
def stringLoop (maxval : Int) (val : σ) : Nat → Int → Nat → CStr → Option CStr
  | 0, _, range, result => some (if range > 0 then int_range2string result (toInt (maxval-range+1)) maxval else result)
  | n+1, i, range, result => (ops.check i val).bind fun found =>
    if found then stringLoop maxval val n (i+1) ((range+1)%2^32) result
    else if range > 0 then stringLoop maxval val n (i+1) 0 (int_range2string result (toInt (i-range)) (i-1))
    else stringLoop maxval val n (i+1) range result
def te_intset_generic2string (minval maxval : Int) (val : σ) : Option CStr :=
  if maxval = INT_MAX then none else stringLoop ops maxval val (maxval+1-minval).toNat minval 0 []
end

section
def set_uint64_bit (v : Int) (val : BitVec 64) : Option (BitVec 64) :=
  if 0 ≤ v ∧ v < 64 then some (val ||| 1#64 <<< v.toNat) else none
def check_uint64_bit (v : Int) (val : BitVec 64) : Option Bool :=
  if 0 ≤ v ∧ v < 64 then some (val &&& 1#64 <<< v.toNat ≠ 0) else none
def te_bits_intset : IntsetOps (BitVec 64) := ⟨fun _ => 0,set_uint64_bit,check_uint64_bit⟩

/-- `te_charset`. -/
structure TeCharset where
  items : Words 64 4
  n_items : Nat
def check_charset_byte (v : Int) (cs : TeCharset) : Option Bool := if v < 0 then none else cs.items.checkBit v.toNat
def set_charset_byte (v : Int) (cs : TeCharset) : Option TeCharset :=
  (check_charset_byte v cs).bind fun found =>
    if found then some cs else (cs.items.setBit v.toNat).map fun items => ⟨items,(cs.n_items+1)%2^32⟩
def te_charset_intset : IntsetOps TeCharset := ⟨fun _ => ⟨zeroWords 64 4,0⟩,set_charset_byte,check_charset_byte⟩

def FD_SETSIZE : Int := 1024
/-- `fd_set`. -/
abbrev FdSet := Words 64 16
/-- `FD_SET` does not look at the number. -/
def fd_set_set (v : Int) (val : FdSet) : Option FdSet := if v < 0 then none else val.setBit v.toNat
def fd_set_check (v : Int) (val : FdSet) : Option Bool := if v < 0 then none else val.checkBit v.toNat
def te_fdset_intset : IntsetOps FdSet := ⟨fun _ => zeroWords 64 16,fd_set_set,fd_set_check⟩

def CPU_SETSIZE : Int := 1024
/-- `cpu_set_t`. -/
abbrev CpuSet := Words 64 16
/-- `CPU_SET` does nothing for a number outside of the set. -/
def cpu_set_set (v : Int) (val : CpuSet) : Option CpuSet :=
  if 0 ≤ v ∧ v < CPU_SETSIZE then val.setBit v.toNat else some val
def cpu_set_check (v : Int) (val : CpuSet) : Option Bool :=
  if 0 ≤ v ∧ v < CPU_SETSIZE then val.checkBit v.toNat else some false
def te_cpuset_intset : IntsetOps CpuSet := ⟨fun _ => zeroWords 64 16,cpu_set_set,cpu_set_check⟩

def te_bits_parse : CStr → BitVec 64 → Option (Except IntsetError Unit × BitVec 64) :=
  te_intset_generic_parse te_bits_intset 0 (64-1)
def te_bits2string : BitVec 64 → Option CStr := te_intset_generic2string te_bits_intset 0 (64-1)
def te_fdset_parse : CStr → FdSet → Option (Except IntsetError Unit × FdSet) :=
  te_intset_generic_parse te_fdset_intset 0 FD_SETSIZE
def te_fdset2string (nfds : Int) : FdSet → Option CStr := te_intset_generic2string te_fdset_intset 0 (nfds-1)
def te_cpuset_parse : CStr → CpuSet → Option (Except IntsetError Unit × CpuSet) :=
  te_intset_generic_parse te_cpuset_intset 0 (CPU_SETSIZE-1)
def te_cpuset2string : CpuSet → Option CStr := te_intset_generic2string te_cpuset_intset 0 (CPU_SETSIZE-1)
end

/-- The types of sets, with what stands for a set of each and the numbers it has a place for. -/
inductive IntsetType | bits | charset | fdset | cpuset
  deriving DecidableEq, Repr
def IntsetType.Val : IntsetType → Type
  | .bits => BitVec 64
  | .charset => TeCharset
  | .fdset => FdSet
  | .cpuset => CpuSet
def IntsetType.ops : (t : IntsetType) → IntsetOps t.Val
  | .bits => te_bits_intset
  | .charset => te_charset_intset
  | .fdset => te_fdset_intset
  | .cpuset => te_cpuset_intset
def IntsetType.size : IntsetType → Int
  | .bits => 64
  | .charset => 256
  | .fdset => 1024
  | .cpuset => 1024
/-- The greatest number that the parser of a type takes. -/
def IntsetType.maxval : IntsetType → Int
  | .bits => 64-1
  | .charset => 255
  | .fdset => FD_SETSIZE
  | .cpuset => CPU_SETSIZE-1
/-- The parser of a type. For characters the bounds are those of a byte. -/
def IntsetType.parse : (t : IntsetType) → CStr → t.Val → Option (Except IntsetError Unit × t.Val)
  | .bits => te_bits_parse
  | .charset => te_intset_generic_parse te_charset_intset 0 255
  | .fdset => te_fdset_parse
  | .cpuset => te_cpuset_parse
def bitsOf {k : Nat} (a : Words 64 k) : Set Int := {v | 0 ≤ v ∧ a.bit v.toNat = true}
/-- The items of a set. -/
def IntsetType.items : (t : IntsetType) → t.Val → Set Int
  | .bits, val => {v | 0 ≤ v ∧ BitVec.getLsbD val v.toNat = true}
  | .charset, val => bitsOf (TeCharset.items val)
  | .fdset, val => bitsOf (k := 16) val
  | .cpuset, val => bitsOf (k := 16) val
/-- The number of bits that are set. -/
def countBits (a : Words 64 4) : Nat := ((Finset.range 256).filter fun v => a.bit v = true).card
/-- The number of characters is that of the bits. -/
def IntsetType.Valid : (t : IntsetType) → t.Val → Prop
  | .charset, val => TeCharset.n_items val = countBits (TeCharset.items val)
  | _, _ => True

/-- What the methods of a type do to sets of numbers below `size`. -/
structure Lawful {σ : Type} (ops : IntsetOps σ) (size : Int) (valid : σ → Prop) (items : σ → Set Int) : Prop where
  clear : ∀ s, valid (ops.clear s) ∧ items (ops.clear s) = ∅
  set : ∀ s v, valid s → 0 ≤ v → v < size → ∃ s', ops.set v s = some s' ∧ valid s' ∧ items s' = insert v (items s)
  check : ∀ s v, 0 ≤ v → v < size → ∃ found, ops.check v s = some found ∧ (found = true ↔ v ∈ items s)
  ext : ∀ s s', valid s → valid s' → items s = items s' → s = s'
  places : ∀ s v, v ∈ items s → 0 ≤ v ∧ v < size

section
variable {k : Nat} {a a' : Words 64 k} {v : Int}

theorem bitsOf_zero : bitsOf (zeroWords 64 k) = ∅ := by
  ext v
  simp [bitsOf]
theorem bitsOf_set (low : 0 ≤ v) (high : v < 64*k) :
    ∃ a', a.setBit v.toNat = some a' ∧ (∀ u, a'.bit u = (decide (u = v.toNat) || a.bit u)) ∧ bitsOf a' = insert v (bitsOf a) := by
  obtain ⟨a',set,bits⟩ := a.setBit_bit (by decide) (show v.toNat < 64*k by omega)
  refine ⟨a',set,bits,Set.ext fun u => ?_⟩
  simp only [bitsOf,Set.mem_ofPred_eq,Set.mem_insert_iff,bits,or_eq_true,decide_eq_true_eq]
  constructor
  · grind
  · grind
theorem bitsOf_check (low : 0 ≤ v) (high : v < 64*k) : ∃ found, a.checkBit v.toNat = some found ∧ (found = true ↔ v ∈ bitsOf a) :=
  ⟨_,a.checkBit_bit (by decide) (by omega),fun bit => ⟨low,bit⟩,fun member => member.2⟩
theorem bitsOf_ext (same : bitsOf a = bitsOf a') : a = a' := by
  refine Words.ext_bits (by decide) fun v _ => ?_
  have bit : ∀ b : Words 64 k, (v : Int) ∈ bitsOf b ↔ b.bit v = true := fun b =>
    ⟨fun member => member.2,fun set => ⟨Int.natCast_nonneg v,set⟩⟩
  rw [Bool.eq_iff_iff,← bit,← bit,same]
theorem bitsOf_places (member : v ∈ bitsOf a) : 0 ≤ v ∧ v < 64*k := by
  refine ⟨member.1,?_⟩
  by_contra beyond
  have unset := a.bit_beyond (v := v.toNat) (by decide) (by omega)
  exact absurd (unset.symm.trans member.2) (by decide)

theorem bits_lawful : Lawful te_bits_intset 64 (fun _ => True) fun val => {v | 0 ≤ v ∧ BitVec.getLsbD val v.toNat = true} where
  clear s := ⟨trivial,by ext v; simp [te_bits_intset]⟩
  set s v _ low high := by
    refine ⟨s ||| 1#64 <<< v.toNat,if_pos ⟨low,high⟩,trivial,Set.ext fun u => ?_⟩
    simp only [Set.mem_ofPred_eq,Set.mem_insert_iff,mask_bit (show v.toNat < 64 by omega),or_eq_true,decide_eq_true_eq]
    constructor
    · grind
    · grind
  check s v low high := by
    refine ⟨decide (s &&& 1#64 <<< v.toNat ≠ 0),if_pos ⟨low,high⟩,?_⟩
    rw [decide_eq_true_iff,mask_check (by omega)]
    exact ⟨fun bit => ⟨low,bit⟩,fun member => member.2⟩
  ext s s' _ _ same := by
    refine BitVec.eq_of_getLsbD_eq fun j low => ?_
    have bit : ∀ val : BitVec 64, (j : Int) ∈ {v : Int | 0 ≤ v ∧ BitVec.getLsbD val v.toNat = true} ↔ val.getLsbD j = true :=
      fun val => ⟨fun member => member.2,fun set => ⟨Int.natCast_nonneg j,set⟩⟩
    rw [Bool.eq_iff_iff,← bit,← bit,same]
  places s v member := by grind
/-- A set of 1024 bits whose functions set and check them. -/
theorem words_lawful {ops : IntsetOps (Words 64 16)} (clear : ∀ s, ops.clear s = zeroWords 64 16)
    (sets : ∀ v s, 0 ≤ v → v < 1024 → ops.set v s = s.setBit v.toNat) (checks : ∀ v s, 0 ≤ v → v < 1024 → ops.check v s = s.checkBit v.toNat) :
    Lawful ops 1024 (fun _ => True) fun val => bitsOf (k := 16) val where
  clear s := ⟨trivial,by rw [clear]; exact bitsOf_zero⟩
  set s v _ low high := by
    obtain ⟨s',set,-,items⟩ := bitsOf_set (a := s) low (show v < 64*(16 : Nat) by omega)
    exact ⟨s',(sets v s low high).trans set,trivial,items⟩
  check s v low high := by
    obtain ⟨found,check,items⟩ := bitsOf_check (a := s) low (show v < 64*(16 : Nat) by omega)
    exact ⟨found,(checks v s low high).trans check,items⟩
  ext _ _ _ _ same := bitsOf_ext same
  places s v member := bitsOf_places member
theorem fdset_lawful : Lawful te_fdset_intset 1024 (fun _ => True) fun val => bitsOf (k := 16) val :=
  words_lawful (fun _ => rfl) (fun _ _ _ _ => if_neg (by omega)) fun _ _ _ _ => if_neg (by omega)
theorem cpuset_lawful : Lawful te_cpuset_intset 1024 (fun _ => True) fun val => bitsOf (k := 16) val :=
  words_lawful (fun _ => rfl) (fun _ _ low high => if_pos ⟨low,high⟩) fun _ _ low high => if_pos ⟨low,high⟩

theorem countBits_le (a : Words 64 4) : countBits a ≤ 256 := by
  have within := Finset.card_filter_le (Finset.range 256) fun v => a.bit v = true
  rwa [Finset.card_range] at within
/-- A character that was not there is counted once. -/
theorem countBits_set {a a' : Words 64 4} {v : Nat} (inside : v < 256) (absent : a.bit v = false)
    (bits : ∀ u, a'.bit u = (decide (u = v) || a.bit u)) : countBits a' = countBits a+1 := by
  have new : (Finset.range 256).filter (fun u => a'.bit u = true) = insert v ((Finset.range 256).filter fun u => a.bit u = true) := by
    ext u
    simp only [Finset.mem_filter,Finset.mem_insert,Finset.mem_range,bits,or_eq_true,decide_eq_true_eq]
    constructor
    · grind
    · grind
  have fresh : v ∉ (Finset.range 256).filter fun u => a.bit u = true := by simp [absent]
  rw [countBits,new,Finset.card_insert_of_notMem fresh,countBits]
theorem charset_lawful : Lawful te_charset_intset 256 (fun cs => cs.n_items = countBits cs.items) fun cs => bitsOf cs.items where
  clear s := ⟨by simp [te_charset_intset,countBits],bitsOf_zero⟩
  set cs v count low high := by
    obtain ⟨found,check,items⟩ := bitsOf_check (a := cs.items) low (show v < 64*(4 : Nat) by omega)
    have checked : check_charset_byte v cs = some found := (if_neg (by omega)).trans check
    have step : te_charset_intset.set v cs =
        if found then some cs else (cs.items.setBit v.toNat).map fun items => ⟨items,(cs.n_items+1)%2^32⟩ := by
      show (check_charset_byte v cs).bind _ = _
      rw [checked,bind_some]
    cases found with
    | true => exact ⟨cs,step,count,(Set.insert_eq_of_mem (items.mp rfl)).symm⟩
    | false =>
      obtain ⟨items',set,bits,inserted⟩ := bitsOf_set (a := cs.items) low (show v < 64*(4 : Nat) by omega)
      have absent : cs.items.bit v.toNat = false := by
        by_contra present
        exact Bool.false_ne_true (items.mpr ⟨low,Bool.eq_true_of_not_eq_false present⟩)
      have counted := countBits_set (show v.toNat < 256 by omega) absent bits
      refine ⟨⟨items',(cs.n_items+1)%2^32⟩,by rw [step,set]; rfl,?_,inserted⟩
      have few := countBits_le cs.items
      show (cs.n_items+1)%2^32 = countBits items'
      rw [counted,count]
      exact mod_eq_of_lt (by omega)
  check cs v low high := by
    obtain ⟨found,check,items⟩ := bitsOf_check (a := cs.items) low (show v < 64*(4 : Nat) by omega)
    exact ⟨found,(if_neg (by omega)).trans check,items⟩
  ext cs cs' count count' same := by
    cases cs with
    | mk items n_items =>
      cases cs' with
      | mk items' n_items' =>
        obtain rfl : items = items' := bitsOf_ext same
        rw [show n_items = n_items' from count.trans count'.symm]
  places cs v member := bitsOf_places member
/-- Each of the types is a type of sets. -/
theorem type_lawful (t : IntsetType) : Lawful t.ops t.size t.Valid t.items := by
  cases t with
  | bits => exact bits_lawful
  | charset => exact charset_lawful
  | fdset => exact fdset_lawful
  | cpuset => exact cpuset_lawful
end
end TestEnvironment.Tools.Intset
