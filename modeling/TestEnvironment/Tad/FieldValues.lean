import TestEnvironment.Tad.FieldWrites

/-!
Values for the fields of a fragment, and what `tad_bps_pkt_frag_gen_bin` does with them.
-/
namespace TestEnvironment.Tad
open Lib

/-- What a field is to carry. -/
inductive FieldValue
  | integer (value : Int)
  | octets (oct_str : List UInt8)
  deriving DecidableEq, Repr
/-- The number that the bits of a field are to give. -/
def FieldValue.number (len : Nat) : FieldValue → Nat
  | .integer value => (value%2^len).toNat
  | .octets oct_str => beNum oct_str

/-- An integer of up to 32 bits that ends within 32 bits of the byte it starts in, or whole octets. -/
def ProperField (bitoff : Nat) (descr : TadBpsPktFrag) : Prop :=
  0 < descr.len ∧ (descr.plain_du = .I32 ∧ bitoff%8+descr.len ≤ 32 ∨ descr.plain_du = .OCTS ∧ bitoff%8 = 0 ∧ descr.len%8 = 0)
def ProperFields : Nat → List TadBpsPktFrag → Prop
  | _, [] => True
  | bitoff, descr :: rest => ProperField bitoff descr ∧ ProperFields (bitoff+descr.len) rest
def fieldsLen (fields : List TadBpsPktFrag) : Nat := (fields.map TadBpsPktFrag.len).sum

/-- The value suits the field. -/
def Suits (descr : TadBpsPktFrag) : FieldValue → Prop
  | .integer _ => descr.plain_du = .I32
  | .octets oct_str => descr.plain_du = .OCTS ∧ descr.len = 8*oct_str.length

section
variable {Expr : Type} (tad_int_expr_calculate : Option Expr → Except Nat Int)

/-- The data unit stands for the value: an integer given plainly or by an expression, or octets. -/
inductive Sends : TadDataUnit Expr → FieldValue → Prop
  | plain (v : UInt32) : Sends (.I32 v) (.integer v.toNat)
  | expr {e : Option Expr} {value : Int} : tad_int_expr_calculate e = .ok value → Sends (.EXPR e) (.integer value)
  | octets (oct_str : List UInt8) : Sends (.OCTS ⟨oct_str.length,some oct_str⟩) (.octets oct_str)
/-- Each field from one on has a data unit to send that stands for its value. -/
def Assigned (pkt tx_def : Nat → TadDataUnit Expr) (i : Nat) (fields : List TadBpsPktFrag) (values : List FieldValue) : Prop :=
  List.Forall₂ Suits fields values ∧ ∀ k value, values[k]? = some value → Sends tad_int_expr_calculate (txUnit pkt tx_def (i+k)) value
end

/-- The bits of consecutive fields are those of their values. -/
def Carries (bin : List UInt8) : Nat → List TadBpsPktFrag → List FieldValue → Prop
  | bitoff, descr :: fields, value :: values =>
    (∀ i, bitoff ≤ i → i < bitoff+descr.len → bitAt bin i = (value.number descr.len).testBit (bitoff+descr.len-1-i)) ∧
      Carries bin (bitoff+descr.len) fields values
  | _, _, _ => True

theorem fieldsLen_cons (descr : TadBpsPktFrag) (fields : List TadBpsPktFrag) : fieldsLen (descr :: fields) = descr.len+fieldsLen fields := by
  simp [fieldsLen]
/-- The last bits of an integer do not depend on how many of them are taken. -/
theorem testBit_emod {value : Int} {len w j : Nat} (within : j < len) (narrow : len ≤ w) :
    (value%2^w).toNat.testBit j = (value%2^len).toNat.testBit j := by
  have power (n : Nat) : (0 : Int) < 2^n := Int.pow_pos (by decide)
  have positive : (0 : Int) ≤ value%2^w := Int.emod_nonneg value (Int.ne_of_gt (power w))
  have same : (value%2^len).toNat = (value%2^w).toNat%2^len := by
    have chain : value%2^w%2^len = value%2^len := Int.emod_emod_of_dvd value (pow_dvd_pow 2 narrow)
    rw [← chain,Int.toNat_emod positive (Int.le_of_lt (power len))]
    rfl
  rw [same,Nat.testBit_mod_two_pow,decide_eq_true within,Bool.true_and]
theorem testBit_plain {v : UInt32} {len j : Nat} (within : j < len) (narrow : len ≤ 32) :
    v.toNat.testBit j = ((v.toNat : Int)%2^len).toNat.testBit j := by
  have whole : ((v.toNat : Int)%2^32).toNat = v.toNat := by
    have small := v.toNat_lt
    omega
  rw [← testBit_emod within narrow,whole]

section
variable {Expr : Type} {tad_int_expr_calculate : Option Expr → Except Nat Int} {descr : TadBpsPktFrag} {du : TadDataUnit Expr}
  {value : FieldValue} {bin : List UInt8} {bitoff : Nat}

theorem aligned_bits (n : Nat) : n &&& 7 = n%8 := Nat.and_two_pow_sub_one_eq_mod n 3
theorem byte_of_bits (n : Nat) : n >>> 3 = n/8 := Nat.shiftRight_eq_div_pow n 3

section
variable (proper : ProperField bitoff descr) (suits : Suits descr value) (sends : Sends tad_int_expr_calculate du value)
include proper suits sends
/-- A field on byte borders. -/
theorem to_bin_written (aligned : bitoff%8 = 0) (whole : descr.len%8 = 0) (inside : bitoff+descr.len ≤ 8*bin.length) :
    ∃ after, tad_data_unit_to_bin tad_int_expr_calculate du bin (bitoff/8) (descr.len/8) = .ok after ∧
      Written bin after bitoff descr.len (value.number descr.len) := by
  obtain ⟨nonempty,kind⟩ := proper
  have some' : ¬descr.len/8 = 0 := by omega
  cases sends with
  | plain v =>
    have narrow : descr.len ≤ 32 := by grind [Suits]
    obtain ⟨after,copied,written⟩ := number_written (v := v.toNat) aligned whole inside
    refine ⟨after,?_,written.congr fun j within => testBit_plain within narrow⟩
    rw [tad_data_unit_to_bin,if_neg some',if_neg (by omega),copied]
    rfl
  | @expr e x calculated =>
    have narrow : descr.len ≤ 32 := by grind [Suits]
    obtain ⟨after,copied,written⟩ := number_written (v := (x%2^64).toNat) aligned whole inside
    refine ⟨after,?_,written.congr fun j within => testBit_emod within (by omega)⟩
    simp only [tad_data_unit_to_bin,if_neg some',calculated]
    rw [if_neg (by omega),copied]
    rfl
  | octets oct_str =>
    obtain ⟨-,long⟩ := suits
    obtain ⟨after,copied,written⟩ := @copyTo_written bin bitoff descr.len oct_str aligned long.symm inside (beNum oct_str)
      fun i within => by
        rw [testBit_beNum,decide_eq_true (by omega),Bool.true_and]
        congr 1
        omega
    refine ⟨after,?_,written⟩
    simp only [tad_data_unit_to_bin,if_neg some']
    rw [if_neg (by omega),take_of_length_le (by omega),copied]
    rfl
theorem genField_written (inside : bitoff+descr.len ≤ 8*bin.length) :
    ∃ after, genField tad_int_expr_calculate du bin bitoff descr.len = .ok after ∧ Written bin after bitoff descr.len (value.number descr.len) := by
  by_cases aligned : bitoff%8 = 0 ∧ descr.len%8 = 0
  · simp [aligned,proper,suits,sends,inside,aligned_bits,byte_of_bits,to_bin_written,genField]
  · obtain ⟨nonempty,⟨plain,short⟩ | ⟨-,start,long⟩⟩ := proper
    · cases sends with
      | plain v =>
        obtain ⟨after,run,written⟩ := @write_bits_spec bin bitoff descr.len v.toNat short nonempty inside
        refine ⟨after,?_,written.congr fun j within => testBit_plain within (by omega)⟩
        rw [genField,aligned_bits,aligned_bits,if_neg aligned]
        simp only [run]
        rfl
      | @expr e x calculated =>
        obtain ⟨after,run,written⟩ := @write_bits_spec bin bitoff descr.len (x%2^32).toNat short nonempty inside
        refine ⟨after,?_,written.congr fun j within => testBit_emod within (by omega)⟩
        rw [genField,aligned_bits,aligned_bits,if_neg aligned]
        simp only [calculated]
        rw [show ((UINT_MOD : Nat) : Int) = 2^32 from rfl,run]
        rfl
      | octets oct_str =>
        rw [Suits,plain] at suits
        exact absurd suits.1 (by decide)
    · exact absurd ⟨start,long⟩ aligned
end
/-- The fields get the bits of their values, one after the other; nothing else changes. -/
theorem genLoop_spec {pkt tx_def : Nat → TadDataUnit Expr} {fields : List TadBpsPktFrag} {values : List FieldValue} {i : Nat}
    (proper : ProperFields bitoff fields) (assigned : Assigned tad_int_expr_calculate pkt tx_def i fields values)
    (inside : bitoff+fieldsLen fields ≤ 8*bin.length) (representable : bitoff+fieldsLen fields < UINT_MOD) :
    ∃ after, genLoop tad_int_expr_calculate pkt tx_def fields i bin bitoff = .ok (after,bitoff+fieldsLen fields) ∧
      after.length = bin.length ∧ Carries after bitoff fields values ∧
      ∀ j, j < bitoff ∨ bitoff+fieldsLen fields ≤ j → bitAt after j = bitAt bin j := by
  induction fields generalizing bin bitoff values i with
  | nil => exact ⟨bin,rfl,rfl,by simp [Carries],fun _ _ => rfl⟩
  | cons descr fields ih =>
    obtain ⟨suits,sends⟩ := assigned
    cases suits with
    | @cons _ value _ values suit suits =>
    rw [fieldsLen_cons] at inside representable ⊢
    obtain ⟨first,rest⟩ := proper
    have sent := sends 0 value rfl
    obtain ⟨middle,generated,written⟩ := genField_written first suit sent (show bitoff+descr.len ≤ 8*bin.length by omega)
    obtain ⟨after,run,length,carries,outside⟩ := @ih middle (bitoff+descr.len) values (i+1) rest
      ⟨suits,fun k v here => by rw [Nat.add_right_comm]; exact sends (k+1) v here⟩ (by rw [written.length]; omega) (by omega)
    refine ⟨after,?_,length.trans written.length,⟨fun j low high => ?_,carries⟩,fun j away => ?_⟩
    · have given : (txUnit pkt tx_def i).du_type ≠ .UNDEF := by
        have here : Sends tad_int_expr_calculate (txUnit pkt tx_def i) value := sent
        generalize txUnit pkt tx_def i = du at here
        cases here <;> exact TadDuType.noConfusion
      have long : fieldLen descr (txUnit pkt tx_def i) = .ok descr.len := if_pos first.1
      rw [Nat.add_zero] at generated
      rw [genLoop]
      simp only [if_neg given,long,generated,bind,Except.bind]
      rw [mod_eq_of_lt (by omega),run,Nat.add_assoc]
    · rw [outside j (.inl high),written.inside j low high]
    · rw [outside j (by omega),written.outside j (by omega)]
end
end TestEnvironment.Tad
