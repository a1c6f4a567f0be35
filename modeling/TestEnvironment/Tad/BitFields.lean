import TestEnvironment.Tad.FieldReads

/-!
Generation and matching of fragments against each other, over all ways to cut the bytes into
segments.
-/
namespace TestEnvironment.Tad
open Lib
variable {Expr : Type}

/-- The data unit to match a value of a field with. -/
def FieldValue.pattern (len : Nat) : FieldValue → TadDataUnit Expr
  | .integer value => .I32 (UInt32.ofNat (FieldValue.number len (.integer value)))
  | .octets oct_str => .OCTS ⟨oct_str.length,some oct_str⟩
/-- The data unit holds the value; the memory of octets may be longer than these. -/
def FieldValue.HeldBy (len : Nat) : FieldValue → TadDataUnit Expr → Prop
  | .integer value, unit => unit = .I32 (UInt32.ofNat (FieldValue.number len (.integer value)))
  | .octets oct_str, unit => ∃ rest, unit = .OCTS ⟨oct_str.length,some (oct_str ++ rest)⟩
/-- Each field from one on has the data unit of its value as pattern. -/
def Patterned (ptrn rx_def : Nat → TadDataUnit Expr) (i : Nat) (fields : List TadBpsPktFrag) (values : List FieldValue) : Prop :=
  ∀ k descr value, fields[k]? = some descr → values[k]? = some value → txUnit ptrn rx_def (i+k) = value.pattern descr.len
/-- The data units hold the values of the fields. -/
def AllHeld : List TadBpsPktFrag → List FieldValue → List (TadDataUnit Expr) → Prop
  | [], [], [] => True
  | descr :: fields, value :: values, unit :: units => value.HeldBy descr.len unit ∧ AllHeld fields values units
  | _, _, _ => False

variable {values : List FieldValue}

section
variable {stale : List UInt8} {segs : List TadPktSeg} {descr : TadBpsPktFrag} {value : FieldValue} {bitoff : Nat}

/-- The data unit prepared for a proper field. -/
def freshUnit (descr : TadBpsPktFrag) : TadDataUnit Expr :=
  match descr.plain_du with
  | .OCTS => .OCTS ⟨descr.len/8,some (replicate descr.len 0)⟩
  | _ => .I32 0
theorem preparedUnit_proper (proper : ProperField bitoff descr) : preparedUnit descr = some (@freshUnit Expr descr) := by
  obtain ⟨nonempty,⟨plain,-⟩ | ⟨octets,-,whole⟩⟩ := proper
  · rw [preparedUnit,freshUnit,plain]
  · simp [octets,nonempty,whole,aligned_bits,byte_of_bits,preparedUnit,freshUnit]
variable {fields : List TadBpsPktFrag} {len i : Nat}

theorem match_pre_proper (proper : ProperFields bitoff fields) :
    fields.mapM preparedUnit = some (fields.map (@freshUnit Expr)) := by
  induction fields generalizing bitoff with
  | nil => rfl
  | cons descr fields ih =>
    rw [List.mapM_cons,preparedUnit_proper proper.1,ih proper.2]
    rfl
theorem number_lt (suits : Suits descr value) : value.number descr.len < 2^descr.len := by
  cases value with
  | integer value =>
    rw [FieldValue.number]
    have cast : ((2^descr.len : Nat) : Int) = 2^descr.len := by simp
    omega
  | octets oct_str =>
    rw [FieldValue.number,suits.2]
    exact beNum_lt oct_str
/-- The number of up to four bytes put at the end of an integer. -/
theorem integer_placed {number : Nat} (narrow : len ≤ 32) (small : number < 2^len) :
    ∃ after, copyTo (replicate 4 0) ((32-len) >>> 3) (beBytes ((len+7)/8) number) = some after ∧ beNum after = number := by
  have place : ((32-len) >>> 3)+(beBytes ((len+7)/8) number).length = 4 := by
    rw [byte_of_bits,beBytes_length]
    omega
  refine ⟨_,if_pos (by rw [place]; exact le_refl 4),Nat.eq_of_testBit_eq fun j => ?_⟩
  have long : (overwrite (replicate 4 (0 : UInt8)) ((32-len) >>> 3) (beBytes ((len+7)/8) number)).length = 4 :=
    overwrite_length (by rw [place]; exact le_refl 4)
  have fits : ((32-len) >>> 3)+(beBytes ((len+7)/8) number).length ≤ (replicate 4 (0 : UInt8)).length := le_of_eq place
  have high (beyond : len ≤ j) : number.testBit j = false :=
    Nat.testBit_lt_two_pow (lt_of_lt_of_le small (Nat.pow_le_pow_right (by decide) beyond))
  rw [beBytes_length,byte_of_bits] at place
  rw [testBit_beNum,long,bitAt_overwrite fits,beBytes_length,byte_of_bits]
  by_cases copied : j < 8*((len+7)/8)
  · rw [decide_eq_true (by omega),Bool.true_and,if_pos (by omega),bitAt_beBytes (by omega)]
    congr 1
    omega
  · rw [high (by omega)]
    by_cases inside : j < 8*4
    · rw [if_neg (by omega),bitAt,List.getElem?_replicate,if_pos (by omega)]
      simp
    · rw [decide_eq_false inside,Bool.false_and]
/-- A field that has the bits of its value is read back. -/
theorem read_back (word : stale.length = 4) (fits : 8*(lensOf segs).sum < SIZE_MOD) (proper : ProperField bitoff descr)
    (suits : Suits descr value) (inside : bitoff+descr.len ≤ 8*(lensOf segs).sum)
    (alike : Crosses bitoff descr.len → NextAlike (lensOf segs) (bitoff/8))
    (bits : ∀ i, bitoff ≤ i → i < bitoff+descr.len → bitAt (bytesOf segs) i = (value.number descr.len).testBit (bitoff+descr.len-1-i)) :
    ∃ unit, tad_bin_to_data_unit stale ⟨segs⟩ bitoff descr.len (@freshUnit Expr descr) = some unit ∧ value.HeldBy descr.len unit := by
  have number_ends : Ends (bytesOf segs) (bitoff+descr.len) descr.len (value.number descr.len) := by
    refine ⟨number_lt suits,fun j low => ?_⟩
    rw [bits _ (by omega) (by omega)]
    congr 1
    omega
  obtain ⟨nonempty,kind⟩ := proper
  have read := tad_pkt_read_bits_spec word fits nonempty inside (by omega) alike number_ends
  cases value with
  | integer value =>
    have plain : descr.plain_du = .I32 := suits
    have narrow : descr.len ≤ 32 := by grind
    obtain ⟨after,placed,result⟩ := integer_placed narrow (number_lt suits)
    refine ⟨_,?_,rfl⟩
    rw [freshUnit,plain]
    simp only [tad_bin_to_data_unit,if_neg (Nat.not_lt_of_le narrow),read,placed,bind,Option.bind,result]
  | octets oct_str =>
    obtain ⟨octets,long⟩ := suits
    have whole : beBytes ((descr.len+7)/8) (FieldValue.number descr.len (.octets oct_str)) = oct_str := by
      rw [show (descr.len+7)/8 = oct_str.length by omega]
      exact beBytes_beNum oct_str
    rw [whole] at read
    refine ⟨.OCTS ⟨oct_str.length,some (oct_str ++ (replicate descr.len 0).drop oct_str.length)⟩,?_,_,rfl⟩
    have room : 0+oct_str.length ≤ (replicate descr.len (0 : UInt8)).length := by
      rw [length_replicate]
      omega
    have same : descr.len = (descr.len/8) <<< 3 := by
      rw [Nat.shiftLeft_eq]
      omega
    rw [freshUnit,octets]
    simp only [tad_bin_to_data_unit,read,bind,Option.bind,copyTo]
    rw [if_neg (not_not_intro same),if_pos room,overwrite,Nat.zero_add,List.take_zero,nil_append,show descr.len/8 = oct_str.length by omega]
/-- What holds the value matches its pattern. -/
theorem held_match {unit : TadDataUnit Expr} (held : value.HeldBy len unit) : tad_data_unit_match (value.pattern len) unit = .ok () := by
  cases value with
  | integer value =>
    cases held
    exact if_pos rfl
  | octets oct_str =>
    obtain ⟨rest,rfl⟩ := held
    refine if_pos ⟨rfl,?_⟩
    simp [sameOctets]
theorem pattern_given (value : FieldValue) (len : Nat) : (@FieldValue.pattern Expr len value).du_type ≠ .UNDEF := by
  cases value <;> exact TadDuType.noConfusion
theorem fresh_given (proper : ProperField bitoff descr) : (@freshUnit Expr descr).du_type ≠ .UNDEF := by
  obtain ⟨-,⟨plain,-⟩ | ⟨octets,-⟩⟩ := proper
  · rw [freshUnit,plain]
    exact TadDuType.noConfusion
  · rw [freshUnit,octets]
    exact TadDuType.noConfusion

variable {ptrn rx_def : Nat → TadDataUnit Expr}
/-- A field with a pattern is read and matched. -/
theorem matchLoop_cons {rest : List (TadBpsPktFrag × TadDataUnit Expr)} (proper : ProperField bitoff descr)
    (patterned : txUnit ptrn rx_def i = value.pattern descr.len) :
    matchLoop stale ptrn rx_def ⟨segs⟩ ((descr,freshUnit descr) :: rest) i bitoff = (do
      let unit ← orCrash (tad_bin_to_data_unit stale ⟨segs⟩ bitoff descr.len (freshUnit descr))
      tad_data_unit_match (value.pattern descr.len) unit
      let (units,bitoff) ← matchLoop stale ptrn rx_def ⟨segs⟩ rest (i+1) ((bitoff+descr.len)%UINT_MOD)
      .ok (unit :: units,bitoff)) := by
  have long : fieldLen descr (@freshUnit Expr descr) = .ok descr.len := if_pos proper.1
  have given := @pattern_given Expr value descr.len
  have fresh := @fresh_given Expr descr bitoff proper
  have chosen : (if (ptrn i).du_type ≠ .UNDEF then ptrn i else rx_def i) = value.pattern descr.len := patterned
  rw [matchLoop]
  simp only [chosen,long,given,fresh,bind,Except.bind,ne_eq,not_false_eq_true,if_true,or_self,false_and,and_false,if_false]
theorem matchLoop_spec (word : stale.length = 4)
    (fits : 8*(lensOf segs).sum < SIZE_MOD) (proper : ProperFields bitoff fields) (suits : List.Forall₂ Suits fields values)
    (patterned : Patterned ptrn rx_def i fields values) (inside : bitoff+fieldsLen fields ≤ 8*(lensOf segs).sum)
    (representable : bitoff+fieldsLen fields < UINT_MOD)
    (alike : ∀ front descr back, fields = front ++ descr :: back → Crosses (bitoff+fieldsLen front) descr.len →
      NextAlike (lensOf segs) ((bitoff+fieldsLen front)/8)) (carries : Carries (bytesOf segs) bitoff fields values) :
    ∃ units, matchLoop stale ptrn rx_def ⟨segs⟩ (fields.zip (fields.map freshUnit)) i bitoff = .ok (units,bitoff+fieldsLen fields) ∧
      AllHeld fields values units := by
  induction fields generalizing bitoff values i with
  | nil =>
    cases suits
    exact ⟨[],rfl,trivial⟩
  | cons descr fields ih =>
    cases suits with
    | @cons _ value _ values suit suits =>
    rw [fieldsLen_cons] at inside representable ⊢
    obtain ⟨unit,read,held⟩ := @read_back Expr stale segs descr value bitoff word fits proper.1 suit (by omega) (alike [] descr fields rfl) carries.1
    obtain ⟨units,run,rest⟩ := ih (i := i+1) proper.2 suits
      (fun k descr' value' field given => by rw [Nat.add_right_comm]; exact patterned (k+1) descr' value' field given) (by omega) (by omega)
      (fun front descr' back split crosses => by
        have whole := alike (descr :: front) descr' back (by rw [split]; rfl)
        rw [fieldsLen_cons,← Nat.add_assoc] at whole
        exact whole crosses) carries.2
    refine ⟨unit :: units,?_,held,rest⟩
    have here : txUnit ptrn rx_def i = value.pattern descr.len := patterned 0 descr value rfl rfl
    rw [map_cons,List.zip_cons_cons,matchLoop_cons proper.1 here,read]
    simp only [orCrash,bind,Except.bind,held_match held]
    rw [mod_eq_of_lt (by omega),run,Nat.add_assoc]
end

section
variable (tad_int_expr_calculate : Option Expr → Except Nat Int) (fragment : TadBpsPktFragDef Expr) (bitoff : Nat) (lens : List Nat)

/-- Whatever values the fields are given: the fragment is generated without a change of another bit, and from the bytes in segments of
these lengths the same values are matched and read back. -/
def Survives : Prop :=
  ∀ (bin : List UInt8) (max_bitlen : Nat) (pkt : Nat → TadDataUnit Expr) (values : List FieldValue), bin.length = lens.sum → max_bitlen%8 = 0 →
    Assigned tad_int_expr_calculate pkt fragment.tx_def 0 fragment.descr values →
    ∃ after, tad_bps_pkt_frag_gen_bin tad_int_expr_calculate fragment pkt bin bitoff max_bitlen = .ok (after,bitoff+fieldsLen fragment.descr) ∧
      after.length = bin.length ∧ (∀ j, j < bitoff ∨ bitoff+fieldsLen fragment.descr ≤ j → bitAt after j = bitAt bin j) ∧
      ∀ (stale : List UInt8) (segs : List TadPktSeg) (ptrn : Nat → TadDataUnit Expr), stale.length = 4 → lensOf segs = lens → bytesOf segs = after →
        Patterned ptrn fragment.rx_def 0 fragment.descr values →
        ∃ pkt_data units, tad_bps_pkt_frag_match_pre fragment = some pkt_data ∧
          tad_bps_pkt_frag_match_do stale fragment ptrn pkt_data ⟨segs⟩ bitoff = .ok (units,bitoff+fieldsLen fragment.descr) ∧
          AllHeld fragment.descr values units
/-- Where a field goes on behind its first byte and ends with a byte, its first byte is not the last one of its segment, or the next
segment with bytes has as many. -/
def CrossingsAlike : Prop :=
  ∀ front descr back, fragment.descr = front ++ descr :: back → Crosses (bitoff+fieldsLen front) descr.len →
    NextAlike lens ((bitoff+fieldsLen front)/8)
variable {tad_int_expr_calculate fragment bitoff lens}

theorem gen_bin_spec {bin : List UInt8} {max_bitlen : Nat} {pkt : Nat → TadDataUnit Expr}
    (proper : ProperFields bitoff fragment.descr) (aligned : bitoff%8 = 0) (whole : max_bitlen%8 = 0)
    (assigned : Assigned tad_int_expr_calculate pkt fragment.tx_def 0 fragment.descr values)
    (inside : bitoff+fieldsLen fragment.descr ≤ 8*bin.length) (representable : bitoff+fieldsLen fragment.descr < UINT_MOD) :
    ∃ after, tad_bps_pkt_frag_gen_bin tad_int_expr_calculate fragment pkt bin bitoff max_bitlen = .ok (after,bitoff+fieldsLen fragment.descr) ∧
      after.length = bin.length ∧ Carries after bitoff fragment.descr values ∧
      ∀ j, j < bitoff ∨ bitoff+fieldsLen fragment.descr ≤ j → bitAt after j = bitAt bin j := by
  obtain ⟨after,run,rest⟩ := genLoop_spec proper assigned inside representable
  refine ⟨after,?_,rest⟩
  rw [tad_bps_pkt_frag_gen_bin,aligned_bits,aligned_bits,if_neg (by omega),run]
theorem survives_of_alike (proper : ProperFields bitoff fragment.descr) (aligned : bitoff%8 = 0)
    (inside : bitoff+fieldsLen fragment.descr ≤ 8*lens.sum) (representable : bitoff+fieldsLen fragment.descr < UINT_MOD)
    (fits : 8*lens.sum < SIZE_MOD) (alike : CrossingsAlike fragment bitoff lens) : Survives tad_int_expr_calculate fragment bitoff lens := by
  intro bin max_bitlen pkt values length whole assigned
  obtain ⟨after,generated,same,carries,outside⟩ := gen_bin_spec proper aligned whole assigned (show bitoff+fieldsLen fragment.descr ≤ 8*bin.length by rw [length]; exact inside) representable
  refine ⟨after,generated,same,outside,fun stale segs ptrn word cut bytes patterned => ?_⟩
  subst cut
  subst bytes
  obtain ⟨units,run,held⟩ := matchLoop_spec word fits proper assigned.1 patterned inside representable alike carries
  exact ⟨_,units,match_pre_proper proper,run,held⟩
end
end TestEnvironment.Tad
