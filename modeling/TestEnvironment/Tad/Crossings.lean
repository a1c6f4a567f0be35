import TestEnvironment.Tad.BitFields

/-!
Fields that are not read back: one field has a byte of ones and all others are zero, so that the
bytes of a wrong place are noticed.
-/
namespace TestEnvironment.Tad
open Lib
variable {Expr : Type}

variable {values others : List FieldValue} {fields front back : List TadBpsPktFrag} {value : FieldValue}

section
variable {bytes bin : List UInt8} {descr : TadBpsPktFrag} {bitoff : Nat}

theorem beNum_zero (zero : ∀ i, i < 8*bytes.length → bitAt bytes i = false) : beNum bytes = 0 := by
  refine Nat.eq_of_testBit_eq fun j => ?_
  rw [testBit_beNum,Nat.zero_testBit]
  by_cases inside : j < 8*bytes.length
  · rw [zero _ (by omega),Bool.and_false]
  · rw [decide_eq_false inside,Bool.false_and]
theorem bitAt_zeros (n i : Nat) : bitAt (replicate n 0) i = false := by
  rw [bitAt,List.getElem?_replicate]
  split <;> simp
/-- The value of a field that has no bits set. -/
def zeroValue (descr : TadBpsPktFrag) : FieldValue :=
  match descr.plain_du with
  | .OCTS => .octets (replicate (descr.len/8) 0)
  | _ => .integer 0
theorem zeroValue_suits (proper : ProperField bitoff descr) : Suits descr (zeroValue descr) := by
  obtain ⟨-,⟨plain,-⟩ | ⟨octets,-,whole⟩⟩ := proper
  · rw [zeroValue,plain]
    exact plain
  · rw [zeroValue,octets]
    exact ⟨octets,by rw [length_replicate]; omega⟩
theorem zeroValue_number (descr : TadBpsPktFrag) (len : Nat) : (zeroValue descr).number len = 0 := by
  unfold zeroValue
  split
  · exact beNum_zero fun i _ => bitAt_zeros _ i
  · rw [FieldValue.number,Int.zero_emod]
    rfl
theorem zeros_carried (carries : Carries bin bitoff fields (fields.map zeroValue)) {i : Nat} (low : bitoff ≤ i)
    (high : i < bitoff+fieldsLen fields) : bitAt bin i = false := by
  induction fields generalizing bitoff with
  | nil => exact absurd high (Nat.not_lt_of_le low)
  | cons descr fields ih =>
    rw [fieldsLen_cons] at high
    by_cases here : i < bitoff+descr.len
    · rw [carries.1 i low here,zeroValue_number,Nat.zero_testBit]
    · exact ih carries.2 (by omega) (by omega)
theorem fieldsLen_append (front back : List TadBpsPktFrag) : fieldsLen (front ++ back) = fieldsLen front+fieldsLen back := by simp [fieldsLen]
theorem Carries.append (same : front.length = values.length)
    (carries : Carries bin bitoff (front ++ back) (values ++ others)) :
    Carries bin bitoff front values ∧ Carries bin (bitoff+fieldsLen front) back others := by
  induction front generalizing bitoff values with
  | nil =>
    have none := length_eq_zero_iff.mp same.symm
    subst none
    exact ⟨trivial,carries⟩
  | cons descr front ih =>
    cases values with
    | nil => cases same
    | cons value values =>
      obtain ⟨first,rest⟩ := ih (Nat.succ.inj same) carries.2
      refine ⟨⟨carries.1,first⟩,?_⟩
      rw [fieldsLen_cons,← Nat.add_assoc]
      exact rest
theorem ProperFields.append (proper : ProperFields bitoff (front ++ back)) :
    ProperFields bitoff front ∧ ProperFields (bitoff+fieldsLen front) back := by
  induction front generalizing bitoff with
  | nil => exact ⟨trivial,proper⟩
  | cons descr front ih =>
    obtain ⟨first,rest⟩ := ih proper.2
    refine ⟨⟨proper.1,first⟩,?_⟩
    rw [fieldsLen_cons,← Nat.add_assoc]
    exact rest
theorem zeroValues_suit (proper : ProperFields bitoff fields) : List.Forall₂ Suits fields (fields.map zeroValue) := by
  induction fields generalizing bitoff with
  | nil => exact .nil
  | cons descr fields ih => exact .cons (zeroValue_suits proper.1) (ih proper.2)
end

section

/-- Bytes cut into segments of given lengths. -/
def cutInto : List Nat → List UInt8 → List TadPktSeg
  | [], _ => []
  | len :: lens, bytes => ⟨bytes.take len⟩ :: cutInto lens (bytes.drop len)
theorem cutInto_spec {lens : List Nat} {bytes : List UInt8} (all : bytes.length = lens.sum) :
    lensOf (cutInto lens bytes) = lens ∧ bytesOf (cutInto lens bytes) = bytes := by
  induction lens generalizing bytes with
  | nil => exact ⟨rfl,(length_eq_zero_iff.mp all).symm⟩
  | cons len lens ih => simp_all [bytesOf_cons,cutInto,lensOf,TadPktSeg.data_len]
end

section

/-- A data unit to send for a value. -/
def FieldValue.plainUnit : FieldValue → TadDataUnit Expr
  | .integer value => .I32 (UInt32.ofNat value.toNat)
  | .octets oct_str => .OCTS ⟨oct_str.length,some oct_str⟩
def plainUnits (values : List FieldValue) (i : Nat) : TadDataUnit Expr := ((values[i]?).map FieldValue.plainUnit).getD .UNDEF
def patternUnits (fields : List TadBpsPktFrag) (values : List FieldValue) (i : Nat) : TadDataUnit Expr :=
  (((fields.zip values)[i]?).map fun field => field.2.pattern field.1.len).getD .UNDEF
/-- The value is one of 32 bits. -/
def Plain : FieldValue → Prop
  | .integer value => 0 ≤ value ∧ value < 2^32
  | .octets _ => True
theorem plainUnit_sends {tad_int_expr_calculate : Option Expr → Except Nat Int} (plain : Plain value) :
    Sends tad_int_expr_calculate value.plainUnit value := by
  cases value with
  | integer value =>
    have same : ((UInt32.ofNat value.toNat).toNat : Int) = value := by
      obtain ⟨low,high⟩ := plain
      rw [UInt32.toNat_ofNat']
      omega
    have sends := @Sends.plain Expr tad_int_expr_calculate (UInt32.ofNat value.toNat)
    rwa [same] at sends
  | octets oct_str => exact .octets oct_str
theorem plainUnits_assigned {tad_int_expr_calculate : Option Expr → Except Nat Int} {tx_def : Nat → TadDataUnit Expr}
    (suits : List.Forall₂ Suits fields values) (plain : ∀ value ∈ values, Plain value) :
    Assigned tad_int_expr_calculate (plainUnits values) tx_def 0 fields values := by
  refine ⟨suits,fun k value given => ?_⟩
  have sends := @plainUnit_sends Expr value tad_int_expr_calculate (plain value (mem_of_getElem? given))
  have unit : @plainUnits Expr values k = value.plainUnit := by
    rw [plainUnits,given]
    rfl
  have defined : (@FieldValue.plainUnit Expr value).du_type ≠ .UNDEF := by
    cases value <;> exact TadDuType.noConfusion
  rw [Nat.zero_add,txUnit,unit,if_pos defined]
  exact sends
theorem patternUnits_patterned (rx_def : Nat → TadDataUnit Expr) (fields : List TadBpsPktFrag) (values : List FieldValue) :
    Patterned (patternUnits fields values) rx_def 0 fields values := by
  intro k descr value field given
  have unit : @patternUnits Expr fields values k = value.pattern descr.len := by grind [patternUnits]
  rw [Nat.zero_add,txUnit,unit,if_pos (pattern_given value descr.len)]
end

section
variable {stale : List UInt8} {segs : List TadPktSeg} {ptrn rx_def : Nat → TadDataUnit Expr} {bitoff : Nat}

/-- A field that was matched has been read. -/
theorem matched_read {descr : TadBpsPktFrag} {i stop : Nat}
    {units : List (TadDataUnit Expr)} (proper : ProperFields bitoff (front ++ descr :: back)) (same : front.length = values.length)
    (patterned : Patterned ptrn rx_def i (front ++ descr :: back) (values ++ value :: others))
    (representable : bitoff+fieldsLen (front ++ descr :: back) < UINT_MOD)
    (matched : matchLoop stale ptrn rx_def ⟨segs⟩ ((front ++ descr :: back).zip ((front ++ descr :: back).map freshUnit)) i bitoff = .ok (units,stop))
    (held : AllHeld (front ++ descr :: back) (values ++ value :: others) units) :
    ∃ unit, tad_bin_to_data_unit stale ⟨segs⟩ (bitoff+fieldsLen front) descr.len (@freshUnit Expr descr) = some unit ∧
      value.HeldBy descr.len unit := by
  induction front generalizing bitoff values i units with
  | nil =>
    have none := length_eq_zero_iff.mp same.symm
    subst none
    have here : txUnit ptrn rx_def i = value.pattern descr.len := patterned 0 descr value rfl rfl
    rw [nil_append,map_cons,List.zip_cons_cons,matchLoop_cons proper.1 here] at matched
    cases read : tad_bin_to_data_unit stale ⟨segs⟩ bitoff descr.len (@freshUnit Expr descr) with
    | none =>
      rw [read] at matched
      cases matched
    | some unit =>
      rw [read] at matched
      refine ⟨unit,read,?_⟩
      simp only [orCrash,bind,Except.bind] at matched
      split at matched
      · cases matched
      · split at matched
        · cases matched
        · cases matched
          exact held.1
  | cons first front ih =>
    cases values with
    | nil => cases same
    | cons early values =>
      have here : txUnit ptrn rx_def i = early.pattern first.len := patterned 0 first early rfl rfl
      rw [cons_append,fieldsLen_cons] at representable
      rw [cons_append,map_cons,List.zip_cons_cons,matchLoop_cons proper.1 here] at matched
      simp only [orCrash,bind,Except.bind] at matched
      split at matched
      · cases matched
      · split at matched
        · cases matched
        · split at matched
          · cases matched
          · next rest run =>
            cases matched
            rw [mod_eq_of_lt (by omega)] at run
            have found := @ih values (bitoff+first.len) (i+1) rest.1 proper.2 (Nat.succ.inj same)
              (fun k descr' value' field given => by rw [Nat.add_right_comm]; exact patterned (k+1) descr' value' field given)
              (by omega) run held.2
            rw [fieldsLen_cons,← Nat.add_assoc]
            exact found
/-- A byte of ones right behind the first byte of the field. -/
def marked (len : Nat) : Nat := (2^8-1) <<< (8*(len/8-1))
variable {len : Nat}

theorem testBit_marked {j : Nat} (long : 8 ≤ len) : (marked len).testBit j = (decide (8*(len/8)-8 ≤ j) && decide (j < 8*(len/8))) := by
  rw [marked,Nat.testBit_shiftLeft,testBit_ones,show 8*(len/8-1) = 8*(len/8)-8 by omega]
  by_cases above : 8*(len/8)-8 ≤ j
  · grind
  · rw [decide_eq_false above,Bool.false_and,Bool.false_and]
theorem marked_lt (long : 8 ≤ len) : marked len < 2^len := by
  refine Nat.lt_pow_two_of_testBit _ fun j high => ?_
  rw [testBit_marked long,decide_eq_false (show ¬j < 8*(len/8) by omega),Bool.and_false]
theorem marked_number (long : 8 ≤ len) : FieldValue.number len (.integer (marked len)) = marked len := by
  have small := marked_lt long
  have cast : ((2^len : Nat) : Int) = 2^len := by simp
  rw [FieldValue.number,Int.emod_eq_of_lt (Int.natCast_nonneg _) (by omega),Int.toNat_natCast]
/-- Read at a wrong place, the field has no bits. -/
theorem mark_missed {descr : TadBpsPktFrag} {unit : TadDataUnit Expr} (fits : 8*(lensOf segs).sum < SIZE_MOD)
    (inside : bitoff+descr.len ≤ 8*(lensOf segs).sum) (crosses : Crosses bitoff descr.len) (unlike : ¬NextAlike (lensOf segs) (bitoff/8))
    (plain : descr.plain_du = .I32)
    (zero : ∀ i, i < 8*(bitoff/8+1) ∨ 8*(bitoff/8+2) ≤ i → bitAt (bytesOf segs) i = false)
    (read : tad_bin_to_data_unit stale ⟨segs⟩ bitoff descr.len (freshUnit descr) = some unit) : unit = .I32 0 := by
  rw [freshUnit,plain] at read
  simp only [tad_bin_to_data_unit] at read
  split at read
  · cases read
  · cases bits : tad_pkt_read_bits stale ⟨segs⟩ bitoff descr.len with
    | none =>
      rw [bits] at read
      cases read
    | some bytes =>
      obtain ⟨place,far,same⟩ := crossing_wrong fits inside crosses unlike bits
      have none (i : Nat) : bitAt bytes i = false := by
        rw [same,bitAt_cons]
        by_cases first : i < 8
        · have early := zero (8*(bitoff/8)+i) (.inl (by omega))
          rw [bitAt,show (8*(bitoff/8)+i)/8 = bitoff/8 by omega,show (8*(bitoff/8)+i)%8 = i by omega] at early
          rw [if_pos first,testBit_byte,Nat.testBit_and,early,Bool.false_and,Bool.and_false]
        · rw [if_neg first]
          by_cases within : i-8 < 8*(descr.len/8)
          · rw [bitAt_take within,bitAt_drop,zero _ (.inr (by omega))]
          · exact bitAt_beyond (by rw [length_take]; omega)
      rw [bits] at read
      simp only [bind,Option.bind,copyTo] at read
      split at read
      · cases read
      · next value placed =>
        split at placed
        · next room =>
          cases placed
          cases read
          congr 1
          rw [beNum_zero fun i _ => ?_]
          · rfl
          · grind [bitAt_overwrite,bitAt_zeros]
        · cases placed
theorem marked_lost (long : 8 ≤ len) (narrow : len ≤ 32) : UInt32.ofNat (marked len) ≠ 0 := by
  intro none
  have small := lt_of_lt_of_le (marked_lt long) (Nat.pow_le_pow_right (by decide) narrow)
  have number := congrArg UInt32.toNat none
  rw [UInt32.toNat_ofNat',mod_eq_of_lt small] at number
  have bit := testBit_marked (j := 8*(len/8)-1) long
  rw [number,decide_eq_true (by omega),decide_eq_true (by omega)] at bit
  cases bit.symm.trans (Nat.zero_testBit _)

variable {tad_int_expr_calculate : Option Expr → Except Nat Int} {fragment : TadBpsPktFragDef Expr} {lens : List Nat}

/-- Values with one mark, in a field that crosses into an unlike segment, do not survive. -/
theorem alike_of_survives (proper : ProperFields bitoff fragment.descr) (aligned : bitoff%8 = 0)
    (inside : bitoff+fieldsLen fragment.descr ≤ 8*lens.sum) (representable : bitoff+fieldsLen fragment.descr < UINT_MOD)
    (fits : 8*lens.sum < SIZE_MOD) (survives : Survives tad_int_expr_calculate fragment bitoff lens) : CrossingsAlike fragment bitoff lens := by
  intro front descr back split crosses
  by_contra unlike
  obtain ⟨start,stop,long⟩ := id crosses
  rw [split] at inside representable
  have room := inside
  rw [fieldsLen_append,fieldsLen_cons] at room
  obtain ⟨front_proper,here,back_proper⟩ := (split ▸ proper).append
  obtain ⟨-,⟨plain,narrow⟩ | ⟨-,border,-⟩⟩ := here
  case inr => exact start border
  have small := marked_lt long
  have word : 2^descr.len ≤ 2^32 := Nat.pow_le_pow_right (by decide) (by omega)
  let values := front.map zeroValue ++ .integer (marked descr.len) :: back.map zeroValue
  have suits : List.Forall₂ Suits fragment.descr values := by
    rw [split]
    exact List.rel_append (zeroValues_suit front_proper) (.cons plain (zeroValues_suit back_proper))
  have plain_zero (descr : TadBpsPktFrag) : Plain (zeroValue descr) := by
    unfold zeroValue
    split
    · trivial
    · exact ⟨Int.le_refl 0,by decide⟩
  have plains : ∀ value ∈ values, Plain value := by
    intro value member
    obtain early | rfl | late := by simpa only [values,mem_append,mem_cons] using member
    · obtain ⟨_,-,rfl⟩ := mem_map.mp early
      exact plain_zero _
    · exact ⟨Int.natCast_nonneg _,by omega⟩
    · obtain ⟨_,-,rfl⟩ := mem_map.mp late
      exact plain_zero _
  have assigned := @plainUnits_assigned Expr values fragment.descr tad_int_expr_calculate fragment.tx_def suits plains
  have zeros : (replicate lens.sum (0 : UInt8)).length = lens.sum := length_replicate
  obtain ⟨after,generated,length,outside,survived⟩ := survives (replicate lens.sum 0) 0 (plainUnits values) values zeros rfl assigned
  obtain ⟨after',generated',-,carries,-⟩ := gen_bin_spec proper aligned (Nat.zero_mod 8) assigned
    (show _ ≤ 8*(replicate lens.sum (0 : UInt8)).length by rw [zeros,split]; exact inside) (by rw [split]; exact representable)
  rw [generated] at generated'
  cases generated'
  obtain ⟨cut,bytes⟩ := cutInto_spec (length.trans zeros)
  obtain ⟨pkt_data,units,pre,matched,held⟩ := survived (replicate 4 0) (cutInto lens after) (patternUnits fragment.descr values) rfl cut bytes
    (patternUnits_patterned _ _ _)
  cases (match_pre_proper proper).symm.trans pre
  have patterned := patternUnits_patterned fragment.rx_def fragment.descr values
  rw [tad_bps_pkt_frag_match_do] at matched
  rw [split] at proper matched held carries patterned
  obtain ⟨unit,read,marks⟩ := matched_read proper (by rw [length_map]) patterned representable matched held
  obtain ⟨front_zero,mark,back_zero⟩ := carries.append (by rw [length_map])
  have zero : ∀ i, i < 8*((bitoff+fieldsLen front)/8+1) ∨ 8*((bitoff+fieldsLen front)/8+2) ≤ i → bitAt after i = false := by
    grind [zeros_carried,marked_number,testBit_marked,bitAt_zeros,fieldsLen]
  have lost := mark_missed (by rw [cut]; exact fits) (by rw [cut]; omega) crosses (by rw [cut]; exact unlike) plain (by rw [bytes]; exact zero) read
  rw [FieldValue.HeldBy,marked_number long,lost] at marks
  injection marks with same
  exact marked_lost long (by omega) same.symm
/-- Values survive generation and matching exactly if the segments are alike where a field crosses from one to the next. -/
theorem fields_survive_iff (proper : ProperFields bitoff fragment.descr) (aligned : bitoff%8 = 0)
    (inside : bitoff+fieldsLen fragment.descr ≤ 8*lens.sum) (representable : bitoff+fieldsLen fragment.descr < UINT_MOD)
    (fits : 8*lens.sum < SIZE_MOD) : Survives tad_int_expr_calculate fragment bitoff lens ↔ CrossingsAlike fragment bitoff lens :=
  ⟨alike_of_survives proper aligned inside representable fits,survives_of_alike proper aligned inside representable fits⟩
end

section

/-- A field of four bits and one of twelve. -/
def nibbleFragment : TadBpsPktFragDef Unit where
  descr := [⟨4,0,.I32,false⟩,⟨12,0,.I32,false⟩]
  tx_def := fun _ => .UNDEF
  rx_def := fun _ => .UNDEF
theorem nibbles_proper : ProperFields 0 nibbleFragment.descr :=
  ⟨⟨by decide,.inl ⟨rfl,by decide⟩⟩,⟨by decide,.inl ⟨rfl,by decide⟩⟩,trivial⟩
def nibbleValues : List FieldValue := [.integer 1,.integer 0x234]
/-- The field of twelve bits is not read when its first byte is a segment of its own and the next segment has two bytes. -/
theorem nibbles_lost : ProperFields 0 nibbleFragment.descr ∧ 0+fieldsLen nibbleFragment.descr ≤ 8*[1,2].sum ∧
    ¬Survives (fun _ => .error 0) nibbleFragment 0 [1,2] := by
  refine ⟨nibbles_proper,by decide,fun survives => ?_⟩
  have suits : List.Forall₂ Suits nibbleFragment.descr nibbleValues := .cons rfl (.cons rfl .nil)
  have plain : ∀ value ∈ nibbleValues, Plain value := by
    intro value member
    obtain rfl | rfl := by simpa only [nibbleValues,mem_cons,not_mem_nil,or_false] using member
    · exact ⟨by decide,by decide⟩
    · exact ⟨by decide,by decide⟩
  obtain ⟨after,generated,-,-,survived⟩ := survives [0,0,0x56] 24 (plainUnits nibbleValues) nibbleValues rfl rfl (plainUnits_assigned suits plain)
  have bytes : tad_bps_pkt_frag_gen_bin (fun _ => .error 0) nibbleFragment (plainUnits nibbleValues) [0,0,0x56] 0 24 = .ok ([0x12,0x34,0x56],16) := rfl
  cases bytes.symm.trans generated
  obtain ⟨pkt_data,units,pre,matched,-⟩ := survived [0,0,0,0] [⟨[0x12]⟩,⟨[0x34,0x56]⟩] (patternUnits nibbleFragment.descr nibbleValues) rfl rfl rfl
    (patternUnits_patterned _ _ _)
  cases (match_pre_proper nibbles_proper).symm.trans pre
  have crashed : tad_bps_pkt_frag_match_do [0,0,0,0] nibbleFragment (patternUnits nibbleFragment.descr nibbleValues)
      (nibbleFragment.descr.map freshUnit) ⟨[⟨[0x12]⟩,⟨[0x34,0x56]⟩]⟩ 0 = .error .crash := rfl
  cases crashed.symm.trans matched
theorem nibbles_survive_iff : Survives (fun _ => .error 0) nibbleFragment 0 [1,1,1] ↔ CrossingsAlike nibbleFragment 0 [1,1,1] :=
  fields_survive_iff nibbles_proper rfl (by decide) (by decide) (by decide)
end
end TestEnvironment.Tad
