import TestEnvironment.Tad.FieldValues

/-!
What `tad_pkt_read_bits` reads from a packet, by the bits of its bytes in all segments together.
-/
namespace TestEnvironment.Tad
open Lib

/-- The byte at a place is not the last one of its segment, or the next segment with bytes has as many. -/
def NextAlike : List Nat → Nat → Prop
  | [], _ => False
  | len :: rest, place => if place < len then place+1 < len ∨ rest.find? (0 < ·) = some len else NextAlike rest (place-len)
instance decidableNextAlike : (lens : List Nat) → (place : Nat) → Decidable (NextAlike lens place)
  | [], _ => isFalse id
  | len :: rest, place =>
    if here : place < len then decidable_of_iff (place+1 < len ∨ rest.find? (0 < ·) = some len) (by rw [NextAlike,if_pos here])
    else @decidable_of_iff _ (NextAlike rest (place-len)) (by rw [NextAlike,if_neg here]) (decidableNextAlike rest (place-len))

variable {rest : List TadPktSeg}

section
variable {seg : TadPktSeg} {segs : List TadPktSeg} {off len : Nat}

/-- The bytes of segments. -/
def bytesOf (segs : List TadPktSeg) : List UInt8 := segs.flatMap TadPktSeg.data
def lensOf (segs : List TadPktSeg) : List Nat := segs.map TadPktSeg.data_len
theorem bytesOf_cons (seg : TadPktSeg) (segs : List TadPktSeg) : bytesOf (seg :: segs) = seg.data ++ bytesOf segs := flatMap_cons
theorem bytesOf_length (segs : List TadPktSeg) : (bytesOf segs).length = (lensOf segs).sum := by
  induction segs with
  | nil => rfl
  | cons seg segs ih =>
    rw [bytesOf_cons,length_append,ih]
    exact sum_cons.symm

theorem readNext_eq (segs : List TadPktSeg) (len : Nat) (nonempty : 0 < len) :
    readNext segs len = if len ≤ (bytesOf segs).length then some ((bytesOf segs).take len) else none := by
  induction segs generalizing len with
  | nil => exact (if_neg (Nat.not_le_of_lt nonempty)).symm
  | cons seg segs ih =>
    rw [readNext,bytesOf_cons,length_append]
    by_cases fits : len ≤ seg.data.length
    · rw [TadPktSeg.data_len,Nat.min_eq_left fits,Nat.sub_self,if_pos rfl,if_pos (by omega),take_append_of_le_length fits]
    · rw [TadPktSeg.data_len,Nat.min_eq_right (by omega),if_neg (by omega),ih _ (by omega),List.take_append,take_length]
      by_cases more : len-seg.data.length ≤ (bytesOf segs).length
      · rw [if_pos more,if_pos (by omega),take_of_length_le (l := seg.data) (by omega)]
        rfl
      · rw [if_neg more,if_neg (by omega)]
        rfl
theorem tad_pkt_read_eq (inside : off < seg.data_len) (len : Nat) :
    tad_pkt_read seg segs off len =
      if len ≤ (seg.data.drop off ++ bytesOf segs).length then some ((seg.data.drop off ++ bytesOf segs).take len) else none := by
  have left : (seg.data.drop off).length = seg.data_len-off := length_drop
  rw [tad_pkt_read,if_neg (Nat.not_le_of_lt inside),length_append,left]
  by_cases fits : len ≤ seg.data_len-off
  · grind
  · rw [Nat.min_eq_right (by omega),if_neg (by omega),readNext_eq _ _ (by omega),List.take_append,left]
    by_cases more : len-(seg.data_len-off) ≤ (bytesOf segs).length
    · grind
    · rw [if_neg more,if_neg (by omega)]
      rfl
theorem seekSeg_spec (segs : List TadPktSeg) (place : Nat) (inside : place < (bytesOf segs).length) :
    ∃ seg rest off, seekSeg segs place = some (seg,rest,off) ∧ off < seg.data_len ∧ seg.data_len ≤ (bytesOf segs).length ∧
      seg.data.drop off ++ bytesOf rest = (bytesOf segs).drop place ∧
      (NextAlike (lensOf segs) place ↔ off+1 < seg.data_len ∨ (lensOf rest).find? (0 < ·) = some seg.data_len) := by
  induction segs generalizing place with
  | nil => exact absurd inside (Nat.not_lt_zero _)
  | cons seg segs ih =>
    rw [bytesOf_cons,length_append] at inside
    rw [seekSeg,bytesOf_cons,lensOf,map_cons,NextAlike]
    by_cases beyond : seg.data_len ≤ place
    · have long : seg.data_len = seg.data.length := rfl
      obtain ⟨found,rest,off,run,room,part,same,alike⟩ := ih (place-seg.data_len) (by omega)
      refine ⟨found,rest,off,by rw [if_pos beyond,run],room,by rw [length_append]; omega,?_,by rw [if_neg (by omega)]; exact alike⟩
      rw [same,List.drop_append,drop_of_length_le beyond,nil_append,long]
    · have here : place < seg.data_len := by omega
      refine ⟨seg,segs,place,if_neg beyond,here,by rw [length_append]; exact Nat.le_add_right _ _,?_,by rw [if_pos here]; rfl⟩
      rw [drop_append_of_le_length (le_of_lt here)]

theorem skipSegs_stay (inside : off < seg.data_len) : skipSegs seg segs off = some (seg,segs,off) := by
  cases segs <;> rw [skipSegs,if_neg (Nat.not_le_of_lt inside)]
theorem find_cons (len : Nat) (rest : List Nat) : (len :: rest).find? (0 < ·) = if 0 < len then some len else rest.find? (0 < ·) := by grind
/-- The next segment with bytes has the length that is left in the offset. -/
theorem skipSegs_alike (segs : List TadPktSeg) (seg : TadPktSeg) (len : Nat) (past : seg.data_len ≤ len) (small : len < SIZE_MOD)
    (alike : (lensOf segs).find? (0 < ·) = some len) :
    ∃ found rest, skipSegs seg segs len = some (found,rest,0) ∧ 0 < found.data_len ∧ found.data ++ bytesOf rest = bytesOf segs := by
  induction segs generalizing seg with
  | nil => cases alike
  | cons next segs ih =>
    rw [lensOf,map_cons,find_cons] at alike
    rw [skipSegs,if_pos past,bytesOf_cons]
    by_cases bytes : 0 < next.data_len
    · rw [if_pos bytes] at alike
      cases alike
      rw [Nat.add_sub_cancel' (le_of_lt small),Nat.mod_self]
      exact ⟨next,segs,skipSegs_stay bytes,bytes,rfl⟩
    · rw [if_neg bytes] at alike
      have empty : next.data_len = 0 := by omega
      obtain ⟨found,rest,run,room,same⟩ := ih next (by omega) alike
      refine ⟨found,rest,?_,room,?_⟩
      · rw [empty,Nat.sub_zero,Nat.add_mod_right,mod_eq_of_lt small,run]
      · rw [same,length_eq_zero_iff.mp empty,nil_append]
/-- An offset that has wrapped around is never left. -/
theorem skipSegs_lost (segs : List TadPktSeg) (seg : TadPktSeg) (off : Nat) (large : seg.data_len+2*(bytesOf segs).length ≤ off)
    (small : off < SIZE_MOD) : skipSegs seg segs off = none := by
  induction segs generalizing seg off with
  | nil => exact if_pos (by omega)
  | cons next segs ih =>
    have long : next.data_len = next.data.length := rfl
    rw [bytesOf_cons,length_append] at large
    rw [skipSegs,if_pos (by omega),show off+(SIZE_MOD-next.data_len) = off-next.data_len+SIZE_MOD by omega,Nat.add_mod_right,
      mod_eq_of_lt (by omega)]
    exact ih next _ (by omega) (by omega)
/-- Where the loop stops, it has moved on by what the offset has more than the length of the segment found. -/
theorem skipSegs_some (segs : List TadPktSeg) (seg : TadPktSeg) (off : Nat) (past : seg.data_len ≤ off) (small : off < SIZE_MOD)
    (bytes : 2*(bytesOf segs).length < SIZE_MOD) {found : TadPktSeg} {place : Nat}
    (stopped : skipSegs seg segs off = some (found,rest,place)) :
    place < found.data_len ∧ found.data_len ≤ off ∧ found.data.drop place ++ bytesOf rest = (bytesOf segs).drop (off-found.data_len) ∧
      (found.data_len = off → (lensOf segs).find? (0 < ·) = some off) := by
  induction segs generalizing seg off with
  | nil => simp_all [skipSegs]
  | cons next segs ih =>
    have long : next.data_len = next.data.length := rfl
    rw [bytesOf_cons,length_append] at bytes
    rw [skipSegs,if_pos past] at stopped
    rw [lensOf,map_cons,find_cons,bytesOf_cons]
    by_cases within : next.data_len ≤ off
    · rw [show off+(SIZE_MOD-next.data_len) = off-next.data_len+SIZE_MOD by omega,Nat.add_mod_right,mod_eq_of_lt (by omega)] at stopped
      by_cases here : off-next.data_len < next.data_len
      · rw [skipSegs_stay here] at stopped
        cases stopped
        refine ⟨here,within,(drop_append_of_le_length (le_of_lt here)).symm,fun same => ?_⟩
        rw [if_pos (by omega),same]
      · obtain ⟨room,fits,same,alike⟩ := ih next (off-next.data_len) (by omega) (by omega) (by omega) stopped
        refine ⟨room,by omega,?_,fun equal => ?_⟩
        · rw [same,List.drop_append,drop_of_length_le (l := next.data) (by omega),nil_append]
          congr 1
          omega
        · rw [if_neg (by omega)]
          have first := alike (by omega)
          rwa [show off-next.data_len = off by omega] at first
    · -- the difference is negative
      rw [mod_eq_of_lt (by omega),skipSegs_lost segs next _ (by omega) (by omega)] at stopped
      cases stopped
end

/-- The field starts inside a byte, ends with one and goes on behind its first byte. -/
def Crosses (bitoff len : Nat) : Prop := bitoff%8 ≠ 0 ∧ (bitoff+len)%8 = 0 ∧ 8 ≤ len
instance (bitoff len : Nat) : Decidable (Crosses bitoff len) := inferInstanceAs (Decidable (_ ∧ _ ∧ _))
/-- The last bits before a place make a number. -/
def Ends (bytes : List UInt8) (stop len number : Nat) : Prop := number < 2^len ∧ ∀ j, j < len → bitAt bytes (stop-1-j) = number.testBit j

section
variable {bytes : List UInt8} {number bitoff len n : Nat}

/-- Bytes with the bits of a number at their end, and none before. -/
theorem bytes_of_bits (long : bytes.length = n) (small : number < 2^len)
    (bits : ∀ i, i < 8*n → bitAt bytes i = (decide (8*n-1-i < len) && number.testBit (8*n-1-i))) : bytes = beBytes n number := by
  refine bytes_eq (by rw [beBytes_length,long]) fun i inside => ?_
  rw [long] at inside
  rw [bits i inside,bitAt_beBytes inside]
  by_cases low : 8*n-1-i < len
  · rw [decide_eq_true low,Bool.true_and]
  · have above : 2^len ≤ 2^(8*n-1-i) := Nat.pow_le_pow_right (by decide) (by omega)
    rw [decide_eq_false low,Bool.false_and,Nat.testBit_lt_two_pow (lt_of_lt_of_le small above)]
theorem bitAt_cons (byte : UInt8) (bytes : List UInt8) (i : Nat) :
    bitAt (byte :: bytes) i = if i < 8 then byte.toNat.testBit (7-i) else bitAt bytes (i-8) := by
  by_cases first : i < 8
  · rw [if_pos first,bitAt,show i/8 = 0 by omega,show i%8 = i by omega]
    rfl
  · rw [if_neg first,bitAt,bitAt,show i/8 = (i-8)/8+1 by omega,show i%8 = (i-8)%8 by omega]
    rfl
theorem testBit_low {mask shift j : Nat} (narrow : shift ≤ mask) : ((2^mask-1) >>> shift).testBit j = decide (j < mask-shift) := by grind
theorem testBit_first (bytes : List UInt8) {j : Nat} (low : j < 8) : ((bytes[0]?).getD 0).toNat.testBit j = bitAt bytes (7-j) := by
  rw [bitAt,show (7-j)/8 = 0 by omega,show 7-(7-j)%8 = j by omega]
/-- A field that ends with a byte: the part in the first byte, and the bytes behind it. -/
theorem bytes_to_border (within : bitoff < 8) (inside : bitoff+len = 8*n) (enough : n ≤ bytes.length) (some' : 0 < n)
    (number_ends : Ends bytes (bitoff+len) len number) :
    UInt8.ofNat (((bytes[0]?).getD 0).toNat &&& ((2^8-1) >>> bitoff)) :: (bytes.drop 1).take (n-1) = beBytes n number := by
  refine bytes_of_bits ?_ number_ends.1 fun i inside' => ?_
  · rw [length_cons,length_take,length_drop]
    omega
  · rw [bitAt_cons]
    by_cases first : i < 8
    · rw [if_pos first,testBit_byte,decide_eq_true (by omega),Bool.true_and,Nat.testBit_and,testBit_low (by omega),testBit_first _ (by omega),
        Bool.and_comm,decide_eq_decide.mpr (show 7-i < 8-bitoff ↔ 8*n-1-i < len by omega)]
      by_cases low : 8*n-1-i < len
      · rw [← number_ends.2 _ low]
        congr 2
        omega
      · rw [decide_eq_false low,Bool.false_and,Bool.false_and]
    · rw [if_neg first,bitAt_take (by omega),bitAt_drop,decide_eq_true (by omega),Bool.true_and,← number_ends.2 _ (by omega)]
      congr 1
      omega
/-- A field within a byte. -/
theorem byte_within (some' : 0 < len) (within : bitoff+len < 8) (number_ends : Ends bytes (bitoff+len) len number) :
    [UInt8.ofNat ((((bytes[0]?).getD 0).toNat >>> (8-(bitoff+len))) &&& ((2^8-1) >>> (8-len)))] = beBytes 1 number := by
  refine bytes_of_bits rfl number_ends.1 fun i inside => ?_
  rw [bitAt_cons,if_pos (by omega),testBit_byte,decide_eq_true (by omega),Bool.true_and,Nat.testBit_and,Nat.testBit_shiftRight,
    testBit_low (by omega),Bool.and_comm,decide_eq_decide.mpr (show 7-i < 8-(8-len) ↔ 8*1-1-i < len by omega)]
  by_cases low : 8*1-1-i < len
  · rw [testBit_first _ (by omega),← number_ends.2 _ low]
    congr 2
    omega
  · rw [decide_eq_false low,Bool.false_and,Bool.false_and]
/-- A field that is shifted out of a word. -/
theorem word_shifted {stale : List UInt8} (word : stale.length = 4) (within : bitoff+len < 32) (enough : (bitoff+len)/8+1 ≤ bytes.length)
    (number_ends : Ends bytes (bitoff+len) len number) :
    (beNum (overwrite stale 0 (bytes.take ((bitoff+len)/8+1))) >>> (32-(bitoff+len))) &&& ((UINT_MOD-1) >>> (32-len)) = number := by
  have taken : (bytes.take ((bitoff+len)/8+1)).length = (bitoff+len)/8+1 := by
    rw [length_take]
    omega
  have fits : 0+(bytes.take ((bitoff+len)/8+1)).length ≤ stale.length := by omega
  refine Nat.eq_of_testBit_eq fun j => ?_
  rw [Nat.testBit_and,UINT_MOD,testBit_low (by omega),Nat.testBit_shiftRight,testBit_beNum,overwrite_length fits,word]
  by_cases low : j < len
  · rw [decide_eq_true (by omega),decide_eq_true (by omega),Bool.true_and,Bool.and_true,bitAt_overwrite fits,if_pos (by omega),
      bitAt_take (by omega),← number_ends.2 j low]
    congr 1
    omega
  · have above : 2^len ≤ 2^j := Nat.pow_le_pow_right (by decide) (by omega)
    rw [decide_eq_false (show ¬j < 32-(32-len) by omega),Bool.and_false,Nat.testBit_lt_two_pow (lt_of_lt_of_le number_ends.1 above)]
end

section
variable {segs : List TadPktSeg} {bitoff len number : Nat} {stale : List UInt8}

/-- The bits behind a place are those of the bytes from there on. -/
theorem Ends.drop {bytes : List UInt8} (number_ends : Ends bytes (bitoff+len) len number) :
    Ends (bytes.drop (bitoff/8)) (bitoff%8+len) len number := by
  refine ⟨number_ends.1,fun j low => ?_⟩
  rw [bitAt_drop,← number_ends.2 j low]
  congr 1
  omega
theorem tad_pkt_len_bits (fits : 8*(lensOf segs).sum < SIZE_MOD) : (tad_pkt_len ⟨segs⟩ <<< 3)%SIZE_MOD = 8*(lensOf segs).sum := by
  have length : (TadPkt.data ⟨segs⟩).length = (lensOf segs).sum := bytesOf_length segs
  have small : (lensOf segs).sum%SIZE_MOD = (lensOf segs).sum := mod_eq_of_lt (by omega)
  rw [tad_pkt_len,length,small,Nat.shiftLeft_eq,Nat.mul_comm]
  exact mod_eq_of_lt fits
/-- The first byte of the rest is the one in the segment found. -/
theorem first_byte {seg : TadPktSeg} {off : Nat} {bytes : List UInt8} (room : off < seg.data_len)
    (same : seg.data.drop off ++ bytesOf rest = bytes) : seg.data[off]? = bytes[0]? := by
  have long : 0 < (seg.data.drop off).length := by
    rw [length_drop]
    exact Nat.sub_pos_of_lt room
  rw [← same,getElem?_append_left long,List.getElem?_drop,Nat.add_zero]
/-- A field that goes on behind its first byte and ends with a byte: the loop moves on from the first byte. -/
theorem crossing_eq (fits : 8*(lensOf segs).sum < SIZE_MOD) (inside : bitoff+len ≤ 8*(lensOf segs).sum) (crosses : Crosses bitoff len)
    {seg : TadPktSeg} {off : Nat} (sought : seekSeg segs (bitoff/8) = some (seg,rest,off)) :
    tad_pkt_read_bits stale ⟨segs⟩ bitoff len = match skipSegs seg rest (off+1) with
      | none => none
      | some (seg',rest',off') => (tad_pkt_read seg' rest' off' (len/8)).map
          (UInt8.ofNat (((seg.data[off]?).getD 0).toNat &&& ((2^8-1) >>> (bitoff%8))) :: ·) := by
  obtain ⟨start,stop,long⟩ := crosses
  unfold tad_pkt_read_bits
  simp only [aligned_bits,byte_of_bits]
  rw [tad_pkt_len_bits fits,if_neg (by omega),sought]
  exact (if_neg (fun aligned => start aligned.1)).trans ((if_pos (by omega)).trans (if_pos (by omega)))
/-- The loop finds the byte behind the first one. -/
theorem moved_on {seg : TadPktSeg} {off : Nat} {bytes : List UInt8} (room : off < seg.data_len) (small : seg.data_len < SIZE_MOD)
    (same : seg.data.drop off ++ bytesOf rest = bytes)
    (alike : off+1 < seg.data_len ∨ (lensOf rest).find? (0 < ·) = some seg.data_len) :
    ∃ found rest' off', skipSegs seg rest (off+1) = some (found,rest',off') ∧ off' < found.data_len ∧
      found.data.drop off' ++ bytesOf rest' = bytes.drop 1 := by
  have long : (seg.data.drop off).length = seg.data_len-off := length_drop
  obtain within | alike := alike
  · grind [skipSegs_stay,drop_drop]
  · by_cases within : off+1 < seg.data_len
    · grind [skipSegs_stay,drop_drop]
    · have stop : off+1 = seg.data_len := by omega
      obtain ⟨found,rest',run,bytes',same'⟩ := skipSegs_alike rest seg seg.data_len le_rfl small alike
      refine ⟨found,rest',0,by rw [stop,run],bytes',?_⟩
      rw [drop_zero,same',← same,List.drop_append,drop_of_length_le (by omega),nil_append,
        show 1-(seg.data.drop off).length = 0 by omega,drop_zero]
/-- A field of whole bytes, or of bits that are read as one word, is read as its number. -/
theorem tad_pkt_read_bits_spec (word : stale.length = 4) (fits : 8*(lensOf segs).sum < SIZE_MOD) (nonempty : 0 < len)
    (inside : bitoff+len ≤ 8*(lensOf segs).sum) (proper : bitoff%8+len ≤ 32 ∨ bitoff%8 = 0 ∧ len%8 = 0)
    (alike : Crosses bitoff len → NextAlike (lensOf segs) (bitoff/8)) (number_ends : Ends (bytesOf segs) (bitoff+len) len number) :
    tad_pkt_read_bits stale ⟨segs⟩ bitoff len = some (beBytes ((len+7)/8) number) := by
  have total := bytesOf_length segs
  obtain ⟨seg,rest,off,sought,room,part,same,alike_iff⟩ := seekSeg_spec segs (bitoff/8) (by omega)
  have left : ((bytesOf segs).drop (bitoff/8)).length = (lensOf segs).sum-bitoff/8 := by rw [length_drop,total]
  have first := first_byte room same
  have here := number_ends.drop
  by_cases crosses : Crosses bitoff len
  · obtain ⟨found,rest',off',skipped,room',same'⟩ := moved_on room (by omega) same (alike_iff.mp (alike crosses))
    obtain ⟨start,stop,long⟩ := id crosses
    rw [crossing_eq fits inside crosses sought,skipped]
    dsimp only
    have whole := bytes_to_border (n := (len+7)/8) (mod_lt _ (by decide)) (by omega) (by omega) (by omega) here
    rw [tad_pkt_read_eq room',same',length_drop,if_pos (by omega),map_some,first,← whole,show (len+7)/8-1 = len/8 by omega]
  · unfold tad_pkt_read_bits
    simp only [aligned_bits,byte_of_bits]
    rw [tad_pkt_len_bits fits,if_neg (by omega),sought]
    dsimp only
    by_cases aligned : bitoff%8 = 0 ∧ len%8 = 0
    · rw [if_pos aligned,tad_pkt_read_eq room,same,if_pos (by omega),some_inj]
      refine bytes_of_bits (by rw [length_take]; omega) number_ends.1 fun i within => ?_
      rw [bitAt_take (by omega),decide_eq_true (by omega),Bool.true_and,← here.2 _ (by omega)]
      congr 1
      omega
    · rw [if_neg aligned]
      by_cases border : (bitoff%8+len)%8 = 0
      · have one : ¬0 < len/8 := fun more => crosses ⟨by omega,by omega,by omega⟩
        have whole := bytes_to_border (n := 1) (mod_lt _ (by decide)) (by omega) (by omega) (by omega) here
        rw [if_pos border,if_neg one,first,show (len+7)/8 = 1 by omega,← whole]
        rfl
      · rw [if_neg border]
        by_cases within : bitoff%8+len < 8
        · rw [if_pos within,first,show (len+7)/8 = 1 by omega,← byte_within nonempty within here]
        · rw [if_neg within,if_pos (by omega),tad_pkt_read_eq room,same,if_pos (by omega),map_some,
            word_shifted word (by omega) (by omega) here]
/-- Where the segment found is not alike, what is read behind the first byte starts too far. -/
theorem crossing_wrong (fits : 8*(lensOf segs).sum < SIZE_MOD) (inside : bitoff+len ≤ 8*(lensOf segs).sum) (crosses : Crosses bitoff len)
    (unlike : ¬NextAlike (lensOf segs) (bitoff/8)) {bytes : List UInt8} (read : tad_pkt_read_bits stale ⟨segs⟩ bitoff len = some bytes) :
    ∃ place, bitoff/8+1 < place ∧
      bytes = UInt8.ofNat (((bytesOf segs)[bitoff/8]?.getD 0).toNat &&& ((2^8-1) >>> (bitoff%8))) :: ((bytesOf segs).drop place).take (len/8) := by
  have total := bytesOf_length segs
  have long := crosses.2.2
  obtain ⟨seg,rest,off,sought,room,part,same,alike_iff⟩ := seekSeg_spec segs (bitoff/8) (by omega)
  have last : off+1 = seg.data_len := by grind
  have one : (seg.data.drop off).length = 1 := by
    have length : (seg.data.drop off).length = seg.data_len-off := length_drop
    omega
  have behind : bytesOf rest = (bytesOf segs).drop (bitoff/8+1) := by simp [← same,one,← drop_drop]
  have first := first_byte room same
  rw [List.getElem?_drop,Nat.add_zero] at first
  rw [crossing_eq fits inside crosses sought,first] at read
  have fewer : (bytesOf rest).length ≤ (lensOf segs).sum := by
    rw [behind,length_drop]
    omega
  cases skipped : skipSegs seg rest (off+1) with
  | none =>
    rw [skipped] at read
    cases read
  | some stop =>
    obtain ⟨found,rest',off'⟩ := stop
    rw [skipped] at read
    dsimp only at read
    obtain ⟨room',short,same',alike⟩ := skipSegs_some rest seg (off+1) (le_of_eq last.symm) (by omega) (by omega) skipped
    have shorter : found.data_len ≠ off+1 := fun equal => unlike (alike_iff.mpr (.inr (last ▸ alike equal)))
    rw [tad_pkt_read_eq room',same',behind,drop_drop] at read
    refine ⟨bitoff/8+1+(off+1-found.data_len),by omega,?_⟩
    by_cases enough : len/8 ≤ ((bytesOf segs).drop (bitoff/8+1+(off+1-found.data_len))).length
    · rw [if_pos enough] at read
      exact (some.inj read).symm
    · rw [if_neg enough] at read
      cases read
end
end TestEnvironment.Tad
