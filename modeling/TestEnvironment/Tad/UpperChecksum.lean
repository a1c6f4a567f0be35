import TestEnvironment.Lib.OnesComplement
import TestEnvironment.Tad.Packet

/-!
The checksum of the upper layer that the IPv4 layer writes into an SDU
(`tad_ip4_layer.c`). `calculate_checksum` is the folded one's complement sum of
16-bit words in the byte order of the host; the offset of the field is nothing
where the code has -1.
-/
namespace TestEnvironment.Tad
open Lib

def TE_IP4_UPPER_LAYER_CSUM_ZERO : Nat := 1
def TE_IP4_UPPER_LAYER_CSUM_BAD : Nat := 2
inductive TadErr | E2BIG | EINVAL
  deriving DecidableEq, Repr

/-- `tad_ip4_upper_checksum_seg_cb_data`. -/
structure TadIp4UpperChecksumSegCbData where
  checksum : Nat
  uncksumed : Option UInt8
  deriving DecidableEq, Repr
/-- `tad_ip4_gen_bin_cb_per_sdu_data`, as far as the checksum needs it. -/
structure TadIp4GenBinCbPerSduData where
  hdr : List UInt8
  upper_chksm_offset : Option Nat
  use_phdr : Bool
  init_chksm : Nat
  deriving DecidableEq, Repr

section
variable (big : Bool)

def calculate_checksum (bytes : List UInt8) : Nat := onesSum (wordSum big bytes)
/-- `data->checksum += calculate_checksum(...)` in `uint32_t`. -/
def TadIp4UpperChecksumSegCbData.add (data : TadIp4UpperChecksumSegCbData) (bytes : List UInt8) : TadIp4UpperChecksumSegCbData :=
  {data with checksum := (data.checksum+calculate_checksum big bytes)%UINT_MOD}
def tad_ip4_upper_checksum_seg_cb (pkt : TadPkt) (seg : TadPktSeg) (seg_num : Nat) (data : TadIp4UpperChecksumSegCbData) :
    TadIp4UpperChecksumSegCbData :=
  let last_segment := seg_num = tad_pkt_seg_num pkt-1
  match seg.data with
  | [] =>
    match data.uncksumed with
    | some byte => if last_segment then data.add big [byte] else data
    | none => data
  | first :: others =>
    let (data,bytes) :=
      match data.uncksumed with
      | some byte => ({data.add big [byte,first] with uncksumed := none},others)
      | none => (data,first :: others)
    if bytes.length%2 ≠ 0 ∧ ¬ last_segment then {data.add big bytes.dropLast with uncksumed := bytes.getLast?}
    else data.add big bytes

/-- The addresses and the protocol in the header. -/
def phdrAddrs (hdr : List UInt8) : List UInt8 := (hdr.drop 12).take 8
def phdrProto (hdr : List UInt8) : List UInt8 := [0,hdr.getD 9 0]
def phdrLen (sdu_len : Nat) : List UInt8 := [(wordBytes true sdu_len).1,(wordBytes true sdu_len).2]
/-- The initial checksum in `tad_ip4_gen_bin_cb`, with the requested difference. -/
def tad_ip4_init_chksm (hdr : List UInt8) (upper_chksm_offset : Option Nat) (use_phdr : Bool) (diff : Int) : Nat :=
  let init_chksm := (diff%UINT_MOD).toNat
  if upper_chksm_offset ≠ none ∧ use_phdr then
    (init_chksm+(calculate_checksum big (phdrAddrs hdr)+calculate_checksum big (phdrProto hdr)))%UINT_MOD
  else init_chksm
/-- `tad_ip4_gen_bin_cb_per_sdu` up to the fragments: the SDU with its checksum. -/
def tad_ip4_gen_bin_cb_per_sdu (data : TadIp4GenBinCbPerSduData) (sdu : TadPkt) : Except TadErr TadPkt :=
  match data.upper_chksm_offset,sdu.segs with
  | none,_ => .ok sdu
  | some _,[] => .ok sdu
  | some offset,seg :: segs =>
    if seg.data_len < offset+2 then .ok sdu
    else if 0xffff < tad_pkt_len sdu then .error .E2BIG
    else
      let checksum :=
        if data.use_phdr then (data.init_chksm+calculate_checksum big (phdrLen (tad_pkt_len sdu)))%UINT_MOD
        else data.init_chksm
      let csum := word true (seg.data.getD offset 0) (seg.data.getD (offset+1) 0)
      let preset := setBytes seg.data offset 0 0
      let sdu : TadPkt := ⟨⟨preset⟩ :: segs⟩
      if csum = TE_IP4_UPPER_LAYER_CSUM_ZERO then .ok sdu
      else
        let sum := (tad_pkt_enumerate_seg sdu (tad_ip4_upper_checksum_seg_cb big sdu) ⟨checksum,none⟩).checksum
        let tmp := 65535-(sum%65536+sum/65536)%65536
        let tmp := if csum = TE_IP4_UPPER_LAYER_CSUM_BAD then (if tmp+1 = 0 then tmp+2 else tmp+1)%65536 else tmp
        .ok ⟨⟨setBytes preset offset (wordBytes big tmp).1 (wordBytes big tmp).2⟩ :: segs⟩
end

section

/-- A part of a segment without its last byte, where that one stands alone before another segment. -/
def cut (last : Bool) (bytes : List UInt8) : List UInt8 × Option UInt8 :=
  if bytes.length%2 ≠ 0 ∧ last = false then (bytes.dropLast,bytes.getLast?) else (bytes,none)
/-- The data cut at the borders of the segments, bytes on both sides of a border paired where the
    border stands at an odd offset. -/
def pieces : Option UInt8 → List (List UInt8) → List (List UInt8)
  | none, [] => []
  | some byte, [] => [[byte]]
  | none, bytes :: segs => (cut segs.isEmpty bytes).1 :: pieces (cut segs.isEmpty bytes).2 segs
  | some byte, [] :: segs => pieces (some byte) segs
  | some byte, (first :: bytes) :: segs =>
    [byte,first] :: (cut segs.isEmpty bytes).1 :: pieces (cut segs.isEmpty bytes).2 segs
/-- The sum of the checksums of the pseudo-header's parts and of the pieces of the data. -/
def partsSum (big : Bool) (hdr : List UInt8) (use_phdr : Bool) (sdu : TadPkt) : Nat :=
  (if use_phdr then calculate_checksum big (phdrAddrs hdr)+calculate_checksum big (phdrProto hdr)+
    calculate_checksum big (phdrLen sdu.data.length) else 0)+
  ((pieces none (sdu.segs.map TadPktSeg.data)).map (calculate_checksum big)).sum
/-- The one's complement sum of the pseudo-header, if there is one, and the data is all ones. -/
def Verifies (hdr : List UInt8) (use_phdr : Bool) (sdu : TadPkt) : Prop :=
  onesSum (wordSum true ((if use_phdr then phdrAddrs hdr ++ phdrProto hdr ++ phdrLen sdu.data.length else []) ++ sdu.data)) = 0xffff

variable {big : Bool} {carry : Option UInt8} {segs : List (List UInt8)}

theorem cut_sum (bytes : List UInt8) (segs : List (List UInt8)) : wordSum big (cut segs.isEmpty bytes).1+
    wordSum big ((cut segs.isEmpty bytes).2.toList ++ segs.flatten) = wordSum big (bytes ++ segs.flatten) := by
  rw [cut]
  split_ifs with odd
  · obtain ⟨front,byte,rfl⟩ := eq_nil_or_concat bytes |>.resolve_left (by rintro rfl; simp at odd)
    have even : front.length%2 = 0 := by grind
    simp only [concat_eq_append,List.dropLast_concat,getLast?_concat,Option.toList_some,append_assoc]
    rw [wordSum_append even]
  · grind [wordSum_append]
/-- The pieces keep the sum of the words. -/
theorem pieces_sum (carry : Option UInt8) (segs : List (List UInt8)) :
    ((pieces carry segs).map (wordSum big)).sum = wordSum big (carry.toList ++ segs.flatten) := by
  induction segs generalizing carry with
  | nil => cases carry <;> simp [pieces,wordSum]
  | cons bytes segs ih =>
    cases carry with
    | none => simp [ih,cut_sum,pieces]
    | some byte =>
      cases bytes with
      | nil => rw [pieces,ih]; rfl
      | cons first bytes => simp [ih,cut_sum,pieces,wordSum]
theorem sum_onesSum (l : List Nat) : (l.map onesSum).sum ≤ l.sum ∧ (l.map onesSum).sum ≡ l.sum [MOD 65535] := by
  induction l with
  | nil => exact ⟨le_rfl,rfl⟩
  | cons n l ih => simp [ih,Nat.add_le_add,onesSum_le,onesSum_mod]

/-- The end of the callback, for the bytes behind a pair. -/
theorem add_cut (c : Nat) (bytes : List UInt8) (last : Bool) :
    (if bytes.length%2 ≠ 0 ∧ ¬ last = true then
      {TadIp4UpperChecksumSegCbData.add big ⟨c,none⟩ bytes.dropLast with uncksumed := bytes.getLast?}
    else TadIp4UpperChecksumSegCbData.add big ⟨c,none⟩ bytes) =
      ⟨(c+calculate_checksum big (cut last bytes).1)%UINT_MOD,(cut last bytes).2⟩ := by
  rw [cut]
  simp only [Bool.not_eq_true]
  split_ifs <;> rfl
/-- The callback adds the checksums of the pieces up one after the other. -/
theorem enumerate_pieces {pkt : TadPkt} (segs : List TadPktSeg) (n c : Nat) (carry : Option UInt8)
    (count : n+segs.length = tad_pkt_seg_num pkt) (some' : segs ≠ [] ∨ carry = none) (small : c < UINT_MOD) :
    (enumerateSegs (tad_ip4_upper_checksum_seg_cb big pkt) segs n ⟨c,carry⟩).checksum =
      (c+((pieces carry (segs.map TadPktSeg.data)).map (calculate_checksum big)).sum)%UINT_MOD := by
  have positive : 0 < UINT_MOD := by decide
  induction segs generalizing n c carry with
  | nil =>
    obtain rfl : carry = none := by simpa using some'
    simpa [enumerateSegs,pieces] using (mod_eq_of_lt small).symm
  | cons seg segs ih =>
    have last : n = tad_pkt_seg_num pkt-1 ↔ (segs.map TadPktSeg.data).isEmpty = true := by
      rw [length_cons] at count
      rw [List.isEmpty_iff,List.map_eq_nil_iff,← length_eq_zero_iff]
      omega
    have count' : n+1+segs.length = tad_pkt_seg_num pkt := by
      rw [length_cons] at count
      omega
    have carried : ∀ bytes, segs ≠ [] ∨ (cut (segs.map TadPktSeg.data).isEmpty bytes).2 = none := by grind [cut]
    rw [enumerateSegs,map_cons,tad_ip4_upper_checksum_seg_cb]
    cases carry with
    | none =>
      rw [pieces,map_cons,sum_cons]
      cases data : seg.data with
      | nil =>
        have rest := ih (n+1) c none count' (.inr rfl) small
        have nothing : cut (segs.map TadPktSeg.data).isEmpty [] = ([],none) := by simp [cut]
        have zero : calculate_checksum big [] = 0 := rfl
        rw [nothing,zero,Nat.zero_add]
        exact rest
      | cons first bytes =>
        simp only [last]
        rw [add_cut,ih (n+1) _ _ count' (carried (first :: bytes)) (mod_lt _ positive),Nat.mod_add_mod,Nat.add_assoc]
    | some byte =>
      cases data : seg.data with
      | nil =>
        rw [pieces]
        by_cases empty : segs = []
        · subst empty
          simp [last,enumerateSegs,pieces,TadIp4UpperChecksumSegCbData.add]
        · simp [last,empty,ih,count',small]
      | cons first bytes =>
        rw [pieces,map_cons,sum_cons,map_cons,sum_cons]
        simp only [last]
        have paired : ({TadIp4UpperChecksumSegCbData.add big ⟨c,some byte⟩ [byte,first] with uncksumed := none} :
            TadIp4UpperChecksumSegCbData) = ⟨(c+calculate_checksum big [byte,first])%UINT_MOD,none⟩ := rfl
        rw [paired,add_cut,ih (n+1) _ _ count' (carried bytes) (mod_lt _ positive),Nat.mod_add_mod,Nat.add_assoc,
          Nat.mod_add_mod,Nat.add_assoc]

end

section
variable {big : Bool} {hdr : List UInt8} {use_phdr : Bool} {offset : Nat} {first : TadPktSeg} {segs : List TadPktSeg}

/-- The packet with zeros in the field. -/
def presetSdu (offset : Nat) (first : TadPktSeg) (segs : List TadPktSeg) : TadPkt := ⟨⟨setBytes first.data offset 0 0⟩ :: segs⟩
def fieldSdu (offset : Nat) (first : TadPktSeg) (segs : List TadPktSeg) (x y : UInt8) : TadPkt :=
  ⟨⟨setBytes (setBytes first.data offset 0 0) offset x y⟩ :: segs⟩

variable {x y : UInt8}

theorem setBytes_setBytes {l : List UInt8} {x' y' : UInt8} (inside : offset+2 ≤ l.length) :
    setBytes (setBytes l offset x y) offset x' y' = setBytes l offset x' y' := by
  have front : (l.take offset).length = offset := by
    rw [length_take]
    omega
  simp only [setBytes]
  rw [take_append_of_le_length (by omega),take_of_length_le (by omega),List.drop_append,front]
  simp [show offset+2-offset = 2 by omega,List.drop_eq_nil_of_le (show (l.take offset).length ≤ offset+2 by omega)]
theorem phdr_even (header : 20 ≤ hdr.length) (n : Nat) : (phdrAddrs hdr).length%2 = 0 ∧ (phdrProto hdr).length%2 = 0 ∧
    (phdrLen n).length%2 = 0 := by grind [phdrProto,phdrLen,phdrAddrs]
/-- The words of the pseudo-header and the data. -/
def allWords (big : Bool) (hdr : List UInt8) (use_phdr : Bool) (sdu : TadPkt) : Nat :=
  (if use_phdr then wordSum big (phdrAddrs hdr)+wordSum big (phdrProto hdr)+wordSum big (phdrLen sdu.data.length) else 0)+
    wordSum big sdu.data
theorem verifies_iff (big : Bool) (header : 20 ≤ hdr.length) (sdu : TadPkt) :
    Verifies hdr use_phdr sdu ↔ onesSum (allWords big hdr use_phdr sdu) = 65535 := by
  obtain ⟨one,two,three⟩ := phdr_even header sdu.data.length
  have same : allWords big hdr use_phdr sdu =
      wordSum big ((if use_phdr then phdrAddrs hdr ++ phdrProto hdr ++ phdrLen sdu.data.length else []) ++ sdu.data) := by
    rw [allWords]
    cases use_phdr with
    | false => simp
    | true =>
      simp only [if_true]
      rw [wordSum_append (by simp only [length_append]; omega),wordSum_append (by simp only [length_append]; omega),
        wordSum_append one]
  rw [Verifies,same]
  cases big with
  | true => rfl
  | false => exact (wordSum_full true _).symm
theorem partsSum_words (sdu : TadPkt) : partsSum big hdr use_phdr sdu ≤ allWords big hdr use_phdr sdu ∧
    partsSum big hdr use_phdr sdu ≡ allWords big hdr use_phdr sdu [MOD 65535] := by
  have split : (pieces none (sdu.segs.map TadPktSeg.data)).map (calculate_checksum big) =
      ((pieces none (sdu.segs.map TadPktSeg.data)).map (wordSum big)).map onesSum := by simp [calculate_checksum,comp_def]
  have data : ((pieces none (sdu.segs.map TadPktSeg.data)).map (wordSum big)).sum = wordSum big sdu.data := by
    rw [pieces_sum,TadPkt.data,List.flatMap]
    rfl
  obtain ⟨less,same⟩ := sum_onesSum ((pieces none (sdu.segs.map TadPktSeg.data)).map (wordSum big))
  rw [← split,data] at less same
  rw [partsSum,allWords]
  cases use_phdr with
  | false => exact ⟨Nat.add_le_add le_rfl less,same.add_left 0⟩
  | true =>
    simp only [if_true,calculate_checksum] at *
    exact ⟨Nat.add_le_add (Nat.add_le_add (Nat.add_le_add (onesSum_le _) (onesSum_le _)) (onesSum_le _)) less,
      (((onesSum_mod _).add (onesSum_mod _)).add (onesSum_mod _)).add same⟩

theorem setBytes_append {l r : List UInt8} (inside : offset+2 ≤ l.length) :
    setBytes l offset x y ++ r = setBytes (l ++ r) offset x y := by
  simp [setBytes,take_append_of_le_length (show offset ≤ l.length by omega),drop_append_of_le_length inside]

section
variable (inside : offset+2 ≤ first.data_len)
include inside
theorem fieldSdu_data : (fieldSdu offset first segs x y).data = setBytes (TadPkt.mk (first :: segs)).data offset x y := by
  simp only [fieldSdu,TadPkt.data,flatMap_cons]
  rw [setBytes_setBytes inside,setBytes_append inside]
theorem presetSdu_length : (presetSdu offset first segs).data.length = (TadPkt.mk (first :: segs)).data.length := by
  simp only [presetSdu,TadPkt.data,flatMap_cons,length_append,length_setBytes inside]
theorem allWords_field : allWords big hdr use_phdr (fieldSdu offset first segs x y) =
      allWords big hdr use_phdr (presetSdu offset first segs)+(if offset%2 = 0 then word big x y else word big y x) := by
  have within : offset+2 ≤ (TadPkt.mk (first :: segs)).data.length := by
    simp only [TadPkt.data,flatMap_cons,length_append]
    exact Nat.le_add_right_of_le inside
  have preset : (presetSdu offset first segs).data = setBytes (TadPkt.mk (first :: segs)).data offset 0 0 := by
    simp only [presetSdu,TadPkt.data,flatMap_cons]
    rw [setBytes_append inside]
  rw [allWords,allWords,fieldSdu_data inside,preset,length_setBytes within,length_setBytes within,wordSum_setBytes within]
  omega
end
theorem allWords_lt {sdu : TadPkt} (size : sdu.data.length ≤ 65535) (header : 20 ≤ hdr.length) :
    allWords big hdr use_phdr sdu < UINT_MOD := by
  have data := @wordSum_le big sdu.data
  have addrs := @wordSum_le big (phdrAddrs hdr)
  have proto := @wordSum_le big (phdrProto hdr)
  have len := @wordSum_le big (phdrLen sdu.data.length)
  have short : (phdrAddrs hdr).length = 8 := by
    rw [phdrAddrs,length_take,length_drop]
    omega
  have two : (phdrProto hdr).length = 2 := rfl
  have two' : (phdrLen sdu.data.length).length = 2 := rfl
  rw [short] at addrs
  rw [two] at proto
  rw [two'] at len
  rw [allWords,UINT_MOD]
  split_ifs <;> omega

/-- What is written into the field when a correct checksum is requested. -/
theorem gen_bin_field (header : 20 ≤ hdr.length) (inside : offset+2 ≤ first.data_len)
    (size : (TadPkt.mk (first :: segs)).data.length ≤ 65535)
    (zero : word true (first.data.getD offset 0) (first.data.getD (offset+1) 0) ≠ TE_IP4_UPPER_LAYER_CSUM_ZERO)
    (bad : word true (first.data.getD offset 0) (first.data.getD (offset+1) 0) ≠ TE_IP4_UPPER_LAYER_CSUM_BAD) {t : Nat}
    (total : partsSum big hdr use_phdr (presetSdu offset first segs) = t) :
    tad_ip4_gen_bin_cb_per_sdu big ⟨hdr,some offset,use_phdr,tad_ip4_init_chksm big hdr (some offset) use_phdr 0⟩ ⟨first :: segs⟩ =
      .ok (fieldSdu offset first segs (wordBytes big (65535-(t%65536+t/65536)%65536)).1
        (wordBytes big (65535-(t%65536+t/65536)%65536)).2) := by
  have len : tad_pkt_len ⟨first :: segs⟩ = (TadPkt.mk (first :: segs)).data.length :=
    mod_eq_of_lt (by rw [SIZE_MOD]; omega)
  have same := @presetSdu_length offset first segs inside
  have small : t < UINT_MOD := by
    rw [← total]
    exact lt_of_le_of_lt (partsSum_words _).1 (allWords_lt (by omega) header)
  rw [tad_ip4_gen_bin_cb_per_sdu]
  simp only
  rw [if_neg (by omega),len,if_neg (by omega),if_neg zero]
  have start : (if use_phdr = true then (tad_ip4_init_chksm big hdr (some offset) use_phdr 0+
        calculate_checksum big (phdrLen (TadPkt.mk (first :: segs)).data.length))%UINT_MOD
      else tad_ip4_init_chksm big hdr (some offset) use_phdr 0) =
      (if use_phdr then calculate_checksum big (phdrAddrs hdr)+calculate_checksum big (phdrProto hdr)+
        calculate_checksum big (phdrLen (presetSdu offset first segs).data.length) else 0)%UINT_MOD := by
    rw [same]
    cases use_phdr with
    | false => rfl
    | true => simp [tad_ip4_init_chksm]
  have sum : (tad_pkt_enumerate_seg (presetSdu offset first segs) (tad_ip4_upper_checksum_seg_cb big (presetSdu offset first segs))
      ⟨(if use_phdr then calculate_checksum big (phdrAddrs hdr)+calculate_checksum big (phdrProto hdr)+
        calculate_checksum big (phdrLen (presetSdu offset first segs).data.length) else 0)%UINT_MOD,none⟩).checksum = t := by
    rw [tad_pkt_enumerate_seg,enumerate_pieces _ _ _ _ (Nat.zero_add _) (.inr rfl) (mod_lt _ (by decide)),Nat.mod_add_mod]
    rw [partsSum] at total
    rw [total,mod_eq_of_lt small]
  rw [start,if_neg bad]
  show Except.ok (TadPkt.mk (_ :: segs)) = _
  rw [show (⟨⟨setBytes first.data offset 0 0⟩ :: segs⟩ : TadPkt) = presetSdu offset first segs from rfl,sum]
  rfl

/-- The checksum verifies exactly if one fold of the sum has no carry, and the field stands at an even
    offset (or the sum is a multiple of 257). -/
theorem upper_checksum_verifies (big : Bool) (header : 20 ≤ hdr.length) (inside : offset+2 ≤ first.data_len)
    (size : (TadPkt.mk (first :: segs)).data.length ≤ 65535)
    (zero : word true (first.data.getD offset 0) (first.data.getD (offset+1) 0) ≠ TE_IP4_UPPER_LAYER_CSUM_ZERO)
    (bad : word true (first.data.getD offset 0) (first.data.getD (offset+1) 0) ≠ TE_IP4_UPPER_LAYER_CSUM_BAD) :
    (∃ sdu, tad_ip4_gen_bin_cb_per_sdu big
        ⟨hdr,some offset,use_phdr,tad_ip4_init_chksm big hdr (some offset) use_phdr 0⟩ ⟨first :: segs⟩ = .ok sdu ∧
        Verifies hdr use_phdr sdu) ↔
      partsSum big hdr use_phdr (presetSdu offset first segs)%65536+partsSum big hdr use_phdr (presetSdu offset first segs)/65536 < 65536 ∧
        (offset%2 = 0 ∨ partsSum big hdr use_phdr (presetSdu offset first segs)%257 = 0) := by
  generalize total : partsSum big hdr use_phdr (presetSdu offset first segs) = t
  have written := gen_bin_field header inside size zero bad total
  obtain ⟨less,same⟩ := @partsSum_words big hdr use_phdr (presetSdu offset first segs)
  rw [total] at less same
  rw [Nat.ModEq] at same
  have below : t < 65536*65536 := by
    rw [← total]
    exact lt_of_le_of_lt (partsSum_words _).1 (allWords_lt (by rwa [presetSdu_length inside]) header)
  generalize field : 65535-(t%65536+t/65536)%65536 = n at written
  have small : n < 65536 := by omega
  have reduce : (∃ sdu, tad_ip4_gen_bin_cb_per_sdu big
      ⟨hdr,some offset,use_phdr,tad_ip4_init_chksm big hdr (some offset) use_phdr 0⟩ ⟨first :: segs⟩ = .ok sdu ∧
      Verifies hdr use_phdr sdu) ↔ Verifies hdr use_phdr (fieldSdu offset first segs (wordBytes big n).1 (wordBytes big n).2) := by
    rw [written]
    constructor
    · simp
    · simp
  have turned := word_turn big (wordBytes big n).1 (wordBytes big n).2
  have nothing : word (!big) (wordBytes big n).1 (wordBytes big n).2 = 0 ↔ word big (wordBytes big n).1 (wordBytes big n).2 = 0 := by
    rw [word_zero,word_zero]
  rw [word_wordBytes small] at turned nothing
  rw [Nat.ModEq] at turned
  rw [reduce,verifies_iff big header,allWords_field inside,word_swap big (wordBytes big n).1,word_wordBytes small,onesSum_full]
  generalize allWords big hdr use_phdr (presetSdu offset first segs) = words at less same ⊢
  generalize word (!big) (wordBytes big n).1 (wordBytes big n).2 = m at turned nothing ⊢
  by_cases even : offset%2 = 0
  · simp only [even,if_true,true_or,and_true]
    exact complement_once below same less field
  · simp only [even,if_false,false_or]
    exact complement_turned below same less field turned nothing

/-- A UDP packet between two addresses, in a segment with its header and further ones. -/
def udpHdr : List UInt8 := [0x45,0,0,30,0,0,0,0,64,17,0,0,192,168,1,1,10,0,0,1]
def udpFirst : TadPktSeg := ⟨[0x35,0x30,0,0,0,10,0,0]⟩
def udpData (big : Bool) : TadIp4GenBinCbPerSduData := ⟨udpHdr,some 6,true,tad_ip4_init_chksm big udpHdr (some 6) true 0⟩

theorem upper_checksum_verifies_udp : ∃ sdu, tad_ip4_gen_bin_cb_per_sdu false (udpData false) ⟨[udpFirst,⟨[7,8,9]⟩,⟨[]⟩,⟨[10]⟩]⟩ = .ok sdu ∧
    Verifies udpHdr true sdu :=
  (upper_checksum_verifies false (by decide) (by decide) (by decide) (by decide) (by decide)).mpr (by decide)
/-- The parts add up to 0x1ffff: folded once, they have a carry. -/
theorem udp_checksum_carry : ¬ ∀ (big : Bool) (hdr : List UInt8) (use_phdr : Bool) (offset : Nat) (first : TadPktSeg)
    (segs : List TadPktSeg), 20 ≤ hdr.length → offset+2 ≤ first.data_len → (TadPkt.mk (first :: segs)).data.length ≤ 65535 →
    word true (first.data.getD offset 0) (first.data.getD (offset+1) 0) = 0 → ∃ sdu, tad_ip4_gen_bin_cb_per_sdu big
      ⟨hdr,some offset,use_phdr,tad_ip4_init_chksm big hdr (some offset) use_phdr 0⟩ ⟨first :: segs⟩ = .ok sdu ∧
        Verifies hdr use_phdr sdu := by
  intro claim
  obtain ⟨sdu,written,verifies⟩ := claim false udpHdr true 6 udpFirst [⟨[0xff,0xff]⟩] (by decide) (by decide) (by decide) (by decide)
  have result : tad_ip4_gen_bin_cb_per_sdu false (udpData false) ⟨[udpFirst,⟨[0xff,0xff]⟩]⟩ =
      .ok ⟨[⟨[0x35,0x30,0,0,0,10,0xff,0xff]⟩,⟨[0xff,0xff]⟩]⟩ := by decide +kernel
  cases written.symm.trans result
  revert verifies
  rw [Verifies]
  decide

end

end TestEnvironment.Tad
