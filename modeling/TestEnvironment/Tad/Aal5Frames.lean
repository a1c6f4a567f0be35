import TestEnvironment.Tad.Aal5
import TestEnvironment.Tad.FieldValues

/-!
The cells that `tad_aal5_gen_bin_cb` makes: what they have to carry, and when they carry it.
-/
namespace TestEnvironment.Tad.Aal5
open Lib

section
variable {segs : List SegData} {bytes : List UInt8} {r : BitVec 32}

theorem top_bit (a : BitVec 32) : a &&& 0x80000000 ≠ 0 ↔ a.msb = true := by
  have power : (0x80000000 : BitVec 32) = BitVec.twoPow 32 31 := by decide
  rw [power,BitVec.and_twoPow,BitVec.msb_eq_getLsbD_last]
  cases a.getLsbD (32-1) <;> decide
/-- Multiplication in the ring is the step of the shift register. -/
theorem product_iterate (a : BitVec 32) (k : Nat) : product_in_ring_to_power a k = (timesX g_defect)^[k] a := by
  induction k generalizing a with
  | zero => rfl
  | succ k ih =>
    rw [product_in_ring_to_power,ih,Function.iterate_succ_apply,timesX]
    simp only [top_bit]
theorem calculate_bytes (r : BitVec 32) (bytes : List UInt8) (len : Nat) :
    calculate_crc32 r (some bytes) len = (bytes.take len).foldl (registerByte g_defect) r := by
  simp only [calculate_crc32,product_iterate]
  rfl
theorem g_defect_odd : g_defect.getLsbD 0 = true := by decide

/-- The register behind segments, as it goes from one to the next. -/
def segsCrc (r : BitVec 32) (segs : List SegData) : BitVec 32 := segs.foldl (fun r seg => calculate_crc32 r seg.data_ptr seg.data_len) r

theorem calculate_here (r : BitVec 32) (data behind : List UInt8) :
    calculate_crc32 r (SegData.here data behind).data_ptr (SegData.here data behind).data_len = data.foldl (registerByte g_defect) r := by
  rw [SegData.data_ptr,calculate_bytes,SegData.data_len,SegData.data,take_left]
/-- The segments before the last one are all summed up. -/
theorem enumerate_front {front behind : List SegData} {n k : Nat} (more : k+front.length < n) :
    enumerateFrom (tad_all5_crc32 n) (front ++ behind) k r = enumerateFrom (tad_all5_crc32 n) behind (k+front.length) (segsCrc r front) := by
  induction front generalizing k r with
  | nil => rfl
  | cons seg front ih =>
    rw [length_cons] at more
    rw [cons_append,enumerateFrom,tad_all5_crc32,if_pos (by omega),bind_some,ih (by omega),length_cons,
      Nat.add_right_comm,Nat.add_assoc k]
    rfl

/-- What is in front of the last segment without memory leaves no remainder. -/
def Restarts (segs : List SegData) : Prop :=
  ∀ front behind, segs = front ++ .NULL :: behind → (∀ seg ∈ behind, seg ≠ .NULL) →
    textRemainder g_defect CRC32_INIT (front.flatMap SegData.data) = 0

theorem restarts_null : Restarts (segs ++ [.NULL]) ↔ textRemainder g_defect CRC32_INIT (segs.flatMap SegData.data) = 0 := by
  constructor
  · exact fun restarts => restarts segs [] rfl nofun
  · intro zero front behind same none'
    obtain rfl | ⟨behind,last,rfl⟩ := behind.eq_nil_or_concat
    · simp_all
    · rw [concat_eq_append] at none'
      rw [concat_eq_append,← cons_append,← append_assoc] at same
      have last' : SegData.NULL = last := List.singleton_inj.mp (List.append_inj_right' same rfl)
      exact absurd last'.symm (none' last (by simp))
theorem restarts_here (data behind : List UInt8) : Restarts (segs ++ [.here data behind]) ↔ Restarts segs := by
  constructor
  · intro restarts front rest same none'
    refine restarts front (rest ++ [.here data behind]) (by rw [same]; simp) fun seg member => ?_
    obtain old | new := mem_append.mp member
    · exact none' seg old
    · rw [mem_singleton.mp new]
      exact SegData.noConfusion
  · intro restarts front rest same none'
    obtain rfl | ⟨rest,last,rfl⟩ := rest.eq_nil_or_concat
    · cases List.singleton_inj.mp (List.append_inj_right' same rfl)
    · rw [concat_eq_append] at none'
      rw [concat_eq_append,← cons_append,← append_assoc] at same
      exact restarts front rest (List.append_inj_left' same rfl) fun seg member => none' seg (mem_append_left _ member)
/-- The register is right exactly where each restart leaves nothing out. -/
theorem segsCrc_iff : segsCrc CRC32_INIT segs = (segs.flatMap SegData.data).foldl (registerByte g_defect) CRC32_INIT ↔ Restarts segs := by
  induction segs using List.reverseRecOn with
  | nil => exact iff_of_true rfl fun front behind same => absurd same.symm (by simp)
  | append_singleton segs seg ih =>
    rw [segsCrc,foldl_append,foldl_cons,foldl_nil,flatMap_append,flatMap_singleton,foldl_append]
    cases seg with
    | NULL =>
      rw [restarts_null,← register_remainder g_defect CRC32_INIT _ (by decide),← wordPoly_zero]
      exact ⟨fun same => congrArg wordPoly same.symm,fun same => (wordPoly_injective same).symm⟩
    | here data behind =>
      rw [restarts_here,← ih,calculate_here]
      exact (register_injective g_defect data g_defect_odd).eq_iff
end

section
variable {sdu : SduPkt} {t : List UInt8} {pdus : List Cell}

/-- A packet with the two segments behind it that are added to each. -/
def SduPkt.laid (sdu : SduPkt) : SduPkt := ⟨sdu.segs ++ [.here [] tad_all5_pad,.here (replicate AAL5_TRAILER_LEN 0) []]⟩
/-- The padding behind so many bytes. -/
def padLen (n : Nat) : Nat := if 0 < (n+8)%48 then 48-(n+8)%48 else 0
/-- The trailer in front of the field for the CRC. -/
def trailerFront (t : List UInt8) (n : Nat) : List UInt8 := t.take 2 ++ beBytes 2 n

theorem padLen_spec (n : Nat) : padLen n < 48 ∧ (n+padLen n+8)%48 = 0 := by
  rw [padLen]
  split_ifs with more <;> omega
theorem pkt_data (sdu : SduPkt) : sdu.pkt.data = sdu.data := by
  rw [TadPkt.data,SduPkt.pkt,SduPkt.data,List.flatMap_map]
theorem pkt_len (sdu : SduPkt) (small : sdu.data.length < SIZE_MOD) : tad_pkt_len sdu.pkt = sdu.data.length := by
  rw [tad_pkt_len,pkt_data,mod_eq_of_lt small]
/-- Four bytes behind four others. -/
theorem overwrite_parts {front old behind new : List UInt8} (same : old.length = new.length) :
    overwrite (front ++ old ++ behind) front.length new = front ++ new ++ behind := by grind [overwrite]
theorem copy_parts {front old behind new : List UInt8} (same : old.length = new.length) :
    (SegData.here (front ++ old ++ behind) []).copy front.length new = some (.here (front ++ new ++ behind) []) := by
  rw [SegData.copy,copyTo,if_pos (by simp [same]),overwrite_parts same]
  rfl
theorem copy_template (long : t.length = 8) : (SegData.here (replicate AAL5_TRAILER_LEN 0) []).copy 0 t = some (.here t []) := by
  have parts := @copy_parts [] (replicate AAL5_TRAILER_LEN 0) [] t (by rw [long]; rfl)
  simpa using parts
theorem copy_length (long : t.length = 8) (n : Nat) : (SegData.here t []).copy 2 (beBytes 2 n) = some (.here (trailerFront t n ++ t.drop 4) []) := by
  have parts := @copy_parts (t.take 2) ((t.drop 2).take 2) (t.drop 4) (beBytes 2 n) (by simp [long])
  have whole : t.take 2 ++ (t.drop 2).take 2 ++ t.drop 4 = t := by
    rw [← take_add,take_append_drop]
  rwa [whole,length_take,long] at parts
theorem trailerFront_length (long : t.length = 8) (n : Nat) : (trailerFront t n).length = 4 := by
  simp [trailerFront,long]
theorem copy_crc (long : t.length = 8) (n v : Nat) :
    (SegData.here (trailerFront t n ++ t.drop 4) []).copy 4 (beBytes 4 v) = some (.here (trailerFront t n ++ beBytes 4 v) []) := by
  have parts := @copy_parts (trailerFront t n) (t.drop 4) [] (beBytes 4 v) (by simp [long])
  rwa [trailerFront_length long,append_nil,append_nil] at parts
theorem check_true {holds : Bool} (true' : holds = true) : check holds = .ok () := by
  rw [check,if_pos true']
theorem orEnd_some {α : Type} (a : α) : orEnd (some a) = .ok a := rfl
theorem pad_grown {n : Nat} (few : n < 48) :
    (SegData.here [] tad_all5_pad).set_data_len n = some (.here (replicate n 0) (replicate (47-n) 0)) := by
  have zeros : tad_all5_pad = replicate 47 0 := rfl
  rw [zeros,SegData.set_data_len,nil_append,length_replicate,if_pos (by omega),List.take_replicate,List.drop_replicate,
    Nat.min_eq_left (by omega)]

/-- The register with which the code ends. -/
def lastCrc (sdu : SduPkt) (t : List UInt8) : BitVec 32 :=
  (replicate (padLen sdu.data.length) 0 ++ trailerFront t sdu.data.length).foldl (registerByte g_defect) (segsCrc CRC32_INIT sdu.segs)
/-- The bytes of the PDU as the code makes it. -/
def sentBytes (sdu : SduPkt) (t : List UInt8) : List UInt8 :=
  sdu.data ++ replicate (padLen sdu.data.length) 0 ++ trailerFront t sdu.data.length ++ beBytes 4 (~~~lastCrc sdu t).toNat

/-- The segments with the padding and a trailer. -/
def SduPkt.padded (sdu : SduPkt) (trailer : List UInt8) : List SegData :=
  sdu.segs ++ [.here (replicate (padLen sdu.data.length) 0) (replicate (47-padLen sdu.data.length) 0),.here trailer []]

theorem padded_data (sdu : SduPkt) (trailer : List UInt8) :
    SduPkt.data ⟨sdu.padded trailer⟩ = sdu.data ++ replicate (padLen sdu.data.length) 0 ++ trailer := by
  simp [SduPkt.data,SduPkt.padded,SegData.data]
theorem crc_summed (long : t.length = 8) :
    enumerateFrom (tad_all5_crc32 (sdu.padded (trailerFront t sdu.data.length ++ t.drop 4)).length)
      (sdu.padded (trailerFront t sdu.data.length ++ t.drop 4)) 0 CRC32_INIT = some (lastCrc sdu t) := by
  have size : (SegData.here (trailerFront t sdu.data.length ++ t.drop 4) []).data_len = AAL5_TRAILER_LEN := by
    rw [SegData.data_len,SegData.data,length_append,trailerFront_length long,length_drop,long]
    rfl
  rw [SduPkt.padded,enumerate_front (by simp),length_append,length_cons,length_singleton,enumerateFrom,tad_all5_crc32,
    if_pos (by omega),bind_some,enumerateFrom,tad_all5_crc32,if_neg (by omega),if_pos size,bind_some,enumerateFrom,
    calculate_here,size,SegData.data_ptr,calculate_bytes,lastCrc,foldl_append,append_nil]
  exact congrArg (some <| List.foldl _ _ ·) (List.take_left' (trailerFront_length long _))
/-- What `tad_aal5_prepare_pdus` does with a packet. -/
theorem prepare_spec (small : sdu.data.length ≤ 65535) (long : t.length = 8) : ∃ pkt front last,
    tad_aal5_prepare_pdus ⟨t,true,true⟩ sdu.laid pdus = .ok (pkt,pdus ++ (front.map (fun frag => ⟨frag,none⟩) ++ [⟨last,some true⟩])) ∧
    (∀ frag ∈ front ++ [last], frag.data.length = ATM_PAYLOAD_LEN) ∧ (front ++ [last]).flatMap TadPkt.data = sentBytes sdu t := by
  obtain ⟨few,whole⟩ := padLen_spec sdu.data.length
  have laidData : sdu.laid.data.length = sdu.data.length+8 := by
    simp [SduPkt.laid,SduPkt.data,SegData.data,AAL5_TRAILER_LEN,tad_all5_pad]
  have len : tad_pkt_len sdu.laid.pkt = sdu.data.length+8 := by
    rw [pkt_len _ (by rw [laidData,SIZE_MOD]; omega),laidData]
  have reversed : sdu.laid.segs.reverse = .here (replicate AAL5_TRAILER_LEN 0) [] :: .here [] tad_all5_pad :: sdu.segs.reverse := by
    simp [SduPkt.laid]
  have paddedLen (trailer : List UInt8) (eight : trailer.length = 8) :
      tad_pkt_len (SduPkt.pkt ⟨sdu.padded trailer⟩) = sdu.data.length+padLen sdu.data.length+8 := by grind [padded_data,pkt_len,SIZE_MOD]
  have pad : (if 0 < (sdu.data.length+8)%ATM_PAYLOAD_LEN then ATM_PAYLOAD_LEN-(sdu.data.length+8)%ATM_PAYLOAD_LEN
      else (sdu.data.length+8)%ATM_PAYLOAD_LEN) = padLen sdu.data.length := by
    rw [padLen,ATM_PAYLOAD_LEN]
    split_ifs <;> omega
  have filled : writeLen ⟨t,true,true⟩ (sdu.data.length+8-AAL5_TRAILER_LEN) (.here t []) =
      some (.here (trailerFront t sdu.data.length ++ t.drop 4) []) := by
    rw [writeLen,if_pos rfl,AAL5_TRAILER_LEN,Nat.add_sub_cancel,mod_eq_of_lt (by omega),copy_length long]
  have summed : writeCrc ⟨t,true,true⟩ (sdu.padded (trailerFront t sdu.data.length ++ t.drop 4)) (.here (trailerFront t sdu.data.length ++ t.drop 4) []) =
      some (.here (trailerFront t sdu.data.length ++ beBytes 4 (~~~lastCrc sdu t).toNat) []) := by
    rw [writeCrc,if_pos rfl,crc_summed long,bind_some,copy_crc long]
  have aligned : check (tad_pkt_len (SduPkt.pkt ⟨sdu.padded (replicate AAL5_TRAILER_LEN 0)⟩)%ATM_PAYLOAD_LEN = 0) = .ok () :=
    check_true (decide_eq_true (by rw [paddedLen _ rfl]; exact whole))
  have size : (trailerFront t sdu.data.length ++ beBytes 4 (~~~lastCrc sdu t).toNat).length = 8 := by
    rw [length_append,trailerFront_length long,beBytes_length]
  have content : (SduPkt.pkt ⟨sdu.padded (trailerFront t sdu.data.length ++ beBytes 4 (~~~lastCrc sdu t).toNat)⟩).data = sentBytes sdu t := by
    rw [pkt_data,padded_data,sentBytes,← append_assoc]
  have total : (sentBytes sdu t).length = sdu.data.length+padLen sdu.data.length+8 := by grind [pkt_data,padded_data]
  obtain ⟨frags,cut,count,sizes,joined⟩ := @fragment_whole (SduPkt.pkt ⟨sdu.padded (trailerFront t sdu.data.length ++
    beBytes 4 (~~~lastCrc sdu t).toNat)⟩) [] ATM_PAYLOAD_LEN none false (by decide) (by rw [paddedLen _ size]; omega) (.inl rfl)
    (by rw [content,total]; exact whole) (by rw [content,total,SIZE_MOD,ATM_PAYLOAD_LEN]; omega)
    (by rw [content,total,UINT_MOD,ATM_PAYLOAD_LEN]; omega)
  rw [content] at count joined
  obtain ⟨front,last,rfl⟩ := frags.eq_nil_or_concat'.resolve_left (by
    rintro rfl
    rw [total,length_nil,ATM_PAYLOAD_LEN] at count
    omega)
  have shown : indicated pdus (front ++ [last]) = some (pdus ++ (front.map (fun frag => ⟨frag,none⟩) ++ [⟨last,some true⟩])) := by
    simp [indicated]
  refine ⟨⟨sdu.padded (trailerFront t sdu.data.length ++ beBytes 4 (~~~lastCrc sdu t).toNat)⟩,front,last,?_,sizes,List.flatMap_def.trans joined⟩
  rw [tad_aal5_prepare_pdus,reversed]
  dsimp only
  rw [len,check_true (by simp [AAL5_TRAILER_LEN]),check_true (by decide),reverse_reverse,pad,pad_grown few]
  simp only [orEnd_some,bind,Except.bind]
  rw [← SduPkt.padded,aligned]
  dsimp only
  rw [check_true (by decide),copy_template long]
  simp only [orEnd_some]
  rw [filled]
  simp only [orEnd_some]
  rw [← SduPkt.padded,summed]
  simp only [orEnd_some]
  rw [← SduPkt.padded,cut]
  simp only [orEnd_some,nil_append]
  rw [shown]
  rfl
end

section
variable {sdu : SduPkt} {t : List UInt8} {cells : List Cell}

/-- The bytes in front of the field for the CRC. -/
def frameFront (payload : List UInt8) (pad : Nat) (uu cpi : UInt8) : List UInt8 :=
  payload ++ replicate pad 0 ++ [uu,cpi] ++ beBytes 2 payload.length
/-- Cells with the indication in the last one. -/
structure Delimited (cells : List Cell) : Prop where
  sizes : ∀ cell ∈ cells, cell.pkt.data.length = 48
  last : ∃ front cell, cells = front ++ [cell] ∧ cell.indication = some true ∧ ∀ other ∈ front, other.indication ≠ some true
/-- A payload in cells, with padding and a trailer with the length and the complement of the CRC-32. -/
structure Framed (payload : List UInt8) (cells : List Cell) : Prop extends Delimited cells where
  content : ∃ pad uu cpi, ∃ crc : BitVec 32, pad < 48 ∧
    cells.flatMap (fun cell => cell.pkt.data) = frameFront payload pad uu cpi ++ beBytes 4 (~~~crc).toNat ∧
    wordPoly crc = textRemainder (0x04c11db7 : BitVec 32) (BitVec.allOnes 32) (frameFront payload pad uu cpi)

theorem lastCrc_iff : lastCrc sdu t = (sdu.data ++ replicate (padLen sdu.data.length) 0 ++ trailerFront t sdu.data.length).foldl
    (registerByte g_defect) CRC32_INIT ↔ Restarts sdu.segs := by
  rw [← segsCrc_iff,lastCrc,append_assoc,foldl_append (l := sdu.data)]
  exact (register_injective g_defect _ g_defect_odd).eq_iff
section
variable {front : List TadPkt} {last : TadPkt} (sizes : ∀ frag ∈ front ++ [last], frag.data.length = ATM_PAYLOAD_LEN)
include sizes

theorem delimited : Delimited (front.map (fun frag => ⟨frag,none⟩) ++ [⟨last,some true⟩]) := by
  refine ⟨fun cell member => ?_,_,_,rfl,rfl,fun other member => ?_⟩
  · obtain here | here := mem_append.mp member
    · obtain ⟨frag,inside,rfl⟩ := mem_map.mp here
      exact sizes frag (mem_append_left _ inside)
    · rw [mem_singleton.mp here]
      exact sizes last (by simp)
  · obtain ⟨frag,-,rfl⟩ := mem_map.mp member
    exact nofun
/-- The bytes that are sent are those of a frame exactly where the CRC is right. -/
theorem framed_iff (long : t.length = 8) (content : (front ++ [last]).flatMap TadPkt.data = sentBytes sdu t) :
    Framed sdu.data (front.map (fun frag => ⟨frag,none⟩) ++ [⟨last,some true⟩]) ↔ Restarts sdu.segs := by
  have bytes : (front.map (fun frag => Cell.mk frag none) ++ [Cell.mk last (some true)]).flatMap (fun cell => cell.pkt.data) = sentBytes sdu t := by
    rw [← content,flatMap_append,flatMap_append,List.flatMap_map]
    rfl
  obtain ⟨uu,cpi,start⟩ : ∃ uu cpi, t.take 2 = [uu,cpi] := List.length_eq_two.mp (by rw [length_take,long]; rfl)
  have shape : sdu.data ++ replicate (padLen sdu.data.length) 0 ++ trailerFront t sdu.data.length =
      frameFront sdu.data (padLen sdu.data.length) uu cpi := by
    rw [frameFront,trailerFront,start,← append_assoc]
  have remainder := register_remainder g_defect CRC32_INIT (frameFront sdu.data (padLen sdu.data.length) uu cpi) (by decide)
  rw [← lastCrc_iff (t := t),shape]
  constructor
  · rintro ⟨-,pad,uu',cpi',crc,-,same,right⟩
    rw [bytes,sentBytes,shape] at same
    obtain ⟨front',crc'⟩ := append_inj' same (by rw [beBytes_length,beBytes_length])
    have stored : lastCrc sdu t = crc := by
      have number := beBytes_injective (n := 4) (~~~lastCrc sdu t).isLt (~~~crc).isLt crc'
      exact BitVec.not_inj.mp (BitVec.eq_of_toNat_eq number)
    rw [← front'] at right
    rw [stored]
    exact wordPoly_injective (right.trans remainder.symm)
  · intro right
    refine ⟨delimited sizes,padLen sdu.data.length,uu,cpi,lastCrc sdu t,(padLen_spec _).1,?_,?_⟩
    · rw [bytes,sentBytes,shape]
    · rw [right]
      exact remainder
end
end

section
variable {Expr : Type} {tad_int_expr_calculate : Option Expr → Except Nat Int} {dus : Nat → TadDataUnit Expr}

/-- A field that the template leaves out or gives an integer for. -/
def Sendable (tad_int_expr_calculate : Option Expr → Except Nat Int) (du : TadDataUnit Expr) : Prop :=
  du = .UNDEF ∨ ∃ value, Sends tad_int_expr_calculate du (.integer value)

theorem Sendable.sends {i : Nat} (sendable : Sendable tad_int_expr_calculate (dus i)) :
    ∃ value, Sends tad_int_expr_calculate (txUnit dus (trailerDef Expr).tx_def i) (.integer value) := by
  obtain unset | ⟨value,sends⟩ := sendable
  · rw [txUnit,unset,if_neg fun other => other rfl]
    exact ⟨_,.plain 0⟩
  · have set : (dus i).du_type ≠ .UNDEF := by
      generalize dus i = du at sends
      cases sends <;> exact TadDuType.noConfusion
    rw [txUnit,if_pos set]
    exact ⟨value,sends⟩
theorem trailer_generated (uu : Sendable tad_int_expr_calculate (dus 0)) (cpi : Sendable tad_int_expr_calculate (dus 1))
    (len_unset : dus 2 = .UNDEF) (crc_unset : dus 3 = .UNDEF) (stale : Fin 8 → UInt8) : ∃ t,
    tad_bps_pkt_frag_gen_bin tad_int_expr_calculate (trailerDef Expr) dus (List.ofFn stale) 0 (AAL5_TRAILER_LEN <<< 3) = .ok (t,64) ∧
      t.length = 8 := by
  obtain ⟨first,sendsFirst⟩ := uu.sends
  obtain ⟨second,sendsSecond⟩ := cpi.sends
  obtain ⟨third,sendsThird⟩ := (show Sendable tad_int_expr_calculate (dus 2) from .inl len_unset).sends
  obtain ⟨fourth,sendsFourth⟩ := (show Sendable tad_int_expr_calculate (dus 3) from .inl crc_unset).sends
  have assigned : Assigned tad_int_expr_calculate dus (trailerDef Expr).tx_def 0 tad_all5_bps_cpcs_trailer
      [.integer first,.integer second,.integer third,.integer fourth] := by
    refine ⟨.cons rfl (.cons rfl (.cons rfl (.cons rfl .nil))),fun k value found => ?_⟩
    match k with
    | 0 => exact some.inj found ▸ sendsFirst
    | 1 => exact some.inj found ▸ sendsSecond
    | 2 => exact some.inj found ▸ sendsThird
    | 3 => exact some.inj found ▸ sendsFourth
    | _+4 => cases found
  have proper : ProperFields 0 tad_all5_bps_cpcs_trailer := by
    simp [ProperFields,ProperField,tad_all5_bps_cpcs_trailer]
  obtain ⟨t,run,length,-⟩ := @genLoop_spec _ _ (List.ofFn stale) 0 _ _ _ _ 0 proper assigned (by simp [fieldsLen,tad_all5_bps_cpcs_trailer])
    (by simp [fieldsLen,tad_all5_bps_cpcs_trailer,UINT_MOD])
  refine ⟨t,?_,length.trans (List.length_ofFn)⟩
  rw [tad_bps_pkt_frag_gen_bin,if_neg (by decide)]
  exact run
theorem padding_added (sdus : List SduPkt) :
    tad_pkts_add_new_seg sdus false (some tad_all5_pad) 0 = some (sdus.map fun pkt => ⟨pkt.segs ++ [.here [] tad_all5_pad]⟩) := rfl
theorem trailer_added (sdus : List SduPkt) :
    tad_pkts_add_new_seg (sdus.map fun pkt => ⟨pkt.segs ++ [.here [] tad_all5_pad]⟩) false none AAL5_TRAILER_LEN = some (sdus.map SduPkt.laid) := by
  simp [tad_pkts_add_new_seg,newSeg,AAL5_TRAILER_LEN,SduPkt.laid]
/-- Each SDU becomes cells of its own. -/
theorem prepareAll_spec {t : List UInt8} (long : t.length = 8) (sdus : List SduPkt) (small : ∀ sdu ∈ sdus, sdu.data.length ≤ 65535)
    (pdus : List Cell) : ∃ pkts cells, prepareAll ⟨t,true,true⟩ (sdus.map SduPkt.laid) pdus = .ok (pkts,pdus ++ cells.flatten) ∧
      List.Forall₂ (fun sdu cells => Delimited cells ∧ (Framed sdu.data cells ↔ Restarts sdu.segs)) sdus cells := by
  induction sdus generalizing pdus with
  | nil => exact ⟨[],[],by simp [prepareAll],.nil⟩
  | cons sdu sdus ih =>
    obtain ⟨pkt,front,last,made,sizes,content⟩ := @prepare_spec sdu t pdus (small sdu mem_cons_self) long
    obtain ⟨pkts,cells,rest,frames⟩ := ih (fun other member => small other (mem_cons_of_mem sdu member))
      (pdus ++ (front.map (fun frag => ⟨frag,none⟩) ++ [⟨last,some true⟩]))
    refine ⟨pkt :: pkts,(front.map (fun frag => ⟨frag,none⟩) ++ [⟨last,some true⟩]) :: cells,?_,.cons ⟨delimited sizes,framed_iff sizes long content⟩ frames⟩
    rw [map_cons,prepareAll,made]
    simp only [bind,Except.bind]
    rw [rest]
    simp only [List.flatten_cons,append_assoc]
/-- AAL5 framing: SDUs of at most 65535 bytes, with a template that leaves the length and the CRC unset, are cut into
frames exactly where what is in front of the last segment without memory leaves no remainder. -/
theorem aal5_frames_iff (uu : Sendable tad_int_expr_calculate (dus 0)) (cpi : Sendable tad_int_expr_calculate (dus 1))
    (len_unset : dus 2 = .UNDEF) (crc_unset : dus 3 = .UNDEF) (stale : Fin 8 → UInt8) (sdus : List SduPkt)
    (small : ∀ sdu ∈ sdus, sdu.data.length ≤ 65535) (pdus : List Cell) :
    ∃ pkts cells, tad_aal5_gen_bin_cb tad_int_expr_calculate dus stale sdus pdus = .ok (pkts,pdus ++ cells.flatten) ∧
      List.Forall₂ (fun sdu cells => Delimited cells ∧ (Framed sdu.data cells ↔ Restarts sdu.segs)) sdus cells := by
  obtain ⟨t,generated,long⟩ := trailer_generated uu cpi len_unset crc_unset stale
  obtain ⟨pkts,cells,made,frames⟩ := prepareAll_spec long sdus small pdus
  refine ⟨pkts,cells,?_,frames⟩
  rw [tad_aal5_gen_bin_cb,generated,len_unset,crc_unset]
  simp only [finish,bind,Except.bind]
  rw [check_true (by decide),padding_added]
  simp only [orEnd_some]
  rw [trailer_added]
  simp only [orEnd_some]
  exact made
/-- Three bytes in segments, one of them empty. -/
theorem aal5_frames_iff_three : ∃ pkts cells,
    tad_aal5_gen_bin_cb (fun _ : Option Unit => .error 0) (fun _ => .UNDEF) (fun _ => 7) [⟨[.here [1,2] [],.here [] [5],.here [3] []]⟩] [] =
        .ok (pkts,[] ++ cells.flatten) ∧
      List.Forall₂ (fun (sdu : SduPkt) cells => Delimited cells ∧ (Framed sdu.data cells ↔ Restarts sdu.segs))
        [⟨[.here [1,2] [],.here [] [5],.here [3] []]⟩] cells :=
  aal5_frames_iff (.inl rfl) (.inl rfl) rfl rfl _ _ (by decide) []
/-- The segment of a payload of no bytes has no memory: the CRC starts again from zero. -/
theorem no_bytes_restart :
    tad_aal5_gen_bin_cb (fun _ : Option Unit => .error 0) (fun _ => .UNDEF) (fun _ => 0) [⟨[.NULL]⟩] [] =
      .ok ([⟨[.NULL,.here (replicate 40 0) (replicate 7 0),.here [0,0,0,0,255,255,255,255] []]⟩],
        [⟨⟨[⟨replicate 40 0⟩,⟨[0,0,0,0,255,255,255,255]⟩]⟩,some true⟩]) ∧
    ¬ Framed [] [⟨⟨[⟨replicate 40 0⟩,⟨[0,0,0,0,255,255,255,255]⟩]⟩,some true⟩] := by
  refine ⟨by decide +kernel,fun framed => ?_⟩
  have restarts := (@framed_iff ⟨[.NULL]⟩ (replicate 8 0) [] ⟨[⟨replicate 40 0⟩,⟨[0,0,0,0,255,255,255,255]⟩]⟩ (by decide) rfl
    (by decide +kernel)).mp framed
  exact absurd (segsCrc_iff.mpr restarts) (by decide)
end
end TestEnvironment.Tad.Aal5
