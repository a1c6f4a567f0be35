import TestEnvironment.Lib.Remainders
import TestEnvironment.Tad.Fragments
import TestEnvironment.Tad.Bps

/-!
The AAL5 layer (`tad_aal5_layer.c`): SDUs become CPCS-PDUs with padding and a trailer, and these are cut
into the payloads of ATM cells. A segment has its data with the memory behind it; who frees it is left out.
Where an assertion fails or memory outside a segment is accessed, the program ends.
-/
namespace TestEnvironment.Tad.Aal5
open Lib

section

/-- `G(x) - x^32`. -/
def g_defect : BitVec 32 := 0x04c11db7
def product_in_ring_to_power (a : BitVec 32) : Nat → BitVec 32
  | 0 => a
  | k+1 =>
    let r := a <<< 1
    product_in_ring_to_power (if a &&& 0x80000000 ≠ 0 then r ^^^ g_defect else r) k
/-- Nothing stands for the pointer `NULL`. -/
def calculate_crc32 (previous_value : BitVec 32) (next_pkt : Option (List UInt8)) (next_len : Nat) : BitVec 32 :=
  match next_pkt with
  | none => 0
  | some bytes => (bytes.take next_len).foldl (fun result byte =>
      product_in_ring_to_power result 8 ^^^ product_in_ring_to_power (byte.toBitVec.setWidth 32) 32) previous_value
def CRC32_INIT : BitVec 32 := 0xffffffff
end

section

/-- `data_ptr` and `data_len` of a segment: no memory, or memory that starts with the data. -/
inductive SegData
  | NULL
  | here (data behind : List UInt8)
  deriving DecidableEq, Repr
def SegData.data : SegData → List UInt8
  | .NULL => []
  | .here data _ => data
def SegData.data_len (seg : SegData) : Nat := seg.data.length
def SegData.data_ptr : SegData → Option (List UInt8)
  | .NULL => none
  | .here data behind => some (data ++ behind)
/-- `tad_pkt_set_seg_data_len`. -/
def SegData.set_data_len (new_len : Nat) : SegData → Option SegData
  | .NULL => if new_len = 0 then some .NULL else none
  | .here data behind => if new_len ≤ (data ++ behind).length then some (.here ((data ++ behind).take new_len) ((data ++ behind).drop new_len)) else none
/-- `memcpy` into the data of a segment. -/
def SegData.copy (off : Nat) (bytes : List UInt8) : SegData → Option SegData
  | .NULL => none
  | .here data behind => (copyTo data off bytes).map fun data => .here data behind
/-- A packet with the memory of its segments. -/
structure SduPkt where
  segs : List SegData
  deriving DecidableEq, Repr
def SduPkt.data (sdu : SduPkt) : List UInt8 := sdu.segs.flatMap SegData.data
/-- The packet by its bytes. -/
def SduPkt.pkt (sdu : SduPkt) : TadPkt := ⟨sdu.segs.map fun seg => ⟨seg.data⟩⟩
def newSeg (data_ptr : Option (List UInt8)) (data_len : Nat) : Option SegData :=
  match data_ptr with
  | some memory => SegData.set_data_len data_len (.here [] memory)
  | none => if 0 < data_len then some (.here (replicate data_len 0) []) else some .NULL
def tad_pkts_add_new_seg (pkts : List SduPkt) (header : Bool) (data_ptr : Option (List UInt8)) (data_len : Nat) : Option (List SduPkt) :=
  (newSeg data_ptr data_len).map fun seg => pkts.map fun pkt => if header then ⟨seg :: pkt.segs⟩ else ⟨pkt.segs ++ [seg]⟩
/-- `tad_pkt_enumerate_seg` from a segment on, for callbacks that succeed or end the program. -/
def enumerateFrom {σ : Type} (func : SegData → Nat → σ → Option σ) : List SegData → Nat → σ → Option σ
  | [], _, opaque' => some opaque'
  | seg :: segs, seg_num, opaque' => (func seg seg_num opaque').bind (enumerateFrom func segs (seg_num+1))
end

section
def ATM_PAYLOAD_LEN : Nat := 48
def AAL5_TRAILER_LEN : Nat := 8
def tad_all5_pad : List UInt8 := replicate (ATM_PAYLOAD_LEN-1) 0
def ASN_TAG_INVALID : Nat := 2^16-1
def tad_all5_bps_cpcs_trailer : List TadBpsPktFrag :=
  [⟨8,ASN_TAG_INVALID,.I32,false⟩,⟨8,ASN_TAG_INVALID,.I32,false⟩,⟨16,ASN_TAG_USER,.I32,true⟩,⟨32,ASN_TAG_USER,.I32,true⟩]
/-- The definition that `tad_aal5_init_cb` makes of the trailer: the constant 0 is sent for each field without a value. -/
def trailerDef (Expr : Type) : TadBpsPktFragDef Expr := ⟨tad_all5_bps_cpcs_trailer,fun _ => .I32 0,fun _ => .UNDEF⟩
/-- A PDU with its `tad_atm_cell_ctrl_data`, if it has any. -/
structure Cell where
  pkt : TadPkt
  indication : Option Bool
  deriving DecidableEq, Repr
inductive Aal5Stop
  | bps (stop : BpsStop)
  | TE_EINVAL
  deriving DecidableEq, Repr
def finish {α : Type} : Except BpsStop α → Except Aal5Stop α
  | .ok a => .ok a
  | .error stop => .error (.bps stop)
def orEnd {α : Type} (result : Option α) : Except Aal5Stop α := finish (orCrash result)
def check (holds : Bool) : Except Aal5Stop Unit := if holds then .ok () else .error (.bps .crash)

def tad_all5_crc32 (n_segs : Nat) (seg : SegData) (seg_num : Nat) (crc32 : BitVec 32) : Option (BitVec 32) :=
  if seg_num < n_segs-1 then some (calculate_crc32 crc32 seg.data_ptr seg.data_len)
  else if seg.data_len = AAL5_TRAILER_LEN then some (calculate_crc32 crc32 seg.data_ptr (seg.data_len-4))
  else none
/-- `tad_aal5_prepare_pdus_data`. -/
structure TadAal5PreparePdusData where
  trailer : List UInt8
  write_crc : Bool
  write_len : Bool
/-- The length of the payload in the trailer, if it is to be written. -/
def writeLen (data : TadAal5PreparePdusData) (pld_len : Nat) (trailer : SegData) : Option SegData :=
  if data.write_len then trailer.copy 2 (beBytes 2 (pld_len%2^16)) else some trailer
/-- The complement of the CRC in the trailer, which is the last of the segments, if it is to be written. -/
def writeCrc (data : TadAal5PreparePdusData) (segs : List SegData) (trailer : SegData) : Option SegData :=
  if data.write_crc then
    (enumerateFrom (tad_all5_crc32 segs.length) segs 0 CRC32_INIT).bind fun crc => trailer.copy 4 (beBytes 4 (~~~crc).toNat)
  else some trailer
/-- Fragments behind the PDUs, with the indication in the last one. -/
def indicated (pdus : List Cell) (frags : List TadPkt) : Option (List Cell) :=
  match (pdus ++ frags.map fun frag => Cell.mk frag none).reverse with
  | [] => none
  | last :: front => some (front.reverse ++ [{last with indication := some true}])
/-- The packet with its PDUs behind those that are there. -/
def tad_aal5_prepare_pdus (data : TadAal5PreparePdusData) (pkt : SduPkt) (pdus : List Cell) : Except Aal5Stop (SduPkt × List Cell) :=
  match pkt.segs.reverse with
  | trailer :: padding :: front => do
    let len := tad_pkt_len pkt.pkt
    check (AAL5_TRAILER_LEN ≤ len)
    let pld_len := len-AAL5_TRAILER_LEN
    check (padding.data_len = 0)
    let pad_len := len%ATM_PAYLOAD_LEN
    let pad_len := if 0 < pad_len then ATM_PAYLOAD_LEN-pad_len else pad_len
    let padding ← orEnd (padding.set_data_len pad_len)
    check (tad_pkt_len (SduPkt.pkt ⟨front.reverse ++ [padding,trailer]⟩)%ATM_PAYLOAD_LEN = 0)
    check (trailer.data_len = AAL5_TRAILER_LEN)
    let trailer ← orEnd (trailer.copy 0 data.trailer)
    let trailer ← orEnd (writeLen data pld_len trailer)
    let trailer ← orEnd (writeCrc data (front.reverse ++ [padding,trailer]) trailer)
    let pkt : SduPkt := ⟨front.reverse ++ [padding,trailer]⟩
    match ← orEnd (tad_pkt_fragment pkt.pkt ATM_PAYLOAD_LEN none false []) with
    | (.EINVAL,_) => .error .TE_EINVAL
    | (.ok,frags) => do
      let pdus ← orEnd (indicated pdus frags)
      .ok (pkt,pdus)
  | _ => .error (.bps .crash)
/-- `tad_pkt_enumerate` with `tad_aal5_prepare_pdus`. -/
def prepareAll (data : TadAal5PreparePdusData) : List SduPkt → List Cell → Except Aal5Stop (List SduPkt × List Cell)
  | [], pdus => .ok ([],pdus)
  | sdu :: sdus, pdus => do
    let (sdu,pdus) ← tad_aal5_prepare_pdus data sdu pdus
    let (sdus,pdus) ← prepareAll data sdus pdus
    .ok (sdu :: sdus,pdus)

variable {Expr : Type} (tad_int_expr_calculate : Option Expr → Except Nat Int)

/-- The SDUs as they are left and the PDUs; the trailer's array has stale bytes. -/
def tad_aal5_gen_bin_cb (dus : Nat → TadDataUnit Expr) (stale : Fin 8 → UInt8) (sdus : List SduPkt) (pdus : List Cell) :
    Except Aal5Stop (List SduPkt × List Cell) := do
  let (trailer,bitoff) ← finish (tad_bps_pkt_frag_gen_bin tad_int_expr_calculate (trailerDef Expr) dus (List.ofFn stale) 0 (AAL5_TRAILER_LEN <<< 3))
  check (bitoff = AAL5_TRAILER_LEN <<< 3)
  let sdus ← orEnd (tad_pkts_add_new_seg sdus false (some tad_all5_pad) 0)
  let sdus ← orEnd (tad_pkts_add_new_seg sdus false none AAL5_TRAILER_LEN)
  prepareAll ⟨trailer,(dus 3).du_type = .UNDEF,(dus 2).du_type = .UNDEF⟩ sdus pdus
end
end TestEnvironment.Tad.Aal5
