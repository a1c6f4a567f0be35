import TestEnvironment.Tad.Packet
import TestEnvironment.Lib.Bits

/-!
Binary packet fragments (`tad_bps.c`), with the functions on packets and data units that they
rest on. Arrays with an entry for each field are functions of the index. Where an assertion
fails, memory outside a buffer is accessed or a shift is not defined, there is no result.
-/
namespace TestEnvironment.Tad
open Lib

section

/-- `~0u << n`. -/
def onesAbove (n : Nat) : Nat := ((UINT_MOD-1) <<< n)%UINT_MOD
/-- The recursion of `write_bits`. -/
def writeBitsFrom : Nat → List UInt8 → Nat → Nat → Nat → Option (List UInt8)
  | 0, _, _, _, _ => none
  | fuel+1, ptr, off, value, bits =>
    let off_byte := off >>> 3
    let off_bit := off &&& 7
    let space_bits := 8-off_bit
    let mask := onesAbove space_bits%2^8
    let mask := if bits < space_bits then mask ||| (((UINT_MOD-1) ^^^ onesAbove (space_bits-bits))%2^8) else mask
    -- the count of the shift is an `int`
    let shift : Int := 32-off_bit-bits
    if shift < 0 ∨ 32 ≤ shift then none
    else
      let tmp := (value <<< shift.toNat)%UINT_MOD
      let write := (tmp >>> 24) &&& ((2^8-1) ^^^ mask)
      match ptr[off_byte]? with
      | none => none
      | some byte =>
        let read := byte.toNat &&& mask
        let ptr := ptr.set off_byte (UInt8.ofNat (read ||| write))
        if space_bits < bits then writeBitsFrom fuel ptr (off+space_bits) value (bits-space_bits) else some ptr
def write_bits (ptr : List UInt8) (off value bits : Nat) : Option (List UInt8) := writeBitsFrom (bits+1) ptr off value bits
/-- `memcpy` into the memory from a place on. -/
def copyTo (bin : List UInt8) (place : Nat) (bytes : List UInt8) : Option (List UInt8) :=
  if place+bytes.length ≤ bin.length then some (overwrite bin place bytes) else none
end

section
variable (Expr : Type)

inductive TadDuType | UNDEF | I32 | I64 | STRING | OCTS | EXPR
  deriving DecidableEq, Repr
/-- `tad_du_data_t`; the string is nothing for `NULL`. -/
structure TadDuData where
  len : Nat
  oct_str : Option (List UInt8)
  deriving DecidableEq, Repr
/-- `tad_data_unit_t`; integers are their bits. -/
inductive TadDataUnit
  | UNDEF
  | I32 (val_i32 : UInt32)
  | I64 (val_i64 : UInt64)
  | STRING (val_data : TadDuData)
  | OCTS (val_data : TadDuData)
  | EXPR (val_int_expr : Option Expr)
variable {Expr}
def TadDataUnit.du_type : TadDataUnit Expr → TadDuType
  | .UNDEF => .UNDEF
  | .I32 _ => .I32
  | .I64 _ => .I64
  | .STRING _ => .STRING
  | .OCTS _ => .OCTS
  | .EXPR _ => .EXPR

/-- The codes that the functions return, and the end of the program. -/
inductive BpsStop
  | TE_EOPNOTSUPP
  | TE_ETADMISSNDS
  | TE_ETADLESSDATA
  | TE_ETADNOTMATCH
  | expr (rc : Nat)
  | crash
  deriving DecidableEq, Repr
def orCrash {α : Type} (result : Option α) : Except BpsStop α :=
  match result with
  | some a => .ok a
  | none => .error .crash
end

section
variable {Expr : Type} (tad_int_expr_calculate : Option Expr → Except Nat Int)

def tad_data_unit_to_bin (du_tmpl : TadDataUnit Expr) (bin : List UInt8) (data_place d_len : Nat) : Except BpsStop (List UInt8) :=
  if d_len = 0 then .ok bin
  else match du_tmpl with
  | .EXPR e => match tad_int_expr_calculate e with
    | .error rc => .error (.expr rc)
    | .ok iterated => orCrash (if 8 < d_len then none else copyTo bin data_place (beBytes d_len (iterated%2^64).toNat))
  | .OCTS d => match d.oct_str with
    | none => .error .TE_ETADLESSDATA
    | some oct_str => orCrash (if oct_str.length < d_len then none else copyTo bin data_place (oct_str.take d_len))
  | .I32 v => orCrash (if 4 < d_len then none else copyTo bin data_place (beBytes d_len v.toNat))
  | _ => .error .TE_ETADLESSDATA

/-- What is used of `tad_bps_pkt_frag`. -/
structure TadBpsPktFrag where
  len : Nat
  tag_rx_def : Nat
  plain_du : TadDuType
  force_read : Bool
  deriving DecidableEq, Repr
def ASN_TAG_USER : Nat := 2^16-2
/-- `tad_bps_pkt_frag_def`. -/
structure TadBpsPktFragDef (Expr : Type) where
  descr : List TadBpsPktFrag
  tx_def : Nat → TadDataUnit Expr
  rx_def : Nat → TadDataUnit Expr

/-- The length of a field in bits. -/
def fieldLen (descr : TadBpsPktFrag) (du : TadDataUnit Expr) : Except BpsStop Nat :=
  if 0 < descr.len then .ok descr.len
  else match du with
  | .OCTS d => .ok (d.len <<< 3)
  | _ => .error .crash
def genField (du : TadDataUnit Expr) (bin : List UInt8) (bitoff len : Nat) : Except BpsStop (List UInt8) :=
  if bitoff &&& 7 = 0 ∧ len &&& 7 = 0 then tad_data_unit_to_bin tad_int_expr_calculate du bin (bitoff >>> 3) (len >>> 3)
  else match du with
  | .I32 v => orCrash (write_bits bin bitoff v.toNat len)
  | .EXPR e => match tad_int_expr_calculate e with
    | .error rc => .error (.expr rc)
    | .ok iterated => orCrash (write_bits bin bitoff (iterated%UINT_MOD).toNat len)
  | _ => .error .TE_EOPNOTSUPP
/-- The data unit to send for a field. -/
def txUnit (pkt tx_def : Nat → TadDataUnit Expr) (i : Nat) : TadDataUnit Expr := if (pkt i).du_type ≠ .UNDEF then pkt i else tx_def i
def genLoop (pkt tx_def : Nat → TadDataUnit Expr) : List TadBpsPktFrag → Nat → List UInt8 → Nat → Except BpsStop (List UInt8 × Nat)
  | [], _, bin, bitoff => .ok (bin,bitoff)
  | descr :: rest, i, bin, bitoff => do
    let du := txUnit pkt tx_def i
    if du.du_type = .UNDEF then .error .TE_ETADMISSNDS
    else
      let len ← fieldLen descr du
      let bin ← genField tad_int_expr_calculate du bin bitoff len
      genLoop pkt tx_def rest (i+1) bin ((bitoff+len)%UINT_MOD)
def tad_bps_pkt_frag_gen_bin (fragment : TadBpsPktFragDef Expr) (pkt : Nat → TadDataUnit Expr) (bin : List UInt8) (bitoff max_bitlen : Nat) :
    Except BpsStop (List UInt8 × Nat) :=
  if bitoff &&& 7 ≠ 0 ∨ max_bitlen &&& 7 ≠ 0 then .error .TE_EOPNOTSUPP
  else genLoop tad_int_expr_calculate pkt fragment.tx_def fragment.descr 0 bin bitoff
end

section

/-- The rest of `tad_pkt_read`, from the next segment on. -/
def readNext : List TadPktSeg → Nat → Option (List UInt8)
  | [], _ => none
  | seg :: segs, len =>
    let r := min len seg.data_len
    if len-r = 0 then some (seg.data.take r) else (readNext segs (len-r)).map (seg.data.take r ++ ·)
/-- `tad_pkt_read` from a segment with those behind it. -/
def tad_pkt_read (seg : TadPktSeg) (segs : List TadPktSeg) (off len : Nat) : Option (List UInt8) :=
  if seg.data_len ≤ off then none
  else
    let r := min len (seg.data_len-off)
    if len-r = 0 then some ((seg.data.drop off).take r) else (readNext segs (len-r)).map ((seg.data.drop off).take r ++ ·)
/-- The first segment with data to read, those behind it, and the offset in it. -/
def seekSeg : List TadPktSeg → Nat → Option (TadPktSeg × List TadPktSeg × Nat)
  | [], _ => none
  | seg :: segs, off => if seg.data_len ≤ off then seekSeg segs (off-seg.data_len) else some (seg,segs,off)
/-- Moves on from the end of a segment. The length of the next one is taken from the offset, not its own. -/
def skipSegs (seg : TadPktSeg) : List TadPktSeg → Nat → Option (TadPktSeg × List TadPktSeg × Nat)
  | [], off => if seg.data_len ≤ off then none else some (seg,[],off)
  | next :: segs, off =>
    if seg.data_len ≤ off then skipSegs next segs ((off+(SIZE_MOD-next.data_len))%SIZE_MOD) else some (seg,next :: segs,off)

variable (stale : List UInt8)

/-- `tad_pkt_read_bits`: the bytes that are stored. The variable that the last branch reads into has stale bytes. -/
def tad_pkt_read_bits (pkt : TadPkt) (bitoff bitlen : Nat) : Option (List UInt8) :=
  if (tad_pkt_len pkt <<< 3)%SIZE_MOD < bitoff+bitlen then none
  else
    match seekSeg pkt.segs (bitoff >>> 3) with
    | none => none
    | some (seg,segs,off) =>
      let bitoff := bitoff &&& 7
      let data_start := ((seg.data[off]?).getD 0).toNat
      let bitoff_end := bitoff+bitlen
      if bitoff = 0 ∧ bitlen &&& 7 = 0 then tad_pkt_read seg segs off (bitlen >>> 3)
      else if bitoff_end &&& 7 = 0 then
        let first := UInt8.ofNat (data_start &&& ((2^8-1) >>> bitoff))
        if 0 < bitlen >>> 3 then
          match skipSegs seg segs (off+1) with
          | none => none
          | some (seg,segs,off) => (tad_pkt_read seg segs off (bitlen >>> 3)).map (first :: ·)
        else some [first]
      else if bitoff_end < 8 then some [UInt8.ofNat ((data_start >>> (8-bitoff_end)) &&& ((2^8-1) >>> (8-bitlen)))]
      else if bitoff_end < 32 then
        let rbytes := (bitoff_end >>> 3)+1
        let wbytes := (bitlen+7) >>> 3
        (tad_pkt_read seg segs off rbytes).map fun read =>
          let tmp := beNum (overwrite stale 0 read)
          beBytes wbytes ((tmp >>> (32-bitoff_end)) &&& ((UINT_MOD-1) >>> (32-bitlen)))
      else none

variable {Expr : Type}

def tad_bin_to_data_unit (pkt : TadPkt) (bitoff bitlen : Nat) : TadDataUnit Expr → Option (TadDataUnit Expr)
  | .I32 _ =>
    if 32 < bitlen then none
    else do
      let read ← tad_pkt_read_bits stale pkt bitoff bitlen
      let value ← copyTo (replicate 4 0) ((32-bitlen) >>> 3) read
      some (.I32 (UInt32.ofNat (beNum value)))
  | .I64 v =>
    if 64 < bitlen ∨ v ≠ 0 then none
    else do
      let read ← tad_pkt_read_bits stale pkt bitoff bitlen
      let value ← copyTo (replicate 8 0) ((64-bitlen) >>> 3) read
      some (.I64 (UInt64.ofNat (beNum value)))
  | .OCTS d =>
    if bitlen ≠ d.len <<< 3 then none
    else do
      let read ← tad_pkt_read_bits stale pkt bitoff bitlen
      let oct_str ← d.oct_str
      let oct_str ← copyTo oct_str 0 read
      some (.OCTS ⟨d.len,some oct_str⟩)
  | _ => none
end

section
variable {Expr : Type} (stale : List UInt8)

/-- `memcmp(a, b, len) == 0`. -/
def sameOctets (a b : Option (List UInt8)) (len : Nat) : Bool := (a.getD []).take len = (b.getD []).take len
def tad_data_unit_match (ptrn value : TadDataUnit Expr) : Except BpsStop Unit :=
  match ptrn,value with
  | .I32 p,.I32 v => if p = v then .ok () else .error .TE_ETADNOTMATCH
  | .I64 p,.I64 v => if p = v then .ok () else .error .TE_ETADNOTMATCH
  | .OCTS p,.OCTS v => if p.len = v.len ∧ sameOctets p.oct_str v.oct_str p.len then .ok () else .error .TE_ETADNOTMATCH
  | _,_ => .error .TE_EOPNOTSUPP
/-- The data unit that `tad_bps_pkt_frag_match_pre` prepares for a field. -/
def preparedUnit (descr : TadBpsPktFrag) : Option (TadDataUnit Expr) :=
  match descr.plain_du with
  | .UNDEF => some .UNDEF
  | .I32 => some (.I32 0)
  | .I64 => some (.I64 0)
  | .STRING => some (.STRING ⟨0,none⟩)
  | .EXPR => some (.EXPR none)
  | .OCTS =>
    if 0 < descr.len then if descr.len &&& 7 = 0 then some (.OCTS ⟨descr.len >>> 3,some (replicate descr.len 0)⟩) else none
    else some (.OCTS ⟨0,none⟩)
def tad_bps_pkt_frag_match_pre (fragment : TadBpsPktFragDef Expr) : Option (List (TadDataUnit Expr)) := fragment.descr.mapM preparedUnit
/-- The loop of `tad_bps_pkt_frag_match_do`, over the fields with their prepared data units: these after reading, and the offset. -/
def matchLoop (ptrn rx_def : Nat → TadDataUnit Expr) (pkt : TadPkt) : List (TadBpsPktFrag × TadDataUnit Expr) → Nat → Nat →
    Except BpsStop (List (TadDataUnit Expr) × Nat)
  | [], _, bitoff => .ok ([],bitoff)
  | (descr,unit) :: rest, i, bitoff => do
    let du := if (ptrn i).du_type ≠ .UNDEF then ptrn i else rx_def i
    let len ← fieldLen descr unit
    if descr.force_read = false ∧ (unit.du_type = .UNDEF ∨ du.du_type = .UNDEF ∧ descr.tag_rx_def ≠ ASN_TAG_USER) then
      let (units,bitoff) ← matchLoop ptrn rx_def pkt rest (i+1) ((bitoff+len)%UINT_MOD)
      .ok (unit :: units,bitoff)
    else
      let unit ← orCrash (tad_bin_to_data_unit stale pkt bitoff len unit)
      if du.du_type ≠ .UNDEF then tad_data_unit_match du unit
      let (units,bitoff) ← matchLoop ptrn rx_def pkt rest (i+1) ((bitoff+len)%UINT_MOD)
      .ok (unit :: units,bitoff)
def tad_bps_pkt_frag_match_do (fragment : TadBpsPktFragDef Expr) (ptrn : Nat → TadDataUnit Expr) (pkt_data : List (TadDataUnit Expr)) (pkt : TadPkt)
    (bitoff : Nat) : Except BpsStop (List (TadDataUnit Expr) × Nat) :=
  matchLoop stale ptrn fragment.rx_def pkt (fragment.descr.zip pkt_data) 0 bitoff
end

end TestEnvironment.Tad
