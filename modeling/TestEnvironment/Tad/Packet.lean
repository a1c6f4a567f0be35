import Mathlib

/-!
Packets of traffic application domains (`tad_pkt.h`, `tad_pkt.c`): lists of segments
of bytes. The order of the list is the one of the circular queue; who frees a
segment is left out.
-/
namespace TestEnvironment.Tad

def SIZE_MOD : Nat := 2^64
def UINT_MOD : Nat := 2^32

/-- `tad_pkt_seg`. -/
structure TadPktSeg where
  data : List UInt8
  deriving DecidableEq, Repr
def TadPktSeg.data_len (seg : TadPktSeg) : Nat := seg.data.length
/-- `tad_pkt`. -/
structure TadPkt where
  segs : List TadPktSeg
  deriving DecidableEq, Repr

namespace TadPkt
/-- All bytes of the packet. -/
def data (pkt : TadPkt) : List UInt8 := pkt.segs.flatMap TadPktSeg.data
end TadPkt

section
variable (pkt : TadPkt)

def tad_pkt_seg_num : Nat := pkt.segs.length
def tad_pkt_len : Nat := pkt.data.length%SIZE_MOD
def tad_pkt_first_seg : Option TadPktSeg := pkt.segs.head?
end

/-- The loop of `tad_pkt_enumerate_seg` for callbacks that always succeed. -/
def enumerateSegs {σ : Type} (func : TadPktSeg → Nat → σ → σ) : List TadPktSeg → Nat → σ → σ
  | [], _, opaque' => opaque'
  | seg :: segs, seg_num, opaque' => enumerateSegs func segs (seg_num+1) (func seg seg_num opaque')
def tad_pkt_enumerate_seg {σ : Type} (pkt : TadPkt) (func : TadPktSeg → Nat → σ → σ) (opaque' : σ) : σ :=
  enumerateSegs func pkt.segs 0 opaque'

end TestEnvironment.Tad
