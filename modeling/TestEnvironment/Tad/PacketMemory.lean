import TestEnvironment.Tad.Circleq
import TestEnvironment.Tad.Fragments
import TestEnvironment.Tad.Slices

/-!
Packets in memory (`tad_pkt.h`, `tad_pkt.c`): the control blocks of segments, packets and
lists of packets at their addresses, with their cached numbers. Memory is never used
again, so whatever frees it is left out, and so are the opaque data of packets. A function
has no result where an assertion fails, and where it takes the head of a queue for an
element.
-/
namespace TestEnvironment.Tad.InMemory
open Lib Function

def TE_PROTO_INVALID : Nat := 0
def NULL : Nat := 0
/-- `tad_pkt_seg` without its links. -/
structure SegControl where
  data_ptr : Nat
  data_len : BitVec 64
  layer_tag_set : Bool
  layer_tag : Nat
  deriving DecidableEq, Repr
/-- `tad_pkt` without its links and the head of its segments. -/
structure PktControl where
  n_segs : BitVec 32
  segs_len : BitVec 64
  deriving DecidableEq, Repr
/-- All control blocks; the numbers of lists are at the addresses of their heads. Behind `nextSeg`, `nextPkt`, `nextPkts`
    and `top` nothing is in use. -/
structure Memory where
  segLinks : Circleq
  pktLinks : Circleq
  seg : Nat → SegControl
  pkt : Nat → PktControl
  n_pkts : Nat → BitVec 32
  nextSeg : Nat
  nextPkt : Nat
  nextPkts : Nat
  top : Nat

section
variable (mem : Memory) (pkt seg : Nat)

def tad_pkt_init_seg_data (ptr : Nat) (len : BitVec 64) : Memory :=
  {mem with seg := update mem.seg seg ⟨ptr,len,false,TE_PROTO_INVALID⟩}
def tad_pkt_put_seg_data (ptr : Nat) (len : BitVec 64) : Option Memory :=
  if (mem.pkt pkt).n_segs = 0 ∨ (mem.pkt pkt).segs_len < (mem.seg seg).data_len then none
  else
    let segs_len := (mem.pkt pkt).segs_len-(mem.seg seg).data_len
    let mem := tad_pkt_init_seg_data mem seg ptr len
    some {mem with pkt := update mem.pkt pkt {mem.pkt pkt with segs_len := segs_len+len}}
def tad_pkt_set_seg_data_len (new_len : BitVec 64) : Memory :=
  let segs_len := (mem.pkt pkt).segs_len-(mem.seg seg).data_len
  let mem := {mem with seg := update mem.seg seg {mem.seg seg with data_len := new_len}}
  {mem with pkt := update mem.pkt pkt {mem.pkt pkt with segs_len := segs_len+(mem.seg seg).data_len}}
/-- What `tad_pkt_append_seg` and its siblings do behind the change of the links. -/
def countSeg (links : Circleq) : Memory :=
  {mem with segLinks := links,pkt := update mem.pkt pkt ⟨(mem.pkt pkt).n_segs+1,(mem.pkt pkt).segs_len+(mem.seg seg).data_len⟩}
def tad_pkt_append_seg : Option Memory := (CIRCLEQ_INSERT_TAIL mem.segLinks pkt seg).map (countSeg mem pkt seg)
def tad_pkt_prepend_seg : Option Memory := (CIRCLEQ_INSERT_HEAD mem.segLinks pkt seg).map (countSeg mem pkt seg)
def tad_pkt_insert_after_seg (new_seg : Nat) : Option Memory :=
  (CIRCLEQ_INSERT_AFTER mem.segLinks pkt seg new_seg).map (countSeg mem pkt new_seg)
/-- The new segment, and the memory with it. -/
def tad_pkt_alloc_seg (data_ptr : Nat) (data_len : BitVec 64) : Nat × Memory :=
  let seg := mem.nextSeg
  let mem := {mem with nextSeg := mem.nextSeg+1}
  if data_ptr ≠ NULL then (seg,tad_pkt_init_seg_data mem seg data_ptr data_len)
  else if 0 < data_len then
    let ptr := mem.top
    let mem := {mem with top := mem.top+data_len.toNat}
    (seg,tad_pkt_init_seg_data mem seg ptr data_len)
  else (seg,tad_pkt_init_seg_data mem seg NULL 0)
def tad_pkt_cleanup_seg_data : Memory := tad_pkt_init_seg_data mem seg NULL 0
def tad_pkt_init_segs : Memory :=
  {mem with segLinks := CIRCLEQ_INIT mem.segLinks pkt,pkt := update mem.pkt pkt ⟨0,0⟩}
end

section
variable {σ : Type} (step : Memory → Nat → Place) (end' : Place) (func : Memory → Nat → σ → Option (Memory × σ))

/-- A loop over a queue whose body gets each element and may change the memory; the link to the next one is read behind it. -/
def forEach : Nat → Memory → Place → σ → Option (Memory × σ)
  | 0, _, _, _ => none
  | fuel+1, mem, p, opaque' =>
    if p = end' then some (mem,opaque')
    else do
      let elm ← p.elem?
      let (mem,opaque') ← func mem elm opaque'
      forEach fuel mem (step mem elm) opaque'
/-- A loop that removes the last element of a queue until there is none. -/
def drainLoop (head : Nat) (body : Memory → Circleq → Nat → Option Memory) (links : Memory → Circleq) : Nat → Memory → Option Memory
  | 0, _ => none
  | fuel+1, mem =>
    if CIRCLEQ_LAST (links mem) head = CIRCLEQ_END head then some mem
    else do
      let p ← (CIRCLEQ_LAST (links mem) head).elem?
      let q ← CIRCLEQ_REMOVE (links mem) head p
      let mem ← body mem q p
      drainLoop head body links fuel mem
end

section
variable (mem : Memory) (pkt : Nat)

def segNext (mem : Memory) (seg : Nat) : Place := mem.segLinks.cqe_next seg
def segPrev (mem : Memory) (seg : Nat) : Place := mem.segLinks.cqe_prev seg
/-- `tad_pkt_enumerate_seg`, for callbacks that succeed. -/
def tad_pkt_enumerate_seg {σ : Type} (func : Memory → Nat → σ → Option (Memory × σ)) (fuel : Nat) (opaque' : σ) : Option (Memory × σ) :=
  forEach segNext (CIRCLEQ_END pkt) func fuel mem (CIRCLEQ_FIRST mem.segLinks pkt) opaque'
/-- Segments are removed in reverse direction, and their data are cleaned up. -/
def tad_pkt_cleanup_segs : Option Memory := do
  let (mem,_) ← forEach segPrev (CIRCLEQ_END pkt)
    (fun mem p _ => (CIRCLEQ_REMOVE mem.segLinks pkt p).map fun q => (tad_pkt_cleanup_seg_data {mem with segLinks := q} p,()))
    (mem.nextSeg+1) mem (CIRCLEQ_LAST mem.segLinks pkt) ()
  some {mem with pkt := update mem.pkt pkt {mem.pkt pkt with segs_len := 0}}
def tad_pkt_free_segs : Option Memory :=
  (drainLoop pkt (fun mem q _ => some {mem with segLinks := q}) Memory.segLinks (mem.nextSeg+1) mem).map fun mem => tad_pkt_init_segs mem pkt
def tad_pkt_init : Memory := tad_pkt_init_segs mem pkt
def tad_pkt_cleanup : Option Memory := tad_pkt_free_segs mem pkt
def tad_pkt_free : Option Memory := tad_pkt_free_segs mem pkt
def tad_pkt_realloc_segs (new_len : BitVec 64) : Option Memory := do
  let mem ← tad_pkt_free_segs mem pkt
  let (seg,mem) := tad_pkt_alloc_seg mem NULL new_len
  tad_pkt_append_seg mem pkt seg
/-- The segments of a new packet; the first one has data. -/
def allocSegs (first_seg_len : BitVec 64) : Nat → Memory → Option Memory
  | 0, mem => some mem
  | rest+1, mem => do
    let (seg,mem) := tad_pkt_alloc_seg mem NULL first_seg_len
    let mem ← tad_pkt_append_seg mem pkt seg
    allocSegs 0 rest mem
def tad_pkt_alloc (n_segs : BitVec 32) (first_seg_len : BitVec 64) : Option (Nat × Memory) := do
  let pkt := mem.nextPkt
  let mem := tad_pkt_init {mem with nextPkt := mem.nextPkt+1} pkt
  let mem ← allocSegs pkt first_seg_len n_segs.toNat mem
  some (pkt,mem)
end

section
variable (mem : Memory) (pkts : Nat)

def pktNext (mem : Memory) (pkt : Nat) : Place := mem.pktLinks.cqe_next pkt
def pktPrev (mem : Memory) (pkt : Nat) : Place := mem.pktLinks.cqe_prev pkt
def tad_pkts_init : Memory :=
  {mem with pktLinks := CIRCLEQ_INIT mem.pktLinks pkts,n_pkts := update mem.n_pkts pkts 0}
def tad_cleanup_pkts : Option Memory :=
  (forEach pktPrev (CIRCLEQ_END pkts) (fun mem p _ => (tad_pkt_cleanup mem p).map fun mem => (mem,()))
    (mem.nextPkt+1) mem (CIRCLEQ_LAST mem.pktLinks pkts) ()).map Prod.fst
def tad_free_pkts : Option Memory :=
  (drainLoop pkts (fun mem q p => tad_pkt_free {mem with pktLinks := q,n_pkts := update mem.n_pkts pkts (mem.n_pkts pkts-1)} p)
    Memory.pktLinks (mem.nextPkt+1) mem).map fun mem => tad_pkts_init mem pkts
def tad_pkts_add_one (pkt : Nat) : Option Memory :=
  (CIRCLEQ_INSERT_TAIL mem.pktLinks pkts pkt).map fun q => {mem with pktLinks := q,n_pkts := update mem.n_pkts pkts (mem.n_pkts pkts+1)}
def tad_pkts_del_one (pkt : Nat) : Option Memory :=
  (CIRCLEQ_REMOVE mem.pktLinks pkts pkt).map fun q => {mem with pktLinks := q,n_pkts := update mem.n_pkts pkts (mem.n_pkts pkts-1)}
/-- The changes of links by `tad_pkts_move`. -/
def moveLinks (q : Circleq) (dst src : Nat) : Option Circleq := do
  let q ← q.setNextAt (CIRCLEQ_LAST q src) (.head dst)
  let q ← q.setPrevAt (CIRCLEQ_FIRST q src) (CIRCLEQ_LAST q dst)
  let q ← q.setFirstOr (CIRCLEQ_EMPTY q dst) dst (CIRCLEQ_LAST q dst) (CIRCLEQ_FIRST q src)
  some (q.setLast dst (CIRCLEQ_LAST q src))
def tad_pkts_move (dst src : Nat) : Option Memory :=
  if CIRCLEQ_EMPTY mem.pktLinks src then some mem
  else (moveLinks mem.pktLinks dst src).map fun q =>
    tad_pkts_init {mem with pktLinks := q,n_pkts := update mem.n_pkts dst (mem.n_pkts dst+mem.n_pkts src)} src
def tad_pkts_add_new_seg (header : Bool) (data_ptr : Nat) (data_len : BitVec 64) : Option Memory :=
  (forEach pktNext (CIRCLEQ_END pkts)
    (fun mem pkt _ =>
      let (seg,mem) := tad_pkt_alloc_seg mem data_ptr data_len
      (if header then tad_pkt_prepend_seg mem pkt seg else tad_pkt_append_seg mem pkt seg).map fun mem => (mem,()))
    (mem.nextPkt+1) mem (CIRCLEQ_FIRST mem.pktLinks pkts) ()).map Prod.fst
/-- The packets of `tad_pkts_alloc`. -/
def allocPkts (n_segs : BitVec 32) (first_seg_len : BitVec 64) : Nat → Memory → Option Memory
  | 0, mem => some mem
  | rest+1, mem => do
    let (pkt,mem) ← tad_pkt_alloc mem n_segs first_seg_len
    let mem ← tad_pkts_add_one mem pkts pkt
    allocPkts n_segs first_seg_len rest mem
def tad_pkts_alloc (n_pkts n_segs : BitVec 32) (first_seg_len : BitVec 64) : Option Memory :=
  if n_pkts = 0 then none else allocPkts pkts n_segs first_seg_len n_pkts.toNat mem
end

section

/-- `tad_pkt_get_frag_cb_data`. -/
structure TadPktGetFragCbData where
  frag_off : BitVec 64
  frag_end : BitVec 64
  seg_off : BitVec 64
  dst : Nat
  preserve_layer_tags : Bool
  deriving DecidableEq, Repr

def tad_pkt_len (mem : Memory) (pkt : Nat) : BitVec 64 := (mem.pkt pkt).segs_len
def tad_pkt_seg_num (mem : Memory) (pkt : Nat) : BitVec 32 := (mem.pkt pkt).n_segs
/-- `MIN` and `MAX` of two sizes. -/
def minSize (a b : BitVec 64) : BitVec 64 := if a < b then a else b
def maxSize (a b : BitVec 64) : BitVec 64 := if b < a then a else b
/-- The tags of a source segment for its copy. -/
def copyTags (mem : Memory) (seg dst_seg : Nat) : Memory :=
  let copy := {mem.seg dst_seg with layer_tag_set := (mem.seg seg).layer_tag_set,layer_tag := (mem.seg seg).layer_tag}
  {mem with seg := update mem.seg dst_seg copy}
def tad_pkt_get_frag_cb (mem : Memory) (seg : Nat) (data : TadPktGetFragCbData) : Option (Memory × TadPktGetFragCbData) :=
  let data_len := (mem.seg seg).data_len
  let next_seg_off := data.seg_off+data_len
  if data.seg_off < data.frag_end ∧ data.frag_off < next_seg_off then
    let off := (data.frag_off-data.seg_off).toInt
    let len := minSize data.frag_end next_seg_off-maxSize data.frag_off data.seg_off
    let off := if off < 0 then 0 else off
    let len := if data_len < len then data_len else len
    let (dst_seg,mem) := tad_pkt_alloc_seg mem ((mem.seg seg).data_ptr+off.toNat) len
    (tad_pkt_append_seg mem data.dst dst_seg).map fun mem =>
      (if data.preserve_layer_tags then copyTags mem seg dst_seg else mem,{data with seg_off := next_seg_off})
  else some (mem,{data with seg_off := next_seg_off})
def tad_pkt_get_frag (mem : Memory) (dst src : Nat) (frag_off frag_len : BitVec 64) (mode : TadPktGetFragMode) :
    Option (GetFragStatus × Memory) :=
  let data : TadPktGetFragCbData := ⟨frag_off,frag_off+frag_len,0,dst,frag_off = 0 ∧ frag_len = tad_pkt_len mem src⟩
  let add_seg_len := ((frag_off+frag_len-tad_pkt_len mem src).setWidth 32).toInt
  if 0 < add_seg_len ∧ mode = .ERROR then some (.E2BIG,mem)
  else do
    let add_seg_len := if 0 < add_seg_len ∧ mode = .TRUNC then 0 else min add_seg_len frag_len.toNat
    -- a source that is its own destination grows by at most as many segments as its fragment has bytes
    let (mem,_) ← tad_pkt_enumerate_seg mem src tad_pkt_get_frag_cb (2*mem.nextSeg+(frag_off+frag_len).toNat+2) data
    if 0 < add_seg_len then
      let (seg,mem) := tad_pkt_alloc_seg mem NULL (.ofInt 64 add_seg_len)
      (tad_pkt_append_seg mem dst seg).map fun mem => (.ok,mem)
    else some (.ok,mem)
end

section

/-- `tad_pkt_fragment_cb_data`. -/
structure TadPktFragmentCbData where
  skip_first_seg : Bool
  frag_data_len : BitVec 64
  src_pkt : Nat
  src_seg : Option Nat
  src_data : Nat
  src_len : BitVec 64
  deriving DecidableEq, Repr

/-- The loop of `tad_pkt_next_not_empty_seg`: there is no `NULL` in a circular queue. -/
def nextNotEmptyLoop (mem : Memory) : Nat → Place → Option Nat
  | 0, _ => none
  | fuel+1, p => do
    let seg ← p.elem?
    if (mem.seg seg).data_len = 0 then nextNotEmptyLoop mem fuel (segNext mem seg) else some seg
def tad_pkt_next_not_empty_seg (mem : Memory) (pkt : Nat) (seg : Option Nat) : Option Nat :=
  nextNotEmptyLoop mem (mem.nextSeg+1) (match seg with
    | none => CIRCLEQ_FIRST mem.segLinks pkt
    | some seg => segNext mem seg)
/-- Moves on to the next segment of the source at the end of one. -/
def advance (mem : Memory) (data : TadPktFragmentCbData) : Option TadPktFragmentCbData :=
  if data.src_len = 0 then
    (tad_pkt_next_not_empty_seg mem data.src_pkt data.src_seg).map fun seg =>
      {data with src_seg := some seg,src_data := (mem.seg seg).data_ptr,src_len := (mem.seg seg).data_len}
  else some data
/-- The loop of `tad_pkt_fragment_cb`. -/
def fragmentLoop (pkt : Nat) : Nat → Memory → Nat → BitVec 64 → TadPktFragmentCbData → Option (Memory × TadPktFragmentCbData)
  | 0, _, _, _, _ => none
  | fuel+1, mem, dst_seg, dst_rest, data => do
    let data ← advance mem data
    let dst_seg_len := minSize data.src_len dst_rest
    let mem ← tad_pkt_put_seg_data mem pkt dst_seg data.src_data dst_seg_len
    let data := {data with src_data := data.src_data+dst_seg_len.toNat,src_len := data.src_len-dst_seg_len}
    let dst_rest := dst_rest-dst_seg_len
    if dst_rest = 0 then some (mem,data)
    else
      let (new_seg,mem) := tad_pkt_alloc_seg mem NULL 0
      let mem ← tad_pkt_insert_after_seg mem pkt dst_seg new_seg
      fragmentLoop pkt fuel mem new_seg dst_rest data
/-- The segment for the data of a fragment: the first one, or the one behind the additional header. -/
def firstDataSeg (mem : Memory) (pkt : Nat) (skip_first_seg : Bool) : Option Nat := do
  let dst_seg ← (CIRCLEQ_FIRST mem.segLinks pkt).elem?
  if skip_first_seg then (segNext mem dst_seg).elem? else some dst_seg
def tad_pkt_fragment_cb (mem : Memory) (pkt : Nat) (data : TadPktFragmentCbData) : Option (Memory × TadPktFragmentCbData) := do
  let dst_seg ← firstDataSeg mem pkt data.skip_first_seg
  if (mem.seg dst_seg).data_ptr = NULL ∧ (mem.seg dst_seg).data_len = 0 then
    fragmentLoop pkt (data.frag_data_len.toNat+1) mem dst_seg data.frag_data_len data
  else none
/-- `tad_pkt_fragment`; the length of the additional segment is nothing where the code has -1. -/
def tad_pkt_fragment (mem : Memory) (pkt : Nat) (frag_data_len : BitVec 64) (add_seg_len : Option (BitVec 64)) (header : Bool) (pkts : Nat) :
    Option (FragmentStatus × Memory) :=
  if frag_data_len = 0 then some (.EINVAL,mem)
  else if tad_pkt_len mem pkt = 0 then some (.ok,mem)
  else if tad_pkt_seg_num mem pkt = 0 then none
  else do
    let n_frags := ((tad_pkt_len mem pkt+frag_data_len-1)/frag_data_len).setWidth 32
    let frags := mem.nextPkts
    let mem := tad_pkts_init {mem with nextPkts := mem.nextPkts+1} frags
    let mem ← tad_pkts_alloc mem frags n_frags (if add_seg_len.isSome then 2 else 1) (add_seg_len.getD 0)
    let (mem,_) ← forEach pktNext (CIRCLEQ_END frags) tad_pkt_fragment_cb (mem.nextPkt+1) mem (CIRCLEQ_FIRST mem.pktLinks frags)
      ⟨add_seg_len.isSome && header,frag_data_len,pkt,none,NULL,0⟩
    (tad_pkts_move mem pkts frags).map fun mem => (.ok,mem)
end

end TestEnvironment.Tad.InMemory
