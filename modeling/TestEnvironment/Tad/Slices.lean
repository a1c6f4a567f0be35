import TestEnvironment.Tad.Packet
import TestEnvironment.Lib.Names

/-!
Fragments of a packet on request (`tad_pkt_get_frag` in `tad_pkt.c`) against slices of its
bytes. The new segments share the bytes of the source; the layer tags of segments are
left out. The mode is one of the enumeration, so the default branch of its switch is not
reached. The bytes of `rand` are a parameter.
-/
namespace TestEnvironment.Tad
open Lib

/-- `tad_pkt_get_frag_mode`. -/
inductive TadPktGetFragMode | ERROR | TRUNC | RAND | ZERO
  deriving DecidableEq, Repr
inductive GetFragStatus | ok | E2BIG
  deriving DecidableEq, Repr
/-- `tad_pkt_get_frag_cb_data`. -/
structure TadPktGetFragCbData where
  frag_off : Nat
  frag_end : Nat
  seg_off : Nat
  dst : TadPkt
  deriving DecidableEq, Repr

section
variable (rand : Nat → UInt8)

def tad_pkt_append_seg (pkt : TadPkt) (seg : TadPktSeg) : TadPkt := ⟨pkt.segs ++ [seg]⟩
def tad_pkt_get_frag_cb (seg : TadPktSeg) (data : TadPktGetFragCbData) : TadPktGetFragCbData :=
  let next_seg_off := (data.seg_off+seg.data_len)%SIZE_MOD
  if data.seg_off < data.frag_end ∧ data.frag_off < next_seg_off then
    let off := ((data.frag_off : Int)-data.seg_off).bmod SIZE_MOD
    let len := (min data.frag_end next_seg_off+SIZE_MOD-max data.frag_off data.seg_off)%SIZE_MOD
    let off := if off < 0 then 0 else off
    let len := if seg.data_len < len then seg.data_len else len
    {data with dst := tad_pkt_append_seg data.dst ⟨(seg.data.drop off.toNat).take len⟩,seg_off := next_seg_off}
  else {data with seg_off := next_seg_off}
/-- The data of the additional segment. -/
def paddingData (len : Nat) : TadPktGetFragMode → List UInt8
  | .ZERO => replicate len 0
  | _ => (List.range len).map rand
def tad_pkt_get_frag (dst src : TadPkt) (frag_off frag_len : Nat) (mode : TadPktGetFragMode) : GetFragStatus × TadPkt :=
  let frag_end := (frag_off+frag_len)%SIZE_MOD
  let add_seg_len := ((frag_end : Int)-tad_pkt_len src).bmod UINT_MOD
  if 0 < add_seg_len ∧ mode = .ERROR then (.E2BIG,dst)
  else
    let add_seg_len := if 0 < add_seg_len ∧ mode = .TRUNC then 0 else min add_seg_len.toNat frag_len
    let data := tad_pkt_enumerate_seg src (fun seg _ data => tad_pkt_get_frag_cb seg data) ⟨frag_off,frag_end,0,dst⟩
    if 0 < add_seg_len then (.ok,tad_pkt_append_seg data.dst ⟨paddingData rand add_seg_len mode⟩)
    else (.ok,data.dst)
end

section
variable {frag_off frag_end seg_off : Nat} {data : TadPktGetFragCbData}

/-- The bytes between two offsets, out of bytes that start at a third. -/
def between (frag_off frag_end seg_off : Nat) (bytes : List UInt8) : List UInt8 :=
  (bytes.drop (frag_off-seg_off)).take (frag_end-max frag_off seg_off)

theorem between_append (front behind : List UInt8) :
    between frag_off frag_end seg_off (front ++ behind) =
      between frag_off frag_end seg_off front ++ between frag_off frag_end (seg_off+front.length) behind := by
  have start : frag_off-seg_off-front.length = frag_off-(seg_off+front.length) := Nat.sub_sub ..
  have size : frag_end-max frag_off seg_off-(front.length-(frag_off-seg_off)) = frag_end-max frag_off (seg_off+front.length) ∨
      frag_end ≤ seg_off+front.length := by omega
  rw [between,between,between,List.drop_append,List.take_append,length_drop,start]
  rcases size with size | behind
  · rw [size]
  · grind
theorem between_apart {bytes : List UInt8} (apart : ¬ (seg_off < frag_end ∧ frag_off < seg_off+bytes.length)) :
    between frag_off frag_end seg_off bytes = [] := by
  rw [← length_eq_zero_iff,between,length_take,length_drop]
  omega
/-- A segment gives its part of the fragment, and the next one is behind it. -/
theorem get_frag_cb_between {seg : TadPktSeg} (range : data.frag_off ≤ data.frag_end) (limit : data.frag_end < 2^31)
    (inside : data.seg_off+seg.data_len < SIZE_MOD) :
    ∃ segs, tad_pkt_get_frag_cb seg data =
        {data with dst := ⟨data.dst.segs ++ segs⟩,seg_off := data.seg_off+seg.data_len} ∧
      segs.flatMap TadPktSeg.data = between data.frag_off data.frag_end data.seg_off seg.data := by
  rw [tad_pkt_get_frag_cb]
  simp only [mod_eq_of_lt inside]
  by_cases overlap : data.seg_off < data.frag_end ∧ data.frag_off < data.seg_off+seg.data_len
  · obtain ⟨before,behind⟩ := overlap
    have off : ((data.frag_off : Int)-data.seg_off).bmod SIZE_MOD = (data.frag_off : Int)-data.seg_off := by
      rw [SIZE_MOD,Int.bmod_eq_of_le] <;> omega
    have len : (min data.frag_end (data.seg_off+seg.data_len)+SIZE_MOD-max data.frag_off data.seg_off)%SIZE_MOD =
        min data.frag_end (data.seg_off+seg.data_len)-max data.frag_off data.seg_off := by
      rw [Nat.sub_add_comm (by omega),Nat.add_mod_right,mod_eq_of_lt (by omega)]
    rw [if_pos ⟨before,behind⟩,off,len]
    refine ⟨_,rfl,?_⟩
    rw [flatMap_singleton,between]
    have start : (if (data.frag_off : Int)-data.seg_off < 0 then 0 else (data.frag_off : Int)-data.seg_off).toNat =
        data.frag_off-data.seg_off := by
      split_ifs <;> omega
    rw [start]
    -- the rest of the segment limits the length as well
    apply List.take_eq_take_iff.mpr
    rw [length_drop]
    have size : seg.data_len = seg.data.length := rfl
    split_ifs <;> omega
  · rw [if_neg overlap]
    refine ⟨[],by rw [append_nil],?_⟩
    rw [between_apart overlap]
    rfl
theorem enumerate_between (segs : List TadPktSeg) (seg_num : Nat) (range : data.frag_off ≤ data.frag_end) (limit : data.frag_end < 2^31)
    (inside : data.seg_off+(segs.flatMap TadPktSeg.data).length < SIZE_MOD) :
    ∃ new, (enumerateSegs (fun seg _ data => tad_pkt_get_frag_cb seg data) segs seg_num data).dst = ⟨data.dst.segs ++ new⟩ ∧
      new.flatMap TadPktSeg.data = between data.frag_off data.frag_end data.seg_off (segs.flatMap TadPktSeg.data) := by
  induction segs generalizing data seg_num with
  | nil => exact ⟨[],by rw [enumerateSegs,append_nil],by simp [between]⟩
  | cons seg segs ih =>
    rw [flatMap_cons,length_append] at inside
    have size : seg.data_len = seg.data.length := rfl
    obtain ⟨first,step,bytes⟩ := @get_frag_cb_between data seg range limit (by omega)
    obtain ⟨others,loop,rest⟩ := @ih {data with dst := ⟨data.dst.segs ++ first⟩,seg_off := data.seg_off+seg.data_len} (seg_num+1) range limit
      (show data.seg_off+seg.data_len+_ < _ by omega)
    refine ⟨first ++ others,?_,?_⟩
    · rw [enumerateSegs,step,loop,append_assoc]
    · rw [flatMap_append,bytes,rest,flatMap_cons,between_append]
      rfl

end

section
variable {rand : Nat → UInt8} {dst src : TadPkt} {frag_off frag_len : Nat} {mode : TadPktGetFragMode}

/-- The bytes of a packet from an offset on. -/
def slice (pkt : TadPkt) (off len : Nat) : List UInt8 := (pkt.data.drop off).take len
/-- The bytes outside the source that a mode adds. -/
def extraLen (src : TadPkt) (frag_off frag_len : Nat) (mode : TadPktGetFragMode) : Nat :=
  if mode = .TRUNC then 0 else min frag_len (frag_off+frag_len-src.data.length)
/-- Too long a fragment is an error in one mode; otherwise the slice and the bytes outside the source are appended. -/
def Sliced (rand : Nat → UInt8) (dst src : TadPkt) (frag_off frag_len : Nat) (mode : TadPktGetFragMode) : Prop :=
  if mode = .ERROR ∧ src.data.length < frag_off+frag_len then tad_pkt_get_frag rand dst src frag_off frag_len mode = (.E2BIG,dst)
  else ∃ segs extra, tad_pkt_get_frag rand dst src frag_off frag_len mode = (.ok,⟨dst.segs ++ segs⟩) ∧
    segs.flatMap TadPktSeg.data = slice src frag_off frag_len ++ extra ∧ extra.length = extraLen src frag_off frag_len mode ∧
    (mode = .ZERO → ∀ byte ∈ extra, byte = 0)
/-- The source has so many bytes behind the fragment that their number, as a negative `int`, becomes positive. -/
def Misread (src : TadPkt) (frag_off frag_len : Nat) : Prop := 2^31 < (src.data.length-(frag_off+frag_len))%UINT_MOD

instance : Decidable (Misread src frag_off frag_len) := inferInstanceAs (Decidable (_ < _))

/-- The number of bytes missing in the source, as the code counts them. -/
def addSegLen (src : TadPkt) (frag_off frag_len : Nat) : Int := ((frag_off+frag_len : Nat)-(src.data.length : Int)).bmod UINT_MOD

theorem addSegLen_missing (limit : frag_off+frag_len < 2^31) (beyond : src.data.length < frag_off+frag_len) :
    addSegLen src frag_off frag_len = (frag_off+frag_len-src.data.length : Nat) := by
  rw [addSegLen,UINT_MOD,Int.bmod_eq_of_le] <;> omega
theorem addSegLen_inside (within : frag_off+frag_len ≤ src.data.length) :
    0 < addSegLen src frag_off frag_len ↔ Misread src frag_off frag_len := by
  simp only [addSegLen,Misread,UINT_MOD,Int.bmod]
  split_ifs <;> omega

theorem paddingData_length (len : Nat) : (paddingData rand len mode).length = len := by
  cases mode <;> simp [paddingData]
/-- What the fragment gets, with the number of missing bytes that the code has. -/
theorem get_frag_parts (limit : frag_off+frag_len < 2^31) (measured : tad_pkt_len src = src.data.length) :
    (0 < addSegLen src frag_off frag_len ∧ mode = .ERROR → tad_pkt_get_frag rand dst src frag_off frag_len mode = (.E2BIG,dst)) ∧
    (¬ (0 < addSegLen src frag_off frag_len ∧ mode = .ERROR) → ∃ segs extra,
      tad_pkt_get_frag rand dst src frag_off frag_len mode = (.ok,⟨dst.segs ++ segs⟩) ∧
      segs.flatMap TadPktSeg.data = slice src frag_off frag_len ++ extra ∧
      extra.length = (if mode = .TRUNC then 0 else min frag_len (addSegLen src frag_off frag_len).toNat) ∧
      (mode = .ZERO → ∀ byte ∈ extra, byte = 0)) := by
  have range : (frag_off+frag_len)%SIZE_MOD = frag_off+frag_len := mod_eq_of_lt (by rw [SIZE_MOD]; omega)
  have size : src.data.length < SIZE_MOD := by
    rw [← measured]
    exact mod_lt _ (by decide)
  obtain ⟨new,appended,bytes⟩ := @enumerate_between ⟨frag_off,frag_off+frag_len,0,dst⟩ src.segs 0 (Nat.le_add_right _ _) limit
    (by rw [Nat.zero_add]; exact size)
  have sliced : new.flatMap TadPktSeg.data = slice src frag_off frag_len := by
    rw [bytes,between,slice]
    simp only [Nat.sub_zero,Nat.max_zero,Nat.add_sub_cancel_left]
    rfl
  rw [tad_pkt_get_frag]
  simp only [range,measured,tad_pkt_enumerate_seg,appended]
  rw [← addSegLen]
  refine ⟨fun error => if_pos error,fun fine => ?_⟩
  rw [if_neg fine]
  by_cases trunc : mode = .TRUNC
  · simp_all [if_neg]
  · have kept : (if 0 < addSegLen src frag_off frag_len ∧ mode = .TRUNC then 0
        else min (addSegLen src frag_off frag_len).toNat frag_len) = min frag_len (addSegLen src frag_off frag_len).toNat := by
      rw [if_neg fun both => trunc both.2,Nat.min_comm]
    rw [kept,if_neg trunc]
    generalize min frag_len (addSegLen src frag_off frag_len).toNat = missing
    by_cases some' : 0 < missing
    · rw [if_pos some']
      refine ⟨new ++ [⟨paddingData rand missing mode⟩],_,by rw [tad_pkt_append_seg,append_assoc],
        by rw [flatMap_append,sliced,flatMap_singleton],paddingData_length missing,?_⟩
      rintro rfl byte member
      exact List.eq_of_mem_replicate member
    · simp_all
/-- Getting a fragment is slicing unless the source is so much longer than the fragment needs that bytes seem
    to be missing, and the mode does something about them. -/
theorem get_frag_slices (limit : frag_off+frag_len < 2^31) (measured : tad_pkt_len src = src.data.length) :
    Sliced rand dst src frag_off frag_len mode ↔
      ¬ Misread src frag_off frag_len ∨ mode = .TRUNC ∨ mode ≠ .ERROR ∧ frag_len = 0 := by
  obtain ⟨refused,accepted⟩ := @get_frag_parts rand dst src frag_off frag_len mode limit measured
  rw [Sliced]
  by_cases beyond : src.data.length < frag_off+frag_len
  · have count := addSegLen_missing limit beyond
    have fine : ¬ Misread src frag_off frag_len := by simp [beyond,Nat.le_of_lt,Misread]
    refine ⟨fun _ => .inl fine,fun _ => ?_⟩
    by_cases error : mode = .ERROR
    · rw [if_pos ⟨error,beyond⟩]
      exact refused ⟨by omega,error⟩
    · simp_all [extraLen]
  · have sign := @addSegLen_inside src frag_off frag_len (by omega)
    have nothing : extraLen src frag_off frag_len mode = 0 := by
      rw [extraLen]
      split_ifs <;> omega
    rw [if_neg fun both => beyond both.2,nothing,← sign]
    constructor
    · rintro ⟨segs,extra,result,bytes,none',_⟩
      by_cases error : 0 < addSegLen src frag_off frag_len ∧ mode = .ERROR
      · rw [refused error] at result
        cases (Prod.mk.inj result).1
      · obtain ⟨segs',extra',result',bytes',length',_⟩ := accepted error
        have same : segs' = segs := by grind [append_cancel_left]
        rw [same,bytes,List.append_cancel_left_eq] at bytes'
        rw [← bytes',none'] at length'
        by_cases trunc : mode = .TRUNC
        · exact .inr (.inl trunc)
        · grind
    · intro condition
      obtain ⟨segs,extra,result,bytes,length,zero⟩ := accepted (by
        rintro ⟨positive,rfl⟩
        rcases condition with small | trunc | other
        · exact small positive
        · cases trunc
        · exact other.1 rfl)
      refine ⟨segs,extra,result,bytes,?_,zero⟩
      rw [length]
      rcases condition with small | trunc | other
      · split_ifs <;> omega
      · rw [if_pos trunc]
      · rw [other.2]
        split_ifs
        · rfl
        · exact Nat.zero_min _
theorem get_frag_slices_zero :
    Sliced (fun _ => 7) ⟨[⟨[9]⟩]⟩ ⟨[⟨[1,2,3]⟩,⟨[]⟩,⟨[4]⟩]⟩ 2 5 .ZERO :=
  (get_frag_slices (by decide) (by decide)).mpr (by decide)
/-- An empty fragment at the start of more than 2 GiB is refused as too big. -/
theorem get_frag_refused : ¬ ∀ rand dst src frag_off frag_len mode, frag_off+frag_len < 2^31 → tad_pkt_len src = src.data.length →
    Sliced rand dst src frag_off frag_len mode := by
  intro claim
  obtain ⟨src,length⟩ : ∃ src : TadPkt, src.data.length = 2^31+1 :=
    ⟨⟨[⟨replicate (2^31+1) 0⟩]⟩,by rw [TadPkt.data,flatMap_singleton,length_replicate]⟩
  have measured : tad_pkt_len src = src.data.length := by
    rw [tad_pkt_len,length]
    exact mod_eq_of_lt (by decide)
  have misread : Misread src 0 0 := by
    rw [Misread,length]
    decide
  have sliced := claim (fun _ => 0) ⟨[]⟩ src 0 0 .ERROR (by decide) measured
  rw [Sliced,if_neg fun both => absurd both.2 (by rw [length]; decide)] at sliced
  obtain ⟨segs,extra,result,_⟩ := sliced
  rw [(get_frag_parts (by decide) measured).1 ⟨(addSegLen_inside (Nat.zero_le _)).mpr misread,rfl⟩] at result
  cases (Prod.mk.inj result).1

end

end TestEnvironment.Tad
