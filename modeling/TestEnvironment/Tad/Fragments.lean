import TestEnvironment.Tad.Packet
import TestEnvironment.Lib.Names

/-!
Fragmentation of packets (`tad_pkt_fragment` in `tad_pkt.c`). The fragments share the
bytes of the source packet, which is only read. Where the code follows a link of the
circular queue behind the last segment, it takes the head of the queue for a
segment: nothing is known of what it reads there, and the model has no result, as
where an assertion fails.
-/
namespace TestEnvironment.Tad
open Lib

section

/-- `tad_pkt_next_not_empty_seg`, from the segments behind the current one. -/
def tad_pkt_next_not_empty_seg : List TadPktSeg → Option (TadPktSeg × List TadPktSeg)
  | [] => none
  | seg :: rest => if seg.data_len = 0 then tad_pkt_next_not_empty_seg rest else some (seg,rest)
/-- `tad_pkt_fragment_cb_data`: the source is left from `src_data` and the segments behind on. -/
structure TadPktFragmentCbData where
  skip_first_seg : Bool
  frag_data_len : Nat
  src_segs : List TadPktSeg
  src_data : List UInt8
  deriving DecidableEq, Repr

/-- Moves on to the next segment of the source at the end of one. -/
def TadPktFragmentCbData.advance (data : TadPktFragmentCbData) : Option TadPktFragmentCbData :=
  if data.src_data.length = 0 then
    (tad_pkt_next_not_empty_seg data.src_segs).map fun next => {data with src_segs := next.2,src_data := next.1.data}
  else some data
/-- The loop of `tad_pkt_fragment_cb`: the destination segment with those inserted behind it. -/
def fragmentLoop : Nat → Nat → TadPktFragmentCbData → Option (List TadPktSeg × TadPktFragmentCbData)
  | 0, _, _ => none
  | fuel+1, dst_rest, data => do
    let data ← data.advance
    let dst_seg_len := min data.src_data.length dst_rest
    let dst_seg : TadPktSeg := ⟨data.src_data.take dst_seg_len⟩
    let data := {data with src_data := data.src_data.drop dst_seg_len}
    let dst_rest := dst_rest-dst_seg_len
    if dst_rest = 0 then some ([dst_seg],data)
    else
      let (new_segs,data) ← fragmentLoop fuel dst_rest data
      some (dst_seg :: new_segs,data)
def tad_pkt_fragment_cb (pkt : TadPkt) (data : TadPktFragmentCbData) : Option (TadPkt × TadPktFragmentCbData) :=
  let (front,segs) := if data.skip_first_seg then (pkt.segs.take 1,pkt.segs.drop 1) else ([],pkt.segs)
  match segs with
  | [] => none
  | dst_seg :: behind =>
    if dst_seg.data ≠ [] then none
    else (fragmentLoop data.frag_data_len data.frag_data_len data).map fun done => (⟨front ++ done.1 ++ behind⟩,done.2)
/-- `tad_pkt_enumerate` with `tad_pkt_fragment_cb`. -/
def fragmentAll : List TadPkt → TadPktFragmentCbData → Option (List TadPkt)
  | [], _ => some []
  | pkt :: pkts, data => do
    let (pkt,data) ← tad_pkt_fragment_cb pkt data
    let pkts ← fragmentAll pkts data
    some (pkt :: pkts)
/-- `tad_pkts_alloc` for an empty list. -/
def tad_pkts_alloc (n_pkts n_segs first_seg_len : Nat) : Option (List TadPkt) :=
  if n_pkts = 0 then none
  else some (replicate n_pkts ⟨⟨replicate first_seg_len 0⟩ :: replicate (n_segs-1) ⟨[]⟩⟩)
inductive FragmentStatus | ok | EINVAL
  deriving DecidableEq, Repr
/-- `tad_pkt_fragment`; the length of the additional segment is nothing where the code has -1. -/
def tad_pkt_fragment (pkt : TadPkt) (frag_data_len : Nat) (add_seg_len : Option Nat) (header : Bool) (pkts : List TadPkt) :
    Option (FragmentStatus × List TadPkt) :=
  if frag_data_len = 0 then some (.EINVAL,pkts)
  else if tad_pkt_len pkt = 0 then some (.ok,pkts)
  else do
    let n_frags := (tad_pkt_len pkt+frag_data_len-1)%SIZE_MOD/frag_data_len%UINT_MOD
    let add_seg := add_seg_len.isSome
    let frags ← tad_pkts_alloc n_frags (if add_seg then 2 else 1) (add_seg_len.getD 0)
    let frags ← fragmentAll frags
      {skip_first_seg := add_seg && header,frag_data_len := frag_data_len,src_segs := pkt.segs,src_data := []}
    some (.ok,pkts ++ frags)
end

section
variable {segs : List TadPktSeg} {data : TadPktFragmentCbData}

/-- The bytes of the source that are left. -/
def TadPktFragmentCbData.left (data : TadPktFragmentCbData) : List UInt8 := data.src_data ++ data.src_segs.flatMap TadPktSeg.data

theorem next_not_empty_none (empty : segs.flatMap TadPktSeg.data = []) : tad_pkt_next_not_empty_seg segs = none := by
  induction segs with
  | nil => rfl
  | cons seg segs ih => simp_all [tad_pkt_next_not_empty_seg,TadPktSeg.data_len]
theorem next_not_empty_some (more : segs.flatMap TadPktSeg.data ≠ []) : ∃ seg rest, tad_pkt_next_not_empty_seg segs = some (seg,rest) ∧
    seg.data ≠ [] ∧ seg.data ++ rest.flatMap TadPktSeg.data = segs.flatMap TadPktSeg.data := by
  induction segs with
  | nil => exact absurd rfl more
  | cons seg segs ih =>
    rw [tad_pkt_next_not_empty_seg]
    by_cases empty : seg.data = []
    · rw [if_pos (by simp [TadPktSeg.data_len,empty])]
      simp only [flatMap_cons,empty,nil_append] at more ⊢
      exact ih more
    · rw [if_neg (by simpa [TadPktSeg.data_len] using empty)]
      exact ⟨seg,segs,rfl,empty,by simp⟩
/-- The source moves on to a segment with data, where there is one. -/
theorem advance_spec (data : TadPktFragmentCbData) : (data.left = [] ∧ data.advance = none) ∨
    ∃ data', data.advance = some data' ∧ data'.left = data.left ∧ data'.src_data ≠ [] ∧
      data'.skip_first_seg = data.skip_first_seg ∧ data'.frag_data_len = data.frag_data_len := by
  rw [TadPktFragmentCbData.advance]
  by_cases empty : data.src_data = []
  · rw [if_pos (by simp [empty])]
    by_cases more : data.src_segs.flatMap TadPktSeg.data = []
    · simp [empty,more,next_not_empty_none,TadPktFragmentCbData.left]
    · right
      obtain ⟨seg,rest,found,some',same⟩ := next_not_empty_some more
      refine ⟨{data with src_segs := rest,src_data := seg.data},by rw [found]; rfl,?_,some',rfl,rfl⟩
      simp [TadPktFragmentCbData.left,empty,same]
  · grind

/-- The loop takes as many bytes as there is room for, or has no result where the source ends. -/
theorem fragmentLoop_spec (fuel dst_rest : Nat) (data : TadPktFragmentCbData) (positive : 0 < dst_rest) (enough : dst_rest ≤ fuel) :
    (data.left.length < dst_rest → fragmentLoop fuel dst_rest data = none) ∧
    (dst_rest ≤ data.left.length → ∃ segs data', fragmentLoop fuel dst_rest data = some (segs,data') ∧
      segs.flatMap TadPktSeg.data = data.left.take dst_rest ∧ data'.left = data.left.drop dst_rest ∧
        data'.skip_first_seg = data.skip_first_seg ∧ data'.frag_data_len = data.frag_data_len) := by
  induction fuel generalizing dst_rest data with
  | zero => omega
  | succ fuel ih =>
    rw [fragmentLoop]
    rcases advance_spec data with ⟨empty,nothing⟩ | ⟨data1,found,left1,some',skip1,len1⟩
    · grind
    · rw [found]
      simp only [bind_eq_bind,bind_some]
      have length : 0 < data1.src_data.length := length_pos_iff.mpr some'
      have whole : data.left = data1.src_data ++ data1.src_segs.flatMap TadPktSeg.data := left1.symm
      by_cases last : dst_rest ≤ data1.src_data.length
      · -- the fragment ends in this segment
        rw [Nat.min_eq_right last,Nat.sub_self,if_pos rfl]
        refine ⟨fun short => ?_,fun _ => ⟨_,_,rfl,?_,?_,skip1,len1⟩⟩
        · rw [whole,length_append] at short
          omega
        · simp [whole,take_append_of_le_length last]
        · rw [whole,drop_append_of_le_length last]
          rfl
      · -- the rest of the segment is taken
        have less : data1.src_data.length ≤ dst_rest := by omega
        rw [Nat.min_eq_left less,if_neg (by omega)]
        obtain ⟨short,long⟩ := ih (dst_rest-data1.src_data.length)
          {data1 with src_data := data1.src_data.drop data1.src_data.length} (by omega) (by omega)
        have left2 : ({data1 with src_data := data1.src_data.drop data1.src_data.length} : TadPktFragmentCbData).left =
            data1.src_segs.flatMap TadPktSeg.data := by simp [TadPktFragmentCbData.left]
        rw [left2] at short long
        refine ⟨fun few => ?_,fun fits => ?_⟩
        · rw [short (by rw [whole,length_append] at few; omega)]
          rfl
        · obtain ⟨segs,data',result,taken,dropped,skip,len⟩ := long (by rw [whole,length_append] at fits; omega)
          rw [result]
          refine ⟨_,data',rfl,?_,?_,skip.trans skip1,len.trans len1⟩
          · simp [whole,taken,List.take_append,take_of_length_le less]
          · simp [dropped,whole,less,List.drop_append]

end

section
variable {add_seg_len : Option Nat} {header : Bool} {data : TadPktFragmentCbData} {frag_data_len : Nat}

/-- A fragment as it is allocated. -/
def blank (add_seg_len : Option Nat) : TadPkt :=
  ⟨⟨replicate (add_seg_len.getD 0) 0⟩ :: replicate ((if add_seg_len.isSome then 2 else 1)-1) ⟨[]⟩⟩
/-- The data of a fragment without its additional segment. -/
def payload (add_seg_len : Option Nat) (header : Bool) (frag : TadPkt) : List UInt8 :=
  match add_seg_len,header with
  | none,_ => frag.data
  | some _,true => (frag.segs.drop 1).flatMap TadPktSeg.data
  | some _,false => frag.segs.dropLast.flatMap TadPktSeg.data
/-- The additional segment does not stand in the way of the data: there is none, it is a header, or it is empty. -/
def Roomy (add_seg_len : Option Nat) (header : Bool) : Prop := add_seg_len = none ∨ header = true ∨ add_seg_len = some 0

instance (add_seg_len : Option Nat) (header : Bool) : Decidable (Roomy add_seg_len header) := inferInstanceAs (Decidable (_ ∨ _ ∨ _))

theorem fragment_cb_blank (roomy : Roomy add_seg_len header) (skip : data.skip_first_seg = (add_seg_len.isSome && header)) :
    ∃ front behind, tad_pkt_fragment_cb (blank add_seg_len) data =
        (fragmentLoop data.frag_data_len data.frag_data_len data).map (fun done => (⟨front ++ done.1 ++ behind⟩,done.2)) ∧
      ∀ segs, payload add_seg_len header ⟨front ++ segs ++ behind⟩ = segs.flatMap TadPktSeg.data := by
  rw [tad_pkt_fragment_cb,skip]
  cases add_seg_len with
  | none => exact ⟨[],[],rfl,fun segs => by simp [payload,TadPkt.data]⟩
  | some k =>
    cases header with
    | true => exact ⟨[⟨replicate k 0⟩],[],rfl,fun segs => by simp [payload]⟩
    | false =>
      obtain rfl : k = 0 := by simpa [Roomy] using roomy
      exact ⟨[],[⟨[]⟩],rfl,fun segs => by simp [payload]⟩
/-- A trailer with data is taken for the segment to be filled. -/
theorem fragment_cb_trailer (cramped : ¬ Roomy add_seg_len header) (skip : data.skip_first_seg = (add_seg_len.isSome && header)) :
    tad_pkt_fragment_cb (blank add_seg_len) data = none := by
  simp only [Roomy,not_or,Bool.not_eq_true] at cramped
  obtain ⟨some',rfl,positive⟩ := cramped
  obtain ⟨k,rfl⟩ := ne_none_iff_exists'.mp some'
  have positive : k ≠ 0 := by simpa using positive
  simp [tad_pkt_fragment_cb,skip,blank,positive]

/-- All fragments are filled, unless the source is too short. -/
theorem fragmentAll_spec (n : Nat) (data : TadPktFragmentCbData) (roomy : Roomy add_seg_len header) (positive : 0 < data.frag_data_len)
    (skip : data.skip_first_seg = (add_seg_len.isSome && header)) :
    (data.left.length < n*data.frag_data_len → fragmentAll (replicate n (blank add_seg_len)) data = none) ∧
    (n*data.frag_data_len ≤ data.left.length → ∃ frags, fragmentAll (replicate n (blank add_seg_len)) data = some frags ∧
      frags.length = n ∧ (frags.map (payload add_seg_len header)).flatten = data.left.take (n*data.frag_data_len) ∧
        ∀ frag ∈ frags, (payload add_seg_len header frag).length = data.frag_data_len) := by
  induction n generalizing data with
  | zero => exact ⟨by simp,fun _ => ⟨[],rfl,rfl,by simp,by simp⟩⟩
  | succ n ih =>
    obtain ⟨front,behind,filled,carried⟩ := fragment_cb_blank roomy skip
    obtain ⟨short,long⟩ := fragmentLoop_spec data.frag_data_len data.frag_data_len data positive (Nat.le_refl _)
    have product : (n+1)*data.frag_data_len = data.frag_data_len+n*data.frag_data_len := by rw [Nat.succ_mul,Nat.add_comm]
    rw [replicate_succ,fragmentAll,filled]
    by_cases first : data.frag_data_len ≤ data.left.length
    · obtain ⟨segs,data',result,taken,dropped,skip',len'⟩ := long first
      obtain ⟨shortRest,longRest⟩ := ih data' (len' ▸ positive) (skip'.trans skip)
      rw [len',dropped,length_drop] at shortRest longRest
      rw [result]
      simp only [map_some,bind_eq_bind,bind_some]
      refine ⟨fun few => ?_,fun fits => ?_⟩
      · rw [shortRest (by omega)]
        rfl
      · grind
    · rw [short (by omega)]
      exact ⟨fun _ => rfl,fun fits => by omega⟩

end

section
variable {pkt : TadPkt} {pkts : List TadPkt} {frag_data_len : Nat} {add_seg_len : Option Nat} {header : Bool}

/-- As many fragments as needed are appended; all but the last are full, and together they have the
    data of the packet. -/
def Fragmented (pkt : TadPkt) (frag_data_len : Nat) (add_seg_len : Option Nat) (header : Bool) (pkts : List TadPkt) : Prop :=
  ∃ frags, tad_pkt_fragment pkt frag_data_len add_seg_len header pkts = some (.ok,pkts ++ frags) ∧
    frags.length = (pkt.data.length+frag_data_len-1)/frag_data_len ∧
    (∀ frag ∈ frags.dropLast, (payload add_seg_len header frag).length = frag_data_len) ∧
    (frags.map (payload add_seg_len header)).flatten = pkt.data

variable {n d len : Nat}

theorem ceil_zero (positive : 0 < d) : (n+d-1)/d = 0 ↔ n = 0 := by
  rw [Nat.div_eq_zero_iff]
  omega
theorem ceil_parts (n : Nat) (positive : 0 < d) : (n+d-1)/d = n/d+if n%d = 0 then 0 else 1 := by
  have parts := Nat.div_add_mod n d
  have less := mod_lt n positive
  generalize n/d = q at *
  generalize n%d = r at *
  subst parts
  split_ifs with zero
  · have sum : d*q+r+d-1 = d*q+(d-1) := by omega
    rw [sum,Nat.mul_add_div positive,Nat.div_eq_of_lt (by omega)]
  · have sum : d*q+r+d-1 = d*(q+1)+(r-1) := by
      rw [Nat.mul_add]
      omega
    rw [sum,Nat.mul_add_div positive,Nat.div_eq_of_lt (by omega)]
/-- The rounded up quotient does not cover more than the number only if there is no remainder. -/
theorem ceil_exact (positive : 0 < d) (inside : (n+d-1)/d*d ≤ n) : n%d = 0 := by
  have parts := Nat.div_add_mod n d
  have less := mod_lt n positive
  rw [ceil_parts n positive,Nat.add_mul,Nat.mul_comm] at inside
  by_contra more
  rw [if_neg more] at inside
  omega
/-- The number of fragments that the code computes in `size_t` and `unsigned int`. -/
def fragsNum (len frag_data_len : Nat) : Nat := (len%SIZE_MOD+frag_data_len-1)%SIZE_MOD/frag_data_len%UINT_MOD

section
variable (positive : 0 < frag_data_len)
include positive
theorem fragsNum_exact (exact' : len%frag_data_len = 0)
    (small : len+frag_data_len ≤ SIZE_MOD) (few : len/frag_data_len < UINT_MOD) : fragsNum len frag_data_len = len/frag_data_len := by
  rw [fragsNum,mod_eq_of_lt (show len < SIZE_MOD by omega),mod_eq_of_lt (show len+frag_data_len-1 < SIZE_MOD by omega),
    ceil_parts len positive,if_pos exact',Nat.add_zero,mod_eq_of_lt few]
/-- It does not cover more than the data only without any wrap. -/
theorem fragsNum_wraps (type : frag_data_len < SIZE_MOD)
    (same : fragsNum len frag_data_len = len/frag_data_len) (exact' : len%frag_data_len = 0) :
    len+frag_data_len ≤ SIZE_MOD ∧ len/frag_data_len < UINT_MOD := by
  have few : len/frag_data_len < UINT_MOD := by
    rw [← same]
    exact mod_lt _ (by decide)
  refine ⟨?_,few⟩
  by_contra large
  have sum : (len%SIZE_MOD+frag_data_len-1)%SIZE_MOD = (len+(frag_data_len-1))%SIZE_MOD := by grind [SIZE_MOD]
  have below : (len+(frag_data_len-1))%SIZE_MOD ≤ len+(frag_data_len-1)-SIZE_MOD := by
    rw [Nat.mod_eq_sub_mod (by omega)]
    exact Nat.mod_le _ _
  have quotient : len/frag_data_len ≤ (len%SIZE_MOD+frag_data_len-1)%SIZE_MOD/frag_data_len := by
    rw [← same]
    exact Nat.mod_le _ _
  have covered : len/frag_data_len*frag_data_len = len := Nat.div_mul_cancel (Nat.dvd_of_mod_eq_zero exact')
  have product := Nat.mul_le_mul_right frag_data_len quotient
  have reach := Nat.div_mul_le_self ((len%SIZE_MOD+frag_data_len-1)%SIZE_MOD) frag_data_len
  omega

theorem fragment_unfold (some' : tad_pkt_len pkt ≠ 0) : tad_pkt_fragment pkt frag_data_len add_seg_len header pkts =
      if fragsNum pkt.data.length frag_data_len = 0 then none
      else (fragmentAll (replicate (fragsNum pkt.data.length frag_data_len) (blank add_seg_len))
        ⟨add_seg_len.isSome && header,frag_data_len,pkt.segs,[]⟩).map
          fun frags => (.ok,pkts ++ frags) := by
  rw [tad_pkt_fragment,if_neg (by omega),if_neg some']
  show Option.bind (tad_pkts_alloc (fragsNum pkt.data.length frag_data_len) _ _) _ = _
  rw [tad_pkts_alloc]
  by_cases zero : fragsNum pkt.data.length frag_data_len = 0
  · rw [if_pos zero,if_pos zero]
    rfl
  · rw [if_neg zero,if_neg zero,Option.map_eq_bind]
    rfl
/-- Where fragments are appended, there are enough bytes for all of them to be full. -/
theorem fragment_inside (some' : tad_pkt_len pkt ≠ 0) {frags : List TadPkt}
    (result : tad_pkt_fragment pkt frag_data_len add_seg_len header pkts = some (.ok,pkts ++ frags)) :
    Roomy add_seg_len header ∧ frags.length = fragsNum pkt.data.length frag_data_len ∧
      fragsNum pkt.data.length frag_data_len*frag_data_len ≤ pkt.data.length := by
  rw [fragment_unfold positive some'] at result
  generalize count : fragsNum pkt.data.length frag_data_len = n at result ⊢
  split_ifs at result with zero
  obtain ⟨frags',filled,same⟩ := of_map result
  obtain rfl : frags' = frags := append_cancel_left (Prod.mk.inj same).2
  by_cases roomy : Roomy add_seg_len header
  · obtain ⟨short,long⟩ := fragmentAll_spec n ⟨add_seg_len.isSome && header,frag_data_len,pkt.segs,[]⟩ roomy positive rfl
    change pkt.data.length < n*frag_data_len → _ at short
    change n*frag_data_len ≤ pkt.data.length → _ at long
    by_cases fits : n*frag_data_len ≤ pkt.data.length
    · grind
    · rw [short (by omega)] at filled
      cases filled
  · obtain ⟨m,rfl⟩ := Nat.exists_eq_succ_of_ne_zero zero
    rw [replicate_succ,fragmentAll,fragment_cb_trailer roomy rfl] at filled
    cases filled

/-- A packet whose length is a multiple of the one of fragments is cut into full fragments. -/
theorem fragment_whole (some' : ¬ tad_pkt_len pkt = 0) (roomy : Roomy add_seg_len header)
    (exact' : pkt.data.length%frag_data_len = 0) (small : pkt.data.length+frag_data_len ≤ SIZE_MOD)
    (few : pkt.data.length/frag_data_len < UINT_MOD) :
    ∃ frags, tad_pkt_fragment pkt frag_data_len add_seg_len header pkts = some (.ok,pkts ++ frags) ∧
      frags.length = pkt.data.length/frag_data_len ∧ (∀ frag ∈ frags, (payload add_seg_len header frag).length = frag_data_len) ∧
      (frags.map (payload add_seg_len header)).flatten = pkt.data := by
  have number := fragsNum_exact positive exact' small few
  have covered : pkt.data.length/frag_data_len*frag_data_len = pkt.data.length :=
    Nat.div_mul_cancel (Nat.dvd_of_mod_eq_zero exact')
  have more : pkt.data.length/frag_data_len ≠ 0 := by
    intro zero
    rw [zero,Nat.zero_mul] at covered
    exact some' (by rw [tad_pkt_len,← covered]; rfl)
  obtain ⟨_,long⟩ := fragmentAll_spec (pkt.data.length/frag_data_len) ⟨add_seg_len.isSome && header,frag_data_len,pkt.segs,[]⟩ roomy positive rfl
  obtain ⟨frags,filled,length,content,sizes⟩ := long (Nat.le_of_eq covered)
  refine ⟨frags,?_,length,sizes,?_⟩
  · rw [fragment_unfold positive some',number,if_neg more,filled]
    rfl
  · rw [content]
    show pkt.data.take (pkt.data.length/frag_data_len*frag_data_len) = pkt.data
    rw [covered,take_length]
end

/-- Fragmentation loses nothing exactly if the length of the packet is a multiple of the one of fragments,
    the numbers are in range, and the additional segment is not a trailer with data. -/
theorem fragment_loses_nothing (positive : 0 < frag_data_len) (type : frag_data_len < SIZE_MOD) :
    Fragmented pkt frag_data_len add_seg_len header pkts ↔ pkt.data.length = 0 ∨
      pkt.data.length%frag_data_len = 0 ∧ pkt.data.length+frag_data_len ≤ SIZE_MOD ∧ pkt.data.length/frag_data_len < UINT_MOD ∧
        Roomy add_seg_len header := by
  by_cases empty : tad_pkt_len pkt = 0
  · have unchanged : tad_pkt_fragment pkt frag_data_len add_seg_len header pkts = some (.ok,pkts) := by
      rw [tad_pkt_fragment,if_neg (by omega),if_pos empty]
    have none' : pkt.data.length%frag_data_len = 0 ∧ pkt.data.length+frag_data_len ≤ SIZE_MOD ∧
        pkt.data.length/frag_data_len < UINT_MOD ∧ Roomy add_seg_len header → pkt.data.length = 0 := by
      rintro ⟨_,small,_⟩
      rwa [tad_pkt_len,mod_eq_of_lt (by omega)] at empty
    constructor
    · rintro ⟨frags,result,count,_⟩
      left
      have nothing : frags = [] := by
        rw [unchanged] at result
        simpa using (of_pair result).2.symm
      rw [nothing,length_nil] at count
      exact (ceil_zero positive).mp count.symm
    · intro condition
      have length : pkt.data.length = 0 := condition.elim id none'
      refine ⟨[],by simpa using unchanged,?_,by simp,?_⟩
      · rw [(ceil_zero positive).mpr length]
        rfl
      · rw [map_nil,List.flatten_nil,length_eq_zero_iff.mp length]
  · have some' : pkt.data.length ≠ 0 := fun zero => empty (by rw [tad_pkt_len,zero]; rfl)
    constructor
    · rintro ⟨frags,result,count,_⟩
      obtain ⟨roomy,number,inside⟩ := fragment_inside positive empty result
      have covered := inside
      rw [← number,count] at covered
      have exact' := ceil_exact positive covered
      have same : fragsNum pkt.data.length frag_data_len = pkt.data.length/frag_data_len := by
        rw [← number,count,ceil_parts _ positive,if_pos exact',Nat.add_zero]
      obtain ⟨small,few⟩ := fragsNum_wraps positive type same exact'
      exact .inr ⟨exact',small,few,roomy⟩
    · rintro (zero | ⟨exact',small,few,roomy⟩)
      · exact absurd zero some'
      · obtain ⟨frags,result,count,sizes,content⟩ := fragment_whole positive empty roomy exact' small few
        refine ⟨frags,result,?_,fun frag member => sizes frag (List.dropLast_subset _ member),content⟩
        rw [count,ceil_parts _ positive,if_pos exact',Nat.add_zero]
theorem fragment_loses_nothing_header : Fragmented ⟨[⟨[1,2,3]⟩,⟨[]⟩,⟨[4]⟩]⟩ 2 (some 5) true [] :=
  (fragment_loses_nothing (by decide) (by decide)).mpr (by decide)
/-- One byte in fragments of two: the search for more data runs off the end of the segments. -/
theorem fragment_runs_off : ¬ ∀ pkt frag_data_len add_seg_len header pkts, 0 < frag_data_len → frag_data_len < SIZE_MOD →
    Fragmented pkt frag_data_len add_seg_len header pkts := by
  intro claim
  obtain ⟨frags,result,_⟩ := claim ⟨[⟨[1]⟩]⟩ 2 none false [] (by decide) (by decide)
  have nothing : tad_pkt_fragment ⟨[⟨[1]⟩]⟩ 2 none false [] = none := by decide
  cases nothing.symm.trans result

end

end TestEnvironment.Tad
