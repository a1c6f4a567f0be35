import TestEnvironment.Tad.PacketMemory

/-!
The bookkeeping of packets: under every operation on packets and lists of packets in
memory (`tad_pkt.c`) the queues stay sound in both directions, and the cached numbers
are those of the elements, except that `tad_pkt_cleanup_segs` keeps the number of segments.
-/
namespace TestEnvironment.Tad.InMemory
open Lib Function

section
variable {ι M : Type} [DecidableEq ι] [AddCommGroup M] {f : ι → M} {xs : List ι} {i : ι}

theorem sum_update (distinct : xs.Nodup) (member : i ∈ xs) (v : M) : (xs.map (update f i v)).sum = (xs.map f).sum-f i+v := by
  induction xs with
  | nil => cases member
  | cons x xs ih => grind [map_congr_left]

end

section
variable {mem mem' : Memory} {segs pkts : Nat → List Nat} {pkt seg new_seg list : Nat} {q : Circleq} {xs : List Nat}

def Memory.dataLen (mem : Memory) (seg : Nat) : BitVec 64 := (mem.seg seg).data_len
/-- The queues have the given elements, and the numbers in the control blocks are theirs, as far as the types go. -/
structure Kept (mem : Memory) (segs pkts : Nat → List Nat) : Prop where
  segQueues : Queues mem.segLinks mem.nextSeg segs
  pktQueues : Queues mem.pktLinks mem.nextPkt pkts
  n_segs : ∀ pkt, (mem.pkt pkt).n_segs = .ofNat 32 (segs pkt).length
  segs_len : ∀ pkt, (mem.pkt pkt).segs_len = ((segs pkt).map mem.dataLen).sum
  n_pkts : ∀ list, mem.n_pkts list = .ofNat 32 (pkts list).length

/-- What the bookkeeping depends on. -/
theorem Kept.congr (kept : Kept mem segs pkts) (segLinks : mem'.segLinks = mem.segLinks) (pktLinks : mem'.pktLinks = mem.pktLinks)
    (pkt' : mem'.pkt = mem.pkt) (n_pkts : mem'.n_pkts = mem.n_pkts) (nextSeg : mem.nextSeg ≤ mem'.nextSeg) (nextPkt : mem.nextPkt ≤ mem'.nextPkt)
    (data : ∀ seg < mem.nextSeg, mem'.dataLen seg = mem.dataLen seg) : Kept mem' segs pkts where
  segQueues := segLinks ▸ kept.segQueues.mono nextSeg
  pktQueues := pktLinks ▸ kept.pktQueues.mono nextPkt
  n_segs := pkt' ▸ kept.n_segs
  segs_len pkt := by
    rw [pkt',kept.segs_len,map_congr_left fun seg member => data seg (kept.segQueues.used pkt seg member)]
  n_pkts := n_pkts ▸ kept.n_pkts

theorem alloc_seg_eq (mem : Memory) (data_ptr : Nat) (data_len : BitVec 64) : ∃ control top,
    tad_pkt_alloc_seg mem data_ptr data_len =
      (mem.nextSeg,{mem with nextSeg := mem.nextSeg+1,seg := update mem.seg mem.nextSeg control,top := top}) := by
  rw [tad_pkt_alloc_seg]
  split_ifs
  · exact ⟨_,_,rfl⟩
  · exact ⟨_,_,rfl⟩
  · exact ⟨_,_,rfl⟩

variable (kept : Kept mem segs pkts)
include kept
/-- A segment that is allocated is in no packet. -/
theorem Kept.alloc_seg {data_ptr : Nat} {data_len : BitVec 64} (result : tad_pkt_alloc_seg mem data_ptr data_len = (seg,mem')) :
    Kept mem' segs pkts ∧ (∀ pkt, seg ∉ segs pkt) ∧ seg < mem'.nextSeg := by
  obtain ⟨control,top,allocated⟩ := alloc_seg_eq mem data_ptr data_len
  obtain ⟨rfl,rfl⟩ := Prod.mk.inj (result.symm.trans allocated)
  refine ⟨kept.congr rfl rfl rfl rfl (le_succ _) le_rfl fun seg old => ?_,?_,lt_succ_self _⟩
  · exact congrArg SegControl.data_len (update_of_ne (ne_of_lt old) ..)
  · exact fun pkt member => lt_irrefl _ (kept.segQueues.used pkt _ member)
/-- A segment that is linked in is counted. -/
theorem Kept.counted (queues : Queues q mem.nextSeg (update segs pkt xs)) (perm : xs.Perm (seg :: segs pkt)) :
    Kept (countSeg mem pkt seg q) (update segs pkt xs) pkts where
  segQueues := queues
  pktQueues := kept.pktQueues
  n_segs pkt' := by
    show (update mem.pkt pkt _ pkt').n_segs = _
    by_cases same : pkt' = pkt
    · simp [same,perm.length_eq,kept.n_segs,BitVec.ofNat_add]
    · rw [update_of_ne same,update_of_ne same,kept.n_segs]
  segs_len pkt' := by
    show (update mem.pkt pkt _ pkt').segs_len = _
    by_cases same : pkt' = pkt
    · rw [same,update_self,update_self,(perm.map _).sum_eq,map_cons,sum_cons]
      exact (congrArg (fun sum => sum+mem.dataLen seg) (kept.segs_len pkt)).trans (add_comm ..)
    · rw [update_of_ne same,update_of_ne same]
      exact kept.segs_len pkt'
  n_pkts := kept.n_pkts
theorem Kept.append_seg (spare : ∀ pkt, seg ∉ segs pkt) (used : seg < mem.nextSeg) (pkt : Nat) :
    ∃ mem', tad_pkt_append_seg mem pkt seg = some mem' ∧ Kept mem' (update segs pkt (segs pkt ++ [seg])) pkts := by
  obtain ⟨q,linked,queues⟩ := kept.segQueues.insert_tail spare used pkt
  exact ⟨_,congrArg (Option.map _) linked,kept.counted queues (List.perm_append_singleton seg _)⟩
theorem Kept.prepend_seg (spare : ∀ pkt, seg ∉ segs pkt) (used : seg < mem.nextSeg) (pkt : Nat) :
    ∃ mem', tad_pkt_prepend_seg mem pkt seg = some mem' ∧ Kept mem' (update segs pkt (seg :: segs pkt)) pkts := by
  obtain ⟨q,linked,queues⟩ := kept.segQueues.insert_head spare used pkt
  exact ⟨_,congrArg (Option.map _) linked,kept.counted queues (.refl _)⟩

section
variable (member : seg ∈ segs pkt)
include member
theorem Kept.insert_after_seg (spare : ∀ pkt, new_seg ∉ segs pkt) (used : new_seg < mem.nextSeg) :
    ∃ mem' xs, tad_pkt_insert_after_seg mem pkt seg new_seg = some mem' ∧ new_seg ∈ xs ∧ Kept mem' (update segs pkt xs) pkts := by
  obtain ⟨as,bs,place⟩ := append_of_mem member
  obtain ⟨q,linked,queues⟩ := kept.segQueues.insert_after place spare used
  have perm : (as ++ seg :: new_seg :: bs).Perm (new_seg :: segs pkt) := by grind
  exact ⟨_,_,congrArg (Option.map _) linked,by simp,kept.counted queues perm⟩
/-- A new length of a segment that is a member, with the sum of its packet changed by the difference. -/
theorem Kept.resized (control : SegControl) {n : BitVec 32} (number : n = (mem.pkt pkt).n_segs) : Kept {mem with
      seg := update mem.seg seg control
      pkt := update mem.pkt pkt ⟨n,(mem.pkt pkt).segs_len-(mem.seg seg).data_len+control.data_len⟩} segs pkts where
  segQueues := kept.segQueues
  pktQueues := kept.pktQueues
  n_segs pkt' := by grind [n_segs]
  segs_len pkt' := by
    have lengths : ({mem with seg := update mem.seg seg control} : Memory).dataLen = update mem.dataLen seg control.data_len := by
      funext other
      show (update mem.seg seg control other).data_len = _
      by_cases same : other = seg
      · rw [same,update_self,update_self]
      · rw [update_of_ne same,update_of_ne same]
        rfl
    show (update mem.pkt pkt _ pkt').segs_len = ((segs pkt').map ({mem with seg := update mem.seg seg control} : Memory).dataLen).sum
    rw [lengths]
    by_cases same : pkt' = pkt
    · rw [same,update_self,sum_update (kept.segQueues.holds pkt).distinct member,← kept.segs_len]
      rfl
    · have apart : seg ∉ segs pkt' := fun member' => kept.segQueues.apart pkt' pkt same member' member
      have others : (segs pkt').map (update mem.dataLen seg control.data_len) = (segs pkt').map mem.dataLen :=
        map_congr_left fun other inside => update_of_ne (fun eq : other = seg => apart (eq ▸ inside)) ..
      rw [update_of_ne same,others,kept.segs_len]
  n_pkts := kept.n_pkts
theorem Kept.put_seg_data {ptr : Nat} {len : BitVec 64}
    (result : tad_pkt_put_seg_data mem pkt seg ptr len = some mem') : Kept mem' segs pkts := by
  rw [tad_pkt_put_seg_data] at result
  split_ifs at result
  obtain rfl := some.inj result
  exact kept.resized member ⟨ptr,len,false,TE_PROTO_INVALID⟩ rfl
theorem Kept.set_seg_data_len (new_len : BitVec 64) : Kept (tad_pkt_set_seg_data_len mem pkt seg new_len) segs pkts := by
  have resized := kept.resized member {mem.seg seg with data_len := new_len} rfl
  rw [tad_pkt_set_seg_data_len]
  simp only [update_self]
  exact resized
end
/-- A packet without segments. -/
theorem Kept.init_segs (queues : Queues q mem.nextSeg (update segs pkt xs)) :
    Kept (tad_pkt_init_segs {mem with segLinks := q} pkt) (update segs pkt []) pkts where
  segQueues := by
    have emptied := queues.init pkt
    rwa [update_idem] at emptied
  pktQueues := kept.pktQueues
  n_segs pkt' := by
    show (update mem.pkt pkt _ pkt').n_segs = _
    by_cases same : pkt' = pkt
    · simp [same]
    · rw [update_of_ne same,update_of_ne same,kept.n_segs]
  segs_len pkt' := by
    show (update mem.pkt pkt _ pkt').segs_len = _
    by_cases same : pkt' = pkt
    · simp [same]
    · rw [update_of_ne same,update_of_ne same]
      exact kept.segs_len pkt'
  n_pkts := kept.n_pkts

end

section
variable {mem mem' : Memory} {fuel head : Nat} {xs : List Nat}

/-- What the body keeps under an element that it gets, the loop keeps. -/
theorem forEach_keeps {σ : Type} {step : Memory → Nat → Place} {end' p : Place} {func : Memory → Nat → σ → Option (Memory × σ)} {opaque' opaque'' : σ}
    {I : Memory → σ → Prop} (body : ∀ mem elm opaque' mem' opaque'', I mem opaque' → func mem elm opaque' = some (mem',opaque'') → I mem' opaque'')
    (holds : I mem opaque') (result : forEach step end' func fuel mem p opaque' = some (mem',opaque'')) : I mem' opaque'' := by
  induction fuel generalizing mem p opaque' with
  | zero => cases result
  | succ fuel ih =>
    rw [forEach] at result
    split_ifs at result
    · grind
    · obtain ⟨elm,_,result⟩ := of_bind result
      obtain ⟨⟨mem1,opaque1⟩,done,result⟩ := of_bind result
      exact ih (body _ _ _ _ _ holds done) result
/-- The elements are removed from the last one on. -/
theorem drainLoop_spec {body : Memory → Circleq → Nat → Option Memory} {links : Memory → Circleq} {I : Memory → List Nat → Prop}
    (more : ∀ mem as p, I mem (as ++ [p]) → CIRCLEQ_LAST (links mem) head = .elem p ∧
      ∃ q mem', CIRCLEQ_REMOVE (links mem) head p = some q ∧ body mem q p = some mem' ∧ I mem' as)
    (empty : ∀ mem, I mem [] → CIRCLEQ_LAST (links mem) head = CIRCLEQ_END head)
    (holds : I mem xs) (enough : xs.length < fuel) : ∃ mem', drainLoop head body links fuel mem = some mem' ∧ I mem' [] := by
  induction xs using List.reverseRecOn generalizing mem fuel with
  | nil =>
    obtain ⟨fuel,rfl⟩ := succ_of_lt enough
    refine ⟨mem,?_,holds⟩
    rw [drainLoop]
    exact if_pos (empty mem holds)
  | append_singleton as p ih =>
    obtain ⟨fuel,rfl⟩ := succ_of_lt enough
    obtain ⟨last,q,mem1,removed,done,holds1⟩ := more mem as p holds
    obtain ⟨mem2,result,holds2⟩ := @ih mem1 fuel holds1 (by rw [length_append,length_singleton] at enough; omega)
    refine ⟨mem2,?_,holds2⟩
    rw [drainLoop,last,if_neg (fun same => by cases same),← result]
    show (CIRCLEQ_REMOVE (links mem) head p).bind _ = _
    rw [removed]
    show (body mem q p).bind _ = _
    rw [done]
    rfl

end

section
variable {mem mem' : Memory} {segs pkts : Nat → List Nat} {pkt seg list : Nat} {q : Circleq} {xs : List Nat}

theorem Kept.free_segs (kept : Kept mem segs pkts) (pkt : Nat) :
    ∃ mem', tad_pkt_free_segs mem pkt = some mem' ∧ Kept mem' (update segs pkt []) pkts := by
  have drained := @drainLoop_spec mem (mem.nextSeg+1) pkt (segs pkt) (fun mem q _ => some {mem with segLinks := q}) Memory.segLinks
    (fun mem' xs => ∃ q, mem' = {mem with segLinks := q} ∧ Queues q mem.nextSeg (update segs pkt xs)) ?_ ?_ ?_
    (lt_succ_of_le (kept.segQueues.length_le pkt))
  · obtain ⟨_,result,q,rfl,queues⟩ := drained
    exact ⟨_,congrArg (Option.map _) result,kept.init_segs queues⟩
  · rintro _ as p ⟨q,rfl,queues⟩
    have holds := queues.holds pkt
    rw [update_self] at holds
    obtain ⟨q',removed,queues'⟩ := @Queues.remove q mem.nextSeg pkt p (update segs pkt (as ++ [p])) as [] queues (update_self ..)
    rw [update_idem,append_nil] at queues'
    exact ⟨holds.last,q',_,removed,rfl,q',rfl,queues'⟩
  · rintro _ ⟨q,rfl,queues⟩
    have holds := queues.holds pkt
    rw [update_self] at holds
    exact holds.last_iff.mpr rfl
  · exact ⟨mem.segLinks,rfl,by rw [update_eq_self]; exact kept.segQueues⟩
theorem Kept.realloc_segs (kept : Kept mem segs pkts) (pkt : Nat) (new_len : BitVec 64) :
    ∃ mem' segs', tad_pkt_realloc_segs mem pkt new_len = some mem' ∧ Kept mem' segs' pkts := by
  obtain ⟨mem1,freed,kept1⟩ := kept.free_segs pkt
  cases allocated : tad_pkt_alloc_seg mem1 NULL new_len with
  | mk seg mem2 =>
    obtain ⟨kept2,spare,used⟩ := kept1.alloc_seg allocated
    obtain ⟨mem3,appended,kept3⟩ := kept2.append_seg spare used pkt
    refine ⟨mem3,_,?_,kept3⟩
    rw [tad_pkt_realloc_segs,freed]
    show tad_pkt_append_seg (tad_pkt_alloc_seg mem1 NULL new_len).2 pkt (tad_pkt_alloc_seg mem1 NULL new_len).1 = _
    rw [allocated,appended]

/-- The list of packets of one head and its number are changed. -/
theorem Kept.listed (kept : Kept mem segs pkts) (queues : Queues q mem.nextPkt (update pkts list xs)) {n : BitVec 32} (number : n = .ofNat 32 xs.length) :
    Kept {mem with pktLinks := q,n_pkts := update mem.n_pkts list n} segs (update pkts list xs) where
  segQueues := kept.segQueues
  pktQueues := queues
  n_segs := kept.n_segs
  segs_len := kept.segs_len
  n_pkts list' := by
    show update mem.n_pkts list n list' = _
    by_cases same : list' = list
    · rw [same,update_self,update_self,number]
    · rw [update_of_ne same,update_of_ne same,kept.n_pkts]
theorem Kept.add_one (kept : Kept mem segs pkts) (spare : ∀ list, pkt ∉ pkts list) (used : pkt < mem.nextPkt) (list : Nat) :
    ∃ mem', tad_pkts_add_one mem list pkt = some mem' ∧ Kept mem' segs (update pkts list (pkts list ++ [pkt])) := by
  obtain ⟨q,linked,queues⟩ := kept.pktQueues.insert_tail spare used list
  refine ⟨_,congrArg (Option.map _) linked,kept.listed queues ?_⟩
  rw [kept.n_pkts,length_append,BitVec.ofNat_add]
  rfl
theorem Kept.unlisted {as bs : List Nat} (kept : Kept mem segs pkts) (place : pkts list = as ++ pkt :: bs) :
    ∃ q, CIRCLEQ_REMOVE mem.pktLinks list pkt = some q ∧
      Kept {mem with pktLinks := q,n_pkts := update mem.n_pkts list (mem.n_pkts list-1)} segs (update pkts list (as ++ bs)) := by
  obtain ⟨q,removed,queues⟩ := kept.pktQueues.remove place
  refine ⟨q,removed,kept.listed queues ?_⟩
  have length : (pkts list).length = (as ++ bs).length+1 := by
    rw [place]
    simp only [length_append,length_cons]
    omega
  rw [kept.n_pkts,length,BitVec.ofNat_add]
  exact add_sub_cancel_right (BitVec.ofNat 32 _) 1
theorem Kept.del_one (kept : Kept mem segs pkts) (member : pkt ∈ pkts list) :
    ∃ mem' xs, tad_pkts_del_one mem list pkt = some mem' ∧ Kept mem' segs (update pkts list xs) := by
  obtain ⟨as,bs,place⟩ := append_of_mem member
  obtain ⟨q,removed,kept'⟩ := kept.unlisted place
  exact ⟨_,_,congrArg (Option.map _) removed,kept'⟩
theorem Kept.pkts_init (kept : Kept mem segs pkts) (list : Nat) : Kept (tad_pkts_init mem list) segs (update pkts list []) :=
  kept.listed (kept.pktQueues.init list) rfl
/-- All packets of a list are removed from it, and lose their segments. -/
theorem Kept.free_pkts (kept : Kept mem segs pkts) (list : Nat) :
    ∃ mem' segs', tad_free_pkts mem list = some mem' ∧ Kept mem' segs' (update pkts list []) := by
  have drained := @drainLoop_spec mem (mem.nextPkt+1) list (pkts list)
    (fun mem q p => tad_pkt_free {mem with pktLinks := q,n_pkts := update mem.n_pkts list (mem.n_pkts list-1)} p) Memory.pktLinks
    (fun mem' xs => ∃ segs', Kept mem' segs' (update pkts list xs)) ?_ ?_ ?_ (lt_succ_of_le (kept.pktQueues.length_le list))
  · obtain ⟨mem',result,segs',kept'⟩ := drained
    have emptied := kept'.pkts_init list
    rw [update_idem] at emptied
    exact ⟨_,segs',congrArg (Option.map _) result,emptied⟩
  · rintro mem' as p ⟨segs',kept'⟩
    have holds := kept'.pktQueues.holds list
    rw [update_self] at holds
    obtain ⟨q,removed,kept1⟩ := @Kept.unlisted mem' segs' (update pkts list (as ++ [p])) p list as [] kept' (update_self ..)
    obtain ⟨mem2,freed,kept2⟩ := kept1.free_segs p
    rw [update_idem,append_nil] at kept2
    exact ⟨holds.last,q,mem2,removed,freed,_,kept2⟩
  · rintro mem' ⟨segs',kept'⟩
    have holds := kept'.pktQueues.holds list
    rw [update_self] at holds
    exact holds.last_iff.mpr rfl
  · exact ⟨segs,by rw [update_eq_self]; exact kept⟩
theorem Kept.cleanup_pkts (kept : Kept mem segs pkts) (result : tad_cleanup_pkts mem list = some mem') : ∃ segs', Kept mem' segs' pkts := by
  obtain ⟨⟨mem1,_⟩,loop,rfl⟩ := of_map result
  refine @forEach_keeps _ _ _ _ _ _ _ _ _ _ (fun mem _ => ∃ segs, Kept mem segs pkts) ?_ ⟨segs,kept⟩ loop
  rintro mem p _ mem' _ ⟨segs,kept⟩ done
  obtain ⟨mem2,freed,same⟩ := of_map done
  obtain ⟨mem3,freed',kept'⟩ := kept.free_segs p
  obtain rfl := some.inj (freed.symm.trans freed')
  obtain ⟨rfl,_⟩ := Prod.mk.inj same
  exact ⟨_,kept'⟩
theorem Kept.add_new_seg (kept : Kept mem segs pkts) {header : Bool} {data_ptr : Nat} {data_len : BitVec 64}
    (result : tad_pkts_add_new_seg mem list header data_ptr data_len = some mem') : ∃ segs', Kept mem' segs' pkts := by
  obtain ⟨⟨mem1,_⟩,loop,rfl⟩ := of_map result
  refine @forEach_keeps _ _ _ _ _ _ _ _ _ _ (fun mem _ => ∃ segs, Kept mem segs pkts) ?_ ⟨segs,kept⟩ loop
  rintro mem pkt _ mem' _ ⟨segs,kept⟩ done
  cases allocated : tad_pkt_alloc_seg mem data_ptr data_len with
  | mk seg mem1 =>
    rw [allocated] at done
    obtain ⟨kept1,spare,used⟩ := kept.alloc_seg allocated
    obtain ⟨mem2,placed,same⟩ := of_map done
    obtain ⟨rfl,_⟩ := Prod.mk.inj same
    cases header with
    | true =>
      obtain ⟨mem3,prepended,kept'⟩ := kept1.prepend_seg spare used pkt
      obtain rfl := some.inj (prepended.symm.trans placed)
      exact ⟨_,kept'⟩
    | false =>
      obtain ⟨mem3,appended,kept'⟩ := kept1.append_seg spare used pkt
      obtain rfl := some.inj (appended.symm.trans placed)
      exact ⟨_,kept'⟩
theorem Kept.allocSegs (kept : Kept mem segs pkts) (pkt : Nat) (first_seg_len : BitVec 64) (n : Nat) :
    ∃ mem' segs', InMemory.allocSegs pkt first_seg_len n mem = some mem' ∧ mem'.nextPkt = mem.nextPkt ∧ Kept mem' segs' pkts := by
  induction n generalizing mem segs first_seg_len with
  | zero => exact ⟨mem,segs,rfl,rfl,kept⟩
  | succ n ih =>
    obtain ⟨control,top,allocated⟩ := alloc_seg_eq mem NULL first_seg_len
    obtain ⟨kept1,spare,used⟩ := kept.alloc_seg allocated
    obtain ⟨q,linked,queues⟩ := kept1.segQueues.insert_tail spare used pkt
    obtain ⟨mem3,segs3,result,next,kept3⟩ := ih (kept1.counted queues (List.perm_append_singleton _ _)) 0
    refine ⟨mem3,segs3,?_,next,kept3⟩
    rw [InMemory.allocSegs,allocated,← result]
    exact congrArg (Option.bind · _) (congrArg (Option.map _) linked)
/-- A new packet is in no list. -/
theorem Kept.alloc (kept : Kept mem segs pkts) (n_segs : BitVec 32) (first_seg_len : BitVec 64) :
    ∃ mem' segs', tad_pkt_alloc mem n_segs first_seg_len = some (mem.nextPkt,mem') ∧ mem'.nextPkt = mem.nextPkt+1 ∧ Kept mem' segs' pkts := by
  have kept1 : Kept {mem with nextPkt := mem.nextPkt+1} segs pkts := kept.congr rfl rfl rfl rfl le_rfl (le_succ _) fun _ _ => rfl
  have kept2 := @Kept.init_segs _ segs pkts mem.nextPkt mem.segLinks (segs mem.nextPkt) kept1 (by rw [update_eq_self]; exact kept.segQueues)
  obtain ⟨mem',segs',result,next,kept'⟩ := kept2.allocSegs mem.nextPkt first_seg_len n_segs.toNat
  exact ⟨mem',segs',congrArg (Option.bind · _) result,next,kept'⟩
theorem Kept.allocPkts (kept : Kept mem segs pkts) (list : Nat) (n_segs : BitVec 32) (first_seg_len : BitVec 64) (n : Nat) :
    ∃ mem' segs' xs, InMemory.allocPkts list n_segs first_seg_len n mem = some mem' ∧ Kept mem' segs' (update pkts list xs) := by
  induction n generalizing mem segs pkts with
  | zero => exact ⟨mem,segs,pkts list,rfl,by rw [update_eq_self]; exact kept⟩
  | succ n ih =>
    obtain ⟨mem1,segs1,allocated,next,kept1⟩ := kept.alloc n_segs first_seg_len
    have spare : ∀ list, mem.nextPkt ∉ pkts list := fun list member => lt_irrefl _ (kept.pktQueues.used list _ member)
    obtain ⟨mem2,added,kept2⟩ := kept1.add_one spare (by omega) list
    obtain ⟨mem3,segs3,xs,result,kept3⟩ := ih kept2
    rw [update_idem] at kept3
    refine ⟨mem3,segs3,xs,?_,kept3⟩
    rw [InMemory.allocPkts,allocated,← result]
    exact congrArg (Option.bind · _) added

end

section
variable {q : Circleq} {n dst src : Nat} {members : Nat → List Nat}

/-- The elements of one queue move to the end of another one. -/
theorem Queues.move (queues : Queues q n members) (other : dst ≠ src) (some' : members src ≠ []) :
    ∃ q', moveLinks q dst src = some q' ∧
      Queues (CIRCLEQ_INIT q' src) n (update (update members dst (members dst ++ members src)) src []) := by
  obtain ⟨y,ys,first⟩ := exists_cons_of_ne_nil some'
  obtain ⟨front,w,last⟩ := eq_nil_or_concat (members src) |>.resolve_left some'
  rw [concat_eq_append] at last
  have first' : q.cqh_first src = .elem y := (first ▸ queues.holds src).first
  have last' : q.cqh_last src = .elem w := (last ▸ queues.holds src).last
  have y_src : y ∈ members src := first ▸ mem_cons_self
  have w_src : w ∈ members src := last ▸ mem_append_right _ (mem_singleton_self w)
  have apart := queues.apart dst src other
  obtain ⟨pre,seam⟩ := (queues.holds dst).tail_seam
  obtain ⟨x,at_x⟩ : ∃ x, q.prev (.head dst) = x := ⟨_,rfl⟩
  rw [at_x] at seam
  have x_dst : x ∈ Place.head dst :: (members dst).map .elem := by simpa using seam.x_place
  have elem_x : ∀ e ∈ members src, Place.elem e ≠ x := fun e member same => apart (elem_mem.mp (same ▸ x_dst)) member
  obtain ⟨q3,written,next3,prev3⟩ := @setFirstOr_place ((q.setNext w (.head dst)).setPrev y x) dst (.elem y) x (place_kind x_dst)
    (q.cqh_first dst = .head dst) (by rw [decide_eq_true_iff,← at_x]; exact (queues.holds dst).first_iff.trans (queues.holds dst).last_iff.symm)
  rw [next_setPrev,next_setNext] at next3
  rw [prev_setPrev,prev_setNext] at prev3
  have moved : moveLinks q dst src = some (q3.setLast dst (.elem w)) := by
    have step1 : q.setNextAt (CIRCLEQ_LAST q src) (.head dst) = some (q.setNext w (.head dst)) := by
      rw [CIRCLEQ_LAST,last']
      rfl
    have step2 : (q.setNext w (.head dst)).setPrevAt (q.cqh_first src) (q.cqh_last dst) = some ((q.setNext w (.head dst)).setPrev y x) := by
      rw [first',show q.cqh_last dst = x from at_x]
      rfl
    have step3 : ((q.setNext w (.head dst)).setPrev y x).setFirstOr (q.cqh_first dst = .head dst) dst (q.cqh_last dst) (q.cqh_first src) = some q3 := by
      rw [first',show q.cqh_last dst = x from at_x,written]
    have step4 : q3.cqh_last src = .elem w := by
      show q3.prev (.head src) = _
      rw [prev3,update_of_ne (by simp)]
      exact last'
    rw [moveLinks,step1]
    exact (congrArg (Option.bind · _) step2).trans ((congrArg (Option.bind · _) step3).trans (congrArg (fun p => some (q3.setLast dst p)) step4))
  refine ⟨_,moved,?_⟩
  -- the source is emptied first, and then the destination changes
  have next5 : (CIRCLEQ_INIT (q3.setLast dst (.elem w)) src).next =
      update (update (update q.next (.elem w) (.head dst)) x (.elem y)) (.head src) (.head src) := by
    rw [CIRCLEQ_INIT,next_setLast,next_setFirst,next_setLast,next3]
    rfl
  have prev5 : (CIRCLEQ_INIT (q3.setLast dst (.elem w)) src).prev =
      update (update (update q.prev (.elem y) x) (.head dst) (.elem w)) (.head src) (.head src) := by
    rw [CIRCLEQ_INIT,prev_setLast,prev_setFirst,prev_setLast,prev3]
    rfl
  have head_src : Place.head dst ≠ Place.head src := fun same => other (Place.head.inj same)
  have x_src : x ≠ .head src := by grind
  have distinct : (members dst ++ members src).Nodup :=
    List.nodup_append'.mpr ⟨(queues.holds dst).distinct,(queues.holds src).distinct,apart⟩
  rw [update_comm other]
  refine @Queues.change _ _ n dst _ _ (members dst ++ members src) (queues.init src) ⟨distinct,?_⟩ (fun p other' apart' => ?_) (fun e member => ?_) fun e member => ?_
  · rw [map_append]
    refine (queues.holds dst).ring.join (queues.holds src).ring (x := x) (y := .elem y) (w := .elem w) ?_ ?_ ?_ ?_ (fun a member => ?_) (fun a member => ?_) ⟨?_,?_⟩ ⟨?_,?_⟩
    · rw [← map_append]
      exact places_nodup distinct
    · rw [seam.front,getLast?_concat]
    · rw [first]
      rfl
    · simp [last]
    · have a_src : a ≠ .head src := by grind
      have a_elem : ∀ e ∈ members src, a ≠ .elem e := fun e theirs same => apart (elem_mem.mp (same ▸ member)) theirs
      rw [next5,prev5]
      refine ⟨fun a_x => ?_,fun a_dst => ?_⟩
      · rw [update_of_ne a_src,update_of_ne a_x,update_of_ne (a_elem w w_src)]
      · rw [update_of_ne a_src,update_of_ne a_dst,update_of_ne (a_elem y y_src)]
    · obtain ⟨e,mine,rfl⟩ := mem_map.mp member
      rw [next5,prev5]
      refine ⟨fun e_w => ?_,fun e_y => ?_⟩
      · rw [update_of_ne (by simp),update_of_ne (elem_x e mine),update_of_ne e_w]
      · rw [update_of_ne (by simp),update_of_ne (by simp),update_of_ne e_y]
    · rw [next5,update_of_ne x_src,update_self]
    · rw [prev5,update_of_ne (by simp),update_of_ne (by simp),update_self]
    · simp [next5,elem_x,w_src]
    · rw [prev5,update_of_ne head_src,update_self]
  · rw [next5,prev5,CIRCLEQ_INIT,next_setLast,next_setFirst,prev_setLast,prev_setFirst]
    by_cases at_src : p = .head src
    · rw [at_src,update_self,update_self,CIRCLEQ_END,update_self,update_self]
      exact ⟨rfl,rfl⟩
    · grind
  · rw [mem_append,or_self] at member
    rcases mem_append.mp member with mine | theirs
    · exact .inl (by rwa [update_of_ne other])
    · refine .inr fun head' inside => ?_
      by_cases at_src : head' = src
      · rw [at_src,update_self] at inside
        cases inside
      · rw [update_of_ne at_src] at inside
        exact queues.apart head' src at_src inside theirs
  · exact (mem_append.mp member).elim (queues.used dst e) (queues.used src e)

end

section
variable {mem mem' : Memory} {segs pkts : Nat → List Nat} {pkt seg list dst src dst_seg : Nat}

variable (kept : Kept mem segs pkts)
include kept
theorem Kept.move (other : dst ≠ src) : ∃ mem' pkts', tad_pkts_move mem dst src = some mem' ∧ Kept mem' segs pkts' := by
  rw [tad_pkts_move]
  by_cases empty : CIRCLEQ_EMPTY mem.pktLinks src
  · exact ⟨mem,pkts,if_pos empty,kept⟩
  · have some' : pkts src ≠ [] := fun none' => empty (decide_eq_true ((kept.pktQueues.holds src).first_iff.mpr none'))
    obtain ⟨q,moved,queues⟩ := Queues.move kept.pktQueues other some'
    rw [if_neg empty,moved]
    refine ⟨_,_,rfl,⟨kept.segQueues,queues,kept.n_segs,kept.segs_len,fun list => ?_⟩⟩
    show update (update mem.n_pkts dst _) src 0 list = _
    by_cases at_src : list = src
    · simp [at_src]
    · rw [update_of_ne at_src,update_of_ne at_src]
      by_cases at_dst : list = dst
      · simp [at_dst,kept.n_pkts,BitVec.ofNat_add]
      · rw [update_of_ne at_dst,update_of_ne at_dst,kept.n_pkts]
theorem Kept.copyTags (seg dst_seg : Nat) : Kept (InMemory.copyTags mem seg dst_seg) segs pkts := by
  refine kept.congr rfl rfl rfl rfl le_rfl le_rfl fun other _ => ?_
  show (update mem.seg dst_seg _ other).data_len = (mem.seg other).data_len
  by_cases same : other = dst_seg
  · rw [same,update_self]
  · rw [update_of_ne same]
theorem Kept.get_frag_cb {data data' : TadPktGetFragCbData} (result : tad_pkt_get_frag_cb mem seg data = some (mem',data')) :
    ∃ segs', Kept mem' segs' pkts := by
  rw [tad_pkt_get_frag_cb] at result
  simp only at result
  by_cases overlap : data.seg_off < data.frag_end ∧ data.frag_off < data.seg_off+(mem.seg seg).data_len
  · rw [if_pos overlap] at result
    generalize allocated : tad_pkt_alloc_seg mem _ _ = new at result
    obtain ⟨kept1,spare,used⟩ := kept.alloc_seg (allocated : _ = (new.1,new.2))
    obtain ⟨mem2,appended,kept2⟩ := kept1.append_seg spare used data.dst
    rw [appended] at result
    obtain ⟨same,_⟩ := of_pair result
    rw [← same]
    cases data.preserve_layer_tags with
    | true => exact ⟨_,kept2.copyTags seg new.1⟩
    | false => exact ⟨_,kept2⟩
  · grind
theorem Kept.get_frag {frag_off frag_len : BitVec 64} {mode : TadPktGetFragMode} {status : GetFragStatus}
    (result : tad_pkt_get_frag mem dst src frag_off frag_len mode = some (status,mem')) : ∃ segs', Kept mem' segs' pkts := by
  rw [tad_pkt_get_frag] at result
  simp only at result
  by_cases refused : 0 < ((frag_off+frag_len-tad_pkt_len mem src).setWidth 32).toInt ∧ mode = .ERROR
  · grind
  · rw [if_neg refused] at result
    obtain ⟨⟨mem1,data⟩,loop,result⟩ := of_bind result
    obtain ⟨segs1,kept1⟩ : ∃ segs, Kept mem1 segs pkts := by
      refine @forEach_keeps _ _ _ _ _ _ _ _ _ _ (fun mem _ => ∃ segs, Kept mem segs pkts) ?_ ⟨segs,kept⟩ loop
      rintro mem seg data mem' data' ⟨segs,kept⟩ done
      exact kept.get_frag_cb done
    simp only at result
    generalize (if 0 < ((frag_off+frag_len-tad_pkt_len mem src).setWidth 32).toInt ∧ mode = .TRUNC then (0 : Int)
      else min ((frag_off+frag_len-tad_pkt_len mem src).setWidth 32).toInt frag_len.toNat) = missing at result
    by_cases some' : 0 < missing
    · rw [if_pos some'] at result
      generalize allocated : tad_pkt_alloc_seg mem1 _ _ = new at result
      obtain ⟨kept2,spare,used⟩ := kept1.alloc_seg (allocated : _ = (new.1,new.2))
      obtain ⟨mem3,appended,kept3⟩ := kept2.append_seg spare used dst
      rw [appended] at result
      obtain ⟨_,rfl⟩ := of_pair result
      exact ⟨_,kept3⟩
    · grind
/-- The segment for data stays a member of the fragment, which new segments are put behind. -/
theorem Kept.fragmentLoop {fuel : Nat} {dst_rest : BitVec 64} {data data' : TadPktFragmentCbData}
    (member : dst_seg ∈ segs pkt) (result : InMemory.fragmentLoop pkt fuel mem dst_seg dst_rest data = some (mem',data')) :
    ∃ segs', Kept mem' segs' pkts := by
  induction fuel generalizing mem segs dst_seg dst_rest data with
  | zero => cases result
  | succ fuel ih =>
    rw [InMemory.fragmentLoop] at result
    obtain ⟨data1,_,result⟩ := of_bind result
    obtain ⟨mem1,put,result⟩ := of_bind result
    have kept1 := kept.put_seg_data member put
    simp only at result
    split_ifs at result
    · grind
    · generalize allocated : tad_pkt_alloc_seg mem1 NULL 0 = new at result
      obtain ⟨kept2,spare,used⟩ := kept1.alloc_seg (allocated : _ = (new.1,new.2))
      obtain ⟨mem3,inserted,result⟩ := of_bind result
      obtain ⟨mem4,xs,inserted',member',kept4⟩ := kept2.insert_after_seg member spare used
      obtain rfl := some.inj (inserted.symm.trans inserted')
      exact ih kept4 (by rwa [update_self]) result
theorem Kept.firstDataSeg {skip : Bool} (result : InMemory.firstDataSeg mem pkt skip = some dst_seg) : dst_seg ∈ segs pkt := by
  obtain ⟨first,at_first,result⟩ := of_bind result
  have member := (kept.segQueues.holds pkt).first_mem (elem?_eq_some.mp at_first)
  cases skip with
  | false =>
    obtain rfl := some.inj result
    exact member
  | true => exact (kept.segQueues.holds pkt).next_mem member (elem?_eq_some.mp result)
theorem Kept.fragment {frag_data_len : BitVec 64} {add_seg_len : Option (BitVec 64)} {header : Bool} {status : FragmentStatus}
    (used : list < mem.nextPkts)
    (result : tad_pkt_fragment mem pkt frag_data_len add_seg_len header list = some (status,mem')) : ∃ segs' pkts', Kept mem' segs' pkts' := by
  rw [tad_pkt_fragment] at result
  simp only at result
  by_cases nothing : frag_data_len = 0
  · grind
  rw [if_neg nothing] at result
  by_cases empty : tad_pkt_len mem pkt = 0
  · grind
  rw [if_neg empty] at result
  by_cases none' : tad_pkt_seg_num mem pkt = 0
  · rw [if_pos none'] at result
    cases result
  rw [if_neg none'] at result
  obtain ⟨mem2,allocated,result⟩ := of_bind result
  obtain ⟨⟨mem3,data⟩,loop,result⟩ := of_bind result
  obtain ⟨mem4,moved,same⟩ := of_map result
  obtain ⟨_,rfl⟩ := Prod.mk.inj same
  have kept1 := Kept.pkts_init (kept.congr rfl rfl rfl rfl le_rfl le_rfl (fun _ _ => rfl) :
    Kept {mem with nextPkts := mem.nextPkts+1} segs pkts) mem.nextPkts
  generalize (if add_seg_len.isSome then (2 : BitVec 32) else 1) = n_segs at allocated
  rw [tad_pkts_alloc] at allocated
  split_ifs at allocated
  obtain ⟨mem2',segs2,xs,allocated',kept2⟩ := kept1.allocPkts mem.nextPkts n_segs (add_seg_len.getD 0)
    ((tad_pkt_len mem pkt+frag_data_len-1)/frag_data_len |>.setWidth 32).toNat
  obtain rfl := some.inj (allocated.symm.trans allocated')
  obtain ⟨segs3,kept3⟩ : ∃ segs, Kept mem3 segs _ := by
    refine @forEach_keeps _ _ _ _ _ _ _ _ _ _ (fun mem _ => ∃ segs, Kept mem segs _) ?_ ⟨segs2,kept2⟩ loop
    rintro mem pkt data mem' data' ⟨segs,kept⟩ done
    obtain ⟨dst_seg,first,done⟩ := of_bind done
    split_ifs at done
    exact kept.fragmentLoop (kept.firstDataSeg first) done
  obtain ⟨mem5,pkts',moved',kept5⟩ := kept3.move (show list ≠ mem.nextPkts from ne_of_lt used)
  obtain rfl := some.inj (moved.symm.trans moved')
  exact ⟨segs3,pkts',kept5⟩

end

section

/-- The operations on packets and lists of packets. -/
inductive Op
  | tad_pkt_alloc_seg (data_ptr : Nat) (data_len : BitVec 64)
  | tad_pkt_alloc (n_segs : BitVec 32) (first_seg_len : BitVec 64)
  | tad_pkt_append_seg (pkt seg : Nat)
  | tad_pkt_prepend_seg (pkt seg : Nat)
  | tad_pkt_insert_after_seg (pkt seg new_seg : Nat)
  | tad_pkt_put_seg_data (pkt seg ptr : Nat) (len : BitVec 64)
  | tad_pkt_set_seg_data_len (pkt seg : Nat) (new_len : BitVec 64)
  | tad_pkt_fragment (pkt : Nat) (frag_data_len : BitVec 64) (add_seg_len : Option (BitVec 64)) (header : Bool) (pkts : Nat)
  | tad_pkt_get_frag (dst src : Nat) (frag_off frag_len : BitVec 64) (mode : TadPktGetFragMode)
  | tad_pkt_init_segs (pkt : Nat)
  | tad_pkt_free_segs (pkt : Nat)
  | tad_pkt_cleanup_segs (pkt : Nat)
  | tad_pkt_realloc_segs (pkt : Nat) (new_len : BitVec 64)
  | tad_pkt_cleanup (pkt : Nat)
  | tad_pkt_free (pkt : Nat)
  | tad_pkts_init
  | tad_pkts_alloc (pkts : Nat) (n_pkts n_segs : BitVec 32) (first_seg_len : BitVec 64)
  | tad_pkts_add_new_seg (pkts : Nat) (header : Bool) (data_ptr : Nat) (data_len : BitVec 64)
  | tad_pkts_add_one (pkts pkt : Nat)
  | tad_pkts_del_one (pkts pkt : Nat)
  | tad_pkts_move (dst src : Nat)
  | tad_cleanup_pkts (pkts : Nat)
  | tad_free_pkts (pkts : Nat)
  deriving DecidableEq, Repr

def Op.run (mem : Memory) : Op → Option Memory
  | .tad_pkt_alloc_seg data_ptr data_len => some (InMemory.tad_pkt_alloc_seg mem data_ptr data_len).2
  | .tad_pkt_alloc n_segs first_seg_len => (InMemory.tad_pkt_alloc mem n_segs first_seg_len).map Prod.snd
  | .tad_pkt_append_seg pkt seg => InMemory.tad_pkt_append_seg mem pkt seg
  | .tad_pkt_prepend_seg pkt seg => InMemory.tad_pkt_prepend_seg mem pkt seg
  | .tad_pkt_insert_after_seg pkt seg new_seg => InMemory.tad_pkt_insert_after_seg mem pkt seg new_seg
  | .tad_pkt_put_seg_data pkt seg ptr len => InMemory.tad_pkt_put_seg_data mem pkt seg ptr len
  | .tad_pkt_set_seg_data_len pkt seg new_len => some (InMemory.tad_pkt_set_seg_data_len mem pkt seg new_len)
  | .tad_pkt_fragment pkt frag_data_len add_seg_len header pkts =>
    (InMemory.tad_pkt_fragment mem pkt frag_data_len add_seg_len header pkts).map Prod.snd
  | .tad_pkt_get_frag dst src frag_off frag_len mode => (InMemory.tad_pkt_get_frag mem dst src frag_off frag_len mode).map Prod.snd
  | .tad_pkt_init_segs pkt => some (InMemory.tad_pkt_init_segs mem pkt)
  | .tad_pkt_free_segs pkt => InMemory.tad_pkt_free_segs mem pkt
  | .tad_pkt_cleanup_segs pkt => InMemory.tad_pkt_cleanup_segs mem pkt
  | .tad_pkt_realloc_segs pkt new_len => InMemory.tad_pkt_realloc_segs mem pkt new_len
  | .tad_pkt_cleanup pkt => InMemory.tad_pkt_cleanup mem pkt
  | .tad_pkt_free pkt => InMemory.tad_pkt_free mem pkt
  | .tad_pkts_init => some (InMemory.tad_pkts_init {mem with nextPkts := mem.nextPkts+1} mem.nextPkts)
  | .tad_pkts_alloc pkts n_pkts n_segs first_seg_len => InMemory.tad_pkts_alloc mem pkts n_pkts n_segs first_seg_len
  | .tad_pkts_add_new_seg pkts header data_ptr data_len => InMemory.tad_pkts_add_new_seg mem pkts header data_ptr data_len
  | .tad_pkts_add_one pkts pkt => InMemory.tad_pkts_add_one mem pkts pkt
  | .tad_pkts_del_one pkts pkt => InMemory.tad_pkts_del_one mem pkts pkt
  | .tad_pkts_move dst src => InMemory.tad_pkts_move mem dst src
  | .tad_cleanup_pkts pkts => InMemory.tad_cleanup_pkts mem pkts
  | .tad_free_pkts pkts => InMemory.tad_free_pkts mem pkts

def Memory.segsOf (mem : Memory) (pkt : Nat) : List Nat := (CIRCLEQ_FOREACH mem.segLinks pkt (mem.nextSeg+1)).getD []
def Memory.pktsOf (mem : Memory) (pkts : Nat) : List Nat := (CIRCLEQ_FOREACH mem.pktLinks pkts (mem.nextPkt+1)).getD []
/-- A segment that may be put into a packet: it is allocated, and in none. -/
def Memory.Spare (mem : Memory) (seg : Nat) : Prop := seg < mem.nextSeg ∧ ∀ pkt, seg ∉ mem.segsOf pkt
/-- What a caller has to see to: elements to be linked in are in no queue, those to be changed or removed are members, and
    a list is not moved to itself. -/
def Proper (mem : Memory) : Op → Prop
  | .tad_pkt_append_seg _ seg => mem.Spare seg
  | .tad_pkt_prepend_seg _ seg => mem.Spare seg
  | .tad_pkt_insert_after_seg pkt seg new_seg => seg ∈ mem.segsOf pkt ∧ mem.Spare new_seg
  | .tad_pkt_put_seg_data pkt seg _ _ => seg ∈ mem.segsOf pkt
  | .tad_pkt_set_seg_data_len pkt seg _ => seg ∈ mem.segsOf pkt
  | .tad_pkt_fragment _ _ _ _ pkts => pkts < mem.nextPkts
  | .tad_pkts_add_one _ pkt => pkt < mem.nextPkt ∧ ∀ pkts, pkt ∉ mem.pktsOf pkts
  | .tad_pkts_del_one pkts pkt => pkt ∈ mem.pktsOf pkts
  | .tad_pkts_move dst src => dst ≠ src
  | _ => True
/-- No segments are dropped by `tad_pkt_cleanup_segs`. -/
def Harmless (mem : Memory) : Op → Prop
  | .tad_pkt_cleanup_segs pkt => mem.segsOf pkt = []
  | _ => True
/-- Nothing is allocated; the heads of all packets and lists are as they are initialised. -/
def Memory.start : Memory where
  segLinks := ⟨.head,.head,fun _ => .head 0,fun _ => .head 0⟩
  pktLinks := ⟨.head,.head,fun _ => .head 0,fun _ => .head 0⟩
  seg _ := ⟨NULL,0,false,TE_PROTO_INVALID⟩
  pkt _ := ⟨0,0⟩
  n_pkts _ := 0
  nextSeg := 0
  nextPkt := 0
  nextPkts := 0
  top := 1
/-- The memories that sequences of operations lead to, where each meets a condition. -/
inductive Reached (condition : Memory → Op → Prop) : Memory → Prop
  | start : Reached condition .start
  | step {mem mem' : Memory} (op : Op) : Reached condition mem → Proper mem op → condition mem op → op.run mem = some mem' → Reached condition mem'
/-- The elements of each queue, in both directions, are as many as the cached number says, and the cached length is their sum. -/
def Bookkept (mem : Memory) : Prop :=
  (∀ pkt, ∃ segs, CIRCLEQ_FOREACH mem.segLinks pkt (mem.nextSeg+1) = some segs ∧
    CIRCLEQ_FOREACH_REVERSE mem.segLinks pkt (mem.nextSeg+1) = some segs.reverse ∧
    (tad_pkt_seg_num mem pkt).toNat = segs.length ∧ (tad_pkt_len mem pkt).toNat = (segs.map fun seg => (mem.dataLen seg).toNat).sum) ∧
  ∀ pkts, ∃ elems, CIRCLEQ_FOREACH mem.pktLinks pkts (mem.nextPkt+1) = some elems ∧
    CIRCLEQ_FOREACH_REVERSE mem.pktLinks pkts (mem.nextPkt+1) = some elems.reverse ∧ (mem.n_pkts pkts).toNat = elems.length
/-- All numbers and lengths are in the ranges of their types. -/
def Fits (mem : Memory) : Prop :=
  (∀ pkt, (mem.segsOf pkt).length < 2^32 ∧ ((mem.segsOf pkt).map fun seg => (mem.dataLen seg).toNat).sum < 2^64) ∧
  ∀ pkts, (mem.pktsOf pkts).length < 2^32

variable {mem mem' : Memory} {segs pkts : Nat → List Nat} {op : Op}

theorem Kept.segsOf (kept : Kept mem segs pkts) (pkt : Nat) : mem.segsOf pkt = segs pkt := by
  rw [Memory.segsOf,(kept.segQueues.holds pkt).foreach (lt_succ_of_le (kept.segQueues.length_le pkt)),getD_some]
theorem Kept.pktsOf (kept : Kept mem segs pkts) (list : Nat) : mem.pktsOf list = pkts list := by
  rw [Memory.pktsOf,(kept.pktQueues.holds list).foreach (lt_succ_of_le (kept.pktQueues.length_le list)),getD_some]
theorem Kept.spare (kept : Kept mem segs pkts) {seg : Nat} (spare : mem.Spare seg) : seg < mem.nextSeg ∧ ∀ pkt, seg ∉ segs pkt :=
  ⟨spare.1,fun pkt => kept.segsOf pkt ▸ spare.2 pkt⟩
theorem start_kept : Kept .start (fun _ => []) fun _ => [] := by
  have queues : Queues ⟨.head,.head,fun _ => .head 0,fun _ => .head 0⟩ 0 fun _ => [] :=
    ⟨fun head => ⟨nodup_nil,ring_nil.mpr ⟨rfl,rfl⟩⟩,fun _ _ _ => List.disjoint_nil_left _,fun _ _ member => absurd member not_mem_nil⟩
  exact ⟨queues,queues,fun _ => rfl,fun _ => rfl,fun _ => rfl⟩
/-- Without segments, nothing is cleaned up. -/
theorem Kept.cleanup_segs (kept : Kept mem segs pkts) {pkt : Nat} (empty : segs pkt = []) (result : tad_pkt_cleanup_segs mem pkt = some mem') :
    Kept mem' segs pkts := by
  have last : CIRCLEQ_LAST mem.segLinks pkt = CIRCLEQ_END pkt := (kept.segQueues.holds pkt).last_iff.mpr empty
  rw [tad_pkt_cleanup_segs,forEach,if_pos last] at result
  obtain rfl := some.inj result
  refine ⟨kept.segQueues,kept.pktQueues,fun pkt' => ?_,fun pkt' => ?_,kept.n_pkts⟩
  · grind [n_segs]
  · show (update mem.pkt pkt _ pkt').segs_len = ((segs pkt').map mem.dataLen).sum
    by_cases same : pkt' = pkt
    · rw [same,update_self,empty]
      rfl
    · rw [update_of_ne same,kept.segs_len]
/-- Every operation keeps the bookkeeping, the clean up only of an empty packet. -/
theorem Kept.step (kept : Kept mem segs pkts) (proper : Proper mem op) (harmless : Harmless mem op) (result : op.run mem = some mem') :
    ∃ segs' pkts', Kept mem' segs' pkts' := by
  cases op with
  | tad_pkt_alloc_seg data_ptr data_len =>
    obtain rfl := some.inj result
    exact ⟨segs,pkts,(kept.alloc_seg (Prod.eta _).symm).1⟩
  | tad_pkt_alloc n_segs first_seg_len =>
    obtain ⟨mem1,segs1,allocated,_,kept1⟩ := kept.alloc n_segs first_seg_len
    obtain ⟨new,allocated',rfl⟩ := of_map result
    obtain rfl := some.inj (allocated.symm.trans allocated')
    exact ⟨segs1,pkts,kept1⟩
  | tad_pkt_append_seg pkt seg =>
    obtain ⟨used,spare⟩ := kept.spare proper
    obtain ⟨mem1,appended,kept1⟩ := kept.append_seg spare used pkt
    obtain rfl := some.inj (appended.symm.trans result)
    exact ⟨_,pkts,kept1⟩
  | tad_pkt_prepend_seg pkt seg =>
    obtain ⟨used,spare⟩ := kept.spare proper
    obtain ⟨mem1,prepended,kept1⟩ := kept.prepend_seg spare used pkt
    obtain rfl := some.inj (prepended.symm.trans result)
    exact ⟨_,pkts,kept1⟩
  | tad_pkt_insert_after_seg pkt seg new_seg =>
    obtain ⟨member,spare⟩ := proper
    obtain ⟨used,spare⟩ := kept.spare spare
    obtain ⟨mem1,xs,inserted,_,kept1⟩ := kept.insert_after_seg (kept.segsOf pkt ▸ member) spare used
    obtain rfl := some.inj (inserted.symm.trans result)
    exact ⟨_,pkts,kept1⟩
  | tad_pkt_put_seg_data pkt seg ptr len => exact ⟨segs,pkts,kept.put_seg_data (kept.segsOf pkt ▸ proper) result⟩
  | tad_pkt_set_seg_data_len pkt seg new_len =>
    obtain rfl := some.inj result
    exact ⟨segs,pkts,kept.set_seg_data_len (kept.segsOf pkt ▸ proper) new_len⟩
  | tad_pkt_fragment pkt frag_data_len add_seg_len header list =>
    obtain ⟨⟨status,_⟩,fragmented,rfl⟩ := of_map result
    exact kept.fragment proper fragmented
  | tad_pkt_get_frag dst src frag_off frag_len mode =>
    obtain ⟨⟨status,_⟩,got,rfl⟩ := of_map result
    obtain ⟨segs1,kept1⟩ := kept.get_frag got
    exact ⟨segs1,pkts,kept1⟩
  | tad_pkt_init_segs pkt =>
    obtain rfl := some.inj result
    exact ⟨_,pkts,@Kept.init_segs mem segs pkts pkt mem.segLinks (segs pkt) kept (by rw [update_eq_self]; exact kept.segQueues)⟩
  | tad_pkt_free_segs pkt | tad_pkt_cleanup pkt | tad_pkt_free pkt =>
    obtain ⟨mem1,freed,kept1⟩ := kept.free_segs pkt
    obtain rfl := some.inj (freed.symm.trans result)
    exact ⟨_,pkts,kept1⟩
  | tad_pkt_cleanup_segs pkt => exact ⟨segs,pkts,kept.cleanup_segs (kept.segsOf pkt ▸ harmless) result⟩
  | tad_pkt_realloc_segs pkt new_len =>
    obtain ⟨mem1,segs1,done,kept1⟩ := kept.realloc_segs pkt new_len
    obtain rfl := some.inj (done.symm.trans result)
    exact ⟨segs1,pkts,kept1⟩
  | tad_pkts_init =>
    obtain rfl := some.inj result
    have kept1 : Kept {mem with nextPkts := mem.nextPkts+1} segs pkts := kept.congr rfl rfl rfl rfl le_rfl le_rfl fun _ _ => rfl
    exact ⟨segs,_,kept1.pkts_init mem.nextPkts⟩
  | tad_pkts_alloc list n_pkts n_segs first_seg_len =>
    obtain ⟨mem1,segs1,xs,allocated,kept1⟩ := kept.allocPkts list n_segs first_seg_len n_pkts.toNat
    rw [Op.run,InMemory.tad_pkts_alloc] at result
    split_ifs at result
    obtain rfl := some.inj (allocated.symm.trans result)
    exact ⟨segs1,_,kept1⟩
  | tad_pkts_add_new_seg list header data_ptr data_len =>
    obtain ⟨segs1,kept1⟩ := kept.add_new_seg result
    exact ⟨segs1,pkts,kept1⟩
  | tad_pkts_add_one list pkt =>
    obtain ⟨mem1,added,kept1⟩ := kept.add_one (fun list => kept.pktsOf list ▸ proper.2 list) proper.1 list
    obtain rfl := some.inj (added.symm.trans result)
    exact ⟨segs,_,kept1⟩
  | tad_pkts_del_one list pkt =>
    obtain ⟨mem1,xs,removed,kept1⟩ := kept.del_one (kept.pktsOf list ▸ show pkt ∈ mem.pktsOf list from proper)
    obtain rfl := some.inj (removed.symm.trans result)
    exact ⟨segs,_,kept1⟩
  | tad_pkts_move dst src =>
    obtain ⟨mem1,pkts1,moved,kept1⟩ := kept.move proper
    obtain rfl := some.inj (moved.symm.trans result)
    exact ⟨segs,pkts1,kept1⟩
  | tad_cleanup_pkts list =>
    obtain ⟨segs1,kept1⟩ := kept.cleanup_pkts result
    exact ⟨segs1,pkts,kept1⟩
  | tad_free_pkts list =>
    obtain ⟨mem1,segs1,freed,kept1⟩ := kept.free_pkts list
    obtain rfl := some.inj (freed.symm.trans result)
    exact ⟨segs1,_,kept1⟩
theorem reached_kept (reached : Reached Harmless mem) : ∃ segs pkts, Kept mem segs pkts := by
  induction reached with
  | start => exact ⟨_,_,start_kept⟩
  | step _ _ proper harmless result ih =>
    obtain ⟨segs,pkts,kept⟩ := ih
    exact kept.step proper harmless result

theorem sum_toNat (xs : List (BitVec 64)) : xs.sum.toNat = (xs.map BitVec.toNat).sum%2^64 := by
  induction xs with
  | nil => rfl
  | cons x xs ih => simp [ih]
/-- In every run in which no segments are dropped by `tad_pkt_cleanup_segs`, the bookkeeping is right as far as the numbers fit
    into their types. -/
theorem bookkeeping (reached : Reached Harmless mem) (fits : Fits mem) : Bookkept mem := by
  obtain ⟨segs,pkts,kept⟩ := reached_kept reached
  refine ⟨fun pkt => ?_,fun list => ?_⟩
  · have holds := kept.segQueues.holds pkt
    have enough := lt_succ_of_le (kept.segQueues.length_le pkt)
    obtain ⟨few,small⟩ := fits.1 pkt
    rw [kept.segsOf] at few small
    refine ⟨segs pkt,holds.foreach enough,holds.foreach_reverse enough,?_,?_⟩
    · rw [tad_pkt_seg_num,kept.n_segs,BitVec.toNat_ofNat,mod_eq_of_lt few]
    · rw [tad_pkt_len,kept.segs_len,sum_toNat,map_map]
      exact mod_eq_of_lt small
  · have holds := kept.pktQueues.holds list
    have enough := lt_succ_of_le (kept.pktQueues.length_le list)
    have few := fits.2 list
    rw [kept.pktsOf] at few
    exact ⟨pkts list,holds.foreach enough,holds.foreach_reverse enough,by rw [kept.n_pkts,BitVec.toNat_ofNat,mod_eq_of_lt few]⟩

/-- A packet that no link of its head leads away from has no segments. -/
theorem segsOf_empty {pkt : Nat} (first : mem.segLinks.cqh_first pkt = .head pkt) : mem.segsOf pkt = [] := by
  rw [Memory.segsOf,CIRCLEQ_FOREACH,CIRCLEQ_FIRST,first,visit]
  exact congrArg (Option.getD · []) (if_pos rfl)
theorem pktsOf_empty {pkts : Nat} (first : mem.pktLinks.cqh_first pkts = .head pkts) : mem.pktsOf pkts = [] := by
  rw [Memory.pktsOf,CIRCLEQ_FOREACH,CIRCLEQ_FIRST,first,visit]
  exact congrArg (Option.getD · []) (if_pos rfl)
theorem fits_empty (segs : ∀ pkt, mem.segLinks.cqh_first pkt = .head pkt ∨
      (mem.segsOf pkt).length < 2^32 ∧ ((mem.segsOf pkt).map fun seg => (mem.dataLen seg).toNat).sum < 2^64)
    (pkts : ∀ list, mem.pktLinks.cqh_first list = .head list) : Fits mem := by
  refine ⟨fun pkt => ?_,fun list => ?_⟩
  · grind [segsOf_empty]
  · rw [pktsOf_empty (pkts list)]
    exact Nat.two_pow_pos 32

theorem bookkeeping_realloc : ∃ mem, Reached Harmless mem ∧ tad_pkt_len mem 0 = 5 ∧ Bookkept mem := by
  obtain ⟨mem1,run1,mem2,run2,len,segs,pkts⟩ : ∃ mem1, (Op.tad_pkt_alloc 2 3).run .start = some mem1 ∧
      ∃ mem2, (Op.tad_pkt_realloc_segs 0 5).run mem1 = some mem2 ∧ tad_pkt_len mem2 0 = 5 ∧
        (∀ pkt, mem2.segLinks.cqh_first pkt = .head pkt ∨
          (mem2.segsOf pkt).length < 2^32 ∧ ((mem2.segsOf pkt).map fun seg => (mem2.dataLen seg).toNat).sum < 2^64) ∧
        ∀ list, mem2.pktLinks.cqh_first list = .head list := by
    refine ⟨_,rfl,_,rfl,rfl,fun pkt => ?_,fun list => rfl⟩
    cases pkt with
    | zero => exact .inr (by decide)
    | succ n => exact .inl rfl
  have first : Reached Harmless mem1 := .step (.tad_pkt_alloc 2 3) .start trivial trivial run1
  have reached : Reached Harmless mem2 := .step (.tad_pkt_realloc_segs 0 5) first trivial trivial run2
  exact ⟨mem2,reached,len,bookkeeping reached (fits_empty segs pkts)⟩
/-- A packet whose segment is cleaned up has none any more, but still one by its number. -/
theorem cleanup_segs_keeps_number : ¬ ∀ mem, Reached (fun _ _ => True) mem → Fits mem → Bookkept mem := by
  intro claim
  obtain ⟨mem1,run1,mem2,run2,number,none',segs,pkts⟩ : ∃ mem1, (Op.tad_pkt_alloc 1 3).run .start = some mem1 ∧
      ∃ mem2, (Op.tad_pkt_cleanup_segs 0).run mem1 = some mem2 ∧ tad_pkt_seg_num mem2 0 = 1 ∧
        CIRCLEQ_FOREACH mem2.segLinks 0 (mem2.nextSeg+1) = some [] ∧ (∀ pkt, mem2.segLinks.cqh_first pkt = .head pkt) ∧
        ∀ list, mem2.pktLinks.cqh_first list = .head list := by
    refine ⟨_,rfl,_,rfl,rfl,rfl,fun pkt => ?_,fun list => rfl⟩
    cases pkt with
    | zero => rfl
    | succ n => rfl
  have first : Reached (fun _ _ => True) mem1 := .step (.tad_pkt_alloc 1 3) .start trivial trivial run1
  have reached : Reached (fun _ _ => True) mem2 := .step (.tad_pkt_cleanup_segs 0) first trivial trivial run2
  obtain ⟨segs0,forward,_,count,_⟩ := (claim mem2 reached (fits_empty (fun pkt => .inl (segs pkt)) pkts)).1 0
  obtain rfl := some.inj (none'.symm.trans forward)
  rw [number] at count
  cases count

end

end TestEnvironment.Tad.InMemory
