import TestEnvironment.Lib.Links
import TestEnvironment.Lib.StableQueue
import TestEnvironment.Lib.Fuel
import TestEnvironment.Tad.SendQueue

/-!
The send queue in memory: entries linked in both directions between the head and the tail
of the queue (`tadf_sendq_entry_insert`, `tadf_sendq_entry_remove`, `tadf_sendq_put_pkt`).
A step that reads or writes an entry that is not allocated has no result. Memory that has
been freed is not given out again. Every call holds the lock of the queue.
-/
namespace TestEnvironment.Tad.Linked
open Lib Function

/-- `sendq_entry_t`; the packet is a block of memory of its own, that is never at NULL. -/
structure SendqNode where
  next : Option Nat
  prev : Option Nat
  pkt : List UInt8
  send_time : Timeval
  deriving DecidableEq
def SendqNode.packet (node : SendqNode) : SendqEntry := ⟨node.pkt,node.send_time⟩
/-- The fields of `sendq_t` and the entries in memory by their addresses, of which those from
    `fresh` on have not been given out. -/
structure SendqMemory where
  entry : Nat → Option SendqNode
  fresh : Nat
  head : Option Nat
  tail : Option Nat
  queue_size_max : Int
  queue_size : Int
/-- Statuses; `unwritten` stands for that of a failed `write`. -/
inductive SendqStatus | ok | ENOBUFS | EWRONGPTR | unwritten
  deriving DecidableEq, Repr

section
variable (m : SendqMemory)

def SendqMemory.setNext (e : Nat) (p : Option Nat) : Option SendqMemory :=
  (m.entry e).map fun node => {m with entry := update m.entry e (some {node with next := p})}
def SendqMemory.setPrev (e : Nat) (p : Option Nat) : Option SendqMemory :=
  (m.entry e).map fun node => {m with entry := update m.entry e (some {node with prev := p})}
def SendqMemory.free (e : Nat) : SendqMemory := {m with entry := update m.entry e none}
/-- The next field of an entry, or the head of the queue. -/
def SendqMemory.setNextOr : Option Nat → Option Nat → Option SendqMemory
  | some e, p => m.setNext e p
  | none, p => some {m with head := p}
def SendqMemory.setPrevOr : Option Nat → Option Nat → Option SendqMemory
  | some e, p => m.setPrev e p
  | none, p => some {m with tail := p}

/-- The loop of `tadf_sendq_entry_insert`. -/
def scan (entry : Nat) : Nat → Option Nat → Option (Option Nat)
  | 0, _ => none
  | _+1, none => some none
  | fuel+1, some current => do
    let mine ← m.entry entry
    let other ← m.entry current
    if timeval_compare mine.send_time other.send_time = -1 then scan entry fuel other.next else some (some current)
def insertHead (entry current : Nat) : Option SendqMemory := do
  let m ← m.setNext entry (some current)
  let m ← m.setPrev current (some entry)
  some {m with head := some entry}
def insertTail (entry : Nat) : Option SendqMemory := do
  let m ← m.setPrev entry m.tail
  let tail ← m.tail
  let m ← m.setNext tail (some entry)
  some {m with tail := some entry}
def insertBefore (entry current : Nat) : Option SendqMemory := do
  let node ← m.entry current
  let before ← node.prev
  let m ← m.setNext before (some entry)
  let node ← m.entry current
  let m ← m.setPrev entry node.prev
  let m ← m.setNext entry (some current)
  m.setPrev current (some entry)
/-- The part of `tadf_sendq_entry_insert` that links the entry in. -/
def link (fuel entry : Nat) : Option Nat → Option SendqMemory
  | none => some {m with head := some entry,tail := some entry}
  | some current => do
    let mine ← m.entry entry
    let first ← m.entry current
    if timeval_compare mine.send_time first.send_time ≥ 0 then insertHead m entry current
    else do
      let found ← scan m entry fuel first.next
      match found with
      | none => insertTail m entry
      | some current => insertBefore m entry current
def tadf_sendq_entry_insert (fuel entry : Nat) : Option (SendqStatus × SendqMemory) :=
  if m.queue_size_max ≤ m.queue_size then some (.ENOBUFS,m)
  else do
    let current := m.head
    let m ← m.setNext entry none
    let m ← m.setPrev entry none
    let m ← link {m with queue_size := m.queue_size+1} fuel entry current
    some (.ok,m)
def tadf_sendq_entry_remove : Option Nat → Option (SendqStatus × SendqMemory)
  | none => some (.EWRONGPTR,m)
  | some entry => do
    let node ← m.entry entry
    let m ← m.setNextOr node.prev node.next
    let node ← m.entry entry
    let m ← m.setPrevOr node.next node.prev
    some (.ok,{m.free entry with queue_size := m.queue_size-1})
/-- The message for the thread, where the entry is the last one; `written` is whether `write` succeeds. -/
def wake (written : Bool) (entry : Nat) : Option (SendqStatus × SendqMemory) := do
  let node ← m.entry entry
  if node.next = none ∧ written = false then some (.unwritten,m.free entry) else some (.ok,m)
def tadf_sendq_put_pkt (fuel : Nat) (pkt : Option (List UInt8)) (mdump : Timeval) (written : Bool) : Option (SendqStatus × SendqMemory) :=
  let entry := m.fresh
  let m := {m with fresh := entry+1}
  match pkt with
  | none => some (.EWRONGPTR,m.free entry)
  | some pkt => do
    let (rc,m) ← tadf_sendq_entry_insert {m with entry := update m.entry entry (some ⟨none,none,pkt,mdump⟩)} fuel entry
    if rc = .ok then wake m written entry else some (rc,m.free entry)

/-- What is done with a queue: packets are put, and the one at the tail is sent and removed. -/
inductive SendqOp
  | put (pkt : Option (List UInt8)) (mdump : Timeval) (written : Bool)
  | send
  | set_size_max (value : Int)
  deriving DecidableEq
/-- What an operation gives: the status, and the packet that leaves. -/
structure SendqAnswer where
  rc : SendqStatus
  sent : Option SendqEntry
  deriving DecidableEq
def sendTail : Option (SendqAnswer × SendqMemory) := do
  let sent ← match m.tail with
    | none => some none
    | some tail => (m.entry tail).map fun node => some node.packet
  let (rc,m) ← tadf_sendq_entry_remove m m.tail
  some (⟨rc,sent⟩,m)
def step (fuel : Nat) : SendqOp → Option (SendqAnswer × SendqMemory)
  | .put pkt mdump written => (tadf_sendq_put_pkt m fuel pkt mdump written).map fun done => (⟨done.1,none⟩,done.2)
  | .send => sendTail m
  | .set_size_max value => some (⟨.ok,none⟩,{m with queue_size_max := value})
/-- `tadf_sendq_init`. -/
def SendqMemory.init (size_max : Int) : SendqMemory :=
  {entry := fun _ => none,fresh := 0,head := none,tail := none,queue_size_max := size_max,queue_size := 0}
end
def run (fuel : Nat) : SendqMemory → List SendqOp → Option (List SendqAnswer × SendqMemory)
  | m, [] => some ([],m)
  | m, op :: ops => do
    let (answer,m) ← step m fuel op
    let (answers,m) ← run fuel m ops
    some (answer :: answers,m)

section
variable {m m' m'' : SendqMemory} {next' prev' next'' prev'' : Option Nat → Option Nat} {e : Nat} {p at' : Option Nat}

/-- The links with NULL as the place of the queue itself. -/
def SendqMemory.next (m : SendqMemory) : Option Nat → Option Nat
  | none => m.head
  | some e => (m.entry e).bind SendqNode.next
def SendqMemory.prev (m : SendqMemory) : Option Nat → Option Nat
  | none => m.tail
  | some e => (m.entry e).bind SendqNode.prev
def SendqMemory.packets (m : SendqMemory) (e : Nat) : Option SendqEntry := (m.entry e).map SendqNode.packet

/-- Only links have been written. -/
structure Wrote (m m' : SendqMemory) (next' prev' : Option Nat → Option Nat) : Prop where
  next : m'.next = next'
  prev : m'.prev = prev'
  packets : m'.packets = m.packets
  fresh : m'.fresh = m.fresh
  max : m'.queue_size_max = m.queue_size_max
  size : m'.queue_size = m.queue_size

theorem Wrote.trans (first : Wrote m m' next' prev') (second : Wrote m' m'' next'' prev'') : Wrote m m'' next'' prev'' :=
  ⟨second.next,second.prev,second.packets.trans first.packets,second.fresh.trans first.fresh,second.max.trans first.max,
    second.size.trans first.size⟩
theorem allocated_iff : (∃ node, m.entry e = some node) ↔ (m.packets e).isSome := by
  simp [SendqMemory.packets,isSome_iff_exists]
theorem Wrote.entry (wrote : Wrote m m' next' prev') (allocated : ∃ node, m.entry e = some node) :
    ∃ node, m'.entry e = some node := by
  rw [allocated_iff] at *
  rwa [wrote.packets]
theorem wrote_setNext (allocated : ∃ node, m.entry e = some node) :
    ∃ m', m.setNext e p = some m' ∧ Wrote m m' (update m.next (some e) p) m.prev := by
  obtain ⟨node,entry⟩ := allocated
  have set : m.setNext e p = some {m with entry := update m.entry e (some {node with next := p})} := by
    rw [SendqMemory.setNext,entry]
    rfl
  refine ⟨_,set,?_,?_,?_,rfl,rfl,rfl⟩ <;> funext a
  · cases a with
    | none => rfl
    | some a => by_cases same : a = e <;> simp [SendqMemory.next,same]
  · cases a with
    | none => rfl
    | some a => by_cases same : a = e <;> simp [SendqMemory.prev,same,entry]
  · by_cases same : a = e <;> simp [SendqMemory.packets,same,entry,SendqNode.packet]
theorem wrote_setPrev (allocated : ∃ node, m.entry e = some node) :
    ∃ m', m.setPrev e p = some m' ∧ Wrote m m' m.next (update m.prev (some e) p) := by
  obtain ⟨node,entry⟩ := allocated
  have set : m.setPrev e p = some {m with entry := update m.entry e (some {node with prev := p})} := by
    rw [SendqMemory.setPrev,entry]
    rfl
  refine ⟨_,set,?_,?_,?_,rfl,rfl,rfl⟩ <;> funext a
  · cases a with
    | none => rfl
    | some a => by_cases same : a = e <;> simp [SendqMemory.next,same,entry]
  · cases a with
    | none => rfl
    | some a => by_cases same : a = e <;> simp [SendqMemory.prev,same]
  · by_cases same : a = e <;> simp [SendqMemory.packets,same,entry,SendqNode.packet]
theorem wrote_head : Wrote m {m with head := p} (update m.next none p) m.prev := by
  refine ⟨?_,?_,rfl,rfl,rfl,rfl⟩ <;> funext a <;> cases a <;> simp [SendqMemory.next,SendqMemory.prev]
theorem wrote_tail : Wrote m {m with tail := p} m.next (update m.prev none p) := by
  refine ⟨?_,?_,rfl,rfl,rfl,rfl⟩ <;> funext a <;> cases a <;> simp [SendqMemory.next,SendqMemory.prev]
theorem wrote_setNextOr (allocated : ∀ e, at' = some e → ∃ node, m.entry e = some node) :
    ∃ m', m.setNextOr at' p = some m' ∧ Wrote m m' (update m.next at' p) m.prev := by
  cases at' with
  | none => exact ⟨_,rfl,wrote_head⟩
  | some e => exact wrote_setNext (allocated e rfl)
end

/-- The entry is to be sent before another one. -/
def before (entry other : SendqEntry) : Bool := timeval_compare entry.send_time other.send_time = -1
/-- The entries from head to tail with a new one. -/
def inserted (entry : SendqEntry) (entries : List SendqEntry) : List SendqEntry :=
  entries.takeWhile (before entry) ++ entry :: entries.dropWhile (before entry)

section
variable {m : SendqMemory} {as bs xs : List Nat} {entries : List SendqEntry} {packet : SendqEntry} {e fuel : Nat}
  {p x z : Option Nat} {pre post : List (Option Nat)}

theorem before_iff {entry other : SendqEntry} : before entry other = true ↔ timeval_compare entry.send_time other.send_time = -1 :=
  decide_eq_true_iff
theorem compare_cases (a b : Timeval) : timeval_compare a b = -1 ∨ timeval_compare a b ≥ 0 := by
  rw [timeval_compare]
  split_ifs <;> simp
theorem packets_entry (found : m.packets e = some packet) : ∃ node, m.entry e = some node ∧ node.packet = packet :=
  of_map found
theorem next_head (chain : (p :: xs.map some ++ [none]).IsChain (BothWays m.next m.prev)) : m.next p = xs.head? := by
  cases xs with
  | nil => exact (List.isChain_pair.mp chain).1
  | cons x xs => exact (List.isChain_cons_cons.mp chain).1.1
/-- The loop stops at the first entry that the new one is not to be sent before. -/
theorem scan_spec (chain : (p :: xs.map some ++ [none]).IsChain (BothWays m.next m.prev)) (data : xs.map m.packets = entries.map some)
    (mine : m.packets e = some packet) (enough : xs.length < fuel) :
    scan m e fuel (m.next p) = some (xs.drop (entries.takeWhile (before packet)).length).head? := by
  induction xs generalizing p entries fuel with
  | nil =>
    obtain ⟨fuel,rfl⟩ := succ_of_lt enough
    rw [next_head chain,List.drop_nil]
    rfl
  | cons x xs ih =>
    obtain ⟨fuel,rfl⟩ := succ_of_lt enough
    obtain _ | ⟨d,entries⟩ := entries
    · simp at data
    obtain ⟨here,later⟩ := cons.inj data
    obtain ⟨node,entry,rfl⟩ := packets_entry mine
    obtain ⟨other,current,rfl⟩ := packets_entry here
    have rest : m.next (some x) = other.next := by rw [SendqMemory.next,current]; rfl
    rw [next_head chain,head?_cons,scan,entry,current,bind_eq_bind,bind_some,bind_some]
    by_cases earlier : timeval_compare node.send_time other.send_time = -1
    · rw [if_pos earlier,List.takeWhile_cons_of_pos (before_iff.mpr earlier),length_cons,List.drop_succ_cons,← rest]
      exact ih (List.isChain_cons_cons.mp chain).2 later (lt_of_succ_lt_succ enough)
    · rw [if_neg earlier,List.takeWhile_cons_of_neg (fun is => earlier (before_iff.mp is))]
      rfl

theorem seam_behind (seam : Seam none (as.map some) (bs.map some) pre x z post) : z = bs.head? := by
  have behind := seam.behind
  cases bs with
  | nil | cons b bs => exact (cons.inj behind).1.symm
theorem seam_front (seam : Seam none (as.map some) (bs.map some) pre x z post) : as = [] ∧ x = none ∨ ∃ a ∈ as, x = some a := by
  rcases mem_cons.mp seam.x_mem with rfl | member
  · have last := congrArg List.getLast? seam.front
    rw [getLast?_concat] at last
    cases as with
    | nil => exact .inl ⟨rfl,rfl⟩
    | cons a as => grind
  · grind

/-- The entry at the seam is linked in by the writes to its neighbours and to itself. -/
def LinkedIn (m m' : SendqMemory) (e : Nat) (x z : Option Nat) : Prop :=
  Wrote m m' (update (update m.next (some e) z) x (some e)) (update (update m.prev (some e) x) z (some e))

variable (mine : ∃ node, m.entry e = some node)
include mine

theorem insertBefore_spec {a b : Nat} (linked : m.prev (some b) = some a) (other : a ≠ e)
    (neighbour : ∃ node, m.entry a = some node) (current : ∃ node, m.entry b = some node) :
    ∃ m', insertBefore m e b = some m' ∧ LinkedIn m m' e (some a) (some b) := by
  obtain ⟨m1,set1,wrote1⟩ := @wrote_setNext m a (some e) neighbour
  obtain ⟨m2,set2,wrote2⟩ := @wrote_setPrev m1 e (some a) (wrote1.entry mine)
  obtain ⟨m3,set3,wrote3⟩ := @wrote_setNext m2 e (some b) (wrote2.entry (wrote1.entry mine))
  obtain ⟨m4,set4,wrote4⟩ := @wrote_setPrev m3 b (some e) (wrote3.entry (wrote2.entry (wrote1.entry current)))
  have wrote := ((wrote1.trans wrote2).trans wrote3).trans wrote4
  obtain ⟨node,entry⟩ := current
  obtain ⟨node1,entry1⟩ := wrote1.entry ⟨node,entry⟩
  have prev : node.prev = some a := by
    rw [SendqMemory.prev,entry] at linked
    exact linked
  have prev1 : node1.prev = some a := by
    have at' := congrFun wrote1.prev (some b)
    rw [linked,SendqMemory.prev,entry1] at at'
    exact at'
  rw [wrote3.next,wrote3.prev,wrote2.next,wrote2.prev,wrote1.next,wrote1.prev,
    update_comm (by simpa using other)] at wrote
  refine ⟨m4,?_,wrote⟩
  simp only [insertBefore,entry,prev,set1,entry1,prev1,set2,set3,set4,bind_eq_bind,bind_some]

variable (blank : m.next (some e) = none ∧ m.prev (some e) = none)
include blank

theorem insertHead_spec {b : Nat} (current : ∃ node, m.entry b = some node) :
    ∃ m', insertHead m e b = some m' ∧ LinkedIn m m' e none (some b) := by
  obtain ⟨m1,set1,wrote1⟩ := @wrote_setNext m e (some b) mine
  obtain ⟨m2,set2,wrote2⟩ := @wrote_setPrev m1 b (some e) (wrote1.entry current)
  have wrote := (wrote1.trans wrote2).trans (@wrote_head m2 (some e))
  rw [wrote2.next,wrote2.prev,wrote1.next,wrote1.prev] at wrote
  have first : update m.prev (some e) none = m.prev := by rw [← blank.2,update_eq_self]
  refine ⟨{m2 with head := some e},?_,by rwa [LinkedIn,first]⟩
  simp only [insertHead,set1,set2,bind_eq_bind,bind_some]
theorem insertTail_spec {a : Nat} (last : m.tail = some a) (neighbour : ∃ node, m.entry a = some node) :
    ∃ m', insertTail m e = some m' ∧ LinkedIn m m' e (some a) none := by
  obtain ⟨m1,set1,wrote1⟩ := @wrote_setPrev m e m.tail mine
  obtain ⟨m2,set2,wrote2⟩ := @wrote_setNext m1 a (some e) (wrote1.entry neighbour)
  have wrote := (wrote1.trans wrote2).trans (@wrote_tail m2 (some e))
  have tail : m1.tail = some a := by
    have at' := congrFun wrote1.prev none
    rw [update_of_ne (by simp)] at at'
    exact at'.trans last
  rw [wrote2.next,wrote2.prev,wrote1.next,wrote1.prev,last] at wrote
  have lastToo : update m.next (some e) none = m.next := by rw [← blank.1,update_eq_self]
  refine ⟨{m2 with tail := some e},?_,by rwa [LinkedIn,lastToo]⟩
  simp only [insertTail,set1,tail,set2,bind_eq_bind,bind_some]
/-- Every way of linking in is that at the seam behind the entries that are to be sent later. -/
theorem link_spec (ring : Ring m.next m.prev none (xs.map some)) (distinct : xs.Nodup) (new : e ∉ xs)
    (data : xs.map m.packets = entries.map some) (packet_e : m.packets e = some packet) (enough : xs.length < fuel) :
    ∃ m' pre x z post, link m fuel e m.head = some m' ∧ LinkedIn m m' e x z ∧
      Seam none ((xs.take (entries.takeWhile (before packet)).length).map some)
        ((xs.drop (entries.takeWhile (before packet)).length).map some) pre x z post := by
  have places : (none :: ((xs.take (entries.takeWhile (before packet)).length).map some ++
      (xs.drop (entries.takeWhile (before packet)).length).map some)).Nodup := by
    rw [← map_append,take_append_drop,nodup_cons]
    exact ⟨by simp,distinct.map (Option.some_injective _)⟩
  obtain ⟨pre,x,z,post,seam⟩ := exists_seam none places
  have linked := seam.linked (by rwa [← map_append,take_append_drop])
  have behind := seam_behind seam
  have allocated : ∀ a ∈ xs, ∃ node, m.entry a = some node := fun a mem => by
    have found : m.packets a ∈ entries.map some := data ▸ mem_map_of_mem mem
    obtain ⟨d,_,same⟩ := mem_map.mp found
    exact allocated_iff.mpr (by rw [← same]; rfl)
  have apart : ∀ a ∈ xs, a ≠ e := by
    rintro a mem rfl
    exact new mem
  suffices found : ∃ m', link m fuel e m.head = some m' ∧ LinkedIn m m' e x z by grind
  have head : m.head = xs.head? := next_head ring
  cases xs with
  | nil =>
    -- the queue is empty
    rw [List.take_nil] at seam
    rw [List.drop_nil] at behind
    obtain ⟨_,rfl⟩ := (seam_front seam).resolve_right (by rintro ⟨a,mem,_⟩; simp at mem)
    obtain rfl : z = none := behind
    refine ⟨{m with head := some e,tail := some e},by rw [head]; rfl,?_⟩
    have wrote := (@wrote_head m (some e)).trans (@wrote_tail {m with head := some e} (some e))
    have next : update m.next (some e) none = m.next := by rw [← blank.1,update_eq_self]
    have prev : update m.prev (some e) none = m.prev := by rw [← blank.2,update_eq_self]
    rw [(@wrote_head m (some e)).next,(@wrote_head m (some e)).prev] at wrote
    rwa [LinkedIn,next,prev]
  | cons b xs =>
    obtain _ | ⟨d,entries⟩ := entries
    · simp at data
    obtain ⟨here,later⟩ := cons.inj data
    obtain ⟨node,entry,rfl⟩ := packets_entry packet_e
    obtain ⟨other,current,rfl⟩ := packets_entry here
    rw [head,head?_cons,link,entry,current,bind_eq_bind,bind_some,bind_some]
    have chain := (List.isChain_cons_cons.mp ring).2
    rcases compare_cases node.send_time other.send_time with earlier | notEarlier
    · -- behind the head: found by the loop
      have rest : m.next (some b) = other.next := by rw [SendqMemory.next,current]; rfl
      rw [List.takeWhile_cons_of_pos (before_iff.mpr earlier),length_cons,List.take_succ_cons] at seam
      rw [List.takeWhile_cons_of_pos (before_iff.mpr earlier),length_cons,List.drop_succ_cons] at behind
      have found := @scan_spec m xs entries node.packet e fuel (some b) chain later packet_e (by simp at enough; omega)
      obtain ⟨a,mem,rfl⟩ := (seam_front seam).resolve_left (by simp)
      have neighbour : a ∈ b :: xs := (List.take_subset _ _) (by rw [← List.take_succ_cons] at mem; exact mem)
      rw [if_neg (by omega),← rest,found]
      simp only [bind_eq_bind,bind_some,← behind]
      cases z with
      | none => exact insertTail_spec mine blank linked.2 (allocated a neighbour)
      | some c =>
        have member : c ∈ b :: xs := mem_cons_of_mem _ ((List.drop_subset _ _) (mem_of_mem_head? behind.symm))
        exact insertBefore_spec mine linked.2 (apart a neighbour) (allocated a neighbour) (allocated c member)
    · -- before the head
      have no : ¬ before node.packet other.packet = true := fun is => by
        have earlier := before_iff.mp is
        simp only [SendqNode.packet] at earlier
        omega
      rw [List.takeWhile_cons_of_neg no] at seam behind
      obtain ⟨_,rfl⟩ := (seam_front seam).resolve_right (by rintro ⟨a,mem,_⟩; simp at mem)
      rw [if_pos notEarlier,show z = some b from behind]
      exact insertHead_spec mine blank (allocated b mem_cons_self)
end

/-- The queue has entries in a given order, linked in both directions from its head to its
    tail with NULL at the ends, and counts them. -/
structure SendqMemory.Holds (m : SendqMemory) (xs : List Nat) (entries : List SendqEntry) : Prop where
  distinct : xs.Nodup
  ring : Ring m.next m.prev none (xs.map some)
  packets : xs.map m.packets = entries.map some
  unused : ∀ e, m.fresh ≤ e → m.packets e = none
  size : m.queue_size = entries.length

section
variable {m : SendqMemory} {xs : List Nat} {entries : List SendqEntry} {entry packet : SendqEntry} {fuel : Nat}

theorem SendqMemory.Holds.length (holds : m.Holds xs entries) : xs.length = entries.length := by
  simpa using congrArg List.length holds.packets
theorem SendqMemory.Holds.present (holds : m.Holds xs entries) {a : Nat} (mem : a ∈ xs) : (m.packets a).isSome := by
  have found : m.packets a ∈ entries.map some := holds.packets ▸ mem_map_of_mem mem
  obtain ⟨d,_,same⟩ := mem_map.mp found
  rw [← same]
  rfl
theorem SendqMemory.Holds.fresh_apart (holds : m.Holds xs entries) : m.fresh ∉ xs := fun mem => by
  have present := holds.present mem
  rw [holds.unused _ le_rfl] at present
  cases present
/-- An entry in memory that has not been given out, with empty links. -/
def SendqMemory.alloc (m : SendqMemory) (entry : SendqEntry) : SendqMemory :=
  {m with fresh := m.fresh+1,entry := update m.entry m.fresh (some ⟨none,none,entry.pkt,entry.send_time⟩)}
theorem alloc_next {p : Option Nat} (other : p ≠ some m.fresh) : (m.alloc entry).next p = m.next p := by
  cases p with
  | none => rfl
  | some a => simp [SendqMemory.next,SendqMemory.alloc,update_of_ne (show a ≠ m.fresh from fun same => other (congrArg some same))]
theorem alloc_prev {p : Option Nat} (other : p ≠ some m.fresh) : (m.alloc entry).prev p = m.prev p := by
  cases p with
  | none => rfl
  | some a => simp [SendqMemory.prev,SendqMemory.alloc,update_of_ne (show a ≠ m.fresh from fun same => other (congrArg some same))]
theorem alloc_packets : (m.alloc entry).packets = update m.packets m.fresh (some entry) := by
  funext a
  by_cases same : a = m.fresh
  · subst same
    simp [SendqMemory.packets,SendqMemory.alloc,SendqNode.packet]
  · simp [SendqMemory.packets,SendqMemory.alloc,update_of_ne same]
theorem inserted_packets {f : Nat → Option SendqEntry} {e : Nat} (data : xs.map f = entries.map some) (mine : f e = some entry) :
    (xs.take (entries.takeWhile (before entry)).length ++ e :: xs.drop (entries.takeWhile (before entry)).length).map f =
      (inserted entry entries).map some := by
  have whole := @takeWhile_append_dropWhile _ (before entry) entries
  have taken : entries.take (entries.takeWhile (before entry)).length = entries.takeWhile (before entry) :=
    (congrArg (List.take _) whole.symm).trans take_left
  have dropped : entries.drop (entries.takeWhile (before entry)).length = entries.dropWhile (before entry) :=
    (congrArg (List.drop _) whole.symm).trans drop_left
  rw [inserted,map_append,map_cons,map_append,map_cons,List.map_take,List.map_drop,data,mine,← List.map_take,
    ← List.map_drop,taken,dropped]

/-- The new entry comes to its place, with the next one behind it. -/
theorem insert_holds (holds : m.Holds xs entries) (room : m.queue_size < m.queue_size_max) (enough : xs.length < fuel) :
    ∃ m' xs', tadf_sendq_entry_insert (m.alloc entry) fuel m.fresh = some (.ok,m') ∧ m'.Holds xs' (inserted entry entries) ∧
      (m'.next (some m.fresh) = none ↔ ∀ other ∈ entries, before entry other = true) ∧ (∃ node, m'.entry m.fresh = some node) ∧
      m'.queue_size_max = m.queue_size_max := by
  have new := holds.fresh_apart
  have blank : (m.alloc entry).next (some m.fresh) = none ∧ (m.alloc entry).prev (some m.fresh) = none := by
    simp [SendqMemory.next,SendqMemory.prev,SendqMemory.alloc]
  have mine : ∃ node, (m.alloc entry).entry m.fresh = some node := ⟨_,update_self ..⟩
  obtain ⟨m1,set1,wrote1⟩ := @wrote_setNext _ _ none mine
  obtain ⟨m2,set2,wrote2⟩ := @wrote_setPrev m1 m.fresh none (wrote1.entry mine)
  have wrote := wrote1.trans wrote2
  have next : m2.next = (m.alloc entry).next := by rw [wrote2.next,wrote1.next,← blank.1,update_eq_self]
  have prev : m2.prev = (m.alloc entry).prev := by rw [wrote2.prev,wrote1.prev,← blank.2,update_eq_self]
  have outside : ∀ p ∈ none :: xs.map some, p ≠ some m.fresh := by
    rintro p mem rfl
    exact new (by simpa using mem)
  have ring : Ring m2.next m2.prev none (xs.map some) := holds.ring.congr fun p mem => by simp [next,prev,outside,mem,alloc_next,alloc_prev]
  have packets : m2.packets = update m.packets m.fresh (some entry) := wrote.packets.trans alloc_packets
  have data : xs.map m2.packets = entries.map some := by
    rw [← holds.packets]
    exact map_congr_left fun a mem => by simp_all
  have mine2 : m2.packets m.fresh = some entry := by rw [packets,update_self]
  obtain ⟨m',pre,x,z,post,done,linked,seam⟩ := @link_spec {m2 with queue_size := m2.queue_size+1} xs entries entry m.fresh fuel
    (wrote.entry mine) ⟨(congrFun next _).trans blank.1,(congrFun prev _).trans blank.2⟩ ring holds.distinct new data mine2 enough
  have head : m2.head = m.head := congrFun next none
  refine ⟨m',_,?_,⟨?_,?_,(congrArg (List.map · _) linked.packets).trans (inserted_packets data mine2),?_,?_⟩,?_,?_,?_⟩
  · have size : ¬ (m.alloc entry).queue_size_max ≤ (m.alloc entry).queue_size := not_le.mpr room
    have done : link {m2 with queue_size := m2.queue_size+1} fuel m.fresh m.head = some m' := head ▸ done
    rw [tadf_sendq_entry_insert,if_neg size,set1,bind_eq_bind,bind_some,set2,bind_some]
    exact (congrArg (Option.bind · fun m => some (SendqStatus.ok,m)) done)
  · refine List.nodup_middle.mpr (nodup_cons.mpr ?_)
    rw [take_append_drop]
    exact ⟨new,holds.distinct⟩
  · rw [map_append,map_cons,linked.next,linked.prev]
    refine seam.insert_update ?_ (by rwa [← map_append,take_append_drop])
    rw [← map_append,take_append_drop]
    simpa using new
  · intro e above
    have fresh : m'.fresh = m.fresh+1 := linked.fresh.trans (wrote.fresh)
    rw [fresh] at above
    have same : m'.packets = m2.packets := linked.packets
    rw [same,packets,update_of_ne (by omega),holds.unused e (by omega)]
  · have size : m'.queue_size = m.queue_size+1 := linked.size.trans (congrArg (·+1) wrote.size)
    rw [size,holds.size,inserted,length_append,length_cons]
    have total := congrArg List.length (@takeWhile_append_dropWhile _ (before entry) entries)
    rw [length_append] at total
    omega
  · have x_apart : x ≠ some m.fresh := outside x (by
      have place := seam.x_place
      rwa [← map_append,take_append_drop] at place)
    have behind : m'.next (some m.fresh) = z := by rw [linked.next,update_of_ne x_apart.symm,update_self]
    rw [behind,seam_behind seam,List.head?_eq_none_iff,List.drop_eq_nil_iff,holds.length]
    exact ⟨fun short => List.takeWhile_eq_self_iff.mp
      ((List.takeWhile_prefix _).eq_of_length_le short),fun all => by rw [List.takeWhile_eq_self_iff.mpr all]⟩
  · exact linked.entry (wrote.entry mine)
  · exact linked.max.trans wrote.max

theorem free_next {e : Nat} {p : Option Nat} (other : p ≠ some e) : (m.free e).next p = m.next p := by
  cases p with
  | none => rfl
  | some a => simp [SendqMemory.next,SendqMemory.free,update_of_ne (show a ≠ e from fun same => other (congrArg some same))]
theorem free_prev {e : Nat} {p : Option Nat} (other : p ≠ some e) : (m.free e).prev p = m.prev p := by
  cases p with
  | none => rfl
  | some a => simp [SendqMemory.prev,SendqMemory.free,update_of_ne (show a ≠ e from fun same => other (congrArg some same))]
theorem free_packets {e : Nat} : (m.free e).packets = update m.packets e none := by
  funext a
  by_cases same : a = e <;> simp [SendqMemory.packets,SendqMemory.free,same]
theorem SendqMemory.Holds.tail_nil (holds : m.Holds [] entries) : m.tail = none := (ring_nil.mp holds.ring).2
theorem SendqMemory.Holds.tail_concat {e : Nat} (holds : m.Holds (xs ++ [e]) entries) : m.tail = some e := by
  have ring := holds.ring.symm
  rw [← List.map_reverse,reverse_append] at ring
  exact (List.isChain_cons_cons.mp ring).1.1
/-- The last entry leaves the queue and the memory. -/
theorem remove_tail_holds {e : Nat} (holds : m.Holds (xs ++ [e]) (entries ++ [packet])) :
    ∃ m', tadf_sendq_entry_remove m (some e) = some (.ok,m') ∧ m'.Holds xs entries ∧ m'.queue_size_max = m.queue_size_max := by
  have places : (none :: (xs.map some ++ [])).Nodup := by
    rw [append_nil,nodup_cons]
    exact ⟨by simp,(List.nodup_append'.mp holds.distinct).1.map (Option.some_injective _)⟩
  have absent : e ∉ xs := fun mem => (List.nodup_append'.mp holds.distinct).2.2 mem (mem_singleton_self e)
  obtain ⟨pre,x,z,post,seam⟩ := exists_seam none places
  obtain rfl : z = none := (cons.inj seam.behind).1.symm
  have ring : Ring m.next m.prev none (xs.map some ++ some e :: []) := by simpa using holds.ring
  obtain ⟨before,behind⟩ := seam.between ring
  have x_apart : x ≠ some e := by
    rintro rfl
    exact absent (by simpa using seam.x_place)
  have allocated : ∀ a, x = some a → ∃ node, m.entry a = some node := by
    rintro a rfl
    have mem : a ∈ xs := by simpa using seam.x_place
    exact allocated_iff.mpr (holds.present (mem_append_left _ mem))
  obtain ⟨node,entry⟩ := allocated_iff.mpr (holds.present (mem_append_right xs (mem_singleton_self e)))
  have node_prev : node.prev = x := by
    have link := before.2
    rwa [SendqMemory.prev,entry] at link
  have node_next : node.next = none := by
    have link := behind.1
    rwa [SendqMemory.next,entry] at link
  obtain ⟨m1,set1,wrote1⟩ := @wrote_setNextOr m none x allocated
  obtain ⟨node1,entry1⟩ := wrote1.entry ⟨node,entry⟩
  have node1_prev : node1.prev = x := by
    have link := congrFun wrote1.prev (some e)
    rwa [before.2,SendqMemory.prev,entry1] at link
  have node1_next : node1.next = none := by
    have link := congrFun wrote1.next (some e)
    rwa [update_of_ne x_apart.symm,behind.1,SendqMemory.next,entry1] at link
  have wrote := wrote1.trans (@wrote_tail m1 x)
  rw [wrote1.next,wrote1.prev] at wrote
  have removed := seam.remove_update ring
  rw [← wrote.next,← wrote.prev,append_nil] at removed
  have outside : ∀ p ∈ none :: xs.map some, p ≠ some e := by
    rintro p mem rfl
    exact absent (by simpa using mem)
  have data := holds.packets
  rw [map_append,map_append] at data
  refine ⟨{SendqMemory.free {m1 with tail := x} e with queue_size := m1.queue_size-1},?_,⟨?_,?_,?_,?_,?_⟩,wrote.max⟩
  · simp [entry,node_prev,node_next,set1,entry1,node1_prev,node1_next,tadf_sendq_entry_remove,SendqMemory.setPrevOr]
  · exact (List.nodup_append'.mp holds.distinct).1
  · exact removed.congr fun p mem => ⟨@free_next {m1 with tail := x} e p (outside p mem),@free_prev {m1 with tail := x} e p (outside p mem)⟩
  · rw [← (append_inj' data rfl).1]
    refine map_congr_left fun a mem => ?_
    have same : a ≠ e := by rintro rfl; exact absent mem
    exact (congrFun free_packets a).trans ((update_of_ne same ..).trans (congrFun wrote.packets a))
  · intro a above
    have unused := holds.unused a (by rw [← wrote1.fresh]; exact above)
    refine (congrFun free_packets a).trans ?_
    by_cases same : a = e
    · rw [same,update_self]
    · simp [same,wrote.packets,unused]
  · simp [wrote1.size,holds.size]
end

/-- The order of sending. -/
def SendKey : Type := Int ×ₗ Int
instance : LinearOrder SendKey := @Prod.Lex.instLinearOrder Int Int Int.instLinearOrder Int.instLinearOrder
def sendKey (entry : SendqEntry) : SendKey := toLex (entry.send_time.tv_sec,entry.send_time.tv_usec)
theorem sendKey_lt {entry other : SendqEntry} : sendKey entry < sendKey other ↔
    entry.send_time.tv_sec < other.send_time.tv_sec ∨
      entry.send_time.tv_sec = other.send_time.tv_sec ∧ entry.send_time.tv_usec < other.send_time.tv_usec :=
  Prod.Lex.toLex_lt_toLex
/-- What the queue is for: the packets that wait, in the order in which they came. -/
structure SendqSpec where
  waiting : List SendqEntry
  size_max : Int
def SendqSpec.step (s : SendqSpec) : SendqOp → SendqAnswer × SendqSpec
  | .put none _ _ => (⟨.EWRONGPTR,none⟩,s)
  | .put (some pkt) mdump _ =>
    if s.size_max ≤ s.waiting.length then (⟨.ENOBUFS,none⟩,s) else (⟨.ok,none⟩,{s with waiting := s.waiting ++ [⟨pkt,mdump⟩]})
  | .send =>
    -- the first of those with the least time
    match s.waiting.argmin sendKey with
    | none => (⟨.EWRONGPTR,none⟩,s)
    | some first => (⟨.ok,some first⟩,{s with waiting := s.waiting.erase first})
  | .set_size_max value => (⟨.ok,none⟩,{s with size_max := value})
def SendqSpec.run : SendqSpec → List SendqOp → List SendqAnswer × SendqSpec
  | s, [] => ([],s)
  | s, op :: ops => ((s.step op).1 :: ((s.step op).2.run ops).1,((s.step op).2.run ops).2)
/-- The message for the thread is written, where a packet is to be sent before all others. -/
def Woken (s : SendqSpec) : SendqOp → Prop
  | .put (some pkt) mdump written =>
    (∀ other ∈ s.waiting, sendKey ⟨pkt,mdump⟩ < sendKey other) → s.waiting.length < s.size_max → written = true
  | _ => True
def AllWoken : SendqSpec → List SendqOp → Prop
  | _, [] => True
  | s, op :: ops => Woken s op ∧ AllWoken (s.step op).2 ops

section
variable {m : SendqMemory} {xs : List Nat} {entries : List SendqEntry} {entry packet : SendqEntry} {fuel : Nat} {s : SendqSpec}

theorem compare_before {a b : Timeval} :
    timeval_compare a b = -1 ↔ a.tv_sec < b.tv_sec ∨ a.tv_sec = b.tv_sec ∧ a.tv_usec < b.tv_usec := by
  rw [timeval_compare]
  split_ifs <;> simp <;> omega
theorem before_key {entry other : SendqEntry} : before entry other = decide (sendKey entry < sendKey other) := by
  rw [before,decide_eq_decide,compare_before,sendKey_lt]
/-- The queue has what waits, in the order of sending from its tail on. -/
structure Represents (m : SendqMemory) (s : SendqSpec) (xs : List Nat) (entries : List SendqEntry) : Prop where
  holds : m.Holds xs entries
  order : StableBy sendKey entries.reverse s.waiting
  max : m.queue_size_max = s.size_max

theorem Represents.length (represents : Represents m s xs entries) : xs.length = s.waiting.length := by
  rw [represents.holds.length,← List.length_reverse,represents.order.perm.length_eq]
theorem stable_inserted {waiting : List SendqEntry} (order : StableBy sendKey entries.reverse waiting) :
    StableBy sendKey (inserted entry entries).reverse (waiting ++ [entry]) := by
  have same : before entry = fun other => decide (sendKey entry < sendKey other) := funext fun _ => before_key
  have whole := congrArg List.reverse (@takeWhile_append_dropWhile _ (before entry) entries)
  rw [reverse_append] at whole
  rw [inserted,reverse_append,List.reverse_cons,append_assoc,singleton_append]
  refine StableBy.insert (whole ▸ order) (fun a mem => ?_) (fun b mem => ?_)
  · have low : ∀ b ∈ entries.reverse.reverse.dropWhile (fun other => sendKey entry < sendKey other), sendKey b ≤ sendKey entry :=
      order.sorted.back_le
    rw [reverse_reverse,← same] at low
    exact low a (mem_reverse.mp mem)
  · grind [List.mem_takeWhile_imp]

section
variable (holds : m.Holds xs entries)
include holds
/-- An address that has been given out and taken back. -/
theorem skip_holds : SendqMemory.Holds {m with fresh := m.fresh+1} xs entries :=
  ⟨holds.distinct,holds.ring,holds.packets,fun e above => holds.unused e (Nat.le_of_succ_le above),holds.size⟩
theorem unused_entry : m.entry m.fresh = none := by
  cases found : m.entry m.fresh with
  | none => rfl
  | some node =>
    have unused := holds.unused _ le_rfl
    rw [SendqMemory.packets,found] at unused
    cases unused
theorem free_skip : SendqMemory.free {m with fresh := m.fresh+1} m.fresh = {m with fresh := m.fresh+1} := by
  rw [SendqMemory.free,← unused_entry holds,update_eq_self]
theorem free_alloc : (m.alloc entry).free m.fresh = {m with fresh := m.fresh+1} := by
  rw [SendqMemory.free,SendqMemory.alloc,update_idem,← unused_entry holds,update_eq_self]
end

section
variable (represents : Represents m s xs entries)
include represents
/-- A put refines that of the waiting packets; if it is refused, only an address has been used. -/
theorem put_represents {pkt : Option (List UInt8)} {mdump : Timeval} {written : Bool}
    (woken : Woken s (.put pkt mdump written)) (enough : xs.length < fuel) :
    ∃ m' xs' entries', step m fuel (.put pkt mdump written) = some ((s.step (.put pkt mdump written)).1,m') ∧
      Represents m' (s.step (.put pkt mdump written)).2 xs' entries' ∧
      ((s.step (.put pkt mdump written)).1.rc ≠ .ok → m' = {m with fresh := m.fresh+1}) ∧
      ((s.step (.put pkt mdump written)).1.rc = .ok → m'.queue_size ≤ m'.queue_size_max) := by
  obtain ⟨holds,order,max⟩ := represents
  have length : (entries.length : Int) = s.waiting.length := by
    rw [← List.length_reverse,order.perm.length_eq]
  cases pkt with
  | none =>
    refine ⟨{m with fresh := m.fresh+1},xs,entries,?_,⟨skip_holds holds,order,max⟩,fun _ => rfl,fun ok => by cases ok⟩
    rw [step,tadf_sendq_put_pkt,free_skip holds]
    rfl
  | some pkt =>
    have put : tadf_sendq_put_pkt m fuel (some pkt) mdump written = (tadf_sendq_entry_insert (m.alloc ⟨pkt,mdump⟩) fuel m.fresh).bind fun done =>
        if done.1 = .ok then wake done.2 written m.fresh else some (done.1,done.2.free m.fresh) := rfl
    by_cases full : s.size_max ≤ s.waiting.length
    · have refused : tadf_sendq_entry_insert (m.alloc ⟨pkt,mdump⟩) fuel m.fresh = some (.ENOBUFS,m.alloc ⟨pkt,mdump⟩) :=
        if_pos (show m.queue_size_max ≤ m.queue_size by rw [max,holds.size,length]; exact full)
      rw [SendqSpec.step,if_pos full]
      refine ⟨{m with fresh := m.fresh+1},xs,entries,?_,⟨skip_holds holds,order,max⟩,fun _ => rfl,fun ok => by cases ok⟩
      rw [step,put,refused,bind_some,if_neg (fun ok => by cases ok),free_alloc holds]
      rfl
    · have room : m.queue_size < m.queue_size_max := by
        rw [max,holds.size,length]
        omega
      obtain ⟨m',xs',done,holds',last,⟨node,entry'⟩,max'⟩ := @insert_holds m xs entries ⟨pkt,mdump⟩ fuel holds room enough
      rw [SendqSpec.step,if_neg full]
      refine ⟨m',xs',_,?_,⟨holds',stable_inserted order,max'.trans max⟩,fun no => absurd rfl no,fun _ => ?_⟩
      · have woke : wake m' written m.fresh = some (.ok,m') := by
          rw [wake,entry',bind_eq_bind,bind_some,if_neg]
          rintro ⟨tail,silent⟩
          have next : m'.next (some m.fresh) = none := by rw [SendqMemory.next,entry']; exact tail
          have first : ∀ other ∈ s.waiting, sendKey ⟨pkt,mdump⟩ < sendKey other := fun other mem => by
            have mem' : other ∈ entries := mem_reverse.mp (order.mem_iff.mpr mem)
            have earlier := last.mp next other mem'
            rw [before_key] at earlier
            simpa using earlier
          rw [woken first (by omega)] at silent
          cases silent
        rw [step,put,done,bind_some,if_pos rfl,woke]
        rfl
      · have size := holds'.size
        have total := congrArg List.length (@takeWhile_append_dropWhile _ (before ⟨pkt,mdump⟩) entries)
        rw [length_append] at total
        rw [inserted,length_append,length_cons] at size
        have grown : m'.queue_size = m.queue_size+1 := by
          rw [size,holds.size]
          omega
        rw [grown,max']
        omega
/-- The packet at the tail is the one that is due. -/
theorem send_represents :
    ∃ m' xs' entries', step m fuel .send = some ((s.step .send).1,m') ∧ Represents m' (s.step .send).2 xs' entries' := by
  obtain ⟨holds,order,max⟩ := represents
  rcases eq_nil_or_concat xs with rfl | ⟨as,e,rfl⟩
  · obtain rfl : entries = [] := length_eq_zero_iff.mp holds.length.symm
    have none := order.empty
    have nobody : s.waiting.argmin sendKey = Option.none := by rw [none]; rfl
    refine ⟨m,[],[],?_,?_⟩ <;> rw [SendqSpec.step,nobody]
    · rw [step,sendTail,holds.tail_nil]
      rfl
    · exact ⟨holds,order,max⟩
  · rw [concat_eq_append] at holds
    rcases eq_nil_or_concat entries with rfl | ⟨es,d,rfl⟩
    · have length := holds.length
      simp at length
    rw [concat_eq_append] at holds order
    rw [reverse_append,reverse_singleton,singleton_append] at order
    obtain ⟨first,rest⟩ := order.serve
    obtain ⟨m',removed,holds',max'⟩ := remove_tail_holds holds
    have data := holds.packets
    rw [map_append,map_append] at data
    obtain ⟨node,entry',packet⟩ := packets_entry (cons.inj (append_inj' data rfl).2).1
    refine ⟨m',as,es,?_,?_⟩ <;> rw [SendqSpec.step,first]
    · simp only [step,sendTail,holds.tail_concat,entry',removed,packet,map_some,bind_eq_bind,bind_some]
    · exact ⟨holds',rest,max'.trans max⟩
theorem step_represents {op : SendqOp} (woken : Woken s op) (enough : xs.length < fuel) :
    ∃ m' xs' entries', step m fuel op = some ((s.step op).1,m') ∧ Represents m' (s.step op).2 xs' entries' := by
  cases op with
  | put pkt mdump written => grind [put_represents]
  | send => exact send_represents represents
  | set_size_max value =>
    obtain ⟨⟨distinct,ring,packets,unused,size⟩,order,_⟩ := represents
    exact ⟨{m with queue_size_max := value},xs,entries,rfl,⟨⟨distinct,ring,packets,unused,size⟩,order,rfl⟩⟩
end
theorem waiting_length (op : SendqOp) : (s.step op).2.waiting.length ≤ s.waiting.length+1 := by
  cases op with
  | put pkt mdump written =>
    cases pkt with
    | none => exact le_succ _
    | some pkt =>
      rw [SendqSpec.step]
      split_ifs
      · exact le_succ _
      · simp
  | send =>
    rw [SendqSpec.step]
    split
    · exact le_succ _
    · exact (List.length_erase_le).trans (le_succ _)
  | set_size_max value => exact le_succ _
/-- A run refines that of the waiting packets. -/
theorem run_represents {ops : List SendqOp} (represents : Represents m s xs entries) (woken : AllWoken s ops) (enough : xs.length+ops.length < fuel) :
    ∃ m' xs' entries', run fuel m ops = some ((s.run ops).1,m') ∧ Represents m' (s.run ops).2 xs' entries' ∧
      xs'.length ≤ xs.length+ops.length := by
  induction ops generalizing m s xs entries with
  | nil => exact ⟨m,xs,entries,rfl,represents,le_rfl⟩
  | cons op ops ih =>
    rw [length_cons] at enough ⊢
    obtain ⟨m1,xs1,entries1,done,next⟩ := @step_represents m xs entries fuel s represents op woken.1 (by omega)
    have grown : xs1.length ≤ xs.length+1 := by
      rw [next.length,represents.length]
      exact waiting_length op
    obtain ⟨m',xs',entries',ran,last,size⟩ := ih next woken.2 (by omega)
    refine ⟨m',xs',entries',?_,last,by omega⟩
    simp only [run,done,ran,bind_eq_bind,bind_some,SendqSpec.run]
end

/-- The consistency of a queue: its entries are linked in both directions from head to tail,
    their times do not increase, they are counted, and they are the packets that wait. -/
def Consistent (m : SendqMemory) (waiting : List SendqEntry) : Prop :=
  ∃ xs entries, m.Holds xs entries ∧ entries.Pairwise (fun a b => sendKey b ≤ sendKey a) ∧ entries.Perm waiting
/-- A put that is refused changes nothing but the next address, and one that is not leaves the
    size within its limit. -/
def PutsWell (m : SendqMemory) (fuel : Nat) (put : SendqOp) : Prop :=
  ∃ answer m', step m fuel put = some (answer,m') ∧ (answer.rc ≠ .ok → m' = {m with fresh := m'.fresh}) ∧
    (answer.rc = .ok → m'.queue_size ≤ m'.queue_size_max)
/-- The claim for a run: it is that of a stable priority queue, in which the packets leave in
    the order of their times and of their arrival, unchanged, and it leaves a consistent queue. -/
def RunsWell (fuel : Nat) (size_max : Int) (ops : List SendqOp) : Prop :=
  ∃ m, run fuel (.init size_max) ops = some ((SendqSpec.run ⟨[],size_max⟩ ops).1,m) ∧
    Consistent m (SendqSpec.run ⟨[],size_max⟩ ops).2.waiting

theorem sendq_stable_priority {fuel : Nat} {size_max : Int} {ops : List SendqOp} (enough : ops.length < fuel)
    (woken : AllWoken ⟨[],size_max⟩ ops) : RunsWell fuel size_max ops ∧
      ∀ m answers pkt mdump written, run fuel (.init size_max) ops = some (answers,m) →
        Woken (SendqSpec.run ⟨[],size_max⟩ ops).2 (.put pkt mdump written) → PutsWell m fuel (.put pkt mdump written) := by
  have start : Represents (.init size_max) ⟨[],size_max⟩ [] [] :=
    ⟨⟨nodup_nil,ring_nil.mpr ⟨rfl,rfl⟩,rfl,fun _ _ => rfl,rfl⟩,StableBy.nil,rfl⟩
  obtain ⟨m,xs,entries,ran,last,size⟩ := run_represents start woken (show [].length+ops.length < fuel by simpa using enough)
  refine ⟨⟨m,ran,xs,entries,last.holds,List.pairwise_reverse.mp last.order.sorted,
    (List.reverse_perm entries).symm.trans last.order.perm⟩,fun m' answers pkt mdump written ran' good => ?_⟩
  obtain ⟨_,rfl⟩ := of_pair (ran.symm.trans ran')
  obtain ⟨m',_,_,done,_,refused,accepted⟩ := @put_represents m xs entries fuel _ last pkt mdump written good (by simp at size; omega)
  exact ⟨_,m',done,fun no => by rw [refused no],accepted⟩
/-- Two packets for the same time leave in the order in which they came. -/
def threePuts : List SendqOp :=
  [.put (some [1]) ⟨2,0⟩ true,.put (some [2]) ⟨2,0⟩ true,.put (some [3]) ⟨1,0⟩ true,.send,.send,.put (some [4]) ⟨0,5⟩ true]
theorem sendq_stable_priority_three : RunsWell 10 2 threePuts ∧
    ∀ m answers pkt mdump written, run 10 (.init 2) threePuts = some (answers,m) →
      Woken (SendqSpec.run ⟨[],2⟩ threePuts).2 (.put pkt mdump written) → PutsWell m 10 (.put pkt mdump written) :=
  sendq_stable_priority (by decide)
    ⟨fun _ _ => rfl,fun _ _ => rfl,fun _ _ => rfl,trivial,trivial,fun _ _ => rfl,trivial⟩
/-- A packet whose message is not written is refused, but its entry stays linked after it has
    been freed. -/
theorem refused_put_stays : ∃ m, run 2 (.init 1) [.put (some [0]) ⟨1,0⟩ false] = some ([⟨.unwritten,none⟩],m) ∧
    m.queue_size = 1 ∧ ∀ waiting, ¬ Consistent m waiting := by
  refine ⟨_,rfl,rfl,?_⟩
  rintro waiting ⟨xs,entries,holds,_⟩
  have head := next_head holds.ring
  have first : (0 : Nat) ∈ xs := mem_of_mem_head? head.symm
  have present := holds.present first
  cases present
end TestEnvironment.Tad.Linked
