import TestEnvironment.Lib.Runs
import TestEnvironment.Lib.Names

/-!
The send queue of the forwarder (`send_queue.c`): producers insert packets under the
lock and wake the sending thread by messages on a socket; the thread sends packets
that are due and sleeps. Each part of the code that runs under the lock is one step.
Times are exact, as they are far from the borders of 64-bit numbers of microseconds.
-/
namespace TestEnvironment.Tad
open Lib

/-- `struct timeval`. -/
structure Timeval where
  tv_sec : Int
  tv_usec : Int
  deriving DecidableEq, Repr

namespace Timeval
def zero : Timeval := ⟨0,0⟩
/-- What the system clock gives. -/
def Proper (tv : Timeval) : Prop := 0 ≤ tv.tv_sec ∧ 0 ≤ tv.tv_usec ∧ tv.tv_usec < 1000000
instance : DecidablePred Proper := fun _ => inferInstanceAs (Decidable (_ ∧ _ ∧ _))
def usecs (tv : Timeval) : Int := tv.tv_sec*1000000+tv.tv_usec
def ofUsecs (usecs : Int) : Timeval := ⟨usecs.tdiv 1000000,usecs.tmod 1000000⟩
end Timeval
open Timeval

def timeval_compare (tv1 tv2 : Timeval) : Int :=
  if tv1.tv_sec > tv2.tv_sec then 1
  else if tv1.tv_sec < tv2.tv_sec then -1
  else if tv1.tv_usec > tv2.tv_usec then 1
  else if tv1.tv_usec < tv2.tv_usec then -1
  else 0
def ADD_TV (ts1 ts2 : Timeval) : Timeval := ofUsecs ((ts1.tv_sec+ts2.tv_sec)*1000000+(ts1.tv_usec+ts2.tv_usec))
def SUB_TV (ts1 ts2 : Timeval) : Timeval := ofUsecs ((ts1.tv_sec-ts2.tv_sec)*1000000+(ts1.tv_usec-ts2.tv_usec))
def MAX_TV (ts1 ts2 : Timeval) : Timeval := if timeval_compare ts1 ts2 = 1 then ts1 else ts2

/-- `sendq_entry_t`. -/
structure SendqEntry where
  pkt : List UInt8
  send_time : Timeval
  deriving DecidableEq, Repr
def SendqEntry.pkt_len (entry : SendqEntry) : Nat := entry.pkt.length
/-- `sendq_t`; the entries stand from the head to the tail. -/
structure Sendq where
  entries : List SendqEntry
  queue_size_max : Int
  queue_size : Int
  queue_bandwidth : Int
  bandwidth_ts : Timeval
  deriving DecidableEq, Repr

section

/-- The loop of `tadf_sendq_entry_insert`, with whether the entry comes to the tail. -/
def insertLoop (entry : SendqEntry) : List SendqEntry → List SendqEntry × Bool
  | [] => ([entry],true)
  | current :: rest =>
    if timeval_compare entry.send_time current.send_time = -1 then
      let (rest,last) := insertLoop entry rest
      (current :: rest,last)
    else (entry :: current :: rest,false)
/-- `tadf_sendq_entry_insert`: whether the entry has no next one; nothing for `TE_ENOBUFS`. -/
def tadf_sendq_entry_insert (queue : Sendq) (entry : SendqEntry) : Option (Sendq × Bool) :=
  if queue.queue_size_max ≤ queue.queue_size then none
  else
    let (entries,last) :=
      match queue.entries with
      | [] => ([entry],true)
      | current :: rest =>
        if timeval_compare entry.send_time current.send_time ≥ 0 then (entry :: current :: rest,false)
        else
          let (rest,last) := insertLoop entry rest
          (current :: rest,last)
    some ({queue with entries := entries,queue_size := queue.queue_size+1},last)

/-- The time that the packet takes at the bandwidth: a quotient of `size_t` kept as `long long`. -/
def time_stamp (tail : SendqEntry) (queue_bandwidth : Int) : Int :=
  let quotient : Nat := tail.pkt_len*1000000%2^64/queue_bandwidth.toNat
  if quotient < 2^63 then (quotient : Int) else (quotient : Int)-2^64

variable (curr_time : Timeval) (written : Nat → Bool)

/-- The iteration of `tadf_sendq_send_thread_main` with a limited bandwidth: the queue and the
    time to sleep, or nothing where the packet cannot be written. -/
def limitedIteration (sendq : Sendq) : Sendq × Option Timeval :=
  if timeval_compare sendq.bandwidth_ts curr_time > 0 then (sendq,some (SUB_TV sendq.bandwidth_ts curr_time))
  else
    match sendq.entries.getLast? with
    | none => ({sendq with bandwidth_ts := zero},some zero)
    | some tail =>
      if timeval_compare curr_time tail.send_time ≥ 0 then
        let sleep_tv := ofUsecs (time_stamp tail sendq.queue_bandwidth)
        let sendq := {sendq with bandwidth_ts := ADD_TV curr_time sleep_tv}
        let sleep_tv :=
          match sendq.entries.dropLast.getLast? with
          | some prev => MAX_TV sleep_tv (SUB_TV prev.send_time curr_time)
          | none => sleep_tv
        if written 0 then
          ({sendq with entries := sendq.entries.dropLast,queue_size := sendq.queue_size-1},some sleep_tv)
        else (sendq,none)
      else ({sendq with bandwidth_ts := zero},some (SUB_TV tail.send_time curr_time))
/-- The loop that sends all packets that are due: the entries left, from the tail on, and whether
    all were written. -/
def sendDue : Nat → List SendqEntry → List SendqEntry × Bool
  | _, [] => ([],true)
  | n, tail :: rest =>
    if timeval_compare curr_time tail.send_time ≥ 0 then
      if written n then sendDue (n+1) rest else (tail :: rest,false)
    else (tail :: rest,true)
/-- The iteration without a limit. -/
def unlimitedIteration (sendq : Sendq) : Sendq × Option Timeval :=
  let (rest,all) := sendDue curr_time written 0 sendq.entries.reverse
  let sendq := {sendq with
    entries := rest.reverse
    queue_size := sendq.queue_size-(sendq.entries.length-rest.length)}
  if all then
    match rest with
    | [] => ({sendq with bandwidth_ts := zero},some zero)
    | tail :: _ => ({sendq with bandwidth_ts := zero},some (SUB_TV tail.send_time curr_time))
  else (sendq,none)
def sendIteration (sendq : Sendq) : Sendq × Option Timeval :=
  if sendq.queue_bandwidth > 0 then limitedIteration curr_time written sendq
  else unlimitedIteration curr_time written sendq
end

/-- `tadf_sync_msg_t`. -/
inductive SyncMsg | WAKE | EXIT
  deriving DecidableEq, Repr
/-- Where the sending thread is: before an iteration, before `select` with its time to sleep, in
    `select` with its timeout, or at its end. -/
inductive SendThread
  | iterate
  | sleep (sleep_tv : Timeval)
  | wait (timeout : Option Timeval)
  | exited
  deriving DecidableEq, Repr
/-- A send queue with its thread, the messages on the socket that are not read yet, and the number
    of producers that have still to write the message of their packet. -/
structure SendqWorld where
  sendq : Sendq
  thread : SendThread
  socket : List SyncMsg
  writers : Nat
  deriving DecidableEq, Repr
inductive SendqAction
  | put (pkt : List UInt8) (mdump : Timeval)
  | wake
  | set_size_max (value : Int)
  | set_bandwidth (value : Int)
  | free
  | iterate (curr_time : {tv : Timeval // tv.Proper}) (written : Nat → Bool)
  | select
  | timeout
  | read
  | fail

namespace SendqWorld
/-- `tadf_sendq_init`. -/
def init (bandwidth size_max : Int) : SendqWorld :=
  {sendq := {entries := [],queue_size_max := size_max,queue_size := 0,queue_bandwidth := bandwidth,bandwidth_ts := zero}
   thread := .iterate,socket := [],writers := 0}

/-- One step of `tadf_sendq_put_pkt`, `tadf_sendq_set_param`, `tadf_sendq_free` or
    `tadf_sendq_send_thread_main`. -/
def step (w : SendqWorld) : SendqAction → Option SendqWorld
  | .put pkt mdump =>
    match tadf_sendq_entry_insert w.sendq ⟨pkt,mdump⟩ with
    | none => some w
    | some (sendq,last) => some {w with sendq := sendq,writers := if last then w.writers+1 else w.writers}
  | .wake => if 0 < w.writers then some {w with writers := w.writers-1,socket := w.socket ++ [.WAKE]} else none
  | .set_size_max value => some {w with sendq := {w.sendq with queue_size_max := value}}
  | .set_bandwidth value => some {w with sendq := {w.sendq with queue_bandwidth := value}}
  | .free => some {w with socket := w.socket ++ [.EXIT]}
  | .iterate curr_time written =>
    if w.thread = .iterate then
      match sendIteration curr_time.1 written w.sendq with
      | (sendq,some sleep_tv) => some {w with sendq := sendq,thread := .sleep sleep_tv}
      | (sendq,none) => some {w with sendq := sendq,thread := .exited}
    else none
  | .select =>
    match w.thread with
    | .sleep sleep_tv => some {w with thread := .wait (if sleep_tv = zero then none else some sleep_tv)}
    | _ => none
  | .timeout =>
    match w.thread with
    | .wait (some _) => some {w with thread := .iterate}
    | _ => none
  | .read =>
    match w.thread,w.socket with
    | .wait _,.WAKE :: rest => some {w with thread := .iterate,socket := rest}
    | .wait _,.EXIT :: rest => some {w with thread := .exited,socket := rest}
    | _,_ => none
  | .fail =>
    match w.thread with
    | .wait _ => some {w with thread := .exited}
    | _ => none
/-- The thread is in the wait without timeout, or about to enter it. -/
def Untimed (w : SendqWorld) : Prop := w.thread = .sleep zero ∨ w.thread = .wait none
end SendqWorld

section
variable {a b : Timeval} {t u : Int}

theorem compare_later : timeval_compare a b > 0 ↔ a.tv_sec > b.tv_sec ∨ a.tv_sec = b.tv_sec ∧ a.tv_usec > b.tv_usec := by
  rw [timeval_compare]
  split_ifs <;> omega
theorem compare_one : timeval_compare a b = 1 ↔ timeval_compare a b > 0 := by
  rw [timeval_compare]
  split_ifs <;> decide
theorem compare_earlier : ¬ timeval_compare a b ≥ 0 ↔ b.tv_sec > a.tv_sec ∨ b.tv_sec = a.tv_sec ∧ b.tv_usec > a.tv_usec := by
  rw [timeval_compare]
  split_ifs <;> constructor <;> intro first <;> omega
theorem ofUsecs_parts (u : Int) : (ofUsecs u).tv_sec*1000000+(ofUsecs u).tv_usec = u ∧ -1000000 < (ofUsecs u).tv_usec ∧
    (ofUsecs u).tv_usec < 1000000 ∧ (0 < u → 0 ≤ (ofUsecs u).tv_sec ∧ 0 ≤ (ofUsecs u).tv_usec) ∧
      (u < 0 → (ofUsecs u).tv_sec ≤ 0 ∧ (ofUsecs u).tv_usec ≤ 0) := by
  obtain ⟨n,rfl | rfl⟩ := Int.eq_nat_or_neg u
  · grind [ofUsecs]
  · simp only [ofUsecs,Int.neg_tdiv,Int.neg_tmod,Int.tdiv_eq_ediv_of_nonneg (Int.natCast_nonneg n),
      Int.tmod_eq_emod_of_nonneg (Int.natCast_nonneg n)]
    omega
theorem ofUsecs_zero : ofUsecs u = zero ↔ u = 0 := by
  constructor
  · grind [ofUsecs_parts,zero]
  · rintro rfl
    rfl

/-- A time reached by addition that is later than the clock is later by some microseconds. -/
theorem sub_later (proper : b.Proper) (later : timeval_compare (ofUsecs u) b > 0) : SUB_TV (ofUsecs u) b ≠ zero := by
  obtain ⟨sec,low,high⟩ := proper
  obtain ⟨total,_,_,positive,negative⟩ := ofUsecs_parts u
  rw [SUB_TV,Ne,ofUsecs_zero]
  rcases compare_later.mp later with more | ⟨same,more⟩ <;> omega
/-- So is a send time that the clock has not reached. -/
theorem sub_not_due (proper : a.Proper) (usec : 0 ≤ b.tv_usec) (early : ¬ timeval_compare a b ≥ 0) : SUB_TV b a ≠ zero := by
  obtain ⟨sec,low,high⟩ := proper
  rw [SUB_TV,Ne,ofUsecs_zero]
  rcases compare_earlier.mp early with more | ⟨same,more⟩ <;> omega
/-- The maximum is zero only if neither time is positive. -/
theorem max_zero (none' : MAX_TV (ofUsecs t) (ofUsecs u) = zero) : t ≤ 0 ∧ u ≤ 0 := by
  obtain ⟨totalT,_,_,positiveT,negativeT⟩ := ofUsecs_parts t
  obtain ⟨totalU,_,_,positiveU,negativeU⟩ := ofUsecs_parts u
  rw [MAX_TV] at none'
  split_ifs at none' with later
  · obtain rfl := ofUsecs_zero.mp none'
    have first := compare_later.mp (compare_one.mp later)
    omega
  · obtain rfl := ofUsecs_zero.mp none'
    rw [compare_one,compare_later] at later
    omega

end

section
variable {curr_time : Timeval} {written : Nat → Bool} {sendq sendq' : Sendq}

/-- What the invariant needs of a queue. -/
structure Sendq.Regular (sendq : Sendq) : Prop where
  bandwidth_ts : ∃ u, sendq.bandwidth_ts = ofUsecs u
  entries : ∀ entry ∈ sendq.entries, 0 ≤ entry.send_time.tv_usec
/-- The iteration sends a packet that takes no time at the bandwidth, while the next one is due. -/
def Stalls (sendq : Sendq) (curr_time : Timeval) : Prop :=
  ∃ front prev tail, sendq.entries = front ++ [prev,tail] ∧ 0 < sendq.queue_bandwidth ∧
    time_stamp tail sendq.queue_bandwidth ≤ 0 ∧ prev.send_time.usecs ≤ curr_time.usecs

theorem limitedIteration_sleeps (regular : sendq.Regular) (proper : curr_time.Proper) (limit : 0 < sendq.queue_bandwidth)
    (calm : ¬ Stalls sendq curr_time) (result : limitedIteration curr_time written sendq = (sendq',some zero)) :
    sendq'.entries = [] := by
  obtain ⟨⟨u,reached⟩,micros⟩ := regular
  rw [limitedIteration] at result
  by_cases later : timeval_compare sendq.bandwidth_ts curr_time > 0
  · -- the bandwidth forbids sending
    rw [if_pos later] at result
    rw [reached] at later
    have same := some.inj (Prod.mk.inj result).2
    rw [reached] at same
    exact absurd same (sub_later proper later)
  · rw [if_neg later] at result
    cases last : sendq.entries.getLast? with
    | none =>
      rw [last] at result
      obtain ⟨rfl,_⟩ := Prod.mk.inj result
      exact List.getLast?_eq_none_iff.mp last
    | some tail =>
      simp only [last] at result
      by_cases due : timeval_compare curr_time tail.send_time ≥ 0
      · rw [if_pos due] at result
        cases ok : written 0 with
        | false => simp [ok] at result
        | true =>
          simp only [ok,if_true] at result
          obtain ⟨rfl,same⟩ := Prod.mk.inj result
          cases previous : sendq.entries.dropLast.getLast? with
          | none => exact List.getLast?_eq_none_iff.mp previous
          | some prev =>
            rw [previous] at same
            obtain ⟨noTime,reachedToo⟩ := max_zero (some.inj same)
            refine absurd ⟨sendq.entries.dropLast.dropLast,prev,tail,?_,limit,noTime,?_⟩ calm
            · have whole := List.dropLast_append_getLast? tail last
              have whole' := List.dropLast_append_getLast? prev previous
              calc sendq.entries = sendq.entries.dropLast ++ [tail] := whole.symm
                _ = sendq.entries.dropLast.dropLast ++ [prev] ++ [tail] := by rw [whole']
                _ = sendq.entries.dropLast.dropLast ++ [prev,tail] := by simp
            · simp only [usecs]
              omega
      · -- the packet is not due
        rw [if_neg due] at result
        have present := mem_of_getLast? last
        exact absurd (some.inj (Prod.mk.inj result).2) (sub_not_due proper (micros tail present) due)
theorem limitedIteration_regular (regular : sendq.Regular) : (limitedIteration curr_time written sendq).1.Regular := by
  obtain ⟨reached,micros⟩ := regular
  have front : ∀ entry ∈ sendq.entries.dropLast, 0 ≤ entry.send_time.tv_usec := fun entry member =>
    micros entry (List.dropLast_subset _ member)
  rw [limitedIteration]
  by_cases later : timeval_compare sendq.bandwidth_ts curr_time > 0
  · rw [if_pos later]
    exact ⟨reached,micros⟩
  · rw [if_neg later]
    cases sendq.entries.getLast? with
    | none => exact ⟨⟨0,rfl⟩,micros⟩
    | some tail =>
      simp only
      split_ifs
      · exact ⟨⟨_,rfl⟩,front⟩
      · exact ⟨⟨_,rfl⟩,micros⟩
      · exact ⟨⟨0,rfl⟩,micros⟩

theorem sendDue_subset (n : Nat) (entries : List SendqEntry) : (sendDue curr_time written n entries).1 ⊆ entries := by
  induction entries generalizing n with
  | nil => simp [sendDue]
  | cons tail rest ih => grind [sendDue]
/-- Where all packets were written, the first one left is not due. -/
theorem sendDue_left {n : Nat} {entries rest : List SendqEntry} {tail : SendqEntry}
    (result : sendDue curr_time written n entries = (tail :: rest,true)) : ¬ timeval_compare curr_time tail.send_time ≥ 0 := by
  induction entries generalizing n with
  | nil => simp [sendDue] at result
  | cons first others ih =>
    rw [sendDue] at result
    split_ifs at result with due
    · exact ih result
    · simp at result
    · grind

variable (regular : sendq.Regular)
include regular
theorem unlimitedIteration_sleeps (proper : curr_time.Proper)
    (result : unlimitedIteration curr_time written sendq = (sendq',some zero)) : sendq'.entries = [] := by
  rw [unlimitedIteration] at result
  cases sent : sendDue curr_time written 0 sendq.entries.reverse with | mk rest all =>
  rw [sent] at result
  cases all with
  | false => simp at result
  | true =>
    cases rest with
    | nil =>
      obtain ⟨rfl,_⟩ := Prod.mk.inj result
      rfl
    | cons tail rest =>
      have present : tail ∈ sendq.entries.reverse := sendDue_subset 0 _ (by rw [sent]; simp)
      have same : SUB_TV tail.send_time curr_time = zero := some.inj (Prod.mk.inj result).2
      exact absurd same (sub_not_due proper (regular.entries tail (mem_reverse.mp present)) (sendDue_left sent))
theorem unlimitedIteration_regular : (unlimitedIteration curr_time written sendq).1.Regular := by
  rw [unlimitedIteration]
  have subset := @sendDue_subset curr_time written 0 sendq.entries.reverse
  cases sent : sendDue curr_time written 0 sendq.entries.reverse with | mk rest all =>
  rw [sent] at subset
  have left : ∀ entry ∈ rest.reverse, 0 ≤ entry.send_time.tv_usec := fun entry member =>
    regular.entries entry (mem_reverse.mp (subset (mem_reverse.mp member)))
  cases all with
  | false => exact ⟨regular.bandwidth_ts,left⟩
  | true => cases rest <;> exact ⟨⟨0,rfl⟩,left⟩

/-- The thread goes to sleep without timeout only if no packet is left. -/
theorem sendIteration_sleeps (proper : curr_time.Proper) (calm : ¬ Stalls sendq curr_time)
    (result : sendIteration curr_time written sendq = (sendq',some zero)) : sendq'.entries = [] := by
  grind [limitedIteration_sleeps,unlimitedIteration_sleeps,sendIteration]
theorem sendIteration_regular : (sendIteration curr_time written sendq).1.Regular := by
  rw [sendIteration]
  split_ifs
  · exact limitedIteration_regular regular
  · exact unlimitedIteration_regular regular

end

section
variable {w w' : SendqWorld} {a : SendqAction}

theorem insertLoop_mem {entry x : SendqEntry} {entries : List SendqEntry} (member : x ∈ (insertLoop entry entries).1) :
    x = entry ∨ x ∈ entries := by
  induction entries with
  | nil => simpa [insertLoop] using member
  | cons current rest ih =>
    rw [insertLoop] at member
    split_ifs at member
    · grind
    · simpa using member
/-- An entry put into an empty queue comes to the tail. -/
theorem insert_spec {queue queue' : Sendq} {entry : SendqEntry} {last : Bool}
    (inserted : tadf_sendq_entry_insert queue entry = some (queue',last)) :
    (∀ x ∈ queue'.entries, x = entry ∨ x ∈ queue.entries) ∧ queue'.bandwidth_ts = queue.bandwidth_ts ∧
      (queue.entries = [] → last = true) := by
  rw [tadf_sendq_entry_insert] at inserted
  split_ifs at inserted
  cases shape : queue.entries with
  | nil => grind
  | cons current rest =>
    rw [shape] at inserted
    simp only at inserted
    split_ifs at inserted
    · obtain ⟨rfl,rfl⟩ := of_pair inserted
      simp
    · obtain ⟨rfl,rfl⟩ := of_pair inserted
      refine ⟨fun x member => ?_,rfl,by simp⟩
      rcases mem_cons.mp member with rfl | later
      · simp
      · rcases insertLoop_mem later with rfl | found
        · simp
        · simp [found]

/-- The steps that keep the thread from sleeping on packets: no iteration sends a packet that takes
    no time at the bandwidth while the next one is due, and the microseconds of send times are not
    negative. -/
def Calm (w : SendqWorld) : SendqAction → Prop
  | .put _ mdump => 0 ≤ mdump.tv_usec
  | .iterate curr_time _ => ¬ Stalls w.sendq curr_time.1
  | _ => True
/-- A thread in the wait without timeout is going to be woken for the packets of its queue. -/
structure Heard (w : SendqWorld) : Prop where
  regular : w.sendq.Regular
  heard : w.Untimed → w.sendq.entries ≠ [] → .WAKE ∈ w.socket ∨ 0 < w.writers

section
variable (before : Heard w)
include before
theorem put_heard {pkt : List UInt8} {mdump : Timeval} (micros : 0 ≤ mdump.tv_usec)
    (next : w.step (.put pkt mdump) = some w') : Heard w' := by
  rw [SendqWorld.step] at next
  cases inserted : tadf_sendq_entry_insert w.sendq ⟨pkt,mdump⟩ with
  | none => grind
  | some result =>
    obtain ⟨queue,last⟩ := result
    rw [inserted] at next
    obtain rfl := some.inj next
    obtain ⟨members,same,first⟩ := insert_spec inserted
    refine ⟨⟨?_,fun x member => ?_⟩,fun untimed _ => ?_⟩
    · simp [same,before.regular.bandwidth_ts]
    · rcases members x member with rfl | old
      · exact micros
      · exact before.regular.entries x old
    · by_cases empty : w.sendq.entries = []
      · right
        simp [first empty]
      · refine (before.heard untimed empty).imp_right fun waiting => ?_
        show 0 < if last = true then w.writers+1 else w.writers
        split_ifs <;> omega
theorem iterate_heard {curr_time : {tv : Timeval // tv.Proper}} {written : Nat → Bool}
    (calm : ¬ Stalls w.sendq curr_time.1) (next : w.step (.iterate curr_time written) = some w') : Heard w' := by
  rw [SendqWorld.step] at next
  split_ifs at next
  have regular := @sendIteration_regular curr_time.1 written _ before.regular
  cases result : sendIteration curr_time.1 written w.sendq with | mk sendq slept =>
  rw [result] at next regular
  cases slept with
  | none =>
    obtain rfl := some.inj next
    exact ⟨regular,fun untimed => by simp [SendqWorld.Untimed] at untimed⟩
  | some sleep_tv =>
    obtain rfl := some.inj next
    refine ⟨regular,fun untimed packets => absurd ?_ packets⟩
    obtain rfl : sleep_tv = zero := by simpa [SendqWorld.Untimed] using untimed
    exact sendIteration_sleeps before.regular curr_time.2 calm result
theorem select_heard (next : w.step .select = some w') : Heard w' := by
  rw [SendqWorld.step] at next
  cases at' : w.thread with
  | sleep sleep_tv =>
    rw [at'] at next
    obtain rfl := some.inj next
    refine ⟨before.regular,fun untimed => before.heard (.inl ?_)⟩
    by_cases none' : sleep_tv = zero
    · rw [at',none']
    · simp [SendqWorld.Untimed,none'] at untimed
  | _ => simp [at'] at next
/-- The steps that leave the wait. -/
theorem awake_heard (sendq : w'.sendq = w.sendq) (awake : w'.thread = .iterate ∨ w'.thread = .exited) : Heard w' := by
  refine ⟨sendq ▸ before.regular,fun untimed => ?_⟩
  rcases awake with at' | at' <;> simp [SendqWorld.Untimed,at'] at untimed
theorem step_heard (calm : Calm w a) (next : w.step a = some w') : Heard w' := by
  cases a with
  | put pkt mdump => exact put_heard before calm next
  | iterate curr_time written => exact iterate_heard before calm next
  | select => exact select_heard before next
  | wake =>
    rw [SendqWorld.step] at next
    split_ifs at next
    obtain rfl := some.inj next
    exact ⟨before.regular,fun _ _ => .inl (by simp)⟩
  | set_size_max value | set_bandwidth value =>
    obtain rfl := some.inj next
    exact ⟨⟨before.regular.bandwidth_ts,before.regular.entries⟩,before.heard⟩
  | free =>
    obtain rfl := some.inj next
    exact ⟨before.regular,fun untimed packets => (before.heard untimed packets).imp_left fun found => by simp [found]⟩
  | timeout =>
    rw [SendqWorld.step] at next
    split at next
    · obtain rfl := some.inj next
      exact awake_heard before rfl (.inl rfl)
    · cases next
  | read =>
    rw [SendqWorld.step] at next
    split at next
    · obtain rfl := some.inj next
      exact awake_heard before rfl (.inl rfl)
    · obtain rfl := some.inj next
      exact awake_heard before rfl (.inr rfl)
    · cases next
  | fail =>
    rw [SendqWorld.step] at next
    split at next
    · obtain rfl := some.inj next
      exact awake_heard before rfl (.inr rfl)
    · cases next
end

/-- The worlds reached by steps that meet the condition, from a new send queue. -/
def SendqReach (ok : SendqWorld → SendqAction → Prop) : SendqWorld → Prop :=
  Reach (fun w => ∃ bandwidth size_max, w = .init bandwidth size_max) (fun w a w' => w.step a = some w') ok

theorem SendqReach.heard (reached : SendqReach Calm w) : Heard w := by
  have kept : ∀ s a t, Heard s → Calm s a → s.step a = some t → Heard t := fun _ _ _ before calm next =>
    step_heard before calm next
  refine Reach.invariant ?_ kept reached
  rintro _ ⟨bandwidth,size_max,rfl⟩
  exact ⟨⟨⟨0,rfl⟩,by simp [SendqWorld.init]⟩,by simp [SendqWorld.init]⟩

/-- While packets are left, the thread is in the wait without timeout only with a message to read,
    once every producer has written its own. -/
theorem sendq_wait_has_message (reached : SendqReach Calm w) (untimed : w.Untimed) (packets : w.sendq.entries ≠ [])
    (written : w.writers = 0) : .WAKE ∈ w.socket := by
  rcases reached.heard.heard untimed packets with found | waiting
  · exact found
  · omega

/-- The clock and the packet of the runs below. -/
def fiveSeconds : {tv : Timeval // tv.Proper} := ⟨⟨5,0⟩,by decide⟩
def somePacket : SendqAction := .put [0] ⟨1,0⟩
/-- A queue that is empty when the thread looks, and gets a packet before the wait. -/
def lateWorld : SendqWorld :=
  {sendq := {entries := [⟨[0],⟨1,0⟩⟩],queue_size_max := 10,queue_size := 1,queue_bandwidth := 0,bandwidth_ts := zero}
   thread := .wait none,socket := [.WAKE],writers := 0}

theorem sendq_wait_has_message_late : .WAKE ∈ lateWorld.socket := by
  have start : SendqReach Calm (.init 0 10) := .start ⟨0,10,rfl⟩
  have empty : SendqReach Calm _ := start.step (a := .iterate fiveSeconds fun _ => true)
    (by rintro ⟨front,_,_,split,_⟩; cases front <;> cases split) rfl
  have packet : SendqReach Calm _ := empty.step (a := somePacket) (show (0 : Int) ≤ 0 by decide) rfl
  have message : SendqReach Calm _ := packet.step (a := .wake) trivial rfl
  have waits : SendqReach Calm lateWorld := message.step (a := .select) trivial rfl
  exact sendq_wait_has_message waits (.inr rfl) (by decide) rfl

/-- The world after some steps. -/
def SendqWorld.run : SendqWorld → List SendqAction → Option SendqWorld
  | w, [] => some w
  | w, a :: rest => (w.step a).bind fun w' => w'.run rest
theorem SendqReach.run {actions : List SendqAction} (reached : SendqReach (fun _ _ => True) w) (ran : w.run actions = some w') :
    SendqReach (fun _ _ => True) w' := by
  induction actions generalizing w with
  | nil =>
    obtain rfl := some.inj ran
    exact reached
  | cons a rest ih =>
    obtain ⟨w1,first,later⟩ := of_bind ran
    exact ih (reached.step trivial first) later
/-- Three packets of one byte at two megabytes a second: the first one's message is read, and the
    thread sleeps on the last one. -/
def stallingSteps : List SendqAction :=
  [somePacket,.wake,somePacket,somePacket,.iterate fiveSeconds fun _ => true,.select,.read,
    .iterate fiveSeconds fun _ => true,.select]
theorem sendq_sleeps_on_packet : ¬ ∀ w, SendqReach (fun _ _ => True) w → w.Untimed → w.sendq.entries ≠ [] → w.writers = 0 →
    .WAKE ∈ w.socket := by
  intro claim
  have start : SendqReach (fun _ _ => True) (.init 2000000 10) := .start ⟨2000000,10,rfl⟩
  have ran : ∃ w, (SendqWorld.init 2000000 10).run stallingSteps = some w ∧ w.thread = .wait none ∧
      w.sendq.entries = [⟨[0],⟨1,0⟩⟩] ∧ w.writers = 0 ∧ w.socket = [] := ⟨_,rfl,rfl,rfl,rfl,rfl⟩
  obtain ⟨w,ran,thread,packets,written,unread⟩ := ran
  have found := claim w (start.run ran) (.inr thread) (by simp [packets]) written
  simp [unread] at found

end

end TestEnvironment.Tad
