import TestEnvironment.Lib.Names

/-!
Queues of message pointers of the report generator: a queue is kept partly in memory and partly in a
temporary file, to which the pointers with old timestamps are offloaded (`flow_tree.c`).
-/
namespace TestEnvironment.Rgt
open Lib

/-- Seconds and microseconds, in the order of `TIMESTAMP_CMP`. -/
abbrev Timestamp := Nat ×ₗ Nat
def Timestamp.of (sec usec : Nat) : Timestamp := toLex (sec,usec)
def Timestamp.sec (ts : Timestamp) : Nat := (ofLex ts).1
def Timestamp.usec (ts : Timestamp) : Nat := (ofLex ts).2
def OFFLOAD_TIMEOUT : Nat := 5
def OFFLOAD_MSG_NUM : Nat := 1000
def OFFLOAD_INTERVAL : Nat := 3

structure LogMsgPtr where
  offset : Nat
  timestamp : Timestamp
  deriving DecidableEq, Inhabited
/-- A link of a queue: `data` is the address of a message pointer. -/
structure GList where
  link : Nat
  data : Nat
  deriving DecidableEq
/-- `cache` is the address of a link. -/
structure MsgQueue where
  queue : List GList
  cache : Option Nat
  offloaded : Bool
  offload_ts : Timestamp
def msg_queue_init : MsgQueue := ⟨[],none,false,.of 0 0⟩
/-- Memory of message pointers, the queues and their files, and the static variables; links and
message pointers are allocated at `next`. `tmp_dir` tells whether there is a directory for files. -/
structure FlowState where
  heap : Nat → Option LogMsgPtr
  next : Nat
  queues : Nat → MsgQueue
  files : Nat → Option (List LogMsgPtr)
  tmp_dir : Bool
  offload_queue : List Nat
  last_offload_ts : Timestamp
  first_msg : Bool
  msg_counter : Nat

namespace FlowState
def init (tmp_dir : Bool) : FlowState :=
  ⟨fun _ => none,0,fun _ => msg_queue_init,fun _ => none,tmp_dir,[],.of 0 0,true,0⟩
variable (s : FlowState)

def setQueue (q : Nat) (f : MsgQueue → MsgQueue) : FlowState := { s with queues := update s.queues q (f (s.queues q)) }
/-- A new link for a message pointer. -/
def newLink (data : Nat) : GList × FlowState := (⟨s.next,data⟩,{ s with next := s.next+1 })
def alloc (msg : LogMsgPtr) : Nat × FlowState := (s.next,{ s with heap := update s.heap s.next (some msg), next := s.next+1 })
def log_msg_ref (offset : Nat) (timestamp : Timestamp) : Nat × FlowState := s.alloc ⟨offset,timestamp⟩
/-- Freed memory has no timestamp any more. -/
def stamp (data : Nat) : Option Timestamp := (s.heap data).map LogMsgPtr.timestamp
/-- What a loop over links passes, and the rest. -/
def passWhile (p : Timestamp → Bool) : List GList → Option (List GList × List GList)
  | [] => some ([],[])
  | e :: es => do
    let ts ← s.stamp e.data
    if p ts then
      let (passed,rest) ← passWhile p es
      return (e :: passed,rest)
    else return ([],e :: es)
/-- The place of a link in a queue. -/
def cutAt (link : Nat) : List GList → Option (List GList × GList × List GList)
  | [] => none
  | e :: es => if e.link = link then some ([],e,es) else (cutAt link es).map fun (before,at_link,after) => (e :: before,at_link,after)
/-- The timestamp at the tail, if there is any. -/
def tailStamp (queue : List GList) : Option (Option Timestamp) :=
  match queue.getLast? with
  | none => some none
  | some tail => (s.stamp tail.data).map some
/-- The loops that start from the cached link; a loop that runs off the queue has no end. -/
def attachFrom (before : List GList) (cached : GList) (after : List GList) (new : GList) (ts : Timestamp) (cache : Option Nat) :
    Option (List GList × Option Nat) := do
  let cached_ts ← s.stamp cached.data
  let back := (s.passWhile (fun elem => decide (ts < elem)) before.reverse).map fun (passed,rest) =>
    (rest.reverse ++ new :: passed.reverse ++ cached :: after,cache)
  match after with
  | [] => back
  | follows :: further =>
    if cached_ts ≤ ts then
      let follows_ts ← s.stamp follows.data
      if ts ≤ follows_ts then return (before ++ cached :: new :: follows :: further,some new.link)
      else
        let (passed,rest) ← s.passWhile (fun elem => decide (elem < ts)) further
        if rest = [] then none else return (before ++ cached :: follows :: passed ++ new :: rest,some new.link)
    else back
def attach_msg_to_gqueue (queue : List GList) (cache : Option Nat) (new : GList) : Option (List GList × Option Nat) := do
  let ts ← s.stamp new.data
  let tail ← s.tailStamp queue
  if tail.any (· ≤ ts) then return (queue ++ [new],cache)
  else
    match cache with
    | some link =>
      let (before,cached,after) ← cutAt link queue
      s.attachFrom before cached after new ts cache
    | none =>
      let (passed,rest) ← s.passWhile (fun elem => decide (elem < ts)) queue
      let queue := passed ++ new :: rest
      return (queue,(queue.find? fun e => e.data = new.data).map GList.link)

/-- The loop of `msg_queue_offload` over the head of the queue. -/
def offloadLoop (q : Nat) (end_ts : Timestamp) : List GList → FlowState → Option FlowState
  | [],s => some s
  | e :: rest,s => do
    let msg ← s.heap e.data
    if end_ts < msg.timestamp then return s
    else
      let s := { s with files := update s.files q (some ((s.files q).getD [] ++ [msg])), heap := update s.heap e.data none }
      offloadLoop q end_ts rest (s.setQueue q fun mq => { mq with queue := rest, offload_ts := msg.timestamp, offloaded := true })
def msg_queue_offload (q : Nat) (end_ts : Timestamp) : Option FlowState :=
  if (s.queues q).queue = [] then some s
  else if s.tmp_dir = false then some s
  else if end_ts ≤ (s.queues q).offload_ts then some s
  else do
    let s := { s with files := update s.files q (some ((s.files q).getD [])) }
    let s ← offloadLoop q end_ts (s.queues q).queue s
    return s.setQueue q fun mq => { mq with cache := none }

/-- The binary search for the first record to be reloaded, between `req_start` and `req_end`. -/
def searchStart (records : List LogMsgPtr) (start_ts : Timestamp) : Nat → Nat → Nat → Option Nat
  | 0,_,_ => none
  | fuel+1,req_start,req_end =>
    if 1 < req_end-req_start then do
      let req_middle := (req_start+req_end)/2
      let msg_ptr ← records[req_middle]?
      if start_ts ≤ msg_ptr.timestamp then searchStart records start_ts fuel req_start req_middle
      else searchStart records start_ts fuel req_middle req_end
    else some req_start
/-- The number of the record where reloading starts to read; all old records may be reloaded. -/
def reloadStart (records : List LogMsgPtr) (first : LogMsgPtr) (start_ts : Option Timestamp) : Option Nat :=
  match start_ts with
  | some ts => if first.timestamp < ts then searchStart records ts records.length 0 (records.length-1) else some 0
  | none => some 0
/-- The records from `req_start` on: those that are old are left, the others go one behind another to
the front of the queue. `truncate_length` is the number of the first of them. -/
def reloadLoop (q : Nat) (start_ts : Option Timestamp) : List LogMsgPtr → Nat → Option Nat → FlowState → Option (Option Nat × FlowState)
  | [],_,truncate_length,s => some (truncate_length,s)
  | msg :: records,pos,truncate_length,s =>
    if start_ts.all (· ≤ msg.timestamp) then
      let s := if truncate_length = none then s.setQueue q fun mq => { mq with offload_ts := msg.timestamp } else s
      let truncate := truncate_length.getD pos
      let (data,s) := s.alloc msg
      let (new,s) := s.newLink data
      reloadLoop q start_ts records (pos+1) (some truncate)
        (s.setQueue q fun mq => { mq with queue := mq.queue.insertIdx (pos-truncate) new })
    else if truncate_length = none then reloadLoop q start_ts records (pos+1) none s
    else none
/-- The file without the records that have been reloaded. -/
def truncateFile (q : Nat) (records : List LogMsgPtr) (truncate_length : Option Nat) : FlowState :=
  let s := if truncate_length = some 0 then s.setQueue q fun mq => { mq with offloaded := false } else s
  match truncate_length with
  | none => s
  | some length => { s with files := update s.files q (some (records.take length)) }
def msg_queue_reload (q : Nat) (start_ts : Option Timestamp) : Option FlowState :=
  if (s.queues q).offloaded = false then some s
  else if s.tmp_dir = false then some s
  else do
    let records ← s.files q
    match records with
    | [] => return s
    | first :: _ =>
      let req_start ← reloadStart records first start_ts
      let (truncate_length,s) ← reloadLoop q start_ts (records.drop req_start) req_start none s
      return s.truncateFile q records truncate_length
/-- What `msg_queue_foreach` reads from the file. -/
def offloadedPart (q : Nat) : Option (List LogMsgPtr) := if s.tmp_dir && (s.queues q).offloaded then s.files q else some []
/-- The messages that a callback sees. -/
def msg_queue_foreach (q : Nat) : Option (List LogMsgPtr) := do
  let offloaded ← s.offloadedPart q
  let queue ← (s.queues q).queue.mapM fun e => s.heap e.data
  return offloaded ++ queue

/-- The loop over the offload queue, and the links that it leaves in it. -/
def offloadAll (end_ts : Timestamp) : List Nat → FlowState → Option (List Nat × FlowState)
  | [],s => some ([],s)
  | q :: rest,s => do
    let s ← s.msg_queue_offload q end_ts
    let empty : Bool := (s.queues q).queue = []
    let (kept,s) ← offloadAll end_ts rest s
    return (if empty then kept else q :: kept,s)
/-- Seconds of the difference of two timestamps, the first not before the second. -/
def diffSec (ts earlier : Timestamp) : Nat := if ts.usec < earlier.usec then ts.sec-earlier.sec-1 else ts.sec-earlier.sec
/-- The static variables of `msg_queue_attach` for a message, and up to which time it offloads. -/
def noteMessage (ts : Timestamp) : Option Timestamp × FlowState :=
  let s := { s with msg_counter := s.msg_counter+1 }
  if s.first_msg then (none,{ s with first_msg := false, last_offload_ts := ts })
  else if s.last_offload_ts < ts ∧ OFFLOAD_TIMEOUT ≤ diffSec ts s.last_offload_ts ∧ OFFLOAD_MSG_NUM ≤ s.msg_counter then
    let end_ts := Timestamp.of (if OFFLOAD_INTERVAL ≤ ts.sec then ts.sec-OFFLOAD_INTERVAL else 0) ts.usec
    (some end_ts,{ s with msg_counter := 0, last_offload_ts := end_ts })
  else (none,s)
def offloadDue (due : Option Timestamp) : Option FlowState :=
  match due with
  | none => some s
  | some end_ts => (offloadAll end_ts s.offload_queue s).map fun (kept,s) => { s with offload_queue := kept }
/-- An empty queue enters the offload queue. -/
def enterQueue (q : Nat) : FlowState := if (s.queues q).queue = [] then { s with offload_queue := s.offload_queue ++ [q] } else s
/-- A late message needs what has been offloaded behind it. -/
def reloadLate (q : Nat) (ts : Timestamp) : Option FlowState :=
  if ts < (s.queues q).offload_ts then s.msg_queue_reload q (some ts) else some s
/-- `msg_queue_attach` behind the offloading. -/
def attachMessage (q msg : Nat) (ts : Timestamp) : Option FlowState := do
  let s ← (s.enterQueue q).reloadLate q ts
  let (new,s) := s.newLink msg
  let (queue,cache) ← s.attach_msg_to_gqueue (s.queues q).queue (s.queues q).cache new
  return s.setQueue q fun mq =>
    { mq with
      queue
      cache }
def msg_queue_attach (q msg : Nat) : Option FlowState := do
  let ts ← s.stamp msg
  let (due,s) := s.noteMessage ts
  let s ← s.offloadDue due
  let ts ← s.stamp msg
  s.attachMessage q msg ts
end FlowState
end TestEnvironment.Rgt
