import TestEnvironment.Ipc.Server

/-!
A user of an IPC server, who makes one call after the other: with the client of the last
call after `TE_ESMALLBUF`, and else with none. Whatever the sizes of the buffers and the
order in which the datagrams of the clients have come in, every message is handed out once
(`server_hands_out`).
-/
namespace TestEnvironment.Ipc
open Lib

/-- Why a user cannot go on. -/
inductive Failure
  | stop (stop : Stop)
  | error (e : TeErrno)
  deriving DecidableEq, Repr
/-- A user with the octets of the message being received, and the messages received with their
    senders. -/
structure Receiver (Sockaddr : Type) where
  ipcs : IpcServer Sockaddr
  p_ipcsc : Option Sockaddr
  part : Octets
  messages : List (Sockaddr × Octets)

section
variable {σ : Type} {call : σ → Nat → Except Failure σ} {sizes : Nat → Nat} {n : Nat} {r r₁ r₂ : σ}

theorem calls_then (first : ((List.range n).map sizes).foldlM call r = .ok r₁) (m : Nat) :
    ((List.range (n+m)).map sizes).foldlM call r = ((List.range m).map fun i => sizes (n+i)).foldlM call r₁ := by
  rw [List.range_add,map_append,map_map,List.foldlM_append,first]
  rfl
theorem calls_first (first : call r (sizes 0) = .ok r₁) (rest : ((List.range n).map fun i => sizes (i+1)).foldlM call r₁ = .ok r₂) :
    ((List.range (n+1)).map sizes).foldlM call r = .ok r₂ := by
  rw [List.range_succ_eq_map,map_cons,map_map,foldlM_cons,first]
  exact rest
/-- What has been received and what is to come are together the same. -/
theorem sentBy_total {Name : Type} [DecidableEq Name] {msgs : Name → List Octets} {name : Name} {msg : Octets} {later : List Octets}
    (here : msgs name = msg :: later) (received : List (Name × Octets)) (a : Name) :
    sentBy a (received ++ [(name,msg)]) ++ update msgs name later a = sentBy a received ++ msgs a := by
  rw [sentBy_append,append_assoc]
  by_cases same : a = name
  · simp [same,here,sentBy_cons_same]
  · rw [sentBy_cons_other (Ne.symm same),update_of_ne same]
    rfl
end

section
variable {Sockaddr : Type} [DecidableEq Sockaddr]

/-- A new server at whose socket the datagrams come in. -/
def IpcServer.fresh (socket : List (Sockaddr × Datagram)) : IpcServer Sockaddr := ⟨fun _ => .new,[],socket⟩
def Receiver.start (socket : List (Sockaddr × Datagram)) : Receiver Sockaddr := ⟨.fresh socket,none,[],[]⟩

def Receiver.call (r : Receiver Sockaddr) (buf_len : Nat) : Except Failure (Receiver Sockaddr) :=
  match ipc_dgram_receive_message r.ipcs buf_len r.p_ipcsc with
  | .error stop => .error (.stop stop)
  | .ok received =>
    match received.rc with
    | none =>
      let message := received.p_ipcsc.map fun sa => (sa,r.part ++ received.buf)
      .ok ⟨received.ipcs,none,[],r.messages ++ message.toList⟩
    | some .ESMALLBUF => .ok {r with ipcs := received.ipcs,p_ipcsc := received.p_ipcsc,part := r.part ++ received.buf}
    | some e => .error (.error e)
/-- The calls with buffers of the sizes. -/
def Receiver.calls (r : Receiver Sockaddr) (sizes : List Nat) : Except Failure (Receiver Sockaddr) := sizes.foldlM Receiver.call r

/-- A server that is to receive these messages. -/
structure Expects (ipcs : IpcServer Sockaddr) (msgs : Sockaddr → List Octets) : Prop where
  idle : ∀ a, (ipcs.clients a).Idle
  unread : ∀ a, sentBy a ipcs.arrived = (msgs a).flatMap ipc_dgram_send_message

variable {ipcs ipcs' : IpcServer Sockaddr} {msgs : Sockaddr → List Octets} {r : Receiver Sockaddr} {sa : Sockaddr} {msg : Octets}
  {later : List Octets} {k buf_len : Nat}

/-- All clients but the one of whose message a part has been received. -/
structure ExpectsBut (sa : Sockaddr) (ipcs : IpcServer Sockaddr) (msgs : Sockaddr → List Octets) : Prop where
  idle : ∀ a, a ≠ sa → (ipcs.clients a).Idle
  unread : ∀ a, a ≠ sa → sentBy a ipcs.arrived = (msgs a).flatMap ipc_dgram_send_message

theorem ExpectsBut.apart (others : ExpectsBut sa ipcs msgs) (apart : Apart sa ipcs ipcs') : ExpectsBut sa ipcs' msgs where
  idle a other := by rw [apart.clients a other]; exact others.idle a other
  unread a other := by rw [apart.unread a other]; exact others.unread a other
theorem ExpectsBut.all (others : ExpectsBut sa ipcs msgs) (idle : (ipcs.clients sa).Idle)
    (unread : sentBy sa ipcs.arrived = later.flatMap ipc_dgram_send_message) :
    Expects ipcs (update msgs sa later) where
  idle a := by
    by_cases same : a = sa
    · exact same ▸ idle
    · exact others.idle a same
  unread a := by
    by_cases same : a = sa
    · subst same
      rw [unread,update_self]
    · rw [others.unread a same,update_of_ne same]

/-- The receiver after some octets of a message. -/
structure Receives (r : Receiver Sockaddr) (sa : Sockaddr) (msg : Octets) (k : Nat) (later : List Octets) (msgs : Sockaddr → List Octets) : Prop where
  p_ipcsc : r.p_ipcsc = some sa
  part : r.part = msg.take k
  reading : Reading r.ipcs sa msg k (later.flatMap ipc_dgram_send_message)
  others : ExpectsBut sa r.ipcs msgs

/-- What a call makes of a message, of which `k` octets were received before. -/
theorem call_passed {base : IpcServer Sockaddr} (part : r.part = msg.take k) (others : ExpectsBut sa base msgs)
    (passed : Passed base sa msg (later.flatMap ipc_dgram_send_message) k buf_len []
      (ipc_dgram_receive_message r.ipcs buf_len r.p_ipcsc)) :
    ∃ r', r.call buf_len = .ok r' ∧ r'.ipcs.arrived.length ≤ base.arrived.length ∧
      (r'.p_ipcsc = none ∧ r'.part = [] ∧ r'.messages = r.messages ++ [(sa,msg)] ∧ Expects r'.ipcs (update msgs sa later) ∨
        r'.messages = r.messages ∧ Receives r' sa msg (k+buf_len) later msgs) := by
  generalize is : ipc_dgram_receive_message r.ipcs buf_len r.p_ipcsc = received at passed
  rw [Receiver.call,is]
  cases passed with
  | whole enough idle unread apart =>
    refine ⟨_,rfl,apart.fewer,.inl ⟨rfl,rfl,?_,(others.apart apart).all idle unread⟩⟩
    simp [part]
  | part less reading apart =>
    refine ⟨_,rfl,apart.fewer,.inr ⟨rfl,rfl,?_,reading,others.apart apart⟩⟩
    rw [nil_append,part,← take_add]

/-- The receiver between two messages. -/
structure Between (r : Receiver Sockaddr) (msgs : Sockaddr → List Octets) : Prop where
  p_ipcsc : r.p_ipcsc = none
  part : r.part = []
  expects : Expects r.ipcs msgs

/-- The calls that receive the rest of a message. -/
theorem receives_finishes {sizes : Nat → Nat} (positive : ∀ i, 1 ≤ sizes i) (receives : Receives r sa msg k later msgs) :
    ∃ n r', r.calls ((List.range n).map sizes) = .ok r' ∧ r'.ipcs.arrived.length ≤ r.ipcs.arrived.length ∧
      r'.messages = r.messages ++ [(sa,msg)] ∧ Between r' (update msgs sa later) := by
  induction left : msg.length-k using Nat.strong_induction_on generalizing r k sizes with
  | _ left ih =>
    have passed := receive_message_reading receives.reading (positive 0)
    rw [← receives.p_ipcsc] at passed
    obtain ⟨r₁,first,fewer,⟨p,part,messages,expects⟩ | ⟨messages,receives₁⟩⟩ := call_passed receives.part receives.others passed
    · exact ⟨1,r₁,calls_first first rfl,fewer,messages,p,part,expects⟩
    · have more := receives.reading.1
      have one := positive 0
      obtain ⟨n,r₂,rest,fewer₂,messages₂,between⟩ := ih _ (by omega) (fun i => positive (i+1)) receives₁ rfl
      exact ⟨n+1,r₂,calls_first first rest,fewer₂.trans fewer,by rw [messages₂,messages],between⟩
theorem no_messages {m : List Octets} (none : m.flatMap ipc_dgram_send_message = []) : m = [] := by
  cases m with
  | nil => rfl
  | cons msg later =>
    rw [flatMap_cons,ipc_dgram_send_message_eq] at none
    cases none
/-- Between two messages the calls go on until nothing is left. -/
theorem between_finishes {sizes : Nat → Nat} (positive : ∀ i, 1 ≤ sizes i) (between : Between r msgs) :
    ∃ n r', r.calls ((List.range n).map sizes) = .ok r' ∧ r'.p_ipcsc = none ∧ (∀ b, r'.call b = .error (.stop .waiting)) ∧
      ∀ a, sentBy a r'.messages = sentBy a r.messages ++ msgs a := by
  induction left : r.ipcs.arrived.length using Nat.strong_induction_on generalizing r msgs sizes with
  | _ left ih =>
    cases got : nextDatagram none r.ipcs.datagrams r.ipcs.socket with
    | none =>
      -- every datagram has been read
      have arrived : r.ipcs.arrived = [] := by
        by_contra some'
        obtain ⟨p,member⟩ := exists_mem_of_ne_nil _ some'
        have there : (nextDatagram none r.ipcs.datagrams r.ipcs.socket).isSome := nextDatagram_some member rfl
        rw [got] at there
        cases there
      refine ⟨0,r,rfl,between.p_ipcsc,fun b => ?_,fun a => ?_⟩
      · rw [Receiver.call,between.p_ipcsc,ipc_dgram_receive_message,receiveLoop,nextFragment,newFragment,ipc_int_get_datagram,got]
        rfl
      · have none := between.expects.unread a
        rw [arrived,sentBy_nil] at none
        rw [no_messages none.symm,append_nil]
    | some got' =>
      obtain ⟨⟨sa,d⟩,datagrams,socket⟩ := got'
      obtain ⟨msg,later,here⟩ : ∃ msg later, msgs sa = msg :: later := by
        cases is : msgs sa with
        | nil =>
          have none := between.expects.unread sa
          rw [is,List.flatMap_nil] at none
          have first := (nextDatagram_taken got).2.own
          rw [IpcServer.arrived] at none
          rw [none] at first
          cases first
        | cons msg later => exact ⟨msg,later,rfl⟩
      have unread := between.expects.unread sa
      rw [here,flatMap_cons] at unread
      obtain ⟨ipcs₁,apart,fewer₁,passed⟩ := receive_message_new (sizes 0) got (between.expects.idle sa) unread
      have others : ExpectsBut sa r.ipcs msgs := ⟨fun a _ => between.expects.idle a,fun a _ => between.expects.unread a⟩
      rw [← between.p_ipcsc] at passed
      obtain ⟨r₁,first,fewer,⟨p,part,messages,expects⟩ | ⟨messages,receives⟩⟩ :=
        call_passed (between.part.trans List.take_zero.symm) (others.apart apart) passed
      · obtain ⟨n,r₂,rest,done⟩ := ih _ (by omega) (fun i => positive (i+1)) ⟨p,part,expects⟩ rfl
        refine ⟨n+1,r₂,calls_first first rest,done.1,done.2.1,fun a => ?_⟩
        rw [done.2.2 a,messages,sentBy_total here]
      · obtain ⟨n,r₂,second,fewer₂,messages₂,between₂⟩ := receives_finishes (fun i => positive (i+1)) receives
        have two := calls_first first second
        obtain ⟨m,r₃,rest,done⟩ := ih _ (by omega) (fun i => positive (n+1+i)) between₂ rfl
        refine ⟨n+1+m,r₃,(calls_then two m).trans rest,done.1,done.2.1,fun a => ?_⟩
        rw [done.2.2 a,messages₂,messages,sentBy_total here]

/-- Whatever the messages of the clients, the order in which their datagrams come in and the
    sizes of the buffers: after some calls every message has been handed out once, with its
    sender and in the order of its sender's messages, and a further call waits. -/
theorem server_hands_out (msgs : Sockaddr → List Octets) (socket : List (Sockaddr × Datagram))
    (sent : ∀ a, sentBy a socket = (msgs a).flatMap ipc_dgram_send_message) (sizes : Nat → Nat) (positive : ∀ i, 1 ≤ sizes i) :
    ∃ n r, (Receiver.start socket).calls ((List.range n).map sizes) = .ok r ∧ r.p_ipcsc = none ∧
      (∀ b, r.call b = .error (.stop .waiting)) ∧ ∀ a, sentBy a r.messages = msgs a := by
  have between : Between (Receiver.start socket) msgs := ⟨rfl,rfl,fun _ => ⟨rfl,rfl⟩,sent⟩
  exact between_finishes positive between
end
end TestEnvironment.Ipc
