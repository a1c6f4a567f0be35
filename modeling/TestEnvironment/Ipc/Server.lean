import TestEnvironment.Ipc.Datagrams

/-!
The receiving side of an IPC server without connections (`server.c`): messages of several
clients are put together from their datagrams, and handed out in pieces of the size of
the caller's buffer.
-/
namespace TestEnvironment.Ipc
open Lib

/-- The datagram part of `ipc_server_client`. -/
structure IpcServerClient where
  buffer : Datagram
  frag_size : Nat
  frag_rest : Nat
  msg_len : Nat
  msg_rest : Nat
  deriving DecidableEq, Repr
/-- The fields of a new entry. -/
def IpcServerClient.new : IpcServerClient := ⟨⟨0,0,[]⟩,0,0,0,0⟩
/-- `ipc_server`: its clients by their addresses, new ones where there is no entry yet, and the
    datagrams that arrived out of turn. Datagrams arrive at `socket`. -/
structure IpcServer (Sockaddr : Type) where
  clients : Sockaddr → IpcServerClient
  datagrams : List (Sockaddr × Datagram)
  socket : List (Sockaddr × Datagram)

variable {Sockaddr : Type} [DecidableEq Sockaddr]

def IpcServer.setClient (ipcs : IpcServer Sockaddr) (sa : Sockaddr) (c : IpcServerClient) : IpcServer Sockaddr :=
  {ipcs with clients := fun other => if other = sa then c else ipcs.clients other}

def ipc_int_get_datagram (ipcs : IpcServer Sockaddr) (ipcsc : Option Sockaddr) : Except Stop (Sockaddr × IpcServer Sockaddr) :=
  match nextDatagram ipcsc ipcs.datagrams ipcs.socket with
  | none => .error .waiting
  | some ((sa,d),datagrams,socket) =>
    let ipcs := {ipcs with datagrams := datagrams,socket := socket}
    .ok (sa,ipcs.setClient sa {ipcs.clients sa with buffer := d,frag_size := d.octets})

/-- What the loop of `ipc_dgram_receive_message` gets before it copies: the client and the
    octets of the current fragment that have not been passed to the user. -/
structure Fragment (Sockaddr : Type) where
  client : Sockaddr
  p_ipcsc : Option Sockaddr
  data : Octets
  ipcs : IpcServer Sockaddr

/-- The branch with a new datagram. -/
def newFragment (ipcs : IpcServer Sockaddr) (client p_ipcsc : Option Sockaddr) : Except Stop (Status × Fragment Sockaddr) := do
  let (sa,ipcs) ← ipc_int_get_datagram ipcs client
  let c := ipcs.clients sa
  let ipch := c.buffer
  let data_size := c.frag_size-HEADER_SIZE
  let data := ipch.payload.take data_size
  if data_size > ipch.left then return (some .ESYNCFAILED,⟨sa,p_ipcsc,data,ipcs⟩)
  else if p_ipcsc.isNone ∧ c.msg_len ≠ 0 then return (some .ESYNCFAILED,⟨sa,some sa,data,ipcs⟩)
  else if c.msg_len ≠ 0 ∧ c.msg_len ≠ ipch.length then return (some .ESYNCFAILED,⟨sa,some (p_ipcsc.getD sa),data,ipcs⟩)
  else
    let c := if c.msg_len = 0 then {c with msg_len := ipch.length,msg_rest := ipch.length} else c
    let ipcs := ipcs.setClient sa c
    let rc := if c.msg_rest ≠ ipch.left then some .ESYNCFAILED else none
    return (rc,⟨sa,some (p_ipcsc.getD sa),data,ipcs⟩)
def nextFragment (ipcs : IpcServer Sockaddr) (client p_ipcsc : Option Sockaddr) : Except Stop (Status × Fragment Sockaddr) :=
  match client with
  | none => newFragment ipcs none p_ipcsc
  | some sa =>
    let c := ipcs.clients sa
    if c.frag_rest = 0 then newFragment ipcs (some sa) p_ipcsc
    else .ok (none,⟨sa,p_ipcsc,(c.buffer.payload.drop (c.frag_size-c.frag_rest-HEADER_SIZE)).take c.frag_rest,ipcs⟩)

/-- The result of `ipc_dgram_receive_message`: the return code, `*p_ipcsc`, what is written to
    the buffer, and `*p_buf_len`. -/
structure Received (Sockaddr : Type) where
  rc : Status
  p_ipcsc : Option Sockaddr
  buf : Octets
  p_buf_len : Nat
  ipcs : IpcServer Sockaddr

/-- The loop of `ipc_dgram_receive_message` with the room left in the buffer and what has been
    written to it. -/
def receiveLoop : Nat → IpcServer Sockaddr → Option Sockaddr → Option Sockaddr → Nat → Octets → Except Stop (Received Sockaddr)
  | 0, _, _, _, _, _ => .error .waiting
  | n+1, ipcs, client, p_ipcsc, buf_len, buf => do
    let (rc,frag) ← nextFragment ipcs client p_ipcsc
    if rc ≠ none then return ⟨rc,frag.p_ipcsc,buf,buf.length+buf_len,frag.ipcs⟩
    else
      let copy_len := min frag.data.length buf_len
      let buf := buf ++ frag.data.take copy_len
      let buf_len := buf_len-copy_len
      let c := frag.ipcs.clients frag.client
      assert (c.msg_rest ≥ copy_len)
      let c := {c with msg_rest := c.msg_rest-copy_len,frag_rest := frag.data.length-copy_len}
      let ipcs := frag.ipcs.setClient frag.client c
      if buf_len > 0 ∧ c.msg_rest > 0 then receiveLoop n ipcs (some frag.client) frag.p_ipcsc buf_len buf
      else if c.msg_rest > 0 then
        assert (buf_len = 0)
        return ⟨some .ESMALLBUF,frag.p_ipcsc,buf,c.msg_rest,ipcs⟩
      else
        assert (c.msg_rest = 0)
        assert (c.frag_rest = 0)
        return ⟨none,frag.p_ipcsc,buf,buf.length,ipcs.setClient frag.client {c with msg_len := 0}⟩
/-- Every pass of the loop but the first one takes a datagram. -/
def ipc_dgram_receive_message (ipcs : IpcServer Sockaddr) (buf_len : Nat) (p_ipcsc : Option Sockaddr) :
    Except Stop (Received Sockaddr) :=
  receiveLoop (ipcs.datagrams.length+ipcs.socket.length+2) ipcs p_ipcsc p_ipcsc buf_len []

/-! ### One call -/

/-- The datagrams that have arrived and have not been read. -/
def IpcServer.arrived (ipcs : IpcServer Sockaddr) : List (Sockaddr × Datagram) := ipcs.datagrams ++ ipcs.socket
/-- A client none of whose messages is being read. -/
def IpcServerClient.Idle (c : IpcServerClient) : Prop := c.frag_rest = 0 ∧ c.msg_len = 0
/-- A client of whose message `k` octets have been passed to the user and `m` more have been got,
    with the datagrams `later` behind those of the message. -/
structure Holds (ipcs : IpcServer Sockaddr) (sa : Sockaddr) (msg : Octets) (k m : Nat) (later : List Datagram) : Prop where
  inside : k+m ≤ msg.length
  len : (ipcs.clients sa).msg_len = msg.length
  rest : (ipcs.clients sa).msg_rest = msg.length-k
  size : (ipcs.clients sa).frag_size = (ipcs.clients sa).buffer.octets
  fits : m ≤ (ipcs.clients sa).buffer.payload.length
  data : (ipcs.clients sa).buffer.payload.drop ((ipcs.clients sa).buffer.payload.length-m) = (msg.drop k).take m
  unread : sentBy sa ipcs.arrived = fragments msg (k+m) ++ later
/-- A client in the middle of its message. -/
def Reading (ipcs : IpcServer Sockaddr) (sa : Sockaddr) (msg : Octets) (k : Nat) (later : List Datagram) : Prop :=
  k < msg.length ∧ Holds ipcs sa msg k (ipcs.clients sa).frag_rest later
/-- Nothing changes for other clients. -/
structure Apart (sa : Sockaddr) (ipcs ipcs' : IpcServer Sockaddr) : Prop where
  clients : ∀ b, b ≠ sa → ipcs'.clients b = ipcs.clients b
  unread : ∀ b, b ≠ sa → sentBy b ipcs'.arrived = sentBy b ipcs.arrived
  fewer : ipcs'.arrived.length ≤ ipcs.arrived.length

section
variable {ipcs ipcs' ipcs'' : IpcServer Sockaddr} {sa : Sockaddr} {c : IpcServerClient}

@[simp] theorem setClient_same : (ipcs.setClient sa c).clients sa = c := if_pos rfl
theorem setClient_other {b : Sockaddr} (other : b ≠ sa) : (ipcs.setClient sa c).clients b = ipcs.clients b := if_neg other
@[simp] theorem setClient_arrived : (ipcs.setClient sa c).arrived = ipcs.arrived := rfl
theorem Apart.refl : Apart sa ipcs ipcs := ⟨fun _ _ => rfl,fun _ _ => rfl,le_rfl⟩
theorem Apart.trans (first : Apart sa ipcs ipcs') (second : Apart sa ipcs' ipcs'') : Apart sa ipcs ipcs'' where
  clients b other := (second.clients b other).trans (first.clients b other)
  unread b other := (second.unread b other).trans (first.unread b other)
  fewer := le_trans second.fewer first.fewer
theorem Apart.setClient : Apart sa ipcs (ipcs.setClient sa c) := ⟨fun _ other => setClient_other other,fun _ _ => rfl,le_rfl⟩
end

section
variable {ipcs : IpcServer Sockaddr} {sa : Sockaddr} {msg : Octets} {k m : Nat} {later : List Datagram}

variable {datagrams socket : List (Sockaddr × Datagram)} {client p_ipcsc : Option Sockaddr}

/-- The server after a datagram of the client has been got. -/
theorem newFragment_holds (within : k ≤ msg.length) (got : nextDatagram client ipcs.datagrams ipcs.socket =
      some ((sa,⟨msg.length,msg.length-k,(msg.drop k).take (segment msg k)⟩),datagrams,socket))
    (taken : Taken sa ⟨msg.length,msg.length-k,(msg.drop k).take (segment msg k)⟩ ipcs.arrived (datagrams ++ socket))
    (unread : sentBy sa (datagrams ++ socket) = fragments msg (k+segment msg k) ++ later)
    (state : p_ipcsc = none ∧ k = 0 ∧ (ipcs.clients sa).msg_len = 0 ∨
      p_ipcsc = some sa ∧ (ipcs.clients sa).msg_len = msg.length ∧ (ipcs.clients sa).msg_rest = msg.length-k ∧ 0 < msg.length) :
    ∃ ipcs', newFragment ipcs client p_ipcsc = .ok (none,⟨sa,some sa,(msg.drop k).take (segment msg k),ipcs'⟩) ∧
      Holds ipcs' sa msg k (segment msg k) later ∧ Apart sa ipcs ipcs' ∧ ipcs'.arrived.length < ipcs.arrived.length := by
  have most : segment msg k ≤ msg.length-k := segment_le
  have size : ((msg.drop k).take (segment msg k)).length = segment msg k := by
    rw [length_take,length_drop]
    omega
  generalize isPayload : (msg.drop k).take (segment msg k) = payload at got taken size ⊢
  have octets : (Datagram.mk msg.length (msg.length-k) payload).octets-HEADER_SIZE = payload.length :=
    Nat.add_sub_cancel_left ..
  have ofClient : p_ipcsc.getD sa = sa := by rcases state with ⟨rfl,_⟩ | ⟨rfl,_⟩ <;> rfl
  have new : ¬ (p_ipcsc.isNone = true ∧ (ipcs.clients sa).msg_len ≠ 0) := by grind
  have same : ¬ ((ipcs.clients sa).msg_len ≠ 0 ∧ (ipcs.clients sa).msg_len ≠ msg.length) := by omega
  set d : Datagram := ⟨msg.length,msg.length-k,payload⟩
  have client : (if (ipcs.clients sa).msg_len = 0 then
        (⟨d,d.octets,(ipcs.clients sa).frag_rest,msg.length,msg.length⟩ : IpcServerClient)
      else ⟨d,d.octets,(ipcs.clients sa).frag_rest,(ipcs.clients sa).msg_len,(ipcs.clients sa).msg_rest⟩) =
      ⟨d,d.octets,(ipcs.clients sa).frag_rest,msg.length,msg.length-k⟩ := by grind
  rw [newFragment,ipc_int_get_datagram,got]
  simp only [Except.bind,bind,setClient_same,octets]
  have small : ¬ payload.length > d.left := not_lt.mpr (size ▸ most)
  rw [if_neg small,if_neg new,if_neg same,client,if_neg (not_not.mpr rfl),ofClient,take_length]
  refine ⟨_,rfl,?_,Apart.trans ?_ (.trans .setClient .setClient),taken.fewer⟩
  · refine ⟨by omega,by simp,by simp,by simp,by simp [d,size],?_,unread⟩
    rw [setClient_same]
    show d.payload.drop (payload.length-segment msg k) = _
    rw [size,Nat.sub_self,isPayload]
    rfl
  · exact ⟨fun _ _ => rfl,fun b other => (taken.others b other).symm,taken.fewer.le⟩

/-- A client some of whose octets have been copied. -/
def IpcServerClient.copied (c : IpcServerClient) (msg_rest frag_rest : Nat) : IpcServerClient :=
  {c with msg_rest := msg_rest,frag_rest := frag_rest}
theorem Holds.copied (holds : Holds ipcs sa msg k m later) (frag_rest : Nat) {copy_len : Nat} (le : copy_len ≤ m) :
    Holds (ipcs.setClient sa ((ipcs.clients sa).copied (msg.length-k-copy_len) frag_rest)) sa msg (k+copy_len) (m-copy_len) later where
  inside := by have := holds.inside; omega
  len := by rw [setClient_same]; exact holds.len
  rest := by rw [setClient_same]; exact Nat.sub_sub ..
  size := by rw [setClient_same]; exact holds.size
  fits := by rw [setClient_same]; exact le_trans (Nat.sub_le ..) holds.fits
  data := by
    have fits := holds.fits
    have data := congrArg (List.drop copy_len) holds.data
    rw [drop_drop,List.drop_take,drop_drop] at data
    rw [setClient_same,← data]
    show (ipcs.clients sa).buffer.payload.drop _ = _
    congr 1
    show (ipcs.clients sa).buffer.payload.length-_ = _
    omega
  unread := by
    rw [setClient_arrived,holds.unread]
    congr 2
    omega

/-- The result of a call that passes octets of a message from the offset `k` on: all of them if
    they fit, and else as many as fit, so that the client is in the middle of its message. -/
inductive Passed (ipcs : IpcServer Sockaddr) (sa : Sockaddr) (msg : Octets) (later : List Datagram) (k buf_len : Nat) (buf : Octets) :
    Except Stop (Received Sockaddr) → Prop
  | whole {ipcs' : IpcServer Sockaddr} (enough : msg.length-k ≤ buf_len) (idle : (ipcs'.clients sa).Idle)
      (unread : sentBy sa ipcs'.arrived = later) (apart : Apart sa ipcs ipcs') :
      Passed ipcs sa msg later k buf_len buf (.ok ⟨none,some sa,buf ++ msg.drop k,(buf ++ msg.drop k).length,ipcs'⟩)
  | part {ipcs' : IpcServer Sockaddr} (less : buf_len < msg.length-k) (reading : Reading ipcs' sa msg (k+buf_len) later)
      (apart : Apart sa ipcs ipcs') :
      Passed ipcs sa msg later k buf_len buf
        (.ok ⟨some .ESMALLBUF,some sa,buf ++ (msg.drop k).take buf_len,msg.length-k-buf_len,ipcs'⟩)

/-- A call goes on after a first part of the message. -/
theorem Passed.after {ipcs₂ : IpcServer Sockaddr} {buf_len : Nat} {buf : Octets} {r : Except Stop (Received Sockaddr)}
    (rest : Passed ipcs₂ sa msg later (k+m) (buf_len-m) (buf ++ (msg.drop k).take m) r) (less : m < buf_len) (apart : Apart sa ipcs ipcs₂) :
    Passed ipcs sa msg later k buf_len buf r := by
  cases rest with
  | whole enough idle unread apart' =>
    rw [append_assoc,← drop_drop,take_append_drop]
    exact .whole (by omega) idle unread (apart.trans apart')
  | part short reading apart' =>
    have split : (msg.drop k).take m ++ (msg.drop (k+m)).take (buf_len-m) = (msg.drop k).take buf_len := by
      rw [← drop_drop,← take_add]
      congr 1
      omega
    have left : msg.length-(k+m)-(buf_len-m) = msg.length-k-buf_len := by omega
    have at' : k+m+(buf_len-m) = k+buf_len := by omega
    rw [append_assoc,split,left]
    rw [at'] at reading
    exact .part (by omega) reading (apart.trans apart')
/-- The rest of a pass of the loop once it has its fragment. -/
theorem receiveLoop_pass {base ipcs₁ : IpcServer Sockaddr} {n buf_len : Nat} {buf : Octets}
    (fetched : nextFragment ipcs client p_ipcsc = .ok (none,⟨sa,some sa,(msg.drop k).take m,ipcs₁⟩))
    (holds : Holds ipcs₁ sa msg k m later) (apart : Apart sa base ipcs₁)
    (loop : ∀ ipcs₂ buf_len buf, 0 < buf_len → Reading ipcs₂ sa msg (k+m) later → (ipcs₂.clients sa).frag_rest = 0 →
      Passed ipcs₂ sa msg later (k+m) buf_len buf (receiveLoop n ipcs₂ (some sa) (some sa) buf_len buf)) :
    Passed base sa msg later k buf_len buf (receiveLoop (n+1) ipcs client p_ipcsc buf_len buf) := by
  have inside := holds.inside
  have size : ((msg.drop k).take m).length = m := by
    rw [length_take,length_drop]
    omega
  have le : min m buf_len ≤ m := Nat.min_le_left ..
  have all : (msg.drop k).take (min m buf_len) = ((msg.drop k).take m).take (min m buf_len) := by
    rw [List.take_take,Nat.min_eq_left le]
  rw [receiveLoop,fetched]
  simp only [Except.bind,bind,size,holds.rest,assert]
  rw [if_neg (not_not.mpr rfl),if_pos (by omega),← all]
  have copied := holds.copied (m-min m buf_len) le
  generalize isCopy : min m buf_len = copy_len at le copied ⊢
  set ipcs₂ := ipcs₁.setClient sa ((ipcs₁.clients sa).copied (msg.length-k-copy_len) (m-copy_len)) with is
  have apart₂ : Apart sa base ipcs₂ := apart.trans .setClient
  have frag_rest : (ipcs₂.clients sa).frag_rest = m-copy_len := by rw [is,setClient_same]; rfl
  have reading (more : k+copy_len < msg.length) : Reading ipcs₂ sa msg (k+copy_len) later := by
    rw [Reading,frag_rest]
    exact ⟨more,copied⟩
  by_cases more : k+copy_len < msg.length
  · by_cases fragment : m < buf_len
    · -- the whole fragment is copied, and there is room left
      obtain rfl : m = copy_len := by omega
      rw [if_pos ⟨by omega,by omega⟩]
      have rest := loop ipcs₂ (buf_len-m) (buf ++ (msg.drop k).take m) (by omega) (reading more) (by omega)
      exact rest.after fragment apart₂
    · -- the buffer is full
      obtain rfl : buf_len = copy_len := by omega
      rw [if_neg (by omega),if_pos (by omega),if_pos (by omega)]
      exact .part (by omega) (reading more) apart₂
  · -- the message is complete
    rw [if_neg (by omega),if_neg (by omega),if_pos (by omega),if_pos (by omega)]
    have complete : (msg.drop k).take copy_len = msg.drop k := take_of_length_le (by rw [length_drop]; omega)
    rw [complete]
    refine .whole (by omega) ?_ ?_ (apart₂.trans .setClient)
    · rw [setClient_same]
      exact ⟨by show m-copy_len = 0; omega,rfl⟩
    · rw [setClient_arrived]
      refine copied.unread.trans ?_
      rw [fragments_end (by omega),nil_append]

theorem take_data (holds : Holds ipcs sa msg k (ipcs.clients sa).frag_rest later) :
    ((ipcs.clients sa).buffer.payload.drop ((ipcs.clients sa).frag_size-(ipcs.clients sa).frag_rest-HEADER_SIZE)).take
      (ipcs.clients sa).frag_rest = (msg.drop k).take (ipcs.clients sa).frag_rest := by
  have at' : (ipcs.clients sa).frag_size-(ipcs.clients sa).frag_rest-HEADER_SIZE =
      (ipcs.clients sa).buffer.payload.length-(ipcs.clients sa).frag_rest := by
    rw [holds.size,Datagram.octets]
    omega
  rw [at',holds.data,List.take_take,Nat.min_self]
/-- A client in the middle of its message. The fuel is enough for the datagrams of the message
    that have not been read, and for a fragment that has been read in part. -/
theorem receiveLoop_reads {n buf_len : Nat} {buf : Octets} (reading : Reading ipcs sa msg k later) (room : 0 < buf_len)
    (fuel : (fragments msg (k+(ipcs.clients sa).frag_rest)).length+min 1 (ipcs.clients sa).frag_rest ≤ n) :
    Passed ipcs sa msg later k buf_len buf (receiveLoop n ipcs (some sa) (some sa) buf_len buf) := by
  induction n generalizing ipcs k buf_len buf with
  | zero =>
    obtain ⟨more,_⟩ := reading
    obtain none : (ipcs.clients sa).frag_rest = 0 := by omega
    rw [none,Nat.add_zero,fragments_step more] at fuel
    simp at fuel
  | succ n ih =>
    obtain ⟨more,holds⟩ := reading
    by_cases none : (ipcs.clients sa).frag_rest = 0
    · have unread := holds.unread
      rw [none,Nat.add_zero,fragments_step more,cons_append] at unread
      obtain ⟨datagrams,socket,got,taken⟩ := nextDatagram_of unread
      have rest := (taken.own.symm.trans unread)
      obtain ⟨ipcs₁,fetched,holds₁,apart,_⟩ := newFragment_holds more.le got taken (cons.inj rest).2
        (.inr ⟨rfl,holds.len,holds.rest,by omega⟩)
      refine receiveLoop_pass (m := segment msg k) ?_ holds₁ apart fun ipcs₂ buf_len buf room reading₂ zero => ih reading₂ room ?_
      · simp [none,fetched,nextFragment]
      · simp_all [fragments_step]
    · refine receiveLoop_pass (m := (ipcs.clients sa).frag_rest) ?_ holds .refl
        fun ipcs₂ buf_len buf room reading₂ zero => ih reading₂ room ?_
      · rw [nextFragment]
        simp only [if_neg none,take_data holds]
      · rw [zero,Nat.add_zero]
        omega
theorem sentBy_length {l : List (Sockaddr × Datagram)} : (sentBy sa l).length ≤ l.length := by
  rw [sentBy,length_map]
  exact List.length_filter_le ..
/-- The call is repeated with the client. -/
theorem receive_message_reading {buf_len : Nat} (reading : Reading ipcs sa msg k later) (room : 0 < buf_len) :
    Passed ipcs sa msg later k buf_len [] (ipc_dgram_receive_message ipcs buf_len (some sa)) := by
  refine receiveLoop_reads reading room ?_
  have all : (sentBy sa ipcs.arrived).length ≤ ipcs.arrived.length := sentBy_length
  rw [reading.2.unread,length_append,IpcServer.arrived,length_append] at all
  omega
/-- The call is made without client. -/
theorem receive_message_new (buf_len : Nat) {p : Sockaddr × Datagram}
    (got : nextDatagram none ipcs.datagrams ipcs.socket = some (p,datagrams,socket)) (idle : (ipcs.clients p.1).Idle)
    (unread : sentBy p.1 ipcs.arrived = ipc_dgram_send_message msg ++ later) :
    ∃ ipcs₁, Apart p.1 ipcs ipcs₁ ∧ ipcs₁.arrived.length < ipcs.arrived.length ∧
      Passed ipcs₁ p.1 msg later 0 buf_len [] (ipc_dgram_receive_message ipcs buf_len none) := by
  obtain ⟨sa,d⟩ := p
  obtain ⟨_,taken⟩ := nextDatagram_taken got
  have rest := taken.own.symm.trans unread
  rw [ipc_dgram_send_message_eq,cons_append] at rest
  obtain ⟨rfl,tail⟩ := cons.inj rest
  have unread' : sentBy sa (datagrams ++ socket) = fragments msg (0+segment msg 0) ++ later := by rw [Nat.zero_add]; exact tail
  obtain ⟨ipcs₁,fetched,holds,apart,fewer⟩ := newFragment_holds (Nat.zero_le _) got taken unread' (.inl ⟨rfl,rfl,idle.2⟩)
  refine ⟨ipcs₁,apart,fewer,receiveLoop_pass (m := segment msg 0) fetched holds .refl
    fun ipcs₂ buf_len buf room reading zero => receiveLoop_reads reading room ?_⟩
  have all : (sentBy sa ipcs.arrived).length ≤ ipcs.arrived.length := sentBy_length
  rw [unread,ipc_dgram_send_message_eq,length_append,length_cons,IpcServer.arrived,length_append] at all
  rw [zero,Nat.zero_add,Nat.add_zero]
  omega
end
end TestEnvironment.Ipc
