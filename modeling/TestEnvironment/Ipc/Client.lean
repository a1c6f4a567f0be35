import TestEnvironment.Ipc.Datagrams

/-!
The receiving side of an IPC client without connections (`client.c`): answers of servers
are put together from their datagrams, and handed out in pieces of the size of the caller's
buffer, the first one by `ipc_dgram_receive_answer` and others by
`ipc_dgram_receive_rest_answer`.
-/
namespace TestEnvironment.Ipc
open Lib

/-- The datagram part of `ipc_client_server`. -/
structure IpcClientServer where
  buffer : Datagram
  length : Nat
  octets_received : Nat
  fragment_size : Nat
  octets_returned : Nat
  deriving DecidableEq, Repr
/-- The fields of a new item. -/
def IpcClientServer.new : IpcClientServer := ⟨⟨0,0,[]⟩,0,0,0,0⟩
/-- `ipc_client`: its pool of servers by their names, new ones where there is no item yet, and the
    datagrams that arrived out of turn. Datagrams arrive at `socket`. -/
structure IpcClient (Name : Type) where
  pool : Name → IpcClientServer
  datagrams : List (Name × Datagram)
  socket : List (Name × Datagram)

variable {Name : Type} [DecidableEq Name]

def IpcClient.setServer (ipcc : IpcClient Name) (name : Name) (server : IpcClientServer) : IpcClient Name :=
  {ipcc with pool := fun other => if other = name then server else ipcc.pool other}

/-- `get_datagram` with the source of the datagram specified. -/
def get_datagram (ipcc : IpcClient Name) (name : Name) : Except Stop (IpcClient Name) :=
  match nextDatagram (some name) ipcc.datagrams ipcc.socket with
  | none => .error .waiting
  | some ((_,d),datagrams,socket) =>
    let ipcc := {ipcc with datagrams := datagrams,socket := socket}
    .ok (ipcc.setServer name {ipcc.pool name with buffer := d,fragment_size := d.octets})

/-- The result of a receiving call: the return code, what is written to the buffer, and
    `*p_buf_len`. -/
structure Answered (Name : Type) where
  rc : Status
  buf : Octets
  p_buf_len : Nat
  ipcc : IpcClient Name

/-- The end of a call whose buffer is full: the positions in the answer are remembered. -/
def smallBuffer (ipcc : IpcClient Name) (name : Name) (octets_returned fragment_size : Nat) (buf : Octets) : Answered Name :=
  let server := ipcc.pool name
  let length := server.buffer.length
  ⟨some .ESMALLBUF,buf,length,
    ipcc.setServer name {server with octets_returned := octets_returned,length := length,fragment_size := fragment_size}⟩

/-- The loop of `ipc_dgram_receive_answer` for an answer of several datagrams. -/
def answerLoop (name : Name) (full_message_length buf_len : Nat) :
    Nat → IpcClient Name → Nat → Octets → Except Stop (Answered Name)
  | 0, _, _, _ => .error .waiting
  | n+1, ipcc, octets_received, buf => do
    let server := ipcc.pool name
    let iph := server.buffer
    if buf.length+octets_received ≤ buf_len then
      let buf := buf ++ iph.payload.take octets_received
      if buf.length = full_message_length then return ⟨none,buf,buf.length,ipcc⟩
      else if buf.length = buf_len then return smallBuffer ipcc name 0 (octets_received+HEADER_SIZE) buf
      else
        assert (buf.length < iph.length)
        let ipcc ← get_datagram ipcc name
        let server := ipcc.pool name
        let octets_received := server.fragment_size-HEADER_SIZE
        if iph.length ≠ server.buffer.length then return ⟨some .ESYNCFAILED,buf,buf_len,ipcc⟩
        else
          assert (octets_received > 0)
          if full_message_length ≠ server.buffer.length then return ⟨some .ESYNCFAILED,buf,buf_len,ipcc⟩
          else if server.octets_received ≠ server.buffer.length-server.buffer.left then
            return ⟨some .ESYNCFAILED,buf,buf_len,ipcc⟩
          else
            let ipcc := ipcc.setServer name {server with octets_received := server.octets_received+octets_received}
            answerLoop name full_message_length buf_len n ipcc octets_received buf
    else
      let room := buf_len-buf.length
      return smallBuffer ipcc name room (octets_received+HEADER_SIZE) (buf ++ iph.payload.take room)

def ipc_dgram_receive_answer (ipcc : IpcClient Name) (name : Name) (buf_len : Nat) : Except Stop (Answered Name) := do
  let ipcc ← get_datagram ipcc name
  let server := {ipcc.pool name with octets_received := 0,octets_returned := 0}
  let ipcc := ipcc.setServer name server
  let iph := server.buffer
  if iph.length ≠ iph.left then return ⟨some .ESYNCFAILED,[],buf_len,ipcc⟩
  else
    let octets_received := server.fragment_size-HEADER_SIZE
    assert (octets_received > 0)
    if iph.length = octets_received then
      if iph.length ≤ buf_len then return ⟨none,iph.payload.take iph.length,iph.length,ipcc⟩
      else
        let ipcc := ipcc.setServer name {server with octets_received := octets_received}
        return smallBuffer ipcc name buf_len (octets_received+HEADER_SIZE) (iph.payload.take buf_len)
    else
      let ipcc := ipcc.setServer name {server with octets_received := octets_received}
      answerLoop name iph.length buf_len (ipcc.datagrams.length+ipcc.socket.length+1) ipcc octets_received []

/-- The loop of `ipc_dgram_receive_rest_answer`. -/
def restLoop (name : Name) (buf_len : Nat) : Nat → IpcClient Name → Octets → Except Stop (Answered Name)
  | 0, _, _ => .error .waiting
  | n+1, ipcc, buf => do
    let ipcc ← get_datagram ipcc name
    let server := ipcc.pool name
    let iph := server.buffer
    let octets_received := server.fragment_size-HEADER_SIZE
    assert (octets_received > 0)
    if server.length ≠ iph.length then return ⟨some .ESYNCFAILED,buf,buf_len,ipcc⟩
    else if server.octets_received ≠ iph.length-iph.left then return ⟨some .ESYNCFAILED,buf,buf_len,ipcc⟩
    else
      let server := {server with octets_received := server.octets_received+octets_received}
      let ipcc := ipcc.setServer name server
      if buf.length+octets_received ≤ buf_len then
        let buf := buf ++ iph.payload.take octets_received
        if octets_received = iph.left then
          let ipcc := ipcc.setServer name {server with length := 0}
          let rc := if server.octets_received ≠ iph.length then some .ESYNCFAILED else none
          return ⟨rc,buf,buf.length,ipcc⟩
        -- the source subtracts the size of the header here, but gets a datagram before it reads the field
        else if buf.length = buf_len then return smallBuffer ipcc name 0 ((octets_received+2^64-HEADER_SIZE)%2^64) buf
        else
          assert (buf.length < server.length)
          restLoop name buf_len n ipcc buf
      else
        let room := buf_len-buf.length
        return smallBuffer ipcc name room (octets_received+HEADER_SIZE) (buf ++ iph.payload.take room)

def ipc_dgram_receive_rest_answer (ipcc : IpcClient Name) (name : Name) (buf_len : Nat) : Except Stop (Answered Name) := do
  let server := ipcc.pool name
  let fuel := ipcc.datagrams.length+ipcc.socket.length+1
  if buf_len = 0 then return ⟨some .EINVAL,[],buf_len,ipcc⟩
  else if server.length = 0 then return ⟨some .ENOENT,[],buf_len,ipcc⟩
  else if server.octets_returned ≠ 0 then
    let rest := server.fragment_size-HEADER_SIZE-server.octets_returned
    let n := min buf_len rest
    let buf := (server.buffer.payload.drop server.octets_returned).take n
    if server.length = server.octets_received ∧ rest ≤ buf_len then return ⟨none,buf,n,ipcc⟩
    else if buf_len = n then
      let ipcc := ipcc.setServer name {server with octets_returned := server.octets_returned+n}
      return ⟨some .ESMALLBUF,buf,server.length,ipcc⟩
    else restLoop name buf_len fuel ipcc buf
  else restLoop name buf_len fuel ipcc []

/-! ### One call -/

/-- The datagrams that have arrived and have not been read. -/
def IpcClient.arrived (ipcc : IpcClient Name) : List (Name × Datagram) := ipcc.datagrams ++ ipcc.socket
/-- The datagram of an answer at the offset `j` has just been got. -/
structure Got (ipcc : IpcClient Name) (name : Name) (ans : Octets) (j : Nat) (later : List Datagram) : Prop where
  buffer : (ipcc.pool name).buffer = ⟨ans.length,ans.length-j,(ans.drop j).take (segment ans j)⟩
  size : (ipcc.pool name).fragment_size-HEADER_SIZE = segment ans j
  unread : sentBy name ipcc.arrived = fragments ans (j+segment ans j) ++ later
/-- An answer of which `k` octets have been passed to the user and `m` more have been got. A
    fragment that has been passed as a whole is remembered as such or by its size. -/
structure ReadingAnswer (ipcc : IpcClient Name) (name : Name) (ans : Octets) (k m : Nat) (later : List Datagram) : Prop where
  more : k < ans.length
  inside : k+m ≤ ans.length
  length : (ipcc.pool name).length = ans.length
  received : (ipcc.pool name).octets_received = k+m
  position : (ipcc.pool name).octets_returned = 0 ∧ m = 0 ∨
    0 < (ipcc.pool name).octets_returned ∧
      (ipcc.pool name).fragment_size-HEADER_SIZE = (ipcc.pool name).octets_returned+m ∧
      (ipcc.pool name).buffer.payload.drop (ipcc.pool name).octets_returned = (ans.drop k).take m
  unread : sentBy name ipcc.arrived = fragments ans (k+m) ++ later
/-- Nothing changes for the datagrams of other servers. -/
def ApartAnswer (name : Name) (ipcc ipcc' : IpcClient Name) : Prop :=
  ∀ b, b ≠ name → sentBy b ipcc'.arrived = sentBy b ipcc.arrived

/-- The result of a call that passes octets of an answer from the offset `k` on. -/
inductive PassedAnswer (ipcc : IpcClient Name) (name : Name) (ans : Octets) (later : List Datagram) (k buf_len : Nat) :
    Except Stop (Answered Name) → Prop
  | whole {ipcc' : IpcClient Name} (enough : ans.length-k ≤ buf_len) (unread : sentBy name ipcc'.arrived = later)
      (apart : ApartAnswer name ipcc ipcc') :
      PassedAnswer ipcc name ans later k buf_len (.ok ⟨none,ans.drop k,(ans.drop k).length,ipcc'⟩)
  | part {ipcc' : IpcClient Name} {m : Nat} (less : buf_len < ans.length-k)
      (reading : ReadingAnswer ipcc' name ans (k+buf_len) m later) (apart : ApartAnswer name ipcc ipcc') :
      PassedAnswer ipcc name ans later k buf_len (.ok ⟨some .ESMALLBUF,(ans.drop k).take buf_len,ans.length,ipcc'⟩)

section
variable {ipcc ipcc' ipcc'' base : IpcClient Name} {name : Name} {server : IpcClientServer} {ans : Octets} {j k m : Nat}
  {later : List Datagram}

@[simp] theorem setServer_same : (ipcc.setServer name server).pool name = server := if_pos rfl
@[simp] theorem setServer_arrived : (ipcc.setServer name server).arrived = ipcc.arrived := rfl
theorem ApartAnswer.trans (first : ApartAnswer name ipcc ipcc') (second : ApartAnswer name ipcc' ipcc'') : ApartAnswer name ipcc ipcc'' :=
  fun b other => (second b other).trans (first b other)
theorem ApartAnswer.refl : ApartAnswer name ipcc ipcc := fun _ _ => rfl

theorem segment_length : ((ans.drop j).take (segment ans j)).length = segment ans j := by simp [segment]
theorem Got.setServer (got : Got ipcc name ans j later)
    (buffer : server.buffer = ⟨ans.length,ans.length-j,(ans.drop j).take (segment ans j)⟩)
    (size : server.fragment_size-HEADER_SIZE = segment ans j) : Got (ipcc.setServer name server) name ans j later :=
  ⟨by rw [setServer_same,buffer],by rw [setServer_same,size],got.unread⟩
/-- The next datagram of an answer is got, and nothing else changes. -/
theorem get_datagram_got
    (unread : sentBy name ipcc.arrived =
      ⟨ans.length,ans.length-j,(ans.drop j).take (segment ans j)⟩ :: (fragments ans (j+segment ans j) ++ later)) :
    ∃ ipcc', get_datagram ipcc name = .ok ipcc' ∧ Got ipcc' name ans j later ∧ ApartAnswer name ipcc ipcc' ∧
      (ipcc'.pool name).length = (ipcc.pool name).length ∧
      (ipcc'.pool name).octets_received = (ipcc.pool name).octets_received ∧
      (ipcc'.pool name).octets_returned = (ipcc.pool name).octets_returned := by
  obtain ⟨datagrams,socket,got,taken⟩ := nextDatagram_of unread
  rw [get_datagram,got]
  refine ⟨_,rfl,⟨by rw [setServer_same],?_,?_⟩,fun b other => (taken.others b other).symm,by simp,by simp,by simp⟩
  · rw [setServer_same,Datagram.octets,segment_length]
    exact Nat.add_sub_cancel_left ..
  · exact (cons.inj (taken.own.symm.trans unread)).2
variable {buf_len n : Nat}

/-- A call whose buffer is full once `room` octets of the fragment at `j` have been passed: some
    of them, or all, where nothing of the fragment is kept. -/
theorem smallBuffer_passes (room : Nat) (got : Got ipcc name ans j later) (received : (ipcc.pool name).octets_received = j+segment ans j)
    (apart : ApartAnswer name base ipcc) {returned size : Nat} {buf : Octets} (before : k ≤ j) (more : j+room < ans.length)
    (full : buf_len = j-k+room) (written : buf = (ans.drop k).take buf_len) (position : returned = 0 ∧ room = segment ans j ∨
      returned = room ∧ 0 < room ∧ room ≤ segment ans j ∧ size = segment ans j+HEADER_SIZE) :
    PassedAnswer base name ans later k buf_len (.ok (smallBuffer ipcc name returned size buf)) := by
  have most : segment ans j ≤ ans.length-j := segment_le
  have total : j+room+(segment ans j-room) = j+segment ans j := by omega
  have passed : k+buf_len = j+room := by omega
  have reading : ReadingAnswer (smallBuffer ipcc name returned size buf).ipcc name ans (k+buf_len) (segment ans j-room) later := by
    rw [passed]
    refine ⟨more,by omega,?_,?_,?_,?_⟩
    · rw [smallBuffer,setServer_same,got.buffer]
    · rw [smallBuffer,setServer_same,total]
      exact received
    · rw [smallBuffer,setServer_same]
      rcases position with ⟨rfl,rfl⟩ | ⟨rfl,positive,_,rfl⟩
      · exact .inl ⟨rfl,Nat.sub_self _⟩
      · refine .inr ⟨positive,?_,?_⟩
        · grind
        · simp [got.buffer,List.drop_take]
    · rw [smallBuffer,setServer_arrived,total]
      exact got.unread
  have length : (smallBuffer ipcc name returned size buf).p_buf_len = ans.length := by rw [smallBuffer,got.buffer]
  have result : smallBuffer ipcc name returned size buf =
      ⟨some .ESMALLBUF,(ans.drop k).take buf_len,ans.length,(smallBuffer ipcc name returned size buf).ipcc⟩ := by
    rw [← length,← written]
    rfl
  rw [result]
  exact .part (by omega) reading apart

/-- The loop of the first call, with the offset `j` of the fragment that it has. -/
theorem answerLoop_passes (got : Got ipcc name ans j later)
    (received : (ipcc.pool name).octets_received = j+segment ans j) (more : j < ans.length) (room : j < buf_len)
    (fuel : (fragments ans (j+segment ans j)).length < n) (apart : ApartAnswer name base ipcc) :
    PassedAnswer base name ans later 0 buf_len
      (answerLoop name ans.length buf_len n ipcc (segment ans j) (ans.take j)) := by
  induction n generalizing ipcc j with
  | zero => omega
  | succ n ih =>
    have most : segment ans j ≤ ans.length-j := segment_le
    have written : (ans.take j).length = j := by rw [length_take]; omega
    have appended : ans.take j ++ (ans.drop j).take (segment ans j) = ans.take (j+segment ans j) := take_add.symm
    have written' : (ans.take (j+segment ans j)).length = j+segment ans j := by rw [length_take]; omega
    rw [answerLoop]
    simp only [got.buffer,written]
    have whole : ((ans.drop j).take (segment ans j)).take (segment ans j) = (ans.drop j).take (segment ans j) :=
      take_of_length_le segment_length.le
    rw [whole,appended,written']
    by_cases fits : j+segment ans j ≤ buf_len
    · rw [if_pos fits]
      by_cases all : j+segment ans j = ans.length
      · rw [if_pos all,all,take_length]
        have unread := got.unread
        rw [all,fragments_end le_rfl,nil_append] at unread
        exact .whole (by omega) unread apart
      · rw [if_neg all]
        by_cases full : j+segment ans j = buf_len
        · rw [if_pos full]
          exact smallBuffer_passes _ got received apart (Nat.zero_le j) (by omega) (by omega) (by rw [full,drop_zero]) (.inl ⟨rfl,rfl⟩)
        · rw [if_neg full]
          have unread := got.unread
          have next : j+segment ans j < ans.length := by omega
          rw [fragments_step next,cons_append] at unread
          obtain ⟨ipcc₁,get,got₁,apart₁,_,received₁,_⟩ := get_datagram_got unread
          simp only [bind,Except.bind,assert,if_pos next,get,got₁.buffer,got₁.size]
          have some' := segment_pos next
          rw [if_neg (not_not.mpr rfl),if_pos some',if_neg (not_not.mpr rfl),if_neg (by omega)]
          refine ih ?_ ?_ next (by omega) ?_ (apart.trans apart₁)
          · exact ⟨by rw [setServer_same],by rw [setServer_same]; exact got₁.size,got₁.unread⟩
          · simp [received₁,received]
          · grind [fragments_step]
    · rw [if_neg fits]
      refine smallBuffer_passes _ got received apart (Nat.zero_le j) (by omega) (by omega) ?_ (.inr ⟨rfl,by omega,by omega,rfl⟩)
      rw [drop_zero,List.take_take,Nat.min_eq_left (by omega),← take_add]
      congr 1
      omega
/-- The loop of the other calls, with the offset `j` of the next fragment. -/
theorem restLoop_passes (length : (ipcc.pool name).length = ans.length)
    (received : (ipcc.pool name).octets_received = j) (unread : sentBy name ipcc.arrived = fragments ans j ++ later)
    (more : j < ans.length) (before : k ≤ j) (room : j-k < buf_len) (fuel : (fragments ans j).length ≤ n)
    (apart : ApartAnswer name base ipcc) :
    PassedAnswer base name ans later k buf_len (restLoop name buf_len n ipcc ((ans.drop k).take (j-k))) := by
  induction n generalizing ipcc j with
  | zero =>
    rw [fragments_step more] at fuel
    cases fuel
  | succ n ih =>
    rw [fragments_step more,cons_append] at unread
    obtain ⟨ipcc₁,get,got,apart₁,length₁,received₁,_⟩ := get_datagram_got unread
    have most : segment ans j ≤ ans.length-j := segment_le
    have some' := segment_pos more
    have written : ((ans.drop k).take (j-k)).length = j-k := by rw [length_take,length_drop]; omega
    have appended (i : Nat) : (ans.drop k).take (j-k) ++ (ans.drop j).take i = (ans.drop k).take (j-k+i) := by
      rw [take_add,drop_drop,Nat.add_sub_cancel' before]
    have whole : ((ans.drop j).take (segment ans j)).take (segment ans j) = (ans.drop j).take (segment ans j) :=
      take_of_length_le segment_length.le
    rw [restLoop,get]
    simp only [bind,Except.bind,assert,got.buffer,got.size,if_pos some',length₁,length,received₁,received,written,whole,appended]
    rw [if_neg (not_not.mpr rfl),if_neg (by omega)]
    -- the server once the octets of the fragment are counted
    generalize isServer : IpcClientServer.mk _ ans.length _ _ _ = server
    set ipcc₂ := ipcc₁.setServer name server with is
    have pool : ipcc₂.pool name = server := setServer_same
    have got₂ : Got ipcc₂ name ans j later := by
      refine ⟨?_,?_,got.unread⟩
      · rw [pool,← isServer]
      · rw [pool,← isServer]
        exact got.size
    have received₂ : (ipcc₂.pool name).octets_received = j+segment ans j := by rw [pool,← isServer]
    have apart₂ : ApartAnswer name base ipcc₂ := apart.trans apart₁
    have written' : j-k+segment ans j ≤ ans.length-k → ((ans.drop k).take (j-k+segment ans j)).length = j-k+segment ans j := fun le => by
      rw [length_take,length_drop]
      omega
    rw [written' (by omega)]
    by_cases fits : j-k+segment ans j ≤ buf_len
    · rw [if_pos fits]
      by_cases all : segment ans j = ans.length-j
      · rw [if_pos all,if_neg (by omega)]
        have complete : (ans.drop k).take (j-k+segment ans j) = ans.drop k :=
          take_of_length_le (by rw [length_drop]; omega)
        have size : (ans.drop k).length = j-k+segment ans j := by rw [length_drop]; omega
        rw [complete,← size]
        refine .whole (by omega) ?_ apart₂
        refine got.unread.trans ?_
        rw [fragments_end (by omega),nil_append]
      · rw [if_neg all]
        by_cases full : j-k+segment ans j = buf_len
        · rw [if_pos full]
          exact smallBuffer_passes _ got₂ received₂ apart₂ before (by omega) full.symm (by rw [full]) (.inl ⟨rfl,rfl⟩)
        · rw [if_neg full,if_pos (by omega)]
          have offset : j-k+segment ans j = j+segment ans j-k := by omega
          rw [offset]
          refine ih (by rw [pool,← isServer]) received₂ got.unread (by omega) (by omega) (by omega) ?_ apart₂
          rw [fragments_step more] at fuel
          simpa using fuel
    · rw [if_neg fits]
      refine smallBuffer_passes _ got₂ received₂ apart₂ before (by omega) (by omega) ?_ (.inr ⟨rfl,by omega,by omega,rfl⟩)
      rw [List.take_take,Nat.min_eq_left (by omega),appended]
      congr 1
      omega

theorem sentBy_arrived_length : (sentBy name ipcc.arrived).length ≤ ipcc.datagrams.length+ipcc.socket.length := by
  rw [sentBy,length_map,IpcClient.arrived,← length_append]
  exact List.length_filter_le ..
theorem receive_answer_passes (some' : ans ≠ []) (room : 0 < buf_len)
    (unread : sentBy name ipcc.arrived = ipc_dgram_send_answer ans ++ later) :
    PassedAnswer ipcc name ans later 0 buf_len (ipc_dgram_receive_answer ipcc name buf_len) := by
  have more : 0 < ans.length := List.length_pos_of_ne_nil some'
  have first : sentBy name ipcc.arrived =
      ⟨ans.length,ans.length-0,(ans.drop 0).take (segment ans 0)⟩ :: (fragments ans (0+segment ans 0) ++ later) := by
    rw [Nat.zero_add]
    exact unread.trans (congrArg (· ++ later) ipc_dgram_send_message_eq)
  obtain ⟨ipcc₁,get,got,apart,_⟩ := get_datagram_got first
  have positive := segment_pos more
  rw [ipc_dgram_receive_answer,get]
  simp only [bind,Except.bind,assert,got.buffer,got.size,if_pos positive]
  rw [if_neg (by simp)]
  by_cases single : ans.length = segment ans 0
  · -- the only datagram of the answer
    rw [if_pos single]
    by_cases fits : ans.length ≤ buf_len
    · rw [if_pos fits,← single,drop_zero,take_length,take_length]
      have unread₁ := got.unread
      rw [Nat.zero_add,← single,fragments_end le_rfl,nil_append] at unread₁
      exact .whole fits unread₁ apart
    · rw [if_neg fits]
      refine smallBuffer_passes buf_len (.setServer (.setServer got ?_ ?_) ?_ ?_) ?_ apart (le_refl 0) (by omega)
        (by omega) ?_ (.inr ⟨rfl,room,by omega,rfl⟩)
      · rfl
      · exact got.size
      · rfl
      · exact got.size
      · rw [setServer_same,Nat.zero_add]
      · rw [List.take_take,Nat.min_eq_left (by omega)]
  · rw [if_neg single]
    refine answerLoop_passes (j := 0) (.setServer (.setServer got ?_ ?_) ?_ ?_) ?_ more room ?_ apart
    · rfl
    · exact got.size
    · rfl
    · exact got.size
    · rw [setServer_same,Nat.zero_add]
    · have all : (sentBy name ipcc₁.arrived).length ≤ _ := sentBy_arrived_length
      rw [got.unread,length_append] at all
      exact lt_succ_of_le (le_trans (Nat.le_add_right ..) all)
/-- The assertion that a datagram carries something does not hold for the empty answer. -/
theorem receive_answer_empty (unread : sentBy name ipcc.arrived = ipc_dgram_send_answer [] ++ later) :
    ipc_dgram_receive_answer ipcc name buf_len = .error .assertion := by
  obtain ⟨ipcc₁,get,got,_⟩ := @get_datagram_got _ _ _ _ [] 0 later unread
  rw [ipc_dgram_receive_answer,get]
  simp only [bind,Except.bind,assert,got.buffer,got.size]
  rfl
theorem receive_rest_passes (reading : ReadingAnswer ipcc name ans k m later) (room : 0 < buf_len) :
    PassedAnswer ipcc name ans later k buf_len (ipc_dgram_receive_rest_answer ipcc name buf_len) := by
  obtain ⟨more,inside,length,received,position,unread⟩ := reading
  have fuel : (fragments ans (k+m)).length ≤ ipcc.datagrams.length+ipcc.socket.length+1 := by grind [sentBy_arrived_length]
  rw [ipc_dgram_receive_rest_answer]
  dsimp only
  rw [if_neg (by omega),if_neg (by omega)]
  rcases position with ⟨zero,rfl⟩ | ⟨positive,size,data⟩
  · -- the last fragment has been passed as a whole
    rw [if_neg (by omega)]
    have start : PassedAnswer ipcc name ans later k buf_len (restLoop name buf_len _ ipcc ((ans.drop k).take (k+0-k))) :=
      restLoop_passes length received unread (by omega) (Nat.le_add_right k 0) (by omega) fuel .refl
    simpa using start
  · rw [if_pos (by omega)]
    have rest : (ipcc.pool name).fragment_size-HEADER_SIZE-(ipcc.pool name).octets_returned = m := by omega
    rw [rest,data,List.take_take,length,received]
    by_cases last : ans.length = k+m ∧ m ≤ buf_len
    · rw [if_pos last,Nat.min_eq_right last.2,Nat.min_self]
      have size : (ans.drop k).length = m := by rw [length_drop]; omega
      have complete : (ans.drop k).take m = ans.drop k := take_of_length_le size.le
      rw [complete,← size]
      rw [fragments_end (by omega),nil_append] at unread
      exact .whole (by omega) unread .refl
    · rw [if_neg last]
      by_cases full : buf_len ≤ m
      · rw [if_pos (Nat.min_eq_left full).symm,Nat.min_eq_left full,Nat.min_eq_left full]
        have total : k+buf_len+(m-buf_len) = k+m := by omega
        refine .part (m := m-buf_len) (by omega) ⟨by omega,by omega,?_,?_,?_,?_⟩ .refl
        · rw [setServer_same]
        · rw [setServer_same,total]
        · rw [setServer_same]
          refine .inr ⟨by show 0 < (ipcc.pool name).octets_returned+buf_len; omega,?_,?_⟩
          · grind
          · simp [data,← drop_drop,List.drop_take]
        · rw [setServer_arrived,total]
          exact unread
      · rw [if_neg (by omega),Nat.min_eq_right (by omega)]
        have offset : (ans.drop k).take m = (ans.drop k).take (k+m-k) := by rw [Nat.add_sub_cancel_left]
        rw [offset]
        exact restLoop_passes length received unread (by omega) (Nat.le_add_right k m) (by omega) fuel .refl
end
end TestEnvironment.Ipc
