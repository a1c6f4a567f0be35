import TestEnvironment.Lib.Inbox

/-!
The datagrams of the IPC library: how a message is cut into them (`ipc_dgram_send_message`
in `client.c`, `ipc_dgram_send_answer` in `server.c`), and how the next datagram of a peer
is got from those that arrived out of turn or from the socket (`ipc_int_get_datagram` in
`server.c`, `get_datagram` in `client.c`).

The datagrams that arrive at a socket are a list in the order of their arrival. A receiving
call that finds none waits for them.
-/
namespace TestEnvironment.Ipc
open Lib

/-- The error codes of the library that matter here. -/
inductive TeErrno
  | EINVAL
  | ENOENT
  | ESMALLBUF
  | ESYNCFAILED
  deriving DecidableEq, Repr
/-- A return code, 0 being `none`. -/
abbrev Status := Option TeErrno
/-- What a call does instead of returning: an assertion fails, or it waits for a datagram. -/
inductive Stop
  | assertion
  | waiting
  deriving DecidableEq, Repr
/-- `assert`. -/
def assert (cond : Prop) [Decidable cond] : Except Stop Unit := if cond then .ok () else .error .assertion

abbrev Octets := List UInt8
def IPC_SEGMENT_SIZE : Nat := 2048
/-- `sizeof(struct ipc_dgram_header)`. -/
def HEADER_SIZE : Nat := 16
/-- A datagram with the fields of its `ipc_dgram_header`. -/
structure Datagram where
  length : Nat
  left : Nat
  payload : Octets
  deriving DecidableEq, Repr
/-- The size of a datagram, as `recvfrom` returns it. -/
def Datagram.octets (d : Datagram) : Nat := HEADER_SIZE+d.payload.length

/-- The loop that sends a message, with the datagrams it sends. -/
def sendLoop (msg : Octets) : Nat → Nat → List Datagram
  | 0, _ => []
  | n+1, octets_sent =>
    if octets_sent < msg.length ∨ msg.length = 0 then
      let segm_size := min (IPC_SEGMENT_SIZE-HEADER_SIZE) (msg.length-octets_sent)
      ⟨msg.length,msg.length-octets_sent,(msg.drop octets_sent).take segm_size⟩ ::
        if msg.length = 0 then [] else sendLoop msg n (octets_sent+segm_size)
    else []
def ipc_dgram_send_message (msg : Octets) : List Datagram := sendLoop msg (msg.length+1) 0
def ipc_dgram_send_answer (msg : Octets) : List Datagram := sendLoop msg (msg.length+1) 0

section
variable {msg : Octets}

theorem sendLoop_end {n k : Nat} (none : msg.length ≤ k) (some' : 0 < msg.length) : sendLoop msg n k = [] := by
  cases n with
  | zero => rfl
  | succ n => rw [sendLoop,if_neg (by omega)]
/-- The datagrams that carry the octets of a message from an offset on. -/
def fragments (msg : Octets) (octets_sent : Nat) : List Datagram :=
  if octets_sent < msg.length then sendLoop msg (msg.length-octets_sent+1) octets_sent else []

/-- What the next datagram carries. -/
def segment (msg : Octets) (octets_sent : Nat) : Nat := min (IPC_SEGMENT_SIZE-HEADER_SIZE) (msg.length-octets_sent)
theorem segment_le {k : Nat} : segment msg k ≤ msg.length-k := Nat.min_le_right ..
theorem segment_pos {k : Nat} (more : k < msg.length) : 0 < segment msg k :=
  Nat.lt_min.mpr ⟨by decide,Nat.sub_pos_of_lt more⟩
/-- The fuel is enough if there is a unit for every octet and one more. -/
theorem sendLoop_fuel {n m k : Nat} (enough : msg.length-k < n) (enough' : msg.length-k < m) : sendLoop msg n k = sendLoop msg m k := by
  induction n generalizing m k with
  | zero => omega
  | succ n ih =>
    obtain ⟨m,rfl⟩ := succ_of_lt enough'
    rw [sendLoop,sendLoop]
    split
    · split
      · rfl
      · have some' : 0 < segment msg k := segment_pos (by omega)
        have most : segment msg k ≤ msg.length-k := segment_le
        rw [segment] at some' most
        dsimp only
        rw [@ih m _ (by omega) (by omega)]
    · rfl
theorem fragments_end {k : Nat} (none : msg.length ≤ k) : fragments msg k = [] := if_neg (by omega)
theorem fragments_step {k : Nat} (more : k < msg.length) :
    fragments msg k = ⟨msg.length,msg.length-k,(msg.drop k).take (segment msg k)⟩ :: fragments msg (k+segment msg k) := by
  have some' := segment_pos more
  rw [fragments,if_pos more,sendLoop,if_pos (.inl more)]
  simp only [segment] at some' ⊢
  rw [if_neg (by omega),fragments]
  congr 1
  split
  · exact sendLoop_fuel (by omega) (lt_succ_self _)
  · rw [sendLoop_end (by omega) (by omega)]
/-- Even the empty message has a first datagram. -/
theorem ipc_dgram_send_message_eq : ipc_dgram_send_message msg =
    ⟨msg.length,msg.length,msg.take (segment msg 0)⟩ :: fragments msg (segment msg 0) := by
  cases msg with
  | nil => rfl
  | cons c msg =>
    have step : fragments (c :: msg) 0 = _ :: _ := fragments_step (by simp)
    rw [fragments,if_pos (by simp)] at step
    rw [ipc_dgram_send_message]
    simpa using step
end

section
variable {Sockaddr : Type} [DecidableEq Sockaddr]

/-- The loop that reads the socket until a datagram comes from the peer, if one is given. Those
    of other peers are put behind the datagrams that arrived out of turn (`ipc_remember_datagram`). -/
def recvfromLoop (peer : Option Sockaddr) : List (Sockaddr × Datagram) → List (Sockaddr × Datagram) →
    Option ((Sockaddr × Datagram) × List (Sockaddr × Datagram) × List (Sockaddr × Datagram))
  | _, [] => none
  | datagrams, p :: socket =>
    if peer.all (· = p.1) then some (p,datagrams,socket) else recvfromLoop peer (datagrams ++ [p]) socket
/-- A datagram of the peer, or of any, from those that arrived out of turn, or else from the
    socket; and what is left of both. -/
def nextDatagram (peer : Option Sockaddr) (datagrams socket : List (Sockaddr × Datagram)) :
    Option ((Sockaddr × Datagram) × List (Sockaddr × Datagram) × List (Sockaddr × Datagram)) :=
  match takeFirst (fun p => peer.all (· = p.1)) datagrams with
  | some (p,datagrams) => some (p,datagrams,socket)
  | none => recvfromLoop peer datagrams socket

variable {peer : Option Sockaddr} {a b : Sockaddr} {d : Datagram} {datagrams datagrams' socket socket' : List (Sockaddr × Datagram)}

/-- What taking one datagram does to all that have not been read. -/
structure Taken (a : Sockaddr) (d : Datagram) (before after : List (Sockaddr × Datagram)) : Prop where
  own : sentBy a before = d :: sentBy a after
  others : ∀ b, b ≠ a → sentBy b before = sentBy b after
  fewer : after.length < before.length

theorem taken_of_middle {front back : List (Sockaddr × Datagram)} (before : ∀ p ∈ front, p.1 ≠ a) :
    Taken a d (front ++ (a,d) :: back) (front ++ back) where
  own := sentBy_erase_first before
  others _ other := sentBy_erase_other other.symm
  fewer := by simp
/-- Datagrams that are passed over are not from the sender of one that is taken. -/
theorem passed_over (passed : ∀ p ∈ datagrams, peer.all (· = p.1) = false) (meets : peer.all (· = a) = true) :
    ∀ p ∈ datagrams, p.1 ≠ a := by
  rintro p member rfl
  exact absurd meets (by simp [passed p member])
theorem recvfromLoop_taken (passed : ∀ p ∈ datagrams, peer.all (· = p.1) = false)
    (got : recvfromLoop peer datagrams socket = some ((a,d),datagrams',socket')) :
    peer.all (· = a) = true ∧ Taken a d (datagrams ++ socket) (datagrams' ++ socket') := by
  induction socket generalizing datagrams with
  | nil => cases got
  | cons p socket ih =>
    rw [recvfromLoop] at got
    split at got
    · rename_i meets
      cases got
      exact ⟨meets,taken_of_middle (passed_over passed meets)⟩
    · grind
theorem recvfromLoop_some {p : Sockaddr × Datagram} (member : p ∈ socket) (meets : peer.all (· = p.1) = true) :
    (recvfromLoop peer datagrams socket).isSome := by
  induction socket generalizing datagrams with
  | nil => cases member
  | cons q socket ih =>
    rw [recvfromLoop]
    split
    · rfl
    · rename_i no
      rcases mem_cons.mp member with rfl | later
      · exact absurd meets no
      · exact ih later

/-- The datagram got is the first unread one of its sender, who is the peer if one is given. -/
theorem nextDatagram_taken (got : nextDatagram peer datagrams socket = some ((a,d),datagrams',socket')) :
    peer.all (· = a) = true ∧ Taken a d (datagrams ++ socket) (datagrams' ++ socket') := by
  rw [nextDatagram] at got
  split at got
  · rename_i q rest taken
    cases got
    obtain ⟨front,back,rfl,rfl,meets,before⟩ := takeFirst_some taken
    refine ⟨meets,?_⟩
    rw [append_assoc,append_assoc,cons_append]
    exact taken_of_middle (passed_over before meets)
  · rename_i none
    exact recvfromLoop_taken (takeFirst_none.mp none) got
theorem nextDatagram_some {p : Sockaddr × Datagram} (member : p ∈ datagrams ++ socket) (meets : peer.all (· = p.1) = true) :
    (nextDatagram peer datagrams socket).isSome := by
  rw [nextDatagram]
  split
  · rfl
  · rename_i none
    refine recvfromLoop_some ((mem_append.mp member).resolve_left fun early => ?_) meets
    exact absurd meets (by simp [takeFirst_none.mp none p early])
/-- A datagram of a given peer that has unread ones. -/
theorem nextDatagram_of {rest : List Datagram} (unread : sentBy a (datagrams ++ socket) = d :: rest) :
    ∃ datagrams' socket', nextDatagram (some a) datagrams socket = some ((a,d),datagrams',socket') ∧
      Taken a d (datagrams ++ socket) (datagrams' ++ socket') := by
  have member : (a,d) ∈ datagrams ++ socket := by
    have : d ∈ sentBy a (datagrams ++ socket) := by simp [unread]
    obtain ⟨⟨b,e⟩,inside,rfl⟩ := mem_map.mp this
    obtain ⟨inside,same⟩ := mem_filter.mp inside
    have same : b = a := of_decide_eq_true same
    rwa [← same]
  obtain ⟨⟨⟨b,e⟩,datagrams',socket'⟩,got⟩ := isSome_iff_exists.mp (nextDatagram_some member (show (some a).all (· = a) = true by simp))
  obtain ⟨meets,taken⟩ := nextDatagram_taken got
  have same : a = b := by simpa using meets
  subst same
  have first := taken.own.symm.trans unread
  obtain rfl : e = d := (cons.inj first).1
  exact ⟨datagrams',socket',got,taken⟩
end
end TestEnvironment.Ipc
