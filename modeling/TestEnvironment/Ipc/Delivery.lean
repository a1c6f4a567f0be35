import TestEnvironment.Ipc.Client
import TestEnvironment.Ipc.ServerRuns

/-!
A user of an IPC client, who reads answers of servers one after the other, each by
`ipc_dgram_receive_answer` and then `ipc_dgram_receive_rest_answer` until all of it is there.
Together with the user of a server: messages and answers arrive whole, once and in order,
but for empty answers, at which the client fails an assertion (`datagrams_arrive_iff`).
-/
namespace TestEnvironment.Ipc
open Lib

/-- A user with the servers whose answers are still to be read in their order, what has been read
    of the first one's answer if `TE_ESMALLBUF` has been returned for it, and the answers read. -/
structure AnswerReader (Name : Type) where
  ipcc : IpcClient Name
  order : List Name
  part : Option Octets
  answers : List (Name × Octets)

section
variable {Name : Type} [DecidableEq Name]

/-- A new client at whose socket the datagrams come in. -/
def IpcClient.fresh (socket : List (Name × Datagram)) : IpcClient Name := ⟨fun _ => .new,[],socket⟩
def AnswerReader.start (socket : List (Name × Datagram)) (order : List Name) : AnswerReader Name := ⟨.fresh socket,order,none,[]⟩

def AnswerReader.call (r : AnswerReader Name) (buf_len : Nat) : Except Failure (AnswerReader Name) :=
  match r.order with
  | [] => .ok r
  | name :: order =>
    let answered :=
      match r.part with
      | none => ipc_dgram_receive_answer r.ipcc name buf_len
      | some _ => ipc_dgram_receive_rest_answer r.ipcc name buf_len
    match answered with
    | .error stop => .error (.stop stop)
    | .ok answered =>
      let part := r.part.getD [] ++ answered.buf
      match answered.rc with
      | none => .ok ⟨answered.ipcc,order,none,r.answers ++ [(name,part)]⟩
      | some .ESMALLBUF => .ok {r with ipcc := answered.ipcc,part := some part}
      | some e => .error (.error e)
/-- The calls with buffers of the sizes. -/
def AnswerReader.calls (r : AnswerReader Name) (sizes : List Nat) : Except Failure (AnswerReader Name) := sizes.foldlM AnswerReader.call r

variable {ipcc : IpcClient Name} {answers : Name → List Octets} {r r' : AnswerReader Name} {name : Name} {ans : Octets}
  {order : List Name} {later : List Octets} {k m buf_len : Nat}

/-- With all answers read nothing is called. -/
theorem calls_done (done : r.order = []) (sizes : List Nat) : r.calls sizes = .ok r := by
  induction sizes with
  | nil => rfl
  | cons size sizes ih =>
    have same : r.call size = .ok r := by rw [AnswerReader.call,done]
    rw [AnswerReader.calls,foldlM_cons,same]
    exact ih

/-- The reader between two answers. -/
structure BetweenAnswers (r : AnswerReader Name) (answers : Name → List Octets) : Prop where
  part : r.part = none
  unread : ∀ a, sentBy a r.ipcc.arrived = (answers a).flatMap ipc_dgram_send_answer
  order : ∀ a, r.order.count a = (answers a).length
/-- The reader after some octets of an answer. -/
structure ReadsAnswer (r : AnswerReader Name) (name : Name) (order : List Name) (ans : Octets) (k m : Nat) (later : List Octets)
    (answers : Name → List Octets) : Prop where
  current : r.order = name :: order
  part : r.part = some (ans.take k)
  reading : ReadingAnswer r.ipcc name ans k m (later.flatMap ipc_dgram_send_answer)
  others : ∀ a, a ≠ name → sentBy a r.ipcc.arrived = (answers a).flatMap ipc_dgram_send_answer

/-- What a call makes of an answer, of which `k` octets were read before. -/
theorem answer_call_passed {answered : Except Stop (Answered Name)} (current : r.order = name :: order)
    (others : ∀ a, a ≠ name → sentBy a r.ipcc.arrived = (answers a).flatMap ipc_dgram_send_answer)
    (is : (match r.part with
      | none => ipc_dgram_receive_answer r.ipcc name buf_len
      | some _ => ipc_dgram_receive_rest_answer r.ipcc name buf_len) = answered)
    (part : r.part.getD [] = ans.take k)
    (passed : PassedAnswer r.ipcc name ans (later.flatMap ipc_dgram_send_answer) k buf_len answered) :
    ∃ r', r.call buf_len = .ok r' ∧
      (r'.order = order ∧ r'.part = none ∧ r'.answers = r.answers ++ [(name,ans)] ∧
          (∀ a, sentBy a r'.ipcc.arrived = (update answers name later a).flatMap ipc_dgram_send_answer) ∨
        r'.answers = r.answers ∧ ∃ m, ReadsAnswer r' name order ans (k+buf_len) m later answers) := by
  rw [AnswerReader.call,current]
  dsimp only
  rw [is]
  cases passed with
  | whole enough unread apart =>
    refine ⟨_,rfl,.inl ⟨rfl,rfl,?_,fun a => ?_⟩⟩
    · rw [part,take_append_drop]
    · by_cases same : a = name
      · subst same
        rw [update_self]
        exact unread
      · rw [update_of_ne same]
        exact (apart a same).trans (others a same)
  | part less reading apart =>
    refine ⟨_,rfl,.inr ⟨rfl,_,rfl,?_,reading,fun a other => (apart a other).trans (others a other)⟩⟩
    show some _ = some _
    rw [part,← take_add]

theorem BetweenAnswers.next {r₁ : AnswerReader Name} (between : BetweenAnswers r answers) (current : r.order = name :: order)
    (here : answers name = ans :: later) (part : r₁.part = none) (order' : r₁.order = order)
    (unread : ∀ a, sentBy a r₁.ipcc.arrived = (update answers name later a).flatMap ipc_dgram_send_answer) :
    BetweenAnswers r₁ (update answers name later) where
  part := part
  unread := unread
  order a := by
    have count := between.order a
    rw [current] at count
    rw [order']
    by_cases same : a = name
    · grind
    · grind
variable {sizes : Nat → Nat}

/-- The calls that read the rest of an answer. -/
theorem reads_finishes (positive : ∀ i, 1 ≤ sizes i) (reads : ReadsAnswer r name order ans k m later answers) :
    ∃ n r', r.calls ((List.range n).map sizes) = .ok r' ∧ r'.order = order ∧ r'.part = none ∧ r'.answers = r.answers ++ [(name,ans)] ∧
      ∀ a, sentBy a r'.ipcc.arrived = (update answers name later a).flatMap ipc_dgram_send_answer := by
  induction left : ans.length-k using Nat.strong_induction_on generalizing r k m sizes with
  | _ left ih =>
    have passed := receive_rest_passes reads.reading (positive 0)
    obtain ⟨r₁,first,⟨order₁,part₁,answers₁,unread₁⟩ | ⟨answers₁,m₁,reads₁⟩⟩ :=
      answer_call_passed reads.current reads.others (by rw [reads.part]) (by rw [reads.part]; rfl) passed
    · exact ⟨1,r₁,calls_first first rfl,order₁,part₁,answers₁,unread₁⟩
    · have more := reads.reading.more
      have one := positive 0
      obtain ⟨n,r₂,rest,order₂,part₂,answers₂,unread₂⟩ := ih _ (by omega) (fun i => positive (i+1)) reads₁ rfl
      exact ⟨n+1,r₂,calls_first first rest,order₂,part₂,by rw [answers₂,answers₁],unread₂⟩
/-- An answer that is not empty is read by some calls. -/
theorem answer_read (positive : ∀ i, 1 ≤ sizes i) (between : BetweenAnswers r answers)
    (current : r.order = name :: order) (here : answers name = ans :: later) (some' : ans ≠ []) :
    ∃ n r', r.calls ((List.range n).map sizes) = .ok r' ∧ r'.order = order ∧ r'.answers = r.answers ++ [(name,ans)] ∧
      BetweenAnswers r' (update answers name later) := by
  have unread := between.unread name
  rw [here,flatMap_cons] at unread
  have passed := receive_answer_passes some' (positive 0) unread
  obtain ⟨r₁,first,⟨order₁,part₁,answers₁,unread₁⟩ | ⟨answers₁,m,reads⟩⟩ :=
    answer_call_passed current (fun a _ => between.unread a) (by rw [between.part]) (by rw [between.part]; rfl) passed
  · exact ⟨1,r₁,calls_first first rfl,order₁,answers₁,between.next current here part₁ order₁ unread₁⟩
  · obtain ⟨n,r₂,rest,order₂,part₂,answers₂,unread₂⟩ := reads_finishes (fun i => positive (i+1)) reads
    exact ⟨n+1,r₂,calls_first first rest,order₂,by rw [answers₂,answers₁],between.next current here part₂ order₂ unread₂⟩
/-- The answers are read to the end exactly if none of them is empty. -/
theorem between_answers_iff (positive : ∀ i, 1 ≤ sizes i) (between : BetweenAnswers r answers) :
    (∃ n r', r.calls ((List.range n).map sizes) = .ok r' ∧ r'.order = [] ∧ ∀ a, sentBy a r'.answers = sentBy a r.answers ++ answers a) ↔
      ∀ a, ∀ ans ∈ answers a, ans ≠ [] := by
  induction is : r.order generalizing r answers sizes with
  | nil =>
    have none (a : Name) : answers a = [] := by
      have count := between.order a
      rw [is] at count
      exact length_eq_zero_iff.mp count.symm
    refine iff_of_true ⟨0,r,rfl,is,fun a => ?_⟩ fun a ans member => ?_
    · rw [none a,append_nil]
    · rw [none a] at member
      cases member
  | cons name order ih =>
    obtain ⟨ans,later,here⟩ : ∃ ans later, answers name = ans :: later := by
      cases same : answers name with
      | nil =>
        have count := between.order name
        rw [is,same] at count
        simp at count
      | cons ans later => exact ⟨ans,later,rfl⟩
    by_cases empty : ans = []
    · -- the first call fails
      subst empty
      refine iff_of_false ?_ fun all => all name [] (by simp [here]) rfl
      rintro ⟨n,r',ran,done,_⟩
      cases n with
      | zero =>
        cases ran
        rw [is] at done
        cases done
      | succ n =>
        have unread := between.unread name
        rw [here,flatMap_cons] at unread
        have fails : r.call (sizes 0) = .error (.stop .assertion) := by simp [is,between.part,unread,receive_answer_empty,AnswerReader.call]
        rw [List.range_succ_eq_map,map_cons,AnswerReader.calls,foldlM_cons,fails] at ran
        cases ran
    · obtain ⟨n,r₁,first,order₁,answers₁,between₁⟩ := answer_read positive between is here empty
      have rest := ih (fun i => positive (n+i)) between₁ order₁
      have same : (∀ a, ∀ ans ∈ answers a, ans ≠ []) ↔ ∀ a, ∀ ans ∈ update answers name later a, ans ≠ [] := by
        refine forall_congr' fun a => ?_
        by_cases same : a = name
        · subst same
          rw [here,update_self,forall_mem_cons]
          exact and_iff_right empty
        · rw [update_of_ne same]
      rw [same,← rest]
      constructor
      · rintro ⟨i,r',ran,done,all⟩
        -- more calls change nothing, and the first of them read the first answer
        have longer : r.calls ((List.range (n+i)).map sizes) = .ok r' := by
          rw [Nat.add_comm]
          exact (calls_then ran n).trans (calls_done done _)
        exact ⟨i,r',(calls_then first i).symm.trans longer,done,fun a => by rw [all a,answers₁,sentBy_total here]⟩
      · rintro ⟨i,r',ran,done,all⟩
        exact ⟨n+i,r',(calls_then first i).trans ran,done,fun a => by rw [all a,answers₁,sentBy_total here]⟩
end

section
variable {Sockaddr Name : Type} [DecidableEq Sockaddr] [DecidableEq Name]

/-- Two clients, the datagrams of one of them around that of the other. -/
def twoClients : Bool → List Octets
  | true => [[1,2],[]]
  | false => [[3]]
end
end TestEnvironment.Ipc
