import TestEnvironment.LoggerTa.LogGet

/-!
What `log_get_message` writes for a message, and which lengths it checks meanwhile: the
two are given apart from each other, by the message alone.
-/
namespace TestEnvironment.LoggerTa
open Lib

section
variable {length last mess_length argn : Nat} {w w' : Writer} {bytes bytes' old new : List UInt8} {lengths lengths' : List FieldLength}
  {r : Except Stop Writer} {f : Writer → Except Stop Writer} {header : LgrMessHeader}

/-- `mess_length` behind the checks of some lengths, unless one of them fails. -/
def counted (length : Nat) : Nat → List FieldLength → Option Nat
  | mess_length, [] => some mess_length
  | mess_length, l :: lengths =>
    if length < l.added mess_length then none else counted length (l.added mess_length) lengths
/-- The result of a step that puts `bytes` at `tmp_buf`, passes them, and checks `lengths`. -/
def Writes (length : Nat) (w : Writer) (bytes : List UInt8) (lengths : List FieldLength) : Except Stop Writer → Prop
  | .ok w' => w'.tmp_buf = w.tmp_buf+bytes.length ∧ (∀ i < w.tmp_buf, w'.buf i = w.buf i) ∧
      window w'.buf w.tmp_buf bytes.length = bytes ∧ counted length w.mess_length lengths = some w'.mess_length
  | .error (.small buf) => (∀ i < w.tmp_buf, buf i = w.buf i) ∧ counted length w.mess_length lengths = none
  | .error .undefined => True
/-- An argument, if there is one with this number. -/
def argument (header : LgrMessHeader) (argn : Nat) : UInt64 :=
  if inside : argn < TA_LOG_ARGS_MAX then header.args ⟨argn,inside⟩ else 0

theorem counted_append : counted length mess_length (lengths ++ lengths') =
    (counted length mess_length lengths).bind fun mess_length' => counted length mess_length' lengths' := by
  induction lengths generalizing mess_length with
  | nil => rfl
  | cons l lengths ih =>
    rw [cons_append,counted,counted]
    by_cases small : length < l.added mess_length
    · rw [if_pos small,if_pos small]
      rfl
    · rw [if_neg small,if_neg small,ih]

theorem Writes.done : Writes length w [] [] (.ok w) := ⟨rfl,fun _ _ => rfl,rfl,rfl⟩
/-- Of a step that stops only the checks are known. -/
theorem Writes.stopped {stop : Stop} (stopped : Writes length w bytes lengths (.error stop)) : Writes length w bytes' lengths (.error stop) := by
  cases stop with
  | undefined => trivial
  | small buf => exact stopped
theorem Writes.bind (first : Writes length w bytes lengths r) (next : ∀ w', r = .ok w' → Writes length w' bytes' lengths' (f w')) :
    Writes length w (bytes ++ bytes') (lengths ++ lengths') (r >>= f) := by
  match r, first, next with
  | .error .undefined, _, _ => trivial
  | .error (.small buf), ⟨kept,fails⟩, _ => exact ⟨kept,by rw [counted_append,fails]; rfl⟩
  | .ok w', ⟨passed,kept,there,count⟩, next =>
    have second := next w' rfl
    show Writes length w _ _ (f w')
    match f w', second with
    | .error .undefined, _ => trivial
    | .error (.small buf), ⟨kept',fails⟩ =>
      exact ⟨fun i before => (kept' i (by omega)).trans (kept i before),by rw [counted_append,count]; exact fails⟩
    | .ok w'', ⟨passed',kept',there',count'⟩ =>
      refine ⟨by rw [passed',passed,length_append,Nat.add_assoc],fun i before => (kept' i (by omega)).trans (kept i before),?_,
        by rw [counted_append,count]; exact count'⟩
      rw [length_append,window_append,← passed,there',window_congr fun i inside => kept' _ (by omega),there]
/-- Bytes that have been written are written again. -/
theorem Writes.patched (written : Writes length w (old ++ bytes) lengths (.ok w')) (same : new.length = old.length) :
    Writes length w (new ++ bytes) lengths (.ok {w' with buf := place w'.buf w.tmp_buf new}) := by
  obtain ⟨passed,kept,there,count⟩ := written
  rw [length_append] at passed there
  refine ⟨by rw [length_append,same]; exact passed,fun i before => (place_before before).trans (kept i before),?_,count⟩
  rw [length_append,window_place_front rfl,same]
  rw [window_append] at there
  rw [(List.append_inj there window_length).2]

/-- The length of a field is written behind its bytes, in the place of another one. -/
theorem Writes.patchLength {x : Except Stop (Writer × Nat)} (written : Writes length w (twoBytes 0 ++ bytes) lengths (x.map Prod.fst))
    (number : ∀ c, x = .ok c → c.2 = bytes.length) :
    Writes length w (fieldBytes bytes) lengths (x >>= fun c => .ok {c.1 with buf := place c.1.buf w.tmp_buf (twoBytes c.2)}) := by
  cases x with
  | error stop => exact written.stopped
  | ok c =>
    show Writes length w (twoBytes bytes.length ++ bytes) lengths (.ok {c.1 with buf := place c.1.buf w.tmp_buf (twoBytes c.2)})
    rw [number c rfl]
    exact Writes.patched written rfl

theorem check_writes (l : FieldLength) : Writes length w [] [l] (LGR_CHECK_LENGTH length l w) := by
  rw [LGR_CHECK_LENGTH]
  by_cases small : length < l.added w.mess_length
  · rw [if_pos small]
    exact ⟨fun _ _ => rfl,if_pos small⟩
  · rw [if_neg small]
    exact ⟨rfl,fun _ _ => rfl,rfl,if_neg small⟩
theorem put_writes (bytes : List UInt8) : Writes length w bytes [] (put last bytes w) := by
  rw [put]
  by_cases beyond : last < w.tmp_buf+bytes.length
  · rw [if_pos beyond]
    trivial
  · rw [if_neg beyond]
    exact ⟨rfl,fun _ before => place_before before,window_place,rfl⟩
theorem Writes.checked {l : FieldLength} (next : ∀ w', LGR_CHECK_LENGTH length l w = .ok w' → Writes length w' bytes lengths (f w')) :
    Writes length w bytes (l :: lengths) (LGR_CHECK_LENGTH length l w >>= f) := (check_writes l).bind next
theorem Writes.putThen (next : ∀ w', put last bytes w = .ok w' → Writes length w' bytes' lengths (f w')) :
    Writes length w (bytes ++ bytes') lengths (put last bytes w >>= f) := (put_writes bytes).bind next
theorem putField_writes (field : List UInt8) : Writes length w (fieldBytes field) [] (putField last field w) :=
  Writes.putThen fun _ _ => put_writes field
theorem argument_writes {g : UInt64 → Except Stop Writer} (next : Writes length w bytes lengths (g (argument header argn))) :
    Writes length w bytes lengths (LGR_GET_ARG header argn >>= g) := by
  rw [LGR_GET_ARG]
  by_cases inside : argn < TA_LOG_ARGS_MAX
  · rw [argument,dif_pos inside] at next
    rw [dif_pos inside]
    exact next
  · rw [dif_neg inside]
    trivial

end

section
variable {memory : RbMemory} {length last fuel fuel' arg_str n n' : Nat} {w w' : Writer}

/-- The bytes of a string argument: one, and those behind it up to a zero. -/
def textAt (memory : RbMemory) : Nat → Nat → List UInt8
  | 0, _ => []
  | fuel+1, arg_str =>
    if memory.mem (nextByte memory arg_str) = 0 then [memory.mem arg_str]
    else memory.mem arg_str :: textAt memory fuel (nextByte memory arg_str)

theorem bind_ok {α β : Type} {x : Except Stop α} {f : α → Except Stop β} {b : β} (result : (x >>= f) = .ok b) : ∃ a, x = .ok a ∧ f a = .ok b := by
  cases x with
  | error stop => cases result
  | ok a => exact ⟨a,rfl,result⟩
theorem map_bind {α β γ : Type} (x : Except Stop α) (f : α → Except Stop β) (g : β → γ) :
    (x >>= f).map g = x >>= fun a => (f a).map g := by
  cases x <;> rfl

theorem copyString_number (enough : fuel ≤ fuel') (result : copyString memory length last fuel arg_str n w = .ok (w',n')) :
    n' = n+(textAt memory fuel' arg_str).length := by
  induction fuel generalizing fuel' arg_str n w with
  | zero => cases result
  | succ fuel ih =>
    obtain ⟨fuel',rfl⟩ := succ_of_lt enough
    obtain ⟨w₁,-,result⟩ := bind_ok result
    obtain ⟨w₂,-,result⟩ := bind_ok result
    rw [textAt]
    by_cases last' : memory.mem (nextByte memory arg_str) = 0
    · grind
    · grind
theorem copyString_writes (enough : fuel ≤ fuel') :
    Writes length w (textAt memory fuel' arg_str) (replicate (textAt memory fuel' arg_str).length .one)
      ((copyString memory length last fuel arg_str n w).map Prod.fst) := by
  induction fuel generalizing fuel' arg_str n w with
  | zero => trivial
  | succ fuel ih =>
    obtain ⟨fuel',rfl⟩ := succ_of_lt enough
    rw [textAt,copyString,map_bind]
    by_cases last' : memory.mem (nextByte memory arg_str) = 0
    · simp only [if_pos last']
      refine Writes.checked fun w₁ _ => ?_
      rw [map_bind]
      exact Writes.putThen fun w₂ _ => Writes.done
    · simp only [if_neg last']
      refine Writes.checked fun w₁ _ => ?_
      rw [map_bind]
      exact Writes.putThen fun w₂ _ => ih (Nat.le_of_succ_le_succ enough)

/-- The bytes of the field of a string argument. -/
def stringBytes (memory : RbMemory) (arg_str : Nat) : List UInt8 := if arg_str = 0 then [] else textAt memory (2^32) arg_str

theorem copiedString_writes (small : length < 2^32) (some' : arg_str ≠ 0) :
    Writes length w (stringBytes memory arg_str) (replicate (stringBytes memory arg_str).length .one)
      ((copyString memory length last (length+1) arg_str n w).map Prod.fst) := by
  rw [stringBytes,if_neg some']
  exact copyString_writes (Nat.succ_le_of_lt small)
theorem putString_writes (small : length < 2^32) (arg_str : Nat) :
    Writes length w (fieldBytes (stringBytes memory arg_str))
      (.size sizeof_te_log_nfl :: replicate (stringBytes memory arg_str).length .one) (putString memory length last arg_str w) := by
  rw [putString]
  refine Writes.checked fun w₁ _ => ?_
  by_cases null : arg_str = 0
  · have empty : stringBytes memory arg_str = [] := if_pos null
    simp only [if_pos null,empty]
    exact Writes.putThen fun _ _ => Writes.done
  · simp only [if_neg null]
    show Writes length w₁ _ _ (put last (twoBytes 0) w₁ >>= fun w₂ => copyString memory length last (length+1) arg_str 0 w₂ >>= fun c =>
      .ok {c.1 with buf := place c.1.buf w₁.tmp_buf (twoBytes c.2)})
    rw [← bind_assoc]
    refine Writes.patchLength ?_ fun c copied => ?_
    · rw [map_bind]
      exact Writes.putThen fun _ _ => copiedString_writes small null
    · obtain ⟨w₂,written,copied⟩ := bind_ok copied
      rw [stringBytes,if_neg null,copyString_number (Nat.succ_le_of_lt small) copied,Nat.zero_add]
theorem putFmt_writes (header : LgrMessHeader) :
    Writes length w (fieldBytes ((clear_fmt false header.fmt).map charByte)) [.size (sizeof_te_log_nfl+header.fmt.length%2^32)]
      (putFmt header length last w) := by
  rw [putFmt]
  refine Writes.checked fun w₁ _ => ?_
  generalize (clear_fmt false header.fmt).map charByte = clean
  by_cases fails : 2^31 ≤ header.fmt.length ∨ last < w₁.tmp_buf+sizeof_te_log_nfl+clean.length+1
  · simp only [if_pos fails]
    trivial
  · simp only [if_neg fails]
    refine ⟨?_,fun i before => (place_before before).trans (place_before (Nat.lt_add_right _ before)),?_,rfl⟩
    · show w₁.tmp_buf+2+clean.length = _
      rw [fieldBytes_length]
      omega
    · show window _ w₁.tmp_buf (twoBytes clean.length ++ clean).length = twoBytes clean.length ++ clean
      rw [length_append,window_place_front rfl]
      exact congrArg (twoBytes clean.length ++ ·) window_place_prefix
theorem dumpBytes_length (memory : RbMemory) (mem_addr tmp_length : Nat) : (dumpBytes memory mem_addr tmp_length).length = tmp_length := by
  rw [dumpBytes]
  split_ifs with beyond
  · rw [length_append,window_length,window_length]
    omega
  · exact window_length
theorem putDump_writes (mem_addr tmp_length : Nat) :
    Writes length w (fieldBytes (dumpBytes memory mem_addr tmp_length)) [.size (sizeof_te_log_nfl+(dumpBytes memory mem_addr tmp_length).length)]
      (putDump memory length last mem_addr tmp_length w) := by
  have size := dumpBytes_length memory mem_addr tmp_length
  rw [putDump,fieldBytes,size]
  refine Writes.checked fun w₁ _ => Writes.putThen fun w₂ _ => ?_
  by_cases empty : tmp_length = 0
  · rw [if_pos empty,length_eq_zero_iff.mp (size.trans empty)]
    exact Writes.done
  · rw [if_neg empty]
    by_cases behind : ring_last memory < mem_addr+tmp_length ∧ ring_last memory < mem_addr
    · rw [if_pos behind]
      trivial
    · rw [if_neg behind]
      exact put_writes _

end

section
variable {memory : RbMemory} {header : LgrMessHeader} {length last argn : Nat} {w w' : Writer} {c : Conversion} {conversions : List Conversion}

/-- The bytes of the field of a conversion. -/
def argBytes (memory : RbMemory) (header : LgrMessHeader) (argn : Nat) : Conversion → List UInt8
  | .number => fourBytes (argument header argn).toUInt32
  | .pointer => fourBytes (argument header argn >>> 32).toUInt32 ++ fourBytes (argument header argn).toUInt32
  | .char => [(argument header argn).toUInt8]
  | .string => stringBytes memory (argument header argn).toNat
  | .dump => dumpBytes memory (argument header argn).toNat ((argument header (argn+1)).toNat%2^32)
  | .beyond => []
def argFields (memory : RbMemory) (header : LgrMessHeader) : List Conversion → Nat → List (List UInt8)
  | [], _ => []
  | c :: conversions, argn => argBytes memory header argn c :: argFields memory header conversions (argn+c.argsNumber)
/-- The lengths that are checked for the field of a conversion. -/
def argLengths (field : List UInt8) : Conversion → List FieldLength
  | .string => .size sizeof_te_log_nfl :: replicate field.length .one
  | _ => [.size (sizeof_te_log_nfl+field.length)]
def argsLengths (memory : RbMemory) (header : LgrMessHeader) : List Conversion → Nat → List FieldLength
  | [], _ => []
  | c :: conversions, argn => argLengths (argBytes memory header argn c) c ++ argsLengths memory header conversions (argn+c.argsNumber)

theorem putArg_writes (small : length < 2^32) (c : Conversion) :
    Writes length w (fieldBytes (argBytes memory header argn c)) (argLengths (argBytes memory header argn c) c)
      (putArg memory header length last argn c w) := by
  cases c with
  | number | pointer | char => exact Writes.checked fun _ _ => argument_writes (putField_writes _)
  | string => exact argument_writes (putString_writes small _)
  | dump => exact argument_writes (argument_writes (putDump_writes _ _))
  | beyond => trivial
theorem putArgs_writes (small : length < 2^32) :
    Writes length w ((argFields memory header conversions argn).flatMap fieldBytes) (argsLengths memory header conversions argn)
      (putArgs memory header length last conversions argn w) := by
  induction conversions generalizing argn w with
  | nil => exact Writes.done
  | cons c conversions ih =>
    rw [argFields,flatMap_cons]
    exact (putArg_writes small c).bind fun _ _ => ih
theorem argument_ok {β : Type} {f : UInt64 → Except Stop β} {b : β} (result : (LGR_GET_ARG header argn >>= f) = .ok b) :
    argn < TA_LOG_ARGS_MAX ∧ f (argument header argn) = .ok b := by
  rw [LGR_GET_ARG] at result
  by_cases inside : argn < TA_LOG_ARGS_MAX
  · rw [dif_pos inside] at result
    rw [argument,dif_pos inside]
    exact ⟨inside,result⟩
  · rw [dif_neg inside] at result
    cases result
/-- Only an argument that the message has is written. -/
theorem putArg_inside (result : putArg memory header length last argn c w = .ok w') : 0 < c.argsNumber ∧ argn+c.argsNumber ≤ TA_LOG_ARGS_MAX := by
  cases c with
  | number | pointer | char =>
    obtain ⟨_,-,result⟩ := bind_ok result
    exact ⟨Nat.one_pos,(argument_ok result).1⟩
  | string => exact ⟨Nat.one_pos,(argument_ok result).1⟩
  | dump => exact ⟨Nat.two_pos,(argument_ok (argument_ok result).2).1⟩
  | beyond => cases result
theorem putArgs_inside (inside : argn ≤ TA_LOG_ARGS_MAX) (result : putArgs memory header length last conversions argn w = .ok w') :
    argn+conversions.length ≤ TA_LOG_ARGS_MAX := by
  induction conversions generalizing argn w with
  | nil => exact inside
  | cons c conversions ih =>
    obtain ⟨w₁,written,result⟩ := bind_ok result
    obtain ⟨some',inside'⟩ := putArg_inside written
    have := ih inside' result
    rw [length_cons]
    omega

/-- The user name that is written, and the number of arguments it takes. -/
def user (memory : RbMemory) (header : LgrMessHeader) : List UInt8 × Nat :=
  match userName memory header with
  | .ok name => name
  | .error _ => ([],0)
/-- The raw message of a message with a user name. -/
def rawWith (memory : RbMemory) (header : LgrMessHeader) (name : List UInt8) : Record :=
  ⟨headerBytes header,
    name :: (clear_fmt false header.fmt).map charByte ::
      argFields memory header (LoggerTa.conversions (header.fmt.length+1) header.fmt) (user memory header).2⟩
/-- The raw message of a message: its fields are the user name, the cleaned format and the arguments. -/
def raw (memory : RbMemory) (header : LgrMessHeader) : Record := rawWith memory header (user memory header).1
/-- What is written of it: of a user name, as many bytes as four bytes can count. -/
def written (memory : RbMemory) (header : LgrMessHeader) : Record :=
  rawWith memory header ((user memory header).1.take ((user memory header).1.length%2^32))
/-- The lengths that are checked for a message. -/
def messageLengths (memory : RbMemory) (header : LgrMessHeader) : List FieldLength :=
  .size (4+TE_LOG_MSG_COMMON_HDR_SZ) :: .size (sizeof_te_log_nfl+(user memory header).1.length%2^32) ::
    .size (sizeof_te_log_nfl+header.fmt.length%2^32) ::
    (argsLengths memory header (LoggerTa.conversions (header.fmt.length+1) header.fmt) (user memory header).2 ++ [.size sizeof_te_log_nfl])

theorem userName_result (memory : RbMemory) (header : LgrMessHeader) :
    userName memory header = .error .undefined ∨ ∃ name, userName memory header = .ok name ∧ name.2 ≤ 1 := by
  rw [userName]
  by_cases first : header.user_in_first_arg = true
  · rw [if_pos first,LGR_GET_ARG,dif_pos (by decide)]
    show nameAt memory _ = _ ∨ ∃ name, nameAt memory _ = _ ∧ _
    rw [nameAt]
    cases stringAt memory.mem (2^64) (header.args ⟨0,by decide⟩).toNat with
    | none => exact .inl rfl
    | some name => exact .inr ⟨(name,1),rfl,le_refl 1⟩
  · rw [if_neg first]
    exact .inr ⟨(_,0),rfl,Nat.zero_le 1⟩
theorem user_writes {bytes : List UInt8} {lengths : List FieldLength} {f : List UInt8 × Nat → Except Stop Writer}
    (next : Writes length w bytes lengths (f (user memory header))) : Writes length w bytes lengths (userName memory header >>= f) := by
  obtain named | ⟨name,named,-⟩ := userName_result memory header
  · rw [named]
    trivial
  · rw [user,named] at next
    rw [named]
    exact next
theorem putUser_writes (name : List UInt8) :
    Writes length w (fieldBytes (name.take (name.length%2^32))) [.size (sizeof_te_log_nfl+name.length%2^32)] (putUser length last name w) :=
  Writes.checked fun _ _ => putField_writes _
theorem putMessage_writes (small : length < 2^32) :
    Writes length w (written memory header).bytes (messageLengths memory header) (putMessage memory header length last w) := by
  rw [Record.bytes,written,rawWith,flatMap_cons,flatMap_cons,append_assoc,append_assoc,append_assoc]
  refine Writes.checked fun _ _ => Writes.putThen fun _ _ => user_writes ?_
  show Writes length _ _ ([.size _] ++ ([.size _] ++ (_ ++ [.size _]))) _
  refine (putUser_writes _).bind fun _ _ => (putFmt_writes header).bind fun _ _ => (putArgs_writes small).bind fun _ _ => ?_
  exact Writes.checked fun _ _ => put_writes _
theorem putMessage_inside (result : putMessage memory header length last w = .ok w') :
    header.fmt.length < 2^31 ∧ (LoggerTa.conversions (header.fmt.length+1) header.fmt).length ≤ TA_LOG_ARGS_MAX := by
  obtain ⟨_,-,result⟩ := bind_ok result
  obtain ⟨_,-,result⟩ := bind_ok result
  obtain ⟨name,named,result⟩ := bind_ok result
  obtain ⟨_,-,result⟩ := bind_ok result
  obtain ⟨_,format,result⟩ := bind_ok result
  obtain ⟨_,args,-⟩ := bind_ok result
  obtain ⟨_,-,format⟩ := bind_ok format
  refine ⟨?_,?_⟩
  · by_contra long
    rw [if_pos (.inl (Nat.le_of_not_lt long))] at format
    cases format
  · obtain named' | ⟨name',named',few⟩ := userName_result memory header
    · rw [named'] at named
      cases named
    · rw [named'] at named
      obtain rfl := ok.inj named
      have := putArgs_inside (few.trans (by decide)) args
      omega

end

section
variable {memory : RbMemory} {header : LgrMessHeader} {length mess_length n argn : Nat} {lengths lengths' : List FieldLength}

def FieldLength.bytes : FieldLength → Nat
  | .size n => n
  | .one => 1
/-- The sum of some lengths, in a type that is wide enough for it. -/
def total (lengths : List FieldLength) : Nat := (lengths.map FieldLength.bytes).sum
/-- No length of a field is taken for the end of the message. -/
def Short (memory : RbMemory) (header : LgrMessHeader) : Prop := ∀ field ∈ (raw memory header).fields, field.length < TE_LOG_RAW_EOR_LEN

theorem total_cons (l : FieldLength) : total (l :: lengths) = l.bytes+total lengths := sum_cons
theorem total_append : total (lengths ++ lengths') = total lengths+total lengths' := by
  rw [total,map_append,List.sum_append]
  rfl
theorem total_replicate (n : Nat) : total (replicate n .one) = n := by
  rw [total,List.map_replicate,List.sum_replicate_nat]
  exact Nat.mul_one n
/-- As long as four bytes are enough, `mess_length` is the sum of the lengths. -/
theorem counted_total (result : counted length mess_length lengths = some n) (wide : mess_length+total lengths < 2^32) :
    n = mess_length+total lengths := by
  induction lengths generalizing mess_length with
  | nil => exact (some.inj result).symm
  | cons l lengths ih =>
    rw [counted] at result
    split_ifs at result
    rw [total_cons] at wide ⊢
    have added : l.added mess_length = mess_length+l.bytes := by
      cases l with
      | size k => rfl
      | one => exact mod_eq_of_lt (by rw [FieldLength.bytes] at wide; omega)
    rw [added] at result
    rw [ih result (by omega)]
    omega
theorem argLengths_total (field : List UInt8) (c : Conversion) : total (argLengths field c) = (fieldBytes field).length := by
  rw [fieldBytes_length]
  cases c with
  | string =>
    rw [argLengths,total_cons,total_replicate]
    exact Nat.add_comm 2 _
  | number | pointer | char | dump | beyond => exact Nat.add_comm 2 _
theorem argsLengths_total (conversions : List Conversion) :
    total (argsLengths memory header conversions argn) = ((argFields memory header conversions argn).flatMap fieldBytes).length := by
  induction conversions generalizing argn with
  | nil => rfl
  | cons c conversions ih =>
    rw [argsLengths,total_append,argLengths_total,ih,argFields,flatMap_cons,length_append]
theorem argFields_length (conversions : List Conversion) : (argFields memory header conversions argn).length = conversions.length := by
  induction conversions generalizing argn with
  | nil => rfl
  | cons c conversions ih => rw [argFields,length_cons,ih,length_cons]
theorem clear_fmt_length (inside : Bool) (fmt : CStr) : (clear_fmt inside fmt).length ≤ fmt.length := by
  fun_induction clear_fmt inside fmt <;> simp_all <;> omega
/-- What is counted for a message is its raw message and what `clear_fmt` leaves out. -/
theorem messageLengths_total (short : Short memory header) (small : header.fmt.length < 2^32) :
    total (messageLengths memory header) = (raw memory header).bytes.length+(header.fmt.length-(clear_fmt false header.fmt).length) := by
  have name : (user memory header).1.length < TE_LOG_RAW_EOR_LEN := short _ mem_cons_self
  have clean := clear_fmt_length false header.fmt
  rw [TE_LOG_RAW_EOR_LEN] at name
  rw [messageLengths,total_cons,total_cons,total_cons,total_append,argsLengths_total,total_cons,mod_eq_of_lt small,
    mod_eq_of_lt (by omega),raw,Record.bytes,rawWith,flatMap_cons,flatMap_cons]
  simp only [length_append,fieldBytes_length,length_map,FieldLength.bytes,twoBytes_length,sizeof_te_log_nfl,total,map_nil,List.sum_nil]
  have header : (headerBytes header).length = 4+TE_LOG_MSG_COMMON_HDR_SZ := rfl
  omega
/-- The raw message of a message with short fields is short. -/
theorem raw_small (short : Short memory header) (few : (conversions (header.fmt.length+1) header.fmt).length ≤ TA_LOG_ARGS_MAX) :
    (raw memory header).bytes.length < 2^20 := by
  have fields := fieldBytes_most fun field member => Nat.le_of_lt_succ (short field member)
  have number : (raw memory header).fields.length = (conversions (header.fmt.length+1) header.fmt).length+2 :=
    congrArg (·+2) (argFields_length _)
  have header : (raw memory header).header.length = 15 := rfl
  rw [number] at fields
  rw [TA_LOG_ARGS_MAX] at few
  rw [Record.bytes,length_append,length_append,header,twoBytes_length]
  omega

end

end TestEnvironment.LoggerTa
