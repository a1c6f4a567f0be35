import TestEnvironment.Lib.Framing
import TestEnvironment.Lib.Strings
import TestEnvironment.Lib.Windows

/-!
Log retrieval on the side of an agent (`ta_log_get` of `logger_ta.c`): messages are
taken from the ring buffer and written into the transfer buffer as raw messages.
Sizes are those of a platform with pointers of eight bytes.

Nobody logs while a call runs. The transfer buffer is not `NULL` and ends at its
length; what a function does is undefined when it writes behind that, reads behind the
end of a format or an argument that no message has, or takes a dump behind the ring.
-/
namespace TestEnvironment.LoggerTa
open Lib

section

/-- `sizeof(struct lgr_mess_header)`. -/
def LGR_RB_ELEMENT_LEN : Nat := 152
def LGR_RB_BIG_MESSAGE_LEN : Nat := 3597
def LGR_MAX_BIG_MESSAGES : Nat := 4000
def LGR_TOTAL_RB_EL : UInt32 := UInt32.ofNat (LGR_RB_BIG_MESSAGE_LEN*LGR_MAX_BIG_MESSAGES/LGR_RB_ELEMENT_LEN)
def LGR_TOTAL_RB_BYTES : Nat := LGR_TOTAL_RB_EL.toNat*LGR_RB_ELEMENT_LEN
def TA_LOG_ARGS_MAX : Nat := 12

/-- `lgr_mess_header` without the number of arguments, which is not read. -/
structure LgrMessHeader where
  user_in_first_arg : Bool
  elements : UInt32
  sequence : UInt32
  mark : UInt32
  sec : UInt32
  usec : UInt32
  level : UInt16
  user : CStr
  fmt : CStr
  args : Fin TA_LOG_ARGS_MAX → UInt64
/-- The address of the ring, and the memory that arguments point into, the ring included. -/
structure RbMemory where
  rb : Nat
  mem : Nat → UInt8
/-- `struct lgr_rb` without its tail, with the elements of the ring as headers. -/
structure LgrRb where
  head : UInt32
  unused : UInt32
  elements : UInt32 → LgrMessHeader
  memory : RbMemory

def LGR_RB_CORRECTION (val : UInt32) : UInt32 := if val < LGR_TOTAL_RB_EL then val else val-LGR_TOTAL_RB_EL
def LGR_SET_MARK_FIELD (lb : LgrRb) (pos val : UInt32) : LgrRb :=
  {lb with elements := fun i => if i = pos then {lb.elements pos with mark := val} else lb.elements i}
def lgr_rb_remove_oldest (lb : LgrRb) : LgrRb :=
  if lb.unused = LGR_TOTAL_RB_EL then lb
  else {lb with head := LGR_RB_CORRECTION (lb.head+(lb.elements lb.head).elements), unused := lb.unused+(lb.elements lb.head).elements}
def ring_last (memory : RbMemory) : Nat := memory.rb+LGR_TOTAL_RB_BYTES

end

section

/-- `isalpha` in the C locale. -/
def isalpha (c : Char) : Bool := c.isAlpha
/-- The characters that `clear_fmt` writes, from a place that is inside a conversion or not. -/
def clear_fmt : Bool → CStr → CStr
  | _, [] => []
  | false, c :: fmt => c :: clear_fmt (c = '%') fmt
  | true, c :: fmt =>
    if isalpha c || c = '%' then c :: clear_fmt false fmt
    else if c = '*' then clear_fmt true fmt
    else match c, fmt with
      | '.', '*' :: fmt => clear_fmt true fmt
      | c, fmt => c :: clear_fmt true fmt

def skip_flags : CStr := "#-+ 0".toList
def skip_width : CStr := "*0123456789".toList
/-- `for (; index(skip, *fs); ++fs);`: the terminating zero is found too, and then `fs` leaves the string. -/
def skipAll (skip : CStr) : CStr → Option CStr
  | [] => none
  | c :: fs => if c ∈ skip then skipAll skip fs else some (c :: fs)
/-- The text from the conversion character on, behind a `%` that no `%` follows. -/
def conversionChar (fs : CStr) : Option CStr := do
  let fs ← skipAll skip_flags fs
  let fs ← skipAll skip_width fs
  skipAll skip_width (if fs.head? = some '.' then fs.tail else fs)

/-- What a conversion of a format has written for it; `beyond` reads behind the end of the format. -/
inductive Conversion
  | number | pointer | char | string | dump | beyond
  deriving DecidableEq, Repr
def Conversion.argsNumber : Conversion → Nat
  | .dump => 2
  | .beyond => 0
  | _ => 1
/-- The `switch` at a conversion character, with the text behind what it reads. -/
def conversionOf : Char → CStr → Option Conversion × CStr
  | 'p', fs => (some .pointer,fs)
  | 'c', fs => (some .char,fs)
  | 's', fs => (some .string,fs)
  | 'T', [] => (some .beyond,[])
  | 'T', m :: fs => (if m = 'm' then some .dump else none,fs)
  | c, fs => (if c ∈ ['d','i','o','x','X','u','r'] then some .number else none,fs)
/-- The loop of `log_get_message` over the format: the conversions in their order. Every
    turn passes a character. -/
def conversions : Nat → CStr → List Conversion
  | 0, _ => []
  | _+1, [] => []
  | fuel+1, c :: fs =>
    if c ≠ '%' then conversions fuel fs
    else if fs.head? = some '%' then conversions fuel fs.tail
    else match conversionChar fs with
      | some (c :: fs) => (conversionOf c fs).1.toList ++ conversions fuel (conversionOf c fs).2
      | _ => [.beyond]

theorem skipAll_length {skip fs fs' : CStr} (result : skipAll skip fs = some fs') : fs'.length ≤ fs.length := by
  induction fs with
  | nil => cases result
  | cons c fs ih => grind [skipAll]
theorem conversionChar_length {fs fs' : CStr} (result : conversionChar fs = some fs') : fs'.length ≤ fs.length := by
  obtain ⟨flags,skipped,result⟩ := of_bind result
  obtain ⟨width,skipped',result⟩ := of_bind result
  have point : (if width.head? = some '.' then width.tail else width).length ≤ width.length := by grind
  exact (skipAll_length result).trans (point.trans ((skipAll_length skipped').trans (skipAll_length skipped)))
theorem conversionOf_length (c : Char) (fs : CStr) : (conversionOf c fs).2.length ≤ fs.length := by
  rw [conversionOf.eq_def]
  split
  case h_5 => exact le_succ _
  all_goals exact le_rfl
/-- Every turn of the loop passes a character, so that it ends before its bound. -/
theorem conversions_enough {fuel : Nat} {fs : CStr} (enough : fs.length < fuel) : conversions (fuel+1) fs = conversions fuel fs := by
  induction fuel generalizing fs with
  | zero => cases enough
  | succ fuel ih =>
    match fs with
    | [] => rfl
    | c :: fs =>
      have enough : fs.length < fuel := lt_of_succ_lt_succ enough
      rw [conversions,conversions]
      by_cases text : c ≠ '%'
      · simp only [if_pos text]
        exact ih enough
      · simp only [if_neg text]
        by_cases percent : fs.head? = some '%'
        · simp only [if_pos percent]
          exact ih (lt_of_le_of_lt (fs.length_tail ▸ Nat.sub_le _ 1) enough)
        · simp only [if_neg percent]
          match found : conversionChar fs with
          | none | some [] => rfl
          | some (c :: fs') =>
            have shorter := conversionChar_length found
            have := conversionOf_length c fs'
            rw [length_cons] at shorter
            exact congrArg (_ ++ ·) (ih (by omega))

end

section

/-- A raw message that is being written. -/
structure Writer where
  buf : Nat → UInt8
  tmp_buf : Nat
  mess_length : Nat
/-- Why a message is not written to its end. `small`: the rest of the transfer buffer, of
    which some has been written, is too small. -/
inductive Stop
  | undefined
  | small (buf : Nat → UInt8)

def TE_LOG_VERSION : UInt8 := 1
def TE_LOG_RAW_EOR_LEN : Nat := 2^16-1
/-- `sizeof(te_log_nfl)`. -/
def sizeof_te_log_nfl : Nat := 2
def TE_LOG_MSG_COMMON_HDR_SZ : Nat := 1+4+4+2
/-- `htonl`. -/
def fourBytes (n : UInt32) : List UInt8 := [(n >>> 24).toUInt8,(n >>> 16).toUInt8,(n >>> 8).toUInt8,n.toUInt8]
def charByte (c : Char) : UInt8 := UInt8.ofNat c.toNat

/-- The argument of `LGR_CHECK_LENGTH`: a `size_t`, or the `int` of the loop over a string. -/
inductive FieldLength
  | size (n : Nat)
  | one
/-- `mess_length + (_field_length)`, in the type that C gives it. -/
def FieldLength.added : FieldLength → Nat → Nat
  | .size n, mess_length => mess_length+n
  | .one, mess_length => (mess_length+1)%2^32
def LGR_CHECK_LENGTH (length : Nat) (field_length : FieldLength) (w : Writer) : Except Stop Writer :=
  if length < field_length.added w.mess_length then .error (.small w.buf)
  else .ok {w with mess_length := field_length.added w.mess_length}
def LGR_GET_ARG (header : LgrMessHeader) (argn : Nat) : Except Stop UInt64 :=
  if inside : argn < TA_LOG_ARGS_MAX then .ok (header.args ⟨argn,inside⟩) else .error .undefined

variable (memory : RbMemory) (header : LgrMessHeader) (length last : Nat)

/-- Bytes at `tmp_buf`, which passes them; the transfer buffer ends at `last`. -/
def put (bytes : List UInt8) (w : Writer) : Except Stop Writer :=
  if last < w.tmp_buf+bytes.length then .error .undefined
  else .ok {w with buf := place w.buf w.tmp_buf bytes, tmp_buf := w.tmp_buf+bytes.length}
/-- A field behind its length. -/
def putField (bytes : List UInt8) (w : Writer) : Except Stop Writer := do
  let w ← put last (twoBytes bytes.length) w
  put last bytes w
/-- The bytes before the zero that a string in memory ends with. -/
def stringAt (mem : Nat → UInt8) : Nat → Nat → Option (List UInt8)
  | 0, _ => none
  | fuel+1, addr => if mem addr = 0 then some [] else (stringAt mem fuel (addr+1)).map (mem addr :: ·)
def nameAt (arg : Nat) : Except Stop (List UInt8 × Nat) :=
  match stringAt memory.mem (2^64) arg with
  | some name => .ok (name,1)
  | none => .error .undefined
/-- The user name and the number of arguments that it takes. -/
def userName : Except Stop (List UInt8 × Nat) :=
  if header.user_in_first_arg then do
    let arg ← LGR_GET_ARG header 0
    nameAt memory arg.toNat
  else .ok (header.user.map charByte,0)
/-- `tmp_length` has four bytes. -/
def putUser (name : List UInt8) (w : Writer) : Except Stop Writer := do
  let w ← LGR_CHECK_LENGTH length (.size (sizeof_te_log_nfl+name.length%2^32)) w
  putField last (name.take (name.length%2^32)) w
/-- The cleaned format is written with its zero, and its length afterwards. The counter of
    `clear_fmt` is an `int`. -/
def putFmt (w : Writer) : Except Stop Writer := do
  let w ← LGR_CHECK_LENGTH length (.size (sizeof_te_log_nfl+header.fmt.length%2^32)) w
  let clean := (clear_fmt false header.fmt).map charByte
  if 2^31 ≤ header.fmt.length ∨ last < w.tmp_buf+sizeof_te_log_nfl+clean.length+1 then .error .undefined
  else
    let buf := place w.buf (w.tmp_buf+sizeof_te_log_nfl) (clean ++ [0])
    .ok {w with buf := place buf w.tmp_buf (twoBytes clean.length), tmp_buf := w.tmp_buf+sizeof_te_log_nfl+clean.length}
/-- The address of the next byte of a string. -/
def nextByte (arg_str : Nat) : Nat := if arg_str+1 = ring_last memory then memory.rb else arg_str+1
/-- The loop over the bytes of a string, of which there are at least one, with `tmp_length`.
    Every turn fills a byte of the transfer buffer. -/
def copyString : Nat → Nat → Nat → Writer → Except Stop (Writer × Nat)
  | 0, _, _, _ => .error .undefined
  | fuel+1, arg_str, tmp_length, w => do
    let w ← LGR_CHECK_LENGTH length .one w
    let w ← put last [memory.mem arg_str] w
    if memory.mem (nextByte memory arg_str) = 0 then .ok (w,tmp_length+1)
    else copyString fuel (nextByte memory arg_str) (tmp_length+1) w
def putString (arg_str : Nat) (w : Writer) : Except Stop Writer := do
  let w ← LGR_CHECK_LENGTH length (.size sizeof_te_log_nfl) w
  let arglen_location := w.tmp_buf
  let w ← put last (twoBytes 0) w
  if arg_str = 0 then .ok w
  else do
    let (w,tmp_length) ← copyString memory length last (length+1) arg_str 0 w
    .ok {w with buf := place w.buf arglen_location (twoBytes tmp_length)}
/-- The bytes of a dump that does not begin behind the ring, in two pieces when it passes the end of the ring. -/
def dumpBytes (mem_addr tmp_length : Nat) : List UInt8 :=
  if ring_last memory < mem_addr+tmp_length then
    window memory.mem mem_addr (ring_last memory-mem_addr) ++ window memory.mem memory.rb (tmp_length-(ring_last memory-mem_addr))
  else window memory.mem mem_addr tmp_length
def putDump (mem_addr tmp_length : Nat) (w : Writer) : Except Stop Writer := do
  let w ← LGR_CHECK_LENGTH length (.size (sizeof_te_log_nfl+tmp_length)) w
  let w ← put last (twoBytes tmp_length) w
  if tmp_length = 0 then .ok w
  else if ring_last memory < mem_addr+tmp_length ∧ ring_last memory < mem_addr then .error .undefined
  else put last (dumpBytes memory mem_addr tmp_length) w

/-- The cases of the `switch`, for the argument with the number `argn` and those behind it. -/
def putArg (argn : Nat) : Conversion → Writer → Except Stop Writer
  | .number, w => do
    let w ← LGR_CHECK_LENGTH length (.size (sizeof_te_log_nfl+4)) w
    let val ← LGR_GET_ARG header argn
    putField last (fourBytes val.toUInt32) w
  | .pointer, w => do
    let w ← LGR_CHECK_LENGTH length (.size (sizeof_te_log_nfl+8)) w
    let val ← LGR_GET_ARG header argn
    putField last (fourBytes (val >>> 32).toUInt32 ++ fourBytes val.toUInt32) w
  | .char, w => do
    let w ← LGR_CHECK_LENGTH length (.size (sizeof_te_log_nfl+1)) w
    let val ← LGR_GET_ARG header argn
    putField last [val.toUInt8] w
  | .string, w => do
    let arg_str ← LGR_GET_ARG header argn
    putString memory length last arg_str.toNat w
  | .dump, w => do
    let mem_addr ← LGR_GET_ARG header argn
    let tmp_length ← LGR_GET_ARG header (argn+1)
    putDump memory length last mem_addr.toNat (tmp_length.toNat%2^32) w
  | .beyond, _ => .error .undefined
def putArgs : List Conversion → Nat → Writer → Except Stop Writer
  | [], _, w => .ok w
  | c :: conversions, argn, w => do
    let w ← putArg memory header length last argn c w
    putArgs conversions (argn+c.argsNumber) w
/-- The fields that have no length before them. -/
def headerBytes : List UInt8 :=
  fourBytes header.sequence ++ [TE_LOG_VERSION] ++ fourBytes header.sec ++ fourBytes header.usec ++ twoBytes header.level.toNat
def putMessage (w : Writer) : Except Stop Writer := do
  let w ← LGR_CHECK_LENGTH length (.size (4+TE_LOG_MSG_COMMON_HDR_SZ)) w
  let w ← put last (headerBytes header) w
  let (name,argn) ← userName memory header
  let w ← putUser length last name w
  let w ← putFmt header length last w
  let w ← putArgs memory header length last (conversions (header.fmt.length+1) header.fmt) argn w
  let w ← LGR_CHECK_LENGTH length (.size sizeof_te_log_nfl) w
  put last (twoBytes TE_LOG_RAW_EOR_LEN) w

end

section

/-- Which of the calls for the lock succeed while a message is taken. -/
structure Locks where
  lock : Bool
  unlock : Bool
  relock : Bool
  deriving DecidableEq, Repr
/-- What a function returns, with the ring and the transfer buffer it leaves. -/
structure Got where
  ret : Nat
  lb : LgrRb
  buf : Nat → UInt8

/-- The end of `log_get_message`: a message that has been written is removed from the ring, another one only loses its mark. -/
def finishMessage (locks : Locks) (lb : LgrRb) : Except Stop Writer → Option Got
  | .error .undefined => none
  | .error (.small buf) => some ⟨0,LGR_SET_MARK_FIELD lb lb.head 0,buf⟩
  | .ok w =>
    if locks.relock = false then some ⟨0,LGR_SET_MARK_FIELD lb lb.head 0,w.buf⟩
    else some ⟨w.mess_length,lgr_rb_remove_oldest (LGR_SET_MARK_FIELD lb lb.head 0),w.buf⟩
/-- The message is written from `buffer` on. -/
def log_get_message (locks : Locks) (lb : LgrRb) (length buffer : Nat) (buf : Nat → UInt8) : Option Got :=
  if length < LGR_RB_ELEMENT_LEN then some ⟨0,lb,buf⟩
  else if locks.lock = false then some ⟨0,lb,buf⟩
  else if lb.unused = LGR_TOTAL_RB_EL then some ⟨0,lb,buf⟩
  else if LGR_TOTAL_RB_EL ≤ lb.head then none
  else
    let lb := LGR_SET_MARK_FIELD lb lb.head 1
    if locks.unlock = false then some ⟨0,LGR_SET_MARK_FIELD lb lb.head 0,buf⟩
    else finishMessage locks lb (putMessage lb.memory (lb.elements lb.head) length (buffer+length) ⟨buf,buffer,0⟩)
/-- The loop of `ta_log_get`, with the locks of the messages to come. -/
def getMessages (locks : Nat → Locks) (buf_length : Nat) : Nat → Nat → LgrRb → (Nat → UInt8) → Nat → Option Got
  | 0, _, lb, buf, log_length => some ⟨log_length,lb,buf⟩
  | fuel+1, turn, lb, buf, log_length =>
    if lb.unused = LGR_TOTAL_RB_EL then some ⟨log_length,lb,buf⟩
    else if buf_length-log_length = 0 then some ⟨log_length,lb,buf⟩
    else match log_get_message (locks turn) lb (buf_length-log_length) log_length buf with
      | none => none
      | some got =>
        if got.ret = 0 then some ⟨log_length,got.lb,got.buf⟩
        else getMessages locks buf_length fuel (turn+1) got.lb got.buf (log_length+got.ret)
/-- Every turn but the last fills a byte of the transfer buffer. -/
def ta_log_get (locks : Nat → Locks) (lb : LgrRb) (buf_length : UInt32) (transfer_buf : Nat → UInt8) : Option Got :=
  getMessages locks buf_length.toNat (buf_length.toNat+1) 0 lb transfer_buf 0

end

end TestEnvironment.LoggerTa
