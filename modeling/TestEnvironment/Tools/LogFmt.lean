import TestEnvironment.Lib.Framing
import TestEnvironment.Lib.Bits
import TestEnvironment.Lib.Decimal

/-!
Raw log messages as `te_log_fmt.c` writes them. What `vsnprintf` prints for arguments and the files that can
be opened are parameters. Where an assertion fails, memory outside of a buffer or an argument is accessed, or an
argument is of another type than its conversion, the program ends; memory does not run out. Where a buffer is
too small for a text, the code prints it once more with the same `va_list`: the text is the one that stays.
-/
namespace TestEnvironment.Tools.LogFmt
open Lib

def TE_LOG_VERSION : Nat := 1
def TE_LOG_RAW_EOR_LEN : Nat := 2^16-1
def TE_LOG_FIELD_MAX : Nat := TE_LOG_RAW_EOR_LEN-1
def TE_LOG_MSG_RAW_BUF_INIT : Nat := 512
def TE_LOG_MSG_RAW_BUF_GROW : Nat := 256
def TE_LOG_MSG_RAW_ARGS_INIT : Nat := 16
def TE_LOG_MSG_RAW_ARGS_GROW : Nat := 4

/-- `overrun` reads the format behind its zero. -/
inductive LogStop | TE_EINVAL | overrun | crash
  deriving DecidableEq, Repr
/-- An argument of a function with variable arguments: a pointer with the memory from it on (nothing for `NULL`),
an `int`, or anything else. -/
inductive VaArg
  | pointer (memory : Option (List UInt8))
  | int (value : BitVec 32)
  | other (value : Nat)
  deriving DecidableEq, Repr
/-- An argument for the backend: its type with its address and length. -/
inductive MsgArg
  | EOR
  | INT (value len : Nat)
  | MEM (addr : List UInt8) (len : Nat)
  | FILE (name : Option (List UInt8))
  deriving DecidableEq, Repr
/-- `te_log_msg_out`, for a state. -/
structure MsgOut (σ : Type) where
  fmt : CStr → List VaArg → σ → Except LogStop σ
  raw : CStr → MsgArg → σ → Except LogStop σ

def toBytes (s : CStr) : List UInt8 := s.map fun c => UInt8.ofNat c.toNat
/-- The characters at a pointer up to the zero. -/
def cString (memory : List UInt8) : Except LogStop (List UInt8) :=
  if 0 ∈ memory then .ok (memory.takeWhile (· ≠ 0)) else .error .crash
/-- A string constant with its zero. -/
def literal (s : String) : List UInt8 := toBytes s.toList ++ [0]

section

def flags : CStr := ['#','0','+','-',' ','\'']
/-- `index` finds the zero at the end too, so that the loop runs past it. -/
def skipFlags : CStr → Except LogStop CStr
  | [] => .error .overrun
  | c :: s => if c ∈ flags then skipFlags s else .ok (c :: s)
def skipPrecision : CStr → CStr
  | '.' :: s => s.dropWhile isdigit
  | s => s
/-- The length modifier and the text behind it. -/
def lengthModifier : CStr → Option Char × CStr
  | 'l' :: 'l' :: s => (some 'L',s)
  | 'l' :: s => (some 'l',s)
  | 'h' :: 'h' :: s => (some 'H',s)
  | 'h' :: s => (some 'h',s)
  | c :: s => if c = 'L' ∨ c = 'j' ∨ c = 't' ∨ c = 'z' then (some c,s) else (none,c :: s)
  | [] => (none,[])
/-- What a conversion is: an argument of its own, text that is printed later, or plain text. -/
inductive Conversion
  | arg (arg : MsgArg)
  | printed
  | plain
  deriving DecidableEq, Repr
def skipArg (s : CStr) : List VaArg → Except LogStop (Conversion × List VaArg × CStr)
  | _ :: ap => .ok (.printed,ap,s)
  | [] => .error .crash
def intArg (s : CStr) : List VaArg → Except LogStop (Conversion × List VaArg × CStr)
  | .int arg :: ap => .ok (.arg (.INT arg.toNat 4),ap,s)
  | _ => .error .crash
/-- A conversion from its specifier on, with the arguments and the text behind it. -/
def convert (modifier : Option Char) (ap : List VaArg) : CStr → Except LogStop (Conversion × List VaArg × CStr)
  | [] => .error .TE_EINVAL
  | ['T'] => .error .overrun
  | 'T' :: c :: s =>
    if c = 'm' then
      match ap with
      | .pointer base :: .int len :: ap => .ok (.arg (.MEM (base.getD []) len.toNat),ap,s)
      | _ => .error .crash
    else if c = 'f' then
      match ap with
      | .pointer filename :: ap => .ok (.arg (.FILE filename),ap,s)
      | _ => .error .crash
    else .ok (.plain,ap,s)
  | c :: s =>
    if c = 'r' ∨ c = 'c' then intArg s ap
    else if c = 's' then
      match ap with
      | .pointer arg :: ap => do
        let arg := arg.getD (literal "(null)")
        let chars ← cString arg
        .ok (.arg (.MEM arg chars.length),ap,s)
      | _ => .error .crash
    else if c ∈ ['p','d','i','o','u','x','X'] then skipArg s ap
    else if c ∈ ['e','E','f','F','g','G','a','A'] then
      if modifier = some 'L' ∨ modifier = none then skipArg s ap else .ok (.printed,ap,s)
    else if c = '%' then .ok (.plain,ap,s)
    else .error .TE_EINVAL
/-- The conversion behind a `%`. -/
def conversion (ap : List VaArg) (s : CStr) : Except LogStop (Conversion × List VaArg × CStr) := do
  let s ← skipFlags s
  let (modifier,s) := lengthModifier (skipPrecision (s.dropWhile isdigit))
  convert modifier ap s

variable {σ : Type} (out : MsgOut σ)

/-- What the backend prints before an argument. -/
def flush (fmt_needed : Bool) (front : CStr) (ap_start : List VaArg) (state : σ) : Except LogStop σ :=
  if fmt_needed then out.fmt front ap_start state else .ok state
/-- The loop of `te_log_vprintf`, from `fmt_start` with the arguments for it (`ap_start`), up to `s`. It ends
before it has made more turns than there are characters. -/
def vprintfLoop : Nat → CStr → Bool → List VaArg → List VaArg → CStr → σ → Except LogStop σ
  | 0, _, _, _, _, _, _ => .error .overrun
  | _+1, front, _, ap_start, _, [], state => flush out (front ≠ []) front ap_start state >>= out.raw [] .EOR
  | fuel+1, front, fmt_needed, ap_start, ap, c :: s, state =>
    if c ≠ '%' then vprintfLoop fuel (front ++ [c]) fmt_needed ap_start ap s state
    else do
      let (found,ap,rest) ← conversion ap s
      let spec := '%' :: s.take (s.length-rest.length)
      match found with
      | .plain => vprintfLoop fuel (front ++ spec) fmt_needed ap_start ap rest state
      | .printed => vprintfLoop fuel (front ++ spec) true ap_start ap rest state
      | .arg arg => do
        let state ← flush out fmt_needed front ap_start state
        let state ← out.raw (if fmt_needed then spec else front ++ spec) arg state
        vprintfLoop fuel [] false ap ap rest state
/-- `te_log_vprintf` for a backend with both functions. -/
def te_log_vprintf (fmt : Option CStr) (ap : List VaArg) (state : σ) : Except LogStop σ :=
  match fmt with
  | none => out.fmt "(null)".toList [] state
  | some fmt => vprintfLoop out (fmt.length+1) [] false ap ap fmt state
end

section

/-- `te_log_msg_raw_arg`. -/
inductive RawArg
  | EOR
  | INT (value len : Nat)
  | MEM (addr : List UInt8) (len : Nat)
  | FILE (fd len : Nat)
  deriving DecidableEq, Repr
def RawArg.len : RawArg → Nat
  | .EOR => 0
  | .INT _ len => len
  | .MEM _ len => len
  | .FILE _ len => len
/-- `te_log_msg_raw_data`: the bytes up to `ptr` in a buffer of some size, and the contents of the files that are
opened, by their descriptors. -/
structure RawData where
  buf : List UInt8
  size : Nat
  args : List RawArg
  args_max : Nat
  args_len : Nat
  opened : List (List UInt8)
  deriving DecidableEq, Repr
/-- A regular file with the size that `fstat` tells; what is read later may be more or less. -/
structure LogFile where
  st_size : Nat
  content : List UInt8
  deriving DecidableEq, Repr

def ta_log_msg_raw_buf_check_len (data : RawData) (len : Nat) : RawData :=
  let room := data.size-data.buf.length
  if len ≤ room then data
  else if data.size = 0 then
    {data with size := TE_LOG_MSG_RAW_BUF_INIT +
      if TE_LOG_MSG_RAW_BUF_INIT ≤ len then ((len-TE_LOG_MSG_RAW_BUF_INIT)/TE_LOG_MSG_RAW_BUF_GROW+1)*TE_LOG_MSG_RAW_BUF_GROW else 0}
  else {data with size := data.size+((len-room)/TE_LOG_MSG_RAW_BUF_GROW+1)*TE_LOG_MSG_RAW_BUF_GROW}
/-- Bytes at `ptr`, which passes them. -/
def put (bytes : List UInt8) (data : RawData) : Except LogStop RawData :=
  if data.buf.length+bytes.length ≤ data.size then .ok {data with buf := data.buf ++ bytes} else .error .crash
def copyFormat (data : RawData) (fmt : CStr) : Except LogStop RawData :=
  if fmt ≠ [] then put (toBytes fmt) (ta_log_msg_raw_buf_check_len data fmt.length) else .ok data
def growArgs (data : RawData) : RawData :=
  if data.args.length = data.args_max then
    {data with args_max := if data.args_max = 0 then TE_LOG_MSG_RAW_ARGS_INIT else data.args_max+TE_LOG_MSG_RAW_ARGS_GROW}
  else data
def te_log_msg_prepare_raw_args (data : RawData) (fmt : CStr) : Except LogStop RawData := do
  let data ← copyFormat data fmt
  if (growArgs data).args.length < (growArgs data).args_max then .ok (growArgs data) else .error .crash
/-- An argument behind the others. -/
def RawData.store (data : RawData) (arg : RawArg) : RawData :=
  {data with args := data.args ++ [arg],args_len := data.args_len+(2+arg.len)}
end

section
variable (vsnprintf : CStr → List VaArg → CStr) (files : List UInt8 → Option LogFile)

/-- The terminating zero needs room too. -/
def te_log_msg_fmt_args (fmt : CStr) (ap : List VaArg) (data : RawData) : Except LogStop RawData :=
  let text := vsnprintf fmt ap
  put (toBytes text) (ta_log_msg_raw_buf_check_len data (text.length+1))
/-- From the last `c` on. -/
def rindex (c : Char) : CStr → Option CStr
  | [] => none
  | x :: s =>
    match rindex c s with
    | some t => some t
    | none => if x = c then some (x :: s) else none
/-- `te_log_msg_truncated`: where the rest of an argument comes from. -/
inductive Saved
  | fd (fd : Nat)
  | addr (addr : List UInt8)
  deriving DecidableEq, Repr
def Saved.arg (len : Nat) : Saved → RawArg
  | .fd file => .FILE file len
  | .addr base => .MEM base len
/-- Behind the part that a field takes. -/
def Saved.next : Saved → Saved
  | .fd file => .fd file
  | .addr base => .addr (base.drop TE_LOG_FIELD_MAX)
/-- The loop of `te_log_msg_handle_trunc`, for so many bytes that are left. -/
def te_log_msg_handle_trunc (fmt : CStr) : Nat → Saved → Nat → RawData → Except LogStop RawData
  | 0, _, _, _ => .error .crash
  | fuel+1, saved, len, data => do
    let data ← te_log_msg_prepare_raw_args data fmt
    if TE_LOG_FIELD_MAX < len then
      te_log_msg_handle_trunc fmt fuel saved.next (len-TE_LOG_FIELD_MAX) (data.store (saved.arg TE_LOG_FIELD_MAX))
    else .ok (data.store (saved.arg len))
/-- The argument, and more of them for what one field cannot hold. -/
def storeLong (fmt : CStr) (saved : Saved) (len : Nat) (data : RawData) : Except LogStop RawData :=
  if TE_LOG_FIELD_MAX < len then
    match rindex '%' fmt with
    | none => .error .crash
    | some spec =>
      te_log_msg_handle_trunc spec (len-TE_LOG_FIELD_MAX+1) saved.next (len-TE_LOG_FIELD_MAX) (data.store (saved.arg TE_LOG_FIELD_MAX))
  else .ok (data.store (saved.arg len))
def te_log_msg_raw_arg (fmt : CStr) (arg : MsgArg) (data : RawData) : Except LogStop RawData := do
  let data ← te_log_msg_prepare_raw_args data fmt
  match arg with
  | .EOR => .ok (data.store .EOR)
  | .INT value len => if len = 1 ∨ len = 2 ∨ len = 4 ∨ len = 8 then .ok (data.store (.INT value len)) else .error .TE_EINVAL
  | .MEM addr len => storeLong fmt (.addr addr) len data
  | .FILE none => storeLong fmt (.addr (literal "(NULL file name)")) 16 data
  | .FILE (some memory) => do
    let name ← cString memory
    match files name with
    | none => storeLong fmt (.addr memory) name.length data
    | some file => storeLong fmt (.fd data.opened.length) file.st_size {data with opened := data.opened ++ [file.content]}
def te_log_msg_out_raw : MsgOut RawData := ⟨te_log_msg_fmt_args vsnprintf,te_log_msg_raw_arg files⟩

/-- What `read` gives from a file up to a length, with zeros behind the end of the file. -/
def readUpTo (content : List UInt8) (len : Nat) : List UInt8 := content.take len ++ replicate (len-content.length) 0
/-- `te_log_msg_raw_put_no_check` with the length of the field, with what is left of the files that are open. -/
def te_log_msg_raw_put_no_check (contents : Nat → List UInt8) (arg : RawArg) (data : RawData) : Except LogStop RawData :=
  match arg with
  | .EOR => put (twoBytes TE_LOG_RAW_EOR_LEN) data
  | .INT value len => put (twoBytes len ++ beBytes len value) data
  | .MEM addr len => if len ≤ addr.length then put (twoBytes len ++ addr.take len) data else .error .crash
  | .FILE fd len => put (twoBytes len ++ readUpTo (contents fd) len) data
/-- What is left of the files behind an argument. -/
def contentsBehind (contents : Nat → List UInt8) : RawArg → Nat → List UInt8
  | .FILE fd len => fun f => if f = fd then (contents fd).drop len else contents f
  | _ => contents
def putArgs : List RawArg → (Nat → List UInt8) → RawData → Except LogStop RawData
  | [], _, data => .ok data
  | arg :: args, contents, data => do
    let data ← te_log_msg_raw_put_no_check contents arg data
    putArgs args (contentsBehind contents arg) data
/-- `te_log_msg_raw_put` for an integer without a length. -/
def te_log_msg_raw_put_int (len value : Nat) (data : RawData) : Except LogStop RawData :=
  put (beBytes len value) (ta_log_msg_raw_buf_check_len data len)
/-- A longer field is truncated. -/
def te_log_msg_raw_put_string (str : Option (List UInt8)) (data : RawData) : Except LogStop RawData := do
  let str := str.getD (literal "(null)")
  let chars ← cString str
  let len := if TE_LOG_FIELD_MAX < chars.length then TE_LOG_FIELD_MAX else chars.length
  put (twoBytes len ++ str.take len) (ta_log_msg_raw_buf_check_len data (len+2))
/-- `te_log_message_raw_va`, where a buffer and an array of some size are left from earlier messages. -/
def te_log_message_raw_va (size args_max : Nat) (ts_sec ts_usec : BitVec 32) (level : BitVec 16) (log_id : BitVec 32)
    (entity user : Option (List UInt8)) (fmt : Option CStr) (ap : List VaArg) : Except LogStop RawData := do
  let data : RawData := ⟨[],size,[],args_max,0,[]⟩
  let data ← te_log_msg_raw_put_int 1 TE_LOG_VERSION data
  let data ← te_log_msg_raw_put_int 4 ts_sec.toNat data
  let data ← te_log_msg_raw_put_int 4 ts_usec.toNat data
  let data ← te_log_msg_raw_put_int 2 level.toNat data
  let data ← te_log_msg_raw_put_int 4 log_id.toNat data
  let data ← te_log_msg_raw_put_string entity data
  let data ← te_log_msg_raw_put_string user data
  let fmt_nfl_off := data.buf.length
  let data ← te_log_msg_raw_put_string (some (literal "")) data
  let fmt_start_off := data.buf.length
  let data ← te_log_vprintf (te_log_msg_out_raw vsnprintf files) fmt ap data
  let fmt_nfl := data.buf.length-fmt_start_off
  let data := {data with buf := overwrite data.buf fmt_nfl_off (twoBytes fmt_nfl)}
  putArgs data.args (fun fd => (data.opened[fd]?).getD []) (ta_log_msg_raw_buf_check_len data data.args_len)
end
end TestEnvironment.Tools.LogFmt
