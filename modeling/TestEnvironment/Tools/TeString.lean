import TestEnvironment.Lib.Cells
import TestEnvironment.Lib.Strings

/-!
Dynamic strings (`te_string.h`, `te_string.c`, and `te_str_hex_raw2str` of `te_str.c`) with
buffers on the heap. A buffer is a list of cells, of which those that were never written
have no character. A call ends the program where an assertion or an allocation fails;
a write through `NULL` and an access outside the buffer are faults.
-/
namespace TestEnvironment.Tools
open Lib

def SIZE_MOD : Nat := 2^64
def SIZE_MAX : Nat := SIZE_MOD-1
def PTRDIFF_MAX : Nat := 2^63-1
def INT_MAX : Nat := 2^31-1

/-- The program ends on purpose, or by an access that is not allowed. -/
inductive Stop | fatal | fault
  deriving DecidableEq, Repr
/-- `getpagesize`: a power of two, from 4 KiB on. -/
structure Page where
  size : Nat
  divides : size ∣ SIZE_MOD
  large : 4096 ≤ size
/-- `te_string`; the buffer is nothing for `NULL`. -/
structure TeString where
  ptr : Option (List (Option Char))
  size : Nat
  len : Nat
  deriving DecidableEq, Repr
/-- The bytes of a `buf` argument with its length: zeros for `NULL`. -/
inductive Source
  | bytes (text : CStr)
  | zeros (len : Nat)
  deriving DecidableEq, Repr

def Source.text : Source → CStr
  | .bytes text => text
  | .zeros len => replicate len '\x00'
def Source.length : Source → Nat
  | .bytes text => text.length
  | .zeros len => len

section
variable (str : TeString)

def TeString.write (off : Nat) (text : CStr) : Except Stop TeString :=
  match str.ptr with
  | none => if text = [] then .ok str else .error .fault
  | some cells =>
    if off+text.length ≤ cells.length then .ok {str with ptr := some (overwrite cells off (text.map some))} else .error .fault
/-- `memmove` within the buffer. -/
def TeString.move (dst src n : Nat) : Except Stop TeString :=
  match str.ptr with
  | none => if n = 0 then .ok str else .error .fault
  | some cells =>
    if src+n ≤ cells.length ∧ dst+n ≤ cells.length then
      .ok {str with ptr := some (overwrite cells dst ((cells.drop src).take n))}
    else .error .fault
def TeString.read (off : Nat) : Except Stop Char :=
  match str.ptr with
  | none => .error .fault
  | some cells =>
    match cells[off]? with
    | some (some c) => .ok c
    | _ => .error .fault
def readString : List (Option Char) → Except Stop CStr
  | some c :: cells => if c = '\x00' then .ok [] else (readString cells).map (c :: ·)
  | _ => .error .fault
/-- The C string that the buffer starts with. -/
def TeString.value : Except Stop CStr :=
  match str.ptr with
  | none => .error .fault
  | some cells => readString cells
/-- `TE_REALLOC` and `TE_ALLOC_UNINITIALIZED`: nothing larger than `PTRDIFF_MAX` is allocated. -/
def TeString.realloc (size : Nat) : Except Stop TeString :=
  if PTRDIFF_MAX < size then .error .fatal
  else
    let cells := str.ptr.getD []
    .ok {str with ptr := some (cells.take size ++ replicate (size-cells.length) none),size := size}

end

section
variable (page : Page) (str : TeString)

def TE_STRING_INIT_LEN : Nat := 16
def TE_STRING_GROW_FACTOR : Nat := 2
def TE_STRING_GROW_FACTOR_EXP_LIMIT : Nat := 4
def malloc_header_size : Nat := 32

/-- `TE_STRING_INIT_RESERVE`, and `TE_STRING_INIT` for no reserve. -/
def TE_STRING_INIT_RESERVE (reserved_size : Nat) : TeString := ⟨none,reserved_size,0⟩
/-- The loop that looks for a power of the grow factor. -/
def growLoop (str_size size : Nat) : Nat → Nat → Nat
  | 0, _ => size
  | grow+1, grow_factor =>
    let grow_factor := grow_factor*TE_STRING_GROW_FACTOR
    if size < grow_factor*str_size%SIZE_MOD then grow_factor*str_size%SIZE_MOD
    else growLoop str_size size grow grow_factor
def te_string_reserve (size : Nat) : Except Stop TeString :=
  if size ≤ str.size then .ok str
  else
    let size := growLoop str.size size TE_STRING_GROW_FACTOR_EXP_LIMIT 1
    let adj_size := (size+malloc_header_size)%SIZE_MOD
    str.realloc (if page.size < adj_size then (size+(page.size-adj_size%page.size))%SIZE_MOD else size)
/-- The first allocation of `te_string_append_va_chk`. -/
def allocFirst : Except Stop TeString :=
  match str.ptr with
  | none => do
    let str ← str.realloc (if str.size ≠ 0 then str.size else TE_STRING_INIT_LEN)
    .ok {str with len := 0}
  | some _ => .ok str
/-- The first call of `vsnprintf`: text that does not fit is cut, and the buffer grows. -/
def printFirst (text : CStr) : Except Stop TeString :=
  let rest := str.size-str.len
  if rest ≤ text.length then do
    let str ← str.write str.len (text.take (rest-1) ++ ['\x00'])
    te_string_reserve page str ((str.len+text.length+1)%SIZE_MOD)
  else .ok str
/-- `te_string_append` with the formatted text. -/
def te_string_append (text : CStr) : Except Stop TeString := do
  let str ← allocFirst str
  if ¬ str.len < str.size then .error .fatal
  else if INT_MAX < text.length then .error .fatal
  else
    let str ← printFirst page str text
    let str ← str.write str.len (text ++ ['\x00'])
    .ok {str with len := str.len+text.length}
def te_string_append_buf (buf : Source) : Except Stop TeString :=
  if buf.length = 0 then .ok str
  else do
    let str ← te_string_reserve page str ((str.len+buf.length+1)%SIZE_MOD)
    let str ← str.write str.len buf.text
    let str := {str with len := str.len+buf.length}
    str.write str.len ['\x00']
/-- `te_string_replace_buf` for a segment within the string. -/
def replaceSegment (seg_start seg_len : Nat) (buf : Source) : Except Stop TeString := do
  let str ← te_string_reserve page str ((str.len+buf.length+1-seg_len)%SIZE_MOD)
  let str ← str.move (seg_start+buf.length) (seg_start+seg_len) (str.len-seg_start-seg_len+1)
  let str ← str.write seg_start buf.text
  .ok {str with len := str.len-seg_len+buf.length}
def te_string_replace_buf (seg_start seg_len : Nat) (buf : Source) : Except Stop TeString :=
  let seg_start := if seg_start = SIZE_MAX then (if seg_len < str.len then str.len-seg_len else 0) else seg_start
  if str.len ≤ seg_start then do
    let str ← te_string_append_buf page str (.zeros (seg_start-str.len))
    te_string_append_buf page str buf
  else
    let seg_len := if str.len < seg_len ∨ str.len < (seg_start+seg_len)%SIZE_MOD then str.len-seg_start else seg_len
    replaceSegment page str seg_start seg_len buf
def te_string_cut (len : Nat) : Except Stop TeString := te_string_replace_buf page str SIZE_MAX len (.zeros 0)
def te_string_cut_beginning (len : Nat) : Except Stop TeString := te_string_replace_buf page str 0 len (.zeros 0)
end

section
variable (page : Page) (str : TeString)

/-- The loop of `te_string_chop`. `strchr` finds the zero that ends `trail`, too. -/
def chopLoop (trail : CStr) : Nat → TeString → Except Stop TeString
  | 0, str => .ok str
  | len+1, str => do
    let c ← str.read len
    if c = '\x00' ∨ c ∈ trail then do
      let str ← ({str with len := len} : TeString).write len ['\x00']
      chopLoop trail len str
    else .ok str
def te_string_chop (trail : CStr) : Except Stop TeString := chopLoop trail str.len str
def te_string_add_centered (src : CStr) (padlen : Nat) (padchar : Char) : Except Stop TeString := do
  let str ← te_string_reserve page str ((str.len+padlen+1)%SIZE_MOD)
  let src_len := min src.length padlen
  let before := (padlen-src_len+1)%SIZE_MOD/2
  let str ← str.write str.len (replicate before padchar)
  let str ← str.write (str.len+before) (src.take src_len)
  let str ← str.write (str.len+before+src_len) (replicate ((padlen-src_len)/2) padchar)
  let str := {str with len := str.len+padlen}
  str.write str.len ['\x00']
end

section
variable (page : Page) {σ : Type}

def TE_EOK : Nat := 2^22+500
/-- Zeros in the buffer for the line terminator. -/
def endLine (buffer : TeString) (line_len : Nat) : Except Stop TeString := do
  let buffer ← buffer.write line_len ['\x00']
  if 0 < line_len then do
    let c ← buffer.read (line_len-1)
    if c = '\r' then buffer.write (line_len-1) ['\x00'] else .ok buffer
  else .ok buffer
/-- The line is ended, handled and removed. -/
def handleLine (callback : CStr → σ → Nat × σ) (buffer : TeString) (line_len : Nat) (user_data : σ) :
    Except Stop (TeString × Nat × σ) := do
  let buffer ← endLine buffer line_len
  let line ← buffer.value
  let called := callback line user_data
  let buffer ← te_string_cut_beginning page buffer (line_len+1)
  .ok (buffer,called)
/-- The loop of `te_string_process_lines`, for callbacks that only read the line. -/
def processLoop (complete_lines : Bool) (callback : CStr → σ → Nat × σ) : Nat → TeString → σ → Except Stop (TeString × Nat × σ)
  | 0, buffer, user_data => .ok (buffer,0,user_data)
  | fuel+1, buffer, user_data =>
    if buffer.len = 0 then .ok (buffer,0,user_data)
    else do
      let value ← buffer.value
      let line_len := (value.takeWhile (· ≠ '\n')).length
      let stop ← buffer.read line_len
      if stop = '\x00' ∧ complete_lines then .ok (buffer,0,user_data)
      else
        let (buffer,rc,user_data) ← handleLine page callback buffer line_len user_data
        if rc = 0 then processLoop complete_lines callback fuel buffer user_data
        else .ok (buffer,if rc = TE_EOK then 0 else rc,user_data)
/-- Every turn takes a line from the buffer, so there are at most as many as characters. -/
def te_string_process_lines (buffer : TeString) (complete_lines : Bool) (callback : CStr → σ → Nat × σ) (user_data : σ) :
    Except Stop (TeString × Nat × σ) := processLoop page complete_lines callback buffer.len buffer user_data
end

section
variable (page : Page) (str : TeString)

def UINT32_MOD : Nat := 2^32
/-- `TE_EXTRACT_BITS`. -/
def extractBits (v start len : Nat) : Nat := v/2^start%2^len
def encode_base64_bits (sextet : Nat) (url_safe : Bool) : Char :=
  if sextet < 26 then Char.ofNat ('A'.toNat+sextet)
  else if sextet < 52 then Char.ofNat ('a'.toNat+sextet-26)
  else if sextet < 62 then Char.ofNat ('0'.toNat+sextet-52)
  else if sextet = 62 then if url_safe then '-' else '+'
  else if url_safe then '_' else '/'
/-- The inner loop of `te_string_encode_base64`, at most `fuel` turns. -/
def encodeBits (url_safe : Bool) (latch : Nat) : Nat → Nat → TeString → Except Stop (TeString × Nat)
  | 0, bits, str => .ok (str,bits)
  | fuel+1, bits, str =>
    if 6 ≤ bits then do
      let str ← te_string_append page str [encode_base64_bits (extractBits latch (bits-6) 6) url_safe]
      encodeBits url_safe latch fuel (bits-6) str
    else .ok (str,bits)
def encodeLoop (url_safe : Bool) : List UInt8 → Nat → Nat → TeString → Except Stop (TeString × Nat × Nat)
  | [], latch, bits, str => .ok (str,latch,bits)
  | byte :: bytes, latch, bits, str => do
    let latch := latch*2^8%UINT32_MOD+byte.toNat
    let (str,bits) ← encodeBits page url_safe latch (bits+8) (bits+8) str
    encodeLoop url_safe bytes latch bits str
/-- What `te_string_encode_base64` does with the bits that are left. -/
def encodeRest (url_safe : Bool) : TeString × Nat × Nat → Except Stop TeString
  | (str,latch,bits) =>
    if bits ≠ 0 then
      let sextet := extractBits latch 0 bits*2^(6-bits)
      te_string_append page str (encode_base64_bits sextet url_safe :: if bits = 2 then ['=','='] else ['='])
    else .ok str
def te_string_encode_base64 (bytes : List UInt8) (url_safe : Bool) : Except Stop TeString := do
  let str ← te_string_reserve page str ((str.size+bytes.length*4%SIZE_MOD/3)%SIZE_MOD)
  let rest ← encodeLoop page url_safe bytes 0 0 str
  encodeRest page url_safe rest

inductive Base64Status | ok | TE_EILSEQ
  deriving DecidableEq, Repr
def sextetOf (c : Char) : Option Nat :=
  if 'A' ≤ c ∧ c ≤ 'Z' then some (c.toNat - 'A'.toNat)
  else if 'a' ≤ c ∧ c ≤ 'z' then some (c.toNat - 'a'.toNat+26)
  else if '0' ≤ c ∧ c ≤ '9' then some (c.toNat - '0'.toNat+52)
  else if c = '+' ∨ c = '-' then some 62
  else if c = '/' ∨ c = '_' then some 63
  else none
def decodeLoop : CStr → Nat → Nat → Nat → TeString → Except Stop (TeString × Base64Status)
  | [], _, bits, _, str => .ok (str,if bits = 6 then .TE_EILSEQ else .ok)
  | c :: src, latch, bits, padding, str =>
    if isspace c then decodeLoop src latch bits padding str
    else if c = '=' then
      if 2 < padding+1 then .ok (str,.TE_EILSEQ) else decodeLoop src latch bits (padding+1) str
    else if 0 < padding then .ok (str,.TE_EILSEQ)
    else
      match sextetOf c with
      | none => .ok (str,.TE_EILSEQ)
      | some sextet =>
        let latch := latch*2^6%UINT32_MOD+sextet
        if 8 ≤ bits+6 then do
          let str ← te_string_append_buf page str (.bytes [Char.ofNat (extractBits latch (bits+6-8) 8)])
          decodeLoop src latch (bits+6-8) padding str
        else decodeLoop src latch (bits+6) padding str
def te_string_decode_base64 (base64str : CStr) : Except Stop (TeString × Base64Status) := decodeLoop page base64str 0 0 0 str
end

section
variable (page : Page) (str : TeString)

def TE_STR_HEX_DELIMITER : Char := ':'
def hexDigit (n : Nat) : Char := ("0123456789ABCDEF".toList[n]?).getD '\x00'
/-- The characters that the loop of `te_str_hex_raw2str` stores. -/
def hexText : List UInt8 → CStr
  | [] => []
  | [byte] => [hexDigit (byte.toNat/16),hexDigit (byte.toNat%16)]
  | byte :: data => hexDigit (byte.toNat/16) :: hexDigit (byte.toNat%16) :: TE_STR_HEX_DELIMITER :: hexText data
def te_str_hex_raw2str (data : List UInt8) : Except Stop TeString := do
  let need_size := data.length*3%SIZE_MOD
  let str ← te_string_reserve page str need_size
  let str ← str.write 0 (hexText data)
  let str ← str.write (hexText data).length ['\x00']
  .ok {str with len := need_size}
end

end TestEnvironment.Tools
