import TestEnvironment.Lib.Strings

/-!
Error codes and instance values of the Configurator: the value types with their
conversions from and to strings (`conf_types.c`), and the status codes that
requests are answered with.
-/
namespace TestEnvironment.Configurator
open Lib

/-- The error numbers the Configurator tells apart; `other` is any further one an agent answers. -/
inductive TeErr
  | EINVAL | ENOENT | EEXIST | EBADTYPE | ETOOMANY | ENOBUFS | ENOMEM | EACCES | EPERM | EHASSON | EISROOT
  | EOPNOTSUPP | ERANGE | ESRCH | ESMALLBUF | EFAIL
  | other (number : Nat)
  deriving DecidableEq, Repr

/-- The modules put into a `te_errno`; `none` is an error without a module. -/
inductive TeModule
  | none | cs | taUnix
  | other (number : Nat)
  deriving DecidableEq, Repr

/-- A non-zero `te_errno`. -/
structure TeErrno where
  modul : TeModule
  error : TeErr
  deriving DecidableEq, Repr

/-- A status code; `none` is zero. -/
abbrev Rc := Option TeErrno

/-- An error without a module, as `return TE_EINVAL;`. -/
def te (e : TeErr) : Rc := some ⟨.none,e⟩
/-- `TE_RC`: the module is put into an error that has none yet. -/
def te_rc (m : TeModule) : Rc → Rc
  | some ⟨.none,e⟩ => some ⟨m,e⟩
  | rc => rc

@[simp] theorem te_rc_eq_none (m : TeModule) (rc : Rc) : te_rc m rc = none ↔ rc = none := by
  cases rc with
  | none => rfl
  | some code => obtain ⟨modul,error⟩ := code; cases modul <;> simp [te_rc]
@[simp] theorem te_ne_none (e : TeErr) : te e ≠ none := by simp [te]

/-- `cfg_val_type`, less `CVT_UNSPECIFIED`, which has no entry in `cfg_types`. -/
inductive CfgValType
  | none | bool | int8 | uint8 | int16 | uint16 | int32 | uint32 | int64 | uint64 | string | address | double
  deriving DecidableEq, Repr

/-- The addresses a value may hold; `other` is a family that is not supported. -/
inductive Sockaddr
  | inet (addr : List Nat)
  | inet6 (addr : List Nat)
  | mac (addr : List Nat)
  | unspec
  | other (family : Nat)
  deriving DecidableEq, Repr

/-- `union cfg_inst_val`, with the type it is read as; a `double` is its bits. -/
inductive CfgInstVal
  | none
  | int (z : Int)
  | str (s : CStr)
  | addr (a : Sockaddr)
  | double (bits : Nat)
  deriving DecidableEq, Repr

/-- The functions of the C library on floating point numbers and addresses. -/
class Libc where
  strtod : CStr → Except TeErr Nat
  printG : Nat → CStr
  inet_pton : Sockaddr → CStr → Option (List Nat)
  inet_ntop : Sockaddr → CStr

/-- A library for runs without floating point numbers and addresses. -/
@[reducible] def plainLibc : Libc where
  strtod _ := .error .EINVAL
  printG _ := []
  inet_pton _ _ := none
  inet_ntop _ := []

section
def max_int_val : CfgValType → Int
  | .bool => 1
  | .int8 => 2^7-1 | .uint8 => 2^8-1 | .int16 => 2^15-1 | .uint16 => 2^16-1
  | .int32 => 2^31-1 | .uint32 => 2^32-1 | .int64 => 2^63-1 | .uint64 => 2^64-1
  | _ => 0
def min_int_val : CfgValType → Int
  | .int8 => -2^7 | .int16 => -2^15 | .int32 => -2^31 | .int64 => -2^63
  | _ => 0

def digitVal (c : Char) : Option Nat :=
  if '0' ≤ c ∧ c ≤ '9' then some (c.toNat-48)
  else if 'a' ≤ c ∧ c ≤ 'f' then some (c.toNat-87)
  else if 'A' ≤ c ∧ c ≤ 'F' then some (c.toNat-55)
  else none
def isDigit (base : Nat) (c : Char) : Bool := (digitVal c).any (· < base)
def readDigits (base : Nat) (s : CStr) : Nat × CStr :=
  ((s.takeWhile (isDigit base)).foldl (fun n c => n*base+(digitVal c).getD 0) 0,s.dropWhile (isDigit base))
/-- What `strtoimax(.., 0)` and `strtoumax(.., 0)` read: the sign, the magnitude
    and the rest of the string, or nothing. -/
def strtomax (s : CStr) : Option (Bool × Nat × CStr) :=
  let s := s.dropWhile (fun c => c = ' ' ∨ ('\t' ≤ c ∧ c ≤ '\r'))
  let (neg,s) : Bool × CStr := match s with
    | '-' :: s => (true,s)
    | '+' :: s => (false,s)
    | s => (false,s)
  match s with
  | '0' :: x :: c :: rest =>
    if (x = 'x' ∨ x = 'X') ∧ isDigit 16 c then some (neg,readDigits 16 (c :: rest))
    else some (neg,readDigits 8 (x :: c :: rest))
  | '0' :: rest => some (neg,readDigits 8 rest)
  | c :: rest => if isDigit 10 c then some (neg,readDigits 10 (c :: rest)) else none
  | [] => none

def te_strtoumax (s : CStr) : Except TeErr Int :=
  match strtomax s with
  | none => .error .EINVAL
  | some (neg,n,rest) =>
    if n > 2^64-1 then .error .ERANGE
    else if rest ≠ [] then .error .EINVAL
    else .ok (if neg then (2^64-(n : Int))%2^64 else n)
def te_strtoimax (s : CStr) : Except TeErr Int :=
  match strtomax s with
  | none => .error .EINVAL
  | some (neg,n,rest) =>
    let z : Int := if neg then -(n : Int) else n
    if z > 2^63-1 ∨ z < -2^63 then .error .ERANGE
    else if rest ≠ [] then .error .EINVAL
    else .ok z
def str_to_u_integer (t : CfgValType) (s : CStr) : Except TeErr Int :=
  if s = [] then .ok 0
  else match te_strtoumax s with
    | .error e => .error e
    | .ok z => if max_int_val t = 0 then .error .EINVAL else if z > max_int_val t then .error .EINVAL else .ok z
def str_to_s_integer (t : CfgValType) (s : CStr) : Except TeErr Int :=
  if s = [] then .ok 0
  else match te_strtoimax s with
    | .error e => .error e
    | .ok z =>
      if min_int_val t = 0 then .error .EINVAL
      else if z < min_int_val t ∨ z > max_int_val t then .error .EINVAL else .ok z
end

section
variable [Libc]

/-- `sscanf(s, "%02x:..:%02x%c", ..) == 6`: six groups of one or two hexadecimal digits and nothing behind. -/
def readMac (s : CStr) : Option (List Nat) :=
  let rec groups : Nat → CStr → Option (List Nat)
    | 0, s => if s = [] then some [] else none
    | n+1, s =>
      let group := (s.take 2).takeWhile (isDigit 16)
      let rest := s.drop group.length
      if group = [] then none
      else if n = 0 then (if rest = [] then some [(readDigits 16 group).1] else none)
      else match rest with
        | ':' :: rest => (groups n rest).map ((readDigits 16 group).1 :: ·)
        | _ => none
  groups 6 s
def str_to_addr (s : CStr) : Except TeErr Sockaddr :=
  if ':' ∈ s then
    match Libc.inet_pton (.inet6 []) s with
    | some a => .ok (.inet6 a)
    | none => match readMac s with
      | some a => .ok (.mac a)
      | none => .error .EINVAL
  else if '.' ∈ s then
    match Libc.inet_pton (.inet []) s with
    | some a => .ok (.inet a)
    | none => .error .EINVAL
  else if s.length = 0 then .ok .unspec
  else .error .EINVAL
def hexDigit (n : Nat) : Char := Char.ofNat (if n < 10 then 48+n else 87+n)
def addr_to_str : Sockaddr → Except TeErr CStr
  | .inet a => .ok (Libc.inet_ntop (.inet a))
  | .inet6 a => .ok (Libc.inet_ntop (.inet6 a))
  | .mac a => .ok (((a.map fun b => [hexDigit (b/16),hexDigit (b%16)]).intersperse [':']).flatten)
  | .unspec => .ok []
  | .other _ => .error .EINVAL
end

section
variable [Libc]

/-- `cfg_types[t].str2val`. -/
def str2val (t : CfgValType) (s : CStr) : Except TeErr CfgInstVal :=
  match t with
  | .none => .ok .none
  | .bool | .uint8 | .uint16 | .uint32 | .uint64 => (str_to_u_integer t s).map .int
  | .int8 | .int16 | .int32 | .int64 => (str_to_s_integer t s).map .int
  | .double => if s = [] then .ok (.double 0) else (Libc.strtod s).map .double
  | .string => .ok (.str s)
  | .address => (str_to_addr s).map .addr
/-- `cfg_types[t].val2str` on a value of the type. -/
def val2str : CfgInstVal → Except TeErr CStr
  | .none => .ok []
  | .int z => .ok (toString z).toList
  | .double bits => .ok (Libc.printG bits)
  | .str s => .ok s
  | .addr a => addr_to_str a
/-- `cfg_types[t].def_val`. -/
def def_val (t : CfgValType) : Except TeErr CfgInstVal :=
  match t with
  | .none => .error .EINVAL
  | .double => .ok (.double 0)
  | .string => .ok (.str [])
  | .address => (str_to_addr []).map .addr
  | _ => .ok (.int 0)
/-- `cfg_types[t].copy` and `cfg_types[t].get_from_msg` on a value of the type:
    addresses of other families are refused. -/
def copy : CfgInstVal → Except TeErr CfgInstVal
  | .addr (.other _) => .error .EINVAL
  | v => .ok v

variable {v : CfgInstVal}

omit [Libc] in
theorem copy_ok {w : CfgInstVal} (copied : copy v = .ok w) : w = v := by
  unfold copy at copied
  split at copied <;> simp_all
end
end TestEnvironment.Configurator
