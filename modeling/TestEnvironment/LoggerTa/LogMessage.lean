import TestEnvironment.LoggerTa.LogGet

/-!
The arguments of a message that is logged on the side of an agent: `ta_log_message` of `logger_ta.c` up to
where it allocates an element of the ring. The arguments of the call are words of eight bytes, as many as are taken.
-/
namespace TestEnvironment.LoggerTa
open Lib

/-- `md_list`: memory that is copied into the ring for an argument. -/
structure MdList where
  narg : Nat
  addr : UInt64
  length : UInt32
  add_zero : Bool
  deriving DecidableEq, Repr
/-- The number of arguments taken from the call, the arguments of the header from the first one on, and the list of copies. -/
structure LogArgs where
  taken : Nat
  narg : Nat
  args : Nat → UInt64
  cp_list : List MdList
/-- `resume` leaves the message out; `undefined` writes behind the arguments of the header or reads a string without an
end; `overrun` reads the format behind its zero. -/
inductive LogArgsStop | resume | undefined | overrun
  deriving DecidableEq, Repr

variable (memory : RbMemory) (null_str : UInt64) (ap : Nat → UInt64)

/-- `va_arg`. -/
def LogArgs.take (m : LogArgs) : UInt64 × LogArgs := (ap m.taken,{m with taken := m.taken+1})
/-- An `int` that becomes an argument of the header. -/
def intArg (word : UInt64) : UInt64 := ⟨(word.toBitVec.setWidth 32).signExtend 64⟩
def LGR_SET_ARG (val : UInt64) (m : LogArgs) : Except LogArgsStop LogArgs :=
  if m.narg < TA_LOG_ARGS_MAX then .ok {m with args := fun i => if i = m.narg then val else m.args i} else .error .undefined
def LGR_PUT_MD_LIST (addr : UInt64) (length : UInt32) (add_zero : Bool) (m : LogArgs) : LogArgs :=
  {m with cp_list := m.cp_list ++ [⟨m.narg,addr,length,add_zero⟩]}
/-- `if ((++narg) > TA_LOG_ARGS_MAX) goto resume;`. -/
def LogArgs.next (m : LogArgs) : Except LogArgsStop LogArgs :=
  if TA_LOG_ARGS_MAX < m.narg+1 then .error .resume else .ok {m with narg := m.narg+1}
/-- A loop over characters that may be skipped. -/
def skipIn (skip : CStr) (s : CStr) : Except LogArgsStop CStr := (skipAll skip s).elim (.error .overrun) .ok
/-- A width that is an argument. -/
def widthArg (s : CStr) (m : LogArgs) : CStr × LogArgs := if s.head? = some '*' then (s.tail,(m.take ap).2) else (s,m)
/-- The precision, where it is an argument, with the text behind it. -/
def precisionArg (s : CStr) (m : LogArgs) : Int × CStr × LogArgs :=
  if s.head? = some '.' then
    if s.tail.head? = some '*' then (((m.take ap).1.toBitVec.setWidth 32).toInt,s.tail.tail,(m.take ap).2) else (-1,s.tail,m)
  else (-1,s,m)
/-- The `switch` at a conversion character, and the text behind what it reads; there is none behind the zero. -/
def logConversion (precision : Int) (c : Char) (s : CStr) (m : LogArgs) : Except LogArgsStop (LogArgs × Option CStr) :=
  if c ∈ ['d','i','o','x','X','u','c','r'] then do
    let m ← LGR_SET_ARG (intArg (m.take ap).1) (m.take ap).2
    .ok (m,some s)
  else if c = 'p' then do
    let m ← LGR_SET_ARG (m.take ap).1 (m.take ap).2
    .ok (m,some s)
  else if c = 's' then
    let addr := if (m.take ap).1 = 0 then null_str else (m.take ap).1
    if 0 ≤ precision then .ok (LGR_PUT_MD_LIST addr (UInt32.ofNat (precision.toNat+1)) true (m.take ap).2,some s)
    else match stringAt memory.mem (2^64) addr.toNat with
      | none => .error .undefined
      | some chars => .ok (LGR_PUT_MD_LIST addr (UInt32.ofNat (chars.length+1)) false (m.take ap).2,some s)
  else if c = 'T' then
    match s with
    | [] => .ok (m,none)
    | x :: s =>
      if x = 'm' then do
        let (addr,m) := m.take ap
        let (length,m) := m.take ap
        let m ← (LGR_PUT_MD_LIST addr length.toUInt32 false m).next
        let m ← LGR_SET_ARG length m
        .ok (m,some s)
      else .ok (m,some s)
  else .ok (m,some s)
/-- A conversion behind its `%`, and the text behind it. -/
def logArgument (s : CStr) (m : LogArgs) : Except LogArgsStop (LogArgs × CStr) := do
  let s ← skipIn skip_flags s
  let (s,m) := widthArg ap s m
  let s ← skipIn skip_width s
  let (precision,s,m) := precisionArg ap s m
  let s ← skipIn skip_width s
  match s with
  | [] => .error .overrun
  | c :: s => do
    let (m,rest) ← logConversion memory null_str ap precision c s m
    let m ← m.next
    match rest with
    | none => .error .overrun
    | some s => .ok (m,s)
/-- The loop over the format. It ends before it has made more turns than there are characters. -/
def ta_log_message_args : Nat → CStr → LogArgs → Except LogArgsStop LogArgs
  | 0, _, _ => .error .overrun
  | _+1, [], m => .ok m
  | fuel+1, c :: s, m =>
    if c ≠ '%' then ta_log_message_args fuel s m
    else if s.head? = some '%' then ta_log_message_args fuel s.tail m
    else do
      let (m,s) ← logArgument memory null_str ap s m
      ta_log_message_args fuel s m
/-- The arguments of a message, unless it is left out. -/
def ta_log_message (fmt : CStr) : Except LogArgsStop LogArgs :=
  ta_log_message_args memory null_str ap (fmt.length+1) fmt ⟨0,0,fun _ => 0,[]⟩
end TestEnvironment.LoggerTa
