import TestEnvironment.Tools.LogRecords

/-!
Raw messages as `rgt` reads them (`fetch_log_msg_v1` of `log_format_v1.c`) from a file that does not grow. They
are the messages that `te_log_message_raw_va` writes: names are cut to what a field can hold, long arguments come
in several fields.
-/
namespace TestEnvironment.Rgt
open Lib Tools.LogFmt

section

def TE_LL_CONTROL : BitVec 16 := 0x8000
/-- The flag is ignored unless it is alone. -/
def te_log_level2str (level : BitVec 16) : Option CStr :=
  let level := if level ≠ TE_LL_CONTROL then level &&& ~~~ TE_LL_CONTROL else level
  if level = 0x0001 then some "ERROR".toList
  else if level = 0x0002 then some "WARN".toList
  else if level = 0x0004 then some "RING".toList
  else if level = 0x0008 then some "INFO".toList
  else if level = 0x0010 then some "VERB".toList
  else if level = 0x0020 then some "ENTRY/EXIT".toList
  else if level = 0x0040 then some "PACKET".toList
  else if level = 0x0080 then some "MI".toList
  else if level = TE_LL_CONTROL then some "CONTROL".toList
  else none
end

section

/-- `log_msg` as it is fetched: names, the format and the arguments without the zeros put behind them. -/
structure LogMsg where
  id : Nat
  level : BitVec 16
  level_str : CStr
  entity : List UInt8
  user : List UInt8
  timestamp : Nat × Nat
  fmt_str : List UInt8
  args_count : Nat
  args : List (List UInt8)
  deriving DecidableEq, Repr
/-- Where nothing is returned, `longjmp` is called. -/
inductive FetchStop | THROW_EXCEPTION
  deriving DecidableEq, Repr

def READ (len : Nat) (bytes : List UInt8) : Option (List UInt8 × List UInt8) :=
  if bytes.length < len then none else some (bytes.take len,bytes.drop len)
/-- A length and so many bytes. -/
def readName (bytes : List UInt8) : Option (List UInt8 × List UInt8) := do
  let (nflen,bytes) ← READ 2 bytes
  READ (beNum nflen) bytes
/-- A message behind its version. -/
def readMessage (bytes : List UInt8) : Option (LogMsg × List UInt8) := do
  let (ts_sec,bytes) ← READ 4 bytes
  let (ts_usec,bytes) ← READ 4 bytes
  let (log_level,bytes) ← READ 2 bytes
  let (log_id,bytes) ← READ 4 bytes
  let (entity_name,bytes) ← readName bytes
  let (user_name,bytes) ← readName bytes
  let (fmt_str,bytes) ← readName bytes
  -- the loop up to `TE_LOG_RAW_EOR_LEN`
  let (args,bytes) ← readFields (bytes.length+1) bytes
  let level := BitVec.ofNat 16 (beNum log_level)
  some (⟨beNum log_id,level,(te_log_level2str level).getD "UNKNOWN".toList,entity_name,user_name,(beNum ts_sec,beNum ts_usec),fmt_str,
    args.length,args⟩,bytes)
/-- `fetch_log_msg_v1`: a message and what is left of the file, unless there is none or it is truncated. -/
def fetch_log_msg_v1 : List UInt8 → Except FetchStop (Option (LogMsg × List UInt8))
  | [] => .ok none
  | log_ver :: bytes => if log_ver.toNat ≠ TE_LOG_VERSION then .error .THROW_EXCEPTION else .ok (readMessage bytes)

variable {bytes rest front : List UInt8} {message : LogMsg}

theorem READ_front {len : Nat} (length : front.length = len) (rest : List UInt8) : READ len (front ++ rest) = some (front,rest) := by
  simp [length,READ]
theorem beNum_beBytes {n v : Nat} (small : v < 2^(8*n)) : beNum (beBytes n v) = v := by
  grind [beNum_lt,beBytes_length,beBytes_beNum,beBytes_injective]
theorem beNum_twoBytes {n : Nat} (small : n < 2^16) : beNum (twoBytes n) = n := by
  have number := toNat_twoBytes small
  show 2^8*(2^8*0+(UInt8.ofNat (n/256)).toNat)+(UInt8.ofNat n).toNat = n
  omega
theorem readName_front (short : front.length < 2^16) (rest : List UInt8) : readName (fieldBytes front ++ rest) = some (front,rest) := by
  rw [readName,fieldBytes,append_assoc,READ_front (twoBytes_length _)]
  show READ (beNum (twoBytes front.length)) (front ++ rest) = _
  rw [beNum_twoBytes short,READ_front rfl]
theorem readName_short (result : readName bytes = some (front,rest)) : front.length < 2^16 := by
  obtain ⟨⟨nflen,bytes'⟩,first,second⟩ := of_bind result
  have second : READ (beNum nflen) bytes' = some (front,rest) := second
  rw [READ] at first second
  split_ifs at first with enough
  obtain ⟨rfl,rfl⟩ := of_pair first
  split_ifs at second
  obtain ⟨rfl,rfl⟩ := of_pair second
  have bound := beNum_lt (bytes.take 2)
  rw [length_take] at bound ⊢
  rw [Nat.min_eq_left (by omega)] at bound
  omega
/-- The text of a message is no longer than its length tells. -/
theorem fetch_short (result : fetch_log_msg_v1 bytes = .ok (some (message,rest))) : message.fmt_str.length < 2^16 := by
  cases bytes with
  | nil => cases result
  | cons log_ver bytes =>
    rw [fetch_log_msg_v1] at result
    split_ifs at result
    have read : readMessage bytes = some (message,rest) := ok.inj result
    rw [readMessage] at read
    obtain ⟨_,_,read⟩ := of_bind read
    obtain ⟨_,_,read⟩ := of_bind read
    obtain ⟨_,_,read⟩ := of_bind read
    obtain ⟨_,_,read⟩ := of_bind read
    obtain ⟨_,_,read⟩ := of_bind read
    obtain ⟨_,_,read⟩ := of_bind read
    obtain ⟨⟨fmt_str,_⟩,text,read⟩ := of_bind read
    obtain ⟨_,_,read⟩ := of_bind read
    obtain ⟨rfl,rfl⟩ := of_pair read
    exact readName_short text
theorem fetch_record {entity user : List UInt8} {text : CStr} {fields : List (List UInt8)} (ts_sec ts_usec : BitVec 32) (level : BitVec 16)
    (log_id : BitVec 32) (entity_short : entity.length < 2^16) (user_short : user.length < 2^16) (text_short : text.length < 2^16)
    (fields_short : ∀ field ∈ fields, field.length < NO_LENGTH) (rest : List UInt8) :
    fetch_log_msg_v1 (recordBytes (recordHeader ts_sec ts_usec level log_id) entity user text fields ++ rest) = .ok (some
      (⟨log_id.toNat,level,(te_log_level2str level).getD "UNKNOWN".toList,entity,user,(ts_sec.toNat,ts_usec.toNat),toBytes text,fields.length,fields⟩,rest)) := by
  have some_bind {α β : Type} (a : α) (f : α → Option β) : (some a >>= f) = f a := rfl
  have whole : recordBytes (recordHeader ts_sec ts_usec level log_id) entity user text fields ++ rest =
      1 :: (beBytes 4 ts_sec.toNat ++ (beBytes 4 ts_usec.toNat ++ (beBytes 2 level.toNat ++ (beBytes 4 log_id.toNat ++
        (fieldBytes entity ++ (fieldBytes user ++ (fieldBytes (toBytes text) ++ (fields.flatMap fieldBytes ++ twoBytes NO_LENGTH ++ rest)))))))) := by
    simp [toBytes_length,beBytes,TE_LOG_VERSION,recordBytes,recordHeader,fieldBytes]
  have arguments := readFields_fields fields_short (by
    have fields := fields_length fields
    simp only [length_append]
    omega : fields.length < (fields.flatMap fieldBytes ++ twoBytes NO_LENGTH ++ rest).length+1) rest
  rw [whole,fetch_log_msg_v1,if_neg (by decide),readMessage]
  have taken (n v : Nat) (rest : List UInt8) : READ n (beBytes n v ++ rest) = some (beBytes n v,rest) := READ_front (beBytes_length n v) rest
  have text_short : (toBytes text).length < 2^16 := by rwa [toBytes_length]
  simp only [taken,readName_front entity_short,readName_front user_short,readName_front text_short,arguments,some_bind]
  have word (v : BitVec 32) : beNum (beBytes 4 v.toNat) = v.toNat := beNum_beBytes v.isLt
  have levels : beNum (beBytes 2 level.toNat) = level.toNat := beNum_beBytes level.isLt
  simp only [word,levels,BitVec.ofNat_toNat,BitVec.setWidth_eq]
end

section
variable {vsnprintf : CStr → List VaArg → CStr} {files : List UInt8 → Option LogFile} {items : List Item} {name : Option (List UInt8)}
  {chars : List UInt8} {fields : List (List UInt8)}

theorem name_short (named : nameBytes name = .ok chars) : chars.length < 2^16 := by
  rw [nameBytes] at named
  obtain ⟨whole,_,rfl⟩ : ∃ whole, cString (name.getD (literal "(null)")) = .ok whole ∧ whole.take TE_LOG_FIELD_MAX = chars := by
    cases read : cString (name.getD (literal "(null)")) with
    | error e =>
      rw [read] at named
      cases named
    | ok whole =>
      rw [read] at named
      exact ⟨whole,rfl,ok.inj named⟩
  have most := List.length_take_le TE_LOG_FIELD_MAX whole
  simp only [TE_LOG_FIELD_MAX,TE_LOG_RAW_EOR_LEN] at most ⊢
  omega
theorem fields_short (logged : itemsFields items = .ok fields) : ∀ field ∈ fields, field.length < NO_LENGTH := by
  induction items generalizing fields with
  | nil =>
    obtain rfl := ok.inj logged
    exact fun _ member => absurd member not_mem_nil
  | cons item items ih =>
    rw [itemsFields] at logged
    cases first : item.fields with
    | error e =>
      rw [first] at logged
      cases logged
    | ok front =>
      rw [first] at logged
      cases second : itemsFields items with
      | error e =>
        rw [second] at logged
        cases logged
      | ok others =>
        rw [second] at logged
        obtain rfl := ok.inj logged
        refine List.forall_mem_append.mpr ⟨?_,ih second⟩
        cases item with
        | printed text =>
          obtain rfl := ok.inj first
          exact fun _ member => absurd member not_mem_nil
        | logged piece source =>
          rw [Item.fields] at first
          cases read : source.bytes with
          | error e =>
            rw [read] at first
            cases first
          | ok bytes =>
            rw [read] at first
            obtain rfl := ok.inj first
            intro field member
            have most := chunks_most (by decide) bytes field member
            simp only [TE_LOG_FIELD_MAX,TE_LOG_RAW_EOR_LEN] at most
            simp only [NO_LENGTH]
            omega
/-- A message comes back with the names as far as a field can hold them, with the text that is emitted, and with the bytes of its
arguments in fields; the file is left behind the mark. -/
theorem raw_record_fetched {data : RawData} {size args_max : Nat} {ts_sec ts_usec : BitVec 32} {level : BitVec 16} {log_id : BitVec 32}
    {entity user : Option (List UInt8)} {fmt : CStr} {ap : List VaArg}
    (emitted : te_log_message_raw_va vsnprintf files size args_max ts_sec ts_usec level log_id entity user (some fmt) ap = .ok data) :
    ∃ entity' user' items fields, nameBytes entity = .ok entity' ∧ nameBytes user = .ok user' ∧
      te_log_vprintf (collector vsnprintf files) (some fmt) ap [] = .ok items ∧ itemsFields items = .ok fields ∧
      ((itemsText items).length < 2^16 → ∀ rest, fetch_log_msg_v1 (data.buf ++ rest) = .ok (some
        (⟨log_id.toNat,level,(te_log_level2str level).getD "UNKNOWN".toList,entity',user',(ts_sec.toNat,ts_usec.toNat),toBytes (itemsText items),
          fields.length,fields⟩,rest))) := by
  have spec := message_raw_va vsnprintf files size args_max ts_sec ts_usec level log_id entity user fmt ap
  rw [emitted] at spec
  cases first : nameBytes entity with
  | error e =>
    rw [first] at spec
    cases spec
  | ok entity' =>
    cases second : nameBytes user with
    | error e =>
      rw [first,second] at spec
      cases spec
    | ok user' =>
      cases collected : te_log_vprintf (collector vsnprintf files) (some fmt) ap [] with
      | error e =>
        rw [first,second,collected] at spec
        cases spec
      | ok items =>
        cases logged : itemsFields items with
        | error e =>
          rw [first,second,collected] at spec
          have wrong : Except.ok data.buf = (itemsFields items >>= _) := spec
          rw [logged] at wrong
          cases wrong
        | ok fields =>
          rw [first,second,collected] at spec
          have bytes : Except.ok data.buf = (itemsFields items >>= _) := spec
          rw [logged] at bytes
          refine ⟨entity',user',items,fields,rfl,rfl,rfl,logged,fun small rest => ?_⟩
          rw [ok.inj bytes]
          exact fetch_record ts_sec ts_usec level log_id (name_short first) (name_short second) small (fields_short logged) rest
theorem raw_record_fetched_string : ∃ data, te_log_message_raw_va (fun fmt _ => fmt) (fun _ => none) 0 0 1 2 4 5 (some (literal "Agt")) (some (literal "User"))
      (some "n %s".toList) [.pointer (some (literal "ab"))] = .ok data ∧
    fetch_log_msg_v1 (data.buf ++ [7]) = .ok (some
      (⟨5,4,"RING".toList,toBytes "Agt".toList,toBytes "User".toList,(1,2),toBytes "n %s".toList,1,[toBytes "ab".toList]⟩,[7])) := by
  have written : (te_log_message_raw_va (fun fmt _ => fmt) (fun _ => none) 0 0 1 2 4 5 (some (literal "Agt")) (some (literal "User"))
    (some "n %s".toList) [.pointer (some (literal "ab"))]).toOption.isSome := by decide +kernel
  cases emitted : te_log_message_raw_va (fun fmt _ => fmt) (fun _ => none) 0 0 1 2 4 5 (some (literal "Agt")) (some (literal "User"))
    (some "n %s".toList) [.pointer (some (literal "ab"))] with
  | error e =>
    rw [emitted] at written
    cases written
  | ok data =>
    refine ⟨data,rfl,?_⟩
    obtain ⟨entity,user,items,fields,named,used,collected,logged,fetched⟩ := raw_record_fetched emitted
    have agt : nameBytes (some (literal "Agt")) = .ok (toBytes "Agt".toList) := by decide +kernel
    have usr : nameBytes (some (literal "User")) = .ok (toBytes "User".toList) := by decide +kernel
    have one : te_log_vprintf (collector (fun fmt _ => fmt) (fun _ => none)) (some "n %s".toList) [.pointer (some (literal "ab"))] [] =
      .ok [.logged "n %s".toList (.mem (literal "ab") 2)] := by decide +kernel
    have field : itemsFields [.logged "n %s".toList (.mem (literal "ab") 2)] = .ok [toBytes "ab".toList] := by decide +kernel
    obtain rfl := ok.inj (named.symm.trans agt)
    obtain rfl := ok.inj (used.symm.trans usr)
    obtain rfl := ok.inj (collected.symm.trans one)
    obtain rfl := ok.inj (logged.symm.trans field)
    rw [fetched (by decide +kernel)]
    decide +kernel
theorem cString_zero (no_zero : 0 ∉ chars) : cString (chars ++ [0]) = .ok chars := by
  rw [cString,if_pos (mem_append_right _ mem_cons_self)]
  have all : ∀ c ∈ chars, decide (c ≠ 0) = true := fun c member => decide_eq_true (fun same => no_zero (same ▸ member))
  rw [List.takeWhile_append_of_pos all]
  show Except.ok (chars ++ []) = _
  rw [append_nil]
/-- A message without arguments, with an entity of any length. -/
theorem plain_emitted {fmt : CStr} (no_zero : 0 ∉ chars) (plain : '%' ∉ fmt) :
    ∃ data, te_log_message_raw_va (fun fmt _ => fmt) (fun _ => none) 0 0 0 0 1 0 (some (chars ++ [0])) (some (literal "")) (some fmt) [] = .ok data ∧
      data.buf = recordBytes (recordHeader 0 0 1 0) (chars.take TE_LOG_FIELD_MAX) [] fmt [] := by
  have spec := message_raw_va (fun fmt _ => fmt) (fun _ => none) 0 0 0 0 1 0 (some (chars ++ [0])) (some (literal "")) fmt []
  have named : nameBytes (some (chars ++ [0])) = .ok (chars.take TE_LOG_FIELD_MAX) := by
    rw [nameBytes,getD_some,cString_zero no_zero]
    rfl
  have none : nameBytes (some (literal "")) = .ok [] := by decide
  obtain ⟨items,collected,text,logged⟩ : ∃ items, te_log_vprintf (collector (fun fmt _ => fmt) (fun _ => Option.none)) (some fmt) [] [] = .ok items ∧
      itemsText items = fmt ∧ itemsFields items = .ok [] := by
    rw [te_log_vprintf,vprintfLoop_plain plain,nil_append]
    cases fmt with
    | nil => exact ⟨[],rfl,rfl,rfl⟩
    | cons c fmt => exact ⟨[.printed (c :: fmt)],rfl,append_nil _,rfl⟩
  rw [named,none] at spec
  have spec : _ = (te_log_vprintf (collector (fun fmt _ => fmt) (fun _ => Option.none)) (some fmt) [] [] >>= _) := spec
  rw [collected] at spec
  have spec : _ = (itemsFields items >>= _) := spec
  rw [logged,text] at spec
  cases emitted : te_log_message_raw_va (fun fmt _ => fmt) (fun _ => Option.none) 0 0 0 0 1 0 (some (chars ++ [0])) (some (literal "")) (some fmt) [] with
  | error e =>
    rw [emitted] at spec
    cases spec
  | ok data =>
    rw [emitted] at spec
    exact ⟨data,rfl,ok.inj spec⟩
/-- The name of an entity is cut, and a text of {2^16} characters is lost: its length is put as zero. -/
theorem raw_record_cut :
    (∃ data, te_log_message_raw_va (fun fmt _ => fmt) (fun _ => none) 0 0 0 0 1 0 (some (replicate 65535 97 ++ [0])) (some (literal ""))
        (some []) [] = .ok data ∧
      ∀ message rest, fetch_log_msg_v1 data.buf = .ok (some (message,rest)) → message.entity ≠ replicate 65535 97) ∧
    ∃ data, te_log_message_raw_va (fun fmt _ => fmt) (fun _ => none) 0 0 0 0 1 0 (some ([] ++ [0])) (some (literal ""))
        (some (replicate 65536 'x')) [] = .ok data ∧
      ∀ message rest, fetch_log_msg_v1 data.buf = .ok (some (message,rest)) → message.fmt_str ≠ toBytes (replicate 65536 'x') := by
  constructor
  · obtain ⟨data,emitted,bytes⟩ := @plain_emitted (replicate 65535 97) [] (fun member => by cases List.eq_of_mem_replicate member) not_mem_nil
    refine ⟨data,emitted,fun message rest fetched same => ?_⟩
    have cut : ((replicate 65535 97).take TE_LOG_FIELD_MAX : List UInt8).length < 2^16 := by
      rw [length_take]
      simp only [TE_LOG_FIELD_MAX,TE_LOG_RAW_EOR_LEN]
      omega
    have whole := @fetch_record _ [] [] [] 0 0 1 0 cut (by decide) (by decide) (fun _ member => absurd member not_mem_nil) []
    rw [append_nil,← bytes,fetched] at whole
    obtain ⟨rfl,_⟩ := of_pair (ok.inj whole)
    have length := congrArg List.length same
    simp only [length_take,length_replicate,TE_LOG_FIELD_MAX,TE_LOG_RAW_EOR_LEN] at length
    omega
  · obtain ⟨data,emitted,bytes⟩ := @plain_emitted [] (replicate 65536 'x') not_mem_nil (fun member => by cases List.eq_of_mem_replicate member)
    refine ⟨data,emitted,fun message rest fetched same => ?_⟩
    have short := fetch_short fetched
    rw [same,toBytes_length,length_replicate] at short
    omega
end
end TestEnvironment.Rgt
