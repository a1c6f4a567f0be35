import TestEnvironment.Lib.Alike
import TestEnvironment.Lib.Chunks
import TestEnvironment.Tools.LogFmt

/-!
What a raw message logs, without its buffers: texts and arguments, each with the part of the format that it
belongs to. An argument that one field cannot hold is split into several ones, and its conversion is repeated
for each of them.
-/
namespace TestEnvironment.Tools.LogFmt
open Lib

section

/-- Where the bytes of an argument come from, and how many of them are logged. -/
inductive Source
  | int (value len : Nat)
  | mem (addr : List UInt8) (len : Nat)
  | file (content : List UInt8) (len : Nat)
  deriving DecidableEq, Repr
def Source.len : Source → Nat
  | .int _ len => len
  | .mem _ len => len
  | .file _ len => len
def Source.bytes : Source → Except LogStop (List UInt8)
  | .int value len => .ok (beBytes len value)
  | .mem addr len => if len ≤ addr.length then .ok (addr.take len) else .error .crash
  | .file content len => .ok (readUpTo content len)
/-- A text that is printed, or an argument with its part of the format. -/
inductive Item
  | printed (text : CStr)
  | logged (piece : CStr) (source : Source)
  deriving DecidableEq, Repr
/-- The conversion once more for each further field. -/
def repeated (piece : CStr) (len : Nat) : CStr :=
  (replicate ((len-1)/TE_LOG_FIELD_MAX) ((rindex '%' piece).getD [])).flatten
def Item.text : Item → CStr
  | .printed text => text
  | .logged piece source => piece ++ repeated piece source.len
def Item.fields : Item → Except LogStop (List (List UInt8))
  | .printed _ => .ok []
  | .logged _ source => source.bytes.map (chunks TE_LOG_FIELD_MAX)
def itemsText (items : List Item) : CStr := items.flatMap Item.text
def itemsFields : List Item → Except LogStop (List (List UInt8))
  | [] => .ok []
  | item :: items => do
    let fields ← item.fields
    let others ← itemsFields items
    .ok (fields ++ others)
def sourceOf (files : List UInt8 → Option LogFile) : MsgArg → Except LogStop (Option Source)
  | .EOR => .ok none
  | .INT value len => if len = 1 ∨ len = 2 ∨ len = 4 ∨ len = 8 then .ok (some (.int value len)) else .error .TE_EINVAL
  | .MEM addr len => .ok (some (.mem addr len))
  | .FILE none => .ok (some (.mem (literal "(NULL file name)") 16))
  | .FILE (some memory) => do
    let name ← cString memory
    match files name with
    | none => .ok (some (.mem memory name.length))
    | some file => .ok (some (.file file.content file.st_size))
/-- A backend that keeps what it is called with. -/
def collector (vsnprintf : CStr → List VaArg → CStr) (files : List UInt8 → Option LogFile) : MsgOut (List Item) where
  fmt := fun fmt ap items => .ok (items ++ [.printed (vsnprintf fmt ap)])
  raw := fun piece arg items => do
    let source ← sourceOf files arg
    .ok (items ++ (source.map (Item.logged piece)).toList)

variable {items : List Item} {item : Item}

theorem itemsText_snoc (items : List Item) (item : Item) : itemsText (items ++ [item]) = itemsText items ++ item.text := by
  rw [itemsText,itemsText,flatMap_append,flatMap_singleton]
theorem itemsFields_snoc (items : List Item) (item : Item) : itemsFields (items ++ [item]) = (do
    let fields ← itemsFields items
    let others ← item.fields
    .ok (fields ++ others)) := by
  induction items with
  | nil =>
    rw [nil_append,itemsFields,itemsFields]
    cases item.fields with
    | error e => rfl
    | ok fields =>
      show Except.ok (fields ++ []) = Except.ok ([] ++ fields)
      rw [append_nil,nil_append]
  | cons first items ih =>
    rw [cons_append,itemsFields,itemsFields,ih]
    cases first.fields with
    | error e => rfl
    | ok fields =>
      cases itemsFields items with
      | error e => rfl
      | ok others =>
        cases item.fields with
        | error e => rfl
        | ok last =>
          show Except.ok (fields ++ (others ++ last)) = Except.ok (fields ++ others ++ last)
          rw [append_assoc]
theorem source_length {source : Source} {bytes : List UInt8} (read : source.bytes = .ok bytes) : bytes.length = source.len := by
  cases source with
  | int value len =>
    obtain rfl := ok.inj read
    exact beBytes_length len value
  | mem addr len =>
    rw [Source.bytes] at read
    split_ifs at read with inside
    obtain rfl := ok.inj read
    rw [length_take,Nat.min_eq_left inside]
    rfl
  | file content len =>
    obtain rfl := ok.inj read
    rw [readUpTo,length_append,length_take,length_replicate]
    simp only [Source.len]
    omega
end

section

/-- A field as it is put. -/
def RawArg.bytes (contents : Nat → List UInt8) : RawArg → Except LogStop (List UInt8)
  | .EOR => .ok (twoBytes TE_LOG_RAW_EOR_LEN)
  | .INT value len => .ok (twoBytes len ++ beBytes len value)
  | .MEM addr len => if len ≤ addr.length then .ok (twoBytes len ++ addr.take len) else .error .crash
  | .FILE fd len => .ok (twoBytes len ++ readUpTo (contents fd) len)
def written : List RawArg → (Nat → List UInt8) → Except LogStop (List UInt8)
  | [], _ => .ok []
  | arg :: args, contents => do
    let bytes ← arg.bytes contents
    let others ← written args (contentsBehind contents arg)
    .ok (bytes ++ others)

variable {args more : List RawArg} {contents : Nat → List UInt8} {data : RawData}

theorem bytes_length {arg : RawArg} {bytes : List UInt8} (put : arg.bytes contents = .ok bytes) : bytes.length = 2+arg.len := by
  cases arg with
  | EOR =>
    obtain rfl := ok.inj put
    rfl
  | INT value len =>
    obtain rfl := ok.inj put
    rw [length_append,twoBytes_length,beBytes_length]
    rfl
  | MEM addr len =>
    rw [RawArg.bytes] at put
    split_ifs at put with inside
    obtain rfl := ok.inj put
    rw [length_append,twoBytes_length,length_take,Nat.min_eq_left inside]
    rfl
  | FILE fd len =>
    obtain rfl := ok.inj put
    rw [length_append,twoBytes_length,readUpTo,length_append,length_take,length_replicate]
    simp only [RawArg.len]
    omega
theorem put_no_check (contents : Nat → List UInt8) (arg : RawArg) (data : RawData) :
    te_log_msg_raw_put_no_check contents arg data = arg.bytes contents >>= fun bytes => put bytes data := by
  cases arg with
  | MEM addr len =>
    rw [te_log_msg_raw_put_no_check,RawArg.bytes]
    split_ifs <;> rfl
  | EOR => rfl
  | INT value len => rfl
  | FILE fd len => rfl
theorem put_room {bytes : List UInt8} (room : data.buf.length+bytes.length ≤ data.size) :
    put bytes data = .ok {data with buf := data.buf ++ bytes} := if_pos room
/-- The arguments fit where there is room for all lengths. -/
theorem putArgs_written (room : data.buf.length+(args.map fun arg => 2+arg.len).sum ≤ data.size) :
    putArgs args contents data = (written args contents).map fun bytes => {data with buf := data.buf ++ bytes} := by
  induction args generalizing contents data with
  | nil =>
    show Except.ok data = Except.ok {data with buf := data.buf ++ []}
    rw [append_nil]
  | cons arg args ih =>
    rw [map_cons,sum_cons] at room
    rw [putArgs,written,put_no_check]
    cases field : arg.bytes contents with
    | error e => rfl
    | ok bytes =>
      have length := bytes_length field
      show (put bytes data >>= fun data => putArgs args (contentsBehind contents arg) data) = _
      rw [put_room (by omega)]
      show putArgs args (contentsBehind contents arg) {data with buf := data.buf ++ bytes} = _
      rw [ih (by show (data.buf ++ bytes).length+_ ≤ data.size; rw [length_append]; omega)]
      show _ = Except.map _ (written args (contentsBehind contents arg) >>= _)
      cases written args (contentsBehind contents arg) with
      | error e => rfl
      | ok others =>
        show Except.ok {data with buf := data.buf ++ bytes ++ others} = Except.ok {data with buf := data.buf ++ (bytes ++ others)}
        rw [append_assoc]
theorem written_append (args more : List RawArg) (contents : Nat → List UInt8) : written (args ++ more) contents = (do
    let bytes ← written args contents
    let others ← written more (args.foldl contentsBehind contents)
    .ok (bytes ++ others)) := by
  induction args generalizing contents with
  | nil =>
    rw [nil_append,written]
    show written more contents = (written more contents >>= fun others => Except.ok ([] ++ others))
    cases written more contents <;> rfl
  | cons arg args ih =>
    rw [cons_append,written,written,ih,foldl_cons]
    cases arg.bytes contents with
    | error e => rfl
    | ok bytes =>
      cases written args (contentsBehind contents arg) with
      | error e => rfl
      | ok others =>
        show (do
          let others ← (do
            let last ← written more (args.foldl contentsBehind (contentsBehind contents arg))
            Except.ok (others ++ last))
          Except.ok (bytes ++ others)) = (do
            let last ← written more (args.foldl contentsBehind (contentsBehind contents arg))
            Except.ok (bytes ++ others ++ last))
        cases written more (args.foldl contentsBehind (contentsBehind contents arg)) with
        | error e => rfl
        | ok last =>
          show Except.ok (bytes ++ (others ++ last)) = Except.ok (bytes ++ others ++ last)
          rw [append_assoc]
end
end TestEnvironment.Tools.LogFmt
