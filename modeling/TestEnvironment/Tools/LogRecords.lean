import TestEnvironment.Tools.LogItems

/-!
The record that a raw message becomes. Step by step the buffer holds the text of the items so far, and the
arguments that are kept give their fields once they are put; there is room for each of them.
-/
namespace TestEnvironment.Tools.LogFmt
open Lib

section
variable {data : RawData} {fmt : CStr}

theorem check_len_room (inside : data.buf.length ≤ data.size) (len : Nat) :
    ∃ size, ta_log_msg_raw_buf_check_len data len = {data with size := size} ∧ data.buf.length+len ≤ size := by
  rw [ta_log_msg_raw_buf_check_len]
  by_cases enough : len ≤ data.size-data.buf.length
  · exact ⟨data.size,if_pos enough,by omega⟩
  · rw [if_neg enough]
    by_cases fresh : data.size = 0
    · refine ⟨_,if_pos fresh,?_⟩
      have most : len ≤ TE_LOG_MSG_RAW_BUF_INIT + (if TE_LOG_MSG_RAW_BUF_INIT ≤ len then
          ((len-TE_LOG_MSG_RAW_BUF_INIT)/TE_LOG_MSG_RAW_BUF_GROW+1)*TE_LOG_MSG_RAW_BUF_GROW else 0) := by
        by_cases long : TE_LOG_MSG_RAW_BUF_INIT ≤ len
        · rw [if_pos long]
          simp only [TE_LOG_MSG_RAW_BUF_INIT,TE_LOG_MSG_RAW_BUF_GROW] at long ⊢
          omega
        · rw [if_neg long]
          omega
      omega
    · refine ⟨_,if_neg fresh,?_⟩
      simp only [TE_LOG_MSG_RAW_BUF_GROW]
      omega
theorem copyFormat_room (inside : data.buf.length ≤ data.size) (fmt : CStr) :
    ∃ size, copyFormat data fmt = .ok {data with buf := data.buf ++ toBytes fmt,size := size} ∧ data.buf.length+fmt.length ≤ size := by
  rw [copyFormat]
  by_cases none : fmt = []
  · subst none
    refine ⟨data.size,?_,inside⟩
    show Except.ok data = Except.ok {data with buf := data.buf ++ []}
    rw [append_nil]
  · obtain ⟨size,grown,room⟩ := check_len_room inside fmt.length
    refine ⟨size,?_,room⟩
    rw [if_pos none,grown]
    exact put_room (by rw [toBytes,length_map]; exact room)
theorem growArgs_slot (slots : data.args.length ≤ data.args_max) :
    ∃ args_max, growArgs data = {data with args_max := args_max} ∧ data.args.length < args_max := by
  rw [growArgs]
  by_cases full : data.args.length = data.args_max
  · refine ⟨_,if_pos full,?_⟩
    simp only [TE_LOG_MSG_RAW_ARGS_INIT,TE_LOG_MSG_RAW_ARGS_GROW]
    split_ifs <;> omega
  · exact ⟨data.args_max,if_neg full,by omega⟩
theorem prepare_room (inside : data.buf.length ≤ data.size) (slots : data.args.length ≤ data.args_max) (fmt : CStr) :
    ∃ size args_max, te_log_msg_prepare_raw_args data fmt = .ok {data with buf := data.buf ++ toBytes fmt,size := size,args_max := args_max} ∧
      data.buf.length+fmt.length ≤ size ∧ data.args.length < args_max := by
  obtain ⟨size,copied,room⟩ := copyFormat_room inside fmt
  obtain ⟨args_max,grown,slot⟩ := @growArgs_slot {data with buf := data.buf ++ toBytes fmt,size := size} slots
  refine ⟨size,args_max,?_,room,slot⟩
  rw [te_log_msg_prepare_raw_args,copied]
  show (if _ then Except.ok (growArgs _) else _) = _
  rw [grown]
  exact if_pos slot
end

section
variable {data : RawData} {text later fmt spec : CStr} {args more : List RawArg} {size args_max len n fuel : Nat} {saved : Saved}

/-- A text behind the buffer, and arguments behind the others. -/
def RawData.added (data : RawData) (text : CStr) (more : List RawArg) (size args_max : Nat) : RawData :=
  {data with
    buf := data.buf ++ toBytes text
    size := size
    args := data.args ++ more
    args_max := args_max
    args_len := data.args_len+(more.map fun arg => 2+arg.len).sum}
def RawData.Room (data : RawData) : Prop := data.buf.length ≤ data.size ∧ data.args.length ≤ data.args_max
/-- The computation succeeds and adds the text and the arguments. -/
def Adds (data : RawData) (text : CStr) (more : List RawArg) (result : Except LogStop RawData) : Prop :=
  ∃ size args_max, result = .ok (data.added text more size args_max) ∧ (data.added text more size args_max).Room
/-- The arguments that one of some length is split into, for the number of those that are full. -/
def savedArgs : Nat → Saved → Nat → List RawArg
  | 0, saved, len => [saved.arg len]
  | n+1, saved, len => saved.arg TE_LOG_FIELD_MAX :: savedArgs n saved.next (len-TE_LOG_FIELD_MAX)

theorem toBytes_append (s t : CStr) : toBytes (s ++ t) = toBytes s ++ toBytes t := map_append
theorem toBytes_length (s : CStr) : (toBytes s).length = s.length := length_map _
theorem Adds.trans {result : Except LogStop RawData} {size' args_max' : Nat}
    (adds : Adds (data.added text args size' args_max') later more result) : Adds data (text ++ later) (args ++ more) result := by
  obtain ⟨size,args_max,same,room⟩ := adds
  have together : (data.added text args size' args_max').added later more size args_max = data.added (text ++ later) (args ++ more) size args_max := by
    simp only [RawData.added,toBytes_append,append_assoc,map_append,List.sum_append,Nat.add_assoc]
  exact ⟨size,args_max,together ▸ same,together ▸ room⟩
theorem prepare_store (room : data.Room) (fmt : CStr) (arg : RawArg) :
    ∃ size args_max prepared, te_log_msg_prepare_raw_args data fmt = .ok prepared ∧ prepared.store arg = data.added fmt [arg] size args_max ∧
      (data.added fmt [arg] size args_max).Room := by
  obtain ⟨size,args_max,prepared,room,slot⟩ := prepare_room room.1 room.2 fmt
  refine ⟨size,args_max,_,prepared,rfl,?_,?_⟩
  · show (data.buf ++ toBytes fmt).length ≤ size
    rwa [length_append,toBytes_length]
  · show (data.args ++ [arg]).length ≤ args_max
    rwa [length_append]
theorem long_iff : TE_LOG_FIELD_MAX < len ↔ 0 < (len-1)/TE_LOG_FIELD_MAX := by
  rw [Nat.div_pos_iff]
  simp only [TE_LOG_FIELD_MAX,TE_LOG_RAW_EOR_LEN]
  omega
theorem one_less (long : (len-1)/TE_LOG_FIELD_MAX = n+1) : TE_LOG_FIELD_MAX < len ∧ (len-TE_LOG_FIELD_MAX-1)/TE_LOG_FIELD_MAX = n := by
  have big := long_iff.mpr (by omega : 0 < (len-1)/TE_LOG_FIELD_MAX)
  refine ⟨big,?_⟩
  have step := Nat.add_div_right (len-TE_LOG_FIELD_MAX-1) (by decide : 0 < TE_LOG_FIELD_MAX)
  rw [show len-TE_LOG_FIELD_MAX-1+TE_LOG_FIELD_MAX = len-1 by omega] at step
  omega
/-- The rest of a long argument, with its conversion before each part. -/
theorem handle_trunc_adds (room : data.Room) (full : (len-1)/TE_LOG_FIELD_MAX = n) (enough : n < fuel) :
    Adds data (replicate (n+1) spec).flatten (savedArgs n saved len) (te_log_msg_handle_trunc spec fuel saved len data) := by
  induction n generalizing fuel saved len data with
  | zero =>
    obtain ⟨fuel,rfl⟩ := succ_of_lt enough
    obtain ⟨size,args_max,prepared,ready,stored,room⟩ := prepare_store room spec (saved.arg len)
    have short : ¬ TE_LOG_FIELD_MAX < len := fun long => by have := long_iff.mp long; omega
    rw [te_log_msg_handle_trunc,ready,List.replicate_one,List.flatten_singleton,savedArgs]
    show Adds data spec [saved.arg len] (if _ then _ else _)
    rw [if_neg short,stored]
    exact ⟨size,args_max,rfl,room⟩
  | succ n ih =>
    obtain ⟨fuel,rfl⟩ := succ_of_lt enough
    obtain ⟨long,left⟩ := one_less full
    obtain ⟨size,args_max,prepared,ready,stored,room⟩ := prepare_store room spec (saved.arg TE_LOG_FIELD_MAX)
    rw [te_log_msg_handle_trunc,ready,replicate_succ,List.flatten_cons,savedArgs]
    show Adds data _ ([_] ++ _) (if _ then te_log_msg_handle_trunc _ _ _ _ (prepared.store _) else _)
    rw [if_pos long,stored]
    exact (ih room left (by omega)).trans
theorem rindex_some {c : Char} {s : CStr} (member : c ∈ s) : ∃ t, rindex c s = some t := by
  induction s with
  | nil => cases member
  | cons x s ih =>
    rw [rindex]
    cases last : rindex c s with
    | some t => exact ⟨t,rfl⟩
    | none => simp_all
/-- An argument of any length. -/
theorem storeLong_adds (room : data.buf.length ≤ data.size) (slot : data.args.length < data.args_max) (spec : '%' ∈ fmt) :
    Adds data (repeated fmt len) (savedArgs ((len-1)/TE_LOG_FIELD_MAX) saved len) (storeLong fmt saved len data) := by
  have one (arg : RawArg) : data.store arg = data.added [] [arg] data.size data.args_max := by simp [RawData.store,RawData.added,toBytes]
  have roomy (arg : RawArg) : (data.added [] [arg] data.size data.args_max).Room := by
    rw [← one]
    refine ⟨room,?_⟩
    show (data.args ++ [arg]).length ≤ data.args_max
    rwa [length_append]
  obtain ⟨last,found⟩ := rindex_some spec
  rw [storeLong,repeated,found]
  by_cases long : TE_LOG_FIELD_MAX < len
  · obtain ⟨n,full⟩ := exists_eq_add_one_of_ne_zero (ne_of_gt (long_iff.mp long))
    obtain ⟨_,left⟩ := one_less full
    rw [if_pos long,full,one,savedArgs]
    have enough : n < len-TE_LOG_FIELD_MAX+1 := by
      have most := Nat.div_le_self (len-TE_LOG_FIELD_MAX-1) TE_LOG_FIELD_MAX
      omega
    exact (handle_trunc_adds (roomy _) left enough).trans
  · have zero : (len-1)/TE_LOG_FIELD_MAX = 0 := Nat.eq_zero_of_not_pos (fun some => long (long_iff.mpr some))
    rw [if_neg long,zero,one]
    exact ⟨data.size,data.args_max,rfl,roomy _⟩
end

section
variable {contents : Nat → List UInt8} {saved : Saved} {len n fd : Nat}

/-- What is read for an argument that is kept. -/
def Saved.source (contents : Nat → List UInt8) (len : Nat) : Saved → Source
  | .fd file => .file (contents file) len
  | .addr base => .mem base len

theorem saved_bytes (contents : Nat → List UInt8) (saved : Saved) (len : Nat) :
    (saved.arg len).bytes contents = (saved.source contents len).bytes.map fieldBytes := by
  cases bytes : (saved.source contents len).bytes with
  | error e =>
    cases saved with
    | fd file => cases bytes
    | addr base =>
      rw [Saved.source,Source.bytes] at bytes
      split_ifs at bytes with inside
      rw [← bytes]
      exact if_neg inside
  | ok taken =>
    have length := source_length bytes
    cases saved with
    | fd file =>
      obtain rfl := ok.inj bytes
      show _ = Except.ok (twoBytes _ ++ _)
      rw [length]
      rfl
    | addr base =>
      rw [Saved.source,Source.bytes] at bytes
      split_ifs at bytes with inside
      obtain rfl := ok.inj bytes
      show _ = Except.ok (twoBytes _ ++ _)
      rw [length]
      exact if_pos inside
theorem readUpTo_add (content : List UInt8) (front rest : Nat) :
    readUpTo content (front+rest) = readUpTo content front ++ readUpTo (content.drop front) rest := by
  simp only [readUpTo,length_drop]
  by_cases short : content.length ≤ front
  · grind [take_of_length_le,List.replicate_append_replicate]
  · rw [show front-content.length = 0 by omega,List.replicate_zero,append_nil,take_add,append_assoc]
    congr 3
    omega
/-- The bytes of a part and the ones behind it. -/
theorem source_split (contents : Nat → List UInt8) (saved : Saved) (rest : Nat) :
    (saved.source contents (TE_LOG_FIELD_MAX+rest)).bytes = (do
      let first ← (saved.source contents TE_LOG_FIELD_MAX).bytes
      let others ← (saved.next.source (contentsBehind contents (saved.arg TE_LOG_FIELD_MAX)) rest).bytes
      .ok (first ++ others)) := by
  cases saved with
  | fd file =>
    show Except.ok (readUpTo _ _) = Except.ok (readUpTo _ _ ++ readUpTo (if file = file then _ else _) _)
    rw [if_pos rfl,readUpTo_add]
  | addr base =>
    simp only [Saved.source,Saved.next,Source.bytes,length_drop]
    by_cases first : TE_LOG_FIELD_MAX ≤ base.length
    · rw [if_pos first]
      by_cases whole : TE_LOG_FIELD_MAX+rest ≤ base.length
      · rw [if_pos whole,if_pos (by omega),take_add]
        rfl
      · rw [if_neg whole,if_neg (by omega)]
        rfl
    · rw [if_neg first,if_neg (by omega)]
      rfl
/-- The fields of an argument that is split are the chunks of its bytes. -/
theorem written_saved (full : (len-1)/TE_LOG_FIELD_MAX = n) :
    written (savedArgs n saved len) contents = (saved.source contents len).bytes.map fun bytes => (chunks TE_LOG_FIELD_MAX bytes).flatMap fieldBytes := by
  induction n generalizing len saved contents with
  | zero =>
    have short : ¬ TE_LOG_FIELD_MAX < len := fun long => by have := long_iff.mp long; omega
    rw [savedArgs,written,written,saved_bytes]
    cases bytes : (saved.source contents len).bytes with
    | error e => rfl
    | ok taken =>
      have length := source_length bytes
      have whole : (saved.source contents len).len = len := by cases saved <;> rfl
      show Except.ok (fieldBytes taken ++ []) = Except.ok ((chunks TE_LOG_FIELD_MAX taken).flatMap fieldBytes)
      rw [chunks_short (by omega),flatMap_singleton,append_nil]
  | succ n ih =>
    obtain ⟨long,left⟩ := one_less full
    obtain ⟨rest,rfl⟩ := Nat.exists_eq_add_of_lt long
    have rest_len : TE_LOG_FIELD_MAX+rest+1-TE_LOG_FIELD_MAX = rest+1 := by omega
    rw [rest_len] at left
    rw [savedArgs,written,rest_len,ih left,saved_bytes,Nat.add_assoc,source_split]
    cases first : (saved.source contents TE_LOG_FIELD_MAX).bytes with
    | error e => rfl
    | ok front =>
      have length := source_length first
      have whole : (saved.source contents TE_LOG_FIELD_MAX).len = TE_LOG_FIELD_MAX := by cases saved <;> rfl
      cases second : (saved.next.source (contentsBehind contents (saved.arg TE_LOG_FIELD_MAX)) (rest+1)).bytes with
      | error e => rfl
      | ok others =>
        have length' := source_length second
        have whole' : (saved.next.source (contentsBehind contents (saved.arg TE_LOG_FIELD_MAX)) (rest+1)).len = rest+1 := by cases saved <;> rfl
        show Except.ok (fieldBytes front ++ (chunks TE_LOG_FIELD_MAX others).flatMap fieldBytes) = Except.ok ((chunks TE_LOG_FIELD_MAX (front ++ others)).flatMap fieldBytes)
        rw [chunks_full (by decide) (by omega) (List.ne_nil_of_length_pos (by omega)),flatMap_cons]
theorem saved_other (contents : Nat → List UInt8) (len : Nat) (other : saved ≠ .fd fd) : contentsBehind contents (saved.arg len) fd = contents fd := by
  cases saved with
  | fd file => exact if_neg (fun same => other (by rw [same]))
  | addr base => rfl
theorem saved_behind (contents : Nat → List UInt8) (n len : Nat) (other : saved ≠ .fd fd) :
    (savedArgs n saved len).foldl contentsBehind contents fd = contents fd := by
  induction n generalizing saved len contents with
  | zero => exact saved_other contents len other
  | succ n ih =>
    have next : saved.next ≠ .fd fd := by
      cases saved with
      | fd file => exact other
      | addr base => exact fun same => by cases same
    rw [savedArgs,foldl_cons,ih _ _ next,saved_other contents _ other]
end

section
variable {vsnprintf : CStr → List VaArg → CStr} {files : List UInt8 → Option LogFile} {start : List UInt8} {items : List Item} {item : Item}
  {data : RawData} {piece : CStr} {arg : MsgArg} {more : List RawArg} {size args_max : Nat}

/-- The files that are open have these contents. -/
def Opened (opened : List (List UInt8)) (contents : Nat → List UInt8) : Prop := ∀ fd content, opened[fd]? = some content → contents fd = content
/-- The buffer holds what came before the text, and the text of the items; the arguments give their fields. -/
structure Holds (start : List UInt8) (items : List Item) (data : RawData) : Prop where
  buf : data.buf = start ++ toBytes (itemsText items)
  room : data.Room
  args_len : data.args_len = (data.args.map fun arg => 2+arg.len).sum
  fields : ∀ contents, Opened data.opened contents → written data.args contents = (itemsFields items).map (·.flatMap fieldBytes)
  unread : ∀ contents fd, data.opened.length ≤ fd → data.args.foldl contentsBehind contents fd = contents fd

variable {opened : List (List UInt8)}

theorem Opened.before {others : List (List UInt8)} {contents : Nat → List UInt8} (open' : Opened (opened ++ others) contents) :
    Opened opened contents := by
  intro fd content here
  obtain ⟨inside,_⟩ := List.getElem?_eq_some_iff.mp here
  exact open' fd content (by rw [getElem?_append_left inside,here])
theorem fields_map (fields more : List (List UInt8)) : (fields ++ more).flatMap fieldBytes = fields.flatMap fieldBytes ++ more.flatMap fieldBytes :=
  flatMap_append
/-- An item more, with its text and its arguments. -/
theorem Holds.snoc (holds : Holds start items data)
    (room : (RawData.added {data with opened := data.opened ++ opened} item.text more size args_max).Room)
    (fields : ∀ contents, Opened (data.opened ++ opened) contents →
      written more (data.args.foldl contentsBehind contents) = item.fields.map (·.flatMap fieldBytes))
    (unread : ∀ contents fd, data.opened.length+opened.length ≤ fd → more.foldl contentsBehind contents fd = contents fd) :
    Holds start (items ++ [item]) (RawData.added {data with opened := data.opened ++ opened} item.text more size args_max) where
  buf := by
    show data.buf ++ toBytes item.text = _
    rw [holds.buf,itemsText_snoc,toBytes_append,append_assoc]
  room := room
  args_len := by
    show data.args_len+_ = ((data.args ++ more).map _).sum
    rw [map_append,List.sum_append,holds.args_len]
  fields := by
    intro contents open'
    show written (data.args ++ more) contents = _
    rw [written_append,holds.fields contents open'.before,fields contents open',itemsFields_snoc]
    cases itemsFields items with
    | error e => rfl
    | ok first =>
      cases item.fields with
      | error e => rfl
      | ok last =>
        show Except.ok _ = Except.ok ((first ++ last).flatMap fieldBytes)
        rw [fields_map]
  unread := by
    intro contents fd beyond
    have beyond : data.opened.length+opened.length ≤ fd := by
      rw [← length_append]
      exact beyond
    show (data.args ++ more).foldl contentsBehind contents fd = _
    rw [foldl_append,unread _ fd beyond,holds.unread contents fd (by omega)]
theorem Holds.printed (holds : Holds start items data) (fmt : CStr) (ap : List VaArg) :
    ∃ data', te_log_msg_fmt_args vsnprintf fmt ap data = .ok data' ∧ Holds start (items ++ [.printed (vsnprintf fmt ap)]) data' := by
  obtain ⟨size,grown,room⟩ := check_len_room holds.room.1 ((vsnprintf fmt ap).length+1)
  have same : (RawData.added {data with opened := data.opened ++ []} (vsnprintf fmt ap) [] size data.args_max) =
      {data with buf := data.buf ++ toBytes (vsnprintf fmt ap),size := size} := by
    simp only [RawData.added,append_nil]
    rfl
  refine ⟨_,?_,@Holds.snoc start items (.printed (vsnprintf fmt ap)) data [] size data.args_max [] holds ⟨?_,?_⟩ ?_ ?_⟩
  · show _ = Except.ok (RawData.added {data with opened := data.opened ++ []} (vsnprintf fmt ap) [] size data.args_max)
    rw [te_log_msg_fmt_args,grown,same]
    exact put_room (by rw [toBytes_length]; show data.buf.length+_ ≤ size; omega)
  · show (data.buf ++ toBytes (vsnprintf fmt ap)).length ≤ size
    rw [length_append,toBytes_length]
    omega
  · show (data.args ++ []).length ≤ _
    rw [append_nil]
    exact holds.room.2
  · intro _ _
    rfl
  · intro _ _ _
    rfl
/-- An argument from memory or from a file, behind the others. -/
theorem Holds.stored {saved : Saved} {source : Source} {prepared : RawData} {size args_max : Nat} (holds : Holds start items data)
    (ready : te_log_msg_prepare_raw_args data piece = .ok prepared)
    (same : prepared = {data with buf := data.buf ++ toBytes piece,size := size,args_max := args_max})
    (room : data.buf.length+piece.length ≤ size) (slot : data.args.length < args_max) (spec : '%' ∈ piece)
    (reads : ∀ contents, Opened (data.opened ++ opened) contents → saved.source (data.args.foldl contentsBehind contents) source.len = source)
    (new : ∀ fd, data.opened.length+opened.length ≤ fd → saved ≠ .fd fd) :
    ∃ data', storeLong piece saved source.len {prepared with opened := prepared.opened ++ opened} = .ok data' ∧
      Holds start (items ++ [.logged piece source]) data' := by
  subst same
  obtain ⟨size',args_max',stored,room'⟩ := @storeLong_adds {data with buf := data.buf ++ toBytes piece,size := size,args_max := args_max,opened := data.opened ++ opened}
    piece source.len saved (by show (data.buf ++ toBytes piece).length ≤ size; rwa [length_append,toBytes_length]) slot spec
  have together : (RawData.added {data with buf := data.buf ++ toBytes piece,size := size,args_max := args_max,opened := data.opened ++ opened}
      (repeated piece source.len) (savedArgs ((source.len-1)/TE_LOG_FIELD_MAX) saved source.len) size' args_max') =
      RawData.added {data with opened := data.opened ++ opened} (Item.logged piece source).text
        (savedArgs ((source.len-1)/TE_LOG_FIELD_MAX) saved source.len) size' args_max' := by
    simp only [RawData.added,Item.text,toBytes_append,append_assoc]
  rw [together] at stored room'
  refine ⟨_,stored,holds.snoc room' ?_ ?_⟩
  · intro contents open'
    rw [written_saved rfl,reads contents open']
    show _ = Except.map _ (Except.map _ source.bytes)
    cases source.bytes <;> rfl
  · intro contents fd beyond
    exact saved_behind contents _ _ (new fd beyond)
theorem Holds.logged (holds : Holds start items data) (spec : '%' ∈ piece) (other : arg ≠ .EOR) :
    Alike (Holds start) ((collector vsnprintf files).raw piece arg items) (te_log_msg_raw_arg files piece arg data) := by
  obtain ⟨size,args_max,ready,room,slot⟩ := prepare_room holds.room.1 holds.room.2 piece
  have memory (addr : List UInt8) (len : Nat) :
      ∃ data', storeLong piece (.addr addr) len {data with buf := data.buf ++ toBytes piece,size := size,args_max := args_max} = .ok data' ∧
        Holds start (items ++ [.logged piece (.mem addr len)]) data' := by
    have step := @Holds.stored start items data piece [] (.addr addr) (.mem addr len) _ size args_max holds ready rfl room slot spec
      (fun _ _ => rfl) (fun _ _ same => by cases same)
    simpa only [append_nil,Source.len] using step
  rw [te_log_msg_raw_arg,ready]
  show Alike _ (sourceOf files arg >>= _) _
  cases arg with
  | EOR => exact absurd rfl other
  | INT value len =>
    rw [sourceOf]
    show Alike _ _ (if _ then _ else _)
    by_cases known : len = 1 ∨ len = 2 ∨ len = 4 ∨ len = 8
    · rw [if_pos known,if_pos known]
      refine .ok ?_
      have text : (Item.logged piece (.int value len)).text = piece := by
        have none : (len-1)/TE_LOG_FIELD_MAX = 0 := Nat.div_eq_of_lt (by simp only [TE_LOG_FIELD_MAX,TE_LOG_RAW_EOR_LEN]; omega)
        rw [Item.text,repeated,Source.len,none,List.replicate_zero,List.flatten_nil,append_nil]
      have step := @Holds.snoc start items (.logged piece (.int value len)) data [.INT value len] size args_max [] holds
        ⟨by rw [text]; show (data.buf ++ toBytes piece).length ≤ size; rwa [length_append,toBytes_length],
          by show (data.args ++ [_]).length ≤ args_max; rwa [length_append]⟩ ?_ (fun _ _ _ => rfl)
      · rw [text] at step
        simp only [RawData.added,append_nil] at step
        exact step
      · intro contents _
        show Except.ok (twoBytes len ++ beBytes len value ++ []) = Except.ok ((chunks TE_LOG_FIELD_MAX (beBytes len value)).flatMap fieldBytes)
        rw [chunks_short (by rw [beBytes_length]; simp only [TE_LOG_FIELD_MAX,TE_LOG_RAW_EOR_LEN]; omega),flatMap_singleton,fieldBytes,
          beBytes_length,append_nil]
    · rw [if_neg known,if_neg known]
      exact .error _
  | MEM addr len =>
    obtain ⟨data',stored,holds'⟩ := memory addr len
    exact .of_eq rfl stored holds'
  | FILE name =>
    cases name with
    | none =>
      obtain ⟨data',stored,holds'⟩ := memory (literal "(NULL file name)") 16
      exact .of_eq rfl stored holds'
    | some base =>
      show Alike _ ((cString base >>= fun name => _) >>= _) (cString base >>= fun name => _)
      rw [bind_assoc]
      refine Alike.bind_same (cString base) fun name _ => ?_
      cases found : files name with
      | none =>
        obtain ⟨data',stored,holds'⟩ := memory base name.length
        exact .of_eq rfl stored holds'
      | some file =>
        have here : ∀ contents, Opened (data.opened ++ [file.content]) contents →
            (Saved.fd data.opened.length).source (data.args.foldl contentsBehind contents) file.st_size = .file file.content file.st_size := by
          intro contents open'
          have content := open' data.opened.length file.content (by rw [List.getElem?_append_right le_rfl,Nat.sub_self]; rfl)
          rw [Saved.source,holds.unread contents data.opened.length le_rfl,content]
        obtain ⟨data',stored,holds'⟩ := @Holds.stored start items data piece [file.content] (.fd data.opened.length) (.file file.content file.st_size) _ size args_max
          holds ready rfl room slot spec here (fun fd beyond same => by cases same; rw [length_singleton] at beyond; omega)
        exact .of_eq rfl stored holds'
end

section
variable {modifier : Option Char} {ap ap' : List VaArg} {s rest : CStr} {found : Conversion} {arg : MsgArg}

theorem skipArg_found (result : skipArg s ap = .ok (found,ap',rest)) : found ≠ .arg .EOR ∧ rest = s := by
  cases ap with
  | nil => cases result
  | cons arg ap =>
    cases result
    exact ⟨(by rintro ⟨⟩),rfl⟩
theorem intArg_found (result : intArg s ap = .ok (found,ap',rest)) : found ≠ .arg .EOR ∧ rest = s := by
  unfold intArg at result
  split at result
  · cases result
    exact ⟨(by rintro ⟨⟩),rfl⟩
  · cases result
/-- The end of the record is no argument, and a conversion takes a character at least. -/
theorem convert_found (result : convert modifier ap s = .ok (found,ap',rest)) : found ≠ .arg .EOR ∧ rest.length < s.length := by
  have shorter {c : Char} {s rest : CStr} (same : rest = s) : rest.length < (c :: s).length := by
    rw [same]
    exact lt_succ_self _
  unfold convert at result
  split at result
  · cases result
  · cases result
  · grind
  · split_ifs at result
    · exact (intArg_found result).imp_right shorter
    · split at result
      · rename_i memory _
        dsimp only at result
        cases chars : cString (memory.getD (literal "(null)")) with
        | error e =>
          rw [chars] at result
          cases result
        | ok taken =>
          rw [chars] at result
          cases result
          exact ⟨(by rintro ⟨⟩),shorter rfl⟩
      · cases result
    · exact (skipArg_found result).imp_right shorter
    · exact (skipArg_found result).imp_right shorter
    · cases result
      exact ⟨(by rintro ⟨⟩),shorter rfl⟩
    · cases result
      exact ⟨(by rintro ⟨⟩),shorter rfl⟩
theorem skipFlags_shorter (result : skipFlags s = .ok rest) : rest.length ≤ s.length := by
  induction s with
  | nil => cases result
  | cons c s ih =>
    rw [skipFlags] at result
    split_ifs at result
    · exact Nat.le_succ_of_le (ih result)
    · obtain rfl := ok.inj result
      exact le_rfl
theorem skipPrecision_shorter (s : CStr) : (skipPrecision s).length ≤ s.length := by
  unfold skipPrecision
  split
  · exact Nat.le_succ_of_le ((dropWhile_suffix _).length_le)
  · exact le_rfl
theorem lengthModifier_shorter (s : CStr) : (lengthModifier s).2.length ≤ s.length := by
  unfold lengthModifier
  split
  · exact Nat.le_succ_of_le (le_succ _)
  · exact le_succ _
  · exact Nat.le_succ_of_le (le_succ _)
  · exact le_succ _
  · split_ifs
    · exact le_succ _
    · exact le_rfl
  · exact le_rfl
theorem conversion_found (result : conversion ap s = .ok (found,ap',rest)) : found ≠ .arg .EOR ∧ rest.length < s.length := by
  rw [conversion] at result
  cases flagged : skipFlags s with
  | error e =>
    rw [flagged] at result
    cases result
  | ok behind =>
    rw [flagged] at result
    have converted : convert (lengthModifier (skipPrecision (behind.dropWhile isdigit))).1 ap
        (lengthModifier (skipPrecision (behind.dropWhile isdigit))).2 = .ok (found,ap',rest) := result
    obtain ⟨other,shorter⟩ := convert_found converted
    have first := skipFlags_shorter flagged
    have second := (dropWhile_suffix isdigit : behind.dropWhile isdigit <:+ behind).length_le
    have third := skipPrecision_shorter (behind.dropWhile isdigit)
    have last := lengthModifier_shorter (skipPrecision (behind.dropWhile isdigit))
    exact ⟨other,by omega⟩
end

section
variable {σ τ : Type} {out : MsgOut σ} {other : MsgOut τ} {R S : σ → τ → Prop} {fuel : Nat} {front fmt : CStr} {fmt_needed : Bool}
  {ap_start ap : List VaArg} {s : σ} {t : τ}

/-- A format without conversions is printed at once. -/
theorem vprintfLoop_plain (plain : '%' ∉ fmt) :
    vprintfLoop out (fmt.length+1) front fmt_needed ap_start ap fmt s = flush out (front ++ fmt ≠ []) (front ++ fmt) ap_start s >>= out.raw [] .EOR := by
  induction fmt generalizing front with
  | nil => rw [append_nil,length_nil,vprintfLoop]
  | cons c fmt ih => simp_all [Ne.symm,vprintfLoop]
/-- Two backends with related states. -/
theorem vprintfLoop_alike (prints : ∀ fmt ap s t, R s t → Alike R (out.fmt fmt ap s) (other.fmt fmt ap t))
    (logs : ∀ piece arg s t, '%' ∈ piece → arg ≠ .EOR → R s t → Alike R (out.raw piece arg s) (other.raw piece arg t))
    (ends : ∀ s t, R s t → Alike S (out.raw [] .EOR s) (other.raw [] .EOR t)) (related : R s t) :
    Alike S (vprintfLoop out fuel front fmt_needed ap_start ap fmt s) (vprintfLoop other fuel front fmt_needed ap_start ap fmt t) := by
  have flushed (needed : Bool) (front : CStr) (ap_start : List VaArg) {s : σ} {t : τ} (related : R s t) :
      Alike R (flush out needed front ap_start s) (flush other needed front ap_start t) := by
    cases needed with
    | true => exact prints _ _ _ _ related
    | false => exact .ok related
  induction fuel generalizing front fmt_needed ap_start ap fmt s t with
  | zero => exact .error _
  | succ fuel ih =>
    cases fmt with
    | nil => exact (flushed _ _ _ related).bind ends
    | cons c fmt =>
      rw [vprintfLoop,vprintfLoop]
      by_cases plain : c ≠ '%'
      · simp [plain,ih,related]
      · rw [if_neg plain,if_neg plain]
        refine Alike.bind_same _ fun taken converted => ?_
        obtain ⟨found,ap',rest⟩ := taken
        obtain ⟨arg,_⟩ := conversion_found converted
        cases found with
        | plain => exact ih related
        | printed => exact ih related
        | arg value =>
          refine (flushed _ _ _ related).bind fun s t related => ?_
          have spec : '%' ∈ (if fmt_needed = true then '%' :: fmt.take (fmt.length-rest.length) else front ++ '%' :: fmt.take (fmt.length-rest.length)) := by
            grind
          exact (logs _ _ _ _ spec (fun same => arg (by rw [same])) related).bind fun _ _ => ih
end

section
variable {vsnprintf : CStr → List VaArg → CStr} {files : List UInt8 → Option LogFile} {start : List UInt8} {size args_max : Nat}

/-- A record before any argument. -/
def headed (start : List UInt8) (size args_max : Nat) : RawData := ⟨start,size,[],args_max,0,[]⟩
def recordHeader (ts_sec ts_usec : BitVec 32) (level : BitVec 16) (log_id : BitVec 32) : List UInt8 :=
  beBytes 1 TE_LOG_VERSION ++ beBytes 4 ts_sec.toNat ++ beBytes 4 ts_usec.toNat ++ beBytes 2 level.toNat ++ beBytes 4 log_id.toNat
/-- The name of an entity or a user, as far as a field can hold it. -/
def nameBytes (name : Option (List UInt8)) : Except LogStop (List UInt8) :=
  (cString (name.getD (literal "(null)"))).map (·.take TE_LOG_FIELD_MAX)
def recordBytes (header entity user : List UInt8) (text : CStr) (fields : List (List UInt8)) : List UInt8 :=
  header ++ fieldBytes entity ++ fieldBytes user ++ twoBytes text.length ++ toBytes text ++ fields.flatMap fieldBytes ++ twoBytes NO_LENGTH

theorem put_headed (inside : start.length ≤ size) (bytes : List UInt8) {len : Nat} (length : bytes.length = len) :
    ∃ size', put bytes (ta_log_msg_raw_buf_check_len (headed start size args_max) len) = .ok (headed (start ++ bytes) size' args_max) ∧
      (start ++ bytes).length ≤ size' := by
  obtain ⟨size',grown,room⟩ := @check_len_room (headed start size args_max) inside len
  refine ⟨size',?_,by rw [length_append]; exact length ▸ room⟩
  rw [grown]
  exact put_room (length ▸ room)
theorem put_int_headed (inside : start.length ≤ size) (len value : Nat) :
    ∃ size', te_log_msg_raw_put_int len value (headed start size args_max) = .ok (headed (start ++ beBytes len value) size' args_max) ∧
      (start ++ beBytes len value).length ≤ size' := put_headed inside _ (beBytes_length len value)
theorem put_string_headed (inside : start.length ≤ size) (args_max : Nat) (str : Option (List UInt8)) :
    (∃ e, nameBytes str = .error e ∧ te_log_msg_raw_put_string str (headed start size args_max) = .error e) ∨
      ∃ name size', nameBytes str = .ok name ∧
        te_log_msg_raw_put_string str (headed start size args_max) = .ok (headed (start ++ fieldBytes name) size' args_max) ∧
        (start ++ fieldBytes name).length ≤ size' := by
  rw [te_log_msg_raw_put_string,nameBytes]
  cases chars : cString (str.getD (literal "(null)")) with
  | error e => exact .inl ⟨e,rfl,rfl⟩
  | ok taken =>
    have front : taken <+: str.getD (literal "(null)") := by
      rw [cString] at chars
      split_ifs at chars
      obtain rfl := ok.inj chars
      exact List.takeWhile_prefix _
    have most : (if TE_LOG_FIELD_MAX < taken.length then TE_LOG_FIELD_MAX else taken.length) = (taken.take TE_LOG_FIELD_MAX).length := by
      rw [length_take]
      split_ifs <;> omega
    have same : (str.getD (literal "(null)")).take (taken.take TE_LOG_FIELD_MAX).length = taken.take TE_LOG_FIELD_MAX := by
      have shorter := (List.take_prefix TE_LOG_FIELD_MAX taken).trans front
      exact (List.prefix_iff_eq_take.mp shorter).symm
    obtain ⟨size',put',room⟩ := @put_headed start size args_max inside (fieldBytes (taken.take TE_LOG_FIELD_MAX)) _ (fieldBytes_length _)
    refine .inr ⟨_,size',rfl,?_,room⟩
    show put (twoBytes (if _ then _ else _) ++ _) _ = _
    rw [most,same]
    exact put'
/-- The text's length is put, and the fields of the arguments with the mark behind them. -/
theorem sealed_bytes {pre : List UInt8} {items : List Item} {data : RawData} (holds : Holds (pre ++ fieldBytes []) items data)
    (room : (data.added [] [.EOR] size args_max).Room) :
    (putArgs (data.args ++ [.EOR]) (fun fd => (data.opened[fd]?).getD []) (ta_log_msg_raw_buf_check_len
        ⟨overwrite (data.buf ++ []) pre.length (twoBytes ((data.buf ++ []).length-(pre ++ fieldBytes []).length)),size,data.args ++ [.EOR],args_max,
          data.args_len+(2+0),data.opened⟩ (data.args_len+(2+0)))).map RawData.buf =
      (itemsFields items).map fun fields =>
        pre ++ twoBytes (itemsText items).length ++ toBytes (itemsText items) ++ fields.flatMap fieldBytes ++ twoBytes NO_LENGTH := by
  have text : data.buf = pre ++ (fieldBytes [] ++ toBytes (itemsText items)) := by rw [holds.buf,append_assoc]
  have length : (data.buf ++ []).length-(pre ++ fieldBytes []).length = (itemsText items).length := by
    rw [append_nil,holds.buf,length_append,Nat.add_sub_cancel_left,toBytes_length]
  have patched : overwrite (data.buf ++ []) pre.length (twoBytes (itemsText items).length) =
      pre ++ twoBytes (itemsText items).length ++ toBytes (itemsText items) := by
    have behind : (fieldBytes [] ++ toBytes (itemsText items)).drop 2 = toBytes (itemsText items) := rfl
    rw [overwrite,append_nil,text,take_left,twoBytes_length,List.drop_append,drop_of_length_le (by omega),Nat.add_sub_cancel_left,behind]
    rfl
  have inside : (pre ++ twoBytes (itemsText items).length ++ toBytes (itemsText items)).length ≤ size := by
    have whole := room.1
    have buf : (data.added [] [.EOR] size args_max).buf.length = data.buf.length := by
      show (data.buf ++ []).length = _
      rw [append_nil]
    have size' : (data.added [] [.EOR] size args_max).size = size := rfl
    rw [buf,text,size'] at whole
    simp only [length_append,twoBytes_length,fieldBytes_length,length_nil] at whole ⊢
    omega
  rw [length,patched]
  obtain ⟨size',grown,room'⟩ := @check_len_room
    ⟨pre ++ twoBytes (itemsText items).length ++ toBytes (itemsText items),size,data.args ++ [.EOR],args_max,data.args_len+(2+0),data.opened⟩ inside (data.args_len+(2+0))
  have lengths : ((data.args ++ [RawArg.EOR]).map fun arg => 2+arg.len).sum = data.args_len+(2+0) := by
    rw [map_append,List.sum_append,holds.args_len]
    rfl
  have opened : Opened data.opened fun fd => (data.opened[fd]?).getD [] := fun fd content here => by
    show (data.opened[fd]?).getD [] = content
    rw [here]
    rfl
  have all : written (data.args ++ [.EOR]) (fun fd => (data.opened[fd]?).getD []) =
      (itemsFields items).map fun fields => fields.flatMap fieldBytes ++ twoBytes NO_LENGTH := by
    rw [written_append,holds.fields _ opened]
    cases itemsFields items <;> rfl
  rw [grown,putArgs_written (by rw [lengths]; exact room'),all]
  cases itemsFields items with
  | error e => rfl
  | ok fields =>
    show Except.ok (_ ++ (_ ++ _)) = Except.ok _
    rw [← append_assoc]
/-- The backend's data behind the last argument. -/
def Sealed (start : List UInt8) (items : List Item) (data : RawData) : Prop :=
  ∃ before size args_max, Holds start items before ∧ data = before.added [] [.EOR] size args_max ∧ (before.added [] [.EOR] size args_max).Room

theorem vprintf_sealed (inside : start.length ≤ size) (args_max : Nat) (fmt : CStr) (ap : List VaArg) :
    Alike (Sealed start) (te_log_vprintf (collector vsnprintf files) (some fmt) ap [])
      (te_log_vprintf (te_log_msg_out_raw vsnprintf files) (some fmt) ap (headed start size args_max)) := by
  have empty : Holds start [] (headed start size args_max) :=
    ⟨(append_nil _).symm,⟨inside,Nat.zero_le _⟩,rfl,fun _ _ => rfl,fun _ _ _ => rfl⟩
  refine vprintfLoop_alike ?_ ?_ ?_ empty
  · intro fmt ap items data holds
    obtain ⟨data',printed,holds'⟩ := holds.printed fmt ap
    exact .of_eq rfl printed holds'
  · intro piece arg items data spec other holds
    exact holds.logged spec other
  · intro items data holds
    obtain ⟨size,args_max,prepared,ready,stored,room⟩ := prepare_store holds.room [] .EOR
    refine .of_eq (by show Except.ok (items ++ []) = _; rw [append_nil]) ?_ ⟨data,size,args_max,holds,rfl,room⟩
    show (te_log_msg_prepare_raw_args data [] >>= _) = _
    rw [ready,← stored]
    rfl
/-- What is written for a message: its names, the text that is emitted, and the fields of its arguments up to the mark. -/
theorem message_raw_va (vsnprintf : CStr → List VaArg → CStr) (files : List UInt8 → Option LogFile) (size args_max : Nat)
    (ts_sec ts_usec : BitVec 32) (level : BitVec 16) (log_id : BitVec 32) (entity user : Option (List UInt8)) (fmt : CStr) (ap : List VaArg) :
    (te_log_message_raw_va vsnprintf files size args_max ts_sec ts_usec level log_id entity user (some fmt) ap).map RawData.buf = (do
      let entity ← nameBytes entity
      let user ← nameBytes user
      let items ← te_log_vprintf (collector vsnprintf files) (some fmt) ap []
      let fields ← itemsFields items
      .ok (recordBytes (recordHeader ts_sec ts_usec level log_id) entity user (itemsText items) fields)) := by
  have ok_bind {α β : Type} (a : α) (f : α → Except LogStop β) : (Except.ok a >>= f) = f a := rfl
  obtain ⟨size₁,version,room₁⟩ := @put_int_headed [] size args_max (Nat.zero_le _) 1 TE_LOG_VERSION
  obtain ⟨size₂,seconds,room₂⟩ := @put_int_headed _ size₁ args_max room₁ 4 ts_sec.toNat
  obtain ⟨size₃,useconds,room₃⟩ := @put_int_headed _ size₂ args_max room₂ 4 ts_usec.toNat
  obtain ⟨size₄,levels,room₄⟩ := @put_int_headed _ size₃ args_max room₃ 2 level.toNat
  obtain ⟨size₅,ids,room₅⟩ := @put_int_headed _ size₄ args_max room₄ 4 log_id.toNat
  have start : [] ++ beBytes 1 TE_LOG_VERSION ++ beBytes 4 ts_sec.toNat ++ beBytes 4 ts_usec.toNat ++ beBytes 2 level.toNat ++
    beBytes 4 log_id.toNat = recordHeader ts_sec ts_usec level log_id := rfl
  rw [start] at ids room₅
  rw [te_log_message_raw_va]
  show Except.map _ (te_log_msg_raw_put_int 1 TE_LOG_VERSION (headed [] size args_max) >>= _) = _
  rw [version,ok_bind,seconds,ok_bind,useconds,ok_bind,levels,ok_bind,ids,ok_bind]
  obtain ⟨e,first,put⟩ | ⟨entity,size₆,first,put,room₆⟩ := put_string_headed room₅ args_max entity
  · rw [first,put]
    rfl
  rw [first,put,ok_bind,ok_bind]
  obtain ⟨e,second,put⟩ | ⟨user,size₇,second,put,room₇⟩ := put_string_headed room₆ args_max user
  · rw [second,put]
    rfl
  rw [second,put,ok_bind,ok_bind]
  have none : nameBytes (some (literal "")) = .ok [] := by decide
  obtain ⟨e,third,_⟩ | ⟨empty,size₈,third,put,room₈⟩ := put_string_headed room₇ args_max (some (literal ""))
  · rw [none] at third
    cases third
  rw [none] at third
  obtain rfl := ok.inj third
  dsimp only
  rw [put,ok_bind]
  obtain ⟨e,collected,printed⟩ | ⟨items,data,collected,printed,sealed⟩ := (@vprintf_sealed vsnprintf files _ size₈ room₈ args_max fmt ap).outcome
  · rw [collected,printed]
    rfl
  obtain ⟨before,size₉,args_max',holds,rfl,room⟩ := sealed
  have bytes := sealed_bytes holds room
  rw [collected,printed,ok_bind,ok_bind]
  refine bytes.trans ?_
  cases itemsFields items <;> rfl
end
end TestEnvironment.Tools.LogFmt
