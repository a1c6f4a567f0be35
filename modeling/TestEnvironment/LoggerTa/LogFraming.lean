import TestEnvironment.LoggerTa.RawMessages

/-!
The stream that `ta_log_get` returns, for a reader that follows the lengths in it. What
is returned for a message counts the whole format, what is written has the cleaned one.
-/
namespace TestEnvironment.LoggerTa
open Lib

section
variable {fmt : CStr} {inside : Bool}

/-- Whether a conversion is still going on behind a character of a format. -/
def stepConversion (inside : Bool) (c : Char) : Bool := if inside then !(isalpha c || c = '%') else c = '%'
/-- No width and no precision of a conversion is an argument. -/
def Starless (fmt : CStr) : Prop := ∀ before behind, fmt = before ++ '*' :: behind → before.foldl stepConversion false = false
/-- The same for the rest of a format, from inside a conversion or not. -/
def StarlessFrom (inside : Bool) (fmt : CStr) : Prop := ∀ before behind, fmt = before ++ '*' :: behind → before.foldl stepConversion inside = false

theorem starlessFrom_cons {c : Char} : StarlessFrom inside (c :: fmt) ↔ (c = '*' → inside = false) ∧ StarlessFrom (stepConversion inside c) fmt := by
  constructor
  · intro free
    refine ⟨?_,fun before behind split => free (c :: before) behind (congrArg (c :: ·) split)⟩
    rintro rfl
    exact free [] fmt rfl
  · rintro ⟨first,free⟩ before behind split
    cases before with
    | nil => exact first (cons.inj split).1
    | cons b before =>
      obtain ⟨rfl,rest⟩ := cons.inj split
      exact free before behind rest
theorem starlessFrom_nil : StarlessFrom inside [] := fun before behind split => by
  cases before <;> cases split
/-- Every character that `clear_fmt` leaves out is such an argument, or the point before it. -/
theorem clear_fmt_length_iff (inside : Bool) (fmt : CStr) : (clear_fmt inside fmt).length = fmt.length ↔ StarlessFrom inside fmt := by
  fun_induction clear_fmt inside fmt with
  | case1 => exact ⟨fun _ => starlessFrom_nil,fun _ => rfl⟩
  | case2 c fmt ih =>
    rw [length_cons,length_cons,Nat.add_right_cancel_iff,ih,starlessFrom_cons]
    exact (and_iff_right fun _ => rfl).symm
  | case3 c fmt last ih =>
    have other : c ≠ '*' := by
      rintro rfl
      cases last
    have step : stepConversion true c = false := by rw [stepConversion,if_pos rfl,last]; rfl
    rw [length_cons,length_cons,Nat.add_right_cancel_iff,ih,starlessFrom_cons,step]
    exact (and_iff_right fun same => absurd same other).symm
  | case4 fmt _ ih =>
    have shorter := clear_fmt_length true fmt
    refine ⟨fun same => ?_,fun free => ?_⟩
    · rw [length_cons] at same
      omega
    · cases (starlessFrom_cons.mp free).1 rfl
  | case5 fmt _ _ ih =>
    have shorter := clear_fmt_length true fmt
    refine ⟨fun same => ?_,fun free => ?_⟩
    · rw [length_cons,length_cons] at same
      omega
    · cases (starlessFrom_cons.mp (starlessFrom_cons.mp free).2).1 rfl
  | case6 c fmt _ going star ih =>
    have step : stepConversion true c = true := by
      rw [stepConversion,if_pos rfl,Bool.eq_false_iff.mpr going]
      rfl
    rw [length_cons,length_cons,Nat.add_right_cancel_iff,ih,starlessFrom_cons,step]
    exact (and_iff_right fun same => absurd same star).symm

end

section
variable {locks : Locks} {turns : Nat → Locks} {lb : LgrRb} {length buffer buf_length fuel turn log_length n : Nat} {buf : Nat → UInt8} {got : Got}

/-- The oldest message, as it is read. -/
def oldest (lb : LgrRb) : LgrMessHeader := (LGR_SET_MARK_FIELD lb lb.head 1).elements lb.head
/-- The ring behind the oldest message. -/
def withoutOldest (lb : LgrRb) : LgrRb := lgr_rb_remove_oldest (LGR_SET_MARK_FIELD (LGR_SET_MARK_FIELD lb lb.head 1) lb.head 0)
/-- What is counted for the oldest message, if there is one and it can be handed over in `length` bytes. -/
def fits (locks : Locks) (lb : LgrRb) (length : Nat) : Option Nat :=
  if length < LGR_RB_ELEMENT_LEN ∨ lb.unused = LGR_TOTAL_RB_EL ∨ locks ≠ ⟨true,true,true⟩ then none
  else counted length 0 (messageLengths lb.memory (oldest lb))
/-- The messages of the ring that a transfer buffer has room for, one behind the other, while the lock works. -/
def handed (turns : Nat → Locks) : Nat → Nat → LgrRb → Nat → List LgrMessHeader
  | 0, _, _, _ => []
  | fuel+1, turn, lb, length =>
    match fits (turns turn) lb length with
    | none => []
    | some n => oldest lb :: handed turns fuel (turn+1) (withoutOldest lb) (length-n)

/-- What is counted for a message with short fields that has been written. -/
def rawSize (memory : RbMemory) (header : LgrMessHeader) : Nat :=
  (raw memory header).bytes.length+(header.fmt.length-(clear_fmt false header.fmt).length)

theorem withoutOldest_memory (lb : LgrRb) : (withoutOldest lb).memory = lb.memory := by
  rw [withoutOldest,lgr_rb_remove_oldest]
  split_ifs <;> rfl
theorem counted_end {mess_length k : Nat} {lengths : List FieldLength} (result : counted length mess_length (lengths ++ [.size k]) = some n) :
    k ≤ n ∧ n ≤ length := by
  rw [counted_append] at result
  obtain ⟨before,-,result⟩ := of_bind result
  rw [counted] at result
  split_ifs at result with room
  obtain rfl := some.inj result
  exact ⟨Nat.le_add_left k before,Nat.le_of_not_lt room⟩
theorem fits_inside (result : fits locks lb length = some n) : 0 < n ∧ n ≤ length := by
  rw [fits] at result
  split_ifs at result
  have := @counted_end length n 0 sizeof_te_log_nfl (_ :: _ :: _ :: _) result
  rw [sizeof_te_log_nfl] at this
  omega
/-- A call hands the oldest message over if it fits, and nothing otherwise. -/
theorem log_get_message_spec (small : length < 2^32) (result : log_get_message locks lb length buffer buf = some got) :
    (∀ i < buffer, got.buf i = buf i) ∧
    ((fits locks lb length = none ∧ got.ret = 0) ∨
      fits locks lb length = some got.ret ∧ got.lb = withoutOldest lb ∧
      ((oldest lb).fmt.length < 2^31 ∧ (conversions ((oldest lb).fmt.length+1) (oldest lb).fmt).length ≤ TA_LOG_ARGS_MAX) ∧
      window got.buf buffer (written lb.memory (oldest lb)).bytes.length = (written lb.memory (oldest lb)).bytes) := by
  have broken : locks ≠ ⟨true,true,true⟩ → fits locks lb length = none := fun broken => if_pos (.inr (.inr broken))
  rw [log_get_message] at result
  by_cases short : length < LGR_RB_ELEMENT_LEN
  · rw [if_pos short] at result
    obtain rfl := some.inj result
    exact ⟨fun _ _ => rfl,.inl ⟨if_pos (.inl short),rfl⟩⟩
  rw [if_neg short] at result
  by_cases lock : locks.lock = false
  · grind
  rw [if_neg lock] at result
  by_cases empty : lb.unused = LGR_TOTAL_RB_EL
  · rw [if_pos empty] at result
    obtain rfl := some.inj result
    exact ⟨fun _ _ => rfl,.inl ⟨if_pos (.inr (.inl empty)),rfl⟩⟩
  rw [if_neg empty] at result
  by_cases outside : LGR_TOTAL_RB_EL ≤ lb.head
  · rw [if_pos outside] at result
    cases result
  rw [if_neg outside] at result
  by_cases unlock : locks.unlock = false
  · grind
  simp only [if_neg unlock] at result
  have written := @putMessage_writes lb.memory (oldest lb) length (buffer+length) ⟨buf,buffer,0⟩ small
  have inside := fun w => @putMessage_inside lb.memory (oldest lb) length (buffer+length) ⟨buf,buffer,0⟩ w
  replace result : finishMessage locks (LGR_SET_MARK_FIELD lb lb.head 1)
    (putMessage lb.memory (oldest lb) length (buffer+length) ⟨buf,buffer,0⟩) = some got := result
  match putMessage lb.memory (oldest lb) length (buffer+length) ⟨buf,buffer,0⟩, written, inside, result with
  | .error (.small buf'), ⟨kept,fails⟩, _, result =>
    obtain rfl := some.inj result
    refine ⟨kept,.inl ⟨?_,rfl⟩⟩
    rw [fits]
    split_ifs
    · rfl
    · exact fails
  | .ok w, ⟨_,kept,there,count⟩, inside, result =>
    rw [finishMessage] at result
    by_cases relock : locks.relock = false
    · grind
    · rw [if_neg relock] at result
      obtain rfl := some.inj result
      refine ⟨kept,.inr ⟨?_,rfl,inside w rfl,there⟩⟩
      rw [fits,if_neg (not_or.mpr ⟨short,not_or.mpr ⟨empty,not_not_intro ?_⟩⟩)]
      · exact count
      · cases locks
        simp_all

theorem fits_size (short : Short lb.memory (oldest lb)) (format : (oldest lb).fmt.length < 2^31)
    (few : (conversions ((oldest lb).fmt.length+1) (oldest lb).fmt).length ≤ TA_LOG_ARGS_MAX) (fitting : fits locks lb length = some n) :
    n = rawSize lb.memory (oldest lb) := by
  rw [fits] at fitting
  split_ifs at fitting
  have total := messageLengths_total short (format.trans (by decide))
  have := raw_small short few
  rw [← Nat.zero_add (rawSize _ _),rawSize,← total]
  exact counted_total fitting (by omega)
theorem short_written {memory : RbMemory} {header : LgrMessHeader} (short : Short memory header) : written memory header = raw memory header := by
  have name : (user memory header).1.length < TE_LOG_RAW_EOR_LEN := short _ mem_cons_self
  rw [TE_LOG_RAW_EOR_LEN] at name
  rw [written,mod_eq_of_lt (by omega),take_length]
  rfl
theorem starless_size {memory : RbMemory} {header : LgrMessHeader} (starless : Starless header.fmt) :
    rawSize memory header = (raw memory header).bytes.length := by
  rw [rawSize,(clear_fmt_length_iff false header.fmt).mpr starless,Nat.sub_self,Nat.add_zero]
theorem handed_none (nothing : fits (turns turn) lb length = none) : handed turns (fuel+1) turn lb length = [] := by
  rw [handed,nothing]
theorem handed_some (fitting : fits (turns turn) lb length = some n) :
    handed turns (fuel+1) turn lb length = oldest lb :: handed turns fuel (turn+1) (withoutOldest lb) (length-n) := by
  rw [handed,fitting]
/-- The transfer buffer keeps what is before `log_length`, and behind that there are
    messages, each with the bytes that are counted for it. -/
structure Streamed (memory : RbMemory) (buf : Nat → UInt8) (log_length : Nat) (messages : List LgrMessHeader) (got : Got) : Prop where
  kept : ∀ i < log_length, got.buf i = buf i
  ret : got.ret = log_length+(messages.map (rawSize memory)).sum
  bytes : (∀ h ∈ messages, Starless h.fmt) → window got.buf log_length (got.ret-log_length) = (messages.map (raw memory)).flatMap Record.bytes

theorem Streamed.nil {lb' : LgrRb} {buf' : Nat → UInt8} (kept : ∀ i < log_length, buf' i = buf i) (result : some ⟨log_length,lb',buf'⟩ = some got) :
    Streamed lb.memory buf log_length [] got := by
  obtain rfl := some.inj result
  exact ⟨kept,rfl,fun _ => by rw [Nat.sub_self]; rfl⟩
theorem Streamed.cons {memory : RbMemory} {h : LgrMessHeader} {messages : List LgrMessHeader} {buf' : Nat → UInt8}
    (kept : ∀ i < log_length, buf' i = buf i) (there : window buf' log_length (raw memory h).bytes.length = (raw memory h).bytes)
    (rest : Streamed memory buf' (log_length+rawSize memory h) messages got) : Streamed memory buf log_length (h :: messages) got where
  kept i before := (rest.kept i (Nat.lt_add_right _ before)).trans (kept i before)
  ret := by rw [rest.ret,map_cons,sum_cons,Nat.add_assoc]
  bytes starless := by
    obtain ⟨first,starless⟩ := forall_mem_cons.mp starless
    have bytes := rest.bytes starless
    have size := @starless_size memory h first
    have ret := rest.ret
    rw [size] at bytes ret
    have cut : got.ret-log_length = (raw memory h).bytes.length+(got.ret-(log_length+(raw memory h).bytes.length)) := by omega
    rw [cut,window_append,bytes,window_congr fun i inside => rest.kept _ (by omega),there,map_cons,flatMap_cons]
/-- What the loop leaves, when no message that is handed over has a long field. -/
theorem getMessages_spec (small : buf_length < 2^32) (result : getMessages turns buf_length fuel turn lb buf log_length = some got)
    (short : ∀ h ∈ handed turns fuel turn lb (buf_length-log_length), Short lb.memory h) :
    Streamed lb.memory buf log_length (handed turns fuel turn lb (buf_length-log_length)) got := by
  induction fuel generalizing turn lb buf log_length with
  | zero => exact Streamed.nil (fun _ _ => rfl) result
  | succ fuel ih =>
    rw [getMessages] at result
    by_cases empty : lb.unused = LGR_TOTAL_RB_EL
    · rw [if_pos empty] at result
      rw [handed_none (if_pos (.inr (.inl empty)))]
      exact Streamed.nil (fun _ _ => rfl) result
    rw [if_neg empty] at result
    by_cases full : buf_length-log_length = 0
    · rw [if_pos full] at result
      rw [handed_none (if_pos (.inl (by rw [full]; decide)))]
      exact Streamed.nil (fun _ _ => rfl) result
    rw [if_neg full] at result
    match message : log_get_message (turns turn) lb (buf_length-log_length) log_length buf, result with
    | some got', result =>
      obtain ⟨kept,⟨nothing,zero⟩ | ⟨fitting,behind,⟨format,few⟩,there⟩⟩ := log_get_message_spec (by omega) message
      · simp only [if_pos zero] at result
        rw [handed_none nothing]
        exact Streamed.nil kept result
      · simp only [if_neg (ne_of_gt (fits_inside fitting).1)] at result
        rw [handed_some fitting,Nat.sub_sub] at short ⊢
        obtain ⟨first,short⟩ := forall_mem_cons.mp short
        rw [behind] at result
        have rest := ih result (by rwa [withoutOldest_memory])
        rw [withoutOldest_memory] at rest
        rw [short_written first] at there
        rw [fits_size first format few fitting] at rest ⊢
        exact rest.cons kept there

end

section
variable {turns : Nat → Locks} {lb : LgrRb} {buf_length : UInt32} {transfer_buf : Nat → UInt8} {got : Got} {memory : RbMemory}

/-- `sizeof(te_log_seqno)+TE_LOG_MSG_COMMON_HDR_SZ`. -/
def HEADER_SIZE : Nat := 4+TE_LOG_MSG_COMMON_HDR_SZ
/-- The messages that a call hands over. -/
def handedOver (turns : Nat → Locks) (lb : LgrRb) (buf_length : UInt32) : List LgrMessHeader :=
  handed turns (buf_length.toNat+1) 0 lb buf_length.toNat

theorem readable_iff {h : LgrMessHeader} : (raw memory h).Readable HEADER_SIZE ↔ Short memory h := and_iff_right rfl
theorem sizes_sum (messages : List LgrMessHeader) : (messages.map (rawSize memory)).sum =
    ((messages.map (raw memory)).flatMap Record.bytes).length+(messages.map fun h => h.fmt.length-(clear_fmt false h.fmt).length).sum := by
  induction messages with
  | nil => rfl
  | cons h messages ih => grind [rawSize]
/-- What is counted is what is written only if no format has lost anything. -/
theorem sizes_agree {messages : List LgrMessHeader}
    (same : (messages.map (rawSize memory)).sum = ((messages.map (raw memory)).flatMap Record.bytes).length) : ∀ h ∈ messages, Starless h.fmt := by
  have gaps : (messages.map fun h => h.fmt.length-(clear_fmt false h.fmt).length).sum = 0 := by
    have := @sizes_sum memory messages
    omega
  intro h member
  have gap := List.sum_eq_zero_iff_forall_eq_nat.mp gaps _ (mem_map_of_mem member)
  have shorter := clear_fmt_length false h.fmt
  exact (clear_fmt_length_iff false h.fmt).mp (by omega)
/-- The bytes that `ta_log_get` returns are the raw messages of the messages that it hands over, one behind
    the other, exactly when no format of them has a width or a precision as an argument and none of
    their fields is so long that its length is that of the end of a message, or cut off. -/
theorem ta_log_get_framing (result : ta_log_get turns lb buf_length transfer_buf = some got) :
    readAll HEADER_SIZE (window got.buf 0 got.ret) = some ((handedOver turns lb buf_length).map (raw lb.memory)) ↔
    ∀ h ∈ handedOver turns lb buf_length, Starless h.fmt ∧ Short lb.memory h := by
  have spec := getMessages_spec buf_length.toNat_lt result
  rw [Nat.sub_zero] at spec
  rw [readAll_iff,List.forall_mem_map]
  constructor
  · rintro ⟨same,readable⟩
    have short := fun h member => readable_iff.mp (readable h member)
    have streamed := spec short
    have ret := streamed.ret
    have length := congrArg List.length same
    rw [window_length] at length
    have starless := sizes_agree (by rw [← length,ret,Nat.zero_add]; rfl)
    exact fun h member => ⟨starless h member,short h member⟩
  · intro good
    have streamed := spec fun h member => (good h member).2
    refine ⟨?_,fun h member => readable_iff.mpr (good h member).2⟩
    have bytes := streamed.bytes fun h member => (good h member).1
    exact bytes

/-- Nothing goes wrong with the lock. -/
def quiet : Nat → Locks := fun _ => ⟨true,true,true⟩
/-- A ring with one message of the user `u`, with a format whose arguments are five. -/
def oneMessage (fmt : CStr) : LgrRb :=
  ⟨0,LGR_TOTAL_RB_EL-1,fun _ => ⟨false,1,1,0,0,0,0,['u'],fmt,fun _ => 5⟩,⟨0,fun _ => 0⟩⟩

theorem ta_log_get_framing_plain : ∃ got, ta_log_get quiet (oneMessage "%5d".toList) 1000 (fun _ => 0) = some got ∧
    (readAll HEADER_SIZE (window got.buf 0 got.ret) = some ((handedOver quiet (oneMessage "%5d".toList) 1000).map (raw ⟨0,fun _ => 0⟩)) ↔
      ∀ h ∈ handedOver quiet (oneMessage "%5d".toList) 1000, Starless h.fmt ∧ Short ⟨0,fun _ => 0⟩ h) := by
  obtain ⟨got,result⟩ : ∃ got, ta_log_get quiet (oneMessage "%5d".toList) 1000 (fun _ => 0) = some got :=
    isSome_iff_exists.mp (by decide +kernel)
  exact ⟨got,result,ta_log_get_framing result⟩
/-- The width of `%*d` is counted and not written: a byte is left behind the message. -/
theorem ta_log_get_unframed : (ta_log_get quiet (oneMessage "%*d".toList) 1000 (fun _ => 0)).map
    (fun got => (got.ret,readAll HEADER_SIZE (window got.buf 0 got.ret))) = some (31,none) := by decide +kernel

end

end TestEnvironment.LoggerTa
