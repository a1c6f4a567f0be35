import TestEnvironment.LoggerTa.LogMessage
import TestEnvironment.Tools.LogFmtEnds

/-!
Where the loggers of an agent leave a format: in flags, a width or a precision at its end, and behind a `T`, as long
as there is room for the arguments before.
-/
namespace TestEnvironment.LoggerTa
open Lib

section
variable {fs : CStr}

/-- The text from the conversion character on. -/
def behindWidth (fs : CStr) : CStr :=
  let width := (fs.dropWhile (· ∈ skip_flags)).dropWhile (· ∈ skip_width)
  if width.head? = some '.' then width.tail.dropWhile (· ∈ skip_width) else width
/-- A conversion that the format ends in, with the cost of a `T`. -/
def agentFails (last : Nat) (s : CStr) (cost : Nat) : Prop :=
  s.head? ≠ some '%' ∧ (behindWidth s = [] ∧ cost = 0 ∨ behindWidth s = ['T'] ∧ cost = last)
def conversionPasses (cost : Option Conversion → Nat) (s rest : CStr) (n : Nat) : Prop :=
  s.head? = some '%' ∧ rest = s.tail ∧ n = 0 ∨
  s.head? ≠ some '%' ∧ ∃ c fs, behindWidth s = c :: fs ∧ (conversionOf c fs).1 ≠ some .beyond ∧ rest = (conversionOf c fs).2 ∧ n = cost (conversionOf c fs).1
/-- Arguments of a message for a conversion: even for one that is not known. -/
def messageArgs (found : Option Conversion) : Nat := if found = some .dump then 2 else 1
def getArgs (found : Option Conversion) : Nat := (found.map Conversion.argsNumber).getD 0

theorem skipAll_eq (skip fs : CStr) : skipAll skip fs = if fs.dropWhile (· ∈ skip) = [] then none else some (fs.dropWhile (· ∈ skip)) := by
  induction fs with
  | nil => rfl
  | cons c fs ih =>
    rw [skipAll,List.dropWhile_cons]
    by_cases skipped : c ∈ skip
    · rw [if_pos skipped,if_pos (decide_eq_true skipped),ih]
    · rw [if_neg skipped,decide_eq_false skipped]
      rfl
theorem conversionChar_eq (fs : CStr) : conversionChar fs = if behindWidth fs = [] then none else some (behindWidth fs) := by
  rw [conversionChar,behindWidth,skipAll_eq]
  by_cases flags : fs.dropWhile (· ∈ skip_flags) = []
  · rw [if_pos flags,flags]
    rfl
  · rw [if_neg flags]
    show (skipAll skip_width _ >>= _) = _
    rw [skipAll_eq]
    cases width : (fs.dropWhile (· ∈ skip_flags)).dropWhile (· ∈ skip_width) with
    | nil => rfl
    | cons c rest =>
      rw [if_neg (cons_ne_nil _ _)]
      show skipAll skip_width (if (c :: rest).head? = some '.' then rest else c :: rest) = _
      have other : c ∉ skip_width := by
        have stays : (fs.dropWhile (· ∈ skip_flags)).dropWhile (· ∈ skip_width) ≠ [] := by
          rw [width]
          exact cons_ne_nil _ _
        have first := List.head_dropWhile_not (fun c => decide (c ∈ skip_width)) stays
        simp only [width,List.head_cons,decide_eq_false_iff_not] at first
        exact first
      rw [head?_cons]
      by_cases point : some c = some '.'
      · rw [if_pos point,if_pos point,skipAll_eq]
        rfl
      · rw [if_neg point,if_neg point,skipAll_eq,List.dropWhile_cons,decide_eq_false other]
        rfl
end

variable {val : UInt64}

section
variable {memory : RbMemory} {header : LgrMessHeader} {length last argn fuel n : Nat} {w w' : Writer} {fmt : CStr} {front rest : List Conversion}
  {c : Conversion}

/-- The scan of a format ends in any case, and a message that is taken from the ring has its format read only up to its end, whatever
the arguments and the transfer buffer are. -/
def GetEnds (fmt : CStr) : Prop :=
  (∀ fuel, fmt.length < fuel → conversions fuel fmt = conversions (fmt.length+1) fmt) ∧
  ∀ memory header length last argn w, header.fmt = fmt →
    ¬ ∃ front rest w', conversions (fmt.length+1) fmt = front ++ .beyond :: rest ∧ putArgs memory header length last front argn w = .ok w'

theorem behindWidth_length (fs : CStr) : (behindWidth fs).length ≤ fs.length := by
  have result := conversionChar_eq fs
  split_ifs at result with none
  · rw [none]
    exact Nat.zero_le _
  · exact conversionChar_length result
theorem conversionOf_beyond {c : Char} {fs : CStr} : (conversionOf c fs).1 = some .beyond ↔ c = 'T' ∧ fs = [] := by
  rw [conversionOf.eq_def]
  split <;> simp_all
theorem conversions_plain {fmt : CStr} {c : Char} (plain : c ≠ '%') : conversions (fuel+1) (c :: fmt) = conversions fuel fmt := by
  rw [conversions]
  exact if_pos plain
theorem conversions_percent {fmt : CStr} (percent : fmt.head? = some '%') : conversions (fuel+1) ('%' :: fmt) = conversions fuel fmt.tail := by
  rw [conversions]
  exact if_pos percent
theorem conversions_cut {fmt : CStr} (other : fmt.head? ≠ some '%') (cut : behindWidth fmt = []) : conversions (fuel+1) ('%' :: fmt) = [.beyond] := by
  have char := conversionChar_eq fmt
  rw [if_pos cut] at char
  rw [conversions]
  simp only [ne_eq,not_true_eq_false,if_false,if_neg other,char]
theorem conversions_found {fmt fs : CStr} {c : Char} (other : fmt.head? ≠ some '%') (found : behindWidth fmt = c :: fs) :
    conversions (fuel+1) ('%' :: fmt) = (conversionOf c fs).1.toList ++ conversions fuel (conversionOf c fs).2 := by
  have char := conversionChar_eq fmt
  rw [if_neg (by rw [found]; exact cons_ne_nil _ _),found] at char
  rw [conversions]
  simp only [ne_eq,not_true_eq_false,if_false,if_neg other,char]
theorem beyond_cut (enough : fmt.length < fuel) (scanned : conversions fuel fmt = front ++ .beyond :: rest) :
    CutOff (agentFails 0) (conversionPasses getArgs) (front.map Conversion.argsNumber).sum fmt := by
  induction fuel generalizing fmt front with
  | zero => exact absurd enough (Nat.not_lt_zero _)
  | succ fuel ih =>
    cases fmt with
    | nil =>
      rw [conversions] at scanned
      exact absurd scanned (by simp)
    | cons c fmt =>
      have shorter : fmt.length < fuel := lt_of_succ_lt_succ enough
      have alone (list : [Conversion.beyond] = front ++ .beyond :: rest) : front = [] := by
        cases front with
        | nil => rfl
        | cons c front =>
          have lengths := congrArg List.length list
          simp only [length_cons,length_append,length_nil] at lengths
          omega
      by_cases plain : c ≠ '%'
      · rw [conversions_plain plain] at scanned
        exact .text plain (ih shorter scanned)
      · obtain rfl := not_not.mp plain
        by_cases percent : fmt.head? = some '%'
        · rw [conversions_percent percent] at scanned
          have later := ih (lt_of_le_of_lt (fmt.length_tail ▸ Nat.sub_le _ 1) shorter) scanned
          rw [← Nat.zero_add (front.map Conversion.argsNumber).sum]
          exact .behind (.inl ⟨percent,rfl,rfl⟩) later
        · cases width : behindWidth fmt with
          | nil =>
            rw [conversions_cut percent width] at scanned
            rw [alone scanned]
            exact .here ⟨percent,.inl ⟨width,rfl⟩⟩
          | cons c fs =>
            have less := behindWidth_length fmt
            have less' := conversionOf_length c fs
            rw [width,length_cons] at less
            rw [conversions_found percent width] at scanned
            cases found : (conversionOf c fs).1 with
            | none =>
              rw [found] at scanned
              have later := ih (by omega) scanned
              rw [← Nat.zero_add (front.map Conversion.argsNumber).sum]
              exact .behind (.inr ⟨percent,c,fs,width,by simp [found],rfl,by rw [found]; rfl⟩) later
            | some conversion =>
              rw [found] at scanned
              by_cases last : conversion = .beyond
              · subst last
                obtain ⟨rfl,rfl⟩ := conversionOf_beyond.mp found
                have none : conversions fuel (conversionOf 'T' []).2 = [] := by cases fuel <;> rfl
                rw [none] at scanned
                rw [alone scanned]
                exact .here ⟨percent,.inr ⟨width,rfl⟩⟩
              · cases front with
                | nil => exact absurd (cons.inj scanned).1 last
                | cons first front =>
                  obtain ⟨rfl,behind⟩ := cons.inj scanned
                  rw [map_cons,sum_cons]
                  exact .behind (.inr ⟨percent,c,fs,width,by rw [found]; exact fun same => last (some.inj same),rfl,by rw [found]; rfl⟩)
                    (ih (by omega) behind)
theorem cut_beyond (cut : CutOff (agentFails 0) (conversionPasses getArgs) n fmt) (enough : fmt.length < fuel) :
    ∃ front, conversions fuel fmt = front ++ [.beyond] ∧ (front.map Conversion.argsNumber).sum = n ∧ .beyond ∉ front := by
  induction cut generalizing fuel with
  | @here cost s fails =>
    obtain ⟨fuel,rfl⟩ := succ_of_lt enough
    obtain ⟨percent,⟨width,rfl⟩ | ⟨width,rfl⟩⟩ := fails
    · exact ⟨[],conversions_cut percent width,rfl,not_mem_nil⟩
    · refine ⟨[],(conversions_found percent width).trans ?_,rfl,not_mem_nil⟩
      cases fuel <;> rfl
  | text plain later ih =>
    obtain ⟨fuel,rfl⟩ := succ_of_lt enough
    rw [conversions_plain plain]
    exact ih (lt_of_succ_lt_succ enough)
  | @behind n cost s rest passed later ih =>
    obtain ⟨fuel,rfl⟩ := succ_of_lt enough
    have shorter : s.length < fuel := lt_of_succ_lt_succ enough
    obtain ⟨percent,rfl,rfl⟩ | ⟨percent,c,fs,width,inside,rfl,rfl⟩ := passed
    · rw [conversions_percent percent,Nat.zero_add]
      exact ih (lt_of_le_of_lt (s.length_tail ▸ Nat.sub_le _ 1) shorter)
    · have less := behindWidth_length s
      have less' := conversionOf_length c fs
      rw [width,length_cons] at less
      obtain ⟨front,scanned,cost,no_beyond⟩ := @ih fuel (by omega)
      refine ⟨(conversionOf c fs).1.toList ++ front,?_,?_,?_⟩
      · rw [conversions_found percent width,scanned,append_assoc]
      · rw [map_append,List.sum_append,cost]
        cases (conversionOf c fs).1 <;> rfl
      · rw [mem_append,Option.mem_toList]
        exact fun member => member.elim inside no_beyond
variable {ε α β : Type}

theorem ok_of_bind {x : Except ε α} {f : α → Except ε β} {b : β} (result : x >>= f = .ok b) : ∃ a, x = .ok a ∧ f a = .ok b := by
  cases x with
  | error e => cases result
  | ok a => exact ⟨a,rfl,result⟩
theorem error_of_bind {x : Except ε α} {f : α → Except ε β} {e : ε} (result : x >>= f = .error e) :
    x = .error e ∨ ∃ a, x = .ok a ∧ f a = .error e := by
  cases x with
  | error e' => exact .inl (congrArg _ (Except.error.inj result))
  | ok a => exact .inr ⟨a,rfl,result⟩
theorem getArg_inside (got : LGR_GET_ARG header argn = .ok val) : argn < TA_LOG_ARGS_MAX := by
  rw [LGR_GET_ARG] at got
  split_ifs at got with inside
  exact inside
theorem putArg_limit (result : putArg memory header length last argn c w = .ok w') : argn+c.argsNumber ≤ TA_LOG_ARGS_MAX := by
  cases c with
  | beyond => cases result
  | string =>
    obtain ⟨_,got,_⟩ := ok_of_bind result
    exact getArg_inside got
  | dump | number | pointer | char =>
    obtain ⟨_,_,result⟩ := ok_of_bind result
    obtain ⟨_,got,_⟩ := ok_of_bind result
    exact getArg_inside got
theorem putArgs_limit (result : putArgs memory header length last front argn w = .ok w') :
    front = [] ∨ argn+(front.map Conversion.argsNumber).sum ≤ TA_LOG_ARGS_MAX := by
  induction front generalizing argn w with
  | nil => exact .inl rfl
  | cons c front ih =>
    obtain ⟨w'',first,later⟩ := ok_of_bind result
    have here := putArg_limit first
    refine .inr ?_
    rw [map_cons,sum_cons]
    obtain rfl | rest := ih later
    · exact here
    · omega
/-- Where the arguments are zero and there is room enough, every conversion is written. -/
theorem zero_arg (zero : ∀ i, header.args i = 0) (inside : argn+c.argsNumber ≤ TA_LOG_ARGS_MAX) (known : c ≠ .beyond)
    (room : w.mess_length+10 ≤ length) (room' : w.tmp_buf+10 ≤ last) :
    ∃ w', putArg memory header length last argn c w = .ok w' ∧ w'.mess_length ≤ w.mess_length+10 ∧ w'.tmp_buf ≤ w.tmp_buf+10 := by
  have check (n : Nat) (small : n ≤ 10) : LGR_CHECK_LENGTH length (.size n) w = .ok {w with mess_length := w.mess_length+n} := by
    rw [LGR_CHECK_LENGTH]
    exact if_neg (by show ¬ length < w.mess_length+n; omega)
  have get {i : Nat} (less : i < TA_LOG_ARGS_MAX) : LGR_GET_ARG header i = .ok 0 := by
    rw [LGR_GET_ARG,dif_pos less,zero]
  have puts (bytes : List UInt8) {w : Writer} (fits : w.tmp_buf+bytes.length ≤ last) :
      put last bytes w = .ok {w with buf := place w.buf w.tmp_buf bytes, tmp_buf := w.tmp_buf+bytes.length} := if_neg (not_lt.mpr fits)
  have field (bytes : List UInt8) {w : Writer} (fits : w.tmp_buf+2+bytes.length ≤ last) :
      ∃ buf, putField last bytes w = .ok {w with buf := buf, tmp_buf := w.tmp_buf+2+bytes.length} := by
    rw [putField,puts (twoBytes bytes.length) (by rw [twoBytes_length]; omega)]
    exact ⟨_,puts bytes (by show w.tmp_buf+2+bytes.length ≤ last; exact fits)⟩
  -- a field of so many bytes behind its length
  have number {bytes : List UInt8} {n : Nat} (size : bytes.length = n) (small : 2+n ≤ 10) :
      ∃ w', (LGR_CHECK_LENGTH length (.size (sizeof_te_log_nfl+n)) w >>= fun w => putField last bytes w) = .ok w' ∧
        w'.mess_length ≤ w.mess_length+10 ∧ w'.tmp_buf ≤ w.tmp_buf+10 := by
    obtain ⟨buf,written⟩ := @field bytes {w with mess_length := w.mess_length+(sizeof_te_log_nfl+n)} (by show w.tmp_buf+2+bytes.length ≤ last; omega)
    rw [check (sizeof_te_log_nfl+n) small]
    exact ⟨_,written,by show w.mess_length+(2+n) ≤ _; omega,by show w.tmp_buf+2+bytes.length ≤ _; omega⟩
  cases c with
  | beyond => exact absurd rfl known
  | number =>
    obtain ⟨w',written,bounds⟩ := @number (fourBytes (0 : UInt64).toUInt32) 4 rfl (by decide)
    refine ⟨w',?_,bounds⟩
    rw [putArg,get inside]
    exact written
  | pointer =>
    obtain ⟨w',written,bounds⟩ := @number (fourBytes ((0 : UInt64) >>> 32).toUInt32 ++ fourBytes (0 : UInt64).toUInt32) 8 rfl (by decide)
    refine ⟨w',?_,bounds⟩
    rw [putArg,get inside]
    exact written
  | char =>
    obtain ⟨w',written,bounds⟩ := @number [(0 : UInt64).toUInt8] 1 rfl (by decide)
    refine ⟨w',?_,bounds⟩
    rw [putArg,get inside]
    exact written
  | string =>
    rw [putArg,get inside]
    show ∃ w', putString memory length last 0 w = .ok w' ∧ _
    rw [putString,check _ (by decide)]
    show ∃ w', (put last (twoBytes 0) _ >>= _) = _ ∧ _
    rw [puts (twoBytes 0) (by show w.tmp_buf+2 ≤ last; omega)]
    exact ⟨_,rfl,by show w.mess_length+2 ≤ _; omega,by show w.tmp_buf+2 ≤ _; omega⟩
  | dump =>
    rw [putArg,get (Nat.lt_of_succ_lt (inside : argn+2 ≤ _)),get (inside : argn+2 ≤ _)]
    show ∃ w', putDump memory length last 0 0 w = .ok w' ∧ _
    rw [putDump,check _ (by decide)]
    show ∃ w', (put last (twoBytes 0) _ >>= _) = _ ∧ _
    rw [puts (twoBytes 0) (by show w.tmp_buf+2 ≤ last; omega)]
    exact ⟨_,rfl,by show w.mess_length+2 ≤ _; omega,by show w.tmp_buf+2 ≤ _; omega⟩
theorem zero_args (zero : ∀ i, header.args i = 0) (inside : argn+(front.map Conversion.argsNumber).sum ≤ TA_LOG_ARGS_MAX) (known : .beyond ∉ front)
    (room : w.mess_length+10*front.length ≤ length) (room' : w.tmp_buf+10*front.length ≤ last) :
    ∃ w', putArgs memory header length last front argn w = .ok w' := by
  induction front generalizing argn w with
  | nil => exact ⟨w,rfl⟩
  | cons c front ih =>
    rw [map_cons,sum_cons] at inside
    rw [length_cons] at room room'
    obtain ⟨other,known⟩ := List.ne_and_not_mem_of_not_mem_cons known
    obtain ⟨w',first,less,less'⟩ := @zero_arg memory header length last argn w c zero (by omega) (Ne.symm other) (by omega) (by omega)
    rw [putArgs,first]
    exact ih (by omega) known (by omega) (by omega)
theorem getEnds_iff (fmt : CStr) : GetEnds fmt ↔ ∀ n, CutOff (agentFails 0) (conversionPasses getArgs) n fmt → TA_LOG_ARGS_MAX < n := by
  constructor
  · rintro ⟨_,ends⟩ n cut
    obtain ⟨front,scanned,cost,known⟩ := cut_beyond cut (lt_succ_self _)
    by_contra few
    obtain ⟨w',written⟩ := @zero_args ⟨0,fun _ => 0⟩ ⟨false,1,0,0,0,0,0,[],fmt,fun _ => 0⟩ (10*front.length) (10*front.length) 0 ⟨fun _ => 0,0,0⟩ front
      (fun _ => rfl) (by omega) known (le_of_eq (Nat.zero_add _)) (le_of_eq (Nat.zero_add _))
    exact ends _ _ _ _ _ _ rfl ⟨front,[],w',scanned,written⟩
  · intro many
    refine ⟨fun fuel enough => ?_,?_⟩
    · obtain ⟨more,rfl⟩ := Nat.exists_eq_add_of_lt enough
      induction more with
      | zero => rfl
      | succ more ih => rw [← ih (by omega)]; exact conversions_enough (by omega)
    · rintro memory header length last argn w rfl ⟨front,rest,w',scanned,written⟩
      have beyond_end := many _ (beyond_cut (lt_succ_self _) scanned)
      obtain rfl | few := putArgs_limit written
      · cases beyond_end
      · omega
end

section
variable {memory : RbMemory} {null_str : UInt64} {ap : Nat → UInt64} {precision : Int} {c : Char} {fmt fs : CStr} {m m' : LogArgs} {rest : Option CStr}
  {fuel n : Nat}

/-- Whatever the arguments are, the format of a message that is logged is read only up to its end. -/
def MessageEnds (fmt : CStr) : Prop := ∀ memory null_str ap, ta_log_message memory null_str ap fmt ≠ .error .overrun

theorem skipIn_eq (skip s : CStr) : skipIn skip s = if s.dropWhile (· ∈ skip) = [] then .error .overrun else .ok (s.dropWhile (· ∈ skip)) := by
  rw [skipIn,skipAll_eq]
  split_ifs <;> rfl
/-- A conversion from its character on. -/
def logFrom (memory : RbMemory) (null_str : UInt64) (ap : Nat → UInt64) (precision : Int) (m : LogArgs) : CStr → Except LogArgsStop (LogArgs × CStr)
  | [] => .error .overrun
  | c :: s => do
    let (m,rest) ← logConversion memory null_str ap precision c s m
    let m ← m.next
    match rest with
    | none => .error .overrun
    | some s => .ok (m,s)
/-- Widths and precisions that are arguments change neither the place of the conversion character nor the number of arguments kept. -/
theorem logArgument_eq (memory : RbMemory) (null_str : UInt64) (ap : Nat → UInt64) (s : CStr) (m : LogArgs) :
    ∃ precision m', m'.narg = m.narg ∧ logArgument memory null_str ap s m = logFrom memory null_str ap precision m' (behindWidth s) := by
  have star (s : CStr) : (if s.head? = some '*' then s.tail else s).dropWhile (· ∈ skip_width) = s.dropWhile (· ∈ skip_width) := by
    split_ifs with star
    · cases s with
      | nil => cases star
      | cons c s =>
        obtain rfl := some.inj star
        rfl
    · rfl
  have width (s : CStr) (m : LogArgs) : (widthArg ap s m).1.dropWhile (· ∈ skip_width) = s.dropWhile (· ∈ skip_width) ∧ (widthArg ap s m).2.narg = m.narg := by
    rw [← star s,widthArg]
    split_ifs <;> exact ⟨rfl,rfl⟩
  have precision (s : CStr) (m : LogArgs) : (precisionArg ap s m).2.1.dropWhile (· ∈ skip_width) =
      (if s.head? = some '.' then s.tail else s).dropWhile (· ∈ skip_width) ∧ (precisionArg ap s m).2.2.narg = m.narg := by
    rw [precisionArg]
    by_cases point : s.head? = some '.'
    · rw [if_pos point,if_pos point,← star s.tail]
      split_ifs <;> exact ⟨rfl,rfl⟩
    · rw [if_neg point,if_neg point]
      exact ⟨rfl,rfl⟩
  have ok_bind {α β : Type} (a : α) (f : α → Except LogArgsStop β) : (Except.ok a >>= f) = f a := rfl
  rw [logArgument,skipIn_eq,behindWidth]
  generalize s.dropWhile (· ∈ skip_flags) = b
  by_cases flags : b = []
  · rw [if_pos flags,flags]
    exact ⟨0,m,rfl,rfl⟩
  · rw [if_neg flags,ok_bind]
    obtain ⟨same,kept⟩ := width b m
    dsimp only
    rw [skipIn_eq,same]
    have again : (b.dropWhile (· ∈ skip_width)).dropWhile (· ∈ skip_width) = b.dropWhile (· ∈ skip_width) :=
      List.dropWhile_eq_self_iff.mpr fun left => List.dropWhile_get_zero_not _ b left
    generalize b.dropWhile (· ∈ skip_width) = d at again ⊢
    by_cases digits : d = []
    · rw [if_pos digits,digits]
      exact ⟨0,m,rfl,rfl⟩
    · rw [if_neg digits,ok_bind]
      obtain ⟨same',kept'⟩ := precision d (widthArg ap b m).2
      have settled : (if d.head? = some '.' then d.tail else d).dropWhile (· ∈ skip_width) =
          if d.head? = some '.' then d.tail.dropWhile (· ∈ skip_width) else d := by
        split_ifs
        · rfl
        · exact again
      rw [settled] at same'
      rw [skipIn_eq,same']
      refine ⟨(precisionArg ap d (widthArg ap b m).2).1,(precisionArg ap d (widthArg ap b m).2).2.2,kept'.trans kept,?_⟩
      generalize (if d.head? = some '.' then d.tail.dropWhile (· ∈ skip_width) else d) = e
      cases e <;> rfl
theorem set_narg (set : LGR_SET_ARG val m = .ok m') : m'.narg = m.narg := by
  rw [LGR_SET_ARG] at set
  split_ifs at set
  obtain rfl := ok.inj set
  rfl
theorem next_narg (next : m.next = .ok m') : m'.narg = m.narg+1 ∧ m.narg+1 ≤ TA_LOG_ARGS_MAX := by
  rw [LogArgs.next] at next
  split_ifs at next with less
  obtain rfl := ok.inj next
  exact ⟨rfl,not_lt.mp less⟩
variable {s : CStr}

theorem conversionOf_other {c : Char} (other : c ≠ 'T') : (conversionOf c s).2 = s ∧ messageArgs (conversionOf c s).1 = 1 := by
  rw [conversionOf.eq_def]
  split
  · exact ⟨rfl,rfl⟩
  · exact ⟨rfl,rfl⟩
  · exact ⟨rfl,rfl⟩
  · exact absurd rfl other
  · exact absurd rfl other
  · dsimp only
    split_ifs <;> exact ⟨rfl,rfl⟩
theorem logConversion_cost (result : logConversion memory null_str ap precision c s m = .ok (m',rest)) :
    m'.narg+1 = m.narg+messageArgs (conversionOf c s).1 ∧ rest = if c = 'T' ∧ s = [] then none else some (conversionOf c s).2 := by
  have one (other : c ≠ 'T') (same : m'.narg = m.narg ∧ rest = some s) :
      m'.narg+1 = m.narg+messageArgs (conversionOf c s).1 ∧ rest = if c = 'T' ∧ s = [] then none else some (conversionOf c s).2 := by
    obtain ⟨second,cost⟩ := conversionOf_other other (s := s)
    rw [cost,same.1,if_neg (fun both => other both.1),second]
    exact ⟨rfl,same.2⟩
  unfold logConversion at result
  by_cases number : c ∈ ['d','i','o','x','X','u','c','r']
  · rw [if_pos number] at result
    obtain ⟨m₁,set,same⟩ := ok_of_bind result
    obtain ⟨rfl,rfl⟩ := Prod.mk.inj (ok.inj same)
    exact one (by rintro rfl; exact absurd number (by decide)) ⟨(set_narg set).trans rfl,rfl⟩
  rw [if_neg number] at result
  by_cases pointer : c = 'p'
  · rw [if_pos pointer] at result
    obtain ⟨m₁,set,same⟩ := ok_of_bind result
    obtain ⟨rfl,rfl⟩ := Prod.mk.inj (ok.inj same)
    exact one (by rw [pointer]; decide) ⟨(set_narg set).trans rfl,rfl⟩
  rw [if_neg pointer] at result
  by_cases string : c = 's'
  · rw [if_pos string] at result
    dsimp only at result
    by_cases precise : 0 ≤ precision
    · rw [if_pos precise] at result
      obtain ⟨rfl,rfl⟩ := Prod.mk.inj (ok.inj result)
      exact one (by rw [string]; decide) ⟨rfl,rfl⟩
    · rw [if_neg precise] at result
      split at result
      · cases result
      · obtain ⟨rfl,rfl⟩ := Prod.mk.inj (ok.inj result)
        exact one (by rw [string]; decide) ⟨rfl,rfl⟩
  rw [if_neg string] at result
  by_cases dump : c = 'T'
  · subst dump
    rw [if_pos rfl] at result
    cases s with
    | nil =>
      obtain ⟨rfl,rfl⟩ := Prod.mk.inj (ok.inj result)
      exact ⟨rfl,(if_pos ⟨rfl,rfl⟩).symm⟩
    | cons x s =>
      dsimp only at result
      rw [if_neg (fun both => cons_ne_nil _ _ both.2)]
      by_cases memory : x = 'm'
      · subst memory
        rw [if_pos rfl] at result
        obtain ⟨m₁,next,result⟩ := ok_of_bind result
        obtain ⟨m₂,set,same⟩ := ok_of_bind result
        obtain ⟨rfl,rfl⟩ := Prod.mk.inj (ok.inj same)
        have kept := (next_narg next).1
        refine ⟨?_,rfl⟩
        rw [set_narg set,kept]
        rfl
      · rw [if_neg memory] at result
        obtain ⟨rfl,rfl⟩ := Prod.mk.inj (ok.inj result)
        have cost : messageArgs (conversionOf 'T' (x :: s)).1 = 1 := by
          show messageArgs (if x = 'm' then some .dump else none) = 1
          rw [if_neg memory]
          rfl
        exact ⟨by rw [cost],rfl⟩
  · rw [if_neg dump] at result
    obtain ⟨rfl,rfl⟩ := Prod.mk.inj (ok.inj result)
    exact one dump ⟨rfl,rfl⟩
/-- Where the arguments of the call are zero, only their number matters. -/
theorem logConversion_zero (small : m.narg+messageArgs (conversionOf c s).1 ≤ TA_LOG_ARGS_MAX) :
    ∃ m' rest, logConversion ⟨0,fun _ => 0⟩ 0 (fun _ => 0) precision c s m = .ok (m',rest) := by
  have positive : 1 ≤ messageArgs (conversionOf c s).1 := by
    rw [messageArgs]
    split_ifs <;> decide
  have set (val : UInt64) (m : LogArgs) (less : m.narg < TA_LOG_ARGS_MAX) : ∃ m', LGR_SET_ARG val m = .ok m' := ⟨_,if_pos less⟩
  unfold logConversion
  by_cases number : c ∈ ['d','i','o','x','X','u','c','r']
  · obtain ⟨m₁,stored⟩ := set (intArg (m.take fun _ => 0).1) (m.take fun _ => 0).2 (by show m.narg < _; omega)
    rw [if_pos number,stored]
    exact ⟨m₁,_,rfl⟩
  rw [if_neg number]
  by_cases pointer : c = 'p'
  · obtain ⟨m₁,stored⟩ := set (m.take fun _ => 0).1 (m.take fun _ => 0).2 (by show m.narg < _; omega)
    rw [if_pos pointer,stored]
    exact ⟨m₁,_,rfl⟩
  rw [if_neg pointer]
  by_cases string : c = 's'
  · rw [if_pos string]
    by_cases precise : 0 ≤ precision
    · exact ⟨_,_,if_pos precise⟩
    · exact ⟨_,_,(if_neg precise).trans rfl⟩
  rw [if_neg string]
  by_cases dump : c = 'T'
  · subst dump
    rw [if_pos rfl]
    cases s with
    | nil => exact ⟨_,_,rfl⟩
    | cons x s =>
      dsimp only
      by_cases memory : x = 'm'
      · subst memory
        have two : m.narg+2 ≤ TA_LOG_ARGS_MAX := small
        have next : (LGR_PUT_MD_LIST 0 0 false ((m.take fun _ => 0).2.take fun _ => 0).2).next =
          .ok {LGR_PUT_MD_LIST 0 0 false ((m.take fun _ => 0).2.take fun _ => 0).2 with narg := m.narg+1} :=
          if_neg (by show ¬ TA_LOG_ARGS_MAX < m.narg+1; omega)
        obtain ⟨m₂,stored⟩ := set 0 {LGR_PUT_MD_LIST 0 0 false ((m.take fun _ => 0).2.take fun _ => 0).2 with narg := m.narg+1}
          (by show m.narg+1 < _; omega)
        rw [if_pos rfl]
        show ∃ m' rest, ((LGR_PUT_MD_LIST 0 0 false ((m.take fun _ => 0).2.take fun _ => 0).2).next >>= fun m =>
          LGR_SET_ARG 0 m >>= fun m => Except.ok (m,some s)) = Except.ok (m',rest)
        rw [next]
        show ∃ m' rest, (LGR_SET_ARG 0 _ >>= fun m => Except.ok (m,some s)) = Except.ok (m',rest)
        rw [stored]
        exact ⟨m₂,_,rfl⟩
      · rw [if_neg memory]
        exact ⟨_,_,rfl⟩
  · rw [if_neg dump]
    exact ⟨_,_,rfl⟩
theorem logConversion_stops {stop : LogArgsStop} (result : logConversion memory null_str ap precision c s m = .error stop) : stop ≠ .overrun := by
  have set {val : UInt64} {m : LogArgs} (result : LGR_SET_ARG val m = .error stop) : stop ≠ .overrun := by
    rw [LGR_SET_ARG] at result
    split_ifs at result
    obtain rfl := Except.error.inj result
    decide
  have next {m : LogArgs} (result : m.next = .error stop) : stop ≠ .overrun := by
    rw [LogArgs.next] at result
    split_ifs at result
    obtain rfl := Except.error.inj result
    decide
  unfold logConversion at result
  by_cases number : c ∈ ['d','i','o','x','X','u','c','r']
  · rw [if_pos number] at result
    obtain failed | ⟨_,_,result⟩ := error_of_bind result
    · exact set failed
    · cases result
  rw [if_neg number] at result
  by_cases pointer : c = 'p'
  · rw [if_pos pointer] at result
    obtain failed | ⟨_,_,result⟩ := error_of_bind result
    · exact set failed
    · cases result
  rw [if_neg pointer] at result
  by_cases string : c = 's'
  · rw [if_pos string] at result
    dsimp only at result
    by_cases precise : 0 ≤ precision
    · rw [if_pos precise] at result
      cases result
    · rw [if_neg precise] at result
      split at result
      · obtain rfl := Except.error.inj result
        decide
      · cases result
  rw [if_neg string] at result
  by_cases dump : c = 'T'
  · rw [if_pos dump] at result
    cases s with
    | nil => cases result
    | cons x s =>
      dsimp only at result
      by_cases memory : x = 'm'
      · rw [if_pos memory] at result
        obtain failed | ⟨_,_,result⟩ := error_of_bind result
        · exact next failed
        obtain failed | ⟨_,_,result⟩ := error_of_bind result
        · exact set failed
        · cases result
      · rw [if_neg memory] at result
        cases result
  · rw [if_neg dump] at result
    cases result
/-- A conversion that is not the end of the format leads behind its characters. -/
theorem logFrom_passes (result : logFrom memory null_str ap precision m (c :: fs) = .ok (m',s)) :
    (conversionOf c fs).1 ≠ some .beyond ∧ s = (conversionOf c fs).2 ∧ m'.narg = m.narg+messageArgs (conversionOf c fs).1 ∧ m'.narg ≤ TA_LOG_ARGS_MAX := by
  obtain ⟨⟨m₁,rest⟩,converted,result⟩ := ok_of_bind result
  obtain ⟨m₂,next,result⟩ := ok_of_bind result
  obtain ⟨cost,rest_eq⟩ := logConversion_cost converted
  obtain ⟨counted,few⟩ := next_narg next
  by_cases last : c = 'T' ∧ fs = []
  · rw [if_pos last] at rest_eq
    subst rest_eq
    cases result
  · rw [if_neg last] at rest_eq
    subst rest_eq
    obtain ⟨rfl,rfl⟩ := Prod.mk.inj (ok.inj result)
    exact ⟨fun beyond => last (conversionOf_beyond.mp beyond),rfl,counted.trans cost,counted ▸ few⟩
theorem logFrom_overrun (result : logFrom memory null_str ap precision m s = .error .overrun) :
    s = [] ∨ s = ['T'] ∧ m.narg+1 ≤ TA_LOG_ARGS_MAX := by
  cases s with
  | nil => exact .inl rfl
  | cons c fs =>
    obtain failed | ⟨⟨m₁,rest⟩,converted,result⟩ := error_of_bind result
    · exact absurd rfl (logConversion_stops failed)
    obtain failed | ⟨m₂,next,result⟩ := error_of_bind result
    · rw [LogArgs.next] at failed
      split_ifs at failed
      cases failed
    obtain ⟨cost,rest_eq⟩ := logConversion_cost converted
    by_cases last : c = 'T' ∧ fs = []
    · obtain ⟨rfl,rfl⟩ := last
      refine .inr ⟨rfl,?_⟩
      have less := (next_narg next).2
      exact cost ▸ less
    · rw [if_neg last] at rest_eq
      subst rest_eq
      cases result
theorem overrun_cut (enough : fmt.length < fuel) (small : m.narg ≤ TA_LOG_ARGS_MAX)
    (beyond_end : ta_log_message_args memory null_str ap fuel fmt m = .error .overrun) :
    ∃ n, CutOff (agentFails 1) (conversionPasses messageArgs) n fmt ∧ m.narg+n ≤ TA_LOG_ARGS_MAX := by
  induction fuel generalizing fmt m with
  | zero => exact absurd enough (Nat.not_lt_zero _)
  | succ fuel ih =>
    cases fmt with
    | nil => cases beyond_end
    | cons c s =>
      have shorter : s.length < fuel := lt_of_succ_lt_succ enough
      rw [ta_log_message_args] at beyond_end
      by_cases plain : c ≠ '%'
      · rw [if_pos plain] at beyond_end
        obtain ⟨n,cut,few⟩ := ih shorter small beyond_end
        exact ⟨n,.text plain cut,few⟩
      rw [if_neg plain] at beyond_end
      obtain rfl := not_not.mp plain
      by_cases percent : s.head? = some '%'
      · rw [if_pos percent] at beyond_end
        obtain ⟨n,cut,few⟩ := ih (lt_of_le_of_lt (s.length_tail ▸ Nat.sub_le _ 1) shorter) small beyond_end
        exact ⟨0+n,.behind (.inl ⟨percent,rfl,rfl⟩) cut,by omega⟩
      rw [if_neg percent] at beyond_end
      obtain ⟨precision,m₀,kept,same⟩ := logArgument_eq memory null_str ap s m
      rw [same] at beyond_end
      obtain failed | ⟨⟨m₁,s₁⟩,passed,beyond_end⟩ := error_of_bind beyond_end
      · obtain width | ⟨width,few⟩ := logFrom_overrun failed
        · exact ⟨0,.here ⟨percent,.inl ⟨width,rfl⟩⟩,small⟩
        · exact ⟨1,.here ⟨percent,.inr ⟨width,rfl⟩⟩,kept ▸ few⟩
      · cases width : behindWidth s with
        | nil =>
          rw [width] at passed
          cases passed
        | cons c fs =>
          rw [width] at passed
          obtain ⟨inside,rfl,counted,few⟩ := logFrom_passes passed
          have less := behindWidth_length s
          have less' := conversionOf_length c fs
          rw [width,length_cons] at less
          obtain ⟨n,cut,few⟩ := ih (by omega) few beyond_end
          exact ⟨_,.behind (.inr ⟨percent,c,fs,width,inside,rfl,rfl⟩) cut,by omega⟩
theorem cut_overrun (cut : CutOff (agentFails 1) (conversionPasses messageArgs) n fmt) (enough : fmt.length < fuel) (few : m.narg+n ≤ TA_LOG_ARGS_MAX) :
    ta_log_message_args ⟨0,fun _ => 0⟩ 0 (fun _ => 0) fuel fmt m = .error .overrun := by
  have next {m : LogArgs} (less : m.narg+1 ≤ TA_LOG_ARGS_MAX) : m.next = .ok {m with narg := m.narg+1} := if_neg (not_lt.mpr less)
  induction cut generalizing fuel m with
  | @here cost s fails =>
    obtain ⟨fuel,rfl⟩ := succ_of_lt enough
    obtain ⟨percent,fails⟩ := fails
    obtain ⟨precision,m₀,kept,same⟩ := logArgument_eq ⟨0,fun _ => 0⟩ 0 (fun _ => 0) s m
    rw [ta_log_message_args,if_neg (not_not.mpr rfl),if_neg percent,same]
    obtain ⟨width,rfl⟩ | ⟨width,rfl⟩ := fails
    · rw [width]
      rfl
    · rw [width]
      show (m₀.next >>= _) >>= _ = _
      rw [next (kept ▸ few)]
      rfl
  | text plain later ih =>
    obtain ⟨fuel,rfl⟩ := succ_of_lt enough
    rw [ta_log_message_args,if_pos plain]
    exact ih (lt_of_succ_lt_succ enough) few
  | @behind n cost s rest passed later ih =>
    obtain ⟨fuel,rfl⟩ := succ_of_lt enough
    have shorter : s.length < fuel := lt_of_succ_lt_succ enough
    rw [ta_log_message_args,if_neg (not_not.mpr rfl)]
    obtain ⟨percent,rfl,rfl⟩ | ⟨percent,c,fs,width,inside,rfl,rfl⟩ := passed
    · rw [if_pos percent]
      exact ih (lt_of_le_of_lt (s.length_tail ▸ Nat.sub_le _ 1) shorter) (by omega)
    · have less := behindWidth_length s
      have less' := conversionOf_length c fs
      rw [width,length_cons] at less
      obtain ⟨precision,m₀,kept,same⟩ := logArgument_eq ⟨0,fun _ => 0⟩ 0 (fun _ => 0) s m
      rw [if_neg percent,same,width]
      obtain ⟨m₁,rest,converted⟩ := @logConversion_zero precision c m₀ fs (by omega)
      obtain ⟨cost,rest_eq⟩ := logConversion_cost converted
      rw [if_neg (fun last => inside (conversionOf_beyond.mpr last))] at rest_eq
      subst rest_eq
      rw [logFrom,converted]
      show (m₁.next >>= _) >>= _ = _
      rw [next (by omega)]
      exact @ih {m₁ with narg := m₁.narg+1} fuel (by omega) (by show m₁.narg+1+n ≤ _; omega)
theorem messageEnds_iff (fmt : CStr) : MessageEnds fmt ↔ ∀ n, CutOff (agentFails 1) (conversionPasses messageArgs) n fmt → TA_LOG_ARGS_MAX < n := by
  constructor
  · intro ends n cut
    by_contra few
    exact ends _ _ _ (cut_overrun cut (lt_succ_self _) (by show 0+n ≤ _; omega))
  · rintro many memory null_str ap beyond_end
    obtain ⟨n,cut,few⟩ := overrun_cut (lt_succ_self _) (Nat.zero_le _) beyond_end
    have := many n cut
    omega
end

section

/-- A conversion that leads behind its characters, of which a `T` takes one more. -/
def agentPasses (cost : Char → CStr → Nat) (s rest : CStr) (n : Nat) : Prop :=
  s.head? = some '%' ∧ rest = s.tail ∧ n = 0 ∨
  s.head? ≠ some '%' ∧ ∃ c fs, behindWidth s = c :: fs ∧ ¬ (c = 'T' ∧ fs = []) ∧ rest = (if c = 'T' then fs.tail else fs) ∧ n = cost c fs
def messageCost (c : Char) (fs : CStr) : Nat := if c = 'T' ∧ fs.head? = some 'm' then 2 else 1
def getCost (c : Char) (fs : CStr) : Nat :=
  if c = 'T' then if fs.head? = some 'm' then 2 else 0
  else if c ∈ ['p','c','s','d','i','o','x','X','u','r'] then 1 else 0

theorem conversionOf_text {c : Char} {fs : CStr} (inside : ¬ (c = 'T' ∧ fs = [])) :
    (conversionOf c fs).2 = (if c = 'T' then fs.tail else fs) ∧ messageArgs (conversionOf c fs).1 = messageCost c fs ∧
    getArgs (conversionOf c fs).1 = getCost c fs := by
  by_cases dump : c = 'T'
  · subst dump
    cases fs with
    | nil => exact absurd ⟨rfl,rfl⟩ inside
    | cons x fs =>
      rw [messageCost,getCost,conversionOf,head?_cons]
      by_cases memory : x = 'm'
      · subst memory
        exact ⟨rfl,rfl,rfl⟩
      · have other : ¬ (some x = some 'm') := fun same => memory (some.inj same)
        rw [if_neg memory,if_pos rfl,if_neg other]
        exact ⟨rfl,(if_neg fun both => other both.2).symm,rfl⟩
  · obtain ⟨rest,one⟩ := conversionOf_other dump (s := fs)
    refine ⟨rest.trans (if_neg dump).symm,one.trans (if_neg fun both => dump both.1).symm,?_⟩
    rw [getCost,if_neg dump,conversionOf.eq_def]
    split
    · rfl
    · rfl
    · rfl
    · exact absurd rfl dump
    · exact absurd rfl dump
    next pointer char string _ _ =>
      have others : c ∈ ['p','c','s','d','i','o','x','X','u','r'] ↔ c ∈ ['d','i','o','x','X','u','r'] := by
        have pointer : c ≠ 'p' := pointer
        have char : c ≠ 'c' := char
        have string : c ≠ 's' := string
        rw [mem_cons,or_iff_right pointer,mem_cons,or_iff_right char,mem_cons,or_iff_right string]
      dsimp only
      by_cases number : c ∈ ['d','i','o','x','X','u','r']
      · rw [if_pos number,if_pos (others.mpr number)]
        rfl
      · rw [if_neg number,if_neg (fun member => number (others.mp member))]
        rfl
theorem conversionPasses_eq {cost : Option Conversion → Nat} {cost' : Char → CStr → Nat}
    (same : ∀ {c fs}, ¬ (c = 'T' ∧ fs = []) → cost (conversionOf c fs).1 = cost' c fs) : conversionPasses cost = agentPasses cost' := by
  funext s rest n
  refine propext (or_congr_right (and_congr_right fun _ => exists₂_congr fun c fs => and_congr_right fun _ => ?_))
  rw [ne_eq,conversionOf_beyond]
  refine and_congr_right fun inside => ?_
  rw [(conversionOf_text inside).1,same inside]
/-- The formats that no scanner leaves. `te_log_vprintf` runs out of one that ends in flags or a `T`; the loggers of an agent also out of one
that ends in a width or a precision, as long as they have room for the arguments before. -/
theorem scanners_end (fmt : CStr) : (Tools.LogFmt.VprintfEnds fmt ∧ MessageEnds fmt ∧ GetEnds fmt) ↔
    (¬ ∃ n, CutOff Tools.LogFmt.vprintfFails Tools.LogFmt.vprintfPasses n fmt) ∧
    (∀ n, CutOff (agentFails 1) (agentPasses messageCost) n fmt → TA_LOG_ARGS_MAX < n) ∧
    ∀ n, CutOff (agentFails 0) (agentPasses getCost) n fmt → TA_LOG_ARGS_MAX < n := by
  rw [Tools.LogFmt.vprintfEnds_iff,messageEnds_iff,getEnds_iff,
    conversionPasses_eq fun inside => (conversionOf_text inside).2.1,conversionPasses_eq fun inside => (conversionOf_text inside).2.2]
theorem percent_at_end : ¬ Tools.LogFmt.VprintfEnds ['1','0','0','%'] ∧ ¬ MessageEnds ['1','0','0','%'] ∧ ¬ GetEnds ['1','0','0','%'] := by
  have text {fails passes} (cut : CutOff fails passes 0 ['%']) : CutOff fails passes 0 ['1','0','0','%'] :=
    .text (by decide) (.text (by decide) (.text (by decide) cut))
  rw [Tools.LogFmt.vprintfEnds_iff,messageEnds_iff,getEnds_iff,not_not]
  exact ⟨⟨0,text (.here ⟨rfl,.inl rfl⟩)⟩,fun many => absurd (many 0 (text (.here ⟨nofun,.inl ⟨rfl,rfl⟩⟩))) (by decide),
    fun many => absurd (many 0 (text (.here ⟨nofun,.inl ⟨rfl,rfl⟩⟩))) (by decide)⟩
end
end TestEnvironment.LoggerTa
