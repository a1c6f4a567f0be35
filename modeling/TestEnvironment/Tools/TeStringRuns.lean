import TestEnvironment.Tools.TeStringOps

/-!
Runs of operations on a dynamic string: what each operation is documented to leave, and
that every run in which the strings get their buffers in time leaves just that.
-/
namespace TestEnvironment.Tools
open Lib

section
variable {page : Page} {str : TeString} {content trail src : CStr} {padlen : Nat} {padchar : Char}

theorem chopLoop_holds (holds : HoldsText str content) :
    Safe (chopLoop trail content.length str) fun s => HoldsText s (content.rdropWhile fun c => c = '\x00' ∨ c ∈ trail) := by
  induction content using List.reverseRecOn generalizing str with
  | nil => exact holds
  | append_singleton content c ih =>
    have heap := holds.of_some (by simp)
    rw [append_assoc] at heap
    rw [length_append,length_singleton,chopLoop,heap.read (c := c) (by simp),List.rdropWhile_concat]
    show Safe (if _ then _ else _) _
    by_cases trailing : c = '\x00' ∨ c ∈ trail
    · rw [if_pos trailing,if_pos (by simpa using trailing)]
      have shorter : Heap {str with len := content.length} (content ++ c :: ['\x00']) := heap.of_ptr rfl rfl
      refine (shorter.put '\x00').bind fun s ⟨heap1,len1,_⟩ => ih (.heap (@Heap.start _ _ ['\x00'] ?_) len1)
      rwa [append_assoc]
    · rw [if_neg trailing,if_neg (by simpa using trailing)]
      exact holds
/-- Zeros are taken for trailing characters: without any at the end, just those of `trail` go. -/
theorem rdropWhile_zeros (kept : (content.rdropWhile (· ∈ trail)).getLast? ≠ some '\x00') :
    content.rdropWhile (fun c => c = '\x00' ∨ c ∈ trail) = content.rdropWhile (· ∈ trail) := by
  induction content using List.reverseRecOn with
  | nil => rfl
  | append_singleton content c ih =>
    rw [List.rdropWhile_concat] at kept ⊢
    rw [List.rdropWhile_concat]
    by_cases member : c ∈ trail
    · grind
    · grind
theorem chop_holds (holds : HoldsText str content) (kept : (content.rdropWhile (· ∈ trail)).getLast? ≠ some '\x00') :
    Safe (te_string_chop str trail) fun s => HoldsText s (content.rdropWhile (· ∈ trail)) := by
  have chopped := @chopLoop_holds _ _ trail holds
  rwa [rdropWhile_zeros kept,← holds.len] at chopped

/-- The text in the middle of `padlen` characters, to the right of it if there is no middle. -/
def centered (src : CStr) (padlen : Nat) (padchar : Char) : CStr :=
  let src_len := min src.length padlen
  replicate ((padlen-src_len+1)/2) padchar ++ src.take src_len ++ replicate ((padlen-src_len)/2) padchar

theorem centered_holds (holds : HoldsText str content) (reaches : Reaches str (content.length+padlen+1)) :
    Safe (te_string_add_centered page str src padlen padchar) fun s => HoldsText s (content ++ centered src padlen padchar) := by
  rw [te_string_add_centered,holds.len,mod_eq_of_lt reaches.1]
  refine (reserve_room holds reaches).bind fun s ⟨heap,len,enough⟩ => ?_
  have range := reaches.1
  simp only
  rw [mod_eq_of_lt (by omega)]
  have middle : (src.take (min src.length padlen)).length = min src.length padlen := by
    rw [length_take]
    omega
  refine (@Heap.extend _ _ (replicate ((padlen-min src.length padlen+1)/2) padchar) _ heap len
    (by rw [length_replicate]; omega)).bind fun s1 ⟨heap1,len1,size1⟩ => ?_
  refine (@Heap.extend _ _ (src.take (min src.length padlen)) _ heap1 (by rw [length_append,length_replicate]; omega)
    (by rw [middle]; omega)).bind fun s2 ⟨heap2,len2,size2⟩ => ?_
  refine (@Heap.extend _ _ (replicate ((padlen-min src.length padlen)/2) padchar) _ heap2
    (by rw [length_append,length_append,length_replicate,middle]; omega)
    (by rw [length_replicate]; omega)).bind fun s3 ⟨heap3,len3,size3⟩ => ?_
  have whole : (content ++ centered src padlen padchar).length = s3.len+padlen := by
    simp only [centered,length_append,length_replicate,middle]
    omega
  have heap4 : Heap {s3 with len := s3.len+padlen} (content ++ centered src padlen padchar) := by
    rw [centered,← append_assoc,← append_assoc]
    exact heap3.of_ptr rfl rfl
  exact (@Heap.extend _ _ ['\x00'] _ heap4 whole.symm (show s3.len+padlen+1 ≤ s3.size by omega)).mono
    fun s5 ⟨heap5,len5,_⟩ => .heap heap5 (len5.trans whole.symm)
end

section
variable {page : Page} {σ : Type} {buffer : TeString} {content line behind : CStr} {complete_lines : Bool}
  {callback : CStr → σ → Nat × σ} {user_data : σ}

/-- A line without the carriage return before its end. -/
def stripCr (line : CStr) : CStr := if line.getLast? = some '\r' then line.dropLast else line
/-- The lines up to the first one that the callback refuses are removed; the last one without
    a newline stays if only complete lines are wanted. -/
def processText (complete_lines : Bool) (callback : CStr → σ → Nat × σ) : Nat → CStr → σ → CStr
  | 0, content, _ => content
  | fuel+1, content, user_data =>
    let line := content.takeWhile (· ≠ '\n')
    if content = [] ∨ line = content ∧ complete_lines then content
    else
      let (rc,user_data) := callback (stripCr line) user_data
      if rc = 0 then processText complete_lines callback fuel (content.drop (line.length+1)) user_data
      else content.drop (line.length+1)
/-- No zero stands in the lines that are removed. -/
def LinesPlain (complete_lines : Bool) (callback : CStr → σ → Nat × σ) : Nat → CStr → σ → Prop
  | 0, _, _ => True
  | fuel+1, content, user_data =>
    let line := content.takeWhile (· ≠ '\n')
    content = [] ∨ line = content ∧ complete_lines ∨
      '\x00' ∉ line ∧ ((callback (stripCr line) user_data).1 = 0 →
        LinesPlain complete_lines callback fuel (content.drop (line.length+1)) (callback (stripCr line) user_data).2)

theorem endLine_holds {x : Char} (heap : Heap buffer (line ++ x :: behind)) :
    Safe (endLine buffer line.length) fun s => s.len = buffer.len ∧
      ∃ ended, ended.length = line.length ∧ stripCr line ++ ['\x00'] <+: ended ++ ['\x00'] ∧ Heap s (ended ++ '\x00' :: behind) := by
  rw [endLine]
  refine (heap.put '\x00').bind fun s ⟨heap1,len1,_⟩ => ?_
  rcases eq_nil_or_concat line with rfl | ⟨front,c,rfl⟩
  · exact ⟨len1,[],rfl,prefix_refl _,heap1⟩
  · rw [concat_eq_append] at heap1 ⊢
    have at' : (front ++ [c] ++ '\x00' :: behind)[front.length]? = some c := by simp
    rw [if_pos (by simp),show (front ++ [c]).length-1 = front.length by simp,heap1.read at']
    show Safe (if c = '\r' then _ else _) _
    split_ifs with cr
    · subst cr
      rw [append_assoc] at heap1
      refine (heap1.put '\x00').mono fun s2 ⟨heap2,len2,_⟩ => ⟨len2.trans len1,front ++ ['\x00'],by simp,?_,by simpa using heap2⟩
      rw [stripCr,if_pos (by simp),List.dropLast_concat]
      exact prefix_append _ _
    · refine ⟨len1,_,rfl,?_,heap1⟩
      rw [stripCr,if_neg (by simpa using cr)]
/-- Up to a character that stops both, taking stops at the same place. -/
theorem takeWhile_plain (plain : '\x00' ∉ content.takeWhile (· ≠ '\n')) :
    (content.takeWhile (· ≠ '\x00')).takeWhile (· ≠ '\n') = content.takeWhile (· ≠ '\n') := by
  induction content with
  | nil => rfl
  | cons c content ih =>
    by_cases newline : c = '\n'
    · subst newline
      rfl
    · simp_all [Ne.symm]
/-- Taking stops at the end or at the first character it is to stop at. -/
theorem takeWhile_stops (stop : Char) (content : CStr) : content.takeWhile (· ≠ stop) = content ∧ stop ∉ content ∨
    ∃ rest, content = content.takeWhile (· ≠ stop) ++ stop :: rest := by
  induction content with
  | nil => exact .inl ⟨rfl,not_mem_nil⟩
  | cons c content ih =>
    by_cases here : c = stop
    · simp [here]
    · simp_all [Ne.symm]
theorem value_seen (heap : Heap buffer (content ++ ['\x00'])) : buffer.value = .ok (content.takeWhile (· ≠ '\x00')) := by
  refine heap.value ?_ fun member => by simpa using List.mem_takeWhile_imp member
  rcases takeWhile_stops '\x00' content with ⟨whole,_⟩ | ⟨rest,split⟩
  · rw [whole]
  · refine ⟨rest ++ ['\x00'],?_⟩
    conv_rhs => rw [split]
    simp
theorem stripCr_start (line : CStr) : stripCr line <+: line := by grind [stripCr]
/-- The buffer starts with the line, and what stands behind it is left when the line is removed. -/
theorem endLine_text {x : Char} (heap : Heap buffer (line ++ x :: behind)) (len : buffer.len+1 = (line ++ x :: behind).length)
    (last : behind = [] ∨ behind.getLast? = some '\x00') (plain : '\x00' ∉ line) :
    Safe (endLine buffer line.length) fun s => s.value = .ok (stripCr line) ∧
      ∃ text, HoldsText s text ∧ text.drop (line.length+1) = behind.dropLast := by
  refine (endLine_holds heap).mono fun s ⟨len1,ended,length,text,heap1⟩ => ⟨?_,?_⟩
  · exact heap1.value (text.trans ⟨behind,by simp⟩) fun member => plain ((stripCr_start line).subset member)
  · rw [length_append,length_cons] at len
    rcases eq_nil_or_concat behind with rfl | ⟨front,z,rfl⟩
    · exact ⟨ended,.heap heap1 (by rw [len1,length]; simpa using len),drop_of_length_le (by omega)⟩
    · have zero : z = '\x00' := by simpa using last
      subst zero
      refine ⟨ended ++ '\x00' :: front,.heap (by simpa using heap1) ?_,?_⟩
      · grind
      · simp [length,List.drop_append]
/-- The callback sees a line without zeros, and it is removed. -/
theorem handleLine_holds {x : Char} (heap : Heap buffer (line ++ x :: behind)) (len : buffer.len+1 = (line ++ x :: behind).length)
    (last : behind = [] ∨ behind.getLast? = some '\x00') (plain : '\x00' ∉ line) :
    Safe (handleLine page callback buffer line.length user_data) fun r =>
      HoldsText r.1 behind.dropLast ∧ r.2 = callback (stripCr line) user_data := by
  refine (endLine_text heap len last plain).bind fun s ⟨seen,text,holds,rest⟩ => ?_
  rw [seen]
  show Safe (te_string_cut_beginning page s (line.length+1) >>= fun buffer => .ok (buffer,callback (stripCr line) user_data)) _
  exact (cut_beginning_holds (line.length+1) holds).bind fun s2 cut => ⟨rest ▸ cut,rfl⟩
/-- Where the line ends, and what is left behind it. -/
theorem line_split (content : CStr) : ∃ x behind, content ++ ['\x00'] = content.takeWhile (· ≠ '\n') ++ x :: behind ∧
    (behind = [] ∨ behind.getLast? = some '\x00') ∧ behind.dropLast = content.drop ((content.takeWhile (· ≠ '\n')).length+1) ∧
      (content.takeWhile (· ≠ '\n') = content ∨ x = '\n') := by
  rcases takeWhile_stops '\n' content with ⟨whole,_⟩ | ⟨rest,split⟩
  · refine ⟨'\x00',[],by rw [whole],.inl rfl,?_,.inl whole⟩
    rw [whole,drop_of_length_le (by omega),List.dropLast_nil]
  · generalize content.takeWhile (· ≠ '\n') = line at split ⊢
    subst split
    refine ⟨'\n',rest ++ ['\x00'],by simp,.inr (by simp),?_,.inr rfl⟩
    rw [List.dropLast_concat,List.drop_append,drop_of_length_le (by omega),nil_append,Nat.add_sub_cancel_left,List.drop_one,
      tail_cons]
theorem processLoop_holds (fuel : Nat) (holds : HoldsText buffer content) (plain : LinesPlain complete_lines callback fuel content user_data) :
    Safe (processLoop page complete_lines callback fuel buffer user_data) fun s =>
      HoldsText s.1 (processText complete_lines callback fuel content user_data) := by
  induction fuel generalizing buffer content user_data with
  | zero => exact holds
  | succ fuel ih =>
    rw [processLoop,processText]
    by_cases empty : content = []
    · rw [if_pos (by rw [holds.len,empty]; rfl),if_pos (.inl empty)]
      exact holds
    · have heap := holds.of_some empty
      rw [if_neg (by rw [holds.len]; simpa using empty),value_seen heap]
      show Safe (buffer.read ((content.takeWhile (· ≠ '\x00')).takeWhile (· ≠ '\n')).length >>= _) _
      by_cases kept : content.takeWhile (· ≠ '\n') = content ∧ complete_lines = true
      · -- the last line, which is not complete, stays
        obtain ⟨whole,complete⟩ := kept
        rw [if_pos (.inr ⟨whole,complete⟩)]
        have same : (content.takeWhile (· ≠ '\x00')).takeWhile (· ≠ '\n') = content.takeWhile (· ≠ '\x00') := by
          rw [List.takeWhile_eq_self_iff] at whole ⊢
          exact fun c member => whole c (( List.takeWhile_prefix _).subset member)
        have zero : (content ++ ['\x00'])[(content.takeWhile (· ≠ '\x00')).length]? = some '\x00' := by
          rcases takeWhile_stops '\x00' content with ⟨all,_⟩ | ⟨rest,split⟩
          · rw [all]
            simp
          · generalize content.takeWhile (· ≠ '\x00') = front at split ⊢
            rw [split]
            simp
        rw [same,heap.read zero]
        show Safe (if _ then _ else _) _
        rw [if_pos ⟨rfl,complete⟩]
        exact holds
      · obtain ⟨plain,later⟩ := (plain.resolve_left empty).resolve_left kept
        obtain ⟨x,behind,split,last,rest,stop⟩ := line_split content
        rw [takeWhile_plain plain]
        rw [split] at heap
        rw [heap.read (c := x) (by simp),if_neg (not_or.mpr ⟨empty,kept⟩)]
        show Safe (if _ then _ else _) _
        have goes : ¬ (x = '\x00' ∧ complete_lines = true) := by
          rintro ⟨rfl,complete⟩
          exact stop.elim (fun whole => kept ⟨whole,complete⟩) (by decide)
        rw [if_neg goes]
        refine (handleLine_holds heap (by rw [holds.len,← split]; simp) last plain).bind fun r ⟨left,called⟩ => ?_
        rw [rest] at left
        obtain ⟨s,rc,user⟩ := r
        simp only at left called
        show Safe (if rc = 0 then _ else _) _
        simp only [← called] at later ⊢
        by_cases accepted : rc = 0
        · rw [if_pos accepted,if_pos accepted]
          exact ih left (later accepted)
        · rw [if_neg accepted,if_neg accepted]
          exact left
end

section
variable {page : Page} {str : TeString} {content : CStr} {url_safe : Bool} {latch bits fuel : Nat}

/-- Base 64: three bytes are four characters, the last ones filled up. -/
def base64Text (url_safe : Bool) : List UInt8 → CStr
  | a :: b :: c :: bytes =>
    encode_base64_bits (a.toNat/4) url_safe :: encode_base64_bits (a.toNat%4*16+b.toNat/16) url_safe ::
      encode_base64_bits (b.toNat%16*4+c.toNat/64) url_safe :: encode_base64_bits (c.toNat%64) url_safe :: base64Text url_safe bytes
  | [a,b] =>
    [encode_base64_bits (a.toNat/4) url_safe,encode_base64_bits (a.toNat%4*16+b.toNat/16) url_safe,
      encode_base64_bits (b.toNat%16*4) url_safe,'=']
  | [a] => [encode_base64_bits (a.toNat/4) url_safe,encode_base64_bits (a.toNat%4*16) url_safe,'=','=']
  | [] => []

theorem encodeBits_one (printable : Printable str content) (enough : 6 ≤ bits) (less : bits < 12) :
    Safe (encodeBits page url_safe latch (fuel+2) bits str) fun r =>
      HoldsText r.1 (content ++ [encode_base64_bits (extractBits latch (bits-6) 6) url_safe]) ∧ r.2 = bits-6 := by
  rw [encodeBits,if_pos enough]
  refine (append_holds printable).bind fun s holds => ?_
  rw [encodeBits,if_neg (by omega)]
  exact ⟨holds,rfl⟩
theorem encodeBits_two (printable : Printable str content) :
    Safe (encodeBits page url_safe latch (fuel+3) 12 str) fun r =>
      HoldsText r.1 (content ++ [encode_base64_bits (extractBits latch 6 6) url_safe,encode_base64_bits (extractBits latch 0 6) url_safe]) ∧
        r.2 = 0 := by
  rw [encodeBits,if_pos (by decide)]
  refine (append_holds printable).bind fun s holds => ?_
  rw [encodeBits,if_pos (by decide)]
  refine (append_holds holds.printable).bind fun s2 holds2 => ?_
  rw [encodeBits,if_neg (by decide)]
  exact ⟨by simpa using holds2,rfl⟩
/-- A byte in the loop, with the characters that it completes. -/
theorem encodeByte {a : UInt8} {bytes : List UInt8} {emitted : CStr} {left : Nat} {Q : TeString → Prop}
    (first : Safe (encodeBits page url_safe (latch*2^8%UINT32_MOD+a.toNat) (bits+8) (bits+8) str) fun r =>
      HoldsText r.1 (content ++ emitted) ∧ r.2 = left)
    (rest : ∀ s, HoldsText s (content ++ emitted) →
      Safe (encodeLoop page url_safe bytes (latch*2^8%UINT32_MOD+a.toNat) left s >>= encodeRest page url_safe) Q) :
    Safe (encodeLoop page url_safe (a :: bytes) latch bits str >>= encodeRest page url_safe) Q := by
  rw [encodeLoop,bind_assoc]
  refine first.bind fun r ⟨holds,same⟩ => ?_
  obtain ⟨s,k⟩ := r
  obtain rfl : k = left := same
  exact rest s holds
/-- The bits of the byte read last and those left of the one before, in the latch. -/
theorem latch_bits (latch : Nat) (a : UInt8) :
    extractBits (latch*2^8%UINT32_MOD+a.toNat) 2 6 = a.toNat/4 ∧ extractBits (latch*2^8%UINT32_MOD+a.toNat) 4 6 = latch%4*16+a.toNat/16 ∧
      extractBits (latch*2^8%UINT32_MOD+a.toNat) 6 6 = latch%16*4+a.toNat/64 ∧
      extractBits (latch*2^8%UINT32_MOD+a.toNat) 0 6 = a.toNat%64 ∧
      (latch*2^8%UINT32_MOD+a.toNat)%4 = a.toNat%4 ∧ (latch*2^8%UINT32_MOD+a.toNat)%16 = a.toNat%16 := by
  have bound := a.toNat_lt
  have range : UINT32_MOD = 2^32 := rfl
  simp only [extractBits,range]
  omega
theorem encodeLoop_holds (bytes : List UInt8) (latch : Nat) (printable : Printable str content) (ended : bytes = [] → HoldsText str content) :
    Safe (encodeLoop page url_safe bytes latch 0 str >>= encodeRest page url_safe) fun s =>
      HoldsText s (content ++ base64Text url_safe bytes) := by
  fun_induction base64Text url_safe bytes generalizing str content latch with
  | case1 a b c bytes ih =>
    refine encodeByte (encodeBits_one printable (by decide) (by decide)) fun s1 holds1 => ?_
    refine encodeByte (encodeBits_one holds1.printable (by decide) (by decide)) fun s2 holds2 => ?_
    refine encodeByte (encodeBits_two holds2.printable) fun s3 holds3 => ?_
    refine (ih _ holds3.printable fun _ => holds3).mono fun s holds => ?_
    have bitsA := latch_bits latch a
    have bitsB := latch_bits (latch*2^8%UINT32_MOD+a.toNat) b
    have bitsC := latch_bits ((latch*2^8%UINT32_MOD+a.toNat)*2^8%UINT32_MOD+b.toNat) c
    simpa only [bitsA,bitsB,bitsC,append_assoc,cons_append,nil_append] using holds
  | case2 a b =>
    refine encodeByte (encodeBits_one printable (by decide) (by decide)) fun s1 holds1 => ?_
    refine encodeByte (encodeBits_one holds1.printable (by decide) (by decide)) fun s2 holds2 => ?_
    refine (append_holds holds2.printable).mono fun s holds => ?_
    have bitsA := latch_bits latch a
    have bitsB := latch_bits (latch*2^8%UINT32_MOD+a.toNat) b
    have last : extractBits ((latch*2^8%UINT32_MOD+a.toNat)*2^8%UINT32_MOD+b.toNat) 0 4*2^(6-4) = b.toNat%16*4 := by
      rw [extractBits,Nat.pow_zero,Nat.div_one]
      exact congrArg (·*4) bitsB.2.2.2.2.2
    simp only [bitsA,bitsB,last,append_assoc,cons_append,nil_append] at holds
    exact holds
  | case3 a =>
    refine encodeByte (encodeBits_one printable (by decide) (by decide)) fun s1 holds1 => ?_
    refine (append_holds holds1.printable).mono fun s holds => ?_
    have bitsA := latch_bits latch a
    have last : extractBits (latch*2^8%UINT32_MOD+a.toNat) 0 2*2^(6-2) = a.toNat%4*16 := by
      rw [extractBits,Nat.pow_zero,Nat.div_one]
      exact congrArg (·*16) bitsA.2.2.2.2.1
    simp only [bitsA,last,append_assoc,cons_append,nil_append] at holds
    exact holds
  | case4 =>
    rw [append_nil]
    exact ended rfl
/-- A larger buffer can be printed to. -/
theorem reserve_printable {size : Nat} (holds : HoldsText str content) (grows : str.size < size) (range : size < SIZE_MOD) :
    Safe (te_string_reserve page str size) fun s => Printable s content ∧ s.ptr ≠ none := by
  refine (reserve_room holds ⟨range,fun _ => grows⟩).mono fun s ⟨heap,len,enough⟩ => ?_
  have room : s.len < s.size := by
    have limit := holds.len
    cases holds with
    | null ptr len0 empty => omega
    | heap heap0 len0 =>
      have inside := heap0.inside
      rw [length_append,length_singleton] at inside
      omega
  obtain ⟨cells,own,_⟩ := heap.cells
  exact ⟨.heap heap len room,fun ptr => by cases ptr.symm.trans own⟩
/-- The reserve of the string does not matter: it is enlarged, and printing gets the buffer otherwise. -/
theorem encode_holds (bytes : List UInt8) (holds : HoldsText str content) :
    Safe (te_string_encode_base64 page str bytes url_safe) fun s => HoldsText s (content ++ base64Text url_safe bytes) := by
  have range : (str.size+bytes.length*4%SIZE_MOD/3)%SIZE_MOD < SIZE_MOD := mod_lt _ (by decide)
  rw [te_string_encode_base64]
  by_cases grows : (str.size+bytes.length*4%SIZE_MOD/3)%SIZE_MOD ≤ str.size
  · rw [te_string_reserve,if_pos grows]
    exact encodeLoop_holds bytes 0 holds.printable fun _ => holds
  · have some' : bytes ≠ [] := by
      rintro rfl
      exact grows (Nat.mod_le _ _)
    exact (reserve_printable holds (by omega) range).bind fun s printed =>
      encodeLoop_holds bytes 0 printed.1 fun none' => absurd none' some'

/-- The bytes that sextets make, four sextets being three bytes. -/
def sextetBytes : List Nat → List Nat
  | a :: b :: c :: d :: sextets => [a*4+b/16,b%16*16+c/4,c%4*64+d] ++ sextetBytes sextets
  | [a,b,c] => [a*4+b/16,b%16*16+c/4]
  | [a,b] => [a*4+b/16]
  | _ => []
/-- The sextets of the text up to the padding or to a character that is not allowed. -/
def textSextets (base64str : CStr) : List Nat :=
  ((base64str.filter (! isspace ·)).takeWhile fun c => (sextetOf c).isSome).filterMap sextetOf
/-- The text that decoding appends. -/
def decodedText (base64str : CStr) : CStr := (sextetBytes (textSextets base64str)).map Char.ofNat

/-- The sextets of the current group of four, and what the latch has of them. -/
inductive Pending : List Nat → Nat → Nat → Prop
  | none {latch : Nat} : Pending [] latch 0
  | one {a latch : Nat} (kept : latch%2^6 = a) : Pending [a] latch 6
  | two {a b latch : Nat} (kept : latch%2^4 = b%16) : Pending [a,b] latch 4
  | three {a b c latch : Nat} (kept : latch%2^2 = c%4) : Pending [a,b,c] latch 2
/-- The bytes that are still to come, those of the current group that were appended left out. -/
def comingBytes (group sextets : List Nat) : List Nat := (sextetBytes (group ++ sextets)).drop (group.length-1)

theorem coming_none {group : List Nat} (pending : Pending group latch bits) : comingBytes group [] = [] := by
  cases pending <;> rfl
/-- One more sextet: a byte is complete, unless the sextet is the first one of its group. -/
theorem pending_next {group sextets : List Nat} {x : Nat} (pending : Pending group latch bits) (small : x < 64) :
    if 8 ≤ bits+6 then ∃ group', Pending group' (latch*2^6%UINT32_MOD+x) (bits+6-8) ∧
      comingBytes group (x :: sextets) = extractBits (latch*2^6%UINT32_MOD+x) (bits+6-8) 8 :: comingBytes group' sextets
    else ∃ group', Pending group' (latch*2^6%UINT32_MOD+x) (bits+6) ∧ comingBytes group (x :: sextets) = comingBytes group' sextets := by
  have range : UINT32_MOD = 2^32 := rfl
  cases pending with
  | none =>
    rw [if_neg (by decide)]
    exact ⟨[x],.one (by rw [range]; omega),rfl⟩
  | one kept =>
    rename_i a
    rw [if_pos (by decide)]
    refine ⟨[a,x],.two (by rw [range]; omega),?_⟩
    have byte : extractBits (latch*2^6%UINT32_MOD+x) (6+6-8) 8 = a*4+x/16 := by
      simp only [extractBits,range]
      omega
    rw [byte]
    rcases sextets with _ | ⟨c,_ | ⟨d,sextets⟩⟩ <;> rfl
  | two kept =>
    rename_i a b
    rw [if_pos (by decide)]
    refine ⟨[a,b,x],.three (by rw [range]; omega),?_⟩
    have byte : extractBits (latch*2^6%UINT32_MOD+x) (4+6-8) 8 = b%16*16+x/4 := by
      simp only [extractBits,range]
      omega
    rw [byte]
    rcases sextets with _ | ⟨d,sextets⟩ <;> rfl
  | three kept =>
    rename_i a b c
    rw [if_pos (by decide)]
    refine ⟨[],.none,?_⟩
    have byte : extractBits (latch*2^6%UINT32_MOD+x) (2+6-8) 8 = c%4*64+x := by
      simp only [extractBits,range]
      omega
    rw [byte]
    rfl
theorem sextetOf_small {c : Char} {x : Nat} (found : sextetOf c = some x) : x < 64 := by
  have below {d : Char} (le : c ≤ d) : c.toNat ≤ d.toNat := UInt32.le_iff_toNat_le.mp le
  rw [sextetOf] at found
  split_ifs at found with upper lower digit plus slash
  · grind
  · grind
  · grind
  · simp only [some_inj] at found
    omega
  · simp only [some_inj] at found
    omega
theorem textSextets_space {c : Char} {src : CStr} (space : isspace c = true) : textSextets (c :: src) = textSextets src := by simp [space,textSextets]
theorem textSextets_stop {c : Char} {src : CStr} (other : isspace c = false) (stop : sextetOf c = none) : textSextets (c :: src) = [] := by
  simp [other,stop,textSextets]
theorem textSextets_next {c : Char} {src : CStr} {x : Nat} (other : isspace c = false) (found : sextetOf c = some x) :
    textSextets (c :: src) = x :: textSextets src := by simp [other,found,textSextets]
theorem append_byte (byte : Nat) (holds : HoldsText str content) (ready : str.ptr = none → str.size < 2) :
    Safe (te_string_append_buf page str (.bytes [Char.ofNat byte])) fun s => HoldsText s (content ++ [Char.ofNat byte]) ∧ s.ptr ≠ none := by
  have small := holds.small
  have range : PTRDIFF_MAX+2 < SIZE_MOD := by decide
  have appended := @append_buf_holds page _ _ (.bytes [Char.ofNat byte]) holds fun _ =>
    ⟨show content.length+1+1 < SIZE_MOD by omega,fun ptr => by
      have less := ready ptr
      show str.size < content.length+1+1
      omega⟩
  refine appended.mono fun s holds => ⟨holds,fun ptr => ?_⟩
  obtain ⟨cells,own,_⟩ := (holds.of_some (by simp [Source.text])).cells
  cases ptr.symm.trans own
theorem decodeLoop_holds (src : CStr) (group : List Nat) (padding : Nat) (holds : HoldsText str content) (pending : Pending group latch bits)
    (ready : str.ptr = none → str.size < 2 ∨ comingBytes group (if padding = 0 then textSextets src else []) = []) :
    Safe (decodeLoop page src latch bits padding str) fun r =>
      HoldsText r.1 (content ++ (comingBytes group (if padding = 0 then textSextets src else [])).map Char.ofNat) := by
  induction src generalizing str content group latch bits padding with
  | nil =>
    have none' : (if padding = 0 then textSextets [] else []) = [] := ite_self _
    rw [none',coming_none pending]
    simpa [decodeLoop,Safe] using holds
  | cons c src ih =>
    rw [decodeLoop]
    by_cases space : isspace c = true
    · rw [if_pos space]
      rw [textSextets_space space] at ready ⊢
      exact ih group padding holds pending ready
    rw [if_neg space]
    have other : isspace c = false := by simpa using space
    have nothing : Safe (.ok (str,Base64Status.TE_EILSEQ)) fun r : TeString × Base64Status => HoldsText r.1 (content ++ (comingBytes group []).map Char.ofNat) := by
      rw [coming_none pending]
      simpa [Safe] using holds
    by_cases pad : c = '='
    · -- the padding ends the sextets
      have stop : (if padding = 0 then textSextets (c :: src) else []) = [] := by
        rw [textSextets_stop other (by rw [pad]; decide)]
        exact ite_self _
      rw [stop,if_pos pad]
      by_cases many : 2 < padding+1
      · rw [if_pos many]
        exact nothing
      · rw [if_neg many]
        have later := ih group (padding+1) holds pending (by rw [if_neg (Nat.succ_ne_zero _),coming_none pending]; exact fun _ => .inr rfl)
        rwa [if_neg (Nat.succ_ne_zero _)] at later
    rw [if_neg pad]
    by_cases padded : 0 < padding
    · rw [if_pos padded,if_neg (by omega)]
      exact nothing
    obtain rfl : padding = 0 := by omega
    rw [if_neg padded,if_pos rfl]
    rw [if_pos rfl] at ready
    cases found : sextetOf c with
    | none =>
      rw [textSextets_stop other found]
      exact nothing
    | some x =>
      rw [textSextets_next other found] at ready ⊢
      have next := @pending_next _ _ _ (textSextets src) _ pending (sextetOf_small found)
      simp only
      by_cases full : 8 ≤ bits+6
      · rw [if_pos full] at next ⊢
        obtain ⟨group',pending',coming⟩ := next
        rw [coming] at ready ⊢
        refine (append_byte _ holds fun ptr => (ready ptr).resolve_right (cons_ne_nil _ _)).bind fun s ⟨holds',ptr'⟩ => ?_
        have later := ih group' 0 holds' pending' fun ptr => absurd ptr ptr'
        rw [if_pos rfl] at later
        simpa using later
      · rw [if_neg full] at next ⊢
        obtain ⟨group',pending',coming⟩ := next
        rw [coming] at ready ⊢
        have later := ih group' 0 holds pending' (by rw [if_pos rfl]; exact ready)
        rwa [if_pos rfl] at later
theorem decode_holds (base64str : CStr) (holds : HoldsText str content) (ready : str.ptr = none → str.size < 2 ∨ decodedText base64str = []) :
    Safe (te_string_decode_base64 page str base64str) fun r => HoldsText r.1 (content ++ decodedText base64str) := by
  have decoded := @decodeLoop_holds page _ _ 0 _ base64str [] 0 holds .none (by
    rw [if_pos rfl]
    exact fun ptr => (ready ptr).imp_right fun empty => List.map_eq_nil_iff.mp empty)
  rw [if_pos rfl] at decoded
  exact decoded
end

section
variable {page : Page} {str : TeString} {content : CStr}

/-- The operations on a string. What callbacks of `te_string_process_lines` do is a state of their own. -/
inductive StringOp
  | append (text : CStr)
  | append_buf (buf : Source)
  | replace_buf (seg_start seg_len : Nat) (buf : Source)
  | cut (len : Nat)
  | cut_beginning (len : Nat)
  | chop (trail : CStr)
  | add_centered (src : CStr) (padlen : Nat) (padchar : Char)
  | process_lines (complete_lines : Bool) (callback : CStr → List CStr → Nat × List CStr)
  | encode_base64 (bytes : List UInt8) (url_safe : Bool)
  | decode_base64 (base64str : CStr)
  | hex_raw2str (data : List UInt8)

/-- The call of the operation. -/
def StringOp.call (page : Page) (str : TeString) : StringOp → Except Stop TeString
  | .append text => te_string_append page str text
  | .append_buf buf => te_string_append_buf page str buf
  | .replace_buf seg_start seg_len buf => te_string_replace_buf page str seg_start seg_len buf
  | .cut len => te_string_cut page str len
  | .cut_beginning len => te_string_cut_beginning page str len
  | .chop trail => te_string_chop str trail
  | .add_centered src padlen padchar => te_string_add_centered page str src padlen padchar
  | .process_lines complete_lines callback => (te_string_process_lines page str complete_lines callback []).map Prod.fst
  | .encode_base64 bytes url_safe => te_string_encode_base64 page str bytes url_safe
  | .decode_base64 base64str => (te_string_decode_base64 page str base64str).map Prod.fst
  | .hex_raw2str data => te_str_hex_raw2str page str data
/-- The text that the operation is documented to leave. -/
def StringOp.documented (content : CStr) : StringOp → CStr
  | .append text => content ++ text
  | .append_buf buf => content ++ buf.text
  | .replace_buf seg_start seg_len buf => replaceText content (segStart content.length seg_start seg_len) seg_len buf.text
  | .cut len => content.take (content.length-len)
  | .cut_beginning len => content.drop len
  | .chop trail => content.rdropWhile (· ∈ trail)
  | .add_centered src padlen padchar => content ++ centered src padlen padchar
  | .process_lines complete_lines callback => processText complete_lines callback content.length content []
  | .encode_base64 bytes url_safe => content ++ base64Text url_safe bytes
  | .decode_base64 base64str => content ++ decodedText base64str
  | .hex_raw2str data => hexText data
/-- What an operation needs: sizes in range and, for the operations that store bytes without
    allocating first, a buffer or a reserve that is too small for them; no zeros where they are
    taken for the end of the text. -/
def StringOp.Fits (str : TeString) (content : CStr) : StringOp → Prop
  | .append_buf buf => buf.length ≠ 0 → Reaches str (content.length+buf.length+1)
  | .replace_buf seg_start seg_len buf => ReplaceFits str (segStart content.length seg_start seg_len) seg_len buf.length
  | .chop trail => (content.rdropWhile (· ∈ trail)).getLast? ≠ some '\x00'
  | .add_centered _ padlen _ => Reaches str (content.length+padlen+1)
  | .process_lines complete_lines callback => LinesPlain complete_lines callback content.length content []
  | .decode_base64 base64str => str.ptr = none → str.size < 2 ∨ decodedText base64str = []
  | .hex_raw2str data => data = [] ∧ str.ptr ≠ none
  | _ => True

theorem Safe.map {α β : Type} {r : Except Stop α} {f : α → β} {Q : β → Prop} (safe : Safe r fun a => Q (f a)) : Safe (r.map f) Q := by
  cases r with
  | ok a => exact safe
  | error stop =>
    cases stop with
    | fatal => trivial
    | fault => exact safe.elim
/-- Without data, the text is empty. -/
theorem hex_holds (holds : HoldsText str content) (buffer : str.ptr ≠ none) : Safe (te_str_hex_raw2str page str []) fun s => HoldsText s [] := by
  have heap := holds.of_buffer buffer
  have inside := heap.inside
  rw [length_append,length_singleton] at inside
  have reserved : te_string_reserve page str (([] : List UInt8).length*3%SIZE_MOD) = .ok str := if_pos (Nat.zero_le _)
  rw [te_str_hex_raw2str,reserved]
  show Safe (str.write 0 [] >>= _) _
  refine (@Heap.write _ _ [] _ heap (Nat.zero_le _) (Nat.zero_le _)).bind fun s1 ⟨heap1,_,size1⟩ => ?_
  refine (@Heap.write _ _ ['\x00'] 0 heap1 (Nat.zero_le _) (by rw [size1]; exact le_trans (Nat.le_add_left _ _) inside)).bind
    fun s2 ⟨heap2,_,_⟩ => .heap (heap2.of_ptr rfl rfl) rfl
/-- Every operation leaves the text it is documented to leave. -/
theorem call_holds (op : StringOp) (holds : HoldsText str content) (fits : op.Fits str content) :
    Safe (op.call page str) fun s => HoldsText s (op.documented content) := by
  cases op with
  | append text => exact append_holds holds.printable
  | append_buf buf => exact append_buf_holds holds fits
  | replace_buf seg_start seg_len buf => exact replace_holds holds fits
  | cut len => exact cut_holds len holds
  | cut_beginning len => exact cut_beginning_holds len holds
  | chop trail => exact chop_holds holds fits
  | add_centered src padlen padchar => exact centered_holds holds fits
  | process_lines complete_lines callback =>
    rw [StringOp.call,te_string_process_lines,holds.len]
    exact (processLoop_holds content.length holds fits).map
  | encode_base64 bytes url_safe => exact encode_holds bytes holds
  | decode_base64 base64str => exact (decode_holds base64str holds fits).map
  | hex_raw2str data =>
    obtain ⟨rfl,buffer⟩ := fits
    exact hex_holds holds buffer

/-- The operations one after the other. -/
def runOps (page : Page) : TeString → List StringOp → Except Stop TeString
  | str, [] => .ok str
  | str, op :: ops => do
    let str ← op.call page str
    runOps page str ops
/-- What all operations of the run need in the states they meet. -/
def RunFits (page : Page) : TeString → CStr → List StringOp → Prop
  | _, _, [] => True
  | str, content, op :: ops => op.Fits str content ∧ ∀ str', op.call page str = .ok str' → RunFits page str' (op.documented content) ops
/-- Where there is a buffer, the length is below its size, the text stands in it, and a zero behind. -/
def WellFormed (str : TeString) (content : CStr) : Prop :=
  ∀ cells, str.ptr = some cells → str.len < str.size ∧ cells.length = str.size ∧ cells[str.len]? = some (some '\x00') ∧
    cells.take str.len = content.map some

theorem HoldsText.wellFormed (holds : HoldsText str content) : WellFormed str content := by
  intro cells ptr
  cases holds with
  | null none' => cases none'.symm.trans ptr
  | heap heap len =>
    have inside := heap.inside
    rw [length_append,length_singleton] at inside
    obtain ⟨⟨cells',own,length,⟨rest,split⟩⟩,_⟩ := heap
    obtain rfl : cells' = cells := some.inj (own.symm.trans ptr)
    refine ⟨by omega,length,?_,?_⟩
    · rw [← split,len]
      simp
    · rw [← split,len,map_append,append_assoc,List.take_left' (by simp)]
theorem run_holds (ops : List StringOp) (holds : HoldsText str content) (fits : RunFits page str content ops) :
    Safe (runOps page str ops) fun s => HoldsText s (ops.foldl StringOp.documented content) := by
  induction ops generalizing str content with
  | nil => exact holds
  | cons op ops ih =>
    have called := @call_holds page _ _ op holds fits.1
    rw [runOps]
    cases result : op.call page str with
    | ok str' =>
      rw [result] at called
      exact ih called (fits.2 str' result)
    | error stop =>
      rw [result] at called
      cases stop with
      | fatal => trivial
      | fault => exact called.elim

/-- A run from an initialiser in which every operation has what it needs never writes through `NULL`
    or outside the buffer, and leaves the documented text with its terminating zero. -/
theorem string_run_keeps (reserved_size : Nat) (ops : List StringOp) (fits : RunFits page (TE_STRING_INIT_RESERVE reserved_size) [] ops) :
    Safe (runOps page (TE_STRING_INIT_RESERVE reserved_size) ops) fun s => WellFormed s (ops.foldl StringOp.documented []) :=
  (run_holds ops (.null rfl rfl rfl) fits).mono fun _ holds => holds.wellFormed
theorem string_run_keeps_appended :
    Safe (runOps ⟨4096,by decide,by decide⟩ (TE_STRING_INIT_RESERVE 2) [.append_buf (.bytes ['a','b','c']),.encode_base64 [1,2] false,.cut 1]) fun s =>
      WellFormed s ['a','b','c','A','Q','I'] :=
  string_run_keeps 2 [.append_buf (.bytes ['a','b','c']),.encode_base64 [1,2] false,.cut 1]
    ⟨fun _ => ⟨by decide,fun _ => by decide⟩,fun _ _ => ⟨trivial,fun _ _ => ⟨trivial,fun _ _ => trivial⟩⟩⟩
/-- The reserve of an initialiser is no buffer: what fits into it is stored through `NULL`. -/
theorem reserve_no_buffer : ¬ ∀ page reserved_size ops,
    Safe (runOps page (TE_STRING_INIT_RESERVE reserved_size) ops) fun s => WellFormed s (ops.foldl StringOp.documented []) := by
  intro claim
  have fault := claim ⟨4096,by decide,by decide⟩ 2 [.append_buf (.bytes ['a'])]
  exact fault
end

end TestEnvironment.Tools
